/-
  HackIsa.Proofs.Instruction.Assembly — the word of three texts, or the text at fault.

  Assembling a word reads both texts that can be wrong before it encodes anything, while
  the fields are read and encoded one at a time. `Outcome` lists the four ways the first
  can end, each with its result in terms of the texts alone.

  A comp text can be at fault in two ways, and the jump text is looked at between them: a
  text that is no computation is reported whatever the jump text is, a computation that the
  ALU cannot perform only once the jump text has been read. The dest text is never at fault.

  A caller may also read the comp text as a computation that the ALU can perform and look
  the jump text up among the conditions, and encode the values later. What the reader of
  computations accepts has a field, so nothing is left to fail after it.

  Proved:
  - `assemble_eq_iff`: there is no fifth way, and each way has the one result.
  - `fields_of_assemble`: a word is its three fields, packed.
  - `error_of_assemble`: a failure is the failure of a field.
  - `assemble_agrees_with_parts`: the word exists exactly when both fields do, it holds
    them and the dest field in their places, and a failure is that of one of the two.
  - `assemble_eq_badComp_iff` / `assemble_eq_badJump_iff` / `assemble_isOk_iff`: when each
    ending arises, in terms of the texts alone.
  - `assemble_redirect`: with another dest text the same instruction fails alike, or has a
    word that differs in the dest field only.
  - `refusal_names_first_fault`: the endings and the dest text together.
  - `word_of_computable`: a computation read that way has a word with every dest and jump.
  - `typed_values_assemble_alike`: reading first and assembling the texts are the same.
-/

import HackIsa.Proofs.Instruction.Layout

namespace HackIsa

/-! ## The four endings -/

namespace Instruction

/-- How assembling three texts ends, and with what. -/
inductive Outcome (dest comp jump : String) : Except AssemblyError Word → Prop
  | noComp : (∀ c, Comp.text c ≠ comp) → Outcome dest comp jump (.error (.badComp comp))
  | noJump (c : Comp) : c.text = comp → (∀ j, Jump.textOf j ≠ jump) →
      Outcome dest comp jump (.error (.badJump jump))
  /-- A computation that the ALU cannot perform. -/
  | noBits (c : Comp) (j : Option Jump) : c.text = comp → Jump.textOf j = jump → c.bits? = none →
      Outcome dest comp jump (.error (.badComp comp))
  | word (c : Comp) (j : Option Jump) (bits : BitVec 7) : c.text = comp → Jump.textOf j = jump →
      c.bits? = some bits → Outcome dest comp jump (.ok (Word.pack bits (Dest.ofText dest).bits (Jump.code j)))

theorem assemble_of_bad_comp {dest comp jump : String} {e : AssemblyError} (h : Comp.ofText comp = .error e) :
    assemble dest comp jump = .error e := by
  simp only [assemble, ofText, h]; rfl

theorem assemble_of_bad_jump {dest comp jump : String} {c : Comp} {e : AssemblyError} (hc : Comp.ofText comp = .ok c)
    (hj : Jump.ofText jump = .error e) : assemble dest comp jump = .error e := by
  simp only [assemble, ofText, hc, hj]; rfl

theorem assemble_of_read {dest comp jump : String} {c : Comp} {j : Option Jump} (hc : Comp.ofText comp = .ok c)
    (hj : Jump.ofText jump = .ok j) : assemble dest comp jump = word ⟨.ofText dest, c, j⟩ := by
  simp only [assemble, ofText, hc, hj]; rfl

/-- The four ways leave no text out. -/
theorem exists_outcome (dest comp jump : String) : ∃ r, Outcome dest comp jump r := by
  rcases Comp.spelled_or_unspelled comp with ⟨c, hc⟩ | hn
  · rcases Jump.spelled_or_unspelled jump with ⟨j, hj⟩ | hn
    · cases hb : c.bits? with
      | none => exact ⟨_, .noBits c j hc hj hb⟩
      | some bits => exact ⟨_, .word c j bits hc hj hb⟩
    · exact ⟨_, .noJump c hc hn⟩
  · exact ⟨_, .noComp hn⟩

theorem Outcome.assemble_eq {dest comp jump : String} {r : Except AssemblyError Word}
    (h : Outcome dest comp jump r) : assemble dest comp jump = r := by
  cases h with
  | noComp hn => exact assemble_of_bad_comp (Comp.ofText_eq_error_iff.mpr ⟨hn, rfl⟩)
  | noJump c hc hn =>
    exact assemble_of_bad_jump (Comp.ofText_eq_ok_iff.mpr hc) (Jump.ofText_eq_error_iff.mpr ⟨hn, rfl⟩)
  | noBits c j hc hj hb =>
    rw [assemble_of_read (Comp.ofText_eq_ok_iff.mpr hc) (Jump.ofText_eq_ok_iff.mpr hj),
      word_of_no_bits (i := ⟨.ofText dest, c, j⟩) hb, ← hc]
  | word c j bits hc hj hb =>
    rw [assemble_of_read (Comp.ofText_eq_ok_iff.mpr hc) (Jump.ofText_eq_ok_iff.mpr hj),
      word_of_bits (i := ⟨.ofText dest, c, j⟩) hb]

theorem assemble_outcome (dest comp jump : String) : Outcome dest comp jump (assemble dest comp jump) := by
  obtain ⟨r, hr⟩ := exists_outcome dest comp jump
  rw [hr.assemble_eq]
  exact hr

theorem assemble_eq_iff {dest comp jump : String} {r : Except AssemblyError Word} :
    assemble dest comp jump = r ↔ Outcome dest comp jump r := by
  refine ⟨fun h => ?_, Outcome.assemble_eq⟩
  rw [← h]
  exact assemble_outcome dest comp jump

/-- The fields of an assembled word are those of its texts, each assembled on its own. -/
theorem fields_of_assemble {dest comp jump : String} {w : Word} (h : assemble dest comp jump = .ok w) :
    ∃ (bits : BitVec 7) (j : Option Jump), Comp.assemble comp = .ok (.ofBits bits) ∧
      Jump.assemble jump = .ok (.ofBits (Jump.code j)) ∧ w = Word.pack bits (Dest.ofText dest).bits (Jump.code j) := by
  cases assemble_eq_iff.mp h with
  | word c j bits hc hj hb =>
    refine ⟨bits, j, Comp.assemble_eq_ok_iff.mpr ⟨c, bits, hc, hb, rfl⟩, ?_, rfl⟩
    rw [← hj, Jump.assemble_textOf, Jump.field_eq_ofBits]

theorem holds_of_assemble {dest comp jump : String} {w : Word} (h : assemble dest comp jump = .ok w) :
    ∃ f h, Comp.assemble comp = .ok f ∧ Jump.assemble jump = .ok h ∧ w.Holds f (Dest.assemble dest) h := by
  obtain ⟨bits, j, hf, hh, rfl⟩ := fields_of_assemble h
  refine ⟨_, _, hf, hh, ?_⟩
  rw [Dest.assemble_eq_ofBits]
  exact Word.holds_pack bits (Dest.ofText dest).bits (Jump.code j)

/-- An instruction is refused for a text that is refused on its own. -/
theorem error_of_assemble {dest comp jump : String} {e : AssemblyError} (h : assemble dest comp jump = .error e) :
    Comp.assemble comp = .error e ∨ Jump.assemble jump = .error e := by
  cases assemble_eq_iff.mp h with
  | noComp hn => exact .inl (Comp.assemble_of_unspelled hn)
  | noJump c hc hn => exact .inr (Jump.assemble_of_unspelled hn)
  | noBits c j hc hj hb =>
    refine .inl ?_
    rw [← hc, Comp.assemble_text, Comp.field_of_no_bits hb]

/-- The word of three texts exists exactly when the comp and the jump text have a field each,
    and holds these and the dest field in their places. A failure is that of one of the two. -/
theorem assemble_agrees_with_parts (dest comp jump : String) :
    ((∃ w, assemble dest comp jump = .ok w) ↔
        (∃ f, Comp.assemble comp = .ok f) ∧ ∃ h, Jump.assemble jump = .ok h) ∧
      (∀ w, assemble dest comp jump = .ok w →
        ∃ f h, Comp.assemble comp = .ok f ∧ Jump.assemble jump = .ok h ∧ w.Holds f (Dest.assemble dest) h) ∧
      ∀ e, assemble dest comp jump = .error e → Comp.assemble comp = .error e ∨ Jump.assemble jump = .error e := by
  refine ⟨⟨fun h => ?_, fun h => ?_⟩, fun w => holds_of_assemble, fun e => error_of_assemble⟩
  · obtain ⟨w, hw⟩ := h
    obtain ⟨f, h, hf, hh, -⟩ := holds_of_assemble hw
    exact ⟨⟨f, hf⟩, h, hh⟩
  · obtain ⟨⟨f, hf⟩, h, hh⟩ := h
    cases hr : assemble dest comp jump with
    | ok w => exact ⟨w, rfl⟩
    | error e =>
      rcases error_of_assemble hr with he | he
      · rw [hf] at he
        cases he
      · rw [hh] at he
        cases he

example : assemble "D" "D+A" "" = .ok 0b1110000010010000#16 := rfl

example : assemble "D" "A+M" "JUMP" = .error (.badJump "JUMP") := rfl

/-! ## The text at fault -/

variable {dest comp jump : String}

theorem assemble_eq_badComp_iff : assemble dest comp jump = .error (.badComp comp) ↔
    (∀ c, Comp.text c ≠ comp) ∨ (∃ j, Jump.textOf j = jump) ∧ ∃ c, Comp.text c = comp ∧ c.control? = none := by
  rw [assemble_eq_iff]
  refine ⟨fun h => ?_, fun h => ?_⟩
  · cases h with
    | noComp hn => exact .inl hn
    | noBits c j hc hj hb => exact .inr ⟨⟨j, hj⟩, c, hc, Comp.bits?_eq_none_iff.mp hb⟩
  · rcases h with hn | ⟨⟨j, hj⟩, c, hc, hk⟩
    · exact .noComp hn
    · exact .noBits c j hc hj (Comp.bits?_eq_none_iff.mpr hk)

theorem assemble_eq_badJump_iff : assemble dest comp jump = .error (.badJump jump) ↔
    (∃ c, Comp.text c = comp) ∧ ∀ j, Jump.textOf j ≠ jump := by
  rw [assemble_eq_iff]
  refine ⟨fun h => ?_, fun h => ?_⟩
  · cases h with
    | noJump c hc hn => exact ⟨⟨c, hc⟩, hn⟩
  · obtain ⟨⟨c, hc⟩, hn⟩ := h
    exact .noJump c hc hn

theorem assemble_isOk_iff : (∃ w, assemble dest comp jump = .ok w) ↔
    (∃ j, Jump.textOf j = jump) ∧ ∃ c k, Comp.text c = comp ∧ c.control? = some k := by
  refine ⟨fun h => ?_, fun h => ?_⟩
  · obtain ⟨w, hw⟩ := h
    cases assemble_eq_iff.mp hw with
    | word c j bits hc hj hb =>
      obtain ⟨k, hk, -⟩ := Comp.bits?_eq_some_iff.mp hb
      exact ⟨⟨j, hj⟩, c, k, hc, hk⟩
  · obtain ⟨⟨j, hj⟩, c, k, hc, hk⟩ := h
    exact ⟨_, (Outcome.word c j _ hc hj (Comp.bits?_eq_some_iff.mpr ⟨k, hk, rfl⟩)).assemble_eq⟩

/-- Outside bits 5 to 3 a word does not depend on its dest field. -/
theorem getLsbD_pack_of_outside (comp : BitVec 7) (dest dest' jump : BitVec 3) {i : Nat} (hi : i < 3 ∨ 5 < i) :
    (Word.pack comp dest jump).getLsbD i = (Word.pack comp dest' jump).getLsbD i := by
  rw [Word.getLsbD_pack, Word.getLsbD_pack]
  rcases hi with hi | hi
  · rw [if_pos hi, if_pos hi]
  · have h₃ : ¬ i < 3 := by omega
    have h₆ : ¬ i < 6 := by omega
    rw [if_neg h₃, if_neg h₆, if_neg h₃, if_neg h₆]

/-- The dest text decides neither success nor the error, and only its own field of the word. -/
theorem assemble_redirect (dest dest' comp jump : String) :
    (∃ e, assemble dest comp jump = .error e ∧ assemble dest' comp jump = .error e) ∨
      ∃ w w', assemble dest comp jump = .ok w ∧ assemble dest' comp jump = .ok w' ∧
        ∀ i, i < 3 ∨ 5 < i → w.getLsbD i = w'.getLsbD i := by
  have out := assemble_outcome dest comp jump
  generalize assemble dest comp jump = r at out
  cases out with
  | noComp hn => exact .inl ⟨_, rfl, (Outcome.noComp hn).assemble_eq⟩
  | noJump c hc hn => exact .inl ⟨_, rfl, (Outcome.noJump c hc hn).assemble_eq⟩
  | noBits c j hc hj hb => exact .inl ⟨_, rfl, (Outcome.noBits c j hc hj hb).assemble_eq⟩
  | word c j bits hc hj hb =>
    exact .inr ⟨_, _, rfl, (Outcome.word c j bits hc hj hb).assemble_eq,
      fun i hi => getLsbD_pack_of_outside bits _ _ (Jump.code j) hi⟩

/-- A text that is no computation is the first fault, a text that is no jump the second, and a
    computation that the ALU cannot perform the last. The dest text is never one. -/
theorem refusal_names_first_fault (dest comp jump : String) :
    (assemble dest comp jump = .error (.badComp comp) ↔
        (∀ c, Comp.text c ≠ comp) ∨
          (jump = "" ∨ ∃ j : Jump, j.mnemonic = jump) ∧ ∃ c, Comp.text c = comp ∧ c.control? = none) ∧
      (assemble dest comp jump = .error (.badJump jump) ↔
        (∃ c, Comp.text c = comp) ∧ ¬ (jump = "" ∨ ∃ j : Jump, j.mnemonic = jump)) ∧
      ((∃ w, assemble dest comp jump = .ok w) ↔
        (jump = "" ∨ ∃ j : Jump, j.mnemonic = jump) ∧ ∃ c k, Comp.text c = comp ∧ c.control? = some k) ∧
      ∀ dest', (∃ e, assemble dest comp jump = .error e ∧ assemble dest' comp jump = .error e) ∨
        ∃ w w', assemble dest comp jump = .ok w ∧ assemble dest' comp jump = .ok w' ∧
          ∀ i, i < 3 ∨ 5 < i → w.getLsbD i = w'.getLsbD i := by
  rw [← Jump.exists_textOf_iff, not_exists]
  exact ⟨assemble_eq_badComp_iff, assemble_eq_badJump_iff, assemble_isOk_iff,
    fun dest' => assemble_redirect dest dest' comp jump⟩

end Instruction

/-! ## Values read beforehand -/

namespace Comp

theorem ofComputable_of_unspelled {s : String} (h : ∀ c, text c ≠ s) : ofComputable s = .error (.badComp s) := by
  simp only [ofComputable, ofText_eq_error_iff.mpr ⟨h, rfl⟩]; rfl

theorem ofComputable_of_field {c : Comp} {f : BitField} (h : c.field = .ok f) : ofComputable c.text = .ok c := by
  simp only [ofComputable, ofText_text, bind, Except.bind, h]; rfl

theorem ofComputable_of_no_field {c : Comp} {e : AssemblyError} (h : c.field = .error e) :
    ofComputable c.text = .error e := by
  simp only [ofComputable, ofText_text, bind, Except.bind, h]

/-- The readable texts: a computation is read from its own spelling, if it has a field. -/
theorem ofComputable_eq_ok_iff {s : String} {c : Comp} : ofComputable s = .ok c ↔ text c = s ∧ ∃ f, c.field = .ok f := by
  refine ⟨fun h => ?_, fun h => ?_⟩
  · rcases spelled_or_unspelled s with ⟨d, rfl⟩ | hn
    · cases hf : d.field with
      | ok f =>
        rw [ofComputable_of_field hf] at h
        cases h
        exact ⟨rfl, f, hf⟩
      | error e =>
        rw [ofComputable_of_no_field hf] at h
        cases h
    · rw [ofComputable_of_unspelled hn] at h
      cases h
  · obtain ⟨rfl, f, hf⟩ := h
    exact ofComputable_of_field hf

theorem ofComputable_eq_error_iff {s : String} {e : AssemblyError} : ofComputable s = .error e ↔ assemble s = .error e := by
  rcases spelled_or_unspelled s with ⟨c, rfl⟩ | hn
  · rw [assemble_text]
    cases hf : c.field with
    | ok f => simp [ofComputable_of_field hf]
    | error d => simp [ofComputable_of_no_field hf]
  · simp [ofComputable_of_unspelled hn, assemble_of_unspelled hn]

theorem assemble_of_computable {s : String} {c : Comp} (h : ofComputable s = .ok c) :
    ∃ f, c.field = .ok f ∧ assemble s = .ok f := by
  obtain ⟨rfl, f, hf⟩ := ofComputable_eq_ok_iff.mp h
  exact ⟨f, hf, by rw [assemble_text, hf]⟩

theorem exists_computable_iff {s : String} : (∃ c, ofComputable s = .ok c) ↔ ∃ f, assemble s = .ok f := by
  refine ⟨fun h => ?_, fun h => ?_⟩
  · obtain ⟨c, hc⟩ := h
    obtain ⟨f, -, hf⟩ := assemble_of_computable hc
    exact ⟨f, hf⟩
  · obtain ⟨f, hf⟩ := h
    obtain ⟨c, bits, hc, hb, -⟩ := assemble_eq_ok_iff.mp hf
    exact ⟨c, ofComputable_eq_ok_iff.mpr ⟨hc, _, field_of_bits hb⟩⟩

end Comp

namespace Instruction

theorem word_of_computable {s : String} {c : Comp} (h : Comp.ofComputable s = .ok c) (dest : Dest) (jump : Option Jump) :
    ∃ w, word ⟨dest, c, jump⟩ = .ok w := by
  obtain ⟨-, f, hf⟩ := Comp.ofComputable_eq_ok_iff.mp h
  obtain ⟨bits, hb, -⟩ := Comp.field_eq_ok_iff.mp hf
  exact ⟨_, word_of_bits (i := ⟨dest, c, jump⟩) hb⟩

theorem assemble_eq_word {dest comp jump : String} {c : Comp} {j : Option Jump} (hc : Comp.ofComputable comp = .ok c)
    (hj : Jump.Named jump j) : assemble dest comp jump = word ⟨.ofText dest, c, j⟩ :=
  assemble_of_read (Comp.ofText_eq_ok_iff.mpr (Comp.ofComputable_eq_ok_iff.mp hc).1)
    (Jump.ofText_eq_ok_iff.mpr (Jump.named_iff.mp hj))

theorem exists_typed_of_assemble {dest comp jump : String} {w : Word} (h : assemble dest comp jump = .ok w) :
    (∃ c, Comp.ofComputable comp = .ok c) ∧ ∃ j, Jump.Named jump j := by
  cases assemble_eq_iff.mp h with
  | word c j bits hc hj hb =>
    exact ⟨⟨c, Comp.ofComputable_eq_ok_iff.mpr ⟨hc, _, Comp.field_of_bits hb⟩⟩, j, Jump.named_iff.mpr hj⟩

/-- Reading the comp text as a performable computation and looking the jump text up by name
    accepts the texts that have a word, and the values read have that word. -/
theorem typed_values_assemble_alike (dest comp jump : String) :
    ((∃ c, Comp.ofComputable comp = .ok c) ↔ ∃ f, Comp.assemble comp = .ok f) ∧
      (∀ e, Comp.ofComputable comp = .error e ↔ Comp.assemble comp = .error e) ∧
      (∀ c, Comp.ofComputable comp = .ok c → c.text = comp ∧ ∃ f, c.field = .ok f ∧ Comp.assemble comp = .ok f) ∧
      (∀ c j, Comp.ofComputable comp = .ok c → Jump.Named jump j →
        ∃ w, word ⟨.ofText dest, c, j⟩ = .ok w ∧ assemble dest comp jump = .ok w) ∧
      (∀ w, assemble dest comp jump = .ok w →
        (∃ c, Comp.ofComputable comp = .ok c) ∧ ∃ j, Jump.Named jump j) ∧
      ∀ c, Comp.ofComputable comp = .ok c → ∀ d j, ∃ w, word ⟨d, c, j⟩ = .ok w := by
  refine ⟨Comp.exists_computable_iff, fun e => Comp.ofComputable_eq_error_iff, fun c hc => ?_, fun c j hc hj => ?_,
    fun w hw => exists_typed_of_assemble hw, fun c hc => word_of_computable hc⟩
  · exact ⟨(Comp.ofComputable_eq_ok_iff.mp hc).1, Comp.assemble_of_computable hc⟩
  · obtain ⟨w, hw⟩ := word_of_computable hc (.ofText dest) j
    exact ⟨w, hw, (assemble_eq_word hc hj).trans hw⟩

end Instruction

end HackIsa
