/-
  HackIsa.Proofs.Comp.Reading — reading a computation undoes writing it.

  The readers go by tables of characters and the spellings by tables of tokens; each
  character table is the inverse of the spellings of its tokens. A reader of a shape is
  then exact: it takes one spelling off the front of a text, whatever follows.

  Where two operands around an operator are in front of a text, so is an operand without a
  sign, and the second reader would stop before the operator. The choice tries the first
  reader and, where it succeeds, keeps to it, even if something is left over and the text
  is refused for that. A text is lost in this way only if the second reader takes the whole
  of it and the first one a part, that is, if a spelling of the first shape begins one of
  the second. None does: it has three characters, and the others have two at most.

  Proved:
  - `Operand.ofChar?_eq_some_iff` and its siblings: the character tables invert the
    spellings.
  - `readBinary_eq_some_iff` / `readUnary_eq_some_iff`: what each reader takes.
  - `Takes.eq_none_iff`: a reader that takes spellings of a shape fails where none is in
    front.
  - `Takes.orElse_eq_some_nil_iff`: a final choice between two readers takes every whole
    text that one of them takes, if no spelling of the first begins one of the second.
  - `readUnary_orElse_readBinary`: the two readers the other way round are the second alone.
  - `ofText_eq_ok_iff` / `ofText_eq_error_iff`: a text is read as the computation it spells,
    and refused unchanged if it spells none.
  - `reading_inverts_writing`: reading and writing are inverse.
  - `final_choice_loses_no_text`: both readers and the choice between them, for every text.
-/

import HackIsa.Comp

namespace HackIsa

/-! ## Characters -/

theorem Operand.ofChar?_eq_some_iff {ch : Char} {x : Operand} : ofChar? ch = some x ↔ x.spelling = [ch] := by
  constructor
  · intro h
    unfold ofChar? at h
    split at h <;> cases h <;> rfl
  · intro h
    cases x <;> cases h <;> rfl

theorem UnaryOperator.ofSign?_eq_some_iff {sign : Option Char} {op : UnaryOperator} :
    ofSign? sign = some op ↔ op.spelling = sign.toList := by
  constructor
  · intro h
    unfold ofSign? at h
    split at h <;> cases h <;> rfl
  · intro h
    cases sign with
    | none => cases op <;> first | rfl | cases h
    | some ch => cases op <;> cases h <;> rfl

theorem BinaryOperator.ofChar?_eq_some_iff {ch : Char} {op : BinaryOperator} :
    ofChar? ch = some op ↔ op.spelling = [ch] := by
  constructor
  · intro h
    unfold ofChar? at h
    split at h <;> cases h <;> rfl
  · intro h
    cases op <;> cases h <;> rfl

/-! ## Tokens -/

namespace Reader

variable {α β : Type} {cs rest : List Char}

theorem oneOf_eq_some_iff {set : List Char} {ch : Char} : oneOf set cs = some (ch, rest) ↔ ch ∈ set ∧ cs = ch :: rest := by
  cases cs with
  | nil => simp [oneOf]
  | cons c cs =>
    by_cases hc : c ∈ set
    · simp only [oneOf, if_pos hc, Option.some.injEq, Prod.mk.injEq, List.cons.injEq]
      constructor
      · intro h
        exact ⟨h.1 ▸ hc, h⟩
      · intro h
        exact h.2
    · simp only [oneOf, if_neg hc, reduceCtorEq, List.cons.injEq, false_iff]
      intro h
      exact hc (h.2.1 ▸ h.1)

theorem mapOption_eq_some_iff {read : Reader α} {f : α → Option β} {b : β} :
    read.mapOption f cs = some (b, rest) ↔ ∃ a, read cs = some (a, rest) ∧ f a = some b := by
  simp only [mapOption, Option.bind_eq_bind, Option.bind_eq_some_iff, Prod.exists, Option.pure_def, Option.some.injEq,
    Prod.mk.injEq]
  constructor
  · intro h
    obtain ⟨a, cs', ha, b', hb, rfl, rfl⟩ := h
    exact ⟨a, ha, hb⟩
  · intro h
    obtain ⟨a, ha, hb⟩ := h
    exact ⟨a, rest, ha, b, hb, rfl, rfl⟩

/-- A reader by a table that inverts one-letter spellings takes exactly one of these. -/
theorem mapOption_oneOf_eq_some_iff {set : List Char} {f : Char → Option α} {spelling : α → List Char}
    (hf : ∀ {ch a}, f ch = some a ↔ spelling a = [ch]) (hset : ∀ a, ∃ ch ∈ set, spelling a = [ch]) {a : α} :
    (oneOf set).mapOption f cs = some (a, rest) ↔ cs = spelling a ++ rest := by
  rw [mapOption_eq_some_iff]
  constructor
  · intro h
    obtain ⟨ch, hr, ha⟩ := h
    rw [hf.mp ha]
    exact (oneOf_eq_some_iff.mp hr).2
  · intro h
    obtain ⟨ch, hc, ha⟩ := hset a
    rw [ha] at h
    exact ⟨ch, oneOf_eq_some_iff.mpr ⟨hc, h⟩, hf.mpr ha⟩

end Reader

theorem Operand.read_eq_some_iff {cs rest : List Char} {x : Operand} :
    read cs = some (x, rest) ↔ cs = x.spelling ++ rest :=
  Reader.mapOption_oneOf_eq_some_iff ofChar?_eq_some_iff fun x => by cases x <;> simp [spelling]

theorem BinaryOperator.read_eq_some_iff {cs rest : List Char} {op : BinaryOperator} :
    read cs = some (op, rest) ↔ cs = op.spelling ++ rest :=
  Reader.mapOption_oneOf_eq_some_iff ofChar?_eq_some_iff fun op => by cases op <;> simp [spelling]

theorem UnaryOperator.eq_append_of_read {cs rest : List Char} {op : UnaryOperator} (h : read cs = some (op, rest)) :
    cs = op.spelling ++ rest := by
  obtain ⟨sign, hr, hop⟩ := Reader.mapOption_eq_some_iff.mp h
  rw [ofSign?_eq_some_iff.mp hop]
  unfold Reader.optional at hr
  split at hr
  · rename_i hc
    cases hr
    exact (Reader.oneOf_eq_some_iff.mp hc).2
  · cases hr
    rfl

/-- In front of an operand, a sign is read as itself and a missing sign as the identity. -/
theorem UnaryOperator.read_spelling (op : UnaryOperator) (x : Operand) (rest : List Char) :
    read (op.spelling ++ (x.spelling ++ rest)) = some (op, x.spelling ++ rest) := by
  cases op <;> cases x <;> rfl

namespace Comp

/-! ## Shapes -/

def IsBinary (c : Comp) : Prop := ∃ x op y, c = binary x op y

def IsUnary (c : Comp) : Prop := ∃ op x, c = unary op x

theorem length_spelling_binary (x : Operand) (op : BinaryOperator) (y : Operand) :
    (binary x op y).spelling.length = 3 := by
  have hx : ∀ x : Operand, x.spelling.length = 1 := fun x => by cases x <;> rfl
  have hop : op.spelling.length = 1 := by cases op <;> rfl
  rw [spelling, List.length_append, List.length_append, hx, hx, hop]

theorem length_spelling_unary (op : UnaryOperator) (x : Operand) : (unary op x).spelling.length ≤ 2 := by
  cases op <;> cases x <;> decide

theorem readBinary_eq_some_iff {cs rest : List Char} {c : Comp} :
    readBinary cs = some (c, rest) ↔ c.IsBinary ∧ cs = c.spelling ++ rest := by
  constructor
  · intro h
    simp only [readBinary, Option.bind_eq_bind, Option.bind_eq_some_iff, Prod.exists, Option.pure_def,
      Option.some.injEq, Prod.mk.injEq] at h
    obtain ⟨x, cs₁, hx, op, cs₂, hop, y, cs₃, hy, rfl, rfl⟩ := h
    refine ⟨⟨x, op, y, rfl⟩, ?_⟩
    rw [Operand.read_eq_some_iff.mp hx, BinaryOperator.read_eq_some_iff.mp hop, Operand.read_eq_some_iff.mp hy]
    simp [spelling]
  · intro h
    obtain ⟨⟨x, op, y, rfl⟩, rfl⟩ := h
    have hx : Operand.read ((binary x op y).spelling ++ rest) = some (x, op.spelling ++ (y.spelling ++ rest)) :=
      Operand.read_eq_some_iff.mpr (by simp [spelling])
    have hop := BinaryOperator.read_eq_some_iff.mpr (rfl : op.spelling ++ (y.spelling ++ rest) = _)
    have hy := Operand.read_eq_some_iff.mpr (rfl : y.spelling ++ rest = _)
    simp [readBinary, hx, hop, hy]

theorem readUnary_eq_some_iff {cs rest : List Char} {c : Comp} :
    readUnary cs = some (c, rest) ↔ c.IsUnary ∧ cs = c.spelling ++ rest := by
  constructor
  · intro h
    simp only [readUnary, Option.bind_eq_bind, Option.bind_eq_some_iff, Prod.exists, Option.pure_def,
      Option.some.injEq, Prod.mk.injEq] at h
    obtain ⟨op, cs₁, hop, x, cs₂, hx, rfl, rfl⟩ := h
    refine ⟨⟨op, x, rfl⟩, ?_⟩
    rw [UnaryOperator.eq_append_of_read hop, Operand.read_eq_some_iff.mp hx]
    simp [spelling]
  · intro h
    obtain ⟨⟨op, x, rfl⟩, rfl⟩ := h
    have hop : UnaryOperator.read ((unary op x).spelling ++ rest) = some (op, x.spelling ++ rest) := by
      rw [spelling, List.append_assoc]
      exact op.read_spelling x rest
    have hx := Operand.read_eq_some_iff.mpr (rfl : x.spelling ++ rest = _)
    simp [readUnary, hop, hx]

/-! ## Exact readers and choices between them -/

/-- The reader takes the spelling of one computation in `p` off the front of a text, whatever
    follows, and nothing else. -/
def Takes (read : Reader Comp) (p : Comp → Prop) : Prop :=
  ∀ cs c rest, read cs = some (c, rest) ↔ p c ∧ cs = c.spelling ++ rest

theorem takes_readBinary : Takes readBinary IsBinary := fun _ _ _ => readBinary_eq_some_iff

theorem takes_readUnary : Takes readUnary IsUnary := fun _ _ _ => readUnary_eq_some_iff

namespace Takes

variable {read read' : Reader Comp} {p q : Comp → Prop} {cs : List Char}

theorem eq_none_iff (h : Takes read p) : read cs = none ↔ ∀ c rest, p c → cs ≠ c.spelling ++ rest := by
  constructor
  · intro hn c rest hc hs
    rw [(h cs c rest).mpr ⟨hc, hs⟩] at hn
    cases hn
  · intro hn
    cases hr : read cs with
    | none => rfl
    | some r =>
      obtain ⟨c, rest⟩ := r
      obtain ⟨hc, hs⟩ := (h cs c rest).mp hr
      exact absurd hs (hn c rest hc)

/-- Where the first reader succeeds, the second leaves something over. -/
theorem ne_some_nil (h : Takes read p) (h' : Takes read' q)
    (hpq : ∀ c d, p c → q d → ¬ c.spelling <+: d.spelling) {r : Comp × List Char} (hr : read cs = some r) (d : Comp) :
    read' cs ≠ some (d, []) := by
  intro hd
  obtain ⟨c, rest⟩ := r
  obtain ⟨hc, hs⟩ := (h cs c rest).mp hr
  obtain ⟨hd, hs'⟩ := (h' cs d []).mp hd
  rw [List.append_nil] at hs'
  have hprefix : c.spelling <+: d.spelling := ⟨rest, hs.symm.trans hs'⟩
  exact hpq c d hc hd hprefix

theorem orElse_eq_some_nil_iff (h : Takes read p) (h' : Takes read' q)
    (hpq : ∀ c d, p c → q d → ¬ c.spelling <+: d.spelling) {c : Comp} :
    (read cs <|> read' cs) = some (c, []) ↔ read cs = some (c, []) ∨ read' cs = some (c, []) := by
  rw [Option.orElse_eq_orElse, Option.orElse_eq_or, Option.or_eq_some_iff]
  constructor
  · intro hr
    rcases hr with hr | ⟨-, hr⟩
    · exact .inl hr
    · exact .inr hr
  · intro hr
    rcases hr with hr | hr
    · exact .inl hr
    · by_cases hn : read cs = none
      · exact .inr ⟨hn, hr⟩
      · obtain ⟨r, hf⟩ := Option.ne_none_iff_exists'.mp hn
        exact absurd hr (h.ne_some_nil h' hpq hf c)

end Takes

variable {cs : List Char} {c d : Comp}

theorem not_prefix_unary (hc : c.IsBinary) (hd : d.IsUnary) : ¬ c.spelling <+: d.spelling := by
  obtain ⟨x, op, y, rfl⟩ := hc
  obtain ⟨sign, z, rfl⟩ := hd
  intro h
  have hb := length_spelling_binary x op y
  have hu := length_spelling_unary sign z
  have hle := h.length_le
  omega

theorem readShape_of_readBinary {r : Comp × List Char} (h : readBinary cs = some r) : readShape cs = some r := by
  rw [readShape, h]
  rfl

theorem readShape_eq_some_nil_iff_or :
    readShape cs = some (c, []) ↔ readBinary cs = some (c, []) ∨ readUnary cs = some (c, []) :=
  takes_readBinary.orElse_eq_some_nil_iff takes_readUnary fun _ _ => not_prefix_unary

/-- The choice of a shape is final, yet every whole spelling is read. -/
theorem readShape_eq_some_nil_iff : readShape cs = some (c, []) ↔ cs = c.spelling := by
  rw [readShape_eq_some_nil_iff_or, readBinary_eq_some_iff, readUnary_eq_some_iff, List.append_nil]
  constructor
  · intro h
    rcases h with h | h
    · exact h.2
    · exact h.2
  · intro h
    cases c with
    | binary x op y => exact .inl ⟨⟨x, op, y, rfl⟩, h⟩
    | unary op x => exact .inr ⟨⟨op, x, rfl⟩, h⟩

/-- The second reader takes the first operand alone where the first one goes on. -/
theorem readUnary_of_readBinary {x y : Operand} {op : BinaryOperator} {rest : List Char}
    (h : readBinary cs = some (binary x op y, rest)) :
    readUnary cs = some (unary .identity x, op.spelling ++ (y.spelling ++ rest)) := by
  obtain ⟨-, rfl⟩ := readBinary_eq_some_iff.mp h
  refine readUnary_eq_some_iff.mpr ⟨⟨.identity, x, rfl⟩, ?_⟩
  simp only [spelling, UnaryOperator.spelling, List.nil_append, List.append_assoc]

/-- The other way round the choice would never come to two operands. -/
theorem readUnary_orElse_readBinary (cs : List Char) : (readUnary cs <|> readBinary cs) = readUnary cs := by
  cases hu : readUnary cs with
  | some r => rfl
  | none =>
    cases hb : readBinary cs with
    | none => rfl
    | some r =>
      obtain ⟨c, rest⟩ := r
      obtain ⟨⟨x, op, y, rfl⟩, -⟩ := readBinary_eq_some_iff.mp hb
      rw [readUnary_of_readBinary hb] at hu
      cases hu

example : (readUnary "D+A".toList <|> readBinary "D+A".toList) = some (unary .identity .d, ['+', 'A']) := rfl

/-! ## Whole texts -/

theorem ofText?_eq_some_iff {s : String} {c : Comp} : ofText? s = some c ↔ c.text = s := by
  have hs : ofText? s = some c ↔ readShape s.toList = some (c, []) := by
    unfold ofText?
    split
    · rename_i d h
      simp [h]
    · rename_i h
      exact ⟨nofun, fun h' => absurd h' (h c)⟩
  rw [hs, readShape_eq_some_nil_iff, ← toList_text, String.toList_inj, eq_comm]

theorem text_injective : Function.Injective text := by
  intro c d h
  have hc : ofText? d.text = some c := ofText?_eq_some_iff.mpr h
  rw [ofText?_eq_some_iff.mpr rfl] at hc
  exact (Option.some.inj hc).symm

theorem ofText_eq_ok_iff {s : String} {c : Comp} : ofText s = .ok c ↔ c.text = s := by
  rw [← ofText?_eq_some_iff]
  unfold ofText
  split <;> rename_i h <;> simp [h]

@[simp] theorem ofText_text (c : Comp) : ofText c.text = .ok c := ofText_eq_ok_iff.mpr rfl

theorem ofText_eq_error_iff {s : String} {e : AssemblyError} :
    ofText s = .error e ↔ (∀ c, text c ≠ s) ∧ e = .badComp s := by
  constructor
  · intro h
    unfold ofText at h
    split at h
    · cases h
    · rename_i hn
      cases h
      refine ⟨?_, rfl⟩
      intro c hc
      rw [ofText?_eq_some_iff.mpr hc] at hn
      cases hn
  · intro h
    obtain ⟨hn, rfl⟩ := h
    unfold ofText
    split
    · rename_i c hc
      exact absurd (ofText?_eq_some_iff.mp hc) (hn c)
    · rfl

theorem spelled_or_unspelled (s : String) : (∃ c, text c = s) ∨ ∀ c, text c ≠ s := by
  cases h : ofText s with
  | ok c => exact .inl ⟨c, ofText_eq_ok_iff.mp h⟩
  | error e => exact .inr (ofText_eq_error_iff.mp h).1

/-- Reading and writing computations are inverse, a text that spells nothing is refused
    unchanged, and a spelling with anything around it is no spelling of the same. -/
theorem reading_inverts_writing :
    (∀ s c, ofText s = .ok c ↔ c.text = s) ∧
      (∀ s e, ofText s = .error e ↔ (∀ c, text c ≠ s) ∧ e = .badComp s) ∧
      Function.Injective text ∧
      ∀ c before after, ofText (before ++ c.text ++ after) = .ok c ↔ before = "" ∧ after = "" := by
  refine ⟨fun s c => ofText_eq_ok_iff, fun s e => ofText_eq_error_iff, text_injective, ?_⟩
  intro c before after
  rw [ofText_eq_ok_iff]
  constructor
  · intro h
    have hl := congrArg String.length h
    simp only [String.length_append] at hl
    exact ⟨String.length_eq_zero_iff.mp (by omega), String.length_eq_zero_iff.mp (by omega)⟩
  · intro h
    obtain ⟨rfl, rfl⟩ := h
    simp

/-! ## The readers on texts -/

theorem ofText_eq_ok_iff_readShape {s : String} : ofText s = .ok c ↔ readShape s.toList = some (c, []) := by
  rw [ofText_eq_ok_iff, readShape_eq_some_nil_iff, ← toList_text, String.toList_inj, eq_comm]

theorem toList_eq_spelling_append_iff {s : String} {rest : List Char} :
    s.toList = c.spelling ++ rest ↔ s = c.text ++ String.ofList rest := by
  rw [← String.toList_inj, String.toList_append, toList_text, String.toList_ofList]

/-- Each reader takes exactly one spelling of its shape off the front of a text, and the choice
    between them, although final, reads every text of which one of them takes the whole. -/
theorem final_choice_loses_no_text (s : String) :
    (∀ c rest, readBinary s.toList = some (c, rest) ↔ c.IsBinary ∧ s = c.text ++ String.ofList rest) ∧
      (∀ c rest, readUnary s.toList = some (c, rest) ↔ c.IsUnary ∧ s = c.text ++ String.ofList rest) ∧
      (readBinary s.toList = none ↔ ∀ (c : Comp) rest, c.IsBinary → s ≠ c.text ++ String.ofList rest) ∧
      (readUnary s.toList = none ↔ ∀ (c : Comp) rest, c.IsUnary → s ≠ c.text ++ String.ofList rest) ∧
      (∀ r, readBinary s.toList = some r →
        readShape s.toList = some r ∧ ∀ d, readUnary s.toList ≠ some (d, [])) ∧
      ∀ c, ofText s = .ok c ↔ readBinary s.toList = some (c, []) ∨ readUnary s.toList = some (c, []) := by
  simp only [← toList_eq_spelling_append_iff, ne_eq]
  refine ⟨takes_readBinary s.toList, takes_readUnary s.toList, takes_readBinary.eq_none_iff,
    takes_readUnary.eq_none_iff, ?committed, ?whole⟩
  case committed =>
    intro r hr
    exact ⟨readShape_of_readBinary hr, takes_readBinary.ne_some_nil takes_readUnary (fun _ _ => not_prefix_unary) hr⟩
  case whole =>
    intro c
    rw [ofText_eq_ok_iff_readShape, readShape_eq_some_nil_iff_or]

end Comp

end HackIsa
