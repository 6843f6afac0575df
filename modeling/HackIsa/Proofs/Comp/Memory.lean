/-
  HackIsa.Proofs.Comp.Memory — the memory register in place of the address register.

  Wherever a row of the table has one of the two registers it has the other as well, so
  writing `M` for every `A` leaves the control bits alone and can only set the memory bit.
  It takes no text into the language or out of it: where one of the two letters may stand
  the other may.

  Proved:
  - `mem_spelling_iff`: a letter occurs in a computation's text exactly when its operand
    occurs in the computation.
  - `code?_onMemory`: no row tells the two registers apart, at either place.
  - `exists_of_text_eq_textOnMemory`: a text that spells a computation with its letters
    replaced spelled one before.
  - `bits?_onMemory`: all bits are kept, and the memory bit is set if there was an `A`.
  - `memory_bit_follows_text`: the same, said of texts and the values of their fields.
-/

import HackIsa.Proofs.Comp.Encoding

namespace HackIsa

/-! ## Letters -/

/-- `M` for `A`, and every other letter for itself. -/
def letterOnMemory (ch : Char) : Char := if ch = 'A' then 'M' else ch

theorem map_letterOnMemory {cs : List Char} (h : 'A' ∉ cs) : cs.map letterOnMemory = cs := by
  have hid : ∀ ch ∈ cs, letterOnMemory ch = id ch := by
    intro ch hc
    have ha : ch ≠ 'A' := by
      intro ha
      rw [ha] at hc
      exact h hc
    exact if_neg ha
  rw [List.map_congr_left hid, List.map_id]

/-- A text without `M` is what only that same text turns into. -/
theorem eq_of_map_letterOnMemory {cs xs : List Char} (hx : 'M' ∉ xs) (h : cs.map letterOnMemory = xs) : cs = xs := by
  have ha : 'A' ∉ cs := by
    intro ha
    rw [← h] at hx
    exact hx (List.mem_map.mpr ⟨'A', ha, rfl⟩)
  rw [← h, map_letterOnMemory ha]

/-! ## Operands and operators -/

namespace Operand

def onMemory : Operand → Operand
  | .a => .m
  | x => x

variable {x y : Operand} {ch : Char}

theorem onMemory_eq_m_iff : x.onMemory = .m ↔ x = .m ∨ x = .a := by
  cases x <;> decide

theorem spelling_onMemory (x : Operand) : x.onMemory.spelling = x.spelling.map letterOnMemory := by
  cases x <;> decide

theorem mem_spelling_iff (h : x.spelling = [ch]) : ch ∈ y.spelling ↔ x = y := by
  cases x <;> cases h <;> cases y <;> decide

theorem exists_of_map_eq_spelling {cs : List Char} (h : cs.map letterOnMemory = x.spelling) :
    ∃ y : Operand, cs = y.spelling ∧ y.onMemory = x := by
  by_cases hm : 'M' ∈ x.spelling
  · obtain rfl := (mem_spelling_iff (x := .m) rfl).mp hm
    obtain ⟨ch, rfl, hch⟩ := List.map_eq_singleton_iff.mp h
    by_cases ha : ch = 'A'
    · exact ⟨.a, by rw [ha]; rfl, rfl⟩
    · rw [letterOnMemory, if_neg ha] at hch
      exact ⟨.m, by rw [hch]; rfl, rfl⟩
  · have hcs := eq_of_map_letterOnMemory hm h
    refine ⟨x, hcs, Vocabulary.spelling_injective _ _ ?_⟩
    rw [spelling_operand, spelling_operand, spelling_onMemory, ← hcs, h, hcs]

end Operand

theorem UnaryOperator.not_mem_spelling {x : Operand} {ch : Char} (h : x.spelling = [ch]) (op : UnaryOperator) :
    ch ∉ op.spelling := by
  cases x <;> cases h <;> cases op <;> decide

theorem BinaryOperator.not_mem_spelling {x : Operand} {ch : Char} (h : x.spelling = [ch]) (op : BinaryOperator) :
    ch ∉ op.spelling := by
  cases x <;> cases h <;> cases op <;> decide

namespace Comp

/-! ## Computations -/

def operands : Comp → List Operand
  | unary _ x => [x]
  | binary x _ y => [x, y]

@[simp] theorem operands_unary (op : UnaryOperator) (x : Operand) : (unary op x).operands = [x] := rfl

@[simp] theorem operands_binary (x : Operand) (op : BinaryOperator) (y : Operand) :
    (binary x op y).operands = [x, y] := rfl

theorem mem_spelling_iff {c : Comp} {x : Operand} {ch : Char} (h : x.spelling = [ch]) :
    ch ∈ c.spelling ↔ x ∈ c.operands := by
  cases c with
  | unary op y => simp [spelling, Operand.mem_spelling_iff h, op.not_mem_spelling h]
  | binary y op z => simp [spelling, Operand.mem_spelling_iff h, op.not_mem_spelling h]

theorem usesMemory_iff {c : Comp} : c.usesMemory = true ↔ .m ∈ c.operands := by
  cases c with
  | unary op x => simp [usesMemory, @eq_comm _ Operand.m]
  | binary x op y => simp [usesMemory, @eq_comm _ Operand.m]

theorem usesMemory_iff_mem_text {c : Comp} : c.usesMemory = true ↔ 'M' ∈ c.text.toList := by
  rw [usesMemory_iff, toList_text, mem_spelling_iff (x := .m) rfl]

def onMemory : Comp → Comp
  | unary op x => unary op x.onMemory
  | binary x op y => binary x.onMemory op y.onMemory

/-- No row of the table tells the two registers apart, at either place of an operator. -/
theorem code?_onMemory (c : Comp) : c.onMemory.code? = c.code? := by
  cases c with
  | unary op x => cases op <;> cases x <;> rfl
  | binary x op y => cases x <;> cases op <;> cases y <;> rfl

theorem control?_onMemory (c : Comp) : c.onMemory.control? = c.control? := by
  rw [control?, code?_onMemory, control?]

theorem operands_onMemory (c : Comp) : c.onMemory.operands = c.operands.map Operand.onMemory := by
  cases c <;> rfl

theorem usesMemory_onMemory (c : Comp) : c.onMemory.usesMemory = (c.usesMemory || c.operands.contains .a) := by
  rw [Bool.eq_iff_iff, Bool.or_eq_true, usesMemory_iff, usesMemory_iff, operands_onMemory, List.mem_map,
    List.contains_iff_mem]
  constructor
  · intro h
    obtain ⟨x, hx, hm⟩ := h
    rcases Operand.onMemory_eq_m_iff.mp hm with rfl | rfl
    · exact .inl hx
    · exact .inr hx
  · intro h
    rcases h with hx | hx
    · exact ⟨.m, hx, rfl⟩
    · exact ⟨.a, hx, rfl⟩

/-- What replacing the address register adds to the bits: the memory bit, if it is named. -/
def gainedBit (c : Comp) : BitVec 7 := BitVec.ofBool (c.operands.contains .a) ++ 0#6

theorem bits?_onMemory (c : Comp) : c.onMemory.bits? = c.bits?.map (· ||| c.gainedBit) := by
  rw [bits?, bits?, control?_onMemory, usesMemory_onMemory, Option.map_map]
  congr 1
  funext k
  rw [Function.comp_apply, gainedBit, BitVec.or_append, BitVec.ofBool_or_ofBool, BitVec.or_zero]

theorem toNat_gainedBit (c : Comp) : c.gainedBit.toNat = if 'A' ∈ c.text.toList then 64 else 0 := by
  have ha : c.operands.contains .a = true ↔ 'A' ∈ c.text.toList := by
    rw [List.contains_iff_mem, toList_text, mem_spelling_iff (x := .a) rfl]
  rw [gainedBit]
  by_cases h : 'A' ∈ c.text.toList
  · rw [if_pos h, ha.mpr h]
    rfl
  · rw [if_neg h, Bool.eq_false_iff.mpr (mt ha.mp h)]
    rfl

theorem testBit_memory {c : Comp} {bits : BitVec 7} (h : c.bits? = some bits) :
    bits.toNat.testBit 6 = true ↔ 'M' ∈ c.text.toList := by
  obtain ⟨k, -, rfl⟩ := bits?_eq_some_iff.mp h
  rw [BitVec.testBit_toNat, BitVec.getLsbD_append, if_neg (by decide), ← usesMemory_iff_mem_text]
  simp

/-! ## Texts -/

/-- The text with every `A` replaced by `M`. -/
def textOnMemory (s : String) : String := s.map letterOnMemory

theorem spelling_onMemory (c : Comp) : c.onMemory.spelling = c.spelling.map letterOnMemory := by
  cases c with
  | unary op x =>
    have hop := map_letterOnMemory (op.not_mem_spelling (x := .a) rfl)
    rw [onMemory, spelling, spelling, List.map_append, hop, Operand.spelling_onMemory]
  | binary x op y =>
    have hop := map_letterOnMemory (op.not_mem_spelling (x := .a) rfl)
    rw [onMemory, spelling, spelling, List.map_append, List.map_append, hop, Operand.spelling_onMemory,
      Operand.spelling_onMemory]

theorem text_onMemory (c : Comp) : c.onMemory.text = textOnMemory c.text := by
  rw [← String.toList_inj, textOnMemory, String.toList_map, toList_text, toList_text, spelling_onMemory]

theorem exists_of_map_eq_spelling {cs : List Char} {c : Comp} (h : cs.map letterOnMemory = c.spelling) :
    ∃ d : Comp, cs = d.spelling ∧ d.onMemory = c := by
  cases c with
  | unary op x =>
    obtain ⟨os, xs, rfl, ho, hx⟩ := List.map_eq_append_iff.mp h
    obtain ⟨x', rfl, rfl⟩ := Operand.exists_of_map_eq_spelling hx
    obtain rfl := eq_of_map_letterOnMemory (op.not_mem_spelling (x := .m) rfl) ho
    exact ⟨unary op x', rfl, rfl⟩
  | binary x op y =>
    obtain ⟨zs, ys, rfl, hz, hy⟩ := List.map_eq_append_iff.mp h
    obtain ⟨xs, os, rfl, hx, ho⟩ := List.map_eq_append_iff.mp hz
    obtain ⟨x', rfl, rfl⟩ := Operand.exists_of_map_eq_spelling hx
    obtain ⟨y', rfl, rfl⟩ := Operand.exists_of_map_eq_spelling hy
    obtain rfl := eq_of_map_letterOnMemory (op.not_mem_spelling (x := .m) rfl) ho
    exact ⟨binary x' op y', rfl, rfl⟩

/-- A text that spells a computation with its letters replaced spelled one before. -/
theorem exists_of_text_eq_textOnMemory {s : String} {c : Comp} (h : c.text = textOnMemory s) :
    ∃ d : Comp, d.text = s ∧ d.onMemory = c := by
  rw [← String.toList_inj, toList_text, textOnMemory, String.toList_map] at h
  obtain ⟨d, hd, hc⟩ := exists_of_map_eq_spelling h.symm
  exact ⟨d, by rw [← String.toList_inj, toList_text, hd], hc⟩

/-! ## Fields of texts -/

variable {s : String} {f : BitField}

theorem assemble_textOnMemory (h : assemble s = .ok f) :
    ∃ g, assemble (textOnMemory s) = .ok g ∧ g.value = f.value ||| if 'A' ∈ s.toList then 64 else 0 := by
  obtain ⟨c, bits, rfl, hb, rfl⟩ := assemble_eq_ok_iff.mp h
  have hm : c.onMemory.bits? = some (bits ||| c.gainedBit) := by rw [bits?_onMemory, hb]; rfl
  refine ⟨_, assemble_eq_ok_iff.mpr ⟨c.onMemory, _, text_onMemory c, hm, rfl⟩, ?_⟩
  rw [BitField.value_ofBits, BitField.value_ofBits, BitVec.toNat_or, toNat_gainedBit]

theorem exists_assemble_of_textOnMemory (h : assemble (textOnMemory s) = .ok f) : ∃ g, assemble s = .ok g := by
  obtain ⟨c, bits, hc, hb, -⟩ := assemble_eq_ok_iff.mp h
  obtain ⟨d, hd, rfl⟩ := exists_of_text_eq_textOnMemory hc
  rw [bits?_onMemory] at hb
  obtain ⟨bits', hb', -⟩ := Option.map_eq_some_iff.mp hb
  exact ⟨_, assemble_eq_ok_iff.mpr ⟨d, bits', hd, hb', rfl⟩⟩

theorem testBit_of_assemble (h : assemble s = .ok f) : f.value.testBit 6 = true ↔ 'M' ∈ s.toList := by
  obtain ⟨c, bits, rfl, hb, rfl⟩ := assemble_eq_ok_iff.mp h
  exact testBit_memory hb

/-- Setting the memory bit leaves the six bits below it alone. -/
theorem or_ite_mod (n : Nat) (p : Prop) [Decidable p] : (n ||| if p then 64 else 0) % 64 = n % 64 := by
  split
  · exact (Nat.or_mod_two_pow (n := 6)).trans (Nat.or_zero _)
  · rw [Nat.or_zero]

/-- Writing `M` for every `A` keeps whether a text has a field, and the control bits of the
    field. The memory bit is set exactly by an `M` in the text, as `usesMemory` is. -/
theorem memory_bit_follows_text (s : String) :
    ((∃ f, assemble s = .ok f) ↔ ∃ g, assemble (textOnMemory s) = .ok g) ∧
      (∀ f g, assemble s = .ok f → assemble (textOnMemory s) = .ok g →
        g.value % 64 = f.value % 64 ∧ (f.value.testBit 6 = true ↔ 'M' ∈ s.toList) ∧
          g.value = f.value ||| if 'A' ∈ s.toList then 64 else 0) ∧
      ∀ c, ofText s = .ok c → (c.usesMemory = true ↔ 'M' ∈ s.toList) := by
  refine ⟨⟨?there, ?back⟩, ?bits, ?shape⟩
  case there =>
    intro h
    obtain ⟨f, hf⟩ := h
    obtain ⟨g, hg, -⟩ := assemble_textOnMemory hf
    exact ⟨g, hg⟩
  case back =>
    intro h
    obtain ⟨g, hg⟩ := h
    exact exists_assemble_of_textOnMemory hg
  case bits =>
    intro f g hf hg
    obtain ⟨g', hg', hv⟩ := assemble_textOnMemory hf
    rw [hg] at hg'
    cases hg'
    exact ⟨by rw [hv, or_ite_mod], testBit_of_assemble hf, hv⟩
  case shape =>
    intro c hc
    rw [usesMemory_iff_mem_text, ofText_eq_ok_iff.mp hc]

end Comp

end HackIsa
