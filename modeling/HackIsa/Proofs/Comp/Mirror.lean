/-
  HackIsa.Proofs.Comp.Mirror — computations and their texts read backwards.

  The table, read backwards, gives one shape for each field, and a computation with that
  field is this shape or its mirror image. So two computations share a field only if they
  are the same or one is the other read backwards, and the second only where no sign stands
  in the way.

  Without `-` and `!` a computation spelled backwards is its mirror image, which has the
  same field. With one of them it is either no computation or a difference with its
  operands exchanged, and since the ALU takes no difference of an operand and itself, the
  exchange shows in the field.

  Proved:
  - `code?_mirror`: each row of a sum, an and or an or has both orders of its operands.
  - `bits?_inj`: which computations share their bits.
  - `alias_iff`: the same, said of the spellings.
  - `spelling_ne_reverse`: no performable computation with a sign reads the same backwards.
  - `order_matters_iff_signed`: texts without signs, and texts with signs.
-/

import HackIsa.Proofs.Comp.Encoding

namespace HackIsa

theorem Operand.reverse_spelling (x : Operand) : x.spelling.reverse = x.spelling := by
  cases x <;> rfl

theorem BinaryOperator.reverse_spelling (op : BinaryOperator) : op.spelling.reverse = op.spelling := by
  cases op <;> rfl

namespace Comp

/-! ## Bits of the mirror image -/

theorem usesMemory_mirror (c : Comp) : c.mirror.usesMemory = c.usesMemory := by
  cases c with
  | unary op x => rfl
  | binary x op y => simp [mirror, usesMemory, Bool.or_comm]

theorem code?_mirror {c : Comp} (h : c.Symmetric) : c.mirror.code? = c.code? := by
  cases c with
  | unary op x => rfl
  | binary x op y =>
    cases op with
    | subtract => exact absurd rfl h
    | add | and | or => cases x <;> cases y <;> rfl

/-- No row takes one operand twice. -/
theorem code?_same (x : Operand) (op : BinaryOperator) : (binary x op x).code? = none := by
  cases x <;> cases op <;> rfl

theorem bits?_mirror {c : Comp} (h : c.Symmetric) : c.mirror.bits? = c.bits? := by
  rw [bits?, control?, code?_mirror h, usesMemory_mirror, bits?, control?]

/-- Two shapes found at one place are the same, or symmetric and mirror images. -/
theorem eq_or_mirror_of_row {c d e : Comp} (hc : e = c ∨ c.Symmetric ∧ e = c.mirror)
    (hd : e = d ∨ d.Symmetric ∧ e = d.mirror) : d = c ∨ c.Symmetric ∧ d = c.mirror := by
  rcases hc with rfl | ⟨hs, rfl⟩
  · rcases hd with rfl | ⟨hs, rfl⟩
    · exact .inl rfl
    · rw [mirror_mirror]
      exact .inr ⟨symmetric_mirror.mpr hs, rfl⟩
  · rcases hd with rfl | ⟨-, he⟩
    · exact .inr ⟨hs, rfl⟩
    · refine .inl ?_
      rw [← mirror_mirror d, ← he, mirror_mirror]

/-- Two computations have the same bits exactly when they are equal, or symmetric and mirror
    images of each other. -/
theorem bits?_inj {c d : Comp} {b b' : BitVec 7} (hc : c.bits? = some b) (hd : d.bits? = some b') :
    b = b' ↔ d = c ∨ c.Symmetric ∧ d = c.mirror := by
  constructor
  · intro h
    subst h
    obtain ⟨hm, k, hk, hk'⟩ := eq_of_bits hc hd
    obtain ⟨e, he⟩ : ∃ e, row? c.usesMemory k = some e := by
      rcases row?_of_control hk with hr | ⟨-, hr⟩
      · exact ⟨c, hr⟩
      · exact ⟨c.mirror, hr⟩
    have hrc := row?_of_control hk
    have hrd := row?_of_control hk'
    rw [← hm] at hrd
    simp only [he, Option.some.injEq] at hrc hrd
    exact eq_or_mirror_of_row hrc hrd
  · intro h
    have hbits : d.bits? = c.bits? := by
      rcases h with rfl | ⟨hs, rfl⟩
      · rfl
      · exact bits?_mirror hs
    rw [hc, hd] at hbits
    exact (Option.some.inj hbits).symm

/-! ## Spellings read backwards -/

theorem symmetric_iff {c : Comp} : c.Symmetric ↔ '-' ∉ c.spelling ∧ '!' ∉ c.spelling := by
  cases c with
  | unary op x => cases op <;> cases x <;> simp [Symmetric, spelling, UnaryOperator.spelling, Operand.spelling]
  | binary x op y =>
    cases op <;> cases x <;> cases y <;> simp [Symmetric, spelling, BinaryOperator.spelling, Operand.spelling]

/-- Two operands around an operator, signs or not, are spelled backwards by exchanging them. -/
theorem reverse_spelling_binary (x : Operand) (op : BinaryOperator) (y : Operand) :
    (binary x op y).spelling.reverse = (binary y op x).spelling := by
  simp [spelling, Operand.reverse_spelling, BinaryOperator.reverse_spelling]

theorem spelling_mirror {c : Comp} (h : c.Symmetric) : c.mirror.spelling = c.spelling.reverse := by
  cases c with
  | unary op x =>
    obtain rfl : op = .identity := h
    exact x.reverse_spelling.symm
  | binary x op y => rw [reverse_spelling_binary, mirror]

theorem spelling_injective : Function.Injective spelling := fun _ _ h => text_injective (congrArg String.ofList h)

/-- A mirror image with the same bits is spelled backwards, and free of signs. -/
theorem alias_iff {c d : Comp} :
    c.Symmetric ∧ d = c.mirror ↔ d.spelling = c.spelling.reverse ∧ '-' ∉ c.spelling ∧ '!' ∉ c.spelling := by
  rw [and_comm, symmetric_iff]
  refine and_congr_left fun hs => ?_
  rw [← spelling_mirror (symmetric_iff.mpr hs)]
  exact spelling_injective.eq_iff.symm

/-! ## Texts read backwards -/

/-- The text read from its end. -/
def backwards (s : String) : String := String.ofList s.toList.reverse

@[simp] theorem toList_backwards (s : String) : (backwards s).toList = s.toList.reverse := String.toList_ofList

@[simp] theorem backwards_backwards (s : String) : backwards (backwards s) = s := by
  simp [backwards]

variable {s : String} {c : Comp}

theorem text_mirror (h : c.Symmetric) : c.mirror.text = backwards c.text := by
  rw [text, spelling_mirror h, backwards, toList_text]

/-- A text without signs that spells a computation spells the mirror image backwards. -/
theorem text_mirror_of_unsigned (h : '-' ∉ s.toList ∧ '!' ∉ s.toList) (hc : c.text = s) :
    c.Symmetric ∧ c.mirror.text = backwards s := by
  have hs : c.Symmetric := by
    rw [symmetric_iff, ← toList_text, hc]
    exact h
  exact ⟨hs, by rw [text_mirror hs, hc]⟩

theorem assemble_backwards_of_ok (h : '-' ∉ s.toList ∧ '!' ∉ s.toList) {f : BitField} (hf : assemble s = .ok f) :
    assemble (backwards s) = .ok f := by
  obtain ⟨c, b, hc, hb, rfl⟩ := assemble_eq_ok_iff.mp hf
  obtain ⟨hs, hm⟩ := text_mirror_of_unsigned h hc
  exact assemble_eq_ok_iff.mpr ⟨c.mirror, b, hm, by rw [bits?_mirror hs, hb], rfl⟩

theorem assemble_backwards_eq_ok_iff (h : '-' ∉ s.toList ∧ '!' ∉ s.toList) (f : BitField) :
    assemble (backwards s) = .ok f ↔ assemble s = .ok f := by
  constructor
  · intro hf
    have hb : '-' ∉ (backwards s).toList ∧ '!' ∉ (backwards s).toList := by simpa using h
    rw [← backwards_backwards s]
    exact assemble_backwards_of_ok hb hf
  · exact assemble_backwards_of_ok h

theorem spelling_ne_reverse {b : BitVec 7} (hb : c.bits? = some b) (h : ¬ c.Symmetric) :
    c.spelling ≠ c.spelling.reverse := by
  cases c with
  | unary op x =>
    cases op with
    | identity => exact absurd rfl h
    | negate => cases x <;> decide
    | not => cases x <;> decide
  | binary x op y =>
    intro he
    rw [reverse_spelling_binary] at he
    cases spelling_injective he
    rw [bits?, control?, code?_same] at hb
    cases hb

theorem assemble_backwards_ne (h : '-' ∈ s.toList ∨ '!' ∈ s.toList) {f : BitField} (hf : assemble s = .ok f) :
    assemble (backwards s) ≠ .ok f := by
  intro hr
  obtain ⟨c, b, hc, hb, rfl⟩ := assemble_eq_ok_iff.mp hf
  obtain ⟨d, b', hd, hb', he⟩ := assemble_eq_ok_iff.mp hr
  have hn : ¬ c.Symmetric := by
    rw [symmetric_iff, ← toList_text, hc]
    intro hn
    exact h.elim hn.1 hn.2
  rcases (bits?_inj hb hb').mp (BitField.ofBits_injective he) with rfl | ⟨hs, -⟩
  · apply spelling_ne_reverse hb hn
    rw [← toList_text, hc, ← toList_backwards, ← hd, hc]
  · exact hn hs

/-- A text without `-` and `!` and the same text backwards both fail or have the same field;
    a text with one of them that has a field never has the same field backwards. -/
theorem order_matters_iff_signed (s : String) :
    ('-' ∉ s.toList ∧ '!' ∉ s.toList →
        (∃ f, assemble s = .ok f ∧ assemble (backwards s) = .ok f) ∨
          ∃ e d, assemble s = .error e ∧ assemble (backwards s) = .error d) ∧
      ('-' ∈ s.toList ∨ '!' ∈ s.toList → ∀ f, assemble s = .ok f → assemble (backwards s) ≠ .ok f) := by
  refine ⟨?unsigned, ?signed⟩
  case unsigned =>
    intro h
    cases hf : assemble s with
    | ok f => exact .inl ⟨f, rfl, assemble_backwards_of_ok h hf⟩
    | error e =>
      cases hr : assemble (backwards s) with
      | ok f =>
        rw [assemble_backwards_eq_ok_iff h, hf] at hr
        cases hr
      | error d => exact .inr ⟨e, d, rfl, rfl⟩
  case signed =>
    intro h f hf
    exact assemble_backwards_ne h hf

example : assemble "-1" = .ok ⟨0b0111010, 7⟩ ∧ assemble (backwards "-1") = .error (.badComp "1-") := ⟨rfl, rfl⟩

end Comp

end HackIsa
