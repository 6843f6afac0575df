/-
  HackIsa.Proofs.BitField — binary numerals of a fixed width, and fields.

  `Numeral width n t` says that `t` is `n` written with exactly `width` binary digits,
  most significant first, without mention of how it came about. A field that fits is
  written as a numeral of its own width, so the text gives back the width by its length and
  the value by its digits. Fields of different width never look alike, even where their
  values are equal.

  Proved:
  - `Binary.append_inj`: joined bits determine their parts.
  - `Binary.digits_append`: the digits of joined bits are the digits of the parts, one
    after the other.
  - `Binary.numeral_iff_eq_text`: a number that fits the width is written as its numeral,
    and no other text is its numeral.
  - `Binary.digits_eq_leftpad`: a numeral is the shortest one with zeros in front.
  - `BitField.text_inj`: fields that fit are equal exactly when they are written alike.
  - `BitField.digits_determine_field`: what a field is written as, and what it equals.
-/

import HackIsa.BitField

namespace HackIsa

namespace Binary

/-- `t` denotes `n` with exactly `width` binary digits. -/
structure Numeral (width n : Nat) (t : String) : Prop where
  length : t.length = width
  binary : ∀ c ∈ t.toList, c = '0' ∨ c = '1'
  value : ofDigits? t.toList = some n

/-- A text is a numeral of one number, at one width. -/
theorem Numeral.unique {width width' n n' : Nat} {t : String} (h : Numeral width n t) (h' : Numeral width' n' t) :
    width = width' ∧ n = n' :=
  ⟨h.length.symm.trans h'.length, Option.some.inj (h.value.symm.trans h'.value)⟩

theorem digit_eq (b : Bool) : digit b = '0' ∨ digit b = '1' := by
  cases b with
  | false => exact .inl rfl
  | true => exact .inr rfl

theorem eq_of_mem_digits {width n : Nat} {c : Char} (h : c ∈ digits width n) : c = '0' ∨ c = '1' := by
  induction width with
  | zero => cases h
  | succ width ih =>
    rcases List.mem_cons.mp h with rfl | h
    · exact digit_eq _
    · exact ih h

theorem digits_congr {width m n : Nat} (h : ∀ i < width, m.testBit i = n.testBit i) : digits width m = digits width n := by
  induction width with
  | zero => rfl
  | succ width ih =>
    have hd : digits width m = digits width n := ih fun i hi => h i (by omega)
    rw [digits, digits, h width (by omega), hd]

/-- The upper digits are those of the number shifted down past the lower ones. -/
theorem digits_add (m n k : Nat) : digits (m + n) k = digits m (k >>> n) ++ digits n k := by
  induction m with
  | zero => simp [digits]
  | succ m ih => rw [Nat.add_right_comm, digits, digits, ih, Nat.testBit_shiftRight, Nat.add_comm n m, List.cons_append]

/-! ## Joined bits -/

theorem append_inj {m n : Nat} {x x' : BitVec m} {y y' : BitVec n} : x ++ y = x' ++ y' ↔ x = x' ∧ y = y' := by
  refine ⟨fun h => ⟨?_, ?_⟩, fun h => by rw [h.1, h.2]⟩
  · rw [← BitVec.extractLsb'_append_eq_left (a := x) (b := y), h, BitVec.extractLsb'_append_eq_left]
  · rw [← BitVec.extractLsb'_append_eq_right (a := x) (b := y), h, BitVec.extractLsb'_append_eq_right]

theorem toNat_lt {w : Nat} (x : BitVec w) : x.toNat < 1 <<< w := by
  rw [Nat.one_shiftLeft]
  exact x.isLt

theorem toNat_append {m n : Nat} (x : BitVec m) (y : BitVec n) : (x ++ y).toNat = x.toNat <<< n + y.toNat := by
  rw [BitVec.toNat_append, Nat.shiftLeft_add_eq_or_of_lt y.isLt]

theorem digits_append {m n : Nat} (x : BitVec m) (y : BitVec n) :
    digits (m + n) (x ++ y).toNat = digits m x.toNat ++ digits n y.toNat := by
  have hx : digits m ((x ++ y).toNat >>> n) = digits m x.toNat := by
    refine digits_congr fun i _ => ?_
    rw [Nat.testBit_shiftRight, BitVec.testBit_toNat, BitVec.testBit_toNat, BitVec.getLsbD_append, if_neg (by omega),
      Nat.add_sub_cancel_left]
  have hy : digits n (x ++ y).toNat = digits n y.toNat := by
    refine digits_congr fun i hi => ?_
    rw [BitVec.testBit_toNat, BitVec.testBit_toNat, BitVec.getLsbD_append, if_pos hi]
  rw [digits_add, hx, hy]

theorem text_append {m n : Nat} (x : BitVec m) (y : BitVec n) :
    text (m + n) (x ++ y).toNat = text m x.toNat ++ text n y.toNat := by
  rw [text, digits_append, String.ofList_append, text, text]

/-! ## Digits read back -/

theorem eq_digit_of_bit? {c : Char} {b : Bool} (h : bit? c = some b) : c = digit b := by
  unfold bit? at h
  split at h
  · cases h
    rfl
  · cases h
    rfl
  · cases h

/-- Reading from the top, the first digit weighs as much as the number of those after it. -/
theorem exists_of_ofDigits?_cons {c : Char} {cs : List Char} {n : Nat} (h : ofDigits? (c :: cs) = some n) :
    ∃ b m, c = digit b ∧ ofDigits? cs = some m ∧ n = b.toNat <<< cs.length + m := by
  simp only [ofDigits?, Option.bind_eq_bind, Option.bind_eq_some_iff, Option.pure_def, Option.some.injEq] at h
  obtain ⟨b, hb, m, hm, hn⟩ := h
  exact ⟨b, m, eq_digit_of_bit? hb, hm, hn.symm⟩

theorem lt_of_ofDigits? {cs : List Char} {n : Nat} (h : ofDigits? cs = some n) : n < 1 <<< cs.length := by
  induction cs generalizing n with
  | nil =>
    cases h
    decide
  | cons c cs ih =>
    obtain ⟨b, m, -, hm, rfl⟩ := exists_of_ofDigits?_cons h
    have hlt := ih hm
    have hb := b.toNat_le
    rw [Nat.shiftLeft_eq] at hlt ⊢
    rw [Nat.shiftLeft_eq, List.length_cons, Nat.pow_succ]
    have : b.toNat * 2 ^ cs.length ≤ 1 * 2 ^ cs.length := Nat.mul_le_mul_right _ hb
    omega

/-- One more bit on top of a number is one more digit in front of it. -/
theorem digits_succ_add {width m : Nat} (hm : m < 1 <<< width) (b : Bool) :
    digits (width + 1) (b.toNat <<< width + m) = digit b :: digits width m := by
  rw [Nat.one_shiftLeft] at hm
  have top : (b.toNat <<< width + m).testBit width = b := by
    rw [Nat.shiftLeft_add_eq_or_of_lt hm, Nat.testBit_or, Nat.testBit_shiftLeft, Nat.testBit_lt_two_pow hm, Nat.sub_self]
    cases b <;> simp
  have low : digits width (b.toNat <<< width + m) = digits width m := by
    refine digits_congr fun i hi => ?_
    rw [Nat.shiftLeft_add_eq_or_of_lt hm, Nat.testBit_or, Nat.testBit_shiftLeft]
    simp [show ¬ width ≤ i by omega]
  rw [digits, top, low]

theorem digits_of_ofDigits? {cs : List Char} {n : Nat} (h : ofDigits? cs = some n) : digits cs.length n = cs := by
  induction cs generalizing n with
  | nil => rfl
  | cons c cs ih =>
    obtain ⟨b, m, rfl, hm, rfl⟩ := exists_of_ofDigits?_cons h
    rw [List.length_cons, digits_succ_add (lt_of_ofDigits? hm), ih hm]

/-! ## Numerals -/

/-- What a number is written as is the only numeral of it. -/
theorem Numeral.eq_text {width n : Nat} {t : String} (h : Numeral width n t) : t = text width n := by
  have hd := digits_of_ofDigits? h.value
  rw [String.length_toList, h.length] at hd
  rw [← String.toList_inj, toList_text, hd]

theorem numeral_text {width n : Nat} (h : n < 1 <<< width) : Numeral width n (text width n) where
  length := by rw [← String.length_toList, toList_text, length_digits]
  binary c hc := by
    rw [toList_text] at hc
    exact eq_of_mem_digits hc
  value := by rw [toList_text, ofDigits?_digits, Nat.mod_eq_of_lt h]

theorem numeral_toNat {w : Nat} (x : BitVec w) : Numeral w x.toNat (text w x.toNat) := numeral_text (toNat_lt x)

theorem numeral_iff_eq_text {width n : Nat} (h : n < 1 <<< width) {t : String} :
    Numeral width n t ↔ t = text width n := by
  constructor
  · intro ht
    exact ht.eq_text
  · intro ht
    rw [ht]
    exact numeral_text h

/-! ## Zeros in front -/

theorem digits_zero (width : Nat) : digits width 0 = List.replicate width '0' := by
  induction width with
  | zero => rfl
  | succ width ih =>
    rw [digits, Nat.zero_testBit, ih, List.replicate_succ]
    rfl

theorem digits_one (n : Nat) : digits 1 n = [(n % 2).digitChar] := by
  have hb : digit (n.testBit 0) = (n % 2).digitChar := by
    rw [Nat.testBit_zero]
    rcases Nat.mod_two_eq_zero_or_one n with h | h
    · rw [h]
      rfl
    · rw [h]
      rfl
  rw [digits, hb, digits]

theorem leftpad_append_singleton {α : Type} (width : Nat) (a c : α) (l : List α) :
    (l ++ [c]).leftpad (width + 1) a = l.leftpad width a ++ [c] := by
  simp [List.leftpad, Nat.add_sub_add_right]

/-- The shortest numeral, which for 0 is one digit, fills up to the width with zeros. -/
theorem digits_eq_leftpad {width n : Nat} (hw : 0 < width) (hn : n < 1 <<< width) :
    digits width n = (Nat.toDigits 2 n).leftpad width '0' := by
  rw [Nat.one_shiftLeft] at hn
  induction width generalizing n with
  | zero => omega
  | succ width ih =>
    have hs : n >>> 1 = n / 2 := rfl
    rw [digits_add, digits_one, hs]
    by_cases h : n < 2
    · have hz : n / 2 = 0 := by omega
      have hm : n % 2 = n := by omega
      have hp := leftpad_append_singleton width '0' n.digitChar []
      rw [List.nil_append] at hp
      rw [hz, hm, digits_zero, Nat.toDigits_of_lt_base h, hp]
      simp [List.leftpad]
    · rw [Nat.pow_succ] at hn
      have hpos : 0 < width := by
        rcases Nat.eq_zero_or_pos width with rfl | hpos
        · omega
        · exact hpos
      have ht : Nat.toDigits 2 n = Nat.toDigits 2 (n / 2) ++ [(n % 2).digitChar] :=
        Nat.toDigits_of_base_le (by decide) (by omega)
      rw [ih hpos (by omega), ht, leftpad_append_singleton]

end Binary

/-! ## Fields -/

namespace BitField

/-- The field of the bits of a vector, as wide as it. -/
def ofBits {w : Nat} (bits : BitVec w) : BitField := ⟨bits.toNat, w⟩

@[simp] theorem value_ofBits {w : Nat} (bits : BitVec w) : (ofBits bits).value = bits.toNat := rfl

theorem fits_ofBits {w : Nat} (bits : BitVec w) (h : w < 16) : Fits (ofBits bits) :=
  fits_iff.mpr ⟨h, Binary.toNat_lt bits⟩

theorem toWord_ofBits {n : Nat} (bits : BitVec n) : (ofBits bits).toWord = bits.setWidth 16 := by
  rw [toWord, value_ofBits, BitVec.ofNat_toNat]

/-- A word in which only the low bits are set is no more than these. -/
theorem ofWord_eq_ofBits {w : Nat} {word : Word} {bits : BitVec w} (h : word.toNat = bits.toNat) :
    ofWord word w = ofBits bits := by
  rw [ofWord, h, ofBits]

theorem ofBits_injective {w : Nat} : Function.Injective (ofBits : BitVec w → BitField) := by
  intro x y h
  exact BitVec.eq_of_toNat_eq (congrArg value h)

theorem eq_of_mem_text {f : BitField} {c : Char} (h : c ∈ f.text.toList) : c = '0' ∨ c = '1' := by
  rw [text, Binary.toList_text] at h
  exact Binary.eq_of_mem_digits h

theorem numeral_text {f : BitField} (h : f.Fits) : Binary.Numeral f.width f.value f.text :=
  Binary.numeral_text (fits_iff.mp h).2

/-- What is written determines the field. -/
theorem text_inj {f g : BitField} (hf : f.Fits) (hg : g.Fits) : f.text = g.text ↔ f = g := by
  constructor
  · intro h
    have hn := numeral_text hf
    rw [h] at hn
    obtain ⟨hw, hv⟩ := hn.unique (numeral_text hg)
    cases f
    cases g
    cases hw
    cases hv
    rfl
  · intro h
    rw [h]

theorem spells_iff_numeral {f : BitField} (h : f.Fits) {t : String} :
    f.spells t = true ↔ Binary.Numeral f.width f.value t := by
  rw [spells_iff, Binary.numeral_iff_eq_text (fits_iff.mp h).2, text, eq_comm]

/-- A field of at least one bit is written as the numeral of its width, the shortest one with
    zeros in front, and equals no other text and no field written otherwise. -/
theorem digits_determine_field {f : BitField} (hw : 0 < f.width) (h : f.Fits) :
    f.text.toList = (Nat.toDigits 2 f.value).leftpad f.width '0' ∧
      Binary.Numeral f.width f.value f.text ∧
      (∀ t, f.spells t = true ↔ Binary.Numeral f.width f.value t) ∧
      ∀ g : BitField, 0 < g.width → g.Fits → (f = g ↔ f.text = g.text) := by
  refine ⟨?padded, numeral_text h, fun t => spells_iff_numeral h, ?equal⟩
  case padded =>
    rw [text, Binary.toList_text]
    exact Binary.digits_eq_leftpad hw (fits_iff.mp h).2
  case equal =>
    intro g _ hg
    exact (text_inj h hg).symm

/-- The value 2 in three bits, with a zero in front and one behind. -/
theorem two_in_three_bits :
    0 < (⟨2, 3⟩ : BitField).width ∧ Fits ⟨2, 3⟩ ∧
      (text ⟨2, 3⟩).toList = (Nat.toDigits 2 2).leftpad 3 '0' ∧
      Binary.Numeral 3 2 (text ⟨2, 3⟩) ∧
      (∀ t, spells ⟨2, 3⟩ t = true ↔ Binary.Numeral 3 2 t) ∧
      ∀ g : BitField, 0 < g.width → g.Fits → (⟨2, 3⟩ = g ↔ text ⟨2, 3⟩ = g.text) :=
  have hw : 0 < (⟨2, 3⟩ : BitField).width := by decide
  have h : Fits ⟨2, 3⟩ := by decide
  ⟨hw, h, digits_determine_field hw h⟩

example : spells ⟨0b101, 3⟩ "101" = true ∧ spells ⟨0b101, 3⟩ "0101" = false ∧ spells ⟨0b101, 3⟩ "1٠1" = false := by decide

end BitField

end HackIsa
