/-
  HackIsa.BitField — words, runs of bits of a word, and how both are written.

  `Binary.digits width n` spells the low `width` bits of `n`, most significant first and
  zeros included; `Binary.ofDigits?` reads such a spelling back and refuses any character
  but the two digits. A field is a value and a width, made from the bits that are set in a
  word. It is written as exactly `width` binary digits and compares with a text by that
  spelling. `Fits` says that the value needs no more bits than the width grants and that a
  field is narrower than a word.

  Stated here: `length_digits`, `ofDigits?_digits` (reading a spelling gives the low bits
  back) and `fits_iff`.
-/

namespace HackIsa

abbrev Word := BitVec 16

namespace Binary

def digit : Bool → Char
  | true => '1'
  | false => '0'

def bit? : Char → Option Bool
  | '0' => some false
  | '1' => some true
  | _ => none

/-- The low `width` bits of `n`, most significant first. -/
def digits : Nat → Nat → List Char
  | 0, _ => []
  | width + 1, n => digit (n.testBit width) :: digits width n

def text (width n : Nat) : String := String.ofList (digits width n)

/-- The number a run of binary digits denotes, most significant first. -/
def ofDigits? : List Char → Option Nat
  | [] => some 0
  | c :: cs => do
    let b ← bit? c
    let n ← ofDigits? cs
    return b.toNat <<< cs.length + n

@[simp] theorem bit?_digit (b : Bool) : bit? (digit b) = some b := by
  cases b <;> rfl

@[simp] theorem length_digits (width n : Nat) : (digits width n).length = width := by
  induction width with
  | zero => rfl
  | succ width ih => simp [digits, ih]

@[simp] theorem toList_text (width n : Nat) : (text width n).toList = digits width n :=
  String.toList_ofList

theorem ofDigits?_digits (width n : Nat) : ofDigits? (digits width n) = some (n % 1 <<< width) := by
  induction width with
  | zero => simp [digits, ofDigits?, Nat.mod_one]
  | succ width ih =>
    simp [digits, ofDigits?, ih, Nat.shiftLeft_eq, Nat.mod_pow_succ, Nat.toNat_testBit, Nat.add_comm, Nat.mul_comm]

end Binary

def Word.text (w : Word) : String := Binary.text 16 w.toNat

/-- `mask` where `b` holds, and no bit at all elsewhere. -/
def maskIf (b : Bool) (mask : Word) : Word := if b then mask else 0

structure BitField where
  value : Nat
  width : Nat
  deriving DecidableEq, Repr

namespace BitField

/-- The field of the bits that are set in a word. -/
def ofWord (bits : Word) (width : Nat) : BitField := ⟨bits.toNat, width⟩

/-- A field at the low end of a word. -/
def toWord (f : BitField) : Word := BitVec.ofNat 16 f.value

/-- No bit of the value lies outside the width, and the field is narrower than a word. -/
def Fits (f : BitField) : Prop := f.width < 16 ∧ f.value >>> f.width = 0

instance (f : BitField) : Decidable (Fits f) := inferInstanceAs (Decidable (_ ∧ _))

def text (f : BitField) : String := Binary.text f.width f.value

/-- Whether `t` is the field written out, digit for digit. -/
def spells (f : BitField) (t : String) : Bool := f.text == t

theorem fits_iff {f : BitField} : Fits f ↔ f.width < 16 ∧ f.value < 1 <<< f.width := by
  simp [Fits, Nat.shiftRight_eq_div_pow, Nat.one_shiftLeft]

@[simp] theorem spells_iff {f : BitField} {t : String} : f.spells t = true ↔ f.text = t := by
  simp [spells]

end BitField

end HackIsa
