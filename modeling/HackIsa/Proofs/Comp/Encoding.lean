/-
  HackIsa.Proofs.Comp.Encoding — the comp texts that have a field, and what the ALU makes of it.

  The ALU performs 37 of the 115 shapes. `mnemonics` lists their spellings; every other
  text, whether it is no shape at all or a shape without control bits, is refused with that
  text. The refusal of a shape spells it anew, so it rests on reading and writing being
  inverse.

  The table is read backwards by `row?`, which finds a shape from control bits and the
  register that the memory bit selects. What it finds has the bits it was found from, up to
  the order of the operands of a sum, an and or an or. So it is enough to follow each row
  through the unit once: a gated input is the input, its complement, 0 or -1, and each row
  turns two such values into the value of its shape.

  One field cannot stand for two values, since the ALU works from the field alone.
  Conversely two fields never stand for the same function of the registers, and it does not
  take all registers to tell: on the `probe` every computation has a value that only the
  computations of its own field share.

  Proved:
  - `row?_of_control`: control bits and the memory bit give back their shape.
  - `output_control`: the control bits of a computation make the ALU put out its value.
  - `toNat_fieldWord`: the control bits stay below the memory bit.
  - `assemble_eq_ok_iff` / `assemble_eq_error_iff`: a text has a field exactly when it
    spells a computation with bits, and otherwise fails with itself.
  - `assemble_accepts_mnemonics`: the list is the language of the comp encoder.
  - `fields_agree_with_values`: fields are equal exactly when the values always are.
-/

import HackIsa.Machine
import HackIsa.Proofs.BitField
import HackIsa.Proofs.Comp.Reading

namespace HackIsa

/-! ## The unit -/

namespace Alu

@[simp] theorem gate_pass (v : Word) : gate false false v = v := rfl
@[simp] theorem gate_negate (v : Word) : gate false true v = ~~~v := rfl
@[simp] theorem gate_zero (v : Word) : gate true false v = 0#16 := rfl
@[simp] theorem gate_ones (v : Word) : gate true true v = BitVec.allOnes 16 := BitVec.not_zero

theorem add_allOnes (v : Word) : v + BitVec.allOnes 16 = v - 1#16 := by
  rw [← BitVec.neg_one_eq_allOnes, BitVec.sub_eq_add_neg]

theorem allOnes_add (v : Word) : BitVec.allOnes 16 + v = v - 1#16 := by
  rw [BitVec.add_comm, add_allOnes]

theorem not_sub_one (v : Word) : ~~~(v - 1#16) = -v := by
  rw [BitVec.not_sub_one_eq_not_add_one, BitVec.neg_eq_not_add]

theorem neg_allOnes : -BitVec.allOnes 16 = 1#16 := rfl

theorem neg_not (v : Word) : -~~~v = v + 1#16 := by
  rw [BitVec.neg_eq_not_add, BitVec.not_not]

theorem not_not_add (v w : Word) : ~~~(~~~v + w) = v - w := by
  rw [← BitVec.not_sub_eq_not_add, BitVec.not_not]

theorem not_add_not (v w : Word) : ~~~(v + ~~~w) = w - v := by
  rw [BitVec.add_comm, not_not_add]

theorem not_not_and_not (v w : Word) : ~~~(~~~v &&& ~~~w) = v ||| w := by
  rw [BitVec.not_and, BitVec.not_not, BitVec.not_not]

end Alu

@[simp] theorem Operand.value_zero (r : Registers) : zero.value r = 0#16 := rfl
@[simp] theorem Operand.value_one (r : Registers) : one.value r = 1#16 := rfl
@[simp] theorem Operand.value_d (r : Registers) : d.value r = r.d := rfl

/-- The register that the memory bit puts at the `y` input. -/
def Operand.selected (memory : Bool) : Operand := if memory then .m else .a

theorem Operand.value_selected (memory : Bool) (r : Registers) :
    (selected memory).value r = if memory then r.m else r.a := by
  cases memory <;> rfl

namespace Comp

/-! ## The mirror image -/

/-- The computation with its operands the other way round. -/
def mirror : Comp → Comp
  | unary op x => unary op x
  | binary x op y => binary y op x

/-- Neither a sign nor a difference: what is left has the same value in both directions. -/
def Symmetric : Comp → Prop
  | unary op _ => op = .identity
  | binary _ op _ => op ≠ .subtract

theorem mirror_mirror (c : Comp) : c.mirror.mirror = c := by
  cases c <;> rfl

theorem symmetric_mirror {c : Comp} : c.mirror.Symmetric ↔ c.Symmetric := by
  cases c <;> rfl

theorem value_mirror {c : Comp} (h : c.Symmetric) (r : Registers) : c.mirror.value r = c.value r := by
  cases c with
  | unary op x => rfl
  | binary x op y =>
    cases op with
    | add => exact BitVec.add_comm (y.value r) (x.value r)
    | subtract => exact absurd rfl h
    | and => exact BitVec.and_comm (y.value r) (x.value r)
    | or => exact BitVec.or_comm (y.value r) (x.value r)

/-! ## The table read backwards -/

/-- A shape that has the control bits, with the selected register at the `y` input. -/
def row? (memory : Bool) : Alu.Control → Option Comp
  | 0b101010#6 => some (unary .identity .zero)
  | 0b111111#6 => some (unary .identity .one)
  | 0b111010#6 => some (unary .negate .one)
  | 0b001100#6 => some (unary .identity .d)
  | 0b110000#6 => some (unary .identity (.selected memory))
  | 0b001101#6 => some (unary .not .d)
  | 0b110001#6 => some (unary .not (.selected memory))
  | 0b001111#6 => some (unary .negate .d)
  | 0b110011#6 => some (unary .negate (.selected memory))
  | 0b011111#6 => some (binary .d .add .one)
  | 0b110111#6 => some (binary (.selected memory) .add .one)
  | 0b001110#6 => some (binary .d .subtract .one)
  | 0b110010#6 => some (binary (.selected memory) .subtract .one)
  | 0b000010#6 => some (binary .d .add (.selected memory))
  | 0b010011#6 => some (binary .d .subtract (.selected memory))
  | 0b000111#6 => some (binary (.selected memory) .subtract .d)
  | 0b000000#6 => some (binary .d .and (.selected memory))
  | 0b010101#6 => some (binary .d .or (.selected memory))
  | _ => none

theorem row?_of_code {c : Comp} {k : Word} (h : c.code? = some k) :
    row? c.usesMemory (k.setWidth 6) = some c ∨ c.Symmetric ∧ row? c.usesMemory (k.setWidth 6) = some c.mirror := by
  unfold code? at h
  split at h <;> cases h
  all_goals first | exact .inl rfl | exact .inr ⟨nofun, rfl⟩

theorem row?_of_control {c : Comp} {k : Alu.Control} (h : c.control? = some k) :
    row? c.usesMemory k = some c ∨ c.Symmetric ∧ row? c.usesMemory k = some c.mirror := by
  obtain ⟨code, hc, rfl⟩ := Option.map_eq_some_iff.mp h
  exact row?_of_code hc

theorem output_row {c : Comp} {memory : Bool} {k : Alu.Control} (h : row? memory k = some c) (r : Registers) :
    Alu.output k r.d (if memory then r.m else r.a) = c.value r := by
  rw [← Operand.value_selected]
  unfold row? at h
  split at h <;> cases h <;>
    simp [-BitVec.reduceAllOnes, -BitVec.reduceNeg, Alu.output, Alu.Control.zx, Alu.Control.nx, Alu.Control.zy,
      Alu.Control.ny, Alu.Control.f, Alu.Control.no, value, UnaryOperator.apply, BinaryOperator.apply, Alu.add_allOnes,
      Alu.allOnes_add, Alu.not_sub_one, Alu.neg_allOnes, Alu.neg_not, Alu.not_not_add, Alu.not_add_not,
      Alu.not_not_and_not, BitVec.neg_one_eq_allOnes]

/-- The unit, with the data register at `x` and the selected register at `y`, puts out the
    value of the computation. -/
theorem output_control {c : Comp} {k : Alu.Control} (h : c.control? = some k) (r : Registers) :
    Alu.output k r.d (if c.usesMemory then r.m else r.a) = c.value r := by
  rcases row?_of_control h with hr | ⟨hs, hr⟩
  · exact output_row hr r
  · rw [output_row hr r, value_mirror hs]

/-! ## Bits -/

/-- The memory bit over the control bits. -/
def bits? (c : Comp) : Option (BitVec 7) :=
  c.control?.map fun k => BitVec.ofBool c.usesMemory ++ k

variable {c d : Comp}

theorem bits?_eq_some_iff {b : BitVec 7} :
    c.bits? = some b ↔ ∃ k, c.control? = some k ∧ BitVec.ofBool c.usesMemory ++ k = b :=
  Option.map_eq_some_iff

theorem control?_eq_none_iff : c.control? = none ↔ c.code? = none := Option.map_eq_none_iff

theorem bits?_eq_none_iff : c.bits? = none ↔ c.control? = none := Option.map_eq_none_iff

/-- The bits tell the memory bit from the control bits. -/
theorem eq_of_bits {b : BitVec 7} (hc : c.bits? = some b) (hd : d.bits? = some b) :
    c.usesMemory = d.usesMemory ∧ ∃ k, c.control? = some k ∧ d.control? = some k := by
  obtain ⟨k, hk, hb⟩ := bits?_eq_some_iff.mp hc
  obtain ⟨k', hk', hb'⟩ := bits?_eq_some_iff.mp hd
  obtain ⟨hm, rfl⟩ := Binary.append_inj.mp (hb.trans hb'.symm)
  exact ⟨BitVec.ofBool_eq_iff_eq.mp hm, k, hk, hk'⟩

theorem code_lt {k : Word} (h : c.code? = some k) : k.toNat < 1 <<< 6 := by
  unfold code? at h
  split at h <;> cases h <;> decide

/-- No control bit reaches up to the memory bit, so the word has the bits of both. -/
theorem toNat_fieldWord {w : Word} (h : c.fieldWord? = some w) :
    ∃ b : BitVec 7, c.bits? = some b ∧ w.toNat = b.toNat := by
  obtain ⟨k, hk, rfl⟩ := Option.map_eq_some_iff.mp h
  refine ⟨_, bits?_eq_some_iff.mpr ⟨_, Option.map_eq_some_iff.mpr ⟨k, hk, rfl⟩, rfl⟩, ?_⟩
  have hm : (maskIf c.usesMemory 0b1000000).toNat = c.usesMemory.toNat <<< 6 := by
    cases c.usesMemory <;> decide
  have hk : (k.setWidth 6).toNat = k.toNat := by
    rw [BitVec.toNat_setWidth]
    exact Nat.mod_eq_of_lt (code_lt hk)
  rw [BitVec.toNat_append, BitVec.toNat_ofBool, hk, BitVec.toNat_or, hm]

theorem fieldWord?_eq_none_iff : c.fieldWord? = none ↔ c.bits? = none := by
  rw [bits?_eq_none_iff, control?_eq_none_iff]
  exact Option.map_eq_none_iff

/-! ## The field of a computation and of a text -/

theorem field_of_bits {b : BitVec 7} (h : c.bits? = some b) : c.field = .ok (.ofBits b) := by
  cases hw : c.fieldWord? with
  | none =>
    rw [fieldWord?_eq_none_iff.mp hw] at h
    cases h
  | some w =>
    obtain ⟨b', hb, hn⟩ := toNat_fieldWord hw
    rw [h] at hb
    cases hb
    rw [field, hw, ← BitField.ofWord_eq_ofBits hn]

theorem field_of_no_bits (h : c.bits? = none) : c.field = .error (.badComp c.text) := by
  rw [field, fieldWord?_eq_none_iff.mpr h]

theorem field_eq_ok_iff {f : BitField} : c.field = .ok f ↔ ∃ b, c.bits? = some b ∧ f = .ofBits b := by
  cases hb : c.bits? with
  | none => simp [field_of_no_bits hb]
  | some b => simp [field_of_bits hb, eq_comm]

theorem field_eq_error_iff {e : AssemblyError} : c.field = .error e ↔ c.bits? = none ∧ e = .badComp c.text := by
  cases hb : c.bits? with
  | none => simp [field_of_no_bits hb, eq_comm]
  | some b => simp [field_of_bits hb]

@[simp] theorem assemble_text (c : Comp) : assemble c.text = c.field := by
  simp only [assemble, ofText_text]
  rfl

variable {s : String}

theorem assemble_of_unspelled (h : ∀ c, text c ≠ s) : assemble s = .error (.badComp s) := by
  simp only [assemble, ofText_eq_error_iff.mpr ⟨h, rfl⟩]
  rfl

theorem assemble_eq_ok_iff {f : BitField} :
    assemble s = .ok f ↔ ∃ c b, text c = s ∧ c.bits? = some b ∧ f = .ofBits b := by
  constructor
  · intro h
    rcases spelled_or_unspelled s with ⟨c, rfl⟩ | hn
    · rw [assemble_text] at h
      obtain ⟨b, hb, hf⟩ := field_eq_ok_iff.mp h
      exact ⟨c, b, rfl, hb, hf⟩
    · rw [assemble_of_unspelled hn] at h
      cases h
  · intro h
    obtain ⟨c, b, rfl, hb, rfl⟩ := h
    rw [assemble_text, field_of_bits hb]

theorem assemble_eq_error_iff {e : AssemblyError} :
    assemble s = .error e ↔ (∀ c, text c = s → c.bits? = none) ∧ e = .badComp s := by
  rcases spelled_or_unspelled s with ⟨c, rfl⟩ | hn
  · rw [assemble_text, field_eq_error_iff]
    refine and_congr_left fun _ => ⟨fun h d hd => ?_, fun h => h c rfl⟩
    rw [text_injective hd]
    exact h
  · rw [assemble_of_unspelled hn]
    constructor
    · intro h
      cases h
      exact ⟨fun c hc => absurd hc (hn c), rfl⟩
    · intro h
      rw [h.2]

/-! ## The language -/

/-- Every shape, performable or not. -/
def shapes : List Comp :=
  (Vocabulary.all.flatMap fun op => Vocabulary.all.map (unary op)) ++
    Vocabulary.all.flatMap fun x => Vocabulary.all.flatMap fun op => Vocabulary.all.map (binary x op)

theorem mem_shapes (c : Comp) : c ∈ shapes := by
  cases c with
  | unary op x => simp [shapes, Vocabulary.mem_all]
  | binary x op y => simp [shapes, Vocabulary.mem_all]

/-- The spellings of the computations that the ALU performs. -/
def mnemonics : List String :=
  ["0", "1", "-1", "D", "A", "M", "!D", "!A", "!M", "-D", "-A", "-M",
    "D+1", "1+D", "A+1", "1+A", "M+1", "1+M", "D-1", "A-1", "M-1",
    "D+A", "A+D", "D+M", "M+D", "D-A", "D-M", "A-D", "M-D",
    "D&A", "A&D", "D&M", "M&D", "D|A", "A|D", "D|M", "M|D"]

/-- Shape by shape: one has bits exactly when its spelling is listed. -/
theorem text_mem_mnemonics_of_mem_shapes : ∀ c ∈ shapes, c.text ∈ mnemonics ↔ c.bits?.isSome = true := by
  decide +kernel

theorem text_mem_mnemonics_iff (c : Comp) : c.text ∈ mnemonics ↔ c.bits?.isSome = true :=
  text_mem_mnemonics_of_mem_shapes c (mem_shapes c)

theorem mnemonics_spelled : ∀ s ∈ mnemonics, (ofText? s).isSome = true := by decide +kernel

theorem mem_mnemonics_iff : s ∈ mnemonics ↔ ∃ c b, text c = s ∧ c.bits? = some b := by
  constructor
  · intro h
    obtain ⟨c, hc⟩ := Option.isSome_iff_exists.mp (mnemonics_spelled s h)
    obtain rfl := ofText?_eq_some_iff.mp hc
    obtain ⟨b, hb⟩ := Option.isSome_iff_exists.mp ((text_mem_mnemonics_iff c).mp h)
    exact ⟨c, b, rfl, hb⟩
  · intro h
    obtain ⟨c, b, rfl, hb⟩ := h
    exact (text_mem_mnemonics_iff c).mpr (by simp [hb])

/-- A text has a field, of seven bits, exactly when it is one of the 37 mnemonics; every
    other text is refused as a bad computation, unchanged. -/
theorem assemble_accepts_mnemonics (s : String) :
    ((∃ f, assemble s = .ok f ∧ f.width = 7) ↔ s ∈ mnemonics) ∧
      (assemble s = .error (.badComp s) ↔ s ∉ mnemonics) := by
  rw [mem_mnemonics_iff, assemble_eq_error_iff]
  refine ⟨⟨fun h => ?_, fun h => ?_⟩, ⟨fun h hs => ?_, fun h => ⟨fun c hc => ?_, rfl⟩⟩⟩
  · obtain ⟨f, hf, -⟩ := h
    obtain ⟨c, b, hc, hb, -⟩ := assemble_eq_ok_iff.mp hf
    exact ⟨c, b, hc, hb⟩
  · obtain ⟨c, b, hc, hb⟩ := h
    exact ⟨.ofBits b, assemble_eq_ok_iff.mpr ⟨c, b, hc, hb, rfl⟩, rfl⟩
  · obtain ⟨c, b, hc, hb⟩ := hs
    rw [h.1 c hc] at hb
    cases hb
  · cases hb : c.bits? with
    | none => rfl
    | some b => exact absurd ⟨c, b, hc, hb⟩ h

example : assemble "A+M" = .error (.badComp "A+M") := rfl

/-! ## Fields and values -/

theorem value_eq_of_bits {b : BitVec 7} (hc : c.bits? = some b) (hd : d.bits? = some b) (r : Registers) :
    c.value r = d.value r := by
  obtain ⟨hm, k, hk, hk'⟩ := eq_of_bits hc hd
  rw [← output_control hk, ← output_control hk', hm]

/-- Registers in whose words every three bits meet at some place. -/
def probe : Registers := { a := 0x0F0F, d := 0x00FF, m := 0x3333 }

/-- The bits of the first performable shape that is worth `v` on the probe. -/
def bitsAtProbe? (v : Word) : Option (BitVec 7) :=
  shapes.findSome? fun c => if c.value probe = v then c.bits? else none

/-- Shape by shape: the value on the probe gives the bits back. -/
theorem bitsAtProbe?_of_mem_shapes : ∀ c ∈ shapes, c.bits?.isSome = true → bitsAtProbe? (c.value probe) = c.bits? := by
  decide +kernel

theorem bitsAtProbe?_value {b : BitVec 7} (hc : c.bits? = some b) : bitsAtProbe? (c.value probe) = some b := by
  rw [bitsAtProbe?_of_mem_shapes c (mem_shapes c) (by rw [hc]; rfl), hc]

theorem bits_eq_of_probe {b b' : BitVec 7} (hc : c.bits? = some b) (hd : d.bits? = some b')
    (h : c.value probe = d.value probe) : b = b' := by
  have hb := bitsAtProbe?_value hc
  rw [h, bitsAtProbe?_value hd] at hb
  exact (Option.some.inj hb).symm

/-- The fields of two comp texts are equal exactly when the computations that the texts spell
    have the same value for all contents of the three registers. -/
theorem fields_agree_with_values {s t : String} {f g : BitField} (hs : assemble s = .ok f) (ht : assemble t = .ok g) :
    ∃ c d, text c = s ∧ text d = t ∧ (f = g ↔ ∀ r : Registers, c.value r = d.value r) := by
  obtain ⟨c, b, hc, hb, rfl⟩ := assemble_eq_ok_iff.mp hs
  obtain ⟨d, b', hd, hb', rfl⟩ := assemble_eq_ok_iff.mp ht
  refine ⟨c, d, hc, hd, ?_⟩
  constructor
  · intro h r
    obtain rfl := BitField.ofBits_injective h
    exact value_eq_of_bits hb hb' r
  · intro h
    rw [bits_eq_of_probe hb hb' (h probe)]

/-- A difference and the one the other way round have a field each. -/
theorem both_differences_agree_with_values :
    assemble "D-M" = .ok ⟨0b1010011, 7⟩ ∧ assemble "M-D" = .ok ⟨0b1000111, 7⟩ ∧
      ∃ c d, text c = "D-M" ∧ text d = "M-D" ∧
        ((⟨0b1010011, 7⟩ : BitField) = ⟨0b1000111, 7⟩ ↔ ∀ r : Registers, c.value r = d.value r) :=
  have h₁ : assemble "D-M" = .ok ⟨0b1010011, 7⟩ := rfl
  have h₂ : assemble "M-D" = .ok ⟨0b1000111, 7⟩ := rfl
  ⟨h₁, h₂, fields_agree_with_values h₁ h₂⟩

end Comp

end HackIsa
