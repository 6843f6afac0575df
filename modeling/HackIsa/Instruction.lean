/-
  HackIsa.Instruction — destinations, jumps, and the word of an instruction.

  A dest text is a set of letters: order, repetition and foreign characters do not matter,
  so every text is a destination. Seven conditions on the sign of the result have a jump
  mnemonic each; the empty text means no jump. A condition is numbered by the signs on which
  it jumps, a bit each for negative, zero and positive, and the field of no jump is 0.

  The word is `111`, then the comp, dest and jump fields. `Instruction.assemble` reads the
  three texts first and encodes afterwards: a text that is no computation at all is
  reported before a bad jump, and a bad jump before a computation that the ALU cannot
  perform. Each part can also be assembled on its own. Two results are the same when they
  are equal fields (in value and width) or equal errors (in kind and text); a result is
  shown as the field's digits or the error's message.
-/

import HackIsa.Comp

namespace HackIsa

/-! ## Destinations -/

structure Dest where
  a : Bool := false
  d : Bool := false
  m : Bool := false
  deriving DecidableEq, Repr

namespace Dest

/-- The destination with the register that `c` names, if it names one. -/
def insert (dest : Dest) (c : Char) : Dest :=
  match c with
  | 'A' => { dest with a := true }
  | 'D' => { dest with d := true }
  | 'M' => { dest with m := true }
  | _ => dest

def ofText (s : String) : Dest := s.toList.foldl insert {}

def fieldWord (dest : Dest) : Word := maskIf dest.a 0b100 ||| maskIf dest.d 0b010 ||| maskIf dest.m 0b001

def field (dest : Dest) : BitField := .ofWord dest.fieldWord 3

def assemble (s : String) : BitField := (ofText s).field

end Dest

/-! ## Jumps -/

inductive Jump where
  | gt
  | eq
  | ge
  | lt
  | ne
  | le
  | always
  deriving DecidableEq, Repr

namespace Jump

def mnemonic : Jump → String
  | gt => "JGT"
  | eq => "JEQ"
  | ge => "JGE"
  | lt => "JLT"
  | ne => "JNE"
  | le => "JLE"
  | always => "JMP"

instance : Vocabulary Jump where
  all := [gt, eq, ge, lt, ne, le, always]
  spelling j := j.mnemonic.toList
  mem_all j := by cases j <;> decide
  spelling_injective i j := by cases i <;> cases j <;> decide

@[simp] theorem text_eq_mnemonic (j : Jump) : Vocabulary.text j = j.mnemonic := String.ofList_toList

/-- The signs on which a condition jumps, in a byte. -/
def signs : Jump → BitVec 8
  | gt => 0b001
  | eq => 0b010
  | ge => 0b011
  | lt => 0b100
  | ne => 0b101
  | le => 0b110
  | always => 0b111

def number (j : Jump) : Nat := j.signs.toNat

/-- The jump that `s` asks for; the empty text asks for none. -/
def ofText (s : String) : Except AssemblyError (Option Jump) :=
  if s = "" then .ok none
  else
    match Vocabulary.ofText? Jump s with
    | some j => .ok (some j)
    | none => .error (.badJump s)

def fieldWord : Option Jump → Word
  | none => 0
  | some j => j.signs.setWidth 16

def field (j : Option Jump) : BitField := .ofWord (fieldWord j) 3

def assemble (s : String) : Except AssemblyError BitField := do
  let j ← ofText s
  return field j

end Jump

/-! ## Instructions -/

structure Instruction where
  dest : Dest
  comp : Comp
  jump : Option Jump
  deriving DecidableEq, Repr

namespace Instruction

def ofText (dest comp jump : String) : Except AssemblyError Instruction := do
  let comp ← Comp.ofText comp
  let jump ← Jump.ofText jump
  return { dest := .ofText dest, comp, jump }

def opcode : Word := 0xE000

def word (i : Instruction) : Except AssemblyError Word := do
  let comp ← i.comp.field
  return opcode ||| comp.toWord <<< 6 ||| i.dest.field.toWord <<< 3 ||| (Jump.field i.jump).toWord

def assemble (dest comp jump : String) : Except AssemblyError Word := do
  let i ← ofText dest comp jump
  i.word

end Instruction

/-! ## Parts -/

inductive Part where
  | dest
  | comp
  | jump
  deriving DecidableEq, Repr

def Part.assemble : Part → String → Except AssemblyError BitField
  | .dest, s => .ok (Dest.assemble s)
  | .comp, s => Comp.assemble s
  | .jump, s => Jump.assemble s

namespace Assembled

def text : Except AssemblyError BitField → String
  | .ok f => f.text
  | .error e => e.message

def same : Except AssemblyError BitField → Except AssemblyError BitField → Bool
  | .ok f, .ok g => f == g
  | .error e, .error d => e == d
  | _, _ => false

@[simp] theorem same_iff {r s : Except AssemblyError BitField} : same r s = true ↔ r = s := by
  cases r <;> cases s <;> simp [same]

end Assembled

end HackIsa
