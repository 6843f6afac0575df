/-
  HackIsa.Comp — the comp part of an instruction.

  A computation is one operand after an optional sign, or two operands joined by an
  operator. All such shapes are values here, whether or not the ALU can perform them.

  Two readers take a shape off the front of a text and give back the rest. A text is read
  by the first of the two that succeeds, and nothing may be left over. The choice is final:
  a text whose front has the first shape is not tried again as the second.

  The field of a shape is the memory bit over the control bits of the ALU, which are listed
  shape by shape. The ALU has one input for the address and the memory register, so the
  two share their control bits and the memory bit tells them apart. A shape that is not
  listed has no field.
-/

import HackIsa.BitField
import HackIsa.Vocabulary

namespace HackIsa

inductive Operand where
  | zero
  | one
  | a
  | d
  | m
  deriving DecidableEq, Repr

inductive UnaryOperator where
  | negate
  | not
  | identity
  deriving DecidableEq, Repr

inductive BinaryOperator where
  | add
  | subtract
  | and
  | or
  deriving DecidableEq, Repr

inductive Comp where
  | unary (op : UnaryOperator) (x : Operand)
  | binary (x : Operand) (op : BinaryOperator) (y : Operand)
  deriving DecidableEq, Repr

/-! ## Spellings -/

def Operand.spelling : Operand → List Char
  | .zero => ['0']
  | .one => ['1']
  | .a => ['A']
  | .d => ['D']
  | .m => ['M']

/-- The identity is spelled by writing nothing. -/
def UnaryOperator.spelling : UnaryOperator → List Char
  | .negate => ['-']
  | .not => ['!']
  | .identity => []

def BinaryOperator.spelling : BinaryOperator → List Char
  | .add => ['+']
  | .subtract => ['-']
  | .and => ['&']
  | .or => ['|']

instance : Vocabulary Operand where
  all := [.zero, .one, .a, .d, .m]
  spelling := Operand.spelling
  mem_all x := by cases x <;> decide
  spelling_injective x y := by cases x <;> cases y <;> decide

instance : Vocabulary UnaryOperator where
  all := [.negate, .not, .identity]
  spelling := UnaryOperator.spelling
  mem_all op := by cases op <;> decide
  spelling_injective p q := by cases p <;> cases q <;> decide

instance : Vocabulary BinaryOperator where
  all := [.add, .subtract, .and, .or]
  spelling := BinaryOperator.spelling
  mem_all op := by cases op <;> decide
  spelling_injective p q := by cases p <;> cases q <;> decide

@[simp] theorem spelling_operand (x : Operand) : Vocabulary.spelling x = x.spelling := rfl

namespace Comp

def spelling : Comp → List Char
  | unary op x => op.spelling ++ x.spelling
  | binary x op y => x.spelling ++ op.spelling ++ y.spelling

def text (c : Comp) : String := String.ofList c.spelling

/-- Whether some operand is the memory register. -/
def usesMemory : Comp → Bool
  | unary _ x => x == .m
  | binary x _ y => x == .m || y == .m

@[simp] theorem toList_text (c : Comp) : c.text.toList = c.spelling := String.toList_ofList

end Comp

/-! ## Readers -/

/-- Takes a value off the front of a text and gives back the rest. -/
abbrev Reader (α : Type) := List Char → Option (α × List Char)

namespace Reader

variable {α β : Type}

def oneOf (set : List Char) : Reader Char
  | [] => none
  | c :: cs => if c ∈ set then some (c, cs) else none

/-- Takes nothing where `read` fails. -/
def optional (read : Reader α) : Reader (Option α) := fun cs =>
  match read cs with
  | some (a, cs) => some (some a, cs)
  | none => some (none, cs)

def mapOption (read : Reader α) (f : α → Option β) : Reader β := fun cs => do
  let (a, cs) ← read cs
  let b ← f a
  return (b, cs)

end Reader

def Operand.ofChar? : Char → Option Operand
  | '0' => some .zero
  | '1' => some .one
  | 'A' => some .a
  | 'D' => some .d
  | 'M' => some .m
  | _ => none

/-- The operator of a sign, or of no sign at all. -/
def UnaryOperator.ofSign? : Option Char → Option UnaryOperator
  | some '-' => some .negate
  | some '!' => some .not
  | none => some .identity
  | some _ => none

def BinaryOperator.ofChar? : Char → Option BinaryOperator
  | '+' => some .add
  | '-' => some .subtract
  | '&' => some .and
  | '|' => some .or
  | _ => none

def Operand.read : Reader Operand := (Reader.oneOf ['0', '1', 'A', 'D', 'M']).mapOption ofChar?

def UnaryOperator.read : Reader UnaryOperator := (Reader.oneOf ['-', '!']).optional.mapOption ofSign?

def BinaryOperator.read : Reader BinaryOperator := (Reader.oneOf ['+', '-', '&', '|']).mapOption ofChar?

namespace Comp

/-- Two operands around an operator. -/
def readBinary : Reader Comp := fun cs => do
  let (x, cs) ← Operand.read cs
  let (op, cs) ← BinaryOperator.read cs
  let (y, cs) ← Operand.read cs
  return (binary x op y, cs)

/-- One operand after an optional sign. -/
def readUnary : Reader Comp := fun cs => do
  let (op, cs) ← UnaryOperator.read cs
  let (x, cs) ← Operand.read cs
  return (unary op x, cs)

/-- The first shape that fits the front of the text. -/
def readShape : Reader Comp := fun cs => readBinary cs <|> readUnary cs

/-- The computation that `s` spells, whether or not the ALU can perform it. -/
def ofText? (s : String) : Option Comp :=
  match readShape s.toList with
  | some (c, []) => some c
  | _ => none

def ofText (s : String) : Except AssemblyError Comp :=
  match ofText? s with
  | some c => .ok c
  | none => .error (.badComp s)

/-! ## Fields -/

/-- The control bits that make the ALU perform a shape. -/
def code? : Comp → Option Word
  | unary .identity .zero => some 0b101010
  | unary .identity .one => some 0b111111
  | unary .negate .one => some 0b111010
  | unary .identity .d => some 0b001100
  | unary .identity .a | unary .identity .m => some 0b110000
  | unary .not .d => some 0b001101
  | unary .not .a | unary .not .m => some 0b110001
  | unary .negate .d => some 0b001111
  | unary .negate .a | unary .negate .m => some 0b110011
  | binary .d .add .one | binary .one .add .d => some 0b011111
  | binary .a .add .one | binary .m .add .one | binary .one .add .a | binary .one .add .m => some 0b110111
  | binary .d .subtract .one => some 0b001110
  | binary .a .subtract .one | binary .m .subtract .one => some 0b110010
  | binary .d .add .a | binary .d .add .m | binary .a .add .d | binary .m .add .d => some 0b000010
  | binary .d .subtract .a | binary .d .subtract .m => some 0b010011
  | binary .a .subtract .d | binary .m .subtract .d => some 0b000111
  | binary .d .and .a | binary .d .and .m | binary .a .and .d | binary .m .and .d => some 0b000000
  | binary .d .or .a | binary .d .or .m | binary .a .or .d | binary .m .or .d => some 0b010101
  | _ => none

/-- The control bits with the memory bit over them. -/
def fieldWord? (c : Comp) : Option Word := c.code?.map fun code => maskIf c.usesMemory 0b1000000 ||| code

def field (c : Comp) : Except AssemblyError BitField :=
  match c.fieldWord? with
  | some bits => .ok (.ofWord bits 7)
  | none => .error (.badComp c.text)

def assemble (s : String) : Except AssemblyError BitField := do
  let c ← ofText s
  c.field

/-- The computation that `s` spells, if the ALU can perform it. -/
def ofComputable (s : String) : Except AssemblyError Comp := do
  let c ← ofText s
  let _ ← c.field
  return c

end Comp

end HackIsa
