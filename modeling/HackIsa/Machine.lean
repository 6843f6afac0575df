/-
  HackIsa.Machine — what the machine does with an instruction word.

  The arithmetic unit has two inputs, `x` and `y`, and six control bits. In order: `zx` and
  `nx` clear and complement `x`, `zy` and `ny` do so for `y`, `f` picks the sum modulo 2^16
  over the bitwise and, and `no` complements the result.

  From the top, a word is `111`, the memory bit, the control bits, a bit for each register
  to write, and a bit for each sign of the result that jumps. The data register is at the
  `x` input of the unit, and the memory bit picks what is at `y`.

  What a computation is worth, and when a condition holds, is read off its shape alone:
  arithmetic wraps modulo 2^16, and the logical operators work bit by bit.
-/

import HackIsa.Instruction

namespace HackIsa

/-! ## The arithmetic unit -/

namespace Alu

/-- The control bits `zx nx zy ny f no`, most significant first. -/
abbrev Control := BitVec 6

namespace Control

def zx (c : Control) : Bool := c.getLsbD 5
def nx (c : Control) : Bool := c.getLsbD 4
def zy (c : Control) : Bool := c.getLsbD 3
def ny (c : Control) : Bool := c.getLsbD 2
def f (c : Control) : Bool := c.getLsbD 1
def no (c : Control) : Bool := c.getLsbD 0

end Control

/-- An input after its clear and complement bits. -/
def gate (zero negate : Bool) (v : Word) : Word :=
  let v := if zero then 0 else v
  if negate then ~~~v else v

def output (c : Control) (x y : Word) : Word :=
  let x := gate c.zx c.nx x
  let y := gate c.zy c.ny y
  let out := if c.f then x + y else x &&& y
  if c.no then ~~~out else out

end Alu

/-- The control bits that make the unit perform `c`, if some do. -/
def Comp.control? (c : Comp) : Option Alu.Control := c.code?.map fun code => code.setWidth 6

/-! ## Values and conditions -/

/-- The address and data registers, and the memory word the address selects. -/
structure Registers where
  a : Word
  d : Word
  m : Word
  deriving DecidableEq, Repr

def Operand.value (r : Registers) : Operand → Word
  | .zero => 0
  | .one => 1
  | .a => r.a
  | .d => r.d
  | .m => r.m

def UnaryOperator.apply : UnaryOperator → Word → Word
  | .negate, v => -v
  | .not, v => ~~~v
  | .identity, v => v

def BinaryOperator.apply : BinaryOperator → Word → Word → Word
  | .add, v, w => v + w
  | .subtract, v, w => v - w
  | .and, v, w => v &&& w
  | .or, v, w => v ||| w

def Comp.value (r : Registers) : Comp → Word
  | unary op x => op.apply (x.value r)
  | binary x op y => op.apply (x.value r) (y.value r)

/-- The sign condition on the result under which a jump is taken. -/
def Jump.Holds (out : Int) : Jump → Prop
  | gt => 0 < out
  | eq => out = 0
  | ge => 0 ≤ out
  | lt => out < 0
  | ne => out ≠ 0
  | le => out ≤ 0
  | always => True

/-! ## Words -/

namespace Word

def memoryBit (w : Word) : Bool := w.getLsbD 12

def control (w : Word) : Alu.Control := w.extractLsb' 6 6

/-- The result the unit puts out. -/
def output (w : Word) (r : Registers) : Word :=
  Alu.output w.control r.d (if w.memoryBit then r.m else r.a)

/-- The registers that receive the result. -/
def writes (w : Word) : Dest := ⟨w.getLsbD 5, w.getLsbD 4, w.getLsbD 3⟩

/-- Whether the machine jumps on the result `out`. -/
def Jumps (w : Word) (out : Int) : Prop :=
  w.getLsbD 2 = true ∧ out < 0 ∨ w.getLsbD 1 = true ∧ out = 0 ∨ w.getLsbD 0 = true ∧ 0 < out

end Word

end HackIsa
