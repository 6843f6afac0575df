import HackIsa.BitField
import HackIsa.CommandLine
import HackIsa.Comp
import HackIsa.Instruction
import HackIsa.Machine
import HackIsa.Main
import HackIsa.Proofs.BitField
import HackIsa.Proofs.Checked
import HackIsa.Proofs.CommandLine
import HackIsa.Proofs.Comp.Encoding
import HackIsa.Proofs.Comp.Memory
import HackIsa.Proofs.Comp.Mirror
import HackIsa.Proofs.Comp.Reading
import HackIsa.Proofs.Dest
import HackIsa.Proofs.Instruction.Assembly
import HackIsa.Proofs.Instruction.Layout
import HackIsa.Proofs.Instruction.Meaning
import HackIsa.Proofs.Jump
import HackIsa.Proofs.Part
import HackIsa.Vocabulary
