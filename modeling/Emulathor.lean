import Emulathor.Cpu.Proof.Safety
import Emulathor.Assembler.Proof.DynamicBuffer
import Emulathor.Assembler.Proof.FixedBuffer
import Emulathor.Assembler.Proof.LastWriter
import Emulathor.Assembler.Proof.Conditional
import Emulathor.Assembler.Proof.CaseInsensitive
import Emulathor.E2E.Disassembly
import Emulathor.E2E.ImmForm
import Emulathor.E2E.LabelLoad
import Emulathor.E2E.StackDiscipline
import Emulathor.E2E.SignExtend
import Emulathor.E2E.Load32
import Emulathor.E2E.Reassemble
import Emulathor.E2E.X86tov
import Emulathor.Cpu.Proof.SingleStep
import Emulathor.Cpu.Proof.Call
import Emulathor.Cpu.Proof.Frame
import Emulathor.Cpu.Proof.Displacement
import Emulathor.Cpu.Proof.RangeUnfold
import Emulathor.Cpu.Proof.SubRegisters
import Emulathor.Cpu.Proof.Parity
import Emulathor.E2E.CarryChain
import Emulathor.E2E.AddressOps
import Emulathor.E2E.ControlMove
import Emulathor.Assembler.Proof.Align
import Emulathor.Assembler.Proof.Literals
import Emulathor.Disassembler.Proof.Vdis
import Emulathor.Cpu.Proof.RunFrame
import Emulathor.Cpu.Proof.Returns
import Emulathor.Assembler.Proof.Lines
import Emulathor.E2E.SourceRun
import Emulathor.E2E.VdisRoundTrip
import Emulathor.Assembler.Proof.Rename
import Emulathor.E2E.VdisStable
import Emulathor.Cpu.Proof.Independence
