import Famicom.Cpu.FlatMemory
import Famicom.Handle
import Famicom.Main
import Famicom.Proofs.Lockstep
import Famicom.Proofs.Resume
import Famicom.Proofs.Rollback
import Famicom.Proofs.Safety
import Famicom.Proofs.Ppu.Walk
import Famicom.Proofs.Ppu.Frame
import Famicom.Proofs.Cpu.Events
import Famicom.Proofs.Interrupts
import Famicom.Proofs.Ppu.Pixels
import Famicom.Proofs.Ppu.Plane
import Famicom.Proofs.Ppu.Track
import Famicom.Proofs.Ppu.Window
import Famicom.Proofs.Ppu.SpriteLines
import Famicom.Proofs.Ppu.Composition
import Famicom.Proofs.Ppu.Reachable
import Famicom.Proofs.Truncation
import Famicom.Proofs.Canonical
import Famicom.Proofs.Configured
import Famicom.Proofs.Ppu.Adrift
import Famicom.Proofs.Afloat
import Famicom.Proofs.Stranding
import Famicom.Proofs.Cpu.BreakBits
import Famicom.Proofs.Cpu.Stack
import Famicom.Proofs.Cpu.CarryChain
import Famicom.Proofs.Cpu.Combined
import Famicom.Proofs.PictureHistory
import Famicom.Proofs.Ppu.Evaluation
import Famicom.Proofs.Retention
import Famicom.Proofs.Transfer
import Famicom.Proofs.ImageGrammar
import Famicom.Proofs.PictureStore
import Famicom.Proofs.Reset
import Famicom.Proofs.Polling
import Famicom.Proofs.Blocks
import Famicom.Proofs.TraceHistory
import Famicom.Proofs.Sequence
