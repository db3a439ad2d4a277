import Famicom.Checksum
import Famicom.Console

/-!
# Reports

What the command line prints about a console after a run: a JSON object with one member a line.
-/

namespace Famicom

structure Report where
  rom : String
  board : UInt8
  mirroring : Mirroring
  programSize : Nat
  patternSize : Nat
  variant : Ppu.Variant
  frames : Nat
  cycles : UInt64
  dots : UInt64
  pc : UInt16
  ramChecksum : UInt64
  screenChecksum : UInt64
  stateSize : Nat
  /-- The outcome of the check, if it was asked for. -/
  roundTrip : Option Bool := none
  backup : Option Bool := none

namespace Report

def ofConsole (rom : String) (frames : Nat) (console : Console) : Report where
  rom := rom
  board := console.machine.bus.board.number
  mirroring := console.machine.bus.board.mirroring
  programSize := console.cartridge.program.size
  patternSize := console.cartridge.patterns.size
  variant := console.machine.bus.ppu.variant
  frames := frames
  cycles := console.machine.cpu.cycles
  dots := console.machine.bus.ppu.totalDots
  pc := console.machine.cpu.pc
  ramChecksum := Checksum.ofSequence (fun v => [v]) console.machine.bus.memory.ram.toList
  screenChecksum := Checksum.ofSequence (fun pixel => Codec.littleEndian 4 pixel.toNat)
    console.machine.bus.ppu.screen.toList
  stateSize := console.encode.length

/-- Whether every check that was made came out well. -/
def passes (report : Report) : Bool :=
  report.roundTrip != some false && report.backup != some false

inductive Value
  | text (s : String)
  | number (n : Nat)
  | flag (holds : Bool)

/-- Quotes, backslashes and control characters are escaped; all else stands for itself. -/
def escape (c : Char) : String :=
  match c with
  | '"' => "\\\""
  | '\\' => "\\\\"
  | '\n' => "\\n"
  | '\r' => "\\r"
  | '\t' => "\\t"
  | '\x08' => "\\b"
  | '\x0C' => "\\f"
  | c => if c.toNat < 0x20 then "\\u" ++ Hex.lower 4 c.toNat else c.toString

def quote (text : String) : String :=
  "\"" ++ String.join (text.toList.map escape) ++ "\""

def Value.render : Value → String
  | text s => quote s
  | number n => toString n
  | flag holds => if holds then "true" else "false"

/-- The names of the values, in the order in which they are printed. -/
def members (report : Report) : List (String × Value) := [
  ("rom", .text report.rom),
  ("mapper", .number report.board.toNat),
  ("mirroring", .text report.mirroring.name),
  ("prg_rom_size", .number report.programSize),
  ("chr_rom_size", .number report.patternSize),
  ("pipeline", .text report.variant.name),
  ("frames", .number report.frames),
  ("cpu_cycles", .number report.cycles.toNat),
  ("ppu_dots", .number report.dots.toNat),
  ("program_counter", .number report.pc.toNat),
  ("ram_checksum", .text (Hex.lower 16 report.ramChecksum.toNat)),
  ("screen_checksum", .text (Hex.lower 16 report.screenChecksum.toNat)),
  ("state_size", .number report.stateSize)] ++
  (report.roundTrip.map fun holds => ("roundtrip_ok", .flag holds)).toList ++
  (report.backup.map fun holds => ("backup_ok", .flag holds)).toList

def memberLine : String × Value → String
  | (name, value) => "  " ++ quote name ++ ": " ++ value.render

def render (report : Report) : String :=
  "\x7b\n" ++ ",\n".intercalate (report.members.map memberLine) ++ "\n\x7d"

end Report

end Famicom
