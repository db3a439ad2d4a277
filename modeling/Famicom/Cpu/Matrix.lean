import Famicom.Cpu.Opcode

/-!
# The opcode matrix

All 256 opcodes, row by row, with their bytes and their cycles. The gaps are opcodes that no
instruction has.
-/

namespace Famicom.Cpu

def official (operation : Operation) (mode : Mode) (size : UInt8) (cycles : UInt32) :
    Option Opcode :=
  some ⟨operation, mode, size, cycles, true⟩

def unofficial (operation : Operation) (mode : Mode) (size : UInt8) (cycles : UInt32) :
    Option Opcode :=
  some ⟨operation, mode, size, cycles, false⟩

def opcodeMatrix : Array (Option Opcode) := #[
  -- $00
  official .brk .implied 1 7,
  official (.alu .ora) .indexedIndirect 2 6,
  none,
  unofficial (.combined .slo) .indexedIndirect 2 8,
  unofficial .nop .zeroPage 2 3,
  official (.alu .ora) .zeroPage 2 3,
  official (.update .asl) .zeroPage 2 5,
  unofficial (.combined .slo) .zeroPage 2 5,
  official .php .implied 1 3,
  official (.alu .ora) .immediate 2 2,
  official (.update .asl) .accumulator 1 2,
  unofficial .anc .immediate 2 2,
  unofficial .nop .absolute 3 4,
  official (.alu .ora) .absolute 3 4,
  official (.update .asl) .absolute 3 6,
  unofficial (.combined .slo) .absolute 3 6,
  -- $10
  official (.branch .negative false) .relative 2 2,
  official (.alu .ora) .indirectIndexed 2 5,
  none,
  unofficial (.combined .slo) .indirectIndexed 2 8,
  unofficial .nop .zeroPageX 2 4,
  official (.alu .ora) .zeroPageX 2 4,
  official (.update .asl) .zeroPageX 2 6,
  unofficial (.combined .slo) .zeroPageX 2 6,
  official (.setFlag .carry false) .implied 1 2,
  official (.alu .ora) .absoluteY 3 4,
  unofficial .nop .implied 1 2,
  unofficial (.combined .slo) .absoluteY 3 7,
  unofficial .nop .absoluteX 3 4,
  official (.alu .ora) .absoluteX 3 4,
  official (.update .asl) .absoluteX 3 7,
  unofficial (.combined .slo) .absoluteX 3 7,
  -- $20
  official .jsr .absolute 3 6,
  official (.alu .and) .indexedIndirect 2 6,
  none,
  unofficial (.combined .rla) .indexedIndirect 2 8,
  official .bit .zeroPage 2 3,
  official (.alu .and) .zeroPage 2 3,
  official (.update .rol) .zeroPage 2 5,
  unofficial (.combined .rla) .zeroPage 2 5,
  official .plp .implied 1 4,
  official (.alu .and) .immediate 2 2,
  official (.update .rol) .accumulator 1 2,
  unofficial .anc .immediate 2 2,
  official .bit .absolute 3 4,
  official (.alu .and) .absolute 3 4,
  official (.update .rol) .absolute 3 6,
  unofficial (.combined .rla) .absolute 3 6,
  -- $30
  official (.branch .negative true) .relative 2 2,
  official (.alu .and) .indirectIndexed 2 5,
  none,
  unofficial (.combined .rla) .indirectIndexed 2 8,
  unofficial .nop .zeroPageX 2 4,
  official (.alu .and) .zeroPageX 2 4,
  official (.update .rol) .zeroPageX 2 6,
  unofficial (.combined .rla) .zeroPageX 2 6,
  official (.setFlag .carry true) .implied 1 2,
  official (.alu .and) .absoluteY 3 4,
  unofficial .nop .implied 1 2,
  unofficial (.combined .rla) .absoluteY 3 7,
  unofficial .nop .absoluteX 3 4,
  official (.alu .and) .absoluteX 3 4,
  official (.update .rol) .absoluteX 3 7,
  unofficial (.combined .rla) .absoluteX 3 7,
  -- $40
  official .rti .implied 1 6,
  official (.alu .eor) .indexedIndirect 2 6,
  none,
  unofficial (.combined .sre) .indexedIndirect 2 8,
  unofficial .nop .zeroPage 2 3,
  official (.alu .eor) .zeroPage 2 3,
  official (.update .lsr) .zeroPage 2 5,
  unofficial (.combined .sre) .zeroPage 2 5,
  official .pha .implied 1 3,
  official (.alu .eor) .immediate 2 2,
  official (.update .lsr) .accumulator 1 2,
  unofficial .alr .immediate 2 2,
  official .jmp .absolute 3 3,
  official (.alu .eor) .absolute 3 4,
  official (.update .lsr) .absolute 3 6,
  unofficial (.combined .sre) .absolute 3 6,
  -- $50
  official (.branch .overflow false) .relative 2 2,
  official (.alu .eor) .indirectIndexed 2 5,
  none,
  unofficial (.combined .sre) .indirectIndexed 2 8,
  unofficial .nop .zeroPageX 2 4,
  official (.alu .eor) .zeroPageX 2 4,
  official (.update .lsr) .zeroPageX 2 6,
  unofficial (.combined .sre) .zeroPageX 2 6,
  official (.setFlag .interruptDisable false) .implied 1 2,
  official (.alu .eor) .absoluteY 3 4,
  unofficial .nop .implied 1 2,
  unofficial (.combined .sre) .absoluteY 3 7,
  unofficial .nop .absoluteX 3 4,
  official (.alu .eor) .absoluteX 3 4,
  official (.update .lsr) .absoluteX 3 7,
  unofficial (.combined .sre) .absoluteX 3 7,
  -- $60
  official .rts .implied 1 6,
  official (.alu .adc) .indexedIndirect 2 6,
  none,
  unofficial (.combined .rra) .indexedIndirect 2 8,
  unofficial .nop .zeroPage 2 3,
  official (.alu .adc) .zeroPage 2 3,
  official (.update .ror) .zeroPage 2 5,
  unofficial (.combined .rra) .zeroPage 2 5,
  official .pla .implied 1 4,
  official (.alu .adc) .immediate 2 2,
  official (.update .ror) .accumulator 1 2,
  unofficial .arr .immediate 2 2,
  official .jmp .indirect 3 5,
  official (.alu .adc) .absolute 3 4,
  official (.update .ror) .absolute 3 6,
  unofficial (.combined .rra) .absolute 3 6,
  -- $70
  official (.branch .overflow true) .relative 2 2,
  official (.alu .adc) .indirectIndexed 2 5,
  none,
  unofficial (.combined .rra) .indirectIndexed 2 8,
  unofficial .nop .zeroPageX 2 4,
  official (.alu .adc) .zeroPageX 2 4,
  official (.update .ror) .zeroPageX 2 6,
  unofficial (.combined .rra) .zeroPageX 2 6,
  official (.setFlag .interruptDisable true) .implied 1 2,
  official (.alu .adc) .absoluteY 3 4,
  unofficial .nop .implied 1 2,
  unofficial (.combined .rra) .absoluteY 3 7,
  unofficial .nop .absoluteX 3 4,
  official (.alu .adc) .absoluteX 3 4,
  official (.update .ror) .absoluteX 3 7,
  unofficial (.combined .rra) .absoluteX 3 7,
  -- $80
  unofficial .nop .immediate 2 2,
  official (.store .a) .indexedIndirect 2 6,
  unofficial .nop .immediate 2 2,
  unofficial .sax .indexedIndirect 2 6,
  official (.store .y) .zeroPage 2 3,
  official (.store .a) .zeroPage 2 3,
  official (.store .x) .zeroPage 2 3,
  unofficial .sax .zeroPage 2 3,
  official (.decrement .y) .implied 1 2,
  unofficial .nop .immediate 2 2,
  official (.transfer .txa) .implied 1 2,
  none,
  official (.store .y) .absolute 3 4,
  official (.store .a) .absolute 3 4,
  official (.store .x) .absolute 3 4,
  unofficial .sax .absolute 3 4,
  -- $90
  official (.branch .carry false) .relative 2 2,
  official (.store .a) .indirectIndexed 2 6,
  none,
  none,
  official (.store .y) .zeroPageX 2 4,
  official (.store .a) .zeroPageX 2 4,
  official (.store .x) .zeroPageY 2 4,
  unofficial .sax .zeroPageY 2 4,
  official (.transfer .tya) .implied 1 2,
  official (.store .a) .absoluteY 3 5,
  official (.transfer .txs) .implied 1 2,
  none,
  none,
  official (.store .a) .absoluteX 3 5,
  none,
  none,
  -- $A0
  official (.load .y) .immediate 2 2,
  official (.load .a) .indexedIndirect 2 6,
  official (.load .x) .immediate 2 2,
  unofficial .lax .indexedIndirect 2 6,
  official (.load .y) .zeroPage 2 3,
  official (.load .a) .zeroPage 2 3,
  official (.load .x) .zeroPage 2 3,
  unofficial .lax .zeroPage 2 3,
  official (.transfer .tay) .implied 1 2,
  official (.load .a) .immediate 2 2,
  official (.transfer .tax) .implied 1 2,
  none,
  official (.load .y) .absolute 3 4,
  official (.load .a) .absolute 3 4,
  official (.load .x) .absolute 3 4,
  unofficial .lax .absolute 3 4,
  -- $B0
  official (.branch .carry true) .relative 2 2,
  official (.load .a) .indirectIndexed 2 5,
  none,
  unofficial .lax .indirectIndexed 2 5,
  official (.load .y) .zeroPageX 2 4,
  official (.load .a) .zeroPageX 2 4,
  official (.load .x) .zeroPageY 2 4,
  unofficial .lax .zeroPageY 2 4,
  official (.setFlag .overflow false) .implied 1 2,
  official (.load .a) .absoluteY 3 4,
  official (.transfer .tsx) .implied 1 2,
  none,
  official (.load .y) .absoluteX 3 4,
  official (.load .a) .absoluteX 3 4,
  official (.load .x) .absoluteY 3 4,
  unofficial .lax .absoluteY 3 4,
  -- $C0
  official (.compare .y) .immediate 2 2,
  official (.alu .cmp) .indexedIndirect 2 6,
  unofficial .nop .immediate 2 2,
  unofficial (.combined .dcp) .indexedIndirect 2 8,
  official (.compare .y) .zeroPage 2 3,
  official (.alu .cmp) .zeroPage 2 3,
  official (.update .dec) .zeroPage 2 5,
  unofficial (.combined .dcp) .zeroPage 2 5,
  official (.increment .y) .implied 1 2,
  official (.alu .cmp) .immediate 2 2,
  official (.decrement .x) .implied 1 2,
  unofficial .sbx .immediate 2 2,
  official (.compare .y) .absolute 3 4,
  official (.alu .cmp) .absolute 3 4,
  official (.update .dec) .absolute 3 6,
  unofficial (.combined .dcp) .absolute 3 6,
  -- $D0
  official (.branch .zero false) .relative 2 2,
  official (.alu .cmp) .indirectIndexed 2 5,
  none,
  unofficial (.combined .dcp) .indirectIndexed 2 8,
  unofficial .nop .zeroPageX 2 4,
  official (.alu .cmp) .zeroPageX 2 4,
  official (.update .dec) .zeroPageX 2 6,
  unofficial (.combined .dcp) .zeroPageX 2 6,
  official (.setFlag .decimal false) .implied 1 2,
  official (.alu .cmp) .absoluteY 3 4,
  unofficial .nop .implied 1 2,
  unofficial (.combined .dcp) .absoluteY 3 7,
  unofficial .nop .absoluteX 3 4,
  official (.alu .cmp) .absoluteX 3 4,
  official (.update .dec) .absoluteX 3 7,
  unofficial (.combined .dcp) .absoluteX 3 7,
  -- $E0
  official (.compare .x) .immediate 2 2,
  official (.alu .sbc) .indexedIndirect 2 6,
  unofficial .nop .immediate 2 2,
  unofficial (.combined .isc) .indexedIndirect 2 8,
  official (.compare .x) .zeroPage 2 3,
  official (.alu .sbc) .zeroPage 2 3,
  official (.update .inc) .zeroPage 2 5,
  unofficial (.combined .isc) .zeroPage 2 5,
  official (.increment .x) .implied 1 2,
  official (.alu .sbc) .immediate 2 2,
  official .nop .implied 1 2,
  unofficial (.alu .sbc) .immediate 2 2,
  official (.compare .x) .absolute 3 4,
  official (.alu .sbc) .absolute 3 4,
  official (.update .inc) .absolute 3 6,
  unofficial (.combined .isc) .absolute 3 6,
  -- $F0
  official (.branch .zero true) .relative 2 2,
  official (.alu .sbc) .indirectIndexed 2 5,
  none,
  unofficial (.combined .isc) .indirectIndexed 2 8,
  unofficial .nop .zeroPageX 2 4,
  official (.alu .sbc) .zeroPageX 2 4,
  official (.update .inc) .zeroPageX 2 6,
  unofficial (.combined .isc) .zeroPageX 2 6,
  official (.setFlag .decimal true) .implied 1 2,
  official (.alu .sbc) .absoluteY 3 4,
  unofficial .nop .implied 1 2,
  unofficial (.combined .isc) .absoluteY 3 7,
  unofficial .nop .absoluteX 3 4,
  official (.alu .sbc) .absoluteX 3 4,
  official (.update .inc) .absoluteX 3 7,
  unofficial (.combined .isc) .absoluteX 3 7]

/-- What an opcode byte means, if anything. -/
def decode? (code : UInt8) : Option Opcode := opcodeMatrix.getD code.toNat none

end Famicom.Cpu
