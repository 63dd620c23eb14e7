/-!
# Instructions of the 6502

An opcode stands for an operation and an addressing mode.  Of the 256 opcodes 151 are documented;
the others stand for nothing.
-/

namespace Chiptune.Mos6502

/-- How an instruction finds its operand. -/
inductive Mode where
  | implied
  | accumulator
  | immediate
  | zeroPage
  | zeroPageX
  | zeroPageY
  | absolute
  | absoluteX
  | absoluteY
  | indirect
  | indirectX
  | indirectY
  | relative
  deriving DecidableEq

/-- What an instruction does. -/
inductive Operation where
  | adc | and | asl | bcc | bcs | beq | bit | bmi | bne | bpl | brk | bvc | bvs | clc | cld | cli
  | clv | cmp | cpx | cpy | dec | dex | dey | eor | inc | inx | iny | jmp | jsr | lda | ldx | ldy
  | lsr | nop | ora | pha | php | pla | plp | rol | ror | rti | rts | sbc | sec | sed | sei | sta
  | stx | sty | tax | tay | tsx | txa | txs | tya
  deriving DecidableEq

/-- The operation and mode of an opcode. -/
def decode (opcode : UInt8) : Option (Operation × Mode) :=
  match opcode.toNat with
  | 0x69 => some (.adc, .immediate)
  | 0x65 => some (.adc, .zeroPage)
  | 0x75 => some (.adc, .zeroPageX)
  | 0x6D => some (.adc, .absolute)
  | 0x7D => some (.adc, .absoluteX)
  | 0x79 => some (.adc, .absoluteY)
  | 0x61 => some (.adc, .indirectX)
  | 0x71 => some (.adc, .indirectY)
  | 0x29 => some (.and, .immediate)
  | 0x25 => some (.and, .zeroPage)
  | 0x35 => some (.and, .zeroPageX)
  | 0x2D => some (.and, .absolute)
  | 0x3D => some (.and, .absoluteX)
  | 0x39 => some (.and, .absoluteY)
  | 0x21 => some (.and, .indirectX)
  | 0x31 => some (.and, .indirectY)
  | 0x0A => some (.asl, .accumulator)
  | 0x06 => some (.asl, .zeroPage)
  | 0x16 => some (.asl, .zeroPageX)
  | 0x0E => some (.asl, .absolute)
  | 0x1E => some (.asl, .absoluteX)
  | 0x90 => some (.bcc, .relative)
  | 0xB0 => some (.bcs, .relative)
  | 0xF0 => some (.beq, .relative)
  | 0x24 => some (.bit, .zeroPage)
  | 0x2C => some (.bit, .absolute)
  | 0x30 => some (.bmi, .relative)
  | 0xD0 => some (.bne, .relative)
  | 0x10 => some (.bpl, .relative)
  | 0x00 => some (.brk, .implied)
  | 0x50 => some (.bvc, .relative)
  | 0x70 => some (.bvs, .relative)
  | 0x18 => some (.clc, .implied)
  | 0xD8 => some (.cld, .implied)
  | 0x58 => some (.cli, .implied)
  | 0xB8 => some (.clv, .implied)
  | 0xC9 => some (.cmp, .immediate)
  | 0xC5 => some (.cmp, .zeroPage)
  | 0xD5 => some (.cmp, .zeroPageX)
  | 0xCD => some (.cmp, .absolute)
  | 0xDD => some (.cmp, .absoluteX)
  | 0xD9 => some (.cmp, .absoluteY)
  | 0xC1 => some (.cmp, .indirectX)
  | 0xD1 => some (.cmp, .indirectY)
  | 0xE0 => some (.cpx, .immediate)
  | 0xE4 => some (.cpx, .zeroPage)
  | 0xEC => some (.cpx, .absolute)
  | 0xC0 => some (.cpy, .immediate)
  | 0xC4 => some (.cpy, .zeroPage)
  | 0xCC => some (.cpy, .absolute)
  | 0xC6 => some (.dec, .zeroPage)
  | 0xD6 => some (.dec, .zeroPageX)
  | 0xCE => some (.dec, .absolute)
  | 0xDE => some (.dec, .absoluteX)
  | 0xCA => some (.dex, .implied)
  | 0x88 => some (.dey, .implied)
  | 0x49 => some (.eor, .immediate)
  | 0x45 => some (.eor, .zeroPage)
  | 0x55 => some (.eor, .zeroPageX)
  | 0x4D => some (.eor, .absolute)
  | 0x5D => some (.eor, .absoluteX)
  | 0x59 => some (.eor, .absoluteY)
  | 0x41 => some (.eor, .indirectX)
  | 0x51 => some (.eor, .indirectY)
  | 0xE6 => some (.inc, .zeroPage)
  | 0xF6 => some (.inc, .zeroPageX)
  | 0xEE => some (.inc, .absolute)
  | 0xFE => some (.inc, .absoluteX)
  | 0xE8 => some (.inx, .implied)
  | 0xC8 => some (.iny, .implied)
  | 0x4C => some (.jmp, .absolute)
  | 0x6C => some (.jmp, .indirect)
  | 0x20 => some (.jsr, .absolute)
  | 0xA9 => some (.lda, .immediate)
  | 0xA5 => some (.lda, .zeroPage)
  | 0xB5 => some (.lda, .zeroPageX)
  | 0xAD => some (.lda, .absolute)
  | 0xBD => some (.lda, .absoluteX)
  | 0xB9 => some (.lda, .absoluteY)
  | 0xA1 => some (.lda, .indirectX)
  | 0xB1 => some (.lda, .indirectY)
  | 0xA2 => some (.ldx, .immediate)
  | 0xA6 => some (.ldx, .zeroPage)
  | 0xB6 => some (.ldx, .zeroPageY)
  | 0xAE => some (.ldx, .absolute)
  | 0xBE => some (.ldx, .absoluteY)
  | 0xA0 => some (.ldy, .immediate)
  | 0xA4 => some (.ldy, .zeroPage)
  | 0xB4 => some (.ldy, .zeroPageX)
  | 0xAC => some (.ldy, .absolute)
  | 0xBC => some (.ldy, .absoluteX)
  | 0x4A => some (.lsr, .accumulator)
  | 0x46 => some (.lsr, .zeroPage)
  | 0x56 => some (.lsr, .zeroPageX)
  | 0x4E => some (.lsr, .absolute)
  | 0x5E => some (.lsr, .absoluteX)
  | 0xEA => some (.nop, .implied)
  | 0x09 => some (.ora, .immediate)
  | 0x05 => some (.ora, .zeroPage)
  | 0x15 => some (.ora, .zeroPageX)
  | 0x0D => some (.ora, .absolute)
  | 0x1D => some (.ora, .absoluteX)
  | 0x19 => some (.ora, .absoluteY)
  | 0x01 => some (.ora, .indirectX)
  | 0x11 => some (.ora, .indirectY)
  | 0x48 => some (.pha, .implied)
  | 0x08 => some (.php, .implied)
  | 0x68 => some (.pla, .implied)
  | 0x28 => some (.plp, .implied)
  | 0x2A => some (.rol, .accumulator)
  | 0x26 => some (.rol, .zeroPage)
  | 0x36 => some (.rol, .zeroPageX)
  | 0x2E => some (.rol, .absolute)
  | 0x3E => some (.rol, .absoluteX)
  | 0x6A => some (.ror, .accumulator)
  | 0x66 => some (.ror, .zeroPage)
  | 0x76 => some (.ror, .zeroPageX)
  | 0x6E => some (.ror, .absolute)
  | 0x7E => some (.ror, .absoluteX)
  | 0x40 => some (.rti, .implied)
  | 0x60 => some (.rts, .implied)
  | 0xE9 => some (.sbc, .immediate)
  | 0xE5 => some (.sbc, .zeroPage)
  | 0xF5 => some (.sbc, .zeroPageX)
  | 0xED => some (.sbc, .absolute)
  | 0xFD => some (.sbc, .absoluteX)
  | 0xF9 => some (.sbc, .absoluteY)
  | 0xE1 => some (.sbc, .indirectX)
  | 0xF1 => some (.sbc, .indirectY)
  | 0x38 => some (.sec, .implied)
  | 0xF8 => some (.sed, .implied)
  | 0x78 => some (.sei, .implied)
  | 0x85 => some (.sta, .zeroPage)
  | 0x95 => some (.sta, .zeroPageX)
  | 0x8D => some (.sta, .absolute)
  | 0x9D => some (.sta, .absoluteX)
  | 0x99 => some (.sta, .absoluteY)
  | 0x81 => some (.sta, .indirectX)
  | 0x91 => some (.sta, .indirectY)
  | 0x86 => some (.stx, .zeroPage)
  | 0x96 => some (.stx, .zeroPageY)
  | 0x8E => some (.stx, .absolute)
  | 0x84 => some (.sty, .zeroPage)
  | 0x94 => some (.sty, .zeroPageX)
  | 0x8C => some (.sty, .absolute)
  | 0xAA => some (.tax, .implied)
  | 0xA8 => some (.tay, .implied)
  | 0xBA => some (.tsx, .implied)
  | 0x8A => some (.txa, .implied)
  | 0x9A => some (.txs, .implied)
  | 0x98 => some (.tya, .implied)
  | _ => none

end Chiptune.Mos6502
