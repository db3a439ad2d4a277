import Famicom.Codec.Layout
import Famicom.Ppu.Sprite

/-! Layout of the picture unit in a state buffer. The variant and the screen are not stored. -/

namespace Famicom.Ppu

open Codec

def phaseField : Codec.Field Ppu where
  write s := Format.u8.write s.phase.code
  read := do
    let code ← Format.u8.read
    match Phase.ofCode? code with
    | some phase => return fun s => { s with phase := phase }
    | none => throw (.unknownPhase code)

def lineSpritesField : Codec.Field Ppu where
  write s := Format.bytes.write s.lineSprites.toArray
  read := do
    let sprites ← Format.bytes.read
    if spritesPerLine < sprites.size then
      throw (.tooManySprites sprites.size)
    return fun s => { s with lineSprites := sprites.toList }

def layout : Layout Ppu := [
  phaseField,
  .of .u16 dot fun v s => { s with dot := v },
  .of .u16 scanline fun v s => { s with scanline := v },
  .of .bool evenFrame fun v s => { s with evenFrame := v },
  .of .u16 address fun v s => { s with address := v },
  .of .u16 nextAddress fun v s => { s with nextAddress := v },
  .of .u8 fineX fun v s => { s with fineX := v },
  .of .bool firstWrite fun v s => { s with firstWrite := v },
  .of .u8 readBuffer fun v s => { s with readBuffer := v },
  .of .u8 (fun s => s.control.bits) fun v s => { s with control := ⟨v⟩ },
  .of .u8 (fun s => s.mask.bits) fun v s => { s with mask := ⟨v⟩ },
  .of .u8 (fun s => s.status.toByte) fun v s => { s with status := .ofByte v },
  .of (.memory 256) oam fun v s => { s with oam := v },
  .of .u8 oamAddress fun v s => { s with oamAddress := v },
  lineSpritesField,
  .of .bool interruptPending fun v s => { s with interruptPending := v },
  .of .u64 totalDots fun v s => { s with totalDots := v }]

end Famicom.Ppu
