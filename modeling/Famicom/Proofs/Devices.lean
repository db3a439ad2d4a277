import Famicom.Devices
import Famicom.Proofs.Cpu.Coupling
import Famicom.Proofs.Ppu.Access

/-!
# Devices on related buses

Devices that a program cannot tell apart: they differ in their screens, and in their controllers as
far as a program cannot see. All accesses to devices that fit their cartridge are answered.
-/

namespace Famicom.Devices

structure Fits (cartridge : Cartridge) (d : Devices) : Prop where
  memory : d.memory.Fits cartridge
  picture : d.picture.Fits cartridge
  board : d.board.Fits cartridge
  ppu : d.ppu.InRange

/-- Devices of a cartridge, wherever the beam is. -/
structure Stocked (cartridge : Cartridge) (d : Devices) : Prop where
  memory : d.memory.Fits cartridge
  picture : d.picture.Fits cartridge
  board : d.board.Fits cartridge
  ppu : d.ppu.Tame

theorem Fits.stocked {cartridge : Cartridge} {d : Devices} (h : d.Fits cartridge) :
    d.Stocked cartridge :=
  { h with ppu := h.ppu.tame }

/-- Controllers that answer alike, now and after every strobe and read. -/
structure PadsAlike (pads : Joypads → Joypads → Prop) : Prop where
  read : ∀ p q, pads p q → ∀ socket, (readPad p socket).1 = (readPad q socket).1 ∧
    pads (readPad p socket).2 (readPad q socket).2
  strobe : ∀ p q, pads p q → ∀ value, pads (strobe p value) (strobe q value)

theorem eq_padsAlike : PadsAlike Eq where
  read _ _ h socket := by
    rw [h]
    exact ⟨rfl, rfl⟩
  strobe _ _ h value := by
    rw [h]

structure Twins (pads : Joypads → Joypads → Prop) (d e : Devices) : Prop where
  memory : d.memory = e.memory
  picture : d.picture = e.picture
  board : d.board = e.board
  ppu : d.ppu.Twin e.ppu
  pads : pads d.pads e.pads
  requested : d.transferRequested = e.transferRequested

/-- What accesses to devices of a cartridge need, and keep. -/
structure Kept (cartridge : Cartridge) (fits : Devices → Prop) : Prop where
  memory {d : Devices} : fits d → d.memory.Fits cartridge
  picture {d : Devices} : fits d → d.picture.Fits cartridge
  board {d : Devices} : fits d → d.board.Fits cartridge
  withMemory {d : Devices} {memory : MainMemory} : fits d → memory.Fits cartridge →
    fits { d with memory := memory }
  withPicture {d : Devices} {picture : PictureMemory} {board : Board} : fits d →
    picture.Fits cartridge → board.Fits cartridge →
    fits { d with picture := picture, board := board }
  withPpu {d : Devices} {change : Ppu → Ppu} : fits d → Ppu.OffBeam change →
    fits { d with ppu := change d.ppu }
  calm {d : Devices} : fits d → fits { d with ppu := { d.ppu with interruptPending := false } }
  withPads {d : Devices} (pads : Joypads) : fits d → fits { d with pads := pads }
  withRequest {d : Devices} (requested : Bool) : fits d →
    fits { d with transferRequested := requested }

theorem fits_kept (cartridge : Cartridge) : Kept cartridge (Fits cartridge) where
  memory h := h.memory
  picture h := h.picture
  board h := h.board
  withMemory h hm := { h with memory := hm }
  withPicture h hp hb := { h with picture := hp, board := hb }
  withPpu h hc := { h with ppu := hc.inRange _ h.ppu }
  calm h := { h with ppu := { h.ppu with } }
  withPads _ h := { h with }
  withRequest _ h := { h with }

theorem stocked_kept (cartridge : Cartridge) : Kept cartridge (Stocked cartridge) where
  memory h := h.memory
  picture h := h.picture
  board h := h.board
  withMemory h hm := { h with memory := hm }
  withPicture h hp hb := { h with picture := hp, board := hb }
  withPpu h hc := { h with ppu := hc.tame _ h.ppu }
  calm h := { h with ppu := { h.ppu with } }
  withPads _ h := { h with }
  withRequest _ h := { h with }

/-- Twins that fit a cartridge, with their beams where `b` and `c` say, and a request for a sprite
transfer as `asked` says. -/
structure Alike (fits : Devices → Prop) (pads : Joypads → Joypads → Prop) (asked : Bool → Prop)
    (b c : Ppu.Beam) (d e : Devices) : Prop where
  twins : d.Twins pads e
  fits : fits d
  asked : asked d.transferRequested
  left : d.ppu.beam = b
  right : e.ppu.beam = c

variable {cartridge : Cartridge} {fits : Devices → Prop} {pads : Joypads → Joypads → Prop}
variable {asked : Bool → Prop} {b c : Ppu.Beam} {d e : Devices}

namespace Alike

theorem withPpu (kept : Kept cartridge fits) {change : Ppu → Ppu}
    (h : Alike fits pads asked b c d e) (hc : Ppu.OffBeam change) :
    Alike fits pads asked b c { d with ppu := change d.ppu }
      { e with ppu := change e.ppu } where
  twins := { h.twins with ppu := hc.twin h.twins.ppu }
  fits := kept.withPpu h.fits hc
  asked := h.asked
  left := (hc.beam _).trans h.left
  right := (hc.beam _).trans h.right

theorem withPads (kept : Kept cartridge fits) (h : Alike fits pads asked b c d e) {p q : Joypads}
    (hp : pads p q) : Alike fits pads asked b c { d with pads := p } { e with pads := q } :=
  ⟨{ h.twins with pads := hp }, kept.withPads p h.fits, h.asked, h.left, h.right⟩

theorem withMemory (kept : Kept cartridge fits) (h : Alike fits pads asked b c d e)
    {memory : MainMemory} (hm : memory.Fits cartridge) :
    Alike fits pads asked b c { d with memory := memory } { e with memory := memory } :=
  ⟨{ h.twins with memory := rfl }, kept.withMemory h.fits hm, h.asked, h.left, h.right⟩

theorem withPicture (kept : Kept cartridge fits) (h : Alike fits pads asked b c d e)
    {picture : PictureMemory} {board : Board} (hp : picture.Fits cartridge)
    (hb : board.Fits cartridge) :
    Alike fits pads asked b c { d with picture := picture, board := board }
      { e with picture := picture, board := board } :=
  ⟨{ h.twins with picture := rfl, board := rfl }, kept.withPicture h.fits hp hb, h.asked, h.left,
    h.right⟩

theorem withBoard (kept : Kept cartridge fits) (h : Alike fits pads asked b c d e) {board : Board}
    (hb : board.Fits cartridge) :
    Alike fits pads asked b c { d with board := board } { e with board := board } :=
  ⟨{ h.twins with board := rfl }, kept.withPicture h.fits (kept.picture h.fits) hb, h.asked, h.left,
    h.right⟩

theorem withRequest (kept : Kept cartridge fits) (h : Alike fits pads asked b c d e)
    {asked' : Bool → Prop} {requested : Bool} (hr : asked' requested) :
    Alike fits pads asked' b c { d with transferRequested := requested }
      { e with transferRequested := requested } :=
  ⟨{ h.twins with requested := rfl }, kept.withRequest requested h.fits, hr, h.left, h.right⟩

end Alike

/-! ## Reading -/

theorem readHandler_coupled (kept : Kept cartridge fits) (hpads : PadsAlike pads)
    (handler : ReadHandler) :
    Coupled (Alike fits pads asked b c) (readHandler handler)
      (fun _ => Alike fits pads asked b c) never := by
  intro d e h
  have ht := h.twins
  cases handler with
  | pictureStatus =>
    have same : d.ppu.readStatus.1 = e.ppu.readStatus.1 := by
      rw [ht.ppu]
      rfl
    show EndAlike _ _ (.ok d.ppu.readStatus.1 _) (.ok e.ppu.readStatus.1 _)
    rw [same]
    exact .ok (h.withPpu kept Ppu.readStatus_offBeam)
  | pictureData =>
    obtain ⟨value, change, hc, hr⟩ :=
      Ppu.readData_ok (kept.picture h.fits) (kept.board h.fits) d.ppu
    have hd : d.ppu.readData d.picture d.board = .ok (value, change d.ppu) := hr _ _
    have he : e.ppu.readData e.picture e.board = .ok (value, change e.ppu) := by
      rw [ht.ppu, ← ht.picture, ← ht.board]
      exact hr _ _
    simp only [readHandler, hd, he]
    exact .ok (h.withPpu kept hc)
  | oamData =>
    have same : d.ppu.readOam = e.ppu.readOam := by
      rw [ht.ppu]
      rfl
    show EndAlike _ _ (.ok d.ppu.readOam _) (.ok e.ppu.readOam _)
    rw [same]
    exact .ok h
  | controller socket =>
    obtain ⟨same, hp⟩ := hpads.read _ _ ht.pads socket
    show EndAlike _ _ (.ok (readPad d.pads socket).1 _) (.ok (readPad e.pads socket).1 _)
    rw [same]
    exact .ok (h.withPads kept hp)

theorem read_coupled (kept : Kept cartridge fits) (hpads : PadsAlike pads)
    (sound : cartridge.Sound) (address : UInt16) :
    Coupled (Alike fits pads asked b c) (read address)
      (fun _ => Alike fits pads asked b c) never := by
  intro d e h
  obtain ⟨source, hd⟩ := MainMemory.source_ok (kept.memory h.fits) address
  have he : e.memory.source address = .ok source := h.twins.memory ▸ hd
  simp only [read, hd, he]
  cases source with
  | value value => exact .ok h
  | program address =>
    obtain ⟨value, hv⟩ := Board.readProgram_ok sound (kept.board h.fits) address
    simp only [← h.twins.board, hv]
    exact .ok h
  | handler handler => exact readHandler_coupled kept hpads handler d e h

/-! ## Writing -/

theorem modifyPpu_coupled (kept : Kept cartridge fits) {change : Ppu → Ppu}
    (hc : Ppu.OffBeam change) : Coupled (Alike fits pads asked b c) (modifyPpu change)
      (fun _ => Alike fits pads asked b c) never :=
  fun _ _ h => .ok (h.withPpu kept hc)

theorem writePictureData_coupled (kept : Kept cartridge fits) (value : UInt8) :
    Coupled (Alike fits pads asked b c) (writePictureData value)
      (fun _ => Alike fits pads asked b c) never := by
  intro d e h
  obtain ⟨picture, board, hw, hp, hb⟩ :=
    PictureMemory.write_ok (kept.picture h.fits) (kept.board h.fits) d.ppu.address value
  have he : e.picture.write e.board e.ppu.address value = .ok (picture, board) := by
    rw [h.twins.ppu, ← h.twins.picture, ← h.twins.board]
    exact hw
  simp only [writePictureData, hw, he]
  exact .ok ((h.withPicture kept hp hb).withPpu kept Ppu.stepAddress_offBeam)

theorem startTransfer_coupled (kept : Kept cartridge fits) (page : UInt8) :
    Coupled (Alike fits pads asked b c) (startTransfer page)
      (fun _ => Alike fits pads (fun _ => True) b c) never := by
  intro d e h
  obtain ⟨bytes, hd⟩ := MainMemory.page?_ok (kept.memory h.fits) page
  have he : e.memory.page? page = .ok bytes := h.twins.memory ▸ hd
  simp only [startTransfer, hd, he]
  cases bytes with
  | none => exact .ok (h.withRequest kept trivial)
  | some bytes => exact .ok ((h.withPpu kept (Ppu.transfer_offBeam bytes)).withRequest kept trivial)

theorem writeHandler_coupled (kept : Kept cartridge fits) (hpads : PadsAlike pads)
    (handler : WriteHandler) (value : UInt8) :
    Coupled (Alike fits pads (fun _ => True) b c) (writeHandler handler value)
      (fun _ => Alike fits pads (fun _ => True) b c) never := by
  cases handler with
  | pictureControl => exact modifyPpu_coupled kept (Ppu.writeControl_offBeam value)
  | pictureMask => exact modifyPpu_coupled kept (Ppu.writeMask_offBeam value)
  | oamAddress => exact modifyPpu_coupled kept (Ppu.writeOamAddress_offBeam value)
  | oamData => exact modifyPpu_coupled kept (Ppu.writeOam_offBeam value)
  | pictureScroll => exact modifyPpu_coupled kept (Ppu.writeScroll_offBeam value)
  | pictureAddress => exact modifyPpu_coupled kept (Ppu.writeAddress_offBeam value)
  | pictureData => exact writePictureData_coupled kept value
  | transfer => exact startTransfer_coupled kept value
  | strobe => exact fun _ _ h => .ok (h.withPads kept (hpads.strobe _ _ h.twins.pads value))

theorem write_coupled (kept : Kept cartridge fits) (hpads : PadsAlike pads) (address : UInt16)
    (value : UInt8) : Coupled (Alike fits pads (fun _ => True) b c) (write address value)
      (fun _ => Alike fits pads (fun _ => True) b c) never := by
  intro d e h
  have same := h.twins.memory
  simp only [write, ← same]
  cases hs : d.memory.sink address with
  | ram cell =>
    simp only [modifyMemory, ← same]
    exact .ok (h.withMemory kept (MainMemory.storeRam_fits (kept.memory h.fits) cell value))
  | extendedRam cell =>
    obtain ⟨stored, hw, hf⟩ := MainMemory.storeExtended_ok (kept.memory h.fits)
      (MainMemory.sink_extendedRam (kept.memory h.fits) hs) value
    simp only [modifyMemory, ← same, hw]
    exact .ok (h.withMemory kept hf)
  | program =>
    simp only [← h.twins.board]
    have hw := h.withBoard kept (Board.writeProgram_fits (kept.board h.fits) value)
    rw [← same] at hw
    exact .ok hw
  | handler handler => exact writeHandler_coupled kept hpads handler value d e h
  | nowhere => exact .ok h

/-- Page 1 is RAM. -/
theorem sink_stack (memory : MainMemory) (sp : UInt8) :
    ∃ cell, memory.sink (Cpu.stackStart + sp.toUInt16) = .ram cell := by
  have low : Cpu.stackStart + sp.toUInt16 < 0x2000 := by
    have := sp.toNat_lt
    rw [UInt16.lt_iff_toNat_lt, UInt16.toNat_add, UInt8.toNat_toUInt16]
    simp only [Cpu.stackStart, UInt16.reduceToNat]
    omega
  exact ⟨_, if_pos low⟩

theorem push_coupled (kept : Kept cartridge fits) (sp value : UInt8) :
    Coupled (Alike fits pads asked b c) (write (Cpu.stackStart + sp.toUInt16) value)
      (fun _ => Alike fits pads asked b c) never := by
  intro d e h
  have same := h.twins.memory
  obtain ⟨cell, hs⟩ := sink_stack d.memory sp
  simp only [write, ← same, hs, modifyMemory]
  exact .ok (h.withMemory kept (MainMemory.storeRam_fits (kept.memory h.fits) cell value))

/-- The processor is served alike by twins. Between instructions no transfer is asked for. -/
theorem served (kept : Kept cartridge fits) (hpads : PadsAlike pads) (sound : cartridge.Sound)
    (b c : Ppu.Beam) :
    Cpu.Served (Alike fits pads (· = false) b c) (Alike fits pads (fun _ => True) b c) where
  pushable := ⟨⟨read_coupled kept hpads sound⟩, push_coupled kept⟩
  writable := ⟨⟨read_coupled kept hpads sound⟩, write_coupled kept hpads⟩
  loosen _ _ h := ⟨h.twins, h.fits, trivial, h.left, h.right⟩
  settle _ _ h := ⟨h.twins.requested, h.withRequest kept rfl⟩

end Famicom.Devices
