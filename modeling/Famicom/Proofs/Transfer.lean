import Famicom.Proofs.AddressSpace

/-!
# Sprite transfers

A transfer of a page, made at once, is what 256 writes to the register of sprite memory would be: of the
bytes that the processor would read in that page, from the sprite address on and around its end.
-/

namespace Famicom

namespace Ppu

/-- Writes of bytes in a row move the sprite address on and leave each byte where it was then. -/
theorem writesOam_eq (values : List UInt8) (ppu : Ppu) (room : values.length ≤ 256) :
    values.foldl writeOam ppu = { ppu with
      oam := (values.foldl writeOam ppu).oam
      oamAddress := ppu.oamAddress + UInt8.ofNat values.length } ∧
    ∀ place (h : place < 256), (values.foldl writeOam ppu).oam[place] =
      (values[(place + 256 - ppu.oamAddress.toNat) % 256]?).getD ppu.oam[place] := by
  induction values generalizing ppu with
  | nil =>
    have still : ppu.oamAddress + UInt8.ofNat 0 = ppu.oamAddress := UInt8.add_zero ppu.oamAddress
    rw [List.length_nil, still]
    exact ⟨rfl, fun _ _ => rfl⟩
  | cons value rest ih =>
    rw [List.length_cons] at room
    obtain ⟨kept, placed⟩ := ih (ppu.writeOam value) (Nat.le_of_succ_le room)
    have next : (ppu.writeOam value).oamAddress = ppu.oamAddress + 1 := rfl
    have moved : (ppu.oamAddress + 1).toNat = (ppu.oamAddress.toNat + 1) % 256 :=
      UInt8.toNat_add ppu.oamAddress 1
    constructor
    · have counted : ppu.oamAddress + 1 + UInt8.ofNat rest.length =
          ppu.oamAddress + UInt8.ofNat (rest.length + 1) := by
        rw [UInt8.ofNat_add, UInt8.add_assoc, UInt8.add_comm 1]
        rfl
      rw [next, counted] at kept
      exact kept
    · intro place inside
      have start := ppu.oamAddress.toNat_lt
      have written : (ppu.writeOam value).oam[place] =
          if ppu.oamAddress.toNat = place then value else ppu.oam[place] :=
        Vector.getElem_set start inside
      rw [List.foldl_cons, placed place inside, next, written, moved]
      by_cases here : ppu.oamAddress.toNat = place
      · -- The address comes back here only behind 256 bytes, and at most 255 are left.
        have first : (place + 256 - ppu.oamAddress.toNat) % 256 = 0 := by omega
        have last : (place + 256 - (ppu.oamAddress.toNat + 1) % 256) % 256 = 255 := by omega
        rw [if_pos here, first, last, List.getElem?_eq_none (by omega)]
        rfl
      · obtain ⟨k, hk⟩ : ∃ k, (place + 256 - ppu.oamAddress.toNat) % 256 = k + 1 :=
          Nat.exists_eq_succ_of_ne_zero (by omega)
        have later : (place + 256 - (ppu.oamAddress.toNat + 1) % 256) % 256 = k := by omega
        rw [if_neg here, hk, later, List.getElem?_cons_succ]

/-- A page at once is its bytes one after the other. -/
theorem writesOam_page (ppu : Ppu) {page : Array UInt8} (size : page.size = 256) :
    page.toList.foldl writeOam ppu = ppu.transfer page := by
  have length : page.toList.length = 256 := size
  obtain ⟨kept, placed⟩ := ppu.writesOam_eq page.toList (Nat.le_of_eq length)
  have around : ppu.oamAddress + UInt8.ofNat page.toList.length = ppu.oamAddress := by
    rw [length]
    exact UInt8.add_zero ppu.oamAddress
  have copied : (page.toList.foldl writeOam ppu).oam =
      Vector.ofFn fun i : Fin 256 => page[(i.val + 256 - ppu.oamAddress.toNat) % 256] := by
    apply Vector.ext
    intro place inside
    have within : (place + 256 - ppu.oamAddress.toNat) % 256 < page.toList.length := by omega
    rw [placed place inside, Vector.getElem_ofFn, List.getElem?_eq_getElem within]
    rfl
  rw [kept, around, copied]
  unfold transfer
  rw [dif_pos size]

end Ppu

/-- The address of a byte in a page. -/
def pageAddress (page : UInt8) (i : Nat) : UInt16 := page.toUInt16 * 0x100 + UInt16.ofNat i

theorem pageAddress_toNat (page : UInt8) {i : Nat} (h : i < 256) :
    (pageAddress page i).toNat = page.toNat * 256 + i := by
  have small := page.toNat_lt
  have start : (page.toUInt16 * 0x100).toNat = page.toNat * 256 := by
    rw [UInt16.toNat_mul, UInt8.toNat_toUInt16]
    exact Nat.mod_eq_of_lt (by rw [show (0x100 : UInt16).toNat = 256 from rfl]; omega)
  rw [pageAddress, UInt16.toNat_add, start, UInt16.toNat_ofNat']
  omega

namespace MainMemory

variable {memory : MainMemory} {page : UInt8}

/-- The pages of RAM and of its repetitions, and those of RAM at $6000 if there is any. -/
def HoldsPage (memory : MainMemory) (page : UInt8) : Prop :=
  page < 0x20 ∨ memory.hasExtendedRam = true ∧ 0x60 ≤ page ∧ page < 0x80

theorem page?_ram (h : page < 0x20) : ∃ bytes, memory.page? page = .ok (some bytes) ∧
    ∃ size : bytes.size = 256, ∀ i (inside : i < 256),
      memory.source (pageAddress page i) = .ok (.value bytes[i]) := by
  have low := UInt8.lt_iff_toNat_lt.1 h
  simp only [UInt8.reduceToNat] at low
  have room : memory.ram.toArray.size = 0x800 := memory.ram.size_toArray
  refine ⟨_, if_pos h, by rw [Array.size_extract, room]; omega, fun i inside => ?_⟩
  have place := pageAddress_toNat page inside
  have ram : pageAddress page i < 0x2000 := by
    rw [UInt16.lt_iff_toNat_lt, place]
    simp only [UInt16.reduceToNat]
    omega
  rw [source_ram memory ram]
  have cell : ramCell (pageAddress page i) = page.toNat % 8 * 0x100 + i := by
    show (pageAddress page i).toNat % 0x800 = _
    omega
  have held : memory.ram.get (ramCell (pageAddress page i)) =
      memory.ram[page.toNat % 8 * 0x100 + i] := getElem_congr_idx cell
  simp only [held, Array.getElem_extract, Vector.getElem_toArray]

theorem page?_extended (sized : memory.Sized) (mapped : memory.hasExtendedRam = true)
    (low : 0x60 ≤ page) (high : page < 0x80) : ∃ bytes, memory.page? page = .ok (some bytes) ∧
    ∃ size : bytes.size = 256, ∀ i (inside : i < 256),
      memory.source (pageAddress page i) = .ok (.value bytes[i]) := by
  have room : memory.extendedRam.size = 0x2000 := sized mapped
  have start : (page - 0x60).toNat = page.toNat - 0x60 := UInt8.toNat_sub_of_le _ _ low
  have low' := UInt8.le_iff_toNat_le.1 low
  have high' := UInt8.lt_iff_toNat_lt.1 high
  simp only [UInt8.reduceToNat] at low' high'
  have found : memory.page? page = .ok (some (memory.extendedRam.extract
      ((page - 0x60).toNat * 0x100) ((page - 0x60).toNat * 0x100 + 0x100))) := by
    unfold page?
    rw [if_neg (by grind), if_pos (by simp [low, high, mapped])]
    exact if_pos (by omega)
  refine ⟨_, found, by rw [Array.size_extract]; omega, fun i inside => ?_⟩
  have place := pageAddress_toNat page inside
  have above : 0x6000 ≤ pageAddress page i := by
    rw [UInt16.le_iff_toNat_le, place]
    simp only [UInt16.reduceToNat]
    omega
  have below : pageAddress page i < 0x8000 := by
    rw [UInt16.lt_iff_toNat_lt, place]
    simp only [UInt16.reduceToNat]
    omega
  have cell : (pageAddress page i - 0x6000).toNat = (page - 0x60).toNat * 0x100 + i := by
    rw [UInt16.toNat_sub_of_le _ _ above, place, start]
    simp only [UInt16.reduceToNat]
    omega
  have within : (page - 0x60).toNat * 0x100 + i < memory.extendedRam.size := by omega
  rw [source_extended memory above below, readExtended, if_pos mapped]
  simp only [cell, within, dif_pos, Array.getElem_extract]
  rfl

theorem page?_holds (sized : memory.Sized) (h : memory.HoldsPage page) :
    ∃ bytes, memory.page? page = .ok (some bytes) ∧ ∃ size : bytes.size = 256,
      ∀ i (inside : i < 256), memory.source (pageAddress page i) = .ok (.value bytes[i]) := by
  obtain ram | ⟨mapped, low, high⟩ := h
  · exact page?_ram ram
  · exact page?_extended sized mapped low high

theorem page?_elsewhere (h : ¬memory.HoldsPage page) : memory.page? page = .ok none := by
  unfold page?
  rw [if_neg fun ram => h (.inl ram), if_neg]
  simp only [Bool.and_eq_true, decide_eq_true_eq]
  exact fun ⟨⟨low, high⟩, mapped⟩ => h (.inr ⟨mapped, low, high⟩)

end MainMemory

namespace Devices

variable {d : Devices} {page : UInt8}

/-- Writes to one address in a row. -/
def writeAll (address : UInt16) : List UInt8 → Action Unit
  | [] => pure ()
  | value :: rest => do
    write address value
    writeAll address rest

theorem writeAll_oam (wired : d.memory.bindings = .wired) (values : List UInt8) :
    writeAll 0x2004 values d = .ok () { d with ppu := values.foldl Ppu.writeOam d.ppu } := by
  induction values generalizing d with
  | nil => rfl
  | cons value rest ih =>
    have written : write 0x2004 value d = .ok () { d with ppu := d.ppu.writeOam value } :=
      write_handled wired .oamData rfl value
    exact (bind_ok written).trans (ih wired)

/-- What a write of a page number to the transfer register leaves. -/
structure Transferred (d : Devices) (page : UInt8) (after : Devices) : Prop where
  elsewhere : after = { d with ppu := after.ppu, transferRequested := true }
  request : (takeTransfer after).1 = true ∧ (takeTransfer (takeTransfer after).2).1 = false
  address : after.ppu.oamAddress = d.ppu.oamAddress
  copied : d.memory.HoldsPage page → ∃ bytes : List UInt8, ∃ size : bytes.length = 256,
    (∀ i (inside : i < 256), read (pageAddress page i) d = .ok bytes[i] d) ∧
    writeAll 0x2004 bytes d = .ok () { d with ppu := after.ppu } ∧
    ∀ i (inside : i < 256), after.ppu.oam[(d.ppu.oamAddress.toNat + i) % 256] = bytes[i]
  ignored : ¬d.memory.HoldsPage page → after.ppu = d.ppu

/-- A transfer copies what the processor reads in the page, as 256 writes to sprite memory would, or
nothing where the page holds no memory. Either way it requests one halt and touches nothing else. -/
theorem transfer_copies (wired : d.memory.bindings = .wired) (sized : d.memory.Sized)
    (page : UInt8) : ∃ after, write 0x4014 page d = .ok () after ∧ Transferred d page after := by
  have sink : d.memory.sink 0x4014 = .handler .transfer := by
    rw [MainMemory.sink, wired]
    rfl
  have served : write 0x4014 page d = startTransfer page d := by
    simp only [write, sink]
    rfl
  rw [served]
  by_cases holds : d.memory.HoldsPage page
  · obtain ⟨bytes, found, size, reads⟩ := MainMemory.page?_holds sized holds
    have length : bytes.toList.length = 256 := size
    have written := writeAll_oam wired bytes.toList
    obtain ⟨kept, placed⟩ := d.ppu.writesOam_eq bytes.toList (Nat.le_of_eq length)
    rw [Ppu.writesOam_page d.ppu size] at written kept placed
    refine ⟨{ d with ppu := d.ppu.transfer bytes, transferRequested := true }, ?_, rfl, ⟨rfl, rfl⟩,
      ?_, fun _ => ⟨bytes.toList, length, fun i inside => read_value (reads i inside), written,
        fun i inside => ?_⟩, fun missing => absurd holds missing⟩
    · simp only [startTransfer, found]
    · rw [kept, length]
      exact UInt8.add_zero d.ppu.oamAddress
    · have start := d.ppu.oamAddress.toNat_lt
      have back : ((d.ppu.oamAddress.toNat + i) % 256 + 256 - d.ppu.oamAddress.toNat) % 256 = i := by
        omega
      have within : i < bytes.toList.length := by rwa [length]
      refine (placed _ (Nat.mod_lt _ (by decide))).trans ?_
      rw [back, List.getElem?_eq_getElem within]
      rfl
  · refine ⟨{ d with transferRequested := true }, ?_, rfl, ⟨rfl, rfl⟩, rfl,
      fun held => absurd held holds, fun _ => rfl⟩
    simp only [startTransfer, MainMemory.page?_elsewhere holds]

/-- Page $0B repeats page $03. At sprite address 255, its second byte goes around to the start. -/
theorem repeated_page_wraps :
    let loaded : Devices := { unused with
      memory := { unused.memory with ram := unused.memory.ram.set 0x301 0x77 }
      ppu := { unused.ppu with oamAddress := 0xFF } }
    loaded.memory.bindings = .wired ∧ loaded.memory.Sized ∧
      ∃ after, write 0x4014 0x0B loaded = .ok () after ∧ after.ppu.oam[0] = 0x77 := by
  intro loaded
  have sized : loaded.memory.Sized := fun _ => Array.size_replicate
  obtain ⟨after, written, transferred⟩ := transfer_copies rfl sized 0x0B
  obtain ⟨bytes, size, reads, -, places⟩ := transferred.copied (.inl (by decide))
  refine ⟨rfl, sized, after, written, ?_⟩
  have cell : loaded.memory.ram.get (MainMemory.ramCell (pageAddress 0x0B 1)) = 0x77 :=
    Vector.getElem_set_self (by decide)
  have answered := read_value (d := loaded) (MainMemory.source_ram loaded.memory
    (show pageAddress 0x0B 1 < 0x2000 by decide))
  have same : bytes[1] = 0x77 :=
    (EStateM.Result.ok.inj ((reads 1 (by decide)).symm.trans answered)).1.trans cell
  have start : (loaded.ppu.oamAddress.toNat + 1) % 256 = 0 := by decide
  have placed := places 1 (by decide)
  simp only [start] at placed
  exact placed.trans same

end Devices

end Famicom
