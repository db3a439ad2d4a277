import Famicom.Proofs.Retention

/-!
# Polling

What a controller answers, told from all that was done before: what the host pressed, what the
processor wrote to the strobe, and how often it read. While the strobe is high a read shows the first
button as it is now. Behind a low strobe reads give the buttons of that moment, one each, whatever is
pressed since and however the other controller is read.
-/

namespace Famicom

inductive Socket
  | first
  | second
deriving DecidableEq, Repr

/-- Where the processor reads the controller of a socket. -/
def Socket.port : Socket → UInt16
  | first => 0x4016
  | second => 0x4017

namespace Joypads

def pad (pads : Joypads) : Socket → Joypad
  | .first => pads.first
  | .second => pads.second

def plug (pads : Joypads) (pad : Joypad) : Socket → Joypads
  | .first => { pads with first := pad }
  | .second => { pads with second := pad }

theorem plug_pad (pads : Joypads) (socket : Socket) : pads.plug (pads.pad socket) socket = pads := by
  cases socket <;> rfl

end Joypads

/-- What can be done to devices between two reads of a controller. -/
inductive Happening
  | press (socket : Socket) (buttons : UInt8)
  | access (made : BusAccess)

namespace Happening

def leaves (happening : Happening) (d : Devices) : Devices :=
  match happening with
  | press socket buttons =>
    { d with pads := d.pads.plug { d.pads.pad socket with buttons := buttons } socket }
  | access made => made.leaves d

/-- What is written to the strobe line of both controllers. -/
def strobed? : Happening → Option UInt8
  | access (.write address value) => if address = 0x4016 then some value else none
  | access (.read _) | press _ _ => none

def pressed? (socket : Socket) : Happening → Option UInt8
  | press here buttons => if here = socket then some buttons else none
  | access _ => none

def polls (socket : Socket) : Happening → Bool
  | access (.read address) => address = socket.port
  | access (.write _ _) | press _ _ => false

/-- Nothing is written to the strobe. -/
def Unstrobed (history : List Happening) : Prop := ∀ happening ∈ history, happening.strobed? = none

instance (history : List Happening) : Decidable (Unstrobed history) :=
  inferInstanceAs (Decidable (∀ happening ∈ history, happening.strobed? = none))

/-- The button byte of a socket behind a history. Histories are given newest first. -/
def buttons (socket : Socket) (history : List Happening) : UInt8 :=
  (history.findSome? (pressed? socket)).getD 0

end Happening

open Happening (Unstrobed buttons)

/-- The bit of a button byte behind so many reads. Behind eight there is none left. -/
def bitAt (buttons : UInt8) (reads : Nat) : UInt8 :=
  if reads < 8 ∧ buttons.toNat.testBit reads then 1 else 0

theorem shifted_bit {shift byte : UInt8} {reads : Nat} (h : shift.toNat = byte.toNat / 2 ^ reads) :
    shift &&& 1 = bitAt byte reads := by
  have bit : byte.toNat.testBit reads = decide (shift.toNat % 2 = 1) := by
    rw [Nat.testBit_eq_decide_div_mod_eq, h]
  have far : ¬reads < 8 → byte.toNat.testBit reads = false := fun past =>
    Nat.testBit_lt_two_pow (Nat.lt_of_lt_of_le byte.toNat_lt
      (Nat.pow_le_pow_right (by decide) (Nat.le_of_not_lt past)))
  have low : (shift &&& 1).toNat = shift.toNat % 2 :=
    (UInt8.toNat_and shift 1).trans (Nat.and_one_is_mod _)
  apply UInt8.toNat_inj.1
  rw [low, bitAt]
  by_cases inside : reads < 8
  · simp only [inside, true_and, bit, decide_eq_true_eq]
    split
    · assumption
    · exact Nat.mod_two_ne_one.1 ‹_›
  · rw [if_neg fun both => inside both.1]
    have clear : ¬shift.toNat % 2 = 1 := of_decide_eq_false (bit ▸ far inside)
    exact Nat.mod_two_ne_one.1 clear

namespace Joypad

variable {pad : Joypad}

/-- Behind a low strobe a read gives the next bit of what was latched. -/
theorem read_low {byte : UInt8} {reads : Nat} (low : pad.strobe = false)
    (h : pad.shift.toNat = byte.toNat / 2 ^ reads) : pad.read.1 = 0x40 ||| bitAt byte reads := by
  rw [read, if_neg (by simp [low]), ← shifted_bit h]
  exact UInt8.or_comm _ _

/-- While the strobe is high a read takes nothing off. -/
theorem read_high (high : pad.strobe = true) : pad.read = (0x40 ||| (pad.buttons &&& 1), pad) := by
  rw [read, if_pos high, openBus, UInt8.or_comm]

end Joypad

theorem wired_writer {place : UInt16} (h : place < 8) :
    Bindings.wired.writer? (0x2000 + place) ≠ some .strobe := by
  have each : ∀ i : Fin 8, Bindings.wired.writer? (0x2000 + UInt16.ofNat i) ≠ some .strobe := by
    decide
  have found := each ⟨place.toNat, UInt16.lt_iff_toNat_lt.1 h⟩
  rwa [UInt16.ofNat_toNat] at found

theorem MainMemory.sink_strobe {memory : MainMemory} (wired : memory.bindings = .wired)
    (address : UInt16) : memory.sink address = .handler .strobe ↔ address = 0x4016 := by
  have bound : ∀ writer : Option WriteHandler,
      (writer.map Sink.handler).getD .nowhere = .handler .strobe → writer = some .strobe := by
    rintro (_ | writer) h <;> cases h
    rfl
  constructor
  · intro h
    unfold sink at h
    rw [wired] at h
    split at h
    · cases h
    split at h
    · cases h
    split at h
    · exact absurd (bound _ h) (wired_writer (by grind))
    split at h
    · rename_i ports
      simp only [Bool.and_eq_true, decide_eq_true_eq] at ports
      obtain rfl | rfl | rfl : address = 0x4014 ∨ address = 0x4015 ∨ address = 0x4016 := by grind
      · exact absurd (bound _ h) (by decide)
      · exact absurd (bound _ h) (by decide)
      · rfl
    split at h <;> cases h
  · rintro rfl
    rw [sink, wired]
    rfl

namespace Devices

variable {d : Devices} {socket : Socket}

/-! ## Single accesses -/

theorem read_port (wired : d.memory.bindings = .wired) (socket : Socket) :
    read socket.port d = .ok (d.pads.pad socket).read.1
      { d with pads := d.pads.plug (d.pads.pad socket).read.2 socket } := by
  cases socket with
  | first => exact read_handled wired .firstPad
  | second => exact read_handled wired .secondPad

/-- Only a read at its port reaches a controller. -/
theorem read_pad (wired : d.memory.bindings = .wired) (address : UInt16) (socket : Socket) :
    (reached (read address) d).pads.pad socket =
      if address = socket.port then (d.pads.pad socket).read.2 else d.pads.pad socket := by
  by_cases port : ∃ other : Socket, address = other.port
  · obtain ⟨other, rfl⟩ := port
    rw [reached_ok (read_port wired other)]
    cases other <;> cases socket <;> rfl
  · rw [if_neg fun here => port ⟨socket, here⟩]
    by_cases status : Repeats 0x2002 address
    · rw [reached_ok ((read_handled wired (.status status)).trans rfl)]
    by_cases data : Repeats 0x2007 address
    · unfold reached
      rw [read_handled wired (.data data), readHandler]
      cases d.ppu.readData d.picture d.board <;> rfl
    · rw [read_elsewhere wired status data (fun here => port ⟨.first, here⟩)
        fun here => port ⟨.second, here⟩]

theorem writeHandler_pads (handler : WriteHandler) (value : UInt8) (d : Devices) :
    (reached (writeHandler handler value) d).pads =
      if handler = .strobe then strobe d.pads value else d.pads := by
  cases handler with
  | pictureData =>
    show (reached (writePictureData value) d).pads = d.pads
    unfold reached writePictureData
    dsimp only
    cases d.picture.write d.board d.ppu.address value <;> rfl
  | transfer =>
    show (reached (startTransfer value) d).pads = d.pads
    unfold reached startTransfer
    dsimp only
    split <;> rename_i hp <;> split at hp <;> cases hp <;> rfl
  | pictureControl | pictureMask | oamAddress | oamData | pictureScroll | pictureAddress
  | strobe => rfl

/-- Only a write at the first port reaches the controllers. -/
theorem write_pads (wired : d.memory.bindings = .wired) (address : UInt16) (value : UInt8) :
    (reached (write address value) d).pads =
      if address = 0x4016 then strobe d.pads value else d.pads := by
  have placed := MainMemory.sink_strobe wired address
  cases hs : d.memory.sink address with
  | handler handler =>
    rw [hs, Sink.handler.injEq] at placed
    unfold reached
    rw [write_served hs]
    exact (writeHandler_pads handler value d).trans (by simp only [placed])
  | extendedRam cell =>
    rw [hs] at placed
    rw [if_neg (mt placed.2 (by simp))]
    unfold reached
    simp only [write, hs, modifyMemory]
    cases d.memory.storeExtended cell value <;> rfl
  | ram | program | nowhere =>
    rw [hs] at placed
    rw [if_neg (mt placed.2 (by simp))]
    simp only [reached, write, hs, modifyMemory]

/-! ## Histories -/

/-- Devices behind a history. -/
def behind (d : Devices) (history : List Happening) : Devices := history.foldr Happening.leaves d

theorem leaves_bindings (happening : Happening) (d : Devices) :
    (happening.leaves d).memory.bindings = d.memory.bindings := by
  cases happening with
  | press => rfl
  | access made => exact (leaves_wiring made d).1

theorem behind_wired (wired : d.memory.bindings = .wired) (history : List Happening) :
    (d.behind history).memory.bindings = .wired := by
  induction history with
  | nil => exact wired
  | cons happening earlier ih => exact (leaves_bindings happening _).trans ih

theorem strobe_wired (wired : d.memory.bindings = .wired) (before : List Happening) (value : UInt8) :
    ((Happening.access (.write 0x4016 value)).leaves (d.behind before)).memory.bindings = .wired :=
  (leaves_bindings _ _).trans (behind_wired wired before)

theorem leaves_strobed (wired : d.memory.bindings = .wired) (value : UInt8) (socket : Socket) :
    ((Happening.access (.write 0x4016 value)).leaves d).pads.pad socket =
      (d.pads.pad socket).write value := by
  show (reached (write 0x4016 value) d).pads.pad socket = _
  rw [write_pads wired, if_pos rfl]
  cases socket <;> rfl

/-- All that reaches a controller but the strobe. -/
theorem leaves_unstrobed (wired : d.memory.bindings = .wired) {happening : Happening}
    (h : happening.strobed? = none) (socket : Socket) :
    (happening.leaves d).pads.pad socket = { d.pads.pad socket with
      buttons := (happening.pressed? socket).getD (d.pads.pad socket).buttons
      shift := if happening.polls socket ∧ (d.pads.pad socket).strobe = false
        then (d.pads.pad socket).shift >>> 1 else (d.pads.pad socket).shift } := by
  cases happening with
  | press here buttons => cases here <;> cases socket <;> rfl
  | access made =>
    cases made with
    | read address =>
      show (reached (read address) d).pads.pad socket = _
      rw [read_pad wired, readPad_effect]
      simp only [Happening.polls, decide_eq_true_eq]
      by_cases here : address = socket.port
      · cases hs : (d.pads.pad socket).strobe <;> simp [Happening.pressed?, here]
      · simp only [here, if_false, false_and]
        rfl
    | write address value =>
      have elsewhere : address ≠ 0x4016 := fun here => by simp [Happening.strobed?, here] at h
      show (reached (write address value) d).pads.pad socket = _
      rw [write_pads wired, if_neg elsewhere]
      rfl

theorem strobed_eq {happening : Happening} {value : UInt8} (h : happening.strobed? = some value) :
    happening = .access (.write 0x4016 value) := by
  cases happening with
  | press here buttons => cases h
  | access made =>
    cases made with
    | read address => cases h
    | write address written =>
      simp only [Happening.strobed?, Option.ite_none_right_eq_some, Option.some.injEq] at h
      rw [h.1, h.2]

theorem leaves_buttons (wired : d.memory.bindings = .wired) (happening : Happening)
    (socket : Socket) : ((happening.leaves d).pads.pad socket).buttons =
      (happening.pressed? socket).getD (d.pads.pad socket).buttons := by
  cases h : happening.strobed? with
  | none => rw [leaves_unstrobed wired h]
  | some value =>
    rw [strobed_eq h, leaves_strobed wired, Joypad.write]
    split <;> rfl

theorem behind_buttons (wired : d.memory.bindings = .wired) (start : d.pads = {})
    (history : List Happening) (socket : Socket) :
    ((d.behind history).pads.pad socket).buttons = buttons socket history := by
  induction history with
  | nil =>
    show (d.pads.pad socket).buttons = 0
    rw [start]
    cases socket <;> rfl
  | cons happening earlier ih =>
    refine (leaves_buttons (behind_wired wired earlier) happening socket).trans ?_
    rw [ih, buttons, buttons, List.findSome?_cons]
    cases happening.pressed? socket <;> rfl

/-- Without a strobe a controller keeps its line, and behind a low one loses a bit a read. -/
theorem behind_unstrobed (wired : d.memory.bindings = .wired) {history : List Happening}
    (h : Unstrobed history) (socket : Socket) :
    ((d.behind history).pads.pad socket).strobe = (d.pads.pad socket).strobe ∧
      ((d.pads.pad socket).strobe = false →
        ((d.behind history).pads.pad socket).shift.toNat =
          (d.pads.pad socket).shift.toNat / 2 ^ history.countP (·.polls socket)) := by
  induction history with
  | nil => exact ⟨rfl, fun _ => (Nat.div_one _).symm⟩
  | cons happening earlier ih =>
    obtain ⟨line, shifted⟩ := ih fun other later => h other (List.mem_cons_of_mem _ later)
    have step := leaves_unstrobed (behind_wired wired earlier) (h happening List.mem_cons_self) socket
    change (d.behind (happening :: earlier)).pads.pad socket = _ at step
    rw [step]
    refine ⟨line, fun low => ?_⟩
    rw [List.countP_cons]
    dsimp only
    by_cases poll : happening.polls socket = true
    · rw [if_pos ⟨poll, line.trans low⟩, if_pos poll, UInt8.toNat_shiftRight, shifted low,
        Nat.pow_succ, ← Nat.div_div_eq_div_mul]
      rfl
    · rw [if_neg fun both => poll both.1, if_neg poll]
      exact shifted low

/-- What a socket answers behind a history. -/
structure Answers (d : Devices) (history : List Happening) (socket : Socket) : Prop where
  unstrobed : Unstrobed history → ∃ after,
    read socket.port (d.behind history) = .ok 0x40 after
  high : ∀ since value before, history = since ++ .access (.write 0x4016 value) :: before →
    Unstrobed since → value &&& 1 = 1 →
      read socket.port (d.behind history) =
        .ok (0x40 ||| (buttons socket history &&& 1)) (d.behind history)
  low : ∀ since value before, history = since ++ .access (.write 0x4016 value) :: before →
    Unstrobed since → value &&& 1 = 0 → ∃ after,
      read socket.port (d.behind history) =
        .ok (0x40 ||| bitAt (buttons socket before) (since.countP (·.polls socket))) after

/-- Behind a low strobe reads go through the latched byte. -/
theorem behind_low (wired : d.memory.bindings = .wired) {history : List Happening}
    (h : Unstrobed history) {byte : UInt8} (low : (d.pads.pad socket).strobe = false)
    (latched : (d.pads.pad socket).shift = byte) : ∃ after, read socket.port (d.behind history) =
      .ok (0x40 ||| bitAt byte (history.countP (·.polls socket))) after := by
  obtain ⟨line, shifted⟩ := behind_unstrobed wired h socket
  have answered := read_port (behind_wired wired history) socket
  rw [Joypad.read_low (line.trans low) (latched ▸ shifted low)] at answered
  exact ⟨_, answered⟩

theorem behind_append (d : Devices) (since : List Happening) (value : UInt8)
    (before : List Happening) :
    d.behind (since ++ .access (.write 0x4016 value) :: before) =
      ((Happening.access (.write 0x4016 value)).leaves (d.behind before)).behind since :=
  List.foldr_append

/-- Whatever is pressed, written and read in between, reads follow the strobe. Under a high one they
tell the first button as it is now; behind a low one they tell the buttons of that time one by one,
and zero behind the last. -/
theorem polling_follows_strobe (wired : d.memory.bindings = .wired) (start : d.pads = {})
    (history : List Happening) (socket : Socket) : Answers d history socket where
  unstrobed quiet := by
    have fresh : d.pads.pad socket = {} := by
      rw [start]
      cases socket <;> rfl
    have latched : (d.pads.pad socket).shift = 0 := by rw [fresh]
    obtain ⟨after, answered⟩ := behind_low wired quiet (by rw [fresh]) latched
    have zero : bitAt 0 (history.countP (·.polls socket)) = 0 := by simp [bitAt]
    exact ⟨after, answered.trans (by rw [zero]; rfl)⟩
  high since value before split quiet high := by
    have strobed := leaves_strobed (behind_wired wired before) value socket
    rw [Joypad.write, if_pos high] at strobed
    obtain ⟨line, -⟩ := behind_unstrobed (strobe_wired wired before value) quiet socket
    rw [← behind_append, ← split, strobed] at line
    rw [read_port (behind_wired wired history), Joypad.read_high line, Joypads.plug_pad,
      behind_buttons wired start]
  low since value before split quiet low := by
    have strobed := leaves_strobed (behind_wired wired before) value socket
    rw [Joypad.write, if_neg (by simp [low])] at strobed
    rw [split, behind_append]
    refine behind_low (strobe_wired wired before value) quiet (by rw [strobed]) ?_
    rw [strobed]
    exact behind_buttons wired start before socket

/-- B and Right are pressed when the strobe falls, all buttons afterwards; the second controller is
read between two reads of the first. -/
theorem held_buttons_polled :
    let history : List Happening := [.access (.read 0x4017), .access (.read 0x4016),
      .press .first 0xFF, .access (.write 0x4016 0), .access (.write 0x4016 1), .press .first 0x82]
    unused.memory.bindings = .wired ∧ unused.pads = {} ∧
      ∃ after, read 0x4016 (unused.behind history) = .ok 0x41 after :=
  ⟨rfl, rfl, (polling_follows_strobe (d := unused) rfl rfl _ .first).low
    [.access (.read 0x4017), .access (.read 0x4016), .press .first 0xFF] 0 _ rfl (by decide) rfl⟩

end Devices

end Famicom
