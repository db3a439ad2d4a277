import Famicom.Devices
import Famicom.Proofs.Ppu.Adrift

/-!
# Schedules

A picture unit at work between the accesses of a program. A schedule says which accesses come before
each dot; the dots then follow each other, whatever the program writes.
-/

namespace Famicom

/-- A picture unit with what it draws from. -/
structure Video where
  ppu : Ppu
  memory : PictureMemory
  board : Board

/-- What a program can do to the picture unit between two dots. -/
inductive Access
  | writeControl (value : UInt8)
  | writeMask (value : UInt8)
  | readStatus
  | writeOamAddress (value : UInt8)
  | readOam
  | writeOam (value : UInt8)
  | writeScroll (value : UInt8)
  | writeAddress (value : UInt8)
  | readData
  | writeData (value : UInt8)
  | transfer (page : Array UInt8)
  | takeInterrupt

namespace Video

abbrev Action (α : Type) := EStateM Fault Video α

def modifyPpu (change : Ppu → Ppu) : Action Unit :=
  modify fun video => { video with ppu := change video.ppu }

def serve : Access → Action Unit
  | .writeControl value => modifyPpu fun ppu => ppu.writeControl value
  | .writeMask value => modifyPpu fun ppu => ppu.writeMask value
  | .readStatus => modifyPpu fun ppu => ppu.readStatus.2
  | .writeOamAddress value => modifyPpu fun ppu => ppu.writeOamAddress value
  | .readOam => pure ()
  | .writeOam value => modifyPpu fun ppu => ppu.writeOam value
  | .writeScroll value => modifyPpu fun ppu => ppu.writeScroll value
  | .writeAddress value => modifyPpu fun ppu => ppu.writeAddress value
  | .readData => fun video =>
    match video.ppu.readData video.memory video.board with
    | .ok (_, ppu) => .ok () { video with ppu := ppu }
    | .error fault => .error fault video
  | .writeData value => fun video =>
    match video.memory.write video.board video.ppu.address value with
    | .ok (memory, board) => .ok () ⟨video.ppu.stepAddress, memory, board⟩
    | .error fault => .error fault video
  | .transfer page => modifyPpu fun ppu => ppu.transfer page
  | .takeInterrupt => modifyPpu fun ppu => ppu.takeInterrupt.2

def serveAll : List Access → Action Unit
  | [] => pure ()
  | access :: rest => do
    serve access
    serveAll rest

/-- One dot. -/
def dot : Action Unit := fun video =>
  match video.ppu.tick video.memory video.board with
  | .ok _ ppu => .ok () { video with ppu := ppu }
  | .error fault ppu => .error fault { video with ppu := ppu }

/-- The accesses that come before each dot. -/
abbrev Schedule := Nat → List Access

/-- The first dots of a schedule, each behind its accesses. -/
def run (schedule : Schedule) : Nat → Action Unit
  | 0 => pure ()
  | n + 1 => do
    run schedule n
    serveAll (schedule n)
    dot

/-- All that comes before the dot of a number. -/
def call (schedule : Schedule) (n : Nat) : Action Unit := do
  run schedule n
  serveAll (schedule n)

variable {video after : Video} {schedule : Schedule} {value : Unit} {k n : Nat}

theorem run_succ (schedule : Schedule) (n : Nat) :
    run schedule (n + 1) = (do call schedule n; dot) := by
  unfold call
  rw [bind_assoc]
  rfl

/-- A run goes through every call of it. -/
theorem call_of_run (h : run schedule (n + 1) video = .ok value after) :
    ∃ called, call schedule n video = .ok () called ∧ dot called = .ok value after := by
  rw [run_succ] at h
  obtain ⟨_, called, hc, hd⟩ := of_bind_ok h
  exact ⟨called, hc, hd⟩

theorem run_of_call (h : call schedule n video = .ok value after) :
    ∃ reached, run schedule n video = .ok () reached ∧
      serveAll (schedule n) reached = .ok value after := by
  obtain ⟨_, reached, hr, hs⟩ := of_bind_ok h
  exact ⟨reached, hr, hs⟩

/-- A run goes through every earlier call. -/
theorem call_before (hk : k < n) (h : run schedule n video = .ok value after) :
    ∃ called, call schedule k video = .ok () called := by
  induction n generalizing after with
  | zero => exact absurd hk (Nat.not_lt_zero k)
  | succ n ih =>
    obtain ⟨called, hc, -⟩ := call_of_run h
    by_cases last : k = n
    · rw [last]
      exact ⟨called, hc⟩
    · obtain ⟨reached, hr, -⟩ := run_of_call hc
      exact ih (by omega) hr

/-! ## What an access leaves alone -/

/-- A view of what no access reaches but a read of the status. -/
def Unserved {γ : Type} (view : Ppu → γ) : Prop :=
  ∀ ppu control mask nextAddress fineX firstWrite readBuffer oam oamAddress address pending,
    view { ppu with
      control := control, mask := mask, nextAddress := nextAddress, fineX := fineX,
      firstWrite := firstWrite, readBuffer := readBuffer, oam := oam, oamAddress := oamAddress,
      address := address, interruptPending := pending } = view ppu

theorem transfer_keeps {γ : Type} {view : Ppu → γ} (hv : Unserved view) (ppu : Ppu)
    (page : Array UInt8) : view (ppu.transfer page) = view ppu := by
  dsimp only [Ppu.transfer]
  split
  · exact hv ppu _ _ _ _ _ _ _ _ _ _
  · rfl

theorem readData_keeps {γ : Type} {view : Ppu → γ} (hv : Unserved view) {ppu moved : Ppu}
    {memory : PictureMemory} {board : Board} {data : UInt8}
    (h : ppu.readData memory board = .ok (data, moved)) : view moved = view ppu := by
  obtain ⟨byte, -, result⟩ := Ppu.of_readData_ok h
  split at result <;> cases result
  · exact hv ppu _ _ _ _ _ _ _ _ _ _
  · exact hv ppu _ _ _ _ _ _ _ _ _ _

theorem serve_keeps {γ : Type} {view : Ppu → γ} (hv : Unserved view) (access : Access)
    (read : access = .readStatus → view video.ppu.readStatus.2 = view video.ppu)
    (h : serve access video = .ok value after) : view after.ppu = view video.ppu := by
  have set := hv video.ppu
  cases access with
  | readStatus =>
    cases h
    exact read rfl
  | readData =>
    unfold serve at h
    dsimp only at h
    split at h <;> cases h
    exact readData_keeps hv ‹_›
  | writeData written =>
    unfold serve at h
    dsimp only at h
    split at h <;> cases h
    exact set _ _ _ _ _ _ _ _ _ _
  | writeScroll written =>
    cases h
    show view (video.ppu.writeScroll written) = _
    unfold Ppu.writeScroll
    split <;> exact set _ _ _ _ _ _ _ _ _ _
  | writeAddress written =>
    cases h
    show view (video.ppu.writeAddress written) = _
    unfold Ppu.writeAddress
    split <;> exact set _ _ _ _ _ _ _ _ _ _
  | transfer page =>
    cases h
    exact transfer_keeps hv video.ppu page
  | readOam =>
    cases h
    rfl
  | writeControl | writeMask | writeOamAddress | writeOam | takeInterrupt =>
    cases h
    exact set _ _ _ _ _ _ _ _ _ _

/-- No access moves the beam, flips the frame, counts a dot or chooses sprites. -/
theorem serve_course (access : Access) (h : serve access video = .ok value after) :
    after.ppu.course = video.ppu.course :=
  serve_keeps (fun _ _ _ _ _ _ _ _ _ _ _ => rfl) access (fun _ => rfl) h

theorem serveAll_course (accesses : List Access) (h : serveAll accesses video = .ok value after) :
    after.ppu.course = video.ppu.course := by
  induction accesses generalizing video with
  | nil =>
    cases h
    rfl
  | cons access rest ih =>
    obtain ⟨_, served, hs, h⟩ := of_bind_ok h
    exact (ih h).trans (serve_course access hs)

theorem dot_eq (h : dot video = .ok value after) :
    video.ppu.tick video.memory video.board = .ok () after.ppu ∧
      after = { video with ppu := after.ppu } := by
  unfold dot at h
  split at h <;> cases h
  exact ⟨‹_›, rfl⟩

theorem placed_of_course {p q : Ppu} (same : q.course = p.course) (h : p.Placed) : q.Placed := by
  have hphase : q.phase = p.phase := congrArg Ppu.Course.phase same
  have hline : q.scanline = p.scanline := congrArg Ppu.Course.scanline same
  have hdot : q.dot = p.dot := congrArg Ppu.Course.dot same
  constructor
  · rw [hdot]
    exact h.dot
  · rw [hphase, hline]
    exact h.line

theorem rank_of_course {p q : Ppu} (same : q.course = p.course) :
    q.beam.rank = p.beam.rank := by
  have hphase : q.phase = p.phase := congrArg Ppu.Course.phase same
  have hline : q.scanline = p.scanline := congrArg Ppu.Course.scanline same
  have hdot : q.dot = p.dot := congrArg Ppu.Course.dot same
  unfold Ppu.Beam.rank Ppu.beam
  rw [hphase, hline, hdot]

/-- A walk never leaves the lines of its phases. -/
theorem run_placed (hp : video.ppu.Placed) (h : run schedule n video = .ok value after) :
    after.ppu.Placed := by
  induction n generalizing after with
  | zero =>
    cases h
    exact hp
  | succ n ih =>
    obtain ⟨called, hc, hd⟩ := call_of_run h
    obtain ⟨reached, hr, hs⟩ := run_of_call hc
    have placed := placed_of_course (serveAll_course _ hs) (ih hr)
    exact (Ppu.tick_steps placed (dot_eq hd).1).toPlaced

theorem call_placed (hp : video.ppu.Placed) (h : call schedule n video = .ok value after) :
    after.ppu.Placed := by
  obtain ⟨reached, hr, hs⟩ := run_of_call h
  exact placed_of_course (serveAll_course _ hs) (run_placed hp hr)

/-- The last dot of a run. -/
theorem run_steps (hp : video.ppu.Placed) (h : run schedule (n + 1) video = .ok value after) :
    ∃ reached called, run schedule n video = .ok () reached ∧
      call schedule n video = .ok () called ∧ called.ppu.course = reached.ppu.course ∧
      called.ppu.Steps after.ppu := by
  obtain ⟨called, hc, hd⟩ := call_of_run h
  obtain ⟨reached, hr, hs⟩ := run_of_call hc
  exact ⟨reached, called, hr, hc, serveAll_course _ hs,
    Ppu.tick_steps (call_placed hp hc) (dot_eq hd).1⟩

/-! ## Idle programs -/

/-- Accesses that reach no register: the processor only looks for an interrupt. -/
def Idle (accesses : List Access) : Prop := ∀ access ∈ accesses, access = .takeInterrupt

/-- Behind idle accesses. -/
def calm (video : Video) : List Access → Video
  | [] => video
  | _ :: _ => { video with ppu := video.ppu.takeInterrupt.2 }

theorem serveAll_idle {accesses : List Access} (h : Idle accesses) :
    serveAll accesses video = .ok () (video.calm accesses) := by
  induction accesses generalizing video with
  | nil => rfl
  | cons access rest ih =>
    obtain rfl := h access List.mem_cons_self
    have served : serve .takeInterrupt video = .ok () (video.calm (.takeInterrupt :: rest)) := rfl
    refine (bind_ok served).trans ((ih fun later hl => h later (List.mem_cons_of_mem _ hl)).trans ?_)
    cases rest <;> rfl

/-- A view that does not show the pending interrupt. -/
def Uninterrupted {γ : Type} (view : Ppu → γ) : Prop :=
  ∀ ppu pending, view { ppu with interruptPending := pending } = view ppu

theorem calm_keeps {γ : Type} {view : Ppu → γ} (hv : Uninterrupted view) (video : Video)
    (accesses : List Access) : view (video.calm accesses).ppu = view video.ppu := by
  cases accesses with
  | nil => rfl
  | cons access rest => exact hv video.ppu false

theorem calm_memory (video : Video) (accesses : List Access) :
    (video.calm accesses).memory = video.memory := by
  cases accesses <;> rfl

theorem calm_board (video : Video) (accesses : List Access) :
    (video.calm accesses).board = video.board := by
  cases accesses <;> rfl

theorem idle_call (idle : Idle (schedule n)) (h : run schedule n video = .ok value after) :
    call schedule n video = .ok () (after.calm (schedule n)) :=
  (bind_ok h).trans (serveAll_idle idle)

theorem run_of_idle_call (idle : Idle (schedule n)) (h : call schedule n video = .ok value after) :
    ∃ reached, run schedule n video = .ok () reached ∧ after = reached.calm (schedule n) := by
  obtain ⟨reached, hr, hs⟩ := run_of_call h
  rw [serveAll_idle idle] at hs
  cases hs
  exact ⟨reached, hr, rfl⟩

/-- The memories and all that no dot reaches stay as they are while a program does nothing. -/
theorem idle_keeps {γ : Type} {view : Ppu → γ}
    (kept : ∀ memory board, Ppu.Keeps view (Ppu.tick memory board)) (hv : Uninterrupted view)
    (idle : ∀ k ≤ n, Idle (schedule k)) (h : call schedule n video = .ok value after) :
    view after.ppu = view video.ppu ∧ after.memory = video.memory ∧ after.board = video.board := by
  induction n generalizing after with
  | zero =>
    obtain ⟨reached, hr, rfl⟩ := run_of_idle_call (idle 0 (Nat.le_refl 0)) h
    cases hr
    exact ⟨calm_keeps hv video _, calm_memory video _, calm_board video _⟩
  | succ n ih =>
    obtain ⟨reached, hr, rfl⟩ := run_of_idle_call (idle (n + 1) (Nat.le_refl _)) h
    obtain ⟨called, hc, hd⟩ := call_of_run hr
    obtain ⟨seen, memory, board⟩ := ih (fun k hk => idle k (Nat.le_succ_of_le hk)) hc
    obtain ⟨ht, same⟩ := dot_eq hd
    rw [calm_keeps hv, calm_memory, calm_board]
    refine ⟨(kept _ _ _ _ _ ht).trans seen, ?_, ?_⟩
    · rw [same]
      exact memory
    · rw [same]
      exact board

theorem idle_programmed (idle : ∀ k ≤ n, Idle (schedule k))
    (h : call schedule n video = .ok value after) :
    after.ppu.programmed = video.ppu.programmed ∧ after.memory = video.memory ∧
      after.board = video.board :=
  idle_keeps (fun _ _ _ _ _ ht => (Ppu.tick_held ht).1) (fun _ _ => rfl) idle h

/-- Nothing at all is idle. -/
theorem idle_nil : Idle [] := fun _ h => nomatch h

/-! ## Schedules that are served -/

/-- What a picture unit needs to serve every schedule. -/
structure Fits (cartridge : Cartridge) (video : Video) : Prop extends video.ppu.Placed where
  memory : video.memory.Fits cartridge
  board : video.board.Fits cartridge
  sprites : ∀ number ∈ video.ppu.lineSprites, number < 64

variable {cartridge : Cartridge}

theorem Fits.of_course (h : video.Fits cartridge) (same : after.ppu.course = video.ppu.course)
    (hm : after.memory.Fits cartridge) (hb : after.board.Fits cartridge) : after.Fits cartridge where
  toPlaced := placed_of_course same h.toPlaced
  memory := hm
  board := hb
  sprites := by
    have : after.ppu.lineSprites = video.ppu.lineSprites := congrArg Ppu.Course.lineSprites same
    rw [this]
    exact h.sprites

/-- The picture unit of a console at power-on. -/
def powerOn (variant : Ppu.Variant) (board : Board) : Video :=
  ⟨.powerOn variant, PictureMemory.fresh.setMirroring board.mirroring, board⟩

theorem powerOn_fits (variant : Ppu.Variant) {board : Board}
    (h : Board.ofCartridge? cartridge = some board) : (powerOn variant board).Fits cartridge where
  toPlaced := (Ppu.powerOn_inRange variant).toPlaced
  memory := by
    rw [← (Board.ofCartridge?_fits h).inserted]
    rfl
  board := Board.ofCartridge?_fits h
  sprites := (Ppu.powerOn_inRange variant).sprites

theorem serve_answers (h : video.Fits cartridge) (access : Access) :
    ∃ after, serve access video = .ok () after ∧ after.Fits cartridge := by
  have answered : ∀ after, serve access video = .ok () after → after.memory.Fits cartridge →
      after.board.Fits cartridge → ∃ after, serve access video = .ok () after ∧
        after.Fits cartridge :=
    fun after hs hm hb => ⟨after, hs, h.of_course (serve_course access hs) hm hb⟩
  cases access with
  | readData =>
    obtain ⟨data, change, -, hr⟩ := Ppu.readData_ok h.memory h.board video.ppu
    have hr : video.ppu.readData video.memory video.board = .ok (data, change video.ppu) := hr _ _
    refine answered { video with ppu := change video.ppu } ?_ h.memory h.board
    simp only [serve, hr]
  | writeData written =>
    obtain ⟨memory, board, hw, hm, hb⟩ :=
      PictureMemory.write_ok h.memory h.board video.ppu.address written
    refine answered ⟨video.ppu.stepAddress, memory, board⟩ ?_ hm hb
    simp only [serve, hw]
  | _ => exact answered _ rfl h.memory h.board

theorem serveAll_answers (h : video.Fits cartridge) (accesses : List Access) :
    ∃ after, serveAll accesses video = .ok () after ∧ after.Fits cartridge := by
  induction accesses generalizing video with
  | nil => exact ⟨video, rfl, h⟩
  | cons access rest ih =>
    obtain ⟨served, hs, fits⟩ := serve_answers h access
    obtain ⟨after, ha, fits⟩ := ih fits
    exact ⟨after, (bind_ok hs).trans ha, fits⟩

theorem dot_answers (h : video.Fits cartridge)
    (room : video.ppu.totalDots.toNat + 1 < UInt64.size) :
    ∃ after, dot video = .ok () after ∧ after.Fits cartridge := by
  obtain ⟨moved, ht⟩ := Ppu.tick_answers h.memory h.board h.toPlaced.adrift h.sprites room
  have steps := Ppu.tick_steps h.toPlaced ht
  refine ⟨{ video with ppu := moved }, by simp only [dot, ht], steps.toPlaced, h.memory, h.board, ?_⟩
  show ∀ number ∈ moved.lineSprites, number < 64
  rw [steps.sprites]
  split
  · exact (Ppu.findSprites_bounds _ _ _).1
  · exact h.sprites

theorem run_total (h : run schedule n video = .ok value after) :
    after.ppu.totalDots.toNat = video.ppu.totalDots.toNat + n := by
  induction n generalizing after with
  | zero =>
    cases h
    rfl
  | succ n ih =>
    obtain ⟨called, hc, hd⟩ := call_of_run h
    obtain ⟨reached, hr, hs⟩ := run_of_call hc
    have same : called.ppu.totalDots = reached.ppu.totalDots :=
      congrArg Ppu.Course.totalDots (serveAll_course _ hs)
    rw [Ppu.tick_total (dot_eq hd).1, same, ih hr, Nat.add_assoc]

theorem run_answers (h : video.Fits cartridge) (schedule : Schedule)
    (room : video.ppu.totalDots.toNat + n < UInt64.size) :
    ∃ after, run schedule n video = .ok () after ∧ after.Fits cartridge := by
  induction n with
  | zero => exact ⟨video, rfl, h⟩
  | succ n ih =>
    obtain ⟨reached, hr, fits⟩ := ih (Nat.lt_of_succ_lt room)
    obtain ⟨called, hc, fits⟩ := serveAll_answers fits (schedule n)
    have hcall : call schedule n video = .ok () called := (bind_ok hr).trans hc
    have count : called.ppu.totalDots = reached.ppu.totalDots :=
      congrArg Ppu.Course.totalDots (serveAll_course _ hc)
    obtain ⟨after, hd, fits⟩ := dot_answers fits (by rw [count, run_total hr]; exact room)
    exact ⟨after, by rw [run_succ, bind_ok hcall, hd], fits⟩

theorem call_answers (h : video.Fits cartridge) (schedule : Schedule)
    (room : video.ppu.totalDots.toNat + n < UInt64.size) :
    ∃ after, call schedule n video = .ok () after ∧ after.Fits cartridge := by
  obtain ⟨reached, hr, fits⟩ := run_answers h schedule room
  obtain ⟨after, hs, fits⟩ := serveAll_answers fits (schedule n)
  exact ⟨after, (bind_ok hr).trans hs, fits⟩

/-! ## The accesses of a program -/

/-- The picture unit behind the devices. -/
def ofDevices (d : Devices) : Video := ⟨d.ppu, d.picture, d.board⟩

theorem serve_single {access : Access} (h : serve access video = .ok () after) :
    serveAll [access] video = .ok () after := bind_ok h

/-- Each read that a handler answers is at most one access. -/
theorem readHandler_serves {handler : ReadHandler} {d e : Devices} {read : UInt8}
    (h : Devices.readHandler handler d = .ok read e) :
    ∃ accesses, serveAll accesses (ofDevices d) = .ok () (ofDevices e) := by
  cases handler with
  | pictureStatus =>
    cases h
    exact ⟨[.readStatus], rfl⟩
  | pictureData =>
    unfold Devices.readHandler at h
    dsimp only at h
    split at h
    · rename_i hr
      cases h
      refine ⟨[.readData], serve_single ?_⟩
      simp only [serve, ofDevices, hr]
    · cases h
  | oamData =>
    cases h
    exact ⟨[.readOam], rfl⟩
  | controller socket =>
    cases h
    exact ⟨[], rfl⟩

/-- Each write that a handler answers is at most one access. -/
theorem writeHandler_serves {handler : WriteHandler} {written : UInt8} {d e : Devices}
    (h : Devices.writeHandler handler written d = .ok value e) :
    ∃ accesses, serveAll accesses (ofDevices d) = .ok () (ofDevices e) := by
  cases handler with
  | pictureControl =>
    cases h
    exact ⟨[.writeControl written], rfl⟩
  | pictureMask =>
    cases h
    exact ⟨[.writeMask written], rfl⟩
  | oamAddress =>
    cases h
    exact ⟨[.writeOamAddress written], rfl⟩
  | oamData =>
    cases h
    exact ⟨[.writeOam written], rfl⟩
  | pictureScroll =>
    cases h
    exact ⟨[.writeScroll written], rfl⟩
  | pictureAddress =>
    cases h
    exact ⟨[.writeAddress written], rfl⟩
  | pictureData =>
    change Devices.writePictureData written d = _ at h
    unfold Devices.writePictureData at h
    dsimp only at h
    split at h
    · rename_i hw
      cases h
      refine ⟨[.writeData written], serve_single ?_⟩
      simp only [serve, ofDevices, hw]
    · cases h
  | transfer =>
    change Devices.startTransfer written d = _ at h
    unfold Devices.startTransfer at h
    dsimp only at h
    split at h <;> cases h
    · exact ⟨[.transfer _], rfl⟩
    · exact ⟨[], rfl⟩
  | strobe =>
    cases h
    exact ⟨[], rfl⟩

end Video

end Famicom
