import Famicom.Proofs.Ppu.Range

/-!
# What programs set

The registers and the sprite memory that only a program writes. Drawing reads them and keeps them; a
dot raises the frame interrupt where the control register says so and nowhere else.
-/

namespace Famicom.Ppu

structure Programmed where
  control : Control
  mask : Mask
  nextAddress : UInt16
  fineX : UInt8
  firstWrite : Bool
  readBuffer : UInt8
  oam : Vector UInt8 256
  oamAddress : UInt8

def programmed (ppu : Ppu) : Programmed where
  control := ppu.control
  mask := ppu.mask
  nextAddress := ppu.nextAddress
  fineX := ppu.fineX
  firstWrite := ppu.firstWrite
  readBuffer := ppu.readBuffer
  oam := ppu.oam
  oamAddress := ppu.oamAddress

/-- What programs set, and whether they are interrupted. -/
def held (ppu : Ppu) : Programmed × Bool := (ppu.programmed, ppu.interruptPending)

theorem inspect_eq {α : Type} {f : Ppu → Except Fault α} {ppu after : Ppu} {result : α}
    (h : inspect f ppu = .ok result after) : f ppu = .ok result ∧ after = ppu := by
  unfold inspect at h
  split at h <;> cases h
  exact ⟨‹_›, rfl⟩

/-- An action that answers leaves a view of the picture unit alone. -/
def Keeps {α γ : Type} (view : Ppu → γ) (action : Action α) : Prop :=
  ∀ ppu value after, action ppu = .ok value after → view after = view ppu

namespace Keeps

variable {α β γ : Type} {view : Ppu → γ} {first second : Action α} {next : α → Action β}

theorem pure (value : α) : Keeps view (Pure.pure value : Action α) := by
  intro ppu _ after h
  cases h
  rfl

theorem state : Keeps view (get : Action Ppu) := by
  intro ppu _ after h
  cases h
  rfl

theorem step {change : Ppu → Ppu} (hc : ∀ ppu, view (change ppu) = view ppu) :
    Keeps view (modify change : Action PUnit) := by
  intro ppu _ after h
  cases h
  exact hc ppu

theorem look (f : Ppu → Except Fault α) : Keeps view (inspect f) := by
  intro ppu value after h
  rw [(inspect_eq h).2]

theorem bind (hf : Keeps view first) (hn : ∀ value, Keeps view (next value)) :
    Keeps view (first >>= next) := by
  intro ppu result after h
  obtain ⟨value, moved, hr, h⟩ := of_bind_ok h
  exact (hn value moved result after h).trans (hf ppu value moved hr)

theorem ite {c : Prop} [Decidable c] (hf : Keeps view first) (hs : Keeps view second) :
    Keeps view (if c then first else second) := by
  split
  · exact hf
  · exact hs

end Keeps

/-! ## Drawing -/

/-- A view of what drawing does not reach: it only moves the address, latches a hit and paints. -/
def Undrawn {γ : Type} (view : Ppu → γ) : Prop :=
  ∀ ppu address status screen,
    view { ppu with address := address, status := status, screen := screen } = view ppu

section
variable {γ : Type} {view : Ppu → γ}

theorem advanceColumn_keeps (hv : Undrawn view) (ppu : Ppu) (x : UInt8) :
    view (ppu.advanceColumn x) = view ppu := by
  unfold advanceColumn
  split
  · exact hv ppu _ ppu.status ppu.screen
  · rfl

theorem latchHit_keeps (hv : Undrawn view) (ppu : Ppu) (background : UInt8)
    (sprite : Option SpritePixel) : view (ppu.latchHit background sprite) = view ppu := by
  unfold latchHit
  split
  · exact hv ppu ppu.address _ ppu.screen
  · rfl

theorem plot_keeps (hv : Undrawn view) (x : UInt8) (colour : UInt32) :
    Keeps view (plot x colour) := by
  intro ppu _ after h
  unfold plot at h
  dsimp only at h
  split at h
  · cases h
    exact hv ppu ppu.address ppu.status _
  · cases h

theorem drawPixel_keeps (hv : Undrawn view) (memory : PictureMemory) (board : Board) :
    Keeps view (drawPixel memory board) := by
  apply Keeps.bind .state
  intro ppu
  apply Keeps.bind (.look _)
  intro background
  apply Keeps.bind (.step fun ppu => advanceColumn_keeps hv ppu _)
  intro _
  apply Keeps.bind (.look _)
  intro sprite
  apply Keeps.bind (.step fun ppu => latchHit_keeps hv ppu background sprite)
  intro _
  apply Keeps.bind .state
  intro _
  exact .ite (.bind .state fun _ => plot_keeps hv _ _) (.pure _)

theorem renderEffect_keeps (hv : Undrawn view) (memory : PictureMemory) (board : Board) :
    Keeps view (renderEffect memory board) := by
  have moves : ∀ change : Ppu → UInt16,
      Keeps view (modify fun ppu => { ppu with address := change ppu }) := fun change =>
    .step fun ppu => hv ppu (change ppu) ppu.status ppu.screen
  apply Keeps.bind .state
  intro _
  apply Keeps.ite (drawPixel_keeps hv memory board)
  apply Keeps.bind .state
  intro _
  apply Keeps.ite (moves fun ppu => nextRow ppu.address)
  apply Keeps.bind .state
  intro _
  exact .ite (moves fun ppu => copyBits horizontalBits ppu.nextAddress ppu.address) (.pure _)

theorem preRenderEffect_keeps (hv : Undrawn view) (ppu : Ppu) :
    view ppu.preRenderEffect = view ppu := by
  unfold preRenderEffect
  split
  · exact hv ppu ppu.address _ ppu.screen
  split
  · exact hv ppu _ ppu.status ppu.screen
  split
  · exact hv ppu _ ppu.status ppu.screen
  · rfl

end

/-! ## Ends of dots -/

/-- A view of what the end of a dot does not reach. -/
def Unmoved {γ : Type} (view : Ppu → γ) : Prop :=
  ∀ ppu phase dot scanline evenFrame lineSprites totalDots,
    view { ppu with
      phase := phase, dot := dot, scanline := scanline, evenFrame := evenFrame,
      lineSprites := lineSprites, totalDots := totalDots } = view ppu

section
variable {γ : Type} {view : Ppu → γ}

theorem nextDot_keeps (hv : Unmoved view) : Keeps view nextDot :=
  .step fun ppu =>
    hv ppu ppu.phase _ ppu.scanline ppu.evenFrame ppu.lineSprites ppu.totalDots

theorem nextLine_keeps (hv : Unmoved view) : Keeps view nextLine := by
  intro ppu _ after h
  unfold nextLine at h
  split at h
  · cases h
    exact hv ppu ppu.phase _ _ ppu.evenFrame ppu.lineSprites ppu.totalDots
  · cases h

theorem countDot_keeps (hv : Unmoved view) : Keeps view countDot := by
  intro ppu _ after h
  unfold countDot at h
  split at h
  · cases h
    exact hv ppu ppu.phase ppu.dot ppu.scanline ppu.evenFrame ppu.lineSprites _
  · cases h

theorem enterPhase_keeps (hv : Unmoved view) (phase : Phase) :
    Keeps view (modify fun ppu => { ppu with phase := phase } : Action PUnit) :=
  .step fun ppu =>
    hv ppu phase ppu.dot ppu.scanline ppu.evenFrame ppu.lineSprites ppu.totalDots

theorem lineEnd_keeps (hv : Unmoved view) : Keeps view (do
    if lastDot ≤ (← get).dot then
      modify evaluateSprites
      nextLine
      if visibleLines ≤ (← get).scanline then
        modify fun ppu => { ppu with phase := .postRender }
    else
      nextDot : Action Unit) := by
  apply Keeps.bind .state
  intro _
  refine .ite ?_ (nextDot_keeps hv)
  apply Keeps.bind (.step fun ppu =>
    hv ppu ppu.phase ppu.dot ppu.scanline ppu.evenFrame _ ppu.totalDots)
  intro _
  apply Keeps.bind (nextLine_keeps hv)
  intro _
  exact .bind .state fun _ => .ite (enterPhase_keeps hv _) (.pure _)

theorem postRenderDot_keeps (hv : Unmoved view) : Keeps view postRenderDot :=
  .bind .state fun _ =>
    .ite (.bind (nextLine_keeps hv) fun _ => enterPhase_keeps hv _) (nextDot_keeps hv)

theorem frameEnd_keeps (hv : Unmoved view) : Keeps view (do
    if lastDot ≤ (← get).dot then
      nextLine
      if frameLines ≤ (← get).scanline then
        modify fun ppu =>
          { ppu with phase := .preRender, scanline := 0, evenFrame := !ppu.evenFrame }
    else
      nextDot : Action Unit) := by
  apply Keeps.bind .state
  intro _
  refine .ite (.bind (nextLine_keeps hv) fun _ => ?_) (nextDot_keeps hv)
  refine .bind .state fun _ => .ite (.step fun ppu => ?_) (.pure _)
  exact hv ppu .preRender ppu.dot 0 _ ppu.lineSprites ppu.totalDots

theorem preRenderDot_keeps (hv : Unmoved view) (ppu : Ppu) :
    view ppu.preRenderDot = view ppu.preRenderEffect := by
  dsimp only [preRenderDot]
  generalize ppu.preRenderEffect = ppu
  split
  · exact hv ppu _ _ _ ppu.evenFrame ppu.lineSprites ppu.totalDots
  · exact hv ppu ppu.phase _ ppu.scanline ppu.evenFrame ppu.lineSprites ppu.totalDots

end

/-- A view that no part of a dot reaches. -/
theorem tick_keeps {γ : Type} {view : Ppu → γ} (drawn : Undrawn view) (moved : Unmoved view)
    (blank : ∀ ppu, view ppu.verticalBlankEffect = view ppu) (memory : PictureMemory)
    (board : Board) : Keeps view (tick memory board) := by
  intro ppu _ after h
  rw [tick_eq] at h
  have work : Keeps view (phaseDot memory board ppu.phase) := by
    cases ppu.phase with
    | preRender =>
      exact .step fun ppu => (preRenderDot_keeps moved ppu).trans (preRenderEffect_keeps drawn ppu)
    | render => exact .bind (renderEffect_keeps drawn memory board) fun _ => lineEnd_keeps moved
    | postRender => exact postRenderDot_keeps moved
    | verticalBlank => exact .bind (.step blank) fun _ => frameEnd_keeps moved
  exact Keeps.bind work (fun _ => countDot_keeps moved) ppu _ after h

/-! ## Registers -/

theorem held_undrawn : Undrawn held := fun _ _ _ _ => rfl

theorem held_unmoved : Unmoved held := fun _ _ _ _ _ _ _ => rfl

theorem renderDot_held (memory : PictureMemory) (board : Board) :
    Keeps held (renderDot memory board) :=
  .bind (renderEffect_keeps held_undrawn memory board) fun _ => lineEnd_keeps held_unmoved

theorem preRenderDot_held (ppu : Ppu) : ppu.preRenderDot.held = ppu.held :=
  (preRenderDot_keeps held_unmoved ppu).trans (preRenderEffect_keeps held_undrawn ppu)

theorem verticalBlankEffect_held (ppu : Ppu) : ppu.verticalBlankEffect.held =
    (ppu.programmed, ppu.interruptPending || ppu.raisesInterrupt) := by
  unfold verticalBlankEffect raisesInterrupt
  cases ppu.startsVblank with
  | true => rfl
  | false => rw [if_neg Bool.false_ne_true, Bool.false_and, Bool.or_false]; rfl

theorem verticalBlankDot_held {ppu after : Ppu} {value : Unit}
    (h : verticalBlankDot ppu = .ok value after) :
    after.held = (ppu.programmed, ppu.interruptPending || ppu.raisesInterrupt) :=
  (frameEnd_keeps held_unmoved ppu.verticalBlankEffect value after h).trans
    ppu.verticalBlankEffect_held

theorem counted_held {work : Action Unit} {ppu after : Ppu} {value : Unit}
    {outcome : Programmed × Bool}
    (hw : ∀ value moved, work ppu = .ok value moved → moved.held = outcome)
    (h : (do work; countDot : Action Unit) ppu = .ok value after) : after.held = outcome := by
  obtain ⟨_, moved, hr, h⟩ := of_bind_ok h
  exact (countDot_keeps held_unmoved moved value after h).trans (hw _ moved hr)

theorem raisesInterrupt_elsewhere {ppu : Ppu} (h : ppu.phase ≠ .verticalBlank) :
    ppu.held = (ppu.programmed, ppu.interruptPending || ppu.raisesInterrupt) := by
  have quiet : ppu.raisesInterrupt = false := by
    unfold raisesInterrupt startsVblank
    rw [decide_eq_false h]
    rfl
  rw [quiet, Bool.or_false]
  rfl

/-- What a dot leaves alone, and when it raises the frame interrupt. -/
theorem tick_held {memory : PictureMemory} {board : Board} {ppu after : Ppu} {value : Unit}
    (h : tick memory board ppu = .ok value after) :
    after.programmed = ppu.programmed ∧
      after.interruptPending = (ppu.interruptPending || ppu.raisesInterrupt) := by
  rw [tick_eq] at h
  have result : after.held = (ppu.programmed, ppu.interruptPending || ppu.raisesInterrupt) := by
    have quiet := @raisesInterrupt_elsewhere ppu
    cases hp : ppu.phase <;> rw [hp] at h quiet
    case preRender =>
      rw [← quiet (by decide)]
      exact counted_held (Keeps.step preRenderDot_held ppu) h
    case render =>
      rw [← quiet (by decide)]
      exact counted_held (renderDot_held memory board ppu) h
    case postRender =>
      rw [← quiet (by decide)]
      exact counted_held (postRenderDot_keeps held_unmoved ppu) h
    case verticalBlank => exact counted_held (fun _ _ => verticalBlankDot_held) h
  exact ⟨congrArg Prod.fst result, congrArg Prod.snd result⟩

end Famicom.Ppu
