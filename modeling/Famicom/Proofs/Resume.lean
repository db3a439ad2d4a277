import Famicom.Proofs.Console
import Famicom.Proofs.Image

/-!
# Resuming a saved console

A console that takes over the state of another one of its cartridge, from bytes or from a snapshot,
runs on like the other one. Bytes do not hold the picture: a full pipeline has drawn it anew after a
frame.
-/

namespace Famicom.Console

open Ppu (Beam dotsPerFrame)
open Machine (Seen Repainting SameScreen)

variable {cartridge : Cartridge} {x y : Option Snapshot} {c d : Console}

def variant (c : Console) : Ppu.Variant := c.machine.bus.ppu.variant

def screen (c : Console) : Ppu.Screen := c.machine.bus.ppu.screen

def pads (c : Console) : Joypads := c.machine.bus.pads

/-- What a host can ask two consoles, other than to show their pictures. -/
structure Agree (c d : Console) : Prop where
  encode : c.encode = d.encode
  memory : c.machine.bus.memory = d.machine.bus.memory
  cycles : c.machine.cpu.cycles = d.machine.cpu.cycles
  dots : c.machine.bus.ppu.totalDots = d.machine.bus.ppu.totalDots

theorem Alike.agree {pads : Joypads → Joypads → Prop} {screens : Beam → Beam → Prop}
    (h : Alike cartridge pads screens x y c d) : Agree c d := by
  obtain ⟨⟨_, hcpu, ht, _⟩, _, _⟩ := h
  refine ⟨Machine.encode_congr hcpu ht.memory ht.picture ht.board ht.ppu, ht.memory, ?_, ?_⟩
  · rw [hcpu]
  · rw [ht.ppu]
    rfl

/-! ## Running on -/

theorem seen_steady (variant : Ppu.Variant) (settled : Prop) : Steady Eq (Seen variant settled) :=
  eq_steady (Machine.seen_shown variant settled) fun _ _ h => ⟨h.left, h.right, h.screen⟩

theorem sameScreen_steady : Steady Eq SameScreen :=
  eq_steady Machine.sameScreen_shown fun _ _ h => ⟨h.variant, h.screen⟩

/-- Consoles of one variant show the same after a frame. -/
theorem frame_settles (sound : cartridge.Sound) {variant : Ppu.Variant} {settled : Prop} :
    Coupled (Alike cartridge Eq (Seen variant settled) x y) frame
      (fun _ => Alike cartridge Eq (Seen variant True) x y) Overflow := by
  intro c d h
  have hscreens := h.machine.twins.screens
  have hrank := h.machine.sound.devices.ppu.rank_lt
  have hdots := h.machine.sound.clock.total
  obtain ⟨first, hfirst⟩ : ∃ first, c.machine.bus.ppu.beam.totalDots.toNat = first := ⟨_, rfl⟩
  have repainting : Repainting first c.machine.bus.ppu.beam d.machine.bus.ppu.beam :=
    hfirst ▸ Machine.repainting_start (hscreens.left.trans hscreens.right.symm) hrank
  have start : Alike cartridge Eq
      (fun b b' => Repainting first b b' ∧ Seen variant settled b b') x y c d :=
    h.mono fun hs => ⟨repainting, hs⟩
  have hshown := (Machine.repainting_shown first).and (Machine.seen_shown variant settled)
  refine (frame_alike hshown Devices.eq_padsAlike sound start).mono ?_ fun _ _ _ hf => hf.1
  rintro _ c' d' ⟨ha, hcycles⟩
  have hdots' := ha.machine.sound.clock.total
  refine ha.mono fun ⟨hr, hs⟩ => ?_
  refine ⟨hs.left, hs.right, fun _ full => hr.settled ?_ (hs.left.trans full)⟩
  rw [← hfirst, hdots, hdots', hcycles]
  simp only [Machine.cyclesPerFrame, dotsPerFrame, Ppu.dotsPerLine]
  omega

/-- Once the inputs hold a frame, the picture is settled. -/
theorem seen_coupled (sound : cartridge.Sound) {variant : Ppu.Variant} (inputs : List Input) :
    Coupled (Alike cartridge Eq (Seen variant False) x y) (feedAll inputs)
      (fun _ => Alike cartridge Eq (Seen variant (.frame ∈ inputs)) x y) Overflow := by
  have weaken : ∀ {settled settled' : Prop}, (settled' → settled) → ∀ c d,
      Alike cartridge Eq (Seen variant settled) x y c d →
        Alike cartridge Eq (Seen variant settled') x y c d := fun hs _ _ h =>
    h.mono fun h => ⟨h.left, h.right, fun hp => h.screen (hs hp)⟩
  induction inputs with
  | nil => exact .pure fun _ _ => weaken List.not_mem_nil _ _
  | cons input rest ih =>
    by_cases hf : input = .frame
    · subst hf
      apply (frame_settles sound).bind
      intro _
      exact (feedAll_coupled (seen_steady variant True) sound rest).strengthen fun _ =>
        weaken fun _ => trivial
    · apply (feed_coupled (seen_steady variant False) sound input).bind
      intro _
      refine ih.strengthen fun _ => weaken fun hm => ?_
      exact (List.mem_cons.1 hm).resolve_left fun he => hf he.symm

/-! ## Taking over a state -/

/-- A console in the state of another one, in front of a screen. -/
def takeOver (c d : Console) (screen : Ppu.Screen) : Console :=
  { c with machine := c.machine.resume d.machine.snapshot screen }

theorem decode_takeOver (hc : c.Sound cartridge) (hd : d.Sound cartridge) :
    c.decode d.encode = .ok [] (c.takeOver d c.screen) := by
  have hdecode := decode_encode hc.machine.stocked hd.machine.stocked []
  rwa [List.append_nil] at hdecode

theorem load_takeOver (hd : d.Sound cartridge) : c.load d.save = c.takeOver d d.screen :=
  load_eq hd.machine.snapshot.stocked c

theorem encode_takeOver (screen : Ppu.Screen) : (c.takeOver d screen).encode = d.encode :=
  Machine.encode_resume _ _ _

theorem takeOver_alike {screens : Beam → Beam → Prop} (hc : c.Sound cartridge)
    (hd : d.Sound cartridge) (hpads : c.pads = d.pads) (screen : Ppu.Screen)
    (hs : screens (c.takeOver d screen).machine.bus.ppu.beam d.machine.bus.ppu.beam) :
    Alike cartridge Eq screens c.backup d.backup (c.takeOver d screen) d :=
  ⟨Machine.resume_twin hc.machine hd.machine hpads screen hs, ⟨hc.inserted, hd.inserted⟩, rfl, rfl⟩

/-- However a console takes over the state of another one, it has its bytes; and with the same
controllers it runs on alike. Pictures of full pipelines agree at once after a snapshot and as soon
as a frame was run after bytes. -/
theorem resumes_alike {raw : ByteArray} (himage : Cartridge.ofImage raw = .ok cartridge)
    (hc : Reachable cartridge c) (hd : Reachable cartridge d) (hv : c.variant = d.variant) :
    (∃ decoded, c.decode d.encode = .ok [] decoded ∧ decoded.encode = d.encode ∧
      (c.pads = d.pads → ∀ inputs, EndAlike
        (fun _ c' d' => Agree c' d' ∧
          (.frame ∈ inputs → d.variant = .full → c'.screen = d'.screen))
        Overflow (feedAll inputs decoded) (feedAll inputs d))) ∧
    (c.load d.save).encode = d.encode ∧
      (c.pads = d.pads → ∀ inputs, EndAlike
        (fun _ c' d' => Agree c' d' ∧ c'.screen = d'.screen)
        Overflow (feedAll inputs (c.load d.save)) (feedAll inputs d)) := by
  have sound := Cartridge.ofImage_sound himage
  have hc := hc.sound sound
  have hd := hd.sound sound
  constructor
  · refine ⟨c.takeOver d c.screen, decode_takeOver hc hd, encode_takeOver _, ?_⟩
    intro hpads inputs
    have start : Alike cartridge Eq (Seen d.variant False) c.backup d.backup _ d :=
      takeOver_alike hc hd hpads c.screen ⟨hv, rfl, False.elim⟩
    exact (seen_coupled sound inputs _ _ start).mono
      (fun _ _ _ h => ⟨h.agree, h.machine.twins.screens.screen⟩) fun _ _ _ => id
  · rw [load_takeOver hd]
    refine ⟨encode_takeOver _, ?_⟩
    intro hpads inputs
    have start : Alike cartridge Eq SameScreen c.backup d.backup _ d :=
      takeOver_alike hc hd hpads d.screen ⟨hv, rfl⟩
    exact (feedAll_coupled sameScreen_steady sound inputs _ _ start).mono
      (fun _ _ _ h => ⟨h.agree, h.machine.twins.screens.screen⟩) fun _ _ _ => id

theorem polling_resumes : ∃ c decoded, insert Image.polling .full = .ok c ∧
    c.decode (c.poke 0x10 7).encode = .ok [] decoded ∧
    decoded.encode = (c.poke 0x10 7).encode ∧
    (c.load (c.poke 0x10 7).save).encode = (c.poke 0x10 7).encode ∧
    ∀ inputs, EndAlike (fun _ c' d' => Agree c' d' ∧ (.frame ∈ inputs → c'.screen = d'.screen))
        Overflow (feedAll inputs decoded) (feedAll inputs (c.poke 0x10 7)) ∧
      EndAlike (fun _ c' d' => Agree c' d' ∧ c'.screen = d'.screen)
        Overflow (feedAll inputs (c.load (c.poke 0x10 7).save)) (feedAll inputs (c.poke 0x10 7)) := by
  have sound := Cartridge.ofImage_sound Image.ofImage_pollingImage
  obtain ⟨board, hboard⟩ := @Board.ofCartridge?_isSome Image.polling (.inl rfl)
  obtain ⟨c, _, hc, _, alike⟩ := insert_alike sound hboard .full .full
  have full : (c.poke 0x10 7).variant = .full := alike.machine.twins.screens.left
  have poked : Reachable Image.polling (c.poke 0x10 7) := .feed (.poke 0x10 7) (.insert hc) rfl
  obtain ⟨⟨decoded, hdecoded, bytes, onBytes⟩, same, onState⟩ :=
    resumes_alike Image.ofImage_pollingImage (.insert hc) poked rfl
  refine ⟨c, decoded, hc, hdecoded, bytes, same, fun inputs => ⟨?_, onState rfl inputs⟩⟩
  exact (onBytes rfl inputs).mono (fun _ _ _ ⟨agree, shows⟩ => ⟨agree, fun hf => shows hf full⟩)
    fun _ _ _ => id

end Famicom.Console
