/-!
# Coupled runs

What a sequence of actions answers, and an action run from two related states. Its runs end alike when
both answer the same value, or both stop for the same reason. `before` relates the states in which
they start, `answer` those in which they answer and `stop` those in which they stop.
-/

namespace Famicom

section
variable {ε σ α γ : Type}

/-! ## Sequences -/

section
variable {action : EStateM ε σ α} {next : α → EStateM ε σ γ} {s t : σ} {value : α} {cause : ε}

theorem get_ok (s : σ) : (get : EStateM ε σ σ) s = .ok s s := rfl

theorem modify_ok (f : σ → σ) (s : σ) : (modify f : EStateM ε σ PUnit) s = .ok () (f s) := rfl

theorem bind_ok (h : action s = .ok value t) : (action >>= next) s = next value t := by
  show EStateM.bind action next s = _
  unfold EStateM.bind
  rw [h]

theorem bind_error (h : action s = .error cause t) : (action >>= next) s = .error cause t := by
  show EStateM.bind action next s = _
  unfold EStateM.bind
  rw [h]

theorem of_bind_ok {result : γ} {u : σ} (h : (action >>= next) s = .ok result u) :
    ∃ value t, action s = .ok value t ∧ next value t = .ok result u := by
  cases hs : action s with
  | ok value t =>
    rw [bind_ok hs] at h
    exact ⟨value, t, rfl, h⟩
  | error cause t =>
    rw [bind_error hs] at h
    cases h

end

/-! ## Coupled actions -/

inductive EndAlike (answer : α → σ → σ → Prop) (stop : ε → σ → σ → Prop) :
    EStateM.Result ε σ α → EStateM.Result ε σ α → Prop
  | ok {value : α} {s t : σ} : answer value s t → EndAlike answer stop (.ok value s) (.ok value t)
  | error {cause : ε} {s t : σ} : stop cause s t →
      EndAlike answer stop (.error cause s) (.error cause t)

def Coupled (before : σ → σ → Prop) (action : EStateM ε σ α) (answer : α → σ → σ → Prop)
    (stop : ε → σ → σ → Prop) : Prop :=
  ∀ s t, before s t → EndAlike answer stop (action s) (action t)

/-- The fate of an action that always answers. -/
def never : ε → σ → σ → Prop := fun _ _ _ => False

namespace EndAlike

variable {answer answer' : α → σ → σ → Prop} {stop stop' : ε → σ → σ → Prop}
variable {r₁ r₂ : EStateM.Result ε σ α}

theorem mono (h : EndAlike answer stop r₁ r₂)
    (ha : ∀ value s t, answer value s t → answer' value s t)
    (hs : ∀ cause s t, stop cause s t → stop' cause s t) : EndAlike answer' stop' r₁ r₂ := by
  cases h with
  | ok h => exact .ok (ha _ _ _ h)
  | error h => exact .error (hs _ _ _ h)

theorem exists_ok (h : EndAlike answer never r₁ r₂) :
    ∃ value s t, r₁ = .ok value s ∧ r₂ = .ok value t ∧ answer value s t := by
  cases h with
  | ok h => exact ⟨_, _, _, rfl, rfl, h⟩
  | error h => exact h.elim

end EndAlike

namespace Coupled

variable {before before' : σ → σ → Prop} {action : EStateM ε σ α} {next : α → EStateM ε σ γ}
variable {answer answer' : α → σ → σ → Prop} {result : γ → σ → σ → Prop}
variable {stop stop' : ε → σ → σ → Prop}

theorem mono (h : Coupled before action answer stop) (hb : ∀ s t, before' s t → before s t)
    (ha : ∀ value s t, answer value s t → answer' value s t)
    (hs : ∀ cause s t, stop cause s t → stop' cause s t) :
    Coupled before' action answer' stop' :=
  fun s t hst => (h s t (hb s t hst)).mono ha hs

theorem weaken (h : Coupled before action answer stop) (hb : ∀ s t, before' s t → before s t) :
    Coupled before' action answer stop :=
  h.mono hb (fun _ _ _ => id) (fun _ _ _ => id)

theorem strengthen (h : Coupled before action answer stop)
    (ha : ∀ value s t, answer value s t → answer' value s t) :
    Coupled before action answer' stop :=
  h.mono (fun _ _ => id) ha (fun _ _ _ => id)

/-- An action that always answers may be said to stop anyhow. -/
theorem total (h : Coupled before action answer never) : Coupled before action answer stop :=
  h.mono (fun _ _ => id) (fun _ _ _ => id) (fun _ _ _ => False.elim)

/-- A fact that does not speak of the states holds on. -/
theorem frame {p : Prop} (h : Coupled before action answer stop) :
    Coupled (fun s t => p ∧ before s t) action (fun value s t => p ∧ answer value s t) stop :=
  fun s t ⟨hp, hst⟩ => (h s t hst).mono (fun _ _ _ ha => ⟨hp, ha⟩) (fun _ _ _ => id)

/-- So does what the action keeps of the first state. -/
theorem keeping {p : σ → Prop} (h : Coupled before action answer stop)
    (kept : ∀ s value t, p s → action s = .ok value t → p t) :
    Coupled (fun s t => before s t ∧ p s) action (fun value s t => answer value s t ∧ p s) stop := by
  rintro s t ⟨hst, hs⟩
  have alike := h s t hst
  cases ha : action s <;> cases hb : action t <;> rw [ha, hb] at alike <;> cases alike
  case ok.ok.ok h => exact .ok ⟨h, kept _ _ _ hs ha⟩
  case error.error.error h => exact .error h

theorem assume {p : Prop} (h : p → Coupled before action answer stop) :
    Coupled (fun s t => p ∧ before s t) action answer stop :=
  fun s t ⟨hp, hst⟩ => h hp s t hst

theorem pure {value : α} (h : ∀ s t, before s t → answer value s t) :
    Coupled before (Pure.pure value) answer stop :=
  fun s t hst => .ok (h s t hst)

theorem bind (h : Coupled before action answer stop)
    (hn : ∀ value, Coupled (answer value) (next value) result stop) :
    Coupled before (action >>= next) result stop := by
  intro s t hst
  have hr := h s t hst
  cases hs : action s <;> cases ht : action t <;> rw [hs, ht] at hr <;> cases hr
  case ok.ok.ok h =>
    rw [bind_ok hs, bind_ok ht]
    exact hn _ _ _ h
  case error.error.error h =>
    rw [bind_error hs, bind_error ht]
    exact .error h

theorem ite {c : Prop} [Decidable c] {other : EStateM ε σ α}
    (ht : c → Coupled before action answer stop) (hf : ¬c → Coupled before other answer stop) :
    Coupled before (if c then action else other) answer stop := by
  split
  · exact ht ‹_›
  · exact hf ‹_›

/-- A state beside itself. -/
def Alone (p : σ → Prop) (s t : σ) : Prop := s = t ∧ p s

/-- An action that always answers, seen from one state. -/
theorem alone {p : σ → Prop} {q : α → σ → Prop} (h : Coupled before action answer never)
    (hb : ∀ s, p s → before s s) (hq : ∀ value s, answer value s s → q value s) :
    Coupled (Alone p) action (fun value => Alone (q value)) never := by
  rintro s _ ⟨rfl, hs⟩
  obtain ⟨value, t, u, ht, hu, ha⟩ := (h s s (hb s hs)).exists_ok
  rw [ht] at hu
  cases hu
  rw [ht]
  exact .ok ⟨rfl, hq value t ha⟩

theorem exists_alone {p : σ → Prop} {q : α → σ → Prop}
    (h : Coupled (Alone p) action (fun value => Alone (q value)) never) {s : σ} (hs : p s) :
    ∃ value t, action s = .ok value t ∧ q value t := by
  obtain ⟨value, t, _, ht, _, rfl, hq⟩ := (h s s ⟨rfl, hs⟩).exists_ok
  exact ⟨value, t, ht, hq⟩

end Coupled
end

end Famicom
