import Mathlib.Tactic

/-!
State passing for code that may stop the machine: a run either halts, for a
recorded reason, or returns a value and the next state.
-/

namespace ElephantOS.HaltingState

variable {ε σ α β γ : Type}

abbrev Exec (ε σ α : Type) := StateT σ (Except ε) α

def halt (e : ε) : Exec ε σ α := fun _ => .error e

/-- Whatever the run returns, if it returns, satisfies `Q`. -/
def After (m : Exec ε σ α) (s : σ) (Q : α → σ → Prop) : Prop := ∀ a s', m s = .ok (a, s') → Q a s'

/-- The run returns, with a result that satisfies `Q`. -/
def Runs (m : Exec ε σ α) (s : σ) (Q : α → σ → Prop) : Prop := ∃ a s', m s = .ok (a, s') ∧ Q a s'

@[simp] theorem pure_ok (a b : α) (s s' : σ) :
    ((pure a : Exec ε σ α) s = .ok (b, s')) ↔ a = b ∧ s = s' := by
  change Except.ok (a, s) = Except.ok (b, s') ↔ _
  simp

theorem bind_ok (m : Exec ε σ α) (f : α → Exec ε σ β) (s : σ) (r : β × σ) :
    (m >>= f) s = .ok r ↔ ∃ a s', m s = .ok (a, s') ∧ f a s' = .ok r := by
  change (m s >>= fun p => f p.1 p.2) = .ok r ↔ _
  cases h : m s with
  | error e =>
    change Except.error e = Except.ok r ↔ _
    simp
  | ok p =>
    change f p.1 p.2 = .ok r ↔ _
    constructor
    · intro hf
      exact ⟨p.1, p.2, rfl, hf⟩
    · rintro ⟨a, s', he, hf⟩
      cases he
      exact hf

theorem bind_eq {m : Exec ε σ α} {s s' : σ} {a : α} (h : m s = .ok (a, s')) (f : α → Exec ε σ β) :
    (m >>= f) s = f a s' := by
  change (m s >>= fun p => f p.1 p.2) = _
  rw [h]
  rfl

theorem bind_error {m : Exec ε σ α} {s : σ} {e : ε} (h : m s = .error e) (f : α → Exec ε σ β) :
    (m >>= f) s = .error e := by
  change (m s >>= fun p => f p.1 p.2) = _
  rw [h]
  rfl

@[simp] theorem get_ok (s a s' : σ) : ((get : Exec ε σ σ) s = .ok (a, s')) ↔ s = a ∧ s = s' := by
  change Except.ok (s, s) = Except.ok (a, s') ↔ _
  simp

@[simp] theorem set_ok (t s s' : σ) (u : PUnit) : ((set t : Exec ε σ PUnit) s = .ok (u, s')) ↔ t = s' := by
  change Except.ok ((), t) = Except.ok (u, s') ↔ _
  simp

@[simp] theorem modify_ok (f : σ → σ) (s s' : σ) (u : PUnit) :
    ((modify f : Exec ε σ PUnit) s = .ok (u, s')) ↔ f s = s' := by
  change Except.ok ((), f s) = Except.ok (u, s') ↔ _
  simp

theorem modify_eq (f : σ → σ) (s : σ) : (modify f : Exec ε σ PUnit) s = .ok (⟨⟩, f s) := rfl

theorem get_bind (s : σ) (f : σ → Exec ε σ β) : ((get : Exec ε σ σ) >>= f) s = f s s := rfl

theorem modify_bind (g : σ → σ) (s : σ) (f : PUnit → Exec ε σ β) : ((modify g : Exec ε σ PUnit) >>= f) s = f ⟨⟩ (g s) := rfl

theorem set_bind (s s' : σ) (f : PUnit → Exec ε σ β) : ((set s' : Exec ε σ PUnit) >>= f) s = f ⟨⟩ s' := rfl

@[simp] theorem halt_ok (e : ε) (s : σ) (r : α × σ) : ((halt e : Exec ε σ α) s = .ok r) ↔ False := by
  simp [halt]

theorem ok_inj {m : Exec ε σ α} {s s' s'' : σ} {a b : α} (h : m s = .ok (a, s')) (h' : m s = .ok (b, s'')) :
    a = b ∧ s' = s'' := by
  rw [h] at h'
  simpa using h'

theorem After.bind {m : Exec ε σ α} {f : α → Exec ε σ β} {s : σ} {P : α → σ → Prop} {Q : β → σ → Prop}
    (hm : After m s P) (hf : ∀ a s', P a s' → After (f a) s' Q) : After (m >>= f) s Q := by
  intro b s'' h
  obtain ⟨a, s', ha, hb⟩ := (bind_ok m f s _).mp h
  exact hf a s' (hm a s' ha) b s'' hb

theorem Runs.bind {m : Exec ε σ α} {f : α → Exec ε σ β} {s : σ} {P : α → σ → Prop} {Q : β → σ → Prop}
    (hm : Runs m s P) (hf : ∀ a s', P a s' → Runs (f a) s' Q) : Runs (m >>= f) s Q := by
  obtain ⟨a, s', ha, hp⟩ := hm
  obtain ⟨b, s'', hb, hq⟩ := hf a s' hp
  exact ⟨b, s'', (bind_ok m f s _).mpr ⟨a, s', ha, hb⟩, hq⟩

theorem Runs.step {m : Exec ε σ α} {f : α → Exec ε σ β} {s s' : σ} {a : α} {Q : β → σ → Prop}
    (hm : m s = .ok (a, s')) (hf : Runs (f a) s' Q) : Runs (m >>= f) s Q := by
  obtain ⟨b, s'', hb, hq⟩ := hf
  exact ⟨b, s'', (bind_ok m f s _).mpr ⟨a, s', hm, hb⟩, hq⟩

theorem Runs.after {m : Exec ε σ α} {s : σ} {P Q : α → σ → Prop}
    (hm : Runs m s P) (hq : After m s Q) : Runs m s (fun a s' => P a s' ∧ Q a s') := by
  obtain ⟨a, s', ha, hp⟩ := hm
  exact ⟨a, s', ha, hp, hq a s' ha⟩

theorem Runs.mono {m : Exec ε σ α} {s : σ} {P Q : α → σ → Prop}
    (hm : Runs m s P) (hpq : ∀ a s', P a s' → Q a s') : Runs m s Q := by
  obtain ⟨a, s', ha, hp⟩ := hm
  exact ⟨a, s', ha, hpq a s' hp⟩

theorem Runs.returned {m : Exec ε σ α} {s s' : σ} {a : α} {Q : α → σ → Prop} (h : Runs m s Q) (hm : m s = .ok (a, s')) : Q a s' := by
  obtain ⟨b, s'', hb, hq⟩ := h
  obtain ⟨rfl, rfl⟩ := ok_inj hm hb
  exact hq

theorem Runs.pure {a : α} {s : σ} {Q : α → σ → Prop} (h : Q a s) : Runs (Pure.pure a : Exec ε σ α) s Q :=
  ⟨a, s, rfl, h⟩

theorem Runs.get {f : σ → Exec ε σ β} {s : σ} {Q : β → σ → Prop} (h : Runs (f s) s Q) :
    Runs (MonadState.get >>= f) s Q := by
  refine Runs.bind (P := fun a s' => s = a ∧ s = s') ⟨s, s, rfl, rfl, rfl⟩ ?_
  rintro _ _ ⟨rfl, rfl⟩
  exact h

theorem Runs.modify {g : σ → σ} {f : PUnit → Exec ε σ β} {s : σ} {Q : β → σ → Prop} (h : Runs (f ⟨⟩) (g s) Q) :
    Runs ((modify g : Exec ε σ PUnit) >>= f) s Q := by
  refine Runs.bind (P := fun _ s' => g s = s') ⟨⟨⟩, g s, rfl, rfl⟩ ?_
  rintro _ _ rfl
  exact h

/-- `Runs` for a property that can be evaluated. -/
def runsTo (m : Exec ε σ α) (s : σ) (p : α → σ → Bool) : Bool :=
  match m s with
  | .ok (a, s') => p a s'
  | .error _ => false

theorem runs_of_runsTo {m : Exec ε σ α} {s : σ} {p : α → σ → Bool} (h : runsTo m s p = true) :
    Runs m s fun a s' => p a s' = true := by
  unfold runsTo at h
  cases hm : m s with
  | error e => simp [hm] at h
  | ok r =>
    rw [hm] at h
    exact ⟨r.1, r.2, hm, h⟩

/-- Wherever `m` returns, `m'` returns the same. -/
def Extends (m m' : Exec ε σ α) : Prop := ∀ s r, m s = .ok r → m' s = .ok r

theorem Extends.refl (m : Exec ε σ α) : Extends m m := fun _ _ h => h

theorem Extends.bind {m m' : Exec ε σ α} {f f' : α → Exec ε σ β} (hm : Extends m m') (hf : ∀ a, Extends (f a) (f' a)) :
    Extends (m >>= f) (m' >>= f') := by
  intro s r h
  obtain ⟨a, s', ha, hr⟩ := (bind_ok m f s r).mp h
  exact (bind_ok m' f' s r).mpr ⟨a, s', hm s _ ha, hf a s' r hr⟩

section

variable {τ : Type} {view : σ → τ} {P : β → Prop} {Q : α → Prop}

/-- A run that returns leaves `view` of the state as it was, and its result satisfies `Q`. -/
def Leaves (view : σ → τ) (m : Exec ε σ α) (Q : α → Prop) : Prop := ∀ s a s', m s = .ok (a, s') → view s' = view s ∧ Q a

namespace Leaves

theorem pure {a : α} (h : Q a) : Leaves view (Pure.pure a : Exec ε σ α) Q := by
  intro s b s' hs
  obtain ⟨rfl, rfl⟩ := (pure_ok a b s s').mp hs
  exact ⟨rfl, h⟩

theorem halt (e : ε) : Leaves view (HaltingState.halt e : Exec ε σ α) Q := by
  intro s a s' h
  simp at h

theorem bind {m : Exec ε σ β} {f : β → Exec ε σ α} (hm : Leaves view m P) (hf : ∀ b, P b → Leaves view (f b) Q) :
    Leaves view (m >>= f) Q := by
  intro s a s'' h
  obtain ⟨b, s', h1, h2⟩ := (bind_ok m f s _).mp h
  obtain ⟨hv1, hp⟩ := hm s b s' h1
  obtain ⟨hv2, hq⟩ := hf b hp s' a s'' h2
  exact ⟨hv2.trans hv1, hq⟩

theorem get : Leaves view (MonadState.get : Exec ε σ σ) fun _ => True := by
  intro s a s' h
  obtain ⟨-, rfl⟩ := (get_ok s a s').mp h
  exact ⟨rfl, trivial⟩

theorem modify {f : σ → σ} (h : ∀ s, view (f s) = view s) : Leaves view (modify f : Exec ε σ PUnit) fun _ => True := by
  intro s u s' hs
  obtain rfl := (modify_ok f s s' u).mp hs
  exact ⟨h s, trivial⟩

theorem modifying {f : σ → σ} {k : PUnit → Exec ε σ α} (hk : Leaves view (k ⟨⟩) Q) (h : ∀ s, view (f s) = view s := by intro s; rfl) :
    Leaves view ((MonadState.modifyGet fun s => (⟨⟩, f s) : Exec ε σ PUnit) >>= k) Q :=
  bind (modify h) fun _ _ => hk

theorem mono {m : Exec ε σ α} {Q' : α → Prop} (h : Leaves view m Q) (hq : ∀ a, Q a → Q' a) : Leaves view m Q' := by
  intro s a s' hs
  obtain ⟨hv, ha⟩ := h s a s' hs
  exact ⟨hv, hq a ha⟩

end Leaves

end

section

variable {I : σ → Prop}

/-- Where `I` holds before a run, it holds after it. -/
def Preserves (I : σ → Prop) (m : Exec ε σ α) : Prop := ∀ s, I s → After m s fun _ s' => I s'

namespace Preserves

theorem pure (a : α) : Preserves I (Pure.pure a : Exec ε σ α) := by
  intro s hs b s' h
  obtain ⟨-, rfl⟩ := (pure_ok a b s s').mp h
  exact hs

theorem halt (e : ε) : Preserves I (HaltingState.halt e : Exec ε σ α) := by
  intro s _ a s' h
  simp at h

theorem bind {m : Exec ε σ β} {f : β → Exec ε σ α} (hm : Preserves I m) (hf : ∀ b, Preserves I (f b)) : Preserves I (m >>= f) := by
  intro s hs a s'' h
  obtain ⟨b, s', h1, h2⟩ := (bind_ok m f s _).mp h
  exact hf b s' (hm s hs b s' h1) a s'' h2

theorem get : Preserves I (MonadState.get : Exec ε σ σ) := by
  intro s hs a s' h
  obtain ⟨-, rfl⟩ := (get_ok s a s').mp h
  exact hs

theorem modify {f : σ → σ} (h : ∀ s, I s → I (f s)) : Preserves I (modify f : Exec ε σ PUnit) := by
  intro s hs u s' hm
  obtain rfl := (modify_ok f s s' u).mp hm
  exact h s hs

theorem modifying {f : σ → σ} {k : PUnit → Exec ε σ α} (hk : Preserves I (k ⟨⟩)) (h : ∀ s, I s → I (f s)) :
    Preserves I ((MonadState.modifyGet fun s => (⟨⟩, f s) : Exec ε σ PUnit) >>= k) :=
  bind (modify h) fun _ => hk

end Preserves

end

/-- Run `m` on a component of the state. -/
def zoom {τ : Type} (view : τ → σ) (put : τ → σ → τ) (m : Exec ε σ α) : Exec ε τ α :=
  fun t => match m (view t) with
    | .error e => .error e
    | .ok (a, s) => .ok (a, put t s)

theorem zoom_ok {τ : Type} (view : τ → σ) (put : τ → σ → τ) (m : Exec ε σ α) (t t' : τ) (a : α) :
    zoom view put m t = .ok (a, t') ↔ ∃ s, m (view t) = .ok (a, s) ∧ put t s = t' := by
  unfold zoom
  cases h : m (view t) with
  | error e => simp
  | ok p =>
    obtain ⟨b, s⟩ := p
    simp only [Except.ok.injEq, Prod.mk.injEq]
    constructor
    · rintro ⟨rfl, rfl⟩
      exact ⟨s, ⟨rfl, rfl⟩, rfl⟩
    · rintro ⟨s', ⟨rfl, rfl⟩, rfl⟩
      exact ⟨rfl, rfl⟩

end ElephantOS.HaltingState
