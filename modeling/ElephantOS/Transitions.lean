import Mathlib.Data.List.Forall2
import Mathlib.Data.List.Induction

/-! Machines with labelled steps: runs, invariants, and forward simulation of one machine by another. -/

universe u v w x

structure Machine (State : Type u) (Label : Type v) where
  step : State → Label → State → Prop

namespace Machine

variable {State : Type u} {Label : Type v} {Abstract : Type w} {Event : Type x} {m : Machine State Label} {a : Machine Abstract Event}
  {s s' s'' : State} {t t' : Abstract} {l : Label} {ls ls' : List Label}

/-- The labels of the steps from one state to another. -/
inductive Run (m : Machine State Label) (s : State) : List Label → State → Prop
  | nil : Run m s [] s
  | snoc {s' s'' : State} {ls : List Label} {l : Label} : Run m s ls s' → m.step s' l s'' → Run m s (ls ++ [l]) s''

theorem Run.single (h : m.step s l s') : m.Run s [l] s' := .snoc .nil h

theorem Run.nil_iff : m.Run s [] s' ↔ s' = s := by
  constructor
  · intro h
    generalize hls : ([] : List Label) = ls at h
    cases h with
    | nil => rfl
    | snoc _ _ => simp at hls
  · rintro rfl
    exact .nil

theorem Run.snoc_iff : m.Run s (ls ++ [l]) s' ↔ ∃ s₁, m.Run s ls s₁ ∧ m.step s₁ l s' := by
  constructor
  · intro h
    generalize hls : ls ++ [l] = ls' at h
    cases h with
    | nil => simp at hls
    | snoc h hl =>
      obtain ⟨rfl, hlast⟩ := List.append_inj' hls rfl
      obtain rfl := List.singleton_inj.mp hlast
      exact ⟨_, h, hl⟩
  · rintro ⟨s₁, h, hl⟩
    exact .snoc h hl

theorem Run.single_iff : m.Run s [l] s' ↔ m.step s l s' := by
  rw [← List.nil_append [l], Run.snoc_iff]
  constructor
  · rintro ⟨s₁, h, hl⟩
    obtain rfl := Run.nil_iff.mp h
    exact hl
  · exact fun hl => ⟨s, .nil, hl⟩

theorem Run.append (h : m.Run s ls s') (h' : m.Run s' ls' s'') : m.Run s (ls ++ ls') s'' := by
  induction h' with
  | nil =>
    rw [List.append_nil]
    exact h
  | snoc _ hstep ih =>
    rw [← List.append_assoc]
    exact .snoc ih hstep

theorem Run.append_iff : m.Run s (ls ++ ls') s' ↔ ∃ s₁, m.Run s ls s₁ ∧ m.Run s₁ ls' s' := by
  constructor
  · intro h
    induction ls' using List.reverseRecOn generalizing s' with
    | nil =>
      rw [List.append_nil] at h
      exact ⟨s', h, .nil⟩
    | append_singleton ls' l ih =>
      rw [← List.append_assoc] at h
      obtain ⟨s₁, h, hl⟩ := Run.snoc_iff.mp h
      obtain ⟨s₂, h, h'⟩ := ih h
      exact ⟨s₂, h, .snoc h' hl⟩
  · rintro ⟨s₁, h, h'⟩
    exact h.append h'

theorem Run.invariant {I : State → Prop} (hstep : ∀ s l s', I s → m.step s l s' → I s') (h : m.Run s ls s') (hs : I s) : I s' := by
  induction h with
  | nil => exact hs
  | snoc _ hl ih => exact hstep _ _ _ ih hl

/-- A step of `m` from a state that shows as `t` is answered by a run of `a` from `t` whose events the label of the step can mean. -/
def Simulates (m : Machine State Label) (a : Machine Abstract Event) (Means : Label → List Event → Prop) (Shows : State → Abstract → Prop) :
    Prop := ∀ s l s' t, Shows s t → m.step s l s' → ∃ es t', Means l es ∧ a.Run t es t' ∧ Shows s' t'

variable {Means : Label → List Event → Prop} {Shows : State → Abstract → Prop}

theorem Simulates.run (h : Simulates m a Means Shows) (ht : Shows s t) (hrun : m.Run s ls s') :
    ∃ ess t', List.Forall₂ Means ls ess ∧ a.Run t ess.flatten t' ∧ Shows s' t' := by
  induction hrun with
  | nil => exact ⟨[], t, .nil, .nil, ht⟩
  | snoc _ hl ih =>
    obtain ⟨ess, t₁, hmeans, hrun, hshows⟩ := ih
    obtain ⟨es, t₂, hes, hrun', hshows'⟩ := h _ _ _ t₁ hshows hl
    refine ⟨ess ++ [es], t₂, ?_, ?_, hshows'⟩
    · exact List.rel_append hmeans (.cons hes .nil)
    · rw [List.flatten_append, List.flatten_singleton]
      exact hrun.append hrun'

theorem Simulates.invariant (h : Simulates m a Means Shows) {I : Abstract → Prop} (hstep : ∀ t e t', I t → a.step t e t' → I t')
    (ht : Shows s t) (hi : I t) (hrun : m.Run s ls s') : ∃ t', Shows s' t' ∧ I t' := by
  obtain ⟨ess, t', -, hrun', hshows⟩ := h.run ht hrun
  exact ⟨t', hshows, hrun'.invariant hstep hi⟩

end Machine
