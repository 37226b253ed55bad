import ElephantOS.Scheduler

namespace ElephantOS.Scheduler

open HaltingState

def Awake (s : Sched) (t : ℕ) : Prop := s.status t = .ready ∨ s.status t = .running

structure SameWaits (s s' : Sched) : Prop where
  value : s'.value = s.value
  waiters : s'.waiters = s.waiters
  inDown : s'.inDown = s.inDown
  count : s.count ≤ s'.count
  idle : s'.idleThread = s.idleThread
  awake : ∀ t, t ≠ s.running → Awake s t → Awake s' t

structure Switched (s s' : Sched) : Prop where
  value : s'.value = s.value
  waiters : s'.waiters = s.waiters
  inDown : s'.inDown = s.inDown
  count : s'.count = s.count
  idle : s'.idleThread = s.idleThread
  awake : ∀ t, Awake s t → Awake s' t

theorem Switched.trans {s s' s'' : Sched} (h : Switched s s') (h' : Switched s' s'') : Switched s s'' :=
  ⟨h'.value.trans h.value, h'.waiters.trans h.waiters, h'.inDown.trans h.inDown, h'.count.trans h.count,
    h'.idle.trans h.idle, fun t ht => h'.awake t (h.awake t ht)⟩

theorem awake_update {s : Sched} {t u : ℕ} {stat : TaskStatus} (h : stat = .ready ∨ stat = .running) (ht : Awake s t) :
    Function.update s.status u stat t = .ready ∨ Function.update s.status u stat t = .running := by
  by_cases he : t = u
  · rw [he, Function.update_self]
    exact h
  · rw [Function.update_of_ne he]
    exact ht

theorem After.get {σ ε β : Type} {f : σ → Exec ε σ β} {s : σ} {Q : β → σ → Prop} (h : After (f s) s Q) :
    After (MonadState.get >>= f) s Q := by
  intro b s' hrun
  obtain ⟨a, s₁, ha, hb⟩ := (bind_ok _ f s _).mp hrun
  obtain ⟨rfl, rfl⟩ := (get_ok s a s₁).mp ha
  exact h b s' hb

theorem After.modify {σ ε β : Type} {g : σ → σ} {f : PUnit → Exec ε σ β} {s : σ} {Q : β → σ → Prop} (h : After (f ⟨⟩) (g s) Q) :
    After ((modify g : Exec ε σ PUnit) >>= f) s Q := by
  intro b s' hrun
  rw [bind_eq (modify_eq g s)] at hrun
  exact h b s' hrun

theorem After.set {s s' : Sched} {α : Type} {f : PUnit → SchedM α} {Q : α → Sched → Prop} (h : After (f ⟨⟩) s' Q) :
    After ((MonadStateOf.set s' : SchedM PUnit) >>= f) s Q := by
  intro b s'' hrun
  rw [bind_eq (show (MonadStateOf.set s' : SchedM PUnit) s = .ok (⟨⟩, s') from rfl)] at hrun
  exact h b s'' hrun

theorem After.check {c : Prop} [Decidable c] {f : Fault} {s : Sched} {α : Type} {g : Unit → SchedM α} {Q : α → Sched → Prop}
    (h : c → After (g ()) s Q) : After (check c f >>= g) s Q := by
  intro b s' hrun
  obtain ⟨u, s₁, hcheck, hb⟩ := (bind_ok _ g s _).mp hrun
  rw [Scheduler.check] at hcheck
  split_ifs at hcheck with hc
  · obtain ⟨rfl, rfl⟩ := (pure_ok _ _ _ _).mp hcheck
    exact h hc b s' hb
  · cases hcheck

theorem After.intrDisable {s : Sched} {α : Type} {g : Bool → SchedM α} {Q : α → Sched → Prop}
    (h : After (g s.intr) { s with intr := false } Q) : After (intrDisable >>= g) s Q := by
  intro b s' hrun
  rw [bind_eq (show Scheduler.intrDisable s = .ok (s.intr, { s with intr := false }) from rfl)] at hrun
  exact h b s' hrun

theorem threadUnblock_after (t : ℕ) (s : Sched) :
    After (threadUnblock t) s fun _ s' => s' = setStatus t .ready { s with readyList := t :: s.readyList } ∧
      (s.status t).Blocked ∧ t ∉ s.readyList := by
  unfold threadUnblock
  apply After.intrDisable
  apply After.get
  apply After.check
  intro hb
  apply After.check
  intro hr b s' hrun
  cases hrun
  exact ⟨rfl, hb, hr⟩

theorem threadUnblock_same (t : ℕ) (s : Sched) : After (threadUnblock t) s fun _ s' => SameWaits s s' := by
  intro b s' hrun
  obtain ⟨rfl, -⟩ := threadUnblock_after t s b s' hrun
  exact ⟨rfl, rfl, rfl, le_refl _, rfl, fun _ _ hu => awake_update (.inl rfl) hu⟩

theorem switched_setStatus {s : Sched} (t : ℕ) {stat : TaskStatus} (h : stat = .ready ∨ stat = .running) (ready : List ℕ)
    (running : ℕ) (intr : Bool) (ticks : ℕ → ℕ) :
    Switched s (setStatus t stat { s with
      readyList := ready
      running := running
      intr := intr
      ticks := ticks }) :=
  ⟨rfl, rfl, rfl, rfl, rfl, fun _ hu => awake_update h hu⟩

theorem switchTo_after (s : Sched) : After switchTo s fun _ s' => Switched s s' := by
  unfold switchTo
  apply After.get
  cases hl : s.readyList with
  | nil =>
    intro b s' hrun
    cases hrun
  | cons next rest =>
    intro b s' hrun
    cases hrun
    exact switched_setStatus next (.inr rfl) rest next (s.saved next) s.ticks

theorem schedule_after (s : Sched) : After schedule s fun _ s' => Switched s s' := by
  have htail : ∀ s₁ : Sched, Switched s s₁ → After (do
      let s ← get
      if s.readyList = [] then threadUnblock s.idleThread
      switchTo) s₁ fun _ s' => Switched s s' := by
    intro s₁ h₁
    apply After.get
    by_cases hl : s₁.readyList = []
    · rw [if_pos hl]
      refine After.bind (threadUnblock_after s₁.idleThread s₁) ?_
      rintro _ s₂ ⟨rfl, -⟩ b s' hrun
      have h₂ := switched_setStatus (s := s₁) s₁.idleThread (.inl rfl) (s₁.idleThread :: s₁.readyList) s₁.running s₁.intr s₁.ticks
      exact (h₁.trans h₂).trans (switchTo_after _ b s' hrun)
    · rw [if_neg hl]
      intro b s' hrun
      exact h₁.trans (switchTo_after _ b s' hrun)
  unfold schedule
  apply After.get
  apply After.check
  intro hi
  by_cases hr : s.status s.running = .running
  · rw [if_pos hr]
    apply After.check
    intro _
    apply After.modify
    apply htail
    exact switched_setStatus s.running (.inl rfl) _ s.running s.intr _
  · rw [if_neg hr]
    apply htail
    exact ⟨rfl, rfl, rfl, rfl, rfl, fun _ ht => ht⟩

theorem Switched.waits {s s₁ s' : Sched} (h : Switched s₁ s') (hv : s₁.value = s.value) (hw : s₁.waiters = s.waiters)
    (hd : s₁.inDown = s.inDown) (hc : s₁.count = s.count) (hi : s₁.idleThread = s.idleThread)
    (hs : ∀ t, t ≠ s.running → s₁.status t = s.status t) : SameWaits s s' := by
  refine ⟨h.value.trans hv, h.waiters.trans hw, h.inDown.trans hd, ?_, h.idle.trans hi, ?_⟩
  · rw [h.count, hc]
  · intro t ht hawake
    apply h.awake
    unfold Awake
    rw [hs t ht]
    exact hawake

theorem threadBlock_after (stat : TaskStatus) (s : Sched) : After (threadBlock stat) s fun _ s' => SameWaits s s' := by
  unfold threadBlock
  apply After.check
  intro hb
  apply After.intrDisable
  apply After.modify
  intro b s' hrun
  have hswitch := schedule_after _ b s' hrun
  exact Switched.waits (s := s) hswitch rfl rfl rfl rfl rfl fun t ht => Function.update_of_ne ht _ _

theorem threadYield_after (s : Sched) : After threadYield s fun _ s' => SameWaits s s' := by
  unfold threadYield
  apply After.intrDisable
  apply After.get
  apply After.check
  intro hr
  apply After.modify
  intro b s' hrun
  have hswitch := schedule_after _ b s' hrun
  exact Switched.waits (s := s) hswitch rfl rfl rfl rfl rfl fun t ht => Function.update_of_ne ht _ _

theorem intrTimerHandler_after (s : Sched) : After intrTimerHandler s fun _ s' => SameWaits s s' := by
  unfold intrTimerHandler
  apply After.get
  split_ifs with ht
  · apply After.set
    intro b s' hrun
    have hswitch := schedule_after _ b s' hrun
    exact Switched.waits (s := s) hswitch rfl rfl rfl rfl rfl fun _ _ => rfl
  · intro b s' hrun
    cases hrun
    exact ⟨rfl, rfl, rfl, le_refl _, rfl, fun _ _ ht => ht⟩

theorem threadStart_after {s : Sched} (hnew : s.inDown s.count = none) (prio : ℕ) :
    After (threadStart prio) s fun _ s' => SameWaits s s' := by
  unfold threadStart
  apply After.get
  apply After.check
  intro _ b s' hrun
  cases hrun
  refine ⟨rfl, rfl, ?_, Nat.le_succ _, rfl, ?_⟩
  · change Function.update s.inDown s.count none = s.inDown
    rw [← hnew, Function.update_eq_self]
  · intro t _ ht
    exact awake_update (.inl rfl) ht

def took (m : ℕ) (old : Bool) (s : Sched) : Sched := { s with
  value := Function.update s.value m 0
  inDown := Function.update s.inDown s.running none
  intr := old }

def queuedUp (m : ℕ) (s : Sched) : Sched := { s with waiters := Function.update s.waiters m (s.waiters m ++ [s.running]) }

theorem queuedUp_self (m : ℕ) (s : Sched) : (queuedUp m s).waiters m = s.waiters m ++ [s.running] := Function.update_self _ _ _

theorem queuedUp_other {m m' : ℕ} (h : m' ≠ m) (s : Sched) : (queuedUp m s).waiters m' = s.waiters m' :=
  Function.update_of_ne h _ _

theorem semaDownRound_after (m : ℕ) (old : Bool) (s : Sched) :
    After (semaDownRound m old) s fun _ s' =>
      (s.value m = 1 ∧ s' = took m old s) ∨ (s.value m = 0 ∧ s.running ∉ s.waiters m ∧ SameWaits (queuedUp m s) s') := by
  unfold semaDownRound
  apply After.get
  split_ifs with hv
  · apply After.check
    intro hnot
    apply After.set
    intro b s' hrun
    exact .inr ⟨hv, hnot, threadBlock_after _ _ b s' hrun⟩
  · apply After.check
    intro hone b s' hrun
    cases hrun
    left
    constructor
    · omega
    · unfold took
      rw [hone]

def entered (m : ℕ) (s : Sched) : Sched := { s with
  intr := false
  inDown := Function.update s.inDown s.running (some (m, s.intr)) }

theorem entered_other {s : Sched} {t : ℕ} (h : t ≠ s.running) (m : ℕ) : (entered m s).inDown t = s.inDown t :=
  Function.update_of_ne h _ _

theorem SchedInv.entered {s : Sched} (h : SchedInv s) (hidle : s.running ≠ s.idleThread) (m : ℕ) : SchedInv (entered m s) := by
  refine ⟨⟨h.current, h.only, h.ready, h.nodup, h.wait, h.waitNodup, h.waitOne, h.idle, h.idleFree, h.alive, ?_⟩, h.run⟩
  intro t ht
  by_cases he : t = s.running
  · rw [he]
    exact hidle
  · rw [entered_other he] at ht
    exact h.down t ht

def raised (m : ℕ) (s : Sched) : Sched := { s with value := Function.update s.value m 1 }

def woke (m t : ℕ) (rest : List ℕ) (s : Sched) : Sched :=
  setStatus t .ready { s with
    waiters := Function.update s.waiters m rest
    readyList := t :: s.readyList }

theorem woke_self (m t : ℕ) (rest : List ℕ) (s : Sched) : (raised m (woke m t rest s)).waiters m = rest :=
  Function.update_self _ _ _

theorem woke_other {m m' : ℕ} (h : m' ≠ m) (t : ℕ) (rest : List ℕ) (s : Sched) :
    (raised m (woke m t rest s)).waiters m' = s.waiters m' :=
  Function.update_of_ne h _ _

theorem semaUp_after (m : ℕ) (s : Sched) :
    After (semaUp m) s fun _ s' => s.value m = 0 ∧ ((s.waiters m = [] ∧ s' = raised m s) ∨
      ∃ t rest, s.waiters m = t :: rest ∧ s' = raised m (woke m t rest s)) := by
  unfold semaUp
  apply After.intrDisable
  apply After.get
  apply After.check
  intro hv
  cases hw : s.waiters m with
  | nil =>
    apply After.modify
    apply After.get
    apply After.check
    intro hone b s' hrun
    cases hrun
    refine ⟨hv, .inl ⟨rfl, ?_⟩⟩
    change { s with value := Function.update s.value m (s.value m + 1) } = _
    rw [hv]
    rfl
  | cons t rest =>
    apply After.set
    refine After.bind (threadUnblock_after t _) ?_
    rintro _ _ ⟨rfl, -⟩
    apply After.modify
    apply After.get
    apply After.check
    intro hone b s' hrun
    cases hrun
    refine ⟨hv, .inr ⟨t, rest, rfl, ?_⟩⟩
    change { woke m t rest s with value := Function.update s.value m (s.value m + 1) } = _
    rw [hv]
    rfl

theorem semaDownRound_take {s : Sched} {m : ℕ} (hv : s.value m = 1) (old : Bool) :
    semaDownRound m old s = .ok ((), took m old s) := by
  have hone : ¬ s.value m = 0 := by
    rw [hv]
    decide
  have hcheck : Scheduler.check (s.value m - 1 = 0) .sema s = .ok ((), s) := by
    rw [Scheduler.check, if_pos (by rw [hv])]
    rfl
  unfold semaDownRound
  rw [get_bind, if_neg hone, bind_eq hcheck, took, hv]
  rfl

theorem semaDownRound_runs {s : Sched} (h : SchedInv s) (hidle : s.running ≠ s.idleThread) {m : ℕ} (hv : s.value m ≤ 1)
    (old : Bool) : Runs (semaDownRound m old) s fun _ s' => SchedInv s' := by
  by_cases hone : s.value m = 1
  · rcases semaDownRound_completes h hidle m old with ⟨s', hrun, hinv⟩ | herr
    · exact ⟨(), s', hrun, hinv⟩
    · rw [semaDownRound_take hone] at herr
      cases herr
  · have hzero : s.value m = 0 := by omega
    unfold semaDownRound
    apply Runs.get
    rw [if_pos hzero]
    apply Runs.check (h.not_waiting m)
    exact Runs.set (threadBlock_runs (.inl rfl) (h.queueUp hidle (h.not_waiting m)))

theorem semaDown_runs {s : Sched} (h : SchedInv s) (hidle : s.running ≠ s.idleThread) {m : ℕ} (hv : s.value m ≤ 1) :
    Runs (semaDown m) s fun _ s' => SchedInv s' := by
  unfold semaDown
  apply Runs.intrDisable
  apply Runs.modify
  exact semaDownRound_runs (h.entered hidle m) hidle hv s.intr

theorem semaUp_tail_runs {s : Sched} (h : SchedInv s) {m : ℕ} (hv : s.value m = 0) (old : Bool) :
    Runs (do
      modify fun s => { s with value := Function.update s.value m (s.value m + 1) }
      let s ← get
      Scheduler.check (s.value m = 1) .sema
      intrSetStatus old) s fun _ s' => SchedInv s' := by
  apply Runs.modify
  apply Runs.get
  apply Runs.check
  · simp [hv]
  · exact ⟨(), _, rfl, h.toQueues.other old s.saved s.ticks _, h.run⟩

theorem semaUp_runs {s : Sched} (h : SchedInv s) {m : ℕ} (hv : s.value m = 0) : Runs (semaUp m) s fun _ s' => SchedInv s' := by
  have h₀ : SchedInv { s with intr := false } := ⟨h.toQueues.other false s.saved s.ticks s.value, h.run⟩
  unfold semaUp
  apply Runs.intrDisable
  apply Runs.get
  apply Runs.check hv
  cases hw : s.waiters m with
  | nil => exact semaUp_tail_runs h₀ hv s.intr
  | cons t rest =>
    obtain ⟨h₁, hnone⟩ := h₀.pop hw
    obtain ⟨hlt, hst⟩ := h.wait m t (by rw [hw]; exact List.mem_cons_self)
    have hnot : t ∉ s.readyList := by
      rw [h.ready, hst]
      simp
    apply Runs.set
    refine Runs.bind (threadUnblock_runs (.inl hst) hnot) ?_
    rintro _ _ rfl
    exact semaUp_tail_runs (h₁.unblock hlt (.inl hst) hnone) hv s.intr

structure Looked (m t : ℕ) (s s' : Sched) : Prop where
  others : ∀ u, u ≠ t → s'.inDown u = s.inDown u
  count : s.count ≤ s'.count
  idle : s'.idleThread = s.idleThread
  value : ∀ k, k ≠ m → s'.value k = s.value k
  result : (s.value m = 1 ∧ s'.value m = 0 ∧ s'.inDown t = none) ∨
    (s.value m = 0 ∧ s'.value m = 0 ∧ ∃ old, s'.inDown t = some (m, old))

theorem Looked.asleep {m t : ℕ} {sched sched' : Sched} (hl : Looked m t sched sched') :
    sched'.inDown t = none ∨ ∃ old, sched'.inDown t = some (m, old) := by
  rcases hl.result with ⟨-, -, hnone⟩ | ⟨-, -, hsome⟩
  · exact .inl hnone
  · exact .inr hsome

theorem semaDownRound_looked {s : Sched} {m : ℕ} {old old' : Bool} (hr : s.inDown s.running = some (m, old')) :
    After (semaDownRound m old) s fun _ s' => Looked m s.running s s' := by
  intro b s' hrun
  rcases semaDownRound_after m old s b s' hrun with ⟨hv, rfl⟩ | ⟨hv, -, hs⟩
  · exact ⟨fun u hu => Function.update_of_ne hu _ _, le_refl _, rfl, fun k hk => Function.update_of_ne hk _ _,
      .inl ⟨hv, Function.update_self _ _ _, Function.update_self _ _ _⟩⟩
  · refine ⟨fun u hu => by rw [hs.inDown]; rfl, hs.count, hs.idle, fun k hk => by rw [hs.value]; rfl, .inr ⟨hv, ?_, old', ?_⟩⟩
    · rw [hs.value]
      exact hv
    · rw [hs.inDown]
      exact hr

theorem semaDown_looked (m : ℕ) (s : Sched) : After (semaDown m) s fun _ s' => Looked m s.running s s' := by
  intro b s' hrun
  have hround : semaDownRound m s.intr (entered m s) = .ok (b, s') := hrun
  have h := @semaDownRound_looked (entered m s) m s.intr s.intr (Function.update_self _ _ _) b s' hround
  refine ⟨?_, h.count, h.idle, h.value, h.result⟩
  intro u hu
  rw [h.others u hu]
  exact entered_other hu m

theorem resume_looked {s : Sched} {m : ℕ} {old : Bool} (hr : s.inDown s.running = some (m, old)) :
    After Op.resume.run s fun _ s' => Looked m s.running s s' := by
  intro b s' hrun
  rw [resume_run hr] at hrun
  exact semaDownRound_looked hr b s' hrun

def Op.Quiet : Op → Prop
  | .threadStart _ | .timer | .threadYield | .threadBlock _ | .threadUnblock _ => True
  | .semaDown _ | .semaUp _ | .resume => False

theorem Op.Quiet.after {op : Op} (hq : op.Quiet) {s : Sched} (hnew : s.inDown s.count = none) :
    After op.run s fun _ s' => SameWaits s s' := by
  cases op with
  | threadStart prio => exact threadStart_after hnew prio
  | timer => exact intrTimerHandler_after s
  | threadYield => exact threadYield_after s
  | threadBlock stat => exact threadBlock_after stat s
  | threadUnblock t => exact threadUnblock_same t s
  | semaDown m => cases hq
  | semaUp m => cases hq
  | resume => cases hq

structure Raised (m : ℕ) (s s' : Sched) : Prop where
  before : s.value m = 0
  value : s'.value m = 1
  others : ∀ k, k ≠ m → s'.value k = s.value k
  inDown : s'.inDown = s.inDown
  count : s'.count = s.count
  idle : s'.idleThread = s.idleThread
  running : s'.running = s.running

theorem semaUp_raised (m : ℕ) (s : Sched) : After (semaUp m) s fun _ s' => Raised m s s' := by
  intro b s' hrun
  obtain ⟨hv, ⟨-, rfl⟩ | ⟨t, rest, -, rfl⟩⟩ := semaUp_after m s b s' hrun
  · exact ⟨hv, Function.update_self _ _ _, fun k hk => Function.update_of_ne hk _ _, rfl, rfl, rfl, rfl⟩
  · exact ⟨hv, Function.update_self _ _ _, fun k hk => Function.update_of_ne hk _ _, rfl, rfl, rfl, rfl⟩

def Apart (m : ℕ) (s : Sched) : Op → Prop
  | .semaDown k | .semaUp k => k ≠ m
  | .resume => ∀ old, s.inDown s.running ≠ some (m, old)
  | _ => True

def FromInterrupt : Op → Prop
  | .timer | .threadUnblock _ | .semaUp _ => True
  | _ => False

structure Beside (m : ℕ) (op : Op) (s s' : Sched) : Prop where
  value : s'.value m = s.value m
  others : ∀ u, u ≠ s.running → s'.inDown u = s.inDown u
  loop : (∃ old, s'.inDown s.running = some (m, old)) ↔ ∃ old, s.inDown s.running = some (m, old)
  interrupt : FromInterrupt op → s'.inDown = s.inDown
  count : s.count ≤ s'.count
  idle : s'.idleThread = s.idleThread

theorem SameWaits.beside {s s' : Sched} (h : SameWaits s s') (m : ℕ) (op : Op) : Beside m op s s' := by
  refine ⟨congrFun h.value m, fun u _ => congrFun h.inDown u, ?_, fun _ => h.inDown, h.count, h.idle⟩
  rw [h.inDown]

theorem Looked.beside {s s' : Sched} {m k : ℕ} (h : Looked k s.running s s') (hk : k ≠ m) {op : Op} (hop : ¬ FromInterrupt op)
    (hbefore : ∀ old, s.inDown s.running ≠ some (m, old)) : Beside m op s s' := by
  refine ⟨h.value m hk.symm, h.others, ?_, fun hint => absurd hint hop, h.count, h.idle⟩
  apply iff_of_false
  · rintro ⟨old, hold⟩
    rcases h.result with ⟨-, -, hnone⟩ | ⟨-, -, old', hsome⟩
    · rw [hnone] at hold
      cases hold
    · rw [hsome] at hold
      obtain ⟨he, -⟩ := Prod.mk.inj (Option.some.inj hold)
      exact hk he
  · rintro ⟨old, hold⟩
    exact hbefore old hold

theorem Op.beside {s : Sched} {op : Op} (hnew : ∀ prio, op = .threadStart prio → s.inDown s.count = none) (he : op.Enabled s) {m : ℕ}
    (ha : Apart m s op) :
    After op.run s fun _ s' => Beside m op s s' := by
  intro b s' hrun
  cases op with
  | threadStart prio => exact (threadStart_after (hnew prio rfl) prio b s' hrun).beside m _
  | timer => exact (intrTimerHandler_after s b s' hrun).beside m _
  | threadYield => exact (threadYield_after s b s' hrun).beside m _
  | threadBlock stat => exact (threadBlock_after stat s b s' hrun).beside m _
  | threadUnblock t => exact (threadUnblock_same t s b s' hrun).beside m _
  | semaDown k =>
    apply (semaDown_looked k s b s' hrun).beside ha id
    intro old hold
    rw [he.1] at hold
    cases hold
  | semaUp k =>
    have h := semaUp_raised k s b s' hrun
    refine ⟨h.others m (Ne.symm ha), fun u _ => congrFun h.inDown u, ?_, fun _ => h.inDown, le_of_eq h.count.symm, h.idle⟩
    rw [h.inDown]
  | resume =>
    obtain ⟨⟨k, old⟩, hd⟩ := Option.isSome_iff_exists.mp he
    apply (resume_looked hd b s' hrun).beside _ id ha
    rintro rfl
    exact ha old hd

/-- The thread is in the loop of `sema_down` but no longer on the list of the semaphore: it has been woken up and has not yet
looked at the value again. -/
def Woken (s : Sched) (m t : ℕ) : Prop := (∃ old, s.inDown t = some (m, old)) ∧ t ∉ s.waiters m

structure WakeInv (s : Sched) : Prop where
  loop : ∀ m, ∀ t ∈ s.waiters m, ∃ old, s.inDown t = some (m, old)
  new : ∀ t, s.count ≤ t → s.inDown t = none
  pending : ∀ m, s.value m = 1 → s.waiters m ≠ [] → ∃ t, Woken s m t ∧ Awake s t

theorem WakeInv.same {s s' : Sched} (h : WakeInv s) (hs : SameWaits s s') (hr : s.inDown s.running = none) : WakeInv s' := by
  constructor
  · rw [hs.waiters, hs.inDown]
    exact h.loop
  · intro t ht
    rw [hs.inDown]
    apply h.new
    exact le_trans hs.count ht
  · intro m hv hw
    rw [hs.value] at hv
    rw [hs.waiters] at hw
    obtain ⟨t, ⟨⟨old, ht⟩, hout⟩, hawake⟩ := h.pending m hv hw
    have hne : t ≠ s.running := by
      rintro rfl
      rw [hr] at ht
      cases ht
    refine ⟨t, ⟨⟨old, ?_⟩, ?_⟩, hs.awake t hne hawake⟩
    · rw [hs.inDown]
      exact ht
    · rw [hs.waiters]
      exact hout

theorem WakeInv.entered {s : Sched} (h : WakeInv s) (inv : SchedInv s) (hr : s.inDown s.running = none) (m : ℕ) :
    WakeInv (entered m s) := by
  constructor
  · intro m' t ht
    have hne : t ≠ s.running := by
      rintro rfl
      exact inv.not_waiting m' ht
    rw [entered_other hne]
    exact h.loop m' t ht
  · intro t ht
    have hne : t ≠ s.running := by
      rintro rfl
      exact absurd inv.current (not_lt_of_ge ht)
    rw [entered_other hne]
    exact h.new t ht
  · intro m' hv hw
    obtain ⟨t, ⟨⟨old, ht⟩, hout⟩, hawake⟩ := h.pending m' hv hw
    have hne : t ≠ s.running := by
      rintro rfl
      rw [hr] at ht
      cases ht
    refine ⟨t, ⟨⟨old, ?_⟩, hout⟩, hawake⟩
    rw [entered_other hne]
    exact ht

theorem WakeInv.round {s : Sched} (h : WakeInv s) (inv : SchedInv s) {m : ℕ} {old old' : Bool}
    (hr : s.inDown s.running = some (m, old')) : After (semaDownRound m old) s fun _ s' => WakeInv s' := by
  intro b s' hrun
  have hother : ∀ m' t, m' ≠ m → (∃ old, s.inDown t = some (m', old)) → t ≠ s.running := by
    rintro m' t hm ⟨old₁, ht⟩ rfl
    rw [hr] at ht
    cases ht
    exact hm rfl
  rcases semaDownRound_after m old s b s' hrun with ⟨hv, rfl⟩ | ⟨hv, hnot, hs⟩
  · constructor
    · intro m' t ht
      have hne : t ≠ s.running := by
        rintro rfl
        exact inv.not_waiting m' ht
      obtain ⟨old₁, hd⟩ := h.loop m' t ht
      exact ⟨old₁, (Function.update_of_ne hne _ _).trans hd⟩
    · intro t ht
      have hne : t ≠ s.running := by
        rintro rfl
        exact absurd inv.current (not_lt_of_ge ht)
      exact (Function.update_of_ne hne _ _).trans (h.new t ht)
    · intro m' hv' hw
      have hm : m' ≠ m := by
        rintro rfl
        simp [took] at hv'
      obtain ⟨t, ⟨hloop, hout⟩, hawake⟩ := h.pending m' ((Function.update_of_ne hm _ _).symm.trans hv') hw
      have hne := hother m' t hm hloop
      obtain ⟨old₁, hd⟩ := hloop
      exact ⟨t, ⟨⟨old₁, (Function.update_of_ne hne _ _).trans hd⟩, hout⟩, hawake⟩
  · constructor
    · intro m' t ht
      rw [hs.waiters] at ht
      rw [hs.inDown]
      by_cases hm : m' = m
      · subst hm
        rw [queuedUp_self, List.mem_append, List.mem_singleton] at ht
        rcases ht with ht | rfl
        · exact h.loop m' t ht
        · exact ⟨old', hr⟩
      · rw [queuedUp_other hm] at ht
        exact h.loop m' t ht
    · intro t ht
      rw [hs.inDown]
      exact h.new t (le_trans hs.count ht)
    · intro m' hv' hw
      rw [hs.value] at hv'
      have hm : m' ≠ m := by
        rintro rfl
        exact absurd (hv.symm.trans hv') (by decide)
      rw [hs.waiters, queuedUp_other hm] at hw
      obtain ⟨t, ⟨hloop, hout⟩, hawake⟩ := h.pending m' hv' hw
      refine ⟨t, ⟨?_, ?_⟩, hs.awake t (hother m' t hm hloop) hawake⟩
      · rw [hs.inDown]
        exact hloop
      · rw [hs.waiters, queuedUp_other hm]
        exact hout

theorem WakeInv.up {s : Sched} (h : WakeInv s) (inv : SchedInv s) (m : ℕ) : After (semaUp m) s fun _ s' => WakeInv s' := by
  intro b s' hrun
  obtain ⟨hv, ⟨hempty, rfl⟩ | ⟨t, rest, hw, rfl⟩⟩ := semaUp_after m s b s' hrun
  · refine ⟨h.loop, h.new, ?_⟩
    intro m' hv' hw'
    have hm : m' ≠ m := by
      rintro rfl
      exact hw' hempty
    exact h.pending m' ((Function.update_of_ne hm _ _).symm.trans hv') hw'
  · have hnodup := inv.waitNodup m
    rw [hw, List.nodup_cons] at hnodup
    have hsub : ∀ m' u, u ∈ (raised m (woke m t rest s)).waiters m' → u ∈ s.waiters m' := by
      intro m' u hu
      by_cases hm : m' = m
      · subst hm
        rw [woke_self] at hu
        rw [hw]
        exact List.mem_cons_of_mem t hu
      · rwa [woke_other hm] at hu
    refine ⟨fun m' u hu => h.loop m' u (hsub m' u hu), h.new, ?_⟩
    intro m' hv' hw'
    by_cases hm : m' = m
    · subst hm
      refine ⟨t, ⟨h.loop m' t ?_, ?_⟩, .inl (Function.update_self _ _ _)⟩
      · rw [hw]
        exact List.mem_cons_self
      · rw [woke_self]
        exact hnodup.1
    · rw [woke_other hm] at hw'
      obtain ⟨u, ⟨hloop, hout⟩, hawake⟩ := h.pending m' ((Function.update_of_ne hm _ _).symm.trans hv') hw'
      exact ⟨u, ⟨hloop, fun hu => hout (hsub m' u hu)⟩, awake_update (.inl rfl) hawake⟩

theorem WakeInv.step {s : Sched} (h : WakeInv s) (inv : SchedInv s) {op : Op} (he : op.Enabled s) :
    After op.run s fun _ s' => WakeInv s' := by
  have hnew := h.new s.count (le_refl _)
  have hquiet : op.Quiet → s.inDown s.running = none → After op.run s fun _ s' => WakeInv s' := by
    intro hq hr b s' hrun
    exact h.same (hq.after hnew b s' hrun) hr
  cases op with
  | threadStart prio => exact hquiet trivial he
  | timer => exact hquiet trivial he.1
  | threadYield => exact hquiet trivial he
  | threadBlock stat => exact hquiet trivial he.1
  | threadUnblock t => exact hquiet trivial he.1
  | semaDown m =>
    change After (semaDown m) s _
    unfold semaDown
    apply After.intrDisable
    apply After.modify
    exact (h.entered inv he.1 m).round (inv.entered he.2 m) (Function.update_self _ _ _)
  | semaUp m => exact h.up inv m
  | resume =>
    obtain ⟨⟨m, old⟩, hd⟩ := Option.isSome_iff_exists.mp he
    intro b s' hrun
    rw [resume_run hd] at hrun
    exact h.round inv hd b s' hrun

theorem afterInit_wakeInv (value : ℕ → ℕ) : WakeInv (afterInit value) := by
  refine ⟨fun m t ht => ?_, fun t _ => rfl, fun m _ hw => absurd rfl hw⟩
  cases ht

theorem Reachable.wakeInv {value : ℕ → ℕ} {s : Sched} (h : Reachable value s) : WakeInv s := by
  induction h with
  | init => exact afterInit_wakeInv value
  | intr b _ _ ih => exact ⟨ih.loop, ih.new, ih.pending⟩
  | step hreach he hrun ih => exact ih.step hreach.inv he _ _ hrun

theorem Woken.of_round {s s' : Sched} {m : ℕ} {old : Bool} {u : Unit} (hrun : semaDownRound m old s = .ok (u, s'))
    (hr : ∃ old', s.inDown s.running = some (m, old')) {k t : ℕ} (h : Woken s' k t) : t ≠ s.running ∧ Woken s k t := by
  obtain ⟨old', hr⟩ := hr
  obtain ⟨⟨old₁, hd⟩, hout⟩ := h
  rcases semaDownRound_after m old s u s' hrun with ⟨hv, rfl⟩ | ⟨hv, hnot, hs⟩
  · have hne : t ≠ s.running := by
      rintro rfl
      simp [took] at hd
    exact ⟨hne, ⟨old₁, (Function.update_of_ne hne _ _).symm.trans hd⟩, hout⟩
  · rw [hs.inDown] at hd
    rw [hs.waiters] at hout
    have hne : t ≠ s.running := by
      rintro rfl
      obtain ⟨rfl, -⟩ := Prod.mk.inj (Option.some.inj (hr.symm.trans hd))
      rw [queuedUp_self] at hout
      exact hout (by simp)
    refine ⟨hne, ⟨old₁, hd⟩, ?_⟩
    intro hin
    apply hout
    by_cases hk : k = m
    · subst hk
      rw [queuedUp_self]
      exact List.mem_append_left _ hin
    · rw [queuedUp_other hk]
      exact hin

theorem Woken.by_up {s s' : Sched} (hnew : s.inDown s.count = none) {op : Op} (he : op.Enabled s) {u : Unit}
    (hrun : op.run s = .ok (u, s')) {m t : ℕ} (h : ¬ Woken s m t) (h' : Woken s' m t) :
    op = .semaUp m ∧ t ∈ s.waiters m ∧ s'.status t = .ready := by
  have hquiet : ¬ op.Quiet := by
    intro hq
    have hs := hq.after hnew u s' hrun
    apply h
    unfold Woken at h'
    rwa [hs.inDown, hs.waiters] at h'
  cases op with
  | threadStart prio => exact absurd trivial hquiet
  | timer => exact absurd trivial hquiet
  | threadYield => exact absurd trivial hquiet
  | threadBlock stat => exact absurd trivial hquiet
  | threadUnblock v => exact absurd trivial hquiet
  | semaDown k =>
    have hround : semaDownRound k s.intr (entered k s) = .ok (u, s') := hrun
    obtain ⟨hne, ⟨old, hd⟩, hout⟩ := h'.of_round hround ⟨s.intr, Function.update_self _ _ _⟩
    have hother : (entered k s).inDown t = s.inDown t := Function.update_of_ne hne _ _
    exact absurd ⟨⟨old, hother.symm.trans hd⟩, hout⟩ h
  | semaUp k =>
    obtain ⟨hv, ⟨hempty, rfl⟩ | ⟨v, rest, hw, rfl⟩⟩ := semaUp_after k s u s' hrun
    · exact absurd h' h
    · obtain ⟨hd, hout⟩ := h'
      have hin : t ∈ s.waiters m := by
        by_contra hnot
        exact h ⟨hd, hnot⟩
      by_cases hm : m = k
      · subst hm
        rw [woke_self] at hout
        have ht : t = v := by
          rw [hw, List.mem_cons] at hin
          exact hin.resolve_right hout
        subst ht
        exact ⟨rfl, hin, Function.update_self _ _ _⟩
      · rw [woke_other hm] at hout
        exact absurd hin hout
  | resume =>
    obtain ⟨⟨k, old⟩, hd⟩ := Option.isSome_iff_exists.mp he
    rw [resume_run hd] at hrun
    exact absurd (h'.of_round hrun ⟨old, hd⟩).2 h

/-- No wakeup is lost: while a free semaphore has waiters, a thread taken off their list is on its way to the value. -/
theorem no_lost_wakeup (value : ℕ → ℕ) (s : Sched) (h : Reachable value s) (m : ℕ) :
    (s.value m = 1 → s.waiters m ≠ [] → ∃ t, Woken s m t ∧ (s.status t = .ready ∨ s.status t = .running)) ∧
      ∀ (op : Op) (s' : Sched) (t : ℕ), op.Enabled s → op.run s = .ok ((), s') → ¬ Woken s m t → Woken s' m t →
        op = .semaUp m ∧ t ∈ s.waiters m ∧ s'.status t = .ready := by
  have inv := h.wakeInv
  constructor
  · exact inv.pending m
  · intro op s' t he hrun hnot hwoken
    exact Woken.by_up (inv.new _ (le_refl _)) he hrun hnot hwoken

theorem no_lost_wakeup_two_waiters : Reachable (fun _ => 1) upWithTwoWaiters ∧ upWithTwoWaiters.waiters 0 = [3] ∧
    ∃ t, Woken upWithTwoWaiters 0 t ∧ (upWithTwoWaiters.status t = .ready ∨ upWithTwoWaiters.status t = .running) := by
  have h : Reachable (fun _ => 1) upWithTwoWaiters := Reachable.init.afterAll (by decide)
  exact ⟨h, by decide, (no_lost_wakeup _ _ h 0).1 (by decide) (by decide)⟩

end ElephantOS.Scheduler
