import ElephantOS.HaltingState

/-!
`thread/thread.c`, `thread/sync.c` and the timer interrupt: threads, the ready list and semaphores.
A thread is named by the order of its creation, and a list of `general_tag`s is the sequence of their threads.
-/

namespace ElephantOS.Scheduler

open HaltingState

inductive TaskStatus | running | ready | blocked | waiting | hanging | died
  deriving DecidableEq

def TaskStatus.Blocked (t : TaskStatus) : Prop := t = .blocked ∨ t = .waiting ∨ t = .hanging

instance (t : TaskStatus) : Decidable t.Blocked := inferInstanceAs (Decidable (_ ∨ _))

/-- The assertion that fails, by the function it stands in; `emptyPop` is `list_pop` on an empty list. -/
inductive Fault | schedule | threadUnblock | threadYield | threadStart | threadBlock | sema | emptyPop
  deriving DecidableEq

structure Sched where
  /-- threads created so far -/
  count : ℕ
  status : ℕ → TaskStatus
  priority : ℕ → ℕ
  ticks : ℕ → ℕ
  readyList : List ℕ
  /-- `running_thread()` -/
  running : ℕ
  idleThread : ℕ
  value : ℕ → ℕ
  waiters : ℕ → List ℕ
  /-- interrupts are on -/
  intr : Bool
  /-- the interrupt status each thread takes back when it is switched to -/
  saved : ℕ → Bool
  /-- the semaphore in whose `sema_down` loop a thread is, and the interrupt status to restore after it -/
  inDown : ℕ → Option (ℕ × Bool)

abbrev SchedM := Exec Fault Sched

def check (c : Prop) [Decidable c] (f : Fault) : SchedM Unit := if c then pure () else halt f

def intrDisable : SchedM Bool := do
  let s ← get
  set { s with intr := false }
  return s.intr

def intrSetStatus (old : Bool) : SchedM Unit := modify fun s => { s with intr := old }

def setStatus (t : ℕ) (stat : TaskStatus) (s : Sched) : Sched := { s with status := Function.update s.status t stat }

def threadUnblock (t : ℕ) : SchedM Unit := do
  let old ← intrDisable
  let s ← get
  check (s.status t).Blocked .threadUnblock
  check (t ∉ s.readyList) .threadUnblock
  modify fun s => setStatus t .ready { s with readyList := t :: s.readyList }
  intrSetStatus old

/-- The tail of `schedule`: the first ready thread goes on with the interrupt status it had. -/
def switchTo : SchedM Unit := do
  let s ← get
  match s.readyList with
  | [] => halt .emptyPop
  | next :: rest =>
    set (setStatus next .running { s with
      readyList := rest
      running := next
      intr := s.saved next })

def requeue (s : Sched) : Sched :=
  setStatus s.running .ready { s with
    readyList := s.readyList ++ [s.running]
    ticks := Function.update s.ticks s.running (s.priority s.running) }

def schedule : SchedM Unit := do
  let s ← get
  check (s.intr = false) .schedule
  if s.status s.running = .running then
    check (s.running ∉ s.readyList) .schedule
    modify requeue
  let s ← get
  if s.readyList = [] then threadUnblock s.idleThread
  switchTo

def threadBlock (stat : TaskStatus) : SchedM Unit := do
  check stat.Blocked .threadBlock
  let old ← intrDisable
  modify fun s => setStatus s.running stat { s with saved := Function.update s.saved s.running old }
  schedule

def threadYield : SchedM Unit := do
  let old ← intrDisable
  let s ← get
  check (s.running ∉ s.readyList) .threadYield
  modify fun s => setStatus s.running .ready { s with
    readyList := s.readyList ++ [s.running]
    saved := Function.update s.saved s.running old }
  schedule

def threadStart (prio : ℕ) : SchedM Unit := do
  let s ← get
  check (s.count ∉ s.readyList) .threadStart
  set (setStatus s.count .ready { s with
    count := s.count + 1
    priority := Function.update s.priority s.count prio
    ticks := Function.update s.ticks s.count prio
    readyList := s.readyList ++ [s.count]
    saved := Function.update s.saved s.count true
    inDown := Function.update s.inDown s.count none })

def intrTimerHandler : SchedM Unit := do
  let s ← get
  if s.ticks s.running = 0 then
    set { s with
      intr := false
      saved := Function.update s.saved s.running true }
    schedule
  else set { s with ticks := Function.update s.ticks s.running (s.ticks s.running - 1) }

/-- One round of the loop of `sema_down` on semaphore `m`, entered with interrupts `old`. -/
def semaDownRound (m : ℕ) (old : Bool) : SchedM Unit := do
  let s ← get
  if s.value m = 0 then
    check (s.running ∉ s.waiters m) .sema
    set { s with waiters := Function.update s.waiters m (s.waiters m ++ [s.running]) }
    threadBlock .blocked
  else
    check (s.value m - 1 = 0) .sema
    set { s with
      value := Function.update s.value m (s.value m - 1)
      inDown := Function.update s.inDown s.running none
      intr := old }

def semaDown (m : ℕ) : SchedM Unit := do
  let old ← intrDisable
  modify fun s => { s with inDown := Function.update s.inDown s.running (some (m, old)) }
  semaDownRound m old

def semaUp (m : ℕ) : SchedM Unit := do
  let old ← intrDisable
  let s ← get
  check (s.value m = 0) .sema
  match s.waiters m with
  | [] => pure ()
  | t :: rest =>
    set { s with waiters := Function.update s.waiters m rest }
    threadUnblock t
  modify fun s => { s with value := Function.update s.value m (s.value m + 1) }
  let s ← get
  check (s.value m = 1) .sema
  intrSetStatus old

/-- What can happen next: a call by the running thread, an interrupt, or the running thread, woken up
inside `sema_down`, looking at the semaphore again. -/
inductive Op
  | threadStart (prio : ℕ)
  | timer
  | threadYield
  | threadBlock (stat : TaskStatus)
  | threadUnblock (t : ℕ)
  | semaDown (m : ℕ)
  | semaUp (m : ℕ)
  | resume

/-- When an operation can happen. Inside `sema_down` interrupts are off; the timer needs them on; only a thread
that is blocked and waits for no semaphore is unblocked from outside; the idle thread never waits for a semaphore. -/
def Op.Enabled (s : Sched) : Op → Prop
  | .resume => (s.inDown s.running).isSome
  | .threadStart _ => s.inDown s.running = none
  | .timer => s.inDown s.running = none ∧ s.intr = true
  | .threadYield => s.inDown s.running = none
  | .threadBlock stat => s.inDown s.running = none ∧ stat.Blocked
  | .threadUnblock t => s.inDown s.running = none ∧ t < s.count ∧ (s.status t).Blocked ∧ ∀ m, t ∉ s.waiters m
  | .semaDown _ => s.inDown s.running = none ∧ s.running ≠ s.idleThread
  | .semaUp _ => s.inDown s.running = none

def Op.run : Op → SchedM Unit
  | .threadStart prio => Scheduler.threadStart prio
  | .timer => intrTimerHandler
  | .threadYield => Scheduler.threadYield
  | .threadBlock stat => Scheduler.threadBlock stat
  | .threadUnblock t => Scheduler.threadUnblock t
  | .semaDown m => Scheduler.semaDown m
  | .semaUp m => Scheduler.semaUp m
  | .resume => do
    let s ← get
    match s.inDown s.running with
    | some (m, old) => semaDownRound m old
    | none => pure ()

theorem resume_run {s : Sched} {m : ℕ} {old : Bool} (hr : s.inDown s.running = some (m, old)) :
    Op.resume.run s = semaDownRound m old s := by
  have hget : (get : SchedM Sched) s = .ok (s, s) := rfl
  rw [Op.run, bind_eq hget, hr]

/-- The end of `thread_init`: `main` runs, `idle` is ready; the semaphores are as they were initialised. -/
def afterInit (value : ℕ → ℕ) : Sched where
  count := 2
  status t := if t = 0 then .running else .ready
  priority t := if t = 0 then 31 else 10
  ticks t := if t = 0 then 31 else 10
  readyList := [1]
  running := 0
  idleThread := 1
  value := value
  waiters _ := []
  intr := false
  saved _ := true
  inDown _ := none

inductive Reachable (value : ℕ → ℕ) : Sched → Prop
  | init : Reachable value (afterInit value)
  | intr {s : Sched} (b : Bool) : Reachable value s → s.inDown s.running = none → Reachable value { s with intr := b }
  | step {s s' : Sched} {op : Op} {u : Unit} :
      Reachable value s → op.Enabled s → op.run s = .ok (u, s') → Reachable value s'

structure Queues (s : Sched) : Prop where
  current : s.running < s.count
  only : ∀ t < s.count, s.status t = .running → t = s.running
  ready : ∀ t, t ∈ s.readyList ↔ t < s.count ∧ s.status t = .ready
  nodup : s.readyList.Nodup
  wait : ∀ m, ∀ t ∈ s.waiters m, t < s.count ∧ s.status t = .blocked
  waitNodup : ∀ m, (s.waiters m).Nodup
  waitOne : ∀ m m' t, t ∈ s.waiters m → t ∈ s.waiters m' → m = m'
  idle : s.idleThread < s.count
  idleFree : ∀ m, s.idleThread ∉ s.waiters m
  alive : ∀ t < s.count, s.status t ≠ .died
  down : ∀ t, (s.inDown t).isSome → t ≠ s.idleThread

structure SchedInv (s : Sched) : Prop extends Queues s where
  run : s.status s.running = .running

theorem Runs.set {s s' : Sched} {α : Type} {f : PUnit → SchedM α} {Q : α → Sched → Prop} (h : Runs (f ⟨⟩) s' Q) :
    Runs ((MonadStateOf.set s' : SchedM PUnit) >>= f) s Q :=
  Runs.step (show (MonadStateOf.set s' : SchedM PUnit) s = .ok (⟨⟩, s') from rfl) h

theorem Runs.check {c : Prop} [Decidable c] {f : Fault} {s : Sched} {α : Type} {g : Unit → SchedM α} {Q : α → Sched → Prop}
    (hc : c) (h : Runs (g ()) s Q) : Runs (check c f >>= g) s Q :=
  Runs.step (show Scheduler.check c f s = .ok ((), s) by rw [Scheduler.check, if_pos hc]; rfl) h

theorem Runs.intrDisable {s : Sched} {α : Type} {g : Bool → SchedM α} {Q : α → Sched → Prop}
    (h : Runs (g s.intr) { s with intr := false } Q) : Runs (intrDisable >>= g) s Q :=
  Runs.step (show Scheduler.intrDisable s = .ok (s.intr, { s with intr := false }) from rfl) h

theorem threadUnblock_runs {t : ℕ} {s : Sched} (hb : (s.status t).Blocked) (hr : t ∉ s.readyList) :
    Runs (threadUnblock t) s fun _ s' => s' = setStatus t .ready { s with readyList := t :: s.readyList } := by
  unfold threadUnblock
  refine Runs.intrDisable (Runs.get (Runs.check hb (Runs.check hr (Runs.modify ?_))))
  exact ⟨(), _, rfl, rfl⟩

def Vacant (s : Sched) : Prop := ∀ t < s.count, s.status t ≠ .running

theorem Queues.requeue {s : Sched} (h : Queues s) (hr : s.status s.running = .running) :
    Queues (Scheduler.requeue s) ∧ Vacant (Scheduler.requeue s) := by
  have hnot : s.running ∉ s.readyList := by
    rw [h.ready, hr]
    simp
  have hstat : ∀ t, t ≠ s.running → (Scheduler.requeue s).status t = s.status t := fun t ht => Function.update_of_ne ht _ _
  have hself : (Scheduler.requeue s).status s.running = .ready := Function.update_self _ _ _
  refine ⟨⟨h.current, fun t ht hst => ?_, fun t => ?_, ?_, fun m t ht => ?_, h.waitNodup, h.waitOne, h.idle, h.idleFree,
    fun t ht => ?_, h.down⟩, fun t ht hst => ?_⟩
  · by_contra hne
    rw [hstat t hne] at hst
    exact hne (h.only t ht hst)
  · change t ∈ s.readyList ++ [s.running] ↔ t < s.count ∧ _
    rw [List.mem_append, List.mem_singleton, h.ready]
    by_cases he : t = s.running
    · rw [he, hself]
      simp [h.current]
    · rw [hstat t he]
      simp [he]
  · change (s.readyList ++ [s.running]).Nodup
    exact List.nodup_append.mpr ⟨h.nodup, List.nodup_singleton _, by
      rintro a ha b hb rfl
      rw [List.mem_singleton.mp hb] at ha
      exact hnot ha⟩
  · obtain ⟨h1, h2⟩ := h.wait m t ht
    have hne : t ≠ s.running := by
      rintro rfl
      rw [hr] at h2
      cases h2
    exact ⟨h1, by rw [hstat t hne]; exact h2⟩
  · by_cases he : t = s.running
    · rw [he, hself]
      simp
    · rw [hstat t he]
      exact h.alive t ht
  · by_cases he : t = s.running
    · rw [he, hself] at hst
      cases hst
    · rw [hstat t he] at hst
      exact he (h.only t ht hst)

theorem Queues.unblock {s : Sched} (h : Queues s) {t : ℕ} (ht : t < s.count) (hb : (s.status t).Blocked)
    (hw : ∀ m, t ∉ s.waiters m) : Queues (setStatus t .ready { s with readyList := t :: s.readyList }) := by
  have hne : ∀ st, st = .running ∨ st = .ready → s.status t ≠ st := by
    rintro st (rfl | rfl) he <;> rw [he] at hb <;> revert hb <;> decide
  have hnot : t ∉ s.readyList := fun hm => hne _ (.inr rfl) ((h.ready t).mp hm).2
  refine ⟨h.current, fun u hu hst => ?_, fun u => ?_, List.nodup_cons.mpr ⟨hnot, h.nodup⟩, fun m u hu => ?_, h.waitNodup,
    h.waitOne, h.idle, h.idleFree, fun u hu => ?_, h.down⟩
  all_goals simp only [setStatus] at *
  · by_cases he : u = t
    · rw [he, Function.update_self] at hst
      cases hst
    · rw [Function.update_of_ne he] at hst
      exact h.only u hu hst
  · rw [List.mem_cons, h.ready]
    by_cases he : u = t
    · rw [he, Function.update_self]
      simp [ht]
    · rw [Function.update_of_ne he]
      simp [he]
  · obtain ⟨h1, h2⟩ := h.wait m u hu
    have he : u ≠ t := by
      rintro rfl
      exact hw m hu
    exact ⟨h1, by rw [Function.update_of_ne he]; exact h2⟩
  · by_cases he : u = t
    · rw [he, Function.update_self]
      simp
    · rw [Function.update_of_ne he]
      exact h.alive u hu

theorem Queues.switch {s : Sched} (h : Queues s) (hv : Vacant s) {next : ℕ} {rest : List ℕ} (hl : s.readyList = next :: rest)
    (intr : Bool) : SchedInv (setStatus next .running { s with
      readyList := rest
      running := next
      intr := intr }) := by
  have hnext := (h.ready next).mp (by rw [hl]; exact List.mem_cons_self)
  have hnd := h.nodup
  rw [hl] at hnd
  obtain ⟨hnot, hnd⟩ := List.nodup_cons.mp hnd
  refine ⟨⟨hnext.1, fun t ht hst => ?_, fun t => ?_, hnd, fun m t ht => ?_, h.waitNodup, h.waitOne, h.idle, h.idleFree,
    fun t ht => ?_, h.down⟩, ?_⟩
  all_goals simp only [setStatus] at *
  · by_contra he
    rw [Function.update_of_ne he] at hst
    exact hv t ht hst
  · by_cases he : t = next
    · rw [he, Function.update_self]
      simp [hnot]
    · have := h.ready t
      rw [hl, List.mem_cons] at this
      rw [Function.update_of_ne he, ← this]
      simp [he]
  · obtain ⟨h1, h2⟩ := h.wait m t ht
    have he : t ≠ next := by
      rintro rfl
      rw [hnext.2] at h2
      cases h2
    exact ⟨h1, by rw [Function.update_of_ne he]; exact h2⟩
  · by_cases he : t = next
    · rw [he, Function.update_self]
      simp
    · rw [Function.update_of_ne he]
      exact h.alive t ht
  · exact Function.update_self _ _ _

theorem switchTo_runs {s : Sched} (h : Queues s) (hv : Vacant s) (hl : s.readyList ≠ []) :
    Runs switchTo s fun _ s' => SchedInv s' := by
  unfold switchTo
  refine Runs.get ?_
  cases he : s.readyList with
  | nil => exact absurd he hl
  | cons next rest => exact ⟨(), _, rfl, h.switch hv he _⟩

theorem Queues.idle_blocked {s : Sched} (h : Queues s) (hv : Vacant s) (hl : s.readyList = []) :
    (s.status s.idleThread).Blocked := by
  have h1 := hv _ h.idle
  have h2 := h.alive _ h.idle
  have h3 : s.status s.idleThread ≠ .ready := by
    intro he
    have := (h.ready s.idleThread).mpr ⟨h.idle, he⟩
    rw [hl] at this
    cases this
  cases hs : s.status s.idleThread <;> simp_all [TaskStatus.Blocked]

theorem schedule_tail {s : Sched} (h : Queues s) (hv : Vacant s) :
    Runs (do
      let s ← get
      if s.readyList = [] then threadUnblock s.idleThread
      switchTo) s fun _ s' => SchedInv s' := by
  refine Runs.get ?_
  by_cases hl : s.readyList = []
  · rw [if_pos hl]
    have hb := h.idle_blocked hv hl
    refine Runs.bind (threadUnblock_runs hb (by rw [hl]; exact List.not_mem_nil)) ?_
    rintro _ _ rfl
    refine switchTo_runs (h.unblock h.idle hb h.idleFree) (fun t ht hst => ?_) (by simp [setStatus])
    simp only [setStatus] at ht hst
    by_cases he : t = s.idleThread
    · rw [he, Function.update_self] at hst
      cases hst
    · rw [Function.update_of_ne he] at hst
      exact hv t ht hst
  · rw [if_neg hl]
    exact switchTo_runs h hv hl

theorem schedule_runs {s : Sched} (h : Queues s) (hi : s.intr = false) : Runs schedule s fun _ s' => SchedInv s' := by
  unfold schedule
  refine Runs.get (Runs.check hi ?_)
  by_cases hr : s.status s.running = .running
  · rw [if_pos hr]
    have hnot : s.running ∉ s.readyList := by
      rw [h.ready, hr]
      simp
    obtain ⟨hq, hv⟩ := h.requeue hr
    exact Runs.check hnot (Runs.modify (schedule_tail hq hv))
  · rw [if_neg hr]
    refine schedule_tail h fun t ht hst => ?_
    rw [h.only t ht hst] at hst
    exact hr hst

theorem Queues.other {s : Sched} (h : Queues s) (intr : Bool) (saved : ℕ → Bool) (ticks value : ℕ → ℕ) :
    Queues { s with
      intr := intr
      saved := saved
      ticks := ticks
      value := value } :=
  ⟨h.current, h.only, h.ready, h.nodup, h.wait, h.waitNodup, h.waitOne, h.idle, h.idleFree, h.alive, h.down⟩

theorem SchedInv.not_ready {s : Sched} (h : SchedInv s) : s.running ∉ s.readyList := by
  rw [h.ready, h.run]
  simp

theorem SchedInv.not_waiting {s : Sched} (h : SchedInv s) (m : ℕ) : s.running ∉ s.waiters m := by
  intro hm
  have := (h.wait m _ hm).2
  rw [h.run] at this
  cases this

theorem SchedInv.block {s : Sched} (h : SchedInv s) {stat : TaskStatus} (hs : stat.Blocked) {W : ℕ → List ℕ}
    (hW : ∀ m t, t ∈ W m → t ∈ s.waiters m ∨ t = s.running ∧ stat = .blocked ∧ s.running ≠ s.idleThread)
    (hn : ∀ m, (W m).Nodup) (ho : ∀ m m' t, t ∈ W m → t ∈ W m' → m = m') :
    Queues (setStatus s.running stat { s with waiters := W }) := by
  have hst : stat ≠ .running ∧ stat ≠ .ready ∧ stat ≠ .died := by
    rcases hs with rfl | rfl | rfl <;> simp
  refine ⟨h.current, fun t ht hst' => ?_, fun t => ?_, h.nodup, fun m t ht => ?_, hn, ho, h.idle, fun m hm => ?_,
    fun t ht => ?_, h.down⟩
  all_goals simp only [setStatus] at *
  · by_contra he
    rw [Function.update_of_ne he] at hst'
    exact he (h.only t ht hst')
  · by_cases he : t = s.running
    · rw [he, Function.update_self]
      simp [h.not_ready, hst.2.1]
    · rw [Function.update_of_ne he]
      exact h.ready t
  · rcases hW m t ht with hw | ⟨rfl, rfl, -⟩
    · have he : t ≠ s.running := by
        rintro rfl
        exact h.not_waiting m hw
      rw [Function.update_of_ne he]
      exact h.wait m t hw
    · exact ⟨h.current, Function.update_self _ _ _⟩
  · rcases hW m _ hm with hw | ⟨he, -, hne⟩
    · exact h.idleFree m hw
    · exact hne he.symm
  · by_cases he : t = s.running
    · rw [he, Function.update_self]
      exact hst.2.2
    · rw [Function.update_of_ne he]
      exact h.alive t ht

theorem threadBlock_runs {s : Sched} {stat : TaskStatus} {W : ℕ → List ℕ} (hs : stat.Blocked)
    (h : Queues (setStatus s.running stat { s with waiters := W })) :
    Runs (threadBlock stat) { s with waiters := W } fun _ s' => SchedInv s' := by
  unfold threadBlock
  refine Runs.check hs (Runs.intrDisable (Runs.modify ?_))
  exact schedule_runs (h.other false _ s.ticks s.value) rfl

theorem threadYield_runs {s : Sched} (h : SchedInv s) : Runs threadYield s fun _ s' => SchedInv s' := by
  unfold threadYield
  refine Runs.intrDisable (Runs.get (Runs.check h.not_ready (Runs.modify ?_)))
  exact schedule_runs ((h.toQueues.requeue h.run).1.other false _ s.ticks s.value) rfl

theorem intrTimerHandler_runs {s : Sched} (h : SchedInv s) : Runs intrTimerHandler s fun _ s' => SchedInv s' := by
  unfold intrTimerHandler
  refine Runs.get ?_
  split_ifs with ht
  · exact Runs.set (schedule_runs (h.toQueues.other false _ s.ticks s.value) rfl)
  · exact ⟨(), _, rfl, h.toQueues.other s.intr s.saved _ s.value, h.run⟩

theorem SchedInv.start {s : Sched} (h : SchedInv s) (priority ticks : ℕ → ℕ) (saved : ℕ → Bool) :
    SchedInv (setStatus s.count .ready { s with
      count := s.count + 1
      priority := priority
      ticks := ticks
      readyList := s.readyList ++ [s.count]
      saved := saved
      inDown := Function.update s.inDown s.count none }) := by
  have hnew : s.count ∉ s.readyList := by
    rw [h.ready]
    simp
  have hne : ∀ t < s.count, t ≠ s.count := fun t ht => by omega
  refine ⟨⟨Nat.lt_succ_of_lt h.current, fun t ht hst => ?_, fun t => ?_, ?_, fun m t ht => ?_, h.waitNodup, h.waitOne,
    Nat.lt_succ_of_lt h.idle, h.idleFree, fun t ht => ?_, fun t ht => ?_⟩, ?_⟩
  all_goals simp only [setStatus] at *
  · by_cases he : t = s.count
    · rw [he, Function.update_self] at hst
      cases hst
    · rw [Function.update_of_ne he] at hst
      exact h.only t (by omega) hst
  · rw [List.mem_append, List.mem_singleton, h.ready]
    by_cases he : t = s.count
    · rw [he, Function.update_self]
      simp
    · rw [Function.update_of_ne he]
      simp only [he, or_false, and_congr_left_iff]
      omega
  · refine List.nodup_append.mpr ⟨h.nodup, List.nodup_singleton _, ?_⟩
    rintro a ha b hb rfl
    rw [List.mem_singleton.mp hb] at ha
    exact hnew ha
  · obtain ⟨h1, h2⟩ := h.wait m t ht
    exact ⟨by omega, by rw [Function.update_of_ne (hne t h1)]; exact h2⟩
  · by_cases he : t = s.count
    · rw [he, Function.update_self]
      simp
    · rw [Function.update_of_ne he]
      exact h.alive t (by omega)
  · by_cases he : t = s.count
    · have := h.idle
      omega
    · rw [Function.update_of_ne he] at ht
      exact h.down t ht
  · rw [Function.update_of_ne (hne _ h.current)]
    exact h.run

theorem threadStart_runs {s : Sched} (h : SchedInv s) (prio : ℕ) : Runs (threadStart prio) s fun _ s' => SchedInv s' := by
  unfold threadStart
  refine Runs.get (Runs.check ?_ ⟨(), _, rfl, h.start _ _ _⟩)
  rw [h.ready]
  simp

/-- The operation either completes with `Q` or fails an assertion of `sema_down` or `sema_up`. -/
def Completes (m : SchedM Unit) (s : Sched) (Q : Sched → Prop) : Prop :=
  (∃ s', m s = .ok ((), s') ∧ Q s') ∨ m s = .error .sema

theorem Runs.completes {m : SchedM Unit} {s : Sched} {Q : Sched → Prop} (h : Runs m s fun _ s' => Q s') : Completes m s Q := by
  obtain ⟨_, s', hm, hq⟩ := h
  exact .inl ⟨s', hm, hq⟩

theorem Completes.check {c : Prop} [Decidable c] {s : Sched} {g : Unit → SchedM Unit} {Q : Sched → Prop}
    (h : c → Completes (g ()) s Q) : Completes (Scheduler.check c .sema >>= g) s Q := by
  by_cases hc : c
  · have hm : (Scheduler.check c .sema : SchedM Unit) s = .ok ((), s) := by rw [Scheduler.check, if_pos hc]; rfl
    unfold Completes
    rw [bind_eq hm]
    exact h hc
  · refine .inr (bind_error ?_ g)
    rw [Scheduler.check, if_neg hc]
    rfl

theorem Completes.step {α : Type} {m : SchedM α} {s s' : Sched} {a : α} {g : α → SchedM Unit} {Q : Sched → Prop}
    (hm : m s = .ok (a, s')) (h : Completes (g a) s' Q) : Completes (m >>= g) s Q := by
  unfold Completes
  rw [bind_eq hm]
  exact h

theorem SchedInv.queueUp {s : Sched} (h : SchedInv s) (hidle : s.running ≠ s.idleThread) {m : ℕ} (hnot : s.running ∉ s.waiters m) :
    Queues (setStatus s.running .blocked { s with waiters := Function.update s.waiters m (s.waiters m ++ [s.running]) }) := by
  refine h.block (.inl rfl) (fun m' t ht => ?_) (fun m' => ?_) (fun m1 m2 t h1 h2 => ?_)
  · by_cases he : m' = m
    · rw [he, Function.update_self, List.mem_append, List.mem_singleton] at ht
      rcases ht with ht | ht
      · exact .inl (he ▸ ht)
      · exact .inr ⟨ht, rfl, hidle⟩
    · rw [Function.update_of_ne he] at ht
      exact .inl ht
  · by_cases he : m' = m
    · rw [he, Function.update_self]
      refine List.nodup_append.mpr ⟨h.waitNodup m, List.nodup_singleton _, ?_⟩
      rintro a ha b hb rfl
      rw [List.mem_singleton.mp hb] at ha
      exact hnot ha
    · rw [Function.update_of_ne he]
      exact h.waitNodup m'
  · -- the running thread was on no list, every other thread only on one
    have hmem : ∀ m', t ∈ Function.update s.waiters m (s.waiters m ++ [s.running]) m' →
        t ∈ s.waiters m' ∨ t = s.running ∧ m' = m := by
      intro m' ht
      by_cases he : m' = m
      · rw [he, Function.update_self, List.mem_append, List.mem_singleton] at ht
        rw [he]
        simpa using ht
      · rw [Function.update_of_ne he] at ht
        exact .inl ht
    rcases hmem m1 h1 with h1 | ⟨rfl, rfl⟩ <;> rcases hmem m2 h2 with h2 | ⟨e2, e2'⟩
    · exact h.waitOne m1 m2 t h1 h2
    · exact absurd (e2 ▸ h1) (h.not_waiting m1)
    · exact absurd h2 (h.not_waiting m2)
    · exact e2'.symm

theorem semaDownRound_completes {s : Sched} (h : SchedInv s) (hidle : s.running ≠ s.idleThread) (m : ℕ) (old : Bool) :
    Completes (semaDownRound m old) s SchedInv := by
  unfold semaDownRound
  refine Completes.step (show (get : SchedM Sched) s = .ok (s, s) from rfl) ?_
  split_ifs with hv
  · exact Completes.check fun hnot => Runs.completes (Runs.set (threadBlock_runs (.inl rfl) (h.queueUp hidle hnot)))
  · refine Completes.check fun _ => .inl ⟨_, rfl, ?_⟩
    refine ⟨⟨h.current, h.only, h.ready, h.nodup, h.wait, h.waitNodup, h.waitOne, h.idle, h.idleFree, h.alive, fun t ht => ?_⟩,
      h.run⟩
    by_cases he : t = s.running
    · rw [he]
      exact hidle
    · simp only [Function.update_of_ne he] at ht
      exact h.down t ht

theorem semaDown_completes {s : Sched} (h : SchedInv s) (hidle : s.running ≠ s.idleThread) (m : ℕ) :
    Completes (semaDown m) s SchedInv := by
  have hinv : SchedInv { s with intr := false, inDown := Function.update s.inDown s.running (some (m, s.intr)) } := by
    refine ⟨⟨h.current, h.only, h.ready, h.nodup, h.wait, h.waitNodup, h.waitOne, h.idle, h.idleFree, h.alive,
      fun t ht => ?_⟩, h.run⟩
    by_cases he : t = s.running
    · rw [he]
      exact hidle
    · simp only [Function.update_of_ne he] at ht
      exact h.down t ht
  unfold semaDown
  apply Completes.step (show intrDisable s = .ok (s.intr, { s with intr := false }) from rfl)
  apply Completes.step (modify_eq _ _)
  exact semaDownRound_completes hinv hidle m s.intr

theorem SchedInv.pop {s : Sched} (h : SchedInv s) {m t : ℕ} {rest : List ℕ} (hw : s.waiters m = t :: rest) :
    SchedInv { s with waiters := Function.update s.waiters m rest } ∧
      ∀ m', t ∉ Function.update s.waiters m rest m' := by
  have hsub : ∀ m' u, u ∈ Function.update s.waiters m rest m' → u ∈ s.waiters m' := by
    intro m' u hu
    by_cases he : m' = m
    · rw [he, Function.update_self] at hu
      rw [he, hw]
      exact List.mem_cons_of_mem _ hu
    · rwa [Function.update_of_ne he] at hu
  have hnd := h.waitNodup m
  rw [hw] at hnd
  refine ⟨⟨⟨h.current, h.only, h.ready, h.nodup, fun m' u hu => h.wait m' u (hsub m' u hu), fun m' => ?_,
    fun m1 m2 u h1 h2 => h.waitOne m1 m2 u (hsub m1 u h1) (hsub m2 u h2), h.idle, fun m' hm => h.idleFree m' (hsub m' _ hm),
    h.alive, h.down⟩, h.run⟩, fun m' ht => ?_⟩
  · by_cases he : m' = m
    · simp only [he, Function.update_self]
      exact (List.nodup_cons.mp hnd).2
    · simp only [Function.update_of_ne he]
      exact h.waitNodup m'
  · have he := h.waitOne m' m t (hsub m' t ht) (by rw [hw]; exact List.mem_cons_self)
    rw [he, Function.update_self] at ht
    exact (List.nodup_cons.mp hnd).1 ht

theorem SchedInv.unblock {s : Sched} (h : SchedInv s) {t : ℕ} (ht : t < s.count) (hb : (s.status t).Blocked)
    (hw : ∀ m, t ∉ s.waiters m) : SchedInv (setStatus t .ready { s with readyList := t :: s.readyList }) := by
  refine ⟨h.toQueues.unblock ht hb hw, ?_⟩
  have hne : s.running ≠ t := by
    rintro rfl
    rw [h.run] at hb
    revert hb
    decide
  exact (Function.update_of_ne hne _ _).trans h.run

theorem SchedInv.unblock_runs {s : Sched} (h : SchedInv s) {t : ℕ} (ht : t < s.count) (hb : (s.status t).Blocked)
    (hw : ∀ m, t ∉ s.waiters m) : Runs (threadUnblock t) s fun _ s' => SchedInv s' := by
  refine (threadUnblock_runs hb fun hm => ?_).mono ?_
  · have := ((h.ready t).mp hm).2
    rw [this] at hb
    revert hb
    decide
  · rintro _ _ rfl
    exact h.unblock ht hb hw

theorem semaUp_tail {s : Sched} (h : SchedInv s) (m : ℕ) (old : Bool) :
    Completes (do
      modify fun s => { s with value := Function.update s.value m (s.value m + 1) }
      let s ← get
      check (s.value m = 1) .sema
      intrSetStatus old) s SchedInv := by
  refine Completes.step (modify_eq _ _) (Completes.step (show (get : SchedM Sched) _ = .ok (_, _) from rfl)
    (Completes.check fun _ => .inl ⟨_, rfl, h.toQueues.other old s.saved s.ticks _, h.run⟩))

theorem semaUp_completes {s : Sched} (h : SchedInv s) (m : ℕ) : Completes (semaUp m) s SchedInv := by
  have h0 : SchedInv { s with intr := false } := ⟨h.toQueues.other false s.saved s.ticks s.value, h.run⟩
  unfold semaUp
  refine Completes.step (show intrDisable s = .ok (s.intr, { s with intr := false }) from rfl)
    (Completes.step (show (get : SchedM Sched) _ = .ok (_, _) from rfl) (Completes.check fun _ => ?_))
  cases hw : s.waiters m with
  | nil =>
    exact semaUp_tail h0 m s.intr
  | cons t rest =>
    obtain ⟨h1, hnone⟩ := h0.pop hw
    obtain ⟨hlt, hst⟩ := h.wait m t (by rw [hw]; exact List.mem_cons_self)
    obtain ⟨_, s2, hrun, h2⟩ := h1.unblock_runs hlt (.inl hst) hnone
    refine Completes.step (show (MonadStateOf.set _ : SchedM PUnit) _ = .ok (⟨⟩, _) from rfl) (Completes.step hrun ?_)
    exact semaUp_tail h2 m s.intr

theorem Op.completes {s : Sched} (h : SchedInv s) {op : Op} (he : op.Enabled s) : Completes op.run s SchedInv := by
  cases op with
  | threadStart prio => exact Runs.completes (threadStart_runs h prio)
  | timer => exact Runs.completes (intrTimerHandler_runs h)
  | threadYield => exact Runs.completes (threadYield_runs h)
  | threadBlock stat =>
    refine Runs.completes (threadBlock_runs (W := s.waiters) he.2 ?_)
    exact h.block he.2 (fun m t ht => .inl ht) h.waitNodup h.waitOne
  | threadUnblock t => exact Runs.completes (h.unblock_runs he.2.1 he.2.2.1 he.2.2.2)
  | semaDown m => exact semaDown_completes h he.2 m
  | semaUp m => exact semaUp_completes h m
  | resume =>
    obtain ⟨⟨m, old⟩, hd⟩ := Option.isSome_iff_exists.mp he
    refine Completes.step (show (get : SchedM Sched) s = .ok (s, s) from rfl) ?_
    simp only [hd]
    exact semaDownRound_completes h (h.down _ (by rw [hd]; rfl)) m old

theorem afterInit_inv (value : ℕ → ℕ) : SchedInv (afterInit value) := by
  refine ⟨⟨show 0 < 2 by decide, fun t ht hst => ?_, fun t => ?_, List.nodup_singleton 1, fun m t ht => ?_,
    fun m => List.nodup_nil, fun m m' t ht => ?_, show 1 < 2 by decide, fun m => List.not_mem_nil, fun t ht => ?_, fun t ht => ?_⟩, rfl⟩
  · simp only [afterInit] at hst ⊢
    by_contra he
    simp [he] at hst
  · simp only [afterInit, List.mem_singleton]
    constructor
    · rintro rfl
      decide
    · rintro ⟨h1, h2⟩
      by_contra he
      have h0 : t = 0 := by omega
      simp [h0] at h2
  · cases ht
  · cases ht
  · simp only [afterInit]
    split_ifs <;> simp
  · simp [afterInit] at ht

theorem Reachable.inv {value : ℕ → ℕ} {s : Sched} (h : Reachable value s) : SchedInv s := by
  induction h with
  | init => exact afterInit_inv value
  | @intr s b _ _ ih => exact ⟨ih.toQueues.other b s.saved s.ticks s.value, ih.run⟩
  | step _ he hrun ih =>
    rcases Op.completes ih he with ⟨_, hok, hinv⟩ | herr
    · rw [hok] at hrun
      obtain ⟨-, rfl⟩ := Prod.mk.inj (Except.ok.inj hrun)
      exact hinv
    · rw [herr] at hrun
      cases hrun

def Sched.after (s : Sched) (op : Op) : Sched :=
  match op.run s with
  | .ok (_, s') => s'
  | .error _ => s

/-- `Op.Enabled`, decided; it leaves out `thread_unblock`. -/
def Op.enabledNow (s : Sched) : Op → Bool
  | .resume => (s.inDown s.running).isSome
  | .timer => decide (s.inDown s.running = none) && s.intr
  | .threadBlock stat => decide (s.inDown s.running = none ∧ stat.Blocked)
  | .threadUnblock _ => false
  | .semaDown _ => decide (s.inDown s.running = none ∧ s.running ≠ s.idleThread)
  | .threadStart _ | .threadYield | .semaUp _ => decide (s.inDown s.running = none)

theorem Op.enabled_of_now {s : Sched} {op : Op} (h : op.enabledNow s = true) : op.Enabled s := by
  cases op <;> simp_all [Op.enabledNow, Op.Enabled]

def Sched.afterAll (s : Sched) (ops : List Op) : Sched := ops.foldl Sched.after s

def Sched.runs (s : Sched) : List Op → Bool
  | [] => true
  | op :: ops => op.enabledNow s && (op.run s).isOk && (s.after op).runs ops

theorem Reachable.afterAll {value : ℕ → ℕ} {s : Sched} (h : Reachable value s) {ops : List Op} (hops : s.runs ops = true) :
    Reachable value (s.afterAll ops) := by
  induction ops generalizing s with
  | nil => exact h
  | cons op ops ih =>
    rw [Sched.runs, Bool.and_eq_true, Bool.and_eq_true] at hops
    obtain ⟨⟨hnow, hok⟩, hrest⟩ := hops
    apply ih _ hrest
    unfold Sched.after
    cases hrun : op.run s with
    | error f =>
      rw [hrun] at hok
      cases hok
    | ok r => exact h.step (Op.enabled_of_now hnow) hrun

def upWithTwoWaiters : Sched := (afterInit fun _ => 1).afterAll
  [.semaDown 0, .threadStart 31, .threadStart 31, .threadYield, .threadBlock .blocked, .semaDown 0, .semaDown 0, .semaUp 0]

/-- In every state between two operations the threads and their lists agree, and no assertion outside the
semaphore operations can fail. -/
theorem scheduler_invariant (value : ℕ → ℕ) (s : Sched) (h : Reachable value s) :
    (∃! t, t < s.count ∧ s.status t = .running) ∧
      s.status s.running = .running ∧ s.running ∉ s.readyList ∧ (∀ m, s.running ∉ s.waiters m) ∧
      (∀ t < s.count, s.status t = .ready → s.readyList.count t = 1) ∧
      (∀ t ∈ s.readyList, t < s.count ∧ s.status t = .ready) ∧
      (∀ t m, t ∈ s.readyList → t ∉ s.waiters m) ∧ (∀ m, (s.waiters m).Nodup) ∧
      (∀ t m m', t ∈ s.waiters m → t ∈ s.waiters m' → m = m') ∧
      ∀ op : Op, op.Enabled s → ∀ f, op.run s = .error f → f = .sema := by
  have hinv := h.inv
  refine ⟨⟨s.running, ⟨hinv.current, hinv.run⟩, fun t ht => hinv.only t ht.1 ht.2⟩, hinv.run, hinv.not_ready, hinv.not_waiting,
    fun t ht hst => ?_, fun t ht => (hinv.ready t).mp ht, fun t m ht hw => ?_, hinv.waitNodup, fun t m m' h1 h2 => ?_,
    fun op he f hf => ?_⟩
  · exact List.count_eq_one_of_mem hinv.nodup ((hinv.ready t).mpr ⟨ht, hst⟩)
  · have h1 := ((hinv.ready t).mp ht).2
    rw [(hinv.wait m t hw).2] at h1
    cases h1
  · exact hinv.waitOne m m' t h1 h2
  · rcases Op.completes hinv he with ⟨_, hok, -⟩ | herr
    · rw [hok] at hf
      cases hf
    · rw [herr] at hf
      exact (Except.error.inj hf).symm

theorem scheduler_invariant_two_waiters : Reachable (fun _ => 1) upWithTwoWaiters ∧ upWithTwoWaiters.count = 4 ∧
    (∃! t, t < upWithTwoWaiters.count ∧ upWithTwoWaiters.status t = .running) ∧ upWithTwoWaiters.running = 0 ∧
    upWithTwoWaiters.readyList.count 2 = 1 ∧ ∀ m, 2 ∉ upWithTwoWaiters.waiters m := by
  have h : Reachable (fun _ => 1) upWithTwoWaiters := Reachable.init.afterAll (by decide)
  obtain ⟨hone, -, -, -, honce, -, hapart, -⟩ := scheduler_invariant _ _ h
  exact ⟨h, by decide, hone, by decide, honce 2 (by decide) (by decide), fun m => hapart 2 m (by decide)⟩

end ElephantOS.Scheduler
