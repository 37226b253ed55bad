import ElephantOS.SemaphoreWaits

/-!
`device/ioqueue.c` and the put of the keyboard interrupt. Interrupts are off in the code of the queue, so that other threads run only
where a thread blocks: in `sema_down` of the queue's lock and in `ioq_wait`.
-/

namespace ElephantOS.Ioqueue

open HaltingState Scheduler

/-- The two places to wait at, `ioq->consumer` and `ioq->producer`. -/
inductive Side | consumer | producer
  deriving DecidableEq

structure Queue where
  waiter : Side → Option ℕ
  buf : ℕ → UInt8
  head : ℕ
  tail : ℕ
  /-- the bytes stored so far -/
  stored : List UInt8
  /-- the bytes returned so far -/
  returned : List UInt8

def nextPos (pos : ℕ) : ℕ := (pos + 1) % 64

def Queue.full (q : Queue) : Prop := nextPos q.head = q.tail

def Queue.empty (q : Queue) : Prop := q.head = q.tail

instance (q : Queue) : Decidable q.full := inferInstanceAs (Decidable (_ = _))

instance (q : Queue) : Decidable q.empty := inferInstanceAs (Decidable (_ = _))

/-- `ioq_getchar` and `ioq_putchar` of a byte. -/
inductive Call
  | getchar
  | putchar (byte : UInt8)
  deriving DecidableEq

def Call.Blocked : Call → Queue → Prop
  | .getchar, q => q.empty
  | .putchar _, q => q.full

instance (c : Call) (q : Queue) : Decidable (c.Blocked q) :=
  match c with
  | .getchar => inferInstanceAs (Decidable q.empty)
  | .putchar _ => inferInstanceAs (Decidable q.full)

def Call.side : Call → Side
  | .getchar => .consumer
  | .putchar _ => .producer

def Call.other : Call → Side
  | .getchar => .producer
  | .putchar _ => .consumer

def Call.transfer : Call → Queue → Queue
  | .getchar, q => { q with
      tail := nextPos q.tail
      returned := q.returned ++ [q.buf q.tail] }
  | .putchar byte, q => { q with
      buf := Function.update q.buf q.head byte
      head := nextPos q.head
      stored := q.stored ++ [byte] }

/-- Where a thread is in the code of the queue: outside, in `lock_acquire`, or in `ioq_wait`. -/
inductive Place
  | out
  | lock (c : Call)
  | wait (c : Call)
  deriving DecidableEq

structure IoqSys where
  sched : Sched
  holder : Option ℕ
  /-- `holder_repeat_nr` -/
  repeatNr : ℕ
  queue : Queue
  place : ℕ → Place

inductive IoqFault | sched (f : Fault) | interruptsOn | acquireRepeat | releaseHolder | releaseRepeat | waiter
  deriving DecidableEq

abbrev IoqM := Exec IoqFault IoqSys

def onSched (op : SchedM Unit) : IoqM Unit := fun s =>
  match op s.sched with
  | .ok (u, sched) => .ok (u, { s with sched := sched })
  | .error f => .error (.sched f)

def check (c : Prop) [Decidable c] (f : IoqFault) : IoqM Unit := if c then pure () else halt f

def goto (t : ℕ) (p : Place) : IoqM Unit := modify fun s => { s with place := Function.update s.place t p }

def setWaiter (side : Side) (w : Option ℕ) : IoqM Unit :=
  modify fun s => { s with queue := { s.queue with waiter := Function.update s.queue.waiter side w } }

/-- `ioq_wait` of thread `t`, up to the processor being given away. -/
def ioqWait (c : Call) (t : ℕ) : IoqM Unit := do
  let s ← get
  check (s.queue.waiter c.side = none) .waiter
  setWaiter c.side (some t)
  goto t (.wait c)
  onSched (threadBlock .blocked)

/-- Past a look at the semaphore of the lock: the thread holds the lock and goes on to `ioq_wait`, or sleeps in `sema_down`. -/
def afterDown (c : Call) (t : ℕ) : IoqM Unit := do
  let s ← get
  if s.sched.inDown t = none then
    set { s with holder := some t }
    check (s.repeatNr = 0) .acquireRepeat
    modify fun s => { s with repeatNr := 1 }
    ioqWait c t
  else goto t (.lock c)

/-- `lock_acquire` and what follows it in the loop; `m` is the semaphore of the lock. -/
def lockAcquire (m : ℕ) (c : Call) (t : ℕ) : IoqM Unit := do
  let s ← get
  if s.holder ≠ some t then
    onSched (semaDown m)
    afterDown c t
  else
    set { s with repeatNr := (s.repeatNr + 1) % 4294967296 }
    ioqWait c t

def lockRelease (m t : ℕ) : IoqM Unit := do
  let s ← get
  check (s.holder = some t) .releaseHolder
  if s.repeatNr > 1 then set { s with repeatNr := s.repeatNr - 1 }
  else
    check (s.repeatNr = 1) .releaseRepeat
    set { s with
      holder := none
      repeatNr := 0 }
    onSched (semaUp m)

def wakeup (side : Side) : IoqM Unit := do
  let s ← get
  match s.queue.waiter side with
  | none => pure ()
  | some w =>
    onSched (threadUnblock w)
    setWaiter side none

def finish (c : Call) (t : ℕ) : IoqM Unit := do
  modify fun s => { s with queue := c.transfer s.queue }
  wakeup c.other
  goto t .out

/-- `ioq_getchar` or `ioq_putchar` from the test of the loop to where the thread blocks or returns. -/
def loop (m : ℕ) (c : Call) (t : ℕ) : IoqM Unit := do
  let s ← get
  check (s.sched.intr = false) .interruptsOn
  if c.Blocked s.queue then lockAcquire m c t else finish c t

def resume (m : ℕ) : IoqM Unit := do
  let s ← get
  let t := s.sched.running
  match s.place t with
  | .out => pure ()
  | .lock c =>
    onSched Op.resume.run
    afterDown c t
  | .wait c =>
    lockRelease m t
    loop m c t

/-- The put in `intr_keyboard_handler`; the handler runs with interrupts off, on the stack of whoever is running. -/
def keyboard (m : ℕ) (byte : UInt8) : IoqM Unit := do
  modify fun s => { s with sched := { s.sched with intr := false } }
  let s ← get
  if ¬ s.queue.full then loop m (.putchar byte) s.sched.running
  modify fun s => { s with sched := { s.sched with intr := true } }

inductive Action
  | call (c : Call)
  | resume
  | keyboard (byte : UInt8)
  /-- something that has nothing to do with the queue -/
  | other (op : Op)
  | setIntr (on : Bool)

def Action.run (m : ℕ) : Action → IoqM Unit
  | .call c => do
    let s ← get
    loop m c s.sched.running
  | .resume => Ioqueue.resume m
  | .keyboard byte => Ioqueue.keyboard m byte
  | .other op => do
    let s ← get
    onSched op.run
    match op with
    | .threadStart _ => goto s.sched.count .out
    | _ => pure ()
  | .setIntr on => modify fun s => { s with sched := { s.sched with intr := on } }

/-- When an action can happen. A thread inside the code of the queue, where interrupts are off, does nothing else, and only `wakeup`
unblocks a thread in `ioq_wait`. -/
def Action.Enabled (m : ℕ) (s : IoqSys) : Action → Prop
  | .call _ => s.place s.sched.running = .out ∧ s.sched.inDown s.sched.running = none ∧
      s.sched.running ≠ s.sched.idleThread ∧ s.sched.intr = false
  | .resume => s.place s.sched.running ≠ .out
  | .keyboard _ => s.place s.sched.running = .out ∧ s.sched.inDown s.sched.running = none ∧ s.sched.intr = true
  | .other op => s.place s.sched.running = .out ∧ op.Enabled s.sched ∧ Apart m s.sched op ∧
      ∀ t, op = .threadUnblock t → s.place t = .out
  | .setIntr _ => s.place s.sched.running = .out ∧ s.sched.inDown s.sched.running = none

/-- `ioqueue_init` -/
def start (m : ℕ) (value : ℕ → ℕ) (buf : ℕ → UInt8) : IoqSys where
  sched := afterInit (Function.update value m 1)
  holder := none
  repeatNr := 0
  queue := { waiter := fun _ => none, buf := buf, head := 0, tail := 0, stored := [], returned := [] }
  place _ := .out

/-- A run: the actions that happened with the state before each, the last one first, and the state it ends in. -/
inductive Run (m : ℕ) (value : ℕ → ℕ) (buf : ℕ → UInt8) : List (Action × IoqSys) → IoqSys → Prop
  | init : Run m value buf [] (start m value buf)
  | step {past : List (Action × IoqSys)} {s s' : IoqSys} {a : Action} {u : Unit} :
      Run m value buf past s → a.Enabled m s → a.run m s = .ok (u, s') → Run m value buf ((a, s) :: past) s'

variable {m : ℕ} {s : IoqSys}

theorem After.check {c : Prop} [Decidable c] {f : IoqFault} {α : Type} {g : Unit → IoqM α} {Q : α → IoqSys → Prop}
    (h : c → After (g ()) s Q) : After (check c f >>= g) s Q := by
  intro b s' hrun
  obtain ⟨u, s₁, hcheck, hb⟩ := (bind_ok _ g s _).mp hrun
  rw [Ioqueue.check] at hcheck
  split_ifs at hcheck with hc
  · obtain ⟨rfl, rfl⟩ := (pure_ok _ _ _ _).mp hcheck
    exact h hc b s' hb
  · cases hcheck

theorem After.put {α : Type} {s' : IoqSys} {f : PUnit → IoqM α} {Q : α → IoqSys → Prop} (h : After (f ⟨⟩) s' Q) :
    After ((MonadStateOf.set s' : IoqM PUnit) >>= f) s Q := by
  intro b s'' hrun
  rw [bind_eq (show (MonadStateOf.set s' : IoqM PUnit) s = .ok (⟨⟩, s') from rfl)] at hrun
  exact h b s'' hrun

theorem onSched_ok {op : SchedM Unit} {u : Unit} {s' : IoqSys} (h : onSched op s = .ok (u, s')) :
    ∃ sched, op s.sched = .ok (u, sched) ∧ s' = { s with sched := sched } := by
  unfold onSched at h
  cases hop : op s.sched with
  | error f =>
    rw [hop] at h
    cases h
  | ok r =>
    rw [hop] at h
    cases h
    exact ⟨_, rfl, rfl⟩

theorem After.onSched {op : SchedM Unit} {α : Type} {f : Unit → IoqM α} {P : Sched → Prop} {Q : α → IoqSys → Prop}
    (hop : After op s.sched fun _ sched => P sched) (h : ∀ sched, P sched → After (f ()) { s with sched := sched } Q) :
    After (onSched op >>= f) s Q := by
  intro b s' hrun
  obtain ⟨u, s₁, hstep, hb⟩ := (bind_ok _ f s _).mp hrun
  obtain ⟨sched, hok, rfl⟩ := onSched_ok hstep
  exact h sched (hop _ _ hok) b s' hb

/-- Threads in `lock_acquire` are in the loop of `sema_down`, thread `t` perhaps apart. -/
def WaitingBut (m t : ℕ) (s : IoqSys) : Prop :=
  ∀ u, u ≠ t → ∀ c, s.place u = .lock c → ∃ old, s.sched.inDown u = some (m, old)

def Waiting (m : ℕ) (s : IoqSys) : Prop := ∀ u c, s.place u = .lock c → ∃ old, s.sched.inDown u = some (m, old)

def Call.done (c : Call) (q : Queue) : Queue :=
  { c.transfer q with waiter := Function.update q.waiter c.other none }

def Queue.waits (q : Queue) (side : Side) (t : ℕ) : Queue := { q with waiter := Function.update q.waiter side (some t) }

theorem WaitingBut.goto {t : ℕ} (h : WaitingBut m t s) {p : Place} (hp : ∀ c, p = .lock c → ∃ old, s.sched.inDown t = some (m, old)) :
    Waiting m { s with place := Function.update s.place t p } := by
  intro u c hu
  by_cases hut : u = t
  · subst hut
    apply hp c
    exact (Function.update_self u p s.place).symm.trans hu
  · apply h u hut c
    exact (Function.update_of_ne hut p s.place).symm.trans hu

theorem ioqWait_after {c : Call} {t : ℕ} (h : WaitingBut m t s) :
    After (ioqWait c t) s fun _ s' => Waiting m s' ∧ s'.queue = s.queue.waits c.side t := by
  unfold ioqWait
  apply After.get
  apply After.check
  intro hnone
  apply After.modify
  apply After.modify
  intro u s' hrun
  obtain ⟨sched, hok, rfl⟩ := onSched_ok hrun
  have hsame := threadBlock_after _ _ _ _ hok
  refine ⟨?_, rfl⟩
  have hwait := h.goto (p := .wait c) (by simp)
  intro v d hv
  obtain ⟨old, hold⟩ := hwait v d hv
  refine ⟨old, ?_⟩
  change sched.inDown v = _
  rw [hsame.inDown]
  exact hold

theorem afterDown_after {c : Call} {t : ℕ} (h : WaitingBut m t s)
    (hdown : s.sched.inDown t = none ∨ ∃ old, s.sched.inDown t = some (m, old)) :
    After (afterDown c t) s fun _ s' => Waiting m s' ∧
      ((s.sched.inDown t = none ∧ s'.queue = s.queue.waits c.side t) ∨ (s.sched.inDown t ≠ none ∧ s'.queue = s.queue)) := by
  unfold afterDown
  apply After.get
  split_ifs with hnone
  · apply After.put
    apply After.check
    intro _
    apply After.modify
    intro u s' hrun
    obtain ⟨hwait, hq⟩ := ioqWait_after (s := { s with holder := some t, repeatNr := 1 }) h u s' hrun
    exact ⟨hwait, .inl ⟨hnone, hq⟩⟩
  · intro u s' hrun
    cases hrun
    refine ⟨h.goto fun d _ => hdown.resolve_left hnone, .inr ⟨hnone, rfl⟩⟩

theorem WaitingBut.looked {t : ℕ} (h : WaitingBut m t s) {sched : Sched} (hl : Looked m t s.sched sched) :
    WaitingBut m t { s with sched := sched } := by
  intro u hu c hplace
  obtain ⟨old, hold⟩ := h u hu c hplace
  exact ⟨old, (hl.others u hu).trans hold⟩

theorem lockAcquire_after {c : Call} (h : WaitingBut m s.sched.running s) :
    After (lockAcquire m c s.sched.running) s fun _ s' => Waiting m s' ∧
      (s'.queue = s.queue ∨ s'.queue = s.queue.waits c.side s.sched.running) := by
  unfold lockAcquire
  apply After.get
  split_ifs with hholder
  · refine After.onSched (semaDown_looked m s.sched) ?_
    intro sched hl u s' hrun
    obtain ⟨hwait, hq⟩ := afterDown_after (h.looked hl) hl.asleep u s' hrun
    refine ⟨hwait, ?_⟩
    rcases hq with ⟨-, hq⟩ | ⟨-, hq⟩
    · exact .inr hq
    · exact .inl hq
  · apply After.put
    intro u s' hrun
    obtain ⟨hwait, hq⟩ := ioqWait_after (s := { s with repeatNr := (s.repeatNr + 1) % 4294967296 }) h u s' hrun
    exact ⟨hwait, .inr hq⟩

theorem transfer_waiter (c : Call) (q : Queue) : (c.transfer q).waiter = q.waiter := by
  cases c <;> rfl

theorem finish_after {c : Call} {t : ℕ} (h : WaitingBut m t s) :
    After (finish c t) s fun _ s' => Waiting m s' ∧ s'.queue = c.done s.queue := by
  have hend : ∀ (sched : Sched) (q : Queue), sched.inDown = s.sched.inDown → q = c.done s.queue →
      After (goto t .out) { s with sched := sched, queue := q } fun _ s' => Waiting m s' ∧ s'.queue = c.done s.queue := by
    intro sched q hdown hq u s' hrun
    cases hrun
    have hbut : WaitingBut m t { s with sched := sched, queue := q } := by
      intro v hv d hplace
      obtain ⟨old, hold⟩ := h v hv d hplace
      exact ⟨old, (congrFun hdown v).trans hold⟩
    exact ⟨hbut.goto (by simp), hq⟩
  unfold finish wakeup
  apply After.modify
  intro u s' hrun
  obtain ⟨_, s₁, hwake, hrest⟩ := (bind_ok _ _ _ _).mp hrun
  rw [get_bind] at hwake
  cases hw : s.queue.waiter c.other with
  | none =>
    simp only [transfer_waiter, hw] at hwake
    cases hwake
    refine hend s.sched (c.transfer s.queue) rfl ?_ u s' hrest
    rw [Call.done, ← hw, Function.update_eq_self, ← transfer_waiter c s.queue]
  | some w =>
    simp only [transfer_waiter, hw] at hwake
    obtain ⟨_, s₂, hunblock, hset⟩ := (bind_ok _ _ _ _).mp hwake
    obtain ⟨sched, hok, rfl⟩ := onSched_ok hunblock
    obtain ⟨rfl, -⟩ := threadUnblock_after w _ _ _ hok
    cases hset
    refine hend (setStatus w .ready { s.sched with readyList := w :: s.sched.readyList }) _ rfl ?_ u s' hrest
    rw [Call.done, transfer_waiter]

theorem loop_after {c : Call} (h : WaitingBut m s.sched.running s) :
    After (loop m c s.sched.running) s fun _ s' => Waiting m s' ∧
      ((c.Blocked s.queue ∧ (s'.queue = s.queue ∨ s'.queue = s.queue.waits c.side s.sched.running)) ∨
        (¬ c.Blocked s.queue ∧ s'.queue = c.done s.queue)) := by
  unfold loop
  apply After.get
  apply After.check
  intro _
  split_ifs with hb
  · intro u s' hrun
    obtain ⟨hwait, hq⟩ := lockAcquire_after h u s' hrun
    exact ⟨hwait, .inl ⟨hb, hq⟩⟩
  · intro u s' hrun
    obtain ⟨hwait, hq⟩ := finish_after h u s' hrun
    exact ⟨hwait, .inr ⟨hb, hq⟩⟩

theorem lockRelease_after (m t : ℕ) (s : IoqSys) :
    After (lockRelease m t) s fun _ s' => s'.queue = s.queue ∧ s'.place = s.place ∧ s'.sched.inDown = s.sched.inDown ∧
      s'.sched.running = s.sched.running := by
  unfold lockRelease
  apply After.get
  apply After.check
  intro _
  split_ifs with hone
  · intro u s' hrun
    cases hrun
    exact ⟨rfl, rfl, rfl, rfl⟩
  · apply After.check
    intro _
    apply After.put
    intro u s' hrun
    obtain ⟨sched, hok, rfl⟩ := onSched_ok hrun
    have hup := semaUp_raised m _ _ _ hok
    exact ⟨rfl, rfl, hup.inDown, hup.running⟩

/-- A thread that had to wait for the lock in call `c` gets it. -/
def Takes (m : ℕ) (s : IoqSys) (a : Action) (c : Call) : Prop :=
  a = .resume ∧ s.place s.sched.running = .lock c ∧ s.sched.value m = 1

inductive Effect (m : ℕ) (s : IoqSys) (a : Action) (q : Queue) : Prop
  | same : (∀ c, ¬ Takes m s a c) → q = s.queue → Effect m s a q
  | done (c : Call) : (∀ c, ¬ Takes m s a c) → ¬ c.Blocked s.queue → q = c.done s.queue → Effect m s a q
  | waits (c : Call) : (∀ c, ¬ Takes m s a c) → c.Blocked s.queue → q = s.queue.waits c.side s.sched.running → Effect m s a q
  | takes (c : Call) : Takes m s a c → q = s.queue.waits c.side s.sched.running → Effect m s a q

theorem Waiting.but (h : Waiting m s) (t : ℕ) : WaitingBut m t s := fun u _ => h u

theorem Effect.of_loop {a : Action} {c : Call} {q : Queue} (ha : ∀ c, ¬ Takes m s a c)
    (h : (c.Blocked s.queue ∧ (q = s.queue ∨ q = s.queue.waits c.side s.sched.running)) ∨
      (¬ c.Blocked s.queue ∧ q = c.done s.queue)) : Effect m s a q := by
  rcases h with ⟨hb, hq | hq⟩ | ⟨hb, hq⟩
  · exact .same ha hq
  · exact .waits c ha hb hq
  · exact .done c ha hb hq

theorem resume_effect (h : Waiting m s) : After (Action.resume.run m) s fun _ s' => Waiting m s' ∧ Effect m s .resume s'.queue := by
  change After (resume m) s _
  unfold resume
  apply After.get
  cases hplace : s.place s.sched.running with
  | out =>
    simp only [hplace]
    intro u s' hrun
    cases hrun
    refine ⟨h, .same ?_ rfl⟩
    rintro c ⟨-, hc, -⟩
    rw [hplace] at hc
    cases hc
  | lock c =>
    simp only [hplace]
    obtain ⟨old, hd⟩ := h _ _ hplace
    refine After.onSched (resume_looked hd) ?_
    intro sched hl u s' hrun
    obtain ⟨hwait, hq⟩ := afterDown_after ((h.but _).looked hl) hl.asleep u s' hrun
    refine ⟨hwait, ?_⟩
    rcases hl.result with ⟨hv, -, hnone⟩ | ⟨hv, -, old', hsome⟩
    · rcases hq with ⟨-, hq⟩ | ⟨hne, -⟩
      · exact .takes c ⟨rfl, hplace, hv⟩ hq
      · exact absurd hnone hne
    · rcases hq with ⟨hnone, -⟩ | ⟨-, hq⟩
      · exact absurd (hnone.symm.trans hsome) (by simp)
      · refine .same ?_ hq
        rintro d ⟨-, -, hone⟩
        exact absurd (hv.symm.trans hone) (by decide)
  | wait c =>
    simp only [hplace]
    intro u s' hrun
    obtain ⟨_, s₁, hrelease, hloop⟩ := (bind_ok _ _ _ _).mp hrun
    obtain ⟨hq, hp, hd, hr⟩ := lockRelease_after _ _ _ _ _ hrelease
    rw [← hr] at hloop
    have hbut : WaitingBut m s₁.sched.running s₁ := by
      intro v _ d hv
      rw [hp] at hv
      rw [hd]
      exact h v d hv
    obtain ⟨hwait, heffect⟩ := loop_after hbut u s' hloop
    rw [hq, hr] at heffect
    refine ⟨hwait, .of_loop (c := c) ?_ heffect⟩
    rintro d ⟨-, hc, -⟩
    rw [hplace] at hc
    cases hc

theorem not_takes {a : Action} (ha : a ≠ .resume) (c : Call) : ¬ Takes m s a c := fun h => ha h.1

theorem keyboard_effect (h : Waiting m s) (byte : UInt8) :
    After (Action.run m (.keyboard byte)) s fun _ s' => Waiting m s' ∧ Effect m s (.keyboard byte) s'.queue := by
  change After (keyboard m byte) s _
  unfold keyboard
  apply After.modify
  apply After.get
  have hnot : ∀ c, ¬ Takes m s (.keyboard byte) c := not_takes (by simp)
  by_cases hfull : s.queue.full
  · rw [if_neg (not_not.mpr hfull)]
    intro u s' hrun
    cases hrun
    exact ⟨h, .same hnot rfl⟩
  · rw [if_pos hfull]
    intro u s' hrun
    obtain ⟨_, s₁, hloop, hrest⟩ := (bind_ok _ _ _ _).mp hrun
    cases hrest
    obtain ⟨hwait, heffect⟩ := loop_after (s := { s with sched := { s.sched with intr := false } }) (h.but _) _ _ hloop
    exact ⟨hwait, .of_loop hnot heffect⟩

theorem threadStart_inDown (prio : ℕ) (s : Sched) :
    After (threadStart prio) s fun _ s' => s'.inDown = Function.update s.inDown s.count none := by
  unfold threadStart
  apply After.get
  apply Scheduler.After.check
  intro _ u s' hrun
  cases hrun
  rfl

theorem other_effect (h : Waiting m s) {op : Op} (he : (Action.other op).Enabled m s) :
    After (Action.run m (.other op)) s fun _ s' => Waiting m s' ∧ s'.queue = s.queue := by
  obtain ⟨hout, hop, hapart, -⟩ := he
  -- a new thread is outside the code of the queue; every other operation concerns at most the running thread, which is outside too
  have hrest : (∀ prio, op ≠ .threadStart prio) → ∀ (u : Unit) (s' : IoqSys), onSched op.run s = .ok (u, s') →
      Waiting m s' ∧ s'.queue = s.queue := by
    intro hnew u s' hrun
    obtain ⟨sched, hok, rfl⟩ := onSched_ok hrun
    have hbeside := Op.beside (fun prio hp => absurd hp (hnew prio)) hop hapart _ _ hok
    refine ⟨?_, rfl⟩
    intro v d hv
    have hne : v ≠ s.sched.running := by
      rintro rfl
      exact absurd (hout.symm.trans hv) (by simp)
    obtain ⟨old, hold⟩ := h v d hv
    exact ⟨old, (hbeside.others v hne).trans hold⟩
  apply After.get
  intro u s' hrun
  obtain ⟨_, s₁, hstep, hend⟩ := (bind_ok _ _ _ _).mp hrun
  cases op with
  | threadStart prio =>
    obtain ⟨sched, hok, rfl⟩ := onSched_ok hstep
    have hdown := threadStart_inDown prio _ _ _ hok
    cases hend
    refine ⟨?_, rfl⟩
    intro v d hv
    have hne : v ≠ s.sched.count := by
      rintro rfl
      exact absurd ((Function.update_self _ _ _).symm.trans hv) (by simp)
    obtain ⟨old, hold⟩ := h v d ((Function.update_of_ne hne _ _).symm.trans hv)
    refine ⟨old, ?_⟩
    change sched.inDown v = _
    rw [hdown, Function.update_of_ne hne]
    exact hold
  | timer =>
    cases hend
    exact hrest (by simp) _ _ hstep
  | threadYield =>
    cases hend
    exact hrest (by simp) _ _ hstep
  | threadBlock stat =>
    cases hend
    exact hrest (by simp) _ _ hstep
  | threadUnblock t =>
    cases hend
    exact hrest (by simp) _ _ hstep
  | semaDown k =>
    cases hend
    exact hrest (by simp) _ _ hstep
  | semaUp k =>
    cases hend
    exact hrest (by simp) _ _ hstep
  | resume =>
    cases hend
    exact hrest (by simp) _ _ hstep

theorem Action.effect (h : Waiting m s) {a : Action} (he : a.Enabled m s) :
    After (a.run m) s fun _ s' => Waiting m s' ∧ Effect m s a s'.queue := by
  cases a with
  | call c =>
    apply After.get
    intro u s' hrun
    obtain ⟨hwait, heffect⟩ := loop_after (h.but _) u s' hrun
    exact ⟨hwait, .of_loop (not_takes (by simp)) heffect⟩
  | resume => exact resume_effect h
  | keyboard byte => exact keyboard_effect h byte
  | other op =>
    intro u s' hrun
    obtain ⟨hwait, hq⟩ := other_effect h he u s' hrun
    exact ⟨hwait, .same (not_takes (by simp)) hq⟩
  | setIntr on =>
    intro u s' hrun
    cases hrun
    exact ⟨h, .same (not_takes (by simp)) rfl⟩

theorem start_waiting (m : ℕ) (value : ℕ → ℕ) (buf : ℕ → UInt8) : Waiting m (start m value buf) := by
  intro u c hu
  cases hu

variable {value : ℕ → ℕ} {buf : ℕ → UInt8} {past : List (Action × IoqSys)}

theorem Run.waiting (h : Run m value buf past s) : Waiting m s := by
  induction h with
  | init => exact start_waiting m value buf
  | step _ he hrun ih => exact (Action.effect ih he _ _ hrun).1

structure Fifo (q : Queue) : Prop where
  head : q.head = q.stored.length % 64
  tail : q.tail = q.returned.length % 64
  prefixed : q.returned <+: q.stored
  room : q.stored.length ≤ q.returned.length + 63
  cells : ∀ i, q.returned.length ≤ i → i < q.stored.length → q.stored[i]? = some (q.buf (i % 64))

theorem Fifo.getchar {q : Queue} (h : Fifo q) (hne : ¬ q.empty) : Fifo (Call.getchar.done q) := by
  have hle := h.prefixed.length_le
  have hlt : q.returned.length < q.stored.length := by
    by_contra hge
    apply hne
    rw [Queue.empty, h.head, h.tail, show q.returned.length = q.stored.length by omega]
  have hcell := h.cells _ (le_refl _) hlt
  rw [← h.tail] at hcell
  refine ⟨h.head, ?_, ?_, ?_, ?_⟩
  · change nextPos q.tail = (q.returned ++ [q.buf q.tail]).length % 64
    rw [List.length_append, List.length_singleton, nextPos, h.tail, Nat.mod_add_mod]
  · change q.returned ++ [q.buf q.tail] <+: q.stored
    obtain ⟨rest, hrest⟩ := h.prefixed
    cases rest with
    | nil =>
      rw [List.append_nil] at hrest
      rw [hrest] at hlt
      exact absurd hlt (lt_irrefl _)
    | cons b rest =>
      rw [← hrest, List.getElem?_append_right (le_refl _), Nat.sub_self, List.getElem?_cons_zero, Option.some.injEq] at hcell
      refine ⟨rest, ?_⟩
      rw [← hrest, hcell, List.append_assoc]
      rfl
  · change q.stored.length ≤ (q.returned ++ [q.buf q.tail]).length + 63
    rw [List.length_append, List.length_singleton]
    have := h.room
    omega
  · intro i hi hi'
    change (q.returned ++ [q.buf q.tail]).length ≤ i at hi
    rw [List.length_append, List.length_singleton] at hi
    exact h.cells i (by omega) hi'

theorem Fifo.putchar {q : Queue} (h : Fifo q) (byte : UInt8) (hne : ¬ q.full) : Fifo ((Call.putchar byte).done q) := by
  have hle := h.prefixed.length_le
  have hroom : q.stored.length ≤ q.returned.length + 62 := by
    by_contra hge
    apply hne
    have := h.room
    rw [Queue.full, nextPos, h.head, h.tail]
    omega
  refine ⟨?_, h.tail, h.prefixed.trans (List.prefix_append _ _), ?_, ?_⟩
  · change nextPos q.head = (q.stored ++ [byte]).length % 64
    rw [List.length_append, List.length_singleton, nextPos, h.head, Nat.mod_add_mod]
  · change (q.stored ++ [byte]).length ≤ q.returned.length + 63
    rw [List.length_append, List.length_singleton]
    omega
  · intro i hi hi'
    change i < (q.stored ++ [byte]).length at hi'
    rw [List.length_append, List.length_singleton] at hi'
    change q.returned.length ≤ i at hi
    change (q.stored ++ [byte])[i]? = some (Function.update q.buf q.head byte (i % 64))
    by_cases hlast : i = q.stored.length
    · rw [hlast, h.head, Function.update_self, List.getElem?_append_right (le_refl _), Nat.sub_self]
      rfl
    · have hcell : i % 64 ≠ q.head := by
        rw [h.head]
        omega
      rw [Function.update_of_ne hcell, List.getElem?_append_left (by omega)]
      exact h.cells i hi (by omega)

theorem Fifo.effect {q : Queue} {a : Action} (h : Fifo s.queue) (he : Effect m s a q) : Fifo q := by
  cases he with
  | same _ hq =>
    rw [hq]
    exact h
  | done c _ hb hq =>
    rw [hq]
    cases c with
    | getchar => exact h.getchar hb
    | putchar byte => exact h.putchar byte hb
  | waits c _ _ hq =>
    rw [hq]
    exact ⟨h.head, h.tail, h.prefixed, h.room, h.cells⟩
  | takes c _ hq =>
    rw [hq]
    exact ⟨h.head, h.tail, h.prefixed, h.room, h.cells⟩

theorem Run.fifo (h : Run m value buf past s) : Fifo s.queue := by
  induction h with
  | init =>
    refine ⟨rfl, rfl, List.prefix_rfl, Nat.zero_le _, ?_⟩
    intro i _ hi
    exact absurd hi (Nat.not_lt_zero i)
  | step hpast he hrun ih => exact ih.effect (Action.effect hpast.waiting he _ _ hrun).2

/-- The bytes returned are the first of those stored, in order, and the indices count the others. -/
theorem ioqueue_fifo (m : ℕ) (value : ℕ → ℕ) (buf : ℕ → UInt8) (past : List (Action × IoqSys)) (s : IoqSys)
    (h : Run m value buf past s) :
    s.queue.returned <+: s.queue.stored ∧
      ((s.queue.stored.length : ℤ) - s.queue.returned.length = ((s.queue.head : ℤ) - s.queue.tail) % 64) ∧
      s.queue.stored.length - s.queue.returned.length ≤ 63 := by
  have hfifo := h.fifo
  have hle := hfifo.prefixed.length_le
  have hroom := hfifo.room
  refine ⟨hfifo.prefixed, ?_, by omega⟩
  rw [hfifo.head, hfifo.tail]
  omega

/-- Whoever is asleep at the queue has a reason to be. -/
def Queue.Usable (q : Queue) : Prop := (q.waiter .consumer ≠ none → q.empty) ∧ (q.waiter .producer ≠ none → q.full)

instance (q : Queue) : Decidable q.Usable := inferInstanceAs (Decidable (_ ∧ _))

/-- Nobody who had to wait for the lock gets it when the queue is no longer empty, for `ioq_getchar`, or full, for `ioq_putchar`. -/
def InTime (m : ℕ) (s : IoqSys) (a : Action) : Prop := ∀ c, Takes m s a c → c.Blocked s.queue

theorem Queue.Usable.waits {q : Queue} (h : q.Usable) {c : Call} (hb : c.Blocked q) (t : ℕ) : (q.waits c.side t).Usable := by
  cases c with
  | getchar =>
    refine ⟨fun _ => hb, ?_⟩
    intro hp
    exact h.2 hp
  | putchar byte =>
    refine ⟨?_, fun _ => hb⟩
    intro hc
    exact h.1 hc

theorem Queue.Usable.done {q : Queue} (h : q.Usable) {c : Call} (hb : ¬ c.Blocked q) : (c.done q).Usable := by
  cases c with
  | getchar =>
    constructor
    · intro hc
      exact absurd (h.1 hc) hb
    · intro hp
      exact absurd rfl hp
  | putchar byte =>
    constructor
    · intro hc
      exact absurd rfl hc
    · intro hp
      exact absurd (h.2 hp) hb

theorem not_usable_waits {q : Queue} {c : Call} (hb : ¬ c.Blocked q) (t : ℕ) : ¬ (q.waits c.side t).Usable := by
  intro h
  apply hb
  cases c with
  | getchar => exact h.1 (by simp [Queue.waits, Call.side])
  | putchar byte => exact h.2 (by simp [Queue.waits, Call.side])

theorem Queue.Usable.effect {q : Queue} {a : Action} (h : s.queue.Usable) (he : Effect m s a q) : q.Usable ↔ InTime m s a := by
  have hnone : (∀ c, ¬ Takes m s a c) → InTime m s a := fun hnot c hc => absurd hc (hnot c)
  cases he with
  | same hnot hq =>
    rw [hq]
    exact iff_of_true h (hnone hnot)
  | done c hnot hb hq =>
    rw [hq]
    exact iff_of_true (h.done hb) (hnone hnot)
  | waits c hnot hb hq =>
    rw [hq]
    exact iff_of_true (h.waits hb _) (hnone hnot)
  | takes c hc hq =>
    rw [hq]
    constructor
    · intro husable d hd
      have hcd : d = c := by
        have := hd.2.1.symm.trans hc.2.1
        simpa using this
      subst hcd
      by_contra hb
      exact not_usable_waits hb _ husable
    · intro hin
      exact h.waits (hin c hc) _

/-- Over a whole run nobody sleeps on a usable queue if and only if nobody who waited for the lock gets it too late. -/
theorem ioqueue_sleepers (m : ℕ) (value : ℕ → ℕ) (buf : ℕ → UInt8) (past : List (Action × IoqSys)) (s : IoqSys)
    (h : Run m value buf past s) :
    (s.queue.Usable ∧ ∀ p ∈ past, p.2.queue.Usable) ↔ ∀ p ∈ past, InTime m p.2 p.1 := by
  induction h with
  | init => simp [Queue.Usable, start]
  | @step past s s' a u hpast he hrun ih =>
    have heffect := (Action.effect hpast.waiting he _ _ hrun).2
    simp only [List.forall_mem_cons]
    constructor
    · rintro ⟨husable, hs, hall⟩
      exact ⟨(hs.effect heffect).mp husable, ih.mp ⟨hs, hall⟩⟩
    · rintro ⟨hin, hall⟩
      obtain ⟨hs, hpast⟩ := ih.mpr hall
      exact ⟨(hs.effect heffect).mpr hin, hs, hpast⟩

def IoqSys.after (m : ℕ) (s : IoqSys) (a : Action) : IoqSys :=
  match a.run m s with
  | .ok (_, s') => s'
  | .error _ => s

/-- `Action.Enabled`, decided; of the operations of the scheduler it has those that threads make outside the queue. -/
def Action.enabledNow (s : IoqSys) : Action → Bool
  | .call _ => decide (s.place s.sched.running = .out ∧ s.sched.inDown s.sched.running = none ∧
      s.sched.running ≠ s.sched.idleThread ∧ s.sched.intr = false)
  | .resume => decide (s.place s.sched.running ≠ .out)
  | .keyboard _ => decide (s.place s.sched.running = .out ∧ s.sched.inDown s.sched.running = none ∧ s.sched.intr = true)
  | .other (.threadStart prio) => decide (s.place s.sched.running = .out) && (Op.threadStart prio).enabledNow s.sched
  | .other .threadYield => decide (s.place s.sched.running = .out) && Op.threadYield.enabledNow s.sched
  | .other (.threadBlock stat) => decide (s.place s.sched.running = .out) && (Op.threadBlock stat).enabledNow s.sched
  | .other _ => false
  | .setIntr _ => decide (s.place s.sched.running = .out ∧ s.sched.inDown s.sched.running = none)

theorem Action.enabled_of_now {a : Action} (h : a.enabledNow s = true) (m : ℕ) : a.Enabled m s := by
  cases a with
  | call c => simpa [Action.enabledNow, Action.Enabled] using h
  | resume => simpa [Action.enabledNow, Action.Enabled] using h
  | keyboard byte => simpa [Action.enabledNow, Action.Enabled] using h
  | setIntr on => simpa [Action.enabledNow, Action.Enabled] using h
  | other op =>
    cases op <;> simp [Action.enabledNow] at h
    all_goals exact ⟨h.1, Op.enabled_of_now h.2, trivial, by simp⟩

/-- The run in which the actions happen one after the other. -/
def runAll (m : ℕ) : List Action → List (Action × IoqSys) × IoqSys → List (Action × IoqSys) × IoqSys
  | [], r => r
  | a :: rest, r => runAll m rest ((a, r.2) :: r.1, r.2.after m a)

def allRun (m : ℕ) : List Action → IoqSys → Bool
  | [], _ => true
  | a :: rest, s => a.enabledNow s && (a.run m s).isOk && allRun m rest (s.after m a)

theorem Run.runAll {r : List (Action × IoqSys) × IoqSys} (h : Run m value buf r.1 r.2) {actions : List Action}
    (hrun : allRun m actions r.2 = true) : Run m value buf (runAll m actions r).1 (runAll m actions r).2 := by
  induction actions generalizing r with
  | nil => exact h
  | cons a rest ih =>
    rw [allRun, Bool.and_eq_true, Bool.and_eq_true] at hrun
    obtain ⟨⟨hnow, hok⟩, hrest⟩ := hrun
    apply ih _ hrest
    change Run m value buf ((a, r.2) :: r.1) (r.2.after m a)
    unfold IoqSys.after
    cases hstep : a.run m r.2 with
    | error f =>
      rw [hstep] at hok
      cases hok
    | ok p => exact h.step (Action.enabled_of_now hnow m) hstep

/-- Two consumers, the main thread and thread 2, find the queue empty; then two bytes arrive from the keyboard. The main thread returns
the first, and thread 2, woken up by the release of the lock, goes to sleep at a queue that holds the second. -/
def twoConsumers : List Action :=
  [.other (.threadStart 31), .call .getchar, .other (.threadBlock .blocked), .setIntr false, .call .getchar, .keyboard 97, .keyboard 98,
    .other (.threadBlock .blocked), .resume, .other .threadYield, .resume]

def twoConsumersRun (n : ℕ) : List (Action × IoqSys) × IoqSys := runAll 0 (twoConsumers.take n) ([], start 0 (fun _ => 0) fun _ => 0)

theorem twoConsumers_run {n : ℕ} (h : allRun 0 (twoConsumers.take n) (start 0 (fun _ => 0) fun _ => 0) = true) :
    Run 0 (fun _ => 0) (fun _ => 0) (twoConsumersRun n).1 (twoConsumersRun n).2 :=
  Run.runAll (r := ([], start 0 (fun _ => 0) fun _ => 0)) Run.init h

theorem ioqueue_fifo_two_consumers : (twoConsumersRun 11).2.queue.returned = [97] ∧
    (twoConsumersRun 11).2.queue.returned <+: (twoConsumersRun 11).2.queue.stored :=
  ⟨by decide, (ioqueue_fifo 0 _ _ _ _ (twoConsumers_run (n := 11) (by decide))).1⟩

theorem consumer_sleeps_on_byte : ¬ ∀ (m : ℕ) (value : ℕ → ℕ) (buf : ℕ → UInt8) (past : List (Action × IoqSys)) (s : IoqSys),
    Run m value buf past s → s.queue.Usable := by
  intro hclaim
  have hrun := twoConsumers_run (n := 11) (by decide)
  have husable := hclaim _ _ _ _ _ hrun
  have hwaiter : (twoConsumersRun 11).2.queue.waiter .consumer = some 2 := by decide
  have hbyte : ¬ (twoConsumersRun 11).2.queue.empty := by decide
  apply hbyte
  apply husable.1
  rw [hwaiter]
  simp

theorem ioqueue_sleepers_two_consumers : (twoConsumersRun 10).1.length = 10 ∧ ∀ p ∈ (twoConsumersRun 10).1, InTime 0 p.2 p.1 :=
  ⟨by decide, (ioqueue_sleepers 0 _ _ _ _ (twoConsumers_run (n := 10) (by decide))).mp ⟨by decide, by decide⟩⟩

end ElephantOS.Ioqueue
