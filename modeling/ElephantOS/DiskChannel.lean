import ElephantOS.Lock

/-!
The completion protocol of a channel in `device/ide.c`: `ide_read`, `ide_write` and `intr_hd_handler`. The driver runs statement by
statement, under the lock of the channel, and the disk may interrupt whenever interrupts are on. What goes over the ports is left out,
but for the status that `busy_wait` comes to see.
-/

namespace ElephantOS.DiskChannel

open HaltingState Scheduler Lock

inductive Kind | read | write
  deriving DecidableEq

/-- A call of `ide_read` or `ide_write`; `secsDone` is its local variable. -/
structure Job where
  kind : Kind
  lba : ℕ
  secCnt : ℕ
  secsDone : ℕ
  deriving DecidableEq

/-- `secs_op`, in 32-bit arithmetic -/
def Job.secsOp (j : Job) : ℕ := if (j.secsDone + 256) % 4294967296 ≤ j.secCnt then 256 else j.secCnt - j.secsDone

def Job.next (j : Job) : Job := { j with secsDone := (j.secsDone + j.secsOp) % 4294967296 }

/-- Where a thread is in the driver: in `lock_acquire`, at the head of the loop, before the two statements of `cmd_out`, before and in
`sema_down(&disk_done)`, in `busy_wait`, at the transfer of the data, in `lock_release`. -/
inductive Place
  | out | lock (j : Job) | loop (j : Job) | flag (j : Job) | command (j : Job) | down (j : Job) | downLoop (j : Job)
  | busy (j : Job) | transfer (j : Job) | unlock
  deriving DecidableEq

/-- What happens at the channel: `cmd_out` sets `expecting_intr`, the command is written, `disk_done` is raised, `sema_down` of it
returns. -/
inductive Event | expect | command | up | down
  deriving DecidableEq

structure Channel where
  /-- the scheduler and the lock of the channel -/
  lock : LockSys
  /-- `expecting_intr` -/
  expecting : Bool
  place : ℕ → Place
  /-- the last event first -/
  log : List Event

inductive ChannelFault | lock (f : LockFault) | maxLba | secCnt | panic
  deriving DecidableEq

abbrev ChannelM := Exec ChannelFault Channel

def onLock (op : LockM Unit) : ChannelM Unit := fun c =>
  match op c.lock with
  | .ok (u, l) => .ok (u, { c with lock := l })
  | .error f => .error (.lock f)

def check (p : Prop) [Decidable p] (f : ChannelFault) : ChannelM Unit := if p then pure () else halt f

def goto (t : ℕ) (p : Place) : ChannelM Unit := modify fun c => { c with place := Function.update c.place t p }

def event (e : Event) : ChannelM Unit := modify fun c => { c with log := e :: c.log }

/-- After the completed `sema_down` a read waits for its data, a write is done with its sectors. -/
def Job.afterDown (j : Job) : Place :=
  match j.kind with
  | .read => .busy j
  | .write => .loop j.next

def Job.afterCommand (j : Job) : Place :=
  match j.kind with
  | .read => .down j
  | .write => .busy j

def Job.afterTransfer (j : Job) : Place :=
  match j.kind with
  | .read => .loop j.next
  | .write => .down j

/-- Past a look at `disk_done`. -/
def afterDown (t : ℕ) (j : Job) : ChannelM Unit := do
  let c ← get
  if c.lock.sched.inDown t = none then
    event .down
    goto t j.afterDown
  else goto t (.downLoop j)

/-- The next statement of the running thread in the driver; `m` is the semaphore of the lock, `k` is `disk_done`, and `ready` is what
`busy_wait` returns if it comes to its end. -/
def advance (m k : ℕ) (ready : Bool) : ChannelM Unit := do
  let c ← get
  let t := c.lock.sched.running
  match c.place t with
  | .out => pure ()
  | .lock j => do
    onLock (Lock.advance m)
    let c ← get
    if c.lock.pc t = .out then goto t (.loop j)
  | .loop j =>
    if j.secsDone < j.secCnt then do
      check ((j.lba + j.secsDone) % 4294967296 ≤ 163839) .maxLba
      goto t (.flag j)
    else do
      onLock (Lock.Action.release.run m)
      goto t .unlock
  | .flag j => do
    set { c with expecting := true }
    event .expect
    goto t (.command j)
  | .command j => do
    event .command
    goto t j.afterCommand
  | .down j => do
    onLock (Lock.onSched (semaDown k))
    afterDown t j
  | .downLoop j => do
    onLock (Lock.onSched Op.resume.run)
    afterDown t j
  | .busy j => do
    check (ready = true) .panic
    goto t (.transfer j)
  | .transfer j => goto t j.afterTransfer
  | .unlock => do
    onLock (Lock.advance m)
    let c ← get
    if c.lock.pc t = .out then goto t .out

/-- `ide_read` and `ide_write` up to `lock_acquire`. -/
def call (m : ℕ) (kind : Kind) (lba secCnt : ℕ) : ChannelM Unit := do
  let c ← get
  check (lba ≤ 163839) .maxLba
  check (0 < secCnt) .secCnt
  onLock (Lock.Action.acquire.run m)
  goto c.lock.sched.running (.lock { kind := kind, lba := lba, secCnt := secCnt, secsDone := 0 })

def intrHdHandler (k : ℕ) : ChannelM Unit := do
  let c ← get
  if c.expecting = true then
    set { c with expecting := false }
    onLock (Lock.onSched (semaUp k))
    event .up

inductive Action
  | call (kind : Kind) (lba secCnt : ℕ)
  | advance (ready : Bool)
  | interrupt
  /-- something that has nothing to do with the channel -/
  | other (op : Op)
  | setIntr (on : Bool)

def Action.run (m k : ℕ) : Action → ChannelM Unit
  | .call kind lba secCnt => DiskChannel.call m kind lba secCnt
  | .advance ready => DiskChannel.advance m k ready
  | .interrupt => intrHdHandler k
  | .other op => onLock (Lock.onSched op.run)
  | .setIntr on => modify fun c => { c with lock := { c.lock with sched := { c.lock.sched with intr := on } } }

/-- When an action can happen. Interrupts come while they are on, and not in `sema_down`, where they are off. In the driver a thread does
nothing else, but for yielding the processor in `busy_wait`. -/
def Action.Enabled (m k : ℕ) (c : Channel) : Action → Prop
  | .call _ _ _ => c.place c.lock.sched.running = .out ∧ c.lock.sched.inDown c.lock.sched.running = none ∧
      c.lock.sched.running ≠ c.lock.sched.idleThread
  | .advance _ => c.place c.lock.sched.running ≠ .out
  | .interrupt => c.lock.sched.inDown c.lock.sched.running = none ∧ c.lock.sched.intr = true
  | .other op => op.Enabled c.lock.sched ∧ Apart m c.lock.sched op ∧ Apart k c.lock.sched op ∧
      (c.place c.lock.sched.running = .out ∨ (FromInterrupt op ∧ c.lock.sched.intr = true) ∨
        (op = .threadYield ∧ ∃ j, c.place c.lock.sched.running = .busy j))
  | .setIntr _ => c.lock.sched.inDown c.lock.sched.running = none

/-- The channel as `ide_init` sets it up: `lock_init`, `sema_init(&disk_done, 0)`. -/
def start (m k : ℕ) (value : ℕ → ℕ) : Channel where
  lock := Lock.start m (Function.update value k 0)
  expecting := false
  place _ := .out
  log := []

inductive Reachable (m k : ℕ) (value : ℕ → ℕ) : Channel → Prop
  | init : Reachable m k value (start m k value)
  | step {c c' : Channel} {a : Action} {u : Unit} :
      Reachable m k value c → a.Enabled m k c → a.run m k c = .ok (u, c') → Reachable m k value c'

/-- The thread holds the lock and is between its calls. -/
def Place.Inside : Place → Prop
  | .loop _ | .flag _ | .command _ | .down _ | .downLoop _ | .busy _ | .transfer _ => True
  | .out | .lock _ | .unlock => False

/-- The thread has set `expecting_intr` and not yet come back from `sema_down`. -/
def Place.Pending : Place → Prop
  | .command _ | .down _ | .downLoop _ => True
  | .busy j | .transfer j => j.kind = .write
  | .out | .lock _ | .loop _ | .flag _ | .unlock => False

theorem Place.Pending.inside {p : Place} (h : p.Pending) : p.Inside := by
  cases p <;> trivial

/-- The events since `cmd_out` was last entered. -/
def recent (log : List Event) : List Event := log.takeWhile (· ≠ .expect)

/-- Between two entries of `cmd_out` the semaphore is raised once and taken once. -/
def Paired (log : List Event) : Prop :=
  ∀ after between before, log = after ++ Event.expect :: between ++ Event.expect :: before → Event.expect ∉ between →
    between.count .up = 1 ∧ between.count .down = 1

/-- `expecting_intr`, the value of `disk_done` and the log while a command is pending, and while none is. -/
structure PendingOk (e : Bool) (v : ℕ) (log : List Event) : Prop where
  entered : Event.expect ∈ log
  down : (recent log).count .down = 0
  up : (e = true ∧ v = 0 ∧ (recent log).count .up = 0) ∨ (e = false ∧ v = 1 ∧ (recent log).count .up = 1)

structure IdleOk (e : Bool) (v : ℕ) (log : List Event) : Prop where
  quiet : e = false ∧ v = 0
  counts : Event.expect ∈ log → (recent log).count .up = 1 ∧ (recent log).count .down = 1

def Proto (pending : Prop) (e : Bool) (v : ℕ) (log : List Event) : Prop :=
  (pending → PendingOk e v log) ∧ (¬ pending → IdleOk e v log)

/-- How the place of a thread in the driver goes with its place in the code of the lock and of `sema_down`. -/
structure Local (k : ℕ) (c : Channel) (t : ℕ) : Prop where
  out : c.place t = .out → c.lock.pc t = .out ∧ c.lock.depth t = 0
  acquiring : ∀ j, c.place t = .lock j → (c.lock.pc t).InAcquire
  inside : (c.place t).Inside → c.lock.pc t = .out ∧ c.lock.depth t = 1
  releasing : c.place t = .unlock → (c.lock.pc t).InRelease
  loop : (∃ j, c.place t = .downLoop j) ↔ ∃ old, c.lock.sched.inDown t = some (k, old)
  awake : (c.place t).Inside → (∀ j, c.place t ≠ .downLoop j) → c.lock.sched.inDown t = none
  caller : (c.place t).Inside → t ≠ c.lock.sched.idleThread

structure ChannelInv (m k : ℕ) (c : Channel) : Prop where
  lock : LockInv m 1 c.lock
  here : ∀ t, Local k c t
  paired : Paired c.log
  proto : Proto (∃ t, (c.place t).Pending) c.expecting (c.lock.sched.value k) c.log

variable {m k : ℕ} {c c' : Channel}

structure Still (t : ℕ) (c c' : Channel) : Prop where
  place : ∀ u, u ≠ t → c'.place u = c.place u
  pc : ∀ u, u ≠ t → c'.lock.pc u = c.lock.pc u
  depth : ∀ u, u ≠ t → c'.lock.depth u = c.lock.depth u
  inDown : ∀ u, u ≠ t → c'.lock.sched.inDown u = c.lock.sched.inDown u
  idle : c'.lock.sched.idleThread = c.lock.sched.idleThread

theorem Still.here {t : ℕ} (h : Still t c c') (hall : ∀ u, Local k c u) (hself : Local k c' t) (u : ℕ) : Local k c' u := by
  by_cases hu : u = t
  · rw [hu]
    exact hself
  · have hl := hall u
    refine ⟨?_, ?_, ?_, ?_, ?_, ?_, ?_⟩
    · rw [h.place u hu, h.pc u hu, h.depth u hu]
      exact hl.out
    · rw [h.place u hu, h.pc u hu]
      exact hl.acquiring
    · rw [h.place u hu, h.pc u hu, h.depth u hu]
      exact hl.inside
    · rw [h.place u hu, h.pc u hu]
      exact hl.releasing
    · rw [h.place u hu, h.inDown u hu]
      exact hl.loop
    · rw [h.place u hu, h.inDown u hu]
      exact hl.awake
    · rw [h.place u hu, h.idle]
      exact hl.caller

theorem ChannelInv.alone (inv : ChannelInv m k c) {t u : ℕ} (ht : (c.place t).Inside) (hu : (c.place u).Inside) : u = t := by
  apply inv.lock.one
  · exact .inl (by rw [((inv.here u).inside hu).2]; decide)
  · exact .inl (by rw [((inv.here t).inside ht).2]; decide)

theorem Still.pending_inside {t : ℕ} (h : Still t c c') (inv : ChannelInv m k c) (ht : (c.place t).Inside) :
    (∃ u, (c'.place u).Pending) ↔ (c'.place t).Pending := by
  constructor
  · rintro ⟨u, hu⟩
    by_cases hut : u = t
    · rw [← hut]
      exact hu
    · rw [h.place u hut] at hu
      exact absurd (inv.alone ht hu.inside) hut
  · intro ht'
    exact ⟨t, ht'⟩

theorem Still.pending_outside {t : ℕ} (h : Still t c c') (ht : ¬ (c.place t).Pending) (ht' : ¬ (c'.place t).Pending) :
    (∃ u, (c'.place u).Pending) ↔ ∃ u, (c.place u).Pending := by
  constructor
  · rintro ⟨u, hu⟩
    have hut : u ≠ t := by
      rintro rfl
      exact ht' hu
    rw [h.place u hut] at hu
    exact ⟨u, hu⟩
  · rintro ⟨u, hu⟩
    have hut : u ≠ t := by
      rintro rfl
      exact ht hu
    rw [← h.place u hut] at hu
    exact ⟨u, hu⟩

theorem recent_cons_ne {e : Event} (he : e ≠ .expect) (log : List Event) : recent (e :: log) = e :: recent log := by
  unfold recent
  rw [List.takeWhile_cons_of_pos (by simpa using he)]

theorem Paired.cons_ne {e : Event} (he : e ≠ .expect) {log : List Event} (h : Paired log) : Paired (e :: log) := by
  intro after between before hlog hbetween
  cases after with
  | nil =>
    obtain ⟨rfl, -⟩ := List.cons.inj hlog
    exact absurd rfl he
  | cons a after => exact h after between before (List.cons.inj hlog).2 hbetween

theorem Paired.expect {log : List Event} (h : Paired log)
    (hcounts : Event.expect ∈ log → (recent log).count .up = 1 ∧ (recent log).count .down = 1) : Paired (.expect :: log) := by
  intro after between before hlog hbetween
  cases after with
  | nil =>
    have hrest : log = between ++ Event.expect :: before := (List.cons.inj hlog).2
    have hrecent : recent log = between := by
      rw [hrest, recent, List.takeWhile_append_of_pos]
      · simp
      · intro e he
        simpa using fun heq : e = .expect => hbetween (heq ▸ he)
    rw [hrecent] at hcounts
    apply hcounts
    rw [hrest]
    simp
  | cons a after => exact h after between before (List.cons.inj hlog).2 hbetween

theorem Proto.congr {p p' : Prop} (h : p' ↔ p) {e : Bool} {v : ℕ} {log : List Event} (hp : Proto p e v log) : Proto p' e v log :=
  ⟨fun hp' => hp.1 (h.mp hp'), fun hp' => hp.2 fun hnot => hp' (h.mpr hnot)⟩

theorem Still.refl (t : ℕ) (c : Channel) : Still t c c := ⟨fun _ _ => rfl, fun _ _ => rfl, fun _ _ => rfl, fun _ _ => rfl, rfl⟩

theorem ChannelInv.proto_inside (inv : ChannelInv m k c) {t : ℕ} (ht : (c.place t).Inside) :
    Proto (c.place t).Pending c.expecting (c.lock.sched.value k) c.log :=
  inv.proto.congr ((Still.refl t c).pending_inside inv ht).symm

theorem ChannelInv.move (inv : ChannelInv m k c) {t : ℕ} (ht : (c.place t).Inside) (hloop : ∀ j, c.place t ≠ .downLoop j) {p : Place}
    (hp : p.Inside) (hp' : ∀ j, p ≠ .downLoop j) {e : Bool} {log : List Event} (hpaired : Paired log)
    (hproto : Proto p.Pending e (c.lock.sched.value k) log) :
    ChannelInv m k { c with place := Function.update c.place t p, expecting := e, log := log } := by
  have hstill : Still t c { c with place := Function.update c.place t p, expecting := e, log := log } :=
    ⟨fun u hu => Function.update_of_ne hu _ _, fun _ _ => rfl, fun _ _ => rfl, fun _ _ => rfl, rfl⟩
  have hself : Function.update c.place t p t = p := Function.update_self _ _ _
  have hlocal := inv.here t
  have hdown := hlocal.awake ht hloop
  refine ⟨inv.lock, hstill.here inv.here ?_, hpaired, ?_⟩
  · constructor <;> dsimp only <;> rw [hself]
    · rintro rfl
      exact absurd hp id
    · rintro j rfl
      exact absurd hp id
    · intro _
      exact hlocal.inside ht
    · rintro rfl
      exact absurd hp id
    · rw [hdown]
      simp [hp']
    · intro _ _
      exact hdown
    · intro _
      exact hlocal.caller ht
  · apply hproto.congr
    refine (hstill.pending_inside inv ht).trans ?_
    change (Function.update c.place t p t).Pending ↔ _
    rw [hself]

/-- Completes, or stops at a bad sector number or at a disk that does not answer: never in the lock or a semaphore. -/
def Ends (op : ChannelM Unit) (c : Channel) (Q : Channel → Prop) : Prop :=
  (∃ c', op c = .ok ((), c') ∧ Q c') ∨ ∃ f, op c = .error f ∧ ∀ g, f ≠ .lock g

theorem Ends.step {op : ChannelM Unit} {f : Unit → ChannelM Unit} {Q : Channel → Prop} (hop : op c = .ok ((), c'))
    (h : Ends (f ()) c' Q) : Ends (op >>= f) c Q := by
  unfold Ends
  rw [bind_eq hop]
  exact h

theorem Ends.get {f : Channel → ChannelM Unit} {Q : Channel → Prop} (h : Ends (f c) c Q) : Ends (MonadState.get >>= f) c Q := by
  unfold Ends
  rw [bind_eq (show (MonadState.get : ChannelM Channel) c = .ok (c, c) from rfl)]
  exact h

theorem Ends.put {f : PUnit → ChannelM Unit} {Q : Channel → Prop} (h : Ends (f ⟨⟩) c' Q) :
    Ends ((MonadStateOf.set c' : ChannelM PUnit) >>= f) c Q := by
  unfold Ends
  rw [bind_eq (show (MonadStateOf.set c' : ChannelM PUnit) c = .ok (⟨⟩, c') from rfl)]
  exact h

theorem Ends.check {p : Prop} [Decidable p] {f : ChannelFault} (hf : ∀ g, f ≠ .lock g) {g : Unit → ChannelM Unit} {Q : Channel → Prop}
    (h : p → Ends (g ()) c Q) : Ends (check p f >>= g) c Q := by
  by_cases hp : p
  · apply Ends.step _ (h hp)
    rw [DiskChannel.check, if_pos hp]
    rfl
  · refine .inr ⟨f, bind_error ?_ g, hf⟩
    rw [DiskChannel.check, if_neg hp]
    rfl

theorem Ends.goto {t : ℕ} {p : Place} {Q : Channel → Prop} (h : Q { c with place := Function.update c.place t p }) :
    Ends (goto t p) c Q := .inl ⟨_, rfl, h⟩

theorem Ends.event {e : Event} {f : PUnit → ChannelM Unit} {Q : Channel → Prop} (h : Ends (f ⟨⟩) { c with log := e :: c.log } Q) :
    Ends (event e >>= f) c Q :=
  Ends.step (show DiskChannel.event e c = .ok ((), { c with log := e :: c.log }) from rfl) h

theorem Ends.onLock {op : LockM Unit} {f : Unit → ChannelM Unit} {P : LockSys → Prop} {Q : Channel → Prop}
    (hop : Runs op c.lock fun _ l => P l) (h : ∀ l, P l → op c.lock = .ok ((), l) → Ends (f ()) { c with lock := l } Q) :
    Ends (onLock op >>= f) c Q := by
  obtain ⟨u, l, hrun, hp⟩ := hop
  have hstep : DiskChannel.onLock op c = .ok ((), { c with lock := l }) := by
    unfold DiskChannel.onLock
    rw [hrun]
  exact Ends.step hstep (h l hp hrun)

theorem recent_expect (log : List Event) : recent (.expect :: log) = [] := by
  simp [recent]

theorem ChannelInv.flag (inv : ChannelInv m k c) {t : ℕ} {j : Job} (hp : c.place t = .flag j) :
    ChannelInv m k { c with place := Function.update c.place t (.command j), expecting := true, log := .expect :: c.log } := by
  have ht : (c.place t).Inside := by
    rw [hp]
    trivial
  have hproto := inv.proto_inside ht
  rw [hp] at hproto
  have hidle := hproto.2 id
  apply inv.move ht (by simp [hp]) (p := .command j) trivial (by simp)
  · exact inv.paired.expect hidle.counts
  · refine ⟨fun _ => ⟨List.mem_cons_self, ?_, .inl ⟨rfl, hidle.quiet.2, ?_⟩⟩, fun hnot => absurd trivial hnot⟩
    · rw [recent_expect]
      rfl
    · rw [recent_expect]
      rfl

theorem PendingOk.cons {e : Bool} {v : ℕ} {log : List Event} (h : PendingOk e v log) : PendingOk e v (.command :: log) := by
  refine ⟨List.mem_cons_of_mem _ h.entered, ?_, ?_⟩
  · rw [recent_cons_ne (by decide), List.count_cons_of_ne (by decide)]
    exact h.down
  · rw [recent_cons_ne (by decide), List.count_cons_of_ne (by decide)]
    exact h.up

theorem ChannelInv.command (inv : ChannelInv m k c) {t : ℕ} {j : Job} (hp : c.place t = .command j) :
    ChannelInv m k { c with place := Function.update c.place t j.afterCommand, log := .command :: c.log } := by
  have ht : (c.place t).Inside := by
    rw [hp]
    trivial
  have hproto := inv.proto_inside ht
  rw [hp] at hproto
  have hafter : j.afterCommand.Inside ∧ j.afterCommand.Pending ∧ ∀ i, j.afterCommand ≠ .downLoop i := by
    unfold Job.afterCommand
    cases hk : j.kind with
    | read => exact ⟨trivial, trivial, by simp⟩
    | write => exact ⟨trivial, hk, by simp⟩
  apply inv.move ht (by simp [hp]) hafter.1 hafter.2.2
  · exact inv.paired.cons_ne (by decide)
  · exact ⟨fun _ => (hproto.1 trivial).cons, fun hnot => absurd hafter.2.1 hnot⟩

theorem ChannelInv.transfer (inv : ChannelInv m k c) {t : ℕ} {j : Job} (hp : c.place t = .transfer j) :
    ChannelInv m k { c with place := Function.update c.place t j.afterTransfer } := by
  have ht : (c.place t).Inside := by
    rw [hp]
    trivial
  have hproto := inv.proto_inside ht
  rw [hp] at hproto
  have hafter : j.afterTransfer.Inside ∧ (j.afterTransfer.Pending ↔ (Place.transfer j).Pending) ∧
      ∀ i, j.afterTransfer ≠ .downLoop i := by
    unfold Job.afterTransfer
    cases hk : j.kind with
    | read => exact ⟨trivial, iff_of_false id (by simp [Place.Pending, hk]), by simp⟩
    | write => exact ⟨trivial, iff_of_true trivial hk, by simp⟩
  exact inv.move ht (by simp [hp]) hafter.1 hafter.2.2 inv.paired (hproto.congr hafter.2.1)

theorem ChannelInv.advance_inside (inv : ChannelInv m k c) (ready : Bool)
    (hp : (∃ j, c.place c.lock.sched.running = .flag j) ∨ (∃ j, c.place c.lock.sched.running = .command j) ∨
      (∃ j, c.place c.lock.sched.running = .busy j) ∨ ∃ j, c.place c.lock.sched.running = .transfer j) :
    Ends (advance m k ready) c (ChannelInv m k) := by
  unfold advance
  apply Ends.get
  rcases hp with ⟨j, hp⟩ | ⟨j, hp⟩ | ⟨j, hp⟩ | ⟨j, hp⟩ <;> simp only [hp]
  · apply Ends.put
    apply Ends.event
    apply Ends.goto
    exact inv.flag hp
  · apply Ends.event
    apply Ends.goto
    exact inv.command hp
  · apply Ends.check (by simp)
    intro _
    apply Ends.goto
    have ht : (c.place c.lock.sched.running).Inside := by
      rw [hp]
      trivial
    have hproto := inv.proto_inside ht
    rw [hp] at hproto
    exact inv.move ht (by simp [hp]) (p := .transfer j) trivial (by simp) inv.paired hproto
  · apply Ends.goto
    exact inv.transfer hp

theorem ChannelInv.look (inv : ChannelInv m k c) {j : Job}
    (hp : c.place c.lock.sched.running = .down j ∨ c.place c.lock.sched.running = .downLoop j) {s : Sched}
    (hlock : LockInv m 1 { c.lock with sched := s }) (hlooked : Looked k c.lock.sched.running c.lock.sched s) :
    Ends (afterDown c.lock.sched.running j) { c with lock := { c.lock with sched := s } } (ChannelInv m k) := by
  have ht : (c.place c.lock.sched.running).Inside := by
    rcases hp with hp | hp <;> rw [hp] <;> trivial
  have hpending : (c.place c.lock.sched.running).Pending := by
    rcases hp with hp | hp <;> rw [hp] <;> trivial
  have hok := (inv.proto_inside ht).1 hpending
  have hlocal := inv.here c.lock.sched.running
  generalize c.lock.sched.running = t at *
  have hstill : ∀ (p : Place) (log : List Event),
      Still t c { c with lock := { c.lock with sched := s }, place := Function.update c.place t p, log := log } :=
    fun p log => ⟨fun u hu => Function.update_of_ne hu _ _, fun _ _ => rfl, fun _ _ => rfl, hlooked.others, hlooked.idle⟩
  have hself : ∀ p : Place, Function.update c.place t p t = p := fun p => Function.update_self _ _ _
  unfold afterDown
  apply Ends.get
  rcases hlooked.result with ⟨hone, hzero, hnone⟩ | ⟨hzero, hzero', hsome⟩
  · -- the semaphore had been raised, so that no interrupt is expected any more
    rw [if_pos hnone]
    apply Ends.event
    apply Ends.goto
    obtain ⟨he, hup⟩ : c.expecting = false ∧ (recent c.log).count .up = 1 := by
      rcases hok.up with ⟨-, hv, -⟩ | ⟨he, -, hup⟩
      · exact absurd (hv.symm.trans hone) (by decide)
      · exact ⟨he, hup⟩
    have hafter : j.afterDown.Inside ∧ ¬ j.afterDown.Pending ∧ ∀ i, j.afterDown ≠ .downLoop i := by
      unfold Job.afterDown
      cases hk : j.kind with
      | read => exact ⟨trivial, by simp [Place.Pending, hk], by simp⟩
      | write => exact ⟨trivial, id, by simp⟩
    refine ⟨hlock, (hstill j.afterDown (.down :: c.log)).here inv.here ?_, inv.paired.cons_ne (by decide), ?_⟩
    · constructor <;> dsimp only <;> rw [hself]
      · intro hout
        rw [hout] at hafter
        exact absurd hafter.1 id
      · intro i hi
        rw [hi] at hafter
        exact absurd hafter.1 id
      · intro _
        exact hlocal.inside ht
      · intro hout
        rw [hout] at hafter
        exact absurd hafter.1 id
      · rw [hnone]
        simp [hafter.2.2]
      · intro _ _
        exact hnone
      · intro _
        rw [hlooked.idle]
        exact hlocal.caller ht
    · have hpend := (hstill j.afterDown (.down :: c.log)).pending_inside inv ht
      dsimp only at hpend
      rw [hself] at hpend
      refine ⟨fun hp => absurd (hpend.mp hp) hafter.2.1, fun _ => ⟨⟨he, hzero⟩, fun _ => ?_⟩⟩
      dsimp only
      rw [recent_cons_ne (by decide), List.count_cons_of_ne (by decide), List.count_cons_self, hok.down]
      exact ⟨hup, rfl⟩
  · obtain ⟨old, hsome⟩ := hsome
    have hne : ¬ s.inDown t = none := by
      rw [hsome]
      simp
    rw [if_neg hne]
    apply Ends.goto
    refine ⟨hlock, (hstill (.downLoop j) c.log).here inv.here ?_, inv.paired, ?_⟩
    · constructor <;> dsimp only <;> rw [hself]
      · simp
      · simp
      · intro _
        exact hlocal.inside ht
      · simp
      · exact ⟨fun _ => ⟨old, hsome⟩, fun _ => ⟨j, rfl⟩⟩
      · intro _ hno
        exact absurd rfl (hno j)
      · intro _
        rw [hlooked.idle]
        exact hlocal.caller ht
    · have hpend := (hstill (.downLoop j) c.log).pending_inside inv ht
      dsimp only at hpend
      rw [hself] at hpend
      refine ⟨fun _ => ?_, fun hno => absurd (hpend.mpr trivial) hno⟩
      dsimp only
      rw [hzero', ← hzero]
      exact hok

theorem ChannelInv.value_le (inv : ChannelInv m k c) : c.lock.sched.value k ≤ 1 := by
  by_cases hp : ∃ t, (c.place t).Pending
  · rcases (inv.proto.1 hp).up with ⟨-, hv, -⟩ | ⟨-, hv, -⟩ <;> omega
  · have := (inv.proto.2 hp).quiet.2
    omega

theorem onSched_runs {op : SchedM Unit} {l : LockSys} (h : Runs op l.sched fun _ s => SchedInv s) :
    Runs (Lock.onSched op) l fun _ l' => SchedInv l'.sched ∧ op l.sched = .ok ((), l'.sched) ∧ l' = { l with sched := l'.sched } := by
  obtain ⟨_, s, hrun, hs⟩ := h
  refine ⟨(), { l with sched := s }, ?_, hs, hrun, rfl⟩
  unfold Lock.onSched
  rw [hrun]

theorem ChannelInv.advance_down (hmk : k ≠ m) (inv : ChannelInv m k c) (ready : Bool)
    (hp : (∃ j, c.place c.lock.sched.running = .down j) ∨ ∃ j, c.place c.lock.sched.running = .downLoop j) :
    Ends (advance m k ready) c (ChannelInv m k) := by
  have hlocal := inv.here c.lock.sched.running
  have ht : (c.place c.lock.sched.running).Inside := by
    rcases hp with ⟨j, hp⟩ | ⟨j, hp⟩ <;> rw [hp] <;> trivial
  have hpc := (hlocal.inside ht).1
  have hidle := hlocal.caller ht
  unfold advance
  apply Ends.get
  rcases hp with ⟨j, hp⟩ | ⟨j, hp⟩ <;> simp only [hp]
  · have hdown := hlocal.awake ht (by simp [hp])
    apply Ends.onLock (onSched_runs (semaDown_runs inv.lock.sched hidle inv.value_le))
    rintro l ⟨hs, hop, hl⟩ -
    rw [hl]
    have hlooked := semaDown_looked k _ _ _ hop
    apply inv.look (.inl hp) _ hlooked
    apply inv.lock.other (.semaDown k) (.inl hpc) hs
    have he : (Op.semaDown k).Enabled c.lock.sched := ⟨hdown, hidle⟩
    exact Op.beside (by simp) he hmk _ _ hop
  · obtain ⟨old, hdown⟩ := hlocal.loop.mp ⟨j, hp⟩
    have hresume : Runs Op.resume.run c.lock.sched fun _ s => SchedInv s := by
      apply Runs.get
      simp only [hdown]
      exact semaDownRound_runs inv.lock.sched hidle inv.value_le old
    apply Ends.onLock (onSched_runs hresume)
    rintro l ⟨hs, hop, hl⟩ -
    rw [hl]
    have hlooked := resume_looked hdown _ _ hop
    apply inv.look (.inr hp) _ hlooked
    apply inv.lock.other .resume (.inl hpc) hs
    refine Op.beside (by simp) ?_ ?_ _ _ hop
    · change (c.lock.sched.inDown c.lock.sched.running).isSome = true
      rw [hdown]
      rfl
    · intro old' hold
      rw [hdown] at hold
      obtain ⟨he, -⟩ := Prod.mk.inj (Option.some.inj hold)
      exact hmk he

theorem Frame.still {l : LockSys} (h : Frame m c.lock l) (p : Place) :
    Still c.lock.sched.running c { c with lock := l, place := Function.update c.place c.lock.sched.running p } :=
  ⟨fun _ hu => Function.update_of_ne hu _ _, h.pc, h.depth, h.inDown, h.idle⟩

theorem ChannelInv.lockStep (hmk : k ≠ m) (inv : ChannelInv m k c) {l : LockSys} (hlock : LockInv m 1 l) (h : Frame m c.lock l)
    (hp : ¬ (c.place c.lock.sched.running).Pending) {p : Place} (hpend : ¬ p.Pending)
    (hout : p = .out → l.pc c.lock.sched.running = .out ∧ l.depth c.lock.sched.running = 0)
    (hacquire : ∀ j, p = .lock j → (l.pc c.lock.sched.running).InAcquire)
    (hinside : p.Inside → l.pc c.lock.sched.running = .out ∧ l.depth c.lock.sched.running = 1 ∧
      c.lock.sched.running ≠ c.lock.sched.idleThread)
    (hrelease : p = .unlock → (l.pc c.lock.sched.running).InRelease) :
    ChannelInv m k { c with lock := l, place := Function.update c.place c.lock.sched.running p } := by
  have hstill := Frame.still h p
  have hself : Function.update c.place c.lock.sched.running p c.lock.sched.running = p := Function.update_self _ _ _
  have hnot : ∀ j, p ≠ .downLoop j := by
    rintro j rfl
    exact hpend trivial
  refine ⟨hlock, hstill.here inv.here ?_, inv.paired, ?_⟩
  · constructor <;> dsimp only <;> rw [hself]
    · exact hout
    · exact hacquire
    · intro hin
      exact ⟨(hinside hin).1, (hinside hin).2.1⟩
    · exact hrelease
    · apply iff_of_false
      · rintro ⟨j, hj⟩
        exact hnot j hj
      · rintro ⟨old, hold⟩
        rcases h.self with hnone | ⟨old', hsome⟩
        · rw [hnone] at hold
          cases hold
        · rw [hsome] at hold
          obtain ⟨he, -⟩ := Prod.mk.inj (Option.some.inj hold)
          exact hmk he.symm
    · intro hin _
      rcases h.self with hnone | hsome
      · exact hnone
      · have hpc := (hlock.loop _).mpr hsome
        rw [(hinside hin).1] at hpc
        cases hpc
    · intro hin
      rw [h.idle]
      exact (hinside hin).2.2
  · have hpend' := hstill.pending_outside hp (by dsimp only; rw [hself]; exact hpend)
    have hproto := inv.proto.congr hpend'
    dsimp only
    rw [h.value k hmk]
    exact hproto

theorem keep_place (c : Channel) (l : LockSys) (t : ℕ) :
    ({ c with lock := l } : Channel) = { c with lock := l, place := Function.update c.place t (c.place t) } := by
  rw [Function.update_eq_self]

theorem ChannelInv.advance_lock (hmk : k ≠ m) (inv : ChannelInv m k c) (ready : Bool)
    (hp : (∃ j, c.place c.lock.sched.running = .lock j) ∨ c.place c.lock.sched.running = .unlock) :
    Ends (advance m k ready) c (ChannelInv m k) := by
  have hlocal := inv.here c.lock.sched.running
  have hfits := inv.lock.fits c.lock.sched.running
  unfold advance
  apply Ends.get
  rcases hp with ⟨j, hp⟩ | hp <;> simp only [hp]
  · have hin := hlocal.acquiring j hp
    have hpc : c.lock.pc c.lock.sched.running ≠ .out := by
      intro hout
      rw [hout] at hin
      exact hin
    apply Ends.onLock (inv.lock.advance (by decide) hpc)
    intro l hl hrun
    have hframe := advance_frame inv.lock hpc _ _ hrun
    have hnot : ¬ (c.place c.lock.sched.running).Pending := by
      rw [hp]
      exact id
    apply Ends.get
    split_ifs with hout
    · apply Ends.goto
      apply inv.lockStep hmk hl hframe hnot id (by simp) (by simp) _ (by simp)
      intro _
      refine ⟨hout, ?_, inv.lock.caller _ hpc⟩
      rcases hframe.acquire hin with ⟨hin', -⟩ | ⟨-, hd⟩
      · rw [hout] at hin'
        exact absurd hin' id
      · rw [hd, depth_acquire hfits hin]
    · refine .inl ⟨_, rfl, ?_⟩
      rw [keep_place c l c.lock.sched.running, hp]
      apply inv.lockStep hmk hl hframe hnot id (by simp) _ (fun h => absurd h id) (by simp)
      intro _ _
      rcases hframe.acquire hin with ⟨hin', -⟩ | ⟨hout', -⟩
      · exact hin'
      · exact absurd hout' hout
  · have hin := hlocal.releasing hp
    have hpc : c.lock.pc c.lock.sched.running ≠ .out := by
      intro hout
      rw [hout] at hin
      exact hin
    apply Ends.onLock (inv.lock.advance (by decide) hpc)
    intro l hl hrun
    have hframe := advance_frame inv.lock hpc _ _ hrun
    have hnot : ¬ (c.place c.lock.sched.running).Pending := by
      rw [hp]
      exact id
    apply Ends.get
    split_ifs with hout
    · apply Ends.goto
      apply inv.lockStep hmk hl hframe hnot id _ (by simp) (fun h => absurd h id) (by simp)
      intro _
      refine ⟨hout, ?_⟩
      rcases hframe.release hin with ⟨hin', -⟩ | ⟨-, hd⟩
      · rw [hout] at hin'
        exact absurd hin' id
      · rw [hd, depth_release hfits hin]
    · refine .inl ⟨_, rfl, ?_⟩
      rw [keep_place c l c.lock.sched.running, hp]
      apply inv.lockStep hmk hl hframe hnot id (by simp) (by simp) (fun h => absurd h id)
      intro _
      rcases hframe.release hin with ⟨hin', -⟩ | ⟨hout', -⟩
      · exact hin'
      · exact absurd hout' hout

theorem ChannelInv.advance_loop (hmk : k ≠ m) (inv : ChannelInv m k c) (ready : Bool) {j : Job}
    (hp : c.place c.lock.sched.running = .loop j) : Ends (advance m k ready) c (ChannelInv m k) := by
  have hlocal := inv.here c.lock.sched.running
  have ht : (c.place c.lock.sched.running).Inside := by
    rw [hp]
    trivial
  have hdown := hlocal.awake ht (by simp [hp])
  obtain ⟨hpc, hdepth⟩ := hlocal.inside ht
  have hproto := inv.proto_inside ht
  unfold advance
  apply Ends.get
  simp only [hp]
  split_ifs with hmore
  · apply Ends.check (by simp)
    intro _
    apply Ends.goto
    rw [hp] at hproto
    exact inv.move ht (by simp [hp]) (p := .flag j) trivial (by simp) inv.paired hproto
  · have he : Lock.Action.release.Enabled m 1 c.lock := ⟨hpc, hdown, hlocal.caller ht, by rw [hdepth]; decide⟩
    apply Ends.onLock (inv.lock.callRelease he)
    intro l hl hrun
    rw [(ok_inj hrun (goto_eq c.lock _ .assertHolder c.lock.holder c.lock.repeatNr)).2] at hl ⊢
    apply Ends.goto
    apply inv.lockStep hmk hl (frame_enter hpc hdown _) (by rw [hp]; exact id) id (by simp) (by simp) (fun h => absurd h id)
    intro _
    rw [show (c.lock.put c.lock.sched.running .assertHolder _ _ _).pc c.lock.sched.running = .assertHolder from
      Function.update_self _ _ _]
    trivial

theorem ChannelInv.advance (hmk : k ≠ m) (inv : ChannelInv m k c) (ready : Bool) (hout : c.place c.lock.sched.running ≠ .out) :
    Ends (advance m k ready) c (ChannelInv m k) := by
  cases hp : c.place c.lock.sched.running with
  | out => exact absurd hp hout
  | lock j => exact inv.advance_lock hmk ready (.inl ⟨j, hp⟩)
  | loop j => exact inv.advance_loop hmk ready hp
  | flag j => exact inv.advance_inside ready (.inl ⟨j, hp⟩)
  | command j => exact inv.advance_inside ready (.inr (.inl ⟨j, hp⟩))
  | down j => exact inv.advance_down hmk ready (.inl ⟨j, hp⟩)
  | downLoop j => exact inv.advance_down hmk ready (.inr ⟨j, hp⟩)
  | busy j => exact inv.advance_inside ready (.inr (.inr (.inl ⟨j, hp⟩)))
  | transfer j => exact inv.advance_inside ready (.inr (.inr (.inr ⟨j, hp⟩)))
  | unlock => exact inv.advance_lock hmk ready (.inr hp)

theorem ChannelInv.call (hmk : k ≠ m) (inv : ChannelInv m k c) {kind : Kind} {lba secCnt : ℕ}
    (he : (Action.call kind lba secCnt).Enabled m k c) : Ends (call m kind lba secCnt) c (ChannelInv m k) := by
  obtain ⟨hp, hdown, hidle⟩ := he
  obtain ⟨hpc, hdepth⟩ := (inv.here c.lock.sched.running).out hp
  unfold DiskChannel.call
  apply Ends.get
  apply Ends.check (by simp)
  intro _
  apply Ends.check (by simp)
  intro _
  have he : Lock.Action.acquire.Enabled m 1 c.lock := ⟨hpc, hdown, hidle, by rw [hdepth]; decide⟩
  apply Ends.onLock (inv.lock.acquire he)
  intro l hl hrun
  rw [(ok_inj hrun (goto_eq c.lock _ .test c.lock.holder c.lock.repeatNr)).2] at hl ⊢
  apply Ends.goto
  apply inv.lockStep hmk hl (frame_enter hpc hdown _) (by rw [hp]; exact id) id (by simp) _ (fun h => absurd h id) (by simp)
  intro _ _
  rw [show (c.lock.put c.lock.sched.running .test _ _ _).pc c.lock.sched.running = .test from Function.update_self _ _ _]
  trivial

theorem ChannelInv.other (inv : ChannelInv m k c) {s : Sched} (hlock : LockInv m 1 { c.lock with sched := s })
    (hothers : ∀ u, u ≠ c.lock.sched.running → s.inDown u = c.lock.sched.inDown u)
    (hloop : (∃ old, s.inDown c.lock.sched.running = some (k, old)) ↔ ∃ old, c.lock.sched.inDown c.lock.sched.running = some (k, old))
    (hinside : (c.place c.lock.sched.running).Inside → s.inDown c.lock.sched.running = c.lock.sched.inDown c.lock.sched.running)
    (hidle : s.idleThread = c.lock.sched.idleThread) {e : Bool} {log : List Event} (hpaired : Paired log)
    (hproto : Proto (∃ t, (c.place t).Pending) e (s.value k) log) :
    ChannelInv m k { c with lock := { c.lock with sched := s }, expecting := e, log := log } := by
  have hlocal := inv.here c.lock.sched.running
  have hstill : Still c.lock.sched.running c { c with lock := { c.lock with sched := s }, expecting := e, log := log } :=
    ⟨fun _ _ => rfl, fun _ _ => rfl, fun _ _ => rfl, hothers, hidle⟩
  refine ⟨hlock, hstill.here inv.here ?_, hpaired, hproto⟩
  refine ⟨hlocal.out, hlocal.acquiring, hlocal.inside, hlocal.releasing, hlocal.loop.trans hloop.symm, ?_, ?_⟩
  · intro hin hno
    exact (hinside hin).trans (hlocal.awake hin hno)
  · intro hin
    dsimp only
    rw [hidle]
    exact hlocal.caller hin

theorem ChannelInv.interrupt (hmk : k ≠ m) (inv : ChannelInv m k c) (he : Action.interrupt.Enabled m k c) :
    Ends (intrHdHandler k) c (ChannelInv m k) := by
  unfold intrHdHandler
  apply Ends.get
  split_ifs with hexpect
  · obtain ⟨hpend, hok, hv, hup⟩ : (∃ t, (c.place t).Pending) ∧ PendingOk c.expecting (c.lock.sched.value k) c.log ∧
        c.lock.sched.value k = 0 ∧ (recent c.log).count .up = 0 := by
      by_cases hpend : ∃ t, (c.place t).Pending
      · have hok := inv.proto.1 hpend
        rcases hok.up with ⟨-, hv, hup⟩ | ⟨hfalse, -⟩
        · exact ⟨hpend, hok, hv, hup⟩
        · rw [hexpect] at hfalse
          cases hfalse
      · have hfalse := (inv.proto.2 hpend).quiet.1
        rw [hexpect] at hfalse
        cases hfalse
    apply Ends.put
    apply Ends.onLock (c := { c with expecting := false }) (onSched_runs (semaUp_runs inv.lock.sched hv))
    rintro l ⟨hs, hop, hl⟩ -
    have hraised := semaUp_raised k _ _ _ hop
    have henabled : (Op.semaUp k).Enabled c.lock.sched := he.1
    have hlock := inv.lock.other (.semaUp k) (.inr ⟨trivial, he.2⟩) hs (Op.beside (by simp) henabled hmk _ _ hop)
    rw [hl]
    refine .inl ⟨_, rfl, ?_⟩
    apply inv.other hlock (fun u _ => congrFun hraised.inDown u) _ (fun _ => congrFun hraised.inDown _) hraised.idle
    · exact inv.paired.cons_ne (by decide)
    · refine ⟨fun _ => ⟨List.mem_cons_of_mem _ hok.entered, ?_, .inr ⟨rfl, hraised.value, ?_⟩⟩, fun hno => absurd hpend hno⟩
      · rw [recent_cons_ne (by decide), List.count_cons_of_ne (by decide)]
        exact hok.down
      · rw [recent_cons_ne (by decide), List.count_cons_self, hup]
    · rw [hraised.inDown]
  · exact .inl ⟨c, rfl, inv⟩

theorem Ends.after {op : ChannelM Unit} {Q : Channel → Prop} (h : Ends op c Q) : After op c fun _ c' => Q c' := by
  intro u c' hrun
  rcases h with ⟨c₁, hok, hq⟩ | ⟨f, herr, -⟩
  · obtain ⟨-, rfl⟩ := ok_inj hok hrun
    exact hq
  · rw [herr] at hrun
    cases hrun

theorem ChannelInv.step (hmk : k ≠ m) (inv : ChannelInv m k c) {a : Action} (he : a.Enabled m k c) :
    After (a.run m k) c fun _ c' => ChannelInv m k c' := by
  cases a with
  | call kind lba secCnt => exact (inv.call hmk he).after
  | advance ready => exact (inv.advance hmk ready he).after
  | interrupt => exact (inv.interrupt hmk he).after
  | other op =>
    obtain ⟨hop, hm, hk, hwhere⟩ := he
    intro u c' hrun
    change onLock (Lock.onSched op.run) c = _ at hrun
    unfold onLock Lock.onSched at hrun
    cases hs : op.run c.lock.sched with
    | error f =>
      rw [hs] at hrun
      cases hrun
    | ok r =>
      rw [hs] at hrun
      cases hrun
      have hnew : c.lock.sched.inDown c.lock.sched.count = none := (inv.lock.fresh _ (le_refl _)).2.2
      have hbm := Op.beside (fun _ _ => hnew) hop hm _ _ hs
      have hbk := Op.beside (fun _ _ => hnew) hop hk _ _ hs
      have hinv : SchedInv r.2 := by
        rcases Op.completes inv.lock.sched hop with ⟨s, hok, hinv⟩ | herr
        · rw [hs] at hok
          cases hok
          exact hinv
        · rw [hs] at herr
          cases herr
      have hsame : (c.place c.lock.sched.running).Inside →
          r.2.inDown c.lock.sched.running = c.lock.sched.inDown c.lock.sched.running := by
        intro hin
        rcases hwhere with hp | ⟨hint, -⟩ | ⟨rfl, -⟩
        · rw [hp] at hin
          exact absurd hin id
        · rw [hbk.interrupt hint]
        · rw [(threadYield_after _ _ _ hs).inDown]
      have hlock : LockInv m 1 { c.lock with sched := r.2 } := by
        apply inv.lock.other op _ hinv hbm
        rcases hwhere with hp | ⟨hint, hon⟩ | ⟨-, j, hp⟩
        · exact .inl ((inv.here _).out hp).1
        · exact .inr ⟨hint, hon⟩
        · exact .inl ((inv.here _).inside (by rw [hp]; trivial)).1
      apply inv.other hlock hbk.others hbk.loop hsame hbk.idle inv.paired
      rw [hbk.value]
      exact inv.proto
  | setIntr on =>
    intro u c' hrun
    cases hrun
    have hlock : LockInv m 1 { c.lock with sched := { c.lock.sched with intr := on } } := by
      obtain ⟨hs, hfits, hone, hholder, hcounted, hzero, hvalue, hloop, hclear, hfresh, hcaller⟩ := inv.lock
      exact ⟨⟨hs.toQueues.other on c.lock.sched.saved c.lock.sched.ticks c.lock.sched.value, hs.run⟩, hfits, hone, hholder, hcounted,
        hzero, hvalue, hloop, hclear, hfresh, hcaller⟩
    exact inv.other hlock (fun _ _ => rfl) Iff.rfl (fun _ => rfl) rfl inv.paired inv.proto

theorem start_channelInv (hmk : k ≠ m) (value : ℕ → ℕ) : ChannelInv m k (start m k value) := by
  have hnone : ¬ ∃ t, ((start m k value).place t).Pending := by
    rintro ⟨t, ht⟩
    exact ht
  refine ⟨start_inv m 1 _, ?_, ?_, fun hp => absurd hp hnone, fun _ => ⟨⟨rfl, ?_⟩, fun h => absurd h List.not_mem_nil⟩⟩
  · intro t
    refine ⟨fun _ => ⟨rfl, rfl⟩, nofun, fun h => absurd h id, nofun, ?_, fun h => absurd h id, fun h => absurd h id⟩
    simp [start, Lock.start, afterInit]
  · intro after between before hlog
    simp [start] at hlog
  · change Function.update (Function.update value k 0) m 1 k = 0
    rw [Function.update_of_ne hmk, Function.update_self]

theorem Reachable.inv {value : ℕ → ℕ} (hmk : k ≠ m) (h : Reachable m k value c) : ChannelInv m k c := by
  induction h with
  | init => exact start_channelInv hmk value
  | step _ he hrun ih => exact ih.step hmk he _ _ hrun

/-- Between two entries of `cmd_out` the semaphore is raised exactly once and taken exactly once, whatever interrupts come; at each entry
its value is 0; and neither the driver nor the handler fails an assertion of the lock or of the semaphore. -/
theorem disk_completion (m k : ℕ) (hmk : k ≠ m) (value : ℕ → ℕ) (c : Channel) (h : Reachable m k value c) :
    (∀ after between before, c.log = after ++ Event.expect :: between ++ Event.expect :: before → Event.expect ∉ between →
      between.count .up = 1 ∧ between.count .down = 1) ∧
      (∀ t j, c.place t = .flag j → c.lock.sched.value k = 0 ∧ c.expecting = false) ∧
      ∀ a : Action, a.Enabled m k c → (∀ op, a ≠ .other op) → ∀ f, a.run m k c ≠ .error (.lock f) := by
  have inv := h.inv hmk
  refine ⟨inv.paired, ?_, ?_⟩
  · intro t j hp
    have ht : (c.place t).Inside := by
      rw [hp]
      trivial
    have hproto := inv.proto_inside ht
    rw [hp] at hproto
    exact ⟨(hproto.2 id).quiet.2, (hproto.2 id).quiet.1⟩
  · intro a he hother f herr
    have hends : ∀ op : ChannelM Unit, Ends op c (ChannelInv m k) → op c ≠ .error (.lock f) := by
      rintro op (⟨c', hok, -⟩ | ⟨g, hg, hnot⟩) herr
      · rw [hok] at herr
        cases herr
      · rw [hg] at herr
        cases herr
        exact hnot f rfl
    cases a with
    | call kind lba secCnt => exact hends _ (inv.call hmk he) herr
    | advance ready => exact hends _ (inv.advance hmk ready he) herr
    | interrupt => exact hends _ (inv.interrupt hmk he) herr
    | other op => exact hother op rfl
    | setIntr on => cases herr

def Channel.after (m k : ℕ) (c : Channel) (a : Action) : Channel :=
  match a.run m k c with
  | .ok (_, c') => c'
  | .error _ => c

/-- `Action.Enabled`, decided; it leaves out the operations that have nothing to do with the channel. -/
def Action.enabledNow (c : Channel) : Action → Bool
  | .call _ _ _ => decide (c.place c.lock.sched.running = .out ∧ c.lock.sched.inDown c.lock.sched.running = none ∧
      c.lock.sched.running ≠ c.lock.sched.idleThread)
  | .advance _ => decide (c.place c.lock.sched.running ≠ .out)
  | .interrupt => decide (c.lock.sched.inDown c.lock.sched.running = none ∧ c.lock.sched.intr = true)
  | .other _ => false
  | .setIntr _ => decide (c.lock.sched.inDown c.lock.sched.running = none)

theorem Action.enabled_of_now {a : Action} (h : a.enabledNow c = true) (m k : ℕ) : a.Enabled m k c := by
  cases a <;> simp_all [Action.enabledNow, Action.Enabled]

def allRun (m k : ℕ) : List Action → Channel → Bool
  | [], _ => true
  | a :: rest, c => a.enabledNow c && (a.run m k c).isOk && allRun m k rest (c.after m k a)

theorem Reachable.runAll {value : ℕ → ℕ} (h : Reachable m k value c) {actions : List Action} (hrun : allRun m k actions c = true) :
    Reachable m k value (actions.foldl (Channel.after m k) c) := by
  induction actions generalizing c with
  | nil => exact h
  | cons a rest ih =>
    rw [allRun, Bool.and_eq_true, Bool.and_eq_true] at hrun
    obtain ⟨⟨hnow, hok⟩, hrest⟩ := hrun
    apply ih _ hrest
    unfold Channel.after
    cases hstep : a.run m k c with
    | error f =>
      rw [hstep] at hok
      cases hok
    | ok p => exact h.step (Action.enabled_of_now hnow m k) hstep

/-- A read of 257 sectors takes two commands. The disk answers the first; it interrupts again after `cmd_out` has set `expecting_intr`
for the second and before that command is written. -/
def lateInterrupt : List Action :=
  [.setIntr true, .call .read 0 257] ++ List.replicate 8 (.advance true) ++ [.interrupt] ++ List.replicate 5 (.advance true) ++
    [.interrupt, .advance true]

def lateInterruptEnd : Channel := lateInterrupt.foldl (Channel.after 0 1) (start 0 1 fun _ => 0)

theorem two_ups_between_commands : ¬ ∀ (m k : ℕ), k ≠ m → ∀ (value : ℕ → ℕ) (c : Channel), Reachable m k value c →
    ∀ after between before, c.log = after ++ Event.command :: between ++ Event.command :: before → Event.command ∉ between →
      between.count .up = 1 ∧ between.count .down = 1 := by
  intro hclaim
  have hreach : Reachable 0 1 (fun _ => 0) lateInterruptEnd := Reachable.init.runAll (by decide)
  have hlog : lateInterruptEnd.log = [] ++ Event.command :: [.up, .expect, .down, .up] ++ Event.command :: [.expect] := by decide
  have hone := (hclaim 0 1 (by decide) _ _ hreach _ _ _ hlog (by decide)).1
  exact absurd hone (by decide)

theorem disk_completion_late_interrupt : lateInterruptEnd.log.count .expect = 2 ∧
    ([Event.down, .up, .command].count .up = 1 ∧ [Event.down, .up, .command].count .down = 1) :=
  ⟨by decide, (disk_completion 0 1 (by decide) _ lateInterruptEnd (Reachable.init.runAll (by decide))).1 [.command, .up]
    [.down, .up, .command] [] (by decide) (by decide)⟩

end ElephantOS.DiskChannel
