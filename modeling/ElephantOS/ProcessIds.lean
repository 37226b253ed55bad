import ElephantOS.Lock

/-! `allocate_pid` of `thread/thread.c`, statement by statement, under `pid_lock` and any schedule. -/

namespace ElephantOS.ProcessIds

open HaltingState Scheduler Lock

/-- Where a thread is in `allocate_pid`: in `lock_acquire`, before the load and the store of `next_pid++`, before and in `lock_release`,
and before it reads `next_pid` for the result. -/
inductive Place
  | out | acquiring | load | storing (v : BitVec 16) | unlock | releasing | result
  deriving DecidableEq

structure PidSys where
  /-- the scheduler and `pid_lock` -/
  lock : LockSys
  nextPid : BitVec 16
  place : ℕ → Place
  /-- the pids that `allocate_pid` has returned, the last one first -/
  pids : List (BitVec 16)
  /-- how often `next_pid` was incremented -/
  created : ℕ

abbrev PidM := Exec LockFault PidSys

def onLock (op : LockM Unit) : PidM Unit := fun s =>
  match op s.lock with
  | .ok (u, l) => .ok (u, { s with lock := l })
  | .error f => .error f

def goto (t : ℕ) (p : Place) : PidM Unit := modify fun s => { s with place := Function.update s.place t p }

/-- The next statement of the running thread in `allocate_pid`; `m` is the semaphore of `pid_lock`. -/
def advance (m : ℕ) : PidM Unit := do
  let s ← get
  let t := s.lock.sched.running
  match s.place t with
  | .out => pure ()
  | .acquiring => do
    onLock (Lock.advance m)
    let s ← get
    if s.lock.pc t = .out then goto t .load
  | .load => goto t (.storing s.nextPid)
  | .storing v => do
    set { s with nextPid := v + 1#16, created := s.created + 1 }
    goto t .unlock
  | .unlock => do
    onLock (Lock.Action.release.run m)
    goto t .releasing
  | .releasing => do
    onLock (Lock.advance m)
    let s ← get
    if s.lock.pc t = .out then goto t .result
  | .result => do
    set { s with pids := s.nextPid :: s.pids }
    goto t .out

def allocatePid (m : ℕ) : PidM Unit := do
  let s ← get
  onLock (Lock.Action.acquire.run m)
  goto s.lock.sched.running .acquiring

inductive Action
  | allocatePid
  | advance
  /-- something that has nothing to do with pids -/
  | other (op : Op)
  | setIntr (on : Bool)

def Action.run (m : ℕ) : Action → PidM Unit
  | .allocatePid => ProcessIds.allocatePid m
  | .advance => ProcessIds.advance m
  | .other op => onLock (Lock.onSched op.run)
  | .setIntr on => modify fun s => { s with lock := { s.lock with sched := { s.lock.sched with intr := on } } }

/-- When an action can happen: in `allocate_pid` only interrupts come between the statements, while they are on. -/
def Action.Enabled (m : ℕ) (s : PidSys) : Action → Prop
  | .allocatePid => s.place s.lock.sched.running = .out ∧ s.lock.sched.inDown s.lock.sched.running = none ∧
      s.lock.sched.running ≠ s.lock.sched.idleThread
  | .advance => s.place s.lock.sched.running ≠ .out
  | .other op => op.Enabled s.lock.sched ∧ Apart m s.lock.sched op ∧
      (s.place s.lock.sched.running = .out ∨ FromInterrupt op ∧ s.lock.sched.intr = true)
  | .setIntr _ => s.place s.lock.sched.running = .out ∧ s.lock.sched.inDown s.lock.sched.running = none

/-- The end of `thread_init`: `main` and `idle` have got their pids one after the other. -/
def start (m : ℕ) (value : ℕ → ℕ) : PidSys where
  lock := Lock.start m value
  nextPid := 2
  place _ := .out
  pids := [2, 1]
  created := 2

/-- The runs whose steps all satisfy `Met`. -/
inductive Reachable (m : ℕ) (value : ℕ → ℕ) (Met : PidSys → Action → Prop) : PidSys → Prop
  | init : Reachable m value Met (start m value)
  | step {s s' : PidSys} {a : Action} {u : Unit} : Reachable m value Met s → a.Enabled m s → Met s a → a.run m s = .ok (u, s') →
      Reachable m value Met s'

/-- `next_pid` is not incremented while a thread has released the lock and not yet read its pid. -/
def Undisturbed (s : PidSys) (a : Action) : Prop :=
  ∀ v, a = .advance → s.place s.lock.sched.running = .storing v → ∀ t, s.place t ≠ .result

/-- The thread holds the lock and is between its calls. -/
def Place.Inside : Place → Prop
  | .load | .storing _ | .unlock => True
  | .out | .acquiring | .releasing | .result => False

/-- The thread has incremented `next_pid` and not yet read it back. -/
def Place.Window : Place → Prop
  | .unlock | .releasing | .result => True
  | .out | .acquiring | .load | .storing _ => False

structure Local (s : PidSys) (t : ℕ) : Prop where
  out : s.place t = .out ∨ s.place t = .result → s.lock.pc t = .out ∧ s.lock.depth t = 0
  acquiring : s.place t = .acquiring → (s.lock.pc t).InAcquire
  inside : (s.place t).Inside → s.lock.pc t = .out ∧ s.lock.depth t = 1
  releasing : s.place t = .releasing → (s.lock.pc t).InRelease
  awake : (s.place t).Inside → s.lock.sched.inDown t = none
  caller : (s.place t).Inside → t ≠ s.lock.sched.idleThread

/-- The pids returned so far: as numbers they are different, and below the counter while a thread is about to read it. -/
def Given (window : Prop) (created : ℕ) (pids : List (BitVec 16)) : Prop := ∃ l : List ℕ, pids = l.map (BitVec.ofNat 16) ∧ l.Nodup ∧
  ∀ i ∈ l, 0 < i ∧ i ≤ created ∧ (window → i < created)

structure PidInv (m : ℕ) (s : PidSys) : Prop where
  lock : LockInv m 1 s.lock
  here : ∀ t, Local s t
  value : ∀ t v, s.place t = .storing v → v = s.nextPid
  next : s.nextPid = BitVec.ofNat 16 s.created
  positive : 0 < s.created
  one : ∀ t u, (s.place t).Window → (s.place u).Window → t = u
  fresh : ∀ t, s.lock.sched.count ≤ t → s.place t = .out
  given : Given (∃ t, (s.place t).Window) s.created s.pids

variable {m : ℕ} {s s' : PidSys}

structure Still (t : ℕ) (s s' : PidSys) : Prop where
  place : ∀ u, u ≠ t → s'.place u = s.place u
  pc : ∀ u, u ≠ t → s'.lock.pc u = s.lock.pc u
  depth : ∀ u, u ≠ t → s'.lock.depth u = s.lock.depth u
  inDown : ∀ u, u ≠ t → s'.lock.sched.inDown u = s.lock.sched.inDown u
  idle : s'.lock.sched.idleThread = s.lock.sched.idleThread
  count : s.lock.sched.count ≤ s'.lock.sched.count

theorem Still.here {t : ℕ} (h : Still t s s') (hall : ∀ u, Local s u) (hself : Local s' t) (u : ℕ) : Local s' u := by
  by_cases hu : u = t
  · rw [hu]
    exact hself
  · have hl := hall u
    refine ⟨?_, ?_, ?_, ?_, ?_, ?_⟩
    · rw [h.place u hu, h.pc u hu, h.depth u hu]
      exact hl.out
    · rw [h.place u hu, h.pc u hu]
      exact hl.acquiring
    · rw [h.place u hu, h.pc u hu, h.depth u hu]
      exact hl.inside
    · rw [h.place u hu, h.pc u hu]
      exact hl.releasing
    · rw [h.place u hu, h.inDown u hu]
      exact hl.awake
    · rw [h.place u hu, h.idle]
      exact hl.caller

theorem Still.fresh (inv : PidInv m s) (h : Still s.lock.sched.running s s') (t : ℕ) (ht : s'.lock.sched.count ≤ t) : s'.place t = .out := by
  have hcount := le_trans h.count ht
  have hne : t ≠ s.lock.sched.running := by
    rintro rfl
    exact absurd inv.lock.sched.current (not_lt_of_ge hcount)
  rw [h.place t hne]
  exact inv.fresh t hcount

theorem PidInv.alone (inv : PidInv m s) {t u : ℕ} (ht : (s.place t).Inside) (hu : (s.place u).Inside) : u = t := by
  apply inv.lock.one
  · exact .inl (by rw [((inv.here u).inside hu).2]; decide)
  · exact .inl (by rw [((inv.here t).inside ht).2]; decide)

theorem Given.mono {window window' : Prop} {created : ℕ} {pids : List (BitVec 16)} (h : Given window created pids)
    (hw : window' → window) : Given window' created pids := by
  obtain ⟨l, hl, hnodup, hin⟩ := h
  exact ⟨l, hl, hnodup, fun i hi => ⟨(hin i hi).1, (hin i hi).2.1, fun h => (hin i hi).2.2 (hw h)⟩⟩

theorem PidInv.move (inv : PidInv m s) {l : LockSys} {p : Place} (hlock : LockInv m 1 l)
    (hstill : Still s.lock.sched.running s { s with lock := l, place := Function.update s.place s.lock.sched.running p })
    (hself : Local { s with lock := l, place := Function.update s.place s.lock.sched.running p } s.lock.sched.running)
    (hwindow : p.Window → (s.place s.lock.sched.running).Window) (hvalue : ∀ v, p = .storing v → v = s.nextPid) :
    PidInv m { s with lock := l, place := Function.update s.place s.lock.sched.running p } := by
  have hback : ∀ t, (Function.update s.place s.lock.sched.running p t).Window → (s.place t).Window := by
    intro t ht
    by_cases hr : t = s.lock.sched.running
    · subst hr
      rw [Function.update_self] at ht
      exact hwindow ht
    · rwa [Function.update_of_ne hr] at ht
  refine ⟨hlock, hstill.here inv.here hself, ?_, inv.next, inv.positive, ?_, hstill.fresh inv, ?_⟩
  · intro t v ht
    by_cases hr : t = s.lock.sched.running
    · subst hr
      dsimp only at ht
      rw [Function.update_self] at ht
      exact hvalue v ht
    · dsimp only at ht
      rw [Function.update_of_ne hr] at ht
      exact inv.value t v ht
  · intro t u ht hu
    exact inv.one t u (hback t ht) (hback u hu)
  · apply inv.given.mono
    rintro ⟨t, ht⟩
    exact ⟨t, hback t ht⟩

theorem onLock_ok {op : LockM Unit} {f : Unit → PidM Unit} {r : Unit × PidSys} (h : (onLock op >>= f) s = .ok r) :
    ∃ l, op s.lock = .ok ((), l) ∧ f () { s with lock := l } = .ok r := by
  obtain ⟨_, s₁, hop, hf⟩ := (bind_ok _ f s _).mp h
  unfold onLock at hop
  cases hl : op s.lock with
  | error f =>
    rw [hl] at hop
    cases hop
  | ok p =>
    rw [hl] at hop
    cases hop
    exact ⟨p.2, rfl, hf⟩

theorem goto_ok {t : ℕ} {p : Place} {u : Unit} (h : goto t p s = .ok (u, s')) :
    s' = { s with place := Function.update s.place t p } := by
  cases h
  rfl

theorem frame_still {l : LockSys} (h : Frame m s.lock l) (p : Place) :
    Still s.lock.sched.running s { s with lock := l, place := Function.update s.place s.lock.sched.running p } :=
  ⟨fun _ hu => Function.update_of_ne hu _ _, h.pc, h.depth, h.inDown, h.idle, h.count⟩

theorem PidInv.lockStep (inv : PidInv m s) {l : LockSys} (hlock : LockInv m 1 l) (h : Frame m s.lock l) {p : Place}
    (hwindow : p.Window → (s.place s.lock.sched.running).Window) (hstoring : ∀ v, p ≠ .storing v)
    (hout : p = .out ∨ p = .result → l.pc s.lock.sched.running = .out ∧ l.depth s.lock.sched.running = 0)
    (hacquire : p = .acquiring → (l.pc s.lock.sched.running).InAcquire)
    (hinside : p.Inside → l.pc s.lock.sched.running = .out ∧ l.depth s.lock.sched.running = 1 ∧
      s.lock.sched.running ≠ s.lock.sched.idleThread)
    (hrelease : p = .releasing → (l.pc s.lock.sched.running).InRelease) :
    PidInv m { s with lock := l, place := Function.update s.place s.lock.sched.running p } := by
  have hself : Function.update s.place s.lock.sched.running p s.lock.sched.running = p := Function.update_self _ _ _
  apply inv.move hlock (frame_still h p) _ hwindow fun v hv => absurd hv (hstoring v)
  constructor <;> dsimp only <;> rw [hself]
  · exact hout
  · exact hacquire
  · intro hin
    exact ⟨(hinside hin).1, (hinside hin).2.1⟩
  · exact hrelease
  · intro hin
    rcases h.self with hnone | hsome
    · exact hnone
    · have hpc := (hlock.loop _).mpr hsome
      rw [(hinside hin).1] at hpc
      cases hpc
  · intro hin
    rw [h.idle]
    exact (hinside hin).2.2

theorem keep_place (s : PidSys) (l : LockSys) (t : ℕ) :
    ({ s with lock := l } : PidSys) = { s with lock := l, place := Function.update s.place t (s.place t) } := by
  rw [Function.update_eq_self]

theorem PidInv.allocatePid (inv : PidInv m s) (he : Action.allocatePid.Enabled m s) :
    After (allocatePid m) s fun _ s' => PidInv m s' := by
  obtain ⟨hp, hdown, hidle⟩ := he
  obtain ⟨hpc, hdepth⟩ := (inv.here s.lock.sched.running).out (.inl hp)
  intro u s' hrun
  rw [ProcessIds.allocatePid, get_bind] at hrun
  obtain ⟨l, hl, hgoto⟩ := onLock_ok hrun
  have he : Lock.Action.acquire.Enabled m 1 s.lock := ⟨hpc, hdown, hidle, by rw [hdepth]; decide⟩
  have hlock := inv.lock.step (by decide) he _ _ hl
  rw [(ok_inj hl (goto_eq s.lock _ .test s.lock.holder s.lock.repeatNr)).2] at hlock hgoto
  rw [goto_ok hgoto]
  apply inv.lockStep hlock (frame_enter hpc hdown _) (fun h => absurd h id) (by simp) (by simp) _ (fun h => absurd h id) (by simp)
  intro _
  rw [show (s.lock.put s.lock.sched.running .test _ _ _).pc s.lock.sched.running = .test from Function.update_self _ _ _]
  trivial

theorem PidInv.advance_lock (inv : PidInv m s) {u : Unit} (hrun : advance m s = .ok (u, s'))
    (hp : s.place s.lock.sched.running = .acquiring ∨ s.place s.lock.sched.running = .releasing) : PidInv m s' := by
  have hlocal := inv.here s.lock.sched.running
  have hfits := inv.lock.fits s.lock.sched.running
  rw [advance, get_bind] at hrun
  rcases hp with hp | hp <;> simp only [hp] at hrun
  · have hin := hlocal.acquiring hp
    have hpc : s.lock.pc s.lock.sched.running ≠ .out := by
      intro hout
      rw [hout] at hin
      exact hin
    obtain ⟨l, hl, hrest⟩ := onLock_ok hrun
    have hframe := advance_frame inv.lock hpc _ _ hl
    have hlock := inv.lock.step (a := .advance) (by decide) hpc _ _ hl
    rw [get_bind] at hrest
    split_ifs at hrest with hout
    · rw [goto_ok hrest]
      apply inv.lockStep hlock hframe (fun h => absurd h id) (by simp) (by simp) (by simp) _ (by simp)
      intro _
      refine ⟨hout, ?_, inv.lock.caller _ hpc⟩
      rcases hframe.acquire hin with ⟨hin', -⟩ | ⟨-, hd⟩
      · rw [hout] at hin'
        exact absurd hin' id
      · rw [hd, depth_acquire hfits hin]
    · cases hrest
      rw [keep_place s l s.lock.sched.running, hp]
      apply inv.lockStep hlock hframe (fun h => absurd h id) (by simp) (by simp) _ (fun h => absurd h id) (by simp)
      intro _
      rcases hframe.acquire hin with ⟨hin', -⟩ | ⟨hout', -⟩
      · exact hin'
      · exact absurd hout' hout
  · have hin := hlocal.releasing hp
    have hpc : s.lock.pc s.lock.sched.running ≠ .out := by
      intro hout
      rw [hout] at hin
      exact hin
    have hwindow : (s.place s.lock.sched.running).Window := by
      rw [hp]
      trivial
    obtain ⟨l, hl, hrest⟩ := onLock_ok hrun
    have hframe := advance_frame inv.lock hpc _ _ hl
    have hlock := inv.lock.step (a := .advance) (by decide) hpc _ _ hl
    rw [get_bind] at hrest
    split_ifs at hrest with hout
    · rw [goto_ok hrest]
      apply inv.lockStep hlock hframe (fun _ => hwindow) (by simp) _ (by simp) (fun h => absurd h id) (by simp)
      intro _
      refine ⟨hout, ?_⟩
      rcases hframe.release hin with ⟨hin', -⟩ | ⟨-, hd⟩
      · rw [hout] at hin'
        exact absurd hin' id
      · rw [hd, depth_release hfits hin]
    · cases hrest
      rw [keep_place s l s.lock.sched.running, hp]
      apply inv.lockStep hlock hframe (fun _ => hwindow) (by simp) (by simp) (by simp) (fun h => absurd h id)
      intro _
      rcases hframe.release hin with ⟨hin', -⟩ | ⟨hout', -⟩
      · exact hin'
      · exact absurd hout' hout

theorem PidInv.inside_step (inv : PidInv m s) (ht : (s.place s.lock.sched.running).Inside) {p : Place} (hp : p.Inside) {n : BitVec 16}
    {created : ℕ} : ∀ t, Local { s with place := Function.update s.place s.lock.sched.running p, nextPid := n, created := created } t := by
  have hlocal := inv.here s.lock.sched.running
  have hself : Function.update s.place s.lock.sched.running p s.lock.sched.running = p := Function.update_self _ _ _
  have hstill : Still s.lock.sched.running s
      { s with place := Function.update s.place s.lock.sched.running p, nextPid := n, created := created } :=
    ⟨fun _ hu => Function.update_of_ne hu _ _, fun _ _ => rfl, fun _ _ => rfl, fun _ _ => rfl, rfl, le_refl _⟩
  apply hstill.here inv.here
  constructor <;> dsimp only <;> rw [hself]
  · rintro (rfl | rfl) <;> exact absurd hp id
  · rintro rfl
    exact absurd hp id
  · intro _
    exact hlocal.inside ht
  · rintro rfl
    exact absurd hp id
  · intro _
    exact hlocal.awake ht
  · intro _
    exact hlocal.caller ht

theorem PidInv.load (inv : PidInv m s) (hp : s.place s.lock.sched.running = .load) :
    PidInv m { s with place := Function.update s.place s.lock.sched.running (.storing s.nextPid) } := by
  have ht : (s.place s.lock.sched.running).Inside := by
    rw [hp]
    trivial
  have hstill : Still s.lock.sched.running s
      { s with lock := s.lock, place := Function.update s.place s.lock.sched.running (.storing s.nextPid) } :=
    ⟨fun _ hu => Function.update_of_ne hu _ _, fun _ _ => rfl, fun _ _ => rfl, fun _ _ => rfl, rfl, le_refl _⟩
  apply inv.move inv.lock hstill (inv.inside_step ht (p := .storing s.nextPid) trivial _) (fun h => absurd h id)
  rintro v hv
  exact (Place.storing.inj hv).symm

theorem PidInv.store (inv : PidInv m s) {v : BitVec 16} (hp : s.place s.lock.sched.running = .storing v)
    (hquiet : ∀ t, s.place t ≠ .result) :
    PidInv m { s with
      place := Function.update s.place s.lock.sched.running .unlock
      nextPid := v + 1#16
      created := s.created + 1 } := by
  have ht : (s.place s.lock.sched.running).Inside := by
    rw [hp]
    trivial
  have hself : Function.update s.place s.lock.sched.running Place.unlock s.lock.sched.running = .unlock := Function.update_self _ _ _
  -- whoever has incremented the counter and not read it yet owns the lock or has released it
  have hnone : ∀ t, ¬ (s.place t).Window := by
    intro t hw
    have hlocal := inv.here t
    have howner : s.place t = .unlock ∨ s.place t = .releasing → t = s.lock.sched.running := by
      intro h
      apply inv.lock.one
      · rcases h with h | h
        · exact .inl (by rw [(hlocal.inside (by rw [h]; trivial)).2]; decide)
        · exact .inl (by rw [depth_release (inv.lock.fits t) (hlocal.releasing h)]; decide)
      · exact .inl (by rw [((inv.here _).inside ht).2]; decide)
    cases hplace : s.place t with
    | out | acquiring | load | storing w =>
      rw [hplace] at hw
      exact hw
    | result => exact hquiet t hplace
    | unlock | releasing =>
      have heq := howner (by simp [hplace])
      rw [heq, hp] at hplace
      cases hplace
  have honly : ∀ t, (Function.update s.place s.lock.sched.running Place.unlock t).Window → t = s.lock.sched.running := by
    intro t hw
    by_contra hne
    rw [Function.update_of_ne hne] at hw
    exact hnone t hw
  obtain ⟨l, hl, hnodup, hin⟩ := inv.given
  have hstill : Still s.lock.sched.running s
      { s with place := Function.update s.place s.lock.sched.running .unlock, nextPid := v + 1#16, created := s.created + 1 } :=
    ⟨fun _ hu => Function.update_of_ne hu _ _, fun _ _ => rfl, fun _ _ => rfl, fun _ _ => rfl, rfl, le_refl _⟩
  refine ⟨inv.lock, inv.inside_step ht (p := .unlock) trivial, ?_, ?_, Nat.succ_pos _, ?_, hstill.fresh inv, l, hl, hnodup, ?_⟩
  · intro t w hw
    by_cases hr : t = s.lock.sched.running
    · subst hr
      dsimp only at hw
      rw [hself] at hw
      cases hw
    · dsimp only at hw
      rw [Function.update_of_ne hr] at hw
      exact absurd (inv.alone ht (by rw [hw]; trivial)) hr
  · dsimp only
    rw [inv.value _ v hp, inv.next, BitVec.ofNat_add]
  · intro t u hw hw'
    rw [honly t hw, honly u hw']
  · intro i hi
    have hle := (hin i hi).2.1
    exact ⟨(hin i hi).1, Nat.le_succ_of_le hle, fun _ => Nat.lt_succ_of_le hle⟩

theorem PidInv.release (inv : PidInv m s) {u : Unit} (hrun : advance m s = .ok (u, s'))
    (hp : s.place s.lock.sched.running = .unlock) : PidInv m s' := by
  have hlocal := inv.here s.lock.sched.running
  have ht : (s.place s.lock.sched.running).Inside := by
    rw [hp]
    trivial
  have hdown := hlocal.awake ht
  obtain ⟨hpc, hdepth⟩ := hlocal.inside ht
  rw [advance, get_bind] at hrun
  simp only [hp] at hrun
  obtain ⟨l, hl, hgoto⟩ := onLock_ok hrun
  have he : Lock.Action.release.Enabled m 1 s.lock := ⟨hpc, hdown, hlocal.caller ht, by rw [hdepth]; decide⟩
  have hlock := inv.lock.step (by decide) he _ _ hl
  rw [(ok_inj hl (goto_eq s.lock _ .assertHolder s.lock.holder s.lock.repeatNr)).2] at hlock hgoto
  rw [goto_ok hgoto]
  apply inv.lockStep hlock (frame_enter hpc hdown _) (fun _ => by rw [hp]; trivial) (by simp) (by simp) (by simp)
    (fun h => absurd h id)
  intro _
  rw [show (s.lock.put s.lock.sched.running .assertHolder _ _ _).pc s.lock.sched.running = .assertHolder from
    Function.update_self _ _ _]
  trivial

theorem PidInv.result (inv : PidInv m s) (hp : s.place s.lock.sched.running = .result) :
    PidInv m { s with
      place := Function.update s.place s.lock.sched.running .out
      pids := s.nextPid :: s.pids } := by
  have hw : (s.place s.lock.sched.running).Window := by
    rw [hp]
    trivial
  have hlocal := inv.here s.lock.sched.running
  have hself : Function.update s.place s.lock.sched.running Place.out s.lock.sched.running = .out := Function.update_self _ _ _
  have hstill : Still s.lock.sched.running s
      { s with lock := s.lock, place := Function.update s.place s.lock.sched.running .out } :=
    ⟨fun _ hu => Function.update_of_ne hu _ _, fun _ _ => rfl, fun _ _ => rfl, fun _ _ => rfl, rfl, le_refl _⟩
  have hmove : PidInv m { s with lock := s.lock, place := Function.update s.place s.lock.sched.running .out } := by
    apply inv.move inv.lock hstill _ (fun h => absurd h id) (by simp)
    constructor <;> dsimp only <;> rw [hself]
    · intro _
      exact hlocal.out (.inr hp)
    · simp
    · exact fun h => absurd h id
    · simp
    · exact fun h => absurd h id
    · exact fun h => absurd h id
  have hnone : ∀ t, ¬ (Function.update s.place s.lock.sched.running Place.out t).Window := by
    intro t ht
    by_cases hr : t = s.lock.sched.running
    · subst hr
      rw [hself] at ht
      exact ht
    · rw [Function.update_of_ne hr] at ht
      exact hr (inv.one _ _ ht hw)
  refine ⟨hmove.lock, fun t => ⟨(hmove.here t).out, (hmove.here t).acquiring, (hmove.here t).inside, (hmove.here t).releasing,
    (hmove.here t).awake, (hmove.here t).caller⟩, hmove.value, hmove.next, hmove.positive, hmove.one, hmove.fresh, ?_⟩
  obtain ⟨l, hl, hnodup, hin⟩ := inv.given
  have hwindow : ∃ t, (s.place t).Window := ⟨_, hw⟩
  refine ⟨s.created :: l, by rw [List.map_cons, ← hl, ← inv.next], List.nodup_cons.mpr ⟨?_, hnodup⟩, ?_⟩
  · intro hmem
    exact absurd ((hin _ hmem).2.2 hwindow) (lt_irrefl _)
  · intro i hi
    refine ⟨?_, ?_, ?_⟩
    · rcases List.mem_cons.mp hi with rfl | hi
      · exact inv.positive
      · exact (hin i hi).1
    · rcases List.mem_cons.mp hi with rfl | hi
      · exact le_refl _
      · exact (hin i hi).2.1
    · rintro ⟨t, ht⟩
      exact absurd ht (hnone t)

theorem PidInv.advance (inv : PidInv m s) (hmet : Undisturbed s .advance) {u : Unit} (hrun : advance m s = .ok (u, s')) :
    PidInv m s' := by
  cases hp : s.place s.lock.sched.running with
  | acquiring => exact inv.advance_lock hrun (.inl hp)
  | releasing => exact inv.advance_lock hrun (.inr hp)
  | unlock => exact inv.release hrun hp
  | out =>
    rw [ProcessIds.advance, get_bind] at hrun
    simp only [hp] at hrun
    cases hrun
    exact inv
  | load =>
    rw [ProcessIds.advance, get_bind] at hrun
    simp only [hp] at hrun
    rw [goto_ok hrun]
    exact inv.load hp
  | storing v =>
    rw [ProcessIds.advance, get_bind] at hrun
    simp only [hp] at hrun
    cases hrun
    exact inv.store hp (hmet v rfl hp)
  | result =>
    rw [ProcessIds.advance, get_bind] at hrun
    simp only [hp] at hrun
    cases hrun
    exact inv.result hp

theorem PidInv.outside (inv : PidInv m s) {t : Sched} (hlock : LockInv m 1 { s.lock with sched := t })
    (hothers : ∀ u, u ≠ s.lock.sched.running → t.inDown u = s.lock.sched.inDown u)
    (hinside : (s.place s.lock.sched.running).Inside → t.inDown s.lock.sched.running = s.lock.sched.inDown s.lock.sched.running)
    (hidle : t.idleThread = s.lock.sched.idleThread) (hcount : s.lock.sched.count ≤ t.count) :
    PidInv m { s with lock := { s.lock with sched := t } } := by
  have hlocal := inv.here s.lock.sched.running
  have hstill : Still s.lock.sched.running s { s with lock := { s.lock with sched := t } } :=
    ⟨fun _ _ => rfl, fun _ _ => rfl, fun _ _ => rfl, hothers, hidle, hcount⟩
  refine ⟨hlock, hstill.here inv.here ?_, inv.value, inv.next, inv.positive, inv.one, hstill.fresh inv, inv.given⟩
  refine ⟨hlocal.out, hlocal.acquiring, hlocal.inside, hlocal.releasing, ?_, ?_⟩
  · intro hin
    exact (hinside hin).trans (hlocal.awake hin)
  · intro hin
    dsimp only
    rw [hidle]
    exact hlocal.caller hin

theorem PidInv.other (inv : PidInv m s) {op : Op} (he : (Action.other op).Enabled m s) :
    After ((Action.other op).run m) s fun _ s' => PidInv m s' := by
  obtain ⟨hop, hapart, hwhere⟩ := he
  intro u s' hrun
  change onLock (Lock.onSched op.run) s = _ at hrun
  unfold onLock Lock.onSched at hrun
  cases hs : op.run s.lock.sched with
  | error f =>
    rw [hs] at hrun
    cases hrun
  | ok r =>
    rw [hs] at hrun
    cases hrun
    have hbeside := Op.beside (fun _ _ => (inv.lock.fresh _ (le_refl _)).2.2) hop hapart _ _ hs
    have hlockOp : (Lock.Action.other op).Enabled m 1 s.lock := by
      refine ⟨hop, hapart, ?_⟩
      rcases hwhere with hp | hint
      · exact .inl ((inv.here _).out (.inl hp)).1
      · exact .inr hint
    have hlockRun : (Lock.Action.other op).run m s.lock = .ok ((), { s.lock with sched := r.2 }) := by
      change Lock.onSched op.run s.lock = _
      unfold Lock.onSched
      rw [hs]
    apply inv.outside (inv.lock.step (by decide) hlockOp _ _ hlockRun) hbeside.others _ hbeside.idle hbeside.count
    intro hin
    rcases hwhere with hp | ⟨hint, -⟩
    · rw [hp] at hin
      exact absurd hin id
    · rw [hbeside.interrupt hint]

theorem PidInv.step (inv : PidInv m s) {a : Action} (he : a.Enabled m s) (hmet : Undisturbed s a) :
    After (a.run m) s fun _ s' => PidInv m s' := by
  cases a with
  | allocatePid => exact inv.allocatePid he
  | advance =>
    intro u s' hrun
    exact inv.advance hmet hrun
  | other op => exact inv.other he
  | setIntr on =>
    intro u s' hrun
    cases hrun
    have hlock : LockInv m 1 { s.lock with sched := { s.lock.sched with intr := on } } := by
      obtain ⟨hs, hfits, hone, hholder, hcounted, hzero, hvalue, hloop, hclear, hfresh, hcaller⟩ := inv.lock
      exact ⟨⟨hs.toQueues.other on s.lock.sched.saved s.lock.sched.ticks s.lock.sched.value, hs.run⟩, hfits, hone, hholder, hcounted,
        hzero, hvalue, hloop, hclear, hfresh, hcaller⟩
    exact inv.outside hlock (fun _ _ => rfl) (fun _ => rfl) rfl (le_refl _)

theorem start_pidInv (m : ℕ) (value : ℕ → ℕ) : PidInv m (start m value) := by
  refine ⟨start_inv m 1 _, ?_, nofun, rfl, Nat.succ_pos 1, fun t u ht => absurd ht id, fun _ _ => rfl, [2, 1], rfl, by decide, ?_⟩
  · intro t
    exact ⟨fun _ => ⟨rfl, rfl⟩, nofun, fun h => absurd h id, nofun, fun h => absurd h id, fun h => absurd h id⟩
  · intro i hi
    have hi' : i = 2 ∨ i = 1 := by simpa using hi
    refine ⟨by omega, ?_, ?_⟩
    · change i ≤ 2
      omega
    · rintro ⟨t, ht⟩
      exact absurd ht id

theorem Reachable.inv {value : ℕ → ℕ} (h : Reachable m value Undisturbed s) : PidInv m s := by
  induction h with
  | init => exact start_pidInv m value
  | step _ he hmet hrun ih => exact ih.step he hmet _ _ hrun

/-- While fewer than 32768 pids are created and no thread is preempted between the release of the lock and the read of its pid for as
long as another one needs to increment the counter, all pids are different and positive. -/
theorem pids_unique (m : ℕ) (value : ℕ → ℕ) (s : PidSys) (h : Reachable m value Undisturbed s) (hcreated : s.created < 32768) :
    s.pids.Nodup ∧ ∀ p ∈ s.pids, 0 < p.toInt := by
  obtain ⟨l, hl, hnodup, hin⟩ := h.inv.given
  have htoNat : ∀ i ∈ l, (BitVec.ofNat 16 i).toNat = i := by
    intro i hi
    have hle := (hin i hi).2.1
    rw [BitVec.toNat_ofNat, Nat.mod_eq_of_lt (by omega)]
  rw [hl]
  constructor
  · apply hnodup.map_on
    intro i hi j hj heq
    rw [← htoNat i hi, heq, htoNat j hj]
  · intro p hp
    obtain ⟨i, hi, rfl⟩ := List.mem_map.mp hp
    obtain ⟨hpos, hle, -⟩ := hin i hi
    rw [BitVec.toInt_eq_toNat_cond, htoNat i hi, if_pos (by omega)]
    omega

/-- `Action.Enabled`, decided; it leaves out most operations that have nothing to do with pids. -/
def Action.enabledNow (s : PidSys) : Action → Bool
  | .allocatePid => decide (s.place s.lock.sched.running = .out ∧ s.lock.sched.inDown s.lock.sched.running = none ∧
      s.lock.sched.running ≠ s.lock.sched.idleThread)
  | .advance => decide (s.place s.lock.sched.running ≠ .out)
  | .other (.threadStart _) | .other .threadYield => decide (s.place s.lock.sched.running = .out ∧
      s.lock.sched.inDown s.lock.sched.running = none)
  | .other (.threadBlock stat) => decide (s.place s.lock.sched.running = .out ∧ s.lock.sched.inDown s.lock.sched.running = none ∧
      stat.Blocked)
  | .other .timer => decide (s.lock.sched.inDown s.lock.sched.running = none ∧ s.lock.sched.intr = true)
  | .other _ => false
  | .setIntr _ => decide (s.place s.lock.sched.running = .out ∧ s.lock.sched.inDown s.lock.sched.running = none)

theorem Action.enabled_of_now {a : Action} (h : a.enabledNow s = true) (m : ℕ) : a.Enabled m s := by
  cases a with
  | other op =>
    cases op with
    | threadStart prio =>
      obtain ⟨hp, hdown⟩ := of_decide_eq_true h
      exact ⟨hdown, trivial, .inl hp⟩
    | threadYield =>
      obtain ⟨hp, hdown⟩ := of_decide_eq_true h
      exact ⟨hdown, trivial, .inl hp⟩
    | threadBlock stat =>
      obtain ⟨hp, hdown, hstat⟩ := of_decide_eq_true h
      exact ⟨⟨hdown, hstat⟩, trivial, .inl hp⟩
    | timer =>
      obtain ⟨hdown, hintr⟩ := of_decide_eq_true h
      exact ⟨⟨hdown, hintr⟩, trivial, .inr ⟨trivial, hintr⟩⟩
    | threadUnblock | semaDown | semaUp | resume => cases h
  | allocatePid | advance | setIntr => simpa [enabledNow, Enabled] using h

/-- `Undisturbed`, decided. -/
def undisturbedNow (s : PidSys) : Bool :=
  match s.place s.lock.sched.running with
  | .storing _ => decide (∀ t < s.lock.sched.count, s.place t ≠ .result)
  | _ => true

/-- A run along `actions`, if each of them can happen and `met` allows it. -/
def follow (m : ℕ) (met : PidSys → Bool) : List Action → PidSys → Option PidSys
  | [], s => some s
  | a :: rest, s =>
    if a.enabledNow s && met s then
      match a.run m s with
      | .ok (_, s') => follow m met rest s'
      | .error _ => none
    else none

theorem Reachable.follow {value : ℕ → ℕ} {Met : PidSys → Action → Prop} {met : PidSys → Bool} (h : Reachable m value Met s)
    (hmet : ∀ s a, Reachable m value Met s → met s = true → Met s a) {actions : List Action}
    (hrun : follow m met actions s = some s') : Reachable m value Met s' := by
  induction actions generalizing s with
  | nil =>
    cases hrun
    exact h
  | cons a rest ih =>
    rw [ProcessIds.follow] at hrun
    split_ifs at hrun with hnow
    rw [Bool.and_eq_true] at hnow
    cases hstep : a.run m s with
    | error f =>
      rw [hstep] at hrun
      cases hrun
    | ok p =>
      rw [hstep] at hrun
      exact ih (h.step (Action.enabled_of_now hnow.1 m) (hmet s a h hnow.2) hstep) hrun

theorem undisturbed_of_now {value : ℕ → ℕ} (h : Reachable m value Undisturbed s) (hnow : undisturbedNow s = true) (a : Action) :
    Undisturbed s a := by
  intro v _ hp t ht
  rw [undisturbedNow, hp] at hnow
  by_cases hlt : t < s.lock.sched.count
  · exact of_decide_eq_true hnow t hlt ht
  · rw [h.inv.fresh t (le_of_not_gt hlt)] at ht
    cases ht

/-- A call of `allocate_pid` and `n` statements in it. -/
def allocating (n : ℕ) : List Action := .allocatePid :: List.replicate n .advance

/-- `main` takes a pid for a thread and creates it; the thread takes one for another. -/
def inTurn : List Action :=
  List.flatten [allocating 15, [.other (.threadStart 1), .other .threadYield, .other (.threadBlock .blocked)], allocating 15]

theorem pids_unique_in_turn : ∃ s, (follow 0 undisturbedNow inTurn (start 0 fun _ => 0)) = some s ∧ s.pids = [4, 3, 2, 1] ∧
    s.pids.Nodup ∧ ∀ p ∈ s.pids, 0 < p.toInt := by
  have hrun : (follow 0 undisturbedNow inTurn (start 0 fun _ => 0)).map (fun s => (s.pids, s.created)) = some ([4, 3, 2, 1], 4) := by
    decide +kernel
  obtain ⟨s, hs, hpids⟩ := Option.map_eq_some_iff.mp hrun
  have hinit : Reachable 0 (fun _ => 0) Undisturbed (start 0 fun _ => 0) := .init
  have hreach := hinit.follow (fun s a h hnow => undisturbed_of_now h hnow a) hs
  exact ⟨s, hs, (Prod.mk.inj hpids).1, pids_unique 0 (fun _ => 0) s hreach (by rw [(Prod.mk.inj hpids).2]; decide)⟩

/-- `main` creates a thread, which is preempted after it has released the lock and before it reads its pid; `main` then takes a pid. -/
def preempted : List Action :=
  List.flatten [allocating 15, [.other (.threadStart 1), .other .threadYield, .other (.threadBlock .blocked)], allocating 14,
    [.other .timer, .other .timer], allocating 15, [.other .threadYield, .advance]]

theorem pids_repeat : ¬ ∀ (m : ℕ) (value : ℕ → ℕ) (s : PidSys), Reachable m value (fun _ _ => True) s → s.created < 32768 →
    s.pids.Nodup := by
  intro hclaim
  have hrun : (follow 0 (fun _ => true) preempted (start 0 fun _ => 0)).map (fun s => (s.pids, s.created)) =
      some ([5, 5, 3, 2, 1], 5) := by
    decide +kernel
  obtain ⟨s, hs, hpids⟩ := Option.map_eq_some_iff.mp hrun
  have hinit : Reachable 0 (fun _ => 0) (fun _ _ => True) (start 0 fun _ => 0) := .init
  have hreach := hinit.follow (fun _ _ _ _ => trivial) hs
  have hnodup := hclaim 0 _ s hreach (by rw [(Prod.mk.inj hpids).2]; decide)
  rw [(Prod.mk.inj hpids).1] at hnodup
  exact absurd hnodup (by decide)

end ElephantOS.ProcessIds
