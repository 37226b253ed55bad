import ElephantOS.SemaphoreWaits

/-!
The locks of `thread/sync.c` over the scheduler, statement by statement: between any two statements of
`lock_acquire` and `lock_release` another thread may run, and a read and a write of `holder_repeat_nr` are two statements.
-/

namespace ElephantOS.Lock

open HaltingState Scheduler

inductive Pc
  | out
  | test | down | downLoop | setHolder | assertZero | setOne | incLoad | incStore (r : ℕ)
  | assertHolder | testRepeat | decLoad | decStore (r : ℕ) | assertOne | clearHolder | clearRepeat | up
  deriving DecidableEq

inductive LockFault | sched (f : Fault) | acquireRepeat | releaseHolder | releaseRepeat
  deriving DecidableEq

structure LockSys where
  sched : Sched
  holder : Option ℕ
  /-- `holder_repeat_nr` -/
  repeatNr : ℕ
  pc : ℕ → Pc
  /-- calls of `lock_acquire` that have returned, less those of `lock_release` -/
  depth : ℕ → ℕ

abbrev LockM := Exec LockFault LockSys

def onSched (op : SchedM Unit) : LockM Unit := fun l =>
  match op l.sched with
  | .ok (u, s) => .ok (u, { l with sched := s })
  | .error f => .error (.sched f)

def check (c : Prop) [Decidable c] (f : LockFault) : LockM Unit := if c then pure () else halt f

def goto (t : ℕ) (pc : Pc) : LockM Unit := modify fun l => { l with pc := Function.update l.pc t pc }

def ret (t d : ℕ) : LockM Unit := modify fun l => { l with
  pc := Function.update l.pc t .out
  depth := Function.update l.depth t d }

/-- Past a look at the semaphore: the thread has it, or sleeps in the loop of `sema_down`. -/
def afterDown (t : ℕ) : LockM Unit := do
  let l ← get
  goto t (if l.sched.inDown t = none then .setHolder else .downLoop)

/-- The next statement of the running thread in `lock_acquire` or `lock_release`; `m` is the semaphore of the lock. -/
def advance (m : ℕ) : LockM Unit := do
  let l ← get
  let t := l.sched.running
  match l.pc t with
  | .out => pure ()
  | .test => goto t (if l.holder ≠ some t then .down else .incLoad)
  | .down => do
    onSched (semaDown m)
    afterDown t
  | .downLoop => do
    onSched Op.resume.run
    afterDown t
  | .setHolder => do
    set { l with holder := some t }
    goto t .assertZero
  | .assertZero => do
    check (l.repeatNr = 0) .acquireRepeat
    goto t .setOne
  | .setOne => do
    set { l with repeatNr := 1 }
    ret t (l.depth t + 1)
  | .incLoad => goto t (.incStore l.repeatNr)
  | .incStore r => do
    set { l with repeatNr := (r + 1) % 4294967296 }
    ret t (l.depth t + 1)
  | .assertHolder => do
    check (l.holder = some t) .releaseHolder
    goto t .testRepeat
  | .testRepeat => goto t (if l.repeatNr > 1 then .decLoad else .assertOne)
  | .decLoad => goto t (.decStore l.repeatNr)
  | .decStore r => do
    set { l with repeatNr := (r + 4294967295) % 4294967296 }
    ret t (l.depth t - 1)
  | .assertOne => do
    check (l.repeatNr = 1) .releaseRepeat
    goto t .clearHolder
  | .clearHolder => do
    set { l with holder := none }
    goto t .clearRepeat
  | .clearRepeat => do
    set { l with repeatNr := 0 }
    goto t .up
  | .up => do
    onSched (semaUp m)
    ret t (l.depth t - 1)

/-- What can happen next: the running thread calls `lock_acquire` or `lock_release` or takes a step in it, or the scheduler does
something that has nothing to do with the lock. -/
inductive Action
  | acquire
  | release
  | advance
  | other (op : Op)

def Action.run (m : ℕ) : Action → LockM Unit
  | .acquire => do
    let l ← get
    goto l.sched.running .test
  | .release => do
    let l ← get
    goto l.sched.running .assertHolder
  | .advance => Lock.advance m
  | .other op => onSched op.run

/-- Calls are balanced, the idle thread makes none, and none is made by a thread that already holds the lock `limit` times. In the
middle of the lock's code only interrupts come between. -/
def Action.Enabled (m limit : ℕ) (l : LockSys) : Action → Prop
  | .acquire => l.pc l.sched.running = .out ∧ l.sched.inDown l.sched.running = none ∧ l.sched.running ≠ l.sched.idleThread ∧
      l.depth l.sched.running < limit
  | .release => l.pc l.sched.running = .out ∧ l.sched.inDown l.sched.running = none ∧ l.sched.running ≠ l.sched.idleThread ∧
      0 < l.depth l.sched.running
  | .advance => l.pc l.sched.running ≠ .out
  | .other op => op.Enabled l.sched ∧ Apart m l.sched op ∧
      (l.pc l.sched.running = .out ∨ FromInterrupt op ∧ l.sched.intr = true)

/-- `lock_init` -/
def start (m : ℕ) (value : ℕ → ℕ) : LockSys where
  sched := afterInit (Function.update value m 1)
  holder := none
  repeatNr := 0
  pc _ := .out
  depth _ := 0

inductive Reachable (m limit : ℕ) (value : ℕ → ℕ) : LockSys → Prop
  | init : Reachable m limit value (start m value)
  | intr {l : LockSys} (b : Bool) : Reachable m limit value l → l.sched.inDown l.sched.running = none →
      Reachable m limit value { l with sched := { l.sched with intr := b } }
  | step {l l' : LockSys} {a : Action} {u : Unit} :
      Reachable m limit value l → a.Enabled m limit l → a.run m l = .ok (u, l') → Reachable m limit value l'

def Pc.Owns (pc : Pc) (d : ℕ) : Prop := 0 < d ∨ pc = .setHolder ∨ pc = .assertZero ∨ pc = .setOne

def Pc.Marked (pc : Pc) (d : ℕ) : Prop := (0 < d ∧ pc ≠ .clearRepeat ∧ pc ≠ .up) ∨ pc = .assertZero ∨ pc = .setOne

/-- What `holder_repeat_nr` is while the thread owns the semaphore. -/
def Pc.counted (pc : Pc) (d : ℕ) : ℕ := if pc = .up then 0 else d

def Pc.Fits (limit : ℕ) (pc : Pc) (d : ℕ) : Prop :=
  match pc with
  | .out => d ≤ limit
  | .test => d < limit
  | .down | .downLoop | .setHolder | .assertZero | .setOne => d = 0 ∧ 0 < limit
  | .incLoad => 0 < d ∧ d < limit
  | .incStore r => 0 < d ∧ d < limit ∧ r = d
  | .assertHolder | .testRepeat => 0 < d ∧ d ≤ limit
  | .decLoad => 1 < d ∧ d ≤ limit
  | .decStore r => 1 < d ∧ d ≤ limit ∧ r = d
  | .assertOne | .clearHolder | .clearRepeat | .up => d = 1 ∧ d ≤ limit

structure LockInv (m limit : ℕ) (l : LockSys) : Prop where
  sched : SchedInv l.sched
  fits : ∀ t, (l.pc t).Fits limit (l.depth t)
  one : ∀ t u, (l.pc t).Owns (l.depth t) → (l.pc u).Owns (l.depth u) → t = u
  holder : ∀ t, l.holder = some t ↔ (l.pc t).Marked (l.depth t)
  counted : ∀ t, (l.pc t).Owns (l.depth t) → l.repeatNr = (l.pc t).counted (l.depth t)
  zero : (∀ t, ¬ (l.pc t).Owns (l.depth t)) → l.repeatNr = 0
  value : (l.sched.value m = 1 ∧ ∀ t, ¬ (l.pc t).Owns (l.depth t)) ∨ l.sched.value m = 0
  loop : ∀ t, l.pc t = .downLoop ↔ ∃ old, l.sched.inDown t = some (m, old)
  clear : ∀ t, l.pc t ≠ .out → l.pc t ≠ .downLoop → l.sched.inDown t = none
  fresh : ∀ t, l.sched.count ≤ t → l.pc t = .out ∧ l.depth t = 0 ∧ l.sched.inDown t = none
  caller : ∀ t, l.pc t ≠ .out → t ≠ l.sched.idleThread

theorem Pc.Marked.owns {pc : Pc} {d : ℕ} (h : pc.Marked d) : pc.Owns d := by
  rcases h with ⟨h, -⟩ | h | h
  · exact .inl h
  · exact .inr (.inr (.inl h))
  · exact .inr (.inr (.inr h))

variable {m limit : ℕ} {l l' : LockSys}

/-- A step of thread `t`: the other threads stay where they are. -/
structure Moves (m limit t : ℕ) (l l' : LockSys) : Prop where
  sched : SchedInv l'.sched
  count : l.sched.count ≤ l'.sched.count
  idle : l'.sched.idleThread = l.sched.idleThread
  inDown : ∀ u, u ≠ t → l'.sched.inDown u = l.sched.inDown u
  pc : ∀ u, u ≠ t → l'.pc u = l.pc u
  depth : ∀ u, u ≠ t → l'.depth u = l.depth u
  fits : (l'.pc t).Fits limit (l'.depth t)
  loop : l'.pc t = .downLoop ↔ ∃ old, l'.sched.inDown t = some (m, old)
  clear : l'.pc t ≠ .out → l'.pc t ≠ .downLoop → l'.sched.inDown t = none
  known : t < l.sched.count
  caller : l'.pc t ≠ .out → t ≠ l.sched.idleThread

theorem Moves.owns {t : ℕ} (h : Moves m limit t l l') {u : ℕ} (hu : u ≠ t) :
    (l'.pc u).Owns (l'.depth u) ↔ (l.pc u).Owns (l.depth u) := by
  rw [h.pc u hu, h.depth u hu]

theorem Moves.inv {t : ℕ} (h : Moves m limit t l l') (inv : LockInv m limit l)
    (one : ∀ t u, (l'.pc t).Owns (l'.depth t) → (l'.pc u).Owns (l'.depth u) → t = u)
    (holder : ∀ t, l'.holder = some t ↔ (l'.pc t).Marked (l'.depth t))
    (counted : ∀ t, (l'.pc t).Owns (l'.depth t) → l'.repeatNr = (l'.pc t).counted (l'.depth t))
    (zero : (∀ t, ¬ (l'.pc t).Owns (l'.depth t)) → l'.repeatNr = 0)
    (value : (l'.sched.value m = 1 ∧ ∀ t, ¬ (l'.pc t).Owns (l'.depth t)) ∨ l'.sched.value m = 0) : LockInv m limit l' := by
  refine ⟨h.sched, ?_, one, holder, counted, zero, value, ?_, ?_, ?_, ?_⟩
  · intro u
    by_cases hu : u = t
    · rw [hu]
      exact h.fits
    · rw [h.pc u hu, h.depth u hu]
      exact inv.fits u
  · intro u
    by_cases hu : u = t
    · rw [hu]
      exact h.loop
    · rw [h.pc u hu, h.inDown u hu]
      exact inv.loop u
  · intro u hout hloop
    by_cases hu : u = t
    · subst hu
      exact h.clear hout hloop
    · rw [h.pc u hu] at hout hloop
      rw [h.inDown u hu]
      exact inv.clear u hout hloop
  · intro u hcount
    have hcount' := le_trans h.count hcount
    have hu : u ≠ t := by
      rintro rfl
      exact absurd h.known (not_lt_of_ge hcount')
    rw [h.pc u hu, h.depth u hu, h.inDown u hu]
    exact inv.fresh u hcount'
  · intro u hout
    rw [h.idle]
    by_cases hu : u = t
    · subst hu
      exact h.caller hout
    · rw [h.pc u hu] at hout
      exact inv.caller u hout

theorem LockInv.owner (inv : LockInv m limit l) {t : ℕ} (h : Moves m limit t l l') (hv : l'.sched.value m = l.sched.value m)
    (howns : (l.pc t).Owns (l.depth t))
    (howns' : (l'.pc t).Owns (l'.depth t)) (hholder : ∀ u, l'.holder = some u ↔ u = t ∧ (l'.pc t).Marked (l'.depth t))
    (hcount : l'.repeatNr = (l'.pc t).counted (l'.depth t)) : LockInv m limit l' := by
  have halone : ∀ u, (l'.pc u).Owns (l'.depth u) → u = t := by
    intro u hu
    by_contra hne
    exact hne (inv.one u t ((h.owns hne).mp hu) howns)
  apply h.inv inv
  · intro u v hu hv
    rw [halone u hu, halone v hv]
  · intro u
    rw [hholder]
    constructor
    · rintro ⟨rfl, hm⟩
      exact hm
    · intro hm
      have hu := halone u hm.owns
      subst hu
      exact ⟨rfl, hm⟩
  · intro u hu
    rw [halone u hu]
    exact hcount
  · intro hnone
    exact absurd howns' (hnone t)
  · right
    rw [hv]
    rcases inv.value with ⟨-, hnone⟩ | hzero
    · exact absurd howns (hnone t)
    · exact hzero

theorem LockInv.outsider (inv : LockInv m limit l) {t : ℕ} (h : Moves m limit t l l') (hv : l'.sched.value m = l.sched.value m)
    (howns : ¬ (l.pc t).Owns (l.depth t))
    (howns' : ¬ (l'.pc t).Owns (l'.depth t)) (hholder : l'.holder = l.holder) (hcount : l'.repeatNr = l.repeatNr) :
    LockInv m limit l' := by
  have hsame : ∀ u, (l'.pc u).Owns (l'.depth u) ↔ (l.pc u).Owns (l.depth u) := by
    intro u
    by_cases hu : u = t
    · rw [hu]
      exact iff_of_false howns' howns
    · exact h.owns hu
  apply h.inv inv
  · intro u v hu hv
    exact inv.one u v ((hsame u).mp hu) ((hsame v).mp hv)
  · intro u
    rw [hholder]
    by_cases hu : u = t
    · rw [hu, inv.holder]
      exact iff_of_false (fun hm => howns hm.owns) (fun hm => howns' hm.owns)
    · rw [h.pc u hu, h.depth u hu]
      exact inv.holder u
  · intro u hu
    rw [hcount]
    have hne : u ≠ t := by
      rintro rfl
      exact howns' hu
    rw [h.pc u hne, h.depth u hne]
    exact inv.counted u ((hsame u).mp hu)
  · intro hnone
    rw [hcount]
    exact inv.zero fun u hu => hnone u ((hsame u).mpr hu)
  · rw [hv]
    rcases inv.value with ⟨hone, hnone⟩ | hzero
    · exact .inl ⟨hone, fun u hu => hnone u ((hsame u).mp hu)⟩
    · exact .inr hzero

/-- The lock's data after a step of thread `t`. -/
def LockSys.put (l : LockSys) (t : ℕ) (p : Pc) (d : ℕ) (h : Option ℕ) (r : ℕ) : LockSys := { l with
  pc := Function.update l.pc t p
  depth := Function.update l.depth t d
  holder := h
  repeatNr := r }

theorem goto_eq (l : LockSys) (t : ℕ) (p : Pc) (h : Option ℕ) (r : ℕ) :
    goto t p { l with holder := h, repeatNr := r } = .ok ((), l.put t p (l.depth t) h r) := by
  rw [LockSys.put, Function.update_eq_self]
  rfl

theorem ret_eq (l : LockSys) (t d : ℕ) (h : Option ℕ) (r : ℕ) :
    ret t d { l with holder := h, repeatNr := r } = .ok ((), l.put t .out d h r) := rfl

theorem Runs.put {l' : LockSys} {f : PUnit → LockM Unit} {Q : Unit → LockSys → Prop} (h : Runs (f ⟨⟩) l' Q) :
    Runs ((MonadStateOf.set l' : LockM PUnit) >>= f) l Q :=
  Runs.step (show (MonadStateOf.set l' : LockM PUnit) l = .ok (⟨⟩, l') from rfl) h

theorem Runs.check {c : Prop} [Decidable c] {f : LockFault} {g : Unit → LockM Unit} {Q : Unit → LockSys → Prop}
    (hc : c) (h : Runs (g ()) l Q) : Runs (Lock.check c f >>= g) l Q :=
  Runs.step (show Lock.check c f l = .ok ((), l) by rw [Lock.check, if_pos hc]; rfl) h

theorem Runs.onSched {op : SchedM Unit} {f : Unit → LockM Unit} {Q : Unit → LockSys → Prop} {P : Sched → Prop}
    (hop : Runs op l.sched fun _ s => P s) (h : ∀ s, P s → op l.sched = .ok ((), s) → Runs (f ()) { l with sched := s } Q) :
    Runs (onSched op >>= f) l Q := by
  obtain ⟨u, s, hrun, hp⟩ := hop
  have hstep : Lock.onSched op l = .ok ((), { l with sched := s }) := by
    unfold Lock.onSched
    rw [hrun]
  exact Runs.step hstep (h s hp hrun)

theorem moves_put (hs : SchedInv l.sched) {t : ℕ} (hdown : l.sched.inDown t = none) (hlt : t < l.sched.count)
    (hidle : t ≠ l.sched.idleThread) {p : Pc} {d : ℕ} (h : Option ℕ) (r : ℕ) (hfits : p.Fits limit d) (hp : p ≠ .downLoop) :
    Moves m limit t l (l.put t p d h r) := by
  have hself : (l.put t p d h r).pc t = p := Function.update_self _ _ _
  have hdepth : (l.put t p d h r).depth t = d := Function.update_self _ _ _
  have hdown' : (l.put t p d h r).sched.inDown t = none := hdown
  refine ⟨hs, le_refl _, rfl, fun _ _ => rfl, fun u hu => Function.update_of_ne hu _ _, fun u hu => Function.update_of_ne hu _ _, ?_, ?_,
    fun _ _ => hdown, hlt, fun _ => hidle⟩
  · rw [hself, hdepth]
    exact hfits
  · rw [hself, hdown']
    simp [hp]

section Caller

variable (inv : LockInv m limit l) (hpc : l.pc l.sched.running ≠ .out) (hloop : l.pc l.sched.running ≠ .downLoop)
include inv hpc hloop

theorem LockInv.ownerPut (howns : (l.pc l.sched.running).Owns (l.depth l.sched.running)) {p : Pc} {d : ℕ} {h : Option ℕ} {r : ℕ}
    (hfits : p.Fits limit d) (hp : p ≠ .downLoop) (howns' : p.Owns d)
    (hholder : ∀ u, h = some u ↔ u = l.sched.running ∧ p.Marked d) (hcount : r = p.counted d) :
    LockInv m limit (l.put l.sched.running p d h r) := by
  have hself : (l.put l.sched.running p d h r).pc l.sched.running = p := Function.update_self _ _ _
  have hdepth : (l.put l.sched.running p d h r).depth l.sched.running = d := Function.update_self _ _ _
  apply inv.owner (moves_put inv.sched (inv.clear _ hpc hloop) inv.sched.current (inv.caller _ hpc) h r hfits hp) rfl howns
  · rw [hself, hdepth]
    exact howns'
  · rw [hself, hdepth]
    exact hholder
  · rw [hself, hdepth]
    exact hcount

theorem LockInv.outsiderPut (howns : ¬ (l.pc l.sched.running).Owns (l.depth l.sched.running)) {p : Pc} {d : ℕ}
    (hfits : p.Fits limit d) (hp : p ≠ .downLoop) (howns' : ¬ p.Owns d) :
    LockInv m limit (l.put l.sched.running p d l.holder l.repeatNr) := by
  apply inv.outsider (moves_put inv.sched (inv.clear _ hpc hloop) inv.sched.current (inv.caller _ hpc) l.holder l.repeatNr hfits hp) rfl
    howns
  · rw [show (l.put l.sched.running p d l.holder l.repeatNr).pc l.sched.running = p from Function.update_self _ _ _,
      show (l.put l.sched.running p d l.holder l.repeatNr).depth l.sched.running = d from Function.update_self _ _ _]
    exact howns'
  · rfl
  · rfl

end Caller

theorem LockInv.look (inv : LockInv m limit l) (hpc : l.pc l.sched.running = .down ∨ l.pc l.sched.running = .downLoop) {s : Sched}
    (hs : SchedInv s) (h : Looked m l.sched.running l.sched s) :
    LockInv m limit (({ l with sched := s } : LockSys).put l.sched.running
      (if s.inDown l.sched.running = none then .setHolder else .downLoop) (l.depth l.sched.running) l.holder l.repeatNr) := by
  have hfits := inv.fits l.sched.running
  have hout : l.pc l.sched.running ≠ .out := by
    rcases hpc with hpc | hpc <;> rw [hpc] <;> decide
  have hzero : l.depth l.sched.running = 0 ∧ 0 < limit := by
    rcases hpc with hpc | hpc <;> rw [hpc] at hfits <;> exact hfits
  have hnot : ¬ (l.pc l.sched.running).Owns (l.depth l.sched.running) := by
    rw [hzero.1]
    rcases hpc with hpc | hpc <;> rw [hpc] <;> simp [Pc.Owns]
  have hidle := inv.caller _ hout
  generalize ht : l.sched.running = t at *
  generalize hp : (if s.inDown t = none then Pc.setHolder else Pc.downLoop) = p
  have hself : (({ l with sched := s } : LockSys).put t p (l.depth t) l.holder l.repeatNr).pc t = p := Function.update_self _ _ _
  have hother : ∀ u, u ≠ t → (({ l with sched := s } : LockSys).put t p (l.depth t) l.holder l.repeatNr).pc u = l.pc u :=
    fun u hu => Function.update_of_ne hu _ _
  have hdepth : ∀ u, (({ l with sched := s } : LockSys).put t p (l.depth t) l.holder l.repeatNr).depth u = l.depth u := by
    intro u
    change Function.update l.depth t (l.depth t) u = l.depth u
    rw [Function.update_eq_self]
  have hmoves : Moves m limit t l (({ l with sched := s } : LockSys).put t p (l.depth t) l.holder l.repeatNr) := by
    refine ⟨hs, h.count, h.idle, h.others, hother, fun u _ => hdepth u, ?_, ?_, ?_, ?_, fun _ => hidle⟩
    · rw [hself, hdepth, ← hp]
      split_ifs
      · exact hzero
      · exact hzero
    · rw [hself, ← hp]
      change _ ↔ ∃ old, s.inDown t = some (m, old)
      rcases h.result with ⟨-, -, hnone⟩ | ⟨-, -, old, hsome⟩
      · simp [hnone]
      · simp [hsome]
    · rw [hself, ← hp]
      intro _ hloop
      change s.inDown t = none
      by_contra hne
      rw [if_neg hne] at hloop
      exact hloop rfl
    · rw [← ht]
      exact inv.sched.current
  rcases h.result with ⟨hone, hv, hnone⟩ | ⟨hv, hv', old, hsome⟩
  · -- the semaphore was free, so that nobody owned it
    rw [if_pos hnone] at hp
    subst hp
    have hnobody : ∀ u, ¬ (l.pc u).Owns (l.depth u) := by
      rcases inv.value with ⟨-, hnobody⟩ | hzero'
      · exact hnobody
      · rw [hone] at hzero'
        cases hzero'
    have halone : ∀ u, ((({ l with sched := s } : LockSys).put t .setHolder (l.depth t) l.holder l.repeatNr).pc u).Owns
        ((({ l with sched := s } : LockSys).put t .setHolder (l.depth t) l.holder l.repeatNr).depth u) → u = t := by
      intro u hu
      by_contra hne
      exact hnobody u ((hmoves.owns hne).mp hu)
    apply hmoves.inv inv
    · intro u v hu hv
      rw [halone u hu, halone v hv]
    · intro u
      change l.holder = some u ↔ _
      rw [inv.holder]
      by_cases hu : u = t
      · rw [hu, hself, hdepth, hzero.1]
        apply iff_of_false
        · intro hm
          rw [← hzero.1] at hm
          exact hnot hm.owns
        · simp [Pc.Marked]
      · rw [hother u hu, hdepth]
    · intro u hu
      rw [halone u hu, hself, hdepth, hzero.1]
      exact inv.zero hnobody
    · intro _
      exact inv.zero hnobody
    · exact .inr hv
  · have hne : ¬ s.inDown t = none := by
      rw [hsome]
      simp
    rw [if_neg hne] at hp
    subst hp
    refine inv.outsider hmoves (hv'.trans hv.symm) hnot ?_ rfl rfl
    rw [hself, hdepth, hzero.1]
    simp [Pc.Owns]

theorem LockInv.release (inv : LockInv m limit l) (hpc : l.pc l.sched.running = .up) {s : Sched} (hs : SchedInv s)
    (h : Raised m l.sched s) :
    LockInv m limit (({ l with sched := s } : LockSys).put l.sched.running .out (l.depth l.sched.running - 1) l.holder l.repeatNr) := by
  have hfits := inv.fits l.sched.running
  rw [hpc] at hfits
  have hdown := inv.clear l.sched.running (by rw [hpc]; decide) (by rw [hpc]; decide)
  have howns : (l.pc l.sched.running).Owns (l.depth l.sched.running) := .inl (by rw [hfits.1]; decide)
  have hcount := inv.counted _ howns
  rw [hpc] at hcount
  have hlt := inv.sched.current
  generalize l.sched.running = t at *
  rw [hfits.1]
  have hself : (({ l with sched := s } : LockSys).put t .out (1 - 1) l.holder l.repeatNr).pc t = .out := Function.update_self _ _ _
  have hdepth : (({ l with sched := s } : LockSys).put t .out (1 - 1) l.holder l.repeatNr).depth t = 0 := Function.update_self _ _ _
  have hmoves : Moves m limit t l (({ l with sched := s } : LockSys).put t .out (1 - 1) l.holder l.repeatNr) := by
    refine ⟨hs, le_of_eq h.count.symm, h.idle, fun u _ => congrFun h.inDown u, fun u hu => Function.update_of_ne hu _ _,
      fun u hu => Function.update_of_ne hu _ _, ?_, ?_, ?_, hlt, ?_⟩
    · rw [hself, hdepth]
      exact Nat.zero_le _
    · rw [hself]
      change _ ↔ ∃ old, s.inDown t = some (m, old)
      rw [h.inDown, hdown]
      simp
    · intro hout
      exact absurd hself hout
    · intro hout
      exact absurd hself hout
  have hnobody : ∀ u, ¬ ((({ l with sched := s } : LockSys).put t .out (1 - 1) l.holder l.repeatNr).pc u).Owns
      ((({ l with sched := s } : LockSys).put t .out (1 - 1) l.holder l.repeatNr).depth u) := by
    intro u hu
    by_cases hut : u = t
    · rw [hut, hself, hdepth] at hu
      simp [Pc.Owns] at hu
    · exact hut (inv.one u t ((hmoves.owns hut).mp hu) howns)
  apply hmoves.inv inv
  · intro u v hu _
    exact absurd hu (hnobody u)
  · intro u
    change l.holder = some u ↔ _
    rw [inv.holder]
    apply iff_of_false
    · intro hm
      have hu := inv.one u t hm.owns howns
      subst hu
      rw [hpc] at hm
      simp [Pc.Marked] at hm
    · intro hm
      exact hnobody u hm.owns
  · intro u hu
    exact absurd hu (hnobody u)
  · intro _
    exact hcount
  · exact .inl ⟨h.value, hnobody⟩

theorem LockInv.other (inv : LockInv m limit l) (op : Op)
    (hpc : l.pc l.sched.running = .out ∨ FromInterrupt op ∧ l.sched.intr = true) {s : Sched} (hs : SchedInv s)
    (h : Beside m op l.sched s) : LockInv m limit { l with sched := s } := by
  have hmoves : Moves m limit l.sched.running l { l with sched := s } := by
    refine ⟨hs, h.count, h.idle, h.others, fun _ _ => rfl, fun _ _ => rfl, inv.fits _, ?_, ?_, inv.sched.current, inv.caller _⟩
    · change l.pc l.sched.running = .downLoop ↔ _
      rw [inv.loop]
      exact h.loop.symm
    · intro hout hloop
      rcases hpc with hpc | ⟨hint, -⟩
      · exact absurd hpc hout
      · change s.inDown _ = none
        rw [h.interrupt hint]
        exact inv.clear _ hout hloop
  apply hmoves.inv inv inv.one inv.holder inv.counted inv.zero
  change (s.value m = 1 ∧ _) ∨ s.value m = 0
  rw [h.value]
  exact inv.value

theorem LockInv.holder_iff (inv : LockInv m limit l) {t : ℕ} (howns : (l.pc t).Owns (l.depth t)) (u : ℕ) :
    l.holder = some u ↔ u = t ∧ (l.pc t).Marked (l.depth t) := by
  rw [inv.holder]
  constructor
  · intro hm
    have hu := inv.one u t hm.owns howns
    subst hu
    exact ⟨rfl, hm⟩
  · rintro ⟨rfl, hm⟩
    exact hm

theorem LockInv.advance_acquire (inv : LockInv m limit l) (hlimit : limit < 4294967296)
    (hpc : l.pc l.sched.running = .setHolder ∨ l.pc l.sched.running = .assertZero ∨ l.pc l.sched.running = .setOne ∨
      l.pc l.sched.running = .incLoad ∨ ∃ r, l.pc l.sched.running = .incStore r) :
    Runs (advance m) l fun _ l' => LockInv m limit l' := by
  have hfits := inv.fits l.sched.running
  have hcount := inv.counted l.sched.running
  have hholder := inv.holder_iff (t := l.sched.running)
  have hput := inv.ownerPut
  unfold advance
  apply Runs.get
  rcases hpc with hpc | hpc | hpc | hpc | ⟨r, hpc⟩ <;> simp only [hpc] at hfits hcount hholder hput ⊢
  · have howns : Pc.setHolder.Owns (l.depth l.sched.running) := .inr (.inl rfl)
    apply Runs.put
    refine ⟨(), _, goto_eq l _ .assertZero (some l.sched.running) l.repeatNr, hput (by decide) (by decide) howns hfits (by decide)
      (.inr (.inr (.inl rfl))) ?_ (hcount howns)⟩
    intro u
    rw [Option.some.injEq]
    exact ⟨fun h => ⟨h.symm, .inr (.inl rfl)⟩, fun h => h.1.symm⟩
  · have howns : Pc.assertZero.Owns (l.depth l.sched.running) := .inr (.inr (.inl rfl))
    apply Runs.check
    · rw [hcount howns, hfits.1]
      rfl
    · refine ⟨(), _, goto_eq l _ .setOne l.holder l.repeatNr, hput (by decide) (by decide) howns hfits (by decide)
        (.inr (.inr (.inr rfl))) ?_ (hcount howns)⟩
      intro u
      rw [hholder howns]
      simp [Pc.Marked]
  · have howns : Pc.setOne.Owns (l.depth l.sched.running) := .inr (.inr (.inr rfl))
    apply Runs.put
    rw [hfits.1]
    refine ⟨(), _, ret_eq l _ (0 + 1) l.holder 1, hput (by decide) (by decide) howns ?_ (by decide) (.inl (by decide)) ?_ rfl⟩
    · exact hfits.2
    · intro u
      rw [hholder howns]
      simp [Pc.Marked]
  · have howns : Pc.incLoad.Owns (l.depth l.sched.running) := .inl hfits.1
    refine ⟨(), _, goto_eq l _ (.incStore l.repeatNr) l.holder l.repeatNr, hput (by decide) (by decide) howns
      ⟨hfits.1, hfits.2, hcount howns⟩ (by simp) (.inl hfits.1) ?_ (hcount howns)⟩
    intro u
    rw [hholder howns]
    simp [Pc.Marked]
  · have howns : (Pc.incStore r).Owns (l.depth l.sched.running) := .inl hfits.1
    obtain ⟨hpos, hlt, rfl⟩ := hfits
    apply Runs.put
    rw [Nat.mod_eq_of_lt (by omega : l.depth l.sched.running + 1 < 4294967296)]
    refine ⟨(), _, ret_eq l _ (l.depth l.sched.running + 1) l.holder (l.depth l.sched.running + 1),
      hput (by simp) (by simp) howns ?_ (by decide) (.inl (Nat.succ_pos _)) ?_ rfl⟩
    · exact hlt
    · intro u
      rw [hholder howns]
      simp [Pc.Marked, hpos]

theorem LockInv.advance_release (inv : LockInv m limit l) (hlimit : limit < 4294967296)
    (hpc : l.pc l.sched.running = .assertHolder ∨ l.pc l.sched.running = .testRepeat ∨ l.pc l.sched.running = .decLoad ∨
      (∃ r, l.pc l.sched.running = .decStore r) ∨ l.pc l.sched.running = .assertOne ∨ l.pc l.sched.running = .clearHolder ∨
      l.pc l.sched.running = .clearRepeat) :
    Runs (advance m) l fun _ l' => LockInv m limit l' := by
  have hfits := inv.fits l.sched.running
  have hpos : 0 < l.depth l.sched.running := by
    rcases hpc with hpc | hpc | hpc | ⟨r, hpc⟩ | hpc | hpc | hpc <;> rw [hpc] at hfits <;> simp only [Pc.Fits] at hfits <;> omega
  have howns : (l.pc l.sched.running).Owns (l.depth l.sched.running) := .inl hpos
  have hcount := inv.counted l.sched.running howns
  have hholder := inv.holder_iff howns
  have hput := inv.ownerPut
  unfold advance
  apply Runs.get
  rcases hpc with hpc | hpc | hpc | ⟨r, hpc⟩ | hpc | hpc | hpc <;> simp only [hpc] at hfits hcount hholder howns hput ⊢
  · apply Runs.check
    · rw [hholder]
      simp [Pc.Marked, hpos]
    · refine ⟨(), _, goto_eq l _ .testRepeat l.holder l.repeatNr, hput (by decide) (by decide) howns hfits (by decide) (.inl hpos) ?_
        hcount⟩
      intro u
      rw [hholder]
      simp [Pc.Marked]
  · by_cases hone : l.repeatNr > 1
    · rw [if_pos hone]
      refine ⟨(), _, goto_eq l _ .decLoad l.holder l.repeatNr, hput (by decide) (by decide) howns ⟨?_, hfits.2⟩ (by decide)
        (.inl hpos) ?_ hcount⟩
      · rw [hcount] at hone
        exact hone
      · intro u
        rw [hholder]
        simp [Pc.Marked]
    · rw [if_neg hone]
      refine ⟨(), _, goto_eq l _ .assertOne l.holder l.repeatNr, hput (by decide) (by decide) howns ⟨?_, hfits.2⟩ (by decide)
        (.inl hpos) ?_ hcount⟩
      · rw [hcount] at hone
        change ¬ l.depth l.sched.running > 1 at hone
        omega
      · intro u
        rw [hholder]
        simp [Pc.Marked]
  · refine ⟨(), _, goto_eq l _ (.decStore l.repeatNr) l.holder l.repeatNr, hput (by decide) (by decide) howns
      ⟨hfits.1, hfits.2, hcount⟩ (by simp) (.inl hpos) ?_ hcount⟩
    intro u
    rw [hholder]
    simp [Pc.Marked]
  · obtain ⟨htwo, hle, rfl⟩ := hfits
    apply Runs.put
    rw [show (l.depth l.sched.running + 4294967295) % 4294967296 = l.depth l.sched.running - 1 by omega]
    refine ⟨(), _, ret_eq l _ (l.depth l.sched.running - 1) l.holder (l.depth l.sched.running - 1),
      hput (by simp) (by simp) howns ?_ (by decide) (.inl (by omega)) ?_ rfl⟩
    · change l.depth l.sched.running - 1 ≤ limit
      omega
    · intro u
      rw [hholder]
      have : 1 < l.depth l.sched.running := htwo
      simp [Pc.Marked, hpos, this]
  · apply Runs.check
    · rw [hcount, hfits.1]
      rfl
    · refine ⟨(), _, goto_eq l _ .clearHolder l.holder l.repeatNr, hput (by decide) (by decide) howns hfits (by decide) (.inl hpos) ?_
        hcount⟩
      intro u
      rw [hholder]
      simp [Pc.Marked]
  · apply Runs.put
    refine ⟨(), _, goto_eq l _ .clearRepeat none l.repeatNr, hput (by decide) (by decide) howns hfits (by decide) (.inl hpos) ?_
      hcount⟩
    intro u
    simp [Pc.Marked]
  · apply Runs.put
    refine ⟨(), _, goto_eq l _ .up l.holder 0, hput (by decide) (by decide) howns hfits (by decide) (.inl hpos) ?_ rfl⟩
    intro u
    rw [hholder]
    simp [Pc.Marked]

theorem LockInv.call (inv : LockInv m limit l) (hout : l.pc l.sched.running = .out) (hdown : l.sched.inDown l.sched.running = none)
    (hidle : l.sched.running ≠ l.sched.idleThread) {p : Pc} (hp : p = .test ∨ p = .assertHolder)
    (hfits : p.Fits limit (l.depth l.sched.running)) :
    LockInv m limit (l.put l.sched.running p (l.depth l.sched.running) l.holder l.repeatNr) := by
  have hloop : p ≠ .downLoop := by
    rcases hp with rfl | rfl <;> decide
  have hmoves : Moves m limit l.sched.running l (l.put l.sched.running p (l.depth l.sched.running) l.holder l.repeatNr) :=
    moves_put inv.sched hdown inv.sched.current hidle l.holder l.repeatNr hfits hloop
  have hself : (l.put l.sched.running p (l.depth l.sched.running) l.holder l.repeatNr).pc l.sched.running = p :=
    Function.update_self _ _ _
  have hdepth : (l.put l.sched.running p (l.depth l.sched.running) l.holder l.repeatNr).depth l.sched.running =
    l.depth l.sched.running := Function.update_self _ _ _
  have howner : ∀ d, p.Owns d ↔ 0 < d := by
    intro d
    rcases hp with rfl | rfl <;> simp [Pc.Owns]
  by_cases hpos : 0 < l.depth l.sched.running
  · have howns : (l.pc l.sched.running).Owns (l.depth l.sched.running) := .inl hpos
    apply inv.owner hmoves rfl howns
    · rw [hself, hdepth, howner]
      exact hpos
    · intro u
      rw [hself, hdepth]
      refine (inv.holder_iff howns u).trans ?_
      rw [hout]
      rcases hp with rfl | rfl <;> simp [Pc.Marked]
    · rw [hself, hdepth]
      refine (inv.counted _ howns).trans ?_
      rw [hout]
      rcases hp with rfl | rfl <;> rfl
  · apply inv.outsider hmoves rfl
    · rw [hout]
      simpa [Pc.Owns] using hpos
    · rw [hself, hdepth, howner]
      exact hpos
    · rfl
    · rfl

theorem LockInv.value_le (inv : LockInv m limit l) : l.sched.value m ≤ 1 := by
  rcases inv.value with ⟨hv, -⟩ | hv <;> omega

theorem afterDown_runs (t : ℕ) {Q : Unit → LockSys → Prop}
    (h : Q () (l.put t (if l.sched.inDown t = none then .setHolder else .downLoop) (l.depth t) l.holder l.repeatNr)) :
    Runs (afterDown t) l Q := by
  unfold afterDown
  apply Runs.get
  exact ⟨(), _, goto_eq l t _ l.holder l.repeatNr, h⟩

theorem LockInv.advance (inv : LockInv m limit l) (hlimit : limit < 4294967296) (hout : l.pc l.sched.running ≠ .out) :
    Runs (advance m) l fun _ l' => LockInv m limit l' := by
  have hfits := inv.fits l.sched.running
  have hidle := inv.caller _ hout
  cases hpc : l.pc l.sched.running with
  | out => exact absurd hpc hout
  | test =>
    rw [hpc] at hfits
    unfold Lock.advance
    apply Runs.get
    simp only [hpc]
    refine ⟨(), _, goto_eq l _ _ l.holder l.repeatNr, ?_⟩
    by_cases hholder : l.holder = some l.sched.running
    · have hmark := (inv.holder _).mp hholder
      rw [hpc] at hmark
      have hpos : 0 < l.depth l.sched.running := by
        rcases hmark with ⟨h, -⟩ | h | h
        · exact h
        · cases h
        · cases h
      rw [if_neg (by simp [hholder])]
      have hinc : Pc.incLoad.Fits limit (l.depth l.sched.running) := ⟨hpos, hfits⟩
      apply inv.ownerPut hout (by rw [hpc]; decide) (.inl hpos) hinc (by decide) (.inl hpos)
      · intro u
        rw [hholder, Option.some.injEq]
        exact ⟨fun h => ⟨h.symm, .inl ⟨hpos, by decide, by decide⟩⟩, fun h => h.1.symm⟩
      · refine (inv.counted _ (.inl hpos)).trans ?_
        rw [hpc]
        rfl
    · have hzero : l.depth l.sched.running = 0 := by
        by_contra hne
        apply hholder
        rw [inv.holder, hpc]
        exact .inl ⟨Nat.pos_of_ne_zero hne, by decide, by decide⟩
      rw [if_pos hholder]
      apply inv.outsiderPut hout (by rw [hpc]; decide)
      · rw [hpc, hzero]
        simp [Pc.Owns]
      · rw [hzero] at hfits ⊢
        exact ⟨rfl, hfits⟩
      · decide
      · rw [hzero]
        simp [Pc.Owns]
  | down =>
    unfold Lock.advance
    apply Runs.get
    simp only [hpc]
    apply Runs.onSched (semaDown_runs inv.sched hidle inv.value_le)
    intro s hs hrun
    apply afterDown_runs
    exact inv.look (.inl hpc) hs (semaDown_looked m l.sched () s hrun)
  | downLoop =>
    obtain ⟨old, hd⟩ := (inv.loop l.sched.running).mp hpc
    unfold Lock.advance
    apply Runs.get
    simp only [hpc]
    have hresume : Runs Op.resume.run l.sched fun _ s => SchedInv s := by
      apply Runs.get
      simp only [hd]
      exact semaDownRound_runs inv.sched hidle inv.value_le old
    apply Runs.onSched hresume
    intro s hs hrun
    apply afterDown_runs
    exact inv.look (.inr hpc) hs (resume_looked hd () s hrun)
  | setHolder => exact inv.advance_acquire hlimit (.inl hpc)
  | assertZero => exact inv.advance_acquire hlimit (.inr (.inl hpc))
  | setOne => exact inv.advance_acquire hlimit (.inr (.inr (.inl hpc)))
  | incLoad => exact inv.advance_acquire hlimit (.inr (.inr (.inr (.inl hpc))))
  | incStore r => exact inv.advance_acquire hlimit (.inr (.inr (.inr (.inr ⟨r, hpc⟩))))
  | assertHolder => exact inv.advance_release hlimit (.inl hpc)
  | testRepeat => exact inv.advance_release hlimit (.inr (.inl hpc))
  | decLoad => exact inv.advance_release hlimit (.inr (.inr (.inl hpc)))
  | decStore r => exact inv.advance_release hlimit (.inr (.inr (.inr (.inl ⟨r, hpc⟩))))
  | assertOne => exact inv.advance_release hlimit (.inr (.inr (.inr (.inr (.inl hpc)))))
  | clearHolder => exact inv.advance_release hlimit (.inr (.inr (.inr (.inr (.inr (.inl hpc))))))
  | clearRepeat => exact inv.advance_release hlimit (.inr (.inr (.inr (.inr (.inr (.inr hpc))))))
  | up =>
    have howns : (l.pc l.sched.running).Owns (l.depth l.sched.running) := by
      rw [hpc] at hfits
      exact .inl (by rw [hfits.1]; decide)
    have hv : l.sched.value m = 0 := by
      rcases inv.value with ⟨-, hnobody⟩ | hv
      · exact absurd howns (hnobody _)
      · exact hv
    unfold Lock.advance
    apply Runs.get
    simp only [hpc]
    apply Runs.onSched (semaUp_runs inv.sched hv)
    intro s hs hrun
    refine ⟨(), _, ret_eq { l with sched := s } _ _ l.holder l.repeatNr, ?_⟩
    exact inv.release hpc hs (semaUp_raised m l.sched () s hrun)

theorem LockInv.acquire (inv : LockInv m limit l) (he : Action.acquire.Enabled m limit l) :
    Runs (Action.acquire.run m) l fun _ l' => LockInv m limit l' := by
  apply Runs.get
  obtain ⟨hout, hdown, hidle, hlt⟩ := he
  exact ⟨(), _, goto_eq l _ .test l.holder l.repeatNr, inv.call hout hdown hidle (.inl rfl) hlt⟩

theorem LockInv.callRelease (inv : LockInv m limit l) (he : Action.release.Enabled m limit l) :
    Runs (Action.release.run m) l fun _ l' => LockInv m limit l' := by
  have hfits := inv.fits l.sched.running
  apply Runs.get
  obtain ⟨hout, hdown, hidle, hpos⟩ := he
  rw [hout] at hfits
  exact ⟨(), _, goto_eq l _ .assertHolder l.holder l.repeatNr, inv.call hout hdown hidle (.inr rfl) ⟨hpos, hfits⟩⟩

theorem LockInv.step (inv : LockInv m limit l) (hlimit : limit < 4294967296) {a : Action} (he : a.Enabled m limit l) :
    After (a.run m) l fun _ l' => LockInv m limit l' := by
  have hruns : Runs (a.run m) l (fun _ l' => LockInv m limit l') → After (a.run m) l fun _ l' => LockInv m limit l' := by
    rintro ⟨v, l₁, hrun, hinv⟩ u l' hrun'
    obtain ⟨-, rfl⟩ := ok_inj hrun hrun'
    exact hinv
  cases a with
  | acquire => exact hruns (inv.acquire he)
  | release => exact hruns (inv.callRelease he)
  | advance => exact hruns (inv.advance hlimit he)
  | other op =>
    obtain ⟨hop, hapart, hpc⟩ := he
    intro u l' hrun
    change onSched op.run l = _ at hrun
    unfold onSched at hrun
    cases hs : op.run l.sched with
    | error f =>
      rw [hs] at hrun
      cases hrun
    | ok r =>
      rw [hs] at hrun
      cases hrun
      rcases Op.completes inv.sched hop with ⟨s, hok, hinv⟩ | herr
      · rw [hs] at hok
        cases hok
        exact inv.other op hpc hinv (Op.beside (fun _ _ => (inv.fresh _ (le_refl _)).2.2) hop hapart _ _ hs)
      · rw [hs] at herr
        cases herr

theorem start_inv (m limit : ℕ) (value : ℕ → ℕ) : LockInv m limit (start m value) := by
  have hnobody : ∀ t, ¬ ((start m value).pc t).Owns ((start m value).depth t) := by
    intro t
    simp [start, Pc.Owns]
  refine ⟨afterInit_inv _, fun t => Nat.zero_le _, fun t _ ht => absurd ht (hnobody t), ?_, fun t ht => absurd ht (hnobody t),
    fun _ => rfl, .inl ⟨Function.update_self _ _ _, hnobody⟩, ?_, fun _ _ _ => rfl, fun _ _ => ⟨rfl, rfl, rfl⟩, ?_⟩
  · intro t
    simp [start, Pc.Marked]
  · intro t
    simp [start, afterInit]
  · intro t hout
    exact absurd rfl hout

theorem Reachable.inv {value : ℕ → ℕ} (hlimit : limit < 4294967296) (h : Reachable m limit value l) : LockInv m limit l := by
  induction h with
  | init => exact start_inv m limit value
  | @intr l b _ _ ih =>
    exact ⟨⟨ih.sched.toQueues.other b l.sched.saved l.sched.ticks l.sched.value, ih.sched.run⟩, ih.fits, ih.one, ih.holder, ih.counted,
      ih.zero, ih.value, ih.loop, ih.clear, ih.fresh, ih.caller⟩
  | step _ he hrun ih => exact ih.step hlimit he _ _ hrun

/-- At most one thread is between its outermost `lock_acquire` and the end of the matching `lock_release`; until the last
statements of that call the lock names it and counts its calls; and no statement of the lock's code fails. -/
theorem lock_mutual_exclusion (m : ℕ) (value : ℕ → ℕ) (l : LockSys) (h : Reachable m 4294967295 value l) :
    (∀ t u, 0 < l.depth t → 0 < l.depth u → t = u) ∧
      (∀ t, 0 < l.depth t → l.pc t ≠ .clearRepeat → l.pc t ≠ .up → l.holder = some t ∧ l.repeatNr = l.depth t) ∧
      ∀ a : Action, a.Enabled m 4294967295 l → (∀ op, a ≠ .other op) → ∃ l', a.run m l = .ok ((), l') := by
  have inv := h.inv (by decide)
  refine ⟨fun t u ht hu => inv.one t u (.inl ht) (.inl hu), ?_, ?_⟩
  · intro t hpos hclear hup
    constructor
    · rw [inv.holder]
      exact .inl ⟨hpos, hclear, hup⟩
    · rw [inv.counted t (.inl hpos), Pc.counted, if_neg hup]
  · intro a he hother
    have hruns : Runs (a.run m) l fun _ l' => LockInv m 4294967295 l' := by
      cases a with
      | acquire => exact inv.acquire he
      | release => exact inv.callRelease he
      | advance => exact inv.advance (by decide) he
      | other op => exact absurd rfl (hother op)
    obtain ⟨_, l', hrun, -⟩ := hruns
    exact ⟨l', hrun⟩

@[simp] theorem put_put (l : LockSys) (t : ℕ) (p p' : Pc) (d d' : ℕ) (h h' : Option ℕ) (r r' : ℕ) :
    (l.put t p d h r).put t p' d' h' r' = l.put t p' d' h' r' := by
  simp [LockSys.put]

theorem put_pc (l : LockSys) (p : Pc) (d : ℕ) (h : Option ℕ) (r : ℕ) :
    (l.put l.sched.running p d h r).pc (l.put l.sched.running p d h r).sched.running = p :=
  Function.update_self _ _ _

@[simp] theorem put_sched (l : LockSys) (t : ℕ) (p : Pc) (d : ℕ) (h : Option ℕ) (r : ℕ) : (l.put t p d h r).sched = l.sched := rfl

@[simp] theorem put_holder (l : LockSys) (t : ℕ) (p : Pc) (d : ℕ) (h : Option ℕ) (r : ℕ) : (l.put t p d h r).holder = h := rfl

@[simp] theorem put_repeatNr (l : LockSys) (t : ℕ) (p : Pc) (d : ℕ) (h : Option ℕ) (r : ℕ) : (l.put t p d h r).repeatNr = r := rfl

@[simp] theorem put_depth (l : LockSys) (t : ℕ) (p : Pc) (d : ℕ) (h : Option ℕ) (r : ℕ) : (l.put t p d h r).depth t = d :=
  Function.update_self _ _ _

theorem advance_test (hpc : l.pc l.sched.running = .test) (hholder : l.holder = some l.sched.running) :
    advance m l = .ok ((), l.put l.sched.running .incLoad (l.depth l.sched.running) l.holder l.repeatNr) := by
  unfold advance
  rw [get_bind]
  simp only [hpc, hholder, ne_eq, not_true_eq_false, if_false]
  rw [← hholder]
  exact goto_eq l _ .incLoad l.holder l.repeatNr

theorem advance_incLoad (hpc : l.pc l.sched.running = .incLoad) :
    advance m l = .ok ((), l.put l.sched.running (.incStore l.repeatNr) (l.depth l.sched.running) l.holder l.repeatNr) := by
  unfold advance
  rw [get_bind]
  simp only [hpc]
  exact goto_eq l _ (.incStore l.repeatNr) l.holder l.repeatNr

theorem advance_incStore {r : ℕ} (hpc : l.pc l.sched.running = .incStore r) :
    advance m l = .ok ((), l.put l.sched.running .out (l.depth l.sched.running + 1) l.holder ((r + 1) % 4294967296)) := by
  unfold advance
  rw [get_bind]
  simp only [hpc]
  exact ret_eq l _ (l.depth l.sched.running + 1) l.holder ((r + 1) % 4294967296)

def Holds (l : LockSys) : Prop :=
  l.sched.inDown l.sched.running = none ∧ l.sched.running ≠ l.sched.idleThread ∧ l.pc l.sched.running = .out ∧
    l.holder = some l.sched.running

instance (l : LockSys) : Decidable (Holds l) := inferInstanceAs (Decidable (_ ∧ _ ∧ _ ∧ _))

/-- The state after one more `lock_acquire` of the holder. -/
def LockSys.again (l : LockSys) : LockSys :=
  l.put l.sched.running .out (l.depth l.sched.running + 1) l.holder ((l.repeatNr + 1) % 4294967296)

theorem Reachable.again {value : ℕ → ℕ} (hr : Reachable m limit value l) (h : Holds l) (hlt : l.depth l.sched.running < limit) :
    Reachable m limit value l.again := by
  obtain ⟨hdown, hidle, hout, hholder⟩ := h
  have hin : ∀ {p : Pc} (d r : ℕ), p ≠ .out → Action.advance.Enabled m limit (l.put l.sched.running p d l.holder r) := by
    intro p d r hp
    change _ ≠ _
    rw [put_pc]
    exact hp
  have h₁ := hr.step (a := .acquire) ⟨hout, hdown, hidle, hlt⟩ (goto_eq l l.sched.running .test l.holder l.repeatNr)
  have h₂ := h₁.step (a := .advance) (hin _ _ (by decide)) (advance_test (put_pc l _ _ _ _) hholder)
  rw [put_sched, put_put, put_depth, put_holder, put_repeatNr] at h₂
  have h₃ := h₂.step (a := .advance) (hin _ _ (by decide)) (advance_incLoad (put_pc l _ _ _ _))
  rw [put_sched, put_put, put_depth, put_holder, put_repeatNr] at h₃
  have h₄ := h₃.step (a := .advance) (hin _ _ (by simp)) (advance_incStore (put_pc l _ _ _ _))
  rw [put_sched, put_put, put_depth, put_holder] at h₄
  exact h₄

theorem Holds.again (h : Holds l) : Holds l.again := by
  obtain ⟨hdown, hidle, -, hholder⟩ := h
  exact ⟨hdown, hidle, put_pc l _ _ _ _, hholder⟩

theorem Reachable.again_iterate {value : ℕ → ℕ} (hr : Reachable m limit value l) (h : Holds l) (hword : l.repeatNr < 4294967296) (n : ℕ)
    (hlt : l.depth l.sched.running + n ≤ limit) :
    Reachable m limit value (LockSys.again^[n] l) ∧ Holds (LockSys.again^[n] l) ∧
      (LockSys.again^[n] l).depth (LockSys.again^[n] l).sched.running = l.depth l.sched.running + n ∧
      (LockSys.again^[n] l).repeatNr = (l.repeatNr + n) % 4294967296 := by
  induction n with
  | zero => exact ⟨hr, h, rfl, (Nat.mod_eq_of_lt hword).symm⟩
  | succ n ih =>
    obtain ⟨hr', h', hdepth, hrepeat⟩ := ih (by omega)
    rw [Function.iterate_succ_apply']
    refine ⟨hr'.again h' (by omega), h'.again, ?_, ?_⟩
    · refine (put_depth _ _ _ _ _ _).trans ?_
      omega
    · change ((LockSys.again^[n] l).repeatNr + 1) % 4294967296 = _
      rw [hrepeat]
      omega

def LockSys.after (m : ℕ) (l : LockSys) (a : Action) : LockSys :=
  match a.run m l with
  | .ok (_, l') => l'
  | .error _ => l

def firstAcquire : LockSys :=
  [.acquire, .advance, .advance, .advance, .advance, .advance].foldl (LockSys.after 0) (start 0 fun _ => 0)

theorem firstAcquire_reachable {limit : ℕ} (hlimit : 0 < limit) : Reachable 0 limit (fun _ => 0) firstAcquire := by
  have hadvance : ∀ {l : LockSys}, Reachable 0 limit (fun _ => 0) l → l.pc l.sched.running ≠ .out →
      ((Action.advance.run 0) l).isOk = true → Reachable 0 limit (fun _ => 0) (l.after 0 .advance) := by
    intro l hr hpc hok
    unfold LockSys.after
    cases hrun : Action.advance.run 0 l with
    | error f =>
      rw [hrun] at hok
      cases hok
    | ok r => exact hr.step (a := .advance) hpc hrun
  have h₁ : Reachable 0 limit (fun _ => 0) ((start 0 fun _ => 0).after 0 .acquire) :=
    Reachable.init.step (a := .acquire) ⟨rfl, rfl, by decide, hlimit⟩ rfl
  exact hadvance (hadvance (hadvance (hadvance (hadvance h₁ (by decide) (by decide)) (by decide) (by decide)) (by decide) (by decide))
    (by decide) (by decide)) (by decide) (by decide)

/-- A thread that takes the lock 2³² times is counted as if it had not taken it. -/
theorem lock_count_overflows : ¬ ∀ (m limit : ℕ) (value : ℕ → ℕ) (l : LockSys), Reachable m limit value l →
    ∀ t, 0 < l.depth t → l.pc t ≠ .clearRepeat → l.pc t ≠ .up → l.holder = some t ∧ l.repeatNr = l.depth t := by
  intro hclaim
  have hdepth : firstAcquire.depth firstAcquire.sched.running = 1 := by decide
  have hrepeat : firstAcquire.repeatNr = 1 := by decide
  obtain ⟨hr, h, hd, hn⟩ := (firstAcquire_reachable (by decide : 0 < 4294967296)).again_iterate (by decide) (by decide) 4294967295
    (by rw [hdepth])
  rw [hdepth] at hd
  rw [hrepeat] at hn
  have hpc := h.2.2.1
  have heq := (hclaim 0 4294967296 _ _ hr _ (by rw [hd]; decide) (by rw [hpc]; decide) (by rw [hpc]; decide)).2
  rw [hd, hn] at heq
  exact absurd heq (by decide)

theorem lock_mutual_exclusion_first : firstAcquire.holder = some 0 ∧ firstAcquire.repeatNr = firstAcquire.depth 0 :=
  (lock_mutual_exclusion 0 (fun _ => 0) firstAcquire (firstAcquire_reachable (by decide))).2.1 0 (by decide) (by decide) (by decide)

/-- The statements of `lock_acquire`. -/
def Pc.InAcquire : Pc → Prop
  | .test | .down | .downLoop | .setHolder | .assertZero | .setOne | .incLoad | .incStore _ => True
  | _ => False

/-- The statements of `lock_release`. -/
def Pc.InRelease : Pc → Prop
  | .assertHolder | .testRepeat | .decLoad | .decStore _ | .assertOne | .clearHolder | .clearRepeat | .up => True
  | _ => False

structure Frame (m : ℕ) (l l' : LockSys) : Prop where
  value : ∀ k, k ≠ m → l'.sched.value k = l.sched.value k
  inDown : ∀ u, u ≠ l.sched.running → l'.sched.inDown u = l.sched.inDown u
  self : l'.sched.inDown l.sched.running = none ∨ ∃ old, l'.sched.inDown l.sched.running = some (m, old)
  count : l.sched.count ≤ l'.sched.count
  idle : l'.sched.idleThread = l.sched.idleThread
  pc : ∀ u, u ≠ l.sched.running → l'.pc u = l.pc u
  depth : ∀ u, u ≠ l.sched.running → l'.depth u = l.depth u
  acquire : (l.pc l.sched.running).InAcquire →
    ((l'.pc l.sched.running).InAcquire ∧ l'.depth l.sched.running = l.depth l.sched.running) ∨
    (l'.pc l.sched.running = .out ∧ l'.depth l.sched.running = l.depth l.sched.running + 1)
  release : (l.pc l.sched.running).InRelease →
    ((l'.pc l.sched.running).InRelease ∧ l'.depth l.sched.running = l.depth l.sched.running) ∨
    (l'.pc l.sched.running = .out ∧ l'.depth l.sched.running = l.depth l.sched.running - 1)

theorem frame_put {p : Pc} {d : ℕ} {h : Option ℕ} {r : ℕ} (hdown : l.sched.inDown l.sched.running = none)
    (hacquire : (l.pc l.sched.running).InAcquire →
      (p.InAcquire ∧ d = l.depth l.sched.running) ∨ (p = .out ∧ d = l.depth l.sched.running + 1))
    (hrelease : (l.pc l.sched.running).InRelease →
      (p.InRelease ∧ d = l.depth l.sched.running) ∨ (p = .out ∧ d = l.depth l.sched.running - 1)) :
    Frame m l (l.put l.sched.running p d h r) := by
  have hself : (l.put l.sched.running p d h r).pc l.sched.running = p := Function.update_self _ _ _
  refine ⟨fun _ _ => rfl, fun _ _ => rfl, .inl hdown, le_refl _, rfl, fun u hu => Function.update_of_ne hu _ _,
    fun u hu => Function.update_of_ne hu _ _, ?_, ?_⟩
  · rw [hself, put_depth]
    exact hacquire
  · rw [hself, put_depth]
    exact hrelease

theorem frame_look {s : Sched} (hpc : (l.pc l.sched.running).InAcquire) (h : Looked m l.sched.running l.sched s) {p : Pc}
    (hp : p.InAcquire) : Frame m l (({ l with sched := s } : LockSys).put l.sched.running p (l.depth l.sched.running) l.holder
      l.repeatNr) := by
  have hself : (({ l with sched := s } : LockSys).put l.sched.running p (l.depth l.sched.running) l.holder l.repeatNr).pc
    l.sched.running = p := Function.update_self _ _ _
  refine ⟨h.value, h.others, h.asleep, h.count, h.idle, fun u hu => Function.update_of_ne hu _ _,
    fun u hu => Function.update_of_ne hu _ _, ?_, ?_⟩
  · intro _
    rw [hself, put_depth]
    exact .inl ⟨hp, rfl⟩
  · intro hrelease
    exfalso
    cases hl : l.pc l.sched.running <;> rw [hl] at hpc hrelease <;> first | exact hpc | exact hrelease

theorem check_ok {c : Prop} [Decidable c] {f : LockFault} {g : Unit → LockM Unit} {r : Unit × LockSys}
    (h : (Lock.check c f >>= g) l = .ok r) : g () l = .ok r := by
  obtain ⟨_, l₁, hcheck, hg⟩ := (bind_ok _ g l _).mp h
  rw [Lock.check] at hcheck
  split_ifs at hcheck with hc
  · obtain ⟨-, rfl⟩ := (pure_ok _ _ _ _).mp hcheck
    exact hg
  · cases hcheck

theorem onSched_ok {op : SchedM Unit} {f : Unit → LockM Unit} {r : Unit × LockSys} (h : (onSched op >>= f) l = .ok r) :
    ∃ s, op l.sched = .ok ((), s) ∧ f () { l with sched := s } = .ok r := by
  obtain ⟨_, l₁, hop, hf⟩ := (bind_ok _ f l _).mp h
  unfold onSched at hop
  cases hs : op l.sched with
  | error f =>
    rw [hs] at hop
    cases hop
  | ok p =>
    rw [hs] at hop
    cases hop
    exact ⟨p.2, rfl, hf⟩

theorem afterDown_ok {t : ℕ} {u : Unit} (h : afterDown t l = .ok (u, l')) :
    l' = l.put t (if l.sched.inDown t = none then .setHolder else .downLoop) (l.depth t) l.holder l.repeatNr := by
  unfold afterDown at h
  rw [get_bind] at h
  exact (ok_inj h (goto_eq l t _ l.holder l.repeatNr)).2

theorem advance_frame (inv : LockInv m limit l) (hout : l.pc l.sched.running ≠ .out) :
    After (advance m) l fun _ l' => Frame m l l' := by
  have hclear := inv.clear _ hout
  intro u l' hrun
  unfold advance at hrun
  rw [get_bind] at hrun
  have hlooked : ∀ p : Prop, [Decidable p] → (if p then Pc.setHolder else Pc.downLoop).InAcquire := by
    intro p _
    split_ifs <;> trivial
  cases hpc : l.pc l.sched.running with
  | out => exact absurd hpc hout
  | test =>
    simp only [hpc] at hrun
    rw [(ok_inj hrun (goto_eq l _ _ l.holder l.repeatNr)).2]
    apply frame_put (hclear (by simp [hpc]))
    · intro _
      left
      split_ifs <;> exact ⟨trivial, rfl⟩
    · simp [hpc, Pc.InRelease]
  | down =>
    simp only [hpc] at hrun
    obtain ⟨s, hop, hafter⟩ := onSched_ok hrun
    rw [afterDown_ok hafter]
    exact frame_look (by rw [hpc]; trivial) (semaDown_looked m l.sched () s hop) (hlooked _)
  | downLoop =>
    obtain ⟨old, hd⟩ := (inv.loop l.sched.running).mp hpc
    simp only [hpc] at hrun
    obtain ⟨s, hop, hafter⟩ := onSched_ok hrun
    rw [afterDown_ok hafter]
    exact frame_look (by rw [hpc]; trivial) (resume_looked hd () s hop) (hlooked _)
  | setHolder =>
    simp only [hpc] at hrun
    rw [(ok_inj (m := goto l.sched.running .assertZero) hrun (goto_eq l _ .assertZero (some l.sched.running) l.repeatNr)).2]
    exact frame_put (hclear (by simp [hpc])) (fun _ => .inl ⟨trivial, rfl⟩) (by simp [hpc, Pc.InRelease])
  | assertZero =>
    simp only [hpc] at hrun
    rw [(ok_inj (check_ok hrun) (goto_eq l _ .setOne l.holder l.repeatNr)).2]
    exact frame_put (hclear (by simp [hpc])) (fun _ => .inl ⟨trivial, rfl⟩) (by simp [hpc, Pc.InRelease])
  | setOne =>
    simp only [hpc] at hrun
    rw [(ok_inj (m := ret l.sched.running (l.depth l.sched.running + 1)) hrun (ret_eq l _ _ l.holder 1)).2]
    exact frame_put (hclear (by simp [hpc])) (fun _ => .inr ⟨rfl, rfl⟩) (by simp [hpc, Pc.InRelease])
  | incLoad =>
    simp only [hpc] at hrun
    rw [(ok_inj hrun (goto_eq l _ _ l.holder l.repeatNr)).2]
    exact frame_put (hclear (by simp [hpc])) (fun _ => .inl ⟨trivial, rfl⟩) (by simp [hpc, Pc.InRelease])
  | incStore r =>
    simp only [hpc] at hrun
    rw [(ok_inj (m := ret l.sched.running (l.depth l.sched.running + 1)) hrun (ret_eq l _ _ l.holder ((r + 1) % 4294967296))).2]
    exact frame_put (hclear (by simp [hpc])) (fun _ => .inr ⟨rfl, rfl⟩) (by simp [hpc, Pc.InRelease])
  | assertHolder =>
    simp only [hpc] at hrun
    rw [(ok_inj (check_ok hrun) (goto_eq l _ .testRepeat l.holder l.repeatNr)).2]
    exact frame_put (hclear (by simp [hpc])) (by simp [hpc, Pc.InAcquire]) (fun _ => .inl ⟨trivial, rfl⟩)
  | testRepeat =>
    simp only [hpc] at hrun
    rw [(ok_inj hrun (goto_eq l _ _ l.holder l.repeatNr)).2]
    apply frame_put (hclear (by simp [hpc]))
    · simp [hpc, Pc.InAcquire]
    · intro _
      left
      split_ifs <;> exact ⟨trivial, rfl⟩
  | decLoad =>
    simp only [hpc] at hrun
    rw [(ok_inj hrun (goto_eq l _ _ l.holder l.repeatNr)).2]
    exact frame_put (hclear (by simp [hpc])) (by simp [hpc, Pc.InAcquire]) (fun _ => .inl ⟨trivial, rfl⟩)
  | decStore r =>
    simp only [hpc] at hrun
    rw [(ok_inj (m := ret l.sched.running (l.depth l.sched.running - 1)) hrun
      (ret_eq l _ _ l.holder ((r + 4294967295) % 4294967296))).2]
    exact frame_put (hclear (by simp [hpc])) (by simp [hpc, Pc.InAcquire]) (fun _ => .inr ⟨rfl, rfl⟩)
  | assertOne =>
    simp only [hpc] at hrun
    rw [(ok_inj (check_ok hrun) (goto_eq l _ .clearHolder l.holder l.repeatNr)).2]
    exact frame_put (hclear (by simp [hpc])) (by simp [hpc, Pc.InAcquire]) (fun _ => .inl ⟨trivial, rfl⟩)
  | clearHolder =>
    simp only [hpc] at hrun
    rw [(ok_inj (m := goto l.sched.running .clearRepeat) hrun (goto_eq l _ .clearRepeat none l.repeatNr)).2]
    exact frame_put (hclear (by simp [hpc])) (by simp [hpc, Pc.InAcquire]) (fun _ => .inl ⟨trivial, rfl⟩)
  | clearRepeat =>
    simp only [hpc] at hrun
    rw [(ok_inj (m := goto l.sched.running .up) hrun (goto_eq l _ .up l.holder 0)).2]
    exact frame_put (hclear (by simp [hpc])) (by simp [hpc, Pc.InAcquire]) (fun _ => .inl ⟨trivial, rfl⟩)
  | up =>
    simp only [hpc] at hrun
    obtain ⟨s, hop, hret⟩ := onSched_ok hrun
    have hup := semaUp_raised m l.sched () s hop
    rw [(ok_inj hret (ret_eq { l with sched := s } _ _ l.holder l.repeatNr)).2]
    refine ⟨hup.others, fun u _ => congrFun hup.inDown u, .inl ?_, le_of_eq hup.count.symm, hup.idle,
      fun u hu => Function.update_of_ne hu _ _, fun u hu => Function.update_of_ne hu _ _, ?_, ?_⟩
    · rw [put_sched, hup.inDown]
      exact hclear (by simp [hpc])
    · simp [hpc, Pc.InAcquire]
    · intro _
      exact .inr ⟨Function.update_self _ _ _, Function.update_self _ _ _⟩

theorem depth_acquire {pc : Pc} {d : ℕ} (h : pc.Fits 1 d) (hpc : pc.InAcquire) : d = 0 := by
  cases pc <;> simp only [Pc.Fits, Pc.InAcquire] at h hpc <;> omega

theorem depth_release {pc : Pc} {d : ℕ} (h : pc.Fits 1 d) (hpc : pc.InRelease) : d = 1 := by
  cases pc <;> simp only [Pc.Fits, Pc.InRelease] at h hpc <;> omega

theorem frame_enter {l : LockSys} (hpc : l.pc l.sched.running = .out) (hdown : l.sched.inDown l.sched.running = none) (p : Pc) :
    Frame m l (l.put l.sched.running p (l.depth l.sched.running) l.holder l.repeatNr) := by
  apply frame_put hdown
  · rw [hpc]
    exact fun h => absurd h id
  · rw [hpc]
    exact fun h => absurd h id

end ElephantOS.Lock
