import ElephantOS.Heap
import ElephantOS.PageFailure

/-! `kernel/memory.c` with the locks of the two pools: where a call of the allocator takes its lock and where it gives it back. -/

namespace ElephantOS.Paging.Locked

open HaltingState

/-- `struct lock`, its semaphore left out: who waits on it is not told from here. -/
structure PoolLock where
  holder : Option ℕ
  /-- `holder_repeat_nr` -/
  repeatNr : Word

namespace PoolLock

variable (t : ℕ) (l : PoolLock)

/-- How often task `t` holds the lock. -/
def heldBy : Word := if l.holder = some t then l.repeatNr else 0

/-- A task that does not hold the lock comes back from `sema_down` when it is free. -/
def acquire : PoolLock := if l.holder = some t then { l with repeatNr := l.repeatNr + 1 } else ⟨some t, 1⟩

/-- `none` where an assertion of `lock_release` fails. -/
def release : Option PoolLock :=
  if l.holder = some t then
    if 1 < l.repeatNr.toNat then some { l with repeatNr := l.repeatNr - 1 }
    else if l.repeatNr = 1 then some ⟨none, 0⟩ else none
  else none

end PoolLock

structure Guarded where
  heap : Heap
  lock : Pool → PoolLock

abbrev LockedM := Exec HeapHalt Guarded

def inside {α : Type} (x : HeapM α) : LockedM α := zoom Guarded.heap (fun g h => { g with heap := h }) x

def lockAcquire (t : ℕ) (pf : Pool) : LockedM Unit :=
  modify fun g => { g with lock := Function.update g.lock pf ((g.lock pf).acquire t) }

def lockRelease (t : ℕ) (pf : Pool) : LockedM Unit := fun g =>
  match (g.lock pf).release t with
  | none => .error .assertion
  | some l => .ok ((), { g with lock := Function.update g.lock pf l })

section

variable (mallocPage : Pool → ℕ → MemM (Option Word)) (palloc : Pool → MemM (Option Word))

def newArena (pf : Pool) (desc : Word) : HeapM Bool := do
  match ← page (mallocPage pf 1) with
  | none => return false
  | some a =>
    page (clearPages 1 a)
    storeWord a desc
    storeWord (a + 8#32) 0
    let blocksPerArena ← loadWord (desc + 4#32)
    storeWord (a + 4#32) blocksPerArena
    addBlocks a blocksPerArena.toNat 0
    return true

def setLarge (a : Word) (pageCnt : ℕ) : HeapM Unit := do
  page (clearPages pageCnt a)
  storeWord a 0
  storeWord (a + 4#32) (BitVec.ofNat 32 pageCnt)
  storeWord (a + 8#32) 1

def mallocLarge (t : ℕ) (pf : Pool) (size : ℕ) : LockedM (Option Word) := do
  let pageCnt := (size + 12 + 4095) / 4096
  match ← inside (page (mallocPage pf pageCnt)) with
  | none =>
    lockRelease t pf
    return none
  | some a =>
    inside (setLarge a pageCnt)
    lockRelease t pf
    return some (a + 12#32)

def mallocSmall (t : ℕ) (pf : Pool) (descs : Word) (size : ℕ) : LockedM (Option Word) := do
  let descIdx ← inside (descFor descs size 7 0)
  let desc := descAddr descs descIdx
  let empty ← inside (listEmpty (freeListOf desc))
  let ready ← inside (if empty then newArena mallocPage pf desc else pure true)
  if ready then
    let b ← inside (takeBlock desc)
    lockRelease t pf
    return some b
  else
    lockRelease t pf
    return none

def sysMalloc (size : ℕ) : LockedM (Option Word) := do
  let g ← get
  let t := g.heap.machine.cur
  if 0 < size ∧ size < (poolOf g.heap.pool g.heap.machine).poolSize then
    lockAcquire t g.heap.pool
    if 1024 < size then mallocLarge mallocPage t g.heap.pool size else mallocSmall mallocPage t g.heap.pool g.heap.descs size
  else return none

/-- What `sys_free` does while it holds the lock. -/
def freeBlock (pf : Pool) (ptr : Word) : HeapM Unit := do
  let a := block2arena ptr
  let large ← loadWord (a + 8#32)
  assertHeap (large = 0 ∨ large = 1)
  let desc ← loadWord a
  if desc = 0 ∧ large = 1 then
    let cnt ← loadWord (a + 4#32)
    page (mfreePage pf a cnt.toNat)
  else freeSmall pf a ptr

def sysFree (ptr : Word) : LockedM Unit := do
  inside (assertHeap (ptr ≠ 0))
  let g ← get
  inside (assertHeap (g.heap.pool = .kernel → kHeapStart ≤ ptr.toNat))
  lockAcquire g.heap.machine.cur g.heap.pool
  inside (freeBlock g.heap.pool ptr)
  lockRelease g.heap.machine.cur g.heap.pool

def getUserPages (pgCnt : ℕ) : LockedM (Option Word) := do
  let g ← get
  lockAcquire g.heap.machine.cur .user
  match ← inside (page (mallocPage .user pgCnt)) with
  | none => halt .assertion
  | some vaddr =>
    inside (page (clearPages pgCnt vaddr))
    lockRelease g.heap.machine.cur .user
    return some vaddr

def reserve (pf : Pool) (vaddr : Word) : MemM Unit := do
  let m ← get
  assert ((m.pgdir m.cur).isSome = true ↔ pf = .user)
  let v := vaddrOf pf m
  assert (0 < bitIdx v vaddr)
  set (setVaddr pf { v with vaddrBitmap := v.vaddrBitmap.set (bitIdx v vaddr) true } m)

def getAPage (pf : Pool) (vaddr : Word) : LockedM (Option Word) := do
  let g ← get
  lockAcquire g.heap.machine.cur pf
  inside (page (reserve pf vaddr))
  match ← inside (page (palloc pf)) with
  | none => return none
  | some pagePhyaddr =>
    inside (page (pageTableAddBy palloc vaddr pagePhyaddr))
    lockRelease g.heap.machine.cur pf
    return some vaddr

end

def Forgets {α : Type} (x : LockedM α) (y : HeapM α) : Prop := ∀ g r g', x g = .ok (r, g') → y g.heap = .ok (r, g'.heap)

namespace Forgets

variable {α β : Type}

theorem inside (x : HeapM α) : Forgets (inside x) x := by
  intro g r g' h
  obtain ⟨s, hs, rfl⟩ := (zoom_ok _ _ _ _ _ _).mp h
  exact hs

theorem pure (a : α) : Forgets (Pure.pure a) (Pure.pure a) := by
  intro g r g' h
  obtain ⟨rfl, rfl⟩ := (pure_ok _ _ _ _).mp h
  rfl

theorem bind {x : LockedM α} {y : HeapM α} {f : α → LockedM β} {k : α → HeapM β} (hx : Forgets x y)
    (hf : ∀ a, Forgets (f a) (k a)) : Forgets (x >>= f) (y >>= k) := by
  intro g r g' h
  obtain ⟨a, g₁, h₁, h₂⟩ := (bind_ok _ _ _ _).mp h
  rw [bind_eq (hx g a g₁ h₁)]
  exact hf a g₁ r g' h₂

theorem get {f : Guarded → LockedM β} {k : Heap → HeapM β} (hf : ∀ g, Forgets (f g) (k g.heap)) :
    Forgets (MonadState.get >>= f) (MonadState.get >>= k) := by
  intro g r g' h
  obtain ⟨a, g₁, h₁, h₂⟩ := (bind_ok _ _ _ _).mp h
  obtain ⟨rfl, rfl⟩ := (get_ok _ _ _).mp h₁
  exact hf g g r g' h₂

theorem acquire {t : ℕ} {pf : Pool} {f : Unit → LockedM β} {y : HeapM β} (hf : Forgets (f ()) y) :
    Forgets (lockAcquire t pf >>= f) y := by
  intro g r g' h
  obtain ⟨u, g₁, h₁, h₂⟩ := (bind_ok _ _ _ _).mp h
  obtain rfl := (modify_ok _ _ _ _).mp h₁
  have h := hf _ r g' h₂
  exact h

theorem release {t : ℕ} {pf : Pool} {f : Unit → LockedM β} {y : HeapM β} (hf : Forgets (f ()) y) :
    Forgets (lockRelease t pf >>= f) y := by
  intro g r g' h
  obtain ⟨u, g₁, h₁, h₂⟩ := (bind_ok _ _ _ _).mp h
  unfold lockRelease at h₁
  cases hl : (g.lock pf).release t with
  | none => simp [hl] at h₁
  | some l =>
    simp only [hl, Except.ok.injEq, Prod.mk.injEq, true_and] at h₁
    subst h₁
    have h := hf _ r g' h₂
    exact h

end Forgets

theorem mallocLarge_forgets (t : ℕ) (pf : Pool) (size : ℕ) :
    Forgets (mallocLarge Paging.mallocPage t pf size) (Paging.mallocLarge pf size) := by
  refine (Forgets.inside _).bind fun r => ?_
  cases r with
  | none => exact Forgets.release (Forgets.pure _)
  | some a =>
    have hrelease : Forgets (do lockRelease t pf; return some (a + 12#32)) (pure (some (a + 12#32))) :=
      Forgets.release (Forgets.pure _)
    have h := (Forgets.inside (setLarge a ((size + 12 + 4095) / 4096))).bind fun _ => hrelease
    simpa only [setLarge, bind_assoc] using h

theorem mallocSmall_forgets (t : ℕ) (pf : Pool) (descs : Word) (size : ℕ) :
    Forgets (mallocSmall Paging.mallocPage t pf descs size) (Paging.mallocSmall pf descs size) := by
  have hend : ∀ i ready, Forgets
      (if ready = true then do
          let b ← inside (takeBlock (descAddr descs i))
          lockRelease t pf
          return some b
        else do
          lockRelease t pf
          return none)
      (if ready = true then do
          let b ← takeBlock (descAddr descs i)
          return some b
        else return none) := by
    intro i ready
    cases ready with
    | false => exact Forgets.release (Forgets.pure _)
    | true => exact (Forgets.inside _).bind fun b => Forgets.release (Forgets.pure _)
  refine (Forgets.inside _).bind fun i => (Forgets.inside _).bind fun empty => ?_
  cases empty with
  | false => exact (Forgets.inside _).bind fun ready => hend i ready
  | true => exact (Forgets.inside _).bind fun ready => hend i ready

theorem sysMalloc_forgets (size : ℕ) : Forgets (sysMalloc Paging.mallocPage size) (Paging.sysMalloc size) := by
  refine Forgets.get fun g => ?_
  split
  · refine Forgets.acquire ?_
    split
    · exact mallocLarge_forgets _ _ _
    · exact mallocSmall_forgets _ _ _ _
  · exact Forgets.pure _

theorem sysFree_forgets (ptr : Word) : Forgets (sysFree ptr) (Paging.sysFree ptr) := by
  refine (Forgets.inside _).bind fun _ => Forgets.get fun g => (Forgets.inside _).bind fun _ => Forgets.acquire ?_
  have hrelease : Forgets (lockRelease g.heap.machine.cur g.heap.pool >>= fun u => pure u) (pure ()) :=
    Forgets.release (Forgets.pure _)
  have h := (Forgets.inside (freeBlock g.heap.pool ptr)).bind fun _ => hrelease
  simpa only [bind_pure, bind_pure_unit, freeBlock] using h

theorem page_bind {α β : Type} (x : MemM α) (f : α → MemM β) : page (x >>= f) = page x >>= fun a => page (f a) := by
  funext h
  cases hx : x h.machine with
  | error e =>
    have hpage : page x h = .error (.page e) := by simp only [page, hx]
    rw [bind_error hpage, page, bind_error hx]
  | ok p =>
    have hpage : page x h = .ok (p.1, { h with machine := p.2 }) := by simp only [page, hx]
    rw [bind_eq hpage, page, bind_eq hx]
    rfl

theorem Forgets.looking {β : Type} {f : Guarded → LockedM β} {y : HeapM β} (hf : ∀ g, Forgets (f g) y) :
    Forgets (MonadState.get >>= f) y := by
  intro g r g' h
  obtain ⟨a, g₁, h₁, h₂⟩ := (bind_ok _ _ _ _).mp h
  obtain ⟨rfl, rfl⟩ := (get_ok _ _ _).mp h₁
  exact hf g g r g' h₂

theorem getUserPages_forgets (pgCnt : ℕ) : Forgets (getUserPages Paging.mallocPage pgCnt) (page (Paging.getUserPages pgCnt)) := by
  refine Forgets.looking fun g => Forgets.acquire ?_
  rw [Paging.getUserPages, page_bind]
  refine (Forgets.inside _).bind fun r => ?_
  cases r with
  | none =>
    intro g r g' h
    simp at h
  | some v =>
    simp only [page_bind]
    exact (Forgets.inside _).bind fun _ => Forgets.release (Forgets.pure _)

theorem getAPage_forgets (pf : Pool) (vaddr : Word) :
    Forgets (getAPage Paging.palloc pf vaddr) (page (Paging.getAPage pf vaddr)) := by
  refine Forgets.looking fun g => Forgets.acquire ?_
  have hpage : Paging.getAPage pf vaddr = (do
      reserve pf vaddr
      match ← Paging.palloc pf with
      | none => return none
      | some pagePhyaddr =>
        pageTableAddBy Paging.palloc vaddr pagePhyaddr
        return some vaddr) := by
    simp only [Paging.getAPage, reserve, bind_assoc]
    rfl
  rw [hpage, page_bind]
  refine (Forgets.inside _).bind fun _ => ?_
  rw [page_bind]
  refine (Forgets.inside _).bind fun r => ?_
  cases r with
  | none => exact Forgets.pure none
  | some f =>
    simp only [page_bind]
    exact (Forgets.inside _).bind fun _ => Forgets.release (Forgets.pure _)

theorem PoolLock.heldBy_acquire (t : ℕ) (l : PoolLock) : (l.acquire t).heldBy t = l.heldBy t + 1 := by
  by_cases h : l.holder = some t
  · simp [acquire, heldBy, h]
  · simp [acquire, heldBy, h]

theorem PoolLock.heldBy_release {t : ℕ} {l l' : PoolLock} (h : l.release t = some l') : l.heldBy t = l'.heldBy t + 1 := by
  unfold release at h
  split_ifs at h with hholder hmore hone
  · obtain rfl := Option.some.inj h
    simp only [heldBy, hholder, if_true, BitVec.sub_add_cancel]
  · obtain rfl := Option.some.inj h
    simp [heldBy, hholder, hone]

theorem heldBy_same {t : ℕ} {pf : Pool} {lock lock' : Pool → PoolLock}
    (hmine : (Function.update lock pf ((lock pf).acquire t) pf).release t = some (lock' pf))
    (hother : ∀ pf', pf' ≠ pf → lock' pf' = Function.update lock pf ((lock pf).acquire t) pf') (pf' : Pool) :
    (lock' pf').heldBy t = (lock pf').heldBy t := by
  by_cases hpf : pf' = pf
  · subst hpf
    have hheld := PoolLock.heldBy_release hmine
    rw [Function.update_self, PoolLock.heldBy_acquire] at hheld
    exact (BitVec.add_left_inj 1).mp hheld.symm
  · rw [hother pf' hpf, Function.update_of_ne hpf]

/-- A return of `x` comes after one release of the lock of `pf`, and after nothing else done to the locks. -/
def GivesBack {α : Type} (t : ℕ) (pf : Pool) (x : LockedM α) : Prop := ∀ g r g', x g = .ok (r, g') →
  (g.lock pf).release t = some (g'.lock pf) ∧ ∀ pf', pf' ≠ pf → g'.lock pf' = g.lock pf'

theorem inside_lock {α : Type} {x : HeapM α} {g g' : Guarded} {r : α} (h : inside x g = .ok (r, g')) : g'.lock = g.lock := by
  obtain ⟨s, -, rfl⟩ := (zoom_ok _ _ _ _ _ _).mp h
  rfl

namespace GivesBack

variable {α β : Type} {t : ℕ} {pf : Pool}

theorem inside {x : HeapM α} {f : α → LockedM β} (hf : ∀ a, GivesBack t pf (f a)) : GivesBack t pf (Locked.inside x >>= f) := by
  intro g r g' h
  obtain ⟨a, g₁, h₁, h₂⟩ := (bind_ok _ _ _ _).mp h
  have hf' := hf a g₁ r g' h₂
  rwa [inside_lock h₁] at hf'

theorem release : GivesBack t pf (lockRelease t pf) := by
  intro g r g' h
  unfold lockRelease at h
  cases hl : (g.lock pf).release t with
  | none => simp [hl] at h
  | some l =>
    simp only [hl, Except.ok.injEq, Prod.mk.injEq, true_and] at h
    subst h
    exact ⟨by simp, fun pf' hne => by simp [hne]⟩

theorem released (a : α) : GivesBack t pf (do lockRelease t pf; return a) := by
  intro g r g' h
  obtain ⟨u, g₁, h₁, h₂⟩ := (bind_ok _ _ _ _).mp h
  obtain ⟨-, rfl⟩ := (pure_ok _ _ _ _).mp h₂
  exact release g u g₁ h₁

theorem halt (e : HeapHalt) : GivesBack t pf (HaltingState.halt e : LockedM α) := by
  intro g r g' h
  simp at h

theorem acquired {f : Unit → LockedM β} (hf : GivesBack t pf (f ())) {g g' : Guarded} {r : β}
    (h : (lockAcquire t pf >>= f) g = .ok (r, g')) (pf' : Pool) : (g'.lock pf').heldBy t = (g.lock pf').heldBy t := by
  obtain ⟨u, g₁, h₁, h₂⟩ := (bind_ok _ _ _ _).mp h
  obtain rfl := (modify_ok _ _ _ _).mp h₁
  obtain ⟨hmine, hother⟩ := hf _ r g' h₂
  exact heldBy_same hmine hother pf'

end GivesBack

section

variable {mallocPage : Pool → ℕ → MemM (Option Word)} {t : ℕ} {pf : Pool}

theorem mallocLarge_givesBack (size : ℕ) : GivesBack t pf (mallocLarge mallocPage t pf size) := by
  refine GivesBack.inside fun r => ?_
  cases r with
  | none => exact GivesBack.released _
  | some a => exact GivesBack.inside fun _ => GivesBack.released _

theorem mallocSmall_givesBack (descs : Word) (size : ℕ) : GivesBack t pf (mallocSmall mallocPage t pf descs size) := by
  refine GivesBack.inside fun i => GivesBack.inside fun empty => GivesBack.inside fun ready => ?_
  cases ready with
  | false => exact GivesBack.released _
  | true => exact GivesBack.inside fun b => GivesBack.released _

end

/-- The calls of the allocator that take the lock of a pool. -/
inductive PoolCall
  | sysMalloc (size : ℕ)
  | sysFree (ptr : Word)
  | getUserPages (pgCnt : ℕ)
  | getAPage (pf : Pool) (vaddr : Word)

/-- `sys_free` returns nothing. -/
def PoolCall.run (mallocPage : Pool → ℕ → MemM (Option Word)) : PoolCall → LockedM (Option Word)
  | .sysMalloc size => Locked.sysMalloc mallocPage size
  | .sysFree ptr => do
    Locked.sysFree ptr
    return none
  | .getUserPages pgCnt => Locked.getUserPages mallocPage pgCnt
  | .getAPage pf vaddr => Locked.getAPage pallocOrNull pf vaddr

/-- The caller holds every lock as often as at entry, and a `get_a_page` that returns `NULL` leaves the virtual addresses alone. -/
structure Released (c : PoolCall) (g : Guarded) (r : Option Word) (g' : Guarded) : Prop where
  held : ∀ pf, (g'.lock pf).heldBy g.heap.machine.cur = (g.lock pf).heldBy g.heap.machine.cur
  unmarked : ∀ pf vaddr, c = .getAPage pf vaddr → r = none →
    ∀ pf', (vaddrOf pf' g'.heap.machine).vaddrBitmap = (vaddrOf pf' g.heap.machine).vaddrBitmap

/-- The call is a `get_a_page` on a pool without a free frame. -/
def PoolCall.Starved (g : Guarded) : PoolCall → Prop
  | .getAPage pf _ => Exhausted pf g.heap.machine
  | _ => False

section

variable {mallocPage : Pool → ℕ → MemM (Option Word)} {g g' : Guarded} {r : Option Word}

theorem sysMalloc_held {size : ℕ} (h : sysMalloc mallocPage size g = .ok (r, g')) (pf : Pool) :
    (g'.lock pf).heldBy g.heap.machine.cur = (g.lock pf).heldBy g.heap.machine.cur := by
  rw [sysMalloc, bind_eq (rfl : (get : LockedM Guarded) g = .ok (g, g))] at h
  split at h
  · refine GivesBack.acquired ?_ h pf
    split
    · exact mallocLarge_givesBack _
    · exact mallocSmall_givesBack _ _
  · obtain ⟨-, rfl⟩ := (pure_ok _ _ _ _).mp h
    rfl

theorem assertHeap_same {c : Prop} [Decidable c] {u : Unit} (h : inside (assertHeap c) g = .ok (u, g')) : g' = g := by
  obtain ⟨s, hs, rfl⟩ := (zoom_ok _ _ _ _ _ _).mp h
  unfold assertHeap at hs
  split at hs
  · obtain ⟨-, rfl⟩ := (pure_ok _ _ _ _).mp hs
    rfl
  · simp at hs

theorem sysFree_held {ptr : Word} {u : Unit} (h : sysFree ptr g = .ok (u, g')) (pf : Pool) :
    (g'.lock pf).heldBy g.heap.machine.cur = (g.lock pf).heldBy g.heap.machine.cur := by
  obtain ⟨_, g₁, h₁, hrest⟩ := (bind_ok _ _ _ _).mp h
  obtain rfl := assertHeap_same h₁
  rw [bind_eq (rfl : (get : LockedM Guarded) g₁ = .ok (g₁, g₁))] at hrest
  obtain ⟨_, g₂, h₂, hfree⟩ := (bind_ok _ _ _ _).mp hrest
  obtain rfl := assertHeap_same h₂
  exact GivesBack.acquired (GivesBack.inside fun _ => GivesBack.release) hfree pf

theorem getUserPages_held {pgCnt : ℕ} (h : getUserPages mallocPage pgCnt g = .ok (r, g')) (pf : Pool) :
    (g'.lock pf).heldBy g.heap.machine.cur = (g.lock pf).heldBy g.heap.machine.cur := by
  rw [getUserPages, bind_eq (rfl : (get : LockedM Guarded) g = .ok (g, g))] at h
  refine GivesBack.acquired (GivesBack.inside fun v => ?_) h pf
  cases v with
  | none => exact GivesBack.halt _
  | some v => exact GivesBack.inside fun _ => GivesBack.released _

theorem page_ok {α : Type} {x : MemM α} {h h' : Heap} {a : α} (hx : page x h = .ok (a, h')) : x h.machine = .ok (a, h'.machine) := by
  unfold page at hx
  cases hm : x h.machine with
  | error e => simp [hm] at hx
  | ok p =>
    simp only [hm, Except.ok.injEq, Prod.mk.injEq] at hx
    obtain ⟨rfl, rfl⟩ := hx
    rfl

theorem inside_page_ok {α : Type} {x : MemM α} {a : α} (hx : inside (page x) g = .ok (a, g')) :
    x g.heap.machine = .ok (a, g'.heap.machine) := by
  obtain ⟨s, hs, rfl⟩ := (zoom_ok _ _ _ _ _ _).mp hx
  exact page_ok hs

theorem reserve_pools {pf : Pool} {vaddr : Word} {m m' : Machine} {u : Unit} (h : reserve pf vaddr m = .ok (u, m')) (pf' : Pool) :
    poolOf pf' m' = poolOf pf' m := by
  simp only [reserve, bind_ok, get_ok, assert_ok, set_ok] at h
  obtain ⟨_, _, ⟨rfl, rfl⟩, _, _, ⟨-, rfl⟩, _, _, ⟨-, rfl⟩, rfl⟩ := h
  cases pf <;> cases pf' <;> rfl

theorem getAPage_starved {pf : Pool} {vaddr : Word} (hfull : Exhausted pf g.heap.machine)
    (h : getAPage pallocOrNull pf vaddr g = .ok (r, g')) :
    r = none ∧ (g'.lock pf).heldBy g.heap.machine.cur = (g.lock pf).heldBy g.heap.machine.cur + 1 := by
  rw [getAPage, bind_eq (rfl : (get : LockedM Guarded) g = .ok (g, g))] at h
  obtain ⟨_, g₁, h₁, h⟩ := (bind_ok _ _ _ _).mp h
  obtain rfl := (modify_ok _ _ _ _).mp h₁
  obtain ⟨_, g₂, h₂, h⟩ := (bind_ok _ _ _ _).mp h
  obtain ⟨f, g₃, h₃, h⟩ := (bind_ok _ _ _ _).mp h
  have hfull₂ : Exhausted pf g₂.heap.machine := by
    unfold Exhausted
    rw [reserve_pools (inside_page_ok h₂) pf]
    exact hfull
  have hnull := inside_page_ok h₃
  rw [pallocOrNull_none hfull₂] at hnull
  simp only [Except.ok.injEq, Prod.mk.injEq] at hnull
  obtain ⟨rfl, -⟩ := hnull
  obtain ⟨rfl, rfl⟩ := (pure_ok _ _ _ _).mp h
  refine ⟨rfl, ?_⟩
  rw [inside_lock h₃, inside_lock h₂]
  simp only [Function.update_self]
  exact PoolLock.heldBy_acquire _ _

theorem getAPage_served {pf : Pool} {vaddr : Word} (hfree : ¬ Exhausted pf g.heap.machine)
    (h : getAPage pallocOrNull pf vaddr g = .ok (r, g')) :
    r = some vaddr ∧ ∀ pf', (g'.lock pf').heldBy g.heap.machine.cur = (g.lock pf').heldBy g.heap.machine.cur := by
  rw [getAPage, bind_eq (rfl : (get : LockedM Guarded) g = .ok (g, g))] at h
  obtain ⟨_, g₁, h₁, h⟩ := (bind_ok _ _ _ _).mp h
  obtain rfl := (modify_ok _ _ _ _).mp h₁
  obtain ⟨_, g₂, h₂, h⟩ := (bind_ok _ _ _ _).mp h
  obtain ⟨f, g₃, h₃, h⟩ := (bind_ok _ _ _ _).mp h
  have hfree₂ : ¬ Exhausted pf g₂.heap.machine := by
    unfold Exhausted
    rw [reserve_pools (inside_page_ok h₂) pf]
    exact hfree
  have htake := inside_page_ok h₃
  rw [pallocOrNull_palloc hfree₂] at htake
  obtain ⟨b, -, -, -, rfl, -⟩ := palloc_ok htake
  obtain ⟨_, g₄, h₄, h⟩ := (bind_ok _ _ _ _).mp h
  obtain ⟨hmine, hother⟩ := GivesBack.released (some vaddr) g₄ r g' h
  obtain ⟨_, g₅, -, hlast⟩ := (bind_ok _ _ _ _).mp h
  obtain ⟨rfl, -⟩ := (pure_ok _ _ _ _).mp hlast
  rw [inside_lock h₄, inside_lock h₃, inside_lock h₂] at hmine hother
  exact ⟨rfl, heldBy_same hmine hother⟩

end

def crowdedHeap : Guarded where
  heap :=
    { machine := crowdedMachine
      kBlockDescs := imageDescs
      uBlockDesc := fun _ => ⟨0xc0101100#32, by decide⟩
      descWords := fun _ => 0 }
  lock := fun _ => ⟨none, 0⟩

theorem inside_page_eq {α : Type} {x : MemM α} {h : Heap} {a : α} {m : Machine} (hx : x h.machine = .ok (a, m))
    (lock : Pool → PoolLock) : inside (page x) ⟨h, lock⟩ = .ok (a, ⟨{ h with machine := m }, lock⟩) := by
  simp only [inside, zoom, page, hx]

theorem getAPage_null {g : Guarded} {pf : Pool} {vaddr : Word} {m : Machine}
    (hreserve : reserve pf vaddr g.heap.machine = .ok ((), m)) (hfull : Exhausted pf g.heap.machine) :
    ∃ g', getAPage pallocOrNull pf vaddr g = .ok (none, g') := by
  have hfull' : Exhausted pf m := by
    unfold Exhausted
    rw [reserve_pools hreserve pf]
    exact hfull
  have hnull : pallocOrNull pf { g.heap with machine := m }.machine = .ok (none, m) := pallocOrNull_none hfull'
  rw [getAPage, bind_eq (rfl : (get : LockedM Guarded) g = .ok (g, g)), lockAcquire, bind_eq (modify_eq _ _),
    bind_eq (inside_page_eq hreserve _), bind_eq (inside_page_eq hnull _)]
  exact ⟨_, rfl⟩

theorem reserve_crowded : ∃ m, reserve .user 0x8049000#32 crowdedMachine = .ok ((), m) := by
  have hprocess : (crowdedMachine.pgdir crowdedMachine.cur).isSome = true ↔ Pool.user = .user := by simp [crowdedMachine]
  have hbit : 0 < bitIdx (vaddrOf .user crowdedMachine) 0x8049000#32 := by
    simp [bitIdx, vaddrOf, crowdedMachine, userVaddrStart, u32]
  rw [reserve, bind_eq (rfl : (get : MemM Machine) crowdedMachine = .ok (crowdedMachine, crowdedMachine)),
    bind_eq ((assert_ok _ _ _ ()).mpr ⟨hprocess, rfl⟩), bind_eq ((assert_ok _ _ _ ()).mpr ⟨hbit, rfl⟩)]
  exact ⟨_, rfl⟩

theorem getAPage_crowded : ∃ g', getAPage pallocOrNull .user 0x8049000#32 crowdedHeap = .ok (none, g') := by
  obtain ⟨m, hreserve⟩ := reserve_crowded
  exact getAPage_null hreserve crowdedMachine_exhausted

/-- Only a `get_a_page` that finds no frame returns with its lock, and with the bit of its page set. -/
theorem poolLocks_released (mallocPage : Pool → ℕ → MemM (Option Word)) (c : PoolCall) (g g' : Guarded) (r : Option Word)
    (h : c.run mallocPage g = .ok (r, g')) : Released c g r g' ↔ ¬ c.Starved g := by
  cases c with
  | sysMalloc size => exact ⟨fun _ => id, fun _ => ⟨sysMalloc_held h, fun _ _ hc => by cases hc⟩⟩
  | sysFree ptr =>
    obtain ⟨u, g₁, h₁, h₂⟩ := (bind_ok _ _ _ _).mp h
    obtain ⟨-, rfl⟩ := (pure_ok _ _ _ _).mp h₂
    exact ⟨fun _ => id, fun _ => ⟨sysFree_held h₁, fun _ _ hc => by cases hc⟩⟩
  | getUserPages pgCnt => exact ⟨fun _ => id, fun _ => ⟨getUserPages_held h, fun _ _ hc => by cases hc⟩⟩
  | getAPage pf vaddr =>
    constructor
    · intro hrel hfull
      have hheld := hrel.held pf
      rw [(getAPage_starved hfull h).2] at hheld
      simp at hheld
    · intro hfree
      obtain ⟨rfl, hheld⟩ := getAPage_served hfree h
      exact ⟨hheld, fun _ _ _ hr => by cases hr⟩

theorem poolLocks_released_crowded : ∃ g', PoolCall.run Paging.mallocPage (.getAPage .user 0x8049000#32) crowdedHeap = .ok (none, g') ∧
    (Released (.getAPage .user 0x8049000#32) crowdedHeap none g' ↔ ¬ Exhausted .user crowdedMachine) := by
  obtain ⟨g', h⟩ := getAPage_crowded
  exact ⟨g', h, poolLocks_released Paging.mallocPage _ crowdedHeap g' none h⟩

theorem getAPage_keeps_lock : ¬ ∀ (mallocPage : Pool → ℕ → MemM (Option Word)) (c : PoolCall) (g g' : Guarded) (r : Option Word),
    c.run mallocPage g = .ok (r, g') → Released c g r g' := by
  intro h
  obtain ⟨g', hrun⟩ := getAPage_crowded
  have hheld := (h Paging.mallocPage (.getAPage .user 0x8049000#32) crowdedHeap g' none hrun).held .user
  rw [(getAPage_starved crowdedMachine_exhausted hrun).2] at hheld
  simp at hheld

end ElephantOS.Paging.Locked
