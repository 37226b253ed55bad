import ElephantOS.Inode

namespace ElephantOS

open ByteMemory HaltingState

structure File where
  fdPos : ℕ
  fdFlag : ℕ
  fdInode : Option Ptr

structure Fs where
  kern : Kern
  inodes : Ptr → Inode
  openInodes : List Ptr
  /-- `root_dir.inode` -/
  rootDir : Ptr
  fileTable : ℕ → File
  /-- `fd_table` of each task -/
  fdTable : ℕ → ℕ → ℤ
  cwdInodeNr : ℕ → ℕ

/-- No inode, file or directory is open. -/
def Fs.blank : Fs :=
  ⟨Kern.blank, fun _ => Inode.zero, [], ⟨0, .kernel⟩, fun _ => ⟨0, 0, none⟩, fun _ _ => -1, fun _ => 0⟩

abbrev FsM := Exec Halt Fs

def liftKern {α : Type} (m : KernM α) : FsM α := zoom Fs.kern (fun s k => { s with kern := k }) m

theorem liftKern_ok {α : Type} (m : KernM α) (s s' : Fs) (a : α) :
    liftKern m s = .ok (a, s') ↔ ∃ k, m s.kern = .ok (a, k) ∧ { s with kern := k } = s' :=
  zoom_ok _ _ _ _ _ _

theorem liftKern_eq {α : Type} {m : KernM α} {s : Fs} {a : α} {k : Kern} (h : m s.kern = .ok (a, k)) :
    liftKern m s = .ok (a, { s with kern := k }) := (liftKern_ok m s _ a).mpr ⟨k, h, rfl⟩

theorem liftKern_runs {α : Type} {m : KernM α} {s : Fs} {Q : α → Kern → Prop} (h : Runs m s.kern Q) :
    Runs (liftKern m) s fun a s' => ∃ k, Q a k ∧ { s with kern := k } = s' := by
  obtain ⟨a, k, hk, hq⟩ := h
  exact ⟨a, _, liftKern_eq hk, k, hq, rfl⟩

def withKernelPool {α : Type} (m : KernM α) : KernM α := fun k =>
  match m { k with pool := .kernel } with
  | .error e => .error e
  | .ok (a, k') => .ok (a, { k' with pool := k.pool })

theorem withKernelPool_ok {α : Type} (m : KernM α) (k k' : Kern) (a : α) :
    withKernelPool m k = .ok (a, k') ↔
      ∃ k1, m { k with pool := .kernel } = .ok (a, k1) ∧ { k1 with pool := k.pool } = k' := by
  unfold withKernelPool
  cases h : m { k with pool := .kernel } with
  | error e => simp
  | ok p =>
    obtain ⟨b, k1⟩ := p
    simp only [Except.ok.injEq, Prod.mk.injEq]
    constructor
    · rintro ⟨rfl, rfl⟩
      exact ⟨k1, ⟨rfl, rfl⟩, rfl⟩
    · rintro ⟨_, ⟨rfl, rfl⟩, rfl⟩
      exact ⟨rfl, rfl⟩

theorem withKernelPool_runs {α : Type} {m : KernM α} {k : Kern} {Q : α → Kern → Prop}
    (h : Runs m { k with pool := .kernel } Q) :
    Runs (withKernelPool m) k fun a k' => ∃ k1, Q a k1 ∧ { k1 with pool := k.pool } = k' := by
  obtain ⟨a, k1, hk, hq⟩ := h
  exact ⟨a, _, (withKernelPool_ok m k _ a).mpr ⟨k1, hk, rfl⟩, k1, hq, rfl⟩

def setInode (p : Ptr) (inode : Inode) (s : Fs) : Fs := { s with inodes := Function.update s.inodes p inode }

def pushed (p : Ptr) (s : Fs) : Fs :=
  setInode p { s.inodes p with inodeTag := ⟨.linked, .linked⟩ } { s with openInodes := p :: s.openInodes }

def listPush (p : Ptr) : FsM Unit := fun s =>
  if s.openInodes.head?.all (fun q => (s.inodes q).inodeTag.prev = .linked) then .ok ((), pushed p s)
  else .error .wild

def listRemove (p : Ptr) : FsM Unit := fun s =>
  if (s.inodes p).inodeTag = ⟨.linked, .linked⟩ then .ok ((), { s with openInodes := s.openInodes.erase p })
  else .error .wild

def cached (s : Fs) (inodeNo : ℕ) : Option Ptr := s.openInodes.find? (fun p => (s.inodes p).iNo = inodeNo)

def inodeOpen (K : Kernel) (inodeNo : ℕ) : FsM Ptr := do
  let s ← get
  match cached s inodeNo with
  | some p =>
    modify (setInode p { s.inodes p with iOpenCnts := (s.inodes p).iOpenCnts + 1 })
    return p
  | none =>
    let inodePos ← liftKern (inodeLocate K.toPartition inodeNo)
    let inodeFound ← liftKern (withKernelPool (sysMalloc inodeSize))
    let some inodeBuf ← liftKern (sysMalloc (if inodePos.twoSec then 1024 else 512)) | halt .wild
    let inodeBuf ← liftKern (ideRead inodePos.secLba inodeBuf (if inodePos.twoSec then 2 else 1))
    -- memcpy asserts that its destination is not NULL
    let some inodeFound := inodeFound | halt .assertion
    modify (setInode inodeFound.ptr (Inode.load inodeBuf.bytes inodePos.offSize))
    listPush inodeFound.ptr
    modify fun s => setInode inodeFound.ptr { s.inodes inodeFound.ptr with iOpenCnts := 1 } s
    liftKern (sysFree inodeBuf.ptr)
    return inodeFound.ptr

def inodeClose (p : Ptr) : FsM Unit := do
  modify fun s => setInode p { s.inodes p with iOpenCnts := (s.inodes p).iOpenCnts - 1 } s
  let s ← get
  if (s.inodes p).iOpenCnts = 0 then
    listRemove p
    liftKern (withKernelPool (sysFree p))

theorem inodeOpen_hit {K : Kernel} {n : ℕ} {s : Fs} {p : Ptr} (hc : cached s n = some p) :
    inodeOpen K n s = .ok (p, setInode p { s.inodes p with iOpenCnts := (s.inodes p).iOpenCnts + 1 } s) := by
  unfold inodeOpen
  rw [get_bind]
  simp only [hc]
  rfl

def openedInode (part : Partition) (d : Memory) (n : ℕ) : Inode :=
  { Inode.load d (inodeAddr part n) with iOpenCnts := 1, inodeTag := ⟨.linked, .linked⟩ }

theorem load_readback (part : Partition) (d m : Memory) (n : ℕ) :
    Inode.load (blit m 0 (slice d ((inodePosition part n).secLba * 512))
      ((if (inodePosition part n).twoSec then 2 else 1) * 512)) (inodePosition part n).offSize =
      Inode.load d (inodeAddr part n) := by
  have hfit := inodePosition_fits part n
  simp only [inodeSize] at hfit
  apply Inode.load_congr
  intro i hi
  have := @blit_inside m (slice d ((inodePosition part n).secLba * 512)) 0 _ _
    (show (inodePosition part n).offSize + i < (if (inodePosition part n).twoSec then 2 else 1) * 512 by omega)
  simp only [Nat.zero_add] at this
  rw [this, slice, ← Nat.add_assoc, inodePosition_addr]

theorem inodeOpen_miss {K : Kernel} {n : ℕ} {s s' : Fs} {p : Ptr} (hc : cached s n = none)
    (h : inodeOpen K n s = .ok (p, s')) :
    n < 4096 ∧ p = ⟨s.kern.heap.next, .kernel⟩ ∧ HeapOnly s.kern s'.kern ∧
      s.kern.heap.next < s'.kern.heap.next ∧
      s' = { s with
        kern := s'.kern
        openInodes := p :: s.openInodes
        inodes := Function.update s.inodes p (openedInode K.toPartition s.kern.disk n) } := by
  unfold inodeOpen inodeLocate at h
  simp only [bind_ok, get_ok] at h
  obtain ⟨_, _, ⟨rfl, rfl⟩, h⟩ := h
  simp only [hc, bind_ok, liftKern_ok, withKernelPool_ok, assert_ok, pure_ok] at h
  obtain ⟨_, _, ⟨_, ⟨_, _, ⟨hn, rfl⟩, rfl, rfl⟩, rfl⟩, found, _, ⟨_, ⟨k1, hm1, rfl⟩, rfl⟩, buf, _, ⟨k2, hm2, rfl⟩, h⟩ := h
  cases buf with
  | none => simp at h
  | some buf =>
    simp only [bind_ok, liftKern_ok] at h
    obtain ⟨buf', _, ⟨k3, hr, rfl⟩, h⟩ := h
    cases found with
    | none => simp at h
    | some found =>
      simp only [bind_ok, liftKern_ok, modify_ok, pure_ok] at h
      obtain ⟨_, _, rfl, _, _, hpush, _, _, rfl, _, _, ⟨k4, hf, rfl⟩, rfl, rfl⟩ := h
      unfold listPush at hpush
      split_ifs at hpush
      simp only [Except.ok.injEq, Prod.mk.injEq, true_and] at hpush
      subst hpush
      obtain ⟨h1, hn1, rfl⟩ : HeapOnly _ k1 ∧ k1.heap.next = s.kern.heap.next + 1 ∧
          found = ⟨⟨s.kern.heap.next, .kernel⟩, inodeSize, zeros⟩ := by
        simpa using sysMalloc_ok hm1
      obtain ⟨h2, hn2, -⟩ := sysMalloc_ok hm2
      obtain ⟨-, h3, rfl⟩ := ideRead_ok hr
      have h4 : HeapOnly k3 k4 := sysFree_ok hf
      have hk1 : HeapOnly s.kern { k1 with pool := s.kern.pool } :=
        ⟨h1.disk, h1.blockBitmap, h1.inodeBitmap, rfl, h1.grant, h1.next⟩
      have hk2 := hk1.trans h2
      have hlt : s.kern.heap.next < k4.heap.next := by
        have e3 := h3.next
        have e4 := h4.next
        simp only at hn2
        omega
      refine ⟨hn, rfl, (hk2.trans h3).trans h4, hlt, ?_⟩
      have hload := load_readback K.toPartition k2.disk buf.bytes n
      rw [hk2.disk] at hload
      simp only [pushed, setInode, Function.update_self, Function.update_idem, openedInode, hk2.disk, hload]

def Fs.CanPush (s : Fs) : Prop := ∀ q ∈ s.openInodes.head?, (s.inodes q).inodeTag.prev = .linked

theorem listPush_runs {p : Ptr} {s : Fs} (h : s.CanPush) : Runs (listPush p) s fun _ s' => pushed p s = s' := by
  refine ⟨(), _, if_pos ?_, rfl⟩
  cases hh : s.openInodes.head? with
  | none => rfl
  | some q => simpa using h q hh

theorem inodeOpen_runs {K : Kernel} (hp : TableOnDisk K.toPartition) {n : ℕ} (hn : n < 4096) {s : Fs}
    (hs : s.kern.Plenty) (hl : s.CanPush) (hfresh : ⟨s.kern.heap.next, .kernel⟩ ∉ s.openInodes) :
    Runs (inodeOpen K n) s fun _ _ => True := by
  cases hc : cached s n with
  | some p => exact ⟨p, _, inodeOpen_hit hc, trivial⟩
  | none =>
    unfold inodeOpen
    refine Runs.get ?_
    simp only [hc]
    refine Runs.bind (liftKern_runs (inodeLocate_runs K.toPartition hn s.kern)) ?_
    rintro _ _ ⟨_, ⟨rfl, rfl⟩, rfl⟩
    refine Runs.bind (liftKern_runs (withKernelPool_runs (sysMalloc_runs inodeSize hs))) ?_
    rintro _ _ ⟨_, ⟨k1, ⟨rfl, h1⟩, rfl⟩, rfl⟩
    have hk1 : HeapOnly s.kern { k1 with pool := s.kern.pool } :=
      ⟨h1.disk, h1.blockBitmap, h1.inodeBitmap, rfl, h1.grant, h1.next⟩
    refine Runs.bind (liftKern_runs (sysMalloc_runs _ (hk1.plenty hs))) ?_
    rintro _ _ ⟨k2, ⟨rfl, h2⟩, rfl⟩
    refine Runs.bind (liftKern_runs (ideRead_runs (inodePosition_range hp hn).2 _ k2)) ?_
    rintro _ _ ⟨k3, ⟨rfl, h3⟩, rfl⟩
    refine Runs.modify (Runs.bind (listPush_runs ?_) ?_)
    · intro q hq
      have hne : q ≠ ⟨s.kern.heap.next, .kernel⟩ := by
        rintro rfl
        exact hfresh (List.mem_of_mem_head? hq)
      simp only [setInode, Function.update_of_ne hne]
      exact hl q hq
    · rintro _ _ rfl
      refine Runs.modify (Runs.bind (liftKern_runs (sysFree_runs (k := k3) ?_)) fun _ _ _ => Runs.pure trivial)
      rw [h3.pool, h2.pool]

end ElephantOS
