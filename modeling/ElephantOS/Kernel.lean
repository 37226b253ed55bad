import ElephantOS.Bitmap

namespace ElephantOS

open ByteMemory HaltingState

structure SuperBlock where
  magic : ℕ
  secCnt : ℕ
  inodeCnt : ℕ
  partLbaBase : ℕ
  blockBitmapLba : ℕ
  blockBitmapSects : ℕ
  inodeBitmapLba : ℕ
  inodeBitmapSects : ℕ
  inodeTableLba : ℕ
  inodeTableSects : ℕ
  dataStartLba : ℕ
  rootInodeNo : ℕ
  dirEntrySize : ℕ

structure Partition where
  startLba : ℕ
  secCnt : ℕ
  sb : SuperBlock

/-- `uint32_t` arithmetic. -/
def u32 (n : ℕ) : ℕ := n % 2 ^ 32

def int32 (n : ℕ) : ℤ := if n < 2 ^ 31 then n else n - 2 ^ 32

/-- The mounted partition, with the number under which `inode_sync` stores an inode. -/
structure Kernel extends Partition where
  inodeNo : ℕ → ℕ

/-- The kernel as it is written: `inode_sync` holds the inode number in a `uint8_t`. -/
def Partition.kernel (part : Partition) : Kernel := { part with inodeNo := (· % 256) }

inductive Pool | kernel | user
  deriving DecidableEq

/-- A heap address; user-pool addresses lie below the kernel heap. -/
structure Ptr where
  id : ℕ
  pool : Pool
  deriving DecidableEq

/-- `live` lists the blocks in use, `grant n` tells whether the `n`-th request is served, and
`overrun` records a transfer past the end of its buffer. -/
structure Heap where
  live : List (Ptr × ℕ)
  next : ℕ
  grant : ℕ → Bool
  overrun : Bool

structure Kern where
  disk : Memory
  blockBitmap : Bitmap
  inodeBitmap : Bitmap
  heap : Heap
  pool : Pool

/-- Some transfer went past the end of its buffer. -/
abbrev Kern.overrun (k : Kern) : Bool := k.heap.overrun

/-- The machine before a partition is mounted, with all the memory it may ask for. -/
def Kern.blank : Kern := ⟨zeros, ⟨0, zeros⟩, ⟨0, zeros⟩, ⟨[], 0, fun _ => true, false⟩, .kernel⟩

structure Buffer where
  ptr : Ptr
  len : ℕ
  bytes : Memory

abbrev KernM := Exec Halt Kern

def assert {σ : Type} (c : Prop) [Decidable c] : Exec Halt σ Unit :=
  if c then pure () else halt .assertion

@[simp] theorem assert_ok {σ : Type} (c : Prop) [Decidable c] (s s' : σ) (u : Unit) :
    (assert c : Exec Halt σ Unit) s = .ok (u, s') ↔ c ∧ s = s' := by
  unfold assert
  split_ifs with h <;> simp [h]

theorem assert_error {σ : Type} {c : Prop} [Decidable c] (hc : ¬ c) (s : σ) : (assert c : Exec Halt σ Unit) s = .error .assertion := by
  rw [assert, if_neg hc]
  rfl

theorem Runs.assert {σ α : Type} {c : Prop} [Decidable c] (hc : c) {f : Unit → Exec Halt σ α} {s : σ}
    {Q : α → σ → Prop} (h : Runs (f ()) s Q) : Runs (assert c >>= f) s Q := by
  refine Runs.bind (P := fun _ s' => s = s') ⟨(), s, (assert_ok c s s ()).mpr ⟨hc, rfl⟩, rfl⟩ ?_
  rintro _ _ rfl
  exact h

def bound {σ : Type} (c : Prop) [Decidable c] : Exec Halt σ Unit :=
  if c then pure () else halt .wild

@[simp] theorem bound_ok {σ : Type} (c : Prop) [Decidable c] (s s' : σ) (u : Unit) :
    (bound c : Exec Halt σ Unit) s = .ok (u, s') ↔ c ∧ s = s' := by
  unfold bound
  split_ifs with h <;> simp [h]

theorem bound_error {σ : Type} {c : Prop} [Decidable c] (hc : ¬ c) (s : σ) : (bound c : Exec Halt σ Unit) s = .error .wild := by
  rw [bound, if_neg hc]
  rfl

theorem Runs.bound {σ α : Type} {c : Prop} [Decidable c] (hc : c) {f : Unit → Exec Halt σ α} {s : σ}
    {Q : α → σ → Prop} (h : Runs (f ()) s Q) : Runs (bound c >>= f) s Q := by
  refine Runs.bind (P := fun _ s' => s = s') ⟨(), s, (bound_ok c s s ()).mpr ⟨hc, rfl⟩, rfl⟩ ?_
  rintro _ _ rfl
  exact h

def sysMalloc (size : ℕ) : KernM (Option Buffer) := fun k =>
  let p : Ptr := ⟨k.heap.next, k.pool⟩
  if k.heap.grant k.heap.next then
    .ok (some ⟨p, size, zeros⟩,
      { k with heap := { k.heap with live := (p, size) :: k.heap.live, next := k.heap.next + 1 } })
  else .ok (none, { k with heap := { k.heap with next := k.heap.next + 1 } })

/-- A kernel thread asserts that the address lies in the kernel heap. -/
def sysFree (p : Ptr) : KernM Unit := fun k =>
  if k.pool = .kernel ∧ p.pool = .user then .error .assertion
  else .ok ((), { k with heap := { k.heap with live := k.heap.live.filter (fun b => b.1 ≠ p) } })

def maxLba : ℕ := 80 * 1024 * 1024 / 512 - 1

def sectorRange (lba secCnt : ℕ) : Prop := lba + (secCnt - 1) / 256 * 256 ≤ maxLba ∧ 0 < secCnt

instance (lba secCnt : ℕ) : Decidable (sectorRange lba secCnt) :=
  inferInstanceAs (Decidable (_ ∧ _))

theorem sectorRange_of_le {lba secCnt : ℕ} (h : lba + secCnt ≤ maxLba + 1) (hc : 0 < secCnt) :
    sectorRange lba secCnt := by
  have hdiv := Nat.div_mul_le_self (secCnt - 1) 256
  exact ⟨by omega, hc⟩

theorem sectorRange_one {lba : ℕ} : sectorRange lba 1 ↔ lba ≤ maxLba := by
  unfold sectorRange
  constructor
  · rintro ⟨h, -⟩
    omega
  · intro h
    exact ⟨by omega, by omega⟩

/-- A transfer that is longer than its buffer overwrites what lies behind it in the heap, which is recorded. -/
def ideRead (lba : ℕ) (buf : Buffer) (secCnt : ℕ) : KernM Buffer := fun k =>
  if sectorRange lba secCnt then
    .ok ({ buf with bytes := blit buf.bytes 0 (slice k.disk (lba * 512)) (secCnt * 512) },
      if buf.len < secCnt * 512 then { k with heap := { k.heap with overrun := true } } else k)
  else .error .assertion

/-- Record a memory write past the end of a heap block. -/
def noteOverrun (c : Prop) [Decidable c] : KernM Unit := fun k =>
  .ok ((), if c then { k with heap := { k.heap with overrun := true } } else k)

def ideWrite (lba : ℕ) (bytes : Memory) (secCnt : ℕ) : KernM Unit := fun k =>
  if sectorRange lba secCnt then
    .ok ((), { k with disk := blit k.disk (lba * 512) bytes (secCnt * 512) })
  else .error .assertion

def readTable (lba : ℕ) (allBlocks : ℕ → ℕ) : KernM (ℕ → ℕ) := fun k =>
  if sectorRange lba 1 then
    .ok (fun i => if 12 ≤ i ∧ i < 140 then word k.disk (lba * 512 + 4 * (i - 12)) else allBlocks i, k)
  else .error .assertion

def writeTable (lba : ℕ) (allBlocks : ℕ → ℕ) : KernM Unit :=
  ideWrite lba (wordBytes fun i => allBlocks (12 + i)) 1

inductive BitmapType | inodeBitmap | blockBitmap
  deriving DecidableEq

def inodeBitmapAlloc : KernM (Option ℕ) := fun k =>
  match k.inodeBitmap.scan 1 with
  | .error e => .error e
  | .ok none => .ok (none, k)
  | .ok (some i) => .ok (some i, { k with inodeBitmap := k.inodeBitmap.set i true })

section

variable (K : Kernel)

def blockBitmapAlloc : KernM (Option ℕ) := fun k =>
  match k.blockBitmap.scan 1 with
  | .error e => .error e
  | .ok none => .ok (none, k)
  | .ok (some i) =>
    .ok (some (K.sb.dataStartLba + i), { k with blockBitmap := k.blockBitmap.set i true })

def bitmapSync (bitIdx : ℕ) (btmpType : BitmapType) : KernM Unit := fun k =>
  let offSec := bitIdx / 4096
  let offSize := offSec * 512
  match btmpType with
  | .inodeBitmap => ideWrite (K.sb.inodeBitmapLba + offSec) (slice k.inodeBitmap.bits offSize) 1 k
  | .blockBitmap => ideWrite (K.sb.blockBitmapLba + offSec) (slice k.blockBitmap.bits offSize) 1 k

end

def blockBitmapSet (bitIdx : ℕ) (value : Bool) : KernM Unit :=
  modify fun k => { k with blockBitmap := k.blockBitmap.set bitIdx value }

def inodeBitmapSet (bitIdx : ℕ) (value : Bool) : KernM Unit :=
  modify fun k => { k with inodeBitmap := k.inodeBitmap.set bitIdx value }

theorem ideWrite_ok (lba : ℕ) (bytes : Memory) (secCnt : ℕ) (u : Unit) (k k' : Kern) :
    ideWrite lba bytes secCnt k = .ok (u, k') ↔ sectorRange lba secCnt ∧
      k' = { k with disk := blit k.disk (lba * 512) bytes (secCnt * 512) } := by
  unfold ideWrite
  split_ifs with h <;> simp [h, eq_comm]

theorem ideWrite_runs {lba secCnt : ℕ} (hr : sectorRange lba secCnt) (bytes : Memory) (k : Kern) :
    Runs (ideWrite lba bytes secCnt) k fun _ k' =>
      k'.pool = k.pool ∧ k'.heap = k.heap ∧ k'.blockBitmap = k.blockBitmap ∧ k'.inodeBitmap = k.inodeBitmap :=
  ⟨(), _, if_pos hr, rfl, rfl, rfl, rfl⟩

theorem readTable_ok (lba : ℕ) (all b : ℕ → ℕ) (k k' : Kern) :
    readTable lba all k = .ok (b, k') ↔ sectorRange lba 1 ∧ k' = k ∧
      b = fun i => if 12 ≤ i ∧ i < 140 then word k.disk (lba * 512 + 4 * (i - 12)) else all i := by
  unfold readTable
  split_ifs with h <;> simp [h, eq_comm, and_comm]

theorem bitmapSync_block (K : Kernel) (i : ℕ) (u : Unit) (k k' : Kern) :
    bitmapSync K i .blockBitmap k = .ok (u, k') ↔ sectorRange (K.sb.blockBitmapLba + i / 4096) 1 ∧
      k' = { k with
        disk := blit k.disk ((K.sb.blockBitmapLba + i / 4096) * 512)
          (slice k.blockBitmap.bits (i / 4096 * 512)) 512 } :=
  ideWrite_ok _ _ _ _ _ _

theorem bitmapSync_inode (K : Kernel) (i : ℕ) (u : Unit) (k k' : Kern) :
    bitmapSync K i .inodeBitmap k = .ok (u, k') ↔ sectorRange (K.sb.inodeBitmapLba + i / 4096) 1 ∧
      k' = { k with
        disk := blit k.disk ((K.sb.inodeBitmapLba + i / 4096) * 512)
          (slice k.inodeBitmap.bits (i / 4096 * 512)) 512 } :=
  ideWrite_ok _ _ _ _ _ _

theorem blockBitmapAlloc_ok {K : Kernel} {r : Option ℕ} {k k' : Kern} (h : blockBitmapAlloc K k = .ok (r, k')) :
    ∃ i < 8 * k.blockBitmap.btmpBytesLen, k.blockBitmap.scanTest i = false ∧
      (∀ j < i, k.blockBitmap.scanTest j = true) ∧ r = some (K.sb.dataStartLba + i) ∧
      k' = { k with blockBitmap := k.blockBitmap.set i true } := by
  unfold blockBitmapAlloc at h
  rcases Bitmap.scan_one k.blockBitmap with ⟨i, hi, hlt, hclear, hfirst⟩ | ⟨herr, -⟩
  · rw [hi] at h
    simp only [Except.ok.injEq, Prod.mk.injEq] at h
    exact ⟨i, hlt, hclear, hfirst, h.1.symm, h.2.symm⟩
  · rw [herr] at h
    simp at h

theorem inodeBitmapAlloc_ok {r : Option ℕ} {k k' : Kern} (h : inodeBitmapAlloc k = .ok (r, k')) :
    ∃ i < 8 * k.inodeBitmap.btmpBytesLen, k.inodeBitmap.scanTest i = false ∧
      (∀ j < i, k.inodeBitmap.scanTest j = true) ∧ r = some i ∧
      k' = { k with inodeBitmap := k.inodeBitmap.set i true } := by
  unfold inodeBitmapAlloc at h
  rcases Bitmap.scan_one k.inodeBitmap with ⟨i, hi, hlt, hclear, hfirst⟩ | ⟨herr, -⟩
  · rw [hi] at h
    simp only [Except.ok.injEq, Prod.mk.injEq] at h
    exact ⟨i, hlt, hclear, hfirst, h.1.symm, h.2.symm⟩
  · rw [herr] at h
    simp at h

structure HeapOnly (k k' : Kern) : Prop where
  disk : k'.disk = k.disk
  blockBitmap : k'.blockBitmap = k.blockBitmap
  inodeBitmap : k'.inodeBitmap = k.inodeBitmap
  pool : k'.pool = k.pool
  grant : k'.heap.grant = k.heap.grant
  next : k.heap.next ≤ k'.heap.next

theorem HeapOnly.refl (k : Kern) : HeapOnly k k := ⟨rfl, rfl, rfl, rfl, rfl, le_refl _⟩

theorem HeapOnly.trans {k k' k'' : Kern} (h : HeapOnly k k') (h' : HeapOnly k' k'') : HeapOnly k k'' :=
  ⟨h'.disk.trans h.disk, h'.blockBitmap.trans h.blockBitmap, h'.inodeBitmap.trans h.inodeBitmap,
    h'.pool.trans h.pool, h'.grant.trans h.grant, h.next.trans h'.next⟩

/-- Every request for memory is served. -/
def Kern.Plenty (k : Kern) : Prop := ∀ i, k.heap.grant i = true

theorem Kern.blank_plenty : Kern.blank.Plenty := fun _ => rfl

theorem HeapOnly.plenty {k k' : Kern} (h : HeapOnly k k') (hk : k.Plenty) : k'.Plenty := by
  intro i
  rw [h.grant]
  exact hk i

structure Steady (k k' : Kern) : Prop where
  pool : k'.pool = k.pool
  grant : k'.heap.grant = k.heap.grant
  next : k.heap.next ≤ k'.heap.next

theorem Steady.refl (k : Kern) : Steady k k := ⟨rfl, rfl, le_refl _⟩

theorem Steady.trans {k k' k'' : Kern} (h : Steady k k') (h' : Steady k' k'') : Steady k k'' :=
  ⟨h'.pool.trans h.pool, h'.grant.trans h.grant, h.next.trans h'.next⟩

theorem Steady.plenty {k k' : Kern} (h : Steady k k') (hk : k.Plenty) : k'.Plenty := by
  intro i
  rw [h.grant]
  exact hk i

theorem HeapOnly.steady {k k' : Kern} (h : HeapOnly k k') : Steady k k' := ⟨h.pool, h.grant, h.next⟩

theorem noteOverrun_ok {c : Prop} [Decidable c] {u : Unit} {k k' : Kern} (h : noteOverrun c k = .ok (u, k')) :
    HeapOnly k k' := by
  unfold noteOverrun at h
  simp only [Except.ok.injEq, Prod.mk.injEq, true_and] at h
  subst h
  split_ifs
  · exact ⟨rfl, rfl, rfl, rfl, rfl, le_refl _⟩
  · exact HeapOnly.refl k

theorem noteOverrun_runs (c : Prop) [Decidable c] (k : Kern) : Runs (noteOverrun c) k fun _ k' => HeapOnly k k' :=
  ⟨(), _, rfl, noteOverrun_ok rfl⟩

theorem ideRead_ok {lba : ℕ} {buf b : Buffer} {secCnt : ℕ} {k k' : Kern}
    (h : ideRead lba buf secCnt k = .ok (b, k')) :
    sectorRange lba secCnt ∧ HeapOnly k k' ∧
      b = { buf with bytes := blit buf.bytes 0 (slice k.disk (lba * 512)) (secCnt * 512) } := by
  unfold ideRead at h
  split_ifs at h with hr hl <;> simp only [Except.ok.injEq, Prod.mk.injEq] at h <;> obtain ⟨rfl, rfl⟩ := h
  · exact ⟨hr, ⟨rfl, rfl, rfl, rfl, rfl, le_refl _⟩, rfl⟩
  · exact ⟨hr, HeapOnly.refl _, rfl⟩

theorem ideRead_runs {lba secCnt : ℕ} (hr : sectorRange lba secCnt) (buf : Buffer) (k : Kern) :
    Runs (ideRead lba buf secCnt) k fun b k' =>
      b = { buf with bytes := blit buf.bytes 0 (slice k.disk (lba * 512)) (secCnt * 512) } ∧ HeapOnly k k' :=
  ⟨_, _, if_pos hr, rfl, (ideRead_ok (if_pos hr)).2.1⟩

theorem sysMalloc_ok {size : ℕ} {r : Option Buffer} {k k' : Kern} (h : sysMalloc size k = .ok (r, k')) :
    HeapOnly k k' ∧ k'.heap.next = k.heap.next + 1 ∧
      (r = none ∨ r = some ⟨⟨k.heap.next, k.pool⟩, size, zeros⟩) := by
  unfold sysMalloc at h
  by_cases hg : k.heap.grant k.heap.next = true
  · rw [if_pos hg, Except.ok.injEq, Prod.mk.injEq] at h
    obtain ⟨rfl, rfl⟩ := h
    exact ⟨⟨rfl, rfl, rfl, rfl, rfl, Nat.le_succ _⟩, rfl, .inr rfl⟩
  · rw [if_neg hg, Except.ok.injEq, Prod.mk.injEq] at h
    obtain ⟨rfl, rfl⟩ := h
    exact ⟨⟨rfl, rfl, rfl, rfl, rfl, Nat.le_succ _⟩, rfl, .inl rfl⟩

theorem sysMalloc_runs (size : ℕ) {k : Kern} (hk : k.Plenty) :
    Runs (sysMalloc size) k fun r k' => r = some ⟨⟨k.heap.next, k.pool⟩, size, zeros⟩ ∧ HeapOnly k k' :=
  ⟨_, _, if_pos (hk k.heap.next), rfl, rfl, rfl, rfl, rfl, rfl, Nat.le_succ _⟩

theorem sysMalloc_none {size : ℕ} {k k' : Kern} (h : sysMalloc size k = .ok (none, k')) : HeapOnly k k' ∧ k'.heap.live = k.heap.live := by
  refine ⟨(sysMalloc_ok h).1, ?_⟩
  unfold sysMalloc at h
  dsimp only at h
  split_ifs at h
  · simp at h
  · simp only [Except.ok.injEq, Prod.mk.injEq, true_and] at h
    subst h
    rfl

theorem sysMalloc_some {size : ℕ} {b : Buffer} {k k' : Kern} (h : sysMalloc size k = .ok (some b, k')) : HeapOnly k k' ∧
    b = ⟨⟨k.heap.next, k.pool⟩, size, zeros⟩ ∧ k'.heap.live = (b.ptr, size) :: k.heap.live ∧ k'.heap.next = k.heap.next + 1 := by
  have hk := sysMalloc_ok h
  unfold sysMalloc at h
  dsimp only at h
  split_ifs at h
  · simp only [Except.ok.injEq, Prod.mk.injEq, Option.some.injEq] at h
    obtain ⟨rfl, rfl⟩ := h
    exact ⟨hk.1, rfl, rfl, rfl⟩
  · simp at h

theorem sysMalloc_granted {size : ℕ} {b : Buffer} {k k' : Kern} (h : sysMalloc size k = .ok (some b, k')) :
    k.heap.grant k.heap.next = true := by
  by_contra hg
  unfold sysMalloc at h
  dsimp only at h
  rw [if_neg hg] at h
  simp at h

theorem sysFree_ok {p : Ptr} {u : Unit} {k k' : Kern} (h : sysFree p k = .ok (u, k')) : HeapOnly k k' := by
  unfold sysFree at h
  split_ifs at h
  simp only [Except.ok.injEq, Prod.mk.injEq, true_and] at h
  subst h
  exact ⟨rfl, rfl, rfl, rfl, rfl, le_refl _⟩

theorem sysFree_filter {p : Ptr} {u : Unit} {k k' : Kern} (h : sysFree p k = .ok (u, k')) :
    HeapOnly k k' ∧ k'.heap.live = k.heap.live.filter fun b => b.1 ≠ p := by
  refine ⟨sysFree_ok h, ?_⟩
  unfold sysFree at h
  split_ifs at h
  simp only [Except.ok.injEq, Prod.mk.injEq, true_and] at h
  subst h
  rfl

theorem sysFree_runs {p : Ptr} {k : Kern} (hp : p.pool = k.pool) :
    Runs (sysFree p) k fun _ k' => HeapOnly k k' := by
  have hn : ¬ (k.pool = .kernel ∧ p.pool = .user) := by
    rw [hp]
    rintro ⟨h, h'⟩
    simp [h] at h'
  exact ⟨(), _, if_neg hn, rfl, rfl, rfl, rfl, rfl, le_refl _⟩

end ElephantOS
