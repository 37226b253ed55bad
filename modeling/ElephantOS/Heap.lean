import ElephantOS.LinkedList
import ElephantOS.PageAllocation

/-! `kernel/memory.c`: `sys_malloc` and `sys_free`, blocks of seven sizes cut out of one-page arenas and arenas of whole pages. -/

namespace ElephantOS.Paging

open HaltingState

/-- The bytes of `DESC_CNT` block descriptors. -/
def descBytes : ℕ := 168

/-- `k_block_descs`, a variable of the kernel's image below the heap. -/
def KernelDescs : Type := { a : Word // a.toNat % 4 = 0 ∧ 0xc0000000 ≤ a.toNat ∧ a.toNat + descBytes ≤ kHeapStart }

/-- `u_block_desc`, a part of a task's control block, which is a page of the kernel's heap. -/
def TaskDescs : Type := { a : Word // a.toNat % 4 = 0 ∧ kHeapStart ≤ a.toNat ∧ a.toNat + descBytes ≤ 2 ^ 32 }

def imageDescs : KernelDescs := ⟨0xc0010000#32, by decide⟩

structure Heap where
  machine : Machine
  kBlockDescs : KernelDescs
  uBlockDesc : ℕ → TaskDescs
  /-- the words of the descriptors, kept apart from the pages that hold them -/
  descWords : Word → Word

/-- A call stops in an assertion of its own, in an endless search, or inside the page allocator or a page fault. -/
inductive HeapHalt | assertion | hang | page (e : Halt)

abbrev HeapM := Exec HeapHalt Heap

def assertHeap (p : Prop) [Decidable p] : HeapM Unit := if p then pure () else halt .assertion

def page {α : Type} (x : MemM α) : HeapM α := fun h =>
  match x h.machine with
  | .error e => .error (.page e)
  | .ok (a, m) => .ok (a, { h with machine := m })

namespace Heap

/-- The pool the running task allocates from. -/
def pool (h : Heap) : Pool := if h.machine.pgdir h.machine.cur = none then .kernel else .user

def descs (h : Heap) : Word :=
  match h.pool with
  | .kernel => h.kBlockDescs.val
  | .user => (h.uBlockDesc h.machine.cur).val

def isDesc (h : Heap) (a : Word) : Prop := h.descs.toNat ≤ a.toNat ∧ a.toNat < h.descs.toNat + descBytes

instance (h : Heap) (a : Word) : Decidable (h.isDesc a) := inferInstanceAs (Decidable (_ ∧ _))

end Heap

def loadWord (a : Word) : HeapM Word := fun h =>
  if h.isDesc a then .ok (h.descWords a, h) else page (load a) h

def storeWord (a w : Word) : HeapM Unit := fun h =>
  if h.isDesc a then .ok ((), { h with descWords := Function.update h.descWords a w }) else page (store a w) h

/-- `memset` to zero of `words` words. -/
def clearWords : ℕ → Word → HeapM Unit
  | 0, _ => pure ()
  | words + 1, a => do
    storeWord a 0
    clearWords words (a + 4#32)

def listInsertBefore (before elem : Word) : HeapM Unit := do
  let prev ← loadWord before
  storeWord (prev + 4#32) elem
  let prev ← loadWord before
  storeWord elem prev
  storeWord (elem + 4#32) before
  storeWord before elem

def listAppend (plist elem : Word) : HeapM Unit := listInsertBefore (plist + 8#32) elem

def listRemove (pelem : Word) : HeapM Unit := do
  let prev ← loadWord pelem
  let next ← loadWord (pelem + 4#32)
  storeWord (prev + 4#32) next
  let next ← loadWord (pelem + 4#32)
  let prev ← loadWord pelem
  storeWord next prev

def listPop (plist : Word) : HeapM Word := do
  let elem ← loadWord (plist + 4#32)
  listRemove elem
  return elem

def listEmpty (plist : Word) : HeapM Bool := do
  let next ← loadWord (plist + 4#32)
  return next = plist + 8#32

/-- The loop of `elem_find`; a search over more elements than there are addresses does not end. -/
def elemFindFrom (tail objElem : Word) : ℕ → Word → HeapM Bool
  | 0, _ => halt .hang
  | fuel + 1, elem => do
    if elem = tail then return false
    if elem = objElem then return true
    let next ← loadWord (elem + 4#32)
    elemFindFrom tail objElem fuel next

def elemFind (plist objElem : Word) : HeapM Bool := do
  let elem ← loadWord (plist + 4#32)
  elemFindFrom (plist + 8#32) objElem (2 ^ 32) elem

def listInit (list : Word) : HeapM Unit := do
  storeWord list 0
  storeWord (list + 4#32) (list + 8#32)
  storeWord (list + 8#32) list
  storeWord (list + 12#32) 0

/-- A descriptor: `block_size`, `blocks_per_arena` and `free_list`. -/
def descAddr (descs : Word) (descIdx : ℕ) : Word := descs + BitVec.ofNat 32 (24 * descIdx)

def freeListOf (desc : Word) : Word := desc + 8#32

def blockDescInitFrom (descArray : Word) : ℕ → ℕ → ℕ → HeapM Unit
  | 0, _, _ => pure ()
  | more + 1, descIdx, blockSize => do
    let desc := descAddr descArray descIdx
    storeWord desc (BitVec.ofNat 32 blockSize)
    storeWord (desc + 4#32) (BitVec.ofNat 32 ((4096 - 12) / blockSize))
    listInit (freeListOf desc)
    blockDescInitFrom descArray more (descIdx + 1) (blockSize * 2)

def blockDescInit (descArray : Word) : HeapM Unit := blockDescInitFrom descArray 7 0 16

/-- An arena begins with `desc`, `cnt` and `large`. -/
def arena2block (a : Word) (idx : ℕ) : HeapM Word := do
  let desc ← loadWord a
  let blockSize ← loadWord desc
  return a + 12#32 + BitVec.ofNat 32 idx * blockSize

def block2arena (b : Word) : Word := b &&& 0xfffff000#32

def descFor (descs : Word) (size : ℕ) : ℕ → ℕ → HeapM ℕ
  | 0, descIdx => return descIdx
  | more + 1, descIdx => do
    let blockSize ← loadWord (descAddr descs descIdx)
    if size ≤ blockSize.toNat then return descIdx
    descFor descs size more (descIdx + 1)

/-- Put the blocks of a new arena from `blockIdx` on into the free list. -/
def addBlocks (a : Word) : ℕ → ℕ → HeapM Unit
  | 0, _ => pure ()
  | more + 1, blockIdx => do
    let b ← arena2block a blockIdx
    let desc ← loadWord a
    let found ← elemFind (freeListOf desc) b
    assertHeap (found = false)
    listAppend (freeListOf desc) b
    addBlocks a more (blockIdx + 1)

/-- False when there is no page for the arena. -/
def newArena (pf : Pool) (desc : Word) : HeapM Bool := do
  match ← page (mallocPage pf 1) with
  | none => return false
  | some a =>
    page (clearPages 1 a)
    storeWord a desc
    storeWord (a + 8#32) 0
    let blocksPerArena ← loadWord (desc + 4#32)
    storeWord (a + 4#32) blocksPerArena
    addBlocks a blocksPerArena.toNat 0
    return true

def takeBlock (desc : Word) : HeapM Word := do
  let b ← listPop (freeListOf desc)
  let blockSize ← loadWord desc
  clearWords (blockSize.toNat / 4) b
  let a := block2arena b
  let cnt ← loadWord (a + 4#32)
  storeWord (a + 4#32) (cnt - 1)
  return b

def mallocLarge (pf : Pool) (size : ℕ) : HeapM (Option Word) := do
  let pageCnt := (size + 12 + 4095) / 4096
  match ← page (mallocPage pf pageCnt) with
  | none => return none
  | some a =>
    page (clearPages pageCnt a)
    storeWord a 0
    storeWord (a + 4#32) (BitVec.ofNat 32 pageCnt)
    storeWord (a + 8#32) 1
    return some (a + 12#32)

def mallocSmall (pf : Pool) (descs : Word) (size : ℕ) : HeapM (Option Word) := do
  let descIdx ← descFor descs size 7 0
  let desc := descAddr descs descIdx
  let empty ← listEmpty (freeListOf desc)
  let ready ← if empty then newArena pf desc else pure true
  if ready then
    let b ← takeBlock desc
    return some b
  else return none

def sysMalloc (size : ℕ) : HeapM (Option Word) := do
  let h ← get
  if 0 < size ∧ size < (poolOf h.pool h.machine).poolSize then
    if 1024 < size then mallocLarge h.pool size else mallocSmall h.pool h.descs size
  else return none

/-- Take the blocks of an arena from `blockIdx` on out of the free list. -/
def removeBlocks (a : Word) : ℕ → ℕ → HeapM Unit
  | 0, _ => pure ()
  | more + 1, blockIdx => do
    let b ← arena2block a blockIdx
    let desc ← loadWord a
    let found ← elemFind (freeListOf desc) b
    assertHeap (found = true)
    listRemove b
    removeBlocks a more (blockIdx + 1)

def freeSmall (pf : Pool) (a b : Word) : HeapM Unit := do
  let desc ← loadWord a
  listAppend (freeListOf desc) b
  let cnt ← loadWord (a + 4#32)
  storeWord (a + 4#32) (cnt + 1)
  let desc ← loadWord a
  let blocksPerArena ← loadWord (desc + 4#32)
  if cnt + 1 = blocksPerArena then
    removeBlocks a blocksPerArena.toNat 0
    page (mfreePage pf a 1)

def sysFree (ptr : Word) : HeapM Unit := do
  assertHeap (ptr ≠ 0)
  let h ← get
  assertHeap (h.pool = .kernel → kHeapStart ≤ ptr.toNat)
  let a := block2arena ptr
  let large ← loadWord (a + 8#32)
  assertHeap (large = 0 ∨ large = 1)
  let desc ← loadWord a
  if desc = 0 ∧ large = 1 then
    let cnt ← loadWord (a + 4#32)
    page (mfreePage h.pool a cnt.toNat)
  else freeSmall h.pool a ptr

end ElephantOS.Paging
