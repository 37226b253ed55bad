import ElephantOS.Bitmap
import ElephantOS.Kernel
import ElephantOS.PageWalk

/-! `kernel/memory.c` and `userprog/process.c`: physical frames, virtual addresses and the page tables between them. -/

namespace ElephantOS.Paging

open HaltingState ByteMemory

structure FramePool where
  poolBitmap : Bitmap
  phyAddrStart : ℕ
  poolSize : ℕ

structure VirtualAddr where
  vaddrBitmap : Bitmap
  vaddrStart : ℕ

structure Machine where
  mem : PhysMem
  kernelPool : FramePool
  userPool : FramePool
  kernelVaddr : VirtualAddr
  /-- `userprog_vaddr` of each task -/
  userVaddr : ℕ → VirtualAddr
  /-- the virtual address of each task's page directory, `none` for a kernel thread -/
  pgdir : ℕ → Option Word
  /-- `running_thread()` -/
  cur : ℕ
  cr3 : Word
  /-- the translations of pages that the processor has cached -/
  tlb : ℕ → Option Word

abbrev MemM := Exec Halt Machine

def kernelDir : Word := 0x100000#32

def kHeapStart : ℕ := 0xc0100000

def userVaddrStart : ℕ := 0x8048000

/-- Where the processor finds an address: a cached translation of its page goes before the page tables. -/
def access (m : Machine) (vaddr : Word) : Option Word :=
  match m.tlb (vaddr.toNat / 4096) with
  | some f => some (f + (vaddr &&& 0xfff#32))
  | none => walk m.mem m.cr3 vaddr

/-- An access through an address that is not mapped faults. -/
def translate (vaddr : Word) : MemM Word := fun m =>
  match access m vaddr with
  | none => .error .wild
  | some p => .ok (p, m)

def load (vaddr : Word) : MemM Word := do
  let p ← translate vaddr
  let m ← get
  return m.mem p

def store (vaddr w : Word) : MemM Unit := do
  let p ← translate vaddr
  modify fun m => { m with mem := Function.update m.mem p w }

/-- `memset` of one whole page to zero. -/
def clearPage (vaddr : Word) : MemM Unit := do
  let p ← translate vaddr
  modify fun m => { m with mem := fun a => if frame a = frame p then 0 else m.mem a }

def poolOf (pf : Pool) (m : Machine) : FramePool :=
  match pf with
  | .kernel => m.kernelPool
  | .user => m.userPool

def setPool (pf : Pool) (p : FramePool) (m : Machine) : Machine :=
  match pf with
  | .kernel => { m with kernelPool := p }
  | .user => { m with userPool := p }

/-- The virtual addresses a request for `pf` comes from: those of the kernel, or of the running task. -/
def vaddrOf (pf : Pool) (m : Machine) : VirtualAddr :=
  match pf with
  | .kernel => m.kernelVaddr
  | .user => m.userVaddr m.cur

def setVaddr (pf : Pool) (v : VirtualAddr) (m : Machine) : Machine :=
  match pf with
  | .kernel => { m with kernelVaddr := v }
  | .user => { m with userVaddr := Function.update m.userVaddr m.cur v }

def setBits (b : Bitmap) (start : ℕ) (value : Bool) : ℕ → Bitmap
  | 0 => b
  | cnt + 1 => (setBits b start value cnt).set (start + cnt) value

def vaddrGet (pf : Pool) (pgCnt : ℕ) : MemM (Option Word) := do
  let m ← get
  let v := vaddrOf pf m
  match v.vaddrBitmap.scan pgCnt with
  | .error e => halt e
  | .ok none => return none
  | .ok (some bitIdxStart) =>
    set (setVaddr pf { v with vaddrBitmap := setBits v.vaddrBitmap bitIdxStart true pgCnt } m)
    let vaddrStart := v.vaddrStart + bitIdxStart * 4096
    if pf = .user then assert (vaddrStart < 0xc0000000 - 4096)
    return some (BitVec.ofNat 32 vaddrStart)

def palloc (pf : Pool) : MemM (Option Word) := do
  let m ← get
  let p := poolOf pf m
  match p.poolBitmap.scan 1 with
  | .error e => halt e
  | .ok none => return none
  | .ok (some bitIdx) =>
    set (setPool pf { p with poolBitmap := p.poolBitmap.set bitIdx true } m)
    return some (BitVec.ofNat 32 (bitIdx * 4096 + p.phyAddrStart))

def pageTableAdd (vaddr pagePhyaddr : Word) : MemM Unit := do
  let pde ← load (pdePtr vaddr)
  if present pde then
    let pte ← load (ptePtr vaddr)
    assert (present pte = false)
    store (ptePtr vaddr) (pagePhyaddr ||| 7#32)
  else
    let pdePhyaddr ← palloc .kernel
    store (pdePtr vaddr) (pdePhyaddr.getD 0 ||| 7#32)
    clearPage (ptePtr vaddr &&& 0xfffff000#32)
    let pte ← load (ptePtr vaddr)
    assert (present pte = false)
    store (ptePtr vaddr) (pagePhyaddr ||| 7#32)

/-- The loop of `malloc_page`; false when the frames run out. -/
def mapPages (pf : Pool) : ℕ → Word → MemM Bool
  | 0, _ => return true
  | cnt + 1, vaddr => do
    match ← palloc pf with
    | none => return false
    | some pagePhyaddr =>
      pageTableAdd vaddr pagePhyaddr
      mapPages pf cnt (vaddr + 0x1000#32)

def mallocPage (pf : Pool) (pgCnt : ℕ) : MemM (Option Word) := do
  assert (0 < pgCnt ∧ pgCnt < 3840)
  match ← vaddrGet pf pgCnt with
  | none => return none
  | some vaddrStart =>
    let ok ← mapPages pf pgCnt vaddrStart
    return if ok then some vaddrStart else none

def clearPages : ℕ → Word → MemM Unit
  | 0, _ => pure ()
  | cnt + 1, vaddr => do
    clearPage vaddr
    clearPages cnt (vaddr + 0x1000#32)

def getKernelPages (pgCnt : ℕ) : MemM (Option Word) := do
  match ← mallocPage .kernel pgCnt with
  | none => return none
  | some vaddr =>
    clearPages pgCnt vaddr
    return some vaddr

/-- Here the pages are cleared without a test; `memset` asserts that its destination is not `NULL`. -/
def getUserPages (pgCnt : ℕ) : MemM (Option Word) := do
  match ← mallocPage .user pgCnt with
  | none => halt .assertion
  | some vaddr =>
    clearPages pgCnt vaddr
    return some vaddr

def bitIdx (v : VirtualAddr) (vaddr : Word) : ℕ := u32 (vaddr.toNat + 2 ^ 32 - v.vaddrStart) / 4096

def getAPage (pf : Pool) (vaddr : Word) : MemM (Option Word) := do
  let m ← get
  -- a process may only ask for user memory, a kernel thread only for kernel memory
  assert ((m.pgdir m.cur).isSome = true ↔ pf = .user)
  let v := vaddrOf pf m
  assert (0 < bitIdx v vaddr)
  set (setVaddr pf { v with vaddrBitmap := v.vaddrBitmap.set (bitIdx v vaddr) true } m)
  match ← palloc pf with
  | none => return none
  | some pagePhyaddr =>
    pageTableAdd vaddr pagePhyaddr
    return some vaddr

/-- `addr_v2p` -/
def addrToPhys (vaddr : Word) : MemM Word := do
  let pte ← load (ptePtr vaddr)
  return frame pte + (vaddr &&& 0xfff#32)

/-- The pool is chosen by the address alone. -/
def pfree (pgPhyAddr : Word) : MemM Unit := do
  let m ← get
  let pf := if m.userPool.phyAddrStart ≤ pgPhyAddr.toNat then Pool.user else Pool.kernel
  let p := poolOf pf m
  let bitIdx := u32 (pgPhyAddr.toNat + 2 ^ 32 - p.phyAddrStart) / 4096
  set (setPool pf { p with poolBitmap := p.poolBitmap.set bitIdx false } m)

/-- The operand of `invlpg` is the variable `vaddr` on the stack, so that the translation of the page stays cached. -/
def pageTablePteRemove (vaddr : Word) : MemM Unit := do
  let pte ← load (ptePtr vaddr)
  store (ptePtr vaddr) (pte &&& 0xfffffffe#32)

def vaddrRemove (pf : Pool) (vaddr : Word) (pgCnt : ℕ) : MemM Unit :=
  modify fun m => setVaddr pf { vaddrOf pf m with
    vaddrBitmap := setBits (vaddrOf pf m).vaddrBitmap (bitIdx (vaddrOf pf m) vaddr) false pgCnt } m

/-- The loop of `mfree_page`: frames outside the pool `pf` fail the assertion. -/
def freePages (pf : Pool) : ℕ → Word → MemM Unit
  | 0, _ => pure ()
  | pgCnt + 1, vaddr => do
    let pgPhyAddr ← addrToPhys vaddr
    let m ← get
    assert (pgPhyAddr.toNat % 4096 = 0 ∧
      (if pf = .user then m.userPool.phyAddrStart ≤ pgPhyAddr.toNat
        else m.kernelPool.phyAddrStart ≤ pgPhyAddr.toNat ∧ pgPhyAddr.toNat < m.userPool.phyAddrStart))
    pfree pgPhyAddr
    pageTablePteRemove vaddr
    freePages pf pgCnt (vaddr + 0x1000#32)

def mfreePage (pf : Pool) (vaddr : Word) (pgCnt : ℕ) : MemM Unit := do
  assert (1 ≤ pgCnt ∧ vaddr.toNat % 4096 = 0)
  let pgPhyAddr ← addrToPhys vaddr
  assert (pgPhyAddr.toNat % 4096 = 0 ∧ 0x102000 ≤ pgPhyAddr.toNat)
  let m ← get
  freePages (if m.userPool.phyAddrStart ≤ pgPhyAddr.toNat then .user else .kernel) pgCnt vaddr
  vaddrRemove pf vaddr pgCnt

/-- Copy the entries of the running directory from index `i` on. -/
def copyEntries (pageDirVaddr : Word) : ℕ → ℕ → MemM Unit
  | 0, _ => pure ()
  | more + 1, i => do
    let e ← load (0xfffff000#32 + BitVec.ofNat 32 (4 * i))
    store (pageDirVaddr + BitVec.ofNat 32 (4 * i)) e
    copyEntries pageDirVaddr more (i + 1)

def createPageDir : MemM (Option Word) := do
  match ← getKernelPages 1 with
  | none => return none
  | some pageDirVaddr =>
    copyEntries pageDirVaddr 256 768
    let newPageDirPhyAddr ← addrToPhys pageDirVaddr
    store (pageDirVaddr + BitVec.ofNat 32 (4 * 1023)) (newPageDirPhyAddr ||| 7#32)
    return some pageDirVaddr

/-- `create_user_vaddr_bitmap`: the bitmap is kept apart from the pages that hold it. -/
def createUserVaddrBitmap (task : ℕ) : MemM Unit := do
  let len := (0xc0000000 - userVaddrStart) / 4096 / 8
  let bits ← getKernelPages ((len + 4095) / 4096)
  let some _ := bits | halt .wild
  modify fun m => { m with userVaddr := Function.update m.userVaddr task ⟨⟨len, zeros⟩, userVaddrStart⟩ }

/-- What `process_execute` does to the memory: the task's control block, its bitmap and its page directory. -/
def processExecute (task : ℕ) : MemM Unit := do
  let some _ ← getKernelPages 1 | halt .wild
  createUserVaddrBitmap task
  let pgdir ← createPageDir
  modify fun m => { m with pgdir := Function.update m.pgdir task pgdir }

/-- `task` becomes the running one and its page directory is loaded, which empties the processor's cache of translations. -/
def pageDirActivate (task : ℕ) : MemM Unit := do
  let m ← get
  match m.pgdir task with
  | none => modify fun m => { m with cur := task, cr3 := kernelDir, tlb := fun _ => none }
  | some v =>
    let pagedirPhyAddr ← addrToPhys v
    modify fun m => { m with cur := task, cr3 := pagedirPhyAddr, tlb := fun _ => none }

/-- `setup_page`: the kernel's directory and the table of the low megabyte; the other kernel tables are left alone. -/
def setupPage (ram : PhysMem) : PhysMem := fun a =>
  let n := a.toNat
  if n / 4096 = 0x100 then
    let i := n % 4096 / 4
    if n % 4 ≠ 0 then 0
    else if i = 0 ∨ i = 768 then 0x101007
    else if 769 ≤ i ∧ i < 1023 then BitVec.ofNat 32 (0x102007 + (i - 769) * 4096)
    else if i = 1023 then 0x100007
    else 0
  else if n / 4096 = 0x101 ∧ n % 4 = 0 ∧ n % 4096 / 4 < 256 then BitVec.ofNat 32 (n % 4096 / 4 * 4096 + 7)
  else ram a

/-- `mem_pool_init` on a machine with `allMem` bytes; the page counts are held in 16 bits. -/
def memInit (ram : PhysMem) (beyond : Memory) (allMem : ℕ) : Machine :=
  let usedMem := 4096 * 256 + 0x100000
  let allFreePages := u32 (allMem + 2 ^ 32 - usedMem) / 4096 % 2 ^ 16
  let kernelFreePages := allFreePages / 2
  let kbmLength := kernelFreePages / 8
  let ubmLength := (allFreePages - kernelFreePages) / 8
  let clear (len : ℕ) : Bitmap := ⟨len, fun i => if i < len then 0 else beyond i⟩
  { mem := setupPage ram
    kernelPool := ⟨clear kbmLength, usedMem, kernelFreePages * 4096⟩
    userPool := ⟨clear ubmLength, usedMem + kernelFreePages * 4096, (allFreePages - kernelFreePages) * 4096⟩
    kernelVaddr := ⟨clear kbmLength, kHeapStart⟩
    userVaddr := fun _ => ⟨⟨0, zeros⟩, 0⟩
    pgdir := fun _ => none
    cur := 0
    cr3 := kernelDir
    tlb := fun _ => none }

end ElephantOS.Paging
