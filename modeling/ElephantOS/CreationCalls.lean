import ElephantOS.Syscalls
import ElephantOS.References

namespace ElephantOS

open ByteMemory HaltingState

section

variable (inodeAlloc blockAlloc : KernM (Option ℕ)) (K : Kernel)

def newDirBlockBy (blockIdx : ℕ) (dirInode : Inode) (allBlocks : ℕ → ℕ) : KernM (Bool × Inode × (ℕ → ℕ)) := do
  let some blockLba ← blockAlloc | return (false, dirInode, allBlocks)
  assert ((blockLba : ℤ) - K.sb.dataStartLba ≠ -1)
  bitmapSync K (blockLba - K.sb.dataStartLba) .blockBitmap
  if blockIdx < 12 then
    return (true, dirInode.setSector blockIdx blockLba, Function.update allBlocks blockIdx blockLba)
  else if blockIdx = 12 then
    let dirInode := dirInode.setSector 12 blockLba
    match ← blockAlloc with
    | none =>
      blockBitmapSet (dirInode.iSectors 12 - K.sb.dataStartLba) false
      return (false, dirInode.setSector 12 0, allBlocks)
    | some blockLba =>
      let dirInode := dirInode.setSector 13 blockLba
      assert ((blockLba : ℤ) - K.sb.dataStartLba ≠ -1)
      bitmapSync K (blockLba - K.sb.dataStartLba) .blockBitmap
      let allBlocks := Function.update allBlocks 12 blockLba
      writeTable (dirInode.iSectors 12) allBlocks
      return (true, dirInode, allBlocks)
  else
    let allBlocks := Function.update allBlocks blockIdx blockLba
    writeTable (dirInode.iSectors 12) allBlocks
    return (true, dirInode, allBlocks)

def syncBlocksBy (pDe : DirEntry) : ℕ → ℕ → Inode → (ℕ → ℕ) → Buffer → KernM (Bool × Inode)
  | 0, _, dirInode, _, _ => return (false, dirInode)
  | more + 1, blockIdx, dirInode, allBlocks, ioBuf =>
    if allBlocks blockIdx = 0 then do
      let (ok, dirInode, allBlocks) ← newDirBlockBy blockAlloc K blockIdx dirInode allBlocks
      if !ok then return (false, dirInode)
      ideWrite (allBlocks blockIdx) (blit (blit ioBuf.bytes 0 zeros 512) 0 pDe.bytes K.sb.dirEntrySize) 1
      return (true, { dirInode with iSize := u32 (dirInode.iSize + K.sb.dirEntrySize) })
    else do
      let ioBuf ← ideRead (allBlocks blockIdx) ioBuf 1
      match firstSlot (dirEntrysPerSec K) fun i => (DirEntry.load ioBuf.bytes (24 * i)).fType = .unknown with
      | some i =>
        ideWrite (allBlocks blockIdx) (blit ioBuf.bytes (24 * i) pDe.bytes K.sb.dirEntrySize) 1
        return (true, { dirInode with iSize := u32 (dirInode.iSize + K.sb.dirEntrySize) })
      | none => syncBlocksBy pDe more (blockIdx + 1) dirInode allBlocks ioBuf

def syncDirEntryBy (dirInode : Inode) (pDe : DirEntry) (ioBuf : Buffer) : KernM (Bool × Inode) := do
  assert (dirInode.iSize % K.sb.dirEntrySize = 0)
  syncBlocksBy blockAlloc K pDe 140 0 dirInode (dirBlocks dirInode) ioBuf

def installNewFileBy (task : ℕ) (parentDir : Dir) (filename : Name) (flag inodeNo : ℕ) (newFileInode : Ptr) (ioBuf : Buffer) :
    FsM ℤ := do
  modify (setInode newFileInode (inodeInit inodeNo Inode.zero))
  let s ← get
  match getFreeSlotInGlobal s with
  | none =>
    liftKern (sysFree newFileInode)
    liftKern (inodeBitmapSet inodeNo false)
    liftKern (sysFree ioBuf.ptr)
    return -1
  | some fdIdx =>
    modify (setFile fdIdx ⟨0, flag, some newFileInode⟩)
    modify fun s => setInode newFileInode { s.inodes newFileInode with writeDeny := false } s
    let newDirEntry ← createDirEntry filename inodeNo .regular
    let ok ← onDirInode parentDir fun inode => syncDirEntryBy blockAlloc K inode newDirEntry ioBuf
    if !ok then
      modify (setFile fdIdx ⟨0, 0, none⟩)
      liftKern (sysFree newFileInode)
      liftKern (inodeBitmapSet inodeNo false)
      liftKern (sysFree ioBuf.ptr)
      return -1
    else
      storeNewFile K parentDir newFileInode inodeNo ioBuf
      pcbFdInstall task fdIdx

def fileCreateBy (task : ℕ) (parentDir : Dir) (filename : Name) (flag : ℕ) : FsM ℤ := do
  let some ioBuf ← liftKern (sysMalloc 1024) | return -1
  let some inodeNo ← liftKern inodeAlloc | return -1
  match ← liftKern (sysMalloc inodeSize) with
  | none =>
    liftKern (inodeBitmapSet inodeNo false)
    liftKern (sysFree ioBuf.ptr)
    return -1
  | some newFileInode => installNewFileBy blockAlloc K task parentDir filename flag inodeNo newFileInode.ptr ioBuf

def sysOpenBy (task : ℕ) (junk : Junk) (pathname : Path) (flags : ℕ) : FsM ℤ := do
  if pathname.getLast? = some slash then return -1
  assert (flags ≤ 7)
  let pathnameDepth ← pathDepthCnt junk pathname
  let (inodeNo, searchedRecord) ← searchFile K junk pathname
  if searchedRecord.fileType = .directory then
    dirClose searchedRecord.parentDir
    return -1
  let pathSearchedDepth ← pathDepthCnt junk searchedRecord.searchedPath
  if pathnameDepth ≠ pathSearchedDepth then
    dirClose searchedRecord.parentDir
    return -1
  match inodeNo, oCreat flags with
  | none, false =>
    dirClose searchedRecord.parentDir
    return -1
  | some _, true =>
    dirClose searchedRecord.parentDir
    return -1
  | none, true =>
    let some filename := lastName pathname | halt .wild
    let fd ← fileCreateBy inodeAlloc blockAlloc K task searchedRecord.parentDir filename flags
    dirClose searchedRecord.parentDir
    return fd
  | some inodeNo, false => fileOpen K task inodeNo flags

def firstEntries (ioBuf : Buffer) (inodeNo parentNo : ℕ) : Memory :=
  blit (blit ioBuf.bytes 0 zeros 1024) 0 (dotEntries inodeNo parentNo) 512

def Buffer.cleared (ioBuf : Buffer) : Buffer := { ioBuf with bytes := blit ioBuf.bytes 0 zeros 1024 }

def makeDirBy (parentDir : Dir) (dirname : Name) (inodeNo blockLba : ℕ) (ioBuf : Buffer) : FsM Bool := do
  let blockBitmapIdx := blockLba - K.sb.dataStartLba
  assert (blockBitmapIdx ≠ 0)
  liftKern (bitmapSync K blockBitmapIdx .blockBitmap)
  let s ← get
  liftKern (ideWrite blockLba (firstEntries ioBuf inodeNo (s.inodes (parentDir.inode s)).iNo) 1)
  let newDirInode := { (inodeInit inodeNo Inode.zero).setSector 0 blockLba with iSize := 2 * K.sb.dirEntrySize }
  let newDirEntry ← createDirEntry dirname inodeNo .directory
  let ok ← onDirInode parentDir fun inode => syncDirEntryBy blockAlloc K inode newDirEntry ioBuf.cleared
  if !ok then return false
  else
    let s ← get
    liftKern (inodeSync K (s.inodes (parentDir.inode s)) ioBuf.cleared)
    liftKern (inodeSync K newDirInode ioBuf.cleared)
    liftKern (bitmapSync K inodeNo .inodeBitmap)
    return true

def sysMkdirBy (junk : Junk) (pathname : Path) : FsM ℤ := do
  let some ioBuf ← liftKern (sysMalloc 1024) | return -1
  let (inodeNo, searchedRecord) ← searchFile K junk pathname
  if inodeNo ≠ none then mkdirFail searchedRecord.parentDir ioBuf
  else
    let pathnameDepth ← pathDepthCnt junk pathname
    let pathSearchedDepth ← pathDepthCnt junk searchedRecord.searchedPath
    if pathnameDepth ≠ pathSearchedDepth then mkdirFail searchedRecord.parentDir ioBuf
    else
      match ← liftKern inodeAlloc with
      | none => mkdirFail searchedRecord.parentDir ioBuf
      | some inodeNo =>
        match ← liftKern blockAlloc with
        | none =>
          liftKern (inodeBitmapSet inodeNo false)
          mkdirFail searchedRecord.parentDir ioBuf
        | some blockLba =>
          let some dirname := lastName searchedRecord.searchedPath | halt .wild
          let ok ← makeDirBy blockAlloc K searchedRecord.parentDir dirname inodeNo blockLba ioBuf
          if !ok then
            liftKern (inodeBitmapSet inodeNo false)
            mkdirFail searchedRecord.parentDir ioBuf
          else
            liftKern (sysFree ioBuf.ptr)
            dirClose searchedRecord.parentDir
            return 0

end

section

variable (K : Kernel)

theorem newDirBlockBy_eq : newDirBlockBy (blockBitmapAlloc K) K = newDirBlock K := by
  funext blockIdx dirInode allBlocks
  rfl

theorem syncBlocksBy_eq (pDe : DirEntry) : syncBlocksBy (blockBitmapAlloc K) K pDe = syncBlocks K pDe := by
  funext more
  induction more with
  | zero => rfl
  | succ more ih =>
    funext blockIdx dirInode allBlocks ioBuf
    rw [syncBlocksBy, ih, newDirBlockBy_eq]
    rfl

theorem syncDirEntryBy_eq : syncDirEntryBy (blockBitmapAlloc K) K = syncDirEntry K := by
  funext dirInode pDe ioBuf
  rw [syncDirEntryBy, syncBlocksBy_eq]
  rfl

theorem sysOpenBy_eq : sysOpenBy inodeBitmapAlloc (blockBitmapAlloc K) K = sysOpen K := by
  have hinstall : installNewFileBy (blockBitmapAlloc K) K = installNewFile K := by
    funext task parentDir filename flag inodeNo newFileInode ioBuf
    rw [installNewFileBy, syncDirEntryBy_eq]
    rfl
  have hcreate : fileCreateBy inodeBitmapAlloc (blockBitmapAlloc K) K = fileCreate K := by
    funext task parentDir filename flag
    rw [fileCreateBy, hinstall]
    rfl
  funext task junk pathname flags
  rw [sysOpenBy, hcreate]
  rfl

theorem sysMkdirBy_eq : sysMkdirBy inodeBitmapAlloc (blockBitmapAlloc K) K = sysMkdir K := by
  have hmake : makeDirBy (blockBitmapAlloc K) K = makeDir K := by
    funext parentDir dirname inodeNo blockLba ioBuf
    rw [makeDirBy, syncDirEntryBy_eq]
    rfl
  funext junk pathname
  rw [sysMkdirBy, hmake]
  rfl

end

/-- `inode_bitmap_alloc` as it is documented: it takes a free inode number, or fails and changes nothing. -/
structure InodeAllocator (alloc : KernM (Option ℕ)) : Prop where
  fails : ∀ k k', alloc k = .ok (none, k') → k' = k
  takes : ∀ k k' i, alloc k = .ok (some i, k') → k.inodeBitmap.scanTest i = false ∧ k' = { k with inodeBitmap := k.inodeBitmap.set i true }

/-- `block_bitmap_alloc` likewise, with the address of a free block of the bitmap. -/
structure BlockAllocator (K : Kernel) (alloc : KernM (Option ℕ)) : Prop where
  fails : ∀ k k', alloc k = .ok (none, k') → k' = k
  takes : ∀ k k' lba, alloc k = .ok (some lba, k') → ∃ i < 8 * k.blockBitmap.btmpBytesLen, k.blockBitmap.scanTest i = false ∧
    lba = K.sb.dataStartLba + i ∧ k' = { k with blockBitmap := k.blockBitmap.set i true }

theorem inodeBitmapAlloc_allocator : InodeAllocator inodeBitmapAlloc where
  fails := by
    intro k k' h
    obtain ⟨i, -, -, -, hr, -⟩ := inodeBitmapAlloc_ok h
    cases hr
  takes := by
    intro k k' i h
    obtain ⟨j, -, hclear, -, hr, hk⟩ := inodeBitmapAlloc_ok h
    obtain rfl := Option.some.inj hr
    exact ⟨hclear, hk⟩

theorem blockBitmapAlloc_blockAllocator (K : Kernel) : BlockAllocator K (blockBitmapAlloc K) where
  fails := by
    intro k k' h
    obtain ⟨i, -, -, -, hr, -⟩ := blockBitmapAlloc_ok h
    cases hr
  takes := by
    intro k k' lba h
    obtain ⟨i, hlt, hclear, -, hr, hk⟩ := blockBitmapAlloc_ok h
    obtain rfl := Option.some.inj hr
    exact ⟨i, hlt, hclear, rfl, hk⟩

theorem Bitmap.set_back {b : Bitmap} {i : ℕ} (h : b.scanTest i = false) : (b.set i true).set i false = b := by
  have hbits : ((b.set i true).set i false).bits = b.bits := by
    funext j
    by_cases hj : j = i / 8
    · subst hj
      apply UInt8.toBitVec_inj.mp
      apply BitVec.eq_of_getLsbD_eq
      intro n hn
      rw [Bitmap.set_byte _ _ _ _ hn, Bitmap.set_byte _ _ _ _ hn]
      split_ifs with hni
      · rw [hni, ← Bitmap.scanTest_eq, h]
      · rfl
    · rw [Bitmap.set_bits _ _ _ _ hj, Bitmap.set_bits _ _ _ _ hj]
  cases b with
  | mk len bits =>
    exact congrArg (Bitmap.mk len) hbits

theorem ideRead_fits {lba secCnt : ℕ} {buf b : Buffer} {k k' : Kern} (hlen : secCnt * 512 ≤ buf.len)
    (h : ideRead lba buf secCnt k = .ok (b, k')) : k' = k ∧ b.len = buf.len := by
  unfold ideRead at h
  rw [if_neg (show ¬ buf.len < secCnt * 512 by omega)] at h
  split_ifs at h
  simp only [Except.ok.injEq, Prod.mk.injEq] at h
  obtain ⟨rfl, rfl⟩ := h
  exact ⟨rfl, rfl⟩

inductive Refused (K : Kernel) (alloc : KernM (Option ℕ)) (inode : Inode) (k : Kern) : Inode → Kern → Prop
  | first : alloc k = .ok (none, k) → Refused K alloc inode k inode k
  | second (lba : ℕ) (k1 : Kern) (d : Memory) : alloc k = .ok (some lba, k1) →
    SameOff (blockBitmapArea K.toPartition k.blockBitmap.btmpBytesLen) k.disk d →
    Refused K alloc inode k ((inode.setSector 12 lba).setSector 12 0) { k with disk := d }

section

variable {K : Kernel} {alloc : KernM (Option ℕ)} {inode inode' : Inode} {k k' : Kern}

theorem newDirBlockBy_false (ha : BlockAllocator K alloc) (hl : k.blockBitmap.btmpBytesLen % 512 = 0) {idx : ℕ} (hidx : idx ≤ 12)
    {all all' : ℕ → ℕ} (h : newDirBlockBy alloc K idx inode all k = .ok ((false, inode', all'), k')) :
    Refused K alloc inode k inode' k' := by
  unfold newDirBlockBy at h
  simp only [bind_ok] at h
  obtain ⟨r, k1, h1, h⟩ := h
  cases r with
  | none =>
    obtain ⟨he, rfl⟩ := (pure_ok _ _ _ _).mp h
    simp only [Prod.mk.injEq, true_and] at he
    obtain ⟨rfl, -⟩ := he
    obtain rfl := ha.fails _ _ h1
    exact .first h1
  | some lba =>
    obtain ⟨i, hi, hclear, rfl, rfl⟩ := ha.takes _ _ _ h1
    simp only [bind_ok, assert_ok, Nat.add_sub_cancel_left] at h
    obtain ⟨_, _, ⟨-, rfl⟩, _, k2, h2, h⟩ := h
    obtain ⟨-, hk2⟩ := (bitmapSync_block _ _ _ _ _).mp h2
    have hoff := (bitmapSync_synced (by simpa using hl) (by simpa using hi) h2).2.2.2.2.1
    split_ifs at h with h12 heq
    · simp [pure_ok] at h
    · simp only [bind_ok] at h
      obtain ⟨r, k3, h3, h⟩ := h
      cases r with
      | some lba =>
        simp only [bind_ok, assert_ok, pure_ok] at h
        obtain ⟨_, _, _, _, _, _, _, _, _, he, -⟩ := h
        cases he
      | none =>
        obtain rfl := ha.fails _ _ h3
        simp only [bind_ok, pure_ok] at h
        obtain ⟨_, k4, h4, he, rfl⟩ := h
        simp only [Prod.mk.injEq, true_and] at he
        obtain ⟨rfl, -⟩ := he
        have hsector : (inode.setSector 12 (K.sb.dataStartLba + i)).iSectors 12 - K.sb.dataStartLba = i := by
          simp [Inode.setSector]
        rw [hsector] at h4
        have hk4 : k4 = { k3 with blockBitmap := k3.blockBitmap.set i false } := ((modify_ok _ _ _ _).mp h4).symm
        have hend : k4 = { k with disk := k3.disk } := by
          rw [hk4, hk2]
          simp only [Bitmap.set_back hclear]
        rw [hend]
        exact .second _ _ _ h1 (by simpa using hoff)
    · omega

theorem syncBlocksBy_false (ha : BlockAllocator K alloc) (hl : k.blockBitmap.btmpBytesLen % 512 = 0) {e : DirEntry} {more idx : ℕ}
    (hidx : idx ≤ 12) (hmore : 12 < more + idx) {all : ℕ → ℕ} (hall : ∀ i, 12 ≤ i → all i = 0) {io : Buffer} (hio : 512 ≤ io.len)
    (h : syncBlocksBy alloc K e more idx inode all io k = .ok ((false, inode'), k')) : Refused K alloc inode k inode' k' := by
  induction more generalizing idx io with
  | zero => omega
  | succ more ih =>
    unfold syncBlocksBy at h
    split_ifs at h with hz
    · rw [bind_ok] at h
      obtain ⟨⟨ok, i1, all1⟩, k1, h1, h⟩ := h
      cases ok with
      | false =>
        obtain ⟨he, rfl⟩ := (pure_ok _ _ _ _).mp h
        simp only [Prod.mk.injEq, true_and] at he
        subst he
        exact newDirBlockBy_false ha hl hidx h1
      | true =>
        simp only [bind_ok, pure_ok, Bool.not_true, Bool.false_eq_true, if_false] at h
        obtain ⟨_, _, _, he, -⟩ := h
        cases he
    · have hlt : idx < 12 := by
        by_contra hge
        exact hz (hall idx (by omega))
      rw [bind_ok] at h
      obtain ⟨io1, k1, h1, h⟩ := h
      obtain ⟨rfl, hlen⟩ := ideRead_fits (by omega) h1
      cases hf : firstSlot (dirEntrysPerSec K) fun i => (DirEntry.load io1.bytes (24 * i)).fType = .unknown with
      | some i =>
        simp only [hf, bind_ok, pure_ok] at h
        obtain ⟨_, _, _, he, -⟩ := h
        cases he
      | none =>
        simp only [hf] at h
        exact ih (by omega) (by omega) (by omega) h

theorem syncDirEntryBy_false (ha : BlockAllocator K alloc) (hl : k.blockBitmap.btmpBytesLen % 512 = 0) {e : DirEntry} {io : Buffer}
    (hio : 512 ≤ io.len) (h : syncDirEntryBy alloc K inode e io k = .ok ((false, inode'), k')) : Refused K alloc inode k inode' k' := by
  unfold syncDirEntryBy at h
  simp only [bind_ok, assert_ok] at h
  obtain ⟨_, _, ⟨-, rfl⟩, h⟩ := h
  refine syncBlocksBy_false ha hl (Nat.zero_le _) (by omega) (fun i hi => ?_) hio h
  exact if_neg (by omega)

end

end ElephantOS
