import ElephantOS.FileTable
import ElephantOS.PartitionFormat

/-! `fs/fs.c`: the system calls on directories, and removing a file. -/

namespace ElephantOS

open ByteMemory HaltingState

section

variable (K : Kernel)

/-- Give back the block at `lba`. -/
def freeBlock (lba : ℕ) : KernM Unit := do
  let blockBitmapIdx := u32 (lba + 2 ^ 32 - K.sb.dataStartLba)
  assert (0 < blockBitmapIdx)
  blockBitmapSet blockBitmapIdx false
  bitmapSync K blockBitmapIdx .blockBitmap

def freeBlocks (allBlocks : ℕ → ℕ) : ℕ → ℕ → KernM Unit
  | 0, _ => pure ()
  | more + 1, blockIdx => do
    if allBlocks blockIdx ≠ 0 then freeBlock K (allBlocks blockIdx)
    freeBlocks allBlocks more (blockIdx + 1)

def releaseBlocks (inode : Inode) : KernM Unit := do
  let allBlocks ← allDirBlocks inode
  if inode.iSectors 12 ≠ 0 then freeBlock K (inode.iSectors 12)
  freeBlocks K allBlocks (if inode.iSectors 12 ≠ 0 then 140 else 12) 0

def inodeRelease (inodeNo : ℕ) : FsM Unit := do
  let inodeToDel ← inodeOpen K inodeNo
  let s ← get
  assert ((s.inodes inodeToDel).iNo = inodeNo)
  liftKern (releaseBlocks K (s.inodes inodeToDel))
  liftKern (inodeBitmapSet inodeNo false)
  liftKern (bitmapSync K inodeNo .inodeBitmap)
  let some ioBuf ← liftKern (sysMalloc 1024) | halt .wild
  liftKern (inodeDelete K inodeNo ioBuf)
  liftKern (sysFree ioBuf.ptr)
  inodeClose inodeToDel

/-- `dir_remove` reports a failure only when there is no memory for its buffer. -/
def dirRemove (parentDir childDir : Dir) : FsM Bool := do
  let s ← get
  let childDirInode := s.inodes (childDir.inode s)
  assert (∀ blockIdx ∈ List.range' 1 12, childDirInode.iSectors blockIdx = 0)
  let some ioBuf ← liftKern (sysMalloc 1024) | return false
  let _ ← onDirInode parentDir fun inode => deleteDirEntry K inode childDirInode.iNo ioBuf
  let s ← get
  inodeRelease K (s.inodes (childDir.inode s)).iNo
  liftKern (sysFree ioBuf.ptr)
  return true

/-- A file of the table, the console's included, refers to inode `n`. -/
def fileInUse (s : Fs) (n : ℕ) : Bool :=
  (List.range maxFileOpen).any fun k => (s.fileTable k).fdInode.any fun p => (s.inodes p).iNo = n

def sysUnlink (junk : Junk) (pathname : Path) : FsM ℤ := do
  assert (pathname.length < maxPathLen)
  let (inodeNo, searchedRecord) ← searchFile K junk pathname
  assert (inodeNo ≠ some 0)
  match inodeNo with
  | none =>
    dirClose searchedRecord.parentDir
    return -1
  | some inodeNo =>
    if searchedRecord.fileType = .directory then
      dirClose searchedRecord.parentDir
      return -1
    let s ← get
    if fileInUse s inodeNo then
      dirClose searchedRecord.parentDir
      return -1
    match ← liftKern (sysMalloc 1024) with
    | none =>
      dirClose searchedRecord.parentDir
      return -1
    | some ioBuf =>
      let _ ← onDirInode searchedRecord.parentDir fun inode => deleteDirEntry K inode inodeNo ioBuf
      inodeRelease K inodeNo
      liftKern (sysFree ioBuf.ptr)
      dirClose searchedRecord.parentDir
      return 0

/-- The new directory `inodeNo`: a block with its two first entries, and its entry in the parent. -/
def makeDir (parentDir : Dir) (dirname : Name) (inodeNo blockLba : ℕ) (ioBuf : Buffer) : FsM Bool := do
  let blockBitmapIdx := blockLba - K.sb.dataStartLba
  assert (blockBitmapIdx ≠ 0)
  liftKern (bitmapSync K blockBitmapIdx .blockBitmap)
  let s ← get
  liftKern (ideWrite blockLba (blit (blit ioBuf.bytes 0 zeros 1024) 0 (dotEntries inodeNo (s.inodes (parentDir.inode s)).iNo) 512) 1)
  let newDirInode := { (inodeInit inodeNo Inode.zero).setSector 0 blockLba with iSize := 2 * K.sb.dirEntrySize }
  let newDirEntry ← createDirEntry dirname inodeNo .directory
  let ioBuf := { ioBuf with bytes := blit ioBuf.bytes 0 zeros 1024 }
  let ok ← onDirInode parentDir fun inode => syncDirEntry K inode newDirEntry ioBuf
  if !ok then return false
  else
    let s ← get
    liftKern (inodeSync K (s.inodes (parentDir.inode s)) ioBuf)
    liftKern (inodeSync K newDirInode ioBuf)
    liftKern (bitmapSync K inodeNo .inodeBitmap)
    return true

def mkdirFail (parentDir : Dir) (ioBuf : Buffer) : FsM ℤ := do
  dirClose parentDir
  liftKern (sysFree ioBuf.ptr)
  return -1

def sysMkdir (junk : Junk) (pathname : Path) : FsM ℤ := do
  let some ioBuf ← liftKern (sysMalloc 1024) | return -1
  let (inodeNo, searchedRecord) ← searchFile K junk pathname
  if inodeNo ≠ none then mkdirFail searchedRecord.parentDir ioBuf
  else
    let pathnameDepth ← pathDepthCnt junk pathname
    let pathSearchedDepth ← pathDepthCnt junk searchedRecord.searchedPath
    if pathnameDepth ≠ pathSearchedDepth then mkdirFail searchedRecord.parentDir ioBuf
    else
      match ← liftKern inodeBitmapAlloc with
      | none => mkdirFail searchedRecord.parentDir ioBuf
      | some inodeNo =>
        match ← liftKern (blockBitmapAlloc K) with
        | none =>
          liftKern (inodeBitmapSet inodeNo false)
          mkdirFail searchedRecord.parentDir ioBuf
        | some blockLba =>
          let some dirname := lastName searchedRecord.searchedPath | halt .wild
          let ok ← makeDir K searchedRecord.parentDir dirname inodeNo blockLba ioBuf
          if !ok then
            liftKern (inodeBitmapSet inodeNo false)
            mkdirFail searchedRecord.parentDir ioBuf
          else
            liftKern (sysFree ioBuf.ptr)
            dirClose searchedRecord.parentDir
            return 0

/-- The root directory is returned without being opened once more; the source tests `name[0]` twice, so that
`/.` is not told apart here. -/
def sysOpendir (junk : Junk) (name : Path) : FsM (Option Dir) := do
  assert (name.length < maxPathLen)
  if name = [slash] then return some .root
  else
    let (inodeNo, searchedRecord) ← searchFile K junk name
    match inodeNo with
    | none =>
      dirClose searchedRecord.parentDir
      return none
    | some inodeNo =>
      if searchedRecord.fileType = .directory then
        let ret ← dirOpen K inodeNo
        dirClose searchedRecord.parentDir
        return some ret
      else
        dirClose searchedRecord.parentDir
        return none

/-- `sys_closedir` fails on a null pointer only. -/
def sysClosedir (dir : Option Dir) : FsM ℤ := do
  match dir with
  | none => return -1
  | some dir =>
    dirClose dir
    return 0

def sysRmdir (junk : Junk) (pathname : Path) : FsM ℤ := do
  let (inodeNo, searchedRecord) ← searchFile K junk pathname
  assert (inodeNo ≠ some 0)
  match inodeNo with
  | none =>
    dirClose searchedRecord.parentDir
    return -1
  | some inodeNo =>
    if searchedRecord.fileType = .regular then
      dirClose searchedRecord.parentDir
      return -1
    else
      let dir ← dirOpen K inodeNo
      let s ← get
      let removed ← if dirIsEmpty K (s.inodes (dir.inode s)) then dirRemove K searchedRecord.parentDir dir else pure false
      dirClose dir
      dirClose searchedRecord.parentDir
      return if removed then 0 else -1

def sysChdir (task : ℕ) (junk : Junk) (path : Path) : FsM ℤ := do
  let (inodeNo, searchedRecord) ← searchFile K junk path
  match inodeNo with
  | none =>
    dirClose searchedRecord.parentDir
    return -1
  | some inodeNo =>
    if searchedRecord.fileType = .directory then
      modify fun s => { s with cwdInodeNr := Function.update s.cwdInodeNr task inodeNo }
      dirClose searchedRecord.parentDir
      return 0
    else
      dirClose searchedRecord.parentDir
      return -1

structure Stat where
  stIno : ℕ
  stSize : ℕ
  stFiletype : FileType

def sysStat (junk : Junk) (path : Path) : FsM (Option Stat) :=
  if path = [slash] ∨ path = slash :: dot ∨ path = slash :: dotDot then do
    let s ← get
    return some ⟨0, (s.inodes s.rootDir).iSize, .directory⟩
  else do
    let (inodeNo, searchedRecord) ← searchFile K junk path
    match inodeNo with
    | none =>
      dirClose searchedRecord.parentDir
      return none
    | some inodeNo =>
      let objInode ← inodeOpen K inodeNo
      let s ← get
      inodeClose objInode
      dirClose searchedRecord.parentDir
      return some ⟨inodeNo, (s.inodes objInode).iSize, searchedRecord.fileType⟩

end

end ElephantOS
