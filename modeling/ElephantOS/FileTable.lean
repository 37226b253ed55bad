import ElephantOS.PathSearch

/-! `fs/file.c`: the global file table, the descriptors of the tasks, and creating, opening and closing a file. -/

namespace ElephantOS

open ByteMemory HaltingState

def maxFileOpen : ℕ := 32

def maxFilesOpenPerProc : ℕ := 8

/-- `flags & O_CREAT` -/
def oCreat (flags : ℕ) : Bool := flags.testBit 2

/-- `flags & O_WRONLY || flags & O_RDWR` -/
def oWrite (flags : ℕ) : Bool := flags.testBit 0 || flags.testBit 1

def setFile (k : ℕ) (file : File) (s : Fs) : Fs := { s with fileTable := Function.update s.fileTable k file }

def setFd (task j : ℕ) (fd : ℤ) (s : Fs) : Fs :=
  { s with fdTable := Function.update s.fdTable task (Function.update (s.fdTable task) j fd) }

def getFreeSlotInGlobal (s : Fs) : Option ℕ :=
  (List.range' 3 (maxFileOpen - 3)).find? fun k => (s.fileTable k).fdInode = none

def pcbFdInstall (task globalFdIdx : ℕ) : FsM ℤ := do
  let s ← get
  match (List.range' 3 (maxFilesOpenPerProc - 3)).find? fun j => s.fdTable task j = -1 with
  | none => return -1
  | some j =>
    modify (setFd task j globalFdIdx)
    return j

/-- Call a function of `dir.c` that changes the inode of a directory. -/
def onDirInode (dir : Dir) (m : Inode → KernM (Bool × Inode)) : FsM Bool := do
  let s ← get
  let (ok, inode) ← liftKern (m (s.inodes (dir.inode s)))
  modify (setInode (dir.inode s) inode)
  return ok

section

variable (K : Kernel)

def storeNewFile (parentDir : Dir) (newFileInode : Ptr) (inodeNo : ℕ) (ioBuf : Buffer) : FsM Unit := do
  let ioBuf := { ioBuf with bytes := blit ioBuf.bytes 0 zeros 1024 }
  let s ← get
  liftKern (inodeSync K (s.inodes (parentDir.inode s)) ioBuf)
  liftKern (inodeSync K (s.inodes newFileInode) ioBuf)
  liftKern (bitmapSync K inodeNo .inodeBitmap)
  listPush newFileInode
  modify fun s => setInode newFileInode { s.inodes newFileInode with iOpenCnts := 1 } s
  liftKern (sysFree ioBuf.ptr)

/-- `file_create` from the moment its inode is in memory. -/
def installNewFile (task : ℕ) (parentDir : Dir) (filename : Name) (flag inodeNo : ℕ) (newFileInode : Ptr) (ioBuf : Buffer) :
    FsM ℤ := do
  modify (setInode newFileInode (inodeInit inodeNo Inode.zero))
  let s ← get
  match getFreeSlotInGlobal s with
  | none =>
    liftKern (sysFree newFileInode)
    liftKern (inodeBitmapSet inodeNo false)
    liftKern (sysFree ioBuf.ptr)
    return -1
  | some fdIdx =>
    modify (setFile fdIdx ⟨0, flag, some newFileInode⟩)
    modify fun s => setInode newFileInode { s.inodes newFileInode with writeDeny := false } s
    let newDirEntry ← createDirEntry filename inodeNo .regular
    let ok ← onDirInode parentDir fun inode => syncDirEntry K inode newDirEntry ioBuf
    if !ok then
      modify (setFile fdIdx ⟨0, 0, none⟩)
      liftKern (sysFree newFileInode)
      liftKern (inodeBitmapSet inodeNo false)
      liftKern (sysFree ioBuf.ptr)
      return -1
    else
      storeNewFile K parentDir newFileInode inodeNo ioBuf
      pcbFdInstall task fdIdx

def fileCreate (task : ℕ) (parentDir : Dir) (filename : Name) (flag : ℕ) : FsM ℤ := do
  let some ioBuf ← liftKern (sysMalloc 1024) | return -1
  let some inodeNo ← liftKern inodeBitmapAlloc | return -1
  match ← liftKern (sysMalloc inodeSize) with
  | none =>
    liftKern (inodeBitmapSet inodeNo false)
    liftKern (sysFree ioBuf.ptr)
    return -1
  | some newFileInode => installNewFile K task parentDir filename flag inodeNo newFileInode.ptr ioBuf

def fileOpen (task inodeNo flag : ℕ) : FsM ℤ := do
  let s ← get
  match getFreeSlotInGlobal s with
  | none => return -1
  | some fdIdx =>
    let inode ← inodeOpen K inodeNo
    modify (setFile fdIdx ⟨0, flag, some inode⟩)
    let s ← get
    if oWrite flag && (s.inodes inode).writeDeny then return -1
    else
      if oWrite flag then modify (setInode inode { s.inodes inode with writeDeny := true })
      pcbFdInstall task fdIdx

end

def fileClose (k : ℕ) : FsM ℤ := do
  let s ← get
  match (s.fileTable k).fdInode with
  -- a store through a null pointer
  | none => halt .wild
  | some inode =>
    modify (setInode inode { s.inodes inode with writeDeny := false })
    inodeClose inode
    modify fun s => setFile k { s.fileTable k with fdInode := none } s
    return 0

/-- The files of `sys_open` that are there are opened, the others are created when the flags ask for it. -/
def sysOpen (K : Kernel) (task : ℕ) (junk : Junk) (pathname : Path) (flags : ℕ) : FsM ℤ := do
  if pathname.getLast? = some slash then return -1
  assert (flags ≤ 7)
  let pathnameDepth ← pathDepthCnt junk pathname
  let (inodeNo, searchedRecord) ← searchFile K junk pathname
  if searchedRecord.fileType = .directory then
    dirClose searchedRecord.parentDir
    return -1
  let pathSearchedDepth ← pathDepthCnt junk searchedRecord.searchedPath
  if pathnameDepth ≠ pathSearchedDepth then
    dirClose searchedRecord.parentDir
    return -1
  match inodeNo, oCreat flags with
  | none, false =>
    dirClose searchedRecord.parentDir
    return -1
  | some _, true =>
    dirClose searchedRecord.parentDir
    return -1
  | none, true =>
    let some filename := lastName pathname | halt .wild
    let fd ← fileCreate K task searchedRecord.parentDir filename flags
    dirClose searchedRecord.parentDir
    return fd
  | some inodeNo, false => fileOpen K task inodeNo flags

/-- `fd_table` has `MAX_FILES_OPEN_PER_PROC` elements. -/
def fdLocal2global (task localFd : ℕ) : FsM ℕ := do
  bound (localFd < maxFilesOpenPerProc)
  let s ← get
  assert (0 ≤ s.fdTable task localFd ∧ s.fdTable task localFd < maxFileOpen)
  return (s.fdTable task localFd).toNat

def sysClose (task : ℕ) (fd : ℤ) : FsM ℤ :=
  if 2 < fd then do
    let k ← fdLocal2global task fd.toNat
    let ret ← fileClose k
    modify (setFd task fd.toNat (-1))
    return ret
  else return -1

end ElephantOS
