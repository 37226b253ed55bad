import ElephantOS.Directory
import ElephantOS.InodeCache

/-! `fs/fs.c`: taking a path apart and following it from the root directory. -/

namespace ElephantOS

open ByteMemory HaltingState

abbrev Path := List UInt8

def slash : UInt8 := 47

/-- The first name of a path and what follows it, `none` at the end of the path. -/
def pathParse (pathname : Path) : Name × Option Path :=
  let pathname := pathname.dropWhile (· = slash)
  let rest := pathname.dropWhile (· ≠ slash)
  (pathname.takeWhile (· ≠ slash), if rest = [] then none else some rest)

/-- `path_parse` into an array of `MAX_FILE_NAME_LEN` characters, which a longer name overruns. -/
def parseName (pathname : Path) : FsM (Name × Option Path) := do
  bound ((pathParse pathname).1.length ≤ maxFileNameLen)
  return pathParse pathname

/-- The loop of `path_depth_cnt`. -/
def depthFrom : ℕ → ℕ → Name → Option Path → FsM ℕ
  | 0, _, _, _ => halt .hang
  | fuel + 1, depth, name, p =>
    if name = [] then return depth
    else match p with
      | none => return depth + 1
      | some p => do
        let (name, p) ← parseName p
        depthFrom fuel (depth + 1) name p

/-- What the code reads before it is set: `dir_e.i_no` in `search_file`, and whether the first character of
`name` in `path_depth_cnt` is other than zero. -/
structure Junk where
  iNo : ℕ
  name : Bool

def pathDepthCnt (junk : Junk) (pathname : Path) : FsM ℕ := do
  let (name, p) ← parseName pathname
  -- without a name the array is as it was on the stack, and the second round ends the loop
  if name = [] then return if junk.name then 1 else 0
  depthFrom (pathname.length + 1) 0 name p

/-- The name after the last slash: `strrchr(path, '/') + 1`. -/
def lastName (path : Path) : Option Name :=
  if slash ∈ path then some (path.reverse.takeWhile (· ≠ slash)).reverse else none

/-- `&root_dir`, or a `struct dir` in the heap. -/
inductive Dir | root | heap (ptr inode : Ptr)
  deriving DecidableEq

def Dir.inode (s : Fs) : Dir → Ptr
  | .root => s.rootDir
  | .heap _ inode => inode

def dirSize : ℕ := 520

def dirOpen (K : Kernel) (inodeNo : ℕ) : FsM Dir := do
  let pdir ← liftKern (sysMalloc dirSize)
  let inode ← inodeOpen K inodeNo
  let some pdir := pdir | halt .wild
  return .heap pdir.ptr inode

/-- The root directory is never closed. -/
def dirClose : Dir → FsM Unit
  | .root => pure ()
  | .heap ptr inode => do
    inodeClose inode
    liftKern (sysFree ptr)

structure PathSearchRecord where
  parentDir : Dir
  fileType : FileType
  searchedPath : Path

/-- An inode number returned as an `int`, in which the callers take `-1` for a failure. -/
def foundNo (iNo : ℕ) : Option ℕ := if iNo = 2 ^ 32 - 1 then none else some iNo

def maxPathLen : ℕ := 512

/-- The rest of the path, when there is one; else `name` stays cleared. -/
def nextName : Option Path → FsM (Name × Option Path)
  | none => pure ([], none)
  | some p => parseName p

section

variable (K : Kernel)

/-- The loop of `search_file`, entered with the name to look for in `record.parentDir`. -/
def searchLoop : ℕ → Option Path → Name → PathSearchRecord → ℕ → ℕ → FsM (Option ℕ × PathSearchRecord)
  | 0, _, _, _, _, _ => halt .hang
  | fuel + 1, subPath, name, record, parentInodeNo, iNo =>
    if name = [] then do
      dirClose record.parentDir
      let parentDir ← dirOpen K parentInodeNo
      return (foundNo iNo, { record with
        parentDir := parentDir
        fileType := .directory })
    else do
      assert (record.searchedPath.length < maxPathLen)
      -- a name that fills its array has no end
      bound (name.length < maxFileNameLen)
      let record := { record with searchedPath := record.searchedPath ++ slash :: name }
      let s ← get
      let parent := s.inodes (record.parentDir.inode s)
      let some dirE ← liftKern (searchDirEntry K parent name) | return (none, record)
      let (name, subPath) ← nextName subPath
      match dirE.fType with
      | .directory =>
        dirClose record.parentDir
        let parentDir ← dirOpen K dirE.iNo
        searchLoop fuel subPath name { record with parentDir := parentDir } parent.iNo dirE.iNo
      | .regular => return (foundNo dirE.iNo, { record with fileType := .regular })
      | _ => searchLoop fuel subPath name record parentInodeNo dirE.iNo

def searchFile (junk : Junk) (pathname : Path) : FsM (Option ℕ × PathSearchRecord) :=
  if pathname = [slash] ∨ pathname = slash :: dot ∨ pathname = slash :: dotDot then
    return (some 0, ⟨.root, .directory, []⟩)
  else do
    assert (pathname.head? = some slash ∧ 1 < pathname.length ∧ pathname.length < maxPathLen)
    let (name, subPath) ← parseName pathname
    searchLoop K (pathname.length + 1) subPath name ⟨.root, .unknown, []⟩ 0 junk.iNo

end

end ElephantOS
