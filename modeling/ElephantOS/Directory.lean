import ElephantOS.Blocks
import ElephantOS.DirEntry

/-! `fs/dir.c`: looking up, adding and deleting directory entries. A directory's inode is passed by value. -/

namespace ElephantOS

open ByteMemory HaltingState

section

variable (K : Kernel)

def dirEntrysPerSec : ℕ := 512 / K.sb.dirEntrySize

/-- `all_blocks` with the 12 direct blocks in it. -/
def dirBlocks (inode : Inode) (i : ℕ) : ℕ := if i < 12 then inode.iSectors i else 0

def allDirBlocks (inode : Inode) : KernM (ℕ → ℕ) :=
  if inode.iSectors 12 ≠ 0 then readTable (inode.iSectors 12) (dirBlocks inode) else pure (dirBlocks inode)

/-- The first of the `n` slots of a sector with the property `c`. -/
def firstSlot (n : ℕ) (c : ℕ → Bool) : Option ℕ := (List.range n).find? c

/-- The loop of `search_dir_entry` over the blocks, for `more` blocks from `blockIdx` on. -/
def searchBlocks (allBlocks : ℕ → ℕ) (name : Name) : ℕ → ℕ → Buffer → KernM (Option DirEntry)
  | 0, _, _ => return none
  | more + 1, blockIdx, buf =>
    if allBlocks blockIdx = 0 then searchBlocks allBlocks name more (blockIdx + 1) buf
    else do
      let buf ← ideRead (allBlocks blockIdx) buf 1
      match firstSlot (dirEntrysPerSec K) fun i => sameString buf.bytes (24 * i) name with
      | some i => return some (DirEntry.load buf.bytes (24 * i))
      | none => searchBlocks allBlocks name more (blockIdx + 1) { buf with bytes := blit buf.bytes 0 zeros 512 }

def searchDirEntry (inode : Inode) (name : Name) : KernM (Option DirEntry) := do
  let some allBlocks ← sysMalloc (48 + 512) | return none
  let blocks ← allDirBlocks inode
  let some buf ← sysMalloc 512 | halt .wild
  let dirE ← searchBlocks K blocks name 140 0 buf
  sysFree buf.ptr
  sysFree allBlocks.ptr
  return dirE

/-- A block for index `blockIdx` of a directory. The indirect table is never read: in the array
that is written to it only the new block is set. -/
def newDirBlock (blockIdx : ℕ) (dirInode : Inode) (allBlocks : ℕ → ℕ) : KernM (Bool × Inode × (ℕ → ℕ)) := do
  let some blockLba ← blockBitmapAlloc K | return (false, dirInode, allBlocks)
  assert ((blockLba : ℤ) - K.sb.dataStartLba ≠ -1)
  bitmapSync K (blockLba - K.sb.dataStartLba) .blockBitmap
  if blockIdx < 12 then
    return (true, dirInode.setSector blockIdx blockLba, Function.update allBlocks blockIdx blockLba)
  else if blockIdx = 12 then
    let dirInode := dirInode.setSector 12 blockLba
    match ← blockBitmapAlloc K with
    | none =>
      blockBitmapSet (dirInode.iSectors 12 - K.sb.dataStartLba) false
      return (false, dirInode.setSector 12 0, allBlocks)
    | some blockLba =>
      -- i_sectors has 13 elements
      let dirInode := dirInode.setSector 13 blockLba
      assert ((blockLba : ℤ) - K.sb.dataStartLba ≠ -1)
      bitmapSync K (blockLba - K.sb.dataStartLba) .blockBitmap
      let allBlocks := Function.update allBlocks 12 blockLba
      writeTable (dirInode.iSectors 12) allBlocks
      return (true, dirInode, allBlocks)
  else
    let allBlocks := Function.update allBlocks blockIdx blockLba
    writeTable (dirInode.iSectors 12) allBlocks
    return (true, dirInode, allBlocks)

/-- The loop of `sync_dir_entry`: the first block that is missing or has a free slot takes the entry. -/
def syncBlocks (pDe : DirEntry) : ℕ → ℕ → Inode → (ℕ → ℕ) → Buffer → KernM (Bool × Inode)
  | 0, _, dirInode, _, _ => return (false, dirInode)
  | more + 1, blockIdx, dirInode, allBlocks, ioBuf =>
    if allBlocks blockIdx = 0 then do
      let (ok, dirInode, allBlocks) ← newDirBlock K blockIdx dirInode allBlocks
      if !ok then return (false, dirInode)
      ideWrite (allBlocks blockIdx) (blit (blit ioBuf.bytes 0 zeros 512) 0 pDe.bytes K.sb.dirEntrySize) 1
      return (true, { dirInode with iSize := u32 (dirInode.iSize + K.sb.dirEntrySize) })
    else do
      let ioBuf ← ideRead (allBlocks blockIdx) ioBuf 1
      match firstSlot (dirEntrysPerSec K) fun i => (DirEntry.load ioBuf.bytes (24 * i)).fType = .unknown with
      | some i =>
        ideWrite (allBlocks blockIdx) (blit ioBuf.bytes (24 * i) pDe.bytes K.sb.dirEntrySize) 1
        return (true, { dirInode with iSize := u32 (dirInode.iSize + K.sb.dirEntrySize) })
      | none => syncBlocks pDe more (blockIdx + 1) dirInode allBlocks ioBuf

def syncDirEntry (dirInode : Inode) (pDe : DirEntry) (ioBuf : Buffer) : KernM (Bool × Inode) := do
  assert (dirInode.iSize % K.sb.dirEntrySize = 0)
  syncBlocks K pDe 140 0 dirInode (dirBlocks dirInode) ioBuf

/-- What `delete_dir_entry` gathers from one block. -/
structure BlockScan where
  isDirFirstBlock : Bool
  dirEntryCnt : ℕ
  dirEntryFound : Option ℕ

def scanBlock (bytes : Memory) (inodeNo : ℕ) : ℕ → ℕ → BlockScan → KernM BlockScan
  | 0, _, scan => return scan
  | more + 1, i, scan => do
    let dirE := DirEntry.load bytes (24 * i)
    if dirE.fType = .unknown then scanBlock bytes inodeNo more (i + 1) scan
    else if sameString bytes (24 * i) dot then
      scanBlock bytes inodeNo more (i + 1) { scan with isDirFirstBlock := true }
    else if sameString bytes (24 * i) dotDot then scanBlock bytes inodeNo more (i + 1) scan
    else
      let scan := { scan with dirEntryCnt := scan.dirEntryCnt + 1 }
      if dirE.iNo = inodeNo then
        assert (scan.dirEntryFound = none)
        scanBlock bytes inodeNo more (i + 1) { scan with dirEntryFound := some i }
      else scanBlock bytes inodeNo more (i + 1) scan

def freeDirBlock (blockIdx lba : ℕ) (dirInode : Inode) : KernM Inode := do
  let blockBitmapIdx := lba - K.sb.dataStartLba
  blockBitmapSet blockBitmapIdx false
  bitmapSync K blockBitmapIdx .blockBitmap
  if blockIdx < 12 then return dirInode.setSector blockIdx 0
  -- the loop that counts the indirect blocks does not advance its index
  else halt .hang

/-- Take the entry at slot `i` out of its block: a block left empty is given back, except the first one. -/
def eraseEntry (blockIdx lba i : ℕ) (bytes : Memory) (scan : BlockScan) (dirInode : Inode) : KernM Inode :=
  if scan.dirEntryCnt = 1 ∧ scan.isDirFirstBlock = false then freeDirBlock K blockIdx lba dirInode
  else do
    ideWrite lba (blit bytes (24 * i) zeros K.sb.dirEntrySize) 1
    return dirInode

def deleteBlocks (inodeNo : ℕ) (dirInode : Inode) (allBlocks : ℕ → ℕ) : ℕ → ℕ → Buffer → KernM (Bool × Inode)
  | 0, _, _ => return (false, dirInode)
  | more + 1, blockIdx, ioBuf =>
    if allBlocks blockIdx = 0 then deleteBlocks inodeNo dirInode allBlocks more (blockIdx + 1) ioBuf
    else do
      let ioBuf ← ideRead (allBlocks blockIdx) { ioBuf with bytes := blit ioBuf.bytes 0 zeros 512 } 1
      let scan ← scanBlock ioBuf.bytes inodeNo (dirEntrysPerSec K) 0 ⟨false, 0, none⟩
      match scan.dirEntryFound with
      | none => deleteBlocks inodeNo dirInode allBlocks more (blockIdx + 1) ioBuf
      | some i =>
        assert (1 ≤ scan.dirEntryCnt)
        let dirInode ← eraseEntry K blockIdx (allBlocks blockIdx) i ioBuf.bytes scan dirInode
        assert (K.sb.dirEntrySize ≤ dirInode.iSize)
        let dirInode := { dirInode with iSize := dirInode.iSize - K.sb.dirEntrySize }
        inodeSync K dirInode { ioBuf with bytes := blit ioBuf.bytes 0 zeros 1024 }
        return (true, dirInode)

def deleteDirEntry (dirInode : Inode) (inodeNo : ℕ) (ioBuf : Buffer) : KernM (Bool × Inode) := do
  let blocks ← allDirBlocks dirInode
  deleteBlocks K inodeNo dirInode blocks 140 0 ioBuf

def dirIsEmpty (dirInode : Inode) : Bool := dirInode.iSize = K.sb.dirEntrySize * 2

end

end ElephantOS
