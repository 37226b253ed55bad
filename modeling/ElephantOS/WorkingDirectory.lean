import Mathlib.Data.List.GetD
import ElephantOS.PathResolution
import ElephantOS.Syscalls

/-! `sys_getcwd` of `fs/fs.c`: from the working directory up to the root, and the path turned round into the caller's buffer. -/

namespace ElephantOS

open ByteMemory HaltingState

/-- Memory from the caller's `buf` on, with the places that were written. -/
structure UserBuffer where
  bytes : Memory
  stores : Finset ℕ

namespace UserBuffer

def store (buf : UserBuffer) (i : ℕ) (c : UInt8) : UserBuffer := ⟨Function.update buf.bytes i c, insert i buf.stores⟩

/-- `memset(buf, 0, size)` -/
def clear (buf : UserBuffer) (size : ℕ) : UserBuffer := ⟨blit buf.bytes 0 zeros size, buf.stores ∪ Finset.range size⟩

/-- The string in `buf`, as far as a path goes. -/
def string (buf : UserBuffer) : Path := nameFrom buf.bytes maxPathLen 0

/-- `strcpy(buf + offset, path)`: the characters and a zero behind them. -/
def strcpy (buf : UserBuffer) (offset : ℕ) (path : Path) : UserBuffer :=
  ⟨blit buf.bytes offset (ofList path) (path.length + 1), buf.stores ∪ Finset.Icc offset (offset + path.length)⟩

end UserBuffer

def strrchr (path : Path) : Option (Path × Path) :=
  (lastName path).map fun name => (path.take (path.length - (name.length + 1)), slash :: name)

/-- The second loop of `sys_getcwd`: the last part of the reversed path goes to the end of `buf`. -/
def reversePath : ℕ → Path → UserBuffer → UserBuffer
  | 0, _, buf => buf
  | fuel + 1, fullPathReverse, buf =>
    match strrchr fullPathReverse with
    | none => buf
    | some (rest, last) => reversePath fuel rest (buf.strcpy buf.string.length last)

section

variable (K : Kernel)

/-- The entry `..` of a directory is the second one of its first block. -/
def getParentDirInodeNr (childInodeNr : ℕ) (ioBuf : Buffer) : FsM ℕ := do
  let childDirInode ← inodeOpen K childInodeNr
  let s ← get
  let blockLba := (s.inodes childDirInode).iSectors 0
  assert (K.sb.dataStartLba ≤ blockLba)
  inodeClose childDirInode
  let ioBuf ← liftKern (ideRead blockLba ioBuf 1)
  let dirE := DirEntry.load ioBuf.bytes 24
  assert (dirE.iNo < 4096 ∧ dirE.fType = .directory)
  return dirE.iNo

/-- The loop of `get_child_dir_name`. A name that fills its field goes on into the inode number, whose upper bytes are zero. -/
def childInBlocks (allBlocks : ℕ → ℕ) (cInodeNr : ℕ) : ℕ → ℕ → Buffer → KernM (Option Name)
  | 0, _, _ => return none
  | more + 1, blockIdx, ioBuf =>
    if allBlocks blockIdx = 0 then childInBlocks allBlocks cInodeNr more (blockIdx + 1) ioBuf
    else do
      let ioBuf ← ideRead (allBlocks blockIdx) ioBuf 1
      match firstSlot (dirEntrysPerSec K) fun i => (DirEntry.load ioBuf.bytes (24 * i)).iNo = cInodeNr with
      | some i => return some (nameFrom ioBuf.bytes 20 (24 * i))
      | none => childInBlocks allBlocks cInodeNr more (blockIdx + 1) ioBuf

/-- The name of a directory in its parent, behind a slash at the end of `path`. -/
def getChildDirName (pInodeNr cInodeNr : ℕ) (path : Path) (ioBuf : Buffer) : FsM (Option Path) := do
  let parentDirInode ← inodeOpen K pInodeNr
  let s ← get
  let parent := s.inodes parentDirInode
  let allBlocks ← liftKern (allDirBlocks parent)
  inodeClose parentDirInode
  match ← liftKern (childInBlocks K allBlocks cInodeNr (if parent.iSectors 12 ≠ 0 then 140 else 12) 0 ioBuf) with
  | none => return none
  | some name =>
    -- an array on the stack
    bound ((path ++ slash :: name).length < maxPathLen)
    return some (path ++ slash :: name)

/-- The first loop of `sys_getcwd`. Every round makes the path longer, until it is at the root or its array is full. -/
def climb (ioBuf : Buffer) : ℕ → ℕ → Path → FsM (Option Path)
  | 0, _, _ => halt .hang
  | fuel + 1, childInodeNr, fullPathReverse =>
    if childInodeNr = 0 then return some fullPathReverse
    else do
      let parentInodeNr ← getParentDirInodeNr K childInodeNr ioBuf
      match ← getChildDirName K parentInodeNr childInodeNr fullPathReverse ioBuf with
      | none => return none
      | some fullPathReverse => climb ioBuf fuel parentInodeNr fullPathReverse

/-- `sys_getcwd`; the truth value tells `buf` from `NULL`. -/
def sysGetcwd (task size : ℕ) (buf : UserBuffer) : FsM (Bool × UserBuffer) := do
  let some ioBuf ← liftKern (sysMalloc 512) | return (false, buf)
  let s ← get
  let childInodeNr := s.cwdInodeNr task
  assert (childInodeNr < 4096)
  if childInodeNr = 0 then return (true, (buf.store 0 slash).store 1 0)
  else
    let buf := buf.clear size
    match ← climb K ioBuf (maxPathLen + 1) childInodeNr [] with
    | none =>
      liftKern (sysFree ioBuf.ptr)
      return (false, buf)
    | some fullPathReverse =>
      assert (fullPathReverse.length ≤ size)
      let buf := reversePath fullPathReverse.length fullPathReverse buf
      liftKern (sysFree ioBuf.ptr)
      return (true, buf)

end

section

variable {K : Kernel} {s₀ s : Fs} {held : Multiset Ptr} {dirs : Set ℕ}

/-- The entry `..` of directory `n`, as `get_parent_dir_inode_nr` accepts it, leads to `p`. -/
structure UpLink (K : Kernel) (s : Fs) (n p : ℕ) : Prop where
  data : K.sb.dataStartLba ≤ (theInode K s n).iSectors 0
  onDisk : (theInode K s n).iSectors 0 ≤ maxLba
  iNo : (entryAt s.kern.disk ((theInode K s n).iSectors 0 * 512 + 24)).iNo = p
  fType : (entryAt s.kern.disk ((theInode K s n).iSectors 0 * 512 + 24)).fType = .directory
  small : p < 4096

/-- Slot `pos` is the first one of a directory that holds the number `n`. -/
structure ChildAt (d : Memory) (inode : Inode) (n : ℕ) (pos : ℕ × ℕ) : Prop where
  slot : Slot d inode pos
  iNo : (entryAt d (slotAddr d inode pos)).iNo = n
  first : ∀ pos', Before pos' pos → Slot d inode pos' → (entryAt d (slotAddr d inode pos')).iNo ≠ n

/-- The name of directory `n` in directory `p`. -/
def Called (K : Kernel) (s : Fs) (p n : ℕ) (name : Name) : Prop := ∃ pos, ChildAt s.kern.disk (theInode K s p) n pos ∧
  name = (entryAt s.kern.disk (slotAddr s.kern.disk (theInode K s p) pos)).name

/-- From directory `n` to the root, with the path that is collected on the way. -/
inductive Climbs (K : Kernel) (s : Fs) : ℕ → Path → Prop
  | root : Climbs K s 0 []
  | up {n p : ℕ} {name : Name} {rest : Path} : n ≠ 0 → UpLink K s n p → Called K s p n name → Climbs K s p rest →
      Climbs K s n (slash :: name ++ rest)

theorem ChildAt.unique {d : Memory} {inode : Inode} {n : ℕ} {pos pos' : ℕ × ℕ} (h : ChildAt d inode n pos) (h' : ChildAt d inode n pos') :
    pos = pos' := by
  have hor : Before pos pos' ∨ pos = pos' ∨ Before pos' pos := by
    unfold Before
    rcases lt_trichotomy pos.1 pos'.1 with h1 | h1 | h1
    · exact .inl (.inl h1)
    · rcases lt_trichotomy pos.2 pos'.2 with h2 | h2 | h2
      · exact .inl (.inr ⟨h1, h2⟩)
      · exact .inr (.inl (Prod.ext h1 h2))
      · exact .inr (.inr (.inr ⟨h1.symm, h2⟩))
    · exact .inr (.inr (.inl h1))
  rcases hor with hb | he | hb
  · exact absurd h.iNo (h'.first pos hb h.slot)
  · exact he
  · exact absurd h'.iNo (h.first pos' hb h'.slot)

theorem UpLink.unique {n p p' : ℕ} (h : UpLink K s n p) (h' : UpLink K s n p') : p = p' := h.iNo.symm.trans h'.iNo

theorem Called.unique {p n : ℕ} {name name' : Name} (h : Called K s p n name) (h' : Called K s p n name') : name = name' := by
  obtain ⟨pos, hat, rfl⟩ := h
  obtain ⟨pos', hat', rfl⟩ := h'
  rw [hat.unique hat']

theorem Climbs.unique {n : ℕ} {path path' : Path} (h : Climbs K s n path) (h' : Climbs K s n path') : path = path' := by
  induction h generalizing path' with
  | root =>
    cases h' with
    | root => rfl
    | up hn => exact absurd rfl hn
  | up hn hup hname _ ih =>
    cases h' with
    | root => exact absurd rfl hn
    | up _ hup' hname' hrest' =>
      obtain rfl := hup.unique hup'
      rw [hname.unique hname', ih hrest']

theorem UpLink.mem (htree : Tree K s dirs) {n p : ℕ} (hn : n ∈ dirs) (h : UpLink K s n p) (hblock : (theInode K s n).iSectors 0 ≠ 0) :
    p ∈ dirs := by
  have hslot : Slot s.kern.disk (theInode K s n) (0, 1) := ⟨by decide, by decide, hblock⟩
  have hat : entries K s n (0, 1) = some (entryAt s.kern.disk (slotAddr s.kern.disk (theInode K s n) (0, 1))) := by
    refine slotMap_eq_some.mpr ⟨hslot, ?_, rfl⟩
    have htype : (entryAt s.kern.disk (slotAddr s.kern.disk (theInode K s n) (0, 1))).fType = .directory := h.fType
    rw [htype]
    decide
  rcases htree.kinds n hn _ _ hat with ⟨-, hmem⟩ | ⟨hf, -⟩
  · rwa [← h.iNo]
  · exact absurd (hf.symm.trans h.fType) (by decide)

theorem Watching.reopen (hset : s₀.Settled K held) (htree : Tree K s₀ dirs) (hw : Watching K s₀ held 0 s) {n : ℕ} (hn : n ∈ dirs) :
    Runs (ElephantOS.inodeOpen K n) s fun p s' => Watching K s₀ held (p ::ₘ 0) s' ∧ (theInode K s₀ n).SameStored (s'.inodes p) := by
  obtain ⟨hsmall, hno⟩ := htree.number n hn
  have hsame := hw.same hset.watching n
  refine (hw.inodeOpen hset.table hsmall (hsame.iNo.symm.trans hno)).mono ?_
  rintro p s' ⟨hw', hstored⟩
  exact ⟨hw', hsame.trans hstored⟩

theorem getParentDirInodeNr_runs (hset : s₀.Settled K held) (htree : Tree K s₀ dirs) (hw : Watching K s₀ held 0 s) {n p : ℕ} (hn : n ∈ dirs)
    (hup : UpLink K s₀ n p) (io : Buffer) :
    Runs (getParentDirInodeNr K n io) s fun p' s' => p' = p ∧ Watching K s₀ held 0 s' := by
  unfold getParentDirInodeNr
  refine Runs.bind (hw.reopen hset htree hn) ?_
  rintro q s₁ ⟨hw₁, hsame⟩
  have hblock := hsame.iSectors 0 (by omega)
  refine Runs.get (Runs.assert ?_ ?_)
  · rw [← hblock]
    exact hup.data
  refine Runs.bind hw₁.inodeClose ?_
  intro _ s₂ hw₂
  rw [← hblock]
  refine Runs.bind (liftKern_runs ((ideRead_runs (sectorRange_one.mpr hup.onDisk) io s₂.kern).after fun _ _ => ideRead_holds)) ?_
  rintro b _ ⟨k, ⟨-, hk, -, -, hholds⟩, rfl⟩
  rw [hw₂.disk] at hholds
  have hentry := hholds.entryAt (show 1 < 21 by omega)
  have hno : (DirEntry.load b.bytes 24).iNo = p := (congrArg Entry.iNo hentry).trans hup.iNo
  have htype : (DirEntry.load b.bytes 24).fType = .directory := (congrArg Entry.fType hentry).trans hup.fType
  refine Runs.assert ⟨?_, htype⟩ (Runs.pure ⟨hno, hw₂.kern hk⟩)
  rw [hno]
  exact hup.small

theorem getParentDirInodeNr_ok (hset : s₀.Settled K held) (htree : Tree K s₀ dirs) (hw : Watching K s₀ held 0 s) {n p : ℕ} (hn : n ∈ dirs)
    {io : Buffer} {s' : Fs} (h : getParentDirInodeNr K n io s = .ok (p, s')) : UpLink K s₀ n p ∧ Watching K s₀ held 0 s' := by
  have hup : UpLink K s₀ n p := by
    unfold getParentDirInodeNr at h
    simp only [bind_ok, get_ok, assert_ok, pure_ok, liftKern_ok] at h
    obtain ⟨q, s₁, h1, _, _, ⟨rfl, rfl⟩, _, _, ⟨hdata, rfl⟩, _, s₂, h2, b, _, ⟨k, h3, rfl⟩, _, _, ⟨⟨hsmall, htype⟩, rfl⟩, rfl, rfl⟩ := h
    obtain ⟨hw₁, hsame⟩ := (hw.reopen hset htree hn).returned h1
    have hw₂ := hw₁.inodeClose.returned h2
    have hblock := hsame.iSectors 0 (by omega)
    rw [← hblock] at hdata h3
    obtain ⟨hrange, -, -⟩ := ideRead_ok h3
    obtain ⟨-, -, -, hholds⟩ := ideRead_holds h3
    rw [hw₂.disk] at hholds
    have hentry := hholds.entryAt (show 1 < 21 by omega)
    exact ⟨hdata, sectorRange_one.mp hrange, (congrArg Entry.iNo hentry).symm, (congrArg Entry.fType hentry).symm.trans htype, hsmall⟩
  exact ⟨hup, ((getParentDirInodeNr_runs hset htree hw hn hup io).returned h).2⟩

theorem nameFrom_stop {m : Memory} {n n' a : ℕ} (h : (nameFrom m n a).length < n) (hn : n ≤ n') : nameFrom m n' a = nameFrom m n a := by
  induction n generalizing a n' with
  | zero => omega
  | succ n ih =>
    obtain ⟨n', rfl⟩ : ∃ i, n' = i + 1 := ⟨n' - 1, by omega⟩
    unfold nameFrom at h ⊢
    split_ifs at h ⊢
    · rfl
    · rw [ih (by simpa using h) (by omega)]

/-- What the search of `get_child_dir_name` returns. -/
def ChildFound (d : Memory) (inode : Inode) (n : ℕ) : Option Name → Prop
  | none => ∀ pos, Slot d inode pos → (entryAt d (slotAddr d inode pos)).iNo ≠ n
  | some name => ∃ pos, ChildAt d inode n pos ∧ name = (entryAt d (slotAddr d inode pos)).name

theorem childInBlocks_found {inode : Inode} {blocks : ℕ → ℕ} {n more idx : ℕ} {io : Buffer} {r : Option Name} {k k' : Kern}
    (hk : K.sb.dirEntrySize = 24) (hs : SlotsOk k.disk inode) (hblocks : ∀ i < 140, blocks i = blockAddr k.disk inode i)
    (hmore : idx + more ≤ 140) (hrest : ∀ pos, idx + more ≤ pos.1 → ¬ Slot k.disk inode pos)
    (hbefore : ∀ pos, pos.1 < idx → Slot k.disk inode pos → (entryAt k.disk (slotAddr k.disk inode pos)).iNo ≠ n)
    (h : childInBlocks K blocks n more idx io k = .ok (r, k')) : HeapOnly k k' ∧ ChildFound k.disk inode n r := by
  induction more generalizing idx io k with
  | zero =>
    simp only [childInBlocks, pure_ok] at h
    obtain ⟨rfl, rfl⟩ := h
    refine ⟨HeapOnly.refl _, fun pos hpos => hbefore pos ?_ hpos⟩
    by_contra hlt
    exact hrest pos (by omega) hpos
  | succ more ih =>
    have hidx : idx < 140 := by omega
    unfold childInBlocks at h
    by_cases hz : blocks idx = 0
    · rw [if_pos hz] at h
      refine ih hs hblocks (by omega) (fun pos hp => hrest pos (by omega)) (fun pos hp hpos => ?_) h
      by_cases heq : pos.1 = idx
      · have hne := hpos.2.2
        rw [heq, ← hblocks idx hidx] at hne
        exact absurd hz hne
      · exact hbefore pos (by omega) hpos
    · rw [if_neg hz, bind_ok] at h
      obtain ⟨b, k1, hr, h⟩ := h
      obtain ⟨hk1, -, -, hholds⟩ := ideRead_holds hr
      rw [hblocks idx hidx] at hz hholds
      have hper : dirEntrysPerSec K = 21 := by rw [dirEntrysPerSec, hk]
      rw [hper] at h
      have hslots : ∀ j < 21, (DirEntry.load b.bytes (24 * j)).iNo = (entryAt k.disk (slotAddr k.disk inode (idx, j))).iNo := by
        intro j hj
        rw [load_iNo, hholds.entryAt hj]
        rfl
      cases hf : firstSlot 21 fun i => (DirEntry.load b.bytes (24 * i)).iNo = n with
      | some j =>
        obtain ⟨hj, hmatch, hfirst⟩ := firstSlot_some.mp hf
        simp only [hf, pure_ok] at h
        obtain ⟨rfl, rfl⟩ := h
        have hslot : Slot k.disk inode (idx, j) := ⟨hidx, hj, hz⟩
        refine ⟨hk1, (idx, j), ⟨hslot, ?_, ?_⟩, ?_⟩
        · rw [← hslots j hj]
          exact of_decide_eq_true hmatch
        · rintro ⟨p, i⟩ hb hpos
          rcases hb with hb | ⟨rfl, hb⟩
          · exact hbefore _ hb hpos
          · rw [← hslots i hpos.2.1]
            exact of_decide_eq_false (hfirst i hb)
        · have hname := congrArg Entry.name (hholds.entryAt hj)
          have hlen := (hs _ hslot).1
          change nameFrom b.bytes 16 (24 * j) = (entryAt k.disk (slotAddr k.disk inode (idx, j))).name at hname
          rw [← hname] at hlen ⊢
          exact nameFrom_stop hlen (by omega)
      | none =>
        simp only [hf] at h
        have hnone := firstSlot_none.mp hf
        rw [← hk1.disk] at hs hblocks hrest
        have hbefore' : ∀ pos, pos.1 < idx + 1 → Slot k1.disk inode pos → (entryAt k1.disk (slotAddr k1.disk inode pos)).iNo ≠ n := by
          rintro ⟨p, j⟩ hp hpos
          rw [hk1.disk] at hpos ⊢
          by_cases heq : p = idx
          · subst heq
            rw [← hslots j hpos.2.1]
            exact of_decide_eq_false (hnone j hpos.2.1)
          · exact hbefore _ (by simp only at hp ⊢; omega) hpos
        obtain ⟨hk', hl⟩ := ih hs hblocks (by omega) (fun pos hp => hrest pos (by omega)) hbefore' h
        rw [hk1.disk] at hl
        exact ⟨hk1.trans hk', hl⟩

theorem childInBlocks_runs {blocks : ℕ → ℕ} {n more idx : ℕ} (io : Buffer) (k : Kern) (hdisk : ∀ i < 140, blocks i ≤ maxLba)
    (hmore : idx + more ≤ 140) : Runs (childInBlocks K blocks n more idx io) k fun _ _ => True := by
  induction more generalizing idx io k with
  | zero => exact Runs.pure trivial
  | succ more ih =>
    unfold childInBlocks
    split_ifs with hz
    · exact ih io k (by omega)
    · refine Runs.bind (ideRead_runs (sectorRange_one.mpr (hdisk idx (by omega))) io k) ?_
      rintro b k1 -
      split
      · exact Runs.pure trivial
      · exact ih _ k1 (by omega)

theorem childSearch_runs (hset : s₀.Settled K held) (htree : Tree K s₀ dirs) {p n : ℕ} (hp : p ∈ dirs) {inode : Inode}
    (hsame : (theInode K s₀ p).SameStored inode) {k : Kern} (hdisk : k.disk = s₀.kern.disk) {blocks : ℕ → ℕ}
    (hblocks : ∀ i < 140, blocks i = blockAddr k.disk inode i) (io : Buffer) :
    Runs (childInBlocks K blocks n (if inode.iSectors 12 ≠ 0 then 140 else 12) 0 io) k fun r k' => HeapOnly k k' ∧
      ChildFound s₀.kern.disk (theInode K s₀ p) n r := by
  obtain ⟨hmap, hslots, honDisk⟩ := hsame.slotMap k.disk
  rw [← hdisk]
  have hs : SlotsOk k.disk inode := by
    apply hslots
    rw [hdisk]
    exact htree.slots p hp
  have hd : OnDisk k.disk inode := by
    apply honDisk
    rw [hdisk]
    exact htree.onDisk p hp
  have hle : ∀ i < 140, blocks i ≤ maxLba := by
    intro i hi
    have := hd i (by omega)
    rw [refAddr_block _ _ hi] at this
    rw [hblocks i hi]
    exact this
  have hcount : 0 + (if inode.iSectors 12 ≠ 0 then 140 else 12) ≤ 140 := by split_ifs <;> omega
  have hrest : ∀ pos, 0 + (if inode.iSectors 12 ≠ 0 then 140 else 12) ≤ pos.1 → ¬ Slot k.disk inode pos := by
    rintro pos hge ⟨hlt, -, hb⟩
    split_ifs at hge with htable
    · omega
    · unfold blockAddr at hb
      rw [if_neg (by omega), if_pos (not_not.mp htable)] at hb
      exact hb rfl
  refine ((childInBlocks_runs io k hle hcount).after fun r k' hrun =>
    childInBlocks_found hset.entrySize hs hblocks hcount hrest (fun _ hlt => absurd hlt (Nat.not_lt_zero _)) hrun).mono ?_
  rintro r k' ⟨-, hk', hfound⟩
  refine ⟨hk', ?_⟩
  have hblock := hsame.blockAddr k.disk
  cases r with
  | none =>
    intro pos hpos
    simp only [ChildFound, Slot, slotAddr, hblock] at hfound hpos ⊢
    exact hfound pos hpos
  | some name =>
    obtain ⟨pos, ⟨hslot, hno, hfirst⟩, hname⟩ := hfound
    simp only [Slot, slotAddr, hblock] at hslot hno hfirst hname
    exact ⟨pos, ⟨hslot, hno, hfirst⟩, hname⟩

theorem getChildDirName_found (hset : s₀.Settled K held) (htree : Tree K s₀ dirs) (hw : Watching K s₀ held 0 s) {p n : ℕ} (hp : p ∈ dirs)
    {path : Path} {io : Buffer} {r : Option Path} {s' : Fs} (h : getChildDirName K p n path io s = .ok (r, s')) :
    Watching K s₀ held 0 s' ∧ ((r = none ∧ ∀ name, ¬ Called K s₀ p n name) ∨ ∃ name, Called K s₀ p n name ∧ r = some (path ++ slash :: name)) := by
  unfold getChildDirName at h
  rw [bind_ok] at h
  obtain ⟨q, s₁, h1, h⟩ := h
  obtain ⟨hw₁, hsame⟩ := (hw.reopen hset htree hp).returned h1
  simp only [bind_ok, get_ok, liftKern_ok] at h
  obtain ⟨_, _, ⟨rfl, rfl⟩, blocks, _, ⟨k, h2, rfl⟩, _, s₂, h3, found, _, ⟨k₃, h4, rfl⟩, h⟩ := h
  obtain ⟨rfl, hblocks⟩ := allDirBlocks_ok h2
  have hw₂ := hw₁.inodeClose.returned h3
  have hdisk : s₂.kern.disk = s₁.kern.disk := hw₂.disk.trans hw₁.disk.symm
  rw [← hdisk] at hblocks
  obtain ⟨hk, hfound⟩ := (childSearch_runs hset htree hp hsame hw₂.disk hblocks io).returned h4
  cases found with
  | none =>
    simp only [pure_ok] at h
    obtain ⟨rfl, rfl⟩ := h
    refine ⟨hw₂.kern hk, .inl ⟨rfl, ?_⟩⟩
    rintro name ⟨pos, hat, -⟩
    exact hfound pos hat.slot hat.iNo
  | some name =>
    simp only [bind_ok, bound_ok, pure_ok] at h
    obtain ⟨_, _, ⟨-, rfl⟩, rfl, rfl⟩ := h
    exact ⟨hw₂.kern hk, .inr ⟨name, hfound, rfl⟩⟩

theorem getChildDirName_runs (hset : s₀.Settled K held) (htree : Tree K s₀ dirs) (hw : Watching K s₀ held 0 s) {p n : ℕ} (hp : p ∈ dirs)
    {name : Name} (hname : Called K s₀ p n name) {path : Path} (hfit : (path ++ slash :: name).length < maxPathLen) (io : Buffer) :
    Runs (getChildDirName K p n path io) s fun r s' => r = some (path ++ slash :: name) ∧ Watching K s₀ held 0 s' := by
  have hrun : Runs (getChildDirName K p n path io) s fun _ _ => True := by
    unfold getChildDirName
    refine Runs.bind (hw.reopen hset htree hp) ?_
    rintro q s₁ ⟨hw₁, hsame⟩
    have hd := (hsame.slotMap s₀.kern.disk).2.2 (htree.onDisk p hp)
    rw [← hw₁.disk] at hd
    refine Runs.get (Runs.bind (liftKern_runs (allDirBlocks_runs hd)) ?_)
    rintro blocks _ ⟨_, ⟨rfl, hblocks⟩, rfl⟩
    refine Runs.bind hw₁.inodeClose ?_
    intro _ s₂ hw₂
    have hdisk : s₂.kern.disk = s₁.kern.disk := hw₂.disk.trans hw₁.disk.symm
    rw [← hdisk] at hblocks
    refine Runs.bind (liftKern_runs (childSearch_runs hset htree hp hsame hw₂.disk hblocks io)) ?_
    rintro found _ ⟨k, ⟨-, hfound⟩, rfl⟩
    cases found with
    | none => exact Runs.pure trivial
    | some name' =>
      obtain rfl : name' = name := Called.unique hfound hname
      exact Runs.bound hfit (Runs.pure trivial)
  refine (hrun.after fun r s' h => getChildDirName_found hset htree hw hp h).mono ?_
  rintro r s' ⟨-, hw', ⟨-, hnone⟩ | ⟨name', hname', rfl⟩⟩
  · exact absurd hname (hnone name)
  · rw [hname'.unique hname]
    exact ⟨rfl, hw'⟩

theorem UpLink.block (hdata : 0 < K.sb.dataStartLba) {n p : ℕ} (h : UpLink K s n p) : (theInode K s n).iSectors 0 ≠ 0 := by
  have := h.data
  omega

theorem climb_ok (hset : s₀.Settled K held) (htree : Tree K s₀ dirs) (hdata : 0 < K.sb.dataStartLba) {io : Buffer} {fuel n : ℕ}
    (hw : Watching K s₀ held 0 s) (hn : n ∈ dirs) {path : Path} {r : Option Path} {s' : Fs} (h : climb K io fuel n path s = .ok (r, s')) :
    Watching K s₀ held 0 s' ∧ ((r = none ∧ ∀ rest, ¬ Climbs K s₀ n rest) ∨ ∃ rest, Climbs K s₀ n rest ∧ r = some (path ++ rest)) := by
  induction fuel generalizing s n path with
  | zero => simp [climb] at h
  | succ fuel ih =>
    unfold climb at h
    split_ifs at h with hroot
    · simp only [pure_ok] at h
      obtain ⟨rfl, rfl⟩ := h
      subst hroot
      exact ⟨hw, .inr ⟨[], .root, by rw [List.append_nil]⟩⟩
    · rw [bind_ok] at h
      obtain ⟨p, s₁, h1, h⟩ := h
      obtain ⟨hup, hw₁⟩ := getParentDirInodeNr_ok hset htree hw hn h1
      have hp := hup.mem htree hn (hup.block hdata)
      rw [bind_ok] at h
      obtain ⟨found, s₂, h2, h⟩ := h
      obtain ⟨hw₂, ⟨rfl, hnone⟩ | ⟨name, hname, rfl⟩⟩ := getChildDirName_found hset htree hw₁ hp h2
      · simp only [pure_ok] at h
        obtain ⟨rfl, rfl⟩ := h
        refine ⟨hw₂, .inl ⟨rfl, ?_⟩⟩
        intro rest hclimbs
        cases hclimbs with
        | root => exact hroot rfl
        | up _ hup' hname' _ =>
          obtain rfl := hup.unique hup'
          exact hnone _ hname'
      · obtain ⟨hw', ⟨rfl, hnone⟩ | ⟨rest, hrest, rfl⟩⟩ := ih hw₂ hp h
        · refine ⟨hw', .inl ⟨rfl, ?_⟩⟩
          intro rest hclimbs
          cases hclimbs with
          | root => exact hroot rfl
          | up _ hup' _ hrest' =>
            obtain rfl := hup.unique hup'
            exact hnone _ hrest'
        · refine ⟨hw', .inr ⟨slash :: name ++ rest, .up hroot hup hname hrest, ?_⟩⟩
          rw [List.append_assoc]

theorem climb_runs (hset : s₀.Settled K held) (htree : Tree K s₀ dirs) (hdata : 0 < K.sb.dataStartLba) {io : Buffer} {n : ℕ} {rest : Path}
    (hclimbs : Climbs K s₀ n rest) {fuel : ℕ} (hw : Watching K s₀ held 0 s) (hn : n ∈ dirs) {path : Path}
    (hfit : (path ++ rest).length < maxPathLen) (hfuel : rest.length < fuel) : Runs (climb K io fuel n path) s fun _ _ => True := by
  induction hclimbs generalizing s path fuel with
  | root =>
    obtain ⟨fuel, rfl⟩ : ∃ i, fuel = i + 1 := ⟨fuel - 1, by simp only [List.length_nil] at hfuel; omega⟩
    exact Runs.pure trivial
  | @up n p name rest hroot hup hname _ ih =>
    simp only [List.length_append, List.length_cons] at hfit hfuel
    obtain ⟨fuel, rfl⟩ : ∃ i, fuel = i + 1 := ⟨fuel - 1, by omega⟩
    unfold climb
    rw [if_neg hroot]
    refine Runs.bind (getParentDirInodeNr_runs hset htree hw hn hup io) ?_
    rintro _ s₁ ⟨rfl, hw₁⟩
    have hp := hup.mem htree hn (hup.block hdata)
    refine Runs.bind (getChildDirName_runs hset htree hw₁ hp hname ?_ io) ?_
    · simp only [List.length_append, List.length_cons]
      omega
    · rintro _ s₂ ⟨rfl, hw₂⟩
      apply ih hw₂ hp
      · simp only [List.length_append, List.length_cons]
        omega
      · omega

end

theorem lastName_append {front name : Path} (h : slash ∉ name) : lastName (front ++ slash :: name) = some name := by
  unfold lastName
  rw [if_pos (by simp), List.reverse_append, List.reverse_cons, List.append_assoc, List.takeWhile_append_of_pos]
  · simp
  · intro c hc
    rw [decide_eq_true_eq]
    rintro rfl
    exact h (List.mem_reverse.mp hc)

theorem strrchr_append {front name : Path} (h : slash ∉ name) : strrchr (front ++ slash :: name) = some (front, slash :: name) := by
  unfold strrchr
  rw [lastName_append h]
  simp

/-- The string `path` stands at the beginning of the buffer. -/
def UserBuffer.Says (buf : UserBuffer) (path : Path) : Prop := ∀ i ≤ path.length, buf.bytes i = ofList path i

theorem UserBuffer.Says.string_eq {buf : UserBuffer} {path : Path} (h : buf.Says path) (h0 : 0 ∉ path) (hlen : path.length < maxPathLen) :
    buf.string = path := by
  have hname : nameFrom buf.bytes (path.length + 1) 0 = path := by
    apply nameFrom_ofList h0 (by omega)
    intro i hi
    rw [Nat.zero_add]
    exact h i (by omega)
  unfold UserBuffer.string
  rw [nameFrom_stop (by rw [hname]; omega) (show path.length + 1 ≤ maxPathLen by omega), hname]

theorem UserBuffer.Says.strcpy {buf : UserBuffer} {path : Path} (h : buf.Says path) (last : Path) :
    (buf.strcpy path.length last).Says (path ++ last) := by
  intro i hi
  rw [List.length_append] at hi
  unfold UserBuffer.strcpy
  dsimp only
  by_cases hlt : i < path.length
  · rw [blit_outside _ _ (.inl hlt), h i (by omega)]
    exact (List.getD_append path last 0 i hlt).symm
  · obtain ⟨j, rfl⟩ : ∃ j, i = path.length + j := ⟨i - path.length, by omega⟩
    rw [blit_inside _ _ (by omega)]
    have hright := List.getD_append_right path last 0 (path.length + j) (by omega)
    rw [Nat.add_sub_cancel_left] at hright
    exact hright.symm

def slashed (names : List Name) : Path := names.flatMap (slash :: ·)

theorem slashed_append (names names' : List Name) : slashed (names ++ names') = slashed names ++ slashed names' := List.flatMap_append

theorem slashed_single (name : Name) : slashed [name] = slash :: name := by simp [slashed]

theorem slashed_length (names : List Name) : names.length ≤ (slashed names).length := by
  induction names with
  | nil => exact Nat.zero_le _
  | cons name names ih =>
    have hcons : slashed (name :: names) = slash :: name ++ slashed names := rfl
    rw [hcons, List.length_append, List.length_cons, List.length_cons]
    omega

theorem exists_slashed {path : Path} (h : path = [] ∨ path.head? = some slash) : ∃ names, path = slashed names ∧ ∀ name ∈ names, slash ∉ name := by
  have hsplit : ∀ path : Path, ∃ first names, path = first ++ slashed names ∧ slash ∉ first ∧ ∀ name ∈ names, slash ∉ name := by
    intro path
    induction path with
    | nil => exact ⟨[], [], rfl, List.not_mem_nil, fun _ h => by cases h⟩
    | cons c rest ih =>
      obtain ⟨first, names, rfl, hfirst, hnames⟩ := ih
      by_cases hc : c = slash
      · refine ⟨[], first :: names, ?_, List.not_mem_nil, ?_⟩
        · rw [hc]
          rfl
        · intro name hname
          rcases List.mem_cons.mp hname with rfl | hname
          · exact hfirst
          · exact hnames name hname
      · refine ⟨c :: first, names, rfl, ?_, hnames⟩
        intro hmem
        rcases List.mem_cons.mp hmem with he | hmem
        · exact hc he.symm
        · exact hfirst hmem
  obtain ⟨first, names, rfl, hfirst, hnames⟩ := hsplit path
  cases first with
  | nil => exact ⟨names, rfl, hnames⟩
  | cons c first =>
    rcases h with h | h
    · cases h
    · have hc : c = slash := by simpa using h
      exact absurd List.mem_cons_self (hc ▸ hfirst)

theorem reversePath_says {names : List Name} (hslash : ∀ name ∈ names, slash ∉ name) (h0 : 0 ∉ slashed names) {fuel : ℕ}
    (hfuel : names.length ≤ fuel) {buf : UserBuffer} {path : Path} (hbuf : buf.Says path) (hpath : 0 ∉ path)
    (hlen : path.length + (slashed names).length < maxPathLen) :
    (reversePath fuel (slashed names) buf).Says (path ++ slashed names.reverse) ∧ ∀ i, i ∈ (reversePath fuel (slashed names) buf).stores ↔
      i ∈ buf.stores ∨ names ≠ [] ∧ path.length ≤ i ∧ i ≤ path.length + (slashed names).length := by
  induction names using List.reverseRecOn generalizing fuel buf path with
  | nil =>
    have hstop : reversePath fuel (slashed []) buf = buf := by
      cases fuel <;> rfl
    rw [hstop]
    simpa [slashed] using hbuf
  | append_singleton names name ih =>
    rw [slashed_append, slashed_single] at h0 hlen ⊢
    rw [List.length_append, List.length_singleton] at hfuel
    obtain ⟨fuel, rfl⟩ : ∃ i, fuel = i + 1 := ⟨fuel - 1, by omega⟩
    have hname : slash ∉ name := hslash name (by simp)
    unfold reversePath
    rw [strrchr_append hname]
    dsimp only
    rw [List.length_append, List.length_cons] at hlen ⊢
    rw [hbuf.string_eq hpath (by omega)]
    rw [List.mem_append, not_or] at h0
    have hdone : 0 ∉ path ++ slash :: name := by
      rw [List.mem_append, not_or]
      exact ⟨hpath, h0.2⟩
    obtain ⟨hspells, hstores⟩ := ih (fun n hn => hslash n (List.mem_append_left _ hn)) h0.1
      (Nat.le_of_succ_le_succ hfuel) (hbuf.strcpy (slash :: name)) hdone
      (by rw [List.length_append, List.length_cons]; omega)
    refine ⟨?_, ?_⟩
    · rw [List.reverse_append, List.reverse_singleton, slashed_append, slashed_single, ← List.append_assoc]
      exact hspells
    · intro i
      rw [hstores i]
      unfold UserBuffer.strcpy
      dsimp only
      rw [Finset.mem_union, Finset.mem_Icc, List.length_append, List.length_cons, or_assoc]
      apply or_congr_right
      by_cases hnil : names = []
      · subst hnil
        simp [slashed]
      · simp only [ne_eq, hnil, not_false_eq_true, true_and, List.append_eq_nil_iff, List.cons_ne_nil, and_false]
        omega

section

variable {K : Kernel} {s s' : Fs} {held : Multiset Ptr} {dirs : Set ℕ}

theorem Climbs.zero {n : ℕ} {path : Path} (h : Climbs K s n path) : 0 ∉ path := by
  induction h with
  | root => exact List.not_mem_nil
  | up _ _ hname _ ih =>
    obtain ⟨pos, -, rfl⟩ := hname
    rw [List.cons_append, List.mem_cons, List.mem_append]
    rintro (h | h | h)
    · exact absurd h (by decide)
    · exact zero_notMem_nameFrom _ _ _ h
    · exact ih h

theorem Climbs.slashed {n : ℕ} {path : Path} (h : Climbs K s n path) :
    ∃ names, path = ElephantOS.slashed names ∧ ∀ name ∈ names, slash ∉ name := by
  apply exists_slashed
  cases h with
  | root => exact .inl rfl
  | up => exact .inr rfl

theorem Climbs.pos {n : ℕ} {path : Path} (h : Climbs K s n path) (hn : n ≠ 0) : 0 < path.length := by
  cases h with
  | root => exact absurd rfl hn
  | up => simp

theorem getChildDirName_fits {p n : ℕ} {path full : Path} {io : Buffer} (h : getChildDirName K p n path io s = .ok (some full, s')) :
    full.length < maxPathLen := by
  simp only [getChildDirName, bind_ok] at h
  obtain ⟨_, _, -, _, _, -, _, _, -, _, _, -, found, s₁, -, h⟩ := h
  cases found with
  | none => simp at h
  | some name =>
    simp only [bind_ok, bound_ok, pure_ok, Option.some.injEq] at h
    obtain ⟨_, _, ⟨hfit, -⟩, rfl, -⟩ := h
    exact hfit

theorem climb_fits {io : Buffer} {fuel n : ℕ} {path full : Path} (hpath : path.length < maxPathLen)
    (h : climb K io fuel n path s = .ok (some full, s')) : full.length < maxPathLen := by
  induction fuel generalizing s n path with
  | zero => simp [climb] at h
  | succ fuel ih =>
    unfold climb at h
    split_ifs at h
    · simp only [pure_ok, Option.some.injEq] at h
      rwa [← h.1]
    · rw [bind_ok] at h
      obtain ⟨p, s₁, -, h⟩ := h
      rw [bind_ok] at h
      obtain ⟨found, s₂, h2, h⟩ := h
      cases found with
      | none => simp at h
      | some path' => exact ih (getChildDirName_fits h2) h

theorem sysFree_live {p : Ptr} {u : Unit} {k k' : Kern} (h : sysFree p k = .ok (u, k')) : ∀ b ∈ k'.heap.live, b.1 ≠ p := by
  unfold sysFree at h
  split_ifs at h
  simp only [Except.ok.injEq, Prod.mk.injEq, true_and] at h
  subst h
  intro b hb
  simpa using (List.mem_filter.mp hb).2

theorem clear_spells {buf : UserBuffer} {size : ℕ} (h : 0 < size) : (buf.clear size).Says [] := by
  intro i hi
  obtain rfl : i = 0 := Nat.le_zero.mp hi
  have hzero := @blit_inside buf.bytes zeros 0 _ _ h
  exact hzero

/-- The block that the first request of a call gets. -/
def firstBlockPtr (k : Kern) : Ptr := ⟨k.heap.next, k.pool⟩

theorem sysGetcwd_below (hset : s.Settled K held) (htree : Tree K s dirs) (hdata : 0 < K.sb.dataStartLba) {task size : ℕ}
    (hcwd : s.cwdInodeNr task ∈ dirs) (hroot : s.cwdInodeNr task ≠ 0) {buf : UserBuffer} {r : Bool × UserBuffer}
    (h : sysGetcwd K task size buf s = .ok (r, s')) :
    Watching K s held 0 s' ∧ (∀ b ∈ s'.kern.heap.live, b.1 ≠ firstBlockPtr s.kern) ∧
      ((r = (false, buf.clear size) ∧ ∀ path, ¬ Climbs K s (s.cwdInodeNr task) path) ∨
      ∃ path, Climbs K s (s.cwdInodeNr task) path ∧ path.length ≤ size ∧ r.1 = true ∧
        (∀ i, i ∈ r.2.stores ↔ i ∈ buf.stores ∨ i < size ∨ i ≤ path.length) ∧
        ∀ names, path = slashed names → (∀ name ∈ names, slash ∉ name) → r.2.Says (slashed names.reverse)) := by
  unfold sysGetcwd at h
  rw [bind_ok] at h
  obtain ⟨io, s₁, h1, h⟩ := h
  obtain ⟨k₁, ⟨rfl, hk₁⟩, rfl⟩ := (liftKern_runs (sysMalloc_runs 512 hset.plenty)).returned h1
  have hw := hset.watching.kern hk₁
  simp only [bind_ok, get_ok, assert_ok] at h
  obtain ⟨_, _, ⟨rfl, rfl⟩, _, _, ⟨-, rfl⟩, h⟩ := h
  rw [if_neg hroot, bind_ok] at h
  obtain ⟨found, s₂, h2, h⟩ := h
  obtain ⟨hw₂, hfound⟩ := climb_ok hset htree hdata hw hcwd h2
  rcases hfound with ⟨rfl, hnone⟩ | ⟨path, hpath, rfl⟩
  · simp only [bind_ok, liftKern_ok, pure_ok] at h
    obtain ⟨_, _, ⟨k, h3, rfl⟩, rfl, rfl⟩ := h
    exact ⟨hw₂.kern (sysFree_ok h3), sysFree_live h3, .inl ⟨rfl, hnone⟩⟩
  · simp only [List.nil_append, bind_ok, assert_ok, liftKern_ok, pure_ok] at h
    obtain ⟨_, _, ⟨hsize, rfl⟩, _, _, ⟨k, h3, rfl⟩, rfl, rfl⟩ := h
    have hpos := hpath.pos hroot
    have hfits := climb_fits (by decide) h2
    rw [List.nil_append] at hfits
    have hturn : ∀ names, path = slashed names → (∀ name ∈ names, slash ∉ name) →
        (reversePath path.length path (buf.clear size)).Says (slashed names.reverse) ∧
          ∀ i, i ∈ (reversePath path.length path (buf.clear size)).stores ↔ i ∈ (buf.clear size).stores ∨ names ≠ [] ∧ i ≤ path.length := by
      rintro names rfl hslash
      have hturned := reversePath_says hslash hpath.zero (slashed_length names) (@clear_spells buf size (by omega)) List.not_mem_nil
        (by rw [List.length_nil]; omega)
      simpa only [List.nil_append, List.length_nil, Nat.zero_le, true_and, Nat.zero_add] using hturned
    refine ⟨hw₂.kern (sysFree_ok h3), sysFree_live h3, .inr ⟨path, hpath, hsize, rfl, ?_, fun names hn hslash => (hturn names hn hslash).1⟩⟩
    intro i
    obtain ⟨names, rfl, hslash⟩ := hpath.slashed
    have hne : names ≠ [] := by
      rintro rfl
      exact absurd hpos (by decide)
    rw [(hturn names rfl hslash).2 i]
    unfold UserBuffer.clear
    rw [Finset.mem_union, Finset.mem_range, or_assoc, and_iff_right hne]

theorem sysGetcwd_runs (hset : s.Settled K held) (htree : Tree K s dirs) (hdata : 0 < K.sb.dataStartLba) {task size : ℕ}
    (hcwd : s.cwdInodeNr task ∈ dirs) (hroot : s.cwdInodeNr task ≠ 0) {path : Path} (hclimbs : Climbs K s (s.cwdInodeNr task) path)
    (hlen : path.length < maxPathLen) (hsize : path.length ≤ size) (buf : UserBuffer) :
    Runs (sysGetcwd K task size buf) s fun _ _ => True := by
  unfold sysGetcwd
  refine Runs.bind (liftKern_runs (sysMalloc_runs 512 hset.plenty)) ?_
  rintro _ _ ⟨k₁, ⟨rfl, hk₁⟩, rfl⟩
  have hw := hset.watching.kern hk₁
  refine Runs.get (Runs.assert (htree.number _ hcwd).1 ?_)
  dsimp only
  rw [if_neg hroot]
  refine Runs.bind ((climb_runs hset htree hdata hclimbs hw hcwd (by simpa using hlen) (by omega)).after fun r s' h =>
    climb_ok hset htree hdata hw hcwd h) ?_
  rintro found s₂ ⟨-, hw₂, hfound⟩
  have hpool : s₂.kern.pool = s.kern.pool := hw₂.pool
  rcases hfound with ⟨rfl, hnone⟩ | ⟨path', hpath', rfl⟩
  · exact absurd hclimbs (hnone path)
  · refine Runs.assert ?_ ?_
    · rw [List.nil_append, hpath'.unique hclimbs]
      exact hsize
    · refine Runs.bind (liftKern_runs (sysFree_runs hpool.symm)) ?_
      intro _ _ _
      exact Runs.pure trivial

theorem sysGetcwd_root (hplenty : s.kern.Plenty) {task : ℕ} (hroot : s.cwdInodeNr task = 0) (size : ℕ) (buf : UserBuffer) :
    ∃ k, HeapOnly s.kern k ∧ (firstBlockPtr s.kern, 512) ∈ k.heap.live ∧
      sysGetcwd K task size buf s = .ok ((true, (buf.store 0 slash).store 1 0), { s with kern := k }) := by
  have hgrant : s.kern.heap.grant s.kern.heap.next = true := hplenty _
  have hmalloc : sysMalloc 512 s.kern = .ok (some ⟨firstBlockPtr s.kern, 512, zeros⟩, { s.kern with heap := { s.kern.heap with
      live := (firstBlockPtr s.kern, 512) :: s.kern.heap.live, next := s.kern.heap.next + 1 } }) := if_pos hgrant
  refine ⟨_, (sysMalloc_ok hmalloc).1, List.mem_cons_self, ?_⟩
  unfold sysGetcwd
  rw [bind_eq (liftKern_eq hmalloc)]
  simp only [bind_ok, get_ok, assert_ok]
  refine ⟨_, _, ⟨rfl, rfl⟩, (), _, ⟨?_, rfl⟩, ?_⟩
  · dsimp only
    omega
  · dsimp only
    rw [if_pos hroot]
    rfl

end

/-- Sector of the block of directory `n` in `oneDir`. -/
def oneDirBlock (n : ℕ) : ℕ := smallPartition.sb.dataStartLba + n

/-- A file system with one directory, `/d`, in which every task works. -/
def oneDir : Fs where
  kern := { Kern.blank with
    disk := blit (blit (blit zeros (inodeAddr smallPartition 1)
        (wordBytes (Inode.pureWords { (inodeInit 1 Inode.zero).setSector 0 (oneDirBlock 1) with iSize := 48 })) inodeSize)
      (oneDirBlock 0 * 512) (blit (dotEntries 0 0) 48 (DirEntry.bytes ⟨nameBytes [100], 1, .directory⟩) 24) 512)
      (oneDirBlock 1 * 512) (dotEntries 1 0) 512
    blockBitmap := ⟨512, Function.update zeros 0 3⟩
    inodeBitmap := ⟨512, Function.update zeros 0 3⟩
    heap := ⟨[(⟨0, .kernel⟩, inodeSize)], 1, fun _ => true, false⟩ }
  inodes := fun _ => { Inode.zero with
    iSize := 72
    iOpenCnts := 1
    iSectors := Function.update (fun _ => 0) 0 (oneDirBlock 0)
    inodeTag := ⟨.linked, .linked⟩ }
  openInodes := [⟨0, .kernel⟩]
  rootDir := ⟨0, .kernel⟩
  fileTable := fun _ => ⟨0, 0, none⟩
  fdTable := fun _ j => if j < 3 then j else -1
  cwdInodeNr := fun _ => 1

def oneDirEntries (n : ℕ) : List Entry :=
  if n = 0 then [⟨dot, 0, .directory⟩, ⟨dotDot, 0, .directory⟩, ⟨[100], 1, .directory⟩] else [⟨dot, n, .directory⟩, ⟨dotDot, 0, .directory⟩]

theorem oneDir_settled : oneDir.Settled smallPartition.kernel {⟨0, .kernel⟩} := by
  have hmem : ∀ p, p ∈ oneDir.openInodes ↔ p = ⟨0, .kernel⟩ := fun p => List.mem_singleton
  refine ⟨⟨by decide, by decide⟩, rfl, ⟨by decide, ?_, ?_, ?_⟩, fun _ => rfl, ?_, ?_, ?_, List.mem_singleton_self _, rfl⟩
  · intro p hp
    rw [(hmem p).mp hp]
    decide
  · intro p hp
    rw [(hmem p).mp hp, Multiset.count_singleton_self]
    rfl
  · intro p
    rw [hmem, Multiset.mem_singleton]
  · intro p hp
    rw [(hmem p).mp hp]
  · intro p _
    rfl
  · intro p hp q hq _
    rw [(hmem p).mp hp, (hmem q).mp hq]

theorem oneDir_sectors : ∀ n < 2, ∀ p < 13, (theInode smallPartition.kernel oneDir n).iSectors p = if p = 0 then oneDirBlock n else 0 := by
  decide +kernel

theorem oneDir_slots : ∀ n < 2, ∀ j < 21, (entryAt oneDir.kern.disk (oneDirBlock n * 512 + 24 * j)).name.length < 16 ∧
    ((entryAt oneDir.kern.disk (oneDirBlock n * 512 + 24 * j)).fType = .unknown ↔
      (entryAt oneDir.kern.disk (oneDirBlock n * 512 + 24 * j)).name = []) := by
  decide +kernel

theorem oneDir_live : ∀ n < 2, ∀ j < 21, (entryAt oneDir.kern.disk (oneDirBlock n * 512 + 24 * j)).fType ≠ .unknown →
    entryAt oneDir.kern.disk (oneDirBlock n * 512 + 24 * j) ∈ oneDirEntries n := by
  decide +kernel

theorem oneDir_block {n : ℕ} (hn : n < 2) (p : ℕ) :
    blockAddr oneDir.kern.disk (theInode smallPartition.kernel oneDir n) p = if p = 0 then oneDirBlock n else 0 := by
  have h12 := oneDir_sectors n hn 12 (by omega)
  rw [if_neg (by omega)] at h12
  unfold blockAddr
  by_cases hp : p < 12
  · rw [if_pos hp, oneDir_sectors n hn p (by omega)]
  · rw [if_neg hp, if_pos h12, if_neg (by omega)]

theorem oneDir_slot {n : ℕ} (hn : n < 2) {pos : ℕ × ℕ} (h : Slot oneDir.kern.disk (theInode smallPartition.kernel oneDir n) pos) :
    pos.1 = 0 ∧ pos.2 < 21 ∧
      slotAddr oneDir.kern.disk (theInode smallPartition.kernel oneDir n) pos = oneDirBlock n * 512 + 24 * pos.2 := by
  obtain ⟨-, hj, hb⟩ := h
  rw [oneDir_block hn] at hb
  split_ifs at hb with hp
  · refine ⟨hp, hj, ?_⟩
    rw [slotAddr, oneDir_block hn, if_pos hp]
  · exact absurd rfl hb

theorem oneDir_slot_zero {n j : ℕ} (hn : n < 2) (hj : j < 21) : Slot oneDir.kern.disk (theInode smallPartition.kernel oneDir n) (0, j) ∧
    slotAddr oneDir.kern.disk (theInode smallPartition.kernel oneDir n) (0, j) = oneDirBlock n * 512 + 24 * j := by
  have hblock := oneDir_block hn 0
  rw [if_pos rfl] at hblock
  have hne : ∀ n < 2, oneDirBlock n ≠ 0 := by decide
  refine ⟨⟨by simp, hj, ?_⟩, ?_⟩
  · rw [hblock]
    exact hne n hn
  · rw [slotAddr, hblock]

theorem oneDir_entries {n : ℕ} (hn : n < 2) {pos : ℕ × ℕ} {e : Entry} (h : entries smallPartition.kernel oneDir n pos = some e) :
    e ∈ oneDirEntries n := by
  obtain ⟨hslot, hlive, rfl⟩ := slotMap_eq_some.mp h
  obtain ⟨-, hj, haddr⟩ := oneDir_slot hn hslot
  rw [haddr] at hlive ⊢
  exact oneDir_live n hn pos.2 hj hlive

theorem oneDir_at {n : ℕ} (hn : n < 2) : ∀ e ∈ oneDirEntries n, ∃ pos, entries smallPartition.kernel oneDir n pos = some e := by
  have hplaces : ∀ n < 2, ∀ e ∈ oneDirEntries n, e.fType ≠ .unknown ∧ ∃ j < 21, entryAt oneDir.kern.disk (oneDirBlock n * 512 + 24 * j) = e := by
    decide +kernel
  intro e he
  obtain ⟨hlive, j, hj, hat⟩ := hplaces n hn e he
  obtain ⟨hslot, haddr⟩ := oneDir_slot_zero hn hj
  refine ⟨(0, j), slotMap_eq_some.mpr ⟨hslot, hlive, ?_⟩⟩
  rw [haddr]
  exact hat

theorem oneDir_tree : Tree smallPartition.kernel oneDir {n | n < 2} := by
  refine ⟨Nat.zero_lt_two, ?_, ?_, ?_, ?_, ?_, ?_⟩
  · have hnumber : ∀ n < 2, n < 4096 ∧ (theInode smallPartition.kernel oneDir n).iNo = n := by decide +kernel
    exact hnumber
  · intro n hn pos hslot
    obtain ⟨-, hj, haddr⟩ := oneDir_slot hn hslot
    rw [haddr]
    exact oneDir_slots n hn pos.2 hj
  · intro n hn p _
    have hle : ∀ n < 2, oneDirBlock n ≤ maxLba := by decide
    have h12 := oneDir_sectors n hn 12 (by omega)
    rw [if_neg (by omega)] at h12
    unfold refAddr
    rw [oneDir_block hn]
    split_ifs
    · rw [h12]
      exact Nat.zero_le _
    · exact hle n hn
    · exact Nat.zero_le _
  · intro n hn pos pos' e e' he he' hname
    have hunique : ∀ n < 2, ∀ e ∈ oneDirEntries n, ∀ e' ∈ oneDirEntries n, e.name = e'.name → e = e' := by decide
    exact hunique n hn e (oneDir_entries hn he) e' (oneDir_entries hn he') hname
  · intro n hn pos e he
    have hkinds : ∀ n < 2, ∀ e ∈ oneDirEntries n, e.fType = .directory ∧ e.iNo < 2 := by decide
    exact .inl (hkinds n hn e (oneDir_entries hn he))
  · intro name hname
    have hdots : ∀ name ∈ [dot, dotDot], ∃ e ∈ oneDirEntries 0, e.name = name ∧ e.fType = .directory ∧ e.iNo = 0 := by decide
    obtain ⟨e, he, hn, hd, h0⟩ := hdots name hname
    obtain ⟨pos, hpos⟩ := oneDir_at Nat.zero_lt_two e he
    exact ⟨pos, e, hpos, hn, hd, h0⟩

end ElephantOS
