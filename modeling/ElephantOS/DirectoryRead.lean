import ElephantOS.DirectoryAdd

/-! `dir_read` of `fs/dir.c`, and that it goes through the live entries of a directory. -/

namespace ElephantOS

open ByteMemory HaltingState

/-- The part of a `struct dir` that `dir_read` changes. -/
structure DirStream where
  dirPos : ℕ
  dirBuf : Buffer

section

variable (K : Kernel)

/-- The loop of `dir_read` over the slots of a block, from slot `i` on: the slot of the entry to return and the position counted so far. -/
def readSlots (bytes : Memory) (dirPos : ℕ) : ℕ → ℕ → ℕ → KernM (Option ℕ × ℕ)
  | 0, _, curDirEntryPos => return (none, curDirEntryPos)
  | more + 1, i, curDirEntryPos =>
    if (DirEntry.load bytes (24 * i)).fType ≠ .unknown then
      if curDirEntryPos < dirPos then readSlots bytes dirPos more (i + 1) (u32 (curDirEntryPos + K.sb.dirEntrySize))
      else do
        assert (curDirEntryPos = dirPos)
        return (some i, curDirEntryPos)
    else readSlots bytes dirPos more (i + 1) curDirEntryPos

/-- The loop of `dir_read` over the blocks, for `more` blocks from `blockIdx` on. -/
def readDirBlocks (dirInode : Inode) (allBlocks : ℕ → ℕ) : ℕ → ℕ → ℕ → DirStream → KernM (Option DirEntry × DirStream)
  | 0, _, _, dir => return (none, dir)
  | more + 1, blockIdx, curDirEntryPos, dir =>
    if dirInode.iSize ≤ dir.dirPos then return (none, dir)
    else if allBlocks blockIdx = 0 then readDirBlocks dirInode allBlocks more (blockIdx + 1) curDirEntryPos dir
    else do
      let dirE ← ideRead (allBlocks blockIdx) { dir.dirBuf with bytes := blit dir.dirBuf.bytes 0 zeros 512 } 1
      let (found, curDirEntryPos) ← readSlots K dirE.bytes dir.dirPos (dirEntrysPerSec K) 0 curDirEntryPos
      match found with
      | some i => return (some (DirEntry.load dirE.bytes (24 * i)), ⟨u32 (dir.dirPos + K.sb.dirEntrySize), dirE⟩)
      | none => readDirBlocks dirInode allBlocks more (blockIdx + 1) curDirEntryPos { dir with dirBuf := dirE }

def dirRead (dirInode : Inode) (dir : DirStream) : KernM (Option DirEntry × DirStream) := do
  let allBlocks ← allDirBlocks dirInode
  readDirBlocks K dirInode allBlocks (if dirInode.iSectors 12 ≠ 0 then 140 else 12) 0 0 dir

def sysReaddir (dirInode : Inode) (dir : Option DirStream) : KernM (Option DirEntry × DirStream) := do
  let some dir := dir | halt .assertion
  dirRead K dirInode dir

end

def sysRewinddir (dir : DirStream) : DirStream := { dir with dirPos := 0 }

/-- An entry in memory as its name, its inode number and its type. -/
def DirEntry.entry (e : DirEntry) : Entry := ⟨nameAt e.filename 0, e.iNo, e.fType⟩

theorem DirEntry.entry_load (m : Memory) (a : ℕ) : (DirEntry.load m a).entry = entryAt m a := by
  have hname : nameAt (slice m a) 0 = nameAt m a := by
    apply nameFrom_congr
    intro i hi
    rw [Nat.zero_add]
    rfl
  simp only [DirEntry.entry, DirEntry.load, hname, entryAt]

/-- The live entries of the slots `i .. i + n - 1` of block `p`. -/
def liveSlots (d : Memory) (inode : Inode) (p i n : ℕ) : List Entry := (List.range' i n).filterMap fun j => slotMap d inode (p, j)

/-- The live entries of the blocks `p .. p + n - 1`, in block and slot order. -/
def liveBlocks (d : Memory) (inode : Inode) (p n : ℕ) : List Entry := (List.range' p n).flatMap fun q => liveSlots d inode q 0 21

/-- All live entries of a directory. -/
def liveEntries (d : Memory) (inode : Inode) : List Entry := liveBlocks d inode 0 140

section

variable {K : Kernel} {k : Kern} {inode : Inode}

theorem liveSlots_succ (d : Memory) (p i n : ℕ) : liveSlots d inode p i (n + 1) =
    (slotMap d inode (p, i)).toList ++ liveSlots d inode p (i + 1) n := by
  unfold liveSlots
  rw [List.range'_succ, List.filterMap_cons]
  cases slotMap d inode (p, i) <;> rfl

theorem liveBlocks_succ (d : Memory) (p n : ℕ) :
    liveBlocks d inode p (n + 1) = liveSlots d inode p 0 21 ++ liveBlocks d inode (p + 1) n := by
  unfold liveBlocks
  rw [List.range'_succ, List.flatMap_cons]

theorem liveSlots_empty {d : Memory} {p : ℕ} (h : blockAddr d inode p = 0) (i n : ℕ) : liveSlots d inode p i n = [] := by
  apply List.filterMap_eq_nil_iff.mpr
  intro j _
  apply slotMap_eq_none.mpr
  rintro ⟨-, -, hb⟩
  exact absurd h hb

theorem readSlots_runs {bytes : Memory} {p i more c m : ℕ} (hk : K.sb.dirEntrySize = 24) (hp : p < 140)
    (hb : blockAddr k.disk inode p ≠ 0) (hbytes : Holds bytes k.disk (blockAddr k.disk inode p)) (hi : i + more ≤ 21) (hc : c ≤ m)
    (hm : 24 * m < 2 ^ 31) :
    Runs (readSlots K bytes (24 * m) more i (24 * c)) k fun r k' => k' = k ∧
      ((m < c + (liveSlots k.disk inode p i more).length ∧ ∃ j < 21, r.1 = some j ∧
          (liveSlots k.disk inode p i more)[m - c]? = some (entryAt bytes (24 * j))) ∨
        (c + (liveSlots k.disk inode p i more).length ≤ m ∧ r = (none, 24 * (c + (liveSlots k.disk inode p i more).length)))) := by
  induction more generalizing i c with
  | zero => exact Runs.pure ⟨rfl, .inr ⟨hc, rfl⟩⟩
  | succ more ih =>
    have hslot : Slot k.disk inode (p, i) := ⟨hp, by simp only; omega, hb⟩
    have hent : entryAt bytes (24 * i) = entryAt k.disk (slotAddr k.disk inode (p, i)) := hbytes.entryAt (by omega)
    unfold readSlots
    rw [liveSlots_succ, load_fType, hent]
    split_ifs with hlive hlt
    · have hM : slotMap k.disk inode (p, i) = some (entryAt k.disk (slotAddr k.disk inode (p, i))) := slotMap_eq_some.mpr ⟨hslot, hlive, rfl⟩
      have hu : u32 (24 * c + K.sb.dirEntrySize) = 24 * (c + 1) := by
        rw [hk, u32, Nat.mod_eq_of_lt (by omega)]
        omega
      rw [hM, hu]
      refine (ih (by omega) (show c + 1 ≤ m by omega)).mono ?_
      rintro r k' ⟨rfl, hcase⟩
      refine ⟨rfl, ?_⟩
      simp only [Option.toList_some, List.cons_append, List.nil_append, List.length_cons]
      rcases hcase with ⟨hfound, j, hj, hr, hget⟩ | ⟨hnone, hr⟩
      · refine .inl ⟨by omega, j, hj, hr, ?_⟩
        rw [show m - c = m - (c + 1) + 1 by omega, List.getElem?_cons_succ]
        exact hget
      · refine .inr ⟨by omega, ?_⟩
        rw [hr]
        congr 1
        omega
    · have hM : slotMap k.disk inode (p, i) = some (entryAt k.disk (slotAddr k.disk inode (p, i))) := slotMap_eq_some.mpr ⟨hslot, hlive, rfl⟩
      obtain rfl : c = m := by omega
      refine Runs.assert rfl (Runs.pure ⟨rfl, .inl ?_⟩)
      rw [hM]
      refine ⟨by simp, i, by omega, rfl, ?_⟩
      simp [hent]
    · have hM : slotMap k.disk inode (p, i) = none := slotMap_eq_none.mpr fun _ => not_not.mp hlive
      rw [hM]
      exact ih (by omega) hc

theorem readDirBlocks_runs {blocks : ℕ → ℕ} {more idx c m : ℕ} {dir : DirStream} (hk : K.sb.dirEntrySize = 24)
    (hblocks : ∀ i < 140, blocks i = blockAddr k.disk inode i) (hd : OnDisk k.disk inode) (hmore : idx + more ≤ 140)
    (hpos : dir.dirPos = 24 * m) (hm : 24 * m < 2 ^ 31) (hsize : dir.dirPos < inode.iSize) (hc : c ≤ m)
    (hfound : m < c + (liveBlocks k.disk inode idx more).length) :
    Runs (readDirBlocks K inode blocks more idx (24 * c) dir) k fun r k' => HeapOnly k k' ∧
      r.1.map DirEntry.entry = (liveBlocks k.disk inode idx more)[m - c]? ∧ r.2.dirPos = 24 * (m + 1) := by
  induction more generalizing idx c dir k with
  | zero =>
    have : (liveBlocks k.disk inode idx 0).length = 0 := rfl
    omega
  | succ more ih =>
    have hidx : idx < 140 := by omega
    unfold readDirBlocks
    rw [if_neg (by omega)]
    rw [liveBlocks_succ] at hfound ⊢
    rw [List.length_append] at hfound
    by_cases hz : blocks idx = 0
    · rw [if_pos hz]
      have hempty : liveSlots k.disk inode idx 0 21 = [] := liveSlots_empty (by rw [← hblocks idx hidx]; exact hz) 0 21
      rw [hempty, List.nil_append]
      rw [hempty] at hfound
      exact ih hblocks hd (by omega) hpos hsize hc (by simpa using hfound)
    · rw [if_neg hz]
      have hon : blocks idx ≤ maxLba := by
        rw [hblocks idx hidx, ← refAddr_block _ _ hidx]
        exact hd idx (by omega)
      refine Runs.bind ((ideRead_runs (sectorRange_one.mpr hon) _ k).after fun b k' hr => ideRead_holds hr) ?_
      rintro b k1 ⟨⟨-, hk1⟩, -, -, -, hholds⟩
      rw [hblocks idx hidx] at hz hholds
      have hper : dirEntrysPerSec K = 21 := by rw [dirEntrysPerSec, hk]
      rw [← hk1.disk] at hz hholds hfound hblocks hd ⊢
      rw [hper, hpos]
      refine Runs.bind (readSlots_runs hk hidx hz hholds (le_refl _) hc hm) ?_
      rintro ⟨found, cur⟩ _ ⟨rfl, hcase⟩
      rcases hcase with ⟨hlt, j, hj, hr, hget⟩ | ⟨hle, hr⟩
      · dsimp only at hr
        subst hr
        refine Runs.pure ⟨hk1, ?_, ?_⟩
        · rw [List.getElem?_append_left (by omega), hget, Option.map_some, DirEntry.entry_load]
        · dsimp only
          rw [hk, u32, Nat.mod_eq_of_lt (by omega)]
          omega
      · rw [Prod.mk.injEq] at hr
        obtain ⟨rfl, rfl⟩ := hr
        refine (@ih _ (idx + 1) _ ⟨24 * m, b⟩ hblocks hd (by omega) rfl (by dsimp only; omega) hle (by omega)).mono ?_
        rintro r k' ⟨hk', hentry, hnext⟩
        refine ⟨hk1.trans hk', ?_, hnext⟩
        rw [List.getElem?_append_right (by omega), hentry]
        congr 1
        omega

theorem liveBlocks_add (d : Memory) (p m n : ℕ) : liveBlocks d inode p (m + n) = liveBlocks d inode p m ++ liveBlocks d inode (p + m) n := by
  unfold liveBlocks
  rw [← List.range'_append_1, List.flatMap_append]

theorem liveEntries_direct {d : Memory} (h : inode.iSectors 12 = 0) : liveEntries d inode = liveBlocks d inode 0 12 := by
  have hrest : liveBlocks d inode 12 128 = [] := by
    apply List.flatMap_eq_nil_iff.mpr
    intro q hq
    rw [List.mem_range'_1] at hq
    apply liveSlots_empty
    rw [blockAddr, if_neg (by omega), if_pos h]
  rw [liveEntries, show 140 = 12 + 128 from rfl, liveBlocks_add, hrest, List.append_nil]

theorem liveSlots_length (inode : Inode) (d : Memory) (p i n : ℕ) : (liveSlots d inode p i n).length ≤ n := by
  have := List.length_filterMap_le (fun j => slotMap d inode (p, j)) (List.range' i n)
  rwa [List.length_range'] at this

theorem liveBlocks_length (d : Memory) (p n : ℕ) : (liveBlocks d inode p n).length ≤ 21 * n := by
  induction n generalizing p with
  | zero => exact Nat.zero_le _
  | succ n ih =>
    have h1 := liveSlots_length inode d p 0 21
    have h2 := ih (p + 1)
    rw [liveBlocks_succ, List.length_append]
    omega

/-- A directory whose size counts its live entries. -/
structure Counted (K : Kernel) (d : Memory) (inode : Inode) : Prop where
  entrySize : K.sb.dirEntrySize = 24
  onDisk : OnDisk d inode
  size : inode.iSize = 24 * (liveEntries d inode).length

theorem dirRead_runs {m : ℕ} {dir : DirStream} (h : Counted K k.disk inode) (hm : m ≤ (liveEntries k.disk inode).length)
    (hpos : dir.dirPos = 24 * m) : Runs (dirRead K inode dir) k fun r k' => HeapOnly k k' ∧
      r.1.map DirEntry.entry = (liveEntries k.disk inode)[m]? ∧ r.2.dirPos = 24 * min (m + 1) (liveEntries k.disk inode).length := by
  have hsize := h.size
  have hlen : (liveEntries k.disk inode).length ≤ 21 * 140 := liveBlocks_length k.disk 0 140
  unfold dirRead
  refine Runs.bind (allDirBlocks_runs h.onDisk) ?_
  rintro blocks k1 ⟨hk1, hblocks⟩
  rw [hk1]
  by_cases hlt : m < (liveEntries k.disk inode).length
  · obtain ⟨n, hn, hlive⟩ : ∃ n ≤ 140, (if inode.iSectors 12 ≠ 0 then 140 else 12) = n ∧ liveEntries k.disk inode = liveBlocks k.disk inode 0 n := by
      by_cases ht : inode.iSectors 12 = 0
      · exact ⟨12, by omega, if_neg (not_not.mpr ht), liveEntries_direct ht⟩
      · exact ⟨140, by omega, if_pos ht, rfl⟩
    rw [hlive.1]
    rw [hlive.2] at hlt hsize ⊢
    refine (readDirBlocks_runs h.entrySize hblocks h.onDisk (by omega) hpos (by omega) (by omega) (Nat.zero_le m) (by omega)).mono ?_
    rintro r k' ⟨hk', hentry, hnext⟩
    refine ⟨hk', hentry, ?_⟩
    rw [hnext]
    omega
  · -- the position is at the end: the first round of the loop returns
    obtain rfl : m = (liveEntries k.disk inode).length := by omega
    have hloop : ∀ more, 0 < more → readDirBlocks K inode blocks more 0 0 dir = pure (none, dir) := by
      intro more hmore
      obtain ⟨more, rfl⟩ : ∃ n, more = n + 1 := ⟨more - 1, by omega⟩
      unfold readDirBlocks
      rw [if_pos (by omega)]
    rw [hloop _ (by split_ifs <;> omega)]
    refine Runs.pure ⟨HeapOnly.refl _, by simp, ?_⟩
    rw [hpos]
    omega

structure Unmodified (d d' : Memory) (inode : Inode) : Prop where
  blocks : ∀ p < 141, refAddr d' inode p = refAddr d inode p
  slots : ∀ pos, Slot d inode pos → SameOn d d' (slotAddr d inode pos) 24

theorem Unmodified.slotMap {d d' : Memory} (h : Unmodified d d' inode) : slotMap d' inode = ElephantOS.slotMap d inode := by
  funext pos
  by_cases hp : pos.1 < 140
  · have hb := h.blocks pos.1 (by omega)
    rw [refAddr_block _ _ hp, refAddr_block _ _ hp] at hb
    exact slotMap_congr hb (h.slots pos)
  · rw [slotMap_eq_none.mpr fun hs => absurd hs.1 hp, slotMap_eq_none.mpr fun hs => absurd hs.1 hp]

theorem Unmodified.counted {d d' : Memory} (h : Unmodified d d' inode) (hc : Counted K d inode) : Counted K d' inode where
  entrySize := hc.entrySize
  onDisk := by
    intro p hp
    rw [h.blocks p hp]
    exact hc.onDisk p hp
  size := by
    rw [hc.size]
    simp only [liveEntries, liveBlocks, liveSlots, h.slotMap]

end

/-- Calls of `sys_readdir` on a directory that was rewound, with what they returned, while others leave the directory as it is. -/
inductive ReaddirRun (K : Kernel) (inode : Inode) (k : Kern) (dir : DirStream) : List (Option Entry) → Kern → DirStream → Prop
  | rewound : ReaddirRun K inode k dir [] k (sysRewinddir dir)
  | other {es : List (Option Entry)} {k1 k2 : Kern} {dir1 : DirStream} (hrun : ReaddirRun K inode k dir es k1 dir1)
      (h : Unmodified k1.disk k2.disk inode) : ReaddirRun K inode k dir es k2 dir1
  | read {es : List (Option Entry)} {k1 k2 : Kern} {dir1 dir2 : DirStream} {e : Option DirEntry}
      (hrun : ReaddirRun K inode k dir es k1 dir1) (h : sysReaddir K inode (some dir1) k1 = .ok ((e, dir2), k2)) :
      ReaddirRun K inode k dir (es ++ [e.map DirEntry.entry]) k2 dir2

structure Enumerated (K : Kernel) (inode : Inode) (live : List Entry) (es : List (Option Entry)) (k : Kern) (dir : DirStream) : Prop where
  counted : Counted K k.disk inode
  same : liveEntries k.disk inode = live
  results : es = (List.range es.length).map fun i => live[i]?
  pos : dir.dirPos = 24 * min es.length live.length

section

variable {K : Kernel} {inode : Inode} {live : List Entry} {es : List (Option Entry)} {k k' : Kern} {dir dir' : DirStream}

theorem Enumerated.readdir (h : Enumerated K inode live es k dir) : Runs (sysReaddir K inode (some dir)) k fun r k' =>
    Enumerated K inode live (es ++ [r.1.map DirEntry.entry]) k' r.2 := by
  have hlive := h.same
  refine (dirRead_runs h.counted (m := min es.length live.length) (by rw [hlive]; omega) h.pos).mono ?_
  rintro ⟨e, dir'⟩ k' ⟨hk, hentry, hpos⟩
  rw [hlive] at hentry hpos
  dsimp only at hentry hpos
  have hget : e.map DirEntry.entry = live[es.length]? := by
    rw [hentry]
    by_cases hlt : es.length < live.length
    · rw [Nat.min_eq_left (by omega)]
    · rw [Nat.min_eq_right (by omega), List.getElem?_eq_none (le_refl _), List.getElem?_eq_none (by omega)]
  refine ⟨by rw [hk.disk]; exact h.counted, by rw [hk.disk]; exact hlive, ?_, ?_⟩
  · rw [List.length_append, List.length_singleton, List.range_succ, List.map_append, ← h.results, hget]
    rfl
  · rw [List.length_append, List.length_singleton]
    dsimp only
    omega

theorem ReaddirRun.enumerated (hc : Counted K k.disk inode) (hrun : ReaddirRun K inode k dir es k' dir') :
    Enumerated K inode (liveEntries k.disk inode) es k' dir' := by
  induction hrun with
  | rewound => exact ⟨hc, rfl, rfl, by simp [sysRewinddir]⟩
  | other _ h ih =>
    refine ⟨h.counted ih.counted, ?_, ih.results, ih.pos⟩
    rw [← ih.same]
    simp only [liveEntries, liveBlocks, liveSlots, h.slotMap]
  | read _ h ih =>
    obtain ⟨r, k2, hread, hnext⟩ := ih.readdir
    obtain ⟨rfl, rfl⟩ := ok_inj h hread
    exact hnext

theorem ReaddirRun.exists_reads (hc : Counted K k.disk inode) (dir : DirStream) (n : ℕ) :
    ∃ k' dir', ReaddirRun K inode k dir ((List.range n).map fun i => (liveEntries k.disk inode)[i]?) k' dir' := by
  induction n with
  | zero => exact ⟨k, sysRewinddir dir, .rewound⟩
  | succ n ih =>
    obtain ⟨k', dir', hrun⟩ := ih
    obtain ⟨⟨e, dir''⟩, k'', hread, hnext⟩ := (hrun.enumerated hc).readdir
    have hlonger := hrun.read hread
    have hres := hnext.results
    rw [List.length_append, List.length_map, List.length_range, List.length_singleton] at hres
    rw [hres] at hlonger
    exact ⟨k'', dir'', hlonger⟩

end

/-- After `sys_rewinddir` the results of `sys_readdir` are the live entries in block and slot order, each once, and then `NULL` for ever;
no call stops the machine. -/
theorem readdir_enumerates (K : Kernel) (inode : Inode) (k : Kern) (dir : DirStream) (hc : Counted K k.disk inode)
    (es : List (Option Entry)) (k' : Kern) (dir' : DirStream) (hrun : ReaddirRun K inode k dir es k' dir') :
    es = (List.range es.length).map (fun i => (liveEntries k.disk inode)[i]?) ∧
      ∃ e dir'' k'', sysReaddir K inode (some dir') k' = .ok ((e, dir''), k'') ∧
        e.map DirEntry.entry = (liveEntries k.disk inode)[es.length]? := by
  have henum := hrun.enumerated hc
  refine ⟨henum.results, ?_⟩
  obtain ⟨⟨e, dir''⟩, k'', hread, hnext⟩ := henum.readdir
  refine ⟨e, dir'', k'', hread, ?_⟩
  have hres := hnext.results
  rw [List.length_append, List.length_singleton, List.range_succ, List.map_append, ← henum.results] at hres
  simpa using List.append_cancel_left hres

theorem oneFile_counted : Counted smallPartition.kernel oneFile.kern.disk (oneFile.inodes ⟨0, .kernel⟩) where
  entrySize := rfl
  onDisk := oneFile_openDir.onDisk
  size := by decide +kernel

theorem readdir_enumerates_third : ∃ k' dir', ReaddirRun smallPartition.kernel (oneFile.inodes ⟨0, .kernel⟩) oneFile.kern
      ⟨48, ⟨0, .kernel⟩, 512, zeros⟩ [some ⟨dot, 0, .directory⟩, some ⟨dotDot, 0, .directory⟩] k' dir' ∧
    ∃ e dir k, sysReaddir smallPartition.kernel (oneFile.inodes ⟨0, .kernel⟩) (some dir') k' = .ok ((e, dir), k) ∧
      e.map DirEntry.entry = some ⟨[102], 1, .regular⟩ := by
  obtain ⟨k', dir', hrun⟩ := ReaddirRun.exists_reads oneFile_counted ⟨48, ⟨0, .kernel⟩, 512, zeros⟩ 2
  obtain ⟨-, e, dir, k, hread, hentry⟩ := readdir_enumerates _ _ _ _ oneFile_counted _ k' dir' hrun
  have hfirst : (List.range 2).map (fun i => (liveEntries oneFile.kern.disk (oneFile.inodes ⟨0, .kernel⟩))[i]?) =
      [some ⟨dot, 0, .directory⟩, some ⟨dotDot, 0, .directory⟩] := by
    decide +kernel
  rw [hfirst] at hrun
  refine ⟨k', dir', hrun, e, dir, k, hread, hentry.trans ?_⟩
  rw [List.length_map, List.length_range]
  decide +kernel

end ElephantOS
