import ElephantOS.DirectoryView
import ElephantOS.PartitionFormat

namespace ElephantOS

open ByteMemory HaltingState

def countIndirect (allBlocks : ℕ → ℕ) : ℕ → ℕ → ℕ → Option ℕ
  | 0, _, _ => none
  | fuel + 1, indirectBlockIdx, indirectBlocks =>
    if indirectBlockIdx < 140 then
      countIndirect allBlocks fuel indirectBlockIdx (if allBlocks indirectBlockIdx ≠ 0 then indirectBlocks + 1 else indirectBlocks)
    else some indirectBlocks

def freeDirBlockWithin (K : Kernel) (fuel : ℕ) (allBlocks : ℕ → ℕ) (blockIdx : ℕ) (dirInode : Inode) : KernM Inode := do
  let blockBitmapIdx := allBlocks blockIdx - K.sb.dataStartLba
  blockBitmapSet blockBitmapIdx false
  bitmapSync K blockBitmapIdx .blockBitmap
  if blockIdx < 12 then return dirInode.setSector blockIdx 0
  else
    match countIndirect allBlocks fuel 12 0 with
    | none => halt .hang
    | some indirectBlocks =>
      assert (1 ≤ indirectBlocks)
      if 1 < indirectBlocks then
        writeTable (dirInode.iSectors 12) (Function.update allBlocks blockIdx 0)
        return dirInode
      else
        let blockBitmapIdx := dirInode.iSectors 12 - K.sb.dataStartLba
        blockBitmapSet blockBitmapIdx false
        bitmapSync K blockBitmapIdx .blockBitmap
        return dirInode.setSector 12 0

theorem countIndirect_none (allBlocks : ℕ → ℕ) (fuel : ℕ) {idx : ℕ} (hidx : idx < 140) (n : ℕ) :
    countIndirect allBlocks fuel idx n = none := by
  induction fuel generalizing n with
  | zero => rfl
  | succ fuel ih =>
    rw [countIndirect, if_pos hidx]
    exact ih _

theorem freeDirBlockWithin_eq (K : Kernel) (fuel : ℕ) (allBlocks : ℕ → ℕ) (blockIdx : ℕ) (dirInode : Inode) :
    freeDirBlockWithin K fuel allBlocks blockIdx dirInode = freeDirBlock K blockIdx (allBlocks blockIdx) dirInode := by
  unfold freeDirBlockWithin freeDirBlock
  rw [countIndirect_none allBlocks fuel (by decide) 0]

def ordinary (m : Memory) (a : ℕ) : Bool :=
  decide ((DirEntry.load m a).fType ≠ .unknown) && !sameString m a dot && !sameString m a dotDot

def isDot (m : Memory) (a : ℕ) : Bool := decide ((DirEntry.load m a).fType ≠ .unknown) && sameString m a dot

def wanted (m : Memory) (inodeNo a : ℕ) : Bool := ordinary m a && decide ((DirEntry.load m a).iNo = inodeNo)

def ordinaries (d : Memory) (base : ℕ) (is : List ℕ) : ℕ := is.countP fun i => ordinary d (base + 24 * i)

def wanteds (d : Memory) (inodeNo base : ℕ) (is : List ℕ) : ℕ := is.countP fun i => wanted d inodeNo (base + 24 * i)

def dotted (d : Memory) (base : ℕ) (is : List ℕ) : Bool := is.any fun i => isDot d (base + 24 * i)

def BlockScan.over (scan : BlockScan) (d : Memory) (inodeNo base : ℕ) (is : List ℕ) : BlockScan where
  isDirFirstBlock := scan.isDirFirstBlock || dotted d base is
  dirEntryCnt := scan.dirEntryCnt + ordinaries d base is
  dirEntryFound := scan.dirEntryFound <|> is.find? fun i => wanted d inodeNo (base + 24 * i)

def BlockScan.held (scan : BlockScan) : ℕ := if scan.dirEntryFound = none then 0 else 1

theorem BlockScan.over_nil (scan : BlockScan) (d : Memory) (inodeNo base : ℕ) : scan.over d inodeNo base [] = scan := by
  obtain ⟨first, cnt, found⟩ := scan
  simp [BlockScan.over, dotted, ordinaries]

theorem BlockScan.over_cons (scan : BlockScan) (d : Memory) (inodeNo base i : ℕ) (is : List ℕ) :
    scan.over d inodeNo base (i :: is) = (scan.over d inodeNo base [i]).over d inodeNo base is := by
  unfold BlockScan.over
  congr 1
  · simp [dotted, Bool.or_assoc]
  · simp only [ordinaries, List.countP_cons, List.countP_nil]
    omega
  · cases scan.dirEntryFound with
    | some j => simp
    | none =>
      by_cases hw : wanted d inodeNo (base + 24 * i) = true
      · simp [hw]
      · simp [hw]

theorem BlockScan.over_congr {scan : BlockScan} {m d : Memory} {inodeNo a b : ℕ} {is : List ℕ}
    (h : ∀ i ∈ is, ordinary m (a + 24 * i) = ordinary d (b + 24 * i) ∧ isDot m (a + 24 * i) = isDot d (b + 24 * i) ∧
      wanted m inodeNo (a + 24 * i) = wanted d inodeNo (b + 24 * i)) :
    scan.over m inodeNo a is = scan.over d inodeNo b is := by
  induction is generalizing scan with
  | nil => rw [BlockScan.over_nil, BlockScan.over_nil]
  | cons i is ih =>
    obtain ⟨⟨hord, hdot, hwanted⟩, hrest⟩ := List.forall_mem_cons.mp h
    have hone : scan.over m inodeNo a [i] = scan.over d inodeNo b [i] := by
      simp [BlockScan.over, dotted, ordinaries, hord, hdot, hwanted]
    rw [scan.over_cons m, scan.over_cons d, hone]
    exact ih hrest

theorem wanteds_cons (d : Memory) (inodeNo base i : ℕ) (is : List ℕ) :
    wanteds d inodeNo base (i :: is) = wanteds d inodeNo base is + if wanted d inodeNo (base + 24 * i) = true then 1 else 0 :=
  List.countP_cons

theorem scanBlock_step (m : Memory) (inodeNo more i : ℕ) (scan : BlockScan) (k : Kern) :
    scanBlock m inodeNo (more + 1) i scan k = if scan.held + wanteds m inodeNo 0 [i] ≤ 1
      then scanBlock m inodeNo more (i + 1) (scan.over m inodeNo 0 [i]) k else .error .assertion := by
  obtain ⟨first, cnt, found⟩ := scan
  have hheld : (⟨first, cnt, found⟩ : BlockScan).held ≤ 1 := by
    unfold BlockScan.held
    split_ifs <;> omega
  rw [scanBlock]
  by_cases hlive : (DirEntry.load m (24 * i)).fType = .unknown
  · simp [hlive, BlockScan.over, wanteds, wanted, ordinaries, ordinary, dotted, isDot, hheld]
  by_cases hdot : sameString m (24 * i) dot = true
  · simp [hlive, hdot, BlockScan.over, wanteds, wanted, ordinaries, ordinary, dotted, isDot, hheld]
  by_cases hdots : sameString m (24 * i) dotDot = true
  · simp [hlive, hdot, hdots, BlockScan.over, wanteds, wanted, ordinaries, ordinary, dotted, isDot, hheld]
  by_cases hno : (DirEntry.load m (24 * i)).iNo = inodeNo
  · cases found with
    | none => simp [hlive, hdot, hdots, hno, BlockScan.over, wanteds, wanted, ordinaries, ordinary, dotted, isDot, BlockScan.held, assert]
    | some j =>
      simp [hlive, hdot, hdots, hno, wanteds, wanted, ordinary, BlockScan.held, assert]
      rfl
  · simp [hlive, hdot, hdots, hno, BlockScan.over, wanteds, wanted, ordinaries, ordinary, dotted, isDot, hheld]

theorem BlockScan.held_over {scan : BlockScan} {d : Memory} {inodeNo base i : ℕ} (h : scan.held + wanteds d inodeNo base [i] ≤ 1) :
    (scan.over d inodeNo base [i]).held = scan.held + wanteds d inodeNo base [i] := by
  obtain ⟨first, cnt, found⟩ := scan
  by_cases hw : wanted d inodeNo (base + 24 * i) = true
  · cases found <;> simp_all [BlockScan.held, BlockScan.over, wanteds]
  · cases found <;> simp_all [BlockScan.held, BlockScan.over, wanteds]

theorem scanBlock_eq (m : Memory) (inodeNo more i : ℕ) (scan : BlockScan) (k : Kern) :
    scanBlock m inodeNo more i scan k = if scan.held + wanteds m inodeNo 0 (List.range' i more) ≤ 1
      then .ok (scan.over m inodeNo 0 (List.range' i more), k) else .error .assertion := by
  induction more generalizing i scan with
  | zero =>
    have hheld : scan.held ≤ 1 := by
      unfold BlockScan.held
      split_ifs <;> omega
    rw [List.range'_zero, BlockScan.over_nil, if_pos (by simpa [wanteds] using hheld)]
    rfl
  | succ more ih =>
    rw [scanBlock_step, List.range'_succ, scan.over_cons m inodeNo 0 i (List.range' (i + 1) more), ih]
    have hcons := wanteds_cons m inodeNo 0 i (List.range' (i + 1) more)
    have hone := wanteds_cons m inodeNo 0 i []
    have hnil : wanteds m inodeNo 0 [] = 0 := rfl
    by_cases hnow : scan.held + wanteds m inodeNo 0 [i] ≤ 1
    · rw [if_pos hnow, BlockScan.held_over hnow, show scan.held + wanteds m inodeNo 0 [i] +
        wanteds m inodeNo 0 (List.range' (i + 1) more) = scan.held + wanteds m inodeNo 0 (i :: List.range' (i + 1) more) by omega]
    · rw [if_neg hnow, if_neg (by omega)]

section

variable {m d : Memory} {lba : ℕ}

theorem Holds.slot (h : Holds m d lba) {i : ℕ} (hi : i < 21) :
    ordinary m (0 + 24 * i) = ordinary d (lba * 512 + 24 * i) ∧ isDot m (0 + 24 * i) = isDot d (lba * 512 + 24 * i) ∧
      ∀ inodeNo, wanted m inodeNo (0 + 24 * i) = wanted d inodeNo (lba * 512 + 24 * i) := by
  have hbytes : ∀ j < 24, m (0 + 24 * i + j) = d (lba * 512 + 24 * i + j) := by
    intro j hj
    rw [Nat.zero_add, h _ (by omega), Nat.add_assoc]
  have hentry : ElephantOS.entryAt m (0 + 24 * i) = ElephantOS.entryAt d (lba * 512 + 24 * i) := by
    rw [Nat.zero_add]
    exact h.entryAt hi
  have hdot : sameString m (0 + 24 * i) dot = sameString d (lba * 512 + 24 * i) dot :=
    sameString_congr fun j hj => hbytes j (by simp [dot] at hj; omega)
  have hdots : sameString m (0 + 24 * i) dotDot = sameString d (lba * 512 + 24 * i) dotDot :=
    sameString_congr fun j hj => hbytes j (by simp [dotDot] at hj; omega)
  have hord : ordinary m (0 + 24 * i) = ordinary d (lba * 512 + 24 * i) := by
    unfold ordinary
    rw [load_fType, load_fType, hentry, hdot, hdots]
  refine ⟨hord, ?_, ?_⟩
  · unfold isDot
    rw [load_fType, load_fType, hentry, hdot]
  · intro inodeNo
    unfold wanted
    rw [hord, load_iNo, load_iNo, hentry]

theorem Holds.scanned (h : Holds m d lba) (inodeNo : ℕ) (k : Kern) :
    scanBlock m inodeNo 21 0 ⟨false, 0, none⟩ k = if wanteds d inodeNo (lba * 512) (List.range 21) ≤ 1
      then .ok ((⟨false, 0, none⟩ : BlockScan).over d inodeNo (lba * 512) (List.range 21), k) else .error .assertion := by
  have hrange : ∀ i ∈ List.range' 0 21, i < 21 := by
    intro i hi
    simpa using hi
  have hwanted : wanteds m inodeNo 0 (List.range' 0 21) = wanteds d inodeNo (lba * 512) (List.range' 0 21) := by
    apply List.countP_congr
    intro i hi
    rw [(h.slot (hrange i hi)).2.2]
  have hover : (⟨false, 0, none⟩ : BlockScan).over m inodeNo 0 (List.range' 0 21) =
      (⟨false, 0, none⟩ : BlockScan).over d inodeNo (lba * 512) (List.range' 0 21) := by
    apply BlockScan.over_congr
    intro i hi
    obtain ⟨hord, hdot, hwanted⟩ := h.slot (hrange i hi)
    exact ⟨hord, hdot, hwanted inodeNo⟩
  rw [scanBlock_eq, hwanted, hover, List.range_eq_range']
  rw [show (⟨false, 0, none⟩ : BlockScan).held = 0 from rfl, Nat.zero_add]

end

def deleteFound (K : Kernel) (blockIdx lba i : ℕ) (ioBuf : Buffer) (scan : BlockScan) (dirInode : Inode) : KernM (Bool × Inode) := do
  assert (1 ≤ scan.dirEntryCnt)
  let dirInode ← eraseEntry K blockIdx lba i ioBuf.bytes scan dirInode
  assert (K.sb.dirEntrySize ≤ dirInode.iSize)
  let dirInode := { dirInode with iSize := dirInode.iSize - K.sb.dirEntrySize }
  inodeSync K dirInode { ioBuf with bytes := blit ioBuf.bytes 0 zeros 1024 }
  return (true, dirInode)

/-- A directory of the mounted partition. -/
structure DirOn (K : Kernel) (k : Kern) (inode : Inode) : Prop where
  entrySize : K.sb.dirEntrySize = 24
  layout : Layout K.toPartition k.blockBitmap.btmpBytesLen
  owns : Owns K.toPartition k inode
  onDisk : OnDisk k.disk inode
  table : TableOnDisk K.toPartition
  number : K.inodeNo inode.iNo < 4096
  size : 24 ≤ inode.iSize

structure Holder (d : Memory) (inode : Inode) (inodeNo p : ℕ) : Prop where
  range : p < 140
  block : blockAddr d inode p ≠ 0
  here : wanteds d inodeNo (blockAddr d inode p * 512) (List.range 21) ≠ 0
  before : ∀ q < p, blockAddr d inode q ≠ 0 → wanteds d inodeNo (blockAddr d inode q * 512) (List.range 21) = 0

def OneEntry (d : Memory) (lba : ℕ) : Prop := ordinaries d (lba * 512) (List.range 21) = 1 ∧ dotted d (lba * 512) (List.range 21) = false

instance (d : Memory) (lba : ℕ) : Decidable (OneEntry d lba) := inferInstanceAs (Decidable (_ ∧ _))

section

variable {K : Kernel} {k k' : Kern} {inode : Inode} {inodeNo : ℕ} {blocks : ℕ → ℕ}

theorem found_none {d : Memory} {base : ℕ} (h : wanteds d inodeNo base (List.range 21) = 0) :
    ((⟨false, 0, none⟩ : BlockScan).over d inodeNo base (List.range 21)).dirEntryFound = none := by
  change (List.range 21).find? (fun i => wanted d inodeNo (base + 24 * i)) = none
  rw [List.find?_eq_none]
  exact List.countP_eq_zero.mp h

theorem found_some {d : Memory} {base : ℕ} (h : wanteds d inodeNo base (List.range 21) ≠ 0) :
    ∃ i, ((⟨false, 0, none⟩ : BlockScan).over d inodeNo base (List.range 21)).dirEntryFound = some i := by
  rw [← Option.isSome_iff_exists, Option.isSome_iff_ne_none]
  intro hnone
  apply h
  change (List.range 21).find? (fun i => wanted d inodeNo (base + 24 * i)) = none at hnone
  rw [List.find?_eq_none] at hnone
  exact List.countP_eq_zero.mpr hnone

theorem deleteBlocks_read (hk : K.sb.dirEntrySize = 24) {more idx : ℕ} (hidx : blocks idx ≠ 0) (hdisk : blocks idx ≤ maxLba)
    (io : Buffer) (k : Kern) :
    ∃ io' k₁, HeapOnly k k₁ ∧ Holds io'.bytes k.disk (blocks idx) ∧ deleteBlocks K inodeNo inode blocks (more + 1) idx io k =
      (do
        let scan ← scanBlock io'.bytes inodeNo 21 0 ⟨false, 0, none⟩
        match scan.dirEntryFound with
        | none => deleteBlocks K inodeNo inode blocks more (idx + 1) io'
        | some i => deleteFound K idx (blocks idx) i io' scan inode : KernM (Bool × Inode)) k₁ := by
  have hslots : dirEntrysPerSec K = 21 := by
    unfold dirEntrysPerSec
    rw [hk]
  obtain ⟨io', k₁, hread, -⟩ := ideRead_runs (sectorRange_one.mpr hdisk) { io with bytes := blit io.bytes 0 zeros 512 } k
  obtain ⟨hheap, -, -, hholds⟩ := ideRead_holds hread
  refine ⟨io', k₁, hheap, hholds, ?_⟩
  rw [deleteBlocks, if_neg hidx, bind_eq hread, hslots]
  rfl

theorem deleteBlocks_skip (hk : K.sb.dirEntrySize = 24) (hdisk : ∀ q < 140, blocks q ≤ maxLba) {p n : ℕ} (hp : p ≤ 140) (hn : n ≤ p)
    (hnone : ∀ q < p, blocks q ≠ 0 → wanteds k.disk inodeNo (blocks q * 512) (List.range 21) = 0) (io : Buffer) :
    ∃ io' k₁, HeapOnly k k₁ ∧ deleteBlocks K inodeNo inode blocks (140 - (p - n)) (p - n) io k =
      deleteBlocks K inodeNo inode blocks (140 - p) p io' k₁ := by
  induction n generalizing k io with
  | zero => exact ⟨io, k, HeapOnly.refl k, rfl⟩
  | succ n ih =>
    have hmore : 140 - (p - (n + 1)) = 140 - (p - n) + 1 := by omega
    have hnext : p - (n + 1) + 1 = p - n := by omega
    by_cases hzero : blocks (p - (n + 1)) = 0
    · obtain ⟨io', k₁, hheap, heq⟩ := ih (by omega) hnone io
      refine ⟨io', k₁, hheap, ?_⟩
      rw [hmore, deleteBlocks, if_pos hzero, hnext, heq]
    · obtain ⟨io₁, k₁, hheap, hholds, heq⟩ := @deleteBlocks_read K inode inodeNo blocks hk (140 - (p - n)) _ hzero
        (hdisk _ (by omega)) io k
      have hwanted := hnone _ (by omega) hzero
      have hscan := hholds.scanned inodeNo k₁
      rw [hwanted, if_pos (by omega)] at hscan
      obtain ⟨io', k₂, hheap', heq'⟩ := @ih k₁ (by omega) (by rw [hheap.disk]; exact hnone) io₁
      refine ⟨io', k₂, hheap.trans hheap', ?_⟩
      rw [hmore, heq, bind_eq hscan, found_none hwanted, hnext]
      exact heq'

theorem wanteds_le_ordinaries (d : Memory) (base : ℕ) (is : List ℕ) : wanteds d inodeNo base is ≤ ordinaries d base is := by
  apply List.countP_mono_left
  intro i _ hw
  unfold wanted at hw
  exact (Bool.and_eq_true _ _ ▸ hw).1

theorem bitmapSync_within {i : ℕ} (h : K.sb.blockBitmapLba + i / 4096 ≤ maxLba) (k : Kern) :
    ∃ k', bitmapSync K i .blockBitmap k = .ok ((), k') := ⟨_, (bitmapSync_block K i () k _).mpr ⟨sectorRange_one.mpr h, rfl⟩⟩

theorem freeDirBlock_eq {lba : ℕ} (hsync : K.sb.blockBitmapLba + (lba - K.sb.dataStartLba) / 4096 ≤ maxLba) (p : ℕ) (k : Kern) :
    ∃ k', freeDirBlock K p lba inode k = if p < 12 then .ok (inode.setSector p 0, k') else .error .hang := by
  obtain ⟨k₁, hrun⟩ := @bitmapSync_within K _ hsync { k with blockBitmap := k.blockBitmap.set (lba - K.sb.dataStartLba) false }
  refine ⟨k₁, ?_⟩
  unfold freeDirBlock blockBitmapSet
  rw [bind_eq (modify_eq _ k), bind_eq hrun]
  split_ifs <;> rfl

theorem eraseEntry_runs {p lba i : ℕ} {m : Memory} {scan : BlockScan} (hp : ¬ (12 ≤ p ∧ scan.dirEntryCnt = 1 ∧ scan.isDirFirstBlock = false))
    (hlba : lba ≤ maxLba) (hsync : K.sb.blockBitmapLba + (lba - K.sb.dataStartLba) / 4096 ≤ maxLba) (k : Kern) :
    Runs (eraseEntry K p lba i m scan inode) k fun inode' _ => inode'.iSize = inode.iSize ∧ inode'.iNo = inode.iNo := by
  unfold eraseEntry
  split_ifs with hone
  · have hp12 : p < 12 := by
      by_contra h
      exact hp ⟨by omega, hone⟩
    obtain ⟨k₁, hfree⟩ := @freeDirBlock_eq K inode lba hsync p k
    refine ⟨inode.setSector p 0, k₁, ?_, ?_⟩
    · rw [hfree, if_pos hp12]
    · unfold Inode.setSector
      rw [if_pos (by omega)]
      exact ⟨rfl, rfl⟩
  · obtain ⟨u, k₁, hwrite, -⟩ := ideWrite_runs (sectorRange_one.mpr hlba) (blit m (24 * i) zeros K.sb.dirEntrySize) k
    refine ⟨inode, k₁, ?_, rfl, rfl⟩
    rw [bind_eq hwrite]
    rfl

theorem eraseEntry_hangs {p lba i : ℕ} {m : Memory} {scan : BlockScan} (hp : 12 ≤ p) (hone : scan.dirEntryCnt = 1 ∧
    scan.isDirFirstBlock = false) (hsync : K.sb.blockBitmapLba + (lba - K.sb.dataStartLba) / 4096 ≤ maxLba) (k : Kern) :
    eraseEntry K p lba i m scan inode k = .error .hang := by
  obtain ⟨k₁, hfree⟩ := @freeDirBlock_eq K inode lba hsync p k
  unfold eraseEntry
  rw [if_pos hone, hfree, if_neg (by omega)]

structure FreedIndirect (K : Kernel) (k : Kern) (inode : Inode) (p : ℕ) (k' : Kern) (inode' : Inode) : Prop where
  alone : (∀ q, 12 ≤ q → q < 140 → q ≠ p → blockAddr k.disk inode q = 0) → inode'.iSectors 12 = 0 ∧
    ∀ i, k'.blockBitmap.scanTest i = (k.blockBitmap.scanTest i && decide (K.sb.dataStartLba + i ≠ blockAddr k.disk inode p) &&
      decide (K.sb.dataStartLba + i ≠ inode.iSectors 12))
  others : (∃ q, 12 ≤ q ∧ q < 140 ∧ q ≠ p ∧ blockAddr k.disk inode q ≠ 0) →
    (∀ i, k'.blockBitmap.scanTest i = (k.blockBitmap.scanTest i && decide (K.sb.dataStartLba + i ≠ blockAddr k.disk inode p))) ∧
      ∀ q < 140, blockAddr k'.disk inode' q = if q = p then 0 else blockAddr k.disk inode q

/-- The deletion comes to its end, and frees a block of the indirect table that it leaves empty. -/
def Deletes (K : Kernel) (inode : Inode) (inodeNo : ℕ) (io : Buffer) (k : Kern) : Prop :=
  ∃ ok inode' k', deleteDirEntry K inode inodeNo io k = .ok ((ok, inode'), k') ∧
    ∀ p, 12 ≤ p → Holder k.disk inode inodeNo p → OneEntry k.disk (blockAddr k.disk inode p) → FreedIndirect K k inode p k' inode'

/-- The first block with an entry for the inode has one such entry, and is no block of the indirect table that this entry is alone in. -/
def Deletable (d : Memory) (inode : Inode) (inodeNo : ℕ) : Prop := ∀ p, Holder d inode inodeNo p →
  wanteds d inodeNo (blockAddr d inode p * 512) (List.range 21) = 1 ∧ ¬ (12 ≤ p ∧ OneEntry d (blockAddr d inode p))

theorem DirOn.readBlocks (h : DirOn K k inode) :
    ∃ blocks, allDirBlocks inode k = .ok (blocks, k) ∧ (∀ i < 140, blocks i = blockAddr k.disk inode i) ∧ ∀ i < 140, blocks i ≤ maxLba := by
  obtain ⟨blocks, _, hrun, rfl, hblocks⟩ := allDirBlocks_runs h.onDisk
  refine ⟨blocks, hrun, hblocks, ?_⟩
  intro i hi
  have := h.onDisk i (by omega)
  rw [refAddr_block _ _ hi] at this
  rw [hblocks i hi]
  exact this

theorem DirOn.sync (h : DirOn K k inode) {p : ℕ} (hp : p < 140) (hb : blockAddr k.disk inode p ≠ 0) :
    K.sb.blockBitmapLba + (blockAddr k.disk inode p - K.sb.dataStartLba) / 4096 ≤ maxLba := by
  have hused := h.owns.used p (by omega) (by rwa [refAddr_block _ _ hp])
  have hdisk := h.onDisk p (by omega)
  rw [refAddr_block _ _ hp] at hused hdisk
  obtain ⟨hdata, hlt, -⟩ := hused
  have h1 := h.layout.blockBitmap
  have h2 := h.layout.inodeBitmap
  have h3 := h.layout.inodeTable
  omega

theorem wanteds_none (hnone : ∀ p, ¬ Holder k.disk inode inodeNo p) {q : ℕ} (hq : q < 140) (hb : blockAddr k.disk inode q ≠ 0) :
    wanteds k.disk inodeNo (blockAddr k.disk inode q * 512) (List.range 21) = 0 := by
  induction q using Nat.strong_induction_on with
  | _ q ih =>
    by_contra hw
    exact hnone q ⟨hq, hb, hw, fun r hr hb' => ih r hr (by omega) hb'⟩

theorem deleteDirEntry_missing (h : DirOn K k inode) (io : Buffer) (hnone : ∀ p, ¬ Holder k.disk inode inodeNo p) :
    ∃ k', deleteDirEntry K inode inodeNo io k = .ok ((false, inode), k') ∧ HeapOnly k k' := by
  obtain ⟨blocks, hrun, hblocks, hdisk⟩ := h.readBlocks
  have hall : ∀ q < 140, blocks q ≠ 0 → wanteds k.disk inodeNo (blocks q * 512) (List.range 21) = 0 := by
    intro q hq hb
    rw [hblocks q hq] at hb ⊢
    exact wanteds_none hnone hq hb
  obtain ⟨io', k₁, hheap, heq⟩ := @deleteBlocks_skip K k inode inodeNo blocks h.entrySize hdisk 140 140 (le_refl _) (le_refl _) hall io
  refine ⟨k₁, ?_, hheap⟩
  unfold deleteDirEntry
  rw [bind_eq hrun]
  exact heq

theorem Holder.counted {p : ℕ} (hp : Holder k.disk inode inodeNo p) :
    1 ≤ ordinaries k.disk (blockAddr k.disk inode p * 512) (List.range 21) := by
  have hle := @wanteds_le_ordinaries inodeNo k.disk (blockAddr k.disk inode p * 512) (List.range 21)
  have hne := hp.here
  omega

def blockScan (d : Memory) (inode : Inode) (inodeNo p : ℕ) : BlockScan :=
  (⟨false, 0, none⟩ : BlockScan).over d inodeNo (blockAddr d inode p * 512) (List.range 21)

theorem blockScan_oneEntry {d : Memory} {p : ℕ} : (blockScan d inode inodeNo p).dirEntryCnt = 1 ∧
    (blockScan d inode inodeNo p).isDirFirstBlock = false ↔ OneEntry d (blockAddr d inode p) := by
  unfold blockScan BlockScan.over OneEntry
  rw [Nat.zero_add, Bool.false_or]

theorem blockScan_counted {p : ℕ} (hp : Holder k.disk inode inodeNo p) : 1 ≤ (blockScan k.disk inode inodeNo p).dirEntryCnt := by
  change 1 ≤ 0 + ordinaries _ _ _
  rw [Nat.zero_add]
  exact hp.counted

theorem deleteDirEntry_found (h : DirOn K k inode) (io : Buffer) {p : ℕ} (hp : Holder k.disk inode inodeNo p) :
    ∃ io' k₁ i, HeapOnly k k₁ ∧ Holds io'.bytes k.disk (blockAddr k.disk inode p) ∧
      (blockScan k.disk inode inodeNo p).dirEntryFound = some i ∧ deleteDirEntry K inode inodeNo io k =
      if wanteds k.disk inodeNo (blockAddr k.disk inode p * 512) (List.range 21) ≤ 1
      then deleteFound K p (blockAddr k.disk inode p) i io' (blockScan k.disk inode inodeNo p) inode k₁
      else .error .assertion := by
  obtain ⟨blocks, hrun, hblocks, hdisk⟩ := h.readBlocks
  have hbefore : ∀ q < p, blocks q ≠ 0 → wanteds k.disk inodeNo (blocks q * 512) (List.range 21) = 0 := by
    intro q hq
    rw [hblocks q (by have := hp.range; omega)]
    exact hp.before q hq
  have hrange := hp.range
  obtain ⟨io₁, k₁, hheap, heq⟩ := @deleteBlocks_skip K k inode inodeNo blocks h.entrySize hdisk p p (by omega) (le_refl _) hbefore io
  have hb : blocks p ≠ 0 := by
    rw [hblocks p hrange]
    exact hp.block
  obtain ⟨io', k₂, hheap₂, hholds, hread⟩ := @deleteBlocks_read K inode inodeNo blocks h.entrySize (139 - p) p hb (hdisk p hrange) io₁ k₁
  rw [hheap.disk, hblocks p hrange] at hholds
  obtain ⟨i, hfound⟩ := found_some hp.here
  refine ⟨io', k₂, i, hheap.trans hheap₂, hholds, hfound, ?_⟩
  unfold deleteDirEntry
  rw [bind_eq hrun]
  rw [Nat.sub_self, Nat.sub_zero, show 140 - p = 139 - p + 1 by omega, hread, hblocks p hrange] at heq
  rw [heq]
  have hscan := hholds.scanned inodeNo k₂
  split_ifs at hscan ⊢
  · rw [bind_eq hscan, hfound]
    rfl
  · exact bind_error hscan _

theorem deleteFound_runs (h : DirOn K k inode) {p i : ℕ} (hp : Holder k.disk inode inodeNo p)
    (hone : ¬ (12 ≤ p ∧ OneEntry k.disk (blockAddr k.disk inode p))) (io : Buffer) (k₁ : Kern) :
    Runs (deleteFound K p (blockAddr k.disk inode p) i io (blockScan k.disk inode inodeNo p) inode) k₁ fun r _ => r.1 = true := by
  have hrange := hp.range
  have hdisk := h.onDisk p (by omega)
  rw [refAddr_block _ _ hrange] at hdisk
  rw [← @blockScan_oneEntry inode inodeNo] at hone
  unfold deleteFound
  apply Runs.assert (blockScan_counted hp)
  apply Runs.bind (eraseEntry_runs hone hdisk (h.sync hrange hp.block) k₁)
  rintro inode' k₂ ⟨hsize, hno⟩
  apply Runs.assert
  · rw [h.entrySize, hsize]
    exact h.size
  · have hnumber : K.inodeNo ({ inode' with iSize := inode'.iSize - K.sb.dirEntrySize } : Inode).iNo < 4096 := by
      rw [hno]
      exact h.number
    apply Runs.bind (inodeSync_runs h.table hnumber _ k₂)
    intro _ k₃ _
    exact Runs.pure rfl

theorem deleteFound_hangs (h : DirOn K k inode) {p i : ℕ} (hp : Holder k.disk inode inodeNo p) (hp12 : 12 ≤ p)
    (hone : OneEntry k.disk (blockAddr k.disk inode p)) (io : Buffer) (k₁ : Kern) :
    deleteFound K p (blockAddr k.disk inode p) i io (blockScan k.disk inode inodeNo p) inode k₁ = .error .hang := by
  unfold deleteFound
  rw [← @blockScan_oneEntry inode inodeNo] at hone
  have hassert := (assert_ok (1 ≤ (blockScan k.disk inode inodeNo p).dirEntryCnt) k₁ k₁ ()).mpr ⟨blockScan_counted hp, rfl⟩
  rw [bind_eq hassert]
  exact bind_error (eraseEntry_hangs hp12 hone (h.sync hp.range hp.block) k₁) _

theorem Deletes.deletable {io : Buffer} (hdel : Deletes K inode inodeNo io k) (h : DirOn K k inode) : Deletable k.disk inode inodeNo := by
  obtain ⟨ok, inode', k', hrun, -⟩ := hdel
  intro p hp
  obtain ⟨io', k₁, i, -, -, -, heq⟩ := deleteDirEntry_found h io hp
  rw [heq] at hrun
  split_ifs at hrun with hle
  · refine ⟨by have := hp.here; omega, ?_⟩
    rintro ⟨hp12, hone⟩
    rw [deleteFound_hangs h hp hp12 hone] at hrun
    cases hrun

/-- A deletion comes to its end exactly when the entry it finds can be deleted. -/
theorem deleteDirEntry_deletes (K : Kernel) (inode : Inode) (inodeNo : ℕ) (io : Buffer) (k : Kern) (h : DirOn K k inode) :
    Deletes K inode inodeNo io k ↔ Deletable k.disk inode inodeNo := by
  constructor
  · intro hdel
    exact hdel.deletable h
  · intro hdel
    by_cases hany : ∃ p, Holder k.disk inode inodeNo p
    · obtain ⟨p, hp⟩ := hany
      obtain ⟨hwanted, hone⟩ := hdel p hp
      obtain ⟨io', k₁, i, -, -, -, heq⟩ := deleteDirEntry_found h io hp
      obtain ⟨⟨ok, inode'⟩, k', hrun, -⟩ := @deleteFound_runs K k inode inodeNo h p i hp hone io' k₁
      rw [if_pos (by omega), hrun] at heq
      refine ⟨ok, inode', k', heq, ?_⟩
      intro q hq hqp hqone
      exact absurd ⟨hq, hqone⟩ (hdel q hqp).2
    · rw [not_exists] at hany
      obtain ⟨k', heq, -⟩ := deleteDirEntry_missing h io hany
      refine ⟨false, inode, k', heq, ?_⟩
      intro q _ hqp
      exact absurd hqp (hany q)

end

def oneIndirect : Kern := { Kern.blank with
  disk := fun a =>
    match a with
    | 346112 => 165 | 346113 => 2
    | 346624 => 97 | 346640 => 5 | 346644 => 1
    | 347136 => 46 | 347156 => 2
    | 347160 => 46 | 347161 => 46 | 347180 => 2
    | _ => 0
  blockBitmap := ⟨512, Function.update zeros 0 15⟩ }

def dirWith (i lba : ℕ) : Inode :=
  { Inode.zero with iSize := 72, iSectors := Function.update (Function.update (fun _ => 0) 0 678) i lba }

theorem oneIndirect_refs : ∀ p < 141, refAddr oneIndirect.disk (dirWith 12 676) p =
    if p = 0 then 678 else if p = 12 then 677 else if p = 140 then 676 else 0 := by decide

theorem oneDirect_refs : ∀ p < 141, refAddr oneIndirect.disk (dirWith 1 677) p =
    if p = 0 then 678 else if p = 1 then 677 else 0 := by decide

theorem oneIndirect_dirOn : DirOn (formattedPartition 63 4709).kernel oneIndirect (dirWith 12 676) where
  entrySize := rfl
  layout := ⟨rfl, by decide, by decide, by decide, by decide⟩
  owns := by
    refine ⟨?_, ?_⟩
    · intro p hp hne
      rw [oneIndirect_refs p hp] at hne ⊢
      split_ifs at hne ⊢ <;> first | exact absurd rfl hne | exact ⟨by decide, by decide, by decide⟩
    · intro p hp q hq hne heq
      rw [oneIndirect_refs p hp] at hne heq
      rw [oneIndirect_refs q hq] at heq
      split_ifs at hne heq <;> omega
  onDisk := by
    intro p hp
    rw [oneIndirect_refs p hp]
    split_ifs <;> decide
  table := ⟨by decide, by decide⟩
  number := by decide
  size := by decide

theorem oneDirect_dirOn : DirOn (formattedPartition 63 4709).kernel oneIndirect (dirWith 1 677) where
  entrySize := rfl
  layout := ⟨rfl, by decide, by decide, by decide, by decide⟩
  owns := by
    refine ⟨?_, ?_⟩
    · intro p hp hne
      rw [oneDirect_refs p hp] at hne ⊢
      split_ifs at hne ⊢ <;> first | exact absurd rfl hne | exact ⟨by decide, by decide, by decide⟩
    · intro p hp q hq hne heq
      rw [oneDirect_refs p hp] at hne heq
      rw [oneDirect_refs q hq] at heq
      split_ifs at hne heq <;> omega
  onDisk := by
    intro p hp
    rw [oneDirect_refs p hp]
    split_ifs <;> decide
  table := ⟨by decide, by decide⟩
  number := by decide
  size := by decide

theorem oneIndirect_holder : Holder oneIndirect.disk (dirWith 12 676) 5 12 := by
  refine ⟨by decide, by decide, by decide, ?_⟩
  intro q hq hne
  have hq0 : q = 0 := by
    by_contra h
    have hzero := oneIndirect_refs q (by omega)
    rw [refAddr_block _ _ (by omega), if_neg h, if_neg (by omega), if_neg (by omega)] at hzero
    exact hne hzero
  subst hq0
  decide

theorem deleteDirEntry_last_indirect : ¬ ∀ K inode inodeNo io k, DirOn K k inode → Deletes K inode inodeNo io k := by
  intro h
  have hdel := (h _ _ 5 ⟨⟨0, .kernel⟩, 1024, zeros⟩ _ oneIndirect_dirOn).deletable oneIndirect_dirOn
  exact (hdel 12 oneIndirect_holder).2 ⟨le_refl _, by decide⟩

theorem deleteDirEntry_direct : Deletes (formattedPartition 63 4709).kernel (dirWith 1 677) 5 ⟨⟨0, .kernel⟩, 1024, zeros⟩ oneIndirect := by
  apply (deleteDirEntry_deletes _ _ _ _ _ oneDirect_dirOn).mpr
  intro p hp
  have hne := hp.block
  rw [← refAddr_block _ _ hp.range, oneDirect_refs p (by have := hp.range; omega)] at hne
  have hhere := hp.here
  split_ifs at hne with h0 h1
  · subst h0
    exact absurd (by decide) hhere
  · subst h1
    exact ⟨by decide, fun h => absurd h.1 (by decide)⟩
  · exact absurd rfl hne

end ElephantOS
