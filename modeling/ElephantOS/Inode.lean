import ElephantOS.Kernel

/-! `fs/inode.c`, the part that works on the disk: locating, writing and clearing an inode slot. -/

namespace ElephantOS

open ByteMemory HaltingState

/-- A list link either holds what the list operations stored in it, or a raw word. -/
inductive Link | linked | word (w : ℕ)
  deriving DecidableEq

structure ListElem where
  prev : Link
  next : Link
  deriving DecidableEq

/-- `struct inode`; only `iSectors 0 .. iSectors 12` exist. -/
structure Inode where
  iNo : ℕ
  iSize : ℕ
  iOpenCnts : ℕ
  writeDeny : Bool
  iSectors : ℕ → ℕ
  inodeTag : ListElem

namespace Inode

def zero : Inode := ⟨0, 0, 0, false, fun _ => 0, ⟨.word 0, .word 0⟩⟩

/-- `dir_inode->i_sectors[idx] = lba`. The array has 13 elements and `inode_tag` follows it. -/
def setSector (inode : Inode) (idx lba : ℕ) : Inode :=
  if idx < 13 then { inode with iSectors := Function.update inode.iSectors idx lba }
  else if idx = 13 then { inode with inodeTag := { inode.inodeTag with prev := .word lba } }
  else if idx = 14 then { inode with inodeTag := { inode.inodeTag with next := .word lba } }
  else inode

/-- The words of `pure_inode`: open count, write flag and links are cleared. -/
def pureWords (inode : Inode) (i : ℕ) : ℕ :=
  if i = 0 then inode.iNo
  else if i = 1 then inode.iSize
  else if 4 ≤ i ∧ i < 17 then inode.iSectors (i - 4)
  else 0

def load (m : Memory) (a : ℕ) : Inode where
  iNo := word m a
  iSize := word m (a + 4)
  iOpenCnts := word m (a + 8)
  writeDeny := word m (a + 12) != 0
  iSectors k := if k < 13 then word m (a + 16 + 4 * k) else 0
  inodeTag := ⟨.word (word m (a + 68)), .word (word m (a + 72))⟩

/-- The fields that live on the disk agree. -/
structure SameStored (a b : Inode) : Prop where
  iNo : a.iNo = b.iNo
  iSize : a.iSize = b.iSize
  iSectors : ∀ k < 13, a.iSectors k = b.iSectors k

/-- Every stored field is a 32-bit word, as in `struct inode`. -/
structure Fits (inode : Inode) : Prop where
  iNo : inode.iNo < 2 ^ 32
  iSize : inode.iSize < 2 ^ 32
  iSectors : ∀ k < 13, inode.iSectors k < 2 ^ 32

end Inode

/-- `inode_init` on `inode`; the list links are not touched. -/
def inodeInit (inodeNo : ℕ) (inode : Inode) : Inode :=
  { inode with iNo := inodeNo, iSize := 0, iOpenCnts := 0, writeDeny := false, iSectors := fun _ => 0 }

def inodeSize : ℕ := 76

structure InodePosition where
  twoSec : Bool
  secLba : ℕ
  offSize : ℕ

def inodePosition (part : Partition) (inodeNo : ℕ) : InodePosition :=
  let offSize := inodeNo * inodeSize
  let offSec := offSize / 512
  let offSizeInSec := offSize % 512
  let leftInSec := 512 - offSizeInSec
  ⟨decide (leftInSec < inodeSize), part.sb.inodeTableLba + offSec, offSizeInSec⟩

/-- The slot of inode `n` lies in one sector. -/
def InOneSector (n : ℕ) : Prop := n * inodeSize % 512 + inodeSize ≤ 512

instance (n : ℕ) : Decidable (InOneSector n) := inferInstanceAs (Decidable (_ ≤ _))

def inodeLocate (part : Partition) (inodeNo : ℕ) : KernM InodePosition := do
  assert (inodeNo < 4096)
  return inodePosition part inodeNo

def inodeReplace (pos : InodePosition) (bytes : Memory) (ioBuf : Buffer) : KernM Unit := do
  let secs := if pos.twoSec then 2 else 1
  let inodeBuf ← ideRead pos.secLba ioBuf secs
  ideWrite pos.secLba (blit inodeBuf.bytes pos.offSize bytes inodeSize) secs

def inodeSync (K : Kernel) (inode : Inode) (ioBuf : Buffer) : KernM Unit := do
  let inodeNo := K.inodeNo inode.iNo
  let inodePos ← inodeLocate K.toPartition inodeNo
  assert (inodePos.secLba ≤ K.startLba + K.secCnt)
  inodeReplace inodePos (wordBytes inode.pureWords) ioBuf

def inodeDelete (K : Kernel) (inodeNo : ℕ) (ioBuf : Buffer) : KernM Unit := do
  assert (inodeNo < 4096)
  let inodePos ← inodeLocate K.toPartition inodeNo
  assert (inodePos.secLba ≤ K.startLba + K.secCnt)
  inodeReplace inodePos zeros ioBuf

/-- Byte address of the slot of inode `n`. -/
def inodeAddr (part : Partition) (n : ℕ) : ℕ := part.sb.inodeTableLba * 512 + n * inodeSize

theorem inodePosition_addr (part : Partition) (n : ℕ) :
    (inodePosition part n).secLba * 512 + (inodePosition part n).offSize = inodeAddr part n := by
  simp only [inodePosition, inodeAddr]
  omega

theorem inodePosition_fits (part : Partition) (n : ℕ) :
    (inodePosition part n).offSize + inodeSize ≤ (if (inodePosition part n).twoSec then 2 else 1) * 512 := by
  have hlt : n * inodeSize % 512 < 512 := Nat.mod_lt _ (by omega)
  by_cases h : 512 - n * inodeSize % 512 < inodeSize
  · simp only [inodePosition, h, decide_true, if_true]
    simp only [inodeSize] at *
    omega
  · simp only [inodePosition, h, decide_false, Bool.false_eq_true, if_false]
    omega

theorem blit_readback (d m bytes : Memory) {base len off n : ℕ} (h : off + n ≤ len) :
    blit d base (blit (blit m 0 (slice d base) len) off bytes n) len = blit d (base + off) bytes n := by
  funext a
  by_cases ha : base ≤ a ∧ a < base + len
  · by_cases hb : base + off ≤ a ∧ a < base + off + n
    · have h1 : off ≤ a - base ∧ a - base < off + n := by omega
      have h2 : a - (base + off) = a - base - off := by omega
      simp only [blit_apply, ha, hb, h1, and_self, if_true, h2]
    · have h1 : ¬ (off ≤ a - base ∧ a - base < off + n) := by omega
      have h2 : 0 ≤ a - base ∧ a - base < 0 + len := by omega
      have h3 : base + (a - base) = a := by omega
      simp only [blit_apply, ha, hb, h1, h2, and_self, if_true, if_false, slice, Nat.sub_zero, h3]
  · have hb : ¬ (base + off ≤ a ∧ a < base + off + n) := by omega
    simp only [blit_apply, ha, hb, if_false]

theorem inodeReplace_ok {part : Partition} {n : ℕ} {bytes : Memory} {ioBuf : Buffer} {u : Unit} {k k' : Kern}
    (h : inodeReplace (inodePosition part n) bytes ioBuf k = .ok (u, k')) :
    HeapOnly { k with disk := blit k.disk (inodeAddr part n) bytes inodeSize } k' := by
  have hfit := inodePosition_fits part n
  unfold inodeReplace at h
  generalize (if (inodePosition part n).twoSec = true then 2 else 1) = secs at h hfit
  obtain ⟨buf, k1, hr, hw⟩ := (bind_ok _ _ _ _).mp h
  obtain ⟨-, hk1, rfl⟩ := ideRead_ok hr
  obtain ⟨-, rfl⟩ := (ideWrite_ok _ _ _ _ _ _).mp hw
  refine ⟨?_, hk1.blockBitmap, hk1.inodeBitmap, hk1.pool, hk1.grant, hk1.next⟩
  change blit k1.disk _ _ _ = _
  rw [hk1.disk, blit_readback _ _ _ hfit, inodePosition_addr]

/-- The inode table lies inside the partition and on the disk. -/
structure TableOnDisk (part : Partition) : Prop where
  inside : part.sb.inodeTableLba + 608 ≤ part.startLba + part.secCnt
  onDisk : part.sb.inodeTableLba + 608 ≤ maxLba + 1

theorem inodePosition_range {part : Partition} (hp : TableOnDisk part) {n : ℕ} (hn : n < 4096) :
    (inodePosition part n).secLba ≤ part.startLba + part.secCnt ∧
      sectorRange (inodePosition part n).secLba (if (inodePosition part n).twoSec then 2 else 1) := by
  have h1 := hp.inside
  have h2 := hp.onDisk
  have hs : (inodePosition part n).secLba ≤ part.sb.inodeTableLba + 607 := by
    simp only [inodePosition, inodeSize]
    omega
  refine ⟨by omega, ?_, ?_⟩
  · split_ifs <;> omega
  · split_ifs <;> omega

theorem inodeReplace_runs {part : Partition} (hp : TableOnDisk part) {n : ℕ} (hn : n < 4096)
    (bytes : Memory) (ioBuf : Buffer) (k : Kern) :
    Runs (inodeReplace (inodePosition part n) bytes ioBuf) k fun _ k' =>
      HeapOnly { k with disk := blit k.disk (inodeAddr part n) bytes inodeSize } k' := by
  have hr := (inodePosition_range hp hn).2
  obtain ⟨u, k', hk', -⟩ : Runs (inodeReplace (inodePosition part n) bytes ioBuf) k fun _ _ => True := by
    refine Runs.bind (ideRead_runs hr ioBuf k) fun b k1 _ => ?_
    exact (ideWrite_runs hr _ k1).mono fun _ _ _ => trivial
  exact ⟨u, k', hk', inodeReplace_ok hk'⟩

theorem inodeLocate_runs (part : Partition) {n : ℕ} (hn : n < 4096) (k : Kern) :
    Runs (inodeLocate part n) k fun pos k' => inodePosition part n = pos ∧ k = k' :=
  Runs.assert hn (Runs.pure ⟨rfl, rfl⟩)

theorem inodeSync_ok {K : Kernel} {inode : Inode} {ioBuf : Buffer} {u : Unit} {k k' : Kern}
    (h : inodeSync K inode ioBuf k = .ok (u, k')) :
    K.inodeNo inode.iNo < 4096 ∧
      HeapOnly { k with
        disk := blit k.disk (inodeAddr K.toPartition (K.inodeNo inode.iNo)) (wordBytes inode.pureWords) inodeSize } k' := by
  unfold inodeSync inodeLocate at h
  simp only [bind_ok, assert_ok, pure_ok] at h
  obtain ⟨_, _, ⟨_, _, ⟨hn, rfl⟩, rfl, rfl⟩, _, _, ⟨-, rfl⟩, hr⟩ := h
  exact ⟨hn, inodeReplace_ok hr⟩

theorem inodeSync_runs {K : Kernel} (hp : TableOnDisk K.toPartition) {inode : Inode}
    (hn : K.inodeNo inode.iNo < 4096) (ioBuf : Buffer) (k : Kern) :
    Runs (inodeSync K inode ioBuf) k fun _ k' => HeapOnly { k with
      disk := blit k.disk (inodeAddr K.toPartition (K.inodeNo inode.iNo)) (wordBytes inode.pureWords) inodeSize } k' := by
  unfold inodeSync
  refine Runs.bind (inodeLocate_runs K.toPartition hn k) ?_
  rintro _ _ ⟨rfl, rfl⟩
  refine Runs.assert (inodePosition_range hp hn).1 ?_
  exact inodeReplace_runs hp hn _ ioBuf _

theorem ideRead_overrun {lba secCnt : ℕ} {buf b : Buffer} {k k' : Kern} (h : ideRead lba buf secCnt k = .ok (b, k')) :
    k'.overrun = (k.overrun || decide (buf.len < secCnt * 512)) := by
  unfold ideRead at h
  split_ifs at h with hr hlen
  all_goals
    simp only [Except.ok.injEq, Prod.mk.injEq] at h
    obtain ⟨-, rfl⟩ := h
    simp [hlen]

theorem inodeSync_overrun {K : Kernel} {inode : Inode} {io : Buffer} {u : Unit} {k k' : Kern}
    (h : inodeSync K inode io k = .ok (u, k')) :
    k'.overrun = (k.overrun ||
      decide (io.len < (if (inodePosition K.toPartition (K.inodeNo inode.iNo)).twoSec then 2 else 1) * 512)) := by
  simp only [inodeSync, inodeLocate, inodeReplace, bind_ok, assert_ok, pure_ok, ideWrite_ok] at h
  obtain ⟨_, _, ⟨_, _, ⟨-, rfl⟩, rfl, rfl⟩, _, _, ⟨-, rfl⟩, b, k1, h1, -, rfl⟩ := h
  have hread := ideRead_overrun h1
  exact hread

theorem inodeDelete_ok {K : Kernel} {n : ℕ} {ioBuf : Buffer} {u : Unit} {k k' : Kern}
    (h : inodeDelete K n ioBuf k = .ok (u, k')) :
    HeapOnly { k with disk := blit k.disk (inodeAddr K.toPartition n) zeros inodeSize } k' := by
  unfold inodeDelete inodeLocate at h
  simp only [bind_ok, assert_ok, pure_ok] at h
  obtain ⟨_, _, ⟨-, rfl⟩, _, _, ⟨_, _, ⟨-, rfl⟩, rfl, rfl⟩, _, _, ⟨-, rfl⟩, hr⟩ := h
  exact inodeReplace_ok hr

theorem inodeAddr_disjoint (part : Partition) {n m : ℕ} (h : n ≠ m) :
    inodeAddr part n + inodeSize ≤ inodeAddr part m ∨ inodeAddr part m + inodeSize ≤ inodeAddr part n := by
  simp only [inodeAddr, inodeSize]
  omega

namespace Inode

theorem load_congr {m m' : Memory} {a b : ℕ} (h : ∀ i < 76, m' (b + i) = m (a + i)) :
    load m' b = load m a := by
  have hw : ∀ i, i + 4 ≤ 76 → word m' (b + i) = word m (a + i) := by
    intro i hi
    apply word_congr
    intro j hj
    rw [Nat.add_assoc, Nat.add_assoc]
    exact h (i + j) (by omega)
  have h0 := hw 0 (by omega)
  simp only [Nat.add_zero] at h0
  have hs : (load m' b).iSectors = (load m a).iSectors := by
    funext k
    simp only [load, Nat.add_assoc]
    split_ifs with hk
    · exact hw (16 + 4 * k) (by omega)
    · rfl
  simp only [load] at hs
  simp only [load, h0, hw 4 (by omega), hw 8 (by omega), hw 12 (by omega), hw 68 (by omega), hw 72 (by omega), hs]

theorem load_pureWords {m : Memory} {a : ℕ} {inode : Inode} (hf : inode.Fits)
    (h : ∀ i < 76, m (a + i) = wordBytes inode.pureWords i) :
    SameStored (load m a) inode ∧ (load m a).writeDeny = false := by
  have hw : ∀ j, 4 * j + 4 ≤ 76 → word m (a + 4 * j) = inode.pureWords j % 2 ^ 32 := by
    intro j hj
    rw [← word_wordBytes]
    apply word_congr
    intro i hi
    rw [Nat.add_assoc]
    exact h (4 * j + i) (by omega)
  refine ⟨⟨?_, ?_, fun k hk => ?_⟩, ?_⟩
  · have h0 := hw 0 (by omega)
    rw [show inode.pureWords 0 = inode.iNo from rfl, Nat.mod_eq_of_lt hf.iNo] at h0
    exact h0
  · have h1 := hw 1 (by omega)
    rw [show inode.pureWords 1 = inode.iSize from rfl, Nat.mod_eq_of_lt hf.iSize] at h1
    exact h1
  · have hk' := hw (4 + k) (by omega)
    have he : inode.pureWords (4 + k) = inode.iSectors k := by
      have h1 : ¬ (4 + k = 0) := by omega
      have h2 : ¬ (4 + k = 1) := by omega
      have h3 : 4 ≤ 4 + k ∧ 4 + k < 17 := by omega
      simp only [pureWords, h1, h2, h3, and_self, if_true, if_false, Nat.add_sub_cancel_left]
    rw [he, Nat.mod_eq_of_lt (hf.iSectors k hk)] at hk'
    rw [← hk']
    simp only [load, hk, if_true]
    congr 1
    omega
  · have := hw 3 (by omega)
    simp only [load, bne_eq_false_iff_eq]
    simpa [pureWords] using this

theorem SameStored.refl (a : Inode) : SameStored a a := ⟨rfl, rfl, fun _ _ => rfl⟩

theorem SameStored.trans {a b c : Inode} (h : SameStored a b) (h' : SameStored b c) : SameStored a c :=
  ⟨h.iNo.trans h'.iNo, h.iSize.trans h'.iSize, fun k hk => (h.iSectors k hk).trans (h'.iSectors k hk)⟩

end Inode

end ElephantOS
