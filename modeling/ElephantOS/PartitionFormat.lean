import ElephantOS.DirEntry

/-! `partition_format` and `mount_partition` of `fs/fs.c`. -/

namespace ElephantOS

open ByteMemory HaltingState

def divRoundUp (x step : ℕ) : ℕ := u32 (x + step - 1) / step

namespace SuperBlock

def words (sb : SuperBlock) : List ℕ :=
  [sb.magic, sb.secCnt, sb.inodeCnt, sb.partLbaBase, sb.blockBitmapLba, sb.blockBitmapSects, sb.inodeBitmapLba,
    sb.inodeBitmapSects, sb.inodeTableLba, sb.inodeTableSects, sb.dataStartLba, sb.rootInodeNo, sb.dirEntrySize]

/-- The 512 bytes of a super block, with whatever the padding holds. -/
def bytes (sb : SuperBlock) (pad : Memory) : Memory := blit pad 0 (wordBytes fun i => sb.words.getD i 0) 52

def load (m : Memory) (a : ℕ) : SuperBlock where
  magic := word m a
  secCnt := word m (a + 4)
  inodeCnt := word m (a + 8)
  partLbaBase := word m (a + 12)
  blockBitmapLba := word m (a + 16)
  blockBitmapSects := word m (a + 20)
  inodeBitmapLba := word m (a + 24)
  inodeBitmapSects := word m (a + 28)
  inodeTableLba := word m (a + 32)
  inodeTableSects := word m (a + 36)
  dataStartLba := word m (a + 40)
  rootInodeNo := word m (a + 44)
  dirEntrySize := word m (a + 48)

end SuperBlock

section

variable (startLba secCnt : ℕ)

def inodeTableSects : ℕ := divRoundUp (inodeSize * 4096) 512

def inodeBitmapSects : ℕ := divRoundUp 4096 4096

def freeSects : ℕ := u32 (secCnt + 2 ^ 32 - (1 + 1 + inodeBitmapSects + inodeTableSects))

/-- `block_bitmap_bit_len`, the number of data blocks. -/
def blockBitmapBitLen : ℕ := u32 (freeSects secCnt + 2 ^ 32 - divRoundUp (freeSects secCnt) 4096)

def blockBitmapSects : ℕ := divRoundUp (blockBitmapBitLen secCnt) 4096

def formatSuperBlock : SuperBlock :=
  let blockBitmapLba := u32 (startLba + 2)
  let inodeBitmapLba := u32 (blockBitmapLba + blockBitmapSects secCnt)
  let inodeTableLba := u32 (inodeBitmapLba + inodeBitmapSects)
  { magic := 0x19590318
    secCnt := secCnt
    inodeCnt := 4096
    partLbaBase := startLba
    blockBitmapLba := blockBitmapLba
    blockBitmapSects := blockBitmapSects secCnt
    inodeBitmapLba := inodeBitmapLba
    inodeBitmapSects := inodeBitmapSects
    inodeTableLba := inodeTableLba
    inodeTableSects := inodeTableSects
    dataStartLba := u32 (inodeTableLba + inodeTableSects)
    rootInodeNo := 0
    dirEntrySize := 24 }

/-- `buf[byte] &= ~(1 << bit_idx++)` for `bit_idx = 0 .. lastBit`. -/
def clearBits (byte : UInt8) (lastBit : ℕ) : UInt8 :=
  (List.range (lastBit + 1)).foldl (fun b i => b &&& ~~~ Bitmap.mask i) byte

def formatBlockBitmap (bitLen : ℕ) : Memory :=
  let buf := Function.update zeros 0 (zeros 0 ||| 1)
  let lastByte := bitLen / 8
  let lastBit := bitLen % 8
  let lastSize := 512 - lastByte % 512
  let buf := blit buf lastByte (fun _ => 0xff) lastSize
  Function.update buf lastByte (clearBits (buf lastByte) lastBit)

def rootInodeTable (dataStartLba : ℕ) : Memory :=
  wordBytes fun i => if i = 1 then 24 * 2 else if i = 4 then dataStartLba else 0

/-- The entries `.` and `..` of a directory at the start of a cleared sector. -/
def dotEntries (self parent : ℕ) : Memory :=
  blit (blit zeros 0 (DirEntry.bytes ⟨nameBytes dot, self, .directory⟩) 24) 24
    (DirEntry.bytes ⟨nameBytes dotDot, parent, .directory⟩) 24

def partitionFormat (pad : Memory) : KernM Unit := do
  let sb := formatSuperBlock startLba secCnt
  ideWrite (u32 (startLba + 1)) (sb.bytes pad) 1
  let bufSize := max (max sb.blockBitmapSects sb.inodeBitmapSects) sb.inodeTableSects * 512
  let some buf ← sysMalloc bufSize | halt .wild
  let lastByte := blockBitmapBitLen secCnt / 8
  noteOverrun (bufSize < lastByte + (512 - lastByte % 512))
  ideWrite sb.blockBitmapLba (formatBlockBitmap (blockBitmapBitLen secCnt)) sb.blockBitmapSects
  ideWrite sb.inodeBitmapLba (Function.update zeros 0 1) sb.inodeBitmapSects
  ideWrite sb.inodeTableLba (rootInodeTable sb.dataStartLba) sb.inodeTableSects
  ideWrite sb.dataStartLba (dotEntries 0 0) 1
  sysFree buf.ptr

def mountPartition : KernM Partition := do
  let some sbBuf ← sysMalloc 512 | halt .assertion
  let some _ ← sysMalloc 512 | halt .assertion
  let sbBuf ← ideRead (u32 (startLba + 1)) sbBuf 1
  let sb := SuperBlock.load sbBuf.bytes 0
  let some bits ← sysMalloc (u32 (sb.blockBitmapSects * 512)) | halt .assertion
  let bits ← ideRead sb.blockBitmapLba bits sb.blockBitmapSects
  modify fun k => { k with blockBitmap := ⟨u32 (sb.blockBitmapSects * 512), bits.bytes⟩ }
  let some bits ← sysMalloc (u32 (sb.inodeBitmapSects * 512)) | halt .assertion
  let bits ← ideRead sb.inodeBitmapLba bits sb.inodeBitmapSects
  modify fun k => { k with inodeBitmap := ⟨u32 (sb.inodeBitmapSects * 512), bits.bytes⟩ }
  return ⟨startLba, secCnt, sb⟩

end

theorem inodeBitmapSects_eq : inodeBitmapSects = 1 := rfl

theorem inodeTableSects_eq : inodeTableSects = 608 := rfl

/-- The partition holds its metadata and at least eight data blocks, and its sector numbers are
32-bit words. -/
structure Formattable (startLba secCnt : ℕ) : Prop where
  large : 620 ≤ secCnt
  small : startLba + secCnt < 2 ^ 32

theorem format_counts {startLba secCnt : ℕ} (h : Formattable startLba secCnt) :
    8 ≤ blockBitmapBitLen secCnt ∧ blockBitmapBitLen secCnt + blockBitmapSects secCnt + 611 ≤ secCnt ∧
      ((blockBitmapBitLen secCnt ≤ 4096 * blockBitmapSects secCnt ∧
        4096 * blockBitmapSects secCnt < blockBitmapBitLen secCnt + 4096) ∨
        (blockBitmapSects secCnt = 0 ∧ blockBitmapBitLen secCnt % 4096 ≠ 0)) := by
  obtain ⟨hl, hs⟩ := h
  have hf : freeSects secCnt = secCnt - 611 := by
    simp only [freeSects, inodeBitmapSects_eq, inodeTableSects_eq, u32]
    omega
  by_cases hc : secCnt - 611 + 4096 - 1 < 2 ^ 32
  · have hr : divRoundUp (secCnt - 611) 4096 = (secCnt - 611 + 4096 - 1) / 4096 := by
      rw [divRoundUp, u32, Nat.mod_eq_of_lt hc]
    have hn : blockBitmapBitLen secCnt = secCnt - 611 - (secCnt - 611 + 4096 - 1) / 4096 := by
      rw [blockBitmapBitLen, hf, hr, u32]
      omega
    have hb : blockBitmapSects secCnt = (blockBitmapBitLen secCnt + 4096 - 1) / 4096 := by
      rw [blockBitmapSects, divRoundUp, u32, Nat.mod_eq_of_lt (by omega)]
    omega
  · have hr : divRoundUp (secCnt - 611) 4096 = 0 := by
      rw [divRoundUp, u32]
      omega
    have hn : blockBitmapBitLen secCnt = secCnt - 611 := by
      rw [blockBitmapBitLen, hf, hr, u32]
      omega
    have hb : blockBitmapSects secCnt = 0 := by rw [blockBitmapSects, hn, hr]
    omega

theorem format_layout {startLba secCnt : ℕ} (h : Formattable startLba secCnt) :
    (formatSuperBlock startLba secCnt).blockBitmapLba = startLba + 2 ∧
      (formatSuperBlock startLba secCnt).inodeBitmapLba = startLba + 2 + blockBitmapSects secCnt ∧
      (formatSuperBlock startLba secCnt).inodeTableLba = startLba + 3 + blockBitmapSects secCnt ∧
      (formatSuperBlock startLba secCnt).dataStartLba = startLba + 611 + blockBitmapSects secCnt ∧
      u32 (startLba + 1) = startLba + 1 := by
  obtain ⟨-, hc, -⟩ := format_counts h
  have hs := h.small
  simp only [formatSuperBlock, u32, inodeBitmapSects_eq, inodeTableSects_eq]
  omega

theorem clearBits_full : ∀ b < 8, ∀ k < 8, (clearBits 0xff b).toBitVec.getLsbD k = decide (b < k) := by
  decide

theorem formatBlockBitmap_byte {n j : ℕ} (hn : 8 ≤ n) :
    formatBlockBitmap n j = if j = 0 then 1 else if j < n / 8 then 0 else if j = n / 8 then clearBits 0xff (n % 8)
      else if j < n / 8 + (512 - n / 8 % 512) then 0xff else 0 := by
  have h1 : 1 ≤ n / 8 := by omega
  have h2 : n / 8 % 512 < 512 := Nat.mod_lt _ (by omega)
  have hlast : ∀ m : Memory, blit m (n / 8) (fun _ => 0xff) (512 - n / 8 % 512) (n / 8) = 0xff := by
    intro m
    have := @blit_inside m (fun _ => 0xff) (n / 8) _ _ (show 0 < 512 - n / 8 % 512 by omega)
    simpa using this
  simp only [formatBlockBitmap, hlast]
  by_cases hj : j = n / 8
  · have : j ≠ 0 := by omega
    simp [hj]
    omega
  · rw [Function.update_of_ne hj, blit_apply]
    by_cases h0 : j = 0
    · have : ¬ (n / 8 ≤ 0 ∧ 0 < n / 8 + (512 - n / 8 % 512)) := by omega
      subst h0
      simp only [this, if_false, Function.update_self, if_true]
      rfl
    · rw [Function.update_of_ne h0]
      simp only [h0, hj, if_false]
      split_ifs <;> first | rfl | omega

theorem formatBlockBitmap_test {n i : ℕ} (hn : 8 ≤ n) (hi : i < 4096 * (n / 4096 + 1)) (len : ℕ) :
    (Bitmap.mk len (formatBlockBitmap n)).scanTest i = decide (i = 0 ∨ n < i) := by
  rw [Bitmap.scanTest_eq]
  simp only [formatBlockBitmap_byte hn]
  have hm : i % 8 < 8 := Nat.mod_lt _ (by omega)
  have h1 : ∀ k < 8, (1 : UInt8).toBitVec.getLsbD k = decide (k = 0) := by decide
  have h0 : ∀ k < 8, (0 : UInt8).toBitVec.getLsbD k = false := by decide
  have hf : ∀ k < 8, (0xff : UInt8).toBitVec.getLsbD k = true := by decide
  by_cases c0 : i / 8 = 0
  · rw [if_pos c0, h1 _ hm]
    simp only [decide_eq_decide]
    omega
  · rw [if_neg c0]
    by_cases c1 : i / 8 < n / 8
    · rw [if_pos c1, h0 _ hm]
      symm
      simp only [decide_eq_false_iff_not]
      omega
    · rw [if_neg c1]
      by_cases c2 : i / 8 = n / 8
      · rw [if_pos c2, clearBits_full _ (Nat.mod_lt _ (by omega)) _ hm]
        simp only [decide_eq_decide]
        omega
      · rw [if_neg c2, if_pos (by omega), hf _ hm]
        symm
        simp only [decide_eq_true_eq]
        omega
/-- The disk after `partition_format`. -/
def formatDisk (startLba secCnt : ℕ) (pad d : Memory) : Memory :=
  let sb := formatSuperBlock startLba secCnt
  let d := blit d (u32 (startLba + 1) * 512) (sb.bytes pad) (1 * 512)
  let d := blit d (sb.blockBitmapLba * 512) (formatBlockBitmap (blockBitmapBitLen secCnt)) (sb.blockBitmapSects * 512)
  let d := blit d (sb.inodeBitmapLba * 512) (Function.update zeros 0 1) (sb.inodeBitmapSects * 512)
  let d := blit d (sb.inodeTableLba * 512) (rootInodeTable sb.dataStartLba) (sb.inodeTableSects * 512)
  blit d (sb.dataStartLba * 512) (dotEntries 0 0) (1 * 512)

theorem partitionFormat_ok {startLba secCnt : ℕ} {pad : Memory} {u : Unit} {k k' : Kern}
    (h : partitionFormat startLba secCnt pad k = .ok (u, k')) :
    HeapOnly { k with disk := formatDisk startLba secCnt pad k.disk } k' ∧ 0 < blockBitmapSects secCnt ∧
      (formatSuperBlock startLba secCnt).dataStartLba ≤ maxLba := by
  unfold partitionFormat at h
  simp only [bind_ok, ideWrite_ok] at h
  obtain ⟨_, _, ⟨-, rfl⟩, buf, k1, hm, h⟩ := h
  obtain ⟨h1, -, -⟩ := sysMalloc_ok hm
  cases buf with
  | none => simp at h
  | some buf =>
    simp only [bind_ok, ideWrite_ok] at h
    obtain ⟨_, k2, hn, _, _, ⟨hb, rfl⟩, _, _, ⟨-, rfl⟩, _, _, ⟨-, rfl⟩, _, _, ⟨hd, rfl⟩, hf⟩ := h
    have h2 := noteOverrun_ok hn
    have h3 := sysFree_ok hf
    have h12 := h1.trans h2
    refine ⟨⟨?_, h3.blockBitmap.trans h12.blockBitmap, h3.inodeBitmap.trans h12.inodeBitmap,
      h3.pool.trans h12.pool, h3.grant.trans h12.grant, h12.next.trans h3.next⟩, hb.2, ?_⟩
    · rw [h3.disk, h12.disk]
      rfl
    · simpa using hd.1

theorem format_ranges {startLba secCnt : ℕ} (hf : Formattable startLba secCnt) (hs : 0 < blockBitmapSects secCnt)
    (hd : (formatSuperBlock startLba secCnt).dataStartLba ≤ maxLba) :
    sectorRange (u32 (startLba + 1)) 1 ∧
      sectorRange (formatSuperBlock startLba secCnt).blockBitmapLba
        (formatSuperBlock startLba secCnt).blockBitmapSects ∧
      sectorRange (formatSuperBlock startLba secCnt).inodeBitmapLba
        (formatSuperBlock startLba secCnt).inodeBitmapSects ∧
      sectorRange (formatSuperBlock startLba secCnt).inodeTableLba
        (formatSuperBlock startLba secCnt).inodeTableSects ∧
      sectorRange (formatSuperBlock startLba secCnt).dataStartLba 1 := by
  obtain ⟨l1, l2, l3, l4, l5⟩ := format_layout hf
  have hsects : (formatSuperBlock startLba secCnt).blockBitmapSects = blockBitmapSects secCnt := rfl
  have hone : (formatSuperBlock startLba secCnt).inodeBitmapSects = 1 := rfl
  have htable : (formatSuperBlock startLba secCnt).inodeTableSects = 608 := rfl
  -- naming the bitmap's length keeps its arithmetic folded
  obtain ⟨b, hb⟩ : ∃ b, blockBitmapSects secCnt = b := ⟨_, rfl⟩
  rw [hb] at l2 l3 l4 hs hsects
  rw [l4] at hd
  rw [l1, l2, l3, l4, l5, hsects, hone, htable]
  exact ⟨sectorRange_of_le (by omega) (by omega), sectorRange_of_le (by omega) hs,
    sectorRange_of_le (by omega) (by omega), sectorRange_of_le (by omega) (by omega),
    sectorRange_of_le (by omega) (by omega)⟩

theorem partitionFormat_runs {startLba secCnt : ℕ} (hf : Formattable startLba secCnt) (pad : Memory) {k : Kern}
    (hk : k.Plenty) (hs : 0 < blockBitmapSects secCnt) (hd : (formatSuperBlock startLba secCnt).dataStartLba ≤ maxLba) :
    Runs (partitionFormat startLba secCnt pad) k fun _ _ => True := by
  obtain ⟨r0, r1, r2, r3, r4⟩ := format_ranges hf hs hd
  unfold partitionFormat
  refine Runs.bind (ideWrite_runs r0 _ k) ?_
  rintro _ k0 ⟨-, q0, -⟩
  have hk0 : k0.Plenty := fun i => by rw [q0]; exact hk i
  refine Runs.bind (sysMalloc_runs _ hk0) ?_
  rintro _ k1 ⟨rfl, h1⟩
  refine Runs.bind (noteOverrun_runs _ k1) ?_
  intro _ k2 h2
  refine Runs.bind (ideWrite_runs r1 _ k2) ?_
  rintro _ k3 ⟨p3, -⟩
  refine Runs.bind (ideWrite_runs r2 _ k3) ?_
  rintro _ k4 ⟨p4, -⟩
  refine Runs.bind (ideWrite_runs r3 _ k4) ?_
  rintro _ k5 ⟨p5, -⟩
  refine Runs.bind (ideWrite_runs r4 _ k5) ?_
  rintro _ k6 ⟨p6, -⟩
  refine (sysFree_runs ?_).mono fun _ _ _ => trivial
  rw [p6, p5, p4, p3, h2.pool, h1.pool]

theorem SuperBlock.load_bytes {sb : SuperBlock} (hw : ∀ w ∈ sb.words, w < 2 ^ 32) {pad d : Memory} {a : ℕ}
    (h : ∀ i < 512, d (a + i) = sb.bytes pad i) : SuperBlock.load d a = sb := by
  have hword : ∀ j < 13, word d (a + 4 * j) = sb.words.getD j 0 := by
    intro j hj
    have hlt : sb.words.getD j 0 < 2 ^ 32 := by
      rw [← List.getElem_eq_getD (h := show j < sb.words.length from hj)]
      exact hw _ (List.getElem_mem _)
    rw [← Nat.mod_eq_of_lt hlt, ← word_wordBytes (fun i => sb.words.getD i 0) j]
    apply word_congr
    intro i hi
    rw [Nat.add_assoc, h _ (by omega), SuperBlock.bytes]
    have := @blit_inside pad (wordBytes fun i => sb.words.getD i 0) 0 _ _ (show 4 * j + i < 52 by omega)
    rwa [Nat.zero_add] at this
  have h0 := hword 0 (by omega)
  simp only [Nat.mul_zero, Nat.add_zero] at h0
  simp only [SuperBlock.load, h0, hword 1 (by omega), hword 2 (by omega), hword 3 (by omega), hword 4 (by omega),
    hword 5 (by omega), hword 6 (by omega), hword 7 (by omega), hword 8 (by omega), hword 9 (by omega),
    hword 10 (by omega), hword 11 (by omega), hword 12 (by omega)]
  rfl

theorem formatSuperBlock_words {startLba secCnt : ℕ} (hf : Formattable startLba secCnt) :
    ∀ w ∈ (formatSuperBlock startLba secCnt).words, w < 2 ^ 32 := by
  have hs := hf.small
  have hu : ∀ n, u32 n < 2 ^ 32 := fun n => Nat.mod_lt _ (by omega)
  have hsects : blockBitmapSects secCnt < 2 ^ 32 := (Nat.div_le_self _ _).trans_lt (hu _)
  have hone := inodeBitmapSects_eq
  have htable := inodeTableSects_eq
  simp only [SuperBlock.words, formatSuperBlock, List.forall_mem_cons]
  exact ⟨by omega, by omega, by omega, by omega, hu _, hsects, hu _, by omega, hu _, by omega, hu _, by omega,
    by omega, fun _ h => absurd h List.not_mem_nil⟩

structure FormattedDisk (startLba secCnt : ℕ) (pad d : Memory) : Prop where
  superBlock : ∀ i < 512, d ((startLba + 1) * 512 + i) = (formatSuperBlock startLba secCnt).bytes pad i
  blockBitmap : ∀ i < blockBitmapSects secCnt * 512,
    d ((formatSuperBlock startLba secCnt).blockBitmapLba * 512 + i) = formatBlockBitmap (blockBitmapBitLen secCnt) i
  inodeBitmap : ∀ i < 512,
    d ((formatSuperBlock startLba secCnt).inodeBitmapLba * 512 + i) = Function.update zeros 0 1 i
  inodeTable : ∀ i < 608 * 512, d ((formatSuperBlock startLba secCnt).inodeTableLba * 512 + i) =
    rootInodeTable (formatSuperBlock startLba secCnt).dataStartLba i
  rootDir : ∀ i < 512, d ((formatSuperBlock startLba secCnt).dataStartLba * 512 + i) = dotEntries 0 0 i

theorem formatDisk_regions {startLba secCnt : ℕ} (hf : Formattable startLba secCnt) (pad d : Memory) :
    FormattedDisk startLba secCnt pad (formatDisk startLba secCnt pad d) := by
  obtain ⟨l1, l2, l3, l4, l5⟩ := format_layout hf
  have hsects : (formatSuperBlock startLba secCnt).blockBitmapSects = blockBitmapSects secCnt := rfl
  have hone : (formatSuperBlock startLba secCnt).inodeBitmapSects = 1 := rfl
  have htable : (formatSuperBlock startLba secCnt).inodeTableSects = 608 := rfl
  constructor <;> intro i hi <;> simp only [formatDisk, hsects, hone, htable, l5]
  · rw [blit_outside _ _ (by omega), blit_outside _ _ (by omega), blit_outside _ _ (by omega),
      blit_outside _ _ (by omega), blit_inside _ _ (by omega)]
  · rw [blit_outside _ _ (by omega), blit_outside _ _ (by omega), blit_outside _ _ (by omega),
      blit_inside _ _ (by omega)]
  · rw [blit_outside _ _ (by omega), blit_outside _ _ (by omega), blit_inside _ _ (by omega)]
  · rw [blit_outside _ _ (by omega), blit_inside _ _ (by omega)]
  · rw [blit_inside _ _ (by omega)]

theorem partitionFormat_disk {startLba secCnt : ℕ} (hf : Formattable startLba secCnt) {pad : Memory} {u : Unit}
    {k k' : Kern} (h : partitionFormat startLba secCnt pad k = .ok (u, k')) :
    FormattedDisk startLba secCnt pad k'.disk := by
  have hd := (partitionFormat_ok h).1.disk
  dsimp only at hd
  rw [hd]
  exact formatDisk_regions hf pad k.disk

/-- The partition that `mount_partition` finds on a formatted disk. -/
def formattedPartition (startLba secCnt : ℕ) : Partition := ⟨startLba, secCnt, formatSuperBlock startLba secCnt⟩

theorem mountPartition_ok {startLba secCnt : ℕ} (hf : Formattable startLba secCnt) {pad : Memory} {k k' : Kern}
    {part : Partition} (hd : FormattedDisk startLba secCnt pad k.disk)
    (h : mountPartition startLba secCnt k = .ok (part, k')) :
    part = formattedPartition startLba secCnt ∧ k'.disk = k.disk ∧ k'.pool = k.pool ∧ k'.heap.grant = k.heap.grant ∧
      k.heap.next ≤ k'.heap.next ∧
      k'.blockBitmap = ⟨blockBitmapSects secCnt * 512, blit zeros 0 (slice k.disk
        ((formatSuperBlock startLba secCnt).blockBitmapLba * 512)) (blockBitmapSects secCnt * 512)⟩ ∧
      k'.inodeBitmap = ⟨512, blit zeros 0 (slice k.disk
        ((formatSuperBlock startLba secCnt).inodeBitmapLba * 512)) 512⟩ := by
  obtain ⟨l1, l2, l3, l4, l5⟩ := format_layout hf
  have hbytes : u32 (blockBitmapSects secCnt * 512) = blockBitmapSects secCnt * 512 := by
    obtain ⟨-, hc, -⟩ := format_counts hf
    have hs := hf.small
    obtain ⟨-, -, hc'⟩ := format_counts hf
    rw [u32]
    omega
  unfold mountPartition at h
  simp only [bind_ok] at h
  obtain ⟨b1, k1, hm1, h⟩ := h
  cases b1 with
  | none => simp at h
  | some b1 =>
  simp only [bind_ok] at h
  obtain ⟨b2, k2, hm2, h⟩ := h
  cases b2 with
  | none => simp at h
  | some b2 =>
  simp only [bind_ok] at h
  obtain ⟨b3, k3, hr3, b4, k4, hm4, h⟩ := h
  cases b4 with
  | none => simp at h
  | some b4 =>
  simp only [bind_ok] at h
  obtain ⟨b5, k5, hr5, _, k6, hmod6, b7, k7, hm7, h⟩ := h
  cases b7 with
  | none => simp at h
  | some b7 =>
  simp only [bind_ok, pure_ok] at h
  obtain ⟨b8, k8, hr8, _, k9, hmod9, hpart, rfl⟩ := h
  simp only [modify_ok] at hmod6 hmod9
  obtain ⟨h1, -, -⟩ := sysMalloc_ok hm1
  obtain ⟨h2, -, -⟩ := sysMalloc_ok hm2
  obtain ⟨-, h3, hb3⟩ := ideRead_ok hr3
  obtain ⟨h4, -, hb4⟩ := sysMalloc_ok hm4
  obtain ⟨-, h5, hb5⟩ := ideRead_ok hr5
  obtain ⟨h7, -, hb7⟩ := sysMalloc_ok hm7
  obtain ⟨-, h8, hb8⟩ := ideRead_ok hr8
  have h12 := h1.trans h2
  have h14 := (h12.trans h3).trans h4
  have h15 := h14.trans h5
  have hsb : SuperBlock.load b3.bytes 0 = formatSuperBlock startLba secCnt := by
    apply @SuperBlock.load_bytes _ (formatSuperBlock_words hf) pad
    intro i hi
    rw [hb3]
    change blit _ 0 _ _ (0 + i) = _
    rw [blit_inside _ _ (by omega), slice, h12.disk, l5]
    exact hd.superBlock i hi
  rw [hsb] at hpart hm4 hr5 hmod6 hm7 hr8 hmod9 hb4 hb5 hb7 hb8
  have hz4 : b4.bytes = zeros := by
    simp only [reduceCtorEq, false_or, Option.some.injEq] at hb4
    rw [hb4]
  have hz7 : b7.bytes = zeros := by
    simp only [reduceCtorEq, false_or, Option.some.injEq] at hb7
    rw [hb7]
  have hk6 : k6.disk = k.disk := by rw [← hmod6]; exact h15.disk
  have h78 := h7.trans h8
  subst hmod9
  refine ⟨hpart.symm, h78.disk.trans hk6, ?_, ?_, ?_, ?_, ?_⟩
  · rw [← h15.pool, show k5.pool = k6.pool by rw [← hmod6]]
    exact h78.pool
  · rw [← h15.grant, show k5.heap = k6.heap by rw [← hmod6]]
    exact h78.grant
  · have hk5 : k5.heap = k6.heap := by rw [← hmod6]
    exact h15.next.trans (hk5 ▸ h78.next)
  · change k8.blockBitmap = _
    rw [h78.blockBitmap, ← hmod6, hb5, h14.disk, hz4]
    change Bitmap.mk (u32 (blockBitmapSects secCnt * 512)) _ = _
    rw [hbytes]
    rfl
  · rw [hb8, hz7, h7.disk, hk6]
    change Bitmap.mk (u32 (1 * 512)) (blit zeros 0 _ (1 * 512)) = _
    rw [u32, Nat.mod_eq_of_lt (by omega)]

theorem mountPartition_runs {startLba secCnt : ℕ} (hf : Formattable startLba secCnt) {pad : Memory} {k : Kern}
    (hd : FormattedDisk startLba secCnt pad k.disk) (hk : k.Plenty) (hs : 0 < blockBitmapSects secCnt)
    (hm : (formatSuperBlock startLba secCnt).dataStartLba ≤ maxLba) :
    Runs (mountPartition startLba secCnt) k fun _ _ => True := by
  obtain ⟨r0, r1, r2, -, -⟩ := format_ranges hf hs hm
  unfold mountPartition
  refine Runs.bind (sysMalloc_runs 512 hk) ?_
  rintro _ k1 ⟨rfl, h1⟩
  refine Runs.bind (sysMalloc_runs 512 (h1.plenty hk)) ?_
  rintro _ k2 ⟨rfl, h2⟩
  have h12 := h1.trans h2
  refine Runs.bind (ideRead_runs r0 _ k2) ?_
  rintro _ k3 ⟨rfl, h3⟩
  have hsb : SuperBlock.load (blit zeros 0 (slice k2.disk (u32 (startLba + 1) * 512)) (1 * 512)) 0 =
      formatSuperBlock startLba secCnt := by
    apply @SuperBlock.load_bytes _ (formatSuperBlock_words hf) pad
    intro i hi
    rw [blit_inside _ _ (by omega), slice, h12.disk, (format_layout hf).2.2.2.2]
    exact hd.superBlock i hi
  simp only [hsb]
  refine Runs.bind (sysMalloc_runs _ (h3.plenty (h12.plenty hk))) ?_
  rintro _ k4 ⟨rfl, h4⟩
  refine Runs.bind (ideRead_runs r1 _ k4) ?_
  rintro _ k5 ⟨rfl, h5⟩
  have hk5 := h5.plenty (h4.plenty (h3.plenty (h12.plenty hk)))
  refine Runs.bind (P := fun _ k6 => k6.heap = k5.heap) ⟨_, _, modify_eq _ _, rfl⟩ ?_
  intro _ k6 h6
  have hk6 : k6.Plenty := fun i => by rw [h6]; exact hk5 i
  refine Runs.bind (sysMalloc_runs _ hk6) ?_
  rintro _ k7 ⟨rfl, h7⟩
  refine Runs.bind (ideRead_runs r2 _ k7) ?_
  rintro _ k8 ⟨rfl, h8⟩
  refine Runs.bind (P := fun _ _ => True) ⟨_, _, modify_eq _ _, trivial⟩ ?_
  intro _ k9 _
  exact ⟨_, _, rfl, trivial⟩

end ElephantOS
