import ElephantOS.FileGrow

/-! `file_write` of `fs/file.c`. -/

namespace ElephantOS

open ByteMemory HaltingState

/-- A cleared sector buffer, filled from the disk for the first block that is written. -/
def loadSector (firstWriteBlock : Bool) (secLba : ℕ) (ioBuf : Buffer) : KernM Buffer := do
  let ioBuf := { ioBuf with bytes := blit ioBuf.bytes 0 zeros 512 }
  if firstWriteBlock then ideRead secLba ioBuf 1 else return ioBuf

/-- The loop of `file_write` that stores the data, in at most `fuel` rounds. -/
def writeLoop (allBlocks : ℕ → ℕ) (buf : Memory) (count : ℕ) :
    ℕ → ℕ → Bool → Buffer → File → Inode → KernM (ℕ × Buffer × File × Inode)
  | 0, bytesWritten, _, ioBuf, file, inode => return (bytesWritten, ioBuf, file, inode)
  | fuel + 1, bytesWritten, firstWriteBlock, ioBuf, file, inode =>
    if bytesWritten < count then do
      let secIdx := inode.iSize / 512
      bound (secIdx < 140)
      let secLba := allBlocks secIdx
      let secOffBytes := inode.iSize % 512
      let secLeftBytes := 512 - secOffBytes
      let chunkSize := min (count - bytesWritten) secLeftBytes
      let ioBuf ← loadSector firstWriteBlock secLba ioBuf
      let ioBuf := { ioBuf with bytes := blit ioBuf.bytes secOffBytes (slice buf bytesWritten) chunkSize }
      ideWrite secLba ioBuf.bytes 1
      writeLoop allBlocks buf count fuel (bytesWritten + chunkSize) false ioBuf
        { file with fdPos := u32 (file.fdPos + chunkSize) } { inode with iSize := u32 (inode.iSize + chunkSize) }
    else return (bytesWritten, ioBuf, file, inode)

/-- `file_write`; the file and its inode are passed in and handed back. -/
def fileWrite (K : Kernel) (file : File) (inode : Inode) (buf : Memory) (count : ℕ) : KernM (ℤ × File × Inode) := do
  if u32 (inode.iSize + count) > 512 * 140 then return (-1, file, inode)
  let some ioBuf ← sysMalloc 512 | return (-1, file, inode)
  let some allBlocks ← sysMalloc (512 + 48) | return (-1, file, inode)
  let (ok, inode) ← firstBlock K inode
  if !ok then return (-1, file, inode)
  let fileHasUsedBlocks := inode.iSize / 512 + 1
  let fileWillUseBlocks := u32 (inode.iSize + count) / 512 + 1
  assert (fileWillUseBlocks ≤ 140)
  let (ok, inode, blocks) ← collectBlocks K fileHasUsedBlocks fileWillUseBlocks inode
  if !ok then return (-1, file, inode)
  let file := { file with fdPos := u32 (inode.iSize + 2 ^ 32 - 1) }
  let (bytesWritten, ioBuf, file, inode) ← writeLoop blocks buf count count 0 true ioBuf file inode
  inodeSync K inode ioBuf
  sysFree allBlocks.ptr
  sysFree ioBuf.ptr
  return (int32 bytesWritten, file, inode)

/-- Disk address of byte `q` of a file whose blocks lie at `blocks`. -/
def byteAddr (blocks : ℕ → ℕ) (q : ℕ) : ℕ := blocks (q / 512) * 512 + q % 512

theorem byteAddr_sector (blocks : ℕ → ℕ) (q : ℕ) : byteAddr blocks q ∈ sector (blocks (q / 512)) :=
  ⟨by unfold byteAddr; omega, by unfold byteAddr; omega⟩

theorem writeChunk {blocks : ℕ → ℕ} {buf base d : Memory} {size bw chunk : ℕ} (hc : (size + bw) % 512 + chunk ≤ 512)
    (hbase : ∀ i < (size + bw) % 512, base i = d (blocks ((size + bw) / 512) * 512 + i))
    {d1 : Memory} (hd1 : d1 = blit d (blocks ((size + bw) / 512) * 512)
      (blit base ((size + bw) % 512) (slice buf bw) chunk) (1 * 512)) :
    SameOff (sector (blocks ((size + bw) / 512))) d d1 ∧
      (∀ q, size + bw ≤ q → q < size + bw + chunk → d1 (byteAddr blocks q) = buf (q - size)) ∧
      (∀ q, q / 512 = (size + bw) / 512 → q < size + bw → d1 (byteAddr blocks q) = d (byteAddr blocks q)) := by
  subst hd1
  refine ⟨blit_sameOff _ _ fun a h1 h2 => ⟨h1, by omega⟩, ?_, ?_⟩
  · intro q h1 h2
    have hq : q / 512 = (size + bw) / 512 := by omega
    have hm : q % 512 = (size + bw) % 512 + (q - (size + bw)) := by omega
    rw [byteAddr, hq, blit_inside _ _ (by omega), hm, blit_inside _ _ (by omega), slice]
    congr 1
    omega
  · intro q hq h2
    rw [byteAddr, hq, blit_inside _ _ (by omega), blit_outside _ _ (by omega), hbase _ (by omega)]

theorem loadSector_ok {first : Bool} {lba : ℕ} {ioBuf buf : Buffer} {k k' : Kern}
    (h : loadSector first lba ioBuf k = .ok (buf, k')) :
    HeapOnly k k' ∧ buf.ptr = ioBuf.ptr ∧ (first = true → ∀ i < 512, buf.bytes i = k.disk (lba * 512 + i)) := by
  unfold loadSector at h
  cases first with
  | true =>
    obtain ⟨-, hk, rfl⟩ := ideRead_ok h
    refine ⟨hk, rfl, fun _ i hi => ?_⟩
    have := @blit_inside (blit ioBuf.bytes 0 zeros 512) (slice k.disk (lba * 512)) 0 _ _ (show i < 1 * 512 by omega)
    rwa [Nat.zero_add] at this
  | false =>
    simp only [Bool.false_eq_true, if_false, pure_ok] at h
    obtain ⟨rfl, rfl⟩ := h
    exact ⟨HeapOnly.refl _, rfl, fun h => by simp at h⟩

theorem writeLoop_ok {blocks : ℕ → ℕ} {buf : Memory} {count fuel size bw bw' : ℕ} {first : Bool} {ioBuf ioBuf' : Buffer}
    {file file' : File} {inode inode' : Inode} {k k' : Kern} (hfuel : count ≤ bw + fuel) (hbw : bw ≤ count)
    (hsize : inode.iSize = size + bw) (hlt : size + count < 2 ^ 32)
    (hfirst : first = false → bw < count → (size + bw) % 512 = 0)
    (hinj : ∀ p q, size / 512 ≤ p → p ≤ (size + count) / 512 → size / 512 ≤ q → q ≤ (size + count) / 512 →
      blocks p = blocks q → p = q)
    (h : writeLoop blocks buf count fuel bw first ioBuf file inode k = .ok ((bw', ioBuf', file', inode'), k')) :
    bw' = count ∧ inode' = { inode with iSize := size + count } ∧ file' = { file with fdPos := file'.fdPos } ∧
      ioBuf'.ptr = ioBuf.ptr ∧ k'.blockBitmap = k.blockBitmap ∧ k'.inodeBitmap = k.inodeBitmap ∧ Steady k k' ∧
      SameOff {a | ∃ p, (size + bw) / 512 ≤ p ∧ 512 * p < size + count ∧ a ∈ sector (blocks p)} k.disk k'.disk ∧
      (∀ q, size + bw ≤ q → q < size + count → k'.disk (byteAddr blocks q) = buf (q - size)) ∧
      (∀ q, size / 512 ≤ q / 512 → q < size + bw → k'.disk (byteAddr blocks q) = k.disk (byteAddr blocks q)) := by
  induction fuel generalizing bw first ioBuf file inode k with
  | zero =>
    obtain rfl : bw = count := by omega
    simp only [writeLoop, pure_ok, Prod.mk.injEq] at h
    obtain ⟨⟨rfl, rfl, rfl, rfl⟩, rfl⟩ := h
    refine ⟨rfl, by rw [← hsize], rfl, rfl, rfl, rfl, Steady.refl _, SameOff.refl _ _, fun q h1 h2 => by omega, fun _ _ _ => rfl⟩
  | succ fuel ih =>
    unfold writeLoop at h
    by_cases hc : bw < count
    · rw [if_pos hc] at h
      simp only [bind_ok, bound_ok] at h
      obtain ⟨_, _, ⟨-, rfl⟩, buf1, k1, hload, _, k2, hwr, h⟩ := h
      obtain ⟨hk1, hptr, hbase⟩ := loadSector_ok hload
      obtain ⟨-, rfl⟩ := (ideWrite_ok _ _ _ _ _ _).mp hwr
      rw [hsize] at h hbase
      generalize hchunk : min (count - bw) (512 - (size + bw) % 512) = chunk at h
      have hmod : (size + bw) % 512 < 512 := Nat.mod_lt _ (by omega)
      have hchunk1 : 1 ≤ chunk ∧ bw + chunk ≤ count ∧ (size + bw) % 512 + chunk ≤ 512 ∧
          (bw + chunk < count → (size + bw) % 512 + chunk = 512) := by omega
      obtain ⟨c1, c2, c3, c4⟩ := hchunk1
      have hdisk : k1.disk = k.disk := hk1.disk
      have hbase' : ∀ i < (size + bw) % 512, buf1.bytes i = k1.disk (blocks ((size + bw) / 512) * 512 + i) := by
        intro i hi
        cases hfst : first with
        | true => rw [hdisk]; exact hbase hfst i (by omega)
        | false => have := hfirst hfst hc; omega
      obtain ⟨hoff, hin, hbefore⟩ := @writeChunk blocks buf _ _ _ _ _ c3 hbase' _ rfl
      have hu : u32 (size + bw + chunk) = size + (bw + chunk) := by
        rw [u32, Nat.mod_eq_of_lt (by omega)]
        omega
      obtain ⟨h1, h2, h3, h0, h4, h5, h6, h7, h8, h9⟩ := ih (by omega) c2 hu (fun _ hlt' => by omega) h
      -- an earlier block is not the one this round wrote
      have hkeep : ∀ q, size / 512 ≤ q / 512 → q < size + bw → q / 512 ≠ (size + bw) / 512 →
          byteAddr blocks q ∉ sector (blocks ((size + bw) / 512)) := by
        intro q hq1 hq2 hne hmem
        have he := sector_disjoint (byteAddr_sector blocks q) hmem
        exact hne (hinj _ _ hq1 (by omega) (by omega) (by omega) he)
      refine ⟨h1, by rw [h2], by rw [h3], h0.trans hptr, h4.trans hk1.blockBitmap, h5.trans hk1.inodeBitmap,
        hk1.steady.trans ⟨h6.pool, h6.grant, h6.next⟩, ?_, ?_, ?_⟩
      · rw [← hdisk]
        refine (hoff.mono fun a ha => ?_).trans (h7.mono fun a ha => ?_)
        · exact ⟨_, le_refl _, by omega, ha⟩
        · obtain ⟨p, hp1, hp2, hp3⟩ := ha
          exact ⟨p, by omega, hp2, hp3⟩
      · intro q hq1 hq2
        by_cases hq : q < size + (bw + chunk)
        · rw [h9 q (by omega) hq]
          exact hin q hq1 (by omega)
        · exact h8 q (by omega) hq2
      · intro q hq1 hq2
        rw [h9 q hq1 (by omega), ← hdisk]
        by_cases hq : q / 512 = (size + bw) / 512
        · exact hbefore q hq hq2
        · exact hoff _ (hkeep q hq1 hq2 hq)
    · obtain rfl : bw = count := by omega
      rw [if_neg hc] at h
      simp only [pure_ok, Prod.mk.injEq] at h
      obtain ⟨⟨rfl, rfl, rfl, rfl⟩, rfl⟩ := h
      refine ⟨rfl, by rw [← hsize], rfl, rfl, rfl, rfl, Steady.refl _, SameOff.refl _ _, fun q h1 h2 => by omega, fun _ _ _ => rfl⟩

def usedBlocks (inode : Inode) : ℕ := if inode.iSectors 0 = 0 then 0 else inode.iSize / 512 + 1

/-- A regular file between two calls: it has exactly the blocks its size asks for. -/
structure FileOk (part : Partition) (k : Kern) (inode : Inode) : Prop where
  owns : Owns part k inode
  blocks : HasBlocks k.disk inode (usedBlocks inode)
  empty : inode.iSectors 0 = 0 → inode.iSize = 0
  small : inode.iSize < 140 * 512

theorem FileOk.congr {part : Partition} {k k' : Kern} {inode : Inode} (h : FileOk part k inode) (hd : k'.disk = k.disk)
    (hb : k'.blockBitmap = k.blockBitmap) : FileOk part k' inode where
  owns := ⟨by simpa only [UsedBlock, hd, hb] using h.owns.used, by simpa only [hd] using h.owns.inj⟩
  blocks := hd ▸ h.blocks
  empty := h.empty
  small := h.small

/-- Byte `q` of the contents. -/
def fileByte (d : Memory) (inode : Inode) (q : ℕ) : UInt8 := d (byteAddr (blockAddr d inode) q)

theorem Collected.fileByte {part : Partition} {has will : ℕ} {k k' : Kern} {inode inode' : Inode} {all : ℕ → ℕ}
    (h : Collected part has will k inode k' inode' all) (hl : Layout part k.blockBitmap.btmpBytesLen)
    (ho : Owns part k inode) (hb : HasBlocks k.disk inode has) {q : ℕ} (hq : q / 512 < has) (hq' : q / 512 < 140) :
    fileByte k'.disk inode' q = ElephantOS.fileByte k.disk inode q := by
  have hn : blockAddr k.disk inode (q / 512) ≠ 0 := (hb.block _ hq').mpr hq
  have hr : ∀ (d : Memory) (i : Inode), refAddr d i (q / 512) = blockAddr d i (q / 512) := fun _ _ => if_neg (by omega)
  have hkeep := h.grown.keep (q / 512) (by omega) (by rw [hr]; exact hn)
  rw [hr, hr] at hkeep
  have hsec := byteAddr_sector (blockAddr k.disk inode) q
  unfold ElephantOS.fileByte
  rw [show byteAddr (blockAddr k'.disk inode') q = byteAddr (blockAddr k.disk inode) q by rw [byteAddr, hkeep]; rfl]
  apply h.disk
  rintro (ha | ⟨-, ha⟩)
  · exact hl.data_off (sector_data (ho.block_data hq' hn) hsec) ha
  · have ho' := h.grown.owns ho
    have he := sector_disjoint hsec ha
    rw [← hkeep] at he hn
    exact ho'.block_ne_table hq' hn he

theorem Owns.store {part : Partition} {k : Kern} {inode inode' : Inode} {will n : ℕ} {d d' : Memory}
    (hl : Layout part k.blockBitmap.btmpBytesLen) (ho : Owns part k inode) (hb : HasBlocks k.disk inode will)
    (hw : will ≤ 140) (hs : inode'.iSectors = inode.iSectors) (hn : n < 4096)
    (hd : SameOff {a | ∃ p < will, a ∈ sector (blockAddr k.disk inode p)} k.disk d)
    (hd' : SameOff (inodeSlot part n) d d') :
    (∀ p < 141, refAddr d' inode' p = refAddr k.disk inode p) ∧
      ∀ q, q / 512 < will → fileByte d' inode' q = d (byteAddr (blockAddr k.disk inode) q) := by
  have htab : inode.iSectors 12 ≠ 0 → SameOn k.disk d' (inode.iSectors 12 * 512) 512 := by
    intro ht i hi
    have hsec : inode.iSectors 12 * 512 + i ∈ sector (inode.iSectors 12) := ⟨by omega, by omega⟩
    rw [hd' _ (hl.data_off_slot hn (sector_data (ho.table_data ht) hsec)), hd]
    rintro ⟨p, hp, hmem⟩
    exact ho.block_ne_table (by omega) ((hb.block p (by omega)).mpr hp) (sector_disjoint hmem hsec)
  refine ⟨fun p hp => refAddr_congr (fun p _ => by rw [hs]) htab hp, fun q hq => ?_⟩
  have hnz := (hb.block (q / 512) (by omega)).mpr hq
  have haddr : blockAddr d' inode' (q / 512) = blockAddr k.disk inode (q / 512) :=
    blockAddr_congr (fun p _ => by rw [hs]) htab (by omega)
  have hsec := byteAddr_sector (blockAddr k.disk inode) q
  unfold fileByte
  rw [show byteAddr (blockAddr d' inode') q = byteAddr (blockAddr k.disk inode) q by rw [byteAddr, haddr]; rfl]
  exact hd' _ (hl.data_off_slot hn (sector_data (ho.block_data (by omega) hnz) hsec))

/-- The first clear bit after those taken for a first block and a table: the condition under which
`file_write` writes back the bit of a new indirect table. -/
def TableTogether (b : Bitmap) (inode : Inode) : Prop :=
  if inode.iSectors 0 = 0 then
    ∀ i, b.scanTest i = false → (∀ j < i, b.scanTest j = true) → NextTwoTogether (b.set i true)
  else NextTwoTogether b

/-- A completed `file_write` of `count` bytes. -/
structure Written (K : Kernel) (buf : Memory) (count : ℕ) (k : Kern) (inode : Inode) (k' : Kern) (inode' : Inode) :
    Prop where
  grown : Grown K.toPartition k inode k' inode'
  file : FileOk K.toPartition k' inode'
  first : inode'.iSectors 0 ≠ 0
  fields : inode' = { inode with
    iSize := inode.iSize + count
    iSectors := inode'.iSectors }
  old : ∀ q < inode.iSize, fileByte k'.disk inode' q = fileByte k.disk inode q
  new : ∀ q, inode.iSize ≤ q → q < inode.iSize + count → fileByte k'.disk inode' q = buf (q - inode.iSize)
  number : K.inodeNo inode.iNo < 4096
  stored : ∀ i < inodeSize, k'.disk (inodeAddr K.toPartition (K.inodeNo inode.iNo) + i) = wordBytes inode'.pureWords i
  disk : SameOff (blockBitmapArea K.toPartition k.blockBitmap.btmpBytesLen ∪
    (inodeSlot K.toPartition (K.inodeNo inode.iNo) ∪ ownSectors k'.disk inode')) k.disk k'.disk
  inodeBitmap : k'.inodeBitmap = k.inodeBitmap
  steady : Steady k k'
  sync : (usedBlocks inode ≤ 12 → 12 * 512 ≤ inode.iSize + count → TableTogether k.blockBitmap inode) →
    ∀ j, j * 512 < k.blockBitmap.btmpBytesLen → SyncedAt K.toPartition k j → SyncedAt K.toPartition k' j

theorem growStage {K : Kernel} {inode inode1 inode2 : Inode} {count : ℕ} {ok1 ok2 : Bool} {blocks : ℕ → ℕ}
    {k k1 k2 : Kern} (hl : Layout K.toPartition k.blockBitmap.btmpBytesLen) (hf : FileOk K.toPartition k inode)
    (hw : (inode.iSize + count) / 512 + 1 ≤ 140) (h1 : firstBlock K inode k = .ok ((ok1, inode1), k1))
    (h2 : collectBlocks K (inode.iSize / 512 + 1) ((inode.iSize + count) / 512 + 1) inode1 k1 =
      .ok ((ok2, inode2, blocks), k2)) :
    ok1 = true ∧ ok2 = true ∧ inode1.iSize = inode.iSize ∧ Grown K.toPartition k inode k2 inode2 ∧
      HasBlocks k2.disk inode2 ((inode.iSize + count) / 512 + 1) ∧
      inode2 = { inode with iSectors := inode2.iSectors } ∧
      (∀ p, inode.iSize / 512 ≤ p → p ≤ (inode.iSize + count) / 512 → blocks p = blockAddr k2.disk inode2 p) ∧
      (∀ q < inode.iSize, fileByte k2.disk inode2 q = fileByte k.disk inode q) ∧
      SameOff (blockBitmapArea K.toPartition k.blockBitmap.btmpBytesLen ∪ ownSectors k2.disk inode2) k.disk k2.disk ∧
      k2.inodeBitmap = k.inodeBitmap ∧ Steady k k2 ∧
      ((usedBlocks inode ≤ 12 → 12 * 512 ≤ inode.iSize + count → TableTogether k.blockBitmap inode) →
        ∀ j, j * 512 < k.blockBitmap.btmpBytesLen → SyncedAt K.toPartition k j → SyncedAt K.toPartition k2 j) := by
  have h0 : inode.iSectors 0 ≠ 0 ↔ 0 < usedBlocks inode := hf.blocks.block 0 (by omega)
  obtain ⟨hhas, hcase⟩ : max (usedBlocks inode) 1 = inode.iSize / 512 + 1 ∧
      (usedBlocks inode = 0 ∧ inode.iSize = 0 ∨ usedBlocks inode = inode.iSize / 512 + 1) := by
    have he := hf.empty
    unfold usedBlocks
    split_ifs with hz
    · rw [he hz]
      simp
    · simp
  obtain ⟨rfl, hc1, hsame, hnew⟩ := firstBlock_ok hl hf.blocks h1
  rw [hhas] at hc1
  have hsize : inode1.iSize = inode.iSize := by rw [hc1.fields]
  have ho1 := hc1.grown.owns hf.owns
  have hl1 : Layout K.toPartition k1.blockBitmap.btmpBytesLen := by rw [hc1.grown.len]; exact hl
  obtain ⟨rfl, hc2⟩ := collectBlocks_ok hl1 ho1 (by omega) (by omega) hw hc1.blocks h2
  have htable : ∀ a, inode2.iSectors 12 ≠ 0 → a ∈ sector (inode2.iSectors 12) → a ∈ ownSectors k2.disk inode2 :=
    fun a ht ha => ⟨140, by omega, by simpa [refAddr] using ht, by simpa [refAddr] using ha⟩
  refine ⟨rfl, rfl, hsize, hc1.grown.trans hc2.grown, hc2.blocks, ?_, fun p hp1 hp2 => hc2.all p (by omega) (by omega), ?_, ?_,
    hc2.inodeBitmap.trans hc1.inodeBitmap, ?_, ?_⟩
  · rw [hc2.fields, hc1.fields]
  · intro q hq
    rw [hc2.fileByte hl1 ho1 hc1.blocks (by omega) (by omega), hc1.fileByte hl hf.owns hf.blocks (by omega) (by omega)]
  · refine (hc1.disk.mono ?_).trans (SameOff.mono (hc1.grown.len ▸ hc2.disk) ?_)
    · rintro a (ha | ⟨hlt, ha⟩)
      · exact .inl ha
      · have ht := hc1.blocks.table.mpr hlt
        have hkeep := hc2.grown.keep 140 (by omega) (by simpa [refAddr] using ht)
        simp only [refAddr, if_true] at hkeep
        rw [← hkeep] at ha ht
        exact .inr (htable a ht ha)
    · rintro a (ha | ⟨hlt, ha⟩)
      · exact .inl ha
      · exact .inr (htable a (hc2.blocks.table.mpr hlt) ha)
  · refine ⟨hc2.pool.trans hc1.pool, ?_, ?_⟩
    · rw [hc2.heap, hc1.heap]
    · rw [hc2.heap, hc1.heap]
  · intro htog j hj hs
    have hs1 := hc1.sync (fun h1 h2 => by omega) j hj hs
    refine hc2.sync (fun h12 hwill => ?_) j (by rw [hc1.grown.len]; exact hj) hs1
    have ht := htog (by omega) (by omega)
    unfold TableTogether at ht
    split_ifs at ht with hz
    · obtain ⟨i, hi, hfst, hbits⟩ := hnew (by omega)
      exact (ht i hi hfst).congr hbits
    · obtain ⟨rfl, -⟩ := hsame (by omega)
      exact ht

theorem Owns.blocks_inj {part : Partition} {blocks : ℕ → ℕ} {count : ℕ} {inode : Inode} {k : Kern} (ho : Owns part k inode)
    (hb : HasBlocks k.disk inode ((inode.iSize + count) / 512 + 1)) (hw : (inode.iSize + count) / 512 + 1 ≤ 140)
    (hall : ∀ p, inode.iSize / 512 ≤ p → p ≤ (inode.iSize + count) / 512 → blocks p = blockAddr k.disk inode p) :
    ∀ p q, inode.iSize / 512 ≤ p → p ≤ (inode.iSize + count) / 512 → inode.iSize / 512 ≤ q →
      q ≤ (inode.iSize + count) / 512 → blocks p = blocks q → p = q := by
  intro p q hp1 hp2 hq1 hq2 he
  rw [hall p hp1 hp2, hall q hq1 hq2] at he
  exact ho.block_inj (by omega) (by omega) ((hb.block p (by omega)).mpr (by omega)) he

/-- The data and then the inode have been stored, in a file that had all its blocks in `k`. -/
structure Stored (K : Kernel) (buf : Memory) (count : ℕ) (k : Kern) (inode : Inode) (k' : Kern) (inode' : Inode) :
    Prop where
  fields : inode' = { inode with iSize := inode.iSize + count }
  ref : ∀ p < 141, refAddr k'.disk inode' p = refAddr k.disk inode p
  old : ∀ q < inode.iSize, fileByte k'.disk inode' q = fileByte k.disk inode q
  new : ∀ q, inode.iSize ≤ q → q < inode.iSize + count → fileByte k'.disk inode' q = buf (q - inode.iSize)
  slot : ∀ i < inodeSize, k'.disk (inodeAddr K.toPartition (K.inodeNo inode.iNo) + i) = wordBytes inode'.pureWords i
  disk : SameOff (inodeSlot K.toPartition (K.inodeNo inode.iNo) ∪ ownSectors k.disk inode) k.disk k'.disk
  blockBitmap : k'.blockBitmap = k.blockBitmap
  inodeBitmap : k'.inodeBitmap = k.inodeBitmap
  steady : Steady k k'

theorem storeStage {K : Kernel} {blocks : ℕ → ℕ} {buf : Memory} {count bw : ℕ} {io io' : Buffer} {file file' : File}
    {inode inode' : Inode} {k k1 k' : Kern} (hl : Layout K.toPartition k.blockBitmap.btmpBytesLen)
    (ho : Owns K.toPartition k inode) (hb : HasBlocks k.disk inode ((inode.iSize + count) / 512 + 1))
    (hw : (inode.iSize + count) / 512 + 1 ≤ 140)
    (hall : ∀ p, inode.iSize / 512 ≤ p → p ≤ (inode.iSize + count) / 512 → blocks p = blockAddr k.disk inode p)
    (hwl : writeLoop blocks buf count count 0 true io file inode k = .ok ((bw, io', file', inode'), k1))
    (hn : K.inodeNo inode'.iNo < 4096)
    (hk : HeapOnly { k1 with
      disk := blit k1.disk (inodeAddr K.toPartition (K.inodeNo inode'.iNo)) (wordBytes inode'.pureWords) inodeSize } k') :
    bw = count ∧ file' = { file with fdPos := file'.fdPos } ∧ Stored K buf count k inode k' inode' := by
  obtain ⟨rfl, rfl, hfile, -, hbb, hib, hst, hoff, hnew, hold⟩ := writeLoop_ok (by omega) (by omega) rfl (by omega)
    (fun h => by simp at h) (ho.blocks_inj hb hw hall) hwl
  have hd := hk.disk
  dsimp only at hd
  have hoff' : SameOff {a | ∃ p < (inode.iSize + bw) / 512 + 1, a ∈ sector (blockAddr k.disk inode p)} k.disk k1.disk := by
    refine hoff.mono ?_
    rintro a ⟨p, hp1, hp2, ha⟩
    rw [hall p (by omega) (by omega)] at ha
    exact ⟨p, by omega, ha⟩
  have hslot : SameOff (inodeSlot K.toPartition (K.inodeNo inode.iNo)) k1.disk k'.disk := by
    rw [hd]
    exact blit_sameOff _ _ fun a h1 h2 => ⟨h1, h2⟩
  obtain ⟨href, hbyte⟩ := @Owns.store _ _ _ { inode with iSize := inode.iSize + bw } _ _ _ _ hl ho hb hw rfl hn hoff' hslot
  refine ⟨rfl, hfile, rfl, href, ?_, ?_, ?_, ?_, hk.blockBitmap.trans hbb, hk.inodeBitmap.trans hib,
    hst.trans ⟨hk.pool, hk.grant, hk.next⟩⟩
  · intro q hq
    rw [hbyte q (by omega)]
    by_cases hblk : inode.iSize / 512 ≤ q / 512
    · have := hold q hblk hq
      rwa [byteAddr, hall (q / 512) hblk (by omega)] at this
    · apply hoff
      rintro ⟨p, hp1, hp2, hmem⟩
      rw [hall p (by omega) (by omega)] at hmem
      have he := sector_disjoint (byteAddr_sector (blockAddr k.disk inode) q) hmem
      have := ho.block_inj (by omega) (by omega) ((hb.block _ (by omega)).mpr (by omega)) he
      omega
  · intro q hq1 hq2
    rw [hbyte q (by omega), ← hnew q hq1 hq2, byteAddr, byteAddr, hall (q / 512) (by omega) (by omega)]
  · intro i hi
    rw [hd]
    exact blit_inside _ _ hi
  · refine (hoff'.mono ?_).trans (hslot.mono Set.subset_union_left)
    rintro a ⟨p, hp, ha⟩
    have hr : refAddr k.disk inode p = blockAddr k.disk inode p := if_neg (by omega)
    exact .inr ⟨p, by omega, by rw [hr]; exact (hb.block p (by omega)).mpr hp, by rw [hr]; exact ha⟩

theorem fileWrite_ok {K : Kernel} {file file' : File} {inode inode' : Inode} {buf : Memory} {count : ℕ} {ret : ℤ}
    {k k' : Kern} (hl : Layout K.toPartition k.blockBitmap.btmpBytesLen) (hf : FileOk K.toPartition k inode)
    (hc : inode.iSize + count < 2 ^ 32) (h : fileWrite K file inode buf count k = .ok ((ret, file', inode'), k')) :
    (ret = -1 ∧ file' = file ∧ inode' = inode ∧ HeapOnly k k') ∨
      (ret = int32 count ∧ file' = { file with fdPos := file'.fdPos } ∧ Written K buf count k inode k' inode') := by
  unfold fileWrite at h
  rw [u32, Nat.mod_eq_of_lt hc] at h
  by_cases hbig : inode.iSize + count > 512 * 140
  · rw [if_pos hbig] at h
    simp only [pure_ok, Prod.mk.injEq] at h
    obtain ⟨⟨rfl, rfl, rfl⟩, rfl⟩ := h
    exact .inl ⟨rfl, rfl, rfl, HeapOnly.refl _⟩
  rw [if_neg hbig] at h
  simp only [bind_ok] at h
  obtain ⟨io, k1, hm1, h⟩ := h
  obtain ⟨hk1, -, -⟩ := sysMalloc_ok hm1
  cases io with
  | none =>
    simp only [pure_ok, Prod.mk.injEq] at h
    obtain ⟨⟨rfl, rfl, rfl⟩, rfl⟩ := h
    exact .inl ⟨rfl, rfl, rfl, hk1⟩
  | some io =>
  simp only [bind_ok] at h
  obtain ⟨ab, k2, hm2, h⟩ := h
  obtain ⟨hk2, -, -⟩ := sysMalloc_ok hm2
  have hk12 := hk1.trans hk2
  cases ab with
  | none =>
    simp only [pure_ok, Prod.mk.injEq] at h
    obtain ⟨⟨rfl, rfl, rfl⟩, rfl⟩ := h
    exact .inl ⟨rfl, rfl, rfl, hk12⟩
  | some ab =>
  simp only [bind_ok] at h
  obtain ⟨⟨ok1, inode1⟩, k3, hfirst, h⟩ := h
  have hl2 : Layout K.toPartition k2.blockBitmap.btmpBytesLen := by rw [hk12.blockBitmap]; exact hl
  have hf2 := hf.congr hk12.disk hk12.blockBitmap
  obtain ⟨rfl, hc1, -, -⟩ := firstBlock_ok hl2 hf2.blocks hfirst
  have hsize1 : inode1.iSize = inode.iSize := by rw [hc1.fields]
  simp only [Bool.not_true, Bool.false_eq_true, if_false, bind_ok, assert_ok, hsize1] at h
  rw [u32, Nat.mod_eq_of_lt hc] at h
  obtain ⟨_, _, ⟨hw, rfl⟩, ⟨ok2, inode2, blocks⟩, k4, hcol, h⟩ := h
  obtain ⟨-, rfl, -, hg, hb, hfields, hall, hold, hdisk, hib, hst, hsync⟩ := growStage hl2 hf2 hw hfirst hcol
  have hsize2 : inode2.iSize = inode.iSize := by rw [hfields]
  simp only [Bool.not_true, Bool.false_eq_true, if_false, bind_ok, hsize2] at h
  obtain ⟨⟨bw, io', file1, inode3⟩, k5, hwl, _, k6, hsy, _, k7, hfr1, _, k8, hfr2, h⟩ := h
  simp only [pure_ok, Prod.mk.injEq] at h
  obtain ⟨⟨rfl, rfl, rfl⟩, rfl⟩ := h
  have ho4 := hg.owns hf2.owns
  have hl4 : Layout K.toPartition k4.blockBitmap.btmpBytesLen := by rw [hg.len]; exact hl2
  obtain ⟨hnum, hk6⟩ := inodeSync_ok hsy
  have hno : inode2.iNo = inode.iNo := by rw [hfields]
  rw [← hsize2] at hb hw hall
  obtain ⟨rfl, hfile, hstored⟩ := storeStage hl4 ho4 hb hw hall hwl hnum
    ((hk6.trans (sysFree_ok hfr1)).trans (sysFree_ok hfr2))
  have hno3 : inode3.iNo = inode2.iNo := by rw [hstored.fields]
  have hgrown : Grown K.toPartition k inode k8 inode3 :=
    ((Grown.of_same hk12.blockBitmap fun p _ => by rw [hk12.disk]).trans hg).trans
      (Grown.of_same hstored.blockBitmap hstored.ref)
  have h0 : inode3.iSectors 0 ≠ 0 := by
    rw [hstored.fields]
    exact (hb.block 0 (by omega)).mpr (by omega)
  have hsize3 : inode3.iSize = inode.iSize + bw := by rw [hstored.fields, ← hsize2]
  refine .inr ⟨rfl, by rw [hfile], ⟨hgrown, ⟨hgrown.owns hf.owns, ?_, fun h => absurd h h0, by omega⟩, h0, ?_, ?_, ?_,
    by rw [← hno, ← hno3]; exact hnum, ?_, ?_, hstored.inodeBitmap.trans (hib.trans hk12.inodeBitmap),
    hk12.steady.trans (hst.trans hstored.steady), ?_⟩⟩
  · rw [usedBlocks, if_neg h0, hsize3]
    rw [hsize2] at hb
    refine ⟨fun p hp => ?_, ?_⟩
    · have hr := hstored.ref p (by omega)
      rw [refAddr, refAddr, if_neg (by omega), if_neg (by omega)] at hr
      rw [hr]
      exact hb.block p hp
    · rw [hstored.fields]
      exact hb.table
  · rw [hstored.fields, hfields]
  · intro q hq
    rw [hstored.old q (by omega), hold q hq, hk12.disk]
  · intro q hq1 hq2
    rw [hstored.new q (by omega) (by omega), hsize2]
  · rw [← hno]
    exact hstored.slot
  · rw [ownSectors_congr hstored.ref, ← hk12.disk, ← hk12.blockBitmap, ← hno]
    refine (hdisk.mono (Set.union_subset_union_right _ Set.subset_union_right)).trans
      (hstored.disk.mono Set.subset_union_right)
  · intro htog j hj hs
    rw [← hk12.blockBitmap] at htog hj
    have hs4 := hsync htog j hj (hs.congr hk12.blockBitmap fun i _ => by rw [hk12.disk])
    refine hs4.above hl4 (by rw [hg.len]; exact hj) hstored.blockBitmap fun a ha => hstored.disk a ?_
    rintro (hmem | hmem)
    · exact hl4.slot_above ha hmem
    · exact ho4.above hl4 ha hmem

end ElephantOS
