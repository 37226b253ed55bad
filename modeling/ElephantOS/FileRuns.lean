import ElephantOS.FileWrite
import ElephantOS.FreeBlocks

namespace ElephantOS

open ByteMemory HaltingState

section

variable {K : Kernel} {k : Kern}

theorem growLoop_runs {direct : ℕ → Bool} {more idx : ℕ} {inode : Inode} {all : ℕ → ℕ}
    (hl : Layout K.toPartition k.blockBitmap.btmpBytesLen)
    (hfree : more ≤ (freeBits K.toPartition k.blockBitmap).card)
    (hd : ∀ p, direct p = true → idx ≤ p → p < idx + more → p < 13 ∧ inode.iSectors p = 0) :
    Runs (growLoop K direct more idx inode all) k fun r k' =>
      (freeBits K.toPartition k'.blockBitmap).card + more = (freeBits K.toPartition k.blockBitmap).card ∧
        k'.heap = k.heap ∧ k'.pool = k.pool ∧ (∀ p < idx, r.2.2 p = all p) ∧
        ∀ p, idx ≤ p → p < idx + more → r.2.2 p ≤ maxLba := by
  induction more generalizing idx inode all k with
  | zero => exact Runs.pure ⟨rfl, rfl, rfl, fun _ _ => rfl, fun p _ _ => by omega⟩
  | succ more ih =>
    unfold growLoop
    refine Runs.bind (blockBitmapAlloc_runs (by omega)) ?_
    rintro _ _ ⟨i, hi, -, rfl, rfl⟩
    refine Runs.assert (fun h => (hd idx h (le_refl _) (by omega)).2) ?_
    refine Runs.bind (allocSync_runs hl hi) ?_
    rintro _ k2 ⟨hb2, hh2, hp2⟩
    have hcard := freeBits_set hi
    refine (ih (k := k2) (by rw [hb2, Bitmap.set_len]; exact hl) (by rw [hb2]; omega) ?_).mono ?_
    · intro p h1 h2 h3
      obtain ⟨h4, h5⟩ := hd p h1 (by omega) (by omega)
      refine ⟨h4, ?_⟩
      split_ifs with hdir
      · rw [Inode.setSector, if_pos (hd idx hdir (le_refl _) (by omega)).1]
        exact (Function.update_of_ne (by omega) _ _).trans h5
      · exact h5
    · rintro ⟨ok, inode', all'⟩ k3 ⟨h1, h2, h3, h4, h5⟩
      rw [hb2] at h1
      refine ⟨by omega, h2.trans hh2, h3.trans hp2, fun p hp => ?_, fun p hp1 hp2 => ?_⟩
      · rw [h4 p (by omega)]
        exact Function.update_of_ne (by omega) _ _
      · by_cases hp : p = idx
        · subst hp
          rw [h4 p (by omega), Function.update_self]
          exact (mem_freeBits.mp hi).2.2
        · exact h5 p (by omega) (by omega)

/-- The blocks that growing a file from `has` to `will` blocks takes, its indirect table included. -/
def blocksNeeded (has will : ℕ) : ℕ := will - has + if has ≤ 12 ∧ 12 < will then 1 else 0

theorem collectBlocks_runs {has will : ℕ} {inode : Inode} (hl : Layout K.toPartition k.blockBitmap.btmpBytesLen)
    (h0 : 1 ≤ has) (hle : has ≤ will) (hw : will ≤ 140) (hb : HasBlocks k.disk inode has)
    (ht : inode.iSectors 12 ≤ maxLba) (hfree : blocksNeeded has will ≤ (freeBits K.toPartition k.blockBitmap).card) :
    Runs (collectBlocks K has will inode) k fun r k' =>
      (freeBits K.toPartition k'.blockBitmap).card + blocksNeeded has will = (freeBits K.toPartition k.blockBitmap).card ∧
        k'.heap = k.heap ∧ k'.pool = k.pool ∧ (∀ p, has ≤ p → p < will → r.2.2 p ≤ maxLba) ∧
        r.2.1.iSectors 12 ≤ maxLba := by
  have hzero : ∀ p, has ≤ p → p < 12 → inode.iSectors p = 0 := by
    intro p h1 h2
    have := hb.empty h1 (by omega)
    rwa [blockAddr, if_pos h2] at this
  unfold blocksNeeded at hfree ⊢
  unfold collectBlocks
  by_cases c1 : will = has
  · rw [if_pos c1]
    subst c1
    by_cases c2 : will ≤ 12
    · rw [if_pos c2, if_neg (by omega)]
      exact Runs.pure ⟨by omega, rfl, rfl, fun p _ _ => by omega, ht⟩
    · rw [if_neg c2, if_neg (by omega)]
      refine Runs.assert (hb.table.mpr (by omega)) (Runs.bind (readTable_runs ht _ k) ?_)
      rintro _ _ rfl
      exact Runs.pure ⟨by omega, rfl, rfl, fun p _ _ => by omega, ht⟩
  rw [if_neg c1]
  by_cases c2 : will ≤ 12
  · rw [if_pos c2]
    rw [if_neg (by omega)] at hfree ⊢
    have hlast : inode.iSectors (has - 1) ≠ 0 := by
      have := (hb.block (has - 1) (by omega)).mpr (by omega)
      rwa [blockAddr, if_pos (by omega)] at this
    refine Runs.bound (by omega) (Runs.assert hlast ?_)
    refine ((growLoop_runs hl hfree fun p _ h1 h2 => ⟨by omega, hzero p h1 (by omega)⟩).after
      fun r k' h => (growLoop_ok hl.whole (fun p _ _ h3 => by omega) h).2).mono ?_
    rintro ⟨ok, inode', all⟩ k' ⟨⟨h1, h2, h3, -, h5⟩, new, hlen, -, -, -, -, rfl, -⟩
    refine ⟨h1, h2, h3, fun p hp1 hp2 => h5 p hp1 (by omega), ?_⟩
    change placed inode.iSectors has new 12 ≤ maxLba
    rw [placed_outside (by omega)]
    exact ht
  rw [if_neg c2]
  by_cases c3 : has ≤ 12
  · rw [if_pos c3]
    rw [if_pos ⟨c3, by omega⟩] at hfree ⊢
    refine Runs.bind (blockBitmapAlloc_runs (by omega)) ?_
    rintro _ _ ⟨i, hi, -, rfl, rfl⟩
    have hcard := freeBits_set hi
    have hdisk := (mem_freeBits.mp hi).2.2
    have ht0 : inode.iSectors 12 = 0 := by
      by_contra hne
      have := hb.table.mp hne
      omega
    refine Runs.assert ht0 (Runs.bind (((growLoop_runs
      (k := { k with blockBitmap := k.blockBitmap.set i true }) (by rw [Bitmap.set_len]; exact hl) (by dsimp only; omega) ?_).after
      fun r k' h => (growLoop_ok (by rw [Bitmap.set_len]; exact hl.whole) ?_ h))) ?_)
    · intro p h1 h2 h3
      have hp := of_decide_eq_true h1
      refine ⟨by omega, ?_⟩
      change Function.update inode.iSectors 12 _ p = 0
      rw [Function.update_of_ne (by omega)]
      exact hzero p h2 hp
    · intro p h1 _ _
      have := of_decide_eq_true h1
      omega
    · rintro ⟨ok, inode', all⟩ k' ⟨⟨h1, h2, h3, -, h5⟩, rfl, new, hlen, -, -, -, -, rfl, -⟩
      simp only [if_true]
      refine Runs.bind (ideWrite_runs (sectorRange_one.mpr hdisk) _ k') ?_
      rintro _ k2 ⟨hp2, hh2, hb2, -⟩
      refine Runs.pure ⟨?_, hh2.trans h2, hp2.trans h3, fun p hp1 hp2 => h5 p hp1 (by omega), ?_⟩
      · rw [hb2]
        dsimp only at h1
        omega
      · have hset : (inode.setSector 12 (K.sb.dataStartLba + i)).iSectors 12 = K.sb.dataStartLba + i := by
          simp [Inode.setSector]
        simpa [Inode.grown, hset] using hdisk
  · rw [if_neg c3]
    rw [if_neg (by omega)] at hfree ⊢
    refine Runs.assert (hb.table.mpr (by omega)) (Runs.bind (readTable_runs ht _ k) ?_)
    rintro _ _ rfl
    refine Runs.bind ((growLoop_runs hl hfree fun p h1 => by simp at h1).after
      fun r k' h => growLoop_ok hl.whole (fun p h1 => by simp at h1) h) ?_
    rintro ⟨ok, inode', all⟩ k' ⟨⟨h1, h2, h3, -, h5⟩, rfl, new, hlen, -, -, -, -, rfl, -⟩
    simp only [if_true]
    refine Runs.bind (ideWrite_runs (sectorRange_one.mpr ht) _ k') ?_
    rintro _ k2 ⟨hp2, hh2, hb2, -⟩
    exact Runs.pure ⟨by rw [hb2]; exact h1, hh2.trans h2, hp2.trans h3, fun p hp1 hp2 => h5 p hp1 (by omega), ht⟩

theorem firstBlock_runs {inode : Inode} (hl : Layout K.toPartition k.blockBitmap.btmpBytesLen)
    (hroot : k.blockBitmap.scanTest 0 = true) (h0 : inode.iSectors 0 ≤ maxLba)
    (hfree : (if inode.iSectors 0 = 0 then 1 else 0) ≤ (freeBits K.toPartition k.blockBitmap).card) :
    Runs (firstBlock K inode) k fun r k' =>
      (freeBits K.toPartition k'.blockBitmap).card + (if inode.iSectors 0 = 0 then 1 else 0) =
        (freeBits K.toPartition k.blockBitmap).card ∧ k'.heap = k.heap ∧ k'.pool = k.pool ∧ r.2.iSectors 0 ≤ maxLba ∧
        r.2.iSectors 12 = inode.iSectors 12 := by
  unfold firstBlock
  split_ifs at hfree ⊢ with hz
  · refine Runs.bind (blockBitmapAlloc_runs hfree) ?_
    rintro _ _ ⟨i, hi, hfirst, rfl, rfl⟩
    have hi0 : i ≠ 0 := by
      rintro rfl
      rw [(mem_freeBits.mp hi).2.1] at hroot
      simp at hroot
    refine Runs.assert (by omega) (Runs.bind (allocSync_runs hl hi) ?_)
    rintro _ k2 ⟨hb2, hh2, hp2⟩
    have hcard := freeBits_set hi
    exact Runs.pure ⟨by rw [hb2]; exact hcard, hh2, hp2, by simpa [Inode.setSector] using (mem_freeBits.mp hi).2.2, rfl⟩
  · exact Runs.pure ⟨rfl, rfl, rfl, h0, rfl⟩

theorem loadSector_runs {first : Bool} {lba : ℕ} (h : lba ≤ maxLba) (ioBuf : Buffer) (k : Kern) :
    Runs (loadSector first lba ioBuf) k fun _ _ => True := by
  unfold loadSector
  cases first with
  | true => exact (ideRead_runs (sectorRange_one.mpr h) _ k).mono fun _ _ _ => trivial
  | false => exact Runs.pure trivial

theorem writeLoop_runs {blocks : ℕ → ℕ} {buf : Memory} {count fuel size bw : ℕ} {first : Bool} {ioBuf : Buffer}
    {file : File} {inode : Inode} (hbw : bw ≤ count) (hsize : inode.iSize = size + bw)
    (hlt : size + count ≤ 140 * 512)
    (hdisk : ∀ p, size / 512 ≤ p → 512 * p < size + count → blocks p ≤ maxLba) :
    Runs (writeLoop blocks buf count fuel bw first ioBuf file inode) k fun _ _ => True := by
  induction fuel generalizing bw first ioBuf file inode k with
  | zero => exact Runs.pure trivial
  | succ fuel ih =>
    unfold writeLoop
    split_ifs with hc
    · have hb := hdisk ((size + bw) / 512) (by omega) (by omega)
      rw [← hsize] at hb
      refine Runs.bound (by omega) (Runs.bind (loadSector_runs hb ioBuf k) fun buf1 k1 _ => ?_)
      refine Runs.bind (ideWrite_runs (sectorRange_one.mpr hb) _ k1) fun _ k2 _ => ?_
      have hmod : inode.iSize % 512 < 512 := Nat.mod_lt _ (by omega)
      generalize hchunk : min (count - bw) (512 - inode.iSize % 512) = chunk
      have hu : u32 (inode.iSize + chunk) = size + (bw + chunk) := by
        rw [u32, hsize, Nat.mod_eq_of_lt (by omega)]
        omega
      exact ih (by omega) hu
    · exact Runs.pure trivial

end

theorem Collected.onDisk {part : Partition} {has will : ℕ} {k k' : Kern} {inode inode' : Inode} {all : ℕ → ℕ}
    (h : Collected part has will k inode k' inode' all) (hb : HasBlocks k.disk inode has) (hd : OnDisk k.disk inode)
    (hall : ∀ p, has ≤ p → p < will → all p ≤ maxLba) (ht : inode'.iSectors 12 ≤ maxLba) : OnDisk k'.disk inode' := by
  intro p hp
  by_cases h140 : p = 140
  · rw [refAddr, if_pos h140]
    exact ht
  · by_cases hlt : p < has
    · have hn : refAddr k.disk inode p ≠ 0 := by
        rw [refAddr, if_neg h140]
        exact (hb.block p (by omega)).mpr hlt
      rw [h.grown.keep p hp hn]
      exact hd p hp
    · rw [refAddr, if_neg h140]
      by_cases hw : p < will
      · rw [← h.all p (by omega) hw]
        exact hall p (by omega) hw
      · rw [h.blocks.empty (by omega) (by omega)]
        omega

structure WriteReady (K : Kernel) (k : Kern) (inode : Inode) : Prop where
  layout : Layout K.toPartition k.blockBitmap.btmpBytesLen
  table : TableOnDisk K.toPartition
  plenty : k.Plenty
  root : k.blockBitmap.scanTest 0 = true
  file : FileOk K.toPartition k inode
  onDisk : OnDisk k.disk inode
  number : K.inodeNo inode.iNo < 4096

theorem blocksNeeded_first {n : ℕ} (hn : 1 ≤ n) : blocksNeeded 0 n = 1 + blocksNeeded 1 n := by
  unfold blocksNeeded
  split_ifs <;> omega

theorem fileWrite_runs {K : Kernel} {k : Kern} {inode : Inode} (h : WriteReady K k inode) (file : File) (buf : Memory)
    {count : ℕ} (hc : inode.iSize + count < 140 * 512)
    (hfree : blocksNeeded (usedBlocks inode) ((inode.iSize + count) / 512 + 1) ≤ (freeBits K.toPartition k.blockBitmap).card) :
    Runs (fileWrite K file inode buf count) k fun r k' => r.1 = int32 count ∧ OnDisk k'.disk r.2.2 ∧
      (freeBits K.toPartition k'.blockBitmap).card +
        blocksNeeded (usedBlocks inode) ((inode.iSize + count) / 512 + 1) = (freeBits K.toPartition k.blockBitmap).card := by
  have hu : u32 (inode.iSize + count) = inode.iSize + count := Nat.mod_eq_of_lt (by omega)
  have hneed : blocksNeeded (usedBlocks inode) ((inode.iSize + count) / 512 + 1) =
      (if inode.iSectors 0 = 0 then 1 else 0) + blocksNeeded (inode.iSize / 512 + 1) ((inode.iSize + count) / 512 + 1) := by
    unfold usedBlocks
    split_ifs with hz
    · rw [h.file.empty hz]
      exact blocksNeeded_first (by omega)
    · omega
  unfold fileWrite
  rw [hu, if_neg (by omega)]
  refine Runs.bind (sysMalloc_runs _ h.plenty) ?_
  rintro _ k1 ⟨rfl, hk1⟩
  refine Runs.bind (sysMalloc_runs _ (hk1.plenty h.plenty)) ?_
  rintro _ k2 ⟨rfl, hk2⟩
  have hk12 := hk1.trans hk2
  have hl2 : Layout K.toPartition k2.blockBitmap.btmpBytesLen := by rw [hk12.blockBitmap]; exact h.layout
  have hf2 := h.file.congr hk12.disk hk12.blockBitmap
  have hd0 : inode.iSectors 0 ≤ maxLba := h.onDisk 0 (by omega)
  have hd12 : inode.iSectors 12 ≤ maxLba := h.onDisk 140 (by omega)
  refine Runs.bind ((firstBlock_runs hl2 (by rw [hk12.blockBitmap]; exact h.root) hd0
    (by rw [hk12.blockBitmap]; omega)).after fun r k' hr => firstBlock_ok hl2 hf2.blocks hr) ?_
  rintro ⟨ok1, inode1⟩ k3 ⟨⟨hcard1, hheap1, hpool1, hs0, hs12⟩, rfl, hcol1, -, -⟩
  dsimp only at hs0 hs12 hcol1
  have hhas : max (usedBlocks inode) 1 = inode.iSize / 512 + 1 := by
    have he := h.file.empty
    unfold usedBlocks
    split_ifs with hz
    · rw [he hz]
      rfl
    · omega
  have hd3 : OnDisk k3.disk inode1 := by
    refine hcol1.onDisk hf2.blocks (by rw [hk12.disk]; exact h.onDisk) (fun p hp1 hp2 => ?_) (hs12 ▸ hd12)
    obtain rfl : p = 0 := by omega
    exact hs0
  rw [hhas] at hcol1
  have hsize1 : inode1.iSize = inode.iSize := by rw [hcol1.fields]
  have hl3 : Layout K.toPartition k3.blockBitmap.btmpBytesLen := by rw [hcol1.grown.len]; exact hl2
  have ho3 := hcol1.grown.owns hf2.owns
  simp only [Bool.not_true, Bool.false_eq_true, if_false, hsize1, hu]
  refine Runs.assert (by rw [hsize1, hu]; omega) (Runs.bind (((collectBlocks_runs hl3 (by omega) (by omega) (by omega) hcol1.blocks
    (hs12 ▸ hd12) ?_).after fun r k' hr => collectBlocks_ok hl3 ho3 (by omega) (by omega) (by omega) hcol1.blocks hr)) ?_)
  · rw [hk12.blockBitmap] at hcard1
    omega
  rintro ⟨ok2, inode2, blocks⟩ k4 ⟨⟨hcard2, hheap2, hpool2, hall2, ht2⟩, rfl, hcol2⟩
  dsimp only at hall2 ht2 hcol2
  have hd4 := hcol2.onDisk hcol1.blocks hd3 hall2 ht2
  have hsize2 : inode2.iSize = inode.iSize := by rw [hcol2.fields, ← hsize1]
  have hno2 : inode2.iNo = inode.iNo := by rw [hcol2.fields, hcol1.fields]
  have hl4 : Layout K.toPartition k4.blockBitmap.btmpBytesLen := by rw [hcol2.grown.len]; exact hl3
  have ho4 := hcol2.grown.owns ho3
  have hb4 := hcol2.blocks
  have hall : ∀ p, inode2.iSize / 512 ≤ p → p ≤ (inode2.iSize + count) / 512 → blocks p = blockAddr k4.disk inode2 p := by
    intro p hp1 hp2
    rw [hsize2] at hp1 hp2
    exact hcol2.all p (by omega) (by omega)
  have hb4 : HasBlocks k4.disk inode2 ((inode2.iSize + count) / 512 + 1) := by rw [hsize2]; exact hcol2.blocks
  have hw4 : (inode2.iSize + count) / 512 + 1 ≤ 140 := by omega
  simp only [Bool.not_true, Bool.false_eq_true, if_false]
  have hblocks : ∀ p, inode2.iSize / 512 ≤ p → 512 * p < inode2.iSize + count → blocks p ≤ maxLba := by
    intro p hp1 hp2
    rw [hall p hp1 (by omega)]
    have := hd4 p (by omega)
    rwa [refAddr, if_neg (by omega)] at this
  refine Runs.bind ((@writeLoop_runs _ _ _ _ _ inode2.iSize _ _ _ _ _ (Nat.zero_le _) rfl (by omega) hblocks).after fun r k' hr => hr) ?_
  rintro ⟨bw, io', file', inode3⟩ k5 ⟨-, hwl⟩
  obtain ⟨rfl, rfl, -, hptr, -, -, hst5, -⟩ := writeLoop_ok (by omega) (by omega) rfl (by omega) (fun h => by simp at h)
    (ho4.blocks_inj hb4 hw4 hall) hwl
  refine Runs.bind (inodeSync_runs h.table (by dsimp only; rw [hno2]; exact h.number) io' k5) ?_
  intro _ k6 hk6
  have hpool5 : k5.pool = k.pool := by
    rw [hst5.pool, hpool2, hpool1, hk12.pool]
  refine Runs.bind (sysFree_runs ?_) fun _ k7 hk7 => ?_
  · rw [hk6.pool, hpool5]
    exact hk1.pool
  refine Runs.bind (sysFree_runs ?_) fun _ k8 hk8 => ?_
  · rw [hptr, hk7.pool, hk6.pool, hpool5]
  obtain ⟨-, -, hstored⟩ := storeStage hl4 ho4 hb4 hw4 hall hwl (by dsimp only; rw [hno2]; exact h.number)
    ((hk6.trans hk7).trans hk8)
  refine Runs.pure ⟨rfl, fun p hp => ?_, ?_⟩
  · rw [hstored.ref p hp]
    exact hd4 p hp
  · rw [hstored.blockBitmap, hneed]
    rw [hk12.blockBitmap] at hcard1
    omega

end ElephantOS
