import ElephantOS.Blocks

namespace ElephantOS

open ByteMemory HaltingState

/-- The clear bits whose blocks lie on the disk. -/
def freeBits (part : Partition) (b : Bitmap) : Finset ℕ :=
  (Finset.range (8 * b.btmpBytesLen)).filter fun i => b.scanTest i = false ∧ part.sb.dataStartLba + i ≤ maxLba

theorem mem_freeBits {part : Partition} {b : Bitmap} {i : ℕ} : i ∈ freeBits part b ↔
    i < 8 * b.btmpBytesLen ∧ b.scanTest i = false ∧ part.sb.dataStartLba + i ≤ maxLba := by
  simp [freeBits]

theorem freeBits_set {part : Partition} {b : Bitmap} {i : ℕ} (hi : i ∈ freeBits part b) :
    (freeBits part (b.set i true)).card + 1 = (freeBits part b).card := by
  have he : freeBits part (b.set i true) = (freeBits part b).erase i := by
    ext j
    rw [Finset.mem_erase, mem_freeBits, mem_freeBits, Bitmap.scanTest_set, Bitmap.set_len]
    by_cases hj : j = i <;> simp [hj]
  rw [he]
  exact Finset.card_erase_add_one hi

section

variable {K : Kernel} {k : Kern}

theorem blockBitmapAlloc_runs (h : 0 < (freeBits K.toPartition k.blockBitmap).card) :
    Runs (blockBitmapAlloc K) k fun r k' => ∃ i ∈ freeBits K.toPartition k.blockBitmap,
      (∀ j < i, k.blockBitmap.scanTest j = true) ∧ r = some (K.sb.dataStartLba + i) ∧
        k' = { k with blockBitmap := k.blockBitmap.set i true } := by
  obtain ⟨l, hl⟩ := Finset.card_pos.mp h
  obtain ⟨l1, l2, l3⟩ := mem_freeBits.mp hl
  rcases Bitmap.scan_one k.blockBitmap with ⟨i, hi, hlt, hclear, hfirst⟩ | ⟨-, hfull⟩
  · have hle : i ≤ l := by
      by_contra hgt
      rw [hfirst l (by omega)] at l2
      simp at l2
    refine ⟨some (K.sb.dataStartLba + i), { k with blockBitmap := k.blockBitmap.set i true }, ?_, i,
      mem_freeBits.mpr ⟨hlt, hclear, by omega⟩, hfirst, rfl, rfl⟩
    unfold blockBitmapAlloc
    rw [hi]
  · rw [hfull l l1] at l2
    simp at l2

theorem bitmapSync_runs (hl : Layout K.toPartition k.blockBitmap.btmpBytesLen) {i : ℕ}
    (hi : i < 8 * k.blockBitmap.btmpBytesLen) (hd : K.sb.dataStartLba ≤ maxLba) :
    Runs (bitmapSync K i .blockBitmap) k fun _ k' => k'.blockBitmap = k.blockBitmap ∧ k'.heap = k.heap ∧ k'.pool = k.pool := by
  have hsec := bitmapSector_le hl.whole hi
  have h1 := hl.blockBitmap
  have h2 := hl.inodeBitmap
  have h3 := hl.inodeTable
  have hr : sectorRange (K.sb.blockBitmapLba + i / 4096) 1 := by
    apply sectorRange_of_le
    · omega
    · omega
  exact ⟨(), _, (bitmapSync_block K i () k _).mpr ⟨hr, rfl⟩, rfl, rfl, rfl⟩

theorem allocSync_runs (hl : Layout K.toPartition k.blockBitmap.btmpBytesLen) {i : ℕ}
    (hi : i ∈ freeBits K.toPartition k.blockBitmap) :
    Runs (bitmapSync K (K.sb.dataStartLba + i - K.sb.dataStartLba) .blockBitmap)
      { k with blockBitmap := k.blockBitmap.set i true } fun _ k' =>
        k'.blockBitmap = k.blockBitmap.set i true ∧ k'.heap = k.heap ∧ k'.pool = k.pool := by
  obtain ⟨h1, -, h3⟩ := mem_freeBits.mp hi
  rw [Nat.add_sub_cancel_left]
  exact bitmapSync_runs (k := { k with blockBitmap := k.blockBitmap.set i true })
    (by rw [Bitmap.set_len]; exact hl) (by rw [Bitmap.set_len]; exact h1) (by omega)

theorem readTable_runs {lba : ℕ} (h : lba ≤ maxLba) (all : ℕ → ℕ) (k : Kern) :
    Runs (readTable lba all) k fun _ k' => k = k' :=
  ⟨_, k, (readTable_ok lba all _ k k).mpr ⟨sectorRange_one.mpr h, rfl, rfl⟩, rfl⟩

end

end ElephantOS
