import ElephantOS.PartitionFormat

namespace ElephantOS

open ByteMemory HaltingState

inductive BlockRun (K : Kernel) (k : Kern) : List ℕ → Kern → Prop
  | start : BlockRun K k [] k
  | alloc {given : List ℕ} {lba : ℕ} {k1 k2 : Kern} : BlockRun K k given k1 →
      blockBitmapAlloc K k1 = .ok (some lba, k2) → BlockRun K k (lba :: given) k2
  | release {given : List ℕ} {lba : ℕ} {k1 k2 : Kern} : BlockRun K k given k1 → lba ∈ given →
      blockBitmapSet (lba - K.sb.dataStartLba) false k1 = .ok ((), k2) → BlockRun K k given k2

theorem BlockRun.bounded {part : Partition} {k k' : Kern} {given : List ℕ} {n : ℕ}
    (h : BlockRun part.kernel k given k')
    (hk : ∀ i < 8 * k.blockBitmap.btmpBytesLen, n ≤ i → k.blockBitmap.scanTest i = true) :
    (∀ lba ∈ given, part.sb.dataStartLba ≤ lba ∧ lba < part.sb.dataStartLba + n) ∧
      k'.blockBitmap.btmpBytesLen = k.blockBitmap.btmpBytesLen ∧
      ∀ i < 8 * k.blockBitmap.btmpBytesLen, n ≤ i → k'.blockBitmap.scanTest i = true := by
  induction h with
  | start => exact ⟨fun lba hl => absurd hl List.not_mem_nil, rfl, hk⟩
  | @alloc given lba k1 k2 _ ha ih =>
    obtain ⟨hgiven, hlen, hbits⟩ := ih
    obtain ⟨i, hi, hclear, -, hlba, rfl⟩ := blockBitmapAlloc_ok ha
    obtain rfl : lba = part.sb.dataStartLba + i := Option.some.inj hlba
    rw [hlen] at hi
    have hin : i < n := by
      by_contra hge
      rw [hbits i hi (by omega)] at hclear
      simp at hclear
    refine ⟨?_, by simpa using hlen, ?_⟩
    · intro lba hl
      rcases List.mem_cons.mp hl with rfl | hl
      · omega
      · exact hgiven lba hl
    · intro j hj hn
      simp only [Bitmap.scanTest_set, hbits j hj hn, ite_self]
  | @release given lba k1 k2 _ hl hr ih =>
    obtain ⟨hgiven, hlen, hbits⟩ := ih
    simp only [blockBitmapSet, modify_ok] at hr
    subst hr
    have hb := hgiven lba hl
    refine ⟨hgiven, by simpa using hlen, ?_⟩
    intro j hj hn
    have hne : j ≠ lba - part.sb.dataStartLba := by omega
    change (k1.blockBitmap.set (lba - part.sb.dataStartLba) false).scanTest j = true
    rw [Bitmap.scanTest_set, if_neg hne]
    exact hbits j hj hn

theorem mounted_test {startLba secCnt : ℕ} (hf : Formattable startLba secCnt) {pad : Memory} {k k1 k2 : Kern}
    {part : Partition} (h1 : partitionFormat startLba secCnt pad k = .ok ((), k1))
    (h2 : mountPartition startLba secCnt k1 = .ok (part, k2)) :
    part = formattedPartition startLba secCnt ∧ 0 < blockBitmapSects secCnt ∧
      k2.blockBitmap.btmpBytesLen = blockBitmapSects secCnt * 512 ∧
      ∀ i < 4096 * blockBitmapSects secCnt,
        k2.blockBitmap.scanTest i = decide (i = 0 ∨ blockBitmapBitLen secCnt < i) := by
  obtain ⟨-, hsects, -⟩ := partitionFormat_ok h1
  have hd := partitionFormat_disk hf h1
  obtain ⟨hpart, -, -, -, -, hbits, -⟩ := mountPartition_ok hf hd h2
  obtain ⟨h8, -, hc⟩ := format_counts hf
  refine ⟨hpart, hsects, by rw [hbits], fun i hi => ?_⟩
  have hsame : k2.blockBitmap.scanTest i =
      (Bitmap.mk 0 (formatBlockBitmap (blockBitmapBitLen secCnt))).scanTest i := by
    rw [Bitmap.scanTest_eq, Bitmap.scanTest_eq, hbits]
    have hb := @blit_inside zeros (slice k1.disk ((formatSuperBlock startLba secCnt).blockBitmapLba * 512)) 0 _ _
      (show i / 8 < blockBitmapSects secCnt * 512 by omega)
    rw [Nat.zero_add] at hb
    simp only [hb, slice, hd.blockBitmap (i / 8) (by omega)]
  rw [hsame]
  exact formatBlockBitmap_test h8 (by omega) 0

end ElephantOS
