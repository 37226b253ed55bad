import ElephantOS.ReferenceCounts
import ElephantOS.StoredBitmaps

namespace ElephantOS

open ByteMemory HaltingState

structure Freed (part : Partition) (lbas : Set ℕ) (k k' : Kern) : Prop where
  len : k'.blockBitmap.btmpBytesLen = k.blockBitmap.btmpBytesLen
  bits : ∀ i, k'.blockBitmap.scanTest i = true ↔ k.blockBitmap.scanTest i = true ∧ part.sb.dataStartLba + i ∉ lbas
  disk : SameOff (blockBitmapArea part k.blockBitmap.btmpBytesLen) k.disk k'.disk
  inodeBitmap : k'.inodeBitmap = k.inodeBitmap
  sync : ∀ j, SyncedAt part k j → SyncedAt part k' j

section

variable {K : Kernel} {part : Partition} {k k' k'' : Kern} {lbas lbas' : Set ℕ} {inode : Inode} {lba : ℕ} {u : Unit}

theorem Freed.refl (part : Partition) (k : Kern) : Freed part ∅ k k :=
  ⟨rfl, fun i => by simp, SameOff.refl _ _, rfl, fun _ hj => hj⟩

theorem Freed.trans (h : Freed part lbas k k') (h' : Freed part lbas' k' k'') : Freed part (lbas ∪ lbas') k k'' := by
  refine ⟨h'.len.trans h.len, ?_, h.disk.trans (h.len ▸ h'.disk), h'.inodeBitmap.trans h.inodeBitmap, fun j hj => h'.sync j (h.sync j hj)⟩
  intro i
  rw [h'.bits, h.bits, Set.mem_union, not_or, and_assoc]

theorem Freed.used (h : Freed part lbas k k') (hu : UsedBlock part k lba) (hnot : lba ∉ lbas) : UsedBlock part k' lba := by
  obtain ⟨h1, h2, h3⟩ := hu
  refine ⟨h1, ?_, (h.bits _).mpr ⟨h3, ?_⟩⟩
  · rw [h.len]
    exact h2
  · rwa [Nat.add_sub_cancel' h1]

theorem Freed.mapKept (h : Freed part lbas k k') : MapKept part k k' :=
  ⟨h.len, fun j _ => h.sync j, fun a _ hmap => h.disk a hmap⟩

theorem freeBlock_freed (hl : Layout K.toPartition k.blockBitmap.btmpBytesLen) (hu : UsedBlock K.toPartition k lba)
    (h : freeBlock K lba k = .ok (u, k')) : Freed K.toPartition {lba} k k' := by
  obtain ⟨h1, h2, -⟩ := hu
  have hidx : u32 (lba + 2 ^ 32 - K.sb.dataStartLba) = lba - K.sb.dataStartLba := by
    have hwords := hl.words
    unfold u32
    omega
  unfold freeBlock blockBitmapSet at h
  simp only [bind_ok, assert_ok, modify_ok, hidx] at h
  obtain ⟨_, _, ⟨-, rfl⟩, _, _, rfl, hsync⟩ := h
  obtain ⟨hb, hib, -, -, hoff, hs⟩ := bitmapSync_synced (by simpa using hl.whole) (by simpa using h2) hsync
  simp only [Bitmap.set_len] at hoff
  refine ⟨?_, ?_, hoff, hib, ?_⟩
  · rw [hb, Bitmap.set_len]
  · intro i
    rw [hb, Bitmap.scanTest_set, Set.mem_singleton_iff]
    split_ifs with hi
    · simp [hi, h1]
    · have hne : K.sb.dataStartLba + i ≠ lba := by omega
      simp [hne]
  · intro j hj
    apply hs j
    by_cases hij : (lba - K.sb.dataStartLba) / 4096 = j
    · exact .inr hij
    · left
      intro b hb'
      change k.disk _ = (k.blockBitmap.set _ false).bits _
      rw [Bitmap.set_bits _ _ _ _ (by omega)]
      exact hj b hb'

theorem freeBlocks_freed {all : ℕ → ℕ} {more idx : ℕ} (hl : Layout K.toPartition k.blockBitmap.btmpBytesLen)
    (hu : ∀ p, idx ≤ p → p < idx + more → all p ≠ 0 → UsedBlock K.toPartition k (all p))
    (hinj : ∀ p q, idx ≤ p → p < idx + more → idx ≤ q → q < idx + more → all p ≠ 0 → all p = all q → p = q)
    (h : freeBlocks K all more idx k = .ok (u, k')) :
    Freed K.toPartition {lba | ∃ p, idx ≤ p ∧ p < idx + more ∧ all p ≠ 0 ∧ all p = lba} k k' := by
  induction more generalizing idx k with
  | zero =>
    obtain ⟨-, rfl⟩ := (pure_ok _ _ _ _).mp h
    have hnone : {lba | ∃ p, idx ≤ p ∧ p < idx + 0 ∧ all p ≠ 0 ∧ all p = lba} = (∅ : Set ℕ) := by
      apply Set.eq_empty_of_forall_notMem
      rintro lba ⟨p, h1, h2, -⟩
      omega
    rw [hnone]
    exact Freed.refl _ _
  | succ more ih =>
    unfold freeBlocks at h
    split_ifs at h with hz
    · simp only [bind_ok] at h
      obtain ⟨_, k₁, hone, hrest⟩ := h
      have hf := freeBlock_freed hl (hu idx (le_refl _) (by omega) hz) hone
      have hrest' := ih (by rw [hf.len]; exact hl) ?_ ?_ hrest
      · have hset : {lba | ∃ p, idx ≤ p ∧ p < idx + (more + 1) ∧ all p ≠ 0 ∧ all p = lba} =
            {all idx} ∪ {lba | ∃ p, idx + 1 ≤ p ∧ p < idx + 1 + more ∧ all p ≠ 0 ∧ all p = lba} := by
          ext lba
          simp only [Set.mem_ofPred_eq, Set.mem_union, Set.mem_singleton_iff]
          constructor
          · rintro ⟨p, h1, h2, h3, rfl⟩
            by_cases hp : p = idx
            · exact .inl (by rw [hp])
            · exact .inr ⟨p, by omega, by omega, h3, rfl⟩
          · rintro (rfl | ⟨p, h1, h2, h3, rfl⟩)
            · exact ⟨idx, le_refl _, by omega, hz, rfl⟩
            · exact ⟨p, by omega, by omega, h3, rfl⟩
        rw [hset]
        exact hf.trans hrest'
      · intro p h1 h2 h3
        refine hf.used (hu p (by omega) (by omega) h3) ?_
        intro heq
        have := hinj p idx (by omega) (by omega) (le_refl _) (by omega) h3 heq
        omega
      · intro p q h1 h2 h3 h4
        exact hinj p q (by omega) (by omega) (by omega) (by omega)
    · have hrest' := ih hl (fun p h1 h2 => hu p (by omega) (by omega))
        (fun p q h1 h2 h3 h4 => hinj p q (by omega) (by omega) (by omega) (by omega)) h
      have hset : {lba | ∃ p, idx ≤ p ∧ p < idx + (more + 1) ∧ all p ≠ 0 ∧ all p = lba} =
          {lba | ∃ p, idx + 1 ≤ p ∧ p < idx + 1 + more ∧ all p ≠ 0 ∧ all p = lba} := by
        ext lba
        simp only [Set.mem_ofPred_eq]
        constructor
        · rintro ⟨p, h1, h2, h3, rfl⟩
          have hp : p ≠ idx := by
            rintro rfl
            exact hz h3
          exact ⟨p, by omega, by omega, h3, rfl⟩
        · rintro ⟨p, h1, h2, h3, rfl⟩
          exact ⟨p, by omega, by omega, h3, rfl⟩
      rw [hset]
      exact hrest'

def blocksOf (d : Memory) (inode : Inode) : Set ℕ := {lba | ∃ p < 141, refAddr d inode p ≠ 0 ∧ refAddr d inode p = lba}

theorem releaseBlocks_freed (hl : Layout K.toPartition k.blockBitmap.btmpBytesLen) (ho : Owns K.toPartition k inode)
    (h : releaseBlocks K inode k = .ok (u, k')) : Freed K.toPartition (blocksOf k.disk inode) k k' := by
  unfold releaseBlocks at h
  simp only [bind_ok] at h
  obtain ⟨all, k₀, hall, h⟩ := h
  obtain ⟨rfl, hblocks⟩ := allDirBlocks_ok hall
  have hrefs : ∀ p < 140, all p = refAddr k₀.disk inode p := by
    intro p hp
    rw [hblocks p hp, refAddr_block _ _ hp]
  by_cases ht : inode.iSectors 12 ≠ 0
  · simp only [if_pos ht, bind_ok] at h
    obtain ⟨_, k₁, htable, h⟩ := h
    have htab := ho.used 140 (by omega) (by rwa [refAddr_table])
    rw [refAddr_table] at htab
    have hf := freeBlock_freed hl htab htable
    have hfree := freeBlocks_freed (by rw [hf.len]; exact hl) ?_ ?_ h
    · have hset : blocksOf k₀.disk inode = {inode.iSectors 12} ∪ {lba | ∃ p, 0 ≤ p ∧ p < 0 + 140 ∧ all p ≠ 0 ∧ all p = lba} := by
        ext lba
        simp only [blocksOf, Set.mem_ofPred_eq, Set.mem_union, Set.mem_singleton_iff]
        constructor
        · rintro ⟨p, h1, h2, rfl⟩
          by_cases hp : p = 140
          · exact .inl (by rw [hp, refAddr_table])
          · refine .inr ⟨p, by omega, by omega, ?_, ?_⟩ <;> rw [hrefs p (by omega)]
            exact h2
        · rintro (rfl | ⟨p, -, h2, h3, rfl⟩)
          · exact ⟨140, by omega, by rwa [refAddr_table], refAddr_table _ _⟩
          · rw [hrefs p (by omega)] at h3 ⊢
            exact ⟨p, by omega, h3, rfl⟩
      rw [hset]
      exact hf.trans hfree
    · intro p _ h2 h3
      rw [hrefs p (by omega)] at h3 ⊢
      refine hf.used (ho.used p (by omega) h3) ?_
      rw [Set.mem_singleton_iff, ← refAddr_table k₀.disk inode]
      intro heq
      have := ho.inj p (by omega) 140 (by omega) h3 heq
      omega
    · intro p q _ h2 _ h4 h5 h6
      rw [hrefs p (by omega)] at h5 h6
      rw [hrefs q (by omega)] at h6
      exact ho.inj p (by omega) q (by omega) h5 h6
  · simp only [if_neg ht] at h
    rw [not_not] at ht
    have hzero : ∀ p, 12 ≤ p → refAddr k₀.disk inode p = 0 := by
      intro p hp
      rw [refAddr_direct ht, if_neg (by omega)]
    have hfree := freeBlocks_freed hl ?_ ?_ h
    · have hset : blocksOf k₀.disk inode = {lba | ∃ p, 0 ≤ p ∧ p < 0 + 12 ∧ all p ≠ 0 ∧ all p = lba} := by
        ext lba
        simp only [blocksOf, Set.mem_ofPred_eq]
        constructor
        · rintro ⟨p, h1, h2, rfl⟩
          have hp : p < 12 := by
            by_contra hge
            exact h2 (hzero p (by omega))
          refine ⟨p, by omega, by omega, ?_, ?_⟩ <;> rw [hrefs p (by omega)]
          exact h2
        · rintro ⟨p, -, h2, h3, rfl⟩
          rw [hrefs p (by omega)] at h3 ⊢
          exact ⟨p, by omega, h3, rfl⟩
      rw [hset]
      exact hfree
    · intro p _ h2 h3
      rw [hrefs p (by omega)] at h3 ⊢
      exact ho.used p (by omega) h3
    · intro p q _ h2 _ h4 h5 h6
      rw [hrefs p (by omega)] at h5 h6
      rw [hrefs q (by omega)] at h6
      exact ho.inj p (by omega) q (by omega) h5 h6

end

end ElephantOS
