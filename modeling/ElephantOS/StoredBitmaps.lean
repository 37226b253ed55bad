import ElephantOS.PartitionFormat
import ElephantOS.VolumeSteps

namespace ElephantOS

open ByteMemory HaltingState

structure MapStored (part : Partition) (k : Kern) : Prop where
  len : k.blockBitmap.btmpBytesLen = part.sb.blockBitmapSects * 512
  below : part.startLba + 2 ≤ part.sb.blockBitmapLba
  superBlock : SuperBlock.load k.disk ((part.startLba + 1) * 512) = part.sb
  blockBitmap : ∀ j, j * 512 < k.blockBitmap.btmpBytesLen → SyncedAt part k j

structure Mountable (part : Partition) (k : Kern) : Prop extends MapStored part k where
  inodeBitmap : ∀ i < 512, k.disk (part.sb.inodeBitmapLba * 512 + i) = k.inodeBitmap.bits i

structure MapKept (part : Partition) (k k' : Kern) : Prop where
  len : k'.blockBitmap.btmpBytesLen = k.blockBitmap.btmpBytesLen
  sync : ∀ j, j * 512 < k.blockBitmap.btmpBytesLen → SyncedAt part k j → SyncedAt part k' j
  disk : ∀ a < part.sb.inodeTableLba * 512, a ∉ blockBitmapArea part k.blockBitmap.btmpBytesLen → k'.disk a = k.disk a

def KeepsMount (part : Partition) (k k' : Kern) : Prop := Mountable part k → Mountable part k'

theorem SuperBlock.load_congr {m m' : Memory} {a b : ℕ} (h : ∀ i < 52, m' (b + i) = m (a + i)) : SuperBlock.load m' b = SuperBlock.load m a := by
  have hw : ∀ j, j + 4 ≤ 52 → word m' (b + j) = word m (a + j) := by
    intro j hj
    apply word_congr
    intro i hi
    have := h (j + i) (by omega)
    rwa [← Nat.add_assoc, ← Nat.add_assoc] at this
  have h0 := hw 0 (by omega)
  rw [Nat.add_zero, Nat.add_zero] at h0
  simp only [SuperBlock.load, h0, hw 4 (by omega), hw 8 (by omega), hw 12 (by omega), hw 16 (by omega), hw 20 (by omega), hw 24 (by omega),
    hw 28 (by omega), hw 32 (by omega), hw 36 (by omega), hw 40 (by omega), hw 44 (by omega), hw 48 (by omega)]

section

variable {K : Kernel} {part : Partition} {k k' k'' : Kern} {inode : Inode} {io : Buffer} {n : ℕ} {u : Unit}

theorem MapKept.trans (h : MapKept part k k') (h' : MapKept part k' k'') : MapKept part k k'' := by
  refine ⟨h'.len.trans h.len, fun j hj hs => h'.sync j ?_ (h.sync j hj hs), fun a ha hmap => (h'.disk a ha ?_).trans (h.disk a ha hmap)⟩
  · rwa [h.len]
  · rwa [h.len]

theorem MapKept.above (hl : Layout part k.blockBitmap.btmpBytesLen) (hb : k'.blockBitmap = k.blockBitmap)
    (hd : ∀ a < part.sb.inodeTableLba * 512, k'.disk a = k.disk a) : MapKept part k k' := by
  refine ⟨by rw [hb], fun j hj hs => hs.above hl hj hb fun a ha => hd a ?_, fun a ha _ => hd a ha⟩
  have h1 : part.sb.inodeBitmapLba ≤ part.sb.inodeTableLba := Nat.le_of_add_right_le hl.inodeBitmap
  exact ha.trans_le (Nat.mul_le_mul_right 512 h1)

theorem MapKept.of_eq (hb : k'.blockBitmap = k.blockBitmap) (hd : k'.disk = k.disk) : MapKept part k k' := by
  refine ⟨by rw [hb], fun j _ hs => ?_, fun a _ _ => congrFun hd a⟩
  intro i hi
  rw [hd, hb]
  exact hs i hi

theorem HeapOnly.mapKept (h : HeapOnly k k') : MapKept part k k' := .of_eq h.blockBitmap h.disk

theorem inodeSync_mapKept (hl : Layout K.toPartition k.blockBitmap.btmpBytesLen) (hs : inodeSync K inode io k = .ok (u, k')) :
    MapKept K.toPartition k k' := by
  obtain ⟨-, hk⟩ := inodeSync_ok hs
  refine .above hl hk.blockBitmap fun a ha => ?_
  rw [hk.disk]
  apply blit_outside
  unfold inodeAddr
  omega

theorem MapKept.of_sameOff {d : Memory} (hl : Layout part k.blockBitmap.btmpBytesLen) (hlen : k'.blockBitmap.btmpBytesLen = k.blockBitmap.btmpBytesLen)
    (hsync : ∀ j, j * 512 < k.blockBitmap.btmpBytesLen → SyncedAt part k j → SyncedAt part k' j)
    (hown : ∀ p < 141, refAddr d inode p ≠ 0 → part.sb.dataStartLba ≤ refAddr d inode p)
    (hd : SameOff (blockBitmapArea part k.blockBitmap.btmpBytesLen ∪ (inodeSlot part n ∪ ownSectors d inode)) k.disk k'.disk) :
    MapKept part k k' := by
  refine ⟨hlen, hsync, fun a ha hmap => hd a ?_⟩
  rintro (hmem | ⟨hslot, -⟩ | ⟨p, hp, hnz, hmem⟩)
  · exact hmap hmem
  · unfold inodeAddr at hslot
    omega
  · have h1 := Nat.mul_le_mul_right 512 (Nat.le_of_add_right_le hl.inodeTable)
    have h2 := sector_data (hown p hp hnz) hmem
    omega

theorem MapStored.kept (h : MapStored part k) (hl : Layout part k.blockBitmap.btmpBytesLen) (hk : MapKept part k k') : MapStored part k' := by
  refine ⟨hk.len.trans h.len, h.below, ?_, fun j hj => ?_⟩
  · refine Eq.trans (SuperBlock.load_congr fun i hi => hk.disk _ ?_ ?_) h.superBlock
    · have h1 := Nat.mul_le_mul_right 512 h.below
      have h2 := Nat.mul_le_mul_right 512 (Nat.le_of_add_right_le hl.inodeBitmap)
      have h3 := hl.blockBitmap
      omega
    · rintro ⟨hge, -⟩
      have := Nat.mul_le_mul_right 512 h.below
      omega
  · rw [hk.len] at hj
    exact hk.sync j hj (h.blockBitmap j hj)

theorem Mountable.kept (h : Mountable part k) (hl : Layout part k.blockBitmap.btmpBytesLen) (hk : MapKept part k k')
    (hi : k'.inodeBitmap = k.inodeBitmap) : Mountable part k' := by
  refine ⟨h.toMapStored.kept hl hk, fun i hlt => ?_⟩
  rw [hi, ← h.inodeBitmap i hlt]
  apply hk.disk
  · have := Nat.mul_le_mul_right 512 hl.inodeBitmap
    omega
  · rintro ⟨-, hlt'⟩
    have := hl.blockBitmap
    omega

theorem KeepsMount.refl (part : Partition) (k : Kern) : KeepsMount part k k := id

theorem KeepsMount.trans (h : KeepsMount part k k') (h' : KeepsMount part k' k'') : KeepsMount part k k'' := fun hk => h' (h hk)

theorem KeepsMount.of_eq (hd : k'.disk = k.disk) (hb : k'.blockBitmap = k.blockBitmap) (hi : k'.inodeBitmap = k.inodeBitmap) :
    KeepsMount part k k' := by
  intro h
  refine ⟨⟨?_, h.below, ?_, fun j hj => ?_⟩, ?_⟩
  · rw [hb]
    exact h.len
  · rw [hd]
    exact h.superBlock
  · rw [hb] at hj
    exact (MapKept.of_eq hb hd).sync j hj (h.blockBitmap j hj)
  · rw [hd, hi]
    exact h.inodeBitmap

theorem HeapOnly.keepsMount (h : HeapOnly k k') : KeepsMount part k k' := .of_eq h.disk h.blockBitmap h.inodeBitmap

theorem bitmapSync_mountable (h : MapStored K.toPartition k) (hl : Layout K.toPartition k.blockBitmap.btmpBytesLen) (hn : n < 4096)
    (hs : bitmapSync K n .inodeBitmap k = .ok (u, k')) : Mountable K.toPartition k' := by
  obtain ⟨-, rfl⟩ := (bitmapSync_inode K n u k k').mp hs
  have hdiv : n / 4096 = 0 := Nat.div_eq_of_lt hn
  have hlow := hl.blockBitmap
  refine ⟨⟨h.len, h.below, ?_, fun j hj => (h.blockBitmap j hj).above hl hj rfl fun a ha => ?_⟩, fun i hi => ?_⟩
  · refine Eq.trans (SuperBlock.load_congr fun i hi => ?_) h.superBlock
    apply blit_outside
    have := Nat.mul_le_mul_right 512 h.below
    omega
  · apply blit_outside
    omega
  · dsimp only
    rw [hdiv, Nat.add_zero, blit_inside _ _ hi, Nat.zero_mul, slice, Nat.zero_add]

end

end ElephantOS
