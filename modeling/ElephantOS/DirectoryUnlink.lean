import ElephantOS.BlockRelease

namespace ElephantOS

open ByteMemory HaltingState

structure Shrunk (part : Partition) (k : Kern) (inode : Inode) (k' : Kern) (inode' : Inode) : Prop where
  len : k'.blockBitmap.btmpBytesLen = k.blockBitmap.btmpBytesLen
  keep : ∀ p < 141, refAddr k'.disk inode' p ≠ 0 → refAddr k'.disk inode' p = refAddr k.disk inode p
  bits : ∀ i, k'.blockBitmap.scanTest i = true ↔ k.blockBitmap.scanTest i = true ∧
    ∀ p < 141, refAddr k.disk inode p = part.sb.dataStartLba + i → refAddr k'.disk inode' p ≠ 0

structure Unlinked (K : Kernel) (n : ℕ) (pos : ℕ × ℕ) (k : Kern) (inode : Inode) (k' : Kern) (inode' : Inode) : Prop where
  removed : Removed K.toPartition pos k inode k' inode'
  size : inode'.iSize = inode.iSize - 24
  number : inode'.iNo = inode.iNo
  shrunk : Shrunk K.toPartition k inode k' inode'
  disk : SameOff (blockBitmapArea K.toPartition k.blockBitmap.btmpBytesLen ∪ (inodeSlot K.toPartition n ∪ ownSectors k.disk inode))
    k.disk k'.disk
  stored : (storedInode K.toPartition k'.disk n).SameStored inode'
  inodeBitmap : k'.inodeBitmap = k.inodeBitmap
  sync : ∀ j, j * 512 < k.blockBitmap.btmpBytesLen → SyncedAt K.toPartition k j → SyncedAt K.toPartition k' j

section

variable {K : Kernel} {k k' k₁ : Kern} {inode inode' : Inode} {inodeNo n p i : ℕ} {io : Buffer} {ok : Bool}

structure Rewrote (K : Kernel) (n : ℕ) (k : Kern) (k' : Kern) (inode' : Inode) : Prop where
  disk : ∀ a < K.sb.dataStartLba * 512, a ∉ blockBitmapArea K.toPartition k.blockBitmap.btmpBytesLen → a ∉ inodeSlot K.toPartition n →
    k'.disk a = k.disk a
  slot : ∀ i < 76, k'.disk (inodeAddr K.toPartition n + i) = wordBytes inode'.pureWords i
  inodeBitmap : k'.inodeBitmap = k.inodeBitmap
  sync : ∀ j, j * 512 < k.blockBitmap.btmpBytesLen → SyncedAt K.toPartition k j → SyncedAt K.toPartition k' j

theorem inodeSync_rewrote {k₀ : Kern} {u : Unit} (h : inodeSync K inode' io k₀ = .ok (u, k'))
    (hl : Layout K.toPartition k.blockBitmap.btmpBytesLen) (hlen : k₀.blockBitmap.btmpBytesLen = k.blockBitmap.btmpBytesLen)
    (hd : ∀ a < K.sb.dataStartLba * 512, a ∉ blockBitmapArea K.toPartition k.blockBitmap.btmpBytesLen → k₀.disk a = k.disk a)
    (hi : k₀.inodeBitmap = k.inodeBitmap)
    (hsync : ∀ j, j * 512 < k.blockBitmap.btmpBytesLen → SyncedAt K.toPartition k j → SyncedAt K.toPartition k₀ j)
    (hno : K.inodeNo inode'.iNo = n) : Rewrote K n k k' inode' := by
  obtain ⟨-, hk⟩ := inodeSync_ok h
  rw [hno] at hk
  have hoff : SameOff (inodeSlot K.toPartition n) k₀.disk k'.disk := by
    rw [hk.disk]
    exact blit_sameOff _ _ fun a h1 h2 => ⟨h1, h2⟩
  refine ⟨?_, ?_, hk.inodeBitmap.trans hi, ?_⟩
  · intro a ha hmap hslot
    rw [hoff a hslot]
    exact hd a ha hmap
  · intro b hb
    rw [hk.disk]
    exact blit_inside _ _ hb
  · intro j hj hs
    rw [← hlen] at hl hj
    exact (hsync j (by rwa [hlen] at hj) hs).above hl hj hk.blockBitmap fun a ha => hoff a (hl.slot_above ha)

theorem deleteFound_rewrote (h : DirOn K k inode) (hp : Holder k.disk inode inodeNo p) (hheap : HeapOnly k k₁)
    (hno : K.inodeNo inode.iNo = n)
    (hs : deleteFound K p (blockAddr k.disk inode p) i io (blockScan k.disk inode inodeNo p) inode k₁ = .ok ((ok, inode'), k')) :
    Rewrote K n k k' inode' := by
  have hl := h.layout
  have hlba := h.owns.block_data hp.range hp.block
  have hused := h.owns.used p (by have := hp.range; omega) (by rw [refAddr_block _ _ hp.range]; exact hp.block)
  rw [refAddr_block _ _ hp.range] at hused
  unfold deleteFound at hs
  simp only [bind_ok, assert_ok, pure_ok, Prod.mk.injEq] at hs
  obtain ⟨_, _, ⟨-, rfl⟩, inode₁, k₂, herase, _, _, ⟨-, rfl⟩, _, k₃, hsync, ⟨rfl, rfl⟩, rfl⟩ := hs
  unfold eraseEntry at herase
  split_ifs at herase with hone
  · unfold freeDirBlock blockBitmapSet at herase
    simp only [bind_ok, modify_ok] at herase
    obtain ⟨_, _, rfl, _, k₄, hbits, herase⟩ := herase
    split_ifs at herase
    · obtain ⟨rfl, rfl⟩ := (pure_ok _ _ _ _).mp herase
      obtain ⟨hblocks, hinodes, -, -, hoff, hset⟩ := bitmapSync_synced (by simpa [hheap.blockBitmap] using hl.whole)
        (by simpa [hheap.blockBitmap] using hused.2.1) hbits
      simp only [Bitmap.set_len, hheap.blockBitmap] at hoff
      refine inodeSync_rewrote hsync hl ?_ ?_ (hinodes.trans hheap.inodeBitmap) ?_ ?_
      · rw [hblocks, Bitmap.set_len, hheap.blockBitmap]
      · intro a _ ha
        rw [hoff a ha]
        exact congrFun hheap.disk a
      · intro j hj hsy
        apply hset j
        by_cases hij : (blockAddr k.disk inode p - K.sb.dataStartLba) / 4096 = j
        · exact .inr hij
        · left
          intro b hb
          change k₁.disk _ = (k₁.blockBitmap.set _ false).bits _
          rw [Bitmap.set_bits _ _ _ _ (by omega), hheap.disk, hheap.blockBitmap]
          exact hsy b hb
      · have hiNo : (inode.setSector p 0).iNo = inode.iNo := by
          unfold Inode.setSector
          split_ifs <;> rfl
        rw [← hno, ← hiNo]
    · simp at herase
  · simp only [bind_ok, pure_ok] at herase
    obtain ⟨_, k₄, hwrite, rfl, rfl⟩ := herase
    obtain ⟨-, rfl⟩ := (ideWrite_ok _ _ _ _ _ _).mp hwrite
    have hoff : ∀ a < K.sb.dataStartLba * 512,
        blit k₁.disk (blockAddr k.disk inode p * 512) (blit io.bytes (24 * i) zeros K.sb.dirEntrySize) (1 * 512) a = k.disk a := by
      intro a ha
      rw [blit_outside _ _ (.inl (ha.trans_le (Nat.mul_le_mul_right 512 hlba))), hheap.disk]
    refine inodeSync_rewrote hsync hl (congrArg Bitmap.btmpBytesLen hheap.blockBitmap) (fun a ha _ => hoff a ha) hheap.inodeBitmap ?_ hno
    intro j hj hsy
    refine hsy.above hl hj hheap.blockBitmap fun a ha => hoff a (ha.trans_le ?_)
    exact (Nat.mul_le_mul_right 512 (Nat.le_of_add_right_le hl.inodeBitmap)).trans
      (Nat.mul_le_mul_right 512 (Nat.le_of_add_right_le hl.inodeTable))

theorem deleteDirEntry_cases (h : DirOn K k inode) (hs : SlotsOk k.disk inode) (hdirect : inode.iSectors 12 = 0)
    (hrun : deleteDirEntry K inode inodeNo io k = .ok ((ok, inode'), k')) :
    (inode' = inode ∧ HeapOnly k k' ∧ ∀ pos e, slotMap k.disk inode pos = some e → e.Ordinary → e.iNo ≠ inodeNo) ∨
      ∃ p i e io' k₁, Holder k.disk inode inodeNo p ∧ p < 12 ∧ i < 21 ∧ HeapOnly k k₁ ∧ Holds io'.bytes k.disk (blockAddr k.disk inode p) ∧
        slotMap k.disk inode (p, i) = some e ∧ e.Ordinary ∧ e.iNo = inodeNo ∧
        deleteFound K p (blockAddr k.disk inode p) i io' (blockScan k.disk inode inodeNo p) inode k₁ = .ok ((ok, inode'), k') := by
  by_cases hany : ∃ p, Holder k.disk inode inodeNo p
  · obtain ⟨p, hp⟩ := hany
    have hp12 : p < 12 := by
      by_contra hge
      apply hp.block
      rw [blockAddr_direct hdirect, if_neg hge]
    obtain ⟨io', k₁, i, hheap, hholds, hfound, heq⟩ := deleteDirEntry_found h io hp
    rw [hrun] at heq
    split_ifs at heq
    have hwanted : i < 21 ∧ wanted k.disk inodeNo (blockAddr k.disk inode p * 512 + 24 * i) = true := by
      change (List.range 21).find? (fun i => wanted k.disk inodeNo (blockAddr k.disk inode p * 512 + 24 * i)) = some i at hfound
      have hfirst := List.find?_some hfound
      exact ⟨List.mem_range.mp (List.mem_of_find?_eq_some hfound), hfirst⟩
    have hslot : Slot k.disk inode (p, i) := ⟨hp.range, hwanted.1, hp.block⟩
    obtain ⟨e, he, hord, hno⟩ := (wanted_slot hs hslot).mp hwanted.2
    exact .inr ⟨p, i, e, io', k₁, hp, hp12, hwanted.1, hheap, hholds, he, hord, hno, heq.symm⟩
  · rw [not_exists] at hany
    obtain ⟨k₁, hmissing, hheap⟩ := deleteDirEntry_missing h io hany
    obtain ⟨heq, rfl⟩ := ok_inj hrun hmissing
    obtain ⟨-, rfl⟩ := Prod.mk.inj heq
    refine .inl ⟨rfl, hheap, fun pos e he hord hno => ?_⟩
    have hslot := (slotMap_eq_some.mp he).1
    have hzero := wanteds_none hany hslot.1 hslot.2.2
    have hwanted := (wanted_slot hs (show Slot k.disk inode' (pos.1, pos.2) from hslot)).mpr ⟨e, he, hord, hno⟩
    exact List.countP_eq_zero.mp hzero pos.2 (List.mem_range.mpr hslot.2.1) hwanted

theorem DirOk.small (h : DirOk K k inode) : inode.iSize ≤ 24 * 252 := by
  have hsub : heldSlots (slotMap k.disk inode) ⊆ Finset.range 12 ×ˢ Finset.range 21 := by
    intro pos hpos
    rw [mem_heldSlots] at hpos
    obtain ⟨-, e, he⟩ := hpos
    obtain ⟨⟨-, hj, hb⟩, -⟩ := slotMap_eq_some.mp he
    rw [Finset.mem_product, Finset.mem_range, Finset.mem_range]
    refine ⟨?_, hj⟩
    by_contra hge
    rw [blockAddr_direct h.direct, if_neg hge] at hb
    exact hb rfl
  have hcard := Finset.card_le_card hsub
  rw [Finset.card_product, Finset.card_range, Finset.card_range] at hcard
  have hlive := h.live
  omega

theorem Erased.shrunk (her : Erased K p i k inode k' inode') (h : DirOn K k inode) (hdirect : inode.iSectors 12 = 0) (hp : p < 12)
    (hb : blockAddr k.disk inode p ≠ 0) : Shrunk K.toPartition k inode k' inode' := by
  have hpos := h.layout.data_pos
  rcases her.way with ⟨-, hsectors, hbits, -⟩ | ⟨-, hsectors, hbits, -⟩
  · have htable : inode'.iSectors 12 = 0 := by
      rw [hsectors, Function.update_of_ne (by omega), hdirect]
    have hrefs : ∀ q, refAddr k'.disk inode' q = if q = p then 0 else refAddr k.disk inode q := by
      intro q
      rw [refAddr_direct htable, refAddr_direct hdirect, hsectors]
      by_cases hq : q = p
      · rw [if_pos hq, hq, Function.update_self, ite_self]
      · rw [if_neg hq, Function.update_of_ne hq]
    have hlba := h.owns.block_data (by omega : p < 140) hb
    have href : refAddr k.disk inode p = blockAddr k.disk inode p := refAddr_block _ _ (by omega)
    refine ⟨by rw [hbits, Bitmap.set_len], ?_, ?_⟩
    · intro q _ hnz
      rw [hrefs] at hnz ⊢
      split_ifs at hnz ⊢
      · exact absurd rfl hnz
      · rfl
    · intro j
      rw [hbits, Bitmap.scanTest_set]
      by_cases hj : j = blockAddr k.disk inode p - K.sb.dataStartLba
      · rw [if_pos hj]
        simp only [Bool.false_eq_true, false_iff, not_and, not_forall]
        intro _
        refine ⟨p, by omega, ?_, ?_⟩
        · rw [href]
          change K.sb.dataStartLba ≤ _ at hlba
          omega
        · rw [hrefs, if_pos rfl]
          exact fun hne => hne rfl
      · rw [if_neg hj]
        refine ⟨fun hset => ⟨hset, ?_⟩, fun hset => hset.1⟩
        intro q _ hq
        rw [hrefs, if_neg]
        · omega
        · rintro rfl
          rw [href] at hq
          omega
  · have htable : inode'.iSectors 12 = 0 := by rw [hsectors, hdirect]
    have hrefs : ∀ q, refAddr k'.disk inode' q = refAddr k.disk inode q := by
      intro q
      rw [refAddr_direct htable, refAddr_direct hdirect, hsectors]
    refine ⟨by rw [hbits], fun q _ _ => hrefs q, ?_⟩
    intro j
    rw [hbits]
    refine ⟨fun hset => ⟨hset, ?_⟩, fun hset => hset.1⟩
    intro q _ hq
    rw [hrefs]
    omega

theorem deleteDirEntry_unlinked (h : DirOk K k inode) (hn : n < 4096 ∧ K.inodeNo n = n) (hno : inode.iNo = n)
    (hrun : deleteDirEntry K inode inodeNo io k = .ok ((ok, inode'), k')) :
    (inode' = inode ∧ HeapOnly k k' ∧ ∀ pos e, slotMap k.disk inode pos = some e → e.Ordinary → e.iNo ≠ inodeNo) ∨
      ∃ pos e, slotMap k.disk inode pos = some e ∧ e.Ordinary ∧ e.iNo = inodeNo ∧ Unlinked K n pos k inode k' inode' := by
  have hon := h.toDirOn
  rcases deleteDirEntry_cases hon h.slots h.direct hrun with
    hmissing | ⟨p, i, e, io', k₁, hp, hp12, hi, hheap, hholds, he, hord, hiNo, hfound⟩
  · exact .inl hmissing
  obtain ⟨-, her⟩ := deleteFound_erased hon hp hp12 hi hheap hholds hfound
  have hrem := her.removed hon h.slots h.direct h.dotted hp12 he hord
  have hre := deleteFound_rewrote (n := n) hon hp hheap (by rw [hno]; exact hn.2) hfound
  have hsh := her.shrunk hon h.direct hp12 hp.block
  refine .inr ⟨(p, i), e, he, hord, hiNo, hrem, her.size, her.number, hsh, ?_, ?_, hre.inodeBitmap, hre.sync⟩
  · intro a ha
    rw [Set.mem_union, Set.mem_union, not_or, not_or] at ha
    obtain ⟨hmap, hslot, hown⟩ := ha
    by_cases hdata : a < K.sb.dataStartLba * 512
    · exact hre.disk a hdata hmap hslot
    · rw [not_lt] at hdata
      rcases her.way with ⟨-, -, -, hsame⟩ | ⟨-, -, -, hsame⟩
      · exact hsame a hdata
      · rw [hsame a hdata, if_neg]
        rintro ⟨h1, h2⟩
        apply hown
        obtain ⟨b, rfl⟩ := Nat.exists_eq_add_of_le h1
        exact (slotMap_eq_some.mp he).1.own (by omega)
  · have hl' : Layout K.toPartition k'.blockBitmap.btmpBytesLen := by
      rw [hrem.len]
      exact h.layout
    have hnum := her.number
    have hsize := her.size
    have hlive := h.live
    refine (Inode.load_pureWords (hrem.owns.fits hl' (by omega) ?_ fun q hq => blockAddr_first _ _ hq) hre.slot).1
    have := h.small
    omega

end

end ElephantOS
