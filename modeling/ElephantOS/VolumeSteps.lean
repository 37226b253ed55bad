import ElephantOS.Volume

namespace ElephantOS

open ByteMemory HaltingState

section

variable {K : Kernel} {k k' : Kern} {dirs dirs' files files' N : Set ℕ} {inode inode' : Inode} {n : ℕ}

theorem Owns.fits {part : Partition} {k : Kern} (ho : Owns part k inode) (hl : Layout part k.blockBitmap.btmpBytesLen) (hn : inode.iNo < 4096)
    (hs : inode.iSize < 2 ^ 32) (hd : ∀ p < 12, blockAddr k.disk inode p = inode.iSectors p) : inode.Fits := by
  have hword : ∀ p < 141, refAddr k.disk inode p < 2 ^ 32 := by
    intro p hp
    by_cases hz : refAddr k.disk inode p = 0
    · rw [hz]
      omega
    · have hwords := hl.words
      obtain ⟨h1, h2, -⟩ := ho.used p hp hz
      omega
  refine ⟨by omega, hs, ?_⟩
  intro p hp
  by_cases hp12 : p < 12
  · rw [← hd p hp12, ← refAddr_block _ _ (by omega)]
    exact hword p (by omega)
  · obtain rfl : p = 12 := by omega
    rw [← refAddr_table k.disk inode]
    exact hword 140 (by omega)

theorem blockAddr_first (d : Memory) (inode : Inode) {p : ℕ} (hp : p < 12) : blockAddr d inode p = inode.iSectors p := if_pos hp

theorem inodeSync_stored {io : Buffer} {u : Unit} (hs : inodeSync K inode io k = .ok (u, k')) (hno : K.inodeNo inode.iNo = n)
    (ho : Owns K.toPartition k inode) (hl : Layout K.toPartition k.blockBitmap.btmpBytesLen) (hn : inode.iNo < 4096)
    (hsize : inode.iSize < 2 ^ 32) : (storedInode K.toPartition k'.disk n).SameStored inode ∧
      k'.blockBitmap = k.blockBitmap ∧ k'.inodeBitmap = k.inodeBitmap ∧ SameOff (inodeSlot K.toPartition n) k.disk k'.disk := by
  obtain ⟨-, hk⟩ := inodeSync_ok hs
  rw [hno] at hk
  refine ⟨?_, hk.blockBitmap, hk.inodeBitmap, ?_⟩
  · refine (Inode.load_pureWords (ho.fits hl hn hsize fun p hp => blockAddr_first _ _ hp) ?_).1
    intro i hi
    rw [hk.disk]
    exact blit_inside _ _ hi
  · rw [hk.disk]
    exact blit_sameOff _ _ fun a h1 h2 => ⟨h1, h2⟩

theorem Layout.map_low {part : Partition} {len a : ℕ} (hl : Layout part len) (ha : a ∈ blockBitmapArea part len) :
    a < part.sb.inodeTableLba * 512 := by
  have h2 := Nat.mul_le_mul_right 512 (Nat.le_of_add_right_le hl.inodeBitmap)
  exact (ha.2.trans_le hl.blockBitmap).trans_le h2

theorem Inodes.grown_apart (h : Inodes K dirs files k) (hn : n ∈ dirs ∪ files)
    (hc : (storedInode K.toPartition k.disk n).SameStored inode) (hg : Grown K.toPartition k inode k' inode') {m : ℕ}
    (hm : m ∈ dirs ∪ files) (hne : m ≠ n) {p q : ℕ} (hp : p < 141) (hq : q < 141) (hnz : refAddr k'.disk inode' p ≠ 0) :
    refAddr k'.disk inode' p ≠ refAddr k.disk (storedInode K.toPartition k.disk m) q := by
  have hsame := SameBlocks.of_stored (d := k.disk) hc
  intro heq
  by_cases hz : refAddr k.disk inode p = 0
  · have hfree := hg.fresh p hp hz hnz
    rw [heq] at hfree hnz
    exact ((h.owns hm).used q hq hnz).not_free hfree
  · rw [hg.keep p hp hz, ← hsame.refs hp] at heq
    rw [← hsame.refs hp] at hz
    exact h.apart n hn m hm hne.symm p hp q hq hz heq

theorem Inodes.grown_spares (h : Inodes K dirs files k) (hn : n ∈ dirs ∪ files)
    (hc : (storedInode K.toPartition k.disk n).SameStored inode) (hg : Grown K.toPartition k inode k' inode')
    (hd : SameOff (blockBitmapArea K.toPartition k.blockBitmap.btmpBytesLen ∪
      (inodeSlot K.toPartition n ∪ ownSectors k'.disk inode')) k.disk k'.disk) (hN : N ⊆ dirs ∪ files) (hnot : n ∉ N) :
    Spares K.toPartition N k k' := by
  have hl := h.layout
  have hown : Owns K.toPartition k inode := (SameBlocks.of_stored hc.symm).owns (h.owns hn) (h.owns hn).used
  refine ⟨hg.len, ?_, ?_⟩
  · intro m hm p hp hnz
    exact hg.used ((h.owns (hN hm)).used p hp hnz)
  · intro a
    by_cases ha : a ∈ blockBitmapArea K.toPartition k.blockBitmap.btmpBytesLen ∪
        (inodeSlot K.toPartition n ∪ ownSectors k'.disk inode')
    · rcases ha with hmap | hslot | ⟨p, hp, hnz, hmem⟩
      · exact .inr (.inl (hl.map_low hmap))
      · exact .inr (.inr (.inl ⟨n, (h.slot n hn).1, hnot, hslot⟩))
      · refine .inr (.inr (.inr ⟨sector_data ((hg.owns hown).used p hp hnz).1 hmem, ?_⟩))
        rintro m hm ⟨q, hq, -, hmem'⟩
        have hne : m ≠ n := by
          rintro rfl
          exact hnot hm
        exact h.grown_apart hn hc hg (hN hm) hne hp hq hnz (sector_disjoint hmem hmem')
    · exact .inl (hd a ha)

/-- An inode that was spared is the same as it was. -/
def Undisturbed (part : Partition) (N : Set ℕ) (k k' : Kern) : Prop := ∀ m ∈ N, storedInode part k'.disk m = storedInode part k.disk m ∧
  SameBlocks k.disk (storedInode part k.disk m) k'.disk (storedInode part k'.disk m)

theorem Undisturbed.trans {part : Partition} {k'' : Kern} (h : Undisturbed part N k k') (h' : Undisturbed part N k' k'') : Undisturbed part N k k'' := by
  intro m hm
  exact ⟨(h' m hm).1.trans (h m hm).1, (h m hm).2.trans (h' m hm).2⟩

theorem Undisturbed.mono {part : Partition} {N' : Set ℕ} (h : Undisturbed part N k k') (hN : N' ⊆ N) : Undisturbed part N' k k' :=
  fun m hm => h m (hN hm)

theorem Inodes.unmoved (h : Inodes K dirs files k) (hs : Spares K.toPartition (dirs ∪ files) k k') :
    Undisturbed K.toPartition (dirs ∪ files) k k' := fun _ hm => h.spared hs hm

structure Regrown (K : Kernel) (n : ℕ) (k : Kern) (inode : Inode) (k' : Kern) (inode' : Inode) : Prop where
  before : (storedInode K.toPartition k.disk n).SameStored inode
  grown : Grown K.toPartition k inode k' inode'
  disk : SameOff (blockBitmapArea K.toPartition k.blockBitmap.btmpBytesLen ∪ (inodeSlot K.toPartition n ∪ ownSectors k'.disk inode'))
    k.disk k'.disk
  number : inode'.iNo = n
  after : (storedInode K.toPartition k'.disk n).SameStored inode'

theorem Regrown.joins (hr : Regrown K n k inode k' inode') (h : Inodes K dirs files k) (hn : n ∈ dirs ∪ files)
    (hsub : dirs' ∪ files' ⊆ dirs ∪ files) (h' : Inodes K dirs' files' k) (hnot : n ∉ dirs' ∪ files') :
    Inodes K dirs' files' k' ∧ Undisturbed K.toPartition (dirs' ∪ files') k k' ∧ Joins K (dirs' ∪ files') k' n inode' := by
  have hs := h.grown_spares hn hr.before hr.grown hr.disk hsub hnot
  refine ⟨h'.spare hs, h'.unmoved hs, hnot, h.slot n hn, hr.number, hr.after, ?_⟩
  intro m hm p hp q hq hnz
  rw [(h'.spared hs hm).2.refs hq]
  have hne : m ≠ n := by
    rintro rfl
    exact hnot hm
  exact h.grown_apart hn hr.before hr.grown (hsub hm) hne hp hq hnz

theorem Inodes.growFile (h : Inodes K dirs files k) (hdis : ∀ m ∈ dirs, m ∉ files) (hn : n ∈ files)
    (hr : Regrown K n k inode k' inode') (hf : FileOk K.toPartition k' inode') :
    Inodes K dirs files k' ∧ Undisturbed K.toPartition ((dirs ∪ files) \ {n}) k k' := by
  have hsub : files \ {n} ⊆ files := Set.sdiff_subset
  have hnot : n ∉ dirs ∪ files \ {n} := by
    rintro (hd | ⟨-, hne⟩)
    · exact hdis n hd hn
    · exact hne rfl
  obtain ⟨h1, hu, hj⟩ := hr.joins h (.inr hn) (Set.union_subset_union_right _ hsub) (h.mono (le_refl _) hsub) hnot
  have h2 := h1.joinFile hj hf
  rw [Set.insert_sdiff_singleton, Set.insert_eq_of_mem hn] at h2
  refine ⟨h2, hu.mono ?_⟩
  rintro m ⟨hd | hf, hne⟩
  · exact .inl hd
  · exact .inr ⟨hf, hne⟩

theorem Inodes.growDir (h : Inodes K dirs files k) (hdis : ∀ m ∈ dirs, m ∉ files) (hn : n ∈ dirs)
    (hr : Regrown K n k inode k' inode') (hd : DirOk K k' inode') :
    Inodes K dirs files k' ∧ Undisturbed K.toPartition ((dirs ∪ files) \ {n}) k k' := by
  have hsub : dirs \ {n} ⊆ dirs := Set.sdiff_subset
  have hnot : n ∉ dirs \ {n} ∪ files := by
    rintro (⟨-, hne⟩ | hf)
    · exact hne rfl
    · exact hdis n hn hf
  obtain ⟨h1, hu, hj⟩ := hr.joins h (.inl hn) (Set.union_subset_union_left _ hsub) (h.mono hsub (le_refl _)) hnot
  have h2 := h1.joinDir hj hd
  rw [Set.insert_sdiff_singleton, Set.insert_eq_of_mem hn] at h2
  refine ⟨h2, hu.mono ?_⟩
  rintro m ⟨hd | hf, hne⟩
  · exact .inl ⟨hd, hne⟩
  · exact .inr hf

theorem Grown.regrown {io : Buffer} {u : Unit} {k'' : Kern} (hg : Grown K.toPartition k inode k' inode')
    (hd : SameOff (blockBitmapArea K.toPartition k.blockBitmap.btmpBytesLen ∪ ownSectors k'.disk inode') k.disk k'.disk)
    (hc : (storedInode K.toPartition k.disk n).SameStored inode) (ho : Owns K.toPartition k inode)
    (hl : Layout K.toPartition k.blockBitmap.btmpBytesLen) (hn : n < 4096 ∧ K.inodeNo n = n) (hno : inode'.iNo = n)
    (hsize : inode'.iSize < 2 ^ 32) (hs : inodeSync K inode' io k' = .ok (u, k'')) :
    Regrown K n k inode k'' inode' ∧ SameBlocks k'.disk inode' k''.disk inode' ∧ k''.blockBitmap = k'.blockBitmap ∧
      k''.inodeBitmap = k'.inodeBitmap := by
  have hl' : Layout K.toPartition k'.blockBitmap.btmpBytesLen := by
    rw [hg.len]
    exact hl
  have ho' := hg.owns ho
  obtain ⟨hafter, hbits, hinodes, hoff⟩ := inodeSync_stored (n := n) hs (by rw [hno]; exact hn.2) ho' hl' (by rw [hno]; exact hn.1) hsize
  have hsame : SameBlocks k'.disk inode' k''.disk inode' := by
    refine ⟨Inode.SameStored.refl _, ?_⟩
    rintro a ⟨p, hp, hnz, ha⟩
    exact hoff a (hl'.data_off_slot hn.1 (sector_data (ho'.used p hp hnz).1 ha))
  refine ⟨⟨hc, hg.trans (Grown.of_same hbits fun p hp => hsame.refs hp), ?_, hno, hafter⟩, hsame, hbits, hinodes⟩
  rw [hsame.sectors]
  exact (hd.mono (Set.union_subset_union_right _ Set.subset_union_right)).trans
    (hoff.mono (Set.subset_union_left.trans Set.subset_union_right))

theorem Written.regrown {buf : Memory} {count : ℕ} (hw : Written K buf count k inode k' inode')
    (hc : (storedInode K.toPartition k.disk n).SameStored inode) (hl : Layout K.toPartition k.blockBitmap.btmpBytesLen)
    (hn : n < 4096 ∧ K.inodeNo n = n) (hno : inode.iNo = n) : Regrown K n k inode k' inode' := by
  have hno' : inode'.iNo = n := by
    rw [hw.fields]
    exact hno
  have hslot : K.inodeNo inode.iNo = n := by
    rw [hno]
    exact hn.2
  have hdisk := hw.disk
  have hstored := hw.stored
  rw [hslot] at hdisk hstored
  have hl' : Layout K.toPartition k'.blockBitmap.btmpBytesLen := by
    rw [hw.grown.len]
    exact hl
  have hsmall := hw.file.small
  refine ⟨hc, hw.grown, hdisk, hno', ?_⟩
  exact (Inode.load_pureWords (hw.file.owns.fits hl' (by omega) (by omega) fun p hp => blockAddr_first _ _ hp) hstored).1

theorem Inserted.dirOk {e : Entry} {pos : ℕ × ℕ} (hi : Inserted K.toPartition e pos k inode k' inode') (hd : DirOk K k inode)
    (hord : e.Ordinary) : DirOk K k' inode' := by
  have hnum : inode'.iNo = inode.iNo := by rw [hi.fields]
  have hgrows : inode'.iSize = inode.iSize + 24 := by rw [hi.fields]
  have hdirect := hi.direct
  have hkeeps : ∀ pos' e', slotMap k.disk inode pos' = some e' → slotMap k'.disk inode' pos' = some e' := by
    intro pos' e' he'
    rw [hi.map, Function.update_of_ne]
    · exact he'
    · rintro rfl
      rw [hi.free] at he'
      cases he'
  refine ⟨⟨hd.entrySize, ?_, hi.grown.owns hd.owns, hi.onDisk hd.onDisk, hd.table, ?_, ?_⟩, hi.slots, ?_, ?_, ⟨?_, ?_⟩, ?_⟩
  · rw [hi.grown.len]
    exact hd.layout
  · rw [hnum]
    exact hd.number
  · omega
  · rw [hi.table]
    exact hd.direct
  · rw [hi.map, heldSlots_add hi.free (by omega) hi.range, hgrows, hd.live]
    ring
  · obtain ⟨j, e', he', hname⟩ := hd.dotted.here
    exact ⟨j, e', hkeeps _ _ he', hname⟩
  · intro pos' e' he' hord'
    rw [hi.map] at he'
    rcases update_some he' with ⟨-, heq⟩ | ⟨-, hold⟩
    · rw [← Option.some.inj heq] at hord'
      exact absurd hord hord'
    · exact hd.dotted.only pos' e' hold hord'
  · intro p hp hb
    by_cases hpos : p = pos.1
    · refine ⟨pos.2, e, ?_⟩
      rw [hi.map, hpos]
      exact Function.update_self _ _ _
    · have hrange : p < 140 := by
        by_contra hge
        apply hb
        rw [blockAddr_direct (by rw [hi.table]; exact hd.direct), if_neg (by omega)]
      obtain ⟨j, e', he'⟩ := hd.filled p hp ((hi.only p hrange hb).resolve_right hpos)
      exact ⟨j, e', hkeeps _ _ he'⟩

end

end ElephantOS
