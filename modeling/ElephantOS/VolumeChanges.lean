import ElephantOS.DirectoryUnlink

namespace ElephantOS

open ByteMemory HaltingState

section

variable {K : Kernel} {k k' : Kern} {dirs files : Set ℕ} {inode inode' : Inode} {n m : ℕ} {pos : ℕ × ℕ} {e : Entry}

theorem Unlinked.dirOk (hu : Unlinked K n pos k inode k' inode') (hd : DirOk K k inode) (he : slotMap k.disk inode pos = some e)
    (hord : e.Ordinary) : DirOk K k' inode' := by
  have hrem := hu.removed
  obtain ⟨hslot, -, -⟩ := slotMap_eq_some.mp he
  have hcount := heldSlots_delete he hslot.1 hslot.2.1
  have hlive := hd.live
  have hsize := hu.size
  have hkeeps : ∀ pos' e', slotMap k.disk inode pos' = some e' → ¬ e'.Ordinary → slotMap k'.disk inode' pos' = some e' := by
    intro pos' e' he' hord'
    rw [hrem.map, Function.update_of_ne]
    · exact he'
    · rintro rfl
      rw [he, Option.some.injEq] at he'
      exact hord' (he' ▸ hord)
  obtain ⟨j, e₀, he₀, hname₀⟩ := hd.dotted.here
  have hdot := hkeeps _ _ he₀ fun ho => ho.1 hname₀
  have hlive' : inode'.iSize = 24 * (heldSlots (slotMap k'.disk inode')).card := by
    rw [hrem.map, hsize]
    omega
  refine ⟨⟨hd.entrySize, ?_, hrem.owns, hrem.onDisk, hd.table, ?_, ?_⟩, hrem.slots, hrem.table, hlive', ⟨?_, ?_⟩, ?_⟩
  · rw [hrem.len]
    exact hd.layout
  · rw [hu.number]
    exact hd.number
  · have hpos : 0 < (heldSlots (slotMap k'.disk inode')).card := by
      apply Finset.card_pos.mpr
      exact ⟨(0, j), mem_heldSlots.mpr ⟨slotMap_range (by rw [hdot]; simp), e₀, hdot⟩⟩
    omega
  · exact ⟨j, e₀, hdot, hname₀⟩
  · intro pos' e' he' hord'
    rw [hrem.map] at he'
    rcases update_some he' with ⟨-, heq⟩ | ⟨-, hold⟩
    · cases heq
    · exact hd.dotted.only pos' e' hold hord'
  · intro p hp hb
    by_cases hpos : p = pos.1
    · subst hpos
      exact hrem.left hb hp
    · obtain ⟨j', e', he'⟩ := hd.filled p hp (hrem.blocks p hb)
      refine ⟨j', e', ?_⟩
      rw [hrem.map, Function.update_of_ne]
      · exact he'
      · rintro rfl
        exact hpos rfl

theorem Inodes.unlinkDir (h : Inodes K dirs files k) (hdis : ∀ m ∈ dirs, m ∉ files) (hn : n ∈ dirs)
    (hc : (storedInode K.toPartition k.disk n).SameStored inode) (hu : Unlinked K n pos k inode k' inode') (hd : DirOk K k' inode') :
    Inodes K dirs files k' ∧ Undisturbed K.toPartition ((dirs ∪ files) \ {n}) k k' := by
  have hl := h.layout
  have hsame := SameBlocks.of_stored (d := k.disk) hc
  have hsh := hu.shrunk
  have hsub : dirs \ {n} ⊆ dirs := Set.sdiff_subset
  have hin : dirs \ {n} ∪ files ⊆ dirs ∪ files := Set.union_subset_union_left _ hsub
  have hnot : n ∉ dirs \ {n} ∪ files := by
    rintro (⟨-, hne⟩ | hf)
    · exact hne rfl
    · exact hdis n hn hf
  have hapart : ∀ m ∈ dirs \ {n} ∪ files, ∀ p < 141, ∀ q < 141, refAddr k.disk inode p ≠ 0 →
      refAddr k.disk inode p ≠ refAddr k.disk (storedInode K.toPartition k.disk m) q := by
    intro m hm p hp q hq hnz
    rw [← hsame.refs hp] at hnz ⊢
    refine h.apart n (.inl hn) m (hin hm) ?_ p hp q hq hnz
    rintro rfl
    exact hnot hm
  have hs : Spares K.toPartition (dirs \ {n} ∪ files) k k' := by
    refine ⟨hsh.len, ?_, ?_⟩
    · intro m hm q hq hnz
      obtain ⟨h1, h2, h3⟩ := (h.owns (hin hm)).used q hq hnz
      refine ⟨h1, ?_, (hsh.bits _).mpr ⟨h3, ?_⟩⟩
      · rw [hsh.len]
        exact h2
      · intro p hp heq
        rw [Nat.add_sub_cancel' h1] at heq
        exact absurd heq (hapart m hm p hp q hq (heq ▸ hnz))
    · intro a
      by_cases ha : a ∈ blockBitmapArea K.toPartition k.blockBitmap.btmpBytesLen ∪
          (inodeSlot K.toPartition n ∪ ownSectors k.disk inode)
      · rcases ha with hmap | hslot | ⟨p, hp, hnz, hmem⟩
        · exact .inr (.inl (hl.map_low hmap))
        · exact .inr (.inr (.inl ⟨n, (h.slot n (.inl hn)).1, hnot, hslot⟩))
        · refine .inr (.inr (.inr ⟨?_, ?_⟩))
          · have hnz' := hnz
            rw [← hsame.refs hp] at hnz'
            refine sector_data ((h.owns (.inl hn)).used p hp hnz').1 ?_
            rwa [hsame.refs hp]
          · rintro m hm ⟨q, hq, -, hmem'⟩
            exact hapart m hm p hp q hq hnz (sector_disjoint hmem hmem')
      · exact .inl (hu.disk a ha)
  have h' := h.mono hsub (le_refl files)
  have hnum : inode'.iNo = n := by
    rw [hu.number, ← hc.iNo]
    exact h.number n (.inl hn)
  have hj : Joins K (dirs \ {n} ∪ files) k' n inode' := by
    refine ⟨hnot, h.slot n (.inl hn), hnum, hu.stored, ?_⟩
    intro m hm p hp q hq hnz
    rw [(h'.spared hs hm).2.refs hq]
    have hkeep := hsh.keep p hp hnz
    rw [hkeep] at hnz ⊢
    exact hapart m hm p hp q hq hnz
  have h2 := (h'.spare hs).joinDir hj hd
  rw [Set.insert_sdiff_singleton, Set.insert_eq_of_mem hn] at h2
  refine ⟨h2, (h'.unmoved hs).mono ?_⟩
  rintro m ⟨hd | hf, hne⟩
  · exact .inl ⟨hd, hne⟩
  · exact .inr hf

theorem Inodes.elsewhere (h : Inodes K dirs files k) (hb : k'.blockBitmap = k.blockBitmap)
    (hd : ∀ a, k'.disk a = k.disk a ∨ a < K.sb.inodeTableLba * 512 ∨ ∃ m < 4096, m ∉ dirs ∪ files ∧ a ∈ inodeSlot K.toPartition m) :
    Spares K.toPartition (dirs ∪ files) k k' := by
  refine ⟨by rw [hb], ?_, ?_⟩
  · intro n hn p hp hnz
    unfold UsedBlock
    rw [hb]
    exact (h.owns hn).used p hp hnz
  · intro a
    rcases hd a with heq | hlow | hslot
    · exact .inl heq
    · exact .inr (.inl hlow)
    · exact .inr (.inr (.inl hslot))

theorem Inodes.freed (h : Inodes K dirs files k) {lbas : Set ℕ} (hf : Freed K.toPartition lbas k k')
    (hnot : ∀ n ∈ dirs ∪ files, ∀ p < 141, refAddr k.disk (storedInode K.toPartition k.disk n) p ≠ 0 →
      refAddr k.disk (storedInode K.toPartition k.disk n) p ∉ lbas) : Spares K.toPartition (dirs ∪ files) k k' := by
  refine ⟨hf.len, ?_, ?_⟩
  · intro n hn p hp hnz
    exact hf.used ((h.owns hn).used p hp hnz) (hnot n hn p hp hnz)
  · intro a
    by_cases ha : a ∈ blockBitmapArea K.toPartition k.blockBitmap.btmpBytesLen
    · exact .inr (.inl (h.layout.map_low ha))
    · exact .inl (hf.disk a ha)

end

def entriesOn (part : Partition) (d : Memory) (n : ℕ) : ℕ × ℕ → Option Entry := slotMap d (storedInode part d n)

structure Volume (K : Kernel) (dirs files : Set ℕ) (k : Kern) : Prop extends Inodes K dirs files k where
  names : Names (entriesOn K.toPartition k.disk) dirs files
  inodeLen : k.inodeBitmap.btmpBytesLen = 512
  inodeBits : ∀ n < 4096, k.inodeBitmap.scanTest n = true ↔ n ∈ dirs ∪ files

def EntryPut (part : Partition) (dirs : Set ℕ) (n : ℕ) (e : Entry) (d d' : Memory) : Prop :=
  ∃ pos, entriesOn part d n pos = none ∧ ∀ c ∈ dirs, entriesOn part d' c = place (entriesOn part d) n pos (some e) c

def EntryGone (part : Partition) (dirs : Set ℕ) (n : ℕ) (e : Entry) (d d' : Memory) : Prop :=
  ∃ pos, entriesOn part d n pos = some e ∧ ∀ c ∈ dirs, entriesOn part d' c = place (entriesOn part d) n pos none c

section

variable {K : Kernel} {k k' : Kern} {dirs files : Set ℕ} {inode inode' : Inode} {n m : ℕ} {pos : ℕ × ℕ} {e : Entry}

theorem Undisturbed.entries {part : Partition} {N : Set ℕ} (h : Undisturbed part N k k') (hn : n ∈ N) :
    entriesOn part k'.disk n = entriesOn part k.disk n := (h n hn).2.map

theorem Volume.spare (hv : Volume K dirs files k) (hs : Spares K.toPartition (dirs ∪ files) k k') (hi : k'.inodeBitmap = k.inodeBitmap) :
    Volume K dirs files k' where
  toInodes := hv.toInodes.spare hs
  names := hv.names.congr fun _ hd => (hv.toInodes.unmoved hs).entries (.inl hd)
  inodeLen := by rw [hi, hv.inodeLen]
  inodeBits := by
    rw [hi]
    exact hv.inodeBits

theorem Volume.heap (hv : Volume K dirs files k) (hk : HeapOnly k k') : Volume K dirs files k' ∧
    Undisturbed K.toPartition (dirs ∪ files) k k' := by
  have hs : Spares K.toPartition (dirs ∪ files) k k' := hv.toInodes.elsewhere hk.blockBitmap fun a => .inl (congrFun hk.disk a)
  exact ⟨hv.spare hs hk.inodeBitmap, hv.toInodes.unmoved hs⟩

theorem Volume.write (hv : Volume K dirs files k) (hn : n ∈ files) (hc : (storedInode K.toPartition k.disk n).SameStored inode)
    {buf : Memory} {count : ℕ} (hw : Written K buf count k inode k' inode') :
    Volume K dirs files k' ∧ (storedInode K.toPartition k'.disk n).SameStored inode' ∧
      Undisturbed K.toPartition ((dirs ∪ files) \ {n}) k k' := by
  have hr := hw.regrown (n := n) hc hv.layout (hv.slot n (.inr hn)) (hc.iNo.symm.trans (hv.number n (.inr hn)))
  obtain ⟨h, hu⟩ := hv.toInodes.growFile hv.names.disjoint hn hr hw.file
  refine ⟨⟨h, hv.names.congr fun d hd => hu.entries ⟨.inl hd, ?_⟩, ?_, ?_⟩, hr.after, hu⟩
  · rintro rfl
    exact hv.names.disjoint d hd hn
  · rw [hw.inodeBitmap]
    exact hv.inodeLen
  · rw [hw.inodeBitmap]
    exact hv.inodeBits

end

end ElephantOS
