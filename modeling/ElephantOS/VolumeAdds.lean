import ElephantOS.VolumeChanges

namespace ElephantOS

open ByteMemory HaltingState

section

variable {K : Kernel} {k k₁ k₂ : Kern} {dirs files : Set ℕ} {inode inode' : Inode} {d n m : ℕ} {e : Entry} {u v : Unit}
  {io io' : Buffer} {ok : Bool}

structure EntryAdded (K : Kernel) (dirs files : Set ℕ) (d : ℕ) (e : Entry) (pos : ℕ × ℕ) (k : Kern) (inode : Inode) (k' : Kern)
    (inode' : Inode) : Prop where
  inodes : Inodes K dirs files k'
  unmoved : Undisturbed K.toPartition ((dirs ∪ files) \ {d}) k k'
  stored : (storedInode K.toPartition k'.disk d).SameStored inode'
  dir : DirOk K k' inode'
  grown : Grown K.toPartition k inode k' inode'
  free : entriesOn K.toPartition k.disk d pos = none
  entries : entriesOn K.toPartition k'.disk d = Function.update (entriesOn K.toPartition k.disk d) pos (some e)
  inodeBitmap : k'.inodeBitmap = k.inodeBitmap
  disk : SameOff (blockBitmapArea K.toPartition k.blockBitmap.btmpBytesLen ∪ (inodeSlot K.toPartition d ∪ ownSectors k'.disk inode'))
    k.disk k'.disk
  only : ∀ p < 140, blockAddr k'.disk inode' p ≠ 0 → blockAddr k.disk inode p ≠ 0 ∨ p = pos.1
  direct : pos.1 < 12
  mapKept : MapKept K.toPartition k k'

theorem Inodes.dirAt (h : Inodes K dirs files k) (hd : d ∈ dirs) (hc : (storedInode K.toPartition k.disk d).SameStored inode) :
    DirOk K k inode := (SameBlocks.of_stored hc).symm.dirOk (h.dir d hd) rfl (h.dir d hd).owns.used

theorem Inodes.addEntry (h : Inodes K dirs files k) (hdis : ∀ m ∈ dirs, m ∉ files) (hd : d ∈ dirs)
    (hc : (storedInode K.toPartition k.disk d).SameStored inode) (he : e.Valid) (hord : e.Ordinary) (hroom : DirectRoom k.disk inode)
    (hins : syncDirEntry K inode e.dirEntry io k = .ok ((ok, inode'), k₁)) (hs : inodeSync K inode' io' k₁ = .ok (u, k₂)) :
    ok = true ∧ ∃ pos, EntryAdded K dirs files d e pos k inode k₂ inode' := by
  have hsame := SameBlocks.of_stored (d := k.disk) hc
  have hdir := h.dirAt hd hc
  have hsmall := hdir.small
  obtain ⟨hok, pos, hi⟩ := syncDirEntry_inserted hdir.entrySize h.layout hdir.owns hdir.slots he (by omega) hroom hins
  refine ⟨hok, pos, ?_⟩
  have hdir₁ := hi.dirOk hdir hord
  have hsmall₁ := hdir₁.small
  have hno : inode'.iNo = d := by
    rw [hi.fields]
    exact hc.iNo.symm.trans (h.number d (.inl hd))
  obtain ⟨hr, hsame₁, hb, hib⟩ := hi.grown.regrown hi.disk hc hdir.owns h.layout (h.slot d (.inl hd)) hno (by omega) hs
  have hdir₂ : DirOk K k₂ inode' := by
    refine hsame₁.dirOk hdir₁ (by rw [hb]) fun p hp hnz => ?_
    unfold UsedBlock
    rw [hb]
    exact hdir₁.owns.used p hp hnz
  obtain ⟨h₂, hu⟩ := h.growDir hdis hd hr hdir₂
  have hsame₂ := SameBlocks.of_stored (d := k₂.disk) hr.after
  have hold : entriesOn K.toPartition k.disk d = slotMap k.disk inode := hsame.map
  have hl₁ : Layout K.toPartition k₁.blockBitmap.btmpBytesLen := by
    rw [hi.grown.len]
    exact h.layout
  have hmap₁ : MapKept K.toPartition k k₁ := .of_sameOff (n := d) h.layout hi.grown.len hi.sync (fun p hp hnz => (hdir₁.owns.used p hp hnz).1)
    (hi.disk.mono (Set.union_subset_union_right _ Set.subset_union_right))
  refine ⟨h₂, hu, hr.after, hdir₂, hr.grown, ?_, ?_, hib.trans hi.inodeBitmap, hr.disk, ?_, hi.direct,
    hmap₁.trans (inodeSync_mapKept hl₁ hs)⟩
  · rw [hold]
    exact hi.free
  · rw [hold, ← hi.map, ← hsame₁.map]
    exact hsame₂.map
  · intro p hp hnz
    rw [hsame₁.blocks hp] at hnz
    exact hi.only p hp hnz

structure SlotFilled (K : Kernel) (dirs files : Set ℕ) (m : ℕ) (inode : Inode) (k k' : Kern) : Prop where
  spares : Spares K.toPartition (dirs ∪ files) k k'
  same : SameBlocks k.disk inode k'.disk inode
  blockBitmap : k'.blockBitmap = k.blockBitmap
  inodeBitmap : k'.inodeBitmap = k.inodeBitmap
  stored : (storedInode K.toPartition k'.disk m).SameStored inode
  mountable : MapStored K.toPartition k → Mountable K.toPartition k'

theorem Inodes.fillSlot (h : Inodes K dirs files k) (hm : m < 4096 ∧ K.inodeNo m = m) (hnew : m ∉ dirs ∪ files) (hno : inode.iNo = m)
    (hsize : inode.iSize < 2 ^ 32) (ho : Owns K.toPartition k inode) (hs : inodeSync K inode io k = .ok (u, k₁))
    (hb : bitmapSync K m .inodeBitmap k₁ = .ok (v, k₂)) : SlotFilled K dirs files m inode k k₂ := by
  have hl := h.layout
  obtain ⟨hst, hbb, hib, hoff⟩ := inodeSync_stored (n := m) hs (by rw [hno]; exact hm.2) ho hl (by rw [hno]; exact hm.1) hsize
  have hl₁ : Layout K.toPartition k₁.blockBitmap.btmpBytesLen := by
    rw [hbb]
    exact hl
  have hhigh := @inodeBitmapSync_off K m k₁ hl₁ hm.1 _ k₂ hb
  obtain ⟨-, hk₂⟩ := (bitmapSync_inode K m _ k₁ k₂).mp hb
  have hbb₂ : k₂.blockBitmap = k.blockBitmap := by
    rw [hk₂]
    exact hbb
  have hib₂ : k₂.inodeBitmap = k.inodeBitmap := by
    rw [hk₂]
    exact hib
  have hdisk : ∀ a, K.sb.inodeTableLba * 512 ≤ a → a ∉ inodeSlot K.toPartition m → k₂.disk a = k.disk a := by
    intro a ha hslot
    rw [hhigh ha]
    exact hoff a hslot
  refine ⟨h.elsewhere hbb₂ ?_, ⟨Inode.SameStored.refl _, ?_⟩, hbb₂, hib₂, ?_,
    fun hm₁ => bitmapSync_mountable (hm₁.kept hl (inodeSync_mapKept hl hs)) hl₁ hm.1 hb⟩
  · intro a
    by_cases hlow : a < K.sb.inodeTableLba * 512
    · exact .inr (.inl hlow)
    · by_cases hslot : a ∈ inodeSlot K.toPartition m
      · exact .inr (.inr ⟨m, hm.1, hnew, hslot⟩)
      · exact .inl (hdisk a (by omega) hslot)
  · rintro a ⟨p, hp, hnz, ha⟩
    have hdata := sector_data (ho.used p hp hnz).1 ha
    refine hdisk a ?_ (hl.data_off_slot hm.1 hdata)
    exact (Nat.mul_le_mul_right 512 (Nat.le_of_add_right_le hl.inodeTable)).trans hdata
  · have hload : storedInode K.toPartition k₂.disk m = storedInode K.toPartition k₁.disk m := by
      apply Inode.load_congr
      intro i _
      apply hhigh
      unfold inodeAddr
      omega
    rw [hload]
    exact hst

theorem inodeBitmapAlloc_new (hv : Volume K dirs files k) (h : inodeBitmapAlloc k = .ok (some m, k₁)) :
    m < 4096 ∧ m ∉ dirs ∪ files ∧ k₁ = { k with inodeBitmap := k.inodeBitmap.set m true } := by
  obtain ⟨i, hlt, hclear, -, hi, rfl⟩ := inodeBitmapAlloc_ok h
  obtain rfl := Option.some.inj hi
  rw [hv.inodeLen] at hlt
  refine ⟨hlt, ?_, rfl⟩
  intro hmem
  rw [(hv.inodeBits m hlt).mpr hmem] at hclear
  cases hclear

structure NoBlocks (inode : Inode) : Prop where
  size : inode.iSize = 0
  sectors : ∀ p < 13, inode.iSectors p = 0

theorem NoBlocks.refs (h : NoBlocks inode) (d : Memory) {p : ℕ} (hp : p < 141) : refAddr d inode p = 0 := by
  rw [refAddr_direct (h.sectors 12 (by omega))]
  split_ifs with h12
  · exact h.sectors p (by omega)
  · rfl

theorem NoBlocks.owns {part : Partition} (h : NoBlocks inode) : Owns part k inode where
  used _ hp hnz := absurd (h.refs _ hp) hnz
  inj _ hp _ _ hnz _ := absurd (h.refs _ hp) hnz

theorem NoBlocks.fileOk {part : Partition} (h : NoBlocks inode) : FileOk part k inode := by
  have hz : usedBlocks inode = 0 := if_pos (h.sectors 0 (by omega))
  refine ⟨h.owns, ⟨?_, ?_⟩, fun _ => h.size, ?_⟩
  · intro p hp
    rw [hz, ← refAddr_block _ _ hp, h.refs _ (by omega)]
    simp
  · rw [hz, h.sectors 12 (by omega)]
    simp
  · rw [h.size]
    decide

theorem set_inodeBits (hv : Volume K dirs files k) {N : Set ℕ} {b : Bool} (hN : ∀ i, i ∈ N ↔ if i = m then b = true else i ∈ dirs ∪ files) :
    ∀ i < 4096, (k.inodeBitmap.set m b).scanTest i = true ↔ i ∈ N := by
  intro i hi
  rw [Bitmap.scanTest_set, hN]
  split_ifs
  · rfl
  · exact hv.inodeBits i hi

theorem inodeBitmapAlloc_spares (h : Inodes K dirs files k) (hd : k₂.disk = k.disk) (hb : k₂.blockBitmap = k.blockBitmap) :
    Spares K.toPartition (dirs ∪ files) k k₂ := h.elsewhere hb fun a => .inl (congrFun hd a)

theorem EntryAdded.placed {pos : ℕ × ℕ} (h : EntryAdded K dirs files d e pos k inode k₁ inode') (hn : n ∈ dirs ∪ files) :
    entriesOn K.toPartition k₁.disk n = place (entriesOn K.toPartition k.disk) d pos (some e) n := by
  by_cases hnd : n = d
  · subst hnd
    unfold place
    rw [h.entries, Function.update_self]
  · unfold place
    rw [Function.update_of_ne hnd]
    exact h.unmoved.entries ⟨hn, hnd⟩

theorem Volume.addFile {k₃ k₄ k₅ k₆ : Kern} {f : Inode} {w : Unit} (hv : Volume K dirs files k)
    (halloc : inodeBitmapAlloc k = .ok (some m, k₁)) (hk : HeapOnly k₁ k₂) (hslot : K.inodeNo m = m) (hd : d ∈ dirs)
    (hc : (storedInode K.toPartition k.disk d).SameStored inode) (he : e.Valid) (hord : e.Ordinary) (heno : e.iNo = m)
    (htype : e.fType = .regular) (hname : ∀ pos e', entriesOn K.toPartition k.disk d pos = some e' → e'.name ≠ e.name)
    (hroom : DirectRoom k.disk inode) (hins : syncDirEntry K inode e.dirEntry io k₂ = .ok ((ok, inode'), k₃))
    (hs : inodeSync K inode' io' k₃ = .ok (u, k₄)) (hf : NoBlocks f) (hfno : f.iNo = m) (hs' : inodeSync K f io' k₄ = .ok (v, k₅))
    (hb : bitmapSync K m .inodeBitmap k₅ = .ok (w, k₆)) :
    Volume K dirs (insert m files) k₆ ∧ m ∉ dirs ∪ files ∧ Undisturbed K.toPartition ((dirs ∪ files) \ {d}) k k₆ ∧
      (storedInode K.toPartition k₆.disk d).SameStored inode' ∧ (storedInode K.toPartition k₆.disk m).SameStored f ∧
      EntryPut K.toPartition dirs d e k.disk k₆.disk ∧ KeepsMount K.toPartition k k₆ := by
  obtain ⟨hlt, hnew, rfl⟩ := inodeBitmapAlloc_new hv halloc
  have hdisk : k₂.disk = k.disk := hk.disk
  have hs₂ := inodeBitmapAlloc_spares hv.toInodes hdisk hk.blockBitmap
  have hu₂ := hv.toInodes.unmoved hs₂
  have hc₂ : (storedInode K.toPartition k₂.disk d).SameStored inode := by
    rw [hdisk]
    exact hc
  rw [← hdisk] at hroom
  obtain ⟨-, pos, ha⟩ := (hv.toInodes.spare hs₂).addEntry hv.names.disjoint hd hc₂ he hord hroom hins hs
  have hfill := ha.inodes.fillSlot ⟨hlt, hslot⟩ hnew hfno (by rw [hf.size]; omega) hf.owns hs' hb
  have hu₆ := ha.inodes.unmoved hfill.spares
  have hj : Joins K (dirs ∪ files) k₆ m f := ⟨hnew, ⟨hlt, hslot⟩, hfno, hfill.stored, fun _ _ _ hp _ _ hnz => absurd (hf.refs _ hp) hnz⟩
  have hfree := ha.free
  rw [hdisk] at hfree
  have hnames := hv.names.addFile hd hfree hname hord htype (fun hm => hnew (.inl (heno ▸ hm))) fun hm => hnew (.inr (heno ▸ hm))
  rw [heno] at hnames
  have hput : ∀ c ∈ dirs, entriesOn K.toPartition k₆.disk c = place (entriesOn K.toPartition k.disk) d pos (some e) c := by
    intro c hcd
    rw [hu₆.entries (.inl hcd), ha.placed (.inl hcd), hdisk]
  refine ⟨⟨(ha.inodes.spare hfill.spares).joinFile hj hf.fileOk, hnames.congr hput, ?_, ?_⟩, hnew,
    ((hu₂.mono Set.sdiff_subset).trans ha.unmoved).trans (hu₆.mono Set.sdiff_subset), ?_, hfill.stored, ⟨pos, hfree, hput⟩, fun hm =>
      hfill.mountable ((hm.toMapStored.kept hv.layout (.of_eq hk.blockBitmap hdisk)).kept (hv.toInodes.spare hs₂).layout ha.mapKept)⟩
  · rw [hfill.inodeBitmap, ha.inodeBitmap, hk.inodeBitmap, Bitmap.set_len]
    exact hv.inodeLen
  · rw [hfill.inodeBitmap, ha.inodeBitmap, hk.inodeBitmap]
    refine set_inodeBits (b := true) hv fun i => ?_
    rw [Set.union_insert, Set.mem_insert_iff]
    split_ifs with hi
    · simp [hi]
    · simp [hi]
  · rw [(hu₆ d (.inl hd)).1]
    exact ha.stored

theorem Allocated.mapKept {part : Partition} {lba : ℕ} {bytes : Memory} (hl : Layout part k.blockBitmap.btmpBytesLen) (ha : Allocated part [lba] k k₁)
    (hsync : ∀ j, j * 512 < k.blockBitmap.btmpBytesLen → SyncedAt part k j → SyncedAt part k₁ j) :
    MapKept part k { k₁ with disk := blit k₁.disk (lba * 512) bytes (1 * 512) } := by
  have hdata := (ha.fresh lba (List.mem_singleton_self _)).1
  have hl₁ : Layout part k₁.blockBitmap.btmpBytesLen := by
    rw [ha.len]
    exact hl
  refine MapKept.trans ⟨ha.len, hsync, fun a _ hmap => ha.disk a hmap⟩ (.above hl₁ rfl fun a ha => ?_)
  apply blit_outside
  have h1 := Nat.mul_le_mul_right 512 (Nat.le_of_add_right_le hl.inodeTable)
  have h2 := Nat.mul_le_mul_right 512 hdata
  omega

theorem Inodes.newBlock_spares {lba : ℕ} {bytes : Memory} (h : Inodes K dirs files k) (ha : Allocated K.toPartition [lba] k k₁) :
    Spares K.toPartition (dirs ∪ files) k { k₁ with disk := blit k₁.disk (lba * 512) bytes (1 * 512) } := by
  have hfree := ha.fresh lba (List.mem_singleton_self _)
  refine ⟨ha.len, ?_, ?_⟩
  · intro n hn p hp hnz
    obtain ⟨h1, h2, h3⟩ := (h.owns hn).used p hp hnz
    refine ⟨h1, ?_, ?_⟩
    · rw [ha.len]
      exact h2
    · rw [ha.bits, h3, Bool.true_or]
  · intro a
    by_cases hsec : a ∈ sector lba
    · refine .inr (.inr (.inr ⟨sector_data hfree.1 hsec, ?_⟩))
      rintro n hn ⟨p, hp, hnz, hmem⟩
      have hused := (h.owns hn).used p hp hnz
      rw [sector_disjoint hmem hsec] at hused
      exact hused.not_free hfree
    · by_cases hmap : a ∈ blockBitmapArea K.toPartition k.blockBitmap.btmpBytesLen
      · exact .inr (.inl (h.layout.map_low hmap))
      · left
        change blit _ _ _ _ a = _
        rw [blit_outside _ _ ?_]
        · exact ha.disk a hmap
        · by_contra hin
          exact hsec ⟨by omega, by omega⟩

theorem newDirInode_refs {lba : ℕ} (mem : Memory) (q : ℕ) : refAddr mem (newDirInode K m lba) q = if q = 0 then lba else 0 := by
  rw [refAddr_direct (by rw [newDirInode_sectors, if_neg (by omega)])]
  split_ifs with h12 h0 h0
  · rw [newDirInode_sectors, if_pos h0]
  · rw [newDirInode_sectors, if_neg h0]
  · omega
  · rfl

theorem newDirInode_new {lba : ℕ} (hentry : K.sb.dirEntrySize = 24) (hl : Layout K.toPartition k.blockBitmap.btmpBytesLen)
    (htable : TableOnDisk K.toPartition) (hu : UsedBlock K.toPartition k lba) (hdisk : lba ≤ maxLba)
    (hm : m < 4096 ∧ K.inodeNo m = m) (hdlt : d < 2 ^ 32) (hbytes : ∀ i < 512, k.disk (lba * 512 + i) = dotEntries m d i) :
    NewDirectory K m d { k with heap := { k.heap with grant := fun _ => true } } (newDirInode K m lba) := by
  have hpos : lba ≠ 0 := by
    have h1 := hl.data_pos
    have h2 := hu.1
    omega
  have hsize : (newDirInode K m lba).iSize = 48 := by
    change 2 * K.sb.dirEntrySize = 48
    rw [hentry]
  have hzero : (newDirInode K m lba).iSectors 0 = lba := by rw [newDirInode_sectors, if_pos rfl]
  refine ⟨⟨hentry, hl, ⟨?_, ?_⟩, ?_, htable, ?_, ?_⟩, fun _ => rfl, ⟨by omega, hdlt⟩, hsize, ?_, ?_, ?_⟩
  · intro q _ hnz
    rw [newDirInode_refs] at hnz ⊢
    split_ifs at hnz ⊢
    · exact hu
    · exact absurd rfl hnz
  · intro q _ r _ hnz heq
    rw [newDirInode_refs] at hnz
    rw [newDirInode_refs, newDirInode_refs] at heq
    split_ifs at hnz heq <;> omega
  · intro q _
    rw [newDirInode_refs]
    split_ifs
    · exact hdisk
    · exact Nat.zero_le _
  · change K.inodeNo m < 4096
    rw [hm.2]
    exact hm.1
  · rw [hsize]
    omega
  · rw [hzero]
    exact hpos
  · intro q hq _
    rw [newDirInode_sectors, if_neg (by omega)]
  · rw [hzero]
    exact hbytes

theorem NewDirectory.dirOk {own parent : ℕ} {heap : Heap} (h : NewDirectory K own parent { k with heap := heap } inode) : DirOk K k inode := by
  have hm := h.mapped
  exact ⟨⟨h.entrySize, h.layout, ⟨h.owns.used, h.owns.inj⟩, h.onDisk, h.table, h.number, h.size⟩, hm.slots, hm.direct, hm.live,
    hm.dotted, hm.filled⟩

theorem EntryAdded.fresh_block {lba : ℕ} {bytes : Memory} {pos : ℕ × ℕ} {k' : Kern} (h : Inodes K dirs files k)
    (ha : Allocated K.toPartition [lba] k k₁) (hd : d ∈ dirs) (hc : (storedInode K.toPartition k.disk d).SameStored inode)
    (hadd : EntryAdded K dirs files d e pos { k₁ with disk := blit k₁.disk (lba * 512) bytes (1 * 512) } inode k' inode') :
    UsedBlock K.toPartition k' lba ∧ (∀ a ∈ sector lba, k'.disk a = blit k₁.disk (lba * 512) bytes (1 * 512) a) ∧
      ∀ n ∈ dirs ∪ files, ∀ q < 141, refAddr k'.disk (storedInode K.toPartition k'.disk n) q ≠ lba := by
  have hl := h.layout
  have hfree := ha.fresh lba (List.mem_singleton_self _)
  have ho := (h.dirAt hd hc).owns
  have hl₁ : Layout K.toPartition k₁.blockBitmap.btmpBytesLen := by
    rw [ha.len]
    exact hl
  have hnot : ∀ q < 141, refAddr k'.disk inode' q ≠ lba := fun q hq => newBlock_apart hl ho ha hadd.grown hq
  have hpos : lba ≠ 0 := by
    have := hl.data_pos
    omega
  refine ⟨hadd.grown.used ⟨hfree.1, ?_, ?_⟩, ?_, ?_⟩
  · change _ < 8 * k₁.blockBitmap.btmpBytesLen
    rw [ha.len]
    exact hfree.2.1
  · change k₁.blockBitmap.scanTest _ = true
    rw [ha.bits, Nat.add_sub_cancel' hfree.1]
    simp
  · intro a hmem
    apply hadd.disk
    have hdata := sector_data hfree.1 hmem
    rintro (hmap | hslot | ⟨q, hq, -, hmem'⟩)
    · exact hl₁.data_off hdata hmap
    · exact hl.data_off_slot (h.slot d (.inl hd)).1 hdata hslot
    · exact hnot q hq (sector_disjoint hmem' hmem)
  · intro n hn q hq heq
    by_cases hnd : n = d
    · subst hnd
      rw [(SameBlocks.of_stored (d := k'.disk) hadd.stored).refs hq] at heq
      exact hnot q hq heq
    · have hs := @Inodes.newBlock_spares _ _ _ _ _ _ bytes h ha
      have hu := @Undisturbed.mono _ _ _ _ ((dirs ∪ files) \ {d}) (h.unmoved hs) Set.sdiff_subset
      rw [((hu.trans hadd.unmoved) n ⟨hn, hnd⟩).2.refs hq] at heq
      have hused := (h.owns hn).used q hq (heq ▸ hpos)
      rw [heq] at hused
      exact hused.not_free hfree

theorem Volume.addDir {k₃ k₅ k₆ k₇ k₈ : Kern} {lba : ℕ} {bytes : Memory} {w x : Unit} (hv : Volume K dirs files k)
    (halloc : inodeBitmapAlloc k = .ok (some m, k₁)) (hblock : blockBitmapAlloc K k₁ = .ok (some lba, k₂))
    (hsync : bitmapSync K (lba - K.sb.dataStartLba) .blockBitmap k₂ = .ok (x, k₃)) (hlba : lba ≤ maxLba)
    (hslot : K.inodeNo m = m) (hd : d ∈ dirs) (hc : (storedInode K.toPartition k.disk d).SameStored inode)
    (hbytes : ∀ i < 512, bytes i = dotEntries m d i) (he : e.Valid) (hord : e.Ordinary) (heno : e.iNo = m) (htype : e.fType = .directory)
    (hname : ∀ pos e', entriesOn K.toPartition k.disk d pos = some e' → e'.name ≠ e.name) (hroom : DirectRoom k.disk inode)
    (hins : syncDirEntry K inode e.dirEntry io { k₃ with disk := blit k₃.disk (lba * 512) bytes (1 * 512) } = .ok ((ok, inode'), k₅))
    (hs : inodeSync K inode' io' k₅ = .ok (u, k₆)) (hs' : inodeSync K (newDirInode K m lba) io' k₆ = .ok (v, k₇))
    (hb : bitmapSync K m .inodeBitmap k₇ = .ok (w, k₈)) :
    Volume K (insert m dirs) files k₈ ∧ m ∉ dirs ∪ files ∧ Undisturbed K.toPartition ((dirs ∪ files) \ {d}) k k₈ ∧
      (storedInode K.toPartition k₈.disk d).SameStored inode' ∧ EntryPut K.toPartition dirs d e k.disk k₈.disk ∧
      (∀ pos e', entriesOn K.toPartition k₈.disk m pos = some e' → ¬ e'.Ordinary) ∧ KeepsMount K.toPartition k k₈ := by
  obtain ⟨hlt, hnew, rfl⟩ := inodeBitmapAlloc_new hv halloc
  have hs₁ := @inodeBitmapAlloc_spares _ _ { k with inodeBitmap := k.inodeBitmap.set m true } _ _ hv.toInodes rfl rfl
  have h₁ := hv.toInodes.spare hs₁
  have hl := h₁.layout
  obtain ⟨lba', hsome, ha₂, -⟩ := blockBitmapAlloc_allocated hblock
  obtain rfl := Option.some.inj hsome
  obtain ⟨ha, -, hsynced⟩ := ha₂.synced hl.whole hsync
  have hs₄ := @Inodes.newBlock_spares _ _ _ _ _ _ bytes h₁ ha
  have hmap₄ := @Allocated.mapKept _ _ _ _ bytes hl ha fun j _ => hsynced j
  have hu₄ := h₁.unmoved hs₄
  have hdir := h₁.dirAt hd hc
  have hc₄ : (storedInode K.toPartition (blit k₃.disk (lba * 512) bytes (1 * 512)) d).SameStored inode := by
    have heq := (hu₄ d (.inl hd)).1
    dsimp only at heq
    rw [heq]
    exact hc
  have hroom₁ : DirectRoom { k with inodeBitmap := k.inodeBitmap.set m true }.disk inode := hroom
  obtain ⟨-, pos, hadd⟩ := (h₁.spare hs₄).addEntry hv.names.disjoint hd hc₄ he hord (hroom₁.newBlock hl hdir.owns ha) hins hs
  obtain ⟨hused, hsec, hother⟩ := hadd.fresh_block h₁ ha hd hc
  have hd4096 := (hv.slot d (.inl hd)).1
  have hown : Owns K.toPartition k₆ (newDirInode K m lba) := by
    refine ⟨?_, ?_⟩
    · intro q _ hnz
      rw [newDirInode_refs] at hnz ⊢
      split_ifs at hnz ⊢
      · exact hused
      · exact absurd rfl hnz
    · intro q _ r _ hnz heq
      rw [newDirInode_refs] at hnz
      rw [newDirInode_refs, newDirInode_refs] at heq
      split_ifs at hnz heq <;> omega
  have hsize : (newDirInode K m lba).iSize < 2 ^ 32 := by
    change 2 * K.sb.dirEntrySize < 2 ^ 32
    rw [hdir.entrySize]
    omega
  have hfill := hadd.inodes.fillSlot ⟨hlt, hslot⟩ hnew rfl hsize hown hs' hb
  have hu₈ := hadd.inodes.unmoved hfill.spares
  have hstored₈ : (storedInode K.toPartition k₈.disk d).SameStored inode' := by
    rw [(hu₈ d (.inl hd)).1]
    exact hadd.stored
  have hdir₈ := (hadd.inodes.spare hfill.spares).dirAt hd hstored₈
  have hpos : lba ≠ 0 := by
    have h1 := hl.data_pos
    have h2 := hused.1
    omega
  have hnd : NewDirectory K m d { k₈ with heap := { k₈.heap with grant := fun _ => true } } (newDirInode K m lba) := by
    refine newDirInode_new hdir₈.entrySize hdir₈.layout hdir₈.table ?_ hlba ⟨hlt, hslot⟩ (by omega) ?_
    · unfold UsedBlock
      rw [hfill.blockBitmap]
      exact hused
    · intro i hi
      have hmem : lba * 512 + i ∈ sector lba := ⟨by omega, by omega⟩
      have hown₆ : lba * 512 + i ∈ ownSectors k₆.disk (newDirInode K m lba) := by
        refine ⟨0, by omega, ?_, ?_⟩ <;> rw [newDirInode_refs, if_pos rfl]
        · exact hpos
        · exact hmem
      rw [hfill.same.bytes _ hown₆, hsec _ hmem, blit_inside _ _ (by omega)]
      exact hbytes i hi
  have hj : Joins K (dirs ∪ files) k₈ m (newDirInode K m lba) := by
    refine ⟨hnew, ⟨hlt, hslot⟩, rfl, hfill.stored, ?_⟩
    intro n hn p hp q hq hnz heq
    rw [newDirInode_refs] at hnz heq
    split_ifs at hnz heq
    · rw [(hu₈ n hn).2.refs hq] at heq
      exact hother n hn q hq heq.symm
    · exact absurd rfl hnz
  have hentries : entriesOn K.toPartition k₈.disk m = slotMap k₈.disk (newDirInode K m lba) :=
    (SameBlocks.of_stored (d := k₈.disk) hfill.stored).map
  have hu : Undisturbed K.toPartition (dirs ∪ files) k { k₃ with disk := blit k₃.disk (lba * 512) bytes (1 * 512) } :=
    (hv.toInodes.unmoved hs₁).trans hu₄
  have hfree := hadd.free
  rw [hu.entries (.inl hd)] at hfree
  have hnames := @Names.addDir _ _ _ _ _ _ hv.names hd hfree hname hord htype (fun hm => hnew (.inl (heno ▸ hm)))
    (fun hm => hnew (.inr (heno ▸ hm))) (slotMap k₈.disk (newDirInode K m lba)) (0, 0) (0, 1) ?_
  · rw [heno] at hnames
    have hput : ∀ c ∈ dirs, entriesOn K.toPartition k₈.disk c = place (entriesOn K.toPartition k.disk) d pos (some e) c := by
      intro c hcd
      rw [hu₈.entries (.inl hcd), hadd.placed (.inl hcd)]
      unfold place
      by_cases hcd' : c = d
      · rw [hcd', Function.update_self, Function.update_self, hu.entries (.inl hd)]
      · rw [Function.update_of_ne hcd', Function.update_of_ne hcd', hu.entries (.inl hcd)]
    refine ⟨⟨(hadd.inodes.spare hfill.spares).joinDir hj hnd.dirOk, hnames.congr ?_, ?_, ?_⟩, hnew,
      ((hu.mono Set.sdiff_subset).trans hadd.unmoved).trans (hu₈.mono Set.sdiff_subset), hstored₈, ⟨pos, hfree, hput⟩, ?_, fun hm => ?_⟩
    · rintro c (rfl | hcd)
      · rw [hentries, Function.update_self]
      · have hcm : c ≠ m := by
          rintro rfl
          exact hnew (.inl hcd)
        rw [Function.update_of_ne hcm]
        exact hput c hcd
    · have hlen : k₆.inodeBitmap = k.inodeBitmap.set m true := hadd.inodeBitmap.trans ha.inodeBitmap
      rw [hfill.inodeBitmap, hlen, Bitmap.set_len]
      exact hv.inodeLen
    · have hlen : k₆.inodeBitmap = k.inodeBitmap.set m true := hadd.inodeBitmap.trans ha.inodeBitmap
      rw [hfill.inodeBitmap, hlen]
      refine set_inodeBits (b := true) hv fun i => ?_
      rw [Set.insert_union, Set.mem_insert_iff]
      split_ifs with hi
      · simp [hi]
      · simp [hi]
    · intro q e' hq ho
      rw [hentries] at hq
      rcases hnd.entries hq with ⟨-, rfl⟩ | ⟨-, rfl⟩
      · exact ho.1 rfl
      · exact ho.2 rfl
    · have hm₁ : MapStored K.toPartition { k with inodeBitmap := k.inodeBitmap.set m true } := hm.toMapStored.kept hv.layout (.of_eq rfl rfl)
      exact hfill.mountable ((hm₁.kept hl hmap₄).kept (h₁.spare hs₄).layout hadd.mapKept)
  · intro q e'
    rw [heno]
    constructor
    · intro hq
      exact hnd.entries hq
    · rintro (⟨rfl, rfl⟩ | ⟨rfl, rfl⟩)
      · exact hnd.first.1
      · exact hnd.first.2

end

end ElephantOS
