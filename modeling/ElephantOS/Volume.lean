import ElephantOS.FileWrite
import ElephantOS.NameGraph

namespace ElephantOS

open ByteMemory HaltingState

/-- The inode in slot `n` of the inode table. -/
def storedInode (part : Partition) (d : Memory) (n : ℕ) : Inode := Inode.load d (inodeAddr part n)

structure SameBlocks (d : Memory) (inode : Inode) (d' : Memory) (inode' : Inode) : Prop where
  stored : inode'.SameStored inode
  bytes : ∀ a ∈ ownSectors d inode, d' a = d a

structure DirOk (K : Kernel) (k : Kern) (inode : Inode) : Prop extends DirOn K k inode where
  slots : SlotsOk k.disk inode
  direct : inode.iSectors 12 = 0
  live : inode.iSize = 24 * (heldSlots (slotMap k.disk inode)).card
  dotted : Dotted k.disk inode
  filled : ∀ p, p ≠ 0 → blockAddr k.disk inode p ≠ 0 → ∃ j e, slotMap k.disk inode (p, j) = some e

theorem Inode.SameStored.symm {a b : Inode} (h : a.SameStored b) : b.SameStored a :=
  ⟨h.iNo.symm, h.iSize.symm, fun k hk => (h.iSectors k hk).symm⟩

theorem SameBlocks.refl (d : Memory) (inode : Inode) : SameBlocks d inode d inode :=
  ⟨Inode.SameStored.refl _, fun _ _ => rfl⟩

theorem SameBlocks.of_stored {d : Memory} {inode inode' : Inode} (h : inode'.SameStored inode) : SameBlocks d inode d inode' :=
  ⟨h, fun _ _ => rfl⟩

theorem Slot.own {d : Memory} {inode : Inode} {pos : ℕ × ℕ} (h : Slot d inode pos) {i : ℕ} (hi : i < 24) :
    slotAddr d inode pos + i ∈ ownSectors d inode := by
  have h1 := h.1
  refine ⟨pos.1, by omega, ?_, ?_⟩ <;> rw [refAddr_block _ _ h1]
  · exact h.2.2
  · exact h.sector hi

section

variable {K : Kernel} {part : Partition} {k k' : Kern} {d d' d'' : Memory} {inode inode' inode'' : Inode}

theorem SameBlocks.refs (h : SameBlocks d inode d' inode') {p : ℕ} (hp : p < 141) : refAddr d' inode' p = refAddr d inode p := by
  refine refAddr_congr h.stored.iSectors (fun ht i hi => h.bytes _ ?_) hp
  refine ⟨140, by omega, by rwa [refAddr_table], ?_⟩
  rw [refAddr_table]
  exact ⟨by omega, by omega⟩

theorem SameBlocks.blocks (h : SameBlocks d inode d' inode') {p : ℕ} (hp : p < 140) :
    blockAddr d' inode' p = blockAddr d inode p := by
  rw [← refAddr_block d' inode' hp, ← refAddr_block d inode hp]
  exact h.refs (by omega)

theorem SameBlocks.sectors (h : SameBlocks d inode d' inode') : ownSectors d' inode' = ownSectors d inode :=
  ownSectors_congr fun _ hp => h.refs hp

theorem SameBlocks.trans (h : SameBlocks d inode d' inode') (h' : SameBlocks d' inode' d'' inode'') :
    SameBlocks d inode d'' inode'' := by
  refine ⟨h'.stored.trans h.stored, ?_⟩
  intro a ha
  have ha' : a ∈ ownSectors d' inode' := by rwa [h.sectors]
  exact (h'.bytes a ha').trans (h.bytes a ha)

theorem SameBlocks.symm (h : SameBlocks d inode d' inode') : SameBlocks d' inode' d inode := by
  refine ⟨h.stored.symm, ?_⟩
  intro a ha
  rw [h.sectors] at ha
  exact (h.bytes a ha).symm

theorem SameBlocks.map (h : SameBlocks d inode d' inode') : slotMap d' inode' = slotMap d inode := by
  funext pos
  by_cases hp : pos.1 < 140
  · exact slotMap_congr (h.blocks hp) fun hs i hi => h.bytes _ (hs.own hi)
  · have h1 : ∀ m i, ¬ Slot m i pos := fun m i hs => hp hs.1
    simp only [slotMap, h1, false_and, if_false]

theorem SameBlocks.slots (h : SameBlocks d inode d' inode') (hs : SlotsOk d inode) : SlotsOk d' inode' := by
  intro pos hpos
  have hb := h.blocks hpos.1
  have hold : Slot d inode pos := hpos.congr hb.symm
  rw [entryAt_slot_congr hb fun i hi => h.bytes _ (hold.own hi)]
  exact hs pos hold

theorem SameBlocks.owns (h : SameBlocks k.disk inode k'.disk inode') (ho : Owns part k inode)
    (hused : ∀ p < 141, refAddr k.disk inode p ≠ 0 → UsedBlock part k' (refAddr k.disk inode p)) : Owns part k' inode' where
  used p hp hn := by
    rw [h.refs hp] at hn ⊢
    exact hused p hp hn
  inj p hp q hq hn he := by
    rw [h.refs hp] at hn he
    rw [h.refs hq] at he
    exact ho.inj p hp q hq hn he

theorem SameBlocks.fileOk (h : SameBlocks k.disk inode k'.disk inode') (hf : FileOk part k inode)
    (hused : ∀ p < 141, refAddr k.disk inode p ≠ 0 → UsedBlock part k' (refAddr k.disk inode p)) : FileOk part k' inode' := by
  have h0 := h.stored.iSectors 0 (by omega)
  have h12 := h.stored.iSectors 12 (by omega)
  have hb : usedBlocks inode' = usedBlocks inode := by
    unfold usedBlocks
    rw [h0, h.stored.iSize]
  refine ⟨h.owns hf.owns hused, ⟨?_, ?_⟩, ?_, ?_⟩
  · intro p hp
    rw [hb, h.blocks hp]
    exact hf.blocks.block p hp
  · rw [hb, h12]
    exact hf.blocks.table
  · rw [h0, h.stored.iSize]
    exact hf.empty
  · rw [h.stored.iSize]
    exact hf.small

theorem SameBlocks.dirOk (h : SameBlocks k.disk inode k'.disk inode') (hd : DirOk K k inode)
    (hlen : k'.blockBitmap.btmpBytesLen = k.blockBitmap.btmpBytesLen)
    (hused : ∀ p < 141, refAddr k.disk inode p ≠ 0 → UsedBlock K.toPartition k' (refAddr k.disk inode p)) : DirOk K k' inode' := by
  refine ⟨⟨hd.entrySize, ?_, h.owns hd.owns hused, ?_, hd.table, ?_, ?_⟩, h.slots hd.slots, ?_, ?_, ⟨?_, ?_⟩, ?_⟩
  · rw [hlen]
    exact hd.layout
  · intro p hp
    rw [h.refs hp]
    exact hd.onDisk p hp
  · rw [h.stored.iNo]
    exact hd.number
  · rw [h.stored.iSize]
    exact hd.size
  · rw [h.stored.iSectors 12 (by omega)]
    exact hd.direct
  · rw [h.stored.iSize, h.map]
    exact hd.live
  · rw [h.map]
    exact hd.dotted.here
  · rw [h.map]
    exact hd.dotted.only
  · intro p hp hb
    rw [h.map]
    apply hd.filled p hp
    by_cases hp140 : p < 140
    · rwa [← h.blocks hp140]
    · rw [blockAddr_direct (by rw [h.stored.iSectors 12 (by omega)]; exact hd.direct), if_neg (by omega)] at hb
      exact absurd rfl hb

end

structure Inodes (K : Kernel) (dirs files : Set ℕ) (k : Kern) : Prop where
  layout : Layout K.toPartition k.blockBitmap.btmpBytesLen
  slot : ∀ n ∈ dirs ∪ files, n < 4096 ∧ K.inodeNo n = n
  number : ∀ n ∈ dirs ∪ files, (storedInode K.toPartition k.disk n).iNo = n
  dir : ∀ n ∈ dirs, DirOk K k (storedInode K.toPartition k.disk n)
  file : ∀ n ∈ files, FileOk K.toPartition k (storedInode K.toPartition k.disk n)
  apart : ∀ n ∈ dirs ∪ files, ∀ m ∈ dirs ∪ files, n ≠ m → ∀ p < 141, ∀ q < 141,
    refAddr k.disk (storedInode K.toPartition k.disk n) p ≠ 0 →
      refAddr k.disk (storedInode K.toPartition k.disk n) p ≠ refAddr k.disk (storedInode K.toPartition k.disk m) q

structure Spares (part : Partition) (N : Set ℕ) (k k' : Kern) : Prop where
  len : k'.blockBitmap.btmpBytesLen = k.blockBitmap.btmpBytesLen
  used : ∀ n ∈ N, ∀ p < 141, refAddr k.disk (storedInode part k.disk n) p ≠ 0 →
    UsedBlock part k' (refAddr k.disk (storedInode part k.disk n) p)
  disk : ∀ a, k'.disk a = k.disk a ∨ a < part.sb.inodeTableLba * 512 ∨ (∃ m < 4096, m ∉ N ∧ a ∈ inodeSlot part m) ∨
    part.sb.dataStartLba * 512 ≤ a ∧ ∀ n ∈ N, a ∉ ownSectors k.disk (storedInode part k.disk n)

theorem inodeSlot_disjoint {part : Partition} {n m a : ℕ} (h : a ∈ inodeSlot part n) (h' : a ∈ inodeSlot part m) : n = m := by
  by_contra hne
  obtain ⟨h1, h2⟩ := h
  obtain ⟨h3, h4⟩ := h'
  rcases inodeAddr_disjoint part hne with hd | hd <;> omega

section

variable {K : Kernel} {k k' : Kern} {dirs dirs' files files' : Set ℕ} {inode inode' : Inode} {n : ℕ}

theorem Inodes.owns (h : Inodes K dirs files k) (hn : n ∈ dirs ∪ files) : Owns K.toPartition k (storedInode K.toPartition k.disk n) := by
  rcases hn with hn | hn
  · exact (h.dir n hn).owns
  · exact (h.file n hn).owns

theorem Inodes.mono (h : Inodes K dirs files k) (hd : dirs' ⊆ dirs) (hf : files' ⊆ files) : Inodes K dirs' files' k where
  layout := h.layout
  slot n hn := h.slot n (Set.union_subset_union hd hf hn)
  number n hn := h.number n (Set.union_subset_union hd hf hn)
  dir n hn := h.dir n (hd hn)
  file n hn := h.file n (hf hn)
  apart n hn m hm := h.apart n (Set.union_subset_union hd hf hn) m (Set.union_subset_union hd hf hm)

theorem Inodes.own_data (h : Inodes K dirs files k) (hn : n ∈ dirs ∪ files) {a : ℕ}
    (ha : a ∈ ownSectors k.disk (storedInode K.toPartition k.disk n)) : K.sb.dataStartLba * 512 ≤ a := by
  obtain ⟨p, hp, hnz, ha⟩ := ha
  exact sector_data ((h.owns hn).used p hp hnz).1 ha

theorem Inodes.spared (h : Inodes K dirs files k) (hs : Spares K.toPartition (dirs ∪ files) k k') (hn : n ∈ dirs ∪ files) :
    storedInode K.toPartition k'.disk n = storedInode K.toPartition k.disk n ∧
      SameBlocks k.disk (storedInode K.toPartition k.disk n) k'.disk (storedInode K.toPartition k'.disk n) := by
  have hl := h.layout
  have hload : storedInode K.toPartition k'.disk n = storedInode K.toPartition k.disk n := by
    apply Inode.load_congr
    intro i hi
    have hslot : inodeAddr K.toPartition n + i ∈ inodeSlot K.toPartition n := ⟨Nat.le_add_right _ _, Nat.add_lt_add_left hi _⟩
    rcases hs.disk (inodeAddr K.toPartition n + i) with heq | hlow | ⟨m, -, hm, hmem⟩ | ⟨hdata, -⟩
    · exact heq
    · unfold inodeAddr at hlow
      omega
    · exact absurd hn (inodeSlot_disjoint hslot hmem ▸ hm)
    · exact absurd hslot (hl.data_off_slot (h.slot n hn).1 hdata)
  refine ⟨hload, ?_⟩
  rw [hload]
  refine ⟨Inode.SameStored.refl _, ?_⟩
  intro a ha
  have hdata := h.own_data hn ha
  rcases hs.disk a with heq | hlow | ⟨m, hm, -, hmem⟩ | ⟨-, hoff⟩
  · exact heq
  · have := Nat.mul_le_mul_right 512 (Nat.le_of_add_right_le hl.inodeTable)
    omega
  · exact absurd hmem (hl.data_off_slot hm hdata)
  · exact absurd ha (hoff n hn)

theorem Inodes.spare (h : Inodes K dirs files k) (hs : Spares K.toPartition (dirs ∪ files) k k') : Inodes K dirs files k' := by
  refine ⟨?_, h.slot, ?_, ?_, ?_, ?_⟩
  · rw [hs.len]
    exact h.layout
  · intro n hn
    rw [(h.spared hs hn).1]
    exact h.number n hn
  · intro n hn
    exact (h.spared hs (.inl hn)).2.dirOk (h.dir n hn) hs.len (hs.used n (.inl hn))
  · intro n hn
    exact (h.spared hs (.inr hn)).2.fileOk (h.file n hn) (hs.used n (.inr hn))
  · intro n hn m hm hne p hp q hq
    rw [(h.spared hs hn).2.refs hp, (h.spared hs hm).2.refs hq]
    exact h.apart n hn m hm hne p hp q hq

def ApartFrom (part : Partition) (N : Set ℕ) (d : Memory) (inode : Inode) : Prop :=
  ∀ m ∈ N, ∀ p < 141, ∀ q < 141, refAddr d inode p ≠ 0 → refAddr d inode p ≠ refAddr d (storedInode part d m) q

structure Joins (K : Kernel) (N : Set ℕ) (k : Kern) (n : ℕ) (inode : Inode) : Prop where
  new : n ∉ N
  slot : n < 4096 ∧ K.inodeNo n = n
  number : inode.iNo = n
  stored : (storedInode K.toPartition k.disk n).SameStored inode
  apart : ApartFrom K.toPartition N k.disk inode

theorem Joins.all_apart (hj : Joins K (dirs ∪ files) k n inode) (h : Inodes K dirs files k) :
    ∀ a ∈ insert n (dirs ∪ files), ∀ b ∈ insert n (dirs ∪ files), a ≠ b → ∀ p < 141, ∀ q < 141,
      refAddr k.disk (storedInode K.toPartition k.disk a) p ≠ 0 →
        refAddr k.disk (storedInode K.toPartition k.disk a) p ≠ refAddr k.disk (storedInode K.toPartition k.disk b) q := by
  have hsame := SameBlocks.of_stored (d := k.disk) hj.stored
  rintro a (rfl | ha) b (rfl | hb) hne p hp q hq hnz
  · exact absurd rfl hne
  · rw [hsame.refs hp] at hnz ⊢
    exact hj.apart b hb p hp q hq hnz
  · rw [hsame.refs hq]
    intro heq
    exact hj.apart a ha q hq p hp (heq ▸ hnz) heq.symm
  · exact h.apart a ha b hb hne p hp q hq hnz

theorem Joins.slots (hj : Joins K (dirs ∪ files) k n inode) (h : Inodes K dirs files k) :
    ∀ m ∈ insert n (dirs ∪ files), (m < 4096 ∧ K.inodeNo m = m) ∧ (storedInode K.toPartition k.disk m).iNo = m := by
  rintro m (rfl | hm)
  · exact ⟨hj.slot, hj.stored.iNo.trans hj.number⟩
  · exact ⟨h.slot m hm, h.number m hm⟩

theorem Inodes.joinDir (h : Inodes K dirs files k) (hj : Joins K (dirs ∪ files) k n inode) (hd : DirOk K k inode) :
    Inodes K (insert n dirs) files k := by
  have hall := hj.all_apart h
  have hslots := hj.slots h
  rw [← Set.insert_union] at hall hslots
  refine ⟨h.layout, fun m hm => (hslots m hm).1, fun m hm => (hslots m hm).2, ?_, h.file, hall⟩
  rintro m (rfl | hm)
  · exact (SameBlocks.of_stored hj.stored).dirOk hd rfl hd.owns.used
  · exact h.dir m hm

theorem Inodes.joinFile (h : Inodes K dirs files k) (hj : Joins K (dirs ∪ files) k n inode) (hf : FileOk K.toPartition k inode) :
    Inodes K dirs (insert n files) k := by
  have hall := hj.all_apart h
  have hslots := hj.slots h
  rw [← Set.union_insert] at hall hslots
  refine ⟨h.layout, fun m hm => (hslots m hm).1, fun m hm => (hslots m hm).2, h.dir, ?_, hall⟩
  rintro m (rfl | hm)
  · exact (SameBlocks.of_stored hj.stored).fileOk hf hf.owns.used
  · exact h.file m hm

end

end ElephantOS
