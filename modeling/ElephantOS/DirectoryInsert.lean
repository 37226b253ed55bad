import ElephantOS.DirectorySync

namespace ElephantOS

open ByteMemory HaltingState

namespace Entry

/-- An entry that `create_dir_entry` takes: its name may fill the 16 bytes and leave no place for a NUL. -/
structure Creatable (e : Entry) : Prop where
  noNul : 0 ∉ e.name
  named : e.name ≠ []
  fits : e.name.length ≤ 16
  iNo : e.iNo < 2 ^ 32
  type : e.fType = .regular ∨ e.fType = .directory

structure Valid (e : Entry) : Prop where
  noNul : 0 ∉ e.name
  named : e.name ≠ []
  short : e.name.length < 16
  iNo : e.iNo < 2 ^ 32
  type : e.fType = .regular ∨ e.fType = .directory

def dirEntry (e : Entry) : DirEntry := ⟨nameBytes e.name, e.iNo, e.fType⟩

theorem Valid.live {e : Entry} (h : e.Valid) : e.fType ≠ .unknown := by
  rcases h.type with ht | ht <;> simp [ht]

theorem Valid.entryAt {e : Entry} (h : e.Valid) {m : Memory} {a : ℕ} (hb : ∀ i < 24, m (a + i) = e.dirEntry.bytes i) :
    entryAt m a = e := by
  refine entryAt_bytes h.noNul h.short h.iNo ?_ hb
  rcases h.type with ht | ht <;> rw [ht] <;> decide

end Entry

/-- A slot is free, or a direct block is missing. -/
def DirectRoom (d : Memory) (inode : Inode) : Prop := ∃ p < 12, inode.iSectors p = 0 ∨
  ∃ j < 21, (entryAt d (inode.iSectors p * 512 + 24 * j)).fType = .unknown

theorem Slot.sector {d : Memory} {inode : Inode} {pos : ℕ × ℕ} (h : Slot d inode pos) {i : ℕ} (hi : i < 24) :
    slotAddr d inode pos + i ∈ sector (blockAddr d inode pos.1) := by
  have hj := h.2.1
  unfold slotAddr
  exact ⟨by omega, by omega⟩

theorem entryAt_slot_congr {d d' : Memory} {inode inode' : Inode} {pos : ℕ × ℕ}
    (hb : blockAddr d' inode' pos.1 = blockAddr d inode pos.1) (hd : SameOn d d' (slotAddr d inode pos) 24) :
    entryAt d' (slotAddr d' inode' pos) = entryAt d (slotAddr d inode pos) := by
  have ha : slotAddr d' inode' pos = slotAddr d inode pos := by simp only [slotAddr, hb]
  rw [ha]
  exact entryAt_congr hd

theorem Slot.congr {d d' : Memory} {inode inode' : Inode} {pos : ℕ × ℕ} (h : Slot d inode pos)
    (hb : blockAddr d' inode' pos.1 = blockAddr d inode pos.1) : Slot d' inode' pos := ⟨h.1, h.2.1, by rw [hb]; exact h.2.2⟩

theorem slotMap_congr {d d' : Memory} {inode inode' : Inode} {pos : ℕ × ℕ}
    (hb : blockAddr d' inode' pos.1 = blockAddr d inode pos.1)
    (hd : Slot d inode pos → SameOn d d' (slotAddr d inode pos) 24) : slotMap d' inode' pos = slotMap d inode pos := by
  by_cases hs : Slot d inode pos
  · have hs' := hs.congr hb
    simp only [slotMap, hs, hs', true_and, entryAt_slot_congr hb (hd hs)]
  · have hs' : ¬ Slot d' inode' pos := fun h => hs (h.congr hb.symm)
    simp only [slotMap, hs, hs', false_and, if_false]

theorem slotMap_range {d : Memory} {inode : Inode} {pos : ℕ × ℕ} (h : slotMap d inode pos ≠ none) :
    pos.1 < 140 ∧ pos.2 < 21 := by
  obtain ⟨e, he⟩ := Option.ne_none_iff_exists'.mp h
  obtain ⟨h1, h2, -⟩ := (slotMap_eq_some.mp he).1
  exact ⟨h1, h2⟩

theorem slotAddr_disjoint {part : Partition} {k : Kern} {inode : Inode} (ho : Owns part k inode) {pos pos' : ℕ × ℕ}
    (h : Slot k.disk inode pos) (h' : Slot k.disk inode pos') (hne : pos ≠ pos') :
    slotAddr k.disk inode pos' + 24 ≤ slotAddr k.disk inode pos ∨ slotAddr k.disk inode pos + 24 ≤ slotAddr k.disk inode pos' := by
  obtain ⟨p, j⟩ := pos
  obtain ⟨p', j'⟩ := pos'
  obtain ⟨hp, hj, hb⟩ := h
  obtain ⟨hp', hj', -⟩ := h'
  simp only [slotAddr] at *
  by_cases hpp : p = p'
  · subst hpp
    have : j ≠ j' := fun hjj => hne (by rw [hjj])
    omega
  · have : blockAddr k.disk inode p ≠ blockAddr k.disk inode p' := fun he => hpp (ho.block_inj hp hp' hb he)
    omega

structure EntryStored (part : Partition) (pDe : DirEntry) (pos : ℕ × ℕ) (k : Kern) (inode : Inode) (k' : Kern) (inode' : Inode) : Prop where
  direct : pos.1 < 12
  range : pos.2 < 21
  free : Slot k.disk inode pos → (entryAt k.disk (slotAddr k.disk inode pos)).fType = .unknown
  slot : Slot k'.disk inode' pos
  here : ∀ i < 24, k'.disk (slotAddr k'.disk inode' pos + i) = pDe.bytes i
  old : ∀ pos', pos' ≠ pos → Slot k.disk inode pos' →
    blockAddr k'.disk inode' pos'.1 = blockAddr k.disk inode pos'.1 ∧ SameOn k.disk k'.disk (slotAddr k.disk inode pos') 24
  new : ∀ pos', pos' ≠ pos → Slot k'.disk inode' pos' → ¬ Slot k.disk inode pos' → ∀ i < 24, k'.disk (slotAddr k'.disk inode' pos' + i) = 0
  grown : Grown part k inode k' inode'
  fields : inode' = { inode with
    iSize := inode.iSize + 24
    iSectors := inode'.iSectors }
  table : inode'.iSectors 12 = inode.iSectors 12
  only : ∀ p < 140, blockAddr k'.disk inode' p ≠ 0 → blockAddr k.disk inode p ≠ 0 ∨ p = pos.1
  disk : SameOff (blockBitmapArea part k.blockBitmap.btmpBytesLen ∪ ownSectors k'.disk inode') k.disk k'.disk
  inodeBitmap : k'.inodeBitmap = k.inodeBitmap
  steady : Steady k k'
  onDisk : OnDisk k.disk inode → OnDisk k'.disk inode'
  sync : ∀ j, j * 512 < k.blockBitmap.btmpBytesLen → SyncedAt part k j → SyncedAt part k' j

structure Inserted (part : Partition) (e : Entry) (pos : ℕ × ℕ) (k : Kern) (inode : Inode) (k' : Kern) (inode' : Inode) :
    Prop where
  direct : pos.1 < 12
  range : pos.2 < 21
  free : slotMap k.disk inode pos = none
  map : slotMap k'.disk inode' = Function.update (slotMap k.disk inode) pos (some e)
  slots : SlotsOk k'.disk inode'
  grown : Grown part k inode k' inode'
  fields : inode' = { inode with
    iSize := inode.iSize + 24
    iSectors := inode'.iSectors }
  table : inode'.iSectors 12 = inode.iSectors 12
  only : ∀ p < 140, blockAddr k'.disk inode' p ≠ 0 → blockAddr k.disk inode p ≠ 0 ∨ p = pos.1
  disk : SameOff (blockBitmapArea part k.blockBitmap.btmpBytesLen ∪ ownSectors k'.disk inode') k.disk k'.disk
  inodeBitmap : k'.inodeBitmap = k.inodeBitmap
  steady : Steady k k'
  onDisk : OnDisk k.disk inode → OnDisk k'.disk inode'
  sync : ∀ j, j * 512 < k.blockBitmap.btmpBytesLen → SyncedAt part k j → SyncedAt part k' j

section

variable {K : Kernel} {e : Entry} {pDe : DirEntry} {k k' : Kern} {inode : Inode}

theorem entryStored_slot {p j : ℕ} (hl : Layout K.toPartition k.blockBitmap.btmpBytesLen) (ho : Owns K.toPartition k inode)
    (hp : p < 12) (hj : j < 21) (hb : inode.iSectors p ≠ 0)
    (hfree : (entryAt k.disk (inode.iSectors p * 512 + 24 * j)).fType = .unknown)
    (hk : HeapOnly { k with disk := blit k.disk (inode.iSectors p * 512 + 24 * j) pDe.bytes 24 } k') :
    EntryStored K.toPartition pDe (p, j) k inode k' { inode with iSize := inode.iSize + 24 } := by
  have hblk : blockAddr k.disk inode p = inode.iSectors p := if_pos hp
  have hslot : Slot k.disk inode (p, j) := ⟨by omega, hj, by rw [hblk]; exact hb⟩
  have haddr : slotAddr k.disk inode (p, j) = inode.iSectors p * 512 + 24 * j := by simp only [slotAddr, hblk]
  rw [← haddr] at hfree hk
  have hd : k'.disk = blit k.disk (slotAddr k.disk inode (p, j)) pDe.bytes 24 := hk.disk
  have hin : ∀ a, slotAddr k.disk inode (p, j) ≤ a → a < slotAddr k.disk inode (p, j) + 24 → a ∈ sector (inode.iSectors p) := by
    intro a h1 h2
    rw [← hblk]
    have := hslot.sector (show a - slotAddr k.disk inode (p, j) < 24 by omega)
    rwa [Nat.add_sub_cancel' h1] at this
  have hoff : SameOff (sector (inode.iSectors p)) k.disk k'.disk := by
    rw [hd]
    exact blit_sameOff _ _ hin
  have href : ∀ q < 141, refAddr k'.disk { inode with iSize := inode.iSize + 24 } q = refAddr k.disk inode q := by
    intro q hq
    refine @refAddr_congr k.disk k'.disk inode _ (fun _ _ => rfl) (fun ht i hi => hoff _ fun hmem => ?_) q hq
    have hne := ho.block_ne_table (show p < 140 by omega) (by rw [hblk]; exact hb)
    rw [hblk] at hne
    exact hne (sector_disjoint hmem ⟨by omega, by omega⟩)
  have hbk : ∀ q < 140, blockAddr k'.disk { inode with iSize := inode.iSize + 24 } q = blockAddr k.disk inode q := by
    intro q hq
    have := href q (by omega)
    rwa [refAddr_block _ _ hq, refAddr_block _ _ hq] at this
  have hpos : slotAddr k'.disk { inode with iSize := inode.iSize + 24 } (p, j) = slotAddr k.disk inode (p, j) := by
    simp only [slotAddr, hbk p (by omega)]
  refine ⟨hp, hj, fun _ => hfree, hslot.congr (hbk p (by omega)), ?_, ?_, ?_, Grown.of_same hk.blockBitmap href, rfl, rfl, ?_, ?_,
    hk.inodeBitmap, ⟨hk.pool, hk.grant, hk.next⟩, fun hdisk q hq => by rw [href q hq]; exact hdisk q hq, ?_⟩
  · intro i hi
    rw [hpos, hd]
    exact blit_inside _ _ hi
  · intro pos' hne hs'
    refine ⟨hbk _ hs'.1, ?_⟩
    rw [hd]
    exact blit_sameOn _ _ ((slotAddr_disjoint ho hs' hslot hne).symm)
  · intro pos' _ hs' hnot
    exact absurd (hs'.congr (hbk _ hs'.1).symm) hnot
  · intro q hq hn
    rw [hbk q hq] at hn
    exact .inl hn
  · refine hoff.mono fun a ha => .inr ⟨p, by omega, ?_, ?_⟩
    · rw [href p (by omega), refAddr_block _ _ (by omega), hblk]
      exact hb
    · rwa [href p (by omega), refAddr_block _ _ (by omega), hblk]
  · intro i hi hsync
    refine hsync.above hl hi hk.blockBitmap fun a ha => hoff a ?_
    exact hl.sector_above (by rw [← hblk]; exact ho.block_data (by omega) (by rw [hblk]; exact hb)) ha

theorem newBlockBytes_entry {io : Memory} {i : ℕ} (hi : i < 24) : newBlockBytes io pDe i = pDe.bytes i := by
  have := @blit_inside (blit io 0 zeros 512) pDe.bytes 0 _ _ hi
  rwa [Nat.zero_add] at this

theorem newBlockBytes_rest {io : Memory} {i : ℕ} (hi : 24 ≤ i) (hi' : i < 512) : newBlockBytes io pDe i = 0 := by
  rw [newBlockBytes, blit_outside _ _ (by omega)]
  have := @blit_inside io zeros 0 _ _ hi'
  rwa [Nat.zero_add] at this

theorem entryStored_block {p lba : ℕ} {k1 : Kern} {io : Memory} (hl : Layout K.toPartition k.blockBitmap.btmpBytesLen)
    (ho : Owns K.toPartition k inode) (hp : p < 12) (hb : inode.iSectors p = 0)
    (ha : Allocated K.toPartition [lba] k k1) (hsync : ∀ j, SyncedAt K.toPartition k j → SyncedAt K.toPartition k1 j)
    (hr : lba ≤ maxLba) (hk : k' = { k1 with disk := blit k1.disk (lba * 512) (newBlockBytes io pDe) 512 }) :
    EntryStored K.toPartition pDe (p, 0) k inode k'
      { inode with
        iSize := inode.iSize + 24
        iSectors := Function.update inode.iSectors p lba } := by
  generalize hi' : ({ inode with
    iSize := inode.iSize + 24
    iSectors := Function.update inode.iSectors p lba } : Inode) = inode'
  have hsec : inode'.iSectors = Function.update inode.iSectors p lba := by rw [← hi']
  obtain ⟨f1, f2, f3⟩ := ha.fresh lba (List.mem_singleton_self _)
  have hlba : 0 < lba := hl.data_pos.trans_le f1
  have hd : k'.disk = blit k1.disk (lba * 512) (newBlockBytes io pDe) 512 := by rw [hk]
  have hoff : SameOff (blockBitmapArea K.toPartition k.blockBitmap.btmpBytesLen ∪ sector lba) k.disk k'.disk := by
    refine (ha.disk.mono Set.subset_union_left).trans ?_
    rw [hd]
    exact blit_sameOff _ _ fun a h1 h2 => .inr ⟨h1, h2⟩
  have hold : ∀ q < 141, refAddr k.disk inode q ≠ 0 → ∀ a ∈ sector (refAddr k.disk inode q), k'.disk a = k.disk a := by
    intro q hq hn a hmem
    have hu := ho.used q hq hn
    refine hoff a ?_
    rintro (hbm | hmem')
    · exact hl.data_off (sector_data hu.1 hmem) hbm
    · rw [sector_disjoint hmem hmem'] at hu
      exact hu.not_free ⟨f1, f2, f3⟩
  have ht12 : inode'.iSectors 12 = inode.iSectors 12 := by
    rw [hsec, Function.update_of_ne (show 12 ≠ p by omega)]
  have href : ∀ q < 141, q ≠ p → refAddr k'.disk inode' q = refAddr k.disk inode q := by
    intro q hq hne
    by_cases hq0 : q = 140
    · rw [hq0, refAddr_table, refAddr_table, ht12]
    rw [refAddr_block _ _ (by omega), refAddr_block _ _ (by omega)]
    unfold blockAddr
    rw [ht12]
    split_ifs with h1 h2
    · rw [hsec, Function.update_of_ne hne]
    · rfl
    · have hsame : SameOn k.disk k'.disk (inode.iSectors 12 * 512) 512 := fun i hi =>
        hold 140 (by omega) (by rw [refAddr_table]; exact h2) _ (by rw [refAddr_table]; exact ⟨by omega, by omega⟩)
      exact word_sameOn hsame (by omega) (by omega)
  have hnew : refAddr k'.disk inode' p = lba := by
    rw [refAddr_block _ _ (by omega), blockAddr, if_pos hp, hsec, Function.update_self]
  have h0 : refAddr k.disk inode p = 0 := by
    rw [refAddr_block _ _ (by omega), blockAddr, if_pos hp, hb]
  have hbk : ∀ q < 140, q ≠ p → blockAddr k'.disk inode' q = blockAddr k.disk inode q := by
    intro q hq hne
    have := href q (by omega) hne
    rwa [refAddr_block _ _ hq, refAddr_block _ _ hq] at this
  have hbp : blockAddr k'.disk inode' p = lba := by rw [← refAddr_block _ _ (show p < 140 by omega), hnew]
  have hbyte : ∀ j < 21, ∀ i < 24, k'.disk (slotAddr k'.disk inode' (p, j) + i) = newBlockBytes io pDe (24 * j + i) := by
    intro j hj i hi
    rw [slotAddr, hbp, hd, Nat.add_assoc, blit_inside _ _ (by omega)]
  have hnone : ∀ j, ¬ Slot k.disk inode (p, j) := by
    rintro j ⟨-, -, hn⟩
    rw [← refAddr_block _ _ (show p < 140 by omega)] at hn
    exact hn h0
  have hne_of : ∀ pos', Slot k.disk inode pos' → pos'.1 ≠ p := by
    rintro ⟨q, j⟩ hs' rfl
    exact hnone j hs'
  refine ⟨hp, by omega, fun h => absurd h (hnone 0), ⟨by omega, by omega, by simp only [hbp]; omega⟩, ?_, ?_, ?_,
    Grown.single hl.data_pos ha (by rw [hk]) (by omega) h0 hnew href, ?_, ht12, ?_, ?_, by rw [hk]; exact ha.inodeBitmap, ?_, ?_, ?_⟩
  · intro i hi
    rw [hbyte 0 (by omega) i hi, Nat.mul_zero, Nat.zero_add, newBlockBytes_entry hi]
  · intro pos' _ hs'
    refine ⟨hbk _ hs'.1 (hne_of pos' hs'), fun i hi => ?_⟩
    have hr := refAddr_block k.disk inode hs'.1
    exact hold pos'.1 (by have := hs'.1; omega) (by rw [hr]; exact hs'.2.2) _ (by rw [hr]; exact hs'.sector hi)
  · rintro ⟨q, j⟩ hne hs' hnot i hi
    by_cases hqp : q = p
    · subst hqp
      have hj0 : j ≠ 0 := fun h => hne (by rw [h])
      have hj := hs'.2.1
      simp only at hj
      rw [hbyte j hj i hi, newBlockBytes_rest (by omega) (by omega)]
    · exact absurd (hs'.congr (hbk q hs'.1 hqp).symm) hnot
  · rw [← hi']
  · intro q hq hn
    by_cases hqp : q = p
    · exact .inr hqp
    · rw [hbk q hq hqp] at hn
      exact .inl hn
  · refine hoff.mono ?_
    rintro a (ha' | ha')
    · exact .inl ha'
    · exact .inr ⟨p, by omega, by rw [hnew]; omega, by rw [hnew]; exact ha'⟩
  · rw [hk]
    exact ⟨ha.pool, by rw [ha.heap], by rw [ha.heap]⟩
  · intro hdisk q hq
    by_cases hqp : q = p
    · rw [hqp, hnew]
      exact hr
    · rw [href q hq hqp]
      exact hdisk q hq
  · intro j hj hsy
    have hl1 : Layout K.toPartition k1.blockBitmap.btmpBytesLen := by rw [ha.len]; exact hl
    refine (hsync j hsy).above hl1 (by rw [ha.len]; exact hj) (by rw [hk]) fun a ha' => ?_
    rw [hd]
    exact blit_outside _ _ (.inl (ha'.trans_le ((Nat.le_add_right _ _).trans (hl.maps_below f1))))

theorem EntryStored.inserted {pos : ℕ × ℕ} {inode' : Inode} (h : EntryStored K.toPartition e.dirEntry pos k inode k' inode')
    (he : e.Valid) (hs : SlotsOk k.disk inode) : Inserted K.toPartition e pos k inode k' inode' := by
  have hent : entryAt k'.disk (slotAddr k'.disk inode' pos) = e := he.entryAt h.here
  have hsame : ∀ pos', pos' ≠ pos → Slot k.disk inode pos' →
      entryAt k'.disk (slotAddr k'.disk inode' pos') = entryAt k.disk (slotAddr k.disk inode pos') := by
    intro pos' hne hs'
    obtain ⟨hb, hd⟩ := h.old pos' hne hs'
    exact entryAt_slot_congr hb hd
  have hnew : ∀ pos', pos' ≠ pos → Slot k'.disk inode' pos' → ¬ Slot k.disk inode pos' →
      entryAt k'.disk (slotAddr k'.disk inode' pos') = ⟨[], 0, .unknown⟩ := by
    intro pos' hne hs' hnot
    exact entryAt_zeros (h.new pos' hne hs' hnot)
  refine ⟨h.direct, h.range, slotMap_eq_none.mpr h.free, ?_, ?_, h.grown, h.fields, h.table, h.only, h.disk, h.inodeBitmap, h.steady,
    h.onDisk, h.sync⟩
  · funext pos'
    by_cases heq : pos' = pos
    · subst heq
      rw [Function.update_self, slotMap_eq_some]
      exact ⟨h.slot, he.live, hent⟩
    · rw [Function.update_of_ne heq]
      by_cases hold : Slot k.disk inode pos'
      · obtain ⟨hb, hd⟩ := h.old pos' heq hold
        exact slotMap_congr hb fun _ => hd
      · rw [slotMap_eq_none.mpr fun h => absurd h hold, slotMap_eq_none]
        intro hs'
        rw [hnew pos' heq hs' hold]
  · intro pos' hs'
    by_cases heq : pos' = pos
    · rw [heq, hent]
      exact ⟨he.short, fun h => absurd h he.live, fun h => absurd h he.named⟩
    · by_cases hold : Slot k.disk inode pos'
      · rw [hsame pos' heq hold]
        exact hs pos' hold
      · rw [hnew pos' heq hs' hold]
        simp

theorem EntryStored.of_heapOnly {pos : ℕ × ℕ} {inode' : Inode} {k0 : Kern} (hk0 : HeapOnly k k0)
    (h : EntryStored K.toPartition pDe pos k0 inode k' inode') : EntryStored K.toPartition pDe pos k inode k' inode' := by
  have hgrown : Grown K.toPartition k inode k0 inode := Grown.of_same hk0.blockBitmap fun p _ => by rw [hk0.disk]
  refine ⟨h.direct, h.range, by rw [← hk0.disk]; exact h.free, h.slot, h.here, by rw [← hk0.disk]; exact h.old,
    by rw [← hk0.disk]; exact h.new, hgrown.trans h.grown, h.fields, h.table, by rw [← hk0.disk]; exact h.only,
    by rw [← hk0.disk, ← hk0.blockBitmap]; exact h.disk, h.inodeBitmap.trans hk0.inodeBitmap,
    hk0.steady.trans h.steady, by rw [← hk0.disk]; exact h.onDisk, fun j hj hsy => ?_⟩
  exact h.sync j (by rw [hk0.blockBitmap]; exact hj) (hsy.congr hk0.blockBitmap fun i _ => by rw [hk0.disk])

theorem syncDirEntry_stored {io : Buffer} {ok : Bool} {inode' : Inode} (hk : K.sb.dirEntrySize = 24)
    (hl : Layout K.toPartition k.blockBitmap.btmpBytesLen) (ho : Owns K.toPartition k inode)
    (hsize : inode.iSize + 24 < 2 ^ 32) (hroom : DirectRoom k.disk inode)
    (h : syncDirEntry K inode pDe io k = .ok ((ok, inode'), k')) :
    ok = true ∧ ∃ pos, EntryStored K.toPartition pDe pos k inode k' inode' := by
  obtain ⟨rfl, -, k0, hk0, hsy⟩ := syncDirEntry_ok hk hl.whole h
  refine ⟨rfl, ?_⟩
  rw [← hk0.blockBitmap] at hl
  rw [← hk0.disk] at hroom
  have ho0 : Owns K.toPartition k0 inode :=
    ⟨by simpa only [UsedBlock, hk0.disk, hk0.blockBitmap] using ho.used, by simpa only [hk0.disk] using ho.inj⟩
  cases hsy with
  | slot hp hj hb hfree _ hk' =>
    rw [u32, Nat.mod_eq_of_lt hsize]
    exact ⟨_, (entryStored_slot hl ho0 hp hj hb hfree hk').of_heapOnly hk0⟩
  | @block p lba k1 k' io hp hb ha hsync hr hk' =>
    have hset : inode.setSector p lba = { inode with iSectors := Function.update inode.iSectors p lba } :=
      if_pos (by omega)
    rw [u32, Nat.mod_eq_of_lt hsize, hset]
    exact ⟨_, (entryStored_block hl ho0 hp hb ha hsync hr hk').of_heapOnly hk0⟩
  | table hfull =>
    obtain ⟨p, hp, hz | ⟨j, hj, hfree⟩⟩ := hroom
    · exact absurd hz (hfull p hp).1
    · exact absurd hfree ((hfull p hp).2 j hj)

theorem syncDirEntry_inserted {io : Buffer} {ok : Bool} {inode' : Inode} (hk : K.sb.dirEntrySize = 24)
    (hl : Layout K.toPartition k.blockBitmap.btmpBytesLen) (ho : Owns K.toPartition k inode) (hs : SlotsOk k.disk inode)
    (he : e.Valid) (hsize : inode.iSize + 24 < 2 ^ 32) (hroom : DirectRoom k.disk inode)
    (h : syncDirEntry K inode e.dirEntry io k = .ok ((ok, inode'), k')) :
    ok = true ∧ ∃ pos, Inserted K.toPartition e pos k inode k' inode' := by
  obtain ⟨hok, pos, hstored⟩ := syncDirEntry_stored hk hl ho hsize hroom h
  exact ⟨hok, pos, hstored.inserted he hs⟩

end

end ElephantOS
