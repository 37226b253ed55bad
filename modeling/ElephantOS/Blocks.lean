import ElephantOS.Inode

namespace ElephantOS

open ByteMemory HaltingState

def blockAddr (d : Memory) (inode : Inode) (p : ℕ) : ℕ :=
  if p < 12 then inode.iSectors p
  else if inode.iSectors 12 = 0 then 0
  else word d (inode.iSectors 12 * 512 + 4 * (p - 12))

/-- Every sector an inode refers to: its 140 blocks and, as number 140, the indirect table. -/
def refAddr (d : Memory) (inode : Inode) (p : ℕ) : ℕ :=
  if p = 140 then inode.iSectors 12 else blockAddr d inode p

theorem refAddr_block (d : Memory) (inode : Inode) {p : ℕ} (hp : p < 140) : refAddr d inode p = blockAddr d inode p :=
  if_neg (by omega)

theorem refAddr_table (d : Memory) (inode : Inode) : refAddr d inode 140 = inode.iSectors 12 := if_pos rfl

def sector (lba : ℕ) : Set ℕ := {a | lba * 512 ≤ a ∧ a < lba * 512 + 512}

def blockBitmapArea (part : Partition) (len : ℕ) : Set ℕ :=
  {a | part.sb.blockBitmapLba * 512 ≤ a ∧ a < part.sb.blockBitmapLba * 512 + len}

def inodeSlot (part : Partition) (n : ℕ) : Set ℕ := {a | inodeAddr part n ≤ a ∧ a < inodeAddr part n + inodeSize}

/-- The order of the areas of a mounted partition. -/
structure Layout (part : Partition) (len : ℕ) : Prop where
  whole : len % 512 = 0
  blockBitmap : part.sb.blockBitmapLba * 512 + len ≤ part.sb.inodeBitmapLba * 512
  inodeBitmap : part.sb.inodeBitmapLba + 1 ≤ part.sb.inodeTableLba
  inodeTable : part.sb.inodeTableLba + 608 ≤ part.sb.dataStartLba
  words : part.sb.dataStartLba + 8 * len ≤ 2 ^ 32

def SyncedAt (part : Partition) (k : Kern) (j : ℕ) : Prop :=
  ∀ i < 512, k.disk ((part.sb.blockBitmapLba + j) * 512 + i) = k.blockBitmap.bits (j * 512 + i)

structure Allocated (part : Partition) (new : List ℕ) (k k' : Kern) : Prop where
  fresh : ∀ lba ∈ new, part.sb.dataStartLba ≤ lba ∧ lba - part.sb.dataStartLba < 8 * k.blockBitmap.btmpBytesLen ∧
    k.blockBitmap.scanTest (lba - part.sb.dataStartLba) = false
  nodup : new.Nodup
  len : k'.blockBitmap.btmpBytesLen = k.blockBitmap.btmpBytesLen
  bits : ∀ i, k'.blockBitmap.scanTest i = (k.blockBitmap.scanTest i || decide (part.sb.dataStartLba + i ∈ new))
  inodeBitmap : k'.inodeBitmap = k.inodeBitmap
  heap : k'.heap = k.heap
  pool : k'.pool = k.pool
  disk : SameOff (blockBitmapArea part k.blockBitmap.btmpBytesLen) k.disk k'.disk
  sync : ∀ j, SyncedAt part k j → SyncedAt part k' j ∨ ∃ lba ∈ new, (lba - part.sb.dataStartLba) / 4096 = j

theorem Allocated.refl (part : Partition) (k : Kern) : Allocated part [] k k where
  fresh _ h := absurd h List.not_mem_nil
  nodup := List.nodup_nil
  len := rfl
  bits i := by simp
  inodeBitmap := rfl
  heap := rfl
  pool := rfl
  disk := SameOff.refl _ _
  sync _ h := .inl h

theorem Allocated.append {part : Partition} {new new' : List ℕ} {k k' k'' : Kern} (h : Allocated part new k k')
    (h' : Allocated part new' k' k'') : Allocated part (new ++ new') k k'' where
  fresh lba hl := by
    rcases List.mem_append.mp hl with hl | hl
    · exact h.fresh lba hl
    · obtain ⟨h1, h2, h3⟩ := h'.fresh lba hl
      rw [h.len] at h2
      rw [h.bits, Bool.or_eq_false_iff] at h3
      exact ⟨h1, h2, h3.1⟩
  nodup := by
    refine List.nodup_append.mpr ⟨h.nodup, h'.nodup, ?_⟩
    rintro a ha _ hb rfl
    obtain ⟨h1, -, h3⟩ := h'.fresh a hb
    rw [h.bits, Bool.or_eq_false_iff] at h3
    simp [show part.sb.dataStartLba + (a - part.sb.dataStartLba) = a by omega, ha] at h3
  len := h'.len.trans h.len
  bits i := by
    rw [h'.bits, h.bits]
    simp [Bool.or_assoc]
  inodeBitmap := h'.inodeBitmap.trans h.inodeBitmap
  heap := h'.heap.trans h.heap
  pool := h'.pool.trans h.pool
  disk := h.disk.trans (h.len ▸ h'.disk)
  sync j hj := by
    rcases h.sync j hj with hj | ⟨lba, hl, he⟩
    · rcases h'.sync j hj with hj | ⟨lba, hl, he⟩
      · exact .inl hj
      · exact .inr ⟨lba, List.mem_append_right _ hl, he⟩
    · exact .inr ⟨lba, List.mem_append_left _ hl, he⟩

theorem SyncedAt.congr {part : Partition} {k k' : Kern} {j : ℕ} (h : SyncedAt part k j)
    (hb : k'.blockBitmap = k.blockBitmap) (hd : SameOn k.disk k'.disk ((part.sb.blockBitmapLba + j) * 512) 512) :
    SyncedAt part k' j := by
  intro i hi
  rw [hd i hi, hb]
  exact h i hi

theorem blockBitmapAlloc_allocated {K : Kernel} {r : Option ℕ} {k k' : Kern}
    (h : blockBitmapAlloc K k = .ok (r, k')) : ∃ lba, r = some lba ∧ Allocated K.toPartition [lba] k k' ∧
      ∀ i < lba - K.sb.dataStartLba, k.blockBitmap.scanTest i = true := by
  obtain ⟨i, hi, hclear, hfirst, rfl, rfl⟩ := blockBitmapAlloc_ok h
  refine ⟨_, rfl, ⟨?_, List.nodup_singleton _, by simp, ?_, rfl, rfl, rfl, SameOff.refl _ _, ?_⟩,
    by simpa using hfirst⟩
  · intro lba hl
    obtain rfl := List.mem_singleton.mp hl
    rw [Nat.add_sub_cancel_left]
    exact ⟨by omega, hi, hclear⟩
  · intro j
    rw [Bitmap.scanTest_set]
    by_cases hj : j = i <;> simp [hj]
  · intro j hj
    by_cases hs : i / 4096 = j
    · exact .inr ⟨_, List.mem_singleton_self _, by rw [Nat.add_sub_cancel_left]; exact hs⟩
    · refine .inl fun b hb => ?_
      change k.disk _ = (k.blockBitmap.set i true).bits _
      rw [Bitmap.set_bits _ _ _ _ (by omega)]
      exact hj b hb

theorem bitmapSector_le {len i : ℕ} (hl : len % 512 = 0) (hi : i < 8 * len) : i / 4096 * 512 + 512 ≤ len := by
  obtain ⟨m, rfl⟩ : ∃ m, len = 512 * m := ⟨len / 512, by omega⟩
  have : i / 4096 < m := Nat.div_lt_of_lt_mul (by omega)
  omega

theorem bitmapSync_synced {K : Kernel} {i : ℕ} {u : Unit} {k k' : Kern} (hl : k.blockBitmap.btmpBytesLen % 512 = 0)
    (hi : i < 8 * k.blockBitmap.btmpBytesLen) (h : bitmapSync K i .blockBitmap k = .ok (u, k')) :
    k'.blockBitmap = k.blockBitmap ∧ k'.inodeBitmap = k.inodeBitmap ∧ k'.heap = k.heap ∧ k'.pool = k.pool ∧
      SameOff (blockBitmapArea K.toPartition k.blockBitmap.btmpBytesLen) k.disk k'.disk ∧
      ∀ j, SyncedAt K.toPartition k j ∨ i / 4096 = j → SyncedAt K.toPartition k' j := by
  obtain ⟨-, rfl⟩ := (bitmapSync_block K i u k k').mp h
  refine ⟨rfl, rfl, rfl, rfl, blit_sameOff _ _ ?_, ?_⟩
  · intro a h1 h2
    have hsec := bitmapSector_le hl hi
    change _ ≤ a ∧ a < _
    omega
  · rintro j hj b hb
    change blit _ _ _ _ ((K.sb.blockBitmapLba + j) * 512 + b) = k.blockBitmap.bits (j * 512 + b)
    by_cases hij : i / 4096 = j
    · subst hij
      rw [blit_inside _ _ hb]
      rfl
    · rw [blit_outside _ _ (by omega)]
      exact hj.resolve_right hij b hb

theorem Allocated.synced {K : Kernel} {lba : ℕ} {k k1 k2 : Kern} {u : Unit} (hl : k.blockBitmap.btmpBytesLen % 512 = 0)
    (ha : Allocated K.toPartition [lba] k k1)
    (h : bitmapSync K (lba - K.sb.dataStartLba) .blockBitmap k1 = .ok (u, k2)) :
    Allocated K.toPartition [lba] k k2 ∧ SyncedAt K.toPartition k2 ((lba - K.sb.dataStartLba) / 4096) ∧
      ∀ j, SyncedAt K.toPartition k j → SyncedAt K.toPartition k2 j := by
  have hi := (ha.fresh lba (List.mem_singleton_self _)).2.1
  obtain ⟨hb, hib, hh, hp, hd, hs⟩ := bitmapSync_synced (by rw [ha.len]; exact hl) (by rw [ha.len]; exact hi) h
  have hall : ∀ j, SyncedAt K.toPartition k j → SyncedAt K.toPartition k2 j := by
    intro j hj
    rcases ha.sync j hj with hj | ⟨_, hmem, he⟩
    · exact hs j (.inl hj)
    · obtain rfl := List.mem_singleton.mp hmem
      exact hs j (.inr he)
  refine ⟨⟨ha.fresh, ha.nodup, by rw [hb, ha.len], fun i => by rw [hb, ha.bits], hib.trans ha.inodeBitmap,
    hh.trans ha.heap, hp.trans ha.pool, ha.disk.trans (ha.len ▸ hd), fun j hj => .inl (hall j hj)⟩, hs _ (.inr rfl), hall⟩

theorem blockAddr_congr {d d' : Memory} {inode inode' : Inode} (hs : ∀ p < 13, inode'.iSectors p = inode.iSectors p)
    (ht : inode.iSectors 12 ≠ 0 → SameOn d d' (inode.iSectors 12 * 512) 512) {p : ℕ} (hp : p < 140) :
    blockAddr d' inode' p = blockAddr d inode p := by
  unfold blockAddr
  rw [hs 12 (by omega)]
  split_ifs with h1 h2
  · exact hs p (by omega)
  · rfl
  · exact word_sameOn (ht h2) (by omega) (by omega)

theorem refAddr_congr {d d' : Memory} {inode inode' : Inode} (hs : ∀ p < 13, inode'.iSectors p = inode.iSectors p)
    (ht : inode.iSectors 12 ≠ 0 → SameOn d d' (inode.iSectors 12 * 512) 512) {p : ℕ} (hp : p < 141) :
    refAddr d' inode' p = refAddr d inode p := by
  unfold refAddr
  split_ifs with h
  · exact hs 12 (by omega)
  · exact blockAddr_congr hs ht (by omega)

theorem Layout.bitmap_below {part : Partition} {len j lba : ℕ} (h : Layout part len) (hj : j * 512 < len)
    (hd : part.sb.dataStartLba ≤ lba) : (part.sb.blockBitmapLba + j) * 512 + 512 ≤ lba * 512 := by
  obtain ⟨m, rfl⟩ : ∃ m, len = 512 * m := ⟨len / 512, by have := h.whole; omega⟩
  have h1 : part.sb.blockBitmapLba + m ≤ part.sb.inodeBitmapLba := by
    have := h.blockBitmap
    omega
  have h2 := h.inodeBitmap
  have h3 := h.inodeTable
  have h4 : j < m := by omega
  have h5 : part.sb.blockBitmapLba + j + 1 ≤ lba := by omega
  omega

theorem SyncedAt.above {part : Partition} {k k' : Kern} {j : ℕ} (h : SyncedAt part k j)
    (hl : Layout part k.blockBitmap.btmpBytesLen) (hj : j * 512 < k.blockBitmap.btmpBytesLen)
    (hb : k'.blockBitmap = k.blockBitmap) (hd : ∀ a < part.sb.inodeBitmapLba * 512, k'.disk a = k.disk a) :
    SyncedAt part k' j := by
  refine h.congr hb fun i hi => hd _ ?_
  have h1 := hl.blockBitmap
  have h2 : j * 512 + 512 ≤ k.blockBitmap.btmpBytesLen := by
    have h3 := hl.whole
    generalize k.blockBitmap.btmpBytesLen = len at hj h3 ⊢
    obtain ⟨m, rfl⟩ : ∃ m, len = 512 * m := ⟨len / 512, by omega⟩
    by_contra hc
    omega
  rw [Nat.add_mul]
  linarith

theorem Layout.slot_above {part : Partition} {len n a : ℕ} (h : Layout part len) (ha : a < part.sb.inodeBitmapLba * 512) :
    a ∉ inodeSlot part n := by
  rintro ⟨h2, -⟩
  have h1 := Nat.mul_le_mul_right 512 h.inodeBitmap
  unfold inodeAddr at h2
  omega

theorem Layout.maps_below {part : Partition} {len lba : ℕ} (h : Layout part len) (hd : part.sb.dataStartLba ≤ lba) :
    part.sb.inodeBitmapLba * 512 + 512 ≤ lba * 512 := by
  have h1 := h.inodeBitmap
  have h2 := h.inodeTable
  have h4 := Nat.mul_le_mul_right 512 (show part.sb.inodeBitmapLba + 1 ≤ lba by omega)
  omega

theorem Layout.sector_above {part : Partition} {len lba a : ℕ} (h : Layout part len) (hd : part.sb.dataStartLba ≤ lba)
    (ha : a < part.sb.inodeBitmapLba * 512) : a ∉ sector lba := by
  rintro ⟨h3, -⟩
  have h4 := h.maps_below hd
  omega

theorem Layout.data_off {part : Partition} {len : ℕ} (h : Layout part len) {a : ℕ}
    (ha : part.sb.dataStartLba * 512 ≤ a) : a ∉ blockBitmapArea part len := by
  have h1 := h.blockBitmap
  have h2 := h.inodeBitmap
  have h3 := h.inodeTable
  rintro ⟨-, h4⟩
  omega

theorem sector_data {part : Partition} {lba a : ℕ} (hd : part.sb.dataStartLba ≤ lba) (ha : a ∈ sector lba) :
    part.sb.dataStartLba * 512 ≤ a :=
  (Nat.mul_le_mul_right 512 hd).trans ha.1

theorem sector_disjoint {lba lba' a : ℕ} (h : a ∈ sector lba) (h' : a ∈ sector lba') : lba = lba' := by
  obtain ⟨h1, h2⟩ := h
  obtain ⟨h3, h4⟩ := h'
  omega

theorem Layout.data_off_slot {part : Partition} {len n a : ℕ} (h : Layout part len) (hn : n < 4096)
    (ha : part.sb.dataStartLba * 512 ≤ a) : a ∉ inodeSlot part n := by
  have h3 := h.inodeTable
  rintro ⟨-, h4⟩
  simp only [inodeAddr, inodeSize] at h4
  omega

/-- The bytes of the sectors an inode refers to. -/
def ownSectors (d : Memory) (inode : Inode) : Set ℕ :=
  {a | ∃ p < 141, refAddr d inode p ≠ 0 ∧ a ∈ sector (refAddr d inode p)}

/-- Every sector the inode refers to lies on the disk. -/
def OnDisk (d : Memory) (inode : Inode) : Prop := ∀ p < 141, refAddr d inode p ≤ maxLba

/-- A data block whose bit is set. -/
def UsedBlock (part : Partition) (k : Kern) (lba : ℕ) : Prop :=
  part.sb.dataStartLba ≤ lba ∧ lba - part.sb.dataStartLba < 8 * k.blockBitmap.btmpBytesLen ∧
    k.blockBitmap.scanTest (lba - part.sb.dataStartLba) = true

def FreeBlock (part : Partition) (k : Kern) (lba : ℕ) : Prop :=
  part.sb.dataStartLba ≤ lba ∧ lba - part.sb.dataStartLba < 8 * k.blockBitmap.btmpBytesLen ∧
    k.blockBitmap.scanTest (lba - part.sb.dataStartLba) = false

theorem UsedBlock.not_free {part : Partition} {k : Kern} {lba : ℕ} (h : UsedBlock part k lba) : ¬ FreeBlock part k lba := by
  rintro ⟨-, -, hf⟩
  rw [h.2.2] at hf
  simp at hf

structure Owns (part : Partition) (k : Kern) (inode : Inode) : Prop where
  used : ∀ p < 141, refAddr k.disk inode p ≠ 0 → UsedBlock part k (refAddr k.disk inode p)
  inj : ∀ p < 141, ∀ q < 141, refAddr k.disk inode p ≠ 0 → refAddr k.disk inode p = refAddr k.disk inode q → p = q

theorem Layout.data_pos {part : Partition} {len : ℕ} (h : Layout part len) : 0 < part.sb.dataStartLba := by
  have := h.inodeTable
  omega

theorem Owns.table_data {part : Partition} {k : Kern} {inode : Inode} (ho : Owns part k inode) (ht : inode.iSectors 12 ≠ 0) :
    part.sb.dataStartLba ≤ inode.iSectors 12 := by
  have h := (ho.used 140 (by omega) (by simpa [refAddr] using ht)).1
  simpa [refAddr] using h

theorem Owns.block_data {part : Partition} {k : Kern} {inode : Inode} (ho : Owns part k inode) {p : ℕ} (hp : p < 140)
    (hn : blockAddr k.disk inode p ≠ 0) : part.sb.dataStartLba ≤ blockAddr k.disk inode p := by
  have hr : refAddr k.disk inode p = blockAddr k.disk inode p := if_neg (by omega)
  have := (ho.used p (by omega) (hr ▸ hn)).1
  rwa [hr] at this

theorem Owns.block_inj {part : Partition} {k : Kern} {inode : Inode} (ho : Owns part k inode) {p q : ℕ} (hp : p < 140)
    (hq : q < 140) (hn : blockAddr k.disk inode p ≠ 0) (he : blockAddr k.disk inode p = blockAddr k.disk inode q) : p = q := by
  have hrp : refAddr k.disk inode p = blockAddr k.disk inode p := if_neg (by omega)
  have hrq : refAddr k.disk inode q = blockAddr k.disk inode q := if_neg (by omega)
  exact ho.inj p (by omega) q (by omega) (hrp ▸ hn) (by rw [hrp, hrq, he])

theorem Owns.block_ne_table {part : Partition} {k : Kern} {inode : Inode} (ho : Owns part k inode) {p : ℕ} (hp : p < 140)
    (hn : blockAddr k.disk inode p ≠ 0) : blockAddr k.disk inode p ≠ inode.iSectors 12 := by
  have hr : refAddr k.disk inode p = blockAddr k.disk inode p := if_neg (by omega)
  have ht : refAddr k.disk inode 140 = inode.iSectors 12 := if_pos rfl
  intro he
  have := ho.inj p (by omega) 140 (by omega) (hr ▸ hn) (by rw [hr, ht, he])
  omega

theorem ownSectors_congr {d d' : Memory} {inode inode' : Inode} (h : ∀ p < 141, refAddr d' inode' p = refAddr d inode p) :
    ownSectors d' inode' = ownSectors d inode := by
  ext a
  constructor <;> rintro ⟨p, hp, h1, h2⟩
  · rw [h p hp] at h1 h2
    exact ⟨p, hp, h1, h2⟩
  · exact ⟨p, hp, by rw [h p hp]; exact h1, by rw [h p hp]; exact h2⟩

theorem Owns.above {part : Partition} {k : Kern} {inode : Inode} (ho : Owns part k inode) {len a : ℕ} (hl : Layout part len)
    (ha : a < part.sb.inodeBitmapLba * 512) : a ∉ ownSectors k.disk inode := by
  rintro ⟨p, hp, hn, hmem⟩
  exact hl.sector_above (ho.used p hp hn).1 ha hmem

structure Grown (part : Partition) (k : Kern) (inode : Inode) (k' : Kern) (inode' : Inode) : Prop where
  len : k'.blockBitmap.btmpBytesLen = k.blockBitmap.btmpBytesLen
  keep : ∀ p < 141, refAddr k.disk inode p ≠ 0 → refAddr k'.disk inode' p = refAddr k.disk inode p
  fresh : ∀ p < 141, refAddr k.disk inode p = 0 → refAddr k'.disk inode' p ≠ 0 →
    FreeBlock part k (refAddr k'.disk inode' p)
  inj : ∀ p < 141, ∀ q < 141, refAddr k.disk inode p = 0 → refAddr k.disk inode q = 0 →
    refAddr k'.disk inode' p ≠ 0 → refAddr k'.disk inode' p = refAddr k'.disk inode' q → p = q
  bits : ∀ i, k'.blockBitmap.scanTest i = true ↔ k.blockBitmap.scanTest i = true ∨
    ∃ p < 141, refAddr k.disk inode p = 0 ∧ refAddr k'.disk inode' p ≠ 0 ∧
      refAddr k'.disk inode' p = part.sb.dataStartLba + i

section Grown

variable {part : Partition} {k k' k'' : Kern} {inode inode' inode'' : Inode}

theorem Grown.used (h : Grown part k inode k' inode') {lba : ℕ} (hu : UsedBlock part k lba) : UsedBlock part k' lba :=
  ⟨hu.1, by rw [h.len]; exact hu.2.1, (h.bits _).mpr (.inl hu.2.2)⟩

theorem Grown.fresh_used (h : Grown part k inode k' inode') {p : ℕ} (hp : p < 141) (h0 : refAddr k.disk inode p = 0)
    (hn : refAddr k'.disk inode' p ≠ 0) : UsedBlock part k' (refAddr k'.disk inode' p) := by
  obtain ⟨h1, h2, -⟩ := h.fresh p hp h0 hn
  refine ⟨h1, by rw [h.len]; exact h2, (h.bits _).mpr (.inr ⟨p, hp, h0, hn, by omega⟩)⟩

theorem Grown.owns (h : Grown part k inode k' inode') (ho : Owns part k inode) : Owns part k' inode' where
  used p hp hn := by
    by_cases h0 : refAddr k.disk inode p = 0
    · exact h.fresh_used hp h0 hn
    · rw [h.keep p hp h0]
      exact h.used (ho.used p hp h0)
  inj p hp q hq hn he := by
    by_cases hp0 : refAddr k.disk inode p = 0 <;> by_cases hq0 : refAddr k.disk inode q = 0
    · exact h.inj p hp q hq hp0 hq0 hn he
    · have hf := h.fresh p hp hp0 hn
      rw [he, h.keep q hq hq0] at hf
      exact absurd hf (ho.used q hq hq0).not_free
    · have hf := h.fresh q hq hq0 (he ▸ hn)
      rw [← he, h.keep p hp hp0] at hf
      exact absurd hf (ho.used p hp hp0).not_free
    · rw [h.keep p hp hp0, h.keep q hq hq0] at he
      exact ho.inj p hp q hq hp0 he

theorem Grown.trans (h : Grown part k inode k' inode') (h' : Grown part k' inode' k'' inode'') :
    Grown part k inode k'' inode'' where
  len := h'.len.trans h.len
  keep p hp hn := by
    have hk := h.keep p hp hn
    rw [h'.keep p hp (hk ▸ hn), hk]
  fresh p hp h0 hn := by
    by_cases h1 : refAddr k'.disk inode' p = 0
    · obtain ⟨f1, f2, f3⟩ := h'.fresh p hp h1 hn
      refine ⟨f1, by rw [← h.len]; exact f2, ?_⟩
      by_contra hset
      rw [(h.bits _).mpr (.inl (by simpa using hset))] at f3
      simp at f3
    · rw [h'.keep p hp h1]
      exact h.fresh p hp h0 h1
  inj p hp q hq hp0 hq0 hn he := by
    by_cases hp1 : refAddr k'.disk inode' p = 0 <;> by_cases hq1 : refAddr k'.disk inode' q = 0
    · exact h'.inj p hp q hq hp1 hq1 hn he
    · have hf := h'.fresh p hp hp1 hn
      rw [he, h'.keep q hq hq1] at hf
      exact absurd hf (h.fresh_used hq hq0 hq1).not_free
    · have hf := h'.fresh q hq hq1 (he ▸ hn)
      rw [← he, h'.keep p hp hp1] at hf
      exact absurd hf (h.fresh_used hp hp0 hp1).not_free
    · rw [h'.keep p hp hp1, h'.keep q hq hq1] at he
      exact h.inj p hp q hq hp0 hq0 hp1 he
  bits i := by
    rw [h'.bits, h.bits]
    constructor
    · rintro ((hi | ⟨p, hp, h0, h1, he⟩) | ⟨p, hp, h1, h2, he⟩)
      · exact .inl hi
      · refine .inr ⟨p, hp, h0, ?_, ?_⟩ <;> rw [h'.keep p hp h1]
        · exact h1
        · exact he
      · refine .inr ⟨p, hp, ?_, h2, he⟩
        by_contra h0
        exact h0 ((h.keep p hp h0).symm.trans h1)
    · rintro (hi | ⟨p, hp, h0, h2, he⟩)
      · exact .inl (.inl hi)
      · by_cases h1 : refAddr k'.disk inode' p = 0
        · exact .inr ⟨p, hp, h1, h2, he⟩
        · rw [h'.keep p hp h1] at he
          exact .inl (.inr ⟨p, hp, h0, h1, he⟩)

theorem Grown.single {lba p : ℕ} (hd : 0 < part.sb.dataStartLba) (ha : Allocated part [lba] k k')
    (hb : k''.blockBitmap = k'.blockBitmap) (hp : p < 141) (h0 : refAddr k.disk inode p = 0)
    (hnew : refAddr k''.disk inode' p = lba) (hkeep : ∀ q < 141, q ≠ p → refAddr k''.disk inode' q = refAddr k.disk inode q) :
    Grown part k inode k'' inode' := by
  obtain ⟨f1, f2, f3⟩ := ha.fresh lba (List.mem_singleton_self _)
  have honly : ∀ q < 141, refAddr k.disk inode q = 0 → refAddr k''.disk inode' q ≠ 0 → q = p := by
    intro q hq hq0 hqn
    by_contra hne
    exact hqn ((hkeep q hq hne).trans hq0)
  refine ⟨by rw [hb, ha.len], fun q hq hn => hkeep q hq ?_, ?_, ?_, ?_⟩
  · rintro rfl
    exact hn h0
  · intro q hq hq0 hqn
    obtain rfl := honly q hq hq0 hqn
    rw [hnew]
    exact ⟨f1, f2, f3⟩
  · intro q hq r hr hq0 hr0 hqn he
    rw [honly q hq hq0 hqn, honly r hr hr0 (he ▸ hqn)]
  · intro i
    rw [hb, ha.bits, Bool.or_eq_true, decide_eq_true_eq, List.mem_singleton]
    constructor
    · rintro (hi | hi)
      · exact .inl hi
      · exact .inr ⟨p, hp, h0, by omega, by rw [hnew, hi]⟩
    · rintro (hi | ⟨q, hq, hq0, hqn, he⟩)
      · exact .inl hi
      · obtain rfl := honly q hq hq0 hqn
        exact .inr (by rw [← he, hnew])

theorem Grown.of_same (hb : k'.blockBitmap = k.blockBitmap)
    (hr : ∀ p < 141, refAddr k'.disk inode' p = refAddr k.disk inode p) : Grown part k inode k' inode' where
  len := by rw [hb]
  keep p hp _ := hr p hp
  fresh p hp h0 hn := absurd ((hr p hp).trans h0) hn
  inj p hp _ _ hp0 _ hn _ := absurd ((hr p hp).trans hp0) hn
  bits i := by
    rw [hb]
    constructor
    · exact .inl
    · rintro (hi | ⟨p, hp, h0, hn, -⟩)
      · exact hi
      · exact absurd ((hr p hp).trans h0) hn

end Grown

end ElephantOS
