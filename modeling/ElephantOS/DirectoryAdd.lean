import ElephantOS.DirectoryInsert
import ElephantOS.FreeBlocks
import ElephantOS.PathResolution

namespace ElephantOS

open ByteMemory HaltingState

/-- A directory of the mounted partition, whatever its entries hold. -/
structure StoredDir (K : Kernel) (k : Kern) (inode : Inode) : Prop where
  entrySize : K.sb.dirEntrySize = 24
  layout : Layout K.toPartition k.blockBitmap.btmpBytesLen
  owns : Owns K.toPartition k inode
  onDisk : OnDisk k.disk inode
  whole : inode.iSize % 24 = 0
  capacity : inode.iSize ≤ 140 * 21 * 24
  plenty : k.Plenty

/-- An open directory whose free slots have no name, as new blocks and `delete_dir_entry` leave them. -/
structure OpenDir (K : Kernel) (k : Kern) (inode : Inode) : Prop extends StoredDir K k inode where
  cleared : ∀ pos, Slot k.disk inode pos → (entryAt k.disk (slotAddr k.disk inode pos)).fType = .unknown →
    (entryAt k.disk (slotAddr k.disk inode pos)).name = []
  linked : inode.inodeTag = ⟨.linked, .linked⟩

/-- The name is not in the directory: a lookup finds nothing. -/
def Missing (K : Kernel) (inode : Inode) (k : Kern) (name : Name) : Prop := Runs (searchDirEntry K inode name) k fun r _ => r = none

/-- A lookup of `name` finds this inode number and type. -/
def Finds (K : Kernel) (inode : Inode) (k : Kern) (name : Name) (iNo : ℕ) (fType : FileType) : Prop :=
  Runs (searchDirEntry K inode name) k fun r _ => ∃ dirE, r = some dirE ∧ dirE.iNo = iNo ∧ dirE.fType = fType

structure Added (K : Kernel) (e : Entry) (k : Kern) (inode : Inode) (k' : Kern) (inode' : Inode) : Prop where
  old : ∀ name iNo fType, name ≠ [] → 0 ∉ name → name.length ≤ 16 → Finds K inode k name iNo fType → Finds K inode' k' name iNo fType
  new : Finds K inode' k' e.name e.iNo e.fType
  fields : inode' = { inode with
    iSize := inode'.iSize
    iSectors := inode'.iSectors }

/-- Whenever `sync_dir_entry` returns true, the entry was added. -/
def AddsEntry (K : Kernel) (k : Kern) (inode : Inode) (e : Entry) : Prop :=
  ∀ io inode' k', syncDirEntry K inode e.dirEntry io k = .ok ((true, inode'), k') → Added K e k inode k' inode'

section

variable {K : Kernel} {k k' : Kern} {inode inode' : Inode} {e : Entry}

theorem StoredDir.missing (h : StoredDir K k inode) (hs : SlotsOk k.disk inode) {name : Name} (hn : name ≠ []) (h0 : 0 ∉ name)
    (hfresh : ∀ pos e, slotMap k.disk inode pos = some e → e.name ≠ name) : Missing K inode k name := by
  obtain ⟨r, k1, hrun, -⟩ := searchDirEntry_runs (K := K) name h.plenty h.onDisk
  obtain ⟨-, hlook⟩ := searchDirEntry_ok h.entrySize h.plenty hs h0 hn hrun
  refine ⟨r, k1, hrun, ?_⟩
  cases r with
  | none => rfl
  | some dirE =>
    obtain ⟨pos, e, hfirst, -⟩ := hlook
    exact absurd hfirst.named (hfresh pos e hfirst.here)

/-- The first direct block with room for an entry is a missing one. -/
def FirstMissing (d : Memory) (inode : Inode) : Prop := ∃ p < 12, inode.iSectors p = 0 ∧
  ∀ q < p, inode.iSectors q ≠ 0 ∧ ∀ j < 21, (entryAt d (inode.iSectors q * 512 + 24 * j)).fType ≠ .unknown

def DirectFull (d : Memory) (inode : Inode) : Prop := ∀ p < 12, inode.iSectors p ≠ 0 ∧
  ∀ j < 21, (entryAt d (inode.iSectors p * 512 + 24 * j)).fType ≠ .unknown

theorem directFull_iff {d : Memory} : DirectFull d inode ↔ ¬ DirectRoom d inode := by
  unfold DirectFull DirectRoom
  push Not
  rfl

theorem newDirBlock_runs (hl : Layout K.toPartition k.blockBitmap.btmpBytesLen) (hfree : 2 ≤ (freeBits K.toPartition k.blockBitmap).card)
    (blocks : ℕ → ℕ) : Runs (newDirBlock K 12 inode blocks) k fun r _ => r.1 = true ∧ r.2.2 12 ≤ maxLba := by
  unfold newDirBlock
  refine Runs.bind (blockBitmapAlloc_runs (by omega)) ?_
  rintro _ _ ⟨i, hi, -, rfl, rfl⟩
  have hcard := freeBits_set hi
  refine Runs.assert (by push_cast; omega) ?_
  refine Runs.bind (allocSync_runs hl hi) ?_
  rintro _ k₁ ⟨hb₁, -, -⟩
  rw [if_neg (by omega), if_pos rfl]
  refine Runs.bind (blockBitmapAlloc_runs (by rw [hb₁]; omega)) ?_
  rintro _ _ ⟨j, hj, -, rfl, rfl⟩
  refine Runs.assert (by push_cast; omega) ?_
  refine Runs.bind (allocSync_runs (by rw [hb₁, Bitmap.set_len]; exact hl) hj) ?_
  rintro _ k₂ -
  have hon := (mem_freeBits.mp hi).2.2
  refine Runs.bind (ideWrite_runs (sectorRange_one.mpr hon) _ k₂) ?_
  rintro _ k₃ -
  refine Runs.pure ⟨rfl, ?_⟩
  change Function.update blocks 12 _ 12 ≤ maxLba
  rw [Function.update_self]
  exact (mem_freeBits.mp hj).2.2

theorem syncBlocks_full_runs (h : OpenDir K k inode) (hfull : DirectFull k.disk inode)
    (hfree : 2 ≤ (freeBits K.toPartition k.blockBitmap).card) {more idx : ℕ} (hmore : more + idx = 140) (hidx : idx ≤ 12) (io : Buffer) :
    Runs (syncBlocks K e.dirEntry more idx inode (dirBlocks inode) io) k fun _ _ => True := by
  induction more generalizing idx io k with
  | zero => omega
  | succ more ih =>
    unfold syncBlocks
    by_cases hlast : idx = 12
    · subst hlast
      have hz : dirBlocks inode 12 = 0 := rfl
      rw [if_pos hz]
      refine Runs.bind (newDirBlock_runs h.layout hfree _) ?_
      rintro ⟨ok, inode', blocks⟩ k₁ ⟨rfl, hon⟩
      refine Runs.bind (ideWrite_runs (sectorRange_one.mpr hon) _ k₁) ?_
      rintro _ k₂ -
      exact Runs.pure trivial
    · have hlt : idx < 12 := by omega
      have hblk : dirBlocks inode idx = inode.iSectors idx := if_pos hlt
      obtain ⟨hne, hlive⟩ := hfull idx hlt
      rw [hblk, if_neg hne]
      have hon : inode.iSectors idx ≤ maxLba := by
        have := h.onDisk idx (by omega)
        rwa [refAddr_block _ _ (by omega), blockAddr, if_pos hlt] at this
      refine Runs.bind ((ideRead_runs (sectorRange_one.mpr hon) io k).after fun b k' hr => ideRead_holds hr) ?_
      rintro b k₁ ⟨⟨-, hk⟩, -, -, -, hholds⟩
      have hnone : firstSlot (dirEntrysPerSec K) (fun i => decide ((DirEntry.load b.bytes (24 * i)).fType = .unknown)) = none := by
        rw [dirEntrysPerSec, h.entrySize, firstSlot_none]
        intro j hj
        rw [load_fType, hholds.entryAt hj]
        exact decide_eq_false (hlive j hj)
      rw [hnone]
      have h₁ : OpenDir K k₁ inode := by
        refine ⟨⟨h.entrySize, by rw [hk.blockBitmap]; exact h.layout, ?_, by rw [hk.disk]; exact h.onDisk, h.whole, h.capacity,
          hk.plenty h.plenty⟩, by rw [hk.disk]; exact h.cleared, h.linked⟩
        exact ⟨by simpa only [UsedBlock, hk.disk, hk.blockBitmap] using h.owns.used, by simpa only [hk.disk] using h.owns.inj⟩
      exact ih h₁ (by rw [hk.disk]; exact hfull) (by rw [hk.blockBitmap]; exact hfree) (by omega) (by omega) b

theorem Allocated.one_free {lba : ℕ} (ha : Allocated K.toPartition [lba] k k') (hon : lba ≤ maxLba) :
    0 < (freeBits K.toPartition k.blockBitmap).card := by
  obtain ⟨h1, h2, h3⟩ := ha.fresh lba (List.mem_singleton_self _)
  exact Finset.card_pos.mpr ⟨lba - K.sb.dataStartLba, mem_freeBits.mpr ⟨h2, h3, by omega⟩⟩

theorem Allocated.two_free {lba lba' : ℕ} {k₁ : Kern} (ha : Allocated K.toPartition [lba] k k₁) (ha' : Allocated K.toPartition [lba'] k₁ k')
    (hon : lba ≤ maxLba) (hon' : lba' ≤ maxLba) : 2 ≤ (freeBits K.toPartition k.blockBitmap).card := by
  have hboth := ha.append ha'
  obtain ⟨h1, h2, h3⟩ := hboth.fresh lba (by simp)
  obtain ⟨h1', h2', h3'⟩ := hboth.fresh lba' (by simp)
  have hne : lba ≠ lba' := by
    have := hboth.nodup
    simpa using this
  have hsub : {lba - K.sb.dataStartLba, lba' - K.sb.dataStartLba} ⊆ freeBits K.toPartition k.blockBitmap := by
    intro i hi
    rw [Finset.mem_insert, Finset.mem_singleton] at hi
    rw [mem_freeBits]
    rcases hi with rfl | rfl
    · exact ⟨h2, h3, by omega⟩
    · exact ⟨h2', h3', by omega⟩
  have hcard := Finset.card_le_card hsub
  rwa [Finset.card_pair (by omega)] at hcard

theorem AddsEntry.room (h : OpenDir K k inode) (hadds : AddsEntry K k inode e) :
    DirectRoom k.disk inode ∨ (freeBits K.toPartition k.blockBitmap).card < 2 := by
  by_contra hno
  push Not at hno
  obtain ⟨hroom, hfree⟩ := hno
  have hfull := directFull_iff.mpr hroom
  obtain ⟨⟨ok, inode'⟩, k', hrun, -⟩ : Runs (syncDirEntry K inode e.dirEntry ⟨⟨0, .kernel⟩, 512, zeros⟩) k fun _ _ => True := by
    unfold syncDirEntry
    refine Runs.assert (by rw [h.entrySize]; exact h.whole) ?_
    exact syncBlocks_full_runs h hfull hfree rfl (by omega) _
  obtain ⟨rfl, -, k₀, hk₀, hsync⟩ := syncDirEntry_ok h.entrySize h.layout.whole hrun
  have hfields := congrArg Inode.inodeTag (hadds _ _ _ hrun).fields
  rw [← hk₀.disk] at hfull
  cases hsync with
  | slot hp hj _ hfree' _ => exact absurd hfree' ((hfull _ hp).2 _ hj)
  | block hp hb => exact absurd hb (hfull _ hp).1
  | table =>
    -- the address of the new block stands in the links of the directory's inode
    dsimp only at hfields
    rw [h.linked] at hfields
    simp [Inode.setSector] at hfields

end

theorem oneFile_refs (p : ℕ) : refAddr oneFile.kern.disk (oneFile.inodes ⟨0, .kernel⟩) p =
    if p = 0 then smallPartition.sb.dataStartLba else 0 := by
  unfold refAddr
  split_ifs with hlast hzero hzero
  · omega
  · rfl
  · rw [oneFile_block, if_pos hzero]
  · rw [oneFile_block, if_neg hzero]

theorem oneFile_openDir : OpenDir smallPartition.kernel oneFile.kern (oneFile.inodes ⟨0, .kernel⟩) where
  entrySize := rfl
  layout := ⟨rfl, by decide, by decide, by decide, by decide⟩
  owns := by
    refine ⟨?_, ?_⟩
    · intro p hp hne
      rw [oneFile_refs] at hne ⊢
      split_ifs at hne ⊢
      · exact ⟨by decide, by decide, by decide⟩
      · exact absurd rfl hne
    · intro p hp q hq hne heq
      rw [oneFile_refs] at hne
      rw [oneFile_refs, oneFile_refs] at heq
      split_ifs at hne heq <;> omega
  onDisk := oneFile_tree.onDisk 0 rfl
  cleared := fun pos hpos => (oneFile_tree.slots 0 rfl pos hpos).2.mp
  whole := rfl
  capacity := by decide
  plenty := fun _ => rfl
  linked := rfl

/-- A directory with 252 entries in its twelve direct blocks, `.` and `..` first. -/
def fullDir : Inode := { Inode.zero with
  iSize := 252 * 24
  iSectors := fun p => if p < 12 then 675 + p else 0
  inodeTag := ⟨.linked, .linked⟩ }

def fullDirByte (p j i : ℕ) : UInt8 :=
  if p = 0 ∧ j < 2 then if i ≤ j then 46 else if i = 20 then 2 else 0
  else if i = 0 then UInt8.ofNat (97 + j) else if i = 1 then UInt8.ofNat (65 + p) else if i = 16 then UInt8.ofNat (21 * p + j)
  else if i = 20 then 1 else 0

def fullKern : Kern := { Kern.blank with
  disk := fun a => if a < 345600 ∨ 351744 ≤ a ∨ 504 ≤ a % 512 then 0 else fullDirByte ((a - 345600) / 512) (a % 512 / 24) (a % 512 % 24)
  blockBitmap := ⟨512, Function.update (Function.update zeros 0 255) 1 15⟩ }

theorem fullDir_slots : ∀ p < 12, ∀ j < 21, (entryAt fullKern.disk ((675 + p) * 512 + 24 * j)).name.length < 16 ∧
    (entryAt fullKern.disk ((675 + p) * 512 + 24 * j)).name ≠ [] ∧ (entryAt fullKern.disk ((675 + p) * 512 + 24 * j)).name ≠ [120] ∧
    (entryAt fullKern.disk ((675 + p) * 512 + 24 * j)).fType ≠ .unknown := by
  decide +kernel

theorem fullDir_refs (p : ℕ) : refAddr fullKern.disk fullDir p = if p < 12 then 675 + p else 0 := by
  unfold refAddr blockAddr
  split_ifs with h1 h2 h3 h4
  · omega
  · rfl
  · exact if_pos h3
  · rfl
  · exact absurd rfl h4

theorem fullDir_slot {pos : ℕ × ℕ} (h : Slot fullKern.disk fullDir pos) : pos.1 < 12 ∧ pos.2 < 21 ∧
    slotAddr fullKern.disk fullDir pos = (675 + pos.1) * 512 + 24 * pos.2 := by
  obtain ⟨hp, hj, hb⟩ := h
  rw [← refAddr_block _ _ hp, fullDir_refs] at hb
  split_ifs at hb with hlt
  · refine ⟨hlt, hj, ?_⟩
    rw [slotAddr, ← refAddr_block _ _ hp, fullDir_refs, if_pos hlt]
  · exact absurd rfl hb

theorem fullDir_slotsOk : SlotsOk fullKern.disk fullDir := by
  intro pos hslot
  obtain ⟨hp, hj, haddr⟩ := fullDir_slot hslot
  obtain ⟨hlen, hnamed, -, hlive⟩ := fullDir_slots pos.1 hp pos.2 hj
  rw [haddr]
  exact ⟨hlen, iff_of_false hlive hnamed⟩

theorem fullDir_openDir : OpenDir (formattedPartition 63 700).kernel fullKern fullDir where
  entrySize := rfl
  layout := ⟨rfl, by decide, by decide, by decide, by decide⟩
  owns := by
    have hused : ∀ p < 12, UsedBlock (formattedPartition 63 700) fullKern (675 + p) := by
      unfold UsedBlock
      decide
    refine ⟨?_, ?_⟩
    · intro p hp hne
      rw [fullDir_refs] at hne ⊢
      split_ifs at hne ⊢ with hlt
      · exact hused p hlt
      · exact absurd rfl hne
    · intro p hp q hq hne heq
      rw [fullDir_refs] at hne
      rw [fullDir_refs, fullDir_refs] at heq
      split_ifs at hne heq <;> omega
  onDisk := by
    intro p hp
    have hmax : 700 ≤ maxLba := by decide
    rw [fullDir_refs]
    split_ifs <;> omega
  cleared := fun pos hpos => (fullDir_slotsOk pos hpos).2.mp
  whole := rfl
  capacity := by decide
  plenty := fun _ => rfl
  linked := rfl

/-- The 253rd entry of a directory overwrites the links of its inode. -/
theorem sync_dir_entry_full : OpenDir (formattedPartition 63 700).kernel fullKern fullDir ∧ Entry.Creatable ⟨[120], 255, .regular⟩ ∧
    Missing (formattedPartition 63 700).kernel fullDir fullKern [120] ∧
    ¬ AddsEntry (formattedPartition 63 700).kernel fullKern fullDir ⟨[120], 255, .regular⟩ := by
  refine ⟨fullDir_openDir, ⟨by decide, by decide, by decide, by decide, .inl rfl⟩, ?_, ?_⟩
  · refine fullDir_openDir.missing fullDir_slotsOk (by decide) (by decide) fun pos e he => ?_
    obtain ⟨hslot, -, rfl⟩ := slotMap_eq_some.mp he
    obtain ⟨hp, hj, haddr⟩ := fullDir_slot hslot
    rw [haddr]
    exact (fullDir_slots pos.1 hp pos.2 hj).2.2.1
  · intro hadds
    rcases hadds.room fullDir_openDir with ⟨p, hp, hz | ⟨j, hj, hfree⟩⟩ | hfew
    · have hsector : fullDir.iSectors p = 675 + p := if_pos hp
      omega
    · have hsector : fullDir.iSectors p = 675 + p := if_pos hp
      rw [hsector] at hfree
      exact (fullDir_slots p hp j hj).2.2.2 hfree
    · have hsub : {12, 13} ⊆ freeBits (formattedPartition 63 700) fullKern.blockBitmap := by
        intro i hi
        rw [Finset.mem_insert, Finset.mem_singleton] at hi
        rw [mem_freeBits]
        rcases hi with rfl | rfl <;> decide
      have hcard := Finset.card_le_card hsub
      rw [Finset.card_pair (by decide)] at hcard
      have hpart : (formattedPartition 63 700).kernel.toPartition = formattedPartition 63 700 := rfl
      rw [hpart] at hfew
      omega

end ElephantOS
