import ElephantOS.DirectoryAdd

namespace ElephantOS

open ByteMemory HaltingState

theorem sameString_eq {m : Memory} {a : ℕ} {name : Name} :
    sameString m a name = true ↔ (∀ i < name.length, m (a + i) = ofList name i) ∧ m (a + name.length) = 0 := by
  induction name generalizing a with
  | nil => simp [sameString]
  | cons c cs ih =>
    simp only [sameString, Bool.and_eq_true, beq_iff_eq, ih, List.length_cons]
    constructor
    · rintro ⟨hc, hcs, hend⟩
      refine ⟨fun i hi => ?_, by rw [← hend, Nat.add_assoc, Nat.add_comm 1]⟩
      cases i with
      | zero => simpa [ofList] using hc
      | succ i =>
        have := hcs i (by omega)
        rw [Nat.add_assoc, Nat.add_comm 1] at this
        simpa [ofList] using this
    · rintro ⟨hall, hend⟩
      refine ⟨by simpa [ofList] using hall 0 (by omega), fun i hi => ?_, by rw [← hend, Nat.add_assoc, Nat.add_comm 1]⟩
      have := hall (i + 1) (by omega)
      rw [Nat.add_assoc, Nat.add_comm 1]
      simpa [ofList] using this

theorem sameString_zeros {m : Memory} {a : ℕ} {name : Name} (hn : name ≠ []) (h0 : 0 ∉ name) (h : m a = 0) : sameString m a name = false := by
  cases name with
  | nil => exact absurd rfl hn
  | cons c cs =>
    rw [List.mem_cons, not_or] at h0
    simp [sameString, h, h0.1]

theorem nameAt_nil {m : Memory} {a : ℕ} (h : nameAt m a = []) : m a = 0 := by
  by_contra hne
  rw [nameAt, show maxFileNameLen = 15 + 1 from rfl, nameFrom, if_neg hne] at h
  cases h

theorem sameString_unique {m : Memory} {a : ℕ} {name name' : Name} (h0 : 0 ∉ name) (h0' : 0 ∉ name') (h : sameString m a name = true)
    (h' : sameString m a name' = true) : name = name' := by
  induction name generalizing a name' with
  | nil =>
    cases name' with
    | nil => rfl
    | cons c cs =>
      simp only [sameString, Bool.and_eq_true, beq_iff_eq] at h h'
      rw [List.mem_cons, not_or, ← h'.1, h] at h0'
      exact absurd rfl h0'.1
  | cons c cs ih =>
    rw [List.mem_cons, not_or] at h0
    cases name' with
    | nil =>
      simp only [sameString, Bool.and_eq_true, beq_iff_eq] at h h'
      rw [← h.1, h'] at h0
      exact absurd rfl h0.1
    | cons c' cs' =>
      rw [List.mem_cons, not_or] at h0'
      simp only [sameString, Bool.and_eq_true, beq_iff_eq] at h h'
      rw [← h.1, ← h'.1, ih h0.2 h0'.2 h.2 h'.2]

theorem ofNat_eq_zero {n : ℕ} : UInt8.ofNat n = 0 ↔ n % 256 = 0 := by
  rw [← UInt8.toNat_inj, UInt8.toNat_ofNat']
  rfl

theorem firstByte_iNo (e : DirEntry) : e.bytes 16 = UInt8.ofNat e.iNo := by
  simp [DirEntry.bytes, wordBytes]

theorem sameString_stored {m : Memory} {a iNo : ℕ} {name : Name} {t : FileType} (hlen : name.length ≤ 16)
    (h : ∀ i < 24, m (a + i) = (DirEntry.mk (nameBytes name) iNo t).bytes i) :
    sameString m a name = true ↔ name.length < 16 ∨ iNo % 256 = 0 := by
  have hname : ∀ i < 16, m (a + i) = ofList name i := by
    intro i hi
    rw [h i (by omega), DirEntry.bytes, if_pos hi]
    rfl
  rw [sameString_eq]
  constructor
  · rintro ⟨-, hend⟩
    by_cases hlt : name.length < 16
    · exact .inl hlt
    · have h16 : name.length = 16 := by omega
      rw [h16, h 16 (by omega), firstByte_iNo] at hend
      exact .inr (ofNat_eq_zero.mp hend)
  · intro hcase
    refine ⟨fun i hi => hname i (by omega), ?_⟩
    by_cases hlt : name.length < 16
    · rw [hname _ hlt]
      simp [ofList]
    · have h16 : name.length = 16 := by omega
      have hmod := hcase.resolve_left hlt
      rw [h16, h 16 (by omega), firstByte_iNo]
      exact ofNat_eq_zero.mpr hmod

def matching (d : Memory) (inode : Inode) (name : Name) (pos : ℕ × ℕ) : Bool := sameString d (slotAddr d inode pos) name

/-- `create_dir_entry` and `sync_dir_entry`, as the callers put them together. -/
def addEntry (K : Kernel) (inode : Inode) (name : Name) (iNo : ℕ) (fType : FileType) (ioBuf : Buffer) : KernM (Bool × Inode) := do
  let newDirEntry ← createDirEntry name iNo fType
  syncDirEntry K inode newDirEntry ioBuf

section

variable {K : Kernel} {k k' : Kern} {inode inode' : Inode} {name : Name} {iNo : ℕ} {t : FileType}

theorem matching_compares {d : Memory} (hlen : name.length ≤ 16) : Compares d inode name (matching d inode name) := by
  intro p hp hb bytes hbytes j hj
  apply sameString_congr
  intro i hi
  rw [hbytes _ (by omega), slotAddr, Nat.add_assoc]

theorem Missing.unmatched (h : Missing K inode k name) (hk : K.sb.dirEntrySize = 24) (hp : k.Plenty) (hlen : name.length ≤ 16)
    {pos : ℕ × ℕ} (hs : Slot k.disk inode pos) : matching k.disk inode name pos = false := by
  obtain ⟨_, k1, hrun, rfl⟩ := h
  obtain ⟨-, hfirst⟩ := searchDirEntry_first hk hp (matching_compares hlen) hrun
  exact hfirst pos hs

theorem EntryStored.found {pos : ℕ × ℕ} (h : EntryStored K.toPartition ⟨nameBytes name, iNo, t⟩ pos k inode k' inode')
    (hd : StoredDir K k inode) (hn : name ≠ []) (h0 : 0 ∉ name) (hlen : name.length ≤ 16) (hno : iNo < 2 ^ 32)
    (ht : t.toWord < 2 ^ 32) (hmiss : Missing K inode k name) :
    Finds K inode' k' name iNo t ↔ name.length < 16 ∨ iNo % 256 = 0 := by
  have hplenty := h.steady.plenty hd.plenty
  have hhere := sameString_stored hlen h.here
  have hothers : ∀ pos', pos' ≠ pos → Slot k'.disk inode' pos' → matching k'.disk inode' name pos' = false := by
    intro pos' hne hs'
    by_cases hold : Slot k.disk inode pos'
    · obtain ⟨hb, hsame⟩ := h.old pos' hne hold
      have haddr : slotAddr k'.disk inode' pos' = slotAddr k.disk inode pos' := by simp only [slotAddr, hb]
      rw [← hmiss.unmatched hd.entrySize hd.plenty hlen hold, matching, matching, haddr]
      apply sameString_congr
      intro i hi
      exact hsame i (by omega)
    · have hzero := h.new pos' hne hs' hold 0 (by omega)
      rw [Nat.add_zero] at hzero
      exact sameString_zeros hn h0 hzero
  obtain ⟨r, k1, hrun, -⟩ := searchDirEntry_runs (K := K) name hplenty (h.onDisk hd.onDisk)
  obtain ⟨-, hfirst⟩ := searchDirEntry_first hd.entrySize hplenty (matching_compares hlen) hrun
  rw [← hhere]
  constructor
  · rintro ⟨_, k2, hrun', dirE, rfl, -, -⟩
    obtain ⟨rfl, -⟩ := ok_inj hrun hrun'
    obtain ⟨pos', hs', hmatch, -⟩ := hfirst
    by_cases heq : pos' = pos
    · rw [← heq]
      exact hmatch
    · rw [hothers pos' heq hs'] at hmatch
      cases hmatch
  · intro hmatch
    cases r with
    | none =>
      have := hfirst pos h.slot
      rw [matching, hmatch] at this
      cases this
    | some dirE =>
      obtain ⟨pos', hs', hmatch', -, hino, htype⟩ := hfirst
      obtain rfl : pos' = pos := by
        by_contra hne
        rw [hothers pos' hne hs'] at hmatch'
        cases hmatch'
      obtain ⟨hino', htype'⟩ := entryAt_stored hno ht h.here
      exact ⟨_, k1, hrun, dirE, rfl, hino.trans hino', htype.trans htype'⟩

theorem newDirBlock_direct_runs (hl : Layout K.toPartition k.blockBitmap.btmpBytesLen)
    (hfree : 0 < (freeBits K.toPartition k.blockBitmap).card) {idx : ℕ} (hidx : idx < 12) (blocks : ℕ → ℕ) :
    Runs (newDirBlock K idx inode blocks) k fun r _ => r.1 = true ∧ r.2.2 idx ≤ maxLba := by
  unfold newDirBlock
  refine Runs.bind (blockBitmapAlloc_runs hfree) ?_
  rintro _ _ ⟨i, hi, -, rfl, rfl⟩
  refine Runs.assert (by push_cast; omega) ?_
  refine Runs.bind (allocSync_runs hl hi) ?_
  rintro _ k₁ -
  rw [if_pos hidx]
  refine Runs.pure ⟨rfl, ?_⟩
  change Function.update blocks idx _ idx ≤ maxLba
  rw [Function.update_self]
  exact (mem_freeBits.mp hi).2.2

theorem EntryStored.keeps {pDe : DirEntry} {pos : ℕ × ℕ} (h : EntryStored K.toPartition pDe pos k inode k' inode') (hd : OpenDir K k inode)
    {name' : Name} (hnew : matching k'.disk inode' name' pos = false) (hn : name' ≠ []) (h0 : 0 ∉ name') (hlen : name'.length ≤ 16)
    {iNo : ℕ} {t : FileType} (hfinds : Finds K inode k name' iNo t) : Finds K inode' k' name' iNo t := by
  have hplenty := h.steady.plenty hd.plenty
  -- the slot that was filled had no name
  have hfree : Slot k.disk inode pos → matching k.disk inode name' pos = false := fun hs =>
    sameString_zeros hn h0 (nameAt_nil (hd.cleared pos hs (h.free hs)))
  have hsame : ∀ pos', Slot k.disk inode pos' → pos' ≠ pos →
      matching k'.disk inode' name' pos' = matching k.disk inode name' pos' ∧
        entryAt k'.disk (slotAddr k'.disk inode' pos') = entryAt k.disk (slotAddr k.disk inode pos') ∧ Slot k'.disk inode' pos' := by
    intro pos' hs hne
    obtain ⟨hb, hdisk⟩ := h.old pos' hne hs
    have haddr : slotAddr k'.disk inode' pos' = slotAddr k.disk inode pos' := by simp only [slotAddr, hb]
    refine ⟨?_, entryAt_slot_congr hb hdisk, hs.congr hb⟩
    rw [matching, matching, haddr]
    apply sameString_congr
    intro i hi
    exact hdisk i (by omega)
  have hothers : ∀ pos', Slot k'.disk inode' pos' → matching k'.disk inode' name' pos' = true →
      Slot k.disk inode pos' ∧ pos' ≠ pos := by
    intro pos' hs' hmatch
    have hne : pos' ≠ pos := by
      rintro rfl
      rw [hnew] at hmatch
      cases hmatch
    refine ⟨?_, hne⟩
    by_contra hold
    have hzero := h.new pos' hne hs' hold 0 (by omega)
    rw [Nat.add_zero] at hzero
    rw [matching, sameString_zeros hn h0 hzero] at hmatch
    cases hmatch
  obtain ⟨r, k1, hrun, dirE, rfl, rfl, rfl⟩ := hfinds
  obtain ⟨-, pos₁, hs₁, hmatch₁, hfirst₁, hino₁, htype₁⟩ := searchDirEntry_first hd.entrySize hd.plenty (matching_compares hlen) hrun
  have hne₁ : pos₁ ≠ pos := by
    rintro rfl
    rw [hfree hs₁] at hmatch₁
    cases hmatch₁
  obtain ⟨hm₁, he₁, hs₁'⟩ := hsame pos₁ hs₁ hne₁
  obtain ⟨r', k2, hrun', -⟩ := searchDirEntry_runs (K := K) name' hplenty (h.onDisk hd.onDisk)
  obtain ⟨-, hfirst⟩ := searchDirEntry_first hd.entrySize hplenty (matching_compares hlen) hrun'
  cases r' with
  | none =>
    have := hfirst pos₁ hs₁'
    rw [hm₁, hmatch₁] at this
    cases this
  | some dirE' =>
    obtain ⟨pos₂, hs₂, hmatch₂, hfirst₂, hino₂, htype₂⟩ := hfirst
    obtain ⟨hold₂, hne₂⟩ := hothers pos₂ hs₂ hmatch₂
    obtain ⟨hm₂, he₂, -⟩ := hsame pos₂ hold₂ hne₂
    -- both searches stop at the same slot
    obtain rfl : pos₁ = pos₂ := by
      rcases before_or_eq pos₁ pos₂ with hb | hb | heq
      · have := hfirst₂ pos₁ hb hs₁'
        rw [hm₁, hmatch₁] at this
        cases this
      · have := hfirst₁ pos₂ hb hold₂
        rw [← hm₂, hmatch₂] at this
        cases this
      · exact heq
    refine ⟨_, k2, hrun', dirE', rfl, ?_, ?_⟩
    · rw [hino₂, he₁, hino₁]
    · rw [htype₂, he₁, htype₁]

theorem syncBlocks_room_runs {pDe : DirEntry} {more idx p : ℕ} (hk : K.sb.dirEntrySize = 24)
    (hl : Layout K.toPartition k.blockBitmap.btmpBytesLen) (hd : OnDisk k.disk inode)
    (hfree : 0 < (freeBits K.toPartition k.blockBitmap).card ∨ ∀ q ≤ p, inode.iSectors q ≠ 0) (hp : p < 12) (hidx : idx ≤ p)
    (hmore : more + idx = 140)
    (hroom : inode.iSectors p = 0 ∨ ∃ j < 21, (entryAt k.disk (inode.iSectors p * 512 + 24 * j)).fType = .unknown) (io : Buffer) :
    Runs (syncBlocks K pDe more idx inode (dirBlocks inode) io) k fun _ _ => True := by
  induction more generalizing idx io k with
  | zero => omega
  | succ more ih =>
    have hblk : dirBlocks inode idx = inode.iSectors idx := if_pos (by omega)
    unfold syncBlocks
    split_ifs with hz
    · rw [hblk] at hz
      have hfree := hfree.resolve_right fun hall => hall idx hidx hz
      refine Runs.bind (newDirBlock_direct_runs hl hfree (show idx < 12 by omega) _) ?_
      rintro ⟨ok, inode', blocks⟩ k₁ ⟨rfl, hon⟩
      refine Runs.bind (ideWrite_runs (sectorRange_one.mpr hon) _ k₁) ?_
      rintro _ k₂ -
      exact Runs.pure trivial
    · have hon : inode.iSectors idx ≤ maxLba := by
        have := hd idx (by omega)
        rwa [refAddr_block _ _ (by omega), blockAddr, if_pos (by omega)] at this
      rw [hblk] at hz ⊢
      refine Runs.bind ((ideRead_runs (sectorRange_one.mpr hon) io k).after fun b k' hr => ideRead_holds hr) ?_
      rintro b k₁ ⟨⟨-, hk₁⟩, -, -, -, hholds⟩
      cases hslot : firstSlot (dirEntrysPerSec K) (fun i => decide ((DirEntry.load b.bytes (24 * i)).fType = .unknown)) with
      | some j =>
        refine Runs.bind (ideWrite_runs (sectorRange_one.mpr hon) _ k₁) ?_
        rintro _ k₂ -
        exact Runs.pure trivial
      | none =>
        rw [dirEntrysPerSec, hk, firstSlot_none] at hslot
        have hne : idx ≠ p := by
          rintro rfl
          obtain ⟨j, hj, hfree'⟩ := hroom.resolve_left hz
          have := of_decide_eq_false (hslot j hj)
          rw [load_fType, hholds.entryAt hj] at this
          exact this hfree'
        exact ih (by rw [hk₁.blockBitmap]; exact hl) (by rw [hk₁.disk]; exact hd) (by rw [hk₁.blockBitmap]; exact hfree) (by omega)
          (by omega) (by rw [hk₁.disk]; exact hroom) b

theorem addEntry_found (hd : StoredDir K k inode) (hroom : DirectRoom k.disk inode) (hn : name ≠ []) (h0 : 0 ∉ name)
    (hlen : name.length ≤ 16) (hmiss : Missing K inode k name) (hno : iNo < 2 ^ 32) (ht : t = .regular ∨ t = .directory) {io : Buffer}
    {ok : Bool} (h : addEntry K inode name iNo t io k = .ok ((ok, inode'), k')) :
    ok = true ∧ (Finds K inode' k' name iNo t ↔ name.length < 16 ∨ iNo % 256 = 0) := by
  have hcap := hd.capacity
  unfold addEntry createDirEntry at h
  simp only [bind_ok, assert_ok, pure_ok] at h
  obtain ⟨_, _, ⟨_, _, ⟨-, rfl⟩, rfl, rfl⟩, h⟩ := h
  obtain ⟨hok, pos, hstored⟩ := syncDirEntry_stored hd.entrySize hd.layout hd.owns (by omega) hroom h
  refine ⟨hok, hstored.found hd hn h0 hlen hno ?_ hmiss⟩
  rcases ht with rfl | rfl <;> decide

theorem addEntry_runs (hd : StoredDir K k inode) (hroom : DirectRoom k.disk inode) (hlen : name.length ≤ 16)
    (hfree : 0 < (freeBits K.toPartition k.blockBitmap).card) (io : Buffer) :
    Runs (addEntry K inode name iNo t io) k fun _ _ => True := by
  obtain ⟨p, hp, hroom⟩ := hroom
  unfold addEntry createDirEntry
  refine Runs.bind (Runs.assert hlen (Runs.pure (Q := fun e k' => e = ⟨nameBytes name, iNo, t⟩ ∧ k' = k) ⟨rfl, rfl⟩)) ?_
  rintro _ _ ⟨rfl, rfl⟩
  unfold syncDirEntry
  refine Runs.assert (by rw [hd.entrySize]; exact hd.whole) ?_
  exact syncBlocks_room_runs hd.entrySize hd.layout hd.onDisk (.inl hfree) hp (Nat.zero_le _) rfl hroom io

theorem syncDirEntry_adds {e : Entry} (hd : OpenDir K k inode) (hroom : DirectRoom k.disk inode) (he : e.Creatable)
    (hmiss : Missing K inode k e.name) {io : Buffer} {ok : Bool} (h : syncDirEntry K inode e.dirEntry io k = .ok ((ok, inode'), k')) :
    ok = true ∧ (Added K e k inode k' inode' ↔ e.name.length < 16 ∨ e.iNo % 256 = 0) := by
  have hcap := hd.capacity
  obtain ⟨hok, pos, hstored⟩ := syncDirEntry_stored hd.entrySize hd.layout hd.owns (by omega) hroom h
  have htype : e.fType.toWord < 2 ^ 32 := by
    rcases he.type with ht | ht <;> rw [ht] <;> decide
  have hnew := hstored.found hd.toStoredDir he.named he.noNul he.fits he.iNo htype hmiss
  refine ⟨hok, fun hadded => hnew.mp hadded.new, fun hfits => ⟨?_, hnew.mpr hfits, ?_⟩⟩
  · intro name' iNo t hn h0 hlen hfinds
    by_cases heq : name' = e.name
    · -- the new name was not found before
      subst heq
      obtain ⟨_, _, hrun, rfl⟩ := hmiss
      obtain ⟨_, _, hrun', dirE, rfl, -⟩ := hfinds
      obtain ⟨hnone, -⟩ := ok_inj hrun hrun'
      cases hnone
    · refine hstored.keeps hd ?_ hn h0 hlen hfinds
      by_contra hmatch
      rw [Bool.not_eq_false] at hmatch
      exact heq (sameString_unique h0 he.noNul hmatch (sameString_stored he.fits hstored.here |>.mpr hfits))
  · conv_lhs => rw [hstored.fields]
    rw [hstored.fields]

theorem AddsEntry.cases {e : Entry} (hd : OpenDir K k inode) (he : e.Creatable) (hmiss : Missing K inode k e.name)
    (hadds : AddsEntry K k inode e) (hroom : DirectRoom k.disk inode) (hlong : ¬ (e.name.length < 16 ∨ e.iNo % 256 = 0)) :
    FirstMissing k.disk inode ∧ (freeBits K.toPartition k.blockBitmap).card = 0 := by
  -- the first block with room
  classical
  obtain ⟨hp, hroom'⟩ := Nat.find_spec hroom
  have hfirst : ∀ q < Nat.find hroom, _ := fun q hq => Nat.find_min hroom hq
  generalize Nat.find hroom = p at hp hroom' hfirst
  have hfull : ∀ q < p, inode.iSectors q ≠ 0 ∧ ∀ j < 21, (entryAt k.disk (inode.iSectors q * 512 + 24 * j)).fType ≠ .unknown := by
    intro q hq
    have := hfirst q hq
    push Not at this
    exact this (by omega)
  by_contra hno
  have hfree : 0 < (freeBits K.toPartition k.blockBitmap).card ∨ ∀ q ≤ p, inode.iSectors q ≠ 0 := by
    by_cases hzero : inode.iSectors p = 0
    · left
      by_contra hcard
      exact hno ⟨⟨p, hp, hzero, hfull⟩, by omega⟩
    · right
      intro q hq
      rcases Nat.lt_or_eq_of_le hq with hlt | rfl
      · exact (hfull q hlt).1
      · exact hzero
  obtain ⟨⟨ok, inode'⟩, k', hrun, -⟩ : Runs (syncDirEntry K inode e.dirEntry ⟨⟨0, .kernel⟩, 512, zeros⟩) k fun _ _ => True := by
    unfold syncDirEntry
    refine Runs.assert (by rw [hd.entrySize]; exact hd.whole) ?_
    exact syncBlocks_room_runs hd.entrySize hd.layout hd.onDisk hfree hp (Nat.zero_le _) rfl hroom' _
  obtain ⟨rfl, hiff⟩ := syncDirEntry_adds hd hroom he hmiss hrun
  exact hlong (hiff.mp (hadds _ _ _ hrun))

end

/-- `sync_dir_entry` adds an entry and keeps all others exactly if it finds room in the direct blocks and the name of the entry, as it
is stored, ends: below 16 characters, or with a zero in the lowest byte of the inode number behind it. Where the blocks that it needs are
not to be had it does not return true. -/
theorem sync_dir_entry_keeps (K : Kernel) (k : Kern) (inode : Inode) (h : OpenDir K k inode) (e : Entry) (he : e.Creatable)
    (hfresh : Missing K inode k e.name) :
    AddsEntry K k inode e ↔ DirectRoom k.disk inode ∧ (e.name.length < 16 ∨ e.iNo % 256 = 0) ∨
      FirstMissing k.disk inode ∧ (freeBits K.toPartition k.blockBitmap).card = 0 ∨
      ¬ DirectRoom k.disk inode ∧ (freeBits K.toPartition k.blockBitmap).card < 2 := by
  constructor
  · intro hadds
    by_cases hroom : DirectRoom k.disk inode
    · by_cases hfits : e.name.length < 16 ∨ e.iNo % 256 = 0
      · exact .inl ⟨hroom, hfits⟩
      · exact .inr (.inl (hadds.cases h he hfresh hroom hfits))
    · exact .inr (.inr ⟨hroom, (hadds.room h).resolve_left hroom⟩)
  · rintro hcase io inode' k' hrun
    rcases hcase with ⟨hroom, hfits⟩ | ⟨⟨p, hp, hzero, hpast⟩, hnone⟩ | ⟨hroom, hfew⟩
    · exact (syncDirEntry_adds h hroom he hfresh hrun).2.mpr hfits
    · obtain ⟨-, -, k₀, hk₀, hsync⟩ := syncDirEntry_ok h.entrySize h.layout.whole hrun
      rw [← hk₀.disk] at hpast
      rw [← hk₀.blockBitmap] at hnone
      cases hsync with
      | @slot q _ _ hq hj hb hfree hpast' _ =>
        rcases lt_trichotomy q p with hlt | rfl | hlt
        · exact absurd hfree ((hpast q hlt).2 _ hj)
        · exact absurd hzero hb
        · exact absurd hzero (hpast' p hlt)
      | block _ _ ha _ hr _ =>
        have := ha.one_free hr
        omega
      | table hfull => exact absurd hzero (hfull p hp).1
    · have hfull := directFull_iff.mpr hroom
      obtain ⟨-, -, k₀, hk₀, hsync⟩ := syncDirEntry_ok h.entrySize h.layout.whole hrun
      rw [← hk₀.disk] at hfull
      rw [← hk₀.blockBitmap] at hfew
      cases hsync with
      | slot hp hj _ hfree' _ => exact absurd hfree' ((hfull _ hp).2 _ hj)
      | block hp hb => exact absurd hb (hfull _ hp).1
      | table _ ha ha' _ hr hr' =>
        have := ha.two_free ha' hr hr'
        omega

theorem oneFile_missing {name : Name} (hn : name ≠ []) (h0 : 0 ∉ name) (hfresh : ∀ e ∈ oneFileEntries, e.name ≠ name) :
    Missing smallPartition.kernel (oneFile.inodes ⟨0, .kernel⟩) oneFile.kern name :=
  oneFile_openDir.missing (oneFile_tree.slots 0 rfl) hn h0 fun _ e he => hfresh e (oneFile_entries he)

theorem sync_dir_entry_keeps_one : AddsEntry smallPartition.kernel oneFile.kern (oneFile.inodes ⟨0, .kernel⟩) ⟨[103], 2, .regular⟩ := by
  apply (sync_dir_entry_keeps _ _ _ oneFile_openDir _ ⟨by decide, by decide, by decide, by decide, .inl rfl⟩
    (oneFile_missing (by decide) (by decide) (by decide))).mpr
  exact .inl ⟨⟨1, by decide, .inl rfl⟩, .inl (by decide)⟩

/-- After an entry was created and stored, in a directory with room in its direct blocks that did not have the name, a lookup finds it
exactly if the name is shorter than 16 characters or the lowest byte of the inode number is zero; with a free block the entry is stored. -/
theorem created_name_found (K : Kernel) (k : Kern) (inode : Inode) (hd : StoredDir K k inode) (hroom : DirectRoom k.disk inode)
    (name : Name) (hn : name ≠ []) (h0 : 0 ∉ name) (hlen : name.length ≤ 16) (hmiss : Missing K inode k name) (iNo : ℕ) (hno : iNo < 2 ^ 32)
    (t : FileType) (ht : t = .regular ∨ t = .directory) (io : Buffer) :
    (∀ ok inode' k', addEntry K inode name iNo t io k = .ok ((ok, inode'), k') →
      ok = true ∧ (Finds K inode' k' name iNo t ↔ name.length < 16 ∨ iNo % 256 = 0)) ∧
      (0 < (freeBits K.toPartition k.blockBitmap).card → Runs (addEntry K inode name iNo t io) k fun _ _ => True) := by
  refine ⟨?_, fun hfree => addEntry_runs hd hroom hlen hfree io⟩
  intro ok inode' k' hrun
  exact addEntry_found hd hroom hn h0 hlen hmiss hno ht hrun

theorem oneFile_room : DirectRoom oneFile.kern.disk (oneFile.inodes ⟨0, .kernel⟩) := ⟨1, by decide, .inl rfl⟩

theorem oneFile_free : 0 < (freeBits smallPartition oneFile.kern.blockBitmap).card :=
  Finset.card_pos.mpr ⟨3, mem_freeBits.mpr ⟨by decide, by decide, by decide⟩⟩

theorem created_name_found_g : ∃ inode k, addEntry smallPartition.kernel (oneFile.inodes ⟨0, .kernel⟩) [103] 2 .regular
      ⟨⟨0, .kernel⟩, 1024, zeros⟩ oneFile.kern = .ok ((true, inode), k) ∧ Finds smallPartition.kernel inode k [103] 2 .regular := by
  obtain ⟨hfound, hruns⟩ := created_name_found smallPartition.kernel oneFile.kern (oneFile.inodes ⟨0, .kernel⟩) oneFile_openDir.toStoredDir
    oneFile_room [103] (by decide) (by decide) (by decide) (oneFile_missing (by decide) (by decide) (by decide)) 2 (by decide) .regular
    (.inl rfl) ⟨⟨0, .kernel⟩, 1024, zeros⟩
  obtain ⟨⟨ok, inode⟩, k, hrun, -⟩ := hruns oneFile_free
  obtain ⟨rfl, hiff⟩ := hfound ok inode k hrun
  exact ⟨inode, k, hrun, hiff.mpr (.inl (by decide))⟩

/-- Sixteen times the letter `a`. -/
def longName : Name := List.replicate 16 97

/-- The entry of a file with a name of 16 characters and inode 2 is stored and not found. -/
theorem created_name_lost : ∃ inode k, addEntry smallPartition.kernel (oneFile.inodes ⟨0, .kernel⟩) longName 2 .regular
      ⟨⟨0, .kernel⟩, 1024, zeros⟩ oneFile.kern = .ok ((true, inode), k) ∧ ¬ Finds smallPartition.kernel inode k longName 2 .regular := by
  have hmiss := oneFile_missing (show longName ≠ [] by decide) (by decide) (by decide)
  obtain ⟨⟨ok, inode⟩, k, hrun, -⟩ := @addEntry_runs smallPartition.kernel _ _ longName 2 .regular oneFile_openDir.toStoredDir oneFile_room (by decide)
    oneFile_free ⟨⟨0, .kernel⟩, 1024, zeros⟩
  obtain ⟨rfl, hiff⟩ := addEntry_found oneFile_openDir.toStoredDir oneFile_room (by decide) (by decide) (by decide) hmiss (by decide) (.inl rfl) hrun
  refine ⟨inode, k, hrun, ?_⟩
  rw [hiff]
  decide

end ElephantOS
