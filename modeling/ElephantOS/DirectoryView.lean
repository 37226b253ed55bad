import ElephantOS.Directory

namespace ElephantOS

open ByteMemory HaltingState

def slotAddr (d : Memory) (inode : Inode) (pos : ℕ × ℕ) : ℕ := blockAddr d inode pos.1 * 512 + 24 * pos.2

/-- The block of the position is allocated. -/
def Slot (d : Memory) (inode : Inode) (pos : ℕ × ℕ) : Prop := pos.1 < 140 ∧ pos.2 < 21 ∧ blockAddr d inode pos.1 ≠ 0

instance (d : Memory) (inode : Inode) (pos : ℕ × ℕ) : Decidable (Slot d inode pos) :=
  inferInstanceAs (Decidable (_ ∧ _ ∧ _))

def slotMap (d : Memory) (inode : Inode) (pos : ℕ × ℕ) : Option Entry :=
  if Slot d inode pos ∧ (entryAt d (slotAddr d inode pos)).fType ≠ .unknown then
    some (entryAt d (slotAddr d inode pos))
  else none

def SlotsOk (d : Memory) (inode : Inode) : Prop := ∀ pos, Slot d inode pos →
  (entryAt d (slotAddr d inode pos)).name.length < 16 ∧
    ((entryAt d (slotAddr d inode pos)).fType = .unknown ↔ (entryAt d (slotAddr d inode pos)).name = [])

theorem slotMap_eq_some {d : Memory} {inode : Inode} {pos : ℕ × ℕ} {e : Entry} : slotMap d inode pos = some e ↔
    Slot d inode pos ∧ e.fType ≠ .unknown ∧ entryAt d (slotAddr d inode pos) = e := by
  unfold slotMap
  split_ifs with h
  · rw [Option.some.injEq]
    constructor
    · rintro rfl
      exact ⟨h.1, h.2, rfl⟩
    · exact fun h' => h'.2.2
  · constructor
    · intro h'
      simp at h'
    · rintro ⟨h1, h2, rfl⟩
      exact absurd ⟨h1, h2⟩ h

theorem slotMap_eq_none {d : Memory} {inode : Inode} {pos : ℕ × ℕ} : slotMap d inode pos = none ↔
    (Slot d inode pos → (entryAt d (slotAddr d inode pos)).fType = .unknown) := by
  unfold slotMap
  split_ifs with h
  · simp [h.1, h.2]
  · simpa using h

theorem firstSlot_some {n i : ℕ} {c : ℕ → Bool} : firstSlot n c = some i ↔ i < n ∧ c i = true ∧ ∀ j < i, c j = false := by
  rw [firstSlot, List.find?_range_eq_some]
  simp [and_left_comm]

theorem firstSlot_none {n : ℕ} {c : ℕ → Bool} : firstSlot n c = none ↔ ∀ i < n, c i = false := by
  simp [firstSlot, List.find?_eq_none]

theorem allDirBlocks_ok {inode : Inode} {b : ℕ → ℕ} {k k' : Kern} (h : allDirBlocks inode k = .ok (b, k')) :
    k' = k ∧ ∀ i < 140, b i = blockAddr k.disk inode i := by
  unfold allDirBlocks at h
  by_cases ht : inode.iSectors 12 = 0
  · rw [if_neg (not_not.mpr ht), pure_ok] at h
    obtain ⟨rfl, rfl⟩ := h
    refine ⟨rfl, fun i _ => ?_⟩
    simp [dirBlocks, blockAddr, ht]
  · rw [if_pos ht, readTable_ok] at h
    obtain ⟨-, rfl, rfl⟩ := h
    refine ⟨rfl, fun i hi => ?_⟩
    by_cases h12 : i < 12
    · simp [dirBlocks, blockAddr, h12]
    · simp [blockAddr, h12, ht, hi, Nat.not_lt.mp h12]

def Holds (bytes d : Memory) (lba : ℕ) : Prop := ∀ i < 512, bytes i = d (lba * 512 + i)

theorem Holds.entryAt {bytes d : Memory} {lba j : ℕ} (h : Holds bytes d lba) (hj : j < 21) :
    entryAt bytes (24 * j) = ElephantOS.entryAt d (lba * 512 + 24 * j) := by
  apply entryAt_congr
  intro i hi
  rw [h _ (by omega), Nat.add_assoc]

theorem ideRead_holds {lba : ℕ} {buf b : Buffer} {k k' : Kern} (h : ideRead lba buf 1 k = .ok (b, k')) :
    HeapOnly k k' ∧ b.len = buf.len ∧ b.ptr = buf.ptr ∧ Holds b.bytes k.disk lba := by
  obtain ⟨-, hk, rfl⟩ := ideRead_ok h
  refine ⟨hk, rfl, rfl, fun i hi => ?_⟩
  have := @blit_inside buf.bytes (slice k.disk (lba * 512)) 0 _ _ (show i < 1 * 512 by omega)
  rwa [Nat.zero_add] at this

theorem load_fType (m : Memory) (a : ℕ) : (DirEntry.load m a).fType = (entryAt m a).fType := rfl

theorem load_iNo (m : Memory) (a : ℕ) : (DirEntry.load m a).iNo = (entryAt m a).iNo := rfl

def Before (pos pos' : ℕ × ℕ) : Prop := pos.1 < pos'.1 ∨ pos.1 = pos'.1 ∧ pos.2 < pos'.2

structure FirstAt (M : ℕ × ℕ → Option Entry) (name : Name) (pos : ℕ × ℕ) (e : Entry) : Prop where
  here : M pos = some e
  named : e.name = name
  first : ∀ pos', Before pos' pos → ∀ e', M pos' = some e' → e'.name ≠ name

theorem before_or_eq (pos pos' : ℕ × ℕ) : Before pos pos' ∨ Before pos' pos ∨ pos = pos' := by
  obtain ⟨p, j⟩ := pos
  obtain ⟨p', j'⟩ := pos'
  simp only [Before, Prod.mk.injEq]
  omega

theorem FirstAt.unique {M : ℕ × ℕ → Option Entry} {name : Name} {pos pos' : ℕ × ℕ} {e e' : Entry}
    (h : FirstAt M name pos e) (h' : FirstAt M name pos' e') : e = e' := by
  rcases before_or_eq pos pos' with hb | hb | rfl
  · exact absurd h.named (h'.first pos hb e h.here)
  · exact absurd h'.named (h.first pos' hb e' h'.here)
  · exact Option.some.inj (h.here.symm.trans h'.here)

def Lookup (M : ℕ × ℕ → Option Entry) (name : Name) : Option DirEntry → Prop
  | none => ∀ pos e, M pos = some e → e.name ≠ name
  | some dirE => ∃ pos e, FirstAt M name pos e ∧ dirE.iNo = e.iNo ∧ dirE.fType = e.fType

section

variable {K : Kernel} {inode : Inode} {name : Name} {blocks : ℕ → ℕ}

theorem sameString_slot {bytes d : Memory} {p j : ℕ} (hs : SlotsOk d inode) (h0 : 0 ∉ name) (hn : name ≠ [])
    (hp : p < 140) (hb : blockAddr d inode p ≠ 0) (hbytes : Holds bytes d (blockAddr d inode p)) (hj : j < 21) :
    sameString bytes (24 * j) name = true ↔ ∃ e, slotMap d inode (p, j) = some e ∧ e.name = name := by
  have hslot : Slot d inode (p, j) := ⟨hp, hj, hb⟩
  obtain ⟨hlen, hfree⟩ := hs _ hslot
  have he := hbytes.entryAt hj
  have hlen' : (nameFrom bytes maxFileNameLen (24 * j)).length < maxFileNameLen := by
    change (entryAt bytes (24 * j)).name.length < 16
    rw [he]
    exact hlen
  rw [sameString_iff h0 hlen']
  change (entryAt bytes (24 * j)).name = name ↔ _
  rw [he]
  constructor
  · intro hname
    refine ⟨_, slotMap_eq_some.mpr ⟨hslot, fun hu => hn ?_, rfl⟩, hname⟩
    rw [← hname]
    exact hfree.mp hu
  · rintro ⟨e, hM, hname⟩
    obtain ⟨-, -, rfl⟩ := slotMap_eq_some.mp hM
    exact hname

def FirstMatch (d : Memory) (inode : Inode) (c : ℕ × ℕ → Bool) : Option DirEntry → Prop
  | none => ∀ pos, Slot d inode pos → c pos = false
  | some dirE => ∃ pos, Slot d inode pos ∧ c pos = true ∧ (∀ pos', Before pos' pos → Slot d inode pos' → c pos' = false) ∧
      dirE.iNo = (entryAt d (slotAddr d inode pos)).iNo ∧ dirE.fType = (entryAt d (slotAddr d inode pos)).fType

def Compares (d : Memory) (inode : Inode) (name : Name) (c : ℕ × ℕ → Bool) : Prop := ∀ p < 140, blockAddr d inode p ≠ 0 →
  ∀ bytes, Holds bytes d (blockAddr d inode p) → ∀ j < 21, sameString bytes (24 * j) name = c (p, j)

theorem searchBlocks_first {c : ℕ × ℕ → Bool} {more idx : ℕ} {buf : Buffer} {r : Option DirEntry} {k k' : Kern}
    (hk : K.sb.dirEntrySize = 24) (hc : Compares k.disk inode name c)
    (hblocks : ∀ i < 140, blocks i = blockAddr k.disk inode i) (hmore : more + idx = 140)
    (hbefore : ∀ pos, pos.1 < idx → Slot k.disk inode pos → c pos = false)
    (h : searchBlocks K blocks name more idx buf k = .ok (r, k')) : HeapOnly k k' ∧ FirstMatch k.disk inode c r := by
  induction more generalizing idx buf k with
  | zero =>
    simp only [searchBlocks, pure_ok] at h
    obtain ⟨rfl, rfl⟩ := h
    refine ⟨HeapOnly.refl _, fun pos hs => hbefore pos ?_ hs⟩
    have := hs.1
    omega
  | succ more ih =>
    have hidx : idx < 140 := by omega
    unfold searchBlocks at h
    by_cases hz : blocks idx = 0
    · rw [if_pos hz] at h
      refine ih hc hblocks (by omega) (fun pos hp hs => ?_) h
      by_cases heq : pos.1 = idx
      · have := hs.2.2
        rw [heq, ← hblocks idx hidx] at this
        exact absurd hz this
      · exact hbefore pos (by omega) hs
    · rw [if_neg hz, bind_ok] at h
      obtain ⟨b, k1, hr, h⟩ := h
      obtain ⟨hk1, -, -, hholds⟩ := ideRead_holds hr
      rw [hblocks idx hidx] at hz hholds
      have hslots : ∀ j < 21, sameString b.bytes (24 * j) name = c (idx, j) := hc idx hidx hz b.bytes hholds
      have hper : dirEntrysPerSec K = 21 := by rw [dirEntrysPerSec, hk]
      rw [hper] at h
      cases hf : firstSlot 21 fun i => sameString b.bytes (24 * i) name with
      | some j =>
        obtain ⟨hj, hmatch, hfirst⟩ := firstSlot_some.mp hf
        simp only [hf, pure_ok] at h
        obtain ⟨rfl, rfl⟩ := h
        have hent := hholds.entryAt hj
        refine ⟨hk1, (idx, j), ⟨hidx, hj, hz⟩, (hslots j hj).symm.trans hmatch, ?_, by rw [load_iNo, hent]; rfl,
          by rw [load_fType, hent]; rfl⟩
        rintro ⟨p, i⟩ hb hs
        rcases hb with hb | ⟨rfl, hb⟩
        · exact hbefore _ hb hs
        · rw [← hslots i hs.2.1]
          exact hfirst i hb
      | none =>
        simp only [hf] at h
        have hnone := firstSlot_none.mp hf
        rw [← hk1.disk] at hc hblocks
        have hbefore' : ∀ pos, pos.1 < idx + 1 → Slot k1.disk inode pos → c pos = false := by
          rintro ⟨p, j⟩ hp hs
          rw [hk1.disk] at hs
          by_cases heq : p = idx
          · subst heq
            rw [← hslots j hs.2.1]
            exact hnone j hs.2.1
          · exact hbefore _ (by simp only at hp ⊢; omega) hs
        obtain ⟨hk', hl⟩ := ih hc hblocks (by omega) hbefore' h
        rw [hk1.disk] at hl
        exact ⟨hk1.trans hk', hl⟩

theorem searchDirEntry_first {c : ℕ × ℕ → Bool} {r : Option DirEntry} {k k' : Kern} (hk : K.sb.dirEntrySize = 24) (hp : k.Plenty)
    (hc : Compares k.disk inode name c) (h : searchDirEntry K inode name k = .ok (r, k')) :
    HeapOnly k k' ∧ FirstMatch k.disk inode c r := by
  unfold searchDirEntry at h
  rw [bind_ok] at h
  obtain ⟨_, k1, hm1, h⟩ := h
  obtain ⟨_, _, hm1', rfl, hk1⟩ := sysMalloc_runs (48 + 512) hp
  obtain ⟨rfl, rfl⟩ := ok_inj hm1 hm1'
  simp only [bind_ok] at h
  obtain ⟨blocks, k2, hb, buf, k3, hm2, h⟩ := h
  obtain ⟨rfl, hblocks⟩ := allDirBlocks_ok hb
  obtain ⟨hk3, -, -⟩ := sysMalloc_ok hm2
  cases buf with
  | none => simp at h
  | some buf =>
    simp only [bind_ok, pure_ok] at h
    obtain ⟨e, k4, hsearch, _, k5, hf1, _, k6, hf2, rfl, rfl⟩ := h
    have hk13 := hk1.trans hk3
    rw [← hk13.disk] at hc
    rw [← hk3.disk] at hblocks
    obtain ⟨hk4, hl⟩ := searchBlocks_first hk hc hblocks rfl (fun _ hlt => absurd hlt (Nat.not_lt_zero _)) hsearch
    rw [hk13.disk] at hl
    exact ⟨((hk13.trans hk4).trans (sysFree_ok hf1)).trans (sysFree_ok hf2), hl⟩

def named (d : Memory) (inode : Inode) (name : Name) (pos : ℕ × ℕ) : Bool := (slotMap d inode pos).any (·.name = name)

theorem named_iff {d : Memory} {pos : ℕ × ℕ} : named d inode name pos = true ↔ ∃ e, slotMap d inode pos = some e ∧ e.name = name := by
  unfold named
  cases slotMap d inode pos <;> simp

theorem FirstMatch.lookup {d : Memory} {r : Option DirEntry} (h : FirstMatch d inode (named d inode name) r) :
    Lookup (slotMap d inode) name r := by
  cases r with
  | none =>
    intro pos e hM hname
    have := h pos (slotMap_eq_some.mp hM).1
    rw [named_iff.mpr ⟨e, hM, hname⟩] at this
    cases this
  | some dirE =>
    obtain ⟨pos, -, hmatch, hfirst, hino, htype⟩ := h
    obtain ⟨e, hM, hname⟩ := named_iff.mp hmatch
    obtain ⟨-, -, hent⟩ := slotMap_eq_some.mp hM
    refine ⟨pos, e, ⟨hM, hname, ?_⟩, by rw [hino, hent], by rw [htype, hent]⟩
    intro pos' hb e' hM' hname'
    have := hfirst pos' hb (slotMap_eq_some.mp hM').1
    rw [named_iff.mpr ⟨e', hM', hname'⟩] at this
    cases this

theorem searchDirEntry_ok {r : Option DirEntry} {k k' : Kern} (hk : K.sb.dirEntrySize = 24) (hp : k.Plenty)
    (hs : SlotsOk k.disk inode) (h0 : 0 ∉ name) (hn : name ≠ [])
    (h : searchDirEntry K inode name k = .ok (r, k')) : HeapOnly k k' ∧ Lookup (slotMap k.disk inode) name r := by
  have hc : Compares k.disk inode name (named k.disk inode name) := by
    intro p hp hb bytes hbytes j hj
    rw [Bool.eq_iff_iff, sameString_slot hs h0 hn hp hb hbytes hj, named_iff]
  obtain ⟨hk', hfirst⟩ := searchDirEntry_first hk hp hc h
  exact ⟨hk', hfirst.lookup⟩

theorem searchBlocks_runs {more idx : ℕ} (buf : Buffer) (k : Kern) (hdisk : ∀ i < 140, blocks i ≤ maxLba)
    (hmore : more + idx = 140) : Runs (searchBlocks K blocks name more idx buf) k fun _ k' => HeapOnly k k' := by
  induction more generalizing idx buf k with
  | zero => exact Runs.pure (HeapOnly.refl _)
  | succ more ih =>
    unfold searchBlocks
    split_ifs with hz
    · exact ih buf k (by omega)
    · refine Runs.bind (ideRead_runs (sectorRange_one.mpr (hdisk idx (by omega))) buf k) ?_
      rintro b k1 ⟨-, hk1⟩
      split
      · exact Runs.pure hk1
      · exact (ih _ k1 (by omega)).mono fun _ _ h => hk1.trans h

theorem allDirBlocks_runs {k : Kern} (hd : OnDisk k.disk inode) :
    Runs (allDirBlocks inode) k fun b k' => k' = k ∧ ∀ i < 140, b i = blockAddr k.disk inode i := by
  have hrun : ∃ b, allDirBlocks inode k = .ok (b, k) := by
    unfold allDirBlocks
    split_ifs with ht
    · have h12 := hd 140 (by omega)
      rw [refAddr_table] at h12
      exact ⟨_, (readTable_ok _ _ _ _ _).mpr ⟨sectorRange_one.mpr h12, rfl, rfl⟩⟩
    · exact ⟨_, rfl⟩
  obtain ⟨b, hb⟩ := hrun
  exact ⟨b, k, hb, allDirBlocks_ok hb⟩

theorem searchDirEntry_runs {k : Kern} (name : Name) (hp : k.Plenty) (hd : OnDisk k.disk inode) :
    Runs (searchDirEntry K inode name) k fun _ _ => True := by
  unfold searchDirEntry
  refine Runs.bind (sysMalloc_runs (48 + 512) hp) ?_
  rintro _ k1 ⟨rfl, h1⟩
  rw [← h1.disk] at hd
  refine Runs.bind (allDirBlocks_runs hd) ?_
  rintro b _ ⟨rfl, hb⟩
  refine Runs.bind (sysMalloc_runs 512 (h1.plenty hp)) ?_
  rintro _ k2 ⟨rfl, h2⟩
  have hblocks : ∀ i < 140, b i ≤ maxLba := by
    intro i hi
    have := hd i (by omega)
    rw [refAddr_block _ _ hi] at this
    rw [hb i hi]
    exact this
  refine Runs.bind (searchBlocks_runs _ k2 hblocks rfl) fun e k3 h3 => ?_
  refine Runs.bind (sysFree_runs (by rw [h3.pool, h2.pool])) fun _ k4 h4 => ?_
  refine Runs.bind (sysFree_runs (by rw [h4.pool, h3.pool, h2.pool, h1.pool])) fun _ _ _ => Runs.pure trivial

end

end ElephantOS
