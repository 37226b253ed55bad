import ElephantOS.Blocks
import ElephantOS.InodeCache

namespace ElephantOS

open ByteMemory HaltingState

section

variable (K : Kernel)

def firstBlock (inode : Inode) : KernM (Bool × Inode) := do
  if inode.iSectors 0 = 0 then
    let some blockLba ← blockBitmapAlloc K | return (false, inode)
    let blockBitmapIdx := blockLba - K.sb.dataStartLba
    assert (blockBitmapIdx ≠ 0)
    bitmapSync K blockBitmapIdx .blockBitmap
    return (true, inode.setSector 0 blockLba)
  else return (true, inode)

def growLoop (direct : ℕ → Bool) : ℕ → ℕ → Inode → (ℕ → ℕ) → KernM (Bool × Inode × (ℕ → ℕ))
  | 0, _, inode, allBlocks => return (true, inode, allBlocks)
  | more + 1, blockIdx, inode, allBlocks => do
    let some blockLba ← blockBitmapAlloc K | return (false, inode, allBlocks)
    assert (direct blockIdx = true → inode.iSectors blockIdx = 0)
    let inode := if direct blockIdx then inode.setSector blockIdx blockLba else inode
    bitmapSync K (blockLba - K.sb.dataStartLba) .blockBitmap
    growLoop direct more (blockIdx + 1) inode (Function.update allBlocks blockIdx blockLba)

def collectBlocks (has will : ℕ) (inode : Inode) : KernM (Bool × Inode × (ℕ → ℕ)) := do
  let last := Function.update (fun _ => 0) (has - 1) (inode.iSectors (has - 1))
  if will = has then
    if has ≤ 12 then return (true, inode, last)
    else
      assert (inode.iSectors 12 ≠ 0)
      let allBlocks ← readTable (inode.iSectors 12) (fun _ => 0)
      return (true, inode, allBlocks)
  else if will ≤ 12 then
    bound (has - 1 < 13)
    assert (inode.iSectors (has - 1) ≠ 0)
    growLoop K (fun _ => true) (will - has) has inode last
  else if has ≤ 12 then
    let some indirectBlockTable ← blockBitmapAlloc K | return (false, inode, last)
    assert (inode.iSectors 12 = 0)
    let inode := inode.setSector 12 indirectBlockTable
    let (ok, inode, allBlocks) ← growLoop K (fun i => decide (i < 12)) (will - has) has inode last
    if ok then
      writeTable indirectBlockTable allBlocks
      return (true, inode, allBlocks)
    else return (false, inode, allBlocks)
  else
    assert (inode.iSectors 12 ≠ 0)
    let allBlocks ← readTable (inode.iSectors 12) (fun _ => 0)
    let (ok, inode, allBlocks) ← growLoop K (fun _ => false) (will - has) has inode allBlocks
    if ok then
      writeTable (inode.iSectors 12) allBlocks
      return (true, inode, allBlocks)
    else return (false, inode, allBlocks)

end

def placed (array : ℕ → ℕ) (idx : ℕ) (new : List ℕ) (p : ℕ) : ℕ :=
  if idx ≤ p ∧ p < idx + new.length then new.getD (p - idx) 0 else array p

theorem placed_nil (array : ℕ → ℕ) (idx : ℕ) : placed array idx [] = array := by
  funext p
  have : ¬ (idx ≤ p ∧ p < idx + 0) := by omega
  simp only [placed, List.length_nil, this, if_false]

theorem placed_cons (array : ℕ → ℕ) (idx lba : ℕ) (new : List ℕ) :
    placed (Function.update array idx lba) (idx + 1) new = placed array idx (lba :: new) := by
  funext p
  unfold placed
  by_cases hp : p = idx
  · subst hp
    have h1 : ¬ (p + 1 ≤ p ∧ p < p + 1 + new.length) := by omega
    have h2 : p ≤ p ∧ p < p + (lba :: new).length := by simp
    simp only [h1, h2, and_self, if_true, if_false, Function.update_self, Nat.sub_self, List.getD_cons_zero]
  · by_cases hr : idx + 1 ≤ p ∧ p < idx + 1 + new.length
    · have h2 : idx ≤ p ∧ p < idx + (lba :: new).length := by simp only [List.length_cons]; omega
      obtain ⟨j, rfl⟩ : ∃ j, p = idx + 1 + j := ⟨p - (idx + 1), by omega⟩
      have h3 : idx + 1 + j - idx = j + 1 := by omega
      simp only [hr, h2, and_self, if_true, h3, List.getD_cons_succ, Nat.add_sub_cancel_left]
    · have h2 : ¬ (idx ≤ p ∧ p < idx + (lba :: new).length) := by simp only [List.length_cons]; omega
      simp only [hr, h2, if_false, Function.update_of_ne hp]

theorem placed_outside {array : ℕ → ℕ} {idx p : ℕ} {new : List ℕ} (h : p < idx ∨ idx + new.length ≤ p) :
    placed array idx new p = array p := by
  have : ¬ (idx ≤ p ∧ p < idx + new.length) := by omega
  simp only [placed, this, if_false]

theorem placed_mem {array : ℕ → ℕ} {idx p : ℕ} {new : List ℕ} (h : idx ≤ p) (h' : p < idx + new.length) :
    placed array idx new p ∈ new := by
  simp only [placed, h, h', and_self, if_true]
  rw [← List.getElem_eq_getD (h := by omega)]
  exact List.getElem_mem _

theorem placed_inj {array : ℕ → ℕ} {idx p q : ℕ} {new : List ℕ} (hn : new.Nodup) (hp : idx ≤ p) (hp' : p < idx + new.length)
    (hq : idx ≤ q) (hq' : q < idx + new.length) (h : placed array idx new p = placed array idx new q) : p = q := by
  simp only [placed, hp, hp', hq, hq', and_self, if_true] at h
  rw [← List.getElem_eq_getD (h := by omega), ← List.getElem_eq_getD (h := by omega)] at h
  have := (List.Nodup.getElem_inj_iff hn).mp h
  omega

def Inode.grown (inode : Inode) (direct : ℕ → Bool) (idx : ℕ) (new : List ℕ) : Inode :=
  { inode with iSectors := fun p => if direct p then placed inode.iSectors idx new p else inode.iSectors p }

theorem Inode.grown_cons {inode : Inode} {direct : ℕ → Bool} {idx lba : ℕ} {new : List ℕ}
    (hd : direct idx = true → idx < 13) :
    (if direct idx then inode.setSector idx lba else inode).grown direct (idx + 1) new =
      inode.grown direct idx (lba :: new) := by
  cases hdir : direct idx with
  | false =>
    simp only [Bool.false_eq_true, if_false, Inode.grown, Inode.mk.injEq, true_and, and_true]
    funext p
    by_cases hp : direct p = true
    · have hne : p ≠ idx := by rintro rfl; simp [hdir] at hp
      rw [if_pos hp, if_pos hp, ← placed_cons]
      simp only [placed, Function.update_of_ne hne]
    · rw [if_neg hp, if_neg hp]
  | true =>
    simp only [if_true, Inode.setSector, hd hdir, Inode.grown, Inode.mk.injEq, true_and, and_true]
    funext p
    by_cases hp : direct p = true
    · rw [if_pos hp, if_pos hp, placed_cons]
    · have hne : p ≠ idx := by rintro rfl; exact hp hdir
      rw [if_neg hp, if_neg hp, Function.update_of_ne hne]

theorem growLoop_ok {K : Kernel} {direct : ℕ → Bool} {more idx : ℕ} {inode inode' : Inode} {all all' : ℕ → ℕ} {ok : Bool}
    {k k' : Kern} (hl : k.blockBitmap.btmpBytesLen % 512 = 0)
    (hd : ∀ p, direct p = true → idx ≤ p → p < idx + more → p < 13)
    (h : growLoop K direct more idx inode all k = .ok ((ok, inode', all'), k')) :
    ok = true ∧ ∃ new, new.length = more ∧ Allocated K.toPartition new k k' ∧
      (∀ lba ∈ new, SyncedAt K.toPartition k' ((lba - K.sb.dataStartLba) / 4096)) ∧
      (∀ j, SyncedAt K.toPartition k j → SyncedAt K.toPartition k' j) ∧
      (∀ lba ∈ new.head?, ∀ i < lba - K.sb.dataStartLba, k.blockBitmap.scanTest i = true) ∧
      inode' = inode.grown direct idx new ∧ all' = placed all idx new := by
  induction more generalizing idx inode all k with
  | zero =>
    simp only [growLoop, pure_ok, Prod.mk.injEq] at h
    obtain ⟨⟨rfl, rfl, rfl⟩, rfl⟩ := h
    refine ⟨rfl, [], rfl, Allocated.refl _ _, by simp, fun _ h => h, by simp, ?_, (placed_nil _ _).symm⟩
    simp only [Inode.grown, placed_nil, ite_self]
  | succ more ih =>
    simp only [growLoop, bind_ok] at h
    obtain ⟨r, k1, ha, h⟩ := h
    obtain ⟨lba, rfl, hlba, hfirst⟩ := blockBitmapAlloc_allocated ha
    simp only [bind_ok, assert_ok] at h
    obtain ⟨_, _, ⟨-, rfl⟩, _, k2, hs, h⟩ := h
    obtain ⟨hall, hsec, hkeep⟩ := hlba.synced hl hs
    obtain ⟨rfl, new, rfl, hnew, hnsync, hnkeep, -, rfl, rfl⟩ := ih (by rw [hall.len]; exact hl)
      (fun p h1 h2 h3 => hd p h1 (by omega) (by omega)) h
    refine ⟨rfl, lba :: new, rfl, hall.append hnew, ?_, fun j hj => hnkeep j (hkeep j hj), by simpa using hfirst, ?_,
      placed_cons _ _ _ _⟩
    · intro l hl
      rcases List.mem_cons.mp hl with rfl | hl
      · exact hnkeep _ hsec
      · exact hnsync l hl
    · exact Inode.grown_cons fun hdir => hd idx hdir (le_refl _) (by omega)

theorem placed_getElem {array : ℕ → ℕ} {idx : ℕ} {new : List ℕ} {lba : ℕ} (h : lba ∈ new) :
    ∃ p, idx ≤ p ∧ p < idx + new.length ∧ placed array idx new p = lba := by
  obtain ⟨j, hj, rfl⟩ := List.getElem_of_mem h
  refine ⟨idx + j, by omega, by omega, ?_⟩
  have h1 : idx ≤ idx + j ∧ idx + j < idx + new.length := by omega
  simp only [placed, h1, and_self, if_true, Nat.add_sub_cancel_left, List.getElem_eq_getD 0]

structure Placed (part : Partition) (has : ℕ) (new table : List ℕ) (k : Kern) (inode : Inode) (k' : Kern)
    (inode' : Inode) : Prop where
  len : k'.blockBitmap.btmpBytesLen = k.blockBitmap.btmpBytesLen
  fresh : ∀ lba ∈ table ++ new, FreeBlock part k lba
  nodup : (table ++ new).Nodup
  bits : ∀ i, k'.blockBitmap.scanTest i = (k.blockBitmap.scanTest i || decide (part.sb.dataStartLba + i ∈ table ++ new))
  room : has + new.length ≤ 140
  empty : ∀ p, has ≤ p → p < has + new.length → blockAddr k.disk inode p = 0
  addr : ∀ p < 140, blockAddr k'.disk inode' p = placed (blockAddr k.disk inode) has new p
  table : (table = [] ∧ inode'.iSectors 12 = inode.iSectors 12) ∨
    (inode.iSectors 12 = 0 ∧ table = [inode'.iSectors 12])

section Placed

variable {part : Partition} {has : ℕ} {new table : List ℕ} {k k' : Kern} {inode inode' : Inode}

theorem Placed.new_at (h : Placed part has new table k inode k' inode') {p : ℕ} (hp : p < 141)
    (h0 : refAddr k.disk inode p = 0) (hn : refAddr k'.disk inode' p ≠ 0) :
    (has ≤ p ∧ p < has + new.length ∧ refAddr k'.disk inode' p = placed (blockAddr k.disk inode) has new p) ∨
      (p = 140 ∧ table = [refAddr k'.disk inode' p]) := by
  by_cases hp' : p = 140
  · right
    simp only [refAddr, hp', if_true] at h0 hn ⊢
    rcases h.table with ⟨-, he⟩ | ⟨-, ht⟩
    · exact absurd (he.trans h0) hn
    · exact ⟨trivial, ht⟩
  · left
    simp only [refAddr, hp', if_false] at h0 hn ⊢
    rw [h.addr p (by omega)] at hn ⊢
    by_contra hout
    rw [placed_outside (by omega)] at hn
    exact hn h0

theorem Placed.mem (h : Placed part has new table k inode k' inode') {p : ℕ} (hp : p < 141)
    (h0 : refAddr k.disk inode p = 0) (hn : refAddr k'.disk inode' p ≠ 0) : refAddr k'.disk inode' p ∈ table ++ new := by
  rcases h.new_at hp h0 hn with ⟨h1, h2, he⟩ | ⟨-, ht⟩
  · rw [he]
    exact List.mem_append_right _ (placed_mem h1 h2)
  · rw [ht]
    simp

theorem Placed.grown (hd : 0 < part.sb.dataStartLba) (h : Placed part has new table k inode k' inode') :
    Grown part k inode k' inode' where
  len := h.len
  keep p hp hn := by
    by_cases hp' : p = 140
    · simp only [refAddr, hp', if_true] at hn ⊢
      exact (h.table.resolve_right fun ht => hn ht.1).2
    · simp only [refAddr, hp', if_false] at hn ⊢
      rw [h.addr p (by omega)]
      apply placed_outside
      by_contra hin
      exact hn (h.empty p (by omega) (by omega))
  fresh p hp h0 hn := h.fresh _ (h.mem hp h0 hn)
  inj p hp q hq hp0 hq0 hn he := by
    have hnd := List.nodup_append.mp h.nodup
    rcases h.new_at hp hp0 hn with ⟨p1, p2, hpe⟩ | ⟨rfl, hpt⟩ <;>
      rcases h.new_at hq hq0 (he ▸ hn) with ⟨q1, q2, hqe⟩ | ⟨rfl, hqt⟩
    · rw [hpe, hqe] at he
      exact placed_inj hnd.2.1 p1 p2 q1 q2 he
    · rw [hpe] at he
      exact absurd he.symm (hnd.2.2 _ (by rw [hqt]; simp) _ (placed_mem p1 p2))
    · rw [hqe] at he
      exact absurd he (hnd.2.2 _ (by rw [hpt]; simp) _ (placed_mem q1 q2))
    · rfl
  bits i := by
    rw [h.bits, Bool.or_eq_true, decide_eq_true_eq]
    constructor
    · rintro (hi | hm)
      · exact .inl hi
      · right
        rcases List.mem_append.mp hm with hm | hm
        · rcases h.table with ⟨ht, -⟩ | ⟨h0, ht⟩
          · simp [ht] at hm
          · rw [ht, List.mem_singleton] at hm
            refine ⟨140, by omega, ?_, ?_, ?_⟩ <;> simp only [refAddr, if_true] <;> omega
        · obtain ⟨p, p1, p2, he⟩ := @placed_getElem (blockAddr k.disk inode) has _ _ hm
          have hroom := h.room
          have hp' : p ≠ 140 := by omega
          have ha := h.addr p (by omega)
          refine ⟨p, by omega, ?_, ?_, ?_⟩ <;> simp only [refAddr, hp', if_false]
          · exact h.empty p p1 p2
          · omega
          · rw [ha, he]
    · rintro (hi | ⟨p, hp, h0, hn, he⟩)
      · exact .inl hi
      · rw [← he]
        exact .inr (h.mem hp h0 hn)

end Placed

theorem placed_congr {array array' : ℕ → ℕ} {idx p : ℕ} {new : List ℕ} (h : p < idx ∨ idx + new.length ≤ p → array p = array' p) :
    placed array idx new p = placed array' idx new p := by
  by_cases hin : idx ≤ p ∧ p < idx + new.length
  · simp only [placed, hin, and_self, if_true]
  · rw [placed_outside (by omega), placed_outside (by omega)]
    exact h (by omega)

structure HasBlocks (d : Memory) (inode : Inode) (n : ℕ) : Prop where
  block : ∀ p < 140, blockAddr d inode p ≠ 0 ↔ p < n
  table : inode.iSectors 12 ≠ 0 ↔ 12 < n

theorem Placed.hasBlocks {part : Partition} {has will : ℕ} {new table : List ℕ} {k k' : Kern} {inode inode' : Inode}
    (hd : 0 < part.sb.dataStartLba) (h : Placed part has new table k inode k' inode') (hw : has + new.length = will)
    (hb : HasBlocks k.disk inode has) (ht : table = [] → (12 < has ↔ 12 < will)) (ht' : table ≠ [] → 12 < will) :
    HasBlocks k'.disk inode' will where
  block p hp := by
    rw [h.addr p hp]
    by_cases hin : has ≤ p ∧ p < has + new.length
    · have hf := h.fresh _ (List.mem_append_right _ (@placed_mem (blockAddr k.disk inode) _ _ _ hin.1 hin.2))
      have h1 := hf.1
      constructor <;> intro <;> omega
    · rw [placed_outside (by omega), hb.block p hp]
      omega
  table := by
    rcases h.table with ⟨hn, he⟩ | ⟨-, he⟩
    · rw [he, hb.table, ht hn]
    · have hf := h.fresh (inode'.iSectors 12) (by rw [he]; simp)
      have h1 := hf.1
      have h2 := ht' (by rw [he]; simp)
      constructor <;> intro <;> omega

theorem blockAddr_writeTable {d : Memory} {inode : Inode} {all : ℕ → ℕ} (ht : inode.iSectors 12 ≠ 0)
    (hall : ∀ p, 12 ≤ p → p < 140 → all p < 2 ^ 32) {p : ℕ} (hp : p < 140) :
    blockAddr (blit d (inode.iSectors 12 * 512) (wordBytes fun i => all (12 + i)) 512) inode p =
      if p < 12 then inode.iSectors p else all p := by
  unfold blockAddr
  by_cases h12 : p < 12
  · simp only [h12, if_true]
  · simp only [h12, if_false, ht]
    rw [word_blit_inside _ _ (by omega), word_wordBytes, show 12 + (p - 12) = p by omega]
    exact Nat.mod_eq_of_lt (hall p (by omega) hp)

def NextTwoTogether (b : Bitmap) : Prop :=
  ∀ i j, i < j → b.scanTest i = false → b.scanTest j = false → (∀ l < j, l ≠ i → b.scanTest l = true) →
    i / 4096 = j / 4096

theorem NextTwoTogether.congr {b b' : Bitmap} (h : NextTwoTogether b) (he : ∀ i, b'.scanTest i = b.scanTest i) :
    NextTwoTogether b' := by
  intro i j hij hi hj hl
  simp only [he] at hi hj hl
  exact h i j hij hi hj hl

structure Collected (part : Partition) (has will : ℕ) (k : Kern) (inode : Inode) (k' : Kern) (inode' : Inode)
    (all : ℕ → ℕ) : Prop where
  grown : Grown part k inode k' inode'
  blocks : HasBlocks k'.disk inode' will
  fields : inode' = { inode with iSectors := inode'.iSectors }
  all : ∀ p, has - 1 ≤ p → p < will → all p = blockAddr k'.disk inode' p
  disk : SameOff (blockBitmapArea part k.blockBitmap.btmpBytesLen ∪ {a | 12 < will ∧ a ∈ sector (inode'.iSectors 12)})
    k.disk k'.disk
  inodeBitmap : k'.inodeBitmap = k.inodeBitmap
  heap : k'.heap = k.heap
  pool : k'.pool = k.pool
  sync : (has ≤ 12 → 12 < will → NextTwoTogether k.blockBitmap) → ∀ j, j * 512 < k.blockBitmap.btmpBytesLen →
    SyncedAt part k j → SyncedAt part k' j

section Collect

variable {K : Kernel} {has will : ℕ} {k k' : Kern} {inode inode' : Inode} {all all' : ℕ → ℕ} {ok : Bool}

theorem Collected.of_same (hb : HasBlocks k.disk inode has)
    (ha : ∀ p, has - 1 ≤ p → p < has → all p = blockAddr k.disk inode p) :
    Collected K.toPartition has has k inode k inode all where
  grown := Grown.of_same rfl fun _ _ => rfl
  blocks := hb
  fields := rfl
  all := ha
  disk := SameOff.refl _ _
  inodeBitmap := rfl
  heap := rfl
  pool := rfl
  sync _ _ _ h := h

theorem Allocated.free {part : Partition} {new : List ℕ} (h : Allocated part new k k') :
    ∀ lba ∈ new, FreeBlock part k lba := h.fresh

theorem HasBlocks.empty {d : Memory} (hb : HasBlocks d inode has) {p : ℕ} (h1 : has ≤ p) (h2 : p < 140) :
    blockAddr d inode p = 0 := by
  by_contra hne
  have := (hb.block p h2).mp hne
  omega

theorem collect_direct (hl : Layout K.toPartition k.blockBitmap.btmpBytesLen) (h0 : 1 ≤ has) (hlt : has < will) (hw : will ≤ 12)
    (hb : HasBlocks k.disk inode has)
    (h : growLoop K (fun _ => true) (will - has) has inode
      (Function.update (fun _ => 0) (has - 1) (inode.iSectors (has - 1))) k = .ok ((ok, inode', all'), k')) :
    ok = true ∧ Collected K.toPartition has will k inode k' inode' all' := by
  obtain ⟨rfl, new, hlen, hall, -, hkeep, -, rfl, rfl⟩ := growLoop_ok hl.whole (fun p _ _ h3 => by omega) h
  have ht : inode.iSectors 12 = 0 := by
    by_contra hne
    have := hb.table.mp hne
    omega
  have hs : ∀ p, (inode.grown (fun _ => true) has new).iSectors p = placed inode.iSectors has new p := fun p => rfl
  have ht' : (inode.grown (fun _ => true) has new).iSectors 12 = 0 := by
    rw [hs, placed_outside (by omega), ht]
  have haddr : ∀ p < 140, blockAddr k'.disk (inode.grown (fun _ => true) has new) p =
      placed (blockAddr k.disk inode) has new p := by
    intro p hp
    by_cases h12 : p < 12
    · rw [blockAddr, if_pos h12, hs]
      exact placed_congr fun _ => by rw [blockAddr, if_pos h12]
    · rw [placed_outside (by omega), blockAddr, blockAddr, if_neg h12, if_neg h12, if_pos ht', if_pos ht]
  have hpl : Placed K.toPartition has new [] k inode k' (inode.grown (fun _ => true) has new) := by
    refine ⟨hall.len, by simpa using hall.free, by simpa using hall.nodup, by simpa using hall.bits, by omega, ?_, haddr,
      .inl ⟨rfl, ht'.trans ht.symm⟩⟩
    exact fun p h1 h2 => hb.empty h1 (by omega)
  have hd := hl.data_pos
  refine ⟨rfl, ⟨hpl.grown hd, hpl.hasBlocks hd (by omega) hb (fun _ => by omega) (by simp), rfl, ?_,
    hall.disk.mono Set.subset_union_left, hall.inodeBitmap, hall.heap, hall.pool, fun _ j _ hj => hkeep j hj⟩⟩
  intro p h1 h2
  rw [haddr p (by omega)]
  apply placed_congr
  intro hout
  obtain rfl : p = has - 1 := by omega
  rw [Function.update_self, blockAddr, if_pos (by omega)]

theorem collect_table {new table : List ℕ} {k1 : Kern} {u : Unit} (hl : Layout K.toPartition k.blockBitmap.btmpBytesLen)
    (hw : 12 < will) (hw' : will ≤ 140) (hb : HasBlocks k.disk inode has) (hlen : has + new.length = will)
    (hall : Allocated K.toPartition (table ++ new) k k1)
    (hf : inode' = { inode with iSectors := inode'.iSectors })
    (hs : ∀ p < 12, inode'.iSectors p = placed inode.iSectors has new p) (ht : K.sb.dataStartLba ≤ inode'.iSectors 12)
    (htable : (table = [] ∧ 12 < has ∧ inode'.iSectors 12 = inode.iSectors 12) ∨
      (inode.iSectors 12 = 0 ∧ table = [inode'.iSectors 12]))
    (ha : ∀ p < 140, has - 1 ≤ p ∨ 12 ≤ p → all p = placed (blockAddr k.disk inode) has new p)
    (hsync : (has ≤ 12 → NextTwoTogether k.blockBitmap) → ∀ j, SyncedAt K.toPartition k j → SyncedAt K.toPartition k1 j)
    (h : writeTable (inode'.iSectors 12) all k1 = .ok (u, k')) :
    Collected K.toPartition has will k inode k' inode' all := by
  obtain ⟨-, rfl⟩ := (ideWrite_ok _ _ _ _ _ _).mp h
  have hd := hl.data_pos
  have hword : ∀ p, 12 ≤ p → p < 140 → all p < 2 ^ 32 := by
    intro p h1 h2
    rw [ha p h2 (.inr h1)]
    by_cases hin : has ≤ p ∧ p < has + new.length
    · obtain ⟨f1, f2, -⟩ := hall.free _ (List.mem_append_right _ (@placed_mem (blockAddr k.disk inode) _ _ _ hin.1 hin.2))
      have := hl.words
      omega
    · rw [placed_outside (by omega), blockAddr, if_neg (by omega)]
      split_ifs
      · omega
      · exact word_lt _ _
  have haddr : ∀ p < 140, blockAddr (blit k1.disk (inode'.iSectors 12 * 512) (wordBytes fun i => all (12 + i)) (1 * 512)) inode' p =
      placed (blockAddr k.disk inode) has new p := by
    intro p hp
    rw [Nat.one_mul, blockAddr_writeTable (by omega) hword hp]
    split_ifs with h12
    · rw [hs p h12]
      exact placed_congr fun _ => by rw [blockAddr, if_pos h12]
    · exact ha p hp (.inr (by omega))
  have hpl : Placed K.toPartition has new table k inode
      { k1 with disk := blit k1.disk (inode'.iSectors 12 * 512) (wordBytes fun i => all (12 + i)) (1 * 512) } inode' := by
    refine ⟨hall.len, hall.free, hall.nodup, hall.bits, by omega, fun p h1 h2 => hb.empty h1 (by omega), haddr, ?_⟩
    exact htable.imp (fun h => ⟨h.1, h.2.2⟩) id
  refine ⟨hpl.grown hd, hpl.hasBlocks hd hlen hb ?_ fun _ => hw, hf, ?_, ?_, hall.inodeBitmap, hall.heap, hall.pool, ?_⟩
  · intro hn
    have := htable.resolve_right fun h => by simp [hn] at h
    omega
  · intro p h1 h2
    rw [haddr p (by omega)]
    exact ha p (by omega) (.inl h1)
  · refine (hall.disk.mono Set.subset_union_left).trans (blit_sameOff _ _ ?_)
    exact fun a h1 h2 => .inr ⟨hw, h1, by omega⟩
  · intro hc j hj hsj
    exact (hsync (fun h => hc h hw) j hsj).congr rfl (blit_sameOn _ _ (.inl (hl.bitmap_below hj ht)))

theorem collect_crossing {table : ℕ} {k1 k2 : Kern} (hl : Layout K.toPartition k.blockBitmap.btmpBytesLen)
    (h0 : 1 ≤ has) (h12 : has ≤ 12) (hw : 12 < will) (hw' : will ≤ 140) (hb : HasBlocks k.disk inode has)
    (htab : Allocated K.toPartition [table] k k1)
    (hfirst : ∀ i < table - K.sb.dataStartLba, k.blockBitmap.scanTest i = true)
    (h : growLoop K (fun i => decide (i < 12)) (will - has) has (inode.setSector 12 table)
      (Function.update (fun _ => 0) (has - 1) (inode.iSectors (has - 1))) k1 = .ok ((ok, inode', all), k2)) :
    ok = true ∧ ∀ u, writeTable table all k2 = .ok (u, k') → Collected K.toPartition has will k inode k' inode' all := by
  obtain ⟨rfl, new, hlen, hall, hnsync, hkeep, hnext, rfl, rfl⟩ := growLoop_ok (by rw [htab.len]; exact hl.whole)
    (fun p h1 _ _ => by have := of_decide_eq_true h1; omega) h
  refine ⟨rfl, fun u hwr => ?_⟩
  have ht0 : inode.iSectors 12 = 0 := by
    by_contra hne
    have := hb.table.mp hne
    omega
  have hset : inode.setSector 12 table = { inode with iSectors := Function.update inode.iSectors 12 table } := rfl
  have hs : ∀ p, ((inode.setSector 12 table).grown (fun i => decide (i < 12)) has new).iSectors p =
      if p < 12 then placed (Function.update inode.iSectors 12 table) has new p
      else Function.update inode.iSectors 12 table p := by
    intro p
    rw [hset]
    simp only [Inode.grown, decide_eq_true_eq]
  have ht : ((inode.setSector 12 table).grown (fun i => decide (i < 12)) has new).iSectors 12 = table := by
    rw [hs, if_neg (by omega), Function.update_self]
  have hmem : table ∈ [table] := List.mem_singleton_self _
  have hd := (htab.fresh table hmem).1
  rw [← ht] at hwr
  refine collect_table hl hw hw' hb (by omega) (htab.append hall) rfl ?_ (ht ▸ hd) (.inr ⟨ht0, by rw [ht]⟩) ?_ ?_ hwr
  · intro p hp
    rw [hs, if_pos hp]
    exact placed_congr fun _ => Function.update_of_ne (by omega) _ _
  · intro p hp h1
    apply placed_congr
    intro hout
    by_cases he : p = has - 1
    · subst he
      rw [Function.update_self, blockAddr, if_pos (by omega)]
    · rw [Function.update_of_ne he, hb.empty (by omega) hp]
  · -- the sector of the table's own bit is written back only with the next block
    intro hc j hj
    rcases htab.sync j hj with hj | ⟨lba', hm, he⟩
    · exact hkeep j hj
    · rw [List.mem_singleton.mp hm] at he
      cases new with
      | nil => simp only [List.length_nil] at hlen; omega
      | cons lba rest =>
        have hfree := hall.fresh lba (List.mem_cons_self ..)
        have hbits : ∀ i, i ≠ table - K.sb.dataStartLba →
            k1.blockBitmap.scanTest i = k.blockBitmap.scanTest i := by
          intro i hi
          rw [htab.bits, decide_eq_false, Bool.or_false]
          rw [List.mem_singleton]
          have := hd
          omega
        have hne : lba - K.sb.dataStartLba ≠ table - K.sb.dataStartLba := by
          intro hcontra
          have hset := htab.bits (table - K.sb.dataStartLba)
          rw [show K.sb.dataStartLba + (table - K.sb.dataStartLba) = table by omega] at hset
          rw [hcontra, hset] at hfree
          simp at hfree
        have hclear : k.blockBitmap.scanTest (lba - K.sb.dataStartLba) = false := by
          rw [← hbits _ hne]
          exact hfree.2.2
        have hlt : table - K.sb.dataStartLba < lba - K.sb.dataStartLba := by
          by_contra hge
          have := hfirst (lba - K.sb.dataStartLba) (by omega)
          rw [hclear] at this
          simp at this
        have htog := hc h12 (table - K.sb.dataStartLba) (lba - K.sb.dataStartLba) hlt (htab.fresh table hmem).2.2 hclear
          (fun l hl1 hl2 => by rw [← hbits l hl2]; exact hnext lba rfl l hl1)
        rw [← he, htog]
        exact hnsync lba (List.mem_cons_self ..)

theorem collectBlocks_ok (hl : Layout K.toPartition k.blockBitmap.btmpBytesLen) (ho : Owns K.toPartition k inode)
    (h0 : 1 ≤ has) (hle : has ≤ will) (hw : will ≤ 140) (hb : HasBlocks k.disk inode has)
    (h : collectBlocks K has will inode k = .ok ((ok, inode', all), k')) :
    ok = true ∧ Collected K.toPartition has will k inode k' inode' all := by
  have htab : ∀ p, 12 ≤ p → 12 < has →
      word k.disk (inode.iSectors 12 * 512 + 4 * (p - 12)) = blockAddr k.disk inode p := by
    intro p h1 h2
    rw [blockAddr, if_neg (by omega), if_neg (hb.table.mpr h2)]
  unfold collectBlocks at h
  split_ifs at h with c1 c2 c3 c4
  · subst c1
    simp only [pure_ok, Prod.mk.injEq] at h
    obtain ⟨⟨rfl, rfl, rfl⟩, rfl⟩ := h
    refine ⟨rfl, Collected.of_same hb fun p h1 h2 => ?_⟩
    obtain rfl : p = will - 1 := by omega
    rw [Function.update_self, blockAddr, if_pos (by omega)]
  · subst c1
    simp only [bind_ok, assert_ok, readTable_ok, pure_ok, Prod.mk.injEq] at h
    obtain ⟨_, _, ⟨-, rfl⟩, _, _, ⟨-, rfl, rfl⟩, ⟨rfl, rfl, rfl⟩, rfl⟩ := h
    refine ⟨rfl, Collected.of_same hb fun p h1 h2 => ?_⟩
    rw [if_pos (by omega)]
    exact htab p (by omega) (by omega)
  · simp only [bind_ok, assert_ok, bound_ok] at h
    obtain ⟨_, _, ⟨-, rfl⟩, _, _, ⟨-, rfl⟩, h⟩ := h
    exact collect_direct hl h0 (by omega) c3 hb h
  · simp only [bind_ok] at h
    obtain ⟨r, k1, ha, h⟩ := h
    obtain ⟨table, rfl, htable, hfirst⟩ := blockBitmapAlloc_allocated ha
    simp only [bind_ok, assert_ok] at h
    obtain ⟨_, _, ⟨-, rfl⟩, ⟨ok1, inode1, all1⟩, k2, hg, h⟩ := h
    obtain ⟨rfl, hcol⟩ := @collect_crossing _ _ _ _ k' _ _ _ _ _ _ _ hl h0 c4 (by omega) hw hb htable hfirst hg
    simp only [if_true, bind_ok, pure_ok, Prod.mk.injEq] at h
    obtain ⟨u, _, hwr, ⟨rfl, rfl, rfl⟩, rfl⟩ := h
    exact ⟨rfl, hcol u hwr⟩
  · simp only [bind_ok, assert_ok, readTable_ok] at h
    obtain ⟨_, _, ⟨-, rfl⟩, _, _, ⟨-, rfl, rfl⟩, ⟨ok1, inode1, all1⟩, k1, hg, h⟩ := h
    obtain ⟨rfl, new, hlen, hall, -, hkeep, -, rfl, rfl⟩ := growLoop_ok hl.whole (fun _ h1 => by simp at h1) hg
    simp only [if_true, bind_ok, pure_ok, Prod.mk.injEq] at h
    obtain ⟨_, k2, hwr, ⟨rfl, rfl, rfl⟩, rfl⟩ := h
    have hs : inode.grown (fun _ => false) has new = inode := rfl
    rw [hs] at hwr ⊢
    refine ⟨rfl, @collect_table _ _ _ _ _ _ _ _ _ [] _ _ hl (by omega) hw hb (by omega) hall rfl ?_
      (ho.table_data (hb.table.mpr (by omega))) (.inl ⟨rfl, by omega, rfl⟩) ?_ (fun _ => hkeep) hwr⟩
    · intro p hp
      rw [placed_outside (by omega)]
    · intro p hp h1
      apply placed_congr
      intro hout
      have hp12 : 12 ≤ p := by omega
      rw [if_pos (by omega)]
      exact htab p hp12 (by omega)

theorem firstBlock_ok {n : ℕ} (hl : Layout K.toPartition k.blockBitmap.btmpBytesLen) (hb : HasBlocks k.disk inode n)
    (h : firstBlock K inode k = .ok ((ok, inode'), k')) :
    ok = true ∧ Collected K.toPartition n (max n 1) k inode k' inode' (blockAddr k'.disk inode') ∧
      (n ≠ 0 → k' = k ∧ inode' = inode) ∧
      (n = 0 → ∃ i, k.blockBitmap.scanTest i = false ∧ (∀ j < i, k.blockBitmap.scanTest j = true) ∧
        ∀ j, k'.blockBitmap.scanTest j = (k.blockBitmap.set i true).scanTest j) := by
  have hn : inode.iSectors 0 ≠ 0 ↔ 0 < n := hb.block 0 (by omega)
  unfold firstBlock at h
  by_cases h0 : inode.iSectors 0 = 0
  · obtain rfl : n = 0 := by omega
    rw [if_pos h0] at h
    simp only [bind_ok] at h
    obtain ⟨r, k1, ha, h⟩ := h
    obtain ⟨lba, rfl, hlba, hfirst⟩ := blockBitmapAlloc_allocated ha
    simp only [bind_ok, assert_ok, pure_ok, Prod.mk.injEq] at h
    obtain ⟨_, _, ⟨-, rfl⟩, _, k2, hs, ⟨rfl, rfl⟩, rfl⟩ := h
    obtain ⟨hall, -, hkeep⟩ := hlba.synced hl.whole hs
    have ht : inode.iSectors 12 = 0 := by
      by_contra hne
      have := hb.table.mp hne
      omega
    have hset : inode.setSector 0 lba = { inode with iSectors := Function.update inode.iSectors 0 lba } := rfl
    have haddr : ∀ p < 140, blockAddr k2.disk (inode.setSector 0 lba) p = placed (blockAddr k.disk inode) 0 [lba] p := by
      intro p hp
      rw [← placed_cons, placed_nil, hset]
      by_cases hp0 : p = 0
      · subst hp0
        rw [Function.update_self]
        rfl
      · rw [Function.update_of_ne hp0]
        simp only [blockAddr, ht, Function.update_of_ne hp0, Function.update_of_ne (show (12 : ℕ) ≠ 0 by omega)]
        split_ifs <;> rfl
    have hpl : Placed K.toPartition 0 [lba] [] k inode k2 (inode.setSector 0 lba) := by
      refine ⟨hall.len, hall.free, hall.nodup, hall.bits, by simp, fun p h1 h2 => hb.empty h1 ?_, haddr, .inl ⟨rfl, rfl⟩⟩
      simp only [List.length_cons, List.length_nil] at h2
      omega
    have hd := hl.data_pos
    refine ⟨rfl, ⟨hpl.grown hd, hpl.hasBlocks hd rfl hb (fun _ => by simp) (by simp), rfl, fun _ _ _ => rfl,
      hall.disk.mono Set.subset_union_left, hall.inodeBitmap, hall.heap, hall.pool, fun _ j _ hj => hkeep j hj⟩,
      fun h => absurd rfl h, fun _ => ?_⟩
    obtain ⟨f1, -, f3⟩ := hlba.fresh lba (List.mem_singleton_self _)
    refine ⟨lba - K.sb.dataStartLba, f3, hfirst, fun j => ?_⟩
    rw [hall.bits, Bitmap.scanTest_set]
    by_cases hj : j = lba - K.sb.dataStartLba
    · simp [hj, show K.sb.dataStartLba + (lba - K.sb.dataStartLba) = lba by omega]
    · have : K.sb.dataStartLba + j ∉ [lba] := fun h => hj (by have := List.mem_singleton.mp h; omega)
      simp only [hj, this, if_false, decide_false, Bool.or_false]
  · rw [if_neg h0] at h
    simp only [pure_ok, Prod.mk.injEq] at h
    obtain ⟨⟨rfl, rfl⟩, rfl⟩ := h
    have hn1 : max n 1 = n := by have := hn.mp h0; omega
    rw [hn1]
    exact ⟨rfl, Collected.of_same hb fun _ _ _ => rfl, fun _ => ⟨rfl, rfl⟩, fun h => by have := hn.mp h0; omega⟩

end Collect

end ElephantOS
