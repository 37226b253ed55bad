import ElephantOS.DirectoryAdd
import ElephantOS.DirectoryDelete
import ElephantOS.Syscalls

namespace ElephantOS

open ByteMemory HaltingState

/-- What a directory is for: the inode number and the type that a name stands for. -/
abbrev NameMap := Name → Option (ℕ × FileType)

namespace NameMap

def add (M : NameMap) (e : Entry) : NameMap := Function.update M e.name (some (e.iNo, e.fType))

def delete (M : NameMap) (inodeNo : ℕ) : NameMap := fun name =>
  (M name).filter fun v => name = dot ∨ name = dotDot ∨ v.1 ≠ inodeNo

def dots (own parent : ℕ) : NameMap := fun name =>
  if name = dot then some (own, .directory) else if name = dotDot then some (parent, .directory) else none

end NameMap

def Entry.Ordinary (e : Entry) : Prop := e.name ≠ dot ∧ e.name ≠ dotDot

structure Lists (S : ℕ × ℕ → Option Entry) (M : NameMap) : Prop where
  entry : ∀ pos e, S pos = some e → M e.name = some (e.iNo, e.fType)
  name : ∀ name v, M name = some v → ∃ pos e, S pos = some e ∧ e.name = name
  once : ∀ pos pos' e e', S pos = some e → S pos' = some e' → e.name = e'.name → pos = pos'

def Numbered (S : ℕ × ℕ → Option Entry) : Prop := ∀ pos pos' e e', S pos = some e → S pos' = some e' → e.Ordinary → e'.Ordinary →
  e.iNo = e'.iNo → pos = pos'

@[irreducible] def heldSlots (S : ℕ × ℕ → Option Entry) : Finset (ℕ × ℕ) :=
  (Finset.range 140 ×ˢ Finset.range 21).filter fun pos => (S pos).isSome

section

variable {S : ℕ × ℕ → Option Entry} {M : NameMap} {pos : ℕ × ℕ} {e : Entry}

theorem update_some {v : Option Entry} {pos' : ℕ × ℕ} {e' : Entry} (h : Function.update S pos v pos' = some e') :
    (pos' = pos ∧ v = some e') ∨ (pos' ≠ pos ∧ S pos' = some e') := by
  by_cases he : pos' = pos
  · subst he
    rw [Function.update_self] at h
    exact .inl ⟨rfl, h⟩
  · rw [Function.update_of_ne he] at h
    exact .inr ⟨he, h⟩

theorem Lists.add (h : Lists S M) (hfree : S pos = none) (hfresh : M e.name = none) :
    Lists (Function.update S pos (some e)) (M.add e) := by
  have hother : ∀ pos' e', S pos' = some e' → e'.name ≠ e.name := by
    intro pos' e' he' hname
    have := h.entry pos' e' he'
    rw [hname, hfresh] at this
    cases this
  refine ⟨?_, ?_, ?_⟩
  · intro pos' e' he'
    rcases update_some he' with ⟨-, he⟩ | ⟨-, he⟩
    · obtain rfl := Option.some.inj he
      exact Function.update_self _ _ _
    · unfold NameMap.add
      rw [Function.update_of_ne (hother pos' e' he)]
      exact h.entry pos' e' he
  · intro name v hv
    unfold NameMap.add at hv
    by_cases hname : name = e.name
    · exact ⟨pos, e, Function.update_self _ _ _, hname.symm⟩
    · rw [Function.update_of_ne hname] at hv
      obtain ⟨pos', e', he', rfl⟩ := h.name name v hv
      refine ⟨pos', e', ?_, rfl⟩
      rw [Function.update_of_ne]
      · exact he'
      · rintro rfl
        rw [hfree] at he'
        cases he'
  · intro pos₁ pos₂ e₁ e₂ h₁ h₂ hname
    rcases update_some h₁ with ⟨rfl, he₁⟩ | ⟨-, he₁⟩ <;> rcases update_some h₂ with ⟨rfl, he₂⟩ | ⟨-, he₂⟩
    · rfl
    · obtain rfl := Option.some.inj he₁
      exact absurd hname.symm (hother _ _ he₂)
    · obtain rfl := Option.some.inj he₂
      exact absurd hname (hother _ _ he₁)
    · exact h.once _ _ _ _ he₁ he₂ hname

theorem Lists.delete (h : Lists S M) (hpos : S pos = some e) (hord : e.Ordinary) (hnum : Numbered S) :
    Lists (Function.update S pos none) (M.delete e.iNo) := by
  refine ⟨?_, ?_, ?_⟩
  · intro pos' e' he'
    rcases update_some he' with ⟨-, he⟩ | ⟨hne, he⟩
    · cases he
    · unfold NameMap.delete
      rw [h.entry pos' e' he, Option.filter_some, if_pos]
      by_contra hno
      simp only [decide_eq_true_eq, not_or, not_not] at hno
      exact hne (hnum _ _ _ _ he hpos ⟨hno.1, hno.2.1⟩ hord hno.2.2)
  · intro name v hv
    unfold NameMap.delete at hv
    obtain ⟨hM, hkeep⟩ := Option.filter_eq_some_iff.mp hv
    obtain ⟨pos', e', he', rfl⟩ := h.name name v hM
    refine ⟨pos', e', ?_, rfl⟩
    rw [Function.update_of_ne]
    · exact he'
    · rintro rfl
      rw [hpos] at he'
      obtain rfl := Option.some.inj he'
      rw [h.entry _ _ hpos] at hM
      obtain rfl := Option.some.inj hM
      simp only [decide_eq_true_eq] at hkeep
      rcases hkeep with hdot | hdots | hne
      · exact hord.1 hdot
      · exact hord.2 hdots
      · exact hne rfl
  · intro pos₁ pos₂ e₁ e₂ h₁ h₂ hname
    rcases update_some h₁ with ⟨-, he₁⟩ | ⟨-, he₁⟩
    · cases he₁
    · rcases update_some h₂ with ⟨-, he₂⟩ | ⟨-, he₂⟩
      · cases he₂
      · exact h.once _ _ _ _ he₁ he₂ hname

theorem Lists.delete_missing (h : Lists S M) {n : ℕ} (hnone : ∀ pos e, S pos = some e → e.Ordinary → e.iNo ≠ n) : M.delete n = M := by
  funext name
  unfold NameMap.delete
  cases hM : M name with
  | none => rfl
  | some v =>
    rw [Option.filter_some, if_pos]
    obtain ⟨pos, e, he, rfl⟩ := h.name name v hM
    rw [h.entry pos e he] at hM
    obtain rfl := Option.some.inj hM
    by_contra hno
    simp only [decide_eq_true_eq, not_or, not_not] at hno
    exact hnone pos e he ⟨hno.1, hno.2.1⟩ hno.2.2

theorem Numbered.add (h : Numbered S) (hfresh : ∀ pos' e', S pos' = some e' → e'.Ordinary → e'.iNo ≠ e.iNo) :
    Numbered (Function.update S pos (some e)) := by
  intro pos₁ pos₂ e₁ e₂ h₁ h₂ ho₁ ho₂ hno
  rcases update_some h₁ with ⟨rfl, he₁⟩ | ⟨-, he₁⟩ <;> rcases update_some h₂ with ⟨rfl, he₂⟩ | ⟨-, he₂⟩
  · rfl
  · obtain rfl := Option.some.inj he₁
    exact absurd hno.symm (hfresh _ _ he₂ ho₂)
  · obtain rfl := Option.some.inj he₂
    exact absurd hno (hfresh _ _ he₁ ho₁)
  · exact h _ _ _ _ he₁ he₂ ho₁ ho₂ hno

theorem Numbered.delete (h : Numbered S) : Numbered (Function.update S pos none) := by
  intro pos₁ pos₂ e₁ e₂ h₁ h₂ ho₁ ho₂ hno
  rcases update_some h₁ with ⟨-, he₁⟩ | ⟨-, he₁⟩
  · cases he₁
  · rcases update_some h₂ with ⟨-, he₂⟩ | ⟨-, he₂⟩
    · cases he₂
    · exact h _ _ _ _ he₁ he₂ ho₁ ho₂ hno

theorem mem_heldSlots : pos ∈ heldSlots S ↔ (pos.1 < 140 ∧ pos.2 < 21) ∧ ∃ e, S pos = some e := by
  unfold heldSlots
  rw [Finset.mem_filter, Finset.mem_product, Finset.mem_range, Finset.mem_range, Option.isSome_iff_exists]

theorem heldSlots_add (hfree : S pos = none) (hp : pos.1 < 140) (hj : pos.2 < 21) :
    (heldSlots (Function.update S pos (some e))).card = (heldSlots S).card + 1 := by
  have heq : heldSlots (Function.update S pos (some e)) = insert pos (heldSlots S) := by
    ext pos'
    rw [Finset.mem_insert, mem_heldSlots, mem_heldSlots]
    by_cases he : pos' = pos
    · subst he
      simp [hp, hj]
    · simp [he]
  rw [heq, Finset.card_insert_of_notMem]
  rw [mem_heldSlots, hfree]
  simp

theorem heldSlots_delete (hpos : S pos = some e) (hp : pos.1 < 140) (hj : pos.2 < 21) :
    (heldSlots (Function.update S pos none)).card + 1 = (heldSlots S).card := by
  have hadd := @heldSlots_add (Function.update S pos none) pos e (Function.update_self _ _ _) hp hj
  rw [Function.update_idem, ← hpos, Function.update_eq_self] at hadd
  exact hadd.symm

end

section

variable {d : Memory} {inode : Inode} {p j : ℕ}

theorem sameString_at (hs : SlotsOk d inode) (hslot : Slot d inode (p, j)) {name : Name} (h0 : 0 ∉ name) :
    sameString d (blockAddr d inode p * 512 + 24 * j) name = true ↔ (entryAt d (blockAddr d inode p * 512 + 24 * j)).name = name :=
  sameString_iff h0 (hs _ hslot).1

theorem isDot_slot (hs : SlotsOk d inode) (hslot : Slot d inode (p, j)) :
    isDot d (blockAddr d inode p * 512 + 24 * j) = true ↔ ∃ e, slotMap d inode (p, j) = some e ∧ e.name = dot := by
  unfold isDot
  rw [Bool.and_eq_true, decide_eq_true_eq, sameString_at hs hslot (by decide), load_fType]
  constructor
  · rintro ⟨hlive, hname⟩
    exact ⟨_, slotMap_eq_some.mpr ⟨hslot, hlive, rfl⟩, hname⟩
  · rintro ⟨e, he, hname⟩
    obtain ⟨-, hlive, rfl⟩ := slotMap_eq_some.mp he
    exact ⟨hlive, hname⟩

theorem ordinary_slot (hs : SlotsOk d inode) (hslot : Slot d inode (p, j)) :
    ordinary d (blockAddr d inode p * 512 + 24 * j) = true ↔ ∃ e, slotMap d inode (p, j) = some e ∧ e.Ordinary := by
  unfold ordinary
  rw [Bool.and_eq_true, Bool.and_eq_true, decide_eq_true_eq, Bool.not_eq_true', Bool.not_eq_true', Bool.eq_false_iff, Bool.eq_false_iff,
    ne_eq, ne_eq, ne_eq, sameString_at hs hslot (by decide), sameString_at hs hslot (by decide), load_fType]
  constructor
  · rintro ⟨⟨hlive, hdot⟩, hdots⟩
    exact ⟨_, slotMap_eq_some.mpr ⟨hslot, hlive, rfl⟩, hdot, hdots⟩
  · rintro ⟨e, he, hdot, hdots⟩
    obtain ⟨-, hlive, rfl⟩ := slotMap_eq_some.mp he
    exact ⟨⟨hlive, hdot⟩, hdots⟩

theorem wanted_slot (hs : SlotsOk d inode) (hslot : Slot d inode (p, j)) {n : ℕ} :
    wanted d n (blockAddr d inode p * 512 + 24 * j) = true ↔ ∃ e, slotMap d inode (p, j) = some e ∧ e.Ordinary ∧ e.iNo = n := by
  unfold wanted
  rw [Bool.and_eq_true, decide_eq_true_eq, ordinary_slot hs hslot, load_iNo]
  constructor
  · rintro ⟨⟨e, he, hord⟩, hno⟩
    have hent := (slotMap_eq_some.mp he).2.2
    refine ⟨e, he, hord, ?_⟩
    rw [← hent]
    exact hno
  · rintro ⟨e, he, hord, hno⟩
    have hent := (slotMap_eq_some.mp he).2.2
    refine ⟨⟨e, he, hord⟩, ?_⟩
    rw [← hno, ← hent]
    rfl

end

theorem countP_one {c : ℕ → Bool} {n i j : ℕ} (h : (List.range n).countP c = 1) (hi : i < n) (hj : j < n) (hci : c i = true)
    (hcj : c j = true) : i = j := by
  rw [List.countP_eq_length_filter] at h
  obtain ⟨a, ha⟩ := List.length_eq_one_iff.mp h
  have hmem : ∀ m, m < n → c m = true → m = a := by
    intro m hm hcm
    have : m ∈ (List.range n).filter c := List.mem_filter.mpr ⟨List.mem_range.mpr hm, hcm⟩
    rw [ha] at this
    exact List.mem_singleton.mp this
  rw [hmem i hi hci, hmem j hj hcj]

theorem countP_other {c : ℕ → Bool} {n i : ℕ} (h : 1 < (List.range n).countP c) : ∃ j < n, j ≠ i ∧ c j = true := by
  by_contra hnone
  push Not at hnone
  rw [List.countP_eq_length_filter] at h
  have hall : ∀ m ∈ (List.range n).filter c, m = i := by
    intro m hm
    obtain ⟨hlt, hcm⟩ := List.mem_filter.mp hm
    by_contra hne
    exact hnone m (List.mem_range.mp hlt) hne hcm
  have hnodup : ((List.range n).filter c).Nodup := List.nodup_range.filter _
  have hrep := List.eq_replicate_of_mem hall
  rw [hrep] at hnodup
  have := List.nodup_replicate.mp hnodup
  omega

section

variable {K : Kernel} {k k' k₁ : Kern} {inode inode' : Inode} {inodeNo : ℕ}

theorem blockAddr_direct {d : Memory} (h : inode.iSectors 12 = 0) (p : ℕ) :
    blockAddr d inode p = if p < 12 then inode.iSectors p else 0 := by
  unfold blockAddr
  rw [if_pos h]

theorem blit_erased {d m : Memory} {base off : ℕ} (hoff : off + 24 ≤ 512) (hholds : ∀ b < 512, m b = d (base + b)) (a : ℕ) :
    blit d base (blit m off zeros 24) (1 * 512) a = if base + off ≤ a ∧ a < base + off + 24 then 0 else d a := by
  by_cases hin : base ≤ a ∧ a < base + 512
  · obtain ⟨b, rfl⟩ := Nat.exists_eq_add_of_le hin.1
    rw [blit_inside _ _ (by omega)]
    by_cases hslot : off ≤ b ∧ b < off + 24
    · rw [blit_apply, if_pos hslot, if_pos (by omega)]
      rfl
    · rw [blit_outside _ _ (by omega), if_neg (by omega)]
      exact hholds b (by omega)
  · rw [blit_outside _ _ (by omega), if_neg (by omega)]

theorem inodeSync_data (hl : Layout K.toPartition k.blockBitmap.btmpBytesLen) {io : Buffer} {u : Unit}
    (h : inodeSync K inode io k = .ok (u, k')) : (∀ a, K.sb.dataStartLba * 512 ≤ a → k'.disk a = k.disk a) ∧
      k'.blockBitmap = k.blockBitmap ∧ Steady k k' := by
  obtain ⟨hn, hk⟩ := inodeSync_ok h
  refine ⟨fun a ha => ?_, hk.blockBitmap, hk.pool, hk.grant, hk.next⟩
  have hoff : SameOff (inodeSlot K.toPartition (K.inodeNo inode.iNo)) k.disk
      (blit k.disk (inodeAddr K.toPartition (K.inodeNo inode.iNo)) (wordBytes inode.pureWords) inodeSize) :=
    blit_sameOff _ _ fun b h1 h2 => ⟨h1, h2⟩
  rw [hk.disk]
  exact hoff a (hl.data_off_slot hn ha)

structure Erased (K : Kernel) (p i : ℕ) (k : Kern) (inode : Inode) (k' : Kern) (inode' : Inode) : Prop where
  size : inode'.iSize = inode.iSize - 24
  number : inode'.iNo = inode.iNo
  steady : Steady k k'
  way : (OneEntry k.disk (blockAddr k.disk inode p) ∧ inode'.iSectors = Function.update inode.iSectors p 0 ∧
      k'.blockBitmap = k.blockBitmap.set (blockAddr k.disk inode p - K.sb.dataStartLba) false ∧
      ∀ a, K.sb.dataStartLba * 512 ≤ a → k'.disk a = k.disk a) ∨
    (¬ OneEntry k.disk (blockAddr k.disk inode p) ∧ inode'.iSectors = inode.iSectors ∧ k'.blockBitmap = k.blockBitmap ∧
      ∀ a, K.sb.dataStartLba * 512 ≤ a → k'.disk a =
        if blockAddr k.disk inode p * 512 + 24 * i ≤ a ∧ a < blockAddr k.disk inode p * 512 + 24 * i + 24 then 0 else k.disk a)

theorem deleteFound_erased (h : DirOn K k inode) (hp : Holder k.disk inode inodeNo p) (hp12 : p < 12) {i : ℕ} (hi : i < 21) {io : Buffer}
    (hheap : HeapOnly k k₁) (hholds : Holds io.bytes k.disk (blockAddr k.disk inode p)) {ok : Bool}
    (hs : deleteFound K p (blockAddr k.disk inode p) i io (blockScan k.disk inode inodeNo p) inode k₁ = .ok ((ok, inode'), k')) :
    ok = true ∧ Erased K p i k inode k' inode' := by
  have hl := h.layout
  rw [← hheap.blockBitmap] at hl
  unfold deleteFound at hs
  simp only [bind_ok, assert_ok, pure_ok, Prod.mk.injEq] at hs
  obtain ⟨_, _, ⟨-, rfl⟩, inode₁, k₂, herase, _, _, ⟨-, rfl⟩, _, k₃, hsync, ⟨rfl, rfl⟩, rfl⟩ := hs
  refine ⟨rfl, ?_⟩
  have hlba := h.owns.block_data hp.range hp.block
  have hused := h.owns.used p (by have := hp.range; omega) (by rw [refAddr_block _ _ hp.range]; exact hp.block)
  rw [refAddr_block _ _ hp.range] at hused
  unfold eraseEntry at herase
  split_ifs at herase with hone
  · -- the block is given back
    unfold freeDirBlock blockBitmapSet at herase
    rw [if_pos hp12] at herase
    simp only [bind_ok, modify_ok, pure_ok] at herase
    obtain ⟨_, _, rfl, _, k₄, hbits, rfl, rfl⟩ := herase
    obtain ⟨hblocks, hinodes, hheap', hpool, hoff, -⟩ := bitmapSync_synced (by simpa using hl.whole)
      (by simpa [hheap.blockBitmap] using hused.2.1) hbits
    simp only [Bitmap.set_len] at hoff
    have hl₄ : Layout K.toPartition k₄.blockBitmap.btmpBytesLen := by
      rw [hblocks]
      simpa using hl
    obtain ⟨hdata, hblocks', hsteady⟩ := inodeSync_data hl₄ hsync
    refine ⟨?_, ?_, ?_, .inl ⟨blockScan_oneEntry.mp hone, ?_, ?_, ?_⟩⟩
    · rw [h.entrySize]
      simp [Inode.setSector, hp12.trans (by omega : 12 < 13)]
    · simp [Inode.setSector, hp12.trans (by omega : 12 < 13)]
    · refine (hheap.steady.trans ⟨?_, ?_, ?_⟩).trans hsteady
      · exact hpool
      · rw [hheap']
      · rw [hheap']
    · simp [Inode.setSector, hp12.trans (by omega : 12 < 13)]
    · rw [hblocks', hblocks, hheap.blockBitmap]
    · intro a ha
      rw [hdata a ha, hoff a (hl.data_off ha)]
      exact congrFun hheap.disk a
  · simp only [bind_ok, pure_ok] at herase
    obtain ⟨_, k₄, hwrite, rfl, rfl⟩ := herase
    obtain ⟨-, rfl⟩ := (ideWrite_ok _ _ _ _ _ _).mp hwrite
    obtain ⟨hdata, hblocks', hsteady⟩ := inodeSync_data (by exact hl) hsync
    refine ⟨?_, rfl, ?_, .inr ⟨fun hent => hone (blockScan_oneEntry.mpr hent), rfl, ?_, ?_⟩⟩
    · rw [h.entrySize]
    · exact hheap.steady.trans ⟨hsteady.pool, hsteady.grant, hsteady.next⟩
    · rw [hblocks']
      exact hheap.blockBitmap
    · intro a ha
      rw [hdata a ha, h.entrySize]
      change blit k₁.disk _ _ _ a = _
      rw [hheap.disk]
      exact blit_erased (by omega) hholds a

structure Removed (part : Partition) (pos : ℕ × ℕ) (k : Kern) (inode : Inode) (k' : Kern) (inode' : Inode) : Prop where
  map : slotMap k'.disk inode' = Function.update (slotMap k.disk inode) pos none
  slots : SlotsOk k'.disk inode'
  owns : Owns part k' inode'
  onDisk : OnDisk k'.disk inode'
  table : inode'.iSectors 12 = 0
  len : k'.blockBitmap.btmpBytesLen = k.blockBitmap.btmpBytesLen
  blocks : ∀ q, blockAddr k'.disk inode' q ≠ 0 → blockAddr k.disk inode q ≠ 0
  left : blockAddr k'.disk inode' pos.1 ≠ 0 → pos.1 ≠ 0 → ∃ j e, slotMap k'.disk inode' (pos.1, j) = some e

theorem refAddr_direct {d : Memory} (h : inode.iSectors 12 = 0) (q : ℕ) : refAddr d inode q = if q < 12 then inode.iSectors q else 0 := by
  unfold refAddr
  split_ifs with h140 h12 h12
  · omega
  · exact h
  · rw [blockAddr_direct h, if_pos h12]
  · rw [blockAddr_direct h, if_neg h12]

theorem DirOn.slot_data (h : DirOn K k inode) {pos : ℕ × ℕ} (hslot : Slot k.disk inode pos) :
    K.sb.dataStartLba * 512 ≤ slotAddr k.disk inode pos := by
  have := Nat.mul_le_mul_right 512 (h.owns.block_data hslot.1 hslot.2.2)
  unfold slotAddr
  exact this.trans (Nat.le_add_right _ _)

theorem Erased.freed (h : DirOn K k inode) (hs : SlotsOk k.disk inode) (hdirect : inode.iSectors 12 = 0) {p i : ℕ} (hp12 : p < 12)
    (hb : blockAddr k.disk inode p ≠ 0) (halone : ∀ j, j ≠ i → slotMap k.disk inode (p, j) = none)
    (hsectors : inode'.iSectors = Function.update inode.iSectors p 0)
    (hbits : k'.blockBitmap = k.blockBitmap.set (blockAddr k.disk inode p - K.sb.dataStartLba) false)
    (hdata : ∀ a, K.sb.dataStartLba * 512 ≤ a → k'.disk a = k.disk a) : Removed K.toPartition (p, i) k inode k' inode' := by
  have htable : inode'.iSectors 12 = 0 := by
    rw [hsectors, Function.update_of_ne (by omega), hdirect]
  have hsame : ∀ q, q ≠ p → blockAddr k'.disk inode' q = blockAddr k.disk inode q := by
    intro q hq
    rw [blockAddr_direct htable, blockAddr_direct hdirect, hsectors, Function.update_of_ne hq]
  have hgone : blockAddr k'.disk inode' p = 0 := by
    rw [blockAddr_direct htable, hsectors, Function.update_self, ite_self]
  have hrefs : ∀ q, refAddr k'.disk inode' q = if q = p then 0 else refAddr k.disk inode q := by
    intro q
    rw [refAddr_direct htable, refAddr_direct hdirect, hsectors]
    by_cases hq : q = p
    · rw [if_pos hq, hq, Function.update_self, ite_self]
    · rw [if_neg hq, Function.update_of_ne hq]
  have hkeep : ∀ pos, pos.1 ≠ p → Slot k.disk inode pos → SameOn k.disk k'.disk (slotAddr k.disk inode pos) 24 := by
    intro pos _ hslot a _
    exact hdata _ ((h.slot_data hslot).trans (Nat.le_add_right _ _))
  refine ⟨?_, ?_, ⟨?_, ?_⟩, ?_, htable, ?_, ?_, ?_⟩
  · funext ⟨q, j⟩
    by_cases hq : q = p
    · subst hq
      have hnone : slotMap k'.disk inode' (q, j) = none := slotMap_eq_none.mpr fun hslot => absurd hgone hslot.2.2
      rw [hnone]
      by_cases hj : j = i
      · rw [hj, Function.update_self]
      · rw [Function.update_of_ne (by simpa using hj), halone j hj]
    · rw [Function.update_of_ne (by simp [hq])]
      exact slotMap_congr (hsame q hq) (hkeep (q, j) hq)
  · intro pos hslot
    have hq : pos.1 ≠ p := by
      intro he
      have := hslot.2.2
      rw [he] at this
      exact this hgone
    have hold := hslot.congr (hsame pos.1 hq).symm
    rw [entryAt_slot_congr (hsame pos.1 hq) (hkeep pos hq hold)]
    exact hs pos hold
  · intro q hq hne
    rw [hrefs] at hne ⊢
    split_ifs at hne ⊢ with hqp
    · exact absurd rfl hne
    · obtain ⟨h1, h2, h3⟩ := h.owns.used q hq hne
      refine ⟨h1, ?_, ?_⟩
      · rw [hbits, Bitmap.set_len]
        exact h2
      · have hp141 : p < 141 := by omega
        have hpref : refAddr k.disk inode p = blockAddr k.disk inode p := refAddr_block _ _ (by omega)
        have hdiff : refAddr k.disk inode q - K.sb.dataStartLba ≠ blockAddr k.disk inode p - K.sb.dataStartLba := by
          intro he
          have hlba := h.owns.block_data (by omega : p < 140) hb
          have heq : refAddr k.disk inode q = refAddr k.disk inode p := by
            rw [hpref]
            change K.sb.dataStartLba ≤ _ at h1
            omega
          exact hqp (h.owns.inj q hq p hp141 hne heq)
        rw [hbits, Bitmap.scanTest_set, if_neg hdiff]
        exact h3
  · intro q hq r hr hne heq
    rw [hrefs] at hne
    rw [hrefs, hrefs] at heq
    by_cases hqp : q = p
    · rw [if_pos hqp] at hne
      exact absurd rfl hne
    · rw [if_neg hqp] at hne heq
      by_cases hrp : r = p
      · rw [if_pos hrp] at heq
        exact absurd heq hne
      · rw [if_neg hrp] at heq
        exact h.owns.inj q hq r hr hne heq
  · intro q hq
    rw [hrefs]
    split_ifs
    · exact Nat.zero_le _
    · exact h.onDisk q hq
  · rw [hbits, Bitmap.set_len]
  · intro q hq
    by_cases hqp : q = p
    · rw [hqp] at hq ⊢
      exact hb
    · rwa [hsame q hqp] at hq
  · intro hne
    exact absurd hgone hne

theorem Erased.cleared (h : DirOn K k inode) (hs : SlotsOk k.disk inode) (hdirect : inode.iSectors 12 = 0) {p i : ℕ}
    (hslot : Slot k.disk inode (p, i)) (hmore : p ≠ 0 → ∃ j e, j ≠ i ∧ slotMap k.disk inode (p, j) = some e)
    (hsectors : inode'.iSectors = inode.iSectors) (hbits : k'.blockBitmap = k.blockBitmap)
    (hdata : ∀ a, K.sb.dataStartLba * 512 ≤ a → k'.disk a =
      if slotAddr k.disk inode (p, i) ≤ a ∧ a < slotAddr k.disk inode (p, i) + 24 then 0 else k.disk a) :
    Removed K.toPartition (p, i) k inode k' inode' := by
  have htable : inode'.iSectors 12 = 0 := by rw [hsectors, hdirect]
  have hsame : ∀ q, blockAddr k'.disk inode' q = blockAddr k.disk inode q := by
    intro q
    rw [blockAddr_direct htable, blockAddr_direct hdirect, hsectors]
  have hrefs : ∀ q, refAddr k'.disk inode' q = refAddr k.disk inode q := by
    intro q
    rw [refAddr_direct htable, refAddr_direct hdirect, hsectors]
  have hzero : entryAt k'.disk (slotAddr k'.disk inode' (p, i)) = ⟨[], 0, .unknown⟩ := by
    have ha : slotAddr k'.disk inode' (p, i) = slotAddr k.disk inode (p, i) := by simp only [slotAddr, hsame]
    rw [ha]
    apply entryAt_zeros
    intro a hlt
    rw [hdata _ ((h.slot_data hslot).trans (Nat.le_add_right _ _)), if_pos ⟨by omega, by omega⟩]
  have hkeep : ∀ pos, pos ≠ (p, i) → Slot k.disk inode pos → SameOn k.disk k'.disk (slotAddr k.disk inode pos) 24 := by
    intro pos hne hslot' a hlt
    have hapart := slotAddr_disjoint h.owns hslot' hslot hne
    rw [hdata _ ((h.slot_data hslot').trans (Nat.le_add_right _ _)), if_neg (by omega)]
  have hmap : slotMap k'.disk inode' = Function.update (slotMap k.disk inode) (p, i) none := by
    funext pos
    by_cases hpos : pos = (p, i)
    · rw [hpos, Function.update_self]
      apply slotMap_eq_none.mpr
      intro _
      rw [hzero]
    · rw [Function.update_of_ne hpos]
      exact slotMap_congr (hsame _) (hkeep pos hpos)
  refine ⟨hmap, ?_, ⟨?_, ?_⟩, ?_, htable, by rw [hbits], ?_, ?_⟩
  · intro pos hslot'
    have hold := hslot'.congr (hsame pos.1).symm
    by_cases hpos : pos = (p, i)
    · rw [hpos, hzero]
      simp
    · rw [entryAt_slot_congr (hsame pos.1) (hkeep pos hpos hold)]
      exact hs pos hold
  · intro q hq hne
    rw [hrefs] at hne ⊢
    unfold UsedBlock
    rw [hbits]
    exact h.owns.used q hq hne
  · intro q hq r hr hne heq
    rw [hrefs] at hne
    rw [hrefs, hrefs] at heq
    exact h.owns.inj q hq r hr hne heq
  · intro q hq
    rw [hrefs]
    exact h.onDisk q hq
  · intro q hq
    rwa [hsame] at hq
  · intro _ hp
    obtain ⟨j, e, hne, he⟩ := hmore hp
    refine ⟨j, e, ?_⟩
    rw [hmap, Function.update_of_ne (by simpa using hne)]
    exact he

structure Dotted (d : Memory) (inode : Inode) : Prop where
  here : ∃ j e, slotMap d inode (0, j) = some e ∧ e.name = dot
  only : ∀ pos e, slotMap d inode pos = some e → ¬ e.Ordinary → pos.1 = 0

theorem Erased.removed {p i : ℕ} (her : Erased K p i k inode k' inode') (h : DirOn K k inode) (hs : SlotsOk k.disk inode)
    (hdirect : inode.iSectors 12 = 0) (hdots : Dotted k.disk inode) (hp12 : p < 12) {e : Entry}
    (hlive : slotMap k.disk inode (p, i) = some e) (hord : e.Ordinary) : Removed K.toPartition (p, i) k inode k' inode' := by
  obtain ⟨hslot, -, -⟩ := slotMap_eq_some.mp hlive
  have hcount : ∀ j e', slotMap k.disk inode (p, j) = some e' → e'.Ordinary →
      j < 21 ∧ ordinary k.disk (blockAddr k.disk inode p * 512 + 24 * j) = true := by
    intro j e' he' hord'
    have hslot' := (slotMap_eq_some.mp he').1
    exact ⟨hslot'.2.1, (ordinary_slot hs hslot').mpr ⟨e', he', hord'⟩⟩
  have hfirst : p = 0 → dotted k.disk (blockAddr k.disk inode p * 512) (List.range 21) = true := by
    rintro rfl
    obtain ⟨j, e', he', hname⟩ := hdots.here
    have hslot' := (slotMap_eq_some.mp he').1
    exact List.any_eq_true.mpr ⟨j, List.mem_range.mpr hslot'.2.1, (isDot_slot hs hslot').mpr ⟨e', he', hname⟩⟩
  rcases her.way with ⟨hone, hsectors, hbits, hdata⟩ | ⟨hone, hsectors, hbits, hdata⟩
  · refine Erased.freed h hs hdirect hp12 hslot.2.2 (fun j hj => ?_) hsectors hbits hdata
    by_contra hne
    obtain ⟨e', he'⟩ := Option.ne_none_iff_exists'.mp hne
    by_cases hord' : e'.Ordinary
    · obtain ⟨hlt, hc⟩ := hcount j e' he' hord'
      obtain ⟨hlt', hc'⟩ := hcount i e hlive hord
      exact hj (countP_one hone.1 hlt hlt' hc hc')
    · have hz := hdots.only _ _ he' hord'
      have hdotted := hfirst hz
      rw [hone.2] at hdotted
      cases hdotted
  · refine Erased.cleared h hs hdirect hslot (fun hp => ?_) hsectors hbits hdata
    have hnot : dotted k.disk (blockAddr k.disk inode p * 512) (List.range 21) = false := by
      by_contra hdotted
      rw [Bool.not_eq_false] at hdotted
      obtain ⟨j, hj, hisdot⟩ := List.any_eq_true.mp hdotted
      obtain ⟨e', he', hname⟩ := (isDot_slot hs (show Slot k.disk inode (p, j) from ⟨hslot.1, List.mem_range.mp hj, hslot.2.2⟩)).mp hisdot
      exact hp (hdots.only _ _ he' fun ho => ho.1 hname)
    have hpos : 0 < ordinaries k.disk (blockAddr k.disk inode p * 512) (List.range 21) := by
      apply List.countP_pos_iff.mpr
      obtain ⟨hlt, hc⟩ := hcount i e hlive hord
      exact ⟨i, List.mem_range.mpr hlt, hc⟩
    have htwo : 1 < ordinaries k.disk (blockAddr k.disk inode p * 512) (List.range 21) := by
      by_contra hle
      exact hone ⟨by omega, hnot⟩
    obtain ⟨j, hj, hne, hc⟩ := countP_other htwo
    obtain ⟨e', he', -⟩ := (ordinary_slot hs (show Slot k.disk inode (p, j) from ⟨hslot.1, hj, hslot.2.2⟩)).mp hc
    exact ⟨j, e', hne, he'⟩

theorem deleteDirEntry_effect (h : DirOn K k inode) (hs : SlotsOk k.disk inode) (hdirect : inode.iSectors 12 = 0)
    (hdots : Dotted k.disk inode) {io : Buffer} {ok : Bool} (hrun : deleteDirEntry K inode inodeNo io k = .ok ((ok, inode'), k')) :
    (inode' = inode ∧ HeapOnly k k' ∧ ∀ pos e, slotMap k.disk inode pos = some e → e.Ordinary → e.iNo ≠ inodeNo) ∨
      ∃ pos e, slotMap k.disk inode pos = some e ∧ e.Ordinary ∧ e.iNo = inodeNo ∧ Removed K.toPartition pos k inode k' inode' ∧
        inode'.iSize = inode.iSize - 24 ∧ inode'.iNo = inode.iNo ∧ Steady k k' := by
  by_cases hany : ∃ p, Holder k.disk inode inodeNo p
  · obtain ⟨p, hp⟩ := hany
    have hp12 : p < 12 := by
      by_contra hge
      apply hp.block
      rw [blockAddr_direct hdirect, if_neg hge]
    obtain ⟨io', k₁, i, hheap, hholds, hfound, heq⟩ := deleteDirEntry_found h io hp
    rw [hrun] at heq
    split_ifs at heq
    have hwanted : i < 21 ∧ wanted k.disk inodeNo (blockAddr k.disk inode p * 512 + 24 * i) = true := by
      change (List.range 21).find? (fun i => wanted k.disk inodeNo (blockAddr k.disk inode p * 512 + 24 * i)) = some i at hfound
      have hfirst := List.find?_some hfound
      exact ⟨List.mem_range.mp (List.mem_of_find?_eq_some hfound), hfirst⟩
    have hslot : Slot k.disk inode (p, i) := ⟨hp.range, hwanted.1, hp.block⟩
    obtain ⟨e, he, hord, hno⟩ := (wanted_slot hs hslot).mp hwanted.2
    obtain ⟨-, her⟩ := deleteFound_erased h hp hp12 hwanted.1 hheap hholds heq.symm
    exact .inr ⟨(p, i), e, he, hord, hno, her.removed h hs hdirect hdots hp12 he hord, her.size, her.number, her.steady⟩
  · rw [not_exists] at hany
    obtain ⟨k₁, hmissing, hheap⟩ := deleteDirEntry_missing h io hany
    obtain ⟨heq, rfl⟩ := ok_inj hrun hmissing
    obtain ⟨-, rfl⟩ := Prod.mk.inj heq
    refine .inl ⟨rfl, hheap, fun pos e he hord hno => ?_⟩
    have hslot := (slotMap_eq_some.mp he).1
    have hzero := wanteds_none hany hslot.1 hslot.2.2
    have hwanted := (wanted_slot hs (show Slot k.disk inode' (pos.1, pos.2) from hslot)).mpr ⟨e, he, hord, hno⟩
    exact List.countP_eq_zero.mp hzero pos.2 (List.mem_range.mpr hslot.2.1) hwanted

structure Mapped (K : Kernel) (M : NameMap) (k : Kern) (inode : Inode) : Prop extends DirOn K k inode where
  slots : SlotsOk k.disk inode
  plenty : k.Plenty
  direct : inode.iSectors 12 = 0
  lists : Lists (slotMap k.disk inode) M
  numbered : Numbered (slotMap k.disk inode)
  live : inode.iSize = 24 * (heldSlots (slotMap k.disk inode)).card
  first : ∃ own parent, slotMap k.disk inode (0, 0) = some ⟨dot, own, .directory⟩ ∧
    slotMap k.disk inode (0, 1) = some ⟨dotDot, parent, .directory⟩
  filled : ∀ p, p ≠ 0 → blockAddr k.disk inode p ≠ 0 → ∃ j e, slotMap k.disk inode (p, j) = some e

variable {M : NameMap}

theorem Mapped.dotted (h : Mapped K M k inode) : Dotted k.disk inode := by
  obtain ⟨own, parent, hdot, hdots⟩ := h.first
  refine ⟨⟨0, _, hdot, rfl⟩, ?_⟩
  intro pos e he hord
  have hname : e.name = dot ∨ e.name = dotDot := by
    by_contra hno
    rw [not_or] at hno
    exact hord hno
  rcases hname with hname | hname
  · rw [h.lists.once _ _ _ _ he hdot hname]
  · rw [h.lists.once _ _ _ _ he hdots hname]

theorem Mapped.blocks (h : Mapped K M k inode) : (heldSlots (slotMap k.disk inode)).card ≤ 252 := by
  have hsub : heldSlots (slotMap k.disk inode) ⊆ Finset.range 12 ×ˢ Finset.range 21 := by
    intro pos hpos
    rw [mem_heldSlots] at hpos
    obtain ⟨-, e, he⟩ := hpos
    obtain ⟨⟨-, hj, hb⟩, -⟩ := slotMap_eq_some.mp he
    rw [Finset.mem_product, Finset.mem_range, Finset.mem_range]
    refine ⟨?_, hj⟩
    by_contra hge
    rw [blockAddr_direct h.direct, if_neg hge] at hb
    exact hb rfl
  have hcard := Finset.card_le_card hsub
  rw [Finset.card_product, Finset.card_range, Finset.card_range] at hcard
  exact hcard

theorem Mapped.add (h : Mapped K M k inode) {e : Entry} (he : e.Valid) (hfresh : M e.name = none)
    (hnumber : ∀ name v, M name = some v → name ≠ dot → name ≠ dotDot → v.1 ≠ e.iNo) (hroom : DirectRoom k.disk inode) {io : Buffer}
    {ok : Bool} (hrun : syncDirEntry K inode e.dirEntry io k = .ok ((ok, inode'), k')) : Mapped K (M.add e) k' inode' := by
  have hcard := h.blocks
  have hsize := h.live
  obtain ⟨-, pos, hins⟩ := syncDirEntry_inserted h.entrySize h.layout h.owns h.slots he (by omega) hroom hrun
  have hnum : inode'.iNo = inode.iNo := by rw [hins.fields]
  have hgrows : inode'.iSize = inode.iSize + 24 := by rw [hins.fields]
  have hother : ∀ pos' e', slotMap k.disk inode pos' = some e' → e'.Ordinary → e'.iNo ≠ e.iNo := by
    intro pos' e' he' hord
    exact hnumber _ _ (h.lists.entry pos' e' he') hord.1 hord.2
  have hkeeps : ∀ pos' e', slotMap k.disk inode pos' = some e' → slotMap k'.disk inode' pos' = some e' := by
    intro pos' e' he'
    rw [hins.map, Function.update_of_ne]
    · exact he'
    · rintro rfl
      rw [hins.free] at he'
      cases he'
  refine ⟨⟨h.entrySize, ?_, hins.grown.owns h.owns, hins.onDisk h.onDisk, h.table, ?_, ?_⟩, hins.slots, hins.steady.plenty h.plenty, ?_,
    ?_, ?_, ?_, ?_, ?_⟩
  · rw [hins.grown.len]
    exact h.layout
  · rw [hnum]
    exact h.number
  · omega
  · rw [hins.table]
    exact h.direct
  · rw [hins.map]
    exact h.lists.add hins.free hfresh
  · rw [hins.map]
    exact h.numbered.add hother
  · have hdirect := hins.direct
    rw [hins.map, heldSlots_add hins.free (by omega) hins.range, hgrows, h.live]
    ring
  · obtain ⟨own, parent, hdot, hdots⟩ := h.first
    exact ⟨own, parent, hkeeps _ _ hdot, hkeeps _ _ hdots⟩
  · intro p hp hb
    by_cases hpos : p = pos.1
    · refine ⟨pos.2, e, ?_⟩
      rw [hins.map, hpos]
      exact Function.update_self _ _ _
    · have hrange : p < 140 := by
        by_contra hge
        apply hb
        rw [blockAddr_direct (by rw [hins.table]; exact h.direct), if_neg (by omega)]
      obtain ⟨j, e', he'⟩ := h.filled p hp ((hins.only p hrange hb).resolve_right hpos)
      exact ⟨j, e', hkeeps _ _ he'⟩

theorem Mapped.heap (h : Mapped K M k inode) (hk : HeapOnly k k') : Mapped K M k' inode := by
  have howns : Owns K.toPartition k' inode := by
    refine ⟨?_, ?_⟩
    · unfold UsedBlock
      rw [hk.disk, hk.blockBitmap]
      exact h.owns.used
    · rw [hk.disk]
      exact h.owns.inj
  refine ⟨⟨h.entrySize, ?_, howns, ?_, h.table, h.number, h.size⟩, ?_, hk.plenty h.plenty, h.direct, ?_, ?_, ?_, ?_, ?_⟩
  · rw [hk.blockBitmap]
    exact h.layout
  all_goals rw [hk.disk]
  · exact h.onDisk
  · exact h.slots
  · exact h.lists
  · exact h.numbered
  · exact h.live
  · exact h.first
  · exact h.filled

theorem Mapped.delete (h : Mapped K M k inode) {io : Buffer} {ok : Bool}
    (hrun : deleteDirEntry K inode inodeNo io k = .ok ((ok, inode'), k')) : Mapped K (M.delete inodeNo) k' inode' := by
  rcases deleteDirEntry_effect h.toDirOn h.slots h.direct h.dotted hrun with
    ⟨rfl, hheap, hnone⟩ | ⟨pos, e, he, hord, rfl, hrem, hsize, hno, hsteady⟩
  · rw [h.lists.delete_missing hnone]
    exact h.heap hheap
  obtain ⟨hslot, -, -⟩ := slotMap_eq_some.mp he
  have hkeeps : ∀ pos' e', slotMap k.disk inode pos' = some e' → pos' ≠ pos → slotMap k'.disk inode' pos' = some e' := by
    intro pos' e' he' hne
    rw [hrem.map, Function.update_of_ne hne]
    exact he'
  have hcount := heldSlots_delete he hslot.1 hslot.2.1
  have hlive := h.live
  obtain ⟨own, parent, hdot, hdots⟩ := h.first
  have hdot' : ((0, 0) : ℕ × ℕ) ≠ pos := by
    rintro rfl
    rw [hdot] at he
    obtain rfl := Option.some.inj he
    exact hord.1 rfl
  have hdots' : ((0, 1) : ℕ × ℕ) ≠ pos := by
    rintro rfl
    rw [hdots] at he
    obtain rfl := Option.some.inj he
    exact hord.2 rfl
  have hlive' : inode'.iSize = 24 * (heldSlots (slotMap k'.disk inode')).card := by
    rw [hrem.map, hsize]
    omega
  refine ⟨⟨h.entrySize, ?_, hrem.owns, hrem.onDisk, h.table, ?_, ?_⟩, hrem.slots, hsteady.plenty h.plenty, hrem.table, ?_, ?_, hlive',
    ⟨own, parent, hkeeps _ _ hdot hdot', hkeeps _ _ hdots hdots'⟩, ?_⟩
  · rw [hrem.len]
    exact h.layout
  · rw [hno]
    exact h.number
  · -- `.` is still there
    have hpos : 0 < (heldSlots (slotMap k'.disk inode')).card := by
      apply Finset.card_pos.mpr
      refine ⟨(0, 0), ?_⟩
      rw [mem_heldSlots]
      exact ⟨⟨by decide, by decide⟩, _, hkeeps _ _ hdot hdot'⟩
    omega
  · rw [hrem.map]
    exact h.lists.delete he hord h.numbered
  · rw [hrem.map]
    exact h.numbered.delete
  · intro p hp hb
    by_cases hpos : p = pos.1
    · subst hpos
      exact hrem.left hb hp
    · obtain ⟨j, e', he'⟩ := h.filled p hp (hrem.blocks p hb)
      refine ⟨j, e', hkeeps _ _ he' ?_⟩
      rintro rfl
      exact hpos rfl

/-- A directory as `sys_mkdir` makes it, after it was opened. -/
structure NewDirectory (K : Kernel) (own parent : ℕ) (k : Kern) (inode : Inode) : Prop extends DirOn K k inode where
  plenty : k.Plenty
  words : own < 2 ^ 32 ∧ parent < 2 ^ 32
  two : inode.iSize = 48
  block : inode.iSectors 0 ≠ 0
  others : ∀ p, 1 ≤ p → p < 13 → inode.iSectors p = 0
  bytes : ∀ i < 512, k.disk (inode.iSectors 0 * 512 + i) = dotEntries own parent i

theorem dotEntries_first (own parent : ℕ) {i : ℕ} (hi : i < 24) :
    dotEntries own parent (0 + i) = DirEntry.bytes ⟨nameBytes dot, own, .directory⟩ i := by
  unfold dotEntries
  rw [blit_outside _ _ (by omega), blit_inside _ _ hi]

theorem dotEntries_second (own parent : ℕ) {i : ℕ} (hi : i < 24) :
    dotEntries own parent (24 + i) = DirEntry.bytes ⟨nameBytes dotDot, parent, .directory⟩ i := by
  unfold dotEntries
  rw [blit_inside _ _ hi]

theorem dotEntries_rest (own parent : ℕ) {i : ℕ} (hi : 48 ≤ i) : dotEntries own parent i = 0 := by
  unfold dotEntries
  rw [blit_outside _ _ (by omega), blit_outside _ _ (by omega)]
  rfl

section

variable {own parent : ℕ}

theorem NewDirectory.entry (h : NewDirectory K own parent k inode) {j : ℕ} (hj : j < 21) :
    entryAt k.disk (inode.iSectors 0 * 512 + 24 * j) = if j = 0 then ⟨dot, own, .directory⟩
      else if j = 1 then ⟨dotDot, parent, .directory⟩ else ⟨[], 0, .unknown⟩ := by
  have hbytes : ∀ i < 24, k.disk (inode.iSectors 0 * 512 + 24 * j + i) = dotEntries own parent (24 * j + i) := by
    intro i hi
    rw [Nat.add_assoc]
    exact h.bytes _ (by omega)
  split_ifs with h0 h1
  · subst h0
    apply entryAt_bytes (by decide) (by decide) h.words.1 (by decide)
    intro i hi
    rw [hbytes i hi]
    exact dotEntries_first own parent hi
  · subst h1
    apply entryAt_bytes (by decide) (by decide) h.words.2 (by decide)
    intro i hi
    rw [hbytes i hi]
    exact dotEntries_second own parent hi
  · apply entryAt_zeros
    intro i hi
    rw [hbytes i hi]
    exact dotEntries_rest own parent (by omega)

theorem NewDirectory.slot (h : NewDirectory K own parent k inode) (p j : ℕ) : Slot k.disk inode (p, j) ↔ p = 0 ∧ j < 21 := by
  have hdirect := h.others 12 (by omega) (by omega)
  have hblock : ∀ q, blockAddr k.disk inode q = if q = 0 then inode.iSectors 0 else 0 := by
    intro q
    rw [blockAddr_direct hdirect]
    split_ifs with h12 h0 h0
    · rw [h0]
    · exact h.others q (by omega) (by omega)
    · omega
    · rfl
  unfold Slot
  rw [hblock]
  constructor
  · rintro ⟨-, hj, hb⟩
    split_ifs at hb with h0
    · exact ⟨h0, hj⟩
    · exact absurd rfl hb
  · rintro ⟨rfl, hj⟩
    exact ⟨show 0 < 140 by omega, hj, h.block⟩

theorem NewDirectory.slotMap (h : NewDirectory K own parent k inode) (p j : ℕ) :
    slotMap k.disk inode (p, j) = if p = 0 ∧ j = 0 then some ⟨dot, own, .directory⟩
      else if p = 0 ∧ j = 1 then some ⟨dotDot, parent, .directory⟩ else none := by
  have haddr : slotAddr k.disk inode (0, j) = inode.iSectors 0 * 512 + 24 * j := rfl
  split_ifs with h0 h1
  · obtain ⟨rfl, rfl⟩ := h0
    refine slotMap_eq_some.mpr ⟨(h.slot 0 0).mpr ⟨rfl, by omega⟩, by simp, ?_⟩
    rw [haddr, h.entry (by omega), if_pos rfl]
  · obtain ⟨rfl, rfl⟩ := h1
    refine slotMap_eq_some.mpr ⟨(h.slot 0 1).mpr ⟨rfl, by omega⟩, by simp, ?_⟩
    rw [haddr, h.entry (by omega), if_neg (by omega), if_pos rfl]
  · apply slotMap_eq_none.mpr
    intro hslot
    obtain ⟨rfl, hj⟩ := (h.slot p j).mp hslot
    rw [haddr, h.entry hj, if_neg (by omega), if_neg (by omega)]

theorem NewDirectory.entries (h : NewDirectory K own parent k inode) {pos : ℕ × ℕ} {e : Entry}
    (he : ElephantOS.slotMap k.disk inode pos = some e) :
    (pos = (0, 0) ∧ e = ⟨dot, own, .directory⟩) ∨ (pos = (0, 1) ∧ e = ⟨dotDot, parent, .directory⟩) := by
  obtain ⟨p, j⟩ := pos
  rw [h.slotMap] at he
  split_ifs at he with h0 h1
  · obtain ⟨rfl, rfl⟩ := h0
    exact .inl ⟨rfl, (Option.some.inj he).symm⟩
  · obtain ⟨rfl, rfl⟩ := h1
    exact .inr ⟨rfl, (Option.some.inj he).symm⟩

theorem NewDirectory.first (h : NewDirectory K own parent k inode) :
    ElephantOS.slotMap k.disk inode (0, 0) = some ⟨dot, own, .directory⟩ ∧
      ElephantOS.slotMap k.disk inode (0, 1) = some ⟨dotDot, parent, .directory⟩ := by
  rw [h.slotMap, h.slotMap]
  exact ⟨rfl, rfl⟩

theorem NewDirectory.lists (h : NewDirectory K own parent k inode) : Lists (ElephantOS.slotMap k.disk inode) (NameMap.dots own parent) := by
  refine ⟨?_, ?_, ?_⟩
  · intro pos e he
    rcases h.entries he with ⟨-, rfl⟩ | ⟨-, rfl⟩ <;> rfl
  · intro name v hv
    unfold NameMap.dots at hv
    split_ifs at hv with hdot hdots
    · exact ⟨_, _, h.first.1, hdot.symm⟩
    · exact ⟨_, _, h.first.2, hdots.symm⟩
  · intro pos pos' e e' he he' hname
    rcases h.entries he with ⟨rfl, rfl⟩ | ⟨rfl, rfl⟩ <;> rcases h.entries he' with ⟨rfl, rfl⟩ | ⟨rfl, rfl⟩
    · rfl
    · exact absurd hname (by simp [dot, dotDot])
    · exact absurd hname (by simp [dot, dotDot])
    · rfl

def dotSlots : Finset (ℕ × ℕ) := {(0, 0), (0, 1)}

theorem mem_dotSlots {pos : ℕ × ℕ} : pos ∈ dotSlots ↔ pos = (0, 0) ∨ pos = (0, 1) := by
  simp [dotSlots]

theorem NewDirectory.mapped (h : NewDirectory K own parent k inode) : Mapped K (NameMap.dots own parent) k inode := by
  have hlive : heldSlots (ElephantOS.slotMap k.disk inode) = dotSlots := by
    ext pos
    rw [mem_heldSlots, mem_dotSlots]
    constructor
    · rintro ⟨-, e, he⟩
      exact (h.entries he).imp And.left And.left
    · rintro (rfl | rfl)
      · exact ⟨⟨by decide, by decide⟩, _, h.first.1⟩
      · exact ⟨⟨by decide, by decide⟩, _, h.first.2⟩
  refine ⟨h.toDirOn, ?_, h.plenty, h.others 12 (by omega) (by omega), h.lists, ?_, ?_, ⟨own, parent, h.first⟩, ?_⟩
  · rintro ⟨p, j⟩ hslot
    obtain ⟨rfl, hj⟩ := (h.slot p j).mp hslot
    change (entryAt k.disk (inode.iSectors 0 * 512 + 24 * j)).name.length < 16 ∧
      ((entryAt k.disk (inode.iSectors 0 * 512 + 24 * j)).fType = .unknown ↔ (entryAt k.disk (inode.iSectors 0 * 512 + 24 * j)).name = [])
    rw [h.entry hj]
    split_ifs <;> simp [dot, dotDot]
  · intro pos pos' e e' he _ hord
    rcases h.entries he with ⟨-, rfl⟩ | ⟨-, rfl⟩
    · exact absurd rfl hord.1
    · exact absurd rfl hord.2
  · rw [hlive, h.two]
    rfl
  · intro p hp hb
    have hp140 : p < 140 := by
      by_contra hge
      apply hb
      rw [blockAddr_direct (h.others 12 (by omega) (by omega)), if_neg (by omega)]
    exact absurd ((h.slot p 0).mp ⟨hp140, show 0 < 21 by omega, hb⟩).1 hp

end

/-- Entries are added under new names and numbers while the direct blocks have room, and deleted by number. -/
inductive DirectoryRun (K : Kernel) (own parent : ℕ) (k₀ : Kern) (inode₀ : Inode) : NameMap → Kern → Inode → Prop
  | init : DirectoryRun K own parent k₀ inode₀ (NameMap.dots own parent) k₀ inode₀
  | add {M : NameMap} {k k' : Kern} {inode inode' : Inode} {e : Entry} {io : Buffer} {ok : Bool} :
    DirectoryRun K own parent k₀ inode₀ M k inode → e.Valid → M e.name = none →
    (∀ name v, M name = some v → name ≠ dot → name ≠ dotDot → v.1 ≠ e.iNo) → DirectRoom k.disk inode →
    syncDirEntry K inode e.dirEntry io k = .ok ((ok, inode'), k') → DirectoryRun K own parent k₀ inode₀ (M.add e) k' inode'
  | delete {M : NameMap} {k k' : Kern} {inode inode' : Inode} {inodeNo : ℕ} {io : Buffer} {ok : Bool} :
    DirectoryRun K own parent k₀ inode₀ M k inode → deleteDirEntry K inode inodeNo io k = .ok ((ok, inode'), k') →
    DirectoryRun K own parent k₀ inode₀ (M.delete inodeNo) k' inode'

theorem DirectoryRun.mapped {own parent : ℕ} {k₀ : Kern} {inode₀ : Inode} (h₀ : NewDirectory K own parent k₀ inode₀)
    (h : DirectoryRun K own parent k₀ inode₀ M k inode) : Mapped K M k inode := by
  induction h with
  | init => exact h₀.mapped
  | add _ he hfresh hnumber hroom hrun ih => exact ih.add he hfresh hnumber hroom hrun
  | delete _ hrun ih => exact ih.delete hrun

/-- The directory gives what `M` has for every name, and its size and its blocks are those of its entries. -/
structure Directory (K : Kernel) (M : NameMap) (k : Kern) (inode : Inode) : Prop where
  search : ∀ name, name ≠ [] → 0 ∉ name →
    Runs (searchDirEntry K inode name) k fun r _ => (r.map fun dirE => (dirE.iNo, dirE.fType)) = M name
  size : inode.iSize = 24 * (heldSlots (slotMap k.disk inode)).card
  blocks : ∀ p, 1 ≤ p → p < 12 → inode.iSectors p ≠ 0 → ∃ j e, slotMap k.disk inode (p, j) = some e
  empty : dirIsEmpty K inode = true ↔ ∀ name, M name ≠ none → name = dot ∨ name = dotDot
  removable : dirIsEmpty K inode = true → ∀ blockIdx ∈ List.range' 1 12, inode.iSectors blockIdx = 0

theorem Mapped.search (h : Mapped K M k inode) {name : Name} (hname : name ≠ []) (h0 : 0 ∉ name) :
    Runs (searchDirEntry K inode name) k fun r _ => (r.map fun dirE => (dirE.iNo, dirE.fType)) = M name := by
  obtain ⟨r, k₁, hrun, -⟩ := searchDirEntry_runs name h.plenty h.onDisk
  obtain ⟨-, hlook⟩ := searchDirEntry_ok h.entrySize h.plenty h.slots h0 hname hrun
  refine ⟨r, k₁, hrun, ?_⟩
  cases r with
  | none =>
    cases hM : M name with
    | none => rfl
    | some v =>
      obtain ⟨pos, e, he, hname'⟩ := h.lists.name name v hM
      exact absurd hname' (hlook pos e he)
  | some dirE =>
    obtain ⟨pos, e, hfirst, hino, htype⟩ := hlook
    have hentry := h.lists.entry pos e hfirst.here
    rw [hfirst.named] at hentry
    rw [hentry, Option.map_some, hino, htype]

theorem Mapped.empty (h : Mapped K M k inode) :
    dirIsEmpty K inode = true ↔ ∀ name, M name ≠ none → name = dot ∨ name = dotDot := by
  obtain ⟨own, parent, hdot, hdots⟩ := h.first
  have hsub : dotSlots ⊆ heldSlots (slotMap k.disk inode) := by
    intro pos hpos
    rw [mem_heldSlots]
    rcases mem_dotSlots.mp hpos with rfl | rfl
    · exact ⟨⟨by decide, by decide⟩, _, hdot⟩
    · exact ⟨⟨by decide, by decide⟩, _, hdots⟩
  have htwo : dotSlots.card = 2 := rfl
  have hle := Finset.card_le_card hsub
  have hcard : dirIsEmpty K inode = true ↔ (heldSlots (slotMap k.disk inode)).card ≤ dotSlots.card := by
    unfold dirIsEmpty
    rw [decide_eq_true_eq, h.entrySize, h.live, htwo]
    omega
  rw [hcard]
  constructor
  · intro hcount name hname
    obtain ⟨v, hv⟩ := Option.ne_none_iff_exists'.mp hname
    obtain ⟨pos, e, he, rfl⟩ := h.lists.name name v hv
    have hpos : pos ∈ dotSlots := by
      rw [Finset.eq_of_subset_of_card_le hsub hcount, mem_heldSlots]
      exact ⟨slotMap_range (by rw [he]; simp), e, he⟩
    rcases mem_dotSlots.mp hpos with rfl | rfl
    · rw [hdot] at he
      obtain rfl := Option.some.inj he
      exact .inl rfl
    · rw [hdots] at he
      obtain rfl := Option.some.inj he
      exact .inr rfl
  · intro honly
    apply Finset.card_le_card
    intro pos hpos
    rw [mem_heldSlots] at hpos
    obtain ⟨-, e, he⟩ := hpos
    rw [mem_dotSlots]
    rcases honly e.name (by rw [h.lists.entry pos e he]; simp) with hname | hname
    · exact .inl (h.lists.once _ _ _ _ he hdot hname)
    · exact .inr (h.lists.once _ _ _ _ he hdots hname)

theorem Mapped.directory (h : Mapped K M k inode) : Directory K M k inode where
  search _ hname h0 := h.search hname h0
  size := h.live
  blocks := by
    intro p hp hp12 hb
    apply h.filled p (by omega)
    rw [blockAddr_direct h.direct, if_pos hp12]
    exact hb
  empty := h.empty
  removable := by
    intro hempty p hp
    have honly := h.empty.mp hempty
    rw [List.mem_range'_1] at hp
    by_contra hb
    have hp12 : p < 12 := by
      by_contra hge
      obtain rfl : p = 12 := by omega
      exact hb h.direct
    obtain ⟨j, e, he⟩ := h.filled p (by omega) (by rw [blockAddr_direct h.direct, if_pos hp12]; exact hb)
    have hlisted := h.lists.entry _ e he
    have hnot : ¬ e.Ordinary := by
      intro hord
      rcases honly e.name (by rw [hlisted]; simp) with hdot | hdots
      · exact hord.1 hdot
      · exact hord.2 hdots
    have hzero : p = 0 := h.dotted.only _ _ he hnot
    omega

end

section

variable {K : Kernel} {k k₁ : Kern} {P : Inode} {lba : ℕ} {bytes : Memory}

theorem newBlock_off (hl : Layout K.toPartition k.blockBitmap.btmpBytesLen) (ho : Owns K.toPartition k P)
    (ha : Allocated K.toPartition [lba] k k₁) {q : ℕ} (hq : q < 141) (hne : refAddr k.disk P q ≠ 0) {a : ℕ}
    (hmem : a ∈ sector (refAddr k.disk P q)) : blit k₁.disk (lba * 512) bytes (1 * 512) a = k.disk a := by
  have hused := ho.used q hq hne
  have hfree := ha.fresh lba (List.mem_singleton_self _)
  have hother : a ∉ sector lba := by
    intro hmem'
    rw [sector_disjoint hmem hmem'] at hused
    exact hused.not_free hfree
  have hout : a < lba * 512 ∨ lba * 512 + 1 * 512 ≤ a := by
    by_contra hin
    exact hother ⟨by omega, by omega⟩
  rw [blit_outside _ _ hout]
  exact ha.disk a (hl.data_off (sector_data hused.1 hmem))

theorem newBlock_refs (hl : Layout K.toPartition k.blockBitmap.btmpBytesLen) (ho : Owns K.toPartition k P)
    (ha : Allocated K.toPartition [lba] k k₁) {q : ℕ} (hq : q < 141) :
    refAddr (blit k₁.disk (lba * 512) bytes (1 * 512)) P q = refAddr k.disk P q := by
  refine refAddr_congr (fun _ _ => rfl) (fun ht i hi => ?_) hq
  apply newBlock_off hl ho ha (show 140 < 141 by omega) (by rw [refAddr_table]; exact ht)
  rw [refAddr_table]
  exact ⟨by omega, by omega⟩

theorem Owns.newBlock (hl : Layout K.toPartition k.blockBitmap.btmpBytesLen) (ho : Owns K.toPartition k P)
    (ha : Allocated K.toPartition [lba] k k₁) :
    Owns K.toPartition { k₁ with disk := blit k₁.disk (lba * 512) bytes (1 * 512) } P := by
  refine ⟨fun q hq hne => ?_, fun q hq r hr hne heq => ?_⟩
  · rw [newBlock_refs hl ho ha hq] at hne ⊢
    obtain ⟨h1, h2, h3⟩ := ho.used q hq hne
    refine ⟨h1, ?_, ?_⟩
    · rw [ha.len]
      exact h2
    · rw [ha.bits, h3, Bool.true_or]
  · rw [newBlock_refs hl ho ha hq] at hne heq
    rw [newBlock_refs hl ho ha hr] at heq
    exact ho.inj q hq r hr hne heq

theorem DirectRoom.newBlock (h : DirectRoom k.disk P) (hl : Layout K.toPartition k.blockBitmap.btmpBytesLen) (ho : Owns K.toPartition k P)
    (ha : Allocated K.toPartition [lba] k k₁) : DirectRoom (blit k₁.disk (lba * 512) bytes (1 * 512)) P := by
  obtain ⟨p, hp, hfree⟩ := h
  by_cases hz : P.iSectors p = 0
  · exact ⟨p, hp, .inl hz⟩
  · obtain ⟨j, hj, hlive⟩ := hfree.resolve_left hz
    refine ⟨p, hp, .inr ⟨j, hj, ?_⟩⟩
    have href : refAddr k.disk P p = P.iSectors p := by
      rw [refAddr_block _ _ (by omega), blockAddr, if_pos hp]
    rw [entryAt_congr (m := k.disk)]
    · exact hlive
    · intro i hi
      apply newBlock_off hl ho ha (show p < 141 by omega) (by rw [href]; exact hz)
      rw [href]
      exact ⟨by omega, by omega⟩

theorem newBlock_apart (hl : Layout K.toPartition k.blockBitmap.btmpBytesLen) (ho : Owns K.toPartition k P)
    (ha : Allocated K.toPartition [lba] k k₁) {k' : Kern} {P' : Inode}
    (hg : Grown K.toPartition { k₁ with disk := blit k₁.disk (lba * 512) bytes (1 * 512) } P k' P') {q : ℕ} (hq : q < 141) :
    refAddr k'.disk P' q ≠ lba := by
  have hfree := ha.fresh lba (List.mem_singleton_self _)
  have hpos : lba ≠ 0 := by
    have := hl.data_pos
    omega
  have htaken : k₁.blockBitmap.scanTest (lba - K.sb.dataStartLba) = true := by
    rw [ha.bits, Nat.add_sub_cancel' hfree.1]
    simp
  intro heq
  have hold : refAddr (blit k₁.disk (lba * 512) bytes (1 * 512)) P q = refAddr k.disk P q := newBlock_refs hl ho ha hq
  by_cases hz : refAddr k.disk P q = 0
  · have hnew := hg.fresh q hq (by rw [hold]; exact hz) (by rw [heq]; exact hpos)
    rw [heq] at hnew
    have hclear := hnew.2.2
    rw [htaken] at hclear
    cases hclear
  · have hkept := hg.keep q hq (by rw [hold]; exact hz)
    rw [hold] at hkept
    have hused := ho.used q hq hz
    rw [← hkept, heq] at hused
    exact hused.not_free hfree

end

section

variable {K : Kernel} {s s' s'' : Fs} {parentDir : Dir} {dirname : Name} {n lba : ℕ} {io : Buffer} {k₁ : Kern} {p : Ptr}

def newDirInode (K : Kernel) (n lba : ℕ) : Inode :=
  { (inodeInit n Inode.zero).setSector 0 lba with iSize := 2 * K.sb.dirEntrySize }

theorem newDirInode_sectors (q : ℕ) : (newDirInode K n lba).iSectors q = if q = 0 then lba else 0 := by
  change Function.update (inodeInit n Inode.zero).iSectors 0 lba q = _
  by_cases hq : q = 0
  · rw [hq, Function.update_self, if_pos rfl]
  · rw [Function.update_of_ne hq, if_neg hq]
    rfl

structure Made (K : Kernel) (parent n lba : ℕ) (k k' : Kern) : Prop where
  steady : Steady k k'
  len : k'.blockBitmap.btmpBytesLen = k.blockBitmap.btmpBytesLen
  used : UsedBlock K.toPartition k' lba
  onDisk : lba ≤ maxLba
  bytes : ∀ i < 512, k'.disk (lba * 512 + i) = dotEntries n parent i
  stored : ∀ i < 76, k'.disk (inodeAddr K.toPartition n + i) = wordBytes (newDirInode K n lba).pureWords i

theorem inodeBitmapSync_off (hl : Layout K.toPartition k₁.blockBitmap.btmpBytesLen) (hn : n < 4096) {u : Unit} {k' : Kern}
    (h : bitmapSync K n .inodeBitmap k₁ = .ok (u, k')) {a : ℕ} (ha : K.sb.inodeTableLba * 512 ≤ a) : k'.disk a = k₁.disk a := by
  obtain ⟨-, rfl⟩ := (bitmapSync_inode K n u k₁ k').mp h
  have hsector := Nat.mul_le_mul_right 512 hl.inodeBitmap
  have hdiv : n / 4096 = 0 := Nat.div_eq_of_lt hn
  rw [hdiv]
  exact blit_outside _ _ (by omega)

def newDirBytes (io : Memory) (n parent : ℕ) : Memory := blit (blit io 0 zeros 1024) 0 (dotEntries n parent) 512

theorem newDirBytes_apply (io : Memory) (n parent : ℕ) {i : ℕ} (hi : i < 512) : newDirBytes io n parent i = dotEntries n parent i := by
  have := @blit_inside (blit io 0 zeros 1024) (dotEntries n parent) 0 _ _ hi
  rwa [Nat.zero_add] at this

theorem makeDir_stages (hmake : makeDir K parentDir dirname n lba io { s with kern := k₁ } = .ok (true, s')) :
    ∃ k₂ entry io' P' Q k₄ k₅ k₆, bitmapSync K (lba - K.sb.dataStartLba) .blockBitmap k₁ = .ok ((), k₂) ∧ sectorRange lba 1 ∧
      syncDirEntry K (s.inodes (parentDir.inode s)) entry io'
        { k₂ with disk := blit k₂.disk (lba * 512) (newDirBytes io.bytes n (s.inodes (parentDir.inode s)).iNo) (1 * 512) } =
          .ok ((true, P'), k₄) ∧
      inodeSync K Q io' k₄ = .ok ((), k₅) ∧ inodeSync K (newDirInode K n lba) io' k₅ = .ok ((), k₆) ∧
      bitmapSync K n .inodeBitmap k₆ = .ok ((), s'.kern) := by
  have hinode : ∀ k : Kern, parentDir.inode { s with kern := k } = parentDir.inode s := by
    intro k
    cases parentDir <;> rfl
  unfold makeDir at hmake
  simp only [bind_ok, assert_ok, get_ok, liftKern_ok] at hmake
  obtain ⟨_, _, ⟨-, rfl⟩, _, _, ⟨k₂, hsync, rfl⟩, _, _, ⟨rfl, rfl⟩, _, _, ⟨k₃, hwrite, rfl⟩, entry, _, hcreate,
    ok, s₄, hdir, hmake⟩ := hmake
  obtain rfl := createDirEntry_ok hcreate
  obtain ⟨P', k₄, hins, rfl⟩ := onDirInode_result hdir
  cases ok with
  | false => simp at hmake
  | true =>
    simp only [Bool.not_true, Bool.false_eq_true, if_false, bind_ok, get_ok, liftKern_ok, pure_ok] at hmake
    obtain ⟨_, _, ⟨rfl, rfl⟩, _, _, ⟨k₅, hparent, rfl⟩, _, _, ⟨k₆, hnew, rfl⟩, _, _, ⟨k₇, hbits, rfl⟩, -, rfl⟩ := hmake
    obtain ⟨hrange, rfl⟩ := (ideWrite_ok _ _ _ _ _ _).mp hwrite
    simp only [hinode] at hins
    exact ⟨k₂, entry, _, P', _, k₄, k₅, k₆, hsync, hrange, hins, hparent, hnew, hbits⟩

theorem makeDir_made (hentry : K.sb.dirEntrySize = 24) (hl : Layout K.toPartition s.kern.blockBitmap.btmpBytesLen)
    (ho : Owns K.toPartition s.kern (s.inodes (parentDir.inode s))) (hroom : DirectRoom s.kern.disk (s.inodes (parentDir.inode s)))
    (hsize : (s.inodes (parentDir.inode s)).iSize + 24 < 2 ^ 32) (hn : n < 4096) (hslot : K.inodeNo n = n)
    (halloc : blockBitmapAlloc K s.kern = .ok (some lba, k₁))
    (hmake : makeDir K parentDir dirname n lba io { s with kern := k₁ } = .ok (true, s')) :
    Made K (s.inodes (parentDir.inode s)).iNo n lba s.kern s'.kern := by
  obtain ⟨lba', hlba, ha₁, -⟩ := blockBitmapAlloc_allocated halloc
  obtain rfl := Option.some.inj hlba
  obtain ⟨k₂, entry, io', P', Q, k₄, k₅, k₆, hsync, hrange, hins, hparent, hnew, hbits⟩ := makeDir_stages hmake
  obtain ⟨ha, -, -⟩ := ha₁.synced hl.whole hsync
  have hfree := ha.fresh lba (List.mem_singleton_self _)
  have hl₂ : Layout K.toPartition k₂.blockBitmap.btmpBytesLen := by
    rw [ha.len]
    exact hl
  generalize hby : newDirBytes io.bytes n (s.inodes (parentDir.inode s)).iNo = bytes at hins
  generalize hk₃ : ({ k₂ with disk := blit k₂.disk (lba * 512) bytes (1 * 512) } : Kern) = k₃ at hins
  have ho₃ : Owns K.toPartition k₃ (s.inodes (parentDir.inode s)) := by
    rw [← hk₃]
    exact ho.newBlock hl ha
  have hroom₃ : DirectRoom k₃.disk (s.inodes (parentDir.inode s)) := by
    rw [← hk₃]
    exact hroom.newBlock hl ho ha
  have hl₃ : Layout K.toPartition k₃.blockBitmap.btmpBytesLen := by
    rw [← hk₃]
    exact hl₂
  obtain ⟨-, pos, hst⟩ := syncDirEntry_stored hentry hl₃ ho₃ hsize hroom₃ hins
  have hl₄ : Layout K.toPartition k₄.blockBitmap.btmpBytesLen := by
    rw [hst.grown.len]
    exact hl₃
  obtain ⟨hdata₅, hbits₅, hsteady₅⟩ := inodeSync_data hl₄ hparent
  have hl₅ : Layout K.toPartition k₅.blockBitmap.btmpBytesLen := by
    rw [hbits₅]
    exact hl₄
  obtain ⟨hdata₆, hbits₆, hsteady₆⟩ := inodeSync_data hl₅ hnew
  have hl₆ : Layout K.toPartition k₆.blockBitmap.btmpBytesLen := by
    rw [hbits₆]
    exact hl₅
  have hoff := @inodeBitmapSync_off K n k₆ hl₆ hn _ s'.kern hbits
  obtain ⟨-, hlast⟩ := (bitmapSync_inode K n _ k₆ s'.kern).mp hbits
  have hblocks₇ : s'.kern.blockBitmap = k₄.blockBitmap := by
    rw [hlast]
    exact hbits₆.trans hbits₅
  have hused₃ : UsedBlock K.toPartition k₃ lba := by
    rw [← hk₃]
    refine ⟨hfree.1, ?_, ?_⟩
    · rw [ha.len]
      exact hfree.2.1
    · rw [ha.bits, Nat.add_sub_cancel' hfree.1]
      simp
  have hused₄ := hst.grown.used hused₃
  refine ⟨?_, ?_, ?_, (sectorRange_one.mp hrange), ?_, ?_⟩
  · have hsteady₂ : Steady s.kern k₂ := ⟨ha.pool, by rw [ha.heap], by rw [ha.heap]⟩
    have hsteady₇ : Steady k₆ s'.kern := by
      rw [hlast]
      exact ⟨rfl, rfl, le_refl _⟩
    have hsteady₃ : Steady k₂ k₃ := by
      rw [← hk₃]
      exact ⟨rfl, rfl, le_refl _⟩
    exact ((((hsteady₂.trans hsteady₃).trans hst.steady).trans hsteady₅).trans hsteady₆).trans hsteady₇
  · rw [hblocks₇, hst.grown.len, ← hk₃]
    exact ha.len
  · unfold UsedBlock
    rw [hblocks₇]
    exact hused₄
  · intro i hi
    have hlow : K.sb.dataStartLba * 512 ≤ lba * 512 + i := (Nat.mul_le_mul_right 512 hfree.1).trans (Nat.le_add_right _ _)
    have htable : K.sb.inodeTableLba * 512 ≤ lba * 512 + i :=
      (Nat.mul_le_mul_right 512 (Nat.le_of_add_right_le hl.inodeTable)).trans hlow
    have hmem : lba * 512 + i ∈ sector lba := ⟨Nat.le_add_right _ _, Nat.add_lt_add_left hi _⟩
    have hout : lba * 512 + i ∉ blockBitmapArea K.toPartition k₃.blockBitmap.btmpBytesLen ∪ ownSectors k₄.disk P' := by
      rintro (hmap | ⟨q, hq, -, hmem'⟩)
      · exact hl₃.data_off hlow hmap
      · have hgrown := hst.grown
        rw [← hk₃] at hgrown
        exact newBlock_apart hl ho ha hgrown hq (sector_disjoint hmem' hmem)
    rw [hoff htable, hdata₆ _ hlow, hdata₅ _ hlow, hst.disk _ hout, ← hk₃]
    change blit _ (lba * 512) _ (1 * 512) (lba * 512 + i) = _
    rw [blit_inside _ _ (by omega), ← hby]
    exact newDirBytes_apply _ _ _ hi
  · intro i hi
    have htable : K.sb.inodeTableLba * 512 ≤ inodeAddr K.toPartition n + i := by
      unfold inodeAddr
      rw [Nat.add_assoc]
      exact Nat.le_add_right _ _
    obtain ⟨-, hheap⟩ := inodeSync_ok hnew
    rw [hoff htable, hheap.disk]
    change blit k₅.disk (inodeAddr K.toPartition (K.inodeNo n)) (wordBytes (newDirInode K n lba).pureWords) inodeSize _ = _
    rw [hslot]
    exact blit_inside _ _ hi

theorem newDirInode_fits (hentry : K.sb.dirEntrySize = 24) (hn : n < 4096) (hlba : lba < 2 ^ 32) : (newDirInode K n lba).Fits := by
  refine ⟨?_, ?_, fun q _ => ?_⟩
  · change n < 2 ^ 32
    omega
  · change 2 * K.sb.dirEntrySize < 2 ^ 32
    omega
  · rw [newDirInode_sectors]
    split_ifs <;> omega

theorem Made.opened {parent : ℕ} {k : Kern} (h : Made K parent n lba k s'.kern) (hentry : K.sb.dirEntrySize = 24)
    (hl : Layout K.toPartition k.blockBitmap.btmpBytesLen) (htable : TableOnDisk K.toPartition) (hplenty : k.Plenty)
    (hparent : parent < 2 ^ 32) (hn : n < 4096) (hslot : K.inodeNo n = n) (hmiss : cached s' n = none)
    (hopen : inodeOpen K n s' = .ok (p, s'')) : NewDirectory K n parent s''.kern (s''.inodes p) := by
  obtain ⟨-, rfl, hheap, -, he⟩ := inodeOpen_miss hmiss hopen
  have hinode : s''.inodes ⟨s'.kern.heap.next, .kernel⟩ = openedInode K.toPartition s'.kern.disk n := by
    rw [he]
    exact Function.update_self _ _ _
  rw [hinode]
  have hlba : lba < 2 ^ 32 := by
    have hwords := hl.words
    have hrange := h.used.2.1
    rw [h.len] at hrange
    omega
  obtain ⟨hsame, -⟩ := Inode.load_pureWords (newDirInode_fits hentry hn hlba) h.stored
  have hsectors : ∀ q < 13, (openedInode K.toPartition s'.kern.disk n).iSectors q = if q = 0 then lba else 0 := by
    intro q hq
    rw [← newDirInode_sectors (K := K) (n := n)]
    exact hsame.iSectors q hq
  have hdirect : (openedInode K.toPartition s'.kern.disk n).iSectors 12 = 0 := hsectors 12 (by omega)
  have hrefs : ∀ d q, refAddr d (openedInode K.toPartition s'.kern.disk n) q = if q = 0 then lba else 0 := by
    intro d q
    rw [refAddr_direct hdirect]
    split_ifs with h12 h0 h0
    · rw [h0]
      exact hsectors 0 (by omega)
    · rw [hsectors q (by omega), if_neg h0]
    · omega
    · rfl
  have hpos : lba ≠ 0 := by
    have hdata := hl.data_pos
    have hlow := h.used.1
    omega
  have hfirst : (openedInode K.toPartition s'.kern.disk n).iSectors 0 = lba := hsectors 0 (by omega)
  refine ⟨⟨hentry, ?_, ⟨?_, ?_⟩, ?_, htable, ?_, ?_⟩, ?_, ⟨by omega, hparent⟩, ?_, ?_, ?_, ?_⟩
  · rw [hheap.blockBitmap, h.len]
    exact hl
  · intro q _ hne
    rw [hrefs] at hne ⊢
    split_ifs at hne ⊢
    · unfold UsedBlock
      rw [hheap.blockBitmap]
      exact h.used
    · exact absurd rfl hne
  · intro q _ r _ hne heq
    rw [hrefs] at hne
    rw [hrefs, hrefs] at heq
    split_ifs at hne heq <;> omega
  · intro q _
    rw [hrefs]
    split_ifs
    · exact h.onDisk
    · exact Nat.zero_le _
  · change K.inodeNo (Inode.load s'.kern.disk (inodeAddr K.toPartition n)).iNo < 4096
    rw [hsame.iNo]
    change K.inodeNo n < 4096
    rw [hslot]
    exact hn
  · change 24 ≤ (Inode.load s'.kern.disk (inodeAddr K.toPartition n)).iSize
    rw [hsame.iSize]
    change 24 ≤ 2 * K.sb.dirEntrySize
    omega
  · exact hheap.plenty (h.steady.plenty hplenty)
  · change (Inode.load s'.kern.disk (inodeAddr K.toPartition n)).iSize = 48
    rw [hsame.iSize]
    change 2 * K.sb.dirEntrySize = 48
    omega
  · rw [hfirst]
    exact hpos
  · intro q hq hq13
    rw [hsectors q hq13, if_neg (by omega)]
  · intro i hi
    rw [hfirst, hheap.disk]
    exact h.bytes i hi

end

/-- In its direct blocks a directory is a finite map from names, whatever is added to it and deleted from it. -/
theorem directory_finite_map (K : Kernel) (own parent : ℕ) (k₀ k : Kern) (inode₀ inode : Inode) (M : NameMap)
    (h₀ : NewDirectory K own parent k₀ inode₀) (h : DirectoryRun K own parent k₀ inode₀ M k inode) : Directory K M k inode :=
  (h.mapped h₀).directory

def emptyDir : Inode :=
  { (inodeInit 1 Inode.zero).setSector 0 smallPartition.sb.dataStartLba with
    iSize := 48
    iOpenCnts := 1
    inodeTag := ⟨.linked, .linked⟩ }

def emptyDirKern : Kern :=
  { oneFile.kern with disk := blit oneFile.kern.disk (smallPartition.sb.dataStartLba * 512) (dotEntries 1 0) 512 }

theorem emptyDir_sectors {p : ℕ} (hp : p ≠ 0) : emptyDir.iSectors p = 0 := by
  change Function.update (inodeInit 1 Inode.zero).iSectors 0 smallPartition.sb.dataStartLba p = 0
  rw [Function.update_of_ne hp]
  rfl

theorem emptyDir_first : emptyDir.iSectors 0 = smallPartition.sb.dataStartLba := by
  change Function.update (inodeInit 1 Inode.zero).iSectors 0 smallPartition.sb.dataStartLba 0 = _
  rw [Function.update_self]

theorem emptyDir_refs {d : Memory} (p : ℕ) : refAddr d emptyDir p = if p = 0 then smallPartition.sb.dataStartLba else 0 := by
  rw [refAddr_direct (emptyDir_sectors (by omega))]
  by_cases hp : p = 0
  · rw [hp, emptyDir_first]
    rfl
  · rw [emptyDir_sectors hp, ite_self, if_neg hp]

theorem emptyDir_new : NewDirectory smallPartition.kernel 1 0 emptyDirKern emptyDir where
  entrySize := rfl
  layout := oneFile_openDir.layout
  owns := by
    refine ⟨?_, ?_⟩
    · intro p hp hne
      rw [emptyDir_refs] at hne ⊢
      split_ifs at hne ⊢
      · exact ⟨le_refl _, by decide, by decide⟩
      · exact absurd rfl hne
    · intro p hp q hq hne heq
      rw [emptyDir_refs] at hne
      rw [emptyDir_refs, emptyDir_refs] at heq
      split_ifs at hne heq <;> omega
  onDisk := by
    intro p hp
    rw [emptyDir_refs]
    split_ifs <;> decide
  table := ⟨by decide, by decide⟩
  number := by decide
  size := by decide
  plenty := fun _ => rfl
  words := ⟨by decide, by decide⟩
  two := rfl
  block := by
    rw [emptyDir_first]
    decide
  others := fun p hp _ => emptyDir_sectors (by omega)
  bytes := by
    intro i hi
    unfold emptyDirKern
    dsimp only
    rw [emptyDir_first, blit_inside _ _ hi]

theorem directory_finite_map_one : ∃ inode k, DirectoryRun smallPartition.kernel 1 0 emptyDirKern emptyDir
      ((NameMap.dots 1 0).add ⟨[97], 2, .regular⟩) k inode ∧
    Directory smallPartition.kernel ((NameMap.dots 1 0).add ⟨[97], 2, .regular⟩) k inode := by
  obtain ⟨⟨ok, inode⟩, k, hrun, -⟩ := runs_of_runsTo
    (m := syncDirEntry smallPartition.kernel emptyDir (Entry.dirEntry ⟨[97], 2, .regular⟩) ⟨⟨0, .kernel⟩, 1024, zeros⟩) (s := emptyDirKern)
    (p := fun r _ => r.1) (by decide +kernel)
  have hreach : DirectoryRun smallPartition.kernel 1 0 emptyDirKern emptyDir ((NameMap.dots 1 0).add ⟨[97], 2, .regular⟩) k inode := by
    refine .add .init ⟨by decide, by decide, by decide, by decide, .inl rfl⟩ (by decide) ?_ ⟨1, by decide, .inl rfl⟩ hrun
    intro name v hv hdot hdots
    unfold NameMap.dots at hv
    rw [if_neg hdot, if_neg hdots] at hv
    cases hv
  exact ⟨inode, k, hreach, directory_finite_map _ _ _ _ _ _ _ _ emptyDir_new hreach⟩

end ElephantOS
