import ElephantOS.PageWalk

namespace ElephantOS.Paging

def Aligned (f : Word) : Prop := frame f = f

def slot (f : Word) (i : ℕ) : Word := f + BitVec.ofNat 32 (4 * i)

def entry (mem : PhysMem) (f : Word) (i : ℕ) : Word := mem (slot f i)

/-- The frame an entry points to, if it is present. -/
def entryFrame (mem : PhysMem) (f : Word) (i : ℕ) : Option Word :=
  if present (entry mem f i) then some (frame (entry mem f i)) else none

theorem aligned_iff (f : Word) : Aligned f ↔ f.toNat % 4096 = 0 := by
  rw [Aligned, ← BitVec.toNat_inj, toNat_frame]
  omega

theorem aligned_frame (w : Word) : Aligned (frame w) := by
  rw [aligned_iff, toNat_frame]
  omega

theorem toNat_slot {f : Word} {i : ℕ} (hf : Aligned f) (hi : i < 1024) : (slot f i).toNat = f.toNat + 4 * i := by
  have hlt := f.isLt
  have hmod := (aligned_iff f).mp hf
  rw [slot, BitVec.toNat_add, BitVec.toNat_ofNat]
  omega

theorem frame_slot {f : Word} {i : ℕ} (hf : Aligned f) (hi : i < 1024) : frame (slot f i) = f := by
  have hmod := (aligned_iff f).mp hf
  apply BitVec.eq_of_toNat_eq
  rw [toNat_frame, toNat_slot hf hi]
  omega

theorem slot_inj {f g : Word} {i j : ℕ} (hf : Aligned f) (hg : Aligned g) (hi : i < 1024) (hj : j < 1024)
    (h : slot f i = slot g j) : f = g ∧ i = j := by
  have hfg : f = g := by rw [← frame_slot hf hi, h, frame_slot hg hj]
  refine ⟨hfg, ?_⟩
  have hnat := congrArg BitVec.toNat h
  rw [toNat_slot hf hi, toNat_slot hg hj, hfg] at hnat
  omega

theorem frame_or_seven {f : Word} (hf : Aligned f) : frame (f ||| 7#32) = f := by
  have hmask : (7#32 : Word) &&& 0xfffff000#32 = 0#32 := by decide
  have hf' : f &&& 0xfffff000#32 = f := hf
  rw [frame, BitVec.and_or_distrib_right, hf', hmask, BitVec.or_zero]

theorem present_or_seven (f : Word) : present (f ||| 7#32) = true := by
  simp [present]

theorem present_and_clear (w : Word) : present (w &&& 0xfffffffe#32) = false := by
  simp [present]

theorem present_zero : present 0 = false := by decide

section

variable {mem mem' : PhysMem} {f g w : Word} {i j : ℕ}

theorem entryFrame_some : entryFrame mem f i = some g ↔ present (entry mem f i) = true ∧ frame (entry mem f i) = g := by
  unfold entryFrame
  split_ifs with h
  · simp [h]
  · simp [h]

theorem entryFrame_none : entryFrame mem f i = none ↔ present (entry mem f i) = false := by
  unfold entryFrame
  split_ifs with h
  · simp [h]
  · simp [h]

theorem entryFrame_aligned (h : entryFrame mem f i = some g) : Aligned g := by
  rw [← (entryFrame_some.mp h).2]
  exact aligned_frame _

theorem entryFrame_congr (h : entry mem' f i = entry mem f i) : entryFrame mem' f i = entryFrame mem f i := by
  rw [entryFrame, entryFrame, h]

theorem entry_update (hf : Aligned f) (hg : Aligned g) (hi : i < 1024) (hj : j < 1024) :
    entry (Function.update mem (slot f i) w) g j = if g = f ∧ j = i then w else entry mem g j := by
  rw [entry, Function.update_apply]
  split_ifs with h h' h'
  · rfl
  · exact absurd (slot_inj hg hf hj hi h) h'
  · rw [h'.1, h'.2] at h
    exact absurd rfl h
  · rfl

theorem entry_outside (hsame : ∀ a, frame a ≠ f → mem' a = mem a) (hg : Aligned g) (hj : j < 1024) (hne : g ≠ f) :
    entry mem' g j = entry mem g j := by
  apply hsame
  rw [frame_slot hg hj]
  exact hne

theorem pdeAddr_eq (hf : Aligned f) (v : Word) : pdeAddr f v = slot f (v.toNat / 4096 / 1024) := by
  have hv := v.isLt
  have hf' : frame f = f := hf
  rw [pdeAddr, slot, hf']
  congr 1
  apply BitVec.eq_of_toNat_eq
  rw [BitVec.toNat_mul, BitVec.toNat_ushiftRight, Nat.shiftRight_eq_div_pow, BitVec.toNat_ofNat, BitVec.toNat_ofNat]
  omega

theorem pteAddr_eq (pde v : Word) : pteAddr pde v = slot (frame pde) (v.toNat / 4096 % 1024) := by
  rw [pteAddr, slot]
  congr 1
  apply BitVec.eq_of_toNat_eq
  rw [BitVec.toNat_mul, toNat_mid_ten, BitVec.toNat_ofNat, BitVec.toNat_ofNat]
  omega

theorem walk_eq (hf : Aligned f) (v : Word) :
    walk mem f v = (entryFrame mem f (v.toNat / 4096 / 1024)).bind fun t =>
      (entryFrame mem t (v.toNat / 4096 % 1024)).map fun p => p + (v &&& 0xfff#32) := by
  have hentry : ∀ a k, mem (slot a k) = entry mem a k := fun _ _ => rfl
  simp only [walk, pdeAddr_eq hf, pteAddr_eq, hentry, entryFrame]
  by_cases h : present (entry mem f (v.toNat / 4096 / 1024)) = true
  · simp only [h, if_true, Option.bind_some]
    split_ifs with h'
    · rw [Option.map_some]
    · rw [Option.map_none]
  · simp only [h, Bool.false_eq_true, if_false, Option.bind_none]

theorem selfMapped_of_entry (hf : Aligned f) (h : entryFrame mem f 1023 = some f) : SelfMapped mem f := by
  have hslot : frame f + 1023#32 * 4#32 = slot f 1023 := by
    have hf' : frame f = f := hf
    rw [hf', slot]
    rfl
  obtain ⟨hp, hfr⟩ := entryFrame_some.mp h
  constructor
  · rw [hslot]
    exact hp
  · have hf' : frame f = f := hf
    rw [hslot, hf']
    exact hfr

end

end ElephantOS.Paging
