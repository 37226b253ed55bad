import Mathlib.Tactic

/-!
The two-level page walk of the processor, and `kernel/memory.c`'s access to the page tables
through the directory's last entry.
-/

namespace ElephantOS

abbrev Word := BitVec 32

/-- Physical memory as the 32-bit words at its addresses. -/
abbrev PhysMem := Word → Word

def present (entry : Word) : Bool := entry.getLsbD 0

def frame (entry : Word) : Word := entry &&& 0xfffff000#32

def pdeIdx (vaddr : Word) : Word := (vaddr &&& 0xffc00000#32) >>> 22

def pteIdx (vaddr : Word) : Word := (vaddr &&& 0x003ff000#32) >>> 12

/-- Where the walk from `cr3` finds the directory entry of an address. -/
def pdeAddr (cr3 vaddr : Word) : Word := frame cr3 + (vaddr >>> 22) * 4#32

/-- Where the walk finds the page-table entry, the directory entry being `pde`. -/
def pteAddr (pde vaddr : Word) : Word := frame pde + (vaddr >>> 12 &&& 0x3ff#32) * 4#32

def walk (mem : PhysMem) (cr3 vaddr : Word) : Option Word :=
  let pde := mem (pdeAddr cr3 vaddr)
  if present pde then
    let pte := mem (pteAddr pde vaddr)
    if present pte then some (frame pte + (vaddr &&& 0xfff#32)) else none
  else none

/-- A load from a virtual address; `none` is a page fault. -/
def loadVirt (mem : PhysMem) (cr3 vaddr : Word) : Option Word := (walk mem cr3 vaddr).map mem

def ptePtr (vaddr : Word) : Word := 0xffc00000#32 + ((vaddr &&& 0xffc00000#32) >>> 10) + pteIdx vaddr * 4#32

def pdePtr (vaddr : Word) : Word := 0xfffff000#32 + pdeIdx vaddr * 4#32

def addrV2p (mem : PhysMem) (cr3 vaddr : Word) : Option Word :=
  (loadVirt mem cr3 (ptePtr vaddr)).map fun pte => frame pte + (vaddr &&& 0x00000fff#32)

/-- The directory's last entry points to the directory. -/
structure SelfMapped (mem : PhysMem) (cr3 : Word) : Prop where
  present : present (mem (frame cr3 + 1023#32 * 4#32)) = true
  frame : frame (mem (frame cr3 + 1023#32 * 4#32)) = frame cr3

theorem and_top_ten (v : Word) : v &&& 0xffc00000#32 = v >>> 22 <<< 22 := by
  apply BitVec.eq_of_getLsbD_eq
  intro i hi
  interval_cases i <;> simp

theorem and_mid_ten (v : Word) : (v &&& 0x003ff000#32) >>> 12 = v >>> 12 &&& 0x3ff#32 := by
  apply BitVec.eq_of_getLsbD_eq
  intro i hi
  interval_cases i <;> simp

theorem and_page (v : Word) : v &&& 0xfffff000#32 = v >>> 12 <<< 12 := by
  apply BitVec.eq_of_getLsbD_eq
  intro i hi
  interval_cases i <;> simp

theorem toNat_top_ten (v : Word) : (v &&& 0xffc00000#32).toNat = v.toNat / 2 ^ 22 * 2 ^ 22 := by
  have := v.isLt
  rw [and_top_ten, BitVec.toNat_shiftLeft, BitVec.toNat_ushiftRight, Nat.shiftRight_eq_div_pow, Nat.shiftLeft_eq]
  omega

theorem toNat_mid_ten (v : Word) : (v >>> 12 &&& 0x3ff#32).toNat = v.toNat / 4096 % 1024 := by
  rw [BitVec.toNat_and, BitVec.toNat_ushiftRight, Nat.shiftRight_eq_div_pow]
  exact Nat.and_two_pow_sub_one_eq_mod _ 10

theorem toNat_offset (v : Word) : (v &&& 0xfff#32).toNat = v.toNat % 4096 := by
  rw [BitVec.toNat_and]
  exact Nat.and_two_pow_sub_one_eq_mod _ 12

theorem toNat_frame (v : Word) : (frame v).toNat = v.toNat / 4096 * 4096 := by
  have := v.isLt
  rw [frame, and_page, BitVec.toNat_shiftLeft, BitVec.toNat_ushiftRight, Nat.shiftRight_eq_div_pow, Nat.shiftLeft_eq]
  omega

theorem toNat_pdeIdx (v : Word) : (pdeIdx v).toNat = v.toNat / 2 ^ 22 := by
  rw [pdeIdx, BitVec.toNat_ushiftRight, toNat_top_ten, Nat.shiftRight_eq_div_pow]
  omega

theorem toNat_pteIdx (v : Word) : (pteIdx v).toNat = v.toNat / 4096 % 1024 := by
  rw [pteIdx, and_mid_ten, toNat_mid_ten]

theorem toNat_ptePtr (v : Word) :
    (ptePtr v).toNat = 0xffc00000 + v.toNat / 2 ^ 22 * 4096 + v.toNat / 4096 % 1024 * 4 := by
  have := v.isLt
  simp only [ptePtr, BitVec.toNat_add, BitVec.toNat_mul, BitVec.toNat_ushiftRight, toNat_top_ten, toNat_pteIdx,
    Nat.shiftRight_eq_div_pow, BitVec.toNat_ofNat]
  omega

theorem toNat_pdePtr (v : Word) : (pdePtr v).toNat = 0xfffff000 + v.toNat / 2 ^ 22 * 4 := by
  have := v.isLt
  simp only [pdePtr, BitVec.toNat_add, BitVec.toNat_mul, toNat_pdeIdx, BitVec.toNat_ofNat]
  omega

section

variable {mem : PhysMem} {cr3 v : Word}

theorem walk_window (hs : SelfMapped mem cr3) {a : Word} (ha : a >>> 22 = 1023#32)
    (hp : present (mem (pteAddr cr3 a)) = true) : walk mem cr3 a = some (frame (mem (pteAddr cr3 a)) + (a &&& 0xfff#32)) := by
  have hdir : pteAddr (mem (frame cr3 + 1023#32 * 4#32)) a = pteAddr cr3 a := by rw [pteAddr, hs.frame, pteAddr]
  simp only [walk, pdeAddr, ha, hs.present, if_true, hdir, hp]

theorem walk_ptePtr (hs : SelfMapped mem cr3) (hp : present (mem (pdeAddr cr3 v)) = true) :
    walk mem cr3 (ptePtr v) = some (pteAddr (mem (pdeAddr cr3 v)) v) := by
  have hv := v.isLt
  have hptr := toNat_ptePtr v
  have htop : ptePtr v >>> 22 = 1023#32 := by
    apply BitVec.eq_of_toNat_eq
    rw [BitVec.toNat_ushiftRight, Nat.shiftRight_eq_div_pow, hptr, BitVec.toNat_ofNat]
    omega
  have hmid : ptePtr v >>> 12 &&& 0x3ff#32 = v >>> 22 := by
    apply BitVec.eq_of_toNat_eq
    rw [toNat_mid_ten, hptr, BitVec.toNat_ushiftRight, Nat.shiftRight_eq_div_pow]
    omega
  have hlow : ptePtr v &&& 0xfff#32 = (v >>> 12 &&& 0x3ff#32) * 4#32 := by
    apply BitVec.eq_of_toNat_eq
    rw [toNat_offset, hptr, BitVec.toNat_mul, toNat_mid_ten, BitVec.toNat_ofNat]
    omega
  have haddr : pteAddr cr3 (ptePtr v) = pdeAddr cr3 v := by rw [pteAddr, hmid, pdeAddr]
  rw [walk_window hs htop (by rw [haddr]; exact hp), haddr, hlow, pteAddr]

theorem walk_pdePtr (hs : SelfMapped mem cr3) : walk mem cr3 (pdePtr v) = some (pdeAddr cr3 v) := by
  have hv := v.isLt
  have hptr := toNat_pdePtr v
  have htop : pdePtr v >>> 22 = 1023#32 := by
    apply BitVec.eq_of_toNat_eq
    rw [BitVec.toNat_ushiftRight, Nat.shiftRight_eq_div_pow, hptr, BitVec.toNat_ofNat]
    omega
  have hmid : pdePtr v >>> 12 &&& 0x3ff#32 = 1023#32 := by
    apply BitVec.eq_of_toNat_eq
    rw [toNat_mid_ten, hptr, BitVec.toNat_ofNat]
    omega
  have hlow : pdePtr v &&& 0xfff#32 = (v >>> 22) * 4#32 := by
    apply BitVec.eq_of_toNat_eq
    rw [toNat_offset, hptr, BitVec.toNat_mul, BitVec.toNat_ushiftRight, Nat.shiftRight_eq_div_pow, BitVec.toNat_ofNat]
    omega
  have haddr : pteAddr cr3 (pdePtr v) = frame cr3 + 1023#32 * 4#32 := by rw [pteAddr, hmid]
  rw [walk_window hs htop (by rw [haddr]; exact hs.present), haddr, hlow, hs.frame, pdeAddr]

theorem addrV2p_eq_walk (hs : SelfMapped mem cr3) (hp : present (mem (pdeAddr cr3 v)) = true)
    (hp' : present (mem (pteAddr (mem (pdeAddr cr3 v)) v)) = true) : addrV2p mem cr3 v = walk mem cr3 v := by
  rw [addrV2p, loadVirt, walk_ptePtr hs hp]
  simp only [Option.map_some, walk, hp, hp', if_true]

end

/-- For every memory, the three accesses of `kernel/memory.c` through the self-map agree with the page walk. -/
theorem selfMap_agrees (mem : PhysMem) (cr3 v : Word) (hs : SelfMapped mem cr3)
    (hp : present (mem (pdeAddr cr3 v)) = true) :
    walk mem cr3 (ptePtr v) = some (pteAddr (mem (pdeAddr cr3 v)) v) ∧ walk mem cr3 (pdePtr v) = some (pdeAddr cr3 v) ∧
      (present (mem (pteAddr (mem (pdeAddr cr3 v)) v)) = true →
        (walk mem cr3 v).isSome = true ∧ addrV2p mem cr3 v = walk mem cr3 v) := by
  refine ⟨walk_ptePtr hs hp, walk_pdePtr hs, fun hp' => ⟨?_, addrV2p_eq_walk hs hp hp'⟩⟩
  simp only [walk, hp, hp', if_true, Option.isSome_some]

theorem selfMap_agrees_all_self :
    walk (fun _ => 0x100007#32) 0x100000#32 (ptePtr 0xc0100000#32) = some 0x100400#32 ∧
      addrV2p (fun _ => 0x100007#32) 0x100000#32 0xc0100123#32 = walk (fun _ => 0x100007#32) 0x100000#32 0xc0100123#32 := by
  have hs : SelfMapped (fun _ => 0x100007#32) 0x100000#32 := ⟨by decide, by decide⟩
  refine ⟨?_, ?_⟩
  · rw [(selfMap_agrees _ _ 0xc0100000#32 hs (by decide)).1]
    decide
  · exact ((selfMap_agrees _ _ 0xc0100123#32 hs (by decide)).2.2 (by decide)).2

end ElephantOS
