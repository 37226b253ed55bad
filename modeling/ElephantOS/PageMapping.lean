import ElephantOS.FrameUse

/-! The allocation half of `kernel/memory.c`: what `palloc`, `page_table_add` and `malloc_page` do to the uses of frames. -/

namespace ElephantOS.Paging

open HaltingState

section

variable {m m' : Machine} {v p w : Word}

theorem translate_eq (h : access m v = some p) : translate v m = .ok (p, m) := by
  simp only [translate, h]

theorem load_eq (h : access m v = some p) : load v m = .ok (m.mem p, m) := by
  rw [load, bind_eq (translate_eq h)]
  rfl

theorem store_eq (h : access m v = some p) :
    store v w m = .ok ((), { m with mem := Function.update m.mem p w }) := by
  rw [store, bind_eq (translate_eq h)]
  rfl

theorem clearPage_eq (h : access m v = some p) :
    clearPage v m = .ok ((), { m with mem := fun a => if frame a = frame p then 0 else m.mem a }) := by
  rw [clearPage, bind_eq (translate_eq h)]
  rfl

theorem rewrites_update {mem : PhysMem} {f w : Word} {j : ℕ} (hf : Aligned f) (hj : j < 1024) :
    Rewrites mem (Function.update mem (slot f j) w) f j (if present w then some (frame w) else none) := by
  intro g i hg hi
  by_cases h : g = f ∧ i = j
  · rw [entryFrame, entry_update hf hg hj hi, if_pos h, if_pos h]
  · rw [entryFrame, entry_update hf hg hj hi, if_neg h, if_neg h, entryFrame]

theorem rewrites_map {mem : PhysMem} {f g : Word} {j : ℕ} (hf : Aligned f) (hj : j < 1024) (hg : Aligned g) :
    Rewrites mem (Function.update mem (slot f j) (g ||| 7#32)) f j (some g) := by
  have h : Rewrites mem (Function.update mem (slot f j) (g ||| 7#32)) f j _ := rewrites_update hf hj
  rwa [present_or_seven, if_pos rfl, frame_or_seven hg] at h

theorem rewrites_unmap {mem : PhysMem} {f w : Word} {j : ℕ} (hf : Aligned f) (hj : j < 1024) :
    Rewrites mem (Function.update mem (slot f j) (w &&& 0xfffffffe#32)) f j none := by
  have h : Rewrites mem (Function.update mem (slot f j) (w &&& 0xfffffffe#32)) f j _ := rewrites_update hf hj
  rwa [present_and_clear, if_neg (by simp)] at h

end

section

variable {mem : PhysMem} {dir p : Word}

theorem walk_pde (hs : KernelSpace mem dir) (v : Word) :
    walk mem dir (pdePtr v) = some (slot dir (v.toNat / 4096 / 1024)) := by
  rw [walk_pdePtr (selfMapped_of_entry hs.aligned hs.self), pdeAddr_eq hs.aligned]

theorem walk_pte (hs : KernelSpace mem dir) {v : Word} (hp : entryFrame mem dir (v.toNat / 4096 / 1024) = some p) :
    walk mem dir (ptePtr v) = some (slot p (v.toNat / 4096 % 1024)) := by
  obtain ⟨hpres, hfr⟩ := entryFrame_some.mp hp
  have haddr := pdeAddr_eq hs.aligned v
  rw [walk_ptePtr (selfMapped_of_entry hs.aligned hs.self) (by rw [haddr]; exact hpres), haddr, pteAddr_eq]
  rw [← hfr]
  rfl

theorem ptePtr_page (v : Word) : ptePtr v &&& 0xfffff000#32 = ptePtr (v &&& 0xffc00000#32) := by
  apply BitVec.eq_of_toNat_eq
  have h := toNat_frame (ptePtr v)
  rw [frame, toNat_ptePtr] at h
  rw [h, toNat_ptePtr, toNat_top_ten]
  have hv := v.isLt
  omega

theorem walk_table (hs : KernelSpace mem dir) {v : Word} (hp : entryFrame mem dir (v.toNat / 4096 / 1024) = some p) :
    walk mem dir (ptePtr v &&& 0xfffff000#32) = some p := by
  have hv := v.isLt
  have htop := toNat_top_ten v
  have hidx : (v &&& 0xffc00000#32).toNat / 4096 / 1024 = v.toNat / 4096 / 1024 := by omega
  have hzero : (v &&& 0xffc00000#32).toNat / 4096 % 1024 = 0 := by omega
  rw [ptePtr_page, walk_pte hs (by rw [hidx]; exact hp), hzero]
  simp [slot]

theorem walk_page {v : Word} (hdir : Aligned dir) (hp : entryFrame mem dir (v.toNat / 4096 / 1024) = some p) {f : Word}
    (hf : entryFrame mem p (v.toNat / 4096 % 1024) = some f) : walk mem dir v = some (f + (v &&& 0xfff#32)) := by
  rw [walk_eq hdir, hp, Option.bind_some, hf, Option.map_some]

end

section

variable {m : Machine} {v p : Word}

theorem access_eq (h : walk m.mem m.cr3 v = some p) (hcached : ∀ f, m.tlb (v.toNat / 4096) = some f → f + (v &&& 0xfff#32) = p) :
    access m v = some p := by
  unfold access
  cases hf : m.tlb (v.toNat / 4096) with
  | none => exact h
  | some f => exact congrArg some (hcached f hf)

theorem access_window (hw : WindowCached m) (hs : KernelSpace m.mem m.cr3) (hv : 0xffc00 ≤ v.toNat / 4096)
    (h : walk m.mem m.cr3 v = some p) : access m v = some p := by
  have hlt := v.isLt
  apply access_eq h
  intro f hf
  have hpage : v.toNat / 4096 = 0xffc00 + v.toNat / 4096 % 1024 := by omega
  rw [hpage] at hf
  have hentry := hw (v.toNat / 4096 % 1024) f (by omega) hf
  have hself : entryFrame m.mem m.cr3 (v.toNat / 4096 / 1024) = some m.cr3 := by
    rw [show v.toNat / 4096 / 1024 = 1023 by omega]
    exact hs.self
  rw [walk_page hs.aligned hself hentry] at h
  exact Option.some.inj h

theorem access_pde (hw : WindowCached m) (hs : KernelSpace m.mem m.cr3) (v : Word) :
    access m (pdePtr v) = some (slot m.cr3 (v.toNat / 4096 / 1024)) := by
  have hptr := toNat_pdePtr v
  exact access_window hw hs (by omega) (walk_pde hs v)

theorem access_pte (hw : WindowCached m) (hs : KernelSpace m.mem m.cr3)
    (hp : entryFrame m.mem m.cr3 (v.toNat / 4096 / 1024) = some p) :
    access m (ptePtr v) = some (slot p (v.toNat / 4096 % 1024)) := by
  have hptr := toNat_ptePtr v
  exact access_window hw hs (by omega) (walk_pte hs hp)

theorem access_table (hw : WindowCached m) (hs : KernelSpace m.mem m.cr3)
    (hp : entryFrame m.mem m.cr3 (v.toNat / 4096 / 1024) = some p) : access m (ptePtr v &&& 0xfffff000#32) = some p := by
  have hptr := toNat_ptePtr v
  have hpage := toNat_frame (ptePtr v)
  rw [frame] at hpage
  exact access_window hw hs (by omega) (walk_table hs hp)

theorem WindowCached.rewrite (hw : WindowCached m) (ha : Aligned m.cr3) {mem' : PhysMem} {i : ℕ} {x : Option Word}
    (hr : Rewrites m.mem mem' m.cr3 i x) (hnone : entryFrame m.mem m.cr3 i = none) : WindowCached { m with mem := mem' } := by
  intro k f hk hf
  have hold := hw k f hk hf
  change entryFrame mem' m.cr3 k = some f
  rw [hr.other ha hk]
  · exact hold
  · rintro ⟨-, rfl⟩
    rw [hnone] at hold
    cases hold

end

structure SameTasks (m m' : Machine) : Prop where
  pgdir : m'.pgdir = m.pgdir
  cur : m'.cur = m.cur
  cr3 : m'.cr3 = m.cr3
  tlb : m'.tlb = m.tlb
  kernelVaddr : m'.kernelVaddr = m.kernelVaddr
  userVaddr : m'.userVaddr = m.userVaddr
  poolLen : ∀ pf, (poolOf pf m').poolBitmap.btmpBytesLen = (poolOf pf m).poolBitmap.btmpBytesLen

theorem SameTasks.trans {m m' m'' : Machine} (h : SameTasks m m') (h' : SameTasks m' m'') : SameTasks m m'' :=
  ⟨h'.pgdir.trans h.pgdir, h'.cur.trans h.cur, h'.cr3.trans h.cr3, h'.tlb.trans h.tlb, h'.kernelVaddr.trans h.kernelVaddr,
    h'.userVaddr.trans h.userVaddr, fun pf => (h'.poolLen pf).trans (h.poolLen pf)⟩

section

variable {stray : ℕ → Prop} {slack : ℕ} {H : Use → Prop} {m m' : Machine}

def markFrame (pf : Pool) (b : ℕ) (value : Bool) (m : Machine) : Machine :=
  setPool pf { poolOf pf m with poolBitmap := (poolOf pf m).poolBitmap.set b value } m

theorem poolOf_markFrame (pf : Pool) (b : ℕ) (value : Bool) (m : Machine) :
    poolOf pf (markFrame pf b value m) = { poolOf pf m with poolBitmap := (poolOf pf m).poolBitmap.set b value } := by
  cases pf <;> rfl

theorem poolOf_markFrame_other {pf pf' : Pool} (h : pf' ≠ pf) (b : ℕ) (value : Bool) (m : Machine) :
    poolOf pf' (markFrame pf b value m) = poolOf pf' m := by
  cases pf <;> cases pf' <;> first | rfl | exact absurd rfl h

theorem markFrame_same (pf : Pool) (b : ℕ) (value : Bool) (m : Machine) :
    SameTasks m (markFrame pf b value m) ∧ (markFrame pf b value m).mem = m.mem := by
  have hlen : ∀ pf', (poolOf pf' (markFrame pf b value m)).poolBitmap.btmpBytesLen = (poolOf pf' m).poolBitmap.btmpBytesLen := by
    intro pf'
    cases pf <;> cases pf' <;> simp [markFrame, setPool, poolOf]
  cases pf with
  | kernel => exact ⟨⟨rfl, rfl, rfl, rfl, rfl, rfl, hlen⟩, rfl⟩
  | user => exact ⟨⟨rfl, rfl, rfl, rfl, rfl, rfl, hlen⟩, rfl⟩

theorem shape_markFrame (hs : Shape m) (pf : Pool) (b : ℕ) (value : Bool) : Shape (markFrame pf b value m) := by
  cases pf with
  | kernel =>
    refine ⟨hs.kernelStart, ?_, hs.userStart, hs.userEnd, hs.heapStart, hs.heapEnd, hs.task⟩
    simpa [markFrame, setPool, poolOf] using hs.kernelEnd
  | user =>
    refine ⟨hs.kernelStart, hs.kernelEnd, hs.userStart, ?_, hs.heapStart, hs.heapEnd, hs.task⟩
    simpa [markFrame, setPool, poolOf] using hs.userEnd

theorem frameAddr_inj (hs : Shape m) (pf : Pool) {b c : ℕ} (hb : b < 8 * (poolOf pf m).poolBitmap.btmpBytesLen)
    (hc : c < 8 * (poolOf pf m).poolBitmap.btmpBytesLen)
    (h : BitVec.ofNat 32 (b * 4096 + (poolOf pf m).phyAddrStart) = BitVec.ofNat 32 (c * 4096 + (poolOf pf m).phyAddrStart)) :
    b = c := by
  have hend := hs.kernelEnd
  have huser := hs.userEnd
  have hstart := hs.kernelStart
  have hnat := congrArg BitVec.toNat h
  rw [BitVec.toNat_ofNat, BitVec.toNat_ofNat] at hnat
  cases pf with
  | kernel =>
    simp only [poolOf] at hb hc hnat
    omega
  | user =>
    simp only [poolOf] at hb hc hnat
    omega

theorem taken_markFrame (hs : Shape m) {pf : Pool} {b : ℕ} (hb : b < 8 * (poolOf pf m).poolBitmap.btmpBytesLen)
    (value : Bool) (pf' : Pool) (g : Word) :
    Taken (markFrame pf b value m) pf' g ↔
      if pf' = pf ∧ g = BitVec.ofNat 32 (b * 4096 + (poolOf pf m).phyAddrStart) then value = true else Taken m pf' g := by
  by_cases hpf : pf' = pf
  · subst hpf
    have hpool : poolOf pf' (markFrame pf' b value m) =
        { poolOf pf' m with poolBitmap := (poolOf pf' m).poolBitmap.set b value } := by
      cases pf' with
      | kernel => rfl
      | user => rfl
    unfold Taken
    rw [hpool]
    simp only [Bitmap.set_len, Bitmap.scanTest_set, true_and]
    split_ifs with hg
    · constructor
      · rintro ⟨c, hc, rfl, hbit⟩
        have := frameAddr_inj hs pf' hc hb hg
        simpa [this] using hbit
      · intro hvalue
        exact ⟨b, hb, hg, by simpa using hvalue⟩
    · constructor
      · rintro ⟨c, hc, rfl, hbit⟩
        have hne : c ≠ b := fun h => hg (by rw [h])
        exact ⟨c, hc, rfl, by simpa [hne] using hbit⟩
      · rintro ⟨c, hc, rfl, hbit⟩
        have hne : c ≠ b := fun h => hg (by rw [h])
        exact ⟨c, hc, rfl, by simpa [hne] using hbit⟩
  · have hpool : poolOf pf' (markFrame pf b value m) = poolOf pf' m := by
      cases pf with
      | kernel =>
        cases pf' with
        | kernel => exact absurd rfl hpf
        | user => rfl
      | user =>
        cases pf' with
        | kernel => rfl
        | user => exact absurd rfl hpf
    rw [if_neg (fun h => hpf h.1), Taken, Taken, hpool]

theorem palloc_ok {pf : Pool} {r : Option Word} (h : palloc pf m = .ok (r, m')) :
    ∃ b, b < 8 * (poolOf pf m).poolBitmap.btmpBytesLen ∧ (poolOf pf m).poolBitmap.scanTest b = false ∧
      m' = markFrame pf b true m ∧ r = some (BitVec.ofNat 32 (b * 4096 + (poolOf pf m).phyAddrStart)) ∧
      ∀ c < b, (poolOf pf m).poolBitmap.scanTest c = true := by
  simp only [palloc, bind_ok, get_ok] at h
  obtain ⟨_, _, ⟨rfl, rfl⟩, h⟩ := h
  rcases Bitmap.scan_one (poolOf pf m).poolBitmap with ⟨b, hscan, hb, hbit, hfirst⟩ | ⟨hscan, -⟩
  · simp only [hscan, bind_ok, set_ok, pure_ok] at h
    obtain ⟨_, _, rfl, rfl, rfl⟩ := h
    exact ⟨b, hb, hbit, rfl, rfl, hfirst⟩
  · simp only [hscan, halt_ok] at h

def clearBits (b : Bitmap) : List ℕ := (List.range (8 * b.btmpBytesLen)).filter fun i => !b.scanTest i

/-- The frames of a pool that are free, in the order in which `palloc` hands them out. -/
def freshFrames (pf : Pool) (m : Machine) : List Word :=
  (clearBits (poolOf pf m).poolBitmap).map fun b => BitVec.ofNat 32 (b * 4096 + (poolOf pf m).phyAddrStart)

theorem freshFrames_congr {pf : Pool} (h : poolOf pf m' = poolOf pf m) : freshFrames pf m' = freshFrames pf m := by
  rw [freshFrames, freshFrames, h]

theorem clearBits_set {b : Bitmap} {i : ℕ} (hi : i < 8 * b.btmpBytesLen) (hclear : b.scanTest i = false)
    (hfirst : ∀ j < i, b.scanTest j = true) : clearBits b = i :: clearBits (b.set i true) := by
  obtain ⟨k, hk⟩ : ∃ k, 8 * b.btmpBytesLen = i + (k + 1) := ⟨8 * b.btmpBytesLen - i - 1, by omega⟩
  have hlow : ∀ c : Bitmap, (∀ j < i, c.scanTest j = true) → ((List.range i).filter fun j => !c.scanTest j) = [] := by
    intro c hc
    rw [List.filter_eq_nil_iff]
    intro j hj
    simp [hc j (List.mem_range.mp hj)]
  rw [clearBits, clearBits, Bitmap.set_len, hk, List.range_add, List.filter_append, List.filter_append, hlow b hfirst, hlow (b.set i true) (by
    intro j hj
    rw [Bitmap.scanTest_set, if_neg (by omega)]
    exact hfirst j hj), List.nil_append, List.nil_append, List.range_succ_eq_map, List.map_cons, Nat.add_zero,
    List.filter_cons_of_pos (by simp [hclear]), List.filter_cons_of_neg (by simp)]
  congr 1
  apply List.filter_congr
  intro j hj
  simp only [List.map_map, List.mem_map, List.mem_range, Function.comp_apply] at hj
  obtain ⟨l, -, rfl⟩ := hj
  rw [Bitmap.scanTest_set, if_neg (by omega)]

theorem freshFrames_palloc {pf : Pool} {f : Word} (h : palloc pf m = .ok (some f, m')) :
    freshFrames pf m = f :: freshFrames pf m' ∧ ∀ pf', pf' ≠ pf → freshFrames pf' m' = freshFrames pf' m := by
  obtain ⟨b, hb, hclear, rfl, hf, hfirst⟩ := palloc_ok h
  obtain rfl := Option.some.inj hf
  constructor
  · rw [freshFrames, freshFrames, poolOf_markFrame, clearBits_set hb hclear hfirst, List.map_cons]
  · intro pf' hne
    exact freshFrames_congr (poolOf_markFrame_other hne b true m)

theorem palloc_inv (inv : FrameInv stray slack H m) {pf : Pool} {r : Option Word} (h : palloc pf m = .ok (r, m')) :
    ∃ f, r = some f ∧ FrameInv stray slack H m' ∧ Fresh m' H f ∧ ¬ Taken m pf f ∧ m'.mem = m.mem ∧ SameTasks m m' ∧
      ∀ pf' g, Taken m' pf' g ↔ Taken m pf' g ∨ (pf' = pf ∧ g = f) := by
  obtain ⟨b, hb, hfree, rfl, rfl, -⟩ := palloc_ok h
  obtain ⟨hsame, hmem⟩ := markFrame_same pf b true m
  have htaken : ∀ pf' g, Taken (markFrame pf b true m) pf' g ↔
      Taken m pf' g ∨ (pf' = pf ∧ g = BitVec.ofNat 32 (b * 4096 + (poolOf pf m).phyAddrStart)) := by
    intro pf' g
    rw [taken_markFrame inv.shape hb]
    split_ifs with hc
    · simp [hc]
    · simp [hc]
  have hnot : ¬ Taken m pf (BitVec.ofNat 32 (b * 4096 + (poolOf pf m).phyAddrStart)) := by
    rintro ⟨c, hc, heq, hbit⟩
    rw [frameAddr_inj inv.shape pf hb hc heq, hbit] at hfree
    cases hfree
  have hshape := shape_markFrame inv.shape pf b true
  have hmine := (htaken pf _).mpr (Or.inr ⟨rfl, rfl⟩)
  have hinv : FrameInv stray slack H (markFrame pf b true m) := by
    apply inv.remark hmem hsame.pgdir hsame.cur hsame.cr3 hsame.tlb hshape
    · exact congrArg (fun k => k.vaddrBitmap.btmpBytesLen) hsame.kernelVaddr
    · intro u f hu hf
      exact (htaken _ _).mpr (Or.inl (inv.taken u f hu hf))
    · intro n hn
      rw [hsame.kernelVaddr]
      exact (inv.heap n hn).2.2
    · intro t n f hn hf
      rw [hsame.userVaddr]
      exact (inv.user t n f hn hf).2
  refine ⟨_, rfl, hinv, ⟨taken_aligned hshape hmine, ?_⟩, hnot, hmem, hsame, htaken⟩
  intro u hu hf
  rw [FrameInv.useFrame_same hmem hsame.pgdir] at hf
  have hold := inv.taken u _ hu hf
  have hpool : u.pool = pf := taken_pool hshape ((htaken _ _).mpr (Or.inl hold)) hmine
  rw [hpool] at hold
  exact hnot hold

theorem pageTableAdd_present {v f p : Word} (hw : WindowCached m) (hs : KernelSpace m.mem m.cr3)
    (hp : entryFrame m.mem m.cr3 (v.toNat / 4096 / 1024) = some p) {u : Unit} (h : pageTableAdd v f m = .ok (u, m')) :
    entryFrame m.mem p (v.toNat / 4096 % 1024) = none ∧
      m' = { m with mem := Function.update m.mem (slot p (v.toNat / 4096 % 1024)) (f ||| 7#32) } := by
  have hpres : present (m.mem (slot m.cr3 (v.toNat / 4096 / 1024))) = true := (entryFrame_some.mp hp).1
  rw [pageTableAdd, bind_eq (load_eq (access_pde hw hs v)), if_pos hpres, bind_eq (load_eq (access_pte hw hs hp))] at h
  simp only [bind_ok, assert_ok] at h
  obtain ⟨_, _, ⟨hnone, rfl⟩, h⟩ := h
  rw [store_eq (access_pte hw hs hp)] at h
  simp only [Except.ok.injEq, Prod.mk.injEq] at h
  exact ⟨entryFrame_none.mpr hnone, h.2.symm⟩

theorem pageTableAdd_kernel (inv : FrameInv stray slack H m) {v f : Word} (hn : 0xc0100 ≤ v.toNat / 4096)
    (hin : v.toNat / 4096 < 0xc0100 + 8 * m.kernelVaddr.vaddrBitmap.btmpBytesLen + slack)
    (hbit : m.kernelVaddr.vaddrBitmap.scanTest (v.toNat / 4096 - 0xc0100) = true)
    (hf : Fresh m H f) (hft : Taken m .kernel f) {u : Unit} (h : pageTableAdd v f m = .ok (u, m')) :
    FrameInv stray slack (Function.update H (.kpage (v.toNat / 4096)) True) m' ∧ SameTasks m m' ∧
      (∀ pf, poolOf pf m' = poolOf pf m) ∧ kernelFrame m.mem (v.toNat / 4096) = none ∧
      kernelFrame m'.mem (v.toNat / 4096) = some f ∧
      (∀ k, 0xc0000 ≤ k → k < 0xffc00 → k ≠ v.toNat / 4096 → kernelFrame m'.mem k = kernelFrame m.mem k) ∧
      Keeps H m m' := by
  have hend := inv.shape.heapEnd
  have hnear := inv.near
  have hn' : v.toNat / 4096 < 0xffc00 := by omega
  have hp := inv.cr3_space.kernel (v.toNat / 4096 / 1024) (by omega) (by omega)
  obtain ⟨hnone, rfl⟩ := pageTableAdd_present inv.window inv.cr3_space hp h
  have hr : Rewrites m.mem _ (kernelTable (v.toNat / 4096 / 1024)) (v.toNat / 4096 % 1024) (some f) :=
    rewrites_map (aligned_kernelTable _) (by omega) hf.1
  obtain ⟨hinv, -, hkeep⟩ := inv.setKernel hn hn' (by
    intro t w hw heq
    obtain ⟨d, -, -, hd⟩ := inv.dir_some hw
    rw [heq] at hd
    simp only [useFrame, kernelFrame, hnone] at hd
    cases hd) (by
    intro g hg
    rw [Option.some.injEq] at hg
    subst hg
    exact ⟨hf, hft, hin, hbit⟩) hr
  simp only [Option.isSome_some] at hinv
  refine ⟨hinv, ⟨rfl, rfl, rfl, rfl, rfl, rfl, fun _ => rfl⟩, fun pf => rfl, hnone, ?_, ?_, ?_⟩
  · rw [kernelFrame, hr _ _ (aligned_kernelTable _) (by omega), if_pos ⟨rfl, rfl⟩]
  · intro k hk hk' hne
    refine hr.other (aligned_kernelTable _) (by omega) ?_
    rintro ⟨htab, hidx⟩
    exact hne (kernelSlot_inj hk hk' (by omega) hn' htab hidx)
  · have hunused : ¬ H (.kpage (v.toNat / 4096)) := inv.not_handed hnone
    exact inv.keeps_entry (aligned_kernelTable _) (by omega) hunused
      (fun u g hu hg => inv.page_ne_kernelTable hu hg (by omega)) hkeep

theorem mapUser (inv : FrameInv stray slack H m) {v f p : Word} (hn : v.toNat / 4096 < 0xc0000)
    (hlo : 0x8048 ≤ v.toNat / 4096) (hbit : (m.userVaddr m.cur).vaddrBitmap.scanTest (v.toNat / 4096 - 0x8048) = true)
    (hp : useFrame m (.table m.cur (v.toNat / 4096 / 1024)) = some p) (hf : Fresh m H f) (hft : Taken m .user f)
    (hnone : useFrame m (.upage m.cur (v.toNat / 4096)) = none) :
    FrameInv stray slack (Function.update H (.upage m.cur (v.toNat / 4096)) True)
        { m with mem := Function.update m.mem (slot p (v.toNat / 4096 % 1024)) (f ||| 7#32) } ∧
      Keeps H m { m with mem := Function.update m.mem (slot p (v.toNat / 4096 % 1024)) (f ||| 7#32) } ∧
      (∀ u, u.Valid → u ≠ .upage m.cur (v.toNat / 4096) →
        useFrame { m with mem := Function.update m.mem (slot p (v.toNat / 4096 % 1024)) (f ||| 7#32) } u = useFrame m u) ∧
      useFrame { m with mem := Function.update m.mem (slot p (v.toNat / 4096 % 1024)) (f ||| 7#32) }
        (.upage m.cur (v.toNat / 4096)) = some f := by
  have hpt := inv.table_taken (by omega) hp
  have hr : Rewrites m.mem _ p (v.toNat / 4096 % 1024) (some f) :=
    rewrites_map (taken_aligned inv.shape hpt) (by omega) hf.1
  obtain ⟨hinv, hself, hkeep⟩ := inv.setUser hn hp (by
    intro g hg
    rw [Option.some.injEq] at hg
    subst hg
    exact ⟨hf, hft, hlo, hbit⟩) hr
  simp only [Option.isSome_some] at hinv
  refine ⟨hinv, ?_, hkeep, hself⟩
  exact inv.keeps_entry (taken_aligned inv.shape hpt) (by omega) (inv.not_handed hnone)
    (fun u g hu hg => inv.page_ne_table hu hg (by omega) hp) hkeep

theorem cr3_eq (inv : FrameInv stray slack H m) {d : Word} (hd : dirOf m m.cur = some d) : m.cr3 = d := by
  rw [inv.active, hd]
  rfl

theorem entryFrame_newTable {mem : PhysMem} {d f : Word} {i : ℕ} (hd : Aligned d) (hf : Aligned f) (hi : i < 1024)
    (g : Word) (k : ℕ) (hg : Aligned g) (hk : k < 1024) :
    entryFrame (fun a => if frame a = frame f then 0 else Function.update mem (slot d i) (f ||| 7#32) a) g k =
      if g = f then none else if g = d ∧ k = i then some f else entryFrame mem g k := by
  have hf' : frame f = f := hf
  by_cases hgf : g = f
  · subst hgf
    rw [if_pos rfl, entryFrame_none, entry, frame_slot hg hk, if_pos hf'.symm]
    exact present_zero
  · rw [if_neg hgf, ← rewrites_map hd hi hf g k hg hk]
    apply entryFrame_congr
    rw [entry, frame_slot hg hk, if_neg (by rw [hf']; exact hgf)]
    rfl

theorem KernelSpace.rewrite {mem mem' : PhysMem} {d : Word} {i : ℕ} {x : Option Word} (hs : KernelSpace mem d)
    (hr : Rewrites mem mem' d i x) (hi : i < 768) : KernelSpace mem' d := by
  refine ⟨hs.aligned, ?_, ?_⟩
  · intro k hk hk'
    rw [hr.other hs.aligned (by omega) (by omega)]
    exact hs.kernel k hk hk'
  · rw [hr.other hs.aligned (by omega) (by omega)]
    exact hs.self

/-- The memory with a cleared table `g` entered at index `i` of the directory `d`. -/
def newTableMem (mem : PhysMem) (d g : Word) (i : ℕ) : PhysMem :=
  fun a => if frame a = frame g then 0 else Function.update mem (slot d i) (g ||| 7#32) a

theorem newTable_keeps (inv : FrameInv stray slack H m) {t i : ℕ} {d g : Word} (hd : dirOf m t = some d) (hi : i < 768)
    (hg : Fresh m H g)
    (hkeep : ∀ u, u.Valid → u ≠ .table t i → useFrame { m with mem := newTableMem m.mem d g i } u = useFrame m u) :
    Keeps H m { m with mem := newTableMem m.mem d g i } := by
  intro u f hu hdir hfu
  have hlive := (inv.page u hu).1
  refine ⟨(hkeep u (inv.valid hlive) ((inv.page u hu).2 t i)).trans hfu, ?_⟩
  intro a ha
  have hg' : frame g = g := hg.1
  have hag : ¬ frame a = frame g := by
    rw [ha, hg']
    rintro rfl
    exact hg.2 u hlive hfu
  have had : a ≠ slot d i := by
    rintro rfl
    rw [frame_slot (inv.dirSpace t d hd).aligned (by omega)] at ha
    subst ha
    obtain ⟨w, hw, hlive', hwd⟩ := inv.dir_use hd
    exact hdir t w hw (inv.inj u _ d hlive hlive' hfu hwd)
  simp only [newTableMem, hag, if_false, Function.update_of_ne had]

theorem pageTableAdd_missing (inv : FrameInv stray slack H m) {v f d g : Word} {m₁ : Machine} (hd : dirOf m m.cur = some d)
    (hn : v.toNat / 4096 < 0xc0000) (hp : entryFrame m.mem m.cr3 (v.toNat / 4096 / 1024) = none)
    (hpalloc : palloc .kernel m = .ok (some g, m₁)) :
    ∃ m₃, m₃ = { m₁ with mem := newTableMem m₁.mem d g (v.toNat / 4096 / 1024) } ∧ FrameInv stray slack H m₃ ∧
      useFrame m₃ (.table m₁.cur (v.toNat / 4096 / 1024)) = some g ∧ dirOf m₁ m₁.cur = some d ∧
      (∀ u, u.Valid → u ≠ .table m₁.cur (v.toNat / 4096 / 1024) → useFrame m₃ u = useFrame m₁ u) ∧
      pageTableAdd v f m = .ok ((), { m₃ with mem := Function.update m₃.mem (slot g (v.toNat / 4096 % 1024)) (f ||| 7#32) }) := by
  have hcr3 := cr3_eq inv hd
  have hspace := inv.cr3_space
  have hi : v.toNat / 4096 / 1024 < 768 := by omega
  have hpres : ¬ present (m.mem (slot m.cr3 (v.toNat / 4096 / 1024))) = true := by
    have := entryFrame_none.mp hp
    simpa [entry] using this
  obtain ⟨_, hg', inv₁, hg, -, hmem₁, hsame₁, htaken₁⟩ := palloc_inv inv hpalloc
  obtain rfl := Option.some.inj hg'
  have hgt : Taken m₁ .kernel g := (htaken₁ _ _).mpr (Or.inr ⟨rfl, rfl⟩)
  have hd₁ : dirOf m₁ m₁.cur = some d := by
    rw [dirOf, hmem₁, hsame₁.pgdir, hsame₁.cur]
    exact hd
  have hcr3₁ := cr3_eq inv₁ hd₁
  have hspace₁ := inv₁.cr3_space
  have hnone₁ : entryFrame m₁.mem d (v.toNat / 4096 / 1024) = none := by
    rw [hmem₁, ← hcr3]
    exact hp
  rw [hcr3₁] at hspace₁
  have hstore : Rewrites m₁.mem _ d (v.toNat / 4096 / 1024) (some g) :=
    rewrites_map hspace₁.aligned (by omega) hg.1
  have hspace₂ := hspace₁.rewrite hstore hi
  obtain ⟨inv₃, htable₃, hkeep⟩ := inv₁.addTable hi hd₁ hnone₁ hg hgt
    (entryFrame_newTable hspace₁.aligned hg.1 (by omega))
  obtain ⟨d', hd₃, hp₃⟩ := useFrame_table.mp htable₃
  have hcr3₃ := cr3_eq inv₃ hd₃
  rw [← hcr3₃] at hp₃
  have hclear : entryFrame (newTableMem m₁.mem d g (v.toNat / 4096 / 1024)) g (v.toNat / 4096 % 1024) = none := by
    have hi : v.toNat / 4096 / 1024 < 1024 := by omega
    exact (entryFrame_newTable hspace₁.aligned hg.1 hi g _ hg.1 (by omega)).trans (if_pos rfl)
  refine ⟨_, rfl, inv₃, htable₃, hd₁, hkeep, ?_⟩
  have hpde : access m₁ (pdePtr v) = some (slot d (v.toNat / 4096 / 1024)) := by
    rw [access_pde inv₁.window inv₁.cr3_space v, hcr3₁]
  have hwindow₂ := inv₁.window.rewrite inv₁.cr3_space.aligned (by rw [hcr3₁]; exact hstore) (by rw [hcr3₁]; exact hnone₁)
  rw [pageTableAdd, bind_eq (load_eq (access_pde inv.window hspace v)), if_neg hpres, bind_eq hpalloc,
    bind_eq (store_eq hpde)]
  simp only [Option.getD_some]
  rw [bind_eq (clearPage_eq (access_table hwindow₂ (by
    change KernelSpace _ m₁.cr3
    rw [hcr3₁]
    exact hspace₂) (by
    change entryFrame _ m₁.cr3 _ = _
    rw [hcr3₁, hstore _ _ hspace₁.aligned (by omega), if_pos ⟨rfl, rfl⟩])))]
  rw [bind_eq (load_eq (access_pte inv₃.window inv₃.cr3_space hp₃))]
  refine (bind_ok _ _ _ _).mpr ⟨(), _, (assert_ok _ _ _ _).mpr ⟨entryFrame_none.mp hclear, rfl⟩, ?_⟩
  rw [store_eq (access_pte inv₃.window inv₃.cr3_space hp₃)]
  rfl

theorem pageTableAdd_user (inv : FrameInv stray slack H m) {v f d : Word} (hd : dirOf m m.cur = some d)
    (hn : v.toNat / 4096 < 0xc0000) (hlo : 0x8048 ≤ v.toNat / 4096)
    (hbit : (m.userVaddr m.cur).vaddrBitmap.scanTest (v.toNat / 4096 - 0x8048) = true)
    (hf : Fresh m H f) (hft : Taken m .user f) {u : Unit} (h : pageTableAdd v f m = .ok (u, m')) :
    FrameInv stray slack (Function.update H (.upage m.cur (v.toNat / 4096)) True) m' ∧ SameTasks m m' ∧ Keeps H m m' ∧
      (∀ w, w.Valid → w ≠ .upage m.cur (v.toNat / 4096) → w ≠ .table m.cur (v.toNat / 4096 / 1024) →
        useFrame m' w = useFrame m w) ∧
      useFrame m' (.upage m.cur (v.toNat / 4096)) = some f ∧ freshFrames .user m' = freshFrames .user m := by
  have hcr3 := cr3_eq inv hd
  have hspace := inv.cr3_space
  cases hp : entryFrame m.mem m.cr3 (v.toNat / 4096 / 1024) with
  | some p =>
    obtain ⟨hfree, rfl⟩ := pageTableAdd_present inv.window hspace hp h
    have hp' : useFrame m (.table m.cur (v.toNat / 4096 / 1024)) = some p :=
      useFrame_table.mpr ⟨d, hd, by rw [← hcr3]; exact hp⟩
    have hnone : useFrame m (.upage m.cur (v.toNat / 4096)) = none := by
      rw [hcr3] at hp
      simp only [useFrame, hd, hp, hfree, Option.bind_some]
    obtain ⟨hinv, hkeeps, hother, hself⟩ := mapUser inv hn hlo hbit hp' hf hft hnone
    exact ⟨hinv, ⟨rfl, rfl, rfl, rfl, rfl, rfl, fun _ => rfl⟩, hkeeps, fun w hw hne _ => hother w hw hne, hself, rfl⟩
  | none =>
    have hi : v.toNat / 4096 / 1024 < 768 := by omega
    have hpres : ¬ present (m.mem (slot m.cr3 (v.toNat / 4096 / 1024))) = true := by
      have := entryFrame_none.mp hp
      simpa [entry] using this
    have hcall := h
    rw [pageTableAdd, bind_eq (load_eq (access_pde inv.window hspace v)), if_neg hpres, bind_ok] at h
    obtain ⟨r, m₁, hpalloc, -⟩ := h
    obtain ⟨g, rfl, inv₁, hg, -, hmem₁, hsame₁, htaken₁⟩ := palloc_inv inv hpalloc
    obtain ⟨m₃, hm₃, inv₃, htable₃, hd₁, hkeep, hrun⟩ := pageTableAdd_missing (f := f) inv hd hn hp hpalloc
    rw [hcall] at hrun
    simp only [Except.ok.injEq, Prod.mk.injEq, true_and] at hrun
    have hft₁ : Taken m₁ .user f := (htaken₁ _ _).mpr (Or.inl hft)
    have hfg : f ≠ g := by
      rintro rfl
      cases taken_pool inv₁.shape ((htaken₁ _ _).mpr (Or.inr ⟨rfl, rfl⟩)) hft₁
    have hnone₃ : useFrame m₁ (.upage m₁.cur (v.toNat / 4096)) = none := by
      have hnone₁ : entryFrame m₁.mem d (v.toNat / 4096 / 1024) = none := by
        rw [hmem₁, ← hcr3]
        exact hp
      simp only [useFrame, hd₁, hnone₁, Option.bind_some, Option.bind_none]
    have hcur₃ : m₃.cur = m₁.cur := by rw [hm₃]
    obtain ⟨hinv, hkeeps, hother, hself⟩ := mapUser inv₃ hn hlo (by
      rw [hm₃]
      change (m₁.userVaddr m₁.cur).vaddrBitmap.scanTest _ = true
      rw [hsame₁.userVaddr, hsame₁.cur]
      exact hbit) (by rw [hcur₃]; exact htable₃) ⟨hf.1, by
        intro w hw hwf
        by_cases hwt : w = .table m₁.cur (v.toNat / 4096 / 1024)
        · rw [hwt, htable₃, Option.some.injEq] at hwf
          exact hfg hwf.symm
        · rw [hkeep w (inv₁.valid hw) hwt, FrameInv.useFrame_same hmem₁ hsame₁.pgdir] at hwf
          exact hf.2 w hw hwf⟩ (by rw [hm₃]; exact hft₁) (by
        rw [hcur₃, hkeep (.upage m₁.cur (v.toNat / 4096)) hn (by simp)]
        exact hnone₃)
    rw [← hrun, hcur₃] at hinv hother hself
    rw [← hrun] at hkeeps
    have hsame : SameTasks m m' := by
      rw [hrun, hm₃]
      exact ⟨hsame₁.pgdir, hsame₁.cur, hsame₁.cr3, hsame₁.tlb, hsame₁.kernelVaddr, hsame₁.userVaddr, hsame₁.poolLen⟩
    have hkeeps₃ : Keeps H m₁ m₃ := by
      rw [hm₃] at hkeep ⊢
      exact newTable_keeps inv₁ hd₁ hi hg hkeep
    have hpgdir₃ : m₃.pgdir = m₁.pgdir := by rw [hm₃]
    rw [hsame₁.cur] at hinv hother hself
    refine ⟨hinv, hsame, ?_, ?_, hself, ?_⟩
    · exact (Keeps.of_same hmem₁ hsame₁.pgdir).trans (hkeeps₃.trans hkeeps (fun _ h => h) hpgdir₃) (fun _ h => h) hsame₁.pgdir
    · intro w hw hne hnt
      rw [hother w hw hne, hkeep w hw (by rw [hsame₁.cur]; exact hnt), FrameInv.useFrame_same hmem₁ hsame₁.pgdir]
    · rw [hrun, hm₃]
      exact (freshFrames_palloc hpalloc).2 .user (by simp)

/-- The pages from `n` on, `cnt` of them, are handed out too. -/
def grant (H : Use → Prop) (page : ℕ → Use) (n cnt : ℕ) : Use → Prop := fun u => H u ∨ ∃ j, j < cnt ∧ u = page (n + j)

theorem grant_zero (H : Use → Prop) (page : ℕ → Use) (n : ℕ) : grant H page n 0 = H := by
  funext u
  simp [grant]

theorem grant_succ (H : Use → Prop) (page : ℕ → Use) (n cnt : ℕ) :
    grant (Function.update H (page n) True) page (n + 1) cnt = grant H page n (cnt + 1) := by
  funext u
  apply propext
  unfold grant
  constructor
  · rintro (hu | ⟨j, hj, rfl⟩)
    · by_cases hun : u = page n
      · exact Or.inr ⟨0, by omega, by simpa using hun⟩
      · rw [Function.update_of_ne hun] at hu
        exact Or.inl hu
    · exact Or.inr ⟨j + 1, by omega, by rw [show n + 1 + j = n + (j + 1) by omega]⟩
  · rintro (hu | ⟨j, hj, rfl⟩)
    · left
      by_cases hun : u = page n
      · rw [hun, Function.update_self]
        trivial
      · rwa [Function.update_of_ne hun]
    · cases j with
      | zero => exact Or.inl (by simp)
      | succ j => exact Or.inr ⟨j, by omega, by rw [show n + 1 + j = n + (j + 1) by omega]⟩

theorem update_true {H : Use → Prop} {u w : Use} (h : H u) : Function.update H w True u := by
  by_cases hu : u = w
  · rw [hu, Function.update_self]
    trivial
  · rwa [Function.update_of_ne hu]

theorem page_succ {v : Word} (hv : v.toNat / 4096 < 0xffc00) : (v + 0x1000#32).toNat / 4096 = v.toNat / 4096 + 1 := by
  rw [BitVec.toNat_add, BitVec.toNat_ofNat]
  omega

/-- What mapping `cnt` pages of the kernel's heap from page `n` on does to frames and pages. -/
structure KernelMapped (m m' : Machine) (n cnt : ℕ) : Prop where
  unmapped : ∀ j, j < cnt → kernelFrame m.mem (n + j) = none
  pool : ∀ g, Taken m' .kernel g ↔ Taken m .kernel g ∨ ∃ j, j < cnt ∧ kernelFrame m'.mem (n + j) = some g
  fresh : ∀ j g, j < cnt → kernelFrame m'.mem (n + j) = some g → ¬ Taken m .kernel g
  user : ∀ g, Taken m' .user g ↔ Taken m .user g
  other : ∀ k, 0xc0000 ≤ k → k < 0xffc00 → (∀ j, j < cnt → k ≠ n + j) → kernelFrame m'.mem k = kernelFrame m.mem k
  frames : ∀ j, j < cnt → kernelFrame m'.mem (n + j) = (freshFrames .kernel m)[j]?
  rest : freshFrames .kernel m' = (freshFrames .kernel m).drop cnt

theorem mapPages_kernel (cnt : ℕ) {v : Word} {H : Use → Prop} {m m' : Machine} {ok : Bool}
    (inv : FrameInv stray slack H m) (hn : 0xc0100 ≤ v.toNat / 4096)
    (hin : v.toNat / 4096 + cnt ≤ 0xc0100 + 8 * m.kernelVaddr.vaddrBitmap.btmpBytesLen + slack)
    (hbits : ∀ j, j < cnt → m.kernelVaddr.vaddrBitmap.scanTest (v.toNat / 4096 - 0xc0100 + j) = true)
    (h : mapPages .kernel cnt v m = .ok (ok, m')) :
    ok = true ∧ FrameInv stray slack (grant H .kpage (v.toNat / 4096) cnt) m' ∧ SameTasks m m' ∧
      KernelMapped m m' (v.toNat / 4096) cnt ∧ Keeps H m m' := by
  induction cnt generalizing v H m with
  | zero =>
    simp only [mapPages, pure_ok] at h
    obtain ⟨rfl, rfl⟩ := h
    rw [grant_zero]
    refine ⟨rfl, inv, ⟨rfl, rfl, rfl, rfl, rfl, rfl, fun _ => rfl⟩, ?_, Keeps.refl _ _⟩
    exact ⟨fun j hj => by omega, fun g => by simp, fun j g hj => by omega, fun g => Iff.rfl, fun k _ _ _ => rfl,
      fun j hj => by omega, rfl⟩
  | succ cnt ih =>
    have hend := inv.shape.heapEnd
    have hnear := inv.near
    simp only [mapPages, bind_ok] at h
    obtain ⟨r, m₁, hpalloc, h⟩ := h
    obtain ⟨f, rfl, inv₁, hf, hnot, hmem₁, hsame₁, htaken₁⟩ := palloc_inv inv hpalloc
    simp only [bind_ok] at h
    obtain ⟨_, m₂, hadd, h⟩ := h
    have hft := (htaken₁ .kernel f).mpr (Or.inr ⟨rfl, rfl⟩)
    obtain ⟨inv₂, hsame₂, hpool₂, hnone, hsome, hother, hkeeps₂⟩ := pageTableAdd_kernel inv₁ hn
      (by rw [hsame₁.kernelVaddr]; omega) (by rw [hsame₁.kernelVaddr]; simpa using hbits 0 (by omega)) hf hft hadd
    have hnext := page_succ (v := v) (by omega)
    have hvaddr : m₂.kernelVaddr = m.kernelVaddr := hsame₂.kernelVaddr.trans hsame₁.kernelVaddr
    obtain ⟨hok, inv', hsame', hmap, hkeeps'⟩ := ih inv₂ (by omega) (by rw [hnext, hvaddr]; omega) (by
      intro j hj
      rw [hvaddr, hnext, show v.toNat / 4096 + 1 - 0xc0100 + j = v.toNat / 4096 - 0xc0100 + (j + 1) by omega]
      exact hbits (j + 1) (by omega)) h
    rw [hnext, grant_succ] at inv'
    rw [hnext] at hmap
    have htaken₂ : ∀ pf g, Taken m₂ pf g ↔ Taken m pf g ∨ (pf = .kernel ∧ g = f) := by
      intro pf g
      rw [← htaken₁, Taken, Taken, hpool₂]
    -- the page mapped first keeps its frame
    have hfirst : kernelFrame m'.mem (v.toNat / 4096) = some f := by
      rw [hmap.other _ (by omega) (by omega) (by intro j _; omega), hsome]
    have hkeeps : Keeps H m m' := ((Keeps.of_same hmem₁ hsame₁.pgdir).trans hkeeps₂ (fun _ h => h) hsame₁.pgdir).trans
      hkeeps' (fun u hu => update_true hu) (hsame₁.trans hsame₂).pgdir
    obtain ⟨htake, -⟩ := freshFrames_palloc hpalloc
    have hfresh₂ : freshFrames .kernel m₂ = freshFrames .kernel m₁ := freshFrames_congr (hpool₂ .kernel)
    refine ⟨hok, inv', (hsame₁.trans hsame₂).trans hsame', ⟨?_, ?_, ?_, ?_, ?_, ?_, ?_⟩, hkeeps⟩
    · intro j hj
      cases j with
      | zero => rw [← hmem₁]; exact hnone
      | succ j =>
        have := hmap.unmapped j (by omega)
        rw [hother _ (by omega) (by omega) (by omega), hmem₁] at this
        rwa [show v.toNat / 4096 + (j + 1) = v.toNat / 4096 + 1 + j by omega]
    · intro g
      rw [hmap.pool g, htaken₂]
      constructor
      · rintro ((h | ⟨-, rfl⟩) | ⟨j, hj, hg⟩)
        · exact Or.inl h
        · exact Or.inr ⟨0, by omega, hfirst⟩
        · exact Or.inr ⟨j + 1, by omega, by rwa [show v.toNat / 4096 + (j + 1) = v.toNat / 4096 + 1 + j by omega]⟩
      · rintro (h | ⟨j, hj, hg⟩)
        · exact Or.inl (Or.inl h)
        · cases j with
          | zero =>
            rw [Nat.add_zero, hfirst, Option.some.injEq] at hg
            exact Or.inl (Or.inr ⟨rfl, hg.symm⟩)
          | succ j =>
            exact Or.inr ⟨j, by omega, by rwa [show v.toNat / 4096 + 1 + j = v.toNat / 4096 + (j + 1) by omega]⟩
    · intro j g hj hg hold
      cases j with
      | zero =>
        rw [Nat.add_zero, hfirst, Option.some.injEq] at hg
        exact hnot (hg ▸ hold)
      | succ j =>
        rw [show v.toNat / 4096 + (j + 1) = v.toNat / 4096 + 1 + j by omega] at hg
        exact hmap.fresh j g (by omega) hg ((htaken₂ _ _).mpr (Or.inl hold))
    · intro g
      rw [hmap.user g, htaken₂]
      simp
    · intro k hk hk' hne
      rw [hmap.other k hk hk' (by
        intro j hj
        have := hne (j + 1) (by omega)
        omega), hother k hk hk' (by simpa using hne 0 (by omega)), hmem₁]
    · intro j hj
      rw [htake]
      cases j with
      | zero => exact hfirst
      | succ j =>
        rw [List.getElem?_cons_succ, ← hfresh₂, ← hmap.frames j (by omega), show v.toNat / 4096 + (j + 1) = v.toNat / 4096 + 1 + j by omega]
    · rw [hmap.rest, hfresh₂, htake, List.drop_succ_cons]

theorem mapPages_user (cnt : ℕ) {v : Word} {H : Use → Prop} {m m' : Machine} {ok : Bool}
    (inv : FrameInv stray slack H m) {w : Word} (hw : m.pgdir m.cur = some w) (hlo : 0x8048 ≤ v.toNat / 4096)
    (hhi : v.toNat / 4096 ≤ 0xc0000)
    (hbits : ∀ j, j < cnt → (m.userVaddr m.cur).vaddrBitmap.scanTest (v.toNat / 4096 - 0x8048 + j) = true)
    (h : mapPages .user cnt v m = .ok (ok, m')) :
    ok = true ∧ FrameInv stray slack (grant H (.upage m.cur) (v.toNat / 4096) cnt) m' ∧ SameTasks m m' ∧
      v.toNat / 4096 + cnt ≤ 0xc0000 ∧ Keeps H m m' ∧
      ∀ j, j < cnt → useFrame m' (.upage m.cur (v.toNat / 4096 + j)) = (freshFrames .user m)[j]? := by
  induction cnt generalizing v H m with
  | zero =>
    simp only [mapPages, pure_ok] at h
    obtain ⟨rfl, rfl⟩ := h
    rw [grant_zero]
    exact ⟨rfl, inv, ⟨rfl, rfl, rfl, rfl, rfl, rfl, fun _ => rfl⟩, hhi, Keeps.refl _ _, fun j hj => by omega⟩
  | succ cnt ih =>
    simp only [mapPages, bind_ok] at h
    obtain ⟨r, m₁, hpalloc, h⟩ := h
    obtain ⟨f, rfl, inv₁, hf, -, hmem₁, hsame₁, htaken₁⟩ := palloc_inv inv hpalloc
    simp only [bind_ok] at h
    obtain ⟨_, m₂, hadd, h⟩ := h
    -- the page at the start of the kernel's half is mapped since boot
    have hlt : v.toNat / 4096 < 0xc0000 := by
      by_contra hge
      have heq : v.toNat / 4096 = 0xc0000 := by omega
      have hp := inv₁.cr3_space.kernel (v.toNat / 4096 / 1024) (by omega) (by omega)
      obtain ⟨hnone, -⟩ := pageTableAdd_present inv₁.window inv₁.cr3_space hp hadd
      rw [heq] at hnone
      have hlow := inv₁.low 0 (by omega)
      rw [show (0xc0000 : ℕ) / 1024 = 768 by rfl, show (0xc0000 : ℕ) % 1024 = 0 by rfl, hlow] at hnone
      cases hnone
    have hw₁ : m₁.pgdir m₁.cur = some w := by rw [hsame₁.pgdir, hsame₁.cur]; exact hw
    obtain ⟨d, hd, -⟩ := inv₁.dir_some hw₁
    obtain ⟨inv₂, hsame₂, hkeeps₂, -, hself, hfresh₂⟩ := pageTableAdd_user inv₁ hd hlt hlo
      (by rw [hsame₁.userVaddr, hsame₁.cur]; simpa using hbits 0 (by omega)) hf
      ((htaken₁ .user f).mpr (Or.inr ⟨rfl, rfl⟩)) hadd
    have hsame := hsame₁.trans hsame₂
    have hnext := page_succ (v := v) (by omega)
    rw [hsame₁.cur] at inv₂ hself
    obtain ⟨hok, inv', hsame', hend, hkeeps', hframes⟩ := ih inv₂ (by rw [hsame.pgdir, hsame.cur]; exact hw) (by omega) (by omega) (by
      intro j hj
      rw [hsame.userVaddr, hsame.cur, hnext,
        show v.toNat / 4096 + 1 - 0x8048 + j = v.toNat / 4096 - 0x8048 + (j + 1) by omega]
      exact hbits (j + 1) (by omega)) h
    rw [hnext, hsame.cur, grant_succ] at inv'
    refine ⟨hok, inv', hsame.trans hsame', by omega, ?_, ?_⟩
    · exact ((Keeps.of_same hmem₁ hsame₁.pgdir).trans hkeeps₂ (fun _ h => h) hsame₁.pgdir).trans hkeeps'
        (fun u hu => update_true hu) hsame.pgdir
    · intro j hj
      rw [(freshFrames_palloc hpalloc).1]
      cases j with
      | zero =>
        -- the page mapped first keeps its frame
        exact (hkeeps' _ f (by rw [Function.update_self]; trivial) (by simp) hself).1
      | succ j =>
        have h := hframes j (by omega)
        rw [hnext, hsame.cur, hfresh₂] at h
        rw [List.getElem?_cons_succ, ← h, show v.toNat / 4096 + (j + 1) = v.toNat / 4096 + 1 + j by omega]

theorem setBits_len (b : Bitmap) (start : ℕ) (value : Bool) (cnt : ℕ) :
    (setBits b start value cnt).btmpBytesLen = b.btmpBytesLen := by
  induction cnt with
  | zero => rfl
  | succ cnt ih => rw [setBits, Bitmap.set_len, ih]

theorem scanTest_setBits (b : Bitmap) (start : ℕ) (value : Bool) (cnt k : ℕ) :
    (setBits b start value cnt).scanTest k = if start ≤ k ∧ k < start + cnt then value else b.scanTest k := by
  induction cnt with
  | zero => rw [setBits, if_neg (by omega)]
  | succ cnt ih =>
    rw [setBits, Bitmap.scanTest_set, ih]
    by_cases hk : k = start + cnt
    · rw [if_pos hk, if_pos (by omega)]
    · rw [if_neg hk]
      by_cases hin : start ≤ k ∧ k < start + cnt
      · rw [if_pos hin, if_pos (by omega)]
      · rw [if_neg hin, if_neg (by omega)]

def markPages (pf : Pool) (i : ℕ) (value : Bool) (cnt : ℕ) (m : Machine) : Machine :=
  setVaddr pf { vaddrOf pf m with vaddrBitmap := setBits (vaddrOf pf m).vaddrBitmap i value cnt } m

theorem shape_markPages (hs : Shape m) (pf : Pool) (i : ℕ) (value : Bool) (cnt : ℕ) :
    Shape (markPages pf i value cnt m) := by
  cases pf with
  | kernel =>
    refine ⟨hs.kernelStart, hs.kernelEnd, hs.userStart, hs.userEnd, hs.heapStart, ?_, hs.task⟩
    simpa [markPages, setVaddr, vaddrOf, setBits_len] using hs.heapEnd
  | user =>
    refine ⟨hs.kernelStart, hs.kernelEnd, hs.userStart, hs.userEnd, hs.heapStart, hs.heapEnd, ?_⟩
    intro t v hv
    have h := hs.task t v hv
    by_cases ht : t = m.cur
    · subst ht
      simpa [markPages, setVaddr, vaddrOf, setBits_len] using h
    · simpa [markPages, setVaddr, ht] using h

/-- What `malloc_page` leaves in the task table. -/
structure SameProcs (m m' : Machine) : Prop where
  pgdir : m'.pgdir = m.pgdir
  cur : m'.cur = m.cur
  cr3 : m'.cr3 = m.cr3
  tlb : m'.tlb = m.tlb
  len : ∀ t, (m'.userVaddr t).vaddrBitmap.btmpBytesLen = (m.userVaddr t).vaddrBitmap.btmpBytesLen
  kernelLen : m'.kernelVaddr.vaddrBitmap.btmpBytesLen = m.kernelVaddr.vaddrBitmap.btmpBytesLen

theorem SameProcs.trans {m m' m'' : Machine} (h : SameProcs m m') (h' : SameProcs m' m'') : SameProcs m m'' :=
  ⟨h'.pgdir.trans h.pgdir, h'.cur.trans h.cur, h'.cr3.trans h.cr3, h'.tlb.trans h.tlb, fun t => (h'.len t).trans (h.len t),
    h'.kernelLen.trans h.kernelLen⟩

theorem SameTasks.procs {m m' : Machine} (h : SameTasks m m') : SameProcs m m' :=
  ⟨h.pgdir, h.cur, h.cr3, h.tlb, fun t => by rw [h.userVaddr], by rw [h.kernelVaddr]⟩

theorem markPages_procs (pf : Pool) (i : ℕ) (value : Bool) (cnt : ℕ) (m : Machine) :
    SameProcs m (markPages pf i value cnt m) := by
  cases pf with
  | kernel => exact ⟨rfl, rfl, rfl, rfl, fun _ => rfl, setBits_len _ _ _ _⟩
  | user =>
    refine ⟨rfl, rfl, rfl, rfl, fun t => ?_, rfl⟩
    by_cases ht : t = m.cur
    · subst ht
      simp [markPages, setVaddr, vaddrOf, setBits_len]
    · simp [markPages, setVaddr, ht]

theorem markPages_mem (pf : Pool) (i : ℕ) (value : Bool) (cnt : ℕ) (m : Machine) :
    (markPages pf i value cnt m).mem = m.mem := by
  cases pf with
  | kernel => rfl
  | user => rfl

theorem markPages_inv (inv : FrameInv stray slack H m) (pf : Pool) (i cnt : ℕ) :
    FrameInv stray slack H (markPages pf i true cnt m) := by
  have htaken : ∀ pf' g, Taken (markPages pf i true cnt m) pf' g ↔ Taken m pf' g := by
    intro pf' g
    cases pf with
    | kernel => cases pf' <;> exact Iff.rfl
    | user => cases pf' <;> exact Iff.rfl
  have hshape := shape_markPages inv.shape pf i true cnt
  have hprocs := markPages_procs pf i true cnt m
  have hmem := markPages_mem pf i true cnt m
  cases pf with
  | kernel =>
    apply inv.remark hmem hprocs.pgdir hprocs.cur hprocs.cr3 hprocs.tlb hshape hprocs.kernelLen
    · intro u f hu hf
      exact (htaken _ _).mpr (inv.taken u f hu hf)
    · intro n hn
      simp only [markPages, setVaddr, vaddrOf, scanTest_setBits]
      split_ifs
      · rfl
      · exact (inv.heap n hn).2.2
    · intro t n f hn hf
      exact (inv.user t n f hn hf).2
  | user =>
    apply inv.remark hmem hprocs.pgdir hprocs.cur hprocs.cr3 hprocs.tlb hshape hprocs.kernelLen
    · intro u f hu hf
      exact (htaken _ _).mpr (inv.taken u f hu hf)
    · intro n hn
      exact (inv.heap n hn).2.2
    · intro t n f hn hf
      by_cases ht : t = m.cur
      · subst ht
        simp only [markPages, setVaddr, vaddrOf, Function.update_self, scanTest_setBits]
        split_ifs
        · rfl
        · exact (inv.user m.cur n f hn hf).2
      · simp only [markPages, setVaddr, Function.update_of_ne ht]
        exact (inv.user t n f hn hf).2

theorem vaddrGet_ok {pf : Pool} {cnt : ℕ} {r : Option Word} (h : vaddrGet pf cnt m = .ok (r, m')) :
    (r = none ∧ m' = m ∧ cnt ≠ 1) ∨ ∃ i, (vaddrOf pf m).vaddrBitmap.scan cnt = .ok (some i) ∧ m' = markPages pf i true cnt m ∧
      r = some (BitVec.ofNat 32 ((vaddrOf pf m).vaddrStart + i * 4096)) ∧
      (pf = .user → (vaddrOf pf m).vaddrStart + i * 4096 < 0xc0000000 - 4096) := by
  simp only [vaddrGet, bind_ok, get_ok] at h
  obtain ⟨_, _, ⟨rfl, rfl⟩, h⟩ := h
  cases hscan : (vaddrOf pf m).vaddrBitmap.scan cnt with
  | error e => simp only [hscan, halt_ok] at h
  | ok o =>
    cases o with
    | none =>
      simp only [hscan, pure_ok] at h
      refine Or.inl ⟨h.1.symm, h.2.symm, ?_⟩
      rintro rfl
      rcases Bitmap.scan_one (vaddrOf pf m).vaddrBitmap with ⟨k, hk, -⟩ | ⟨hk, -⟩ <;> simp [hk] at hscan
    | some i =>
      simp only [hscan, bind_ok, set_ok] at h
      obtain ⟨_, _, rfl, h⟩ := h
      right
      refine ⟨i, rfl, ?_⟩
      cases pf with
      | kernel =>
        simp only [reduceCtorEq, if_false, pure_ok] at h
        exact ⟨h.2.symm, h.1.symm, by simp⟩
      | user =>
        simp only [if_true, bind_ok, assert_ok, pure_ok] at h
        obtain ⟨_, _, ⟨hlt, rfl⟩, rfl, rfl⟩ := h
        exact ⟨rfl, rfl, fun _ => hlt⟩

/-- A request of the kernel for `cnt` pages finds them within reach. -/
def Reaches (slack cnt : ℕ) (b : Bitmap) : Prop :=
  0 < cnt → ∀ i, b.scan cnt = .ok (some i) → i + cnt ≤ 8 * b.btmpBytesLen + slack

theorem mallocPage_kernel (inv : FrameInv stray slack H m) {cnt : ℕ} {r : Option Word}
    (hreach : Reaches slack cnt m.kernelVaddr.vaddrBitmap)
    (h : mallocPage .kernel cnt m = .ok (r, m')) :
    (r = none ∧ m' = m ∧ cnt ≠ 1) ∨ ∃ v i, r = some v ∧ v.toNat % 4096 = 0 ∧ v.toNat / 4096 = 0xc0100 + i ∧ 0 < cnt ∧
      m.kernelVaddr.vaddrBitmap.scan cnt = .ok (some i) ∧ i + cnt ≤ 8 * m.kernelVaddr.vaddrBitmap.btmpBytesLen + slack ∧
      FrameInv stray slack (grant H .kpage (v.toNat / 4096) cnt) m' ∧
      SameTasks (markPages .kernel i true cnt m) m' ∧ KernelMapped m m' (v.toNat / 4096) cnt ∧ Keeps H m m' := by
  simp only [mallocPage, bind_ok, assert_ok] at h
  obtain ⟨_, _, ⟨⟨hpos, -⟩, rfl⟩, r₁, m₁, hget, h⟩ := h
  rcases vaddrGet_ok hget with ⟨rfl, rfl, hone⟩ | ⟨i, hscan, rfl, rfl, -⟩
  · simp only [pure_ok] at h
    exact Or.inl ⟨h.1.symm, h.2.symm, hone⟩
  · right
    simp only [vaddrOf] at hscan
    obtain ⟨-, hle, -, -⟩ := Bitmap.scan_some _ hpos hscan
    have hend := inv.shape.heapEnd
    have hstart : (vaddrOf .kernel m).vaddrStart = 0xc0100000 := inv.shape.heapStart
    simp only [hstart, bind_ok] at h
    obtain ⟨ok, m₂, hmap, h⟩ := h
    have hv : (BitVec.ofNat 32 (0xc0100000 + i * 4096)).toNat = 0xc0100000 + i * 4096 := by
      rw [BitVec.toNat_ofNat]
      omega
    have hpage : (BitVec.ofNat 32 (0xc0100000 + i * 4096)).toNat / 4096 = 0xc0100 + i := by omega
    obtain ⟨rfl, inv', hsame, hmapped, hkeeps⟩ := mapPages_kernel cnt (markPages_inv inv .kernel i cnt) (by omega) (by
      rw [hpage, (markPages_procs .kernel i true cnt m).kernelLen]
      have := hreach hpos i hscan
      omega) (by
      intro j hj
      rw [hpage]
      simp only [markPages, setVaddr, vaddrOf, scanTest_setBits]
      rw [if_pos (by omega)]) hmap
    simp only [if_true, pure_ok] at h
    obtain ⟨rfl, rfl⟩ := h
    refine ⟨_, i, rfl, by omega, hpage, hpos, hscan, hreach hpos i hscan, inv', hsame, ?_, ?_⟩
    · exact ⟨hmapped.unmapped, hmapped.pool, hmapped.fresh, hmapped.user, hmapped.other, hmapped.frames, hmapped.rest⟩
    · exact (Keeps.of_same (markPages_mem .kernel i true cnt m) (markPages_procs .kernel i true cnt m).pgdir).trans hkeeps
        (fun _ h => h) (markPages_procs .kernel i true cnt m).pgdir

theorem mallocPage_user (inv : FrameInv stray slack H m) {cnt : ℕ} {r : Option Word}
    (hthread : m.pgdir m.cur = none → (m.userVaddr m.cur).vaddrBitmap.btmpBytesLen = 0)
    (h : mallocPage .user cnt m = .ok (r, m')) :
    (r = none ∧ m' = m) ∨ ∃ v, r = some v ∧ (m.pgdir m.cur).isSome = true ∧ 0 < cnt ∧
      0x8048 ≤ v.toNat / 4096 ∧ v.toNat / 4096 + cnt ≤ 0xc0000 ∧
      FrameInv stray slack (grant H (.upage m.cur) (v.toNat / 4096) cnt) m' ∧ SameProcs m m' ∧ Keeps H m m' ∧
      v.toNat % 4096 = 0 ∧ (∀ j, j < cnt → ¬ H (.upage m.cur (v.toNat / 4096 + j))) ∧
      (∃ i, v.toNat / 4096 = 0x8048 + i ∧ (m.userVaddr m.cur).vaddrBitmap.scan cnt = .ok (some i)) ∧
      ∀ j, j < cnt → useFrame m' (.upage m.cur (v.toNat / 4096 + j)) = (freshFrames .user m)[j]? := by
  simp only [mallocPage, bind_ok, assert_ok] at h
  obtain ⟨_, _, ⟨⟨hpos, -⟩, rfl⟩, r₁, m₁, hget, h⟩ := h
  rcases vaddrGet_ok hget with ⟨rfl, rfl, -⟩ | ⟨i, hscan, rfl, rfl, hlt⟩
  · simp only [pure_ok] at h
    exact Or.inl ⟨h.1.symm, h.2.symm⟩
  · right
    simp only [vaddrOf] at hscan
    have hlt := hlt rfl
    cases hw : m.pgdir m.cur with
    | none =>
      have hzero := hthread hw
      obtain ⟨-, hle, hone, -⟩ := Bitmap.scan_some _ hpos hscan
      have : cnt = 1 := by omega
      have := hone this
      omega
    | some w =>
      have hstart : (vaddrOf .user m).vaddrStart = 0x8048000 := (inv.shape.task m.cur w hw).1
      simp only [hstart] at hlt
      simp only [hstart, bind_ok] at h
      obtain ⟨ok, m₂, hmap, h⟩ := h
      have hv : (BitVec.ofNat 32 (0x8048000 + i * 4096)).toNat = 0x8048000 + i * 4096 := by
        rw [BitVec.toNat_ofNat]
        omega
      have hpage : (BitVec.ofNat 32 (0x8048000 + i * 4096)).toNat / 4096 = 0x8048 + i := by omega
      have hprocs := markPages_procs .user i true cnt m
      obtain ⟨rfl, inv', hsame, hend, hkeeps, hframes⟩ := mapPages_user cnt (markPages_inv inv .user i cnt)
        (by rw [hprocs.pgdir, hprocs.cur]; exact hw) (by omega) (by omega) (by
        intro j hj
        rw [hpage]
        simp only [markPages, setVaddr, vaddrOf, Function.update_self, scanTest_setBits]
        rw [if_pos (by omega)]) hmap
      simp only [if_true, pure_ok] at h
      obtain ⟨rfl, rfl⟩ := h
      refine ⟨_, rfl, rfl, hpos, by omega, hend, inv', hprocs.trans hsame.procs,
        (Keeps.of_same (markPages_mem .user i true cnt m) hprocs.pgdir).trans hkeeps (fun _ h => h) hprocs.pgdir, by omega, ?_,
        ⟨i, hpage, hscan⟩, hframes⟩
      -- the bits of the run were clear, those of the pages handed out are set
      intro j hj hH
      obtain ⟨f, hf⟩ := inv.mapped _ hH
      have hbit := (inv.user m.cur _ f (inv.page _ hH).1 hf).2
      have hfree := (Bitmap.scan_some _ hpos hscan).1 j hj
      rw [hpage, show 0x8048 + i + j - 0x8048 = i + j by omega, hfree] at hbit
      cases hbit

end

end ElephantOS.Paging
