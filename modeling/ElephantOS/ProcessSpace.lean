import ElephantOS.PageRelease

/-! The page calls and the page directories of processes, `userprog/process.c`. -/

namespace ElephantOS.Paging

open HaltingState

section

variable {stray : ℕ → Prop} {slack : ℕ} {H : Use → Prop} {m m' : Machine}

theorem not_dirPage (inv : FrameInv stray slack H m) {n : ℕ} (hn : kernelFrame m.mem n = none) {t : ℕ} {w : Word}
    (hw : m.pgdir t = some w) : w.toNat / 4096 ≠ n := by
  rintro rfl
  obtain ⟨d, -, -, hd⟩ := inv.dir_some hw
  rw [useFrame, hn] at hd
  cases hd

theorem getKernelPages_inv (inv : FrameInv stray slack H m) {cnt : ℕ} (hreach : Reaches slack cnt m.kernelVaddr.vaddrBitmap)
    (hcached : Unstale m .kernel m.kernelVaddr.vaddrBitmap 0 cnt) {r : Option Word} (h : getKernelPages cnt m = .ok (r, m')) :
    (r = none ∧ m' = m ∧ cnt ≠ 1) ∨ ∃ v i, r = some v ∧ v.toNat % 4096 = 0 ∧ v.toNat / 4096 = 0xc0100 + i ∧
      m.kernelVaddr.vaddrBitmap.scan cnt = .ok (some i) ∧
      FrameInv stray slack (grant H .kpage (v.toNat / 4096) cnt) m' ∧ SameTasks (markPages .kernel i true cnt m) m' ∧
      (∀ j, j < cnt → kernelFrame m.mem (v.toNat / 4096 + j) = none) ∧
      (∀ j f, j < cnt → kernelFrame m'.mem (v.toNat / 4096 + j) = some f → ∀ a, frame a = f → m'.mem a = 0) ∧
      (∀ j, j < cnt → Current m' .kernel (v.toNat / 4096 + j)) ∧ freshFrames .kernel m' = (freshFrames .kernel m).drop cnt := by
  simp only [getKernelPages, bind_ok] at h
  obtain ⟨r₁, m₁, hmalloc, h⟩ := h
  rcases mallocPage_kernel inv hreach hmalloc with ⟨rfl, rfl, hone⟩ | ⟨v, i, rfl, hv, hpage, hpos, hscan, hle, inv₁, hsame₁, hmap, -⟩
  · simp only [pure_ok] at h
    exact Or.inl ⟨h.1.symm, h.2.symm, hone⟩
  · right
    simp only [bind_ok, pure_ok] at h
    obtain ⟨_, m₂, hclear, rfl, rfl⟩ := h
    have hend := inv.shape.heapEnd
    have hnear := inv.near
    have hH : ∀ j, j < cnt → grant H .kpage (v.toNat / 4096) cnt (pageOf .kernel m₁.cur (v.toNat / 4096 + j)) :=
      fun j hj => Or.inr ⟨j, hj, rfl⟩
    have hcur : ∀ j, j < cnt → Current m₁ .kernel (v.toNat / 4096 + j) := by
      exact fun j hj => hcached.current hscan hj hpage hsame₁.tlb hsame₁.cur (hmap.frames j hj)
    obtain ⟨inv₂, hsame₂, hpool₂, hkeep, -, hzero, -⟩ := clearPages_inv cnt inv₁ hcur hH (by
      intro j t w hj hw heq
      rw [hsame₁.pgdir] at hw
      rw [pageOf, Use.kpage.injEq] at heq
      exact not_dirPage inv (hmap.unmapped j hj) hw heq.symm) (by omega) hclear
    refine ⟨v, i, rfl, hv, hpage, hscan, inv₂, hsame₁.trans hsame₂, hmap.unmapped, ?_, ?_, ?_⟩
    · intro j f hj hf
      apply hzero j f hj
      rw [← hkeep _ (inv₁.valid (inv₁.page _ (hH j hj)).1)]
      exact hf
    · intro j hj f hf
      rw [hsame₂.tlb] at hf
      rw [hsame₂.cur, hkeep _ (inv₁.valid (inv₁.page _ (hH j hj)).1)]
      exact hcur j hj f hf
    · rw [freshFrames_congr (hpool₂ .kernel), hmap.rest]

theorem getUserPages_inv (inv : FrameInv stray slack H m) {cnt : ℕ} {r : Option Word}
    (hcached : Unstale m .user (m.userVaddr m.cur).vaddrBitmap 0 cnt)
    (hthread : m.pgdir m.cur = none → (m.userVaddr m.cur).vaddrBitmap.btmpBytesLen = 0)
    (h : getUserPages cnt m = .ok (r, m')) :
    ∃ v, r = some v ∧ FrameInv stray slack (grant H (.upage m.cur) (v.toNat / 4096) cnt) m' ∧ SameProcs m m' := by
  simp only [getUserPages, bind_ok] at h
  obtain ⟨r₁, m₁, hmalloc, h⟩ := h
  rcases mallocPage_user inv hthread hmalloc with ⟨rfl, rfl⟩ | ⟨v, rfl, -, hpos, hlo, hend, inv₁, hprocs, -, -, -, ⟨i, hpage, hscan⟩, hframes⟩
  · simp only [halt_ok] at h
  · simp only [bind_ok, pure_ok] at h
    obtain ⟨_, m₂, hclear, rfl, rfl⟩ := h
    have hH : ∀ j, j < cnt →
        grant H (.upage m.cur) (v.toNat / 4096) cnt (pageOf .user m₁.cur (v.toNat / 4096 + j)) := by
      intro j hj
      rw [hprocs.cur]
      exact Or.inr ⟨j, hj, rfl⟩
    have hcur : ∀ j, j < cnt → Current m₁ .user (v.toNat / 4096 + j) := by
      exact fun j hj => hcached.current hscan hj hpage hprocs.tlb hprocs.cur (hframes j hj)
    obtain ⟨inv₂, hsame₂, -⟩ := clearPages_inv cnt inv₁ hcur hH (by simp [pageOf]) (by omega) hclear
    exact ⟨v, rfl, inv₂, hprocs.trans hsame₂.procs⟩

theorem setVaddr_one (pf : Pool) (i : ℕ) (m : Machine) :
    setVaddr pf { vaddrOf pf m with vaddrBitmap := (vaddrOf pf m).vaddrBitmap.set i true } m = markPages pf i true 1 m := by
  rfl

theorem getAPage_inv (inv : FrameInv stray slack H m) {pf : Pool} {v : Word} {r : Option Word}
    (hlo : basePage pf ≤ v.toNat / 4096)
    (hkernel : pf = .kernel → v.toNat / 4096 < 0xc0100 + 8 * m.kernelVaddr.vaddrBitmap.btmpBytesLen)
    (huser : pf = .user → v.toNat / 4096 < 0xc0000) (h : getAPage pf v m = .ok (r, m')) :
    r = some v ∧ FrameInv stray slack (grant H (pageOf pf m.cur) (v.toNat / 4096) 1) m' ∧ SameProcs m m' ∧
      ∀ t w, m.pgdir t = some w → pageOf pf m.cur (v.toNat / 4096) ≠ .kpage (w.toNat / 4096) := by
  simp only [getAPage, bind_ok, get_ok, assert_ok] at h
  obtain ⟨_, _, ⟨rfl, rfl⟩, _, _, ⟨htask, rfl⟩, _, _, ⟨-, rfl⟩, _, m₁, hset, r₁, m₂, hpalloc, h⟩ := h
  have hone : grant H (pageOf pf m.cur) (v.toNat / 4096) 1 =
      Function.update H (pageOf pf m.cur (v.toNat / 4096)) True := by
    rw [← grant_succ, grant_zero]
  have hstart : (vaddrOf pf m).vaddrStart = basePage pf * 4096 := by
    cases pf with
    | kernel => exact inv.shape.heapStart
    | user =>
      obtain ⟨w, hw⟩ := Option.isSome_iff_exists.mp (htask.mpr rfl)
      exact (inv.shape.task m.cur w hw).1
  rw [bitIdx_page hstart hlo] at hset
  simp only [set_ok] at hset
  have hm₁ : m₁ = markPages pf (v.toNat / 4096 - basePage pf) true 1 m := by
    rw [← setVaddr_one]
    exact hset.symm
  subst hm₁
  have hprocs := markPages_procs pf (v.toNat / 4096 - basePage pf) true 1 m
  obtain ⟨f, rfl, inv₂, hf, -, hmem₂, hsame₂, htaken₂⟩ :=
    palloc_inv (markPages_inv inv pf (v.toNat / 4096 - basePage pf) 1) hpalloc
  have hft := (htaken₂ pf f).mpr (Or.inr ⟨rfl, rfl⟩)
  simp only [bind_ok, pure_ok] at h
  obtain ⟨_, m₃, hadd, rfl, rfl⟩ := h
  rw [hone]
  cases pf with
  | kernel =>
    have hk := hkernel rfl
    obtain ⟨inv₃, hsame₃, -, hnone, -⟩ := pageTableAdd_kernel inv₂ hlo
      (by rw [hsame₂.kernelVaddr, hprocs.kernelLen]; omega) (by
      rw [hsame₂.kernelVaddr]
      simp only [markPages, setVaddr, vaddrOf, scanTest_setBits, basePage]
      rw [if_pos (by omega)]) hf hft hadd
    refine ⟨rfl, inv₃, (hprocs.trans hsame₂.procs).trans hsame₃.procs, ?_⟩
    intro t w hw heq
    rw [hmem₂, markPages_mem] at hnone
    rw [pageOf, Use.kpage.injEq] at heq
    exact not_dirPage inv hnone hw heq.symm
  | user =>
    obtain ⟨w, hw⟩ := Option.isSome_iff_exists.mp (htask.mpr rfl)
    have hcur : m₂.cur = m.cur := hsame₂.cur.trans hprocs.cur
    obtain ⟨d, hd, -⟩ := inv₂.dir_some (t := m₂.cur) (v := w) (by rw [hsame₂.pgdir, hprocs.pgdir, hcur]; exact hw)
    obtain ⟨inv₃, hsame₃, -⟩ := pageTableAdd_user inv₂ hd (huser rfl) hlo (by
      rw [hsame₂.userVaddr, hcur]
      simp only [markPages, setVaddr, vaddrOf, Function.update_self, scanTest_setBits, basePage]
      rw [if_pos (by omega)]) hf hft hadd
    rw [hcur] at inv₃
    exact ⟨rfl, inv₃, (hprocs.trans hsame₂.procs).trans hsame₃.procs, fun t w _ => by simp [pageOf]⟩

theorem access_dirSlot (hw : WindowCached m) (hs : KernelSpace m.mem m.cr3) {i : ℕ} (hi : i < 1024) :
    access m (0xfffff000#32 + BitVec.ofNat 32 (4 * i)) = some (slot m.cr3 i) := by
  have hidx : (BitVec.ofNat 32 (i * 2 ^ 22)).toNat = i * 2 ^ 22 := by
    rw [BitVec.toNat_ofNat]
    omega
  have hptr : 0xfffff000#32 + BitVec.ofNat 32 (4 * i) = pdePtr (BitVec.ofNat 32 (i * 2 ^ 22)) := by
    apply BitVec.eq_of_toNat_eq
    rw [toNat_pdePtr, hidx, BitVec.toNat_add, BitVec.toNat_ofNat, BitVec.toNat_ofNat]
    omega
  rw [hptr, access_pde hw hs, hidx, show i * 2 ^ 22 / 4096 / 1024 = i by omega]

theorem access_word (inv : FrameInv stray slack H m) {v f : Word} (hc : Current m .kernel (v.toNat / 4096)) (hv : v.toNat % 4096 = 0)
    (hH : H (.kpage (v.toNat / 4096))) (hf : useFrame m (.kpage (v.toNat / 4096)) = some f) {i : ℕ} (hi : i < 1024) :
    access m (v + BitVec.ofNat 32 (4 * i)) = some (slot f i) := by
  have hlt := v.isLt
  have hr := inv.heap_range hH
  have hnat : (v + BitVec.ofNat 32 (4 * i)).toNat = v.toNat + 4 * i := by
    rw [BitVec.toNat_add, BitVec.toNat_ofNat]
    omega
  have hpage : (v + BitVec.ofNat 32 (4 * i)).toNat / 4096 = v.toNat / 4096 := by omega
  have hoff : (v + BitVec.ofNat 32 (4 * i)) &&& 0xfff#32 = BitVec.ofNat 32 (4 * i) := by
    apply BitVec.eq_of_toNat_eq
    rw [toNat_offset, hnat, BitVec.toNat_ofNat]
    omega
  have hH' : H (pageOf .kernel m.cur ((v + BitVec.ofNat 32 (4 * i)).toNat / 4096)) := by
    rw [hpage]
    exact hH
  rw [access_use inv (by rw [hpage]; exact hc) hH' (by rw [hpage]; exact hf), hoff, slot]

theorem update_outside {mem : PhysMem} {f w : Word} {i : ℕ} (hf : Aligned f) (hi : i < 1024) (a : Word)
    (ha : frame a ≠ f) : Function.update mem (slot f i) w a = mem a := by
  apply Function.update_of_ne
  rintro rfl
  exact ha (frame_slot hf hi)

theorem cr3_ne (inv : FrameInv stray slack H m) {u : Use} {f : Word} (hH : H u) (hf : useFrame m u = some f)
    (hdir : ∀ t w, m.pgdir t = some w → u ≠ .kpage (w.toNat / 4096)) : m.cr3 ≠ f := by
  have hlive := (inv.page u hH).1
  rintro rfl
  rw [inv.active] at hf
  cases hd : dirOf m m.cur with
  | none =>
    rw [hd] at hf
    exact taken_ne_kernelDir inv.shape (inv.taken u _ hlive hf) rfl
  | some d =>
    rw [hd] at hf
    obtain ⟨w, hw, hlive', hwd⟩ := inv.dir_use hd
    exact hdir m.cur w hw (inv.inj u _ d hlive hlive' hf hwd)

/-- A page that is being filled: handed out, mapped to `f`, and no directory yet. -/
structure Filling (stray : ℕ → Prop) (slack : ℕ) (H : Use → Prop) (v f : Word) (m : Machine) : Prop where
  inv : FrameInv stray slack H m
  start : v.toNat % 4096 = 0
  page : H (.kpage (v.toNat / 4096))
  frame : useFrame m (.kpage (v.toNat / 4096)) = some f
  dir : ∀ t w, m.pgdir t = some w → Use.kpage (v.toNat / 4096) ≠ .kpage (w.toNat / 4096)
  cached : Current m .kernel (v.toNat / 4096)

theorem Filling.aligned {v f : Word} (hf : Filling stray slack H v f m) : Aligned f :=
  entryFrame_aligned hf.frame

theorem Filling.store {v f w : Word} {i : ℕ} (hf : Filling stray slack H v f m) (hi : i < 1024) {x : Unit}
    (h : store (v + BitVec.ofNat 32 (4 * i)) w m = .ok (x, m')) :
    Filling stray slack H v f m' ∧ SameTasks m m' ∧ m'.mem = Function.update m.mem (slot f i) w := by
  rw [store_eq (access_word hf.inv hf.cached hf.start hf.page hf.frame hi)] at h
  simp only [Except.ok.injEq, Prod.mk.injEq, true_and] at h
  subst h
  obtain ⟨hinv, hkeep⟩ := hf.inv.fill hf.page hf.frame hf.dir (update_outside (w := w) hf.aligned hi)
  have hsame := hkeep _ (hf.inv.valid (hf.inv.page _ hf.page).1)
  refine ⟨⟨hinv, hf.start, hf.page, hsame.trans hf.frame, hf.dir, ?_⟩, ⟨rfl, rfl, rfl, rfl, rfl, rfl, fun _ => rfl⟩, rfl⟩
  exact fun g hg => hsame.trans (hf.cached g hg)

theorem copyEntries_inv (more : ℕ) {v f : Word} {i : ℕ} {m m' : Machine} (hf : Filling stray slack H v f m)
    (hi : i + more ≤ 1024) {x : Unit} (h : copyEntries v more i m = .ok (x, m')) :
    Filling stray slack H v f m' ∧ SameTasks m m' ∧
      ∀ k, k < 1024 → entry m'.mem f k = if i ≤ k ∧ k < i + more then entry m.mem m.cr3 k else entry m.mem f k := by
  induction more generalizing i m with
  | zero =>
    simp only [copyEntries, pure_ok, true_and] at h
    subst h
    refine ⟨hf, ⟨rfl, rfl, rfl, rfl, rfl, rfl, fun _ => rfl⟩, ?_⟩
    intro k hk
    rw [if_neg (by omega)]
  | succ more ih =>
    have hcr3 := cr3_ne hf.inv hf.page hf.frame hf.dir
    have hspace := hf.inv.cr3_space
    simp only [copyEntries] at h
    rw [bind_eq (load_eq (access_dirSlot hf.inv.window hspace (by omega)))] at h
    simp only [bind_ok] at h
    obtain ⟨_, m₁, hstore, h⟩ := h
    obtain ⟨hf₁, hsame₁, hmem₁⟩ := hf.store (by omega) hstore
    obtain ⟨hf', hsame', hentry⟩ := ih hf₁ (by omega) h
    refine ⟨hf', hsame₁.trans hsame', ?_⟩
    intro k hk
    -- the running directory is another frame, so its entries stay as they are
    have hdir : entry m₁.mem m₁.cr3 k = entry m.mem m.cr3 k := by
      rw [hmem₁, hsame₁.cr3, entry_update hf.aligned hspace.aligned (by omega) hk, if_neg (fun h => hcr3 h.1)]
    rw [hentry k hk, hdir, hmem₁, entry_update hf.aligned hf.aligned (by omega) hk]
    by_cases hki : k = i
    · subst hki
      rw [if_neg (by omega), if_pos ⟨rfl, rfl⟩, if_pos (by omega)]
      rfl
    · by_cases hin : i + 1 ≤ k ∧ k < i + 1 + more
      · rw [if_pos hin, if_pos (by omega)]
      · rw [if_neg hin, if_neg (fun h : f = f ∧ k = i => hki h.2), if_neg (by omega)]

theorem createPageDir_inv (inv : FrameInv stray slack H m) (hreach : Reaches slack 1 m.kernelVaddr.vaddrBitmap)
    (hcached : Unstale m .kernel m.kernelVaddr.vaddrBitmap 0 1) {r : Option Word}
    (h : createPageDir m = .ok (r, m')) :
    ∃ v f i, r = some v ∧ kernelFrame m.mem (v.toNat / 4096) = none ∧
      Filling stray slack (grant H .kpage (v.toNat / 4096) 1) v f m' ∧ SameTasks (markPages .kernel i true 1 m) m' ∧ KernelSpace m'.mem f ∧ ∀ k, k < 768 → entryFrame m'.mem f k = none := by
  simp only [createPageDir, bind_ok] at h
  obtain ⟨r₁, m₁, hget, h⟩ := h
  rcases getKernelPages_inv inv hreach hcached hget with ⟨-, -, hone⟩ | ⟨v, i, rfl, hv, -, -, inv₁, hsame₁, hnone, hzero, hcur, -⟩
  · exact absurd rfl hone
  · simp only [bind_ok] at h
    obtain ⟨_, m₂, hcopy, phys, m₃, hphys, _, m₄, hstore, h⟩ := h
    simp only [pure_ok] at h
    obtain ⟨rfl, rfl⟩ := h
    have hH : grant H .kpage (v.toNat / 4096) 1 (.kpage (v.toNat / 4096)) := Or.inr ⟨0, by omega, rfl⟩
    obtain ⟨f, hf⟩ := inv₁.mapped _ hH
    have hfill₁ : Filling stray slack (grant H .kpage (v.toNat / 4096) 1) v f m₁ := by
      refine ⟨inv₁, hv, hH, hf, ?_, hcur 0 (by omega)⟩
      intro t w hw heq
      rw [hsame₁.pgdir] at hw
      rw [Use.kpage.injEq] at heq
      exact not_dirPage inv (hnone 0 (by omega)) hw (by omega)
    have hspace := inv₁.cr3_space
    obtain ⟨hfill₂, hsame₂, hentry⟩ := copyEntries_inv 256 hfill₁ (by omega) hcopy
    have hH₂ : grant H .kpage (v.toNat / 4096) 1 (pageOf .kernel m₂.cur (v.toNat / 4096)) := hfill₂.page
    rw [addrToPhys_use hfill₂.inv hv hH₂ hfill₂.frame] at hphys
    simp only [Except.ok.injEq, Prod.mk.injEq] at hphys
    obtain ⟨rfl, rfl⟩ := hphys
    obtain ⟨hfill', hsame', hmem'⟩ := hfill₂.store (by omega) hstore
    have hframe : ∀ k, k < 1024 → entryFrame m₄.mem f k =
        if k = 1023 then some f else if 768 ≤ k then entryFrame m₁.mem m₁.cr3 k else none := by
      intro k hk
      have hr : Rewrites m₂.mem m₄.mem f 1023 (some f) := by
        rw [hmem']
        exact rewrites_map hfill₂.aligned (by omega) hfill₂.aligned
      rw [hr f k hfill₂.aligned hk]
      by_cases hlast : k = 1023
      · rw [if_pos ⟨rfl, hlast⟩, if_pos hlast]
      · rw [if_neg (fun h => hlast h.2), if_neg hlast]
        by_cases hlow : 768 ≤ k
        · have hcopied : entry m₂.mem f k = entry m₁.mem m₁.cr3 k := by rw [hentry k hk, if_pos (by omega)]
          rw [if_pos hlow, entryFrame, entryFrame, hcopied]
        · have hkept : entry m₂.mem f k = entry m₁.mem f k := by rw [hentry k hk, if_neg (by omega)]
          rw [if_neg hlow, entryFrame_none, hkept, entry, hzero 0 f (by omega) hf _ (frame_slot hfill₂.aligned hk)]
          exact present_zero
    refine ⟨v, f, i, rfl, hnone 0 (by omega), hfill', (hsame₁.trans hsame₂).trans hsame', ⟨hfill'.aligned, ?_, ?_⟩, ?_⟩
    · intro k hk hk'
      rw [hframe k (by omega), if_neg (by omega), if_pos hk]
      exact hspace.kernel k hk hk'
    · rw [hframe 1023 (by omega), if_pos rfl]
    · intro k hk
      rw [hframe k (by omega), if_neg (by omega), if_neg (by omega)]

theorem setBitmap_inv (inv : FrameInv stray slack H m) {t : ℕ} (ht : m.pgdir t = none) (va : VirtualAddr) :
    FrameInv stray slack H { m with userVaddr := Function.update m.userVaddr t va } := by
  have hs := inv.shape
  have htask : ∀ t' v, m.pgdir t' = some v → Function.update m.userVaddr t va t' = m.userVaddr t' := by
    intro t' v hv
    apply Function.update_of_ne
    rintro rfl
    rw [ht] at hv
    cases hv
  have hshape : Shape { m with userVaddr := Function.update m.userVaddr t va } := by
    refine ⟨hs.kernelStart, hs.kernelEnd, hs.userStart, hs.userEnd, hs.heapStart, hs.heapEnd, ?_⟩
    intro t' v hv
    have h := hs.task t' v hv
    rw [← htask t' v hv] at h
    exact h
  have hnew : ∀ t' n f, n < 0xc0000 → useFrame m (.upage t' n) = some f →
      (Function.update m.userVaddr t va t').vaddrBitmap.scanTest (n - 0x8048) = true := by
    intro t' n f hn hf
    obtain ⟨p, hp, -⟩ := useFrame_upage.mp hf
    obtain ⟨d, hd, -⟩ := useFrame_table.mp hp
    obtain ⟨v, hv, -⟩ := dirOf_some.mp hd
    rw [htask t' v hv]
    exact (inv.user t' n f hn hf).2
  have hmem : { m with userVaddr := Function.update m.userVaddr t va }.mem = m.mem := rfl
  exact inv.remark hmem rfl rfl rfl rfl hshape rfl (fun u f hu hf => inv.taken u f hu hf) (fun n hn => (inv.heap n hn).2.2) hnew

theorem addDir_inv {v f : Word} (hf : Filling stray slack H v f m) (hs : KernelSpace m.mem f)
    (hempty : ∀ k, k < 768 → entryFrame m.mem f k = none) {t : ℕ} (ht : m.pgdir t = none) (hcur : t ≠ m.cur)
    (hva : (m.userVaddr t).vaddrStart = userVaddrStart ∧ (m.userVaddr t).vaddrBitmap.btmpBytesLen = 94199) :
    FrameInv stray slack H { m with pgdir := Function.update m.pgdir t (some v) } := by
  have inv := hf.inv
  have hsh := inv.shape
  have hpg : ∀ t' w, Function.update m.pgdir t (some v) t' = some w → (t' = t ∧ w = v) ∨ (t' ≠ t ∧ m.pgdir t' = some w) := by
    intro t' w hw
    by_cases h : t' = t
    · subst h
      rw [Function.update_self, Option.some.injEq] at hw
      exact Or.inl ⟨rfl, hw.symm⟩
    · rw [Function.update_of_ne h] at hw
      exact Or.inr ⟨h, hw⟩
  have hnew : dirOf { m with pgdir := Function.update m.pgdir t (some v) } t = some f :=
    dirOf_some.mpr ⟨v, by simp, hf.frame⟩
  have hold : ∀ t', t' ≠ t → dirOf { m with pgdir := Function.update m.pgdir t (some v) } t' = dirOf m t' := by
    intro t' h
    simp only [dirOf, Function.update_of_ne h]
  -- below the kernel's half the new directory is empty, so no use is added
  have huse : ∀ u g, u.Valid → useFrame { m with pgdir := Function.update m.pgdir t (some v) } u = some g →
      useFrame m u = some g := by
    intro u g hu hg
    cases u with
    | kpage n => exact hg
    | table t' i =>
      by_cases h : t' = t
      · subst h
        simp only [useFrame, hnew, Option.bind_some, hempty i hu] at hg
        cases hg
      · simpa only [useFrame, hold t' h] using hg
    | upage t' n =>
      by_cases h : t' = t
      · subst h
        have hn : n < 0xc0000 := hu
        simp only [useFrame, hnew, Option.bind_some, hempty (n / 1024) (by omega), Option.bind_none] at hg
        cases hg
      · simpa only [useFrame, hold t' h] using hg
  refine ⟨⟨hsh.kernelStart, hsh.kernelEnd, hsh.userStart, hsh.userEnd, hsh.heapStart, hsh.heapEnd, ?_⟩, inv.near, inv.root,
    inv.low, inv.identity, ?_, ?_, ?_, ?_, ?_, inv.page, inv.heap, inv.strays, ?_, ?_, ?_, inv.window⟩
  · intro t' w hw
    rcases hpg t' w hw with ⟨rfl, -⟩ | ⟨-, hw⟩
    · exact hva
    · exact hsh.task t' w hw
  · intro t' w hw
    rcases hpg t' w hw with ⟨-, rfl⟩ | ⟨-, hw⟩
    · exact ⟨hf.start, hf.page⟩
    · exact inv.dirPage t' w hw
  · intro t' d hd
    by_cases h : t' = t
    · subst h
      rw [hnew, Option.some.injEq] at hd
      subst hd
      exact hs
    · rw [hold t' h] at hd
      exact inv.dirSpace t' d hd
  · intro t₁ t₂ v₁ v₂ h₁ h₂ heq
    rcases hpg t₁ v₁ h₁ with ⟨ht₁, hv₁⟩ | ⟨-, hold₁⟩
    · rcases hpg t₂ v₂ h₂ with ⟨ht₂, -⟩ | ⟨-, hold₂⟩
      · rw [ht₁, ht₂]
      · rw [hv₁] at heq
        exact absurd (by rw [heq]) (hf.dir t₂ v₂ hold₂)
    · rcases hpg t₂ v₂ h₂ with ⟨-, hv₂⟩ | ⟨-, hold₂⟩
      · rw [hv₂] at heq
        exact absurd (by rw [heq]) (hf.dir t₁ v₁ hold₁)
      · exact inv.dirOwn t₁ t₂ v₁ v₂ hold₁ hold₂ heq
  · rw [hold m.cur hcur.symm]
    exact inv.active
  · intro u hu
    obtain ⟨g, hg⟩ := inv.mapped u hu
    refine ⟨g, ?_⟩
    cases u with
    | kpage n => exact hg
    | table t' i => exact absurd rfl ((inv.page _ hu).2 t' i)
    | upage t' n =>
      have h : t' ≠ t := by
        rintro rfl
        simp [useFrame, dirOf, ht] at hg
      simpa only [useFrame, hold t' h] using hg
  · intro u u' g hu hu' hg hg'
    exact inv.inj u u' g hu hu' (huse u g (inv.valid hu) hg) (huse u' g (inv.valid hu') hg')
  · intro u g hu hg
    exact inv.taken u g hu (huse u g (inv.valid hu) hg)
  · intro t' n g hn hg
    exact inv.user t' n g hn (huse (.upage t' n) g hn hg)

theorem pageDirActivate_inv (inv : FrameInv stray slack H m) {t : ℕ} {x : Unit} (h : pageDirActivate t m = .ok (x, m')) :
    FrameInv stray slack H m' ∧ m'.mem = m.mem ∧ m'.pgdir = m.pgdir ∧ m'.userVaddr = m.userVaddr := by
  have hs := inv.shape
  have hbuild : ∀ c, c = (dirOf m t).getD kernelDir → FrameInv stray slack H { m with cur := t, cr3 := c, tlb := fun _ => none } := by
    intro c hc
    exact ⟨⟨hs.kernelStart, hs.kernelEnd, hs.userStart, hs.userEnd, hs.heapStart, hs.heapEnd, hs.task⟩, inv.near, inv.root,
      inv.low, inv.identity, inv.dirPage, inv.dirSpace, inv.dirOwn, hc, inv.mapped, inv.page, inv.heap, inv.strays, inv.inj, inv.taken,
      inv.user, nofun⟩
  simp only [pageDirActivate, bind_ok, get_ok] at h
  obtain ⟨_, _, ⟨rfl, rfl⟩, h⟩ := h
  cases hv : m.pgdir t with
  | none =>
    simp only [hv, modify_ok] at h
    subst h
    refine ⟨hbuild _ ?_, rfl, rfl, rfl⟩
    simp [dirOf, hv]
  | some v =>
    obtain ⟨d, hd, hH, hf⟩ := inv.dir_some hv
    have hH' : H (pageOf .kernel m.cur (v.toNat / 4096)) := hH
    simp only [hv] at h
    rw [bind_eq (addrToPhys_use inv (inv.dirPage t v hv).1 hH' hf)] at h
    simp only [modify_ok] at h
    subst h
    refine ⟨hbuild _ ?_, rfl, rfl, rfl⟩
    rw [hd]
    rfl

theorem SameTasks.kernelMarked {i cnt : ℕ} {value : Bool} (h : SameTasks (markPages .kernel i value cnt m) m') :
    m'.pgdir = m.pgdir ∧ m'.cur = m.cur ∧ m'.userVaddr = m.userVaddr ∧ m'.tlb = m.tlb ∧
      m'.kernelVaddr.vaddrBitmap = setBits m.kernelVaddr.vaddrBitmap i value cnt :=
  ⟨h.pgdir, h.cur, h.userVaddr, h.tlb, congrArg VirtualAddr.vaddrBitmap h.kernelVaddr⟩

theorem reaches_one (slack : ℕ) (b : Bitmap) : Reaches slack 1 b := by
  intro _ i hi
  obtain ⟨-, -, hlt, -⟩ := b.scan_some (by omega) hi
  have := hlt rfl
  omega

/-- The page of the PCB, the pages of the bitmap and the page of the directory that `process_execute` takes. -/
def TaskUnstale (m : Machine) (b : Bitmap) : Prop :=
  Unstale m .kernel b 0 1 ∧ ∀ i, b.scan 1 = .ok (some i) → Unstale m .kernel (setBits b i true 1) 1 23 ∧
    ∀ j, (setBits b i true 1).scan 23 = .ok (some j) → Unstale m .kernel (setBits (setBits b i true 1) j true 23) 24 1

theorem Unstale.after {b b' : Bitmap} {k cnt : ℕ} (hc : Unstale m .kernel b k cnt) (htlb : m'.tlb = m.tlb) (hb : b' = b)
    (hfresh : freshFrames .kernel m' = (freshFrames .kernel m).drop k) : Unstale m' .kernel b' 0 cnt := by
  subst hb
  intro i hscan j hj f hf
  rw [htlb] at hf
  rw [hfresh, List.getElem?_drop, Nat.zero_add]
  exact hc i hscan j hj f hf

theorem newTask_inv (inv : FrameInv stray slack H m) {t : ℕ} (ht : m.pgdir t = none)
    (hreach : ∀ i, m.kernelVaddr.vaddrBitmap.scan 1 = .ok (some i) →
      Reaches slack 23 (setBits m.kernelVaddr.vaddrBitmap i true 1))
    (hcached : TaskUnstale m m.kernelVaddr.vaddrBitmap)
    {r : Option Word} {m₁ m₂ : Machine} {x : Unit} (hpcb : getKernelPages 1 m = .ok (r, m₁))
    (hmap : createUserVaddrBitmap t m₁ = .ok (x, m₂)) :
    ∃ H₂, FrameInv stray slack H₂ m₂ ∧ (∀ u, H u → H₂ u) ∧ m₂.pgdir = m.pgdir ∧ m₂.cur = m.cur ∧
      Unstale m₂ .kernel m₂.kernelVaddr.vaddrBitmap 0 1 ∧
      m₂.userVaddr = Function.update m.userVaddr t ⟨⟨94199, ByteMemory.zeros⟩, userVaddrStart⟩ := by
  rcases getKernelPages_inv inv (reaches_one _ _) hcached.1 hpcb with ⟨-, -, hone⟩ | ⟨v₁, i, rfl, -, -, hscan, inv₁, hsame₁, -, -, -, hfresh₁⟩
  · exact absurd rfl hone
  obtain ⟨hpg₁, hcur₁, huser₁, htlb₁, hbits₁⟩ := hsame₁.kernelMarked
  obtain ⟨hmap₁, hdir₁⟩ := hcached.2 i hscan
  have hlen : (0xc0000000 - userVaddrStart) / 4096 / 8 = 94199 := by decide
  simp only [createUserVaddrBitmap, hlen, bind_ok] at hmap
  obtain ⟨r₂, m₂', hpages, hmap⟩ := hmap
  have hreach₁ : Reaches slack ((94199 + 4095) / 4096) m₁.kernelVaddr.vaddrBitmap := by
    rw [hbits₁]
    exact hreach i hscan
  have hcached₁ : Unstale m₁ .kernel m₁.kernelVaddr.vaddrBitmap 0 ((94199 + 4095) / 4096) := hmap₁.after htlb₁ hbits₁ hfresh₁
  rcases getKernelPages_inv inv₁ hreach₁ hcached₁ hpages with ⟨rfl, rfl, -⟩ | ⟨v₂, i₂, rfl, -, -, hscan₂, inv₂, hsame₂, -, -, -, hfresh₂⟩
  · simp only [halt_ok] at hmap
  obtain ⟨hpg₂, hcur₂, huser₂, htlb₂, hbits₂⟩ := hsame₂.kernelMarked
  simp only [modify_ok] at hmap
  have ht₁ : m₂'.pgdir t = none := by
    rw [hpg₂, hpg₁]
    exact ht
  have inv₃ := setBitmap_inv inv₂ ht₁ ⟨⟨94199, ByteMemory.zeros⟩, userVaddrStart⟩
  rw [hmap] at inv₃
  refine ⟨_, inv₃, fun u hu => Or.inl (Or.inl hu), ?_, ?_, ?_, ?_⟩
  · rw [← hmap, ← hpg₁, ← hpg₂]
  · rw [← hmap, ← hcur₁, ← hcur₂]
  · rw [hbits₁] at hscan₂ hbits₂
    rw [← hmap]
    refine (hdir₁ i₂ hscan₂).after (htlb₂.trans htlb₁) hbits₂ ?_
    rw [hfresh₁, List.drop_drop] at hfresh₂
    exact hfresh₂
  · rw [← hmap, ← huser₁, ← huser₂]

theorem processExecute_inv (inv : FrameInv stray slack H m) {t : ℕ} (ht : m.pgdir t = none) (hcur : t ≠ m.cur)
    (hreach : ∀ i, m.kernelVaddr.vaddrBitmap.scan 1 = .ok (some i) →
      Reaches slack 23 (setBits m.kernelVaddr.vaddrBitmap i true 1))
    (hcached : TaskUnstale m m.kernelVaddr.vaddrBitmap)
    {x : Unit} (h : processExecute t m = .ok (x, m')) :
    ∃ H' v, FrameInv stray slack H' m' ∧ (∀ u, H u → H' u ∧ u ≠ .kpage (v.toNat / 4096)) ∧
      m'.pgdir = Function.update m.pgdir t (some v) ∧ m'.cur = m.cur ∧
      ∀ t', t' ≠ t → m'.userVaddr t' = m.userVaddr t' := by
  simp only [processExecute, bind_ok] at h
  obtain ⟨r₁, m₁, hpcb, h⟩ := h
  cases r₁ with
  | none => simp only [halt_ok] at h
  | some v₁ =>
    simp only [bind_ok] at h
    obtain ⟨_, m₂, hmap, r₃, m₃, hdir, h⟩ := h
    obtain ⟨H₂, inv₂, hH₂, hpg₂, hcur₂, hcached₂, huser₂⟩ := newTask_inv inv ht hreach hcached hpcb hmap
    obtain ⟨v, f, k, rfl, hnone, hfill, hsame₃, hspace, hempty⟩ := createPageDir_inv inv₂ (reaches_one _ _) hcached₂ hdir
    obtain ⟨hpg₃, hcur₃, huser₃, -⟩ := hsame₃.kernelMarked
    rw [hpg₂] at hpg₃
    rw [hcur₂] at hcur₃
    rw [huser₂] at huser₃
    have inv' := addDir_inv hfill hspace hempty (t := t) (by rw [hpg₃]; exact ht) (by rw [hcur₃]; exact hcur) (by
      rw [huser₃, Function.update_self]
      exact ⟨rfl, rfl⟩)
    simp only [modify_ok] at h
    rw [h] at inv'
    refine ⟨_, v, inv', ?_, ?_, ?_, ?_⟩
    · intro u hu
      refine ⟨Or.inl (hH₂ u hu), ?_⟩
      rintro rfl
      obtain ⟨g, hg⟩ := inv₂.mapped _ (hH₂ _ hu)
      rw [useFrame, hnone] at hg
      cases hg
    · rw [← h, hpg₃]
    · rw [← h]
      exact hcur₃
    · intro t' hne
      rw [← h]
      exact (congrFun huser₃ t').trans (Function.update_of_ne hne _ _)

theorem copyEntries_runs (more : ℕ) {v f : Word} {i : ℕ} {m : Machine} (hf : Filling stray slack H v f m)
    (hi : i + more ≤ 1024) : ∃ m', copyEntries v more i m = .ok ((), m') := by
  induction more generalizing i m with
  | zero => exact ⟨m, rfl⟩
  | succ more ih =>
    have hstore := store_eq (w := m.mem (slot m.cr3 i))
      (access_word hf.inv hf.cached hf.start hf.page hf.frame (by omega : i < 1024))
    obtain ⟨hf₁, -, -⟩ := hf.store (by omega) hstore
    obtain ⟨m', hm'⟩ := ih hf₁ (i := i + 1) (by omega)
    refine ⟨m', ?_⟩
    rw [copyEntries, bind_eq (load_eq (access_dirSlot hf.inv.window hf.inv.cr3_space (by omega))), bind_eq hstore]
    exact hm'

theorem createPageDir_runs (inv : FrameInv stray slack H m) (hcached : Unstale m .kernel m.kernelVaddr.vaddrBitmap 0 1)
    {r : Option Word} {m₁ : Machine} (h : getKernelPages 1 m = .ok (r, m₁)) : ∃ v m', createPageDir m = .ok (some v, m') := by
  rcases getKernelPages_inv inv (reaches_one _ _) hcached h with ⟨-, -, hone⟩ | ⟨v, i, rfl, hv, -, -, inv₁, hsame₁, hnone, -, hcur, -⟩
  · exact absurd rfl hone
  have hH : grant H .kpage (v.toNat / 4096) 1 (.kpage (v.toNat / 4096)) := Or.inr ⟨0, by omega, rfl⟩
  obtain ⟨f, hf⟩ := inv₁.mapped _ hH
  have hfill₁ : Filling stray slack (grant H .kpage (v.toNat / 4096) 1) v f m₁ := by
    refine ⟨inv₁, hv, hH, hf, ?_, hcur 0 (by omega)⟩
    intro t w hw heq
    rw [hsame₁.pgdir] at hw
    rw [Use.kpage.injEq] at heq
    exact not_dirPage inv (hnone 0 (by omega)) hw (by omega)
  obtain ⟨m₂, hcopy⟩ := copyEntries_runs 256 (i := 768) hfill₁ (by omega)
  obtain ⟨hfill₂, -, -⟩ := copyEntries_inv 256 hfill₁ (by omega) hcopy
  have hH₂ : grant H .kpage (v.toNat / 4096) 1 (pageOf .kernel m₂.cur (v.toNat / 4096)) := hfill₂.page
  obtain ⟨m₃, hstore⟩ : ∃ m₃, store (v + BitVec.ofNat 32 (4 * 1023)) (f ||| 7#32) m₂ = .ok ((), m₃) :=
    ⟨_, store_eq (access_word hfill₂.inv hfill₂.cached hv hfill₂.page hfill₂.frame (by omega))⟩
  refine ⟨v, m₃, ?_⟩
  rw [createPageDir, bind_eq h]
  simp only
  rw [bind_eq hcopy, bind_eq (addrToPhys_use hfill₂.inv hv hH₂ hfill₂.frame), bind_eq hstore]
  rfl

end

end ElephantOS.Paging
