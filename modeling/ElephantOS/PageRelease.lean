import ElephantOS.PageMapping

/-! The other half of `kernel/memory.c`: clearing pages and giving them back. -/

namespace ElephantOS.Paging

open HaltingState

/-- Page `n` as the running task `t` names it in a request for `pf`. -/
def pageOf (pf : Pool) (t n : ℕ) : Use :=
  match pf with
  | .kernel => .kpage n
  | .user => .upage t n

theorem pageOf_pool (pf : Pool) (t n : ℕ) : (pageOf pf t n).pool = pf := by
  cases pf with
  | kernel => rfl
  | user => rfl

theorem pageOf_inj {pf : Pool} {t n k : ℕ} (h : pageOf pf t n = pageOf pf t k) : n = k := by
  cases pf with
  | kernel => simpa [pageOf] using h
  | user => simpa [pageOf] using h

def basePage (pf : Pool) : ℕ :=
  match pf with
  | .kernel => 0xc0100
  | .user => 0x8048

/-- What is cached for page `n` of the running task is its frame. -/
def Current (m : Machine) (pf : Pool) (n : ℕ) : Prop := ∀ f, m.tlb n = some f → useFrame m (pageOf pf m.cur n) = some f

/-- Of the pages that a request for `cnt` finds in the bitmap `b` none is still cached with another frame than it is going to get;
`k` frames of the pool go elsewhere before. -/
def Unstale (m : Machine) (pf : Pool) (b : Bitmap) (k cnt : ℕ) : Prop :=
  ∀ i, b.scan cnt = .ok (some i) → ∀ j < cnt, ∀ f, m.tlb (basePage pf + i + j) = some f → (freshFrames pf m)[k + j]? = some f

def unstaleTest (m : Machine) (pf : Pool) (b : Bitmap) (k cnt : ℕ) : Bool :=
  match b.scan cnt with
  | .ok (some i) => (List.range cnt).all fun j =>
    match m.tlb (basePage pf + i + j) with
    | none => true
    | some f => (freshFrames pf m)[k + j]? = some f
  | _ => true

theorem unstaleTest_iff (m : Machine) (pf : Pool) (b : Bitmap) (k cnt : ℕ) : unstaleTest m pf b k cnt = true ↔ Unstale m pf b k cnt := by
  unfold unstaleTest Unstale
  cases b.scan cnt with
  | error e => simp
  | ok r =>
    cases r with
    | none => simp
    | some i =>
      simp only [List.all_eq_true, List.mem_range, Except.ok.injEq, Option.some.injEq, forall_eq']
      apply forall₂_congr
      intro j _
      cases m.tlb (basePage pf + i + j) with
      | none => simp
      | some f => simp

instance (m : Machine) (pf : Pool) (b : Bitmap) (k cnt : ℕ) : Decidable (Unstale m pf b k cnt) :=
  decidable_of_iff _ (unstaleTest_iff m pf b k cnt)

section

variable {stray : ℕ → Prop} {slack : ℕ} {H : Use → Prop} {m m' : Machine}

def tableOf (m : Machine) (pf : Pool) (n : ℕ) (p : Word) : Prop :=
  match pf with
  | .kernel => p = kernelTable (n / 1024)
  | .user => useFrame m (.table m.cur (n / 1024)) = some p

theorem page_table (inv : FrameInv stray slack H m) {pf : Pool} {n : ℕ} {f : Word} (hH : H (pageOf pf m.cur n))
    (hf : useFrame m (pageOf pf m.cur n) = some f) :
    ∃ p, entryFrame m.mem m.cr3 (n / 1024) = some p ∧ entryFrame m.mem p (n % 1024) = some f ∧ Aligned p ∧
      tableOf m pf n p := by
  cases pf with
  | kernel =>
    have hr := inv.heap_range hH
    exact ⟨_, inv.cr3_space.kernel _ (by omega) (by omega), hf, aligned_kernelTable _, rfl⟩
  | user =>
    have hn : n < 0xc0000 := (inv.page _ hH).1
    obtain ⟨p, hp, hpf⟩ := useFrame_upage.mp hf
    obtain ⟨d, hd, hdp⟩ := useFrame_table.mp hp
    refine ⟨p, ?_, hpf, taken_aligned inv.shape (inv.table_taken (by omega) hp), hp⟩
    rw [cr3_eq inv hd]
    exact hdp

theorem frame_add_offset {f : Word} (hf : Aligned f) (v : Word) : frame (f + (v &&& 0xfff#32)) = f := by
  have hmod := (aligned_iff f).mp hf
  have hlt := f.isLt
  apply BitVec.eq_of_toNat_eq
  rw [toNat_frame, BitVec.toNat_add, toNat_offset]
  omega

theorem walk_use (inv : FrameInv stray slack H m) {pf : Pool} {v f : Word} (hH : H (pageOf pf m.cur (v.toNat / 4096)))
    (hf : useFrame m (pageOf pf m.cur (v.toNat / 4096)) = some f) :
    walk m.mem m.cr3 v = some (f + (v &&& 0xfff#32)) := by
  obtain ⟨p, hp, hpf, -⟩ := page_table inv hH hf
  exact walk_page inv.cr3_space.aligned hp hpf

theorem access_use (inv : FrameInv stray slack H m) {pf : Pool} {v f : Word} (hc : Current m pf (v.toNat / 4096))
    (hH : H (pageOf pf m.cur (v.toNat / 4096))) (hf : useFrame m (pageOf pf m.cur (v.toNat / 4096)) = some f) :
    access m v = some (f + (v &&& 0xfff#32)) := by
  apply access_eq (walk_use inv hH hf)
  intro g hg
  have hsame := hc g hg
  rw [hf, Option.some.injEq] at hsame
  rw [hsame]

theorem Unstale.current {pf : Pool} {b : Bitmap} {cnt i j n : ℕ} (hc : Unstale m pf b 0 cnt) (hscan : b.scan cnt = .ok (some i))
    (hj : j < cnt) (hn : n = basePage pf + i) (htlb : m'.tlb = m.tlb) (hcur : m'.cur = m.cur)
    (hf : useFrame m' (pageOf pf m.cur (n + j)) = (freshFrames pf m)[j]?) : Current m' pf (n + j) := by
  intro f hcached
  rw [htlb, hn] at hcached
  rw [hcur, hf, ← hc i hscan j hj f hcached, Nat.zero_add]

/-- The pages from `n` on, `cnt` of them, are given back. -/
def revoke (H : Use → Prop) (page : ℕ → Use) (n cnt : ℕ) : Use → Prop :=
  fun u => H u ∧ ∀ j, j < cnt → u ≠ page (n + j)

theorem revoke_zero (H : Use → Prop) (page : ℕ → Use) (n : ℕ) : revoke H page n 0 = H := by
  funext u
  simp [revoke]

theorem revoke_succ (H : Use → Prop) (page : ℕ → Use) (n cnt : ℕ) :
    revoke (Function.update H (page n) False) page (n + 1) cnt = revoke H page n (cnt + 1) := by
  funext u
  apply propext
  unfold revoke
  constructor
  · rintro ⟨hu, hout⟩
    have hun : u ≠ page n := by
      rintro rfl
      rw [Function.update_self] at hu
      exact hu
    rw [Function.update_of_ne hun] at hu
    refine ⟨hu, ?_⟩
    intro j hj
    cases j with
    | zero => exact hun
    | succ j =>
      rw [show n + (j + 1) = n + 1 + j by omega]
      exact hout j (by omega)
  · rintro ⟨hu, hout⟩
    have hun : u ≠ page n := hout 0 (by omega)
    rw [Function.update_of_ne hun]
    refine ⟨hu, ?_⟩
    intro j hj
    rw [show n + 1 + j = n + (j + 1) by omega]
    exact hout (j + 1) (by omega)

theorem clearPage_inv (inv : FrameInv stray slack H m) {pf : Pool} {v : Word} (hc : Current m pf (v.toNat / 4096))
    (hH : H (pageOf pf m.cur (v.toNat / 4096)))
    (hdir : ∀ t w, m.pgdir t = some w → pageOf pf m.cur (v.toNat / 4096) ≠ .kpage (w.toNat / 4096))
    {x : Unit} (h : clearPage v m = .ok (x, m')) :
    FrameInv stray slack H m' ∧ SameTasks m m' ∧ (∀ pf', poolOf pf' m' = poolOf pf' m) ∧
      (∀ u, u.Valid → useFrame m' u = useFrame m u) ∧
      ∃ f, useFrame m (pageOf pf m.cur (v.toNat / 4096)) = some f ∧
        m'.mem = fun a => if frame a = f then 0 else m.mem a := by
  obtain ⟨f, hf⟩ := inv.mapped _ hH
  have hf' : Aligned f := by
    obtain ⟨p, -, hpf, -⟩ := page_table inv hH hf
    exact entryFrame_aligned hpf
  rw [clearPage_eq (access_use inv hc hH hf), frame_add_offset hf'] at h
  simp only [Except.ok.injEq, Prod.mk.injEq, true_and] at h
  subst h
  have hout : ∀ a, frame a ≠ f → (if frame a = f then 0 else m.mem a) = m.mem a := fun a ha => if_neg ha
  obtain ⟨hinv, hkeep⟩ := inv.fill hH hf hdir hout
  exact ⟨hinv, ⟨rfl, rfl, rfl, rfl, rfl, rfl, fun _ => rfl⟩, fun _ => rfl, hkeep, f, hf, rfl⟩

theorem clearPages_inv (cnt : ℕ) {pf : Pool} {v : Word} {m m' : Machine} (inv : FrameInv stray slack H m)
    (hc : ∀ j, j < cnt → Current m pf (v.toNat / 4096 + j))
    (hH : ∀ j, j < cnt → H (pageOf pf m.cur (v.toNat / 4096 + j)))
    (hdir : ∀ j t w, j < cnt → m.pgdir t = some w → pageOf pf m.cur (v.toNat / 4096 + j) ≠ .kpage (w.toNat / 4096))
    (hv : v.toNat / 4096 + cnt ≤ 0xffc00) {x : Unit} (h : clearPages cnt v m = .ok (x, m')) :
    FrameInv stray slack H m' ∧ SameTasks m m' ∧ (∀ pf', poolOf pf' m' = poolOf pf' m) ∧
      (∀ u, u.Valid → useFrame m' u = useFrame m u) ∧ (∀ a, m.mem a = 0 → m'.mem a = 0) ∧
      (∀ j f, j < cnt → useFrame m (pageOf pf m.cur (v.toNat / 4096 + j)) = some f → ∀ a, frame a = f → m'.mem a = 0) ∧
      Keeps (revoke H (pageOf pf m.cur) (v.toNat / 4096) cnt) m m' := by
  induction cnt generalizing v m with
  | zero =>
    simp only [clearPages, pure_ok, true_and] at h
    subst h
    exact ⟨inv, ⟨rfl, rfl, rfl, rfl, rfl, rfl, fun _ => rfl⟩, fun _ => rfl, fun u _ => rfl, fun a ha => ha, fun j f hj => by omega,
      Keeps.refl _ _⟩
  | succ cnt ih =>
    simp only [clearPages, bind_ok] at h
    obtain ⟨_, m₁, hclear, h⟩ := h
    obtain ⟨inv₁, hsame₁, hpool₁, hkeep₁, g, hg, hmem₁⟩ := clearPage_inv inv (by simpa using hc 0 (by omega))
      (by simpa using hH 0 (by omega))
      (by simpa using fun t w => hdir 0 t w (by omega)) hclear
    have hnext := page_succ (v := v) (by omega)
    have hshift : ∀ j, v.toNat / 4096 + 1 + j = v.toNat / 4096 + (j + 1) := fun j => by omega
    obtain ⟨inv', hsame', hpool', hkeep', hzero', hclear', hkeeps'⟩ := ih inv₁ (by
      intro j hj f hf
      rw [hnext, hshift] at hf ⊢
      rw [hsame₁.tlb] at hf
      rw [hsame₁.cur, hkeep₁ _ (inv.valid (inv.page _ (hH (j + 1) (by omega))).1)]
      exact hc (j + 1) (by omega) f hf) (by
      intro j hj
      rw [hnext, hsame₁.cur, hshift]
      exact hH (j + 1) (by omega)) (by
      intro j t w hj hw
      rw [hnext, hsame₁.cur, hshift]
      rw [hsame₁.pgdir] at hw
      exact hdir (j + 1) t w (by omega) hw) (by omega) h
    refine ⟨inv', hsame₁.trans hsame', fun pf' => (hpool' pf').trans (hpool₁ pf'),
      fun u hu => (hkeep' u hu).trans (hkeep₁ u hu), ?_, ?_, ?_⟩
    · intro a ha
      apply hzero'
      simp only [hmem₁]
      split_ifs
      · rfl
      · exact ha
    · intro j f hj hf a ha
      cases j with
      | zero =>
        rw [Nat.add_zero, hg, Option.some.injEq] at hf
        apply hzero'
        simp only [hmem₁, if_pos (ha.trans hf.symm)]
      | succ j =>
        apply hclear' j f (by omega) _ a ha
        rw [hnext, hsame₁.cur, hshift, hkeep₁ _ (inv.valid (inv.page _ (hH (j + 1) hj)).1)]
        exact hf
    · have hfirst : Keeps (revoke H (pageOf pf m.cur) (v.toNat / 4096) (cnt + 1)) m m₁ := by
        intro u f hu _ hf
        have hlive := (inv.page u hu.1).1
        refine ⟨(hkeep₁ u (inv.valid hlive)).trans hf, ?_⟩
        intro a ha
        simp only [hmem₁]
        rw [if_neg]
        rintro rfl
        rw [← ha] at hf
        exact hu.2 0 (by omega) (inv.inj u _ _ hlive (inv.page _ (hH 0 (by omega))).1 hf hg)
      refine hfirst.trans (hkeeps'.mono ?_) (fun _ h => h) hsame₁.pgdir
      intro u hu
      refine ⟨hu.1, ?_⟩
      intro j hj
      rw [hnext, hsame₁.cur, hshift]
      exact hu.2 (j + 1) (by omega)

def setMem (m : Machine) (mem : PhysMem) : Machine := { m with mem := mem }

theorem setMem_markFrame (pf : Pool) (b : ℕ) (value : Bool) (m : Machine) (mem : PhysMem) :
    setMem (markFrame pf b value m) mem = markFrame pf b value (setMem m mem) := by
  cases pf with
  | kernel => rfl
  | user => rfl

theorem unmap (inv : FrameInv stray slack H m) {pf : Pool} {n : ℕ} {p : Word} (w : Word) (hH : H (pageOf pf m.cur n))
    (htab : tableOf m pf n p)
    (hdir : ∀ t v, m.pgdir t = some v → pageOf pf m.cur n ≠ .kpage (v.toNat / 4096)) (hp : Aligned p) :
    ∃ m₂, m₂ = setMem m (Function.update m.mem (slot p (n % 1024)) (w &&& 0xfffffffe#32)) ∧
      FrameInv stray slack (Function.update H (pageOf pf m.cur n) False) m₂ ∧ useFrame m₂ (pageOf pf m.cur n) = none ∧
      ∀ u, u.Valid → u ≠ pageOf pf m.cur n → useFrame m₂ u = useFrame m u := by
  have hr : Rewrites m.mem _ p (n % 1024) none := rewrites_unmap (w := w) hp (by omega)
  refine ⟨_, rfl, ?_⟩
  cases pf with
  | kernel =>
    have hrange := inv.heap_range hH
    obtain rfl : p = kernelTable (n / 1024) := htab
    have h := inv.setKernel hrange.1 hrange.2 (by
      intro t v hv heq
      exact hdir t v hv (by rw [heq]; rfl)) (by simp) hr
    simpa only [pageOf, setMem, Option.isSome_none, Bool.false_eq_true] using h
  | user =>
    have h := inv.setUser (inv.page _ hH).1 htab (by simp) hr
    simpa only [pageOf, setMem, Option.isSome_none, Bool.false_eq_true] using h

theorem addrToPhys_use (inv : FrameInv stray slack H m) {pf : Pool} {v f : Word} (hv : v.toNat % 4096 = 0)
    (hH : H (pageOf pf m.cur (v.toNat / 4096))) (hf : useFrame m (pageOf pf m.cur (v.toNat / 4096)) = some f) :
    addrToPhys v m = .ok (f, m) := by
  obtain ⟨p, hp, hpf, -⟩ := page_table inv hH hf
  have hoff : v &&& 0xfff#32 = 0#32 := by
    apply BitVec.eq_of_toNat_eq
    rw [toNat_offset, hv]
    rfl
  rw [addrToPhys, bind_eq (load_eq (access_pte inv.window inv.cr3_space hp))]
  change Except.ok (frame (entry m.mem p (v.toNat / 4096 % 1024)) + (v &&& 0xfff#32), m) = _
  rw [(entryFrame_some.mp hpf).2, hoff, BitVec.add_zero]

theorem pfree_taken (hs : Shape m) {pf : Pool} {f : Word} (hf : Taken m pf f) :
    ∃ b, b < 8 * (poolOf pf m).poolBitmap.btmpBytesLen ∧
      f = BitVec.ofNat 32 (b * 4096 + (poolOf pf m).phyAddrStart) ∧ pfree f m = .ok ((), markFrame pf b false m) := by
  have hnat := (taken_toNat hs hf).2.2
  have hend := hs.kernelEnd
  have huser := hs.userEnd
  have hstart := hs.kernelStart
  obtain ⟨b, hb, hfb, -⟩ := hf
  refine ⟨b, hb, hfb, ?_⟩
  have hpf : (if m.userPool.phyAddrStart ≤ f.toNat then Pool.user else Pool.kernel) = pf := by
    rcases hnat with ⟨h, h'⟩ | ⟨h, h'⟩
    · rw [if_pos h', h]
    · rw [if_neg (by omega), h]
  have hbit : u32 (f.toNat + 2 ^ 32 - (poolOf pf m).phyAddrStart) / 4096 = b := by
    rw [hfb, BitVec.toNat_ofNat, u32]
    cases pf with
    | kernel =>
      simp only [poolOf] at hb ⊢
      omega
    | user =>
      simp only [poolOf] at hb ⊢
      omega
  change Except.ok ((), setPool _ _ m) = _
  rw [hpf, hbit]
  rfl

theorem unmark (inv : FrameInv stray slack H m) {pf : Pool} {b : ℕ} {f : Word}
    (hb : b < 8 * (poolOf pf m).poolBitmap.btmpBytesLen)
    (hfb : f = BitVec.ofNat 32 (b * 4096 + (poolOf pf m).phyAddrStart)) (hf : Taken m pf f)
    (hfree : ∀ u, Live H u → useFrame m u ≠ some f) :
    FrameInv stray slack H (markFrame pf b false m) ∧
      ∀ pf' g, Taken (markFrame pf b false m) pf' g ↔ Taken m pf' g ∧ g ≠ f := by
  obtain ⟨hsame, hmem⟩ := markFrame_same pf b false m
  have htaken : ∀ pf' g, Taken (markFrame pf b false m) pf' g ↔ Taken m pf' g ∧ g ≠ f := by
    intro pf' g
    rw [taken_markFrame inv.shape hb, ← hfb]
    split_ifs with hc
    · simp [hc]
    · constructor
      · intro hg
        refine ⟨hg, ?_⟩
        rintro rfl
        exact hc ⟨taken_pool inv.shape hg hf, rfl⟩
      · exact And.left
  refine ⟨?_, htaken⟩
  apply inv.remark hmem hsame.pgdir hsame.cur hsame.cr3 hsame.tlb (shape_markFrame inv.shape pf b false)
  · rw [hsame.kernelVaddr]
  · intro u g hu hg
    refine (htaken _ _).mpr ⟨inv.taken u g hu hg, ?_⟩
    rintro rfl
    exact hfree u hu hg
  · intro n hn
    rw [hsame.kernelVaddr]
    exact (inv.heap n hn).2.2
  · intro t n g hn hg
    rw [hsame.userVaddr]
    exact (inv.user t n g hn hg).2

/-- Page `n` of the running task gets a frame of `pf` or loses it: bit `b` of the pool and one entry of its table change. -/
def Switches (value : Bool) (pf : Pool) (n b : ℕ) (m m' : Machine) : Prop :=
  b < 8 * (poolOf pf m).poolBitmap.btmpBytesLen ∧ (∀ pf', poolOf pf' m' = poolOf pf' (markFrame pf b value m)) ∧
    ∃ p w, entryFrame m.mem m.cr3 (n / 1024) = some p ∧ tableOf m pf n p ∧ m'.mem = Function.update m.mem (slot p (n % 1024)) w

theorem freePages_step (inv : FrameInv stray slack H m) {pf : Pool} {cnt : ℕ} {v : Word} (hv : v.toNat % 4096 = 0)
    (hH : H (pageOf pf m.cur (v.toNat / 4096)))
    (hdir : ∀ t w, m.pgdir t = some w → pageOf pf m.cur (v.toNat / 4096) ≠ .kpage (w.toNat / 4096)) :
    ∃ m₁ f, useFrame m (pageOf pf m.cur (v.toNat / 4096)) = some f ∧
      FrameInv stray slack (Function.update H (pageOf pf m.cur (v.toNat / 4096)) False) m₁ ∧ SameTasks m m₁ ∧
      useFrame m₁ (pageOf pf m.cur (v.toNat / 4096)) = none ∧
      (∀ u, u.Valid → u ≠ pageOf pf m.cur (v.toNat / 4096) → useFrame m₁ u = useFrame m u) ∧
      (∀ pf' g, Taken m₁ pf' g ↔ Taken m pf' g ∧ g ≠ f) ∧
      Keeps (Function.update H (pageOf pf m.cur (v.toNat / 4096)) False) m m₁ ∧
      (∃ b, f = BitVec.ofNat 32 (b * 4096 + (poolOf pf m).phyAddrStart) ∧ Switches false pf (v.toNat / 4096) b m m₁) ∧
      freePages pf (cnt + 1) v m = freePages pf cnt (v + 0x1000#32) m₁ := by
  obtain ⟨f, hf⟩ := inv.mapped _ hH
  obtain ⟨p, hp, hpf, hpa, htab⟩ := page_table inv hH hf
  have hlive := (inv.page _ hH).1
  have htaken : Taken m pf f := by
    have := inv.taken _ f hlive hf
    rwa [pageOf_pool] at this
  obtain ⟨b, hb, hfb, hpfree⟩ := pfree_taken inv.shape htaken
  obtain ⟨hsame₀, hmem₀⟩ := markFrame_same pf b false m
  have hwalk : access (markFrame pf b false m) (ptePtr v) = some (slot p (v.toNat / 4096 % 1024)) := by
    rw [access, hsame₀.tlb, hmem₀, hsame₀.cr3]
    exact access_pte inv.window inv.cr3_space hp
  obtain ⟨m₂, hm₂, inv₂, hnone, hkeep⟩ := unmap inv (m.mem (slot p (v.toNat / 4096 % 1024))) hH htab hdir hpa
  -- the bit and the entry may be cleared in either order
  have hremove : pageTablePteRemove v (markFrame pf b false m) = .ok ((), markFrame pf b false m₂) := by
    rw [pageTablePteRemove, bind_eq (load_eq hwalk), store_eq hwalk, hm₂, ← setMem_markFrame, hmem₀]
    rfl
  have hturn : freePages pf (cnt + 1) v m = freePages pf cnt (v + 0x1000#32) (markFrame pf b false m₂) := by
    obtain ⟨hmod, hlow, hpool⟩ := taken_toNat inv.shape htaken
    have hget : (get : MemM Machine) m = .ok (m, m) := rfl
    have hassert : (assert (f.toNat % 4096 = 0 ∧ (if pf = .user then m.userPool.phyAddrStart ≤ f.toNat
        else m.kernelPool.phyAddrStart ≤ f.toNat ∧ f.toNat < m.userPool.phyAddrStart)) : MemM Unit) m = .ok ((), m) := by
      refine (assert_ok _ _ _ _).mpr ⟨⟨hmod, ?_⟩, rfl⟩
      rcases hpool with ⟨rfl, hle⟩ | ⟨rfl, hlt⟩
      · rw [if_pos rfl]
        exact hle
      · rw [if_neg (by simp), inv.shape.kernelStart]
        exact ⟨hlow, hlt⟩
    rw [freePages, bind_eq (addrToPhys_use inv hv hH hf), bind_eq hget, bind_eq hassert, bind_eq hpfree, bind_eq hremove]
  have hpool₂ : poolOf pf m₂ = poolOf pf m := by
    rw [hm₂]
    cases pf <;> rfl
  have htaken₂ : ∀ pf' g, Taken m₂ pf' g ↔ Taken m pf' g := by
    intro pf' g
    rw [hm₂]
    cases pf' <;> exact Iff.rfl
  obtain ⟨inv₁, htaken₁⟩ := unmark inv₂ (by rw [hpool₂]; exact hb) (by rw [hpool₂]; exact hfb)
    ((htaken₂ _ _).mpr htaken) (by
    intro u hu hfu
    by_cases hun : u = pageOf pf m.cur (v.toNat / 4096)
    · subst hun
      rw [hnone] at hfu
      cases hfu
    · have hu' := FrameInv.live_of_update hun hu
      rw [hkeep u (inv.valid hu') hun] at hfu
      exact hun (inv.inj u _ f hu' hlive hfu hf))
  obtain ⟨hsame₁, hmem₁⟩ := markFrame_same pf b false m₂
  have huse := FrameInv.useFrame_same hmem₁ hsame₁.pgdir
  have hsame₂ : SameTasks m m₂ := by
    rw [hm₂]
    exact ⟨rfl, rfl, rfl, rfl, rfl, rfl, fun _ => rfl⟩
  have hnotTable : ∀ u g, H u → useFrame m u = some g → g ≠ p := by
    intro u g hu hg
    cases pf with
    | kernel =>
      have hr := inv.heap_range hH
      obtain rfl : p = kernelTable (v.toNat / 4096 / 1024) := htab
      exact inv.page_ne_kernelTable hu hg (by omega)
    | user =>
      have hn : v.toNat / 4096 < 0xc0000 := hlive
      exact inv.page_ne_table hu hg (by omega) htab
  have hkeeps : Keeps (Function.update H (pageOf pf m.cur (v.toNat / 4096)) False) m m₂ := by
    intro u g hu _ hg
    have hun : u ≠ pageOf pf m.cur (v.toNat / 4096) := by
      rintro rfl
      rw [Function.update_self] at hu
      exact hu
    rw [Function.update_of_ne hun] at hu
    refine ⟨(hkeep u (inv.valid (inv.page u hu).1) hun).trans hg, ?_⟩
    intro a ha
    rw [hm₂]
    apply Function.update_of_ne
    rintro rfl
    rw [frame_slot hpa (by omega)] at ha
    exact hnotTable u g hu hg ha.symm
  have hswitch : Switches false pf (v.toNat / 4096) b m (markFrame pf b false m₂) := by
    refine ⟨hb, ?_, p, _, hp, htab, by rw [hmem₁, hm₂]; rfl⟩
    intro pf'
    rw [hm₂]
    cases pf <;> cases pf' <;> rfl
  refine ⟨_, f, hf, inv₁, hsame₂.trans hsame₁, ?_, ?_, ?_,
    hkeeps.trans (Keeps.of_same hmem₁ hsame₁.pgdir) (fun _ h => h) hsame₂.pgdir, ⟨b, hfb, hswitch⟩, hturn⟩
  · rw [huse]
    exact hnone
  · intro u hu hne
    rw [huse]
    exact hkeep u hu hne
  · intro pf' g
    rw [htaken₁, htaken₂]

structure Unmapped (m m' : Machine) (page : ℕ → Use) (n cnt : ℕ) : Prop where
  gone : ∀ j, j < cnt → useFrame m' (page (n + j)) = none
  other : ∀ u, u.Valid → (∀ j, j < cnt → u ≠ page (n + j)) → useFrame m' u = useFrame m u
  pool : ∀ pf g, Taken m' pf g ↔ Taken m pf g ∧ ∀ j, j < cnt → useFrame m (page (n + j)) ≠ some g

theorem freePages_inv (cnt : ℕ) {pf : Pool} {v : Word} {H : Use → Prop} {m m' : Machine}
    (inv : FrameInv stray slack H m) (hv : v.toNat % 4096 = 0) (hend : v.toNat / 4096 + cnt ≤ 0xffc00)
    (hH : ∀ j, j < cnt → H (pageOf pf m.cur (v.toNat / 4096 + j)))
    (hdir : ∀ j t w, j < cnt → m.pgdir t = some w → pageOf pf m.cur (v.toNat / 4096 + j) ≠ .kpage (w.toNat / 4096))
    {x : Unit} (h : freePages pf cnt v m = .ok (x, m')) :
    FrameInv stray slack (revoke H (pageOf pf m.cur) (v.toNat / 4096) cnt) m' ∧ SameTasks m m' ∧
      Unmapped m m' (pageOf pf m.cur) (v.toNat / 4096) cnt ∧
      Keeps (revoke H (pageOf pf m.cur) (v.toNat / 4096) cnt) m m' := by
  induction cnt generalizing v H m with
  | zero =>
    simp only [freePages, pure_ok, true_and] at h
    subst h
    rw [revoke_zero]
    refine ⟨inv, ⟨rfl, rfl, rfl, rfl, rfl, rfl, fun _ => rfl⟩, ?_, Keeps.refl _ _⟩
    exact ⟨fun j hj => by omega, fun u _ _ => rfl, fun pf g => by simp⟩
  | succ cnt ih =>
    have hpages : ∀ j, j < cnt + 1 → 0 < j →
        pageOf pf m.cur (v.toNat / 4096 + j) ≠ pageOf pf m.cur (v.toNat / 4096) := by
      intro j hj hpos heq
      have := pageOf_inj heq
      omega
    obtain ⟨m₁, f, hf, inv₁, hsame₁, hnone₁, hkeep₁, htaken₁, hkeeps₁, -, hturn⟩ := freePages_step inv hv
      (by simpa using hH 0 (by omega)) (by simpa using fun t w => hdir 0 t w (by omega))
    rw [hturn] at h
    have hnext := page_succ (v := v) (by omega)
    have hshift : ∀ j, v.toNat / 4096 + 1 + j = v.toNat / 4096 + (j + 1) := fun j => by omega
    have hv' : (v + 0x1000#32).toNat % 4096 = 0 := by
      rw [BitVec.toNat_add, BitVec.toNat_ofNat]
      omega
    obtain ⟨inv', hsame', hun, hkeeps'⟩ := ih inv₁ hv' (by omega) (by
      intro j hj
      rw [hnext, hsame₁.cur, hshift, Function.update_of_ne (hpages (j + 1) (by omega) (by omega))]
      exact hH (j + 1) (by omega)) (by
      intro j t w hj hw
      rw [hnext, hsame₁.cur, hshift]
      rw [hsame₁.pgdir] at hw
      exact hdir (j + 1) t w (by omega) hw) h
    rw [hnext, hsame₁.cur, revoke_succ] at inv'
    rw [hnext, hsame₁.cur] at hun
    rw [hnext, hsame₁.cur] at hkeeps'
    have hkeeps : Keeps (revoke H (pageOf pf m.cur) (v.toNat / 4096) (cnt + 1)) m m' := by
      rw [← revoke_succ]
      exact (hkeeps₁.mono fun u hu => hu.1).trans hkeeps' (fun _ h => h) hsame₁.pgdir
    have hvalid : ∀ j, j < cnt + 1 → (pageOf pf m.cur (v.toNat / 4096 + j)).Valid :=
      fun j hj => inv.valid (inv.page _ (hH j hj)).1
    refine ⟨inv', hsame₁.trans hsame', ⟨?_, ?_, ?_⟩, hkeeps⟩
    · intro j hj
      cases j with
      | zero =>
        rw [Nat.add_zero, hun.other _ (by simpa using hvalid 0 (by omega)) (by
          intro j hj
          rw [hshift]
          exact (hpages (j + 1) (by omega) (by omega)).symm)]
        exact hnone₁
      | succ j =>
        rw [← hshift]
        exact hun.gone j (by omega)
    · intro u hu hne
      have hu0 : u ≠ pageOf pf m.cur (v.toNat / 4096) := hne 0 (by omega)
      rw [hun.other u hu (by
        intro j hj
        rw [hshift]
        exact hne (j + 1) (by omega)), hkeep₁ u hu hu0]
    · intro pf' g
      rw [hun.pool, htaken₁]
      constructor
      · rintro ⟨⟨hg, hgf⟩, hrest⟩
        refine ⟨hg, ?_⟩
        intro j hj
        cases j with
        | zero =>
          rw [Nat.add_zero, hf]
          simpa using Ne.symm hgf
        | succ j =>
          have := hrest j (by omega)
          rw [hshift, hkeep₁ _ (hvalid (j + 1) (by omega)) (hpages (j + 1) (by omega) (by omega))] at this
          exact this
      · rintro ⟨hg, hall⟩
        refine ⟨⟨hg, ?_⟩, ?_⟩
        · have := hall 0 (by omega)
          rw [Nat.add_zero, hf] at this
          simpa using Ne.symm (by simpa using this)
        · intro j hj
          have := hall (j + 1) (by omega)
          rw [hshift, hkeep₁ _ (hvalid (j + 1) (by omega)) (hpages (j + 1) (by omega) (by omega))]
          exact this

theorem freePages_runs (cnt : ℕ) {pf : Pool} {v : Word} {H : Use → Prop} {m : Machine}
    (inv : FrameInv stray slack H m) (hv : v.toNat % 4096 = 0) (hend : v.toNat / 4096 + cnt ≤ 0xffc00)
    (hH : ∀ j, j < cnt → H (pageOf pf m.cur (v.toNat / 4096 + j)))
    (hdir : ∀ j t w, j < cnt → m.pgdir t = some w → pageOf pf m.cur (v.toNat / 4096 + j) ≠ .kpage (w.toNat / 4096)) :
    ∃ m', freePages pf cnt v m = .ok ((), m') := by
  induction cnt generalizing v H m with
  | zero => exact ⟨m, rfl⟩
  | succ cnt ih =>
    obtain ⟨m₁, f, -, inv₁, hsame₁, -, -, -, -, -, hturn⟩ := freePages_step inv hv
      (by simpa using hH 0 (by omega)) (by simpa using fun t w => hdir 0 t w (by omega))
    have hnext := page_succ (v := v) (by omega)
    have hshift : ∀ j, v.toNat / 4096 + 1 + j = v.toNat / 4096 + (j + 1) := fun j => by omega
    rw [hturn]
    apply ih inv₁
    · rw [BitVec.toNat_add, BitVec.toNat_ofNat]
      omega
    · omega
    · intro j hj
      have hne : pageOf pf m.cur (v.toNat / 4096 + (j + 1)) ≠ pageOf pf m.cur (v.toNat / 4096) := by
        intro heq
        have := pageOf_inj heq
        omega
      rw [hnext, hsame₁.cur, hshift, Function.update_of_ne hne]
      exact hH (j + 1) (by omega)
    · intro j t w hj hw
      rw [hnext, hsame₁.cur, hshift]
      rw [hsame₁.pgdir] at hw
      exact hdir (j + 1) t w (by omega) hw

theorem page_base (inv : FrameInv stray slack H m) {pf : Pool} {n : ℕ} (hH : H (pageOf pf m.cur n)) :
    basePage pf ≤ n ∧ n < 0xffc00 ∧ (vaddrOf pf m).vaddrStart = basePage pf * 4096 := by
  cases pf with
  | kernel =>
    have hr := inv.heap_range hH
    exact ⟨hr.1, hr.2, inv.shape.heapStart⟩
  | user =>
    obtain ⟨f, hf⟩ := inv.mapped _ hH
    have hn : n < 0xc0000 := (inv.page _ hH).1
    obtain ⟨p, hp, -⟩ := useFrame_upage.mp hf
    obtain ⟨d, hd, -⟩ := useFrame_table.mp hp
    obtain ⟨w, hw, -⟩ := dirOf_some.mp hd
    exact ⟨(inv.user m.cur n f hn hf).1, by omega, (inv.shape.task m.cur w hw).1⟩

theorem bitIdx_page {va : VirtualAddr} {v : Word} {base : ℕ} (hstart : va.vaddrStart = base * 4096)
    (hle : base ≤ v.toNat / 4096) : bitIdx va v = v.toNat / 4096 - base := by
  have hv := v.isLt
  rw [bitIdx, hstart, u32]
  omega

theorem unmarkPages_inv (inv : FrameInv stray slack H m) {pf : Pool} {n cnt : ℕ} (hbase : basePage pf ≤ n)
    (hH : ∀ j, j < cnt → ¬ H (pageOf pf m.cur (n + j)))
    (hgone : ∀ j, j < cnt → useFrame m (pageOf pf m.cur (n + j)) = none) :
    FrameInv stray slack H (markPages pf (n - basePage pf) false cnt m) := by
  have htaken : ∀ pf' g, Taken (markPages pf (n - basePage pf) false cnt m) pf' g ↔ Taken m pf' g := by
    intro pf' g
    cases pf with
    | kernel => cases pf' <;> exact Iff.rfl
    | user => cases pf' <;> exact Iff.rfl
  have hprocs := markPages_procs pf (n - basePage pf) false cnt m
  apply inv.remark (markPages_mem _ _ _ _ _) hprocs.pgdir hprocs.cur hprocs.cr3 hprocs.tlb (shape_markPages inv.shape _ _ _ _)
    hprocs.kernelLen
  · intro u f hu hf
    exact (htaken _ _).mpr (inv.taken u f hu hf)
  · intro k hk
    have hr := inv.heap_range hk
    cases pf with
    | kernel =>
      simp only [markPages, setVaddr, vaddrOf, scanTest_setBits, basePage] at hbase ⊢
      rw [if_neg]
      · exact (inv.heap k hk).2.2
      · rintro ⟨hlo, hhi⟩
        apply hH (k - n) (by omega)
        rw [show n + (k - n) = k by omega]
        exact hk
    | user => exact (inv.heap k hk).2.2
  · intro t k f hk hf
    obtain ⟨hlo', hbit⟩ := inv.user t k f hk hf
    cases pf with
    | kernel => exact hbit
    | user =>
      by_cases ht : t = m.cur
      · subst ht
        simp only [markPages, setVaddr, vaddrOf, Function.update_self, scanTest_setBits, basePage] at hbase ⊢
        rw [if_neg]
        · exact hbit
        · rintro ⟨hlo, hhi⟩
          have := hgone (k - n) (by omega)
          rw [show n + (k - n) = k by omega] at this
          simp only [pageOf, hf] at this
          cases this
      · simp only [markPages, setVaddr, Function.update_of_ne ht]
        exact hbit

theorem mfreePage_inv (inv : FrameInv stray slack H m) {pf : Pool} {v : Word} {cnt : ℕ}
    (hH : ∀ j, j < cnt → H (pageOf pf m.cur (v.toNat / 4096 + j)))
    (hdir : ∀ j t w, j < cnt → m.pgdir t = some w → pageOf pf m.cur (v.toNat / 4096 + j) ≠ .kpage (w.toNat / 4096))
    {x : Unit} (h : mfreePage pf v cnt m = .ok (x, m')) :
    FrameInv stray slack (revoke H (pageOf pf m.cur) (v.toNat / 4096) cnt) m' ∧
      Unmapped m m' (pageOf pf m.cur) (v.toNat / 4096) cnt ∧
      Keeps (revoke H (pageOf pf m.cur) (v.toNat / 4096) cnt) m m' ∧
      ∃ m₁, SameTasks m m₁ ∧ m' = markPages pf (v.toNat / 4096 - basePage pf) false cnt m₁ ∧
        freePages pf cnt v m = .ok ((), m₁) := by
  simp only [mfreePage, bind_ok, assert_ok] at h
  obtain ⟨_, _, ⟨⟨hcnt, hv⟩, rfl⟩, phys, m₀, hphys, h⟩ := h
  have hfirst : H (pageOf pf m.cur (v.toNat / 4096)) := by simpa using hH 0 (by omega)
  obtain ⟨f, hf⟩ := inv.mapped _ hfirst
  rw [addrToPhys_use inv hv hfirst hf] at hphys
  simp only [Except.ok.injEq, Prod.mk.injEq] at hphys
  obtain ⟨rfl, rfl⟩ := hphys
  simp only [get_ok] at h
  obtain ⟨_, _, ⟨-, rfl⟩, _, _, ⟨rfl, rfl⟩, _, m₁, hfree, h⟩ := h
  have htaken : Taken m pf f := by
    have := inv.taken _ f (inv.page _ hfirst).1 hf
    rwa [pageOf_pool] at this
  have hpf : (if m.userPool.phyAddrStart ≤ f.toNat then Pool.user else Pool.kernel) = pf := by
    rcases (taken_toNat inv.shape htaken).2.2 with ⟨hp, hle⟩ | ⟨hp, hlt⟩
    · rw [if_pos hle, hp]
    · rw [if_neg (by omega), hp]
  rw [hpf] at hfree
  have hlast := page_base inv (hH (cnt - 1) (by omega))
  obtain ⟨hbase, -, hstart⟩ := page_base inv hfirst
  obtain ⟨inv₁, hsame, hun, hkeeps⟩ := freePages_inv cnt inv hv (by omega) hH hdir hfree
  have hvaddr : vaddrOf pf m₁ = vaddrOf pf m := by
    cases pf with
    | kernel => exact hsame.kernelVaddr
    | user => simp only [vaddrOf, hsame.userVaddr, hsame.cur]
  simp only [vaddrRemove, modify_ok] at h
  rw [hvaddr, bitIdx_page hstart hbase, ← hvaddr] at h
  subst h
  have hcur : pageOf pf m₁.cur = pageOf pf m.cur := by rw [hsame.cur]
  have hinv : FrameInv stray slack _ (markPages pf (v.toNat / 4096 - basePage pf) false cnt m₁) :=
    unmarkPages_inv inv₁ hbase (by
      intro j hj hrevoked
      rw [hcur] at hrevoked
      exact hrevoked.2 j hj rfl) (by
      intro j hj
      rw [hcur]
      exact hun.gone j hj)
  have huse := FrameInv.useFrame_same (markPages_mem pf (v.toNat / 4096 - basePage pf) false cnt m₁)
    (markPages_procs pf (v.toNat / 4096 - basePage pf) false cnt m₁).pgdir
  have hmark := markPages_procs pf (v.toNat / 4096 - basePage pf) false cnt m₁
  refine ⟨hinv, ⟨?_, ?_, ?_⟩, hkeeps.trans (Keeps.of_same (markPages_mem _ _ _ _ _) hmark.pgdir) (fun _ h => h) hsame.pgdir,
    m₁, hsame, rfl, hfree⟩
  · intro j hj
    exact (huse _).trans (hun.gone j hj)
  · intro u hu hne
    exact (huse u).trans (hun.other u hu hne)
  · intro pf' g
    rw [← hun.pool]
    cases pf with
    | kernel => cases pf' <;> exact Iff.rfl
    | user => cases pf' <;> exact Iff.rfl

theorem mfreePage_runs (inv : FrameInv stray slack H m) {pf : Pool} {v : Word} {cnt : ℕ} (hcnt : 0 < cnt)
    (hv : v.toNat % 4096 = 0) (hH : ∀ j, j < cnt → H (pageOf pf m.cur (v.toNat / 4096 + j)))
    (hdir : ∀ j t w, j < cnt → m.pgdir t = some w → pageOf pf m.cur (v.toNat / 4096 + j) ≠ .kpage (w.toNat / 4096)) :
    ∃ m', mfreePage pf v cnt m = .ok ((), m') := by
  have hfirst : H (pageOf pf m.cur (v.toNat / 4096)) := by simpa using hH 0 (by omega)
  obtain ⟨f, hf⟩ := inv.mapped _ hfirst
  have htaken : Taken m pf f := by
    have := inv.taken _ f (inv.page _ hfirst).1 hf
    rwa [pageOf_pool] at this
  obtain ⟨hmod, hlow, hpool⟩ := taken_toNat inv.shape htaken
  have hpf : (if m.userPool.phyAddrStart ≤ f.toNat then Pool.user else Pool.kernel) = pf := by
    rcases hpool with ⟨hp, hle⟩ | ⟨hp, hlt⟩
    · rw [if_pos hle, hp]
    · rw [if_neg (by omega), hp]
  have hlast := page_base inv (hH (cnt - 1) (by omega))
  obtain ⟨m₁, hfree⟩ := freePages_runs cnt inv hv (by omega) hH hdir
  have hget : (get : MemM Machine) m = .ok (m, m) := rfl
  have hassert : (assert (1 ≤ cnt ∧ v.toNat % 4096 = 0) : MemM Unit) m = .ok ((), m) :=
    (assert_ok _ _ _ _).mpr ⟨⟨hcnt, hv⟩, rfl⟩
  have hassert' : (assert (f.toNat % 4096 = 0 ∧ 0x102000 ≤ f.toNat) : MemM Unit) m = .ok ((), m) :=
    (assert_ok _ _ _ _).mpr ⟨⟨hmod, by omega⟩, rfl⟩
  rw [mfreePage, bind_eq hassert, bind_eq (addrToPhys_use inv hv hfirst hf), bind_eq hassert', bind_eq hget, hpf,
    bind_eq hfree]
  exact ⟨_, rfl⟩

theorem clearPages_runs (cnt : ℕ) {pf : Pool} {v : Word} {m : Machine} (inv : FrameInv stray slack H m)
    (hc : ∀ j, j < cnt → Current m pf (v.toNat / 4096 + j))
    (hH : ∀ j, j < cnt → H (pageOf pf m.cur (v.toNat / 4096 + j)))
    (hdir : ∀ j t w, j < cnt → m.pgdir t = some w → pageOf pf m.cur (v.toNat / 4096 + j) ≠ .kpage (w.toNat / 4096))
    (hv : v.toNat / 4096 + cnt ≤ 0xffc00) : ∃ m', clearPages cnt v m = .ok ((), m') := by
  induction cnt generalizing v m with
  | zero => exact ⟨m, rfl⟩
  | succ cnt ih =>
    have hfirst : H (pageOf pf m.cur (v.toNat / 4096)) := by simpa using hH 0 (by omega)
    obtain ⟨f, hf⟩ := inv.mapped _ hfirst
    have hcached : Current m pf (v.toNat / 4096) := by simpa using hc 0 (by omega)
    have hclear := clearPage_eq (access_use inv hcached hfirst hf)
    obtain ⟨inv₁, hsame₁, -, hkeep₁, -⟩ := clearPage_inv inv hcached hfirst (by simpa using fun t w => hdir 0 t w (by omega)) hclear
    have hnext := page_succ (v := v) (by omega)
    have hshift : ∀ j, v.toNat / 4096 + 1 + j = v.toNat / 4096 + (j + 1) := fun j => by omega
    rw [clearPages, bind_eq hclear]
    apply ih inv₁
    · intro j hj f hf
      rw [hnext, hshift] at hf ⊢
      rw [hsame₁.tlb] at hf
      rw [hsame₁.cur, hkeep₁ _ (inv.valid (inv.page _ (hH (j + 1) (by omega))).1)]
      exact hc (j + 1) (by omega) f hf
    · intro j hj
      rw [hnext, hsame₁.cur, hshift]
      exact hH (j + 1) (by omega)
    · intro j t w hj hw
      rw [hnext, hsame₁.cur, hshift]
      rw [hsame₁.pgdir] at hw
      exact hdir (j + 1) t w (by omega) hw
    · omega

end

end ElephantOS.Paging
