import ElephantOS.PageRuns

namespace ElephantOS.Paging

open HaltingState

def processDir (m : Machine) (t : ℕ) : Option Word := (m.pgdir t).bind (addrV2p m.mem m.cr3)

/-- Every process sees the addresses of the kernel as the kernel's own directory maps them. -/
def SharedKernel (m : Machine) : Prop :=
  ∀ t, m.pgdir t ≠ none → ∃ d, processDir m t = some d ∧
    ∀ v : Word, 0xc0000000 ≤ v.toNat → v.toNat < 0xffc00000 → walk m.mem d v = walk m.mem kernelDir v

section

variable {stray : ℕ → Prop} {slack : ℕ} {m : Machine} {L H : Use → Prop}

theorem processDir_eq (inv : FrameInv stray slack H m) (t : ℕ) : processDir m t = dirOf m t := by
  unfold processDir
  cases hv : m.pgdir t with
  | none => simp [dirOf, hv]
  | some v =>
    obtain ⟨d, hd, hH, hf⟩ := inv.dir_some hv
    have hH' : H (pageOf .kernel m.cur (v.toNat / 4096)) := hH
    obtain ⟨p, hp, hpf, -⟩ := page_table inv hH' hf
    have hoff : v &&& 0x00000fff#32 = 0#32 := by
      apply BitVec.eq_of_toNat_eq
      rw [toNat_offset, (inv.dirPage t v hv).1]
      rfl
    have hfr : frame (m.mem (slot p (v.toNat / 4096 % 1024))) = d := (entryFrame_some.mp hpf).2
    rw [hd, Option.bind_some, addrV2p, loadVirt, walk_pte inv.cr3_space hp, Option.map_some, Option.map_some, hoff, hfr,
      BitVec.add_zero]

theorem walk_shared {mem : PhysMem} {d : Word} (hd : KernelSpace mem d) (hk : KernelSpace mem kernelDir) {v : Word}
    (hv : 0xc0000000 ≤ v.toNat) (hv' : v.toNat < 0xffc00000) : walk mem d v = walk mem kernelDir v := by
  rw [walk_eq hd.aligned, walk_eq hk.aligned, hd.kernel _ (by omega) (by omega), hk.kernel _ (by omega) (by omega)]

theorem sharedKernel_of_inv (inv : FrameInv stray slack H m) : SharedKernel m := by
  intro t ht
  obtain ⟨v, hv⟩ := Option.ne_none_iff_exists'.mp ht
  obtain ⟨d, hd, -⟩ := inv.dir_some hv
  refine ⟨d, (processDir_eq inv t).trans hd, ?_⟩
  intro a ha ha'
  exact walk_shared (inv.dirSpace t d hd) inv.root ha ha'

end

/-- Where no page is cleared through a stale translation the kernel's half of every directory is the kernel's own. -/
theorem kernel_space_shared (ram : PhysMem) (beyond : ByteMemory.Memory) (allMem : ℕ) (m : Machine) (L : Use → Prop)
    (h : MemRun MemCall.Clean (memInit ram beyond allMem) m L) : SharedKernel m := by
  obtain ⟨H, inv⟩ := runInv_clean h
  exact sharedKernel_of_inv inv.frames

/-- A machine whose memory is cleared at the start, with `pages` pages free for the two pools. -/
def cleanBoot (pages : ℕ) : Machine := memInit (fun _ => 0) ByteMemory.zeros (0x200000 + pages * 4096)

def taskPages (task : ℕ) : MemM (Option Word) := do
  let some _ ← getKernelPages 1 | halt .wild
  createUserVaddrBitmap task
  getKernelPages 1

theorem cleanBoot_unstale {pages : ℕ} : TaskUnstale (cleanBoot pages) (cleanBoot pages).kernelVaddr.vaddrBitmap :=
  ⟨fun _ _ _ _ _ hf => (nomatch hf), fun _ _ => ⟨fun _ _ _ _ _ hf => (nomatch hf), fun _ _ _ _ _ _ _ hf => (nomatch hf)⟩⟩

theorem processExecute_cleanBoot : ∃ m, processExecute 1 (cleanBoot 64) = .ok ((), m) := by
  have hrun : runsTo (taskPages 1) (cleanBoot 64) (fun r _ => r.isSome) = true := by decide +kernel
  obtain ⟨r, m₃, h, -⟩ := runs_of_runsTo hrun
  simp only [taskPages, bind_ok] at h
  obtain ⟨r₁, m₁, hpcb, h⟩ := h
  cases r₁ with
  | none => simp only [halt_ok] at h
  | some v₁ =>
    simp only [bind_ok] at h
    obtain ⟨_, m₂, hmap, hget⟩ := h
    have inv := (runInv_boot (fun _ => 0) ByteMemory.zeros (0x200000 + 64 * 4096) (le_refl 1)).frames
    obtain ⟨H₂, inv₂, -, -, -, hcached₂, -⟩ := newTask_inv inv rfl (fun i _ => reaches_slack _ _) cleanBoot_unstale hpcb hmap
    obtain ⟨v, m₄, hdir⟩ := createPageDir_runs inv₂ hcached₂ hget
    refine ⟨{ m₄ with pgdir := Function.update m₄.pgdir 1 (some v) }, ?_⟩
    rw [processExecute, bind_eq hpcb]
    simp only
    rw [bind_eq hmap, bind_eq hdir, modify_eq]

theorem kernel_space_shared_one_process : ∃ m L, MemRun MemCall.Clean (cleanBoot 64) m L ∧
    m.pgdir 1 ≠ none ∧ SharedKernel m := by
  obtain ⟨m, hm⟩ := processExecute_cleanBoot
  have hrun : (MemCall.execute 1).run (cleanBoot 64) = .ok (none, m) := by
    simp only [MemCall.run]
    rw [bind_eq hm]
    rfl
  have h : MemRun MemCall.Clean (cleanBoot 64) m _ :=
    MemRun.call MemRun.boot (c := .execute 1) ⟨rfl, by decide⟩ ⟨trivial, cleanBoot_unstale⟩ hrun
  refine ⟨m, _, h, ?_, kernel_space_shared _ _ _ m _ h⟩
  have inv := (runInv_boot (fun _ => 0) ByteMemory.zeros (0x200000 + 64 * 4096) (le_refl 1)).frames
  obtain ⟨-, v, -, -, hpg, -⟩ := processExecute_inv inv rfl (by decide) (fun i _ => reaches_slack _ _) cleanBoot_unstale hm
  rw [hpg, Function.update_self]
  simp

/-- The machine after a call. -/
def after (c : MemCall) (m : Machine) : Machine :=
  match c.run m with
  | .ok (_, m') => m'
  | .error _ => m

theorem run_after {c : MemCall} {m : Machine} {r : Option Word}
    (h : runsTo c.run m (fun r' _ => decide (r' = r)) = true) : c.run m = .ok (r, after c m) := by
  obtain ⟨r', m', hrun, hr⟩ := runs_of_runsTo h
  rw [decide_eq_true_iff] at hr
  subst hr
  rw [after, hrun]

def threePages : Machine := after (.getKernel 1) ((after (.getKernel 1) (after (.getKernel 1) (cleanBoot 64))).cache 0xc0101000#32 0x201000#32)

def onePage : Machine := after (.mfree .kernel 0xc0101000#32 1) (after (.mfree .kernel 0xc0100000#32 1) threePages)

theorem threePages_run : ∃ L, MemRun (fun _ _ => True) (cleanBoot 64) threePages L ∧ L (.kpage 0xc0100) ∧ L (.kpage 0xc0101) := by
  have hfirst : (MemCall.getKernel 1).run (cleanBoot 64) = .ok (some 0xc0100000#32, _) := run_after (by decide +kernel)
  have hsecond : (MemCall.getKernel 1).run (after (.getKernel 1) (cleanBoot 64)) = .ok (some 0xc0101000#32, _) :=
    run_after (by decide +kernel)
  have hthird : (MemCall.getKernel 1).run ((after (.getKernel 1) (after (.getKernel 1) (cleanBoot 64))).cache 0xc0101000#32 0x201000#32) =
      .ok (some 0xc0102000#32, threePages) := run_after (by decide +kernel)
  have hwalk : walk (after (.getKernel 1) (after (.getKernel 1) (cleanBoot 64))).mem
      (after (.getKernel 1) (after (.getKernel 1) (cleanBoot 64))).cr3 0xc0101000#32 = some 0x201000#32 := by decide +kernel
  have hboot : MemRun (fun _ _ => True) (cleanBoot 64) (cleanBoot 64) fun _ => False := MemRun.boot
  have h₁ := MemRun.call hboot (c := .getKernel 1) trivial trivial hfirst
  have h₂ := MemRun.cache (MemRun.call h₁ (c := .getKernel 1) trivial trivial hsecond) hwalk
  refine ⟨_, MemRun.call h₂ (c := .getKernel 1) trivial trivial hthird, ?_, ?_⟩
  · exact Or.inl (Or.inl (Or.inr ⟨0, by omega, rfl⟩))
  · exact Or.inl (Or.inr ⟨0, by omega, rfl⟩)

theorem onePage_run : ∃ L, MemRun (fun _ _ => True) (cleanBoot 64) onePage L := by
  obtain ⟨L, h, hL, hL'⟩ := threePages_run
  have hfirst : (MemCall.mfree .kernel 0xc0100000#32 1).run threePages = .ok (none, _) := run_after (by decide +kernel)
  have hsecond : (MemCall.mfree .kernel 0xc0101000#32 1).run (after (.mfree .kernel 0xc0100000#32 1) threePages) = .ok (none, onePage) :=
    run_after (by decide +kernel)
  have howned : (MemCall.mfree .kernel 0xc0100000#32 1).Allowed L threePages := by
    intro j hj
    obtain rfl : j = 0 := by omega
    exact hL
  have howned' : (MemCall.mfree .kernel 0xc0101000#32 1).Allowed
      ((MemCall.mfree .kernel 0xc0100000#32 1).owned threePages.cur none L) (after (.mfree .kernel 0xc0100000#32 1) threePages) := by
    intro j hj
    obtain rfl : j = 0 := by omega
    refine ⟨hL', ?_⟩
    intro i hi heq
    obtain rfl : i = 0 := by omega
    have hpage : Use.kpage 0xc0101 = .kpage 0xc0100 := heq
    simp at hpage
  exact ⟨_, MemRun.call (MemRun.call h howned trivial hfirst) howned' trivial hsecond⟩

/-- The directory of a new process is written through the translation its page had before: the frame the processor loads has no
entries. -/
theorem kernel_space_shared_stale : ∃ m L, MemRun (fun _ _ => True) (cleanBoot 64) m L ∧ ¬ SharedKernel m := by
  obtain ⟨L, h⟩ := onePage_run
  have htest : runsTo (MemCall.execute 1).run onePage (fun r m => decide (r = none ∧ m.pgdir 1 ≠ none ∧ processDir m 1 = some 0x219000#32 ∧
      walk m.mem 0x219000#32 0xc0000000#32 = none ∧ walk m.mem kernelDir 0xc0000000#32 ≠ none)) = true := by decide +kernel
  obtain ⟨r, m, hrun, hm⟩ := runs_of_runsTo htest
  obtain ⟨-, hpgdir, hdir, hnone, hsome⟩ := of_decide_eq_true hm
  have hallowed : (MemCall.execute 1).Allowed L onePage := ⟨by decide +kernel, by decide +kernel⟩
  refine ⟨m, _, MemRun.call h hallowed trivial hrun, ?_⟩
  intro hshared
  obtain ⟨d, hd, hwalk⟩ := hshared 1 hpgdir
  rw [hdir, Option.some.injEq] at hd
  subst hd
  have heq := hwalk 0xc0000000#32 (by decide) (by decide)
  rw [hnone] at heq
  exact hsome heq.symm

inductive Page
  | kernel (n : ℕ)
  | user (t n : ℕ)
  deriving DecidableEq

namespace Page

def frameIn (m : Machine) : Page → Option Word
  | .kernel n => if 0xc0000 ≤ n ∧ n < 0xffc00 then walk m.mem kernelDir (BitVec.ofNat 32 (n * 4096)) else none
  | .user t n => if n < 0xc0000 then (processDir m t).bind fun d => walk m.mem d (BitVec.ofNat 32 (n * 4096)) else none

def Allocated : Page → Prop
  | .kernel n => 0xc0100 ≤ n
  | .user _ _ => True

def Marked (m : Machine) : Page → Prop
  | .kernel n => n - 0xc0100 < 8 * m.kernelVaddr.vaddrBitmap.btmpBytesLen ∧
      m.kernelVaddr.vaddrBitmap.scanTest (n - 0xc0100) = true
  | .user t n => 0x8048 ≤ n ∧ n - 0x8048 < 8 * (m.userVaddr t).vaddrBitmap.btmpBytesLen ∧
      (m.userVaddr t).vaddrBitmap.scanTest (n - 0x8048) = true

end Page

def IsPageTable (m : Machine) (f : Word) : Prop :=
  ∃ d, (d = kernelDir ∨ ∃ t, processDir m t = some d) ∧ ∃ i, i < 1023 ∧ entryFrame m.mem d i = some f

def FrameMarked (m : Machine) (f : Word) : Prop :=
  let pool := if m.userPool.phyAddrStart ≤ f.toNat then m.userPool else m.kernelPool
  pool.phyAddrStart ≤ f.toNat ∧ (f.toNat - pool.phyAddrStart) / 4096 < 8 * pool.poolBitmap.btmpBytesLen ∧
    pool.poolBitmap.scanTest ((f.toNat - pool.phyAddrStart) / 4096) = true

structure FramesApart (m : Machine) : Prop where
  apart : ∀ (p q : Page) f, p.frameIn m = some f → q.frameIn m = some f → p = q
  noTable : ∀ (p : Page) f, p.frameIn m = some f → ¬ IsPageTable m f
  marked : ∀ (p : Page) f, p.frameIn m = some f → p.Allocated → p.Marked m ∧ FrameMarked m f

section

variable {m : Machine} {H : Use → Prop}

theorem walk_frame {mem : PhysMem} {d : Word} (hd : Aligned d) {n : ℕ} (hn : n < 2 ^ 20) :
    walk mem d (BitVec.ofNat 32 (n * 4096)) =
      (entryFrame mem d (n / 1024)).bind fun p => entryFrame mem p (n % 1024) := by
  have hnat : (BitVec.ofNat 32 (n * 4096)).toNat = n * 4096 := by
    rw [BitVec.toNat_ofNat]
    omega
  have hoff : BitVec.ofNat 32 (n * 4096) &&& 0xfff#32 = 0#32 := by
    apply BitVec.eq_of_toNat_eq
    rw [toNat_offset, hnat]
    simp
  rw [walk_eq hd, hnat, show n * 4096 / 4096 = n by omega, hoff]
  simp

theorem kernel_frameIn (inv : FrameInv (fun _ => False) 0 H m) {n : ℕ} (hn : 0xc0000 ≤ n) (hn' : n < 0xffc00) :
    Page.frameIn m (.kernel n) = kernelFrame m.mem n := by
  rw [Page.frameIn, if_pos ⟨hn, hn'⟩, walk_frame aligned_kernelDir (by omega),
    inv.root.kernel _ (by omega) (by omega), Option.bind_some, kernelFrame]

theorem user_frameIn (inv : FrameInv (fun _ => False) 0 H m) {t n : ℕ} (hn : n < 0xc0000) :
    Page.frameIn m (.user t n) = useFrame m (.upage t n) := by
  rw [Page.frameIn, if_pos hn, processDir_eq inv, useFrame]
  cases hd : dirOf m t with
  | none => rfl
  | some d =>
    rw [Option.bind_some, Option.bind_some, walk_frame (inv.dirSpace t d hd).aligned (by omega)]

theorem frameIn_cases (inv : FrameInv (fun _ => False) 0 H m) {p : Page} {f : Word} (h : p.frameIn m = some f) :
    (∃ j, j < 256 ∧ p = .kernel (0xc0000 + j) ∧ f = BitVec.ofNat 32 (j * 4096)) ∨
      (∃ n, 0xc0100 ≤ n ∧ p = .kernel n ∧ Live H (.kpage n) ∧ useFrame m (.kpage n) = some f) ∨
      ∃ t n, p = .user t n ∧ Live H (.upage t n) ∧ useFrame m (.upage t n) = some f := by
  cases p with
  | kernel n =>
    by_cases hn : 0xc0000 ≤ n ∧ n < 0xffc00
    · rw [kernel_frameIn inv hn.1 hn.2] at h
      by_cases hlow : n < 0xc0100
      · left
        have hlow' := inv.low (n - 0xc0000) (by omega)
        rw [kernelFrame, show n / 1024 = 768 by omega, show n % 1024 = n - 0xc0000 by omega, hlow',
          Option.some.injEq] at h
        exact ⟨n - 0xc0000, by omega, by rw [show 0xc0000 + (n - 0xc0000) = n by omega], h.symm⟩
      · right
        left
        rcases inv.strays n f (by omega) hn.2 h with hH | hno
        · exact ⟨n, by omega, rfl, hH, h⟩
        · exact hno.elim
    · rw [Page.frameIn, if_neg hn] at h
      cases h
  | user t n =>
    by_cases hn : n < 0xc0000
    · rw [user_frameIn inv hn] at h
      exact Or.inr (Or.inr ⟨t, n, rfl, hn, h⟩)
    · rw [Page.frameIn, if_neg hn] at h
      cases h

theorem frameMarked_of_taken (hs : Shape m) {pf : Pool} {f : Word} (h : Taken m pf f) : FrameMarked m f := by
  have hpool := (taken_toNat hs h).2.2
  have hend := hs.kernelEnd
  have huser := hs.userEnd
  have hstart := hs.kernelStart
  obtain ⟨b, hb, rfl, hbit⟩ := h
  have hchosen : (if m.userPool.phyAddrStart ≤ (BitVec.ofNat 32 (b * 4096 + (poolOf pf m).phyAddrStart)).toNat
      then m.userPool else m.kernelPool) = poolOf pf m := by
    rcases hpool with ⟨rfl, hle⟩ | ⟨rfl, hlt⟩
    · rw [if_pos hle]
      rfl
    · rw [if_neg (by omega)]
      rfl
  have hnat : (BitVec.ofNat 32 (b * 4096 + (poolOf pf m).phyAddrStart)).toNat = b * 4096 + (poolOf pf m).phyAddrStart := by
    rw [BitVec.toNat_ofNat]
    cases pf with
    | kernel =>
      simp only [poolOf] at hb ⊢
      omega
    | user =>
      simp only [poolOf] at hb ⊢
      omega
  rw [hnat] at hchosen
  simp only [FrameMarked, hnat, hchosen]
  rw [show (b * 4096 + (poolOf pf m).phyAddrStart - (poolOf pf m).phyAddrStart) / 4096 = b by omega]
  exact ⟨by omega, hb, hbit⟩

theorem isPageTable_cases (inv : FrameInv (fun _ => False) 0 H m) {f : Word} (h : IsPageTable m f) :
    (∃ i, i < 1023 ∧ f = kernelTable i) ∨ ∃ t i, i < 768 ∧ useFrame m (.table t i) = some f := by
  obtain ⟨d, hd, i, hi, hf⟩ := h
  by_cases hlow : i < 768
  · rcases hd with rfl | ⟨t, hd⟩
    · rw [inv.identity i hlow] at hf
      split_ifs at hf
      · exact Or.inl ⟨768, by omega, (Option.some.inj hf).symm⟩
    · rw [processDir_eq inv] at hd
      exact Or.inr ⟨t, i, hlow, useFrame_table.mpr ⟨d, hd, hf⟩⟩
  · have hspace : KernelSpace m.mem d := by
      rcases hd with rfl | ⟨t, hd⟩
      · exact inv.root
      · rw [processDir_eq inv] at hd
        exact inv.dirSpace t d hd
    rw [hspace.kernel i (by omega) hi] at hf
    exact Or.inl ⟨i, hi, (Option.some.inj hf).symm⟩

theorem lowFrame_toNat {j : ℕ} (hj : j < 256) : (BitVec.ofNat 32 (j * 4096)).toNat = j * 4096 := by
  rw [BitVec.toNat_ofNat]
  omega

theorem framesApart_of_inv (inv : FrameInv (fun _ => False) 0 H m) : FramesApart m := by
  have hs := inv.shape
  have hhigh : ∀ u f, Live H u → useFrame m u = some f → 0x200000 ≤ f.toNat :=
    fun u f hu hf => (taken_toNat hs (inv.taken u f hu hf)).2.1
  refine ⟨?_, ?_, ?_⟩
  · intro p q f hp hq
    rcases frameIn_cases inv hp with ⟨j, hj, rfl, rfl⟩ | ⟨n, -, rfl, hl, hf⟩ | ⟨t, n, rfl, hl, hf⟩ <;>
      rcases frameIn_cases inv hq with ⟨j', hj', rfl, hf'⟩ | ⟨n', -, rfl, hl', hf'⟩ | ⟨t', n', rfl, hl', hf'⟩
    · have h := congrArg BitVec.toNat hf'
      rw [lowFrame_toNat hj, lowFrame_toNat hj'] at h
      rw [show j = j' by omega]
    · have h := hhigh _ _ hl' hf'
      rw [lowFrame_toNat hj] at h
      omega
    · have h := hhigh _ _ hl' hf'
      rw [lowFrame_toNat hj] at h
      omega
    · have h := hhigh _ _ hl hf
      rw [hf', lowFrame_toNat hj'] at h
      omega
    · have h := inv.inj _ _ f hl hl' hf hf'
      rw [Use.kpage.injEq] at h
      rw [h]
    · cases inv.inj _ _ f hl hl' hf hf'
    · have h := hhigh _ _ hl hf
      rw [hf', lowFrame_toNat hj'] at h
      omega
    · cases inv.inj _ _ f hl hl' hf hf'
    · have h := inv.inj _ _ f hl hl' hf hf'
      rw [Use.upage.injEq] at h
      rw [h.1, h.2]
  · intro p f hp htable
    rcases isPageTable_cases inv htable with ⟨i, hi, rfl⟩ | ⟨t, i, hi, ht⟩
    · have hnat := toNat_kernelTable hi
      rcases frameIn_cases inv hp with ⟨j, hj, rfl, hf⟩ | ⟨n, -, rfl, hl, hf⟩ | ⟨t, n, rfl, hl, hf⟩
      · rw [hf, lowFrame_toNat hj] at hnat
        omega
      · have := hhigh _ _ hl hf
        omega
      · have := hhigh _ _ hl hf
        omega
    · rcases frameIn_cases inv hp with ⟨j, hj, rfl, rfl⟩ | ⟨n, -, rfl, hl, hf⟩ | ⟨t', n, rfl, hl, hf⟩
      · have h := hhigh (.table t i) _ hi ht
        rw [lowFrame_toNat hj] at h
        omega
      · cases inv.inj (.kpage n) (.table t i) f hl hi hf ht
      · cases inv.inj (.upage t' n) (.table t i) f hl hi hf ht
  · intro p f hp halloc
    rcases frameIn_cases inv hp with ⟨j, hj, rfl, rfl⟩ | ⟨n, hn, rfl, hl, hf⟩ | ⟨t, n, rfl, hl, hf⟩
    · simp only [Page.Allocated] at halloc
      omega
    · obtain ⟨hlo, hhi, hbit⟩ := inv.heap n hl
      exact ⟨⟨by omega, hbit⟩, frameMarked_of_taken hs (inv.taken _ f hl hf)⟩
    · obtain ⟨hlo, hbit⟩ := inv.user t n f hl hf
      obtain ⟨p, hp, -⟩ := useFrame_upage.mp hf
      obtain ⟨d, hd, -⟩ := useFrame_table.mp hp
      obtain ⟨v, hv, -⟩ := dirOf_some.mp hd
      have hlen := (hs.task t v hv).2
      have hn : n < 0xc0000 := hl
      exact ⟨⟨hlo, by omega, hbit⟩, frameMarked_of_taken hs (inv.taken _ f hl hf)⟩

end

def Overruns (b : Bitmap) (cnt : ℕ) : Prop :=
  cnt ≠ 1 ∧ (∃ i, i + cnt = 8 * b.btmpBytesLen + 1 ∧ b.FreeRun i cnt) ∧
    ∀ i, i + cnt ≤ 8 * b.btmpBytesLen → ¬ b.FreeRun i cnt

theorem reaches_of_not_overruns {b : Bitmap} {cnt : ℕ} (h : ¬ Overruns b cnt) : Reaches 0 cnt b := by
  intro hpos i hi
  obtain ⟨hfree, hle, hone, hfirst⟩ := b.scan_some hpos hi
  by_contra hpast
  apply h
  refine ⟨?_, ⟨i, by omega, hfree⟩, ?_⟩
  · intro hcnt
    have := hone hcnt
    omega
  · intro k hk hrun
    have := hfirst k hrun
    omega

/-- No request of the kernel overruns its bitmap of virtual addresses. -/
def MemCall.Inside (c : MemCall) (m : Machine) : Prop :=
  match c with
  | .malloc .kernel cnt => ¬ Overruns m.kernelVaddr.vaddrBitmap cnt
  | .getKernel cnt => ¬ Overruns m.kernelVaddr.vaddrBitmap cnt
  | .execute _ => ∀ i, m.kernelVaddr.vaddrBitmap.scan 1 = .ok (some i) →
      ¬ Overruns (m.kernelVaddr.vaddrBitmap.set i true) 23
  | _ => True

theorem within_of_inside {c : MemCall} {m : Machine} (h : c.Inside m) : c.Within 0 m := by
  cases c with
  | malloc pf cnt =>
    cases pf with
    | kernel => exact reaches_of_not_overruns h
    | user => trivial
  | getKernel cnt => exact reaches_of_not_overruns h
  | execute task => exact fun i hi => reaches_of_not_overruns (h i hi)
  | getUser cnt => trivial
  | getA pf v => trivial
  | mfree pf v cnt => trivial
  | activate task => trivial

theorem not_strayPage {ram : PhysMem} (hram : ∀ a : Word, 0x101000 ≤ a.toNat → a.toNat < 0x200000 → ram a = 0) {n : ℕ}
    (hn : 0xc0100 ≤ n) (hn' : n < 0xffc00) : ¬ strayPage ram n := by
  have h := setupPage_table ram (i := n / 1024) (j := n % 1024) (by omega) (by omega) (by omega)
  have hnat := toNat_slot (aligned_kernelTable (n / 1024)) (i := n % 1024) (by omega)
  rw [toNat_kernelTable (by omega)] at hnat
  rw [if_neg (by omega), hram _ (by omega) (by omega)] at h
  rw [strayPage, not_not, kernelFrame, entryFrame_none, h]
  exact present_zero

theorem FrameInv.noStray {stray : ℕ → Prop} {slack : ℕ} {H : Use → Prop} {m : Machine} (inv : FrameInv stray slack H m)
    (h : ∀ n, 0xc0100 ≤ n → n < 0xffc00 → ¬ stray n) : FrameInv (fun _ => False) slack H m := by
  refine ⟨inv.shape, inv.near, inv.root, inv.low, inv.identity, inv.dirPage, inv.dirSpace, inv.dirOwn, inv.active, inv.mapped,
    inv.page, inv.heap, ?_, inv.inj, inv.taken, inv.user, inv.window⟩
  intro n f hn hn' hf
  rcases inv.strays n f hn hn' hf with hH | hstray
  · exact Or.inl hH
  · exact absurd hstray (h n hn hn')

/-- With the page tables clear at the start, in every run without an overrun and without stale translations no frame has two uses. -/
theorem frames_apart (ram : PhysMem) (beyond : ByteMemory.Memory) (allMem : ℕ)
    (hram : ∀ a : Word, 0x101000 ≤ a.toNat → a.toNat < 0x200000 → ram a = 0) (m : Machine) (L : Use → Prop)
    (h : MemRun (fun c m => c.Inside m ∧ c.Clean m) (memInit ram beyond allMem) m L) : FramesApart m := by
  obtain ⟨H, inv⟩ := runInv_run (fun c m hc => ⟨within_of_inside hc.1, hc.2⟩) (runInv_boot ram beyond allMem (by omega)) h
  exact framesApart_of_inv (inv.frames.noStray fun n hn hn' => not_strayPage hram hn hn')

theorem frames_apart_one_page : FramesApart (after (.malloc .kernel 1) (cleanBoot 16)) := by
  have hrun : (MemCall.malloc .kernel 1).run (cleanBoot 16) = .ok (some 0xc0100000#32, _) := run_after (by decide +kernel)
  have h : MemRun (fun c m => c.Inside m ∧ c.Clean m) (cleanBoot 16) (after (.malloc .kernel 1) (cleanBoot 16)) _ :=
    MemRun.call MemRun.boot (c := .malloc .kernel 1) trivial ⟨fun hover => hover.1 rfl, trivial, trivial⟩ hrun
  exact frames_apart (fun _ => 0) ByteMemory.zeros _ (fun _ _ _ => rfl) _ _ h

def kernelPages : ℕ → Machine
  | 0 => cleanBoot 16
  | k + 1 => after (.malloc .kernel 1) (kernelPages k)

theorem kernelPages_run (k : ℕ) (hk : k ≤ 8) :
    ∃ L, MemRun (fun _ _ => True) (cleanBoot 16) (kernelPages k) L ∧ ∀ j, j < k → L (.kpage (0xc0100 + j)) := by
  have hmalloc : ∀ k, k < 8 → runsTo (MemCall.malloc .kernel 1).run (kernelPages k)
      (fun r _ => decide (r = some (BitVec.ofNat 32 ((0xc0100 + k) * 4096)))) = true := by decide +kernel
  induction k with
  | zero => exact ⟨_, MemRun.boot, fun j hj => by omega⟩
  | succ k ih =>
    obtain ⟨L, h, hL⟩ := ih (by omega)
    refine ⟨_, MemRun.call h (c := .malloc .kernel 1) trivial trivial (run_after (hmalloc k (by omega))), ?_⟩
    intro j hj
    have hnat : (BitVec.ofNat 32 ((0xc0100 + k) * 4096)).toNat / 4096 = 0xc0100 + k := by
      rw [BitVec.toNat_ofNat]
      omega
    by_cases hlast : j = k
    · exact Or.inr ⟨0, by omega, by rw [hnat, hlast]; rfl⟩
    · exact Or.inl (hL j (by omega))

def holeAt5 : Machine := after (.mfree .kernel 0xc0105000#32 1) (kernelPages 8)

def holesAt5And7 : Machine := after (.mfree .kernel 0xc0107000#32 1) holeAt5

/-- With pages 5 and 7 of eight given back, a request for two pages gets page 7 and one its bitmap does not cover. -/
theorem frames_apart_past_bitmap : ∃ m L, MemRun (fun _ _ => True) (cleanBoot 16) m L ∧ ¬ FramesApart m := by
  obtain ⟨L, h, hL⟩ := kernelPages_run 8 (by omega)
  have hfree5 : (MemCall.mfree .kernel 0xc0105000#32 1).run (kernelPages 8) = .ok (none, holeAt5) :=
    run_after (by decide +kernel)
  have hfree7 : (MemCall.mfree .kernel 0xc0107000#32 1).run holeAt5 = .ok (none, holesAt5And7) :=
    run_after (by decide +kernel)
  have htwo : (MemCall.malloc .kernel 2).run holesAt5And7 = .ok (some 0xc0107000#32, _) := run_after (by decide +kernel)
  have howned5 : (MemCall.mfree .kernel 0xc0105000#32 1).Allowed L (kernelPages 8) := by
    intro j hj
    obtain rfl : j = 0 := by omega
    exact hL 5 (by omega)
  have h5 := MemRun.call h howned5 trivial hfree5
  have howned7 : (MemCall.mfree .kernel 0xc0107000#32 1).Allowed
      ((MemCall.mfree .kernel 0xc0105000#32 1).owned (kernelPages 8).cur none L) holeAt5 := by
    intro j hj
    obtain rfl : j = 0 := by omega
    refine ⟨hL 7 (by omega), ?_⟩
    intro i hi heq
    obtain rfl : i = 0 := by omega
    have hpage : Use.kpage 0xc0107 = .kpage 0xc0105 := heq
    simp at hpage
  have h7 := MemRun.call h5 howned7 trivial hfree7
  refine ⟨_, _, MemRun.call h7 (c := .malloc .kernel 2) trivial trivial htwo, ?_⟩
  intro happart
  have hmapped : ((Page.kernel 0xc0108).frameIn (after (.malloc .kernel 2) holesAt5And7)).isSome = true := by decide +kernel
  have hlen : (after (.malloc .kernel 2) holesAt5And7).kernelVaddr.vaddrBitmap.btmpBytesLen = 1 := by decide +kernel
  obtain ⟨f, hf⟩ := Option.isSome_iff_exists.mp hmapped
  obtain ⟨⟨hlt, -⟩, -⟩ := happart.marked (.kernel 0xc0108) f hf (by simp [Page.Allocated])
  rw [hlen] at hlt
  omega

end ElephantOS.Paging
