import ElephantOS.ProcessSpace

namespace ElephantOS.Paging

open HaltingState

inductive MemCall
  | malloc (pf : Pool) (cnt : ℕ)
  | getKernel (cnt : ℕ)
  | getUser (cnt : ℕ)
  | getA (pf : Pool) (v : Word)
  | mfree (pf : Pool) (v : Word) (cnt : ℕ)
  | execute (task : ℕ)
  | activate (task : ℕ)

namespace MemCall

def run : MemCall → MemM (Option Word)
  | .malloc pf cnt => mallocPage pf cnt
  | .getKernel cnt => getKernelPages cnt
  | .getUser cnt => getUserPages cnt
  | .getA pf v => getAPage pf v
  | .mfree pf v cnt => do
    mfreePage pf v cnt
    return none
  | .execute task => do
    processExecute task
    return none
  | .activate task => do
    pageDirActivate task
    return none

def owned (c : MemCall) (t : ℕ) (r : Option Word) (L : Use → Prop) : Use → Prop :=
  match c, r with
  | .malloc pf cnt, some v => grant L (pageOf pf t) (v.toNat / 4096) cnt
  | .getKernel cnt, some v => grant L (pageOf .kernel t) (v.toNat / 4096) cnt
  | .getUser cnt, some v => grant L (pageOf .user t) (v.toNat / 4096) cnt
  | .getA pf _, some v => grant L (pageOf pf t) (v.toNat / 4096) 1
  | .mfree pf v cnt, _ => revoke L (pageOf pf t) (v.toNat / 4096) cnt
  | _, _ => L

/-- What the callers see to: `mfree_page` is given a range that was allocated, and a new process is not yet running. -/
def Allowed (c : MemCall) (L : Use → Prop) (m : Machine) : Prop :=
  match c with
  | .mfree pf v cnt => ∀ j, j < cnt → L (pageOf pf m.cur (v.toNat / 4096 + j))
  | .execute task => m.pgdir task = none ∧ task ≠ m.cur
  | _ => True

def Covered (c : MemCall) (m : Machine) : Prop :=
  match c with
  | .getA pf v => basePage pf ≤ v.toNat / 4096 ∧
      (pf = .kernel → v.toNat / 4096 < 0xc0100 + 8 * m.kernelVaddr.vaddrBitmap.btmpBytesLen) ∧
      (pf = .user → v.toNat / 4096 < 0xc0000)
  | _ => True

/-- No page that the call clears is still cached with another frame than the one it gets. -/
def Unstale (c : MemCall) (m : Machine) : Prop :=
  match c with
  | .getKernel cnt => Paging.Unstale m .kernel m.kernelVaddr.vaddrBitmap 0 cnt
  | .getUser cnt => Paging.Unstale m .user (m.userVaddr m.cur).vaddrBitmap 0 cnt
  | .execute _ => TaskUnstale m m.kernelVaddr.vaddrBitmap
  | _ => True

def Clean (c : MemCall) (m : Machine) : Prop := c.Covered m ∧ c.Unstale m

end MemCall

def Machine.cache (m : Machine) (v p : Word) : Machine := { m with tlb := Function.update m.tlb (v.toNat / 4096) (some (frame p)) }

def Machine.evict (m : Machine) (n : ℕ) : Machine := { m with tlb := Function.update m.tlb n none }

/-- The runs whose calls all satisfy `ok`, with the pages allocated and not given back. In between the processor caches and drops
translations as it likes. -/
inductive MemRun (ok : MemCall → Machine → Prop) (start : Machine) : Machine → (Use → Prop) → Prop
  | boot : MemRun ok start start fun _ => False
  | call {m m' : Machine} {L : Use → Prop} {c : MemCall} {r : Option Word} :
      MemRun ok start m L → c.Allowed L m → ok c m → c.run m = .ok (r, m') → MemRun ok start m' (c.owned m.cur r L)
  | cache {m : Machine} {L : Use → Prop} {v p : Word} :
      MemRun ok start m L → walk m.mem m.cr3 v = some p → MemRun ok start (m.cache v p) L
  | evict {m : Machine} {L : Use → Prop} {n : ℕ} : MemRun ok start m L → MemRun ok start (m.evict n) L

def MemCall.Within (slack : ℕ) (c : MemCall) (m : Machine) : Prop :=
  match c with
  | .malloc .kernel cnt => Reaches slack cnt m.kernelVaddr.vaddrBitmap
  | .getKernel cnt => Reaches slack cnt m.kernelVaddr.vaddrBitmap
  | .execute _ => ∀ i, m.kernelVaddr.vaddrBitmap.scan 1 = .ok (some i) →
      Reaches slack 23 (setBits m.kernelVaddr.vaddrBitmap i true 1)
  | _ => True

/-- The invariant of the runs. -/
structure RunInv (stray : ℕ → Prop) (slack : ℕ) (m : Machine) (L H : Use → Prop) : Prop where
  frames : FrameInv stray slack H m
  owned : ∀ u, L u → H u
  data : ∀ u t v, L u → m.pgdir t = some v → u ≠ .kpage (v.toNat / 4096)
  thread : ∀ t, m.pgdir t = none → (m.userVaddr t).vaddrBitmap.btmpBytesLen = 0

section

variable {stray : ℕ → Prop} {slack : ℕ} {m m' : Machine} {L H : Use → Prop}

theorem RunInv.granted (inv : RunInv stray slack m L H) {page : ℕ → Use} {n cnt : ℕ} (hp : SameProcs m m')
    (hinv : FrameInv stray slack (grant H page n cnt) m')
    (hdata : ∀ j t v, j < cnt → m.pgdir t = some v → page (n + j) ≠ .kpage (v.toNat / 4096)) :
    RunInv stray slack m' (grant L page n cnt) (grant H page n cnt) := by
  refine ⟨hinv, ?_, ?_, ?_⟩
  · rintro u (hu | hnew)
    · exact Or.inl (inv.owned u hu)
    · exact Or.inr hnew
  · intro u t v hu hv
    rw [hp.pgdir] at hv
    rcases hu with hu | ⟨j, hj, rfl⟩
    · exact inv.data u t v hu hv
    · exact hdata j t v hj hv
  · intro t ht
    rw [hp.pgdir] at ht
    rw [hp.len]
    exact inv.thread t ht

theorem sameTasks_marked {pf : Pool} {i cnt : ℕ} {value : Bool} (h : SameTasks (markPages pf i value cnt m) m') :
    SameProcs m m' :=
  (markPages_procs pf i value cnt m).trans h.procs

theorem runInv_malloc (inv : RunInv stray slack m L H) {pf : Pool} {cnt : ℕ} {r : Option Word}
    (hin : (MemCall.malloc pf cnt).Within slack m) (h : mallocPage pf cnt m = .ok (r, m')) :
    ∃ H', RunInv stray slack m' ((MemCall.malloc pf cnt).owned m.cur r L) H' := by
  cases pf with
  | kernel =>
    rcases mallocPage_kernel inv.frames hin h with ⟨rfl, rfl, -⟩ | ⟨v, i, rfl, -, -, -, -, -, hinv, hsame, hmap, -⟩
    · exact ⟨H, inv⟩
    · refine ⟨_, inv.granted (sameTasks_marked hsame) hinv ?_⟩
      intro j t w hj hw heq
      rw [pageOf, Use.kpage.injEq] at heq
      exact not_dirPage inv.frames (hmap.unmapped j hj) hw heq.symm
  | user =>
    rcases mallocPage_user inv.frames (inv.thread m.cur) h with ⟨rfl, rfl⟩ | ⟨v, rfl, -, -, -, -, hinv, hprocs, -⟩
    · exact ⟨H, inv⟩
    · exact ⟨_, inv.granted hprocs hinv (by simp [pageOf])⟩

theorem runInv_step (inv : RunInv stray slack m L H) {c : MemCall} {r : Option Word} (hc : c.Allowed L m)
    (hclean : c.Clean m) (hin : c.Within slack m) (h : c.run m = .ok (r, m')) :
    ∃ H', RunInv stray slack m' (c.owned m.cur r L) H' := by
  obtain ⟨hcov, hcached⟩ := hclean
  cases c with
  | malloc pf cnt => exact runInv_malloc inv hin h
  | getKernel cnt =>
    rcases getKernelPages_inv inv.frames hin hcached h with ⟨rfl, rfl, -⟩ | ⟨v, i, rfl, -, -, -, hinv, hsame, hnone, -, -, -⟩
    · exact ⟨H, inv⟩
    · refine ⟨_, inv.granted (sameTasks_marked hsame) hinv ?_⟩
      intro j t w hj hw heq
      rw [pageOf, Use.kpage.injEq] at heq
      exact not_dirPage inv.frames (hnone j hj) hw heq.symm
  | getUser cnt =>
    obtain ⟨v, rfl, hinv, hprocs⟩ := getUserPages_inv inv.frames hcached (inv.thread m.cur) h
    exact ⟨_, inv.granted hprocs hinv (by simp [pageOf])⟩
  | getA pf v =>
    obtain ⟨rfl, hinv, hprocs, hdata⟩ := getAPage_inv inv.frames hcov.1 hcov.2.1 hcov.2.2 h
    refine ⟨_, inv.granted hprocs hinv ?_⟩
    intro j t w hj hw
    rw [show v.toNat / 4096 + j = v.toNat / 4096 by omega]
    exact hdata t w hw
  | mfree pf v cnt =>
    simp only [MemCall.run, bind_ok, pure_ok] at h
    obtain ⟨_, m₁, hfree, rfl, rfl⟩ := h
    obtain ⟨hinv, -, -, m₂, hsame, rfl, -⟩ := mfreePage_inv inv.frames (fun j hj => inv.owned _ (hc j hj))
      (fun j t w hj hw => inv.data _ t w (hc j hj) hw) hfree
    have hprocs := hsame.procs.trans (markPages_procs pf (v.toNat / 4096 - basePage pf) false cnt m₂)
    refine ⟨_, hinv, ?_, ?_, ?_⟩
    · intro u hu
      exact ⟨inv.owned u hu.1, hu.2⟩
    · intro u t w hu hw
      rw [hprocs.pgdir] at hw
      exact inv.data u t w hu.1 hw
    · intro t ht
      rw [hprocs.pgdir] at ht
      rw [hprocs.len]
      exact inv.thread t ht
  | execute task =>
    simp only [MemCall.run, bind_ok, pure_ok] at h
    obtain ⟨_, m₁, hexec, rfl, rfl⟩ := h
    obtain ⟨H', v, hinv, hH, hpg, -, huser⟩ := processExecute_inv inv.frames hc.1 hc.2 hin hcached hexec
    refine ⟨H', hinv, ?_, ?_, ?_⟩
    · intro u hu
      exact (hH u (inv.owned u hu)).1
    · intro u t w hu hw
      rw [hpg] at hw
      by_cases ht : t = task
      · subst ht
        rw [Function.update_self, Option.some.injEq] at hw
        subst hw
        exact (hH u (inv.owned u hu)).2
      · rw [Function.update_of_ne ht] at hw
        exact inv.data u t w hu hw
    · intro t ht
      rw [hpg] at ht
      have hne : t ≠ task := by
        rintro rfl
        rw [Function.update_self] at ht
        cases ht
      rw [Function.update_of_ne hne] at ht
      rw [huser t hne]
      exact inv.thread t ht
  | activate task =>
    simp only [MemCall.run, bind_ok, pure_ok] at h
    obtain ⟨_, m₁, hact, rfl, rfl⟩ := h
    obtain ⟨hinv, -, hpg, huser⟩ := pageDirActivate_inv inv.frames hact
    refine ⟨H, hinv, inv.owned, ?_, ?_⟩
    · rw [hpg]
      exact inv.data
    · rw [hpg, huser]
      exact inv.thread

theorem FrameInv.retlb (inv : FrameInv stray slack H m) {tlb : ℕ → Option Word} (hw : WindowCached { m with tlb := tlb }) :
    FrameInv stray slack H { m with tlb := tlb } :=
  ⟨⟨inv.shape.kernelStart, inv.shape.kernelEnd, inv.shape.userStart, inv.shape.userEnd, inv.shape.heapStart, inv.shape.heapEnd,
    inv.shape.task⟩, inv.near, inv.root, inv.low, inv.identity, inv.dirPage, inv.dirSpace, inv.dirOwn, inv.active, inv.mapped,
    inv.page, inv.heap, inv.strays, inv.inj, inv.taken, inv.user, hw⟩

theorem FrameInv.cache (inv : FrameInv stray slack H m) {v p : Word} (hwalk : walk m.mem m.cr3 v = some p) :
    FrameInv stray slack H (m.cache v p) := by
  apply inv.retlb
  intro i f hi hf
  change Function.update m.tlb (v.toNat / 4096) (some (frame p)) (0xffc00 + i) = some f at hf
  by_cases hpage : 0xffc00 + i = v.toNat / 4096
  · have hself : entryFrame m.mem m.cr3 (v.toNat / 4096 / 1024) = some m.cr3 := by
      rw [show v.toNat / 4096 / 1024 = 1023 by omega]
      exact inv.cr3_space.self
    rw [walk_eq inv.cr3_space.aligned, hself, Option.bind_some, Option.map_eq_some_iff] at hwalk
    obtain ⟨g, hg, rfl⟩ := hwalk
    rw [hpage, Function.update_self, Option.some.injEq, frame_add_offset (entryFrame_aligned hg)] at hf
    rw [← hf, show i = v.toNat / 4096 % 1024 by omega]
    exact hg
  · rw [Function.update_of_ne hpage] at hf
    exact inv.window i f hi hf

theorem FrameInv.evict (inv : FrameInv stray slack H m) (n : ℕ) : FrameInv stray slack H (m.evict n) := by
  apply inv.retlb
  intro i f hi hf
  change Function.update m.tlb n none (0xffc00 + i) = some f at hf
  by_cases hpage : 0xffc00 + i = n
  · rw [hpage, Function.update_self] at hf
    cases hf
  · rw [Function.update_of_ne hpage] at hf
    exact inv.window i f hi hf

def MemCall.Fit (slack : ℕ) (c : MemCall) (m : Machine) : Prop := c.Within slack m ∧ c.Clean m

theorem reaches_slack (cnt : ℕ) (b : Bitmap) : Reaches 1 cnt b := by
  intro hpos i hi
  exact (b.scan_some hpos hi).2.1

theorem within_slack (c : MemCall) (m : Machine) : c.Within 1 m := by
  cases c with
  | malloc pf cnt =>
    cases pf with
    | kernel => exact reaches_slack _ _
    | user => trivial
  | getKernel cnt => exact reaches_slack _ _
  | execute task => exact fun i _ => reaches_slack _ _
  | getUser cnt => trivial
  | getA pf v => trivial
  | mfree pf v cnt => trivial
  | activate task => trivial

theorem runInv_run {ok : MemCall → Machine → Prop} {start : Machine} (hok : ∀ c m, ok c m → c.Fit slack m)
    (hstart : RunInv stray slack start (fun _ => False) fun _ => False) (h : MemRun ok start m L) :
    ∃ H, RunInv stray slack m L H := by
  induction h with
  | boot => exact ⟨_, hstart⟩
  | call _ hc hokc hrun ih =>
    obtain ⟨H, inv⟩ := ih
    obtain ⟨hin, hclean⟩ := hok _ _ hokc
    exact runInv_step inv hc hclean hin hrun
  | cache _ hwalk ih =>
    obtain ⟨H, inv⟩ := ih
    exact ⟨H, inv.frames.cache hwalk, inv.owned, inv.data, inv.thread⟩
  | evict _ ih =>
    obtain ⟨H, inv⟩ := ih
    exact ⟨H, inv.frames.evict _, inv.owned, inv.data, inv.thread⟩

end

theorem present_iff (w : Word) : present w = true ↔ w.toNat % 2 = 1 := by
  rw [present, BitVec.getLsbD, Nat.testBit_zero, decide_eq_true_iff]

theorem entryFrame_ofNat {mem : PhysMem} {f : Word} {i k : ℕ} (hk : k < 2 ^ 32) (hodd : k % 2 = 1)
    (h : entry mem f i = BitVec.ofNat 32 k) : entryFrame mem f i = some (BitVec.ofNat 32 (k / 4096 * 4096)) := by
  have hnat : (BitVec.ofNat 32 k).toNat = k := by
    rw [BitVec.toNat_ofNat, Nat.mod_eq_of_lt hk]
  apply entryFrame_some.mpr
  rw [h]
  constructor
  · rw [present_iff, hnat]
    exact hodd
  · apply BitVec.eq_of_toNat_eq
    rw [toNat_frame, hnat, BitVec.toNat_ofNat]
    omega

theorem setupPage_dir (ram : PhysMem) {i : ℕ} (hi : i < 1024) : entry (setupPage ram) kernelDir i =
    if i = 0 ∨ i = 768 then 0x101007#32
    else if 769 ≤ i ∧ i < 1023 then BitVec.ofNat 32 (0x102007 + (i - 769) * 4096)
    else if i = 1023 then 0x100007#32 else 0 := by
  have hnat := toNat_slot aligned_kernelDir hi
  rw [show kernelDir.toNat = 0x100000 from rfl] at hnat
  have hpage : (slot kernelDir i).toNat / 4096 = 0x100 := by omega
  have hmod : (slot kernelDir i).toNat % 4 = 0 := by omega
  have hidx : (slot kernelDir i).toNat % 4096 / 4 = i := by omega
  simp only [entry, setupPage, hpage, hmod, hidx, if_true, ne_eq, not_true_eq_false, if_false]
  rfl

theorem setupPage_table (ram : PhysMem) {i j : ℕ} (hi : 768 ≤ i) (hi' : i < 1023) (hj : j < 1024) :
    entry (setupPage ram) (kernelTable i) j =
      if i = 768 ∧ j < 256 then BitVec.ofNat 32 (j * 4096 + 7) else ram (slot (kernelTable i) j) := by
  have hnat := toNat_slot (aligned_kernelTable i) hj
  rw [toNat_kernelTable hi'] at hnat
  have hpage : (slot (kernelTable i) j).toNat / 4096 = 0x101 + (i - 768) := by omega
  have hne : ¬ (slot (kernelTable i) j).toNat / 4096 = 0x100 := by omega
  have hmod : (slot (kernelTable i) j).toNat % 4 = 0 := by omega
  have hidx : (slot (kernelTable i) j).toNat % 4096 / 4 = j := by omega
  simp only [entry, setupPage]
  rw [if_neg hne, hmod, hidx, hpage]
  by_cases hc : i = 768 ∧ j < 256
  · rw [if_pos hc, if_pos ⟨by omega, rfl, hc.2⟩]
  · rw [if_neg hc, if_neg (fun h => hc ⟨by omega, h.2.2⟩)]

theorem kernelSpace_boot (ram : PhysMem) : KernelSpace (setupPage ram) kernelDir := by
  refine ⟨aligned_kernelDir, ?_, ?_⟩
  · intro i hi hi'
    have h := setupPage_dir ram (i := i) (by omega)
    by_cases h768 : i = 768
    · rw [if_pos (Or.inr h768)] at h
      rw [entryFrame_ofNat (k := 0x101007) (by omega) (by omega) h, kernelTable, h768]
    · rw [if_neg (by omega), if_pos (by omega)] at h
      have hk : (0x102007 + (i - 769) * 4096) / 4096 * 4096 = 0x101000 + (i - 768) * 4096 := by omega
      rw [entryFrame_ofNat (by omega) (by omega) h, kernelTable, hk]
  · have h := setupPage_dir ram (i := 1023) (by omega)
    exact entryFrame_ofNat (k := 0x100007) (by omega) (by omega) h

def strayPage (ram : PhysMem) (n : ℕ) : Prop := kernelFrame (setupPage ram) n ≠ none

theorem runInv_boot (ram : PhysMem) (beyond : ByteMemory.Memory) (allMem : ℕ) {slack : ℕ} (hslack : slack ≤ 1) :
    RunInv (strayPage ram) slack (memInit ram beyond allMem) (fun _ => False) fun _ => False := by
  have hpages : u32 (allMem + 2 ^ 32 - (4096 * 256 + 0x100000)) / 4096 % 2 ^ 16 < 65536 := Nat.mod_lt _ (by omega)
  have hdir : ∀ t, dirOf (memInit ram beyond allMem) t = none := fun t => rfl
  have hlive : ∀ u f, Live (fun _ => False) u → useFrame (memInit ram beyond allMem) u ≠ some f := by
    intro u f hu
    cases u with
    | kpage n => exact absurd hu id
    | table t i => simp [useFrame, hdir]
    | upage t n => simp [useFrame, hdir]
  refine ⟨?_, fun _ h => h.elim, fun _ _ _ h => h.elim, fun _ _ => rfl⟩
  refine ⟨⟨rfl, ?_, ?_, ?_, rfl, ?_, fun t v hv => ?_⟩, hslack, kernelSpace_boot ram, ?_, ?_, fun t v hv => ?_, fun t d hd => ?_,
    fun t t' v v' hv => ?_, rfl, fun u hu => hu.elim, fun u hu => hu.elim, fun n hn => hn.elim, ?_,
    fun u u' f hu _ hf => absurd hf (hlive u f hu), fun u f hu hf => absurd hf (hlive u f hu), fun t n f hn hf => ?_, fun i f hi hf => ?_⟩
  · simp only [memInit]
    omega
  · simp only [memInit]
    omega
  · simp only [memInit]
    omega
  · simp only [memInit]
    omega
  · cases hv
  · intro j hj
    have h := setupPage_table ram (i := 768) (j := j) (by omega) (by omega) (by omega)
    rw [if_pos ⟨rfl, hj⟩] at h
    have hk : (j * 4096 + 7) / 4096 * 4096 = j * 4096 := by omega
    rw [show (memInit ram beyond allMem).mem = setupPage ram from rfl, entryFrame_ofNat (by omega) (by omega) h, hk]
  · intro i hi
    have h := setupPage_dir ram (i := i) (by omega)
    by_cases hzero : i = 0
    · rw [if_pos (Or.inl hzero)] at h
      rw [if_pos hzero]
      exact entryFrame_ofNat (k := 0x101007) (by omega) (by omega) h
    · rw [if_neg (by omega), if_neg (by omega), if_neg (by omega)] at h
      rw [if_neg hzero]
      apply entryFrame_none.mpr
      rw [show (memInit ram beyond allMem).mem = setupPage ram from rfl, h]
      exact present_zero
  · cases hv
  · rw [hdir] at hd
    cases hd
  · cases hv
  · intro n f hn hn' hf
    right
    unfold strayPage
    rw [show kernelFrame (setupPage ram) n = some f from hf]
    simp
  · exact absurd hf (hlive (.upage t n) f hn)
  · cases hf

theorem runInv_clean {ram : PhysMem} {beyond : ByteMemory.Memory} {allMem : ℕ} {m : Machine} {L : Use → Prop}
    (h : MemRun MemCall.Clean (memInit ram beyond allMem) m L) : ∃ H, RunInv (strayPage ram) 1 m L H :=
  runInv_run (fun c m hclean => ⟨within_slack c m, hclean⟩) (runInv_boot ram beyond allMem (le_refl 1)) h

end ElephantOS.Paging
