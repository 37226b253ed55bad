import ElephantOS.HeapRuns
import ElephantOS.PageRoundTrip

namespace ElephantOS

theorem Bitmap.scan_error {b : Bitmap} {cnt : ℕ} {e : Halt} (h : b.scan cnt = .error e) {i : ℕ} (hi : i < 8 * b.btmpBytesLen) :
    b.scanTest i = true := by
  have hone : b.scan 1 = .error e := by
    unfold scan at h ⊢
    simp only at h ⊢
    split_ifs at h ⊢ with hidx
    · exact h
  rcases b.scan_one with ⟨k, hk, -⟩ | ⟨-, hfull⟩
  · rw [hk] at hone
    cases hone
  · exact hfull i hi

namespace Paging

open HaltingState

def freeFrames (pf : Pool) (m : Machine) : ℕ :=
  ((Finset.range (8 * (poolOf pf m).poolBitmap.btmpBytesLen)).filter fun b => (poolOf pf m).poolBitmap.scanTest b = false).card

def missingTables (m : Machine) (n cnt : ℕ) : Finset ℕ :=
  ((Finset.Ico n (n + cnt)).image (· / 1024)).filter fun i => useFrame m (.table m.cur i) = none

section

variable {stray : ℕ → Prop} {slack : ℕ} {H : Use → Prop} {m m' : Machine} {pf : Pool}

theorem freeFrames_congr (h : poolOf pf m' = poolOf pf m) : freeFrames pf m' = freeFrames pf m := by
  rw [freeFrames, freeFrames, h]

theorem palloc_runs (h : 0 < freeFrames pf m) : ∃ f m', palloc pf m = .ok (some f, m') := by
  obtain ⟨b, hb⟩ := Finset.card_pos.mp h
  rw [Finset.mem_filter, Finset.mem_range] at hb
  rcases Bitmap.scan_one (poolOf pf m).poolBitmap with ⟨i, hscan, -⟩ | ⟨-, hfull⟩
  · rw [palloc, bind_eq (rfl : (get : MemM Machine) m = .ok (m, m))]
    simp only [hscan]
    exact ⟨_, _, rfl⟩
  · rw [hfull b hb.1] at hb
    cases hb.2

theorem freeFrames_palloc {r : Option Word} (h : palloc pf m = .ok (r, m')) :
    freeFrames pf m = freeFrames pf m' + 1 ∧ ∀ pf', pf' ≠ pf → freeFrames pf' m' = freeFrames pf' m := by
  obtain ⟨b, hb, hclear, rfl, -⟩ := palloc_ok h
  constructor
  · have hmem : b ∈ (Finset.range (8 * (poolOf pf m).poolBitmap.btmpBytesLen)).filter
        fun b => (poolOf pf m).poolBitmap.scanTest b = false := by
      rw [Finset.mem_filter, Finset.mem_range]
      exact ⟨hb, hclear⟩
    rw [freeFrames, freeFrames, ← Finset.card_erase_add_one hmem, poolOf_markFrame]
    congr 2
    ext k
    simp only [Finset.mem_erase, Finset.mem_filter, Finset.mem_range, Bitmap.set_len, Bitmap.scanTest_set]
    by_cases hk : k = b
    · simp [hk]
    · simp [hk]
  · intro pf' hne
    exact freeFrames_congr (poolOf_markFrame_other hne b true m)

theorem pageTableAdd_runs {v f p : Word} (hw : WindowCached m) (hs : KernelSpace m.mem m.cr3)
    (hp : entryFrame m.mem m.cr3 (v.toNat / 4096 / 1024) = some p) (hnone : entryFrame m.mem p (v.toNat / 4096 % 1024) = none) :
    pageTableAdd v f m = .ok ((), { m with mem := Function.update m.mem (slot p (v.toNat / 4096 % 1024)) (f ||| 7#32) }) := by
  have hpres : present (m.mem (slot m.cr3 (v.toNat / 4096 / 1024))) = true := (entryFrame_some.mp hp).1
  rw [pageTableAdd, bind_eq (load_eq (access_pde hw hs v)), if_pos hpres, bind_eq (load_eq (access_pte hw hs hp))]
  refine (bind_ok _ _ _ _).mpr ⟨(), _, (assert_ok _ _ _ _).mpr ⟨entryFrame_none.mp hnone, rfl⟩, ?_⟩
  rw [store_eq (access_pte hw hs hp)]

theorem mapPages_runs_kernel (cnt : ℕ) {v : Word} {H : Use → Prop} {m : Machine} (inv : FrameInv stray slack H m)
    (hn : 0xc0100 ≤ v.toNat / 4096) (hin : v.toNat / 4096 + cnt ≤ 0xc0100 + 8 * m.kernelVaddr.vaddrBitmap.btmpBytesLen + slack)
    (hbits : ∀ j < cnt, m.kernelVaddr.vaddrBitmap.scanTest (v.toNat / 4096 - 0xc0100 + j) = true)
    (hfree : ∀ j < cnt, kernelFrame m.mem (v.toNat / 4096 + j) = none) (hframes : cnt ≤ freeFrames .kernel m) :
    ∃ m', mapPages .kernel cnt v m = .ok (true, m') := by
  induction cnt generalizing v H m with
  | zero => exact ⟨m, rfl⟩
  | succ cnt ih =>
    have hend := inv.shape.heapEnd
    have hnear := inv.near
    obtain ⟨f, m₁, hpalloc⟩ := palloc_runs (show 0 < freeFrames .kernel m by omega)
    obtain ⟨hless, -⟩ := freeFrames_palloc hpalloc
    obtain ⟨_, hf', inv₁, hf, -, hmem₁, hsame₁, htaken₁⟩ := palloc_inv inv hpalloc
    obtain rfl := Option.some.inj hf'
    have hnone : kernelFrame m₁.mem (v.toNat / 4096) = none := by
      rw [hmem₁]
      simpa using hfree 0 (by omega)
    have hadd := pageTableAdd_runs (f := f) inv₁.window inv₁.cr3_space
      (inv₁.cr3_space.kernel (v.toNat / 4096 / 1024) (by omega) (by omega)) hnone
    have hbit := hbits 0 (by omega)
    rw [Nat.add_zero] at hbit
    obtain ⟨inv₂, hsame₂, hpool, -, -, hother, -⟩ := pageTableAdd_kernel inv₁ hn (by rw [hsame₁.kernelVaddr]; omega)
      (by rw [hsame₁.kernelVaddr]; exact hbit) hf ((htaken₁ .kernel f).mpr (Or.inr ⟨rfl, rfl⟩)) hadd
    have hsame := hsame₁.trans hsame₂
    have hnext := page_succ (v := v) (by omega)
    have hshift : ∀ j, v.toNat / 4096 + 1 + j = v.toNat / 4096 + (j + 1) := fun j => by omega
    rw [mapPages, bind_eq hpalloc]
    simp only
    rw [bind_eq hadd]
    apply ih inv₂
    · omega
    · rw [hsame.kernelVaddr]
      omega
    · intro j hj
      rw [hsame.kernelVaddr, hnext, show v.toNat / 4096 + 1 - 0xc0100 + j = v.toNat / 4096 - 0xc0100 + (j + 1) by omega]
      exact hbits (j + 1) (by omega)
    · intro j hj
      rw [hnext, hshift, hother _ (by omega) (by omega) (by omega), hmem₁]
      exact hfree (j + 1) (by omega)
    · rw [freeFrames_congr (hpool .kernel)]
      omega

theorem useFrame_table_cr3 (inv : FrameInv stray slack H m) {d : Word} (hd : dirOf m m.cur = some d) (i : ℕ) :
    useFrame m (.table m.cur i) = entryFrame m.mem m.cr3 i := by
  rw [cr3_eq inv hd]
  simp only [useFrame, hd, Option.bind_some]

theorem pageTableAdd_serves (inv : FrameInv stray slack H m) {v f d : Word} (hd : dirOf m m.cur = some d)
    (hn : v.toNat / 4096 < 0xc0000) (hnone : useFrame m (.upage m.cur (v.toNat / 4096)) = none)
    (htable : useFrame m (.table m.cur (v.toNat / 4096 / 1024)) = none → 0 < freeFrames .kernel m) :
    ∃ m', pageTableAdd v f m = .ok ((), m') ∧ freeFrames .user m' = freeFrames .user m ∧
      (useFrame m (.table m.cur (v.toNat / 4096 / 1024)) = none → freeFrames .kernel m = freeFrames .kernel m' + 1) ∧
      (useFrame m (.table m.cur (v.toNat / 4096 / 1024)) ≠ none → freeFrames .kernel m' = freeFrames .kernel m) := by
  have hcr3 := useFrame_table_cr3 inv hd (v.toNat / 4096 / 1024)
  cases hp : entryFrame m.mem m.cr3 (v.toNat / 4096 / 1024) with
  | some p =>
    rw [hp] at hcr3
    have hentry : entryFrame m.mem p (v.toNat / 4096 % 1024) = none := by
      rw [cr3_eq inv hd] at hp
      simpa only [useFrame, hd, hp, Option.bind_some] using hnone
    refine ⟨_, pageTableAdd_runs inv.window inv.cr3_space hp hentry, rfl, ?_, fun _ => rfl⟩
    intro h
    rw [hcr3] at h
    cases h
  | none =>
    rw [hp] at hcr3
    obtain ⟨g, m₁, hpalloc⟩ := palloc_runs (htable hcr3)
    obtain ⟨hless, hother⟩ := freeFrames_palloc hpalloc
    obtain ⟨m₃, rfl, -, -, -, -, hrun⟩ := pageTableAdd_missing (f := f) inv hd hn hp hpalloc
    exact ⟨_, hrun, hother .user (by simp), fun _ => hless, fun h => absurd hcr3 h⟩

theorem missingTables_next {n cnt : ℕ} (hcur : m'.cur = m.cur) (hmade : useFrame m' (.table m.cur (n / 1024)) ≠ none)
    (hother : ∀ i < 768, i ≠ n / 1024 → useFrame m' (.table m.cur i) = useFrame m (.table m.cur i)) (hend : n + (cnt + 1) ≤ 0xc0000) :
    missingTables m' (n + 1) cnt ⊆ (missingTables m n (cnt + 1)).erase (n / 1024) := by
  intro i hi
  rw [missingTables, Finset.mem_filter, Finset.mem_image] at hi
  obtain ⟨⟨k, hk, rfl⟩, hnone⟩ := hi
  rw [Finset.mem_Ico] at hk
  rw [hcur] at hnone
  have hne : k / 1024 ≠ n / 1024 := by
    intro heq
    rw [heq] at hnone
    exact hmade hnone
  rw [hother _ (by omega) hne] at hnone
  rw [Finset.mem_erase, missingTables, Finset.mem_filter, Finset.mem_image]
  exact ⟨hne, ⟨k, Finset.mem_Ico.mpr ⟨by omega, by omega⟩, rfl⟩, hnone⟩

theorem mem_missingTables {n cnt : ℕ} (h : useFrame m (.table m.cur (n / 1024)) = none) : n / 1024 ∈ missingTables m n (cnt + 1) := by
  rw [missingTables, Finset.mem_filter, Finset.mem_image]
  exact ⟨⟨n, Finset.mem_Ico.mpr ⟨by omega, by omega⟩, rfl⟩, h⟩

theorem mapPages_runs_user (cnt : ℕ) {v w : Word} {H : Use → Prop} {m : Machine} (inv : FrameInv stray slack H m)
    (hw : m.pgdir m.cur = some w) (hlo : 0x8048 ≤ v.toNat / 4096) (hend : v.toNat / 4096 + cnt ≤ 0xc0000)
    (hbits : ∀ j < cnt, (m.userVaddr m.cur).vaddrBitmap.scanTest (v.toNat / 4096 - 0x8048 + j) = true)
    (hfree : ∀ j < cnt, useFrame m (.upage m.cur (v.toNat / 4096 + j)) = none) (hframes : cnt ≤ freeFrames .user m)
    (htables : (missingTables m (v.toNat / 4096) cnt).card ≤ freeFrames .kernel m) :
    ∃ m', mapPages .user cnt v m = .ok (true, m') := by
  induction cnt generalizing v H m with
  | zero => exact ⟨m, rfl⟩
  | succ cnt ih =>
    obtain ⟨f, m₁, hpalloc⟩ := palloc_runs (show 0 < freeFrames .user m by omega)
    obtain ⟨hless, hkept⟩ := freeFrames_palloc hpalloc
    have hkernel := hkept .kernel (by simp)
    obtain ⟨_, hf', inv₁, hf, -, hmem₁, hsame₁, htaken₁⟩ := palloc_inv inv hpalloc
    obtain rfl := Option.some.inj hf'
    have huse : ∀ u, useFrame m₁ u = useFrame m u := fun u => FrameInv.useFrame_same hmem₁ hsame₁.pgdir u
    have hw₁ : m₁.pgdir m₁.cur = some w := by rw [hsame₁.pgdir, hsame₁.cur]; exact hw
    obtain ⟨d, hd, -⟩ := inv₁.dir_some hw₁
    have hnone : useFrame m₁ (.upage m₁.cur (v.toNat / 4096)) = none := by
      rw [huse, hsame₁.cur]
      simpa using hfree 0 (by omega)
    have htab : useFrame m₁ (.table m₁.cur (v.toNat / 4096 / 1024)) = useFrame m (.table m.cur (v.toNat / 4096 / 1024)) := by
      rw [huse, hsame₁.cur]
    obtain ⟨m₂, hadd, huser₂, hmade, hthere⟩ := pageTableAdd_serves (f := f) inv₁ hd (by omega) hnone (by
      intro h
      rw [htab] at h
      have hmem : _ ∈ missingTables m (v.toNat / 4096) (cnt + 1) := mem_missingTables h
      have := Finset.card_pos.mpr ⟨_, hmem⟩
      omega)
    rw [htab] at hmade hthere
    have hbit := hbits 0 (by omega)
    rw [Nat.add_zero] at hbit
    obtain ⟨inv₂, hsame₂, -, hother, -⟩ := pageTableAdd_user inv₁ hd (by omega) hlo
      (by rw [hsame₁.userVaddr, hsame₁.cur]; exact hbit) hf ((htaken₁ .user f).mpr (Or.inr ⟨rfl, rfl⟩)) hadd
    have hsame := hsame₁.trans hsame₂
    have hnext := page_succ (v := v) (by omega)
    have hshift : ∀ j, v.toNat / 4096 + 1 + j = v.toNat / 4096 + (j + 1) := fun j => by omega
    -- the table of the page just mapped is there
    have hpresent : useFrame m₂ (.table m.cur (v.toNat / 4096 / 1024)) ≠ none := by
      obtain ⟨g, hg⟩ := inv₂.mapped (.upage m₁.cur (v.toNat / 4096)) (by rw [Function.update_self]; trivial)
      obtain ⟨p, hp, -⟩ := useFrame_upage.mp hg
      rw [← hsame₁.cur, hp]
      simp
    have hsub : missingTables m₂ (v.toNat / 4096 + 1) cnt ⊆ _ := missingTables_next hsame.cur hpresent (by
      intro i hi hne
      rw [hother (.table m.cur i) hi (by simp) (by simpa [hsame₁.cur] using hne), huse]) hend
    have hcard := Finset.card_le_card hsub
    rw [mapPages, bind_eq hpalloc]
    simp only
    rw [bind_eq hadd]
    apply ih inv₂
    · rw [hsame.pgdir, hsame.cur]
      exact hw
    · omega
    · omega
    · intro j hj
      rw [hsame.userVaddr, hsame.cur, hnext,
        show v.toNat / 4096 + 1 - 0x8048 + j = v.toNat / 4096 - 0x8048 + (j + 1) by omega]
      exact hbits (j + 1) (by omega)
    · intro j hj
      have hvalid : (Use.upage m.cur (v.toNat / 4096 + (j + 1))).Valid := show v.toNat / 4096 + (j + 1) < 0xc0000 by omega
      have hne : Use.upage m.cur (v.toNat / 4096 + (j + 1)) ≠ .upage m₁.cur (v.toNat / 4096) := by
        intro heq
        rw [Use.upage.injEq] at heq
        omega
      rw [hnext, hshift, hsame.cur, hother _ hvalid hne (by simp), huse]
      exact hfree (j + 1) (by omega)
    · omega
    · rw [hnext]
      by_cases hmiss : useFrame m (.table m.cur (v.toNat / 4096 / 1024)) = none
      · have hgone := hmade hmiss
        rw [Finset.card_erase_of_mem (mem_missingTables hmiss)] at hcard
        omega
      · have hstay := hthere hmiss
        have hle : ((missingTables m (v.toNat / 4096) (cnt + 1)).erase (v.toNat / 4096 / 1024)).card ≤ _ := Finset.card_erase_le
        omega

end

/-- What `malloc_page` needs for `cnt` pages: few enough of them, a free virtual page to begin the search with, and for the run
it finds, if any, room below the stack of the process, frames for the pages and for new tables, and no entry left from boot. -/
structure Servable (pf : Pool) (cnt : ℕ) (m : Machine) : Prop where
  few : cnt < 3840
  vacant : ∃ i < 8 * (vaddrOf pf m).vaddrBitmap.btmpBytesLen, (vaddrOf pf m).vaddrBitmap.scanTest i = false
  below : ∀ i, (vaddrOf pf m).vaddrBitmap.scan cnt = .ok (some i) → pf = .user →
    userVaddrStart + i * 4096 < 0xc0000000 - 4096 ∧ basePage .user + i + cnt ≤ 0xc0000
  frames : ∀ i, (vaddrOf pf m).vaddrBitmap.scan cnt = .ok (some i) → cnt ≤ freeFrames pf m
  tables : ∀ i, (vaddrOf pf m).vaddrBitmap.scan cnt = .ok (some i) → pf = .user →
    (missingTables m (basePage .user + i) cnt).card ≤ freeFrames .kernel m
  clear : ∀ i, (vaddrOf pf m).vaddrBitmap.scan cnt = .ok (some i) → pf = .kernel →
    ∀ j < cnt, kernelFrame m.mem (basePage .kernel + i + j) = none

section

variable {stray : ℕ → Prop} {H : Use → Prop} {m : Machine} {pf : Pool} {cnt : ℕ}

theorem markPages_pools (pf : Pool) (i : ℕ) (value : Bool) (cnt : ℕ) (m : Machine) (pf' : Pool) :
    poolOf pf' (markPages pf i value cnt m) = poolOf pf' m := by
  cases pf <;> cases pf' <;> rfl

theorem mapPages_serves_kernel (inv : FrameInv stray 1 H m) (hs : Servable .kernel cnt m) (hpos : 0 < cnt) {i : ℕ}
    (hscan : m.kernelVaddr.vaddrBitmap.scan cnt = .ok (some i)) :
    ∃ m', mapPages .kernel cnt (BitVec.ofNat 32 (0xc0100000 + i * 4096)) (markPages .kernel i true cnt m) = .ok (true, m') := by
  obtain ⟨-, hle, -, -⟩ := Bitmap.scan_some _ hpos hscan
  have hend := inv.shape.heapEnd
  have hv : (BitVec.ofNat 32 (0xc0100000 + i * 4096)).toNat = 0xc0100000 + i * 4096 := by
    rw [BitVec.toNat_ofNat]
    omega
  have hpage : (BitVec.ofNat 32 (0xc0100000 + i * 4096)).toNat / 4096 = 0xc0100 + i := by omega
  have hprocs := markPages_procs .kernel i true cnt m
  apply mapPages_runs_kernel cnt (markPages_inv inv .kernel i cnt)
  · omega
  · rw [hpage, hprocs.kernelLen]
    omega
  · intro j hj
    rw [hpage, Nat.add_sub_cancel_left]
    simp only [markPages, setVaddr, vaddrOf, scanTest_setBits]
    rw [if_pos (by omega)]
  · intro j hj
    rw [hpage, markPages_mem]
    exact hs.clear i hscan rfl j hj
  · rw [freeFrames_congr (markPages_pools _ _ _ _ _ _)]
    exact hs.frames i hscan

theorem mapPages_serves_user (inv : FrameInv stray 1 H m) (hs : Servable .user cnt m) (hpos : 0 < cnt) {w : Word}
    (hw : m.pgdir m.cur = some w) {i : ℕ} (hscan : (m.userVaddr m.cur).vaddrBitmap.scan cnt = .ok (some i)) :
    ∃ m', mapPages .user cnt (BitVec.ofNat 32 (0x8048000 + i * 4096)) (markPages .user i true cnt m) = .ok (true, m') := by
  obtain ⟨hfree, -, -, -⟩ := Bitmap.scan_some _ hpos hscan
  obtain ⟨hlow, hlast⟩ := hs.below i hscan rfl
  simp only [userVaddrStart] at hlow
  simp only [basePage] at hlast
  have hv : (BitVec.ofNat 32 (0x8048000 + i * 4096)).toNat = 0x8048000 + i * 4096 := by
    rw [BitVec.toNat_ofNat]
    omega
  have hpage : (BitVec.ofNat 32 (0x8048000 + i * 4096)).toNat / 4096 = 0x8048 + i := by omega
  have hprocs := markPages_procs .user i true cnt m
  have huse : ∀ u, useFrame (markPages .user i true cnt m) u = useFrame m u :=
    fun u => FrameInv.useFrame_same (markPages_mem .user i true cnt m) hprocs.pgdir u
  apply mapPages_runs_user cnt (markPages_inv inv .user i cnt)
  · rw [hprocs.pgdir, hprocs.cur]
    exact hw
  · omega
  · omega
  · intro j hj
    rw [hpage, Nat.add_sub_cancel_left]
    simp only [markPages, setVaddr, vaddrOf, Function.update_self, scanTest_setBits]
    rw [if_pos (by omega)]
  · intro j hj
    rw [hpage, hprocs.cur, huse]
    -- a page that is mapped has its bit set
    cases hf : useFrame m (.upage m.cur (0x8048 + i + j)) with
    | none => rfl
    | some f =>
      have hbit := (inv.user m.cur _ f (by omega) hf).2
      rw [show 0x8048 + i + j - 0x8048 = i + j by omega, hfree j hj] at hbit
      cases hbit
  · rw [freeFrames_congr (markPages_pools _ _ _ _ _ _)]
    exact hs.frames i hscan
  · have htables := hs.tables i hscan rfl
    rw [freeFrames_congr (markPages_pools _ _ _ _ _ _), hpage]
    have hsame : missingTables (markPages .user i true cnt m) (0x8048 + i) cnt = missingTables m (0x8048 + i) cnt := by
      simp only [missingTables, huse, hprocs.cur]
    rw [hsame]
    exact htables

theorem mallocPage_serves (inv : FrameInv stray 1 H m)
    (hthread : m.pgdir m.cur = none → (m.userVaddr m.cur).vaddrBitmap.btmpBytesLen = 0) (hpos : 0 < cnt) (hs : Servable pf cnt m) :
    ∃ r m', mallocPage pf cnt m = .ok (r, m') := by
  have hassert : (assert (0 < cnt ∧ cnt < 3840) : MemM Unit) m = .ok ((), m) := (assert_ok _ _ _ _).mpr ⟨⟨hpos, hs.few⟩, rfl⟩
  rw [mallocPage, bind_eq hassert]
  cases hscan : (vaddrOf pf m).vaddrBitmap.scan cnt with
  | error e =>
    obtain ⟨i, hi, hclear⟩ := hs.vacant
    rw [Bitmap.scan_error hscan hi] at hclear
    cases hclear
  | ok o =>
    cases o with
    | none =>
      have hget : vaddrGet pf cnt m = .ok (none, m) := by
        rw [vaddrGet, bind_eq (rfl : (get : MemM Machine) m = .ok (m, m))]
        simp only [hscan]
        rfl
      rw [bind_eq hget]
      exact ⟨none, m, rfl⟩
    | some i =>
      cases pf with
      | kernel =>
        have hstart : (vaddrOf .kernel m).vaddrStart = 0xc0100000 := inv.shape.heapStart
        have hget : vaddrGet .kernel cnt m =
            .ok (some (BitVec.ofNat 32 ((vaddrOf .kernel m).vaddrStart + i * 4096)), markPages .kernel i true cnt m) := by
          rw [vaddrGet, bind_eq (rfl : (get : MemM Machine) m = .ok (m, m))]
          simp only [hscan]
          rfl
        rw [hstart] at hget
        obtain ⟨m', hmap⟩ := mapPages_serves_kernel inv hs hpos hscan
        rw [bind_eq hget]
        simp only
        rw [bind_eq hmap]
        exact ⟨_, m', rfl⟩
      | user =>
        obtain ⟨w, hw⟩ := scan_process hthread hpos hscan
        have hstart : (vaddrOf .user m).vaddrStart = 0x8048000 := (inv.shape.task m.cur w hw).1
        have hlow : (vaddrOf .user m).vaddrStart + i * 4096 < 0xc0000000 - 4096 := by
          rw [hstart]
          exact (hs.below i hscan rfl).1
        have hget : vaddrGet .user cnt m =
            .ok (some (BitVec.ofNat 32 ((vaddrOf .user m).vaddrStart + i * 4096)), markPages .user i true cnt m) := by
          rw [vaddrGet, bind_eq (rfl : (get : MemM Machine) m = .ok (m, m))]
          simp only [hscan, if_true]
          refine (bind_ok _ _ _ _).mpr ⟨⟨⟩, _, rfl, (bind_ok _ _ _ _).mpr ⟨(), _, (assert_ok _ _ _ _).mpr ⟨hlow, rfl⟩, rfl⟩⟩
        rw [hstart] at hget
        obtain ⟨m', hmap⟩ := mapPages_serves_user inv hs hpos hw hscan
        rw [bind_eq hget]
        simp only
        rw [bind_eq hmap]
        exact ⟨_, m', rfl⟩

end

theorem pagesFor_pos {size cnt : ℕ} {h h' : Heap} (hp : pagesFor size h = .ok (some cnt, h')) : 0 < cnt := by
  rw [pagesFor, bind_eq (rfl : (get : HeapM Heap) h = .ok (h, h))] at hp
  split_ifs at hp with hsize hlarge
  · simp only [pure_ok, Option.some.injEq] at hp
    omega
  · obtain ⟨empty, h₁, -, hp⟩ := (bind_ok _ _ _ _).mp hp
    simp only [pure_ok] at hp
    cases empty with
    | false => simp at hp
    | true =>
      simp only [if_true, Option.some.injEq] at hp
      omega
  · simp at hp

/-- A call with what it needs returns `NULL` or a block of its own, clear and apart from all others. -/
theorem sysMalloc_returns (ram : PhysMem) (beyond : ByteMemory.Memory) (allMem : ℕ) (start h : Heap) (L : Use → Prop)
    (live : List (Word × ℕ)) (hboot : MemRun MemCall.Clean (memInit ram beyond allMem) start.machine L)
    (hrun : HeapRun MallocUnstale start h live) (size : ℕ) (hcached : MallocUnstale size h)
    (hserve : ∀ cnt, pagesFor size h = .ok (some cnt, h) → Servable h.pool cnt h.machine) :
    ∃ r h', sysMalloc size h = .ok (r, h') ∧ ∀ p, r = some p → Zeroed h' p size ∧ BlocksApart h' ((p, size) :: live) := by
  obtain ⟨H, inv⟩ := runInv_clean hboot
  obtain ⟨A, F, W, hinv⟩ := heapInv_run inv hrun
  rcases hinv.sysMalloc size hcached with ⟨e, cnt, -, hpages, herr⟩ | hnone | ⟨p, h', A', F', W', hok, -⟩
  · obtain ⟨stray, H', inv', -⟩ := hinv.words.space.frames
    have hs := hserve cnt hpages
    rw [hinv.words.pool] at hs
    obtain ⟨r, m', hmalloc⟩ := mallocPage_serves inv' hinv.words.space.thread (pagesFor_pos hpages) hs
    rw [page, hmalloc] at herr
    cases herr
  · exact ⟨none, h, hnone, by simp⟩
  · refine ⟨some p, h', hok, ?_⟩
    rintro _ ⟨⟩
    exact hinv.returned hcached hok

theorem freshHeap_serves : Servable .kernel 1 freshHeap.machine := by
  have hbit : (vaddrOf .kernel freshHeap.machine).vaddrBitmap.scanTest 0 = false := by decide +kernel
  have hlen : 0 < 8 * (vaddrOf .kernel freshHeap.machine).vaddrBitmap.btmpBytesLen := by decide +kernel
  have hframe : (poolOf .kernel freshHeap.machine).poolBitmap.scanTest 0 = false := by decide +kernel
  have hpool : 0 < 8 * (poolOf .kernel freshHeap.machine).poolBitmap.btmpBytesLen := by decide +kernel
  have hclear : kernelFrame freshHeap.machine.mem 0xc0100 = none := by decide +kernel
  refine ⟨by omega, ⟨0, hlen, hbit⟩, by simp, ?_, by simp, ?_⟩
  · intro i _
    exact Finset.card_pos.mpr ⟨0, Finset.mem_filter.mpr ⟨Finset.mem_range.mpr hpool, hframe⟩⟩
  · intro i hscan _ j hj
    obtain ⟨-, -, -, hfirst⟩ := Bitmap.scan_some _ (show 0 < 1 by omega) hscan
    have hi := hfirst 0 (by
      intro k hk
      obtain rfl : k = 0 := by omega
      exact hbit)
    obtain rfl : i = 0 := by omega
    obtain rfl : j = 0 := by omega
    exact hclear

theorem freshHeap_run : HeapRun MallocUnstale bootHeap freshHeap [] := HeapRun.init (heapAfter_eq (by decide +kernel))

theorem sysMalloc_returns_block : ∃ r h', sysMalloc 2000 freshHeap = .ok (r, h') ∧
    ∀ p, r = some p → Zeroed h' p 2000 ∧ BlocksApart h' [(p, 2000)] := by
  refine sysMalloc_returns (fun _ => 0) ByteMemory.zeros _ bootHeap freshHeap _ [] MemRun.boot freshHeap_run 2000
    (mallocUnstale_of_runsTo (by decide +kernel)) ?_
  intro cnt hcnt
  have hpages : runsTo (pagesFor 2000) freshHeap (fun r _ => decide (r = some 1)) = true := by decide +kernel
  have hone := heapAfter_eq hpages
  rw [hcnt] at hone
  simp only [Except.ok.injEq, Prod.mk.injEq, Option.some.injEq] at hone
  rw [hone.1]
  have hkernel : freshHeap.pool = .kernel := by decide +kernel
  rw [hkernel]
  exact freshHeap_serves

def bootHeap32 : Heap :=
  ⟨memInit (fun _ => 0) ByteMemory.zeros 0x2000000, imageDescs, fun _ => firstPageDescs, fun _ => 0⟩

def freshHeap32 : Heap := heapAfter (blockDescInit bootHeap32.descs) bootHeap32

/-- One byte less than the pool takes one page more than the pool has. -/
theorem sysMalloc_pool_size : ¬ ∀ (ram : PhysMem) (beyond : ByteMemory.Memory) (allMem : ℕ) (start h : Heap) (L : Use → Prop)
    (live : List (Word × ℕ)), MemRun (fun _ _ => True) (memInit ram beyond allMem) start.machine L →
    HeapRun (fun _ _ => True) start h live →
    ∀ size < 2 ^ 32, ∃ r h', sysMalloc size h = .ok (r, h') := by
  intro hall
  have hinit : blockDescInit bootHeap32.descs bootHeap32 = .ok ((), freshHeap32) := heapAfter_eq (by decide +kernel)
  obtain ⟨r, h', hcall⟩ := hall (fun _ => 0) ByteMemory.zeros 0x2000000 bootHeap32 freshHeap32 _ [] MemRun.boot (HeapRun.init hinit)
    15728639 (by omega)
  have hhalts : runsTo (sysMalloc 15728639) freshHeap32 (fun _ _ => true) = false := by decide +kernel
  rw [runsTo, hcall] at hhalts
  cases hhalts

end Paging

end ElephantOS
