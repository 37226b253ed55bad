import ElephantOS.FramesApart

namespace ElephantOS

theorem Bitmap.eq_of_scanTest {b b' : Bitmap} (hlen : b.btmpBytesLen = b'.btmpBytesLen)
    (h : ∀ i, b.scanTest i = b'.scanTest i) : b = b' := by
  have hbits : b.bits = b'.bits := by
    funext k
    apply UInt8.toBitVec_inj.mp
    apply BitVec.eq_of_getLsbD_eq
    intro i hi
    have hbit := h (8 * k + i)
    rw [scanTest_eq, scanTest_eq] at hbit
    rwa [show (8 * k + i) / 8 = k by omega, show (8 * k + i) % 8 = i by omega] at hbit
  cases b
  cases b'
  simp_all

namespace Paging

open HaltingState

def pageSlot (m : Machine) (n : ℕ) : Option Word := (entryFrame m.mem m.cr3 (n / 1024)).map fun p => slot p (n % 1024)

section

variable {stray : ℕ → Prop} {slack : ℕ} {H : Use → Prop} {m m₁ m' : Machine} {pf : Pool} {value : Bool} {n cnt : ℕ}

structure Switched (value : Bool) (pf : Pool) (n cnt : ℕ) (b : ℕ → ℕ) (m m' : Machine) : Prop where
  bits : ∀ k, (poolOf pf m').poolBitmap.scanTest k = if ∃ j < cnt, b j = k then value else (poolOf pf m).poolBitmap.scanTest k
  len : (poolOf pf m').poolBitmap.btmpBytesLen = (poolOf pf m).poolBitmap.btmpBytesLen
  place : (poolOf pf m').phyAddrStart = (poolOf pf m).phyAddrStart ∧ (poolOf pf m').poolSize = (poolOf pf m).poolSize
  other : ∀ pf', pf' ≠ pf → poolOf pf' m' = poolOf pf' m
  tables : ∀ i, i < 1024 → entryFrame m'.mem m'.cr3 i = entryFrame m.mem m.cr3 i
  entries : ∀ a, (∀ j < cnt, pageSlot m (n + j) ≠ some a) → m'.mem a = m.mem a

theorem Switched.refl (value : Bool) (pf : Pool) (n : ℕ) (b : ℕ → ℕ) (m : Machine) : Switched value pf n 0 b m m where
  bits k := by simp
  len := rfl
  place := ⟨rfl, rfl⟩
  other _ _ := rfl
  tables _ _ := rfl
  entries _ _ := rfl

theorem cr3_ne_table (inv : FrameInv stray slack H m) {p : Word} (hn : n < 0xffc00) (hlow : pf = .user → n < 0xc0000)
    (htab : tableOf m pf n p) : m.cr3 ≠ p := by
  have hdir : m.cr3 = kernelDir ∨ ∃ t, dirOf m t = some m.cr3 := by
    rw [inv.active]
    cases hd : dirOf m m.cur with
    | none => exact Or.inl rfl
    | some d => exact Or.inr ⟨m.cur, by rw [hd]; rfl⟩
  cases pf with
  | kernel =>
    obtain rfl : p = kernelTable (n / 1024) := htab
    exact inv.dir_ne_kernelTable hdir (by omega)
  | user =>
    have hlt := hlow rfl
    exact inv.table_ne_dir (by omega) htab hdir

theorem table_aligned (inv : FrameInv stray slack H m) {p : Word} (hlow : pf = .user → n < 0xc0000) (htab : tableOf m pf n p) :
    Aligned p := by
  cases pf with
  | kernel =>
    obtain rfl : p = kernelTable (n / 1024) := htab
    exact aligned_kernelTable _
  | user =>
    have hlt := hlow rfl
    exact taken_aligned inv.shape (inv.table_taken (by omega) htab)

theorem Switched.cons (inv : FrameInv stray slack H m) (hn : n + cnt < 0xffc00) (hlow : pf = .user → n < 0xc0000)
    {b₀ : ℕ} {b : ℕ → ℕ} (hfirst : Switches value pf n b₀ m m₁) (hcr3 : m₁.cr3 = m.cr3) (hrest : Switched value pf (n + 1) cnt b m₁ m') :
    Switched value pf n (cnt + 1) (fun j => j.casesOn b₀ b) m m' := by
  obtain ⟨-, hpool, p, w, hp, htab, hmem⟩ := hfirst
  have hpa := table_aligned inv hlow htab
  have htables : ∀ i, i < 1024 → entryFrame m₁.mem m₁.cr3 i = entryFrame m.mem m.cr3 i := by
    intro i hi
    rw [hcr3]
    apply entryFrame_congr
    rw [hmem, entry_update hpa inv.cr3_space.aligned (by omega) hi, if_neg (fun h => cr3_ne_table inv (by omega) hlow htab h.1)]
  have hpf : poolOf pf m₁ = { poolOf pf m with poolBitmap := (poolOf pf m).poolBitmap.set b₀ value } :=
    (hpool pf).trans (poolOf_markFrame _ _ _ _)
  refine ⟨?_, ?_, ?_, ?_, ?_, ?_⟩
  · intro k
    rw [hrest.bits k, hpf, Bitmap.scanTest_set]
    by_cases hk : ∃ j < cnt, b j = k
    · obtain ⟨j, hj, hjk⟩ := hk
      rw [if_pos ⟨j, hj, hjk⟩, if_pos ⟨j + 1, by omega, hjk⟩]
    · rw [if_neg hk]
      by_cases hk₀ : k = b₀
      · rw [if_pos hk₀, if_pos ⟨0, by omega, hk₀.symm⟩]
      · rw [if_neg hk₀, if_neg]
        rintro ⟨j, hj, hjk⟩
        cases j with
        | zero => exact hk₀ hjk.symm
        | succ j => exact hk ⟨j, by omega, hjk⟩
  · rw [hrest.len, hpf, Bitmap.set_len]
  · rw [hrest.place.1, hrest.place.2, hpf]
    exact ⟨rfl, rfl⟩
  · intro pf' hne
    rw [hrest.other pf' hne, hpool, poolOf_markFrame_other hne]
  · intro i hi
    rw [hrest.tables i hi, htables i hi]
  · intro a ha
    have hslot : a ≠ slot p (n % 1024) := by
      rintro rfl
      exact ha 0 (by omega) (by rw [Nat.add_zero, pageSlot, hp]; rfl)
    rw [hrest.entries a, hmem, Function.update_of_ne hslot]
    intro j hj
    have hlater := ha (j + 1) (by omega)
    rw [pageSlot, htables _ (by omega), show n + 1 + j = n + (j + 1) by omega]
    exact hlater

structure Reserved (slack : ℕ) (pf : Pool) (n cnt : ℕ) (m : Machine) : Prop where
  base : basePage pf ≤ n
  kernelEnd : pf = .kernel → n + cnt ≤ 0xc0100 + 8 * m.kernelVaddr.vaddrBitmap.btmpBytesLen + slack
  userEnd : pf = .user → n + cnt ≤ 0xc0000 ∧ ∃ w, m.pgdir m.cur = some w
  bits : ∀ j < cnt, (vaddrOf pf m).vaddrBitmap.scanTest (n - basePage pf + j) = true
  tables : ∀ j < cnt, ∃ p, entryFrame m.mem m.cr3 ((n + j) / 1024) = some p

theorem Reserved.end_le (hr : Reserved slack pf n cnt m) (inv : FrameInv stray slack H m) : n + cnt ≤ 0xffc00 := by
  cases pf with
  | kernel =>
    have hend := hr.kernelEnd rfl
    have hheap := inv.shape.heapEnd
    have hnear := inv.near
    omega
  | user =>
    have hend := (hr.userEnd rfl).1
    omega

theorem mapPages_reserved {v : Word} {ok : Bool} (inv : FrameInv stray slack H m) (hr : Reserved slack pf (v.toNat / 4096) cnt m)
    (h : mapPages pf cnt v m = .ok (ok, m')) :
    FrameInv stray slack (grant H (pageOf pf m.cur) (v.toNat / 4096) cnt) m' ∧ SameTasks m m' ∧ Keeps H m m' ∧
      ∀ j t w, j < cnt → m.pgdir t = some w → pageOf pf m.cur (v.toNat / 4096 + j) ≠ .kpage (w.toNat / 4096) := by
  cases pf with
  | kernel =>
    obtain ⟨-, hinv, hsame, hmapped, hkeeps⟩ := mapPages_kernel cnt inv hr.base (hr.kernelEnd rfl) hr.bits h
    refine ⟨hinv, hsame, hkeeps, ?_⟩
    intro j t w hj hw heq
    rw [pageOf, Use.kpage.injEq] at heq
    exact not_dirPage inv (hmapped.unmapped j hj) hw heq.symm
  | user =>
    obtain ⟨hend, w, hw⟩ := hr.userEnd rfl
    obtain ⟨-, hinv, hsame, -, hkeeps, -⟩ := mapPages_user cnt inv hw hr.base (by omega) hr.bits h
    exact ⟨hinv, hsame, hkeeps, fun j t w _ _ heq => by cases heq⟩

theorem vaddrOf_same (hsame : SameTasks m m') (pf : Pool) : vaddrOf pf m' = vaddrOf pf m := by
  cases pf with
  | kernel => exact hsame.kernelVaddr
  | user => simp only [vaddrOf, hsame.userVaddr, hsame.cur]

theorem Reserved.table (hr : Reserved slack pf n (cnt + 1) m) (inv : FrameInv stray slack H m) :
    ∃ p, entryFrame m.mem m.cr3 (n / 1024) = some p ∧ tableOf m pf n p := by
  obtain ⟨p, hp⟩ := hr.tables 0 (by omega)
  rw [Nat.add_zero] at hp
  refine ⟨p, hp, ?_⟩
  have hend := hr.end_le inv
  have hbase := hr.base
  cases pf with
  | kernel =>
    simp only [basePage] at hbase
    rw [inv.cr3_space.kernel _ (by omega) (by omega), Option.some.injEq] at hp
    exact hp.symm
  | user =>
    obtain ⟨-, w, hw⟩ := hr.userEnd rfl
    obtain ⟨d, hd, -⟩ := inv.dir_some hw
    exact useFrame_table.mpr ⟨d, hd, by rw [← cr3_eq inv hd]; exact hp⟩

theorem mapPages_first {v f : Word} {u : Unit} {m₂ : Machine} (inv : FrameInv stray slack H m)
    (hr : Reserved slack pf (v.toNat / 4096) (cnt + 1) m) (hpalloc : palloc pf m = .ok (some f, m₁))
    (hadd : pageTableAdd v f m₁ = .ok (u, m₂)) :
    FrameInv stray slack (Function.update H (pageOf pf m.cur (v.toNat / 4096)) True) m₂ ∧ SameTasks m m₂ ∧
      useFrame m₂ (pageOf pf m.cur (v.toNat / 4096)) = some f ∧
      (∀ t w, m.pgdir t = some w → pageOf pf m.cur (v.toNat / 4096) ≠ .kpage (w.toNat / 4096)) ∧
      ∃ b, f = BitVec.ofNat 32 (b * 4096 + (poolOf pf m).phyAddrStart) ∧ (poolOf pf m).poolBitmap.scanTest b = false ∧
        Switches true pf (v.toNat / 4096) b m m₂ := by
  obtain ⟨_, hf', inv₁, hfresh, -, hmem₁, hsame₁, htaken₁⟩ := palloc_inv inv hpalloc
  obtain rfl := Option.some.inj hf'
  have hft : Taken m₁ pf f := (htaken₁ pf f).mpr (Or.inr ⟨rfl, rfl⟩)
  obtain ⟨b, hb, hclear, hm₁, hfb, -⟩ := palloc_ok hpalloc
  have hend := hr.end_le inv
  have hbase := hr.base
  obtain ⟨p, hp, htab⟩ := hr.table inv
  have hpa := table_aligned inv (fun hpf => by have := (hr.userEnd hpf).1; omega) htab
  have hne := cr3_ne_table inv (by omega) (fun hpf => by have := (hr.userEnd hpf).1; omega) htab
  have hp₁ : entryFrame m₁.mem m₁.cr3 (v.toNat / 4096 / 1024) = some p := by
    rw [hmem₁, hsame₁.cr3]
    exact hp
  obtain ⟨hnone, hm₂⟩ := pageTableAdd_present inv₁.window inv₁.cr3_space hp₁ hadd
  have hbit : (vaddrOf pf m₁).vaddrBitmap.scanTest (v.toNat / 4096 - basePage pf) = true := by
    have h := hr.bits 0 (by omega)
    rw [Nat.add_zero] at h
    rw [vaddrOf_same hsame₁]
    exact h
  have hstep : FrameInv stray slack (Function.update H (pageOf pf m.cur (v.toNat / 4096)) True) m₂ ∧ SameTasks m₁ m₂ := by
    cases pf with
    | kernel =>
      have hlast := hr.kernelEnd rfl
      obtain ⟨hinv, hsame, -⟩ := pageTableAdd_kernel inv₁ hbase (by rw [hsame₁.kernelVaddr]; omega) hbit hfresh hft hadd
      exact ⟨hinv, hsame⟩
    | user =>
      obtain ⟨hlast, w, hw⟩ := hr.userEnd rfl
      have hw₁ : m₁.pgdir m₁.cur = some w := by rw [hsame₁.pgdir, hsame₁.cur]; exact hw
      obtain ⟨d, hd, -⟩ := inv₁.dir_some hw₁
      obtain ⟨hinv, hsame, -⟩ := pageTableAdd_user inv₁ hd (by omega) hbase hbit hfresh hft hadd
      rw [hsame₁.cur] at hinv
      exact ⟨hinv, hsame⟩
  obtain ⟨inv₂, hsame₂⟩ := hstep
  have hsame := hsame₁.trans hsame₂
  have hmem : m₂.mem = Function.update m.mem (slot p (v.toNat / 4096 % 1024)) (f ||| 7#32) := by
    rw [hm₂, ← hmem₁]
  refine ⟨inv₂, hsame, ?_, ?_, b, Option.some.inj hfb, hclear, hb, ?_, p, _, hp, htab, hmem⟩
  · have hH : Function.update H (pageOf pf m.cur (v.toNat / 4096)) True (pageOf pf m₂.cur (v.toNat / 4096)) := by
      rw [hsame.cur, Function.update_self]
      trivial
    obtain ⟨g, hg⟩ := inv₂.mapped _ hH
    obtain ⟨q, hq, hqg, -⟩ := page_table inv₂ hH hg
    rw [hsame.cr3, hmem, entryFrame_congr (entry_update hpa inv.cr3_space.aligned (by omega) (by omega) |>.trans
      (if_neg fun h => hne h.1)), hp, Option.some.injEq] at hq
    subst hq
    rw [hmem, rewrites_map hpa (by omega) hfresh.1 p _ hpa (by omega), if_pos ⟨rfl, rfl⟩] at hqg
    rw [← hsame.cur, hg, hqg]
  · intro t w hw heq
    cases pf with
    | kernel =>
      rw [pageOf, Use.kpage.injEq] at heq
      obtain rfl : p = kernelTable (v.toNat / 4096 / 1024) := htab
      rw [hmem₁] at hnone
      exact not_dirPage inv hnone hw heq.symm
    | user => cases heq
  · intro pf'
    rw [hm₂, hm₁]
    cases pf <;> cases pf' <;> rfl

theorem Reserved.tail {v : Word} {m₂ : Machine} (hr : Reserved slack pf (v.toNat / 4096) (cnt + 1) m) (inv : FrameInv stray slack H m)
    {b : ℕ} (hs : Switches value pf (v.toNat / 4096) b m m₂) (hsame : SameTasks m m₂) :
    Reserved slack pf ((v + 0x1000#32).toNat / 4096) cnt m₂ := by
  have hend := hr.end_le inv
  have hnext := page_succ (v := v) (by omega)
  obtain ⟨-, -, p, w, hp, htab, hmem⟩ := hs
  have hlow : pf = .user → v.toNat / 4096 < 0xc0000 := fun hpf => by
    have := (hr.userEnd hpf).1
    omega
  refine ⟨?_, ?_, ?_, ?_, ?_⟩
  · have := hr.base
    omega
  · intro hpf
    have := hr.kernelEnd hpf
    rw [hsame.kernelVaddr]
    omega
  · intro hpf
    obtain ⟨hlast, w, hw⟩ := hr.userEnd hpf
    exact ⟨by omega, w, by rw [hsame.pgdir, hsame.cur]; exact hw⟩
  · intro j hj
    have hbase := hr.base
    have h := hr.bits (j + 1) (by omega)
    rw [hnext, show v.toNat / 4096 + 1 - basePage pf + j = v.toNat / 4096 - basePage pf + (j + 1) by omega]
    rw [vaddrOf_same hsame]
    exact h
  · intro j hj
    obtain ⟨q, hq⟩ := hr.tables (j + 1) (by omega)
    refine ⟨q, ?_⟩
    rw [hnext, hsame.cr3, ← hq, show v.toNat / 4096 + 1 + j = v.toNat / 4096 + (j + 1) by omega]
    apply entryFrame_congr
    rw [hmem, entry_update (table_aligned inv hlow htab) inv.cr3_space.aligned (by omega) (by omega),
      if_neg (fun h => cr3_ne_table inv (by omega) hlow htab h.1)]

theorem mapPages_switched (cnt : ℕ) {v : Word} {H : Use → Prop} {m m' : Machine} {ok : Bool} (inv : FrameInv stray slack H m)
    (hr : Reserved slack pf (v.toNat / 4096) cnt m) (h : mapPages pf cnt v m = .ok (ok, m')) :
    ∃ b, Switched true pf (v.toNat / 4096) cnt b m m' ∧ ∀ j < cnt, b j < 8 * (poolOf pf m).poolBitmap.btmpBytesLen ∧
      (poolOf pf m).poolBitmap.scanTest (b j) = false ∧
      useFrame m' (pageOf pf m.cur (v.toNat / 4096 + j)) = some (BitVec.ofNat 32 (b j * 4096 + (poolOf pf m).phyAddrStart)) := by
  induction cnt generalizing v H m with
  | zero =>
    simp only [mapPages, pure_ok] at h
    obtain ⟨-, rfl⟩ := h
    exact ⟨fun _ => 0, Switched.refl _ _ _ _ _, fun j hj => by omega⟩
  | succ cnt ih =>
    simp only [mapPages, bind_ok] at h
    obtain ⟨r, m₁, hpalloc, h⟩ := h
    obtain ⟨f, rfl, -⟩ := palloc_inv inv hpalloc
    simp only [bind_ok] at h
    obtain ⟨_, m₂, hadd, h⟩ := h
    obtain ⟨inv₂, hsame, huse, hdir, b₀, hfb, hclear, hswitch⟩ := mapPages_first inv hr hpalloc hadd
    have hr₂ := hr.tail inv hswitch hsame
    have hend := hr.end_le inv
    have hnext := page_succ (v := v) (by omega)
    obtain ⟨b, hrest, hpages⟩ := ih inv₂ hr₂ h
    obtain ⟨-, -, hkeeps, -⟩ := mapPages_reserved inv₂ hr₂ h
    have hpool : poolOf pf m₂ = _ := (hswitch.2.1 pf).trans (poolOf_markFrame pf b₀ true m)
    rw [hnext] at hrest
    refine ⟨_, Switched.cons inv (by omega) (fun hpf => by have := (hr.userEnd hpf).1; omega) hswitch hsame.cr3 hrest, ?_⟩
    intro j hj
    cases j with
    | zero =>
      refine ⟨hswitch.1, hclear, ?_⟩
      obtain ⟨hkept, -⟩ := hkeeps (pageOf pf m.cur (v.toNat / 4096)) f (by rw [Function.update_self]; trivial)
        (by rw [hsame.pgdir]; exact hdir) huse
      rw [Nat.add_zero]
      exact hkept.trans (congrArg some hfb)
    | succ j =>
      obtain ⟨hlt, hfree, hframe⟩ := hpages j (by omega)
      rw [hpool] at hlt hfree hframe
      simp only [Bitmap.set_len] at hlt
      rw [Bitmap.scanTest_set] at hfree
      rw [hnext, hsame.cur, show v.toNat / 4096 + 1 + j = v.toNat / 4096 + (j + 1) by omega] at hframe
      refine ⟨hlt, ?_, hframe⟩
      by_cases hbj : b j = b₀
      · rw [if_pos hbj] at hfree
        cases hfree
      · rwa [if_neg hbj] at hfree

theorem freePages_switched (cnt : ℕ) {v : Word} {H : Use → Prop} {m m' : Machine} {b : ℕ → ℕ} {x : Unit}
    (inv : FrameInv stray slack H m) (hv : v.toNat % 4096 = 0) (hend : v.toNat / 4096 + cnt ≤ 0xffc00)
    (hlow : pf = .user → v.toNat / 4096 + cnt ≤ 0xc0000)
    (hH : ∀ j < cnt, H (pageOf pf m.cur (v.toNat / 4096 + j)))
    (hdir : ∀ j t w, j < cnt → m.pgdir t = some w → pageOf pf m.cur (v.toNat / 4096 + j) ≠ .kpage (w.toNat / 4096))
    (hb : ∀ j < cnt, b j < 8 * (poolOf pf m).poolBitmap.btmpBytesLen ∧
      useFrame m (pageOf pf m.cur (v.toNat / 4096 + j)) = some (BitVec.ofNat 32 (b j * 4096 + (poolOf pf m).phyAddrStart)))
    (h : freePages pf cnt v m = .ok (x, m')) : Switched false pf (v.toNat / 4096) cnt b m m' := by
  induction cnt generalizing v H m b with
  | zero =>
    simp only [freePages, pure_ok, true_and] at h
    subst h
    exact Switched.refl _ _ _ _ _
  | succ cnt ih =>
    have hne : ∀ j, j < cnt → pageOf pf m.cur (v.toNat / 4096 + (j + 1)) ≠ pageOf pf m.cur (v.toNat / 4096) := by
      intro j hj heq
      have := pageOf_inj heq
      omega
    obtain ⟨m₁, f, hf, inv₁, hsame₁, -, hkeep₁, -, -, ⟨b₀, hfb, hswitch⟩, hturn⟩ := freePages_step inv hv
      (by simpa using hH 0 (by omega)) (by simpa using fun t w => hdir 0 t w (by omega))
    rw [hturn] at h
    have hnext := page_succ (v := v) (by omega)
    have hshift : ∀ j, v.toNat / 4096 + 1 + j = v.toNat / 4096 + (j + 1) := fun j => by omega
    -- the frame of the first page is that of `b 0`
    have hfirst : b₀ = b 0 := by
      obtain ⟨hlt, hframe⟩ := hb 0 (by omega)
      rw [Nat.add_zero, hf, hfb, Option.some.injEq] at hframe
      exact frameAddr_inj inv.shape pf hswitch.1 hlt hframe
    have hpool : poolOf pf m₁ = _ := (hswitch.2.1 pf).trans (poolOf_markFrame pf b₀ false m)
    have hrest := ih (b := fun j => b (j + 1)) inv₁ (by
      rw [BitVec.toNat_add, BitVec.toNat_ofNat]
      omega) (by omega) (by
      intro hpf
      have := hlow hpf
      omega) (by
      intro j hj
      rw [hnext, hsame₁.cur, hshift, Function.update_of_ne (hne j hj)]
      exact hH (j + 1) (by omega)) (by
      intro j t w hj hw
      rw [hnext, hsame₁.cur, hshift]
      rw [hsame₁.pgdir] at hw
      exact hdir (j + 1) t w (by omega) hw) (by
      intro j hj
      obtain ⟨hlt, hframe⟩ := hb (j + 1) (by omega)
      rw [hnext, hsame₁.cur, hshift, hkeep₁ _ (inv.valid (inv.page _ (hH (j + 1) (by omega))).1) (hne j hj), hpool]
      exact ⟨by simpa only [Bitmap.set_len] using hlt, hframe⟩) h
    rw [hnext] at hrest
    have hall := Switched.cons inv (by omega) (fun hpf => by have := hlow hpf; omega) hswitch hsame₁.cr3 hrest
    have hcons : (fun j => j.casesOn b₀ fun j => b (j + 1) : ℕ → ℕ) = b := by
      funext j
      cases j with
      | zero => exact hfirst
      | succ j => rfl
    rwa [hcons] at hall

end

/-- `m'` is `m` again but for the entries of `cnt` pages from `v` on, which are not present. -/
structure Restored (v : Word) (cnt : ℕ) (m m' : Machine) : Prop where
  kernelVaddr : m'.kernelVaddr = m.kernelVaddr
  userVaddr : m'.userVaddr = m.userVaddr
  pools : ∀ pf, poolOf pf m' = poolOf pf m
  gone : ∀ a : Word, v.toNat / 4096 ≤ a.toNat / 4096 → a.toNat / 4096 < v.toNat / 4096 + cnt → walk m'.mem m'.cr3 a = none
  entries : ∀ a, (∀ j < cnt, pageSlot m (v.toNat / 4096 + j) ≠ some a) → m'.mem a = m.mem a

section

variable {stray : ℕ → Prop} {slack : ℕ} {H : Use → Prop} {m m₁ m' : Machine} {pf : Pool} {n cnt : ℕ}

theorem Switched.undo {b : ℕ → ℕ} (hset : Switched true pf n cnt b m m₁) (hclear : Switched false pf n cnt b m₁ m')
    (hfree : ∀ j < cnt, (poolOf pf m).poolBitmap.scanTest (b j) = false) (hn : n + cnt ≤ 0xffc00) :
    (∀ pf', poolOf pf' m' = poolOf pf' m) ∧ ∀ a, (∀ j < cnt, pageSlot m (n + j) ≠ some a) → m'.mem a = m.mem a := by
  have hbits : (poolOf pf m').poolBitmap = (poolOf pf m).poolBitmap := by
    apply Bitmap.eq_of_scanTest (hclear.len.trans hset.len)
    intro k
    rw [hclear.bits k, hset.bits k]
    by_cases hk : ∃ j < cnt, b j = k
    · obtain ⟨j, hj, rfl⟩ := hk
      rw [if_pos ⟨j, hj, rfl⟩, hfree j hj]
    · rw [if_neg hk, if_neg hk]
  constructor
  · intro pf'
    by_cases hpf : pf' = pf
    · subst hpf
      have hstart := hclear.place.1.trans hset.place.1
      have hsize := hclear.place.2.trans hset.place.2
      cases hp : poolOf pf' m'
      cases hq : poolOf pf' m
      simp_all
    · rw [hclear.other pf' hpf, hset.other pf' hpf]
  · intro a ha
    rw [hclear.entries a, hset.entries a ha]
    intro j hj
    rw [pageSlot, hset.tables _ (by omega)]
    exact ha j hj

theorem FrameInv.relax (inv : FrameInv stray slack H m) : FrameInv stray 1 H m := by
  have hnear := inv.near
  refine ⟨inv.shape, le_refl _, inv.root, inv.low, inv.identity, inv.dirPage, inv.dirSpace, inv.dirOwn, inv.active, inv.mapped,
    inv.page, ?_, inv.strays, inv.inj, inv.taken, inv.user, inv.window⟩
  intro n hn
  obtain ⟨hlo, hhi, hbit⟩ := inv.heap n hn
  exact ⟨hlo, by omega, hbit⟩

theorem setBits_undo {b : Bitmap} {i : ℕ} (hfree : b.FreeRun i cnt) : setBits (setBits b i true cnt) i false cnt = b := by
  apply Bitmap.eq_of_scanTest
  · rw [setBits_len, setBits_len]
  · intro k
    rw [scanTest_setBits, scanTest_setBits]
    by_cases hk : i ≤ k ∧ k < i + cnt
    · have h := hfree (k - i) (by omega)
      rw [show i + (k - i) = k by omega] at h
      rw [if_pos hk, h]
    · rw [if_neg hk, if_neg hk]

theorem markPages_undo {i : ℕ} (hfree : (vaddrOf pf m).vaddrBitmap.FreeRun i cnt) (hsame : SameTasks (markPages pf i true cnt m) m₁) :
    (markPages pf i false cnt m₁).kernelVaddr = m.kernelVaddr ∧ (markPages pf i false cnt m₁).userVaddr = m.userVaddr := by
  cases pf with
  | kernel =>
    simp only [vaddrOf] at hfree
    refine ⟨?_, hsame.userVaddr⟩
    have hk : m₁.kernelVaddr = { m.kernelVaddr with vaddrBitmap := setBits m.kernelVaddr.vaddrBitmap i true cnt } := hsame.kernelVaddr
    simp only [markPages, setVaddr, vaddrOf, hk]
    rw [setBits_undo hfree]
  | user =>
    simp only [vaddrOf] at hfree
    refine ⟨hsame.kernelVaddr, ?_⟩
    have hcur : m₁.cur = m.cur := hsame.cur
    have hu : m₁.userVaddr = Function.update m.userVaddr m.cur
        { m.userVaddr m.cur with vaddrBitmap := setBits (m.userVaddr m.cur).vaddrBitmap i true cnt } := hsame.userVaddr
    simp only [markPages, setVaddr, vaddrOf, hcur, hu, Function.update_self, Function.update_idem]
    rw [setBits_undo hfree]
    exact Function.update_eq_self _ _

theorem walk_gone (inv : FrameInv stray slack H m) {a : Word} (hbase : basePage pf ≤ a.toNat / 4096) (hend : a.toNat / 4096 < 0xffc00)
    (hproc : pf = .user → ∃ d, dirOf m m.cur = some d) (h : useFrame m (pageOf pf m.cur (a.toNat / 4096)) = none) :
    walk m.mem m.cr3 a = none := by
  rw [walk_eq inv.cr3_space.aligned]
  cases pf with
  | kernel =>
    have hnone : entryFrame m.mem (kernelTable (a.toNat / 4096 / 1024)) (a.toNat / 4096 % 1024) = none := h
    simp only [basePage] at hbase
    rw [inv.cr3_space.kernel _ (by omega) (by omega), Option.bind_some, hnone]
    rfl
  | user =>
    obtain ⟨d, hd⟩ := hproc rfl
    simp only [pageOf, useFrame, hd, Option.bind_some] at h
    rw [cr3_eq inv hd]
    cases hp : entryFrame m.mem d (a.toNat / 4096 / 1024) with
    | none => rfl
    | some p =>
      rw [hp, Option.bind_some] at h
      rw [Option.bind_some, h]
      rfl

theorem scan_process {i : ℕ} (hthread : m.pgdir m.cur = none → (m.userVaddr m.cur).vaddrBitmap.btmpBytesLen = 0) (hpos : 0 < cnt)
    (hscan : (vaddrOf .user m).vaddrBitmap.scan cnt = .ok (some i)) : ∃ w, m.pgdir m.cur = some w := by
  cases hw : m.pgdir m.cur with
  | some w => exact ⟨w, rfl⟩
  | none =>
    have hzero := hthread hw
    obtain ⟨-, hle, hone, -⟩ := Bitmap.scan_some _ hpos hscan
    simp only [vaddrOf] at hle hone
    have hcnt : cnt = 1 := by omega
    have := hone hcnt
    omega

theorem mallocPage_some {v : Word} (inv : FrameInv stray 1 H m)
    (hthread : m.pgdir m.cur = none → (m.userVaddr m.cur).vaddrBitmap.btmpBytesLen = 0) (h : mallocPage pf cnt m = .ok (some v, m')) :
    ∃ i, 0 < cnt ∧ (vaddrOf pf m).vaddrBitmap.FreeRun i cnt ∧ v.toNat % 4096 = 0 ∧ v.toNat / 4096 = basePage pf + i ∧
      (pf = .kernel → i + cnt ≤ 8 * m.kernelVaddr.vaddrBitmap.btmpBytesLen + 1) ∧
      (pf = .user → basePage pf + i + cnt ≤ 0xc0000 ∧ ∃ w, m.pgdir m.cur = some w) ∧
      mapPages pf cnt v (markPages pf i true cnt m) = .ok (true, m') := by
  simp only [mallocPage, bind_ok, assert_ok] at h
  obtain ⟨_, _, ⟨⟨hpos, -⟩, rfl⟩, r, m₁, hget, h⟩ := h
  rcases vaddrGet_ok hget with ⟨rfl, rfl, -⟩ | ⟨i, hscan, rfl, rfl, hlt⟩
  · simp at h
  · simp only [bind_ok, pure_ok] at h
    obtain ⟨ok, m₂, hmap, hv, rfl⟩ := h
    cases ok with
    | false => simp at hv
    | true =>
      simp only [if_true, Option.some.injEq] at hv
      subst hv
      obtain ⟨hfree, hle, -, -⟩ := Bitmap.scan_some _ hpos hscan
      cases pf with
      | kernel =>
        have hstart : (vaddrOf .kernel m).vaddrStart = 0xc0100000 := inv.shape.heapStart
        have hend := inv.shape.heapEnd
        simp only [vaddrOf] at hle
        rw [hstart] at hmap ⊢
        have hv : (BitVec.ofNat 32 (0xc0100000 + i * 4096)).toNat = 0xc0100000 + i * 4096 := by
          rw [BitVec.toNat_ofNat]
          omega
        exact ⟨i, hpos, hfree, by omega, by simp only [basePage]; omega, fun _ => hle, by simp, hmap⟩
      | user =>
        obtain ⟨w, hw⟩ := scan_process hthread hpos hscan
        have hstart : (vaddrOf .user m).vaddrStart = 0x8048000 := (inv.shape.task m.cur w hw).1
        have hlt' := hlt rfl
        rw [hstart] at hmap hlt' ⊢
        have hv : (BitVec.ofNat 32 (0x8048000 + i * 4096)).toNat = 0x8048000 + i * 4096 := by
          rw [BitVec.toNat_ofNat]
          omega
        have hprocs := markPages_procs .user i true cnt m
        have hpage : (BitVec.ofNat 32 (0x8048000 + i * 4096)).toNat / 4096 = 0x8048 + i := by omega
        obtain ⟨-, -, -, hlast, -⟩ := mapPages_user cnt (markPages_inv inv .user i cnt) (by rw [hprocs.pgdir, hprocs.cur]; exact hw)
          (by omega) (by omega) (by
          intro j hj
          rw [hpage]
          simp only [markPages, setVaddr, vaddrOf, Function.update_self, scanTest_setBits]
          rw [if_pos (by omega)]) hmap
        rw [hpage] at hlast
        exact ⟨i, hpos, hfree, by omega, hpage, by simp, fun _ => ⟨hlast, w, hw⟩, hmap⟩

theorem reserved_marked {v : Word} {i : ℕ} (hpage : v.toNat / 4096 = basePage pf + i)
    (hkernel : pf = .kernel → i + cnt ≤ 8 * m.kernelVaddr.vaddrBitmap.btmpBytesLen + 1)
    (huser : pf = .user → basePage pf + i + cnt ≤ 0xc0000 ∧ ∃ w, m.pgdir m.cur = some w)
    (htables : ∀ j < cnt, ∃ p, entryFrame m.mem m.cr3 ((v.toNat / 4096 + j) / 1024) = some p) :
    Reserved 1 pf (v.toNat / 4096) cnt (markPages pf i true cnt m) := by
  have hprocs := markPages_procs pf i true cnt m
  refine ⟨by omega, ?_, ?_, ?_, ?_⟩
  · intro hpf
    have hle := hkernel hpf
    rw [hprocs.kernelLen, hpage, hpf, basePage]
    omega
  · intro hpf
    rw [hprocs.pgdir, hprocs.cur, hpage]
    exact huser hpf
  · intro j hj
    rw [hpage, Nat.add_sub_cancel_left]
    cases pf with
    | kernel =>
      simp only [markPages, setVaddr, vaddrOf, scanTest_setBits]
      rw [if_pos (by omega)]
    | user =>
      simp only [markPages, setVaddr, vaddrOf, Function.update_self, scanTest_setBits]
      rw [if_pos (by omega)]
  · rw [markPages_mem, hprocs.cr3]
    exact htables

end

/-- Giving back what `malloc_page` returned undoes it, whatever frames it took and wherever they lie. -/
theorem mfreePage_undoes_mallocPage (stray : ℕ → Prop) (slack : ℕ) (L H : Use → Prop) (m m' : Machine) (pf : Pool) (pgCnt : ℕ)
    (v : Word) (inv : RunInv stray slack m L H) (h : mallocPage pf pgCnt m = .ok (some v, m'))
    (htables : ∀ j < pgCnt, ∃ p, entryFrame m.mem m.cr3 ((v.toNat / 4096 + j) / 1024) = some p) :
    ∃ m'', mfreePage pf v pgCnt m' = .ok ((), m'') ∧ Restored v pgCnt m m'' := by
  have hframes := inv.frames.relax
  obtain ⟨i, hpos, hfree, hv, hpage, hkernel, huser, hmap⟩ := mallocPage_some hframes (inv.thread m.cur) h
  have hprocs := markPages_procs pf i true pgCnt m
  have hmem := markPages_mem pf i true pgCnt m
  have inv₁ := markPages_inv hframes pf i pgCnt
  have hres := reserved_marked hpage hkernel huser htables
  obtain ⟨inv', hsame, -, hdir⟩ := mapPages_reserved inv₁ hres hmap
  obtain ⟨b, hset, hpages⟩ := mapPages_switched pgCnt inv₁ hres hmap
  have hend := hres.end_le inv₁
  have hcur : m'.cur = m.cur := hsame.cur.trans hprocs.cur
  have hpgdir : m'.pgdir = m.pgdir := hsame.pgdir.trans hprocs.pgdir
  have hH : ∀ j, j < pgCnt → grant H (pageOf pf (markPages pf i true pgCnt m).cur) (v.toNat / 4096) pgCnt
      (pageOf pf m'.cur (v.toNat / 4096 + j)) := by
    intro j hj
    rw [hsame.cur]
    exact Or.inr ⟨j, hj, rfl⟩
  have hdir' : ∀ j t w, j < pgCnt → m'.pgdir t = some w → pageOf pf m'.cur (v.toNat / 4096 + j) ≠ .kpage (w.toNat / 4096) := by
    rw [hsame.pgdir, hsame.cur]
    exact hdir
  obtain ⟨m'', hrun⟩ := mfreePage_runs inv' hpos hv hH hdir'
  obtain ⟨inv'', hun, -, m₃, hsame₃, hm'', hfreed⟩ := mfreePage_inv inv' hH hdir' hrun
  have hclear := freePages_switched pgCnt inv' hv hend (by
    intro hpf
    have hlast := (huser hpf).1
    omega) hH hdir' (by
    intro j hj
    obtain ⟨hlt, -, hframe⟩ := hpages j hj
    rw [hset.len, hset.place.1, hsame.cur]
    exact ⟨hlt, hframe⟩) hfreed
  obtain ⟨hpools, hentries⟩ := hset.undo hclear (fun j hj => (hpages j hj).2.1) hend
  have hbits := markPages_undo hfree (hsame.trans hsame₃)
  rw [hpage, Nat.add_sub_cancel_left] at hm''
  have hprocs₃ := markPages_procs pf i false pgCnt m₃
  have hmem₃ := markPages_mem pf i false pgCnt m₃
  refine ⟨m'', hrun, ?_⟩
  subst hm''
  refine ⟨hbits.1, hbits.2, ?_, ?_, ?_⟩
  · intro pf'
    have hpool₃ : poolOf pf' (markPages pf i false pgCnt m₃) = poolOf pf' m₃ := by cases pf <;> cases pf' <;> rfl
    have hpool : poolOf pf' (markPages pf i true pgCnt m) = poolOf pf' m := by cases pf <;> cases pf' <;> rfl
    rw [hpool₃, hpools pf', hpool]
  · intro a hlo hhi
    have hgone := hun.gone (a.toNat / 4096 - v.toNat / 4096) (by omega)
    rw [show v.toNat / 4096 + (a.toNat / 4096 - v.toNat / 4096) = a.toNat / 4096 by omega] at hgone
    have hcur₃ : (markPages pf i false pgCnt m₃).cur = m'.cur := hprocs₃.cur.trans hsame₃.cur
    rw [← hcur₃] at hgone
    refine walk_gone inv'' (by omega) (by omega) ?_ hgone
    intro hpf
    obtain ⟨-, w, hw⟩ := huser hpf
    have hw'' : (markPages pf i false pgCnt m₃).pgdir (markPages pf i false pgCnt m₃).cur = some w := by
      rw [hcur₃, hprocs₃.pgdir, hsame₃.pgdir, hpgdir, hcur]
      exact hw
    obtain ⟨d, hd, -⟩ := inv''.dir_some hw''
    exact ⟨d, hd⟩
  · intro a ha
    rw [hmem₃, hentries a, hmem]
    intro j hj
    rw [pageSlot, hmem, hprocs.cr3]
    exact ha j hj

theorem mfreePage_undoes_mallocPage_two :
    ∃ m'', mfreePage .kernel 0xc0100000#32 2 (after (.malloc .kernel 2) (cleanBoot 16)) = .ok ((), m'') ∧
      Restored 0xc0100000#32 2 (cleanBoot 16) m'' := by
  have hrun : (MemCall.malloc .kernel 2).run (cleanBoot 16) = .ok (some 0xc0100000#32, _) := run_after (by decide +kernel)
  have hboot : RunInv _ 1 (cleanBoot 16) _ _ := runInv_boot (fun _ => 0) ByteMemory.zeros (0x200000 + 16 * 4096) (le_refl 1)
  refine mfreePage_undoes_mallocPage _ 1 _ _ (cleanBoot 16) _ .kernel 2 _ hboot hrun ?_
  intro j hj
  have hpage : (0xc0100000#32 : Word).toNat / 4096 = 0xc0100 := rfl
  rw [hpage]
  exact ⟨_, hboot.frames.cr3_space.kernel _ (by omega) (by omega)⟩

end Paging

end ElephantOS
