import ElephantOS.Heap
import ElephantOS.PageRuns

namespace ElephantOS.Paging

open HaltingState

structure Owner where
  start : Machine
  pool : Pool
  descs : Word
  high : 0xc0000000 ≤ descs.toNat
  fits : descs.toNat + descBytes ≤ 2 ^ 32
  below : pool = .kernel → descs.toNat + descBytes ≤ kHeapStart

namespace Owner

def Desc (o : Owner) (a : Word) : Prop := o.descs.toNat ≤ a.toNat ∧ a.toNat < o.descs.toNat + descBytes

def Reach (o : Owner) (P : ℕ → Prop) (a : Word) : Prop := o.Desc a ∨ P (a.toNat / 4096)

end Owner

structure Account (start : Machine) (P : ℕ → Prop) (m : Machine) : Prop where
  vaddrLen : m.kernelVaddr.vaddrBitmap.btmpBytesLen = start.kernelVaddr.vaddrBitmap.btmpBytesLen
  poolLen : m.kernelPool.poolBitmap.btmpBytesLen = start.kernelPool.poolBitmap.btmpBytesLen
  vaddr : ∀ j, m.kernelVaddr.vaddrBitmap.scanTest j = true ↔
    start.kernelVaddr.vaddrBitmap.scanTest j = true ∨ P (0xc0100 + j)
  vaddrNew : ∀ j, P (0xc0100 + j) → start.kernelVaddr.vaddrBitmap.scanTest j = false
  pool : ∀ g, Taken m .kernel g ↔ Taken start .kernel g ∨ ∃ k, P k ∧ kernelFrame m.mem k = some g
  poolNew : ∀ k g, P k → kernelFrame m.mem k = some g → ¬ Taken start .kernel g

structure Space (o : Owner) (P : ℕ → Prop) (m : Machine) : Prop where
  frames : ∃ stray H, FrameInv stray 1 H m ∧ ∀ k, P k → H (pageOf o.pool m.cur k)
  data : ∀ k t v, P k → m.pgdir t = some v → pageOf o.pool m.cur k ≠ .kpage (v.toNat / 4096)
  task : m.pgdir m.cur = none ↔ o.pool = .kernel
  thread : m.pgdir m.cur = none → (m.userVaddr m.cur).vaddrBitmap.btmpBytesLen = 0
  account : o.pool = .kernel → Account o.start P m
  cached : ∀ k, P k → Current m o.pool k

structure At (o : Owner) (P : ℕ → Prop) (W : Word → Word) (h : Heap) : Prop where
  space : Space o P h.machine
  descs : h.descs = o.descs
  descCells : ∀ a, o.Desc a → h.descWords a = W a
  pageCells : ∀ a, P (a.toNat / 4096) → loadVirt h.machine.mem h.machine.cr3 a = some (W a)

section

variable {o : Owner} {P : ℕ → Prop} {m : Machine}

theorem Space.range (hs : Space o P m) {k : ℕ} (hk : P k) :
    basePage o.pool ≤ k ∧ k < 0xffc00 ∧ (o.pool = .user → k < 0xc0000) := by
  obtain ⟨stray, H, inv, hH⟩ := hs.frames
  have hbase := page_base inv (hH k hk)
  refine ⟨hbase.1, hbase.2.1, ?_⟩
  intro huser
  have hlive := (inv.page _ (hH k hk)).1
  rw [huser] at hlive
  exact hlive

theorem Space.not_desc (hs : Space o P m) {a : Word} (ha : P (a.toNat / 4096)) : ¬ o.Desc a := by
  rintro ⟨hlo, hhi⟩
  obtain ⟨hbase, -, huser⟩ := hs.range ha
  cases hpf : o.pool with
  | kernel =>
    have hbelow := o.below hpf
    rw [hpf] at hbase
    simp only [basePage, kHeapStart] at hbase hbelow
    omega
  | user =>
    have hlow := huser hpf
    have hhigh := o.high
    omega

theorem Space.mapped (hs : Space o P m) {k : ℕ} (hk : P k) : ∃ f, useFrame m (pageOf o.pool m.cur k) = some f := by
  obtain ⟨stray, H, inv, hH⟩ := hs.frames
  exact inv.mapped _ (hH k hk)

theorem Space.walk (hs : Space o P m) {a f : Word} (ha : P (a.toNat / 4096))
    (hf : useFrame m (pageOf o.pool m.cur (a.toNat / 4096)) = some f) :
    walk m.mem m.cr3 a = some (f + (a &&& 0xfff#32)) ∧ frame (f + (a &&& 0xfff#32)) = f := by
  obtain ⟨stray, H, inv, hH⟩ := hs.frames
  refine ⟨walk_use inv (hH _ ha) hf, frame_add_offset ?_ a⟩
  have hlive := (inv.page _ (hH _ ha)).1
  exact taken_aligned inv.shape (inv.taken _ f hlive hf)

theorem Space.access (hs : Space o P m) {a f : Word} (ha : P (a.toNat / 4096))
    (hf : useFrame m (pageOf o.pool m.cur (a.toNat / 4096)) = some f) : access m a = some (f + (a &&& 0xfff#32)) := by
  obtain ⟨stray, H, inv, hH⟩ := hs.frames
  exact access_use inv (hs.cached _ ha) (hH _ ha) hf

theorem Space.retlb (hs : Space o P m) {m' : Machine} {tlb : ℕ → Option Word} (hm : m' = { m with tlb := tlb })
    (hinv : ∀ stray H, FrameInv stray 1 H m → FrameInv stray 1 H m') (hcached : ∀ k, P k → Current m' o.pool k) : Space o P m' := by
  subst hm
  obtain ⟨stray, H, inv, hH⟩ := hs.frames
  refine ⟨⟨stray, H, hinv stray H inv, hH⟩, hs.data, hs.task, hs.thread, ?_, hcached⟩
  intro hpf
  have hacc := hs.account hpf
  exact ⟨hacc.vaddrLen, hacc.poolLen, hacc.vaddr, hacc.vaddrNew, hacc.pool, hacc.poolNew⟩

theorem Space.cache (hs : Space o P m) {v p : Word} (hwalk : ElephantOS.walk m.mem m.cr3 v = some p) : Space o P (m.cache v p) := by
  refine hs.retlb rfl (fun stray H inv => inv.cache hwalk) ?_
  intro k hk f hf
  change Function.update m.tlb (v.toNat / 4096) (some (frame p)) k = some f at hf
  by_cases hpage : k = v.toNat / 4096
  · subst hpage
    obtain ⟨g, hg⟩ := hs.mapped hk
    obtain ⟨hwalk', hframe⟩ := hs.walk hk hg
    rw [hwalk, Option.some.injEq] at hwalk'
    rw [Function.update_self, Option.some.injEq, hwalk', hframe] at hf
    subst hf
    exact hg
  · rw [Function.update_of_ne hpage] at hf
    exact hs.cached k hk f hf

theorem Space.evict (hs : Space o P m) (n : ℕ) : Space o P (m.evict n) := by
  refine hs.retlb rfl (fun stray H inv => inv.evict n) ?_
  intro k hk f hf
  change Function.update m.tlb n none k = some f at hf
  by_cases hpage : k = n
  · rw [hpage, Function.update_self] at hf
    cases hf
  · rw [Function.update_of_ne hpage] at hf
    exact hs.cached k hk f hf

theorem Space.phys_inj (hs : Space o P m) {a b f g : Word} (ha : P (a.toNat / 4096)) (hb : P (b.toNat / 4096))
    (hf : useFrame m (pageOf o.pool m.cur (a.toNat / 4096)) = some f)
    (hg : useFrame m (pageOf o.pool m.cur (b.toNat / 4096)) = some g)
    (h : f + (a &&& 0xfff#32) = g + (b &&& 0xfff#32)) : a = b := by
  have hframe : f = g := by rw [← (hs.walk ha hf).2, h, (hs.walk hb hg).2]
  obtain ⟨stray, H, inv, hH⟩ := hs.frames
  subst hframe
  have hpage := pageOf_inj (inv.inj _ _ f (inv.page _ (hH _ ha)).1 (inv.page _ (hH _ hb)).1 hf hg)
  have hoff : a &&& 0xfff#32 = b &&& 0xfff#32 := by simpa using h
  have hnat := congrArg BitVec.toNat hoff
  rw [toNat_offset, toNat_offset] at hnat
  apply BitVec.eq_of_toNat_eq
  omega

theorem Space.fill (hs : Space o P m) {a f : Word} (ha : P (a.toNat / 4096))
    (hf : useFrame m (pageOf o.pool m.cur (a.toNat / 4096)) = some f) (mem' : PhysMem)
    (hmem : ∀ b, frame b ≠ f → mem' b = m.mem b) :
    Space o P { m with mem := mem' } ∧
      ∀ k, P k → useFrame { m with mem := mem' } (pageOf o.pool m.cur k) = useFrame m (pageOf o.pool m.cur k) := by
  obtain ⟨stray, H, inv, hH⟩ := hs.frames
  obtain ⟨hinv, hkeep⟩ := inv.fill (hH _ ha) hf (hs.data _ · · ha) hmem
  have hsame : ∀ k, P k → useFrame { m with mem := mem' } (pageOf o.pool m.cur k) = useFrame m (pageOf o.pool m.cur k) :=
    fun k hk => hkeep _ (inv.valid (inv.page _ (hH k hk)).1)
  refine ⟨⟨⟨stray, H, hinv, hH⟩, hs.data, hs.task, hs.thread, ?_, fun k hk g hg => (hsame k hk).trans (hs.cached k hk g hg)⟩, hsame⟩
  intro hpf
  have hacc := hs.account hpf
  rw [hpf] at hsame
  have hframe : ∀ k, P k → kernelFrame mem' k = kernelFrame m.mem k := hsame
  refine ⟨hacc.vaddrLen, hacc.poolLen, hacc.vaddr, hacc.vaddrNew, ?_, ?_⟩
  · intro g
    apply Iff.trans (hacc.pool g)
    constructor
    · rintro (hg | ⟨k, hk, hg⟩)
      · exact Or.inl hg
      · exact Or.inr ⟨k, hk, (hframe k hk).trans hg⟩
    · rintro (hg | ⟨k, hk, hg⟩)
      · exact Or.inl hg
      · exact Or.inr ⟨k, hk, (hframe k hk).symm.trans hg⟩
  · intro k g hk hg
    exact hacc.poolNew k g hk ((hframe k hk).symm.trans hg)

end

section

variable {o : Owner} {P : ℕ → Prop} {W : Word → Word} {h : Heap} {a w : Word}

theorem At.pool (hat : At o P W h) : h.pool = o.pool := by
  unfold Heap.pool
  cases hpf : o.pool with
  | kernel => rw [if_pos (hat.space.task.mpr hpf)]
  | user =>
    rw [if_neg]
    intro hnone
    rw [hat.space.task.mp hnone] at hpf
    cases hpf

theorem Heap.descs_machine {m' : Machine} (hpgdir : m'.pgdir = h.machine.pgdir) (hcur : m'.cur = h.machine.cur) :
    { h with machine := m' }.descs = h.descs := by
  simp only [Heap.descs, Heap.pool, hpgdir, hcur]

theorem At.isDesc (hat : At o P W h) (a : Word) : h.isDesc a ↔ o.Desc a := by
  rw [Heap.isDesc, Owner.Desc, hat.descs]

theorem At.loadWord (hat : At o P W h) (ha : o.Reach P a) : loadWord a h = .ok (W a, h) := by
  unfold Paging.loadWord
  by_cases hd : h.isDesc a
  · rw [if_pos hd, hat.descCells a ((hat.isDesc a).mp hd)]
  · have hpage : P (a.toNat / 4096) := ha.resolve_left fun h' => hd ((hat.isDesc a).mpr h')
    obtain ⟨f, hf⟩ := hat.space.mapped hpage
    have hw := hat.pageCells a hpage
    rw [loadVirt, (hat.space.walk hpage hf).1, Option.map_some, Option.some.injEq] at hw
    rw [if_neg hd, page, load_eq (hat.space.access hpage hf)]
    simp only [hw]

theorem At.storeWord (hat : At o P W h) (ha : o.Reach P a) (w : Word) :
    ∃ h', storeWord a w h = .ok ((), h') ∧ At o P (Function.update W a w) h' := by
  unfold Paging.storeWord
  by_cases hd : h.isDesc a
  · rw [if_pos hd]
    have hdesc := (hat.isDesc a).mp hd
    refine ⟨_, rfl, hat.space, hat.descs, ?_, ?_⟩
    · intro b hb
      simp only [Function.update_apply, hat.descCells b hb]
    · intro b hb
      rw [Function.update_of_ne]
      · exact hat.pageCells b hb
      · rintro rfl
        exact hat.space.not_desc hb hdesc
  · rw [if_neg hd]
    have hpage : P (a.toNat / 4096) := ha.resolve_left fun h' => hd ((hat.isDesc a).mpr h')
    obtain ⟨f, hf⟩ := hat.space.mapped hpage
    obtain ⟨-, hframe⟩ := hat.space.walk hpage hf
    obtain ⟨hspace, hsame⟩ := hat.space.fill hpage hf (Function.update h.machine.mem (f + (a &&& 0xfff#32)) w) (by
      intro b hb
      apply Function.update_of_ne
      rintro rfl
      exact hb hframe)
    rw [page, store_eq (hat.space.access hpage hf)]
    refine ⟨_, rfl, hspace, hat.descs, ?_, ?_⟩
    · intro b hb
      rw [Function.update_of_ne]
      · exact hat.descCells b hb
      · rintro rfl
        exact hat.space.not_desc hpage hb
    · intro b hb
      obtain ⟨g, hg⟩ := hat.space.mapped hb
      have hcell := hat.pageCells b hb
      rw [loadVirt, (hat.space.walk hb hg).1, Option.map_some, Option.some.injEq] at hcell
      rw [loadVirt, (hspace.walk hb ((hsame _ hb).trans hg)).1, Option.map_some, Option.some.injEq]
      simp only [Function.update_apply]
      by_cases hab : b = a
      · subst hab
        rw [hg, Option.some.injEq] at hf
        rw [if_pos (by rw [hf]), if_pos rfl]
      · rw [if_neg hab, if_neg, hcell]
        intro heq
        exact hab (hat.space.phys_inj hb hpage hg hf heq)

end

def addPages (P : ℕ → Prop) (n cnt : ℕ) : ℕ → Prop := fun k => P k ∨ (n ≤ k ∧ k < n + cnt)

def dropPages (P : ℕ → Prop) (n cnt : ℕ) : ℕ → Prop := fun k => P k ∧ ¬ (n ≤ k ∧ k < n + cnt)

def zeroPages (W : Word → Word) (n cnt : ℕ) : Word → Word :=
  fun a => if n ≤ a.toNat / 4096 ∧ a.toNat / 4096 < n + cnt then 0 else W a

theorem scanTest_marked (i cnt : ℕ) (value : Bool) (m : Machine) (j : ℕ) :
    (markPages .kernel i value cnt m).kernelVaddr.vaddrBitmap.scanTest j =
      if i ≤ j ∧ j < i + cnt then value else m.kernelVaddr.vaddrBitmap.scanTest j := by
  simp only [markPages, setVaddr, vaddrOf, scanTest_setBits]

section

variable {start m m' : Machine} {P : ℕ → Prop} {n cnt : ℕ}

theorem Account.alloc (hacc : Account start P m) (hP : ∀ k, P k → 0xc0000 ≤ k ∧ k < 0xffc00) {i : ℕ} (hn : n = 0xc0100 + i)
    (hfree : m.kernelVaddr.vaddrBitmap.FreeRun i cnt) (hnot : ∀ k, n ≤ k → k < n + cnt → ¬ P k)
    (hsame : SameTasks (markPages .kernel i true cnt m) m') (hmap : KernelMapped m m' n cnt) :
    Account start (addPages P n cnt) m' := by
  have hold : ∀ k, P k → kernelFrame m'.mem k = kernelFrame m.mem k := by
    intro k hk
    apply hmap.other k (hP k hk).1 (hP k hk).2
    intro j hj heq
    exact hnot k (by omega) (by omega) hk
  refine ⟨?_, ?_, ?_, ?_, ?_, ?_⟩
  · rw [hsame.kernelVaddr, (markPages_procs .kernel i true cnt m).kernelLen]
    exact hacc.vaddrLen
  · have h := hsame.poolLen .kernel
    exact h.trans hacc.poolLen
  · intro j
    rw [hsame.kernelVaddr, scanTest_marked, addPages]
    by_cases hj : i ≤ j ∧ j < i + cnt
    · rw [if_pos hj]
      have hin : n ≤ 0xc0100 + j ∧ 0xc0100 + j < n + cnt := by omega
      simp [hin]
    · rw [if_neg hj, hacc.vaddr]
      have hin : ¬ (n ≤ 0xc0100 + j ∧ 0xc0100 + j < n + cnt) := by omega
      simp [hin]
  · rintro j (hj | hj)
    · exact hacc.vaddrNew j hj
    · have hclear := hfree (j - i) (by omega)
      rw [show i + (j - i) = j by omega] at hclear
      by_contra hset
      have := (hacc.vaddr j).mpr (Or.inl (by simpa using hset))
      rw [hclear] at this
      cases this
  · intro g
    rw [hmap.pool, hacc.pool, or_assoc]
    apply or_congr_right
    constructor
    · rintro (⟨k, hk, hg⟩ | ⟨j, hj, hg⟩)
      · exact ⟨k, Or.inl hk, (hold k hk).trans hg⟩
      · exact ⟨n + j, Or.inr (by omega), hg⟩
    · rintro ⟨k, hk | hk, hg⟩
      · exact Or.inl ⟨k, hk, (hold k hk).symm.trans hg⟩
      · refine Or.inr ⟨k - n, by omega, ?_⟩
        rw [show n + (k - n) = k by omega]
        exact hg
  · rintro k g (hk | hk) hg
    · exact hacc.poolNew k g hk ((hold k hk).symm.trans hg)
    · intro htaken
      apply hmap.fresh (k - n) g (by omega)
      · rw [show n + (k - n) = k by omega]
        exact hg
      · exact (hacc.pool g).mpr (Or.inl htaken)

theorem Account.release (hacc : Account start P m) (hP : ∀ k, P k → 0xc0100 ≤ k ∧ k < 0xffc00)
    (hin : ∀ k, n ≤ k → k < n + cnt → P k) (hpos : 0 < cnt)
    (hinj : ∀ k l g, P k → P l → kernelFrame m.mem k = some g → kernelFrame m.mem l = some g → k = l)
    {m₁ : Machine} (hsame : SameTasks m m₁) (hm' : m' = markPages .kernel (n - 0xc0100) false cnt m₁)
    (hun : Unmapped m m' Use.kpage n cnt) : Account start (dropPages P n cnt) m' := by
  have hn := (hP n (hin n (by omega) (by omega))).1
  have hold : ∀ k, dropPages P n cnt k → kernelFrame m'.mem k = kernelFrame m.mem k := by
    intro k hk
    apply hun.other (.kpage k) ⟨by have := hP k hk.1; omega, (hP k hk.1).2⟩
    intro j hj heq
    rw [Use.kpage.injEq] at heq
    exact hk.2 (by omega)
  refine ⟨?_, ?_, ?_, ?_, ?_, ?_⟩
  · rw [hm', (markPages_procs .kernel _ false cnt m₁).kernelLen, hsame.kernelVaddr]
    exact hacc.vaddrLen
  · have h := hsame.poolLen .kernel
    rw [hm']
    exact h.trans hacc.poolLen
  · intro j
    rw [hm', scanTest_marked, hsame.kernelVaddr, dropPages]
    by_cases hj : n ≤ 0xc0100 + j ∧ 0xc0100 + j < n + cnt
    · rw [if_pos (by omega)]
      have hclear := hacc.vaddrNew j (hin _ hj.1 hj.2)
      simp [hj, hclear]
    · rw [if_neg (by omega), hacc.vaddr]
      simp [hj]
  · intro j hj
    exact hacc.vaddrNew j hj.1
  · intro g
    rw [hun.pool, hacc.pool]
    constructor
    · rintro ⟨hg | ⟨k, hk, hg⟩, hall⟩
      · exact Or.inl hg
      · right
        have hk' : dropPages P n cnt k := by
          refine ⟨hk, ?_⟩
          intro hrange
          apply hall (k - n) (by omega)
          rw [show n + (k - n) = k by omega]
          exact hg
        exact ⟨k, hk', (hold k hk').trans hg⟩
    · rintro (hg | ⟨k, hk, hg⟩)
      · refine ⟨Or.inl hg, ?_⟩
        intro j hj hfree
        exact hacc.poolNew (n + j) g (hin _ (by omega) (by omega)) hfree hg
      · rw [hold k hk] at hg
        refine ⟨Or.inr ⟨k, hk.1, hg⟩, ?_⟩
        intro j hj hfree
        have := hinj k (n + j) g hk.1 (hin _ (by omega) (by omega)) hg hfree
        exact hk.2 (by omega)
  · intro k g hk hg
    exact hacc.poolNew k g hk.1 ((hold k hk).symm.trans hg)

end

section

variable {o : Owner} {P : ℕ → Prop} {W : Word → Word} {m m' : Machine} {v : Word} {cnt : ℕ}

def KeepsPages (o : Owner) (P : ℕ → Prop) (m m' : Machine) : Prop :=
  ∀ k f, P k → useFrame m (pageOf o.pool m.cur k) = some f →
    useFrame m' (pageOf o.pool m.cur k) = some f ∧ ∀ a, frame a = f → m'.mem a = m.mem a

theorem KeepsPages.load {Q R : ℕ → Prop} (hkeep : KeepsPages o R m m') (hs : Space o P m) (hs' : Space o Q m')
    (hcur : m'.cur = m.cur) {a : Word} (hR : R (a.toNat / 4096)) (ha : P (a.toNat / 4096)) (ha' : Q (a.toNat / 4096)) :
    loadVirt m'.mem m'.cr3 a = loadVirt m.mem m.cr3 a := by
  obtain ⟨f, hf⟩ := hs.mapped ha
  obtain ⟨hf', hmem⟩ := hkeep _ f hR hf
  rw [← hcur] at hf'
  obtain ⟨hwalk, hframe⟩ := hs.walk ha hf
  rw [loadVirt, loadVirt, hwalk, (hs'.walk ha' hf').1, Option.map_some, Option.map_some, hmem _ hframe]

theorem Space.alloc (hs : Space o P m) (hcached : Unstale m o.pool (vaddrOf o.pool m).vaddrBitmap 0 cnt) {r : Option Word}
    (h : mallocPage o.pool cnt m = .ok (r, m')) :
    (r = none ∧ m' = m) ∨ ∃ v, r = some v ∧ v.toNat % 4096 = 0 ∧ 0 < cnt ∧
      (∀ k, v.toNat / 4096 ≤ k → k < v.toNat / 4096 + cnt → ¬ P k) ∧ Space o (addPages P (v.toNat / 4096) cnt) m' ∧
      m'.pgdir = m.pgdir ∧ m'.cur = m.cur ∧ KeepsPages o P m m' := by
  obtain ⟨stray, H, inv, hH⟩ := hs.frames
  have hcommon : ∀ v : Word, v.toNat % 4096 = 0 → 0 < cnt →
      FrameInv stray 1 (grant H (pageOf o.pool m.cur) (v.toNat / 4096) cnt) m' → SameProcs m m' → Keeps H m m' →
      (∀ j, j < cnt → ¬ H (pageOf o.pool m.cur (v.toNat / 4096 + j))) →
      (∀ j t w, j < cnt → m.pgdir t = some w → pageOf o.pool m.cur (v.toNat / 4096 + j) ≠ .kpage (w.toNat / 4096)) →
      (o.pool = .kernel → (∀ k, v.toNat / 4096 ≤ k → k < v.toNat / 4096 + cnt → ¬ P k) →
        Account o.start (addPages P (v.toNat / 4096) cnt) m') →
      (∀ j, j < cnt → Current m' o.pool (v.toNat / 4096 + j)) →
      v.toNat % 4096 = 0 ∧ 0 < cnt ∧ (∀ k, v.toNat / 4096 ≤ k → k < v.toNat / 4096 + cnt → ¬ P k) ∧
        Space o (addPages P (v.toNat / 4096) cnt) m' ∧ m'.pgdir = m.pgdir ∧ m'.cur = m.cur ∧ KeepsPages o P m m' := by
    intro v hv hpos hinv hprocs hkeeps hnot hdir hacc hnew
    have hfree : ∀ k, v.toNat / 4096 ≤ k → k < v.toNat / 4096 + cnt → ¬ P k := by
      intro k hk hk' hP
      apply hnot (k - v.toNat / 4096) (by omega)
      rw [show v.toNat / 4096 + (k - v.toNat / 4096) = k by omega]
      exact hH k hP
    refine ⟨hv, hpos, hfree, ⟨⟨stray, _, hinv, ?_⟩, ?_, ?_, ?_, fun hpf => hacc hpf hfree, ?_⟩, hprocs.pgdir, hprocs.cur, ?_⟩
    · rw [hprocs.cur]
      rintro k (hk | hk)
      · exact Or.inl (hH k hk)
      · exact Or.inr ⟨k - v.toNat / 4096, by omega, by rw [show v.toNat / 4096 + (k - v.toNat / 4096) = k by omega]⟩
    · rw [hprocs.cur, hprocs.pgdir]
      rintro k t w (hk | hk) hw
      · exact hs.data k t w hk hw
      · have := hdir (k - v.toNat / 4096) t w (by omega) hw
        rwa [show v.toNat / 4096 + (k - v.toNat / 4096) = k by omega] at this
    · rw [hprocs.cur, hprocs.pgdir]
      exact hs.task
    · rw [hprocs.cur, hprocs.pgdir, hprocs.len]
      exact hs.thread
    · rintro k (hk | hk) f hf
      · rw [hprocs.tlb] at hf
        rw [hprocs.cur]
        exact (hkeeps _ f (hH k hk) (fun t w hw => hs.data k t w hk hw) (hs.cached k hk f hf)).1
      · have hcurrent := hnew (k - v.toNat / 4096) (by omega)
        rw [show v.toNat / 4096 + (k - v.toNat / 4096) = k by omega] at hcurrent
        exact hcurrent f hf
    · intro k f hk hf
      exact hkeeps _ f (hH k hk) (fun t w hw => hs.data k t w hk hw) hf
  cases hpf : o.pool with
  | kernel =>
    rw [hpf] at h hcommon hcached
    rcases mallocPage_kernel inv (reaches_slack cnt _) h with
      ⟨rfl, rfl, -⟩ | ⟨v, i, rfl, hv, hn, hpos, hscan, -, hinv, hsame, hmap, hkeeps⟩
    · exact Or.inl ⟨rfl, rfl⟩
    · refine Or.inr ⟨v, rfl, hcommon v hv hpos hinv (sameTasks_marked hsame) hkeeps ?_ ?_ ?_ ?_⟩
      · intro j hj
        exact inv.not_handed (hmap.unmapped j hj)
      · intro j t w hj hw heq
        rw [pageOf, Use.kpage.injEq] at heq
        exact not_dirPage inv (hmap.unmapped j hj) hw heq.symm
      · intro _ hfree
        refine (hs.account hpf).alloc ?_ hn (Bitmap.scan_some _ hpos hscan).1 hfree hsame hmap
        intro k hk
        have hr := hs.range hk
        rw [hpf, basePage] at hr
        omega
      · exact fun j hj => hcached.current hscan hj hn hsame.tlb hsame.cur (hmap.frames j hj)
  | user =>
    rw [hpf] at h hcommon hcached
    rcases mallocPage_user inv hs.thread h with ⟨rfl, rfl⟩ | ⟨v, rfl, -, hpos, -, -, hinv, hprocs, hkeeps, hv, hnot, ⟨i, hn, hscan⟩, hframes⟩
    · exact Or.inl ⟨rfl, rfl⟩
    · refine Or.inr ⟨v, rfl, hcommon v hv hpos hinv hprocs hkeeps hnot ?_ ?_ ?_⟩
      · intro j t w hj hw
        simp [pageOf]
      · intro hk
        cases hk
      · exact fun j hj => hcached.current hscan hj hn hprocs.tlb hprocs.cur (hframes j hj)

theorem Space.clear (hs : Space o P m) (hin : ∀ k, v.toNat / 4096 ≤ k → k < v.toNat / 4096 + cnt → P k) (hpos : 0 < cnt) :
    ∃ m', clearPages cnt v m = .ok ((), m') ∧ Space o P m' ∧ m'.pgdir = m.pgdir ∧ m'.cur = m.cur ∧
      KeepsPages o (dropPages P (v.toNat / 4096) cnt) m m' ∧
      ∀ a : Word, v.toNat / 4096 ≤ a.toNat / 4096 → a.toNat / 4096 < v.toNat / 4096 + cnt →
        loadVirt m'.mem m'.cr3 a = some 0 := by
  obtain ⟨stray, H, inv, hH⟩ := hs.frames
  have hpages : ∀ j, j < cnt → P (v.toNat / 4096 + j) := fun j hj => hin _ (by omega) (by omega)
  have hH' : ∀ j, j < cnt → H (pageOf o.pool m.cur (v.toNat / 4096 + j)) := fun j hj => hH _ (hpages j hj)
  have hdir : ∀ j t w, j < cnt → m.pgdir t = some w → pageOf o.pool m.cur (v.toNat / 4096 + j) ≠ .kpage (w.toNat / 4096) :=
    fun j t w hj hw => hs.data _ t w (hpages j hj) hw
  have hlast := (hs.range (hpages (cnt - 1) (by omega))).2.1
  have hc : ∀ j, j < cnt → Current m o.pool (v.toNat / 4096 + j) := fun j hj => hs.cached _ (hpages j hj)
  obtain ⟨m', hrun⟩ := clearPages_runs cnt inv hc hH' hdir (by omega)
  obtain ⟨inv', hsame, hpool, hkeep, -, hzero, hkeeps⟩ := clearPages_inv cnt inv hc hH' hdir (by omega) hrun
  have huse : ∀ k, P k → useFrame m' (pageOf o.pool m.cur k) = useFrame m (pageOf o.pool m.cur k) :=
    fun k hk => hkeep _ (inv.valid (inv.page _ (hH k hk)).1)
  have hspace : Space o P m' := by
    refine ⟨⟨stray, H, inv', ?_⟩, ?_, ?_, ?_, ?_, ?_⟩
    · rw [hsame.cur]
      exact hH
    · rw [hsame.cur, hsame.pgdir]
      exact hs.data
    · rw [hsame.cur, hsame.pgdir]
      exact hs.task
    · rw [hsame.cur, hsame.pgdir, hsame.userVaddr]
      exact hs.thread
    · intro hpf
      have hacc := hs.account hpf
      have htaken : ∀ g, Taken m' .kernel g ↔ Taken m .kernel g := by
        intro g
        simp only [Taken, hpool]
      rw [hpf] at huse
      have hframe : ∀ k, P k → kernelFrame m'.mem k = kernelFrame m.mem k := huse
      refine ⟨?_, ?_, ?_, hacc.vaddrNew, ?_, ?_⟩
      · rw [hsame.kernelVaddr]
        exact hacc.vaddrLen
      · exact (hsame.poolLen .kernel).trans hacc.poolLen
      · rw [hsame.kernelVaddr]
        exact hacc.vaddr
      · intro g
        rw [htaken, hacc.pool]
        apply or_congr_right
        apply exists_congr
        intro k
        apply and_congr_right
        intro hk
        rw [hframe k hk]
      · intro k g hk hg
        exact hacc.poolNew k g hk ((hframe k hk).symm.trans hg)
    · intro k hk f hf
      rw [hsame.tlb] at hf
      rw [hsame.cur, huse k hk]
      exact hs.cached k hk f hf
  refine ⟨m', hrun, hspace, hsame.pgdir, hsame.cur, ?_, ?_⟩
  · intro k f hk hf
    apply hkeeps _ f ⟨hH k hk.1, ?_⟩ (fun t w hw => hs.data k t w hk.1 hw) hf
    intro j hj heq
    have := pageOf_inj heq
    exact hk.2 (by omega)
  · intro a ha ha'
    have hPa := hin _ ha ha'
    obtain ⟨f, hf⟩ := hs.mapped hPa
    have hf' : useFrame m' (pageOf o.pool m'.cur (a.toNat / 4096)) = some f := by
      rw [hsame.cur, huse _ hPa]
      exact hf
    obtain ⟨hwalk, hframe⟩ := hspace.walk hPa hf'
    rw [loadVirt, hwalk, Option.map_some]
    rw [show a.toNat / 4096 = v.toNat / 4096 + (a.toNat / 4096 - v.toNat / 4096) by omega] at hf
    rw [hzero _ f (by omega) hf _ hframe]

theorem Space.release (hs : Space o P m) (hv : v.toNat % 4096 = 0) (hpos : 0 < cnt)
    (hin : ∀ k, v.toNat / 4096 ≤ k → k < v.toNat / 4096 + cnt → P k) :
    ∃ m', mfreePage o.pool v cnt m = .ok ((), m') ∧ Space o (dropPages P (v.toNat / 4096) cnt) m' ∧
      m'.pgdir = m.pgdir ∧ m'.cur = m.cur ∧ KeepsPages o (dropPages P (v.toNat / 4096) cnt) m m' := by
  obtain ⟨stray, H, inv, hH⟩ := hs.frames
  have hpages : ∀ j, j < cnt → P (v.toNat / 4096 + j) := fun j hj => hin _ (by omega) (by omega)
  have hH' : ∀ j, j < cnt → H (pageOf o.pool m.cur (v.toNat / 4096 + j)) := fun j hj => hH _ (hpages j hj)
  have hdir : ∀ j t w, j < cnt → m.pgdir t = some w → pageOf o.pool m.cur (v.toNat / 4096 + j) ≠ .kpage (w.toNat / 4096) :=
    fun j t w hj hw => hs.data _ t w (hpages j hj) hw
  obtain ⟨m', hrun⟩ := mfreePage_runs inv hpos hv hH' hdir
  obtain ⟨inv', hun, hkeeps, m₁, hsame, hm', -⟩ := mfreePage_inv inv hH' hdir hrun
  have hprocs : SameProcs m m' := by
    rw [hm']
    exact hsame.procs.trans (markPages_procs _ _ _ _ _)
  have hrevoke : ∀ k, dropPages P (v.toNat / 4096) cnt k →
      revoke H (pageOf o.pool m.cur) (v.toNat / 4096) cnt (pageOf o.pool m.cur k) := by
    intro k hk
    refine ⟨hH k hk.1, ?_⟩
    intro j hj heq
    have := pageOf_inj heq
    exact hk.2 (by omega)
  refine ⟨m', hrun, ⟨⟨stray, _, inv', ?_⟩, ?_, ?_, ?_, ?_, ?_⟩, hprocs.pgdir, hprocs.cur, ?_⟩
  · rw [hprocs.cur]
    exact hrevoke
  · rw [hprocs.cur, hprocs.pgdir]
    exact fun k t w hk => hs.data k t w hk.1
  · rw [hprocs.cur, hprocs.pgdir]
    exact hs.task
  · rw [hprocs.cur, hprocs.pgdir, hprocs.len]
    exact hs.thread
  · intro hpf
    rw [hpf] at hm' hun hH
    refine (hs.account hpf).release ?_ hin hpos ?_ hsame hm' hun
    · intro k hk
      have hr := hs.range hk
      rw [hpf, basePage] at hr
      exact ⟨hr.1, hr.2.1⟩
    · intro k l g hk hl hfk hfl
      have := inv.inj (.kpage k) (.kpage l) g (inv.page _ (hH k hk)).1 (inv.page _ (hH l hl)).1 hfk hfl
      rwa [Use.kpage.injEq] at this
  · intro k hk f hf
    rw [hprocs.tlb] at hf
    rw [hprocs.cur]
    exact (hkeeps _ f (hrevoke k hk) (fun t w hw => hs.data k t w hk.1 hw) (hs.cached k hk.1 f hf)).1
  · intro k f hk hf
    exact hkeeps _ f (hrevoke k hk) (fun t w hw => hs.data k t w hk.1 hw) hf

variable {h h₁ : Heap}

theorem At.alloc (hat : At o P W h) (hcached : Unstale h.machine o.pool (vaddrOf o.pool h.machine).vaddrBitmap 0 cnt)
    {r : Option Word} (hm : page (mallocPage o.pool cnt) h = .ok (r, h₁)) :
    (r = none ∧ h₁ = h) ∨ ∃ v h₂, r = some v ∧ v.toNat % 4096 = 0 ∧ 0 < cnt ∧
      (∀ k, v.toNat / 4096 ≤ k → k < v.toNat / 4096 + cnt → ¬ P k) ∧ page (clearPages cnt v) h₁ = .ok ((), h₂) ∧
      At o (addPages P (v.toNat / 4096) cnt) (zeroPages W (v.toNat / 4096) cnt) h₂ := by
  rw [page] at hm
  cases hrun : mallocPage o.pool cnt h.machine with
  | error e =>
    rw [hrun] at hm
    cases hm
  | ok p =>
    obtain ⟨r', m₁⟩ := p
    rw [hrun] at hm
    simp only [Except.ok.injEq, Prod.mk.injEq] at hm
    obtain ⟨rfl, rfl⟩ := hm
    rcases hat.space.alloc hcached hrun with ⟨rfl, rfl⟩ | ⟨v, rfl, hv, hpos, hnot, hspace, hpgdir, hcur, hkeep⟩
    · exact Or.inl ⟨rfl, rfl⟩
    · have hnew : ∀ k, v.toNat / 4096 ≤ k → k < v.toNat / 4096 + cnt → addPages P (v.toNat / 4096) cnt k :=
        fun k hk hk' => Or.inr ⟨hk, hk'⟩
      obtain ⟨m₂, hclear, hspace₂, hpgdir₂, hcur₂, hkeep₂, hzero⟩ := hspace.clear hnew hpos
      refine Or.inr ⟨v, { h with machine := m₂ }, rfl, hv, hpos, hnot, ?_, hspace₂, ?_, ?_, ?_⟩
      · rw [page, hclear]
      · exact (Heap.descs_machine (hpgdir₂.trans hpgdir) (hcur₂.trans hcur)).trans hat.descs
      · intro a ha
        rw [zeroPages, if_neg]
        · exact hat.descCells a ha
        · intro hin
          exact hspace.not_desc (Or.inr hin) ha
      · intro a ha
        rw [zeroPages]
        split_ifs with hin
        · exact hzero a hin.1 hin.2
        · have hold : P (a.toNat / 4096) := ha.resolve_right hin
          rw [hkeep₂.load hspace hspace₂ hcur₂ ⟨ha, hin⟩ ha ha, hkeep.load hat.space hspace hcur hold hold ha]
          exact hat.pageCells a hold

theorem At.release (hat : At o P W h) (hv : v.toNat % 4096 = 0) (hpos : 0 < cnt)
    (hin : ∀ k, v.toNat / 4096 ≤ k → k < v.toNat / 4096 + cnt → P k) :
    ∃ h', page (mfreePage o.pool v cnt) h = .ok ((), h') ∧ At o (dropPages P (v.toNat / 4096) cnt) W h' := by
  obtain ⟨m', hrun, hspace, hpgdir, hcur, hkeep⟩ := hat.space.release hv hpos hin
  refine ⟨{ h with machine := m' }, ?_, hspace, ?_, hat.descCells, ?_⟩
  · rw [page, hrun]
  · exact (Heap.descs_machine hpgdir hcur).trans hat.descs
  · intro a ha
    rw [hkeep.load hat.space hspace hcur ha ha.1 ha]
    exact hat.pageCells a ha.1

end

end ElephantOS.Paging
