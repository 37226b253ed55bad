import ElephantOS.PageAllocation
import ElephantOS.PageEntries

namespace ElephantOS.Paging

/-- A frame holds a page of the kernel's heap, a page table of a process or a page of a process. -/
inductive Use
  | kpage (n : ℕ)
  | table (t i : ℕ)
  | upage (t n : ℕ)
  deriving DecidableEq

def Use.pool : Use → Pool
  | .upage _ _ => .user
  | _ => .kernel

def kernelTable (i : ℕ) : Word := BitVec.ofNat 32 (0x101000 + (i - 768) * 4096)

def kernelFrame (mem : PhysMem) (n : ℕ) : Option Word := entryFrame mem (kernelTable (n / 1024)) (n % 1024)

def dirOf (m : Machine) (t : ℕ) : Option Word := (m.pgdir t).bind fun v => kernelFrame m.mem (v.toNat / 4096)

def useFrame (m : Machine) : Use → Option Word
  | .kpage n => kernelFrame m.mem n
  | .table t i => (dirOf m t).bind fun d => entryFrame m.mem d i
  | .upage t n => (dirOf m t).bind fun d =>
      (entryFrame m.mem d (n / 1024)).bind fun p => entryFrame m.mem p (n % 1024)

def Use.Valid : Use → Prop
  | .kpage n => 0xc0000 ≤ n ∧ n < 0xffc00
  | .table _ i => i < 768
  | .upage _ n => n < 0xc0000

def Live (H : Use → Prop) : Use → Prop
  | .kpage n => H (.kpage n)
  | .table _ i => i < 768
  | .upage _ n => n < 0xc0000

def Taken (m : Machine) (pf : Pool) (f : Word) : Prop :=
  ∃ b, b < 8 * (poolOf pf m).poolBitmap.btmpBytesLen ∧ f = BitVec.ofNat 32 (b * 4096 + (poolOf pf m).phyAddrStart) ∧
    (poolOf pf m).poolBitmap.scanTest b = true

def Fresh (m : Machine) (H : Use → Prop) (f : Word) : Prop :=
  Aligned f ∧ ∀ u, Live H u → useFrame m u ≠ some f

structure Shape (m : Machine) : Prop where
  kernelStart : m.kernelPool.phyAddrStart = 0x200000
  kernelEnd : 0x200000 + 8 * m.kernelPool.poolBitmap.btmpBytesLen * 4096 ≤ m.userPool.phyAddrStart
  userStart : m.userPool.phyAddrStart % 4096 = 0
  userEnd : m.userPool.phyAddrStart + 8 * m.userPool.poolBitmap.btmpBytesLen * 4096 < 0xc0000000
  heapStart : m.kernelVaddr.vaddrStart = kHeapStart
  heapEnd : 8 * m.kernelVaddr.vaddrBitmap.btmpBytesLen < 0x8000
  task : ∀ t v, m.pgdir t = some v →
    (m.userVaddr t).vaddrStart = userVaddrStart ∧ (m.userVaddr t).vaddrBitmap.btmpBytesLen = 94199

structure KernelSpace (mem : PhysMem) (dir : Word) : Prop where
  aligned : Aligned dir
  kernel : ∀ i, 768 ≤ i → i < 1023 → entryFrame mem dir i = some (kernelTable i)
  self : entryFrame mem dir 1023 = some dir

def WindowCached (m : Machine) : Prop := ∀ i f, i < 1024 → m.tlb (0xffc00 + i) = some f → entryFrame m.mem m.cr3 i = some f

structure FrameInv (stray : ℕ → Prop) (slack : ℕ) (H : Use → Prop) (m : Machine) : Prop where
  shape : Shape m
  near : slack ≤ 1
  root : KernelSpace m.mem kernelDir
  low : ∀ j, j < 256 → entryFrame m.mem (kernelTable 768) j = some (BitVec.ofNat 32 (j * 4096))
  identity : ∀ i, i < 768 → entryFrame m.mem kernelDir i = if i = 0 then some (kernelTable 768) else none
  dirPage : ∀ t v, m.pgdir t = some v → v.toNat % 4096 = 0 ∧ H (.kpage (v.toNat / 4096))
  dirSpace : ∀ t d, dirOf m t = some d → KernelSpace m.mem d
  dirOwn : ∀ t t' v v', m.pgdir t = some v → m.pgdir t' = some v' → v.toNat / 4096 = v'.toNat / 4096 → t = t'
  active : m.cr3 = (dirOf m m.cur).getD kernelDir
  mapped : ∀ u, H u → ∃ f, useFrame m u = some f
  page : ∀ u, H u → Live H u ∧ ∀ t i, u ≠ .table t i
  heap : ∀ n, H (.kpage n) → 0xc0100 ≤ n ∧ n < 0xc0100 + 8 * m.kernelVaddr.vaddrBitmap.btmpBytesLen + slack ∧
    m.kernelVaddr.vaddrBitmap.scanTest (n - 0xc0100) = true
  strays : ∀ n f, 0xc0100 ≤ n → n < 0xffc00 → kernelFrame m.mem n = some f → H (.kpage n) ∨ stray n
  inj : ∀ u u' f, Live H u → Live H u' → useFrame m u = some f → useFrame m u' = some f → u = u'
  taken : ∀ u f, Live H u → useFrame m u = some f → Taken m u.pool f
  user : ∀ t n f, n < 0xc0000 → useFrame m (.upage t n) = some f →
    0x8048 ≤ n ∧ (m.userVaddr t).vaddrBitmap.scanTest (n - 0x8048) = true
  window : WindowCached m

section

variable {stray : ℕ → Prop} {slack : ℕ} {H : Use → Prop} {m : Machine}

theorem aligned_kernelTable (i : ℕ) : Aligned (kernelTable i) := by
  rw [aligned_iff, kernelTable, BitVec.toNat_ofNat]
  omega

theorem toNat_kernelTable {i : ℕ} (hi : i < 1023) : (kernelTable i).toNat = 0x101000 + (i - 768) * 4096 := by
  rw [kernelTable, BitVec.toNat_ofNat]
  omega

theorem kernelTable_inj {i j : ℕ} (hi : 768 ≤ i) (hi' : i < 1023) (hj : 768 ≤ j) (hj' : j < 1023)
    (h : kernelTable i = kernelTable j) : i = j := by
  have hnat := congrArg BitVec.toNat h
  rw [toNat_kernelTable hi', toNat_kernelTable hj'] at hnat
  omega

theorem aligned_kernelDir : Aligned kernelDir := by
  rw [aligned_iff]
  decide

theorem kernelSlot_inj {n n' : ℕ} (hn : 0xc0000 ≤ n) (hn' : n < 0xffc00) (hk : 0xc0000 ≤ n') (hk' : n' < 0xffc00)
    (h : kernelTable (n / 1024) = kernelTable (n' / 1024)) (h' : n % 1024 = n' % 1024) : n = n' := by
  have := kernelTable_inj (by omega) (by omega) (by omega) (by omega) h
  omega

theorem taken_toNat (hs : Shape m) {pf : Pool} {f : Word} (h : Taken m pf f) :
    f.toNat % 4096 = 0 ∧ 0x200000 ≤ f.toNat ∧
      ((pf = .user ∧ m.userPool.phyAddrStart ≤ f.toNat) ∨ (pf = .kernel ∧ f.toNat < m.userPool.phyAddrStart)) := by
  obtain ⟨b, hb, rfl, -⟩ := h
  have hend := hs.kernelEnd
  have huser := hs.userEnd
  have hmod := hs.userStart
  rw [BitVec.toNat_ofNat]
  cases pf with
  | kernel =>
    have hstart := hs.kernelStart
    simp only [poolOf] at hb ⊢
    rw [hstart]
    refine ⟨by omega, by omega, Or.inr ⟨trivial, by omega⟩⟩
  | user =>
    simp only [poolOf] at hb ⊢
    refine ⟨by omega, by omega, Or.inl ⟨trivial, by omega⟩⟩

theorem taken_pool (hs : Shape m) {pf pf' : Pool} {f : Word} (h : Taken m pf f) (h' : Taken m pf' f) : pf = pf' := by
  rcases (taken_toNat hs h).2.2 with ⟨hp, hlt⟩ | ⟨hp, hlt⟩ <;>
    rcases (taken_toNat hs h').2.2 with ⟨hp', hlt'⟩ | ⟨hp', hlt'⟩
  · rw [hp, hp']
  · omega
  · omega
  · rw [hp, hp']

theorem taken_aligned (hs : Shape m) {pf : Pool} {f : Word} (h : Taken m pf f) : Aligned f :=
  (aligned_iff f).mpr (taken_toNat hs h).1

theorem taken_ne_kernelTable (hs : Shape m) {pf : Pool} {f : Word} (h : Taken m pf f) {i : ℕ} (hi : i < 1023) :
    f ≠ kernelTable i := by
  rintro rfl
  have hf := (taken_toNat hs h).2.1
  rw [toNat_kernelTable hi] at hf
  omega

theorem taken_ne_kernelDir (hs : Shape m) {pf : Pool} {f : Word} (h : Taken m pf f) : f ≠ kernelDir := by
  rintro rfl
  have hf := (taken_toNat hs h).2.1
  have hdir : kernelDir.toNat = 0x100000 := rfl
  omega

theorem kernelTable_ne_kernelDir {i : ℕ} (hi : i < 1023) : kernelTable i ≠ kernelDir := by
  intro h
  have hnat := congrArg BitVec.toNat h
  rw [toNat_kernelTable hi] at hnat
  have hdir : kernelDir.toNat = 0x100000 := rfl
  omega

theorem dirOf_some {t : ℕ} {d : Word} :
    dirOf m t = some d ↔ ∃ v, m.pgdir t = some v ∧ useFrame m (.kpage (v.toNat / 4096)) = some d := by
  unfold dirOf
  cases m.pgdir t with
  | none => simp
  | some v => simp [useFrame]

theorem useFrame_table {t i : ℕ} {f : Word} :
    useFrame m (.table t i) = some f ↔ ∃ d, dirOf m t = some d ∧ entryFrame m.mem d i = some f := by
  simp [useFrame, Option.bind_eq_some_iff]

theorem useFrame_table_congr {m' : Machine} {t i : ℕ} (hdir : dirOf m' t = dirOf m t)
    (hd : ∀ d, dirOf m t = some d → entryFrame m'.mem d i = entryFrame m.mem d i) :
    useFrame m' (.table t i) = useFrame m (.table t i) := by
  simp only [useFrame, hdir]
  cases h : dirOf m t with
  | none => rfl
  | some d => exact hd d h

theorem useFrame_upage_congr {m' : Machine} {t n : ℕ}
    (ht : useFrame m' (.table t (n / 1024)) = useFrame m (.table t (n / 1024)))
    (hp : ∀ p, useFrame m (.table t (n / 1024)) = some p →
      entryFrame m'.mem p (n % 1024) = entryFrame m.mem p (n % 1024)) :
    useFrame m' (.upage t n) = useFrame m (.upage t n) := by
  have hbind : ∀ k : Machine, useFrame k (.upage t n) =
      (useFrame k (.table t (n / 1024))).bind fun p => entryFrame k.mem p (n % 1024) := by
    intro k
    simp only [useFrame, Option.bind_assoc]
  rw [hbind, hbind, ht]
  cases h : useFrame m (.table t (n / 1024)) with
  | none => rfl
  | some p => exact hp p h

theorem useFrame_upage {t n : ℕ} {f : Word} :
    useFrame m (.upage t n) = some f ↔
      ∃ p, useFrame m (.table t (n / 1024)) = some p ∧ entryFrame m.mem p (n % 1024) = some f := by
  simp only [useFrame, Option.bind_eq_some_iff]
  constructor
  · rintro ⟨d, hd, p, hp, hf⟩
    exact ⟨p, ⟨d, hd, hp⟩, hf⟩
  · rintro ⟨p, ⟨d, hd, hp⟩, hf⟩
    exact ⟨d, hd, p, hp, hf⟩

end

namespace FrameInv

variable {stray : ℕ → Prop} {slack : ℕ} {H : Use → Prop} {m : Machine}

theorem dir_some (inv : FrameInv stray slack H m) {t : ℕ} {v : Word} (hv : m.pgdir t = some v) :
    ∃ d, dirOf m t = some d ∧ H (.kpage (v.toNat / 4096)) ∧ useFrame m (.kpage (v.toNat / 4096)) = some d := by
  obtain ⟨-, hH⟩ := inv.dirPage t v hv
  obtain ⟨d, hd⟩ := inv.mapped _ hH
  exact ⟨d, dirOf_some.mpr ⟨v, hv, hd⟩, hH, hd⟩

theorem dir_use (inv : FrameInv stray slack H m) {t : ℕ} {d : Word} (hd : dirOf m t = some d) :
    ∃ v, m.pgdir t = some v ∧ Live H (.kpage (v.toNat / 4096)) ∧ useFrame m (.kpage (v.toNat / 4096)) = some d := by
  obtain ⟨v, hv, hf⟩ := dirOf_some.mp hd
  exact ⟨v, hv, (inv.page _ (inv.dirPage t v hv).2).1, hf⟩

theorem dir_taken (inv : FrameInv stray slack H m) {t : ℕ} {d : Word} (hd : dirOf m t = some d) : Taken m .kernel d := by
  obtain ⟨v, -, hlive, hf⟩ := inv.dir_use hd
  exact inv.taken _ d hlive hf

theorem dir_inj (inv : FrameInv stray slack H m) {t t' : ℕ} {d : Word} (hd : dirOf m t = some d)
    (hd' : dirOf m t' = some d) : t = t' := by
  obtain ⟨v, hv, hlive, hf⟩ := inv.dir_use hd
  obtain ⟨v', hv', hlive', hf'⟩ := inv.dir_use hd'
  have hpage := inv.inj _ _ d hlive hlive' hf hf'
  rw [Use.kpage.injEq] at hpage
  exact inv.dirOwn t t' v v' hv hv' hpage

theorem cr3_space (inv : FrameInv stray slack H m) : KernelSpace m.mem m.cr3 := by
  rw [inv.active]
  cases hd : dirOf m m.cur with
  | none => exact inv.root
  | some d => exact inv.dirSpace m.cur d hd

theorem cr3_dir (inv : FrameInv stray slack H m) : m.cr3 = kernelDir ∨ ∃ t, dirOf m t = some m.cr3 := by
  rw [inv.active]
  cases hd : dirOf m m.cur with
  | none => exact Or.inl rfl
  | some d => exact Or.inr ⟨m.cur, hd⟩

structure Remap (slack : ℕ) (H H' : Use → Prop) (New : Use → Word → Prop) (m m' : Machine) : Prop where
  space : ∀ d, d = kernelDir ∨ (∃ t, dirOf m t = some d) →
    ∀ i, (768 ≤ i ∨ d = kernelDir) → i < 1024 → entryFrame m'.mem d i = entryFrame m.mem d i
  low : ∀ j, j < 256 → entryFrame m'.mem (kernelTable 768) j = entryFrame m.mem (kernelTable 768) j
  dir : ∀ t v, m.pgdir t = some v →
    H' (.kpage (v.toNat / 4096)) ∧ kernelFrame m'.mem (v.toNat / 4096) = kernelFrame m.mem (v.toNat / 4096)
  use : ∀ u f, Live H' u → useFrame m' u = some f → (Live H u ∧ useFrame m u = some f) ∨ New u f
  fresh : ∀ u f, New u f → Fresh m H f ∧ Taken m u.pool f
  once : ∀ u u' f, New u f → New u' f → u = u'
  mapped : ∀ u, H' u → ∃ f, useFrame m' u = some f
  page : ∀ u, H' u → H u ∨ (∃ f, New u f) ∧ Live H' u ∧ ∀ t i, u ≠ .table t i
  heap : ∀ n f, New (.kpage n) f → 0xc0100 ≤ n ∧
    n < 0xc0100 + 8 * m.kernelVaddr.vaddrBitmap.btmpBytesLen + slack ∧
    m.kernelVaddr.vaddrBitmap.scanTest (n - 0xc0100) = true
  stray : ∀ n f, 0xc0100 ≤ n → n < 0xffc00 → kernelFrame m'.mem n = some f →
    H' (.kpage n) ∨ (¬ H (.kpage n) ∧ kernelFrame m.mem n = some f)
  user : ∀ t n f, New (.upage t n) f → 0x8048 ≤ n ∧ (m.userVaddr t).vaddrBitmap.scanTest (n - 0x8048) = true
  tables : ∀ i f, i < 1024 → entryFrame m.mem m.cr3 i = some f → entryFrame m'.mem m.cr3 i = some f

theorem remap (inv : FrameInv stray slack H m) {mem' : PhysMem} {H' : Use → Prop} (New : Use → Word → Prop)
    (r : Remap slack H H' New m { m with mem := mem' }) : FrameInv stray slack H' { m with mem := mem' } := by
  have hdirOf : ∀ t, dirOf { m with mem := mem' } t = dirOf m t := by
    intro t
    unfold dirOf
    cases hv : m.pgdir t with
    | none => simp
    | some v =>
      have h := (r.dir t v hv).2
      simpa using h
  have hspace : ∀ d, d = kernelDir ∨ (∃ t, dirOf m t = some d) → KernelSpace m.mem d → KernelSpace mem' d := by
    intro d hd hs
    refine ⟨hs.aligned, ?_, ?_⟩
    · intro i hi hi'
      exact (r.space d hd i (Or.inl hi) (by omega)).trans (hs.kernel i hi hi')
    · exact (r.space d hd 1023 (Or.inl (by omega)) (by omega)).trans hs.self
  refine ⟨⟨inv.shape.kernelStart, inv.shape.kernelEnd, inv.shape.userStart, inv.shape.userEnd, inv.shape.heapStart,
    inv.shape.heapEnd, inv.shape.task⟩, inv.near, hspace _ (Or.inl rfl) inv.root, ?_, ?_, ?_, ?_, inv.dirOwn, ?_, r.mapped, ?_, ?_, ?_, ?_, ?_, ?_,
    fun i f hi hf => r.tables i f hi (inv.window i f hi hf)⟩
  · intro j hj
    exact (r.low j hj).trans (inv.low j hj)
  · intro i hi
    exact (r.space kernelDir (Or.inl rfl) i (Or.inr rfl) (by omega)).trans (inv.identity i hi)
  · intro t v hv
    exact ⟨(inv.dirPage t v hv).1, (r.dir t v hv).1⟩
  · intro t d hd
    rw [hdirOf t] at hd
    exact hspace d (Or.inr ⟨t, hd⟩) (inv.dirSpace t d hd)
  · rw [hdirOf]
    exact inv.active
  · intro u hu
    rcases r.page u hu with hold | ⟨-, hlive, htable⟩
    · obtain ⟨hlive, htable⟩ := inv.page u hold
      refine ⟨?_, htable⟩
      cases u with
      | kpage n => exact hu
      | table t i => exact hlive
      | upage t n => exact hlive
    · exact ⟨hlive, htable⟩
  · intro n hn
    rcases r.page _ hn with hold | ⟨⟨f, hnew⟩, -, -⟩
    · exact inv.heap n hold
    · exact r.heap n f hnew
  · intro n f hn hn' hf
    rcases r.stray n f hn hn' hf with h | ⟨hnot, hold⟩
    · exact Or.inl h
    · rcases inv.strays n f hn hn' hold with h | h
      · exact absurd h hnot
      · exact Or.inr h
  · intro u u' f hu hu' hf hf'
    rcases r.use u f hu hf with ⟨hl, ho⟩ | hnew
    · rcases r.use u' f hu' hf' with ⟨hl', ho'⟩ | hnew'
      · exact inv.inj u u' f hl hl' ho ho'
      · exact absurd ho ((r.fresh u' f hnew').1.2 u hl)
    · rcases r.use u' f hu' hf' with ⟨hl', ho'⟩ | hnew'
      · exact absurd ho' ((r.fresh u f hnew).1.2 u' hl')
      · exact r.once u u' f hnew hnew'
  · intro u f hu hf
    rcases r.use u f hu hf with ⟨hl, ho⟩ | hnew
    · exact inv.taken u f hl ho
    · exact (r.fresh u f hnew).2
  · intro t n f hn hf
    rcases r.use (.upage t n) f hn hf with ⟨-, ho⟩ | hnew
    · exact inv.user t n f hn ho
    · exact r.user t n f hnew

theorem heap_range (inv : FrameInv stray slack H m) {n : ℕ} (h : H (.kpage n)) : 0xc0100 ≤ n ∧ n < 0xffc00 := by
  obtain ⟨hlo, hhi, -⟩ := inv.heap n h
  have hend := inv.shape.heapEnd
  have hnear := inv.near
  exact ⟨hlo, by omega⟩

theorem valid (inv : FrameInv stray slack H m) {u : Use} (hu : Live H u) : u.Valid := by
  cases u with
  | kpage n =>
    have hr := inv.heap_range hu
    exact ⟨by omega, hr.2⟩
  | table t i => exact hu
  | upage t n => exact hu

theorem table_taken (inv : FrameInv stray slack H m) {t i : ℕ} {p : Word} (hi : i < 768)
    (hp : useFrame m (.table t i) = some p) : Taken m .kernel p :=
  inv.taken (.table t i) p hi hp

theorem table_ne_dir (inv : FrameInv stray slack H m) {t i : ℕ} {p : Word} (hi : i < 768)
    (hp : useFrame m (.table t i) = some p) {d : Word} (hd : d = kernelDir ∨ ∃ t, dirOf m t = some d) : d ≠ p := by
  rintro rfl
  rcases hd with rfl | ⟨t', hd⟩
  · exact taken_ne_kernelDir inv.shape (inv.table_taken hi hp) rfl
  · obtain ⟨v, -, hlive, hf⟩ := inv.dir_use hd
    have h := inv.inj _ (.table t i) d hlive hi hf hp
    cases h

theorem dir_ne_kernelTable (inv : FrameInv stray slack H m) {d : Word} (hd : d = kernelDir ∨ ∃ t, dirOf m t = some d)
    {i : ℕ} (hi : i < 1023) : d ≠ kernelTable i := by
  rcases hd with rfl | ⟨t, hd⟩
  · exact (kernelTable_ne_kernelDir hi).symm
  · exact taken_ne_kernelTable inv.shape (inv.dir_taken hd) hi

theorem dir_aligned (inv : FrameInv stray slack H m) {d : Word} (hd : d = kernelDir ∨ ∃ t, dirOf m t = some d) :
    Aligned d := by
  rcases hd with rfl | ⟨t, hd⟩
  · exact aligned_kernelDir
  · exact (inv.dirSpace t d hd).aligned

end FrameInv

def Rewrites (mem mem' : PhysMem) (f : Word) (j : ℕ) (x : Option Word) : Prop :=
  ∀ g i, Aligned g → i < 1024 → entryFrame mem' g i = if g = f ∧ i = j then x else entryFrame mem g i

theorem Rewrites.other {mem mem' : PhysMem} {f : Word} {j : ℕ} {x : Option Word} (h : Rewrites mem mem' f j x)
    {g : Word} {i : ℕ} (hg : Aligned g) (hi : i < 1024) (hne : ¬ (g = f ∧ i = j)) :
    entryFrame mem' g i = entryFrame mem g i := by
  rw [h g i hg hi, if_neg hne]

namespace FrameInv

variable {stray : ℕ → Prop} {slack : ℕ} {H : Use → Prop} {m : Machine} {mem' : PhysMem}

theorem dirOf_congr (hdir : ∀ t v, m.pgdir t = some v →
    kernelFrame mem' (v.toNat / 4096) = kernelFrame m.mem (v.toNat / 4096)) (t : ℕ) :
    dirOf { m with mem := mem' } t = dirOf m t := by
  unfold dirOf
  cases hv : m.pgdir t with
  | none => simp
  | some v => simpa using hdir t v hv

theorem live_of_update {u w : Use} {x : Prop} (hne : w ≠ u) (h : Live (Function.update H u x) w) : Live H w := by
  cases w with
  | kpage n => simpa only [Live, Function.update_of_ne hne] using h
  | table t i => exact h
  | upage t n => exact h

theorem setKernel (inv : FrameInv stray slack H m) {n : ℕ} {x : Option Word} (hn : 0xc0100 ≤ n) (hn' : n < 0xffc00)
    (hdir : ∀ t v, m.pgdir t = some v → v.toNat / 4096 ≠ n)
    (hx : ∀ f, x = some f → Fresh m H f ∧ Taken m .kernel f ∧
      n < 0xc0100 + 8 * m.kernelVaddr.vaddrBitmap.btmpBytesLen + slack ∧
      m.kernelVaddr.vaddrBitmap.scanTest (n - 0xc0100) = true)
    (hmem : Rewrites m.mem mem' (kernelTable (n / 1024)) (n % 1024) x) :
    FrameInv stray slack (Function.update H (.kpage n) (x.isSome = true)) { m with mem := mem' } ∧
      useFrame { m with mem := mem' } (.kpage n) = x ∧
      ∀ u, u.Valid → u ≠ .kpage n → useFrame { m with mem := mem' } u = useFrame m u := by
  have hself : kernelFrame mem' n = x := by
    rw [kernelFrame, hmem _ _ (aligned_kernelTable _) (by omega), if_pos ⟨rfl, rfl⟩]
  have hother : ∀ k, 0xc0000 ≤ k → k < 0xffc00 → k ≠ n → kernelFrame mem' k = kernelFrame m.mem k := by
    intro k hk hk' hne
    refine hmem.other (aligned_kernelTable _) (by omega) ?_
    rintro ⟨htab, hidx⟩
    exact hne (kernelSlot_inj hk hk' (by omega) hn' htab hidx)
  have hpages : ∀ t v, m.pgdir t = some v →
      kernelFrame mem' (v.toNat / 4096) = kernelFrame m.mem (v.toNat / 4096) := by
    intro t v hv
    have hr := inv.heap_range (inv.dirPage t v hv).2
    exact hother _ (by omega) hr.2 (hdir t v hv)
  have hdirOf := dirOf_congr hpages
  have htable : ∀ t i, i < 768 → useFrame { m with mem := mem' } (.table t i) = useFrame m (.table t i) := by
    intro t i hi
    apply useFrame_table_congr (hdirOf t)
    intro d hd
    exact hmem.other (inv.dir_aligned (Or.inr ⟨t, hd⟩)) (by omega)
      fun h => inv.dir_ne_kernelTable (Or.inr ⟨t, hd⟩) (by omega) h.1
  have hupage : ∀ t k, k < 0xc0000 → useFrame { m with mem := mem' } (.upage t k) = useFrame m (.upage t k) := by
    intro t k hk
    apply useFrame_upage_congr (htable t _ (by omega))
    intro p hp
    have htaken := inv.table_taken (by omega) hp
    exact hmem.other (taken_aligned inv.shape htaken) (by omega)
      fun h => taken_ne_kernelTable inv.shape htaken (by omega) h.1
  have hall : ∀ u, u.Valid → u ≠ .kpage n → useFrame { m with mem := mem' } u = useFrame m u := by
    intro u hu hne
    cases u with
    | kpage k => exact hother k hu.1 hu.2 (by simpa using hne)
    | table t i => exact htable t i hu
    | upage t k => exact hupage t k hu
  refine ⟨?_, hself, hall⟩
  apply inv.remap fun u f => u = .kpage n ∧ x = some f
  constructor
  · intro d hd i hi hi'
    exact hmem.other (inv.dir_aligned hd) hi' fun h => inv.dir_ne_kernelTable hd (by omega) h.1
  · intro j hj
    refine hmem.other (aligned_kernelTable _) (by omega) ?_
    rintro ⟨htab, hidx⟩
    have := kernelTable_inj (by omega) (by omega) (by omega) (by omega) htab
    omega
  · intro t v hv
    rw [Function.update_of_ne (by simpa using hdir t v hv)]
    exact ⟨(inv.dirPage t v hv).2, hpages t v hv⟩
  · intro u f hu hf
    by_cases hun : u = .kpage n
    · subst hun
      exact Or.inr ⟨rfl, hself.symm.trans hf⟩
    · have hlive := live_of_update hun hu
      exact Or.inl ⟨hlive, (hall u (inv.valid hlive) hun).symm.trans hf⟩
  · rintro u f ⟨rfl, hf⟩
    exact ⟨(hx f hf).1, (hx f hf).2.1⟩
  · rintro u u' f ⟨rfl, -⟩ ⟨rfl, -⟩
    rfl
  · intro u hu
    by_cases hun : u = .kpage n
    · subst hun
      rw [Function.update_self] at hu
      obtain ⟨f, hf⟩ := Option.isSome_iff_exists.mp hu
      exact ⟨f, hself.trans hf⟩
    · rw [Function.update_of_ne hun] at hu
      obtain ⟨f, hf⟩ := inv.mapped u hu
      exact ⟨f, (hall u (inv.valid (inv.page u hu).1) hun).trans hf⟩
  · intro u hu
    by_cases hun : u = .kpage n
    · subst hun
      have hx' := hu
      rw [Function.update_self] at hx'
      obtain ⟨f, hf⟩ := Option.isSome_iff_exists.mp hx'
      exact Or.inr ⟨⟨f, rfl, hf⟩, hu, fun t i => by simp⟩
    · rw [Function.update_of_ne hun] at hu
      exact Or.inl hu
  · rintro k f ⟨hk, hf⟩
    rw [Use.kpage.injEq] at hk
    subst hk
    exact ⟨hn, (hx f hf).2.2⟩
  · intro k f hk hk' hf
    by_cases hkn : k = n
    · subst hkn
      left
      have hsome : x = some f := hself.symm.trans hf
      simp [hsome]
    · have hold : kernelFrame m.mem k = some f := (hother k (by omega) hk' hkn).symm.trans hf
      have hne : Use.kpage k ≠ .kpage n := by simpa using hkn
      by_cases hH : H (.kpage k)
      · left
        rw [Function.update_of_ne hne]
        exact hH
      · exact Or.inr ⟨hH, hold⟩
  · rintro t k f ⟨h, -⟩
    cases h
  · intro i f hi hf
    rw [hmem.other (inv.dir_aligned inv.cr3_dir) hi fun h => inv.dir_ne_kernelTable inv.cr3_dir (by omega) h.1]
    exact hf

theorem setUser (inv : FrameInv stray slack H m) {t n : ℕ} {p : Word} {x : Option Word} (hn : n < 0xc0000)
    (hp : useFrame m (.table t (n / 1024)) = some p)
    (hx : ∀ f, x = some f → Fresh m H f ∧ Taken m .user f ∧ 0x8048 ≤ n ∧
      (m.userVaddr t).vaddrBitmap.scanTest (n - 0x8048) = true)
    (hmem : Rewrites m.mem mem' p (n % 1024) x) :
    FrameInv stray slack (Function.update H (.upage t n) (x.isSome = true)) { m with mem := mem' } ∧
      useFrame { m with mem := mem' } (.upage t n) = x ∧
      ∀ u, u.Valid → u ≠ .upage t n → useFrame { m with mem := mem' } u = useFrame m u := by
  have hi : n / 1024 < 768 := by omega
  have hpt := inv.table_taken hi hp
  have hkernel : ∀ k, 0xc0000 ≤ k → k < 0xffc00 → kernelFrame mem' k = kernelFrame m.mem k := by
    intro k hk hk'
    exact hmem.other (aligned_kernelTable _) (by omega)
      fun h => taken_ne_kernelTable inv.shape hpt (by omega) h.1.symm
  have hpages : ∀ t v, m.pgdir t = some v →
      kernelFrame mem' (v.toNat / 4096) = kernelFrame m.mem (v.toNat / 4096) := by
    intro t v hv
    have hr := inv.heap_range (inv.dirPage t v hv).2
    exact hkernel _ (by omega) hr.2
  have hdirOf := dirOf_congr hpages
  have htable : ∀ t i, i < 768 → useFrame { m with mem := mem' } (.table t i) = useFrame m (.table t i) := by
    intro t' i hi'
    apply useFrame_table_congr (hdirOf t')
    intro d hd
    exact hmem.other (inv.dir_aligned (Or.inr ⟨t', hd⟩)) (by omega)
      fun h => inv.table_ne_dir hi hp (Or.inr ⟨t', hd⟩) h.1
  have hself : useFrame { m with mem := mem' } (.upage t n) = x := by
    have h := htable t (n / 1024) hi
    rw [hp] at h
    simp only [useFrame, Option.bind_eq_some_iff] at h
    obtain ⟨d, hd, hdp⟩ := h
    simp only [useFrame, hd, hdp, Option.bind_some]
    rw [hmem p _ (taken_aligned inv.shape hpt) (by omega), if_pos ⟨rfl, rfl⟩]
  have hupage : ∀ t' k, k < 0xc0000 → Use.upage t' k ≠ .upage t n →
      useFrame { m with mem := mem' } (.upage t' k) = useFrame m (.upage t' k) := by
    intro t' k hk hne
    apply useFrame_upage_congr (htable t' _ (by omega))
    intro q hq
    refine hmem.other (taken_aligned inv.shape (inv.table_taken (by omega) hq)) (by omega) ?_
    rintro ⟨rfl, hidx⟩
    have hsame := inv.inj (.table t' (k / 1024)) (.table t (n / 1024)) q (by simp only [Live]; omega) hi hq hp
    rw [Use.table.injEq] at hsame
    exact hne (by rw [hsame.1, show k = n by omega])
  have hall : ∀ u, u.Valid → u ≠ .upage t n → useFrame { m with mem := mem' } u = useFrame m u := by
    intro u hu hne
    cases u with
    | kpage k => exact hkernel k hu.1 hu.2
    | table t' i => exact htable t' i hu
    | upage t' k => exact hupage t' k hu hne
  refine ⟨?_, hself, hall⟩
  apply inv.remap fun u f => u = .upage t n ∧ x = some f
  constructor
  · intro d hd i hi' hi''
    exact hmem.other (inv.dir_aligned hd) hi'' fun h => inv.table_ne_dir hi hp hd h.1
  · intro j hj
    exact hmem.other (aligned_kernelTable _) (by omega)
      fun h => taken_ne_kernelTable inv.shape hpt (by omega) h.1.symm
  · intro t' v hv
    rw [Function.update_of_ne (by simp)]
    exact ⟨(inv.dirPage t' v hv).2, hpages t' v hv⟩
  · intro u f hu hf
    by_cases hun : u = .upage t n
    · subst hun
      exact Or.inr ⟨rfl, hself.symm.trans hf⟩
    · have hlive := live_of_update hun hu
      exact Or.inl ⟨hlive, (hall u (inv.valid hlive) hun).symm.trans hf⟩
  · rintro u f ⟨rfl, hf⟩
    exact ⟨(hx f hf).1, (hx f hf).2.1⟩
  · rintro u u' f ⟨rfl, -⟩ ⟨rfl, -⟩
    rfl
  · intro u hu
    by_cases hun : u = .upage t n
    · subst hun
      rw [Function.update_self] at hu
      obtain ⟨f, hf⟩ := Option.isSome_iff_exists.mp hu
      exact ⟨f, hself.trans hf⟩
    · rw [Function.update_of_ne hun] at hu
      obtain ⟨f, hf⟩ := inv.mapped u hu
      exact ⟨f, (hall u (inv.valid (inv.page u hu).1) hun).trans hf⟩
  · intro u hu
    by_cases hun : u = .upage t n
    · subst hun
      rw [Function.update_self] at hu
      obtain ⟨f, hf⟩ := Option.isSome_iff_exists.mp hu
      exact Or.inr ⟨⟨f, rfl, hf⟩, hn, fun t' i => by simp⟩
    · rw [Function.update_of_ne hun] at hu
      exact Or.inl hu
  · rintro k f ⟨h, -⟩
    cases h
  · intro k f hk hk' hf
    have hold : kernelFrame m.mem k = some f := (hkernel k (by omega) hk').symm.trans hf
    by_cases hH : H (.kpage k)
    · left
      rw [Function.update_of_ne (by simp)]
      exact hH
    · exact Or.inr ⟨hH, hold⟩
  · rintro t' k f ⟨h, hf⟩
    rw [Use.upage.injEq] at h
    obtain ⟨rfl, rfl⟩ := h
    exact (hx f hf).2.2
  · intro k f hk hf
    rw [hmem.other (inv.dir_aligned inv.cr3_dir) hk fun h => inv.table_ne_dir hi hp inv.cr3_dir h.1]
    exact hf

theorem addTable (inv : FrameInv stray slack H m) {t i : ℕ} {d f : Word} (hi : i < 768) (hd : dirOf m t = some d)
    (hnone : entryFrame m.mem d i = none) (hf : Fresh m H f) (hft : Taken m .kernel f)
    (hmem : ∀ g k, Aligned g → k < 1024 → entryFrame mem' g k =
      if g = f then none else if g = d ∧ k = i then some f else entryFrame m.mem g k) :
    FrameInv stray slack H { m with mem := mem' } ∧ useFrame { m with mem := mem' } (.table t i) = some f ∧
      ∀ u, u.Valid → u ≠ .table t i → useFrame { m with mem := mem' } u = useFrame m u := by
  have hused : ∀ g, (g = kernelDir ∨ ∃ t, dirOf m t = some g) → g ≠ f := by
    rintro g (rfl | ⟨t', hg⟩) rfl
    · exact taken_ne_kernelDir inv.shape hft rfl
    · obtain ⟨v, -, hlive, hv⟩ := inv.dir_use hg
      exact hf.2 _ hlive hv
  have hkernel : ∀ k, 0xc0000 ≤ k → k < 0xffc00 → kernelFrame mem' k = kernelFrame m.mem k := by
    intro k hk hk'
    rw [kernelFrame, hmem _ _ (aligned_kernelTable _) (by omega),
      if_neg (taken_ne_kernelTable inv.shape hft (by omega)).symm,
      if_neg (fun h => inv.dir_ne_kernelTable (Or.inr ⟨t, hd⟩) (by omega) h.1.symm)]
    rfl
  have hpages : ∀ t v, m.pgdir t = some v →
      kernelFrame mem' (v.toNat / 4096) = kernelFrame m.mem (v.toNat / 4096) := by
    intro t v hv
    have hr := inv.heap_range (inv.dirPage t v hv).2
    exact hkernel _ (by omega) hr.2
  have hdirOf := dirOf_congr hpages
  have htable : ∀ t' k, k < 768 → Use.table t' k ≠ .table t i →
      useFrame { m with mem := mem' } (.table t' k) = useFrame m (.table t' k) := by
    intro t' k hk hne
    apply useFrame_table_congr (hdirOf t')
    intro g hg
    rw [hmem g k (inv.dir_aligned (Or.inr ⟨t', hg⟩)) (by omega), if_neg (hused g (Or.inr ⟨t', hg⟩)), if_neg]
    rintro ⟨rfl, rfl⟩
    exact hne (by rw [inv.dir_inj hg hd])
  have hself : useFrame { m with mem := mem' } (.table t i) = some f := by
    simp only [useFrame, hdirOf t, hd, Option.bind_some]
    rw [hmem d i (inv.dir_aligned (Or.inr ⟨t, hd⟩)) (by omega), if_neg (hused d (Or.inr ⟨t, hd⟩)), if_pos ⟨rfl, rfl⟩]
  -- a page below the new table was not mapped before and is not now
  have hupage : ∀ t' k, k < 0xc0000 → useFrame { m with mem := mem' } (.upage t' k) = useFrame m (.upage t' k) := by
    intro t' k hk
    by_cases hnew : Use.table t' (k / 1024) = .table t i
    · rw [Use.table.injEq] at hnew
      obtain ⟨rfl, rfl⟩ := hnew
      simp only [useFrame, hdirOf t', hd, hnone, Option.bind_some, Option.bind_none]
      rw [hmem d _ (inv.dir_aligned (Or.inr ⟨t', hd⟩)) (by omega), if_neg (hused d (Or.inr ⟨t', hd⟩)),
        if_pos ⟨rfl, rfl⟩, Option.bind_some, hmem f _ hf.1 (by omega), if_pos rfl]
    · apply useFrame_upage_congr (htable t' _ (by omega) hnew)
      intro q hq
      have hlive : Live H (.table t' (k / 1024)) := by simp only [Live]; omega
      rw [hmem q _ (taken_aligned inv.shape (inv.taken _ q hlive hq)) (by omega), if_neg, if_neg]
      · rintro ⟨rfl, -⟩
        exact inv.table_ne_dir hlive hq (Or.inr ⟨t, hd⟩) rfl
      · rintro rfl
        exact hf.2 _ hlive hq
  have hall : ∀ u, u.Valid → u ≠ .table t i → useFrame { m with mem := mem' } u = useFrame m u := by
    intro u hu hne
    cases u with
    | kpage k => exact hkernel k hu.1 hu.2
    | table t' k => exact htable t' k hu hne
    | upage t' k => exact hupage t' k hu
  refine ⟨?_, hself, hall⟩
  apply inv.remap fun u g => u = .table t i ∧ g = f
  constructor
  · intro g hg k hk hk'
    rw [hmem g k (inv.dir_aligned hg) hk', if_neg (hused g hg), if_neg]
    rintro ⟨hgd, hki⟩
    rcases hk with hk | hk
    · omega
    · exact taken_ne_kernelDir inv.shape (inv.dir_taken hd) (hgd.symm.trans hk)
  · intro j hj
    rw [hmem _ _ (aligned_kernelTable _) (by omega), if_neg (taken_ne_kernelTable inv.shape hft (by omega)).symm,
      if_neg (fun h => inv.dir_ne_kernelTable (Or.inr ⟨t, hd⟩) (by omega) h.1.symm)]
  · intro t' v hv
    exact ⟨(inv.dirPage t' v hv).2, hpages t' v hv⟩
  · intro u g hu hg
    by_cases hk : u = .table t i
    · rw [hk, hself, Option.some.injEq] at hg
      exact Or.inr ⟨hk, hg.symm⟩
    · exact Or.inl ⟨hu, (hall u (inv.valid hu) hk).symm.trans hg⟩
  · rintro u g ⟨rfl, rfl⟩
    exact ⟨hf, hft⟩
  · rintro u u' g ⟨rfl, -⟩ ⟨rfl, -⟩
    rfl
  · intro u hu
    obtain ⟨g, hg⟩ := inv.mapped u hu
    exact ⟨g, (hall u (inv.valid (inv.page u hu).1) ((inv.page u hu).2 t i)).trans hg⟩
  · intro u hu
    exact Or.inl hu
  · rintro k g ⟨h, -⟩
    cases h
  · intro k g hk hk' hg
    have hold : kernelFrame m.mem k = some g := (hkernel k (by omega) hk').symm.trans hg
    by_cases hH : H (.kpage k)
    · exact Or.inl hH
    · exact Or.inr ⟨hH, hold⟩
  · rintro t' k g ⟨h, -⟩
    cases h
  · intro k g hk hg
    rw [hmem _ k (inv.dir_aligned inv.cr3_dir) hk, if_neg (hused _ inv.cr3_dir), if_neg]
    · exact hg
    · rintro ⟨hcr3, rfl⟩
      rw [hcr3, hnone] at hg
      cases hg

theorem fill (inv : FrameInv stray slack H m) {u : Use} {f : Word} (hu : H u) (hf : useFrame m u = some f)
    (hdir : ∀ t v, m.pgdir t = some v → u ≠ .kpage (v.toNat / 4096))
    (hmem : ∀ a, frame a ≠ f → mem' a = m.mem a) :
    FrameInv stray slack H { m with mem := mem' } ∧ ∀ w, w.Valid → useFrame { m with mem := mem' } w = useFrame m w := by
  obtain ⟨hlive, hpage⟩ := inv.page u hu
  have htaken := inv.taken u f hlive hf
  have hframe : ∀ g k, Aligned g → k < 1024 → g ≠ f → entryFrame mem' g k = entryFrame m.mem g k :=
    fun g k hg hk hne => entryFrame_congr (entry_outside hmem hg hk hne)
  have hused : ∀ g, (g = kernelDir ∨ ∃ t, dirOf m t = some g) → g ≠ f := by
    rintro g (rfl | ⟨t, hg⟩) rfl
    · exact taken_ne_kernelDir inv.shape htaken rfl
    · obtain ⟨v, hv, hlive', hf'⟩ := inv.dir_use hg
      exact hdir t v hv (inv.inj _ _ g hlive hlive' hf hf')
  have hkernel : ∀ k, 0xc0000 ≤ k → k < 0xffc00 → kernelFrame mem' k = kernelFrame m.mem k := by
    intro k hk hk'
    exact hframe _ _ (aligned_kernelTable _) (by omega) (taken_ne_kernelTable inv.shape htaken (by omega)).symm
  have hpages : ∀ t v, m.pgdir t = some v →
      kernelFrame mem' (v.toNat / 4096) = kernelFrame m.mem (v.toNat / 4096) := by
    intro t v hv
    have hr := inv.heap_range (inv.dirPage t v hv).2
    exact hkernel _ (by omega) hr.2
  have hdirOf := dirOf_congr hpages
  have hall : ∀ w, w.Valid → useFrame { m with mem := mem' } w = useFrame m w := by
    have htable : ∀ t i, i < 768 → useFrame { m with mem := mem' } (.table t i) = useFrame m (.table t i) := by
      intro t i hi
      apply useFrame_table_congr (hdirOf t)
      intro d hd
      exact hframe d i (inv.dir_aligned (Or.inr ⟨t, hd⟩)) (by omega) (hused d (Or.inr ⟨t, hd⟩))
    intro w hw
    cases w with
    | kpage k => exact hkernel k hw.1 hw.2
    | table t i => exact htable t i hw
    | upage t k =>
      have hk : k < 0xc0000 := hw
      have hi : k / 1024 < 768 := by omega
      apply useFrame_upage_congr (htable t _ hi)
      intro q hq
      refine hframe q _ (taken_aligned inv.shape (inv.table_taken hi hq)) (by omega) ?_
      rintro rfl
      exact hpage t _ (inv.inj u (.table t (k / 1024)) q hlive hi hf hq)
  refine ⟨?_, hall⟩
  apply inv.remap fun _ _ => False
  constructor
  · intro d hd i hi hi'
    exact hframe d i (inv.dir_aligned hd) hi' (hused d hd)
  · intro j hj
    exact hframe _ _ (aligned_kernelTable _) (by omega) (taken_ne_kernelTable inv.shape htaken (by omega)).symm
  · intro t v hv
    exact ⟨(inv.dirPage t v hv).2, hpages t v hv⟩
  · intro w g hw hg
    exact Or.inl ⟨hw, (hall w (inv.valid hw)).symm.trans hg⟩
  · intro w g h
    exact h.elim
  · intro w w' g h
    exact h.elim
  · intro w hw
    obtain ⟨g, hg⟩ := inv.mapped w hw
    exact ⟨g, (hall w (inv.valid (inv.page w hw).1)).trans hg⟩
  · intro w hw
    exact Or.inl hw
  · intro k g h
    exact h.elim
  · intro k g hk hk' hg
    have hold : kernelFrame m.mem k = some g := (hkernel k (by omega) hk').symm.trans hg
    by_cases hH : H (.kpage k)
    · exact Or.inl hH
    · exact Or.inr ⟨hH, hold⟩
  · intro t k g h
    exact h.elim
  · intro i g hi hg
    rw [hframe _ i (inv.dir_aligned inv.cr3_dir) hi (hused _ inv.cr3_dir)]
    exact hg

theorem useFrame_same {m' : Machine} (hmem : m'.mem = m.mem) (hpgdir : m'.pgdir = m.pgdir) (u : Use) :
    useFrame m' u = useFrame m u := by
  have hdir : ∀ t, dirOf m' t = dirOf m t := by
    intro t
    rw [dirOf, dirOf, hmem, hpgdir]
  cases u with
  | kpage n => rw [useFrame, useFrame, hmem]
  | table t i => rw [useFrame, useFrame, hmem, hdir]
  | upage t n => rw [useFrame, useFrame, hmem, hdir]

theorem remark (inv : FrameInv stray slack H m) {m' : Machine} (hmem : m'.mem = m.mem) (hpgdir : m'.pgdir = m.pgdir)
    (hcur : m'.cur = m.cur) (hcr3 : m'.cr3 = m.cr3) (htlb : m'.tlb = m.tlb) (hshape : Shape m')
    (hlen : m'.kernelVaddr.vaddrBitmap.btmpBytesLen = m.kernelVaddr.vaddrBitmap.btmpBytesLen)
    (htaken : ∀ u f, Live H u → useFrame m u = some f → Taken m' u.pool f)
    (hheap : ∀ n, H (.kpage n) → m'.kernelVaddr.vaddrBitmap.scanTest (n - 0xc0100) = true)
    (huser : ∀ t n f, n < 0xc0000 → useFrame m (.upage t n) = some f →
      (m'.userVaddr t).vaddrBitmap.scanTest (n - 0x8048) = true) : FrameInv stray slack H m' := by
  have huse := useFrame_same hmem hpgdir
  have hdir : ∀ t, dirOf m' t = dirOf m t := by
    intro t
    rw [dirOf, dirOf, hmem, hpgdir]
  refine ⟨hshape, inv.near, ?_, ?_, ?_, ?_, ?_, ?_, ?_, ?_, inv.page, ?_, ?_, ?_, ?_, ?_, ?_⟩
  · rw [hmem]
    exact inv.root
  · rw [hmem]
    exact inv.low
  · rw [hmem]
    exact inv.identity
  · rw [hpgdir]
    exact inv.dirPage
  · intro t d hd
    rw [hdir] at hd
    rw [hmem]
    exact inv.dirSpace t d hd
  · rw [hpgdir]
    exact inv.dirOwn
  · rw [hcr3, hcur, hdir]
    exact inv.active
  · intro u hu
    rw [huse]
    exact inv.mapped u hu
  · intro n hn
    obtain ⟨hlo, hhi, -⟩ := inv.heap n hn
    rw [hlen]
    exact ⟨hlo, hhi, hheap n hn⟩
  · rw [hmem]
    exact inv.strays
  · intro u u' f hu hu' hf hf'
    rw [huse] at hf hf'
    exact inv.inj u u' f hu hu' hf hf'
  · intro u f hu hf
    rw [huse] at hf
    exact htaken u f hu hf
  · intro t n f hn hf
    rw [huse] at hf
    exact ⟨(inv.user t n f hn hf).1, huser t n f hn hf⟩
  · intro i f hi hf
    rw [htlb] at hf
    rw [hmem, hcr3]
    exact inv.window i f hi hf

end FrameInv

def Keeps (H : Use → Prop) (m m' : Machine) : Prop :=
  ∀ u f, H u → (∀ t v, m.pgdir t = some v → u ≠ .kpage (v.toNat / 4096)) → useFrame m u = some f →
    useFrame m' u = some f ∧ ∀ a, frame a = f → m'.mem a = m.mem a

theorem Keeps.refl (H : Use → Prop) (m : Machine) : Keeps H m m := fun _ _ _ _ hf => ⟨hf, fun _ _ => rfl⟩

theorem Keeps.trans {H H' : Use → Prop} {m m' m'' : Machine} (h : Keeps H m m') (h' : Keeps H' m' m'')
    (hH : ∀ u, H u → H' u) (hpgdir : m'.pgdir = m.pgdir) : Keeps H m m'' := by
  intro u f hu hdir hf
  obtain ⟨hf₁, hmem₁⟩ := h u f hu hdir hf
  obtain ⟨hf₂, hmem₂⟩ := h' u f (hH u hu) (by rw [hpgdir]; exact hdir) hf₁
  exact ⟨hf₂, fun a ha => (hmem₂ a ha).trans (hmem₁ a ha)⟩

theorem Keeps.mono {H H' : Use → Prop} {m m' : Machine} (h : Keeps H m m') (hH : ∀ u, H' u → H u) : Keeps H' m m' :=
  fun u f hu hdir hf => h u f (hH u hu) hdir hf

theorem Keeps.of_same {H : Use → Prop} {m m' : Machine} (hmem : m'.mem = m.mem) (hpgdir : m'.pgdir = m.pgdir) :
    Keeps H m m' := by
  intro u f _ _ hf
  rw [FrameInv.useFrame_same hmem hpgdir, hmem]
  exact ⟨hf, fun _ _ => rfl⟩

namespace FrameInv

variable {stray : ℕ → Prop} {slack : ℕ} {H : Use → Prop} {m : Machine} {mem' : PhysMem}

theorem keeps_entry (inv : FrameInv stray slack H m) {p w : Word} {j : ℕ} {u₀ : Use} (hp : Aligned p) (hj : j < 1024)
    (hnone : ¬ H u₀) (hpage : ∀ u f, H u → useFrame m u = some f → f ≠ p)
    (hkeep : ∀ u, u.Valid → u ≠ u₀ → useFrame { m with mem := Function.update m.mem (slot p j) w } u = useFrame m u) :
    Keeps H m { m with mem := Function.update m.mem (slot p j) w } := by
  intro u f hu hdir hf
  have hne : u ≠ u₀ := by
    rintro rfl
    exact hnone hu
  refine ⟨(hkeep u (inv.valid (inv.page u hu).1) hne).trans hf, ?_⟩
  intro a ha
  apply Function.update_of_ne
  rintro rfl
  rw [frame_slot hp hj] at ha
  exact hpage u f hu hf ha.symm

theorem page_ne_kernelTable (inv : FrameInv stray slack H m) {u : Use} {f : Word} (hu : H u) (hf : useFrame m u = some f)
    {i : ℕ} (hi : i < 1023) : f ≠ kernelTable i :=
  taken_ne_kernelTable inv.shape (inv.taken u f (inv.page u hu).1 hf) hi

theorem page_ne_table (inv : FrameInv stray slack H m) {u : Use} {f p : Word} (hu : H u) (hf : useFrame m u = some f)
    {t i : ℕ} (hi : i < 768) (hp : useFrame m (.table t i) = some p) : f ≠ p := by
  rintro rfl
  exact (inv.page u hu).2 t i (inv.inj u (.table t i) f (inv.page u hu).1 hi hf hp)

theorem not_handed (inv : FrameInv stray slack H m) {u : Use} (h : useFrame m u = none) : ¬ H u := by
  intro hu
  obtain ⟨f, hf⟩ := inv.mapped u hu
  rw [h] at hf
  cases hf

end FrameInv

end ElephantOS.Paging
