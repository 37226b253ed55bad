import Mathlib.Data.List.TakeWhile
import ElephantOS.DescriptorRuns
import ElephantOS.DirectoryView

namespace ElephantOS

open ByteMemory HaltingState

/-- The names of a path, whatever the number of slashes between them. -/
def components (path : Path) : List Name := (path.splitOnP (· == slash)).filter (· ≠ [])

theorem components_append_slash (name rest : Path) (hname : slash ∉ name) :
    components (name ++ slash :: rest) = (if name = [] then [] else [name]) ++ components rest := by
  unfold components
  rw [List.splitOnP_append_cons_of_forall_mem _ slash (by simp), List.filter_cons]
  · split_ifs with h h' h' <;> simp_all
  · intro c hc
    simp only [beq_eq_false_iff_ne, ne_eq]
    rintro rfl
    exact hname hc

theorem components_slash (rest : Path) : components (slash :: rest) = components rest := by
  have h := components_append_slash [] rest List.not_mem_nil
  simpa using h

theorem components_single {name : Path} (hname : slash ∉ name) : components name = if name = [] then [] else [name] := by
  unfold components
  rw [List.splitOnP_eq_singleton, List.filter_cons]
  · split_ifs with h h' h' <;> simp_all
  · intro c hc
    simp only [beq_eq_false_iff_ne, ne_eq]
    rintro rfl
    exact hname hc

theorem pathParse_split (path : Path) : ∃ slashes name, path = slashes ++ (name ++ (pathParse path).2.getD []) ∧
    (∀ c ∈ slashes, c = slash) ∧ name = (pathParse path).1 ∧ slash ∉ name ∧
    (∀ rest, (pathParse path).2 = some rest → rest.head? = some slash) := by
  refine ⟨path.takeWhile (· = slash), (pathParse path).1, ?_, ?_, rfl, ?_, ?_⟩
  · have hrest : (pathParse path).2.getD [] = (path.dropWhile (· = slash)).dropWhile (· ≠ slash) := by
      unfold pathParse
      dsimp only
      split_ifs with h
      · rw [h]
        rfl
      · rfl
    rw [hrest]
    unfold pathParse
    dsimp only
    rw [List.takeWhile_append_dropWhile, List.takeWhile_append_dropWhile]
  · intro c hc
    simpa using List.mem_takeWhile_imp hc
  · intro hc
    have := List.mem_takeWhile_imp hc
    simp at this
  · intro rest hrest
    unfold pathParse at hrest
    dsimp only at hrest
    split_ifs at hrest with h
    rw [Option.some.injEq] at hrest
    rw [← hrest]
    cases hd : (path.dropWhile (· = slash)).dropWhile (· ≠ slash) with
    | nil => exact absurd hd h
    | cons c rest' =>
      have hc := List.head?_dropWhile_not (fun c => decide (c ≠ slash)) (path.dropWhile (· = slash))
      rw [hd] at hc
      simp only [List.head?_cons, decide_eq_false_iff_not, not_not] at hc
      rw [hc]
      rfl

theorem pathParse_none {path : Path} (h : (pathParse path).1 = []) : (pathParse path).2 = none := by
  unfold pathParse at h ⊢
  dsimp only at h ⊢
  cases hd : path.dropWhile (· = slash) with
  | nil => rfl
  | cons c rest =>
    have hc := List.head?_dropWhile_not (fun c => decide (c = slash)) path
    rw [hd] at hc h
    simp only [List.head?_cons, decide_eq_false_iff_not] at hc
    rw [List.takeWhile_cons_of_pos (by simpa using hc)] at h
    cases h

theorem components_eq (path : Path) : components path =
    if (pathParse path).1 = [] then [] else (pathParse path).1 :: components ((pathParse path).2.getD []) := by
  obtain ⟨slashes, name, hpath, hslashes, hname, hno, hrest⟩ := pathParse_split path
  have hdrop : components path = components (name ++ (pathParse path).2.getD []) := by
    conv_lhs => rw [hpath]
    clear hpath
    induction slashes with
    | nil => rfl
    | cons c slashes ih =>
      rw [hslashes c List.mem_cons_self, List.cons_append, components_slash]
      exact ih fun c hc => hslashes c (List.mem_cons_of_mem _ hc)
  rw [hdrop, ← hname]
  cases hsub : (pathParse path).2 with
  | none =>
    rw [Option.getD_none, List.append_nil, components_single hno]
    rfl
  | some rest =>
    obtain ⟨rest', rfl⟩ : ∃ rest', rest = slash :: rest' := by
      have := hrest rest hsub
      cases rest with
      | nil => cases this
      | cons c rest' => exact ⟨rest', by rw [Option.some.inj this]⟩
    have hne : name ≠ [] := by
      rw [hname]
      intro h
      rw [pathParse_none h] at hsub
      cases hsub
    rw [Option.getD_some, components_append_slash _ _ hno, components_slash, if_neg hne, if_neg hne]
    rfl

theorem pathParse_length {path : Path} (hpath : path.head? = some slash) :
    1 + (pathParse path).1.length + ((pathParse path).2.getD []).length ≤ path.length := by
  cases path with
  | nil => cases hpath
  | cons c rest =>
    obtain rfl : c = slash := Option.some.inj hpath
    have hskip : pathParse (slash :: rest) = pathParse rest := by
      unfold pathParse
      rw [List.dropWhile_cons_of_pos (by simp)]
    obtain ⟨slashes, name, hsplit, -, hname, -⟩ := pathParse_split rest
    have hlen := congrArg List.length hsplit
    simp only [List.length_append] at hlen
    rw [hskip, ← hname, List.length_cons]
    omega

section

variable (K : Kernel)

def theInode (s : Fs) (n : ℕ) : Inode :=
  match cached s n with
  | some p => s.inodes p
  | none => Inode.load s.kern.disk (inodeAddr K.toPartition n)

structure Watching (s₀ : Fs) (held extra : Multiset Ptr) (s : Fs) : Prop where
  refs : Refs (extra + held) s
  disk : s.kern.disk = s₀.kern.disk
  plenty : s.kern.Plenty
  pool : s.kern.pool = s₀.kern.pool
  rootDir : s.rootDir = s₀.rootDir
  kernel : ∀ p ∈ s.openInodes, p.pool = .kernel
  linked : ∀ p ∈ s.openInodes, (s.inodes p).inodeTag = ⟨.linked, .linked⟩
  distinct : ∀ p ∈ s.openInodes, ∀ q ∈ s.openInodes, (s.inodes p).iNo = (s.inodes q).iNo → p = q
  kept : ∀ p ∈ held, (s₀.inodes p).SameStored (s.inodes p)
  clean : ∀ p ∈ s.openInodes, p ∉ held →
    (Inode.load s.kern.disk (inodeAddr K.toPartition (s.inodes p).iNo)).SameStored (s.inodes p)

end

section

variable {K : Kernel} {s₀ s : Fs} {held extra : Multiset Ptr}

theorem cached_mem {n : ℕ} {p : Ptr} (h : cached s n = some p) : p ∈ s.openInodes ∧ (s.inodes p).iNo = n := by
  refine ⟨List.mem_of_find?_eq_some h, ?_⟩
  simpa using List.find?_some h

theorem cached_of_mem {n : ℕ} {p : Ptr} (hp : p ∈ s.openInodes) (hn : (s.inodes p).iNo = n)
    (hdistinct : ∀ p ∈ s.openInodes, ∀ q ∈ s.openInodes, (s.inodes p).iNo = (s.inodes q).iNo → p = q) : cached s n = some p := by
  cases hc : cached s n with
  | none =>
    have := List.find?_eq_none.mp hc p hp
    simp [hn] at this
  | some q =>
    obtain ⟨hq, hnq⟩ := cached_mem hc
    rw [hdistinct p hp q hq (hn.trans hnq.symm)]

theorem cached_none {n : ℕ} (h : ∀ p ∈ s.openInodes, (s.inodes p).iNo ≠ n) : cached s n = none := by
  apply List.find?_eq_none.mpr
  intro p hp
  simpa using h p hp

theorem Watching.same (h : Watching K s₀ held extra s) (h₀ : Watching K s₀ held 0 s₀) (n : ℕ) :
    (theInode K s₀ n).SameStored (theInode K s n) := by
  have hopen : ∀ p, p ∈ held ↔ p ∈ s₀.openInodes := by
    intro p
    have := h₀.refs.mem p
    rwa [zero_add] at this
  have hheld : ∀ p ∈ held, p ∈ s.openInodes := fun p hp => (h.refs.mem p).mp (Multiset.mem_add.mpr (.inr hp))
  cases hc : cached s n with
  | some p =>
    obtain ⟨hp, hn⟩ := cached_mem hc
    by_cases hmem : p ∈ held
    · have hsame := h.kept p hmem
      have hc₀ := cached_of_mem ((hopen p).mp hmem) (hsame.iNo.trans hn) h₀.distinct
      simp only [theInode, hc, hc₀]
      exact hsame
    · have hc₀ : cached s₀ n = none := by
        apply cached_none
        intro q hq hnq
        have hq' := (hopen q).mpr hq
        have := h.distinct p hp q (hheld q hq') (hn.trans (hnq.symm.trans (h.kept q hq').iNo))
        rw [this] at hmem
        exact hmem hq'
      have hclean := h.clean p hp hmem
      rw [hn, h.disk] at hclean
      simp only [theInode, hc, hc₀]
      exact hclean
  | none =>
    have hc₀ : cached s₀ n = none := by
      apply cached_none
      intro q hq hnq
      have hq' := (hopen q).mpr hq
      have := List.find?_eq_none.mp hc q (hheld q hq')
      simp only [decide_eq_true_eq] at this
      exact this ((h.kept q hq').iNo.symm.trans hnq)
    simp only [theInode, hc, hc₀, h.disk]
    exact Inode.SameStored.refl _

theorem Watching.touch (h : Watching K s₀ held extra s) {q : Ptr} {inode : Inode} (hstored : (s.inodes q).SameStored inode)
    (htag : inode.inodeTag = (s.inodes q).inodeTag) {extra' : Multiset Ptr} (hrefs : Refs (extra' + held) (setInode q inode s)) :
    Watching K s₀ held extra' (setInode q inode s) := by
  have hsame : ∀ r, (s.inodes r).SameStored ((setInode q inode s).inodes r) := by
    intro r
    by_cases he : r = q
    · subst he
      simp only [setInode, Function.update_self]
      exact hstored
    · simp only [setInode, Function.update_of_ne he]
      exact Inode.SameStored.refl _
  refine ⟨hrefs, h.disk, h.plenty, h.pool, h.rootDir, h.kernel, ?_, ?_, ?_, ?_⟩
  · intro r hr
    by_cases he : r = q
    · subst he
      simp only [setInode, Function.update_self]
      rw [htag]
      exact h.linked r hr
    · simp only [setInode, Function.update_of_ne he]
      exact h.linked r hr
  · intro r hr r' hr' he
    apply h.distinct r hr r' hr'
    rw [(hsame r).iNo, (hsame r').iNo]
    exact he
  · intro r hr
    exact (h.kept r hr).trans (hsame r)
  · intro r hr hnot
    rw [← (hsame r).iNo]
    exact (h.clean r hr hnot).trans (hsame r)

theorem Watching.kern (h : Watching K s₀ held extra s) {k : Kern} (hk : HeapOnly s.kern k) :
    Watching K s₀ held extra { s with kern := k } :=
  ⟨h.refs.kern hk.next, hk.disk.trans h.disk, hk.plenty h.plenty, hk.pool.trans h.pool, h.rootDir, h.kernel, h.linked, h.distinct, h.kept,
    fun p hp hnot => by rw [hk.disk]; exact h.clean p hp hnot⟩

theorem Watching.inodeOpen (h : Watching K s₀ held extra s) (hp : TableOnDisk K.toPartition) {n : ℕ} (hn : n < 4096)
    (hno : (theInode K s n).iNo = n) : Runs (inodeOpen K n) s fun p s' => Watching K s₀ held (p ::ₘ extra) s' ∧
      (theInode K s n).SameStored (s'.inodes p) := by
  have hfresh : (⟨s.kern.heap.next, .kernel⟩ : Ptr) ∉ s.openInodes := fun hm => absurd (h.refs.fresh _ hm) (lt_irrefl _)
  have hpush : s.CanPush := by
    intro q hq
    rw [h.linked q (List.mem_of_mem_head? hq)]
  obtain ⟨p, s', hrun, -⟩ := inodeOpen_runs hp hn h.plenty hpush hfresh
  refine ⟨p, s', hrun, ?_⟩
  obtain ⟨hrefs, hkept⟩ := inodeOpen_refs h.refs hrun
  rw [← Multiset.cons_add] at hrefs
  cases hc : cached s n with
  | some q =>
    rw [inodeOpen_hit hc, Except.ok.injEq, Prod.mk.injEq] at hrun
    obtain ⟨rfl, rfl⟩ := hrun
    refine ⟨?_, ?_⟩
    · apply h.touch _ _ hrefs
      · exact ⟨rfl, rfl, fun _ _ => rfl⟩
      · rfl
    simp only [theInode, hc, setInode, Function.update_self]
    exact ⟨rfl, rfl, fun _ _ => rfl⟩
  | none =>
    obtain ⟨-, rfl, hheap, -, heq⟩ := inodeOpen_miss hc hrun
    generalize s'.kern = k' at heq hheap
    subst heq
    have hnew : ∀ q ∈ s.openInodes, q ≠ ⟨s.kern.heap.next, .kernel⟩ := by
      rintro q hq rfl
      exact hfresh hq
    have hload : theInode K s n = Inode.load s.kern.disk (inodeAddr K.toPartition n) := by
      simp only [theInode, hc]
    rw [hload] at hno ⊢
    have hother : ∀ q ∈ s.openInodes, (s.inodes q).iNo ≠ n := by
      intro q hq
      simpa using List.find?_eq_none.mp hc q hq
    have hstored : (Inode.load s.kern.disk (inodeAddr K.toPartition n)).SameStored (openedInode K.toPartition s.kern.disk n) :=
      ⟨rfl, rfl, fun _ _ => rfl⟩
    refine ⟨⟨hrefs, hheap.disk.trans h.disk, hheap.plenty h.plenty, hheap.pool.trans h.pool, h.rootDir, ?_, ?_, ?_, ?_, ?_⟩, ?_⟩
    · intro q hq
      rcases List.mem_cons.mp hq with rfl | hq
      · rfl
      · exact h.kernel q hq
    · intro q hq
      rcases List.mem_cons.mp hq with rfl | hq
      · simp only [Function.update_self]
        rfl
      · simp only [Function.update_of_ne (hnew q hq)]
        exact h.linked q hq
    · intro q hq r hr he
      rcases List.mem_cons.mp hq with rfl | hq <;> rcases List.mem_cons.mp hr with rfl | hr
      · rfl
      · simp only [Function.update_self, Function.update_of_ne (hnew r hr)] at he
        exact absurd (he.symm.trans (hstored.iNo.symm.trans hno)) (hother r hr)
      · simp only [Function.update_self, Function.update_of_ne (hnew q hq)] at he
        exact absurd (he.trans (hstored.iNo.symm.trans hno)) (hother q hq)
      · simp only [Function.update_of_ne (hnew q hq), Function.update_of_ne (hnew r hr)] at he
        exact h.distinct q hq r hr he
    · intro q hq
      have hopen : q ∈ s.openInodes := (h.refs.mem q).mp (Multiset.mem_add.mpr (.inr hq))
      simp only [Function.update_of_ne (hnew q hopen)]
      exact h.kept q hq
    · intro q hq hnot
      rcases List.mem_cons.mp hq with rfl | hq
      · simp only [Function.update_self, hheap.disk]
        rw [← hstored.iNo, hno]
        exact hstored
      · simp only [Function.update_of_ne (hnew q hq), hheap.disk]
        exact h.clean q hq hnot
    · simp only [Function.update_self]
      exact hstored

theorem inodeClose_runs {p : Ptr} (hpool : p.pool = .kernel) (hlinked : (s.inodes p).inodeTag = ⟨.linked, .linked⟩) :
    Runs (inodeClose p) s fun _ s' => s' = setInode p { s.inodes p with iOpenCnts := (s.inodes p).iOpenCnts - 1 } s ∨
      ∃ k, HeapOnly s.kern k ∧ s' = { setInode p { s.inodes p with iOpenCnts := (s.inodes p).iOpenCnts - 1 } s with
        openInodes := s.openInodes.erase p, kern := k } := by
  unfold inodeClose
  refine Runs.modify (Runs.get ?_)
  split_ifs with hz
  · have htag : ((setInode p { s.inodes p with iOpenCnts := (s.inodes p).iOpenCnts - 1 } s).inodes p).inodeTag = ⟨.linked, .linked⟩ := by
      simp only [setInode, Function.update_self]
      exact hlinked
    refine Runs.step (if_pos htag) ?_
    refine (liftKern_runs (withKernelPool_runs (sysFree_runs hpool))).mono ?_
    rintro _ _ ⟨_, ⟨k, hk, rfl⟩, rfl⟩
    exact .inr ⟨{ k with pool := s.kern.pool }, ⟨hk.disk, hk.blockBitmap, hk.inodeBitmap, rfl, hk.grant, hk.next⟩, rfl⟩
  · exact Runs.pure (.inl rfl)

theorem Watching.inodeClose {p : Ptr} (h : Watching K s₀ held (p ::ₘ extra) s) :
    Runs (inodeClose p) s fun _ s' => Watching K s₀ held extra s' := by
  have hrefs := h.refs
  rw [Multiset.cons_add] at hrefs
  have hp : p ∈ s.openInodes := (hrefs.mem p).mp (Multiset.mem_cons_self _ _)
  obtain ⟨u, s', hrun, hshape⟩ := inodeClose_runs (h.kernel p hp) (h.linked p hp)
  refine ⟨u, s', hrun, ?_⟩
  have hrefs' := (inodeClose_refs hrefs hrun).1
  rcases hshape with rfl | ⟨k, hk, rfl⟩
  · apply h.touch _ _ hrefs'
    · exact ⟨rfl, rfl, fun _ _ => rfl⟩
    · rfl
  · have hmem : ∀ q, q ∈ s.openInodes.erase p → q ≠ p ∧ q ∈ s.openInodes := fun q hq => h.refs.nodup.mem_erase_iff.mp hq
    have hsame : ∀ q, q ≠ p → (setInode p { s.inodes p with iOpenCnts := (s.inodes p).iOpenCnts - 1 } s).inodes q = s.inodes q := by
      intro q hq
      simp only [setInode, Function.update_of_ne hq]
    have hheld : ∀ q ∈ held, q ∈ s.openInodes.erase p := fun q hq => (hrefs'.mem q).mp (Multiset.mem_add.mpr (.inr hq))
    refine ⟨hrefs', hk.disk.trans h.disk, hk.plenty h.plenty, hk.pool.trans h.pool, h.rootDir, ?_, ?_, ?_, ?_, ?_⟩
    · intro q hq
      exact h.kernel q (hmem q hq).2
    · intro q hq
      obtain ⟨hne, hq⟩ := hmem q hq
      dsimp only
      rw [hsame q hne]
      exact h.linked q hq
    · intro q hq r hr he
      obtain ⟨hne, hq⟩ := hmem q hq
      obtain ⟨hne', hr⟩ := hmem r hr
      dsimp only at he
      rw [hsame q hne, hsame r hne'] at he
      exact h.distinct q hq r hr he
    · intro q hq
      obtain ⟨hne, -⟩ := hmem q (hheld q hq)
      dsimp only
      rw [hsame q hne]
      exact h.kept q hq
    · intro q hq hnot
      obtain ⟨hne, hq⟩ := hmem q hq
      dsimp only
      rw [hsame q hne, hk.disk]
      exact h.clean q hq hnot

structure DirAt (K : Kernel) (s₀ : Fs) (held : Multiset Ptr) (dir : Dir) (n : ℕ) (s : Fs) : Prop where
  watching : Watching K s₀ held (dirRefs dir) s
  mem : dir.inode s ∈ s.openInodes
  inode : (theInode K s₀ n).SameStored (s.inodes (dir.inode s))
  pool : ∀ ptr inode, dir = .heap ptr inode → ptr.pool = s₀.kern.pool

theorem DirAt.close {dir : Dir} {n : ℕ} (h : DirAt K s₀ held dir n s) : Runs (dirClose dir) s fun _ s' => Watching K s₀ held 0 s' := by
  cases dir with
  | root => exact Runs.pure h.watching
  | heap ptr inode =>
    unfold dirClose
    have hw : Watching K s₀ held (inode ::ₘ 0) s := h.watching
    refine Runs.bind hw.inodeClose ?_
    intro _ s' h'
    have hpool : ptr.pool = s'.kern.pool := by
      rw [h'.pool]
      exact h.pool ptr inode rfl
    refine (liftKern_runs (sysFree_runs hpool)).mono ?_
    rintro _ _ ⟨k, hk, rfl⟩
    exact h'.kern hk

theorem Watching.dirOpen (h : Watching K s₀ held 0 s) (h₀ : Watching K s₀ held 0 s₀) (hp : TableOnDisk K.toPartition) {n : ℕ}
    (hn : n < 4096) (hno : (theInode K s₀ n).iNo = n) : Runs (dirOpen K n) s fun dir s' => DirAt K s₀ held dir n s' := by
  unfold ElephantOS.dirOpen
  refine Runs.bind (liftKern_runs (sysMalloc_runs dirSize h.plenty)) ?_
  rintro _ _ ⟨k, ⟨rfl, hk⟩, rfl⟩
  have hw := h.kern hk
  have hsame := hw.same h₀ n
  refine Runs.bind (hw.inodeOpen hp hn (hsame.iNo.symm.trans hno)) ?_
  rintro p s' ⟨hw', hstored⟩
  refine Runs.pure ⟨hw', ?_, hsame.trans hstored, ?_⟩
  · exact (hw'.refs.mem p).mp (Multiset.mem_add.mpr (.inl (Multiset.mem_singleton_self p)))
  · rintro ptr inode heq
    cases heq
    exact h.pool

theorem Inode.SameStored.blockAddr {a b : Inode} (h : a.SameStored b) (d : Memory) : ElephantOS.blockAddr d b = ElephantOS.blockAddr d a := by
  funext p
  unfold ElephantOS.blockAddr
  rw [h.iSectors 12 (by omega)]
  split_ifs with hp
  · exact (h.iSectors p (by omega)).symm
  · rfl
  · rfl

theorem Inode.SameStored.slotMap {a b : Inode} (h : a.SameStored b) (d : Memory) : ElephantOS.slotMap d b = ElephantOS.slotMap d a ∧
    (SlotsOk d a → SlotsOk d b) ∧ (OnDisk d a → OnDisk d b) := by
  have hblock := h.blockAddr d
  have href : ∀ p, refAddr d b p = refAddr d a p := by
    intro p
    unfold refAddr
    rw [hblock, h.iSectors 12 (by omega)]
  refine ⟨?_, ?_, ?_⟩
  · funext pos
    simp only [ElephantOS.slotMap, Slot, slotAddr, hblock]
    exact if_congr Iff.rfl rfl rfl
  · intro hs
    simpa only [SlotsOk, Slot, slotAddr, hblock] using hs
  · intro hd p hp
    rw [href]
    exact hd p hp

end

section

variable {M : ℕ → ℕ × ℕ → Option Entry}

inductive Resolves (M : ℕ → ℕ × ℕ → Option Entry) : ℕ → List Name → ℕ → Prop
  | here (n : ℕ) : Resolves M n [] n
  | last {n : ℕ} {pos : ℕ × ℕ} {e : Entry} : M n pos = some e → Resolves M n [e.name] e.iNo
  | down {n i : ℕ} {pos : ℕ × ℕ} {e : Entry} {rest : List Name} : M n pos = some e → e.fType = .directory → Resolves M e.iNo rest i →
      Resolves M n (e.name :: rest) i

/-- Following the names from directory `n` leads to directory `i`. -/
inductive Walks (M : ℕ → ℕ × ℕ → Option Entry) : ℕ → List Name → ℕ → Prop
  | here (n : ℕ) : Walks M n [] n
  | down {n i : ℕ} {pos : ℕ × ℕ} {e : Entry} {rest : List Name} : M n pos = some e → e.fType = .directory → Walks M e.iNo rest i →
      Walks M n (e.name :: rest) i

inductive BelowFile (M : ℕ → ℕ × ℕ → Option Entry) : ℕ → List Name → Prop
  | file {n : ℕ} {pos : ℕ × ℕ} {e : Entry} {rest : List Name} : M n pos = some e → e.fType = .regular → rest ≠ [] →
      BelowFile M n (e.name :: rest)
  | down {n : ℕ} {pos : ℕ × ℕ} {e : Entry} {rest : List Name} : M n pos = some e → e.fType = .directory → BelowFile M e.iNo rest →
      BelowFile M n (e.name :: rest)

def NamesUnique (M : ℕ × ℕ → Option Entry) : Prop :=
  ∀ pos pos' e e', M pos = some e → M pos' = some e' → e.name = e'.name → e = e'

theorem resolves_nil {n i : ℕ} : Resolves M n [] i ↔ i = n := by
  constructor
  · intro h
    cases h
    rfl
  · rintro rfl
    exact .here i

theorem not_belowFile_nil (n : ℕ) : ¬ BelowFile M n [] := by
  rintro ⟨⟩

theorem not_belowFile_single (n : ℕ) (name : Name) : ¬ BelowFile M n [name] := by
  intro h
  cases h with
  | file _ _ hrest => exact hrest rfl
  | down _ _ hrest => exact not_belowFile_nil _ hrest

theorem resolves_down {n i : ℕ} (hu : NamesUnique (M n)) {pos : ℕ × ℕ} {e : Entry} (he : M n pos = some e) (hd : e.fType = .directory)
    {name : Name} (hname : e.name = name) {rest : List Name} : Resolves M n (name :: rest) i ↔ Resolves M e.iNo rest i := by
  constructor
  · intro h
    cases h with
    | @last _ pos' e' he' =>
      rw [hu pos pos' e e' he he' hname]
      exact .here _
    | @down _ _ pos' e' _ he' _ hrest =>
      rw [hu pos pos' e e' he he' hname]
      exact hrest
  · intro h
    rw [← hname]
    exact .down he hd h

theorem belowFile_down {n : ℕ} (hu : NamesUnique (M n)) {pos : ℕ × ℕ} {e : Entry} (he : M n pos = some e) (hd : e.fType = .directory)
    {name : Name} (hname : e.name = name) {rest : List Name} : BelowFile M n (name :: rest) ↔ BelowFile M e.iNo rest := by
  constructor
  · intro h
    cases h with
    | @file _ pos' e' _ he' hf _ =>
      have := hu pos pos' e e' he he' hname
      rw [← this, hd] at hf
      cases hf
    | @down _ pos' e' _ he' _ hrest =>
      rw [hu pos pos' e e' he he' hname]
      exact hrest
  · intro h
    rw [← hname]
    exact .down he hd h

theorem resolves_file {n i : ℕ} (hu : NamesUnique (M n)) {pos : ℕ × ℕ} {e : Entry} (he : M n pos = some e) (hf : e.fType = .regular)
    {name : Name} (hname : e.name = name) {rest : List Name} : Resolves M n (name :: rest) i ↔ rest = [] ∧ i = e.iNo := by
  constructor
  · intro h
    cases h with
    | @last _ pos' e' he' =>
      rw [hu pos pos' e e' he he' hname]
      exact ⟨rfl, rfl⟩
    | @down _ _ pos' e' _ he' hd hrest =>
      have := hu pos pos' e e' he he' hname
      rw [← this, hf] at hd
      cases hd
  · rintro ⟨rfl, rfl⟩
    rw [← hname]
    exact .last he

theorem belowFile_file {n : ℕ} (hu : NamesUnique (M n)) {pos : ℕ × ℕ} {e : Entry} (he : M n pos = some e) (hf : e.fType = .regular)
    {name : Name} (hname : e.name = name) {rest : List Name} : BelowFile M n (name :: rest) ↔ rest ≠ [] := by
  constructor
  · intro h
    cases h with
    | @file _ pos' e' _ he' _ hrest => exact hrest
    | @down _ pos' e' _ he' hd _ =>
      have := hu pos pos' e e' he he' hname
      rw [← this, hf] at hd
      cases hd
  · intro h
    rw [← hname]
    exact .file he hf h

theorem not_resolves_missing {n i : ℕ} {name : Name} (h : ∀ pos e, M n pos = some e → e.name ≠ name) (rest : List Name) :
    ¬ Resolves M n (name :: rest) i ∧ ¬ BelowFile M n (name :: rest) := by
  constructor
  · intro hr
    cases hr with
    | last he => exact h _ _ he rfl
    | down he => exact h _ _ he rfl
  · intro hb
    cases hb with
    | file he => exact h _ _ he rfl
    | down he => exact h _ _ he rfl

end

/-- The entries of directory `n`. -/
def entries (K : Kernel) (s : Fs) (n : ℕ) : ℕ × ℕ → Option Entry := slotMap s.kern.disk (theInode K s n)

/-- A directory tree on the mounted partition, with the numbers of its directories: every entry leads to a directory of the tree or to
a regular file. -/
structure Tree (K : Kernel) (s : Fs) (dirs : Set ℕ) : Prop where
  root : 0 ∈ dirs
  number : ∀ n ∈ dirs, n < 4096 ∧ (theInode K s n).iNo = n
  slots : ∀ n ∈ dirs, SlotsOk s.kern.disk (theInode K s n)
  onDisk : ∀ n ∈ dirs, OnDisk s.kern.disk (theInode K s n)
  unique : ∀ n ∈ dirs, NamesUnique (entries K s n)
  kinds : ∀ n ∈ dirs, ∀ pos e, entries K s n pos = some e →
    e.fType = .directory ∧ e.iNo ∈ dirs ∨ e.fType = .regular ∧ e.iNo < 4096
  dots : ∀ name ∈ [dot, dotDot], ∃ pos e, entries K s 0 pos = some e ∧ e.name = name ∧ e.fType = .directory ∧ e.iNo = 0

/-- The mounted file system between two calls: `held` are the holders of its cached inodes. -/
structure Fs.Settled (K : Kernel) (held : Multiset Ptr) (s : Fs) : Prop where
  table : TableOnDisk K.toPartition
  entrySize : K.sb.dirEntrySize = 24
  refs : Refs held s
  plenty : s.kern.Plenty
  kernel : ∀ p ∈ s.openInodes, p.pool = .kernel
  linked : ∀ p ∈ s.openInodes, (s.inodes p).inodeTag = ⟨.linked, .linked⟩
  distinct : ∀ p ∈ s.openInodes, ∀ q ∈ s.openInodes, (s.inodes p).iNo = (s.inodes q).iNo → p = q
  rootDir : s.rootDir ∈ s.openInodes
  rootNo : (s.inodes s.rootDir).iNo = 0

theorem Fs.Settled.watching {K : Kernel} {held : Multiset Ptr} {s : Fs} (h : s.Settled K held) : Watching K s held 0 s := by
  refine ⟨?_, rfl, h.plenty, rfl, rfl, h.kernel, h.linked, h.distinct, fun _ _ => Inode.SameStored.refl _, ?_⟩
  · rw [zero_add]
    exact h.refs
  · intro p hp hnot
    exact absurd ((h.refs.mem p).mpr hp) hnot

theorem Fs.Settled.dirAt {K : Kernel} {held : Multiset Ptr} {s : Fs} (h : s.Settled K held) : DirAt K s held .root 0 s := by
  refine ⟨h.watching, h.rootDir, ?_, fun _ _ he => by cases he⟩
  have hc := cached_of_mem h.rootDir h.rootNo h.distinct
  simp only [theInode, hc]
  exact Inode.SameStored.refl _

section

variable {K : Kernel} {s₀ s : Fs} {held : Multiset Ptr} {dirs : Set ℕ}

theorem DirAt.lookup (hset : s₀.Settled K held) (htree : Tree K s₀ dirs) {dir : Dir} {n : ℕ} (h : DirAt K s₀ held dir n s) (hn : n ∈ dirs)
    {name : Name} (hname : name ≠ []) (h0 : 0 ∉ name) :
    Runs (liftKern (searchDirEntry K (s.inodes (dir.inode s)) name)) s fun r s' => DirAt K s₀ held dir n s' ∧
      Lookup (entries K s₀ n) name r := by
  obtain ⟨hmap, hslots, hdisk⟩ := h.inode.slotMap s₀.kern.disk
  have hd := hdisk (htree.onDisk n hn)
  rw [← h.watching.disk] at hd
  have hs := hslots (htree.slots n hn)
  rw [← h.watching.disk] at hs
  refine (liftKern_runs ((searchDirEntry_runs name h.watching.plenty hd).after fun r k' hrun =>
    searchDirEntry_ok hset.entrySize h.watching.plenty hs h0 hname hrun)).mono ?_
  rintro r _ ⟨k, ⟨-, hk, hl⟩, rfl⟩
  rw [h.watching.disk, hmap] at hl
  refine ⟨⟨h.watching.kern hk, ?_, ?_, h.pool⟩, hl⟩
  · cases dir <;> exact h.mem
  · cases dir <;> exact h.inode

theorem DirAt.number (htree : Tree K s₀ dirs) {dir : Dir} {n : ℕ} (h : DirAt K s₀ held dir n s) (hn : n ∈ dirs) :
    (s.inodes (dir.inode s)).iNo = n := h.inode.iNo.symm.trans (htree.number n hn).2

theorem foundNo_small {n : ℕ} (hn : n < 4096) : foundNo n = some n := by
  unfold foundNo
  rw [if_neg (by omega)]

def remaining (name : Name) (subPath : Option Path) : List Name := if name = [] then [] else name :: components (subPath.getD [])

theorem nextName_runs {subPath : Option Path} (hshort : ∀ c ∈ components (subPath.getD []), c.length < 16) :
    Runs (nextName subPath) s fun r s' => s' = s ∧ remaining r.1 r.2 = components (subPath.getD []) ∧
      (∀ p, r.2 = some p → p.head? = some slash) ∧
      ((∀ p, subPath = some p → p.head? = some slash) → 1 + r.1.length + (r.2.getD []).length ≤ max 1 (subPath.getD []).length) := by
  cases subPath with
  | none =>
    refine Runs.pure ⟨rfl, rfl, ?_, ?_⟩
    · rintro p ⟨⟩
    · intro _
      simp
  | some path =>
    have hcomp := components_eq path
    have hfit : (pathParse path).1.length ≤ maxFileNameLen := by
      by_cases he : (pathParse path).1 = []
      · rw [he]
        exact Nat.zero_le _
      · rw [if_neg he] at hcomp
        have := hshort (pathParse path).1 (by rw [Option.getD_some, hcomp]; exact List.mem_cons_self)
        unfold maxFileNameLen
        omega
    refine ⟨pathParse path, s, ?_, rfl, hcomp.symm, ?_, ?_⟩
    · unfold nextName parseName
      simp only [bind_ok, bound_ok, pure_ok]
      exact ⟨(), s, ⟨hfit, rfl⟩, trivial, rfl⟩
    · obtain ⟨-, -, -, -, -, -, hhead⟩ := pathParse_split path
      exact hhead
    · intro hsub
      exact (pathParse_length (hsub path rfl)).trans (le_max_right _ _)

def Found (M : ℕ → ℕ × ℕ → Option Entry) (n iNo : ℕ) (names : List Name) (r : Option ℕ) : Prop :=
  if names = [] then r = foundNo iNo
  else (BelowFile M n names → r ≠ none) ∧ (¬ BelowFile M n names → ∀ i, r = some i ↔ Resolves M n names i)

theorem Found.missing {M : ℕ → ℕ × ℕ → Option Entry} {n : ℕ} {name : Name} (h : ∀ pos e, M n pos = some e → e.name ≠ name) (iNo : ℕ)
    (rest : List Name) : Found M n iNo (name :: rest) none := by
  unfold Found
  rw [if_neg (List.cons_ne_nil _ _)]
  refine ⟨fun hb => absurd hb (not_resolves_missing (i := 0) h rest).2, fun _ i => ?_⟩
  apply iff_of_false
  · rintro ⟨⟩
  · exact (not_resolves_missing h rest).1

theorem Found.file {M : ℕ → ℕ × ℕ → Option Entry} {n : ℕ} (hu : NamesUnique (M n)) {pos : ℕ × ℕ} {e : Entry} (he : M n pos = some e)
    (hf : e.fType = .regular) {name : Name} (hname : e.name = name) (iNo : ℕ) (rest : List Name) :
    Found M n iNo (name :: rest) (some e.iNo) := by
  unfold Found
  rw [if_neg (List.cons_ne_nil _ _), belowFile_file hu he hf hname]
  refine ⟨fun _ => by simp, ?_⟩
  intro hrest i
  rw [resolves_file hu he hf hname, Option.some.injEq, eq_comm, and_iff_right (not_not.mp hrest)]

theorem Found.down {M : ℕ → ℕ × ℕ → Option Entry} {n : ℕ} (hu : NamesUnique (M n)) {pos : ℕ × ℕ} {e : Entry} (he : M n pos = some e)
    (hd : e.fType = .directory) (hsmall : e.iNo < 4096) {name : Name} (hname : e.name = name) (iNo : ℕ) {rest : List Name} {r : Option ℕ}
    (h : Found M e.iNo e.iNo rest r) : Found M n iNo (name :: rest) r := by
  unfold Found at h ⊢
  rw [if_neg (List.cons_ne_nil _ _), belowFile_down hu he hd hname]
  by_cases hrest : rest = []
  · subst hrest
    rw [if_pos rfl, foundNo_small hsmall] at h
    refine ⟨fun hb => absurd hb (not_belowFile_nil _), ?_⟩
    intro _ i
    rw [resolves_down hu he hd hname, resolves_nil, h, Option.some.injEq, eq_comm]
  · rw [if_neg hrest] at h
    refine ⟨h.1, ?_⟩
    intro hb i
    rw [resolves_down hu he hd hname]
    exact h.2 hb i

structure Searched (K : Kernel) (s₀ : Fs) (held : Multiset Ptr) (dirs : Set ℕ) (n iNo : ℕ) (names : List Name)
    (r : Option ℕ × PathSearchRecord) (s : Fs) : Prop where
  found : Found (entries K s₀) n iNo names r.1
  parent : ∃ m, DirAt K s₀ held r.2.parentDir m s
  directory : r.2.fileType = .directory → ∃ i, r.1 = foundNo i ∧
    if names = [] then i = iNo else i ∈ dirs ∧ Walks (entries K s₀) n names i
  ends : names = [] → r.2.fileType = .directory

theorem searchLoop_found (hset : s₀.Settled K held) (htree : Tree K s₀ dirs) {fuel : ℕ} {subPath : Option Path} {name : Name}
    {record : PathSearchRecord} {pNo iNo n : ℕ} (hdir : DirAt K s₀ held record.parentDir n s) (hn : n ∈ dirs) (hpNo : pNo ∈ dirs)
    (hsub : ∀ p, subPath = some p → p.head? = some slash) (hfuel : 1 + name.length + (subPath.getD []).length ≤ fuel)
    (hlen : name ≠ [] → record.searchedPath.length + 1 + name.length + (subPath.getD []).length < maxPathLen)
    (hnames : ∀ c ∈ remaining name subPath, c.length < 16 ∧ 0 ∉ c) (hkind : record.fileType ≠ .directory) :
    Runs (searchLoop K fuel subPath name record pNo iNo) s fun r s' => Searched K s₀ held dirs n iNo (remaining name subPath) r s' := by
  induction fuel generalizing s subPath name record pNo iNo n with
  | zero => omega
  | succ fuel ih =>
    unfold searchLoop
    by_cases hname : name = []
    · rw [if_pos hname]
      refine Runs.bind hdir.close ?_
      intro _ s' hw
      obtain ⟨hsmall, hno⟩ := htree.number pNo hpNo
      refine Runs.bind (hw.dirOpen hset.watching hset.table hsmall hno) ?_
      intro dir s'' hdir''
      have hrem : remaining name subPath = [] := if_pos hname
      rw [hrem]
      refine Runs.pure ⟨?_, ⟨pNo, hdir''⟩, fun _ => ⟨iNo, rfl, ?_⟩, fun _ => rfl⟩
      · unfold Found
        rw [if_pos rfl]
      · rw [if_pos rfl]
    · rw [if_neg hname]
      have hrem : remaining name subPath = name :: components (subPath.getD []) := if_neg hname
      rw [hrem] at hnames ⊢
      obtain ⟨hfirst, hrest⟩ := List.forall_mem_cons.mp hnames
      have hlen := hlen hname
      refine Runs.assert (by omega) (Runs.bound hfirst.1 (Runs.get ?_))
      refine Runs.bind (DirAt.lookup hset htree hdir hn hname hfirst.2) ?_
      rintro (_ | dirE) s₁ ⟨hdir₁, hlook⟩
      · exact Runs.pure ⟨Found.missing hlook iNo _, ⟨n, hdir₁⟩, fun hd => absurd hd hkind, fun hnil => absurd hnil (List.cons_ne_nil _ _)⟩
      · obtain ⟨pos, e, hat, hino, htype⟩ := hlook
        refine Runs.bind (nextName_runs fun c hc => (hrest c hc).1) ?_
        rintro ⟨name', subPath'⟩ _ ⟨rfl, hrem', hsub', hlen'⟩
        have hlen' := hlen' hsub
        dsimp only at hrem' hsub' hlen' ⊢
        rcases htree.kinds n hn pos e hat.here with ⟨hd, hmem⟩ | ⟨hf, hsmall⟩
        · rw [hd] at htype
          simp only [htype]
          obtain ⟨hsmall, hno⟩ := htree.number e.iNo hmem
          refine Runs.bind hdir₁.close ?_
          intro _ s₂ hw
          rw [hino]
          refine Runs.bind (hw.dirOpen hset.watching hset.table hsmall hno) ?_
          intro dir s₃ hdir₃
          have hnumber := hdir.number htree hn
          rw [hnumber]
          have hpos : 1 ≤ name.length := List.length_pos_iff.mpr hname
          refine Runs.mono (@ih s₃ subPath' name' ⟨dir, record.fileType, record.searchedPath ++ slash :: name⟩ n e.iNo e.iNo hdir₃ hmem
            hn hsub' ?_ ?_ ?_ ?_) ?_
          · omega
          · intro hname'
            have := List.length_pos_iff.mpr hname'
            simp only [List.length_append, List.length_cons]
            omega
          · rw [hrem']
            exact hrest
          · exact hkind
          · rintro r s' ⟨hfound, hparent, hend, -⟩
            rw [hrem'] at hfound hend
            refine ⟨Found.down (htree.unique n hn) hat.here hd hsmall hat.named iNo hfound, hparent, ?_, fun hnil => absurd hnil (List.cons_ne_nil _ _)⟩
            intro htype'
            obtain ⟨i, hi, hwalks⟩ := hend htype'
            refine ⟨i, hi, ?_⟩
            rw [if_neg (List.cons_ne_nil _ _)]
            rw [← hat.named]
            split_ifs at hwalks with hnil
            · rw [hnil, hwalks]
              exact ⟨hmem, .down hat.here hd (.here _)⟩
            · exact ⟨hwalks.1, .down hat.here hd hwalks.2⟩
        · rw [hf] at htype
          simp only [htype]
          apply Runs.pure
          rw [hino, foundNo_small hsmall]
          refine ⟨Found.file (htree.unique n hn) hat.here hf hat.named iNo _, ⟨n, hdir₁⟩, ?_, fun hnil => absurd hnil (List.cons_ne_nil _ _)⟩
          intro htype'
          cases htype'

end

/-- `search_file` finds what the whole path names, whatever the stack held. -/
def ResolvesExactly (K : Kernel) (s : Fs) (path : Path) : Prop :=
  ∀ junk, ∃ r record s', searchFile K junk path s = .ok ((r, record), s') ∧
    ∀ i, r = some i ↔ Resolves (entries K s) 0 (components path) i

/-- The path is `/` or has a name, and does not go on below a regular file. -/
def Followed (K : Kernel) (s : Fs) (path : Path) : Prop :=
  (path = [slash] ∨ components path ≠ []) ∧ ¬ BelowFile (entries K s) 0 (components path)

theorem Tree.dot {K : Kernel} {s : Fs} {dirs : Set ℕ} (h : Tree K s dirs) {name : Name} (hname : name ∈ [dot, dotDot]) (i : ℕ) :
    (some 0 = some i ↔ Resolves (entries K s) 0 [name] i) ∧ ¬ BelowFile (entries K s) 0 [name] := by
  obtain ⟨pos, e, he, hn, hd, h0⟩ := h.dots name hname
  rw [resolves_down (h.unique 0 h.root) he hd hn, belowFile_down (h.unique 0 h.root) he hd hn, h0, resolves_nil, Option.some.injEq, eq_comm]
  exact ⟨Iff.rfl, not_belowFile_nil _⟩

theorem mem_components {path : Path} {name : Name} (h : name ∈ components path) : ∀ c ∈ name, c ∈ path := by
  have hsplit : ∀ (path : Path) (w : Path), w ∈ path.splitOnP (· == slash) → ∀ c ∈ w, c ∈ path := by
    intro path
    induction path with
    | nil =>
      intro w hw
      rw [List.splitOnP_nil, List.mem_singleton] at hw
      rw [hw]
      exact fun c hc => hc
    | cons x xs ih =>
      intro w hw c hc
      rw [List.splitOnP_cons_eq_if_modifyHead] at hw
      split_ifs at hw
      · rcases List.mem_cons.mp hw with rfl | hw
        · cases hc
        · exact List.mem_cons_of_mem _ (ih w hw c hc)
      · obtain ⟨v, vs, hv⟩ := List.exists_cons_of_ne_nil (List.splitOnP_ne_nil (· == slash) xs)
        rw [hv, List.modifyHead_cons] at hw
        rcases List.mem_cons.mp hw with rfl | hw
        · rcases List.mem_cons.mp hc with rfl | hc
          · exact List.mem_cons_self
          · exact List.mem_cons_of_mem _ (ih v (by rw [hv]; exact List.mem_cons_self) c hc)
        · exact List.mem_cons_of_mem _ (ih w (by rw [hv]; exact List.mem_cons_of_mem _ hw) c hc)
  exact hsplit path name (List.mem_filter.mp h).1

theorem Tree.not_resolves {K : Kernel} {s : Fs} {dirs : Set ℕ} (h : Tree K s dirs) {n : ℕ} {names : List Name}
    (hb : BelowFile (entries K s) n names) (hn : n ∈ dirs) (i : ℕ) : ¬ Resolves (entries K s) n names i := by
  induction hb with
  | @file n pos e rest he hf hrest =>
    rw [resolves_file (h.unique n hn) he hf rfl]
    exact fun hr => hrest hr.1
  | @down n pos e rest he hd _ ih =>
    rw [resolves_down (h.unique n hn) he hd rfl]
    rcases h.kinds n hn pos e he with ⟨-, hmem⟩ | ⟨hf, -⟩
    · exact ih hmem
    · rw [hd] at hf
      cases hf

theorem searchFile_found {K : Kernel} {held : Multiset Ptr} {s : Fs} (hset : s.Settled K held) {dirs : Set ℕ} (htree : Tree K s dirs)
    {path : Path} (habs : path.head? = some slash) (hlen : path.length < maxPathLen) (hzero : 0 ∉ path)
    (hnames : ∀ c ∈ components path, c.length < 16)
    (hplain : ¬ (path = [slash] ∨ path = slash :: dot ∨ path = slash :: dotDot)) (junk : Junk) :
    Runs (searchFile K junk path) s fun r s' => Searched K s held dirs 0 junk.iNo (components path) r s' := by
  unfold searchFile
  rw [if_neg hplain]
  have hlong : 1 < path.length := by
    cases path with
    | nil => cases habs
    | cons c rest =>
      obtain rfl : c = slash := Option.some.inj habs
      cases rest with
      | nil => exact absurd (.inl rfl) hplain
      | cons _ _ => simp
  refine Runs.assert ⟨habs, hlong, hlen⟩ ?_
  have hnext := @nextName_runs s (some path) hnames
  refine Runs.bind hnext ?_
  rintro ⟨name, subPath⟩ _ ⟨rfl, hrem, hsub, hfit⟩
  have hfit := hfit fun p hp => by rw [← Option.some.inj hp]; exact habs
  dsimp only at hrem hsub hfit ⊢
  rw [Option.getD_some] at hrem hfit
  rw [← hrem]
  apply searchLoop_found hset htree hset.dirAt htree.root htree.root hsub
  · omega
  · intro _
    simp only [List.length_nil]
    omega
  · rw [hrem]
    intro c hc
    exact ⟨hnames c hc, fun h => hzero (mem_components hc 0 h)⟩
  · intro hkind
    cases hkind

theorem followed_of_exactly {K : Kernel} {held : Multiset Ptr} {s : Fs} (hset : s.Settled K held) {dirs : Set ℕ} (htree : Tree K s dirs)
    {path : Path} (habs : path.head? = some slash) (hlen : path.length < maxPathLen) (hzero : 0 ∉ path)
    (hnames : ∀ c ∈ components path, c.length < 16)
    (hplain : ¬ (path = [slash] ∨ path = slash :: dot ∨ path = slash :: dotDot)) (hexact : ResolvesExactly K s path) :
    Followed K s path := by
  obtain ⟨r, record, s', hrun, hiff⟩ := hexact ⟨1, false⟩
  obtain ⟨r', s'', hrun', ⟨hr, -⟩⟩ := searchFile_found hset htree habs hlen hzero hnames hplain ⟨1, false⟩
  obtain ⟨rfl, rfl⟩ := ok_inj hrun hrun'
  unfold Found at hr
  split_ifs at hr with hnil
  · -- without a name the result is what the stack held
    rw [hnil] at hiff
    have := (hiff 1).mp hr
    rw [resolves_nil] at this
    cases this
  · refine ⟨.inr hnil, ?_⟩
    intro hbelow
    obtain ⟨i, hi⟩ := Option.ne_none_iff_exists'.mp (hr.1 hbelow)
    exact htree.not_resolves hbelow htree.root i ((hiff i).mp hi)

/-- On a directory tree `search_file` resolves an absolute path exactly if the path is `/` or has a name, and does not go on below a
regular file. -/
theorem search_file_exact (K : Kernel) (held : Multiset Ptr) (s : Fs) (hset : s.Settled K held) (dirs : Set ℕ) (htree : Tree K s dirs)
    (path : Path) (habs : path.head? = some slash) (hlen : path.length < maxPathLen) (hzero : 0 ∉ path)
    (hnames : ∀ c ∈ components path, c.length < 16) : ResolvesExactly K s path ↔ Followed K s path := by
  unfold ResolvesExactly Followed
  by_cases hspecial : path = [slash] ∨ path = slash :: dot ∨ path = slash :: dotDot
  · have hroot : ∀ junk, searchFile K junk path s = .ok ((some 0, ⟨.root, .directory, []⟩), s) := by
      intro junk
      unfold searchFile
      rw [if_pos hspecial]
      rfl
    have hmeaning : (path = [slash] ∨ components path ≠ []) ∧ ¬ BelowFile (entries K s) 0 (components path) ∧
        ∀ i, some 0 = some i ↔ Resolves (entries K s) 0 (components path) i := by
      rcases hspecial with rfl | rfl | rfl
      · have hnil : components [slash] = [] := components_slash []
        rw [hnil]
        refine ⟨.inl rfl, not_belowFile_nil _, fun i => ?_⟩
        rw [resolves_nil, Option.some.injEq, eq_comm]
      · have hdot : components (slash :: dot) = [dot] := by
          rw [components_slash, components_single (by decide)]
          rfl
        rw [hdot]
        exact ⟨.inr (List.cons_ne_nil _ _), (htree.dot List.mem_cons_self 0).2, fun i => (htree.dot List.mem_cons_self i).1⟩
      · have hdot : components (slash :: dotDot) = [dotDot] := by
          rw [components_slash, components_single (by decide)]
          rfl
        have hmem : dotDot ∈ [dot, dotDot] := List.mem_cons_of_mem _ List.mem_cons_self
        rw [hdot]
        exact ⟨.inr (List.cons_ne_nil _ _), (htree.dot hmem 0).2, fun i => (htree.dot hmem i).1⟩
    exact iff_of_true (fun junk => ⟨_, _, _, hroot junk, hmeaning.2.2⟩) ⟨hmeaning.1, hmeaning.2.1⟩
  · have hfound := searchFile_found hset htree habs hlen hzero hnames hspecial
    constructor
    · exact followed_of_exactly hset htree habs hlen hzero hnames hspecial
    · rintro ⟨hsome, hbelow⟩ junk
      have hnil : components path ≠ [] := hsome.resolve_left fun h => hspecial (.inl h)
      obtain ⟨⟨r, record⟩, s', hrun, ⟨hr, -⟩⟩ := hfound junk
      unfold Found at hr
      rw [if_neg hnil] at hr
      exact ⟨r, record, s', hrun, hr.2 hbelow⟩

theorem oneFile_settled : oneFile.Settled smallPartition.kernel {⟨0, .kernel⟩} := by
  have hmem : ∀ p, p ∈ oneFile.openInodes ↔ p = ⟨0, .kernel⟩ := fun p => List.mem_singleton
  refine ⟨⟨by decide, by decide⟩, rfl, ⟨by decide, ?_, ?_, ?_⟩, fun _ => rfl, ?_, ?_, ?_, List.mem_singleton_self _, rfl⟩
  · intro p hp
    rw [(hmem p).mp hp]
    decide
  · intro p hp
    rw [(hmem p).mp hp, Multiset.count_singleton_self]
    rfl
  · intro p
    rw [hmem, Multiset.mem_singleton]
  · intro p hp
    rw [(hmem p).mp hp]
  · intro p _
    rfl
  · intro p hp q hq _
    rw [(hmem p).mp hp, (hmem q).mp hq]

def oneFileEntries : List Entry := [⟨dot, 0, .directory⟩, ⟨dotDot, 0, .directory⟩, ⟨[102], 1, .regular⟩]

theorem oneFile_slots : ∀ j < 21, (entryAt oneFile.kern.disk (smallPartition.sb.dataStartLba * 512 + 24 * j)).name.length < 16 ∧
    ((entryAt oneFile.kern.disk (smallPartition.sb.dataStartLba * 512 + 24 * j)).fType = .unknown ↔
      (entryAt oneFile.kern.disk (smallPartition.sb.dataStartLba * 512 + 24 * j)).name = []) := by
  decide +kernel

theorem oneFile_live : ∀ j < 21, (entryAt oneFile.kern.disk (smallPartition.sb.dataStartLba * 512 + 24 * j)).fType ≠ .unknown →
    entryAt oneFile.kern.disk (smallPartition.sb.dataStartLba * 512 + 24 * j) ∈ oneFileEntries := by
  decide +kernel

theorem oneFile_inode : theInode smallPartition.kernel oneFile 0 = oneFile.inodes ⟨0, .kernel⟩ := rfl

theorem oneFile_block (p : ℕ) : blockAddr oneFile.kern.disk (oneFile.inodes ⟨0, .kernel⟩) p =
    if p = 0 then smallPartition.sb.dataStartLba else 0 := by
  change (if p < 12 then Function.update (fun _ => 0) 0 smallPartition.sb.dataStartLba p else if _ = 0 then 0 else _) = _
  by_cases hp : p = 0
  · subst hp
    rfl
  · rw [if_neg hp, Function.update_of_ne hp]
    split_ifs with h h'
    · rfl
    · rfl
    · exact absurd rfl h'

theorem oneFile_slot {pos : ℕ × ℕ} (h : Slot oneFile.kern.disk (oneFile.inodes ⟨0, .kernel⟩) pos) : pos.2 < 21 ∧
    slotAddr oneFile.kern.disk (oneFile.inodes ⟨0, .kernel⟩) pos = smallPartition.sb.dataStartLba * 512 + 24 * pos.2 := by
  obtain ⟨-, hj, hb⟩ := h
  rw [oneFile_block] at hb
  split_ifs at hb with hp
  · refine ⟨hj, ?_⟩
    rw [slotAddr, oneFile_block, if_pos hp]
  · exact absurd rfl hb

theorem oneFile_entries {pos : ℕ × ℕ} {e : Entry} (h : entries smallPartition.kernel oneFile 0 pos = some e) : e ∈ oneFileEntries := by
  rw [entries, oneFile_inode] at h
  obtain ⟨hslot, hlive, rfl⟩ := slotMap_eq_some.mp h
  obtain ⟨hj, haddr⟩ := oneFile_slot hslot
  rw [haddr] at hlive ⊢
  exact oneFile_live pos.2 hj hlive

theorem oneFile_at : ∀ e ∈ oneFileEntries, ∃ pos, entries smallPartition.kernel oneFile 0 pos = some e := by
  have hplaces : ∀ e ∈ oneFileEntries, ∃ j < 21, entryAt oneFile.kern.disk (smallPartition.sb.dataStartLba * 512 + 24 * j) = e := by
    decide +kernel
  intro e he
  obtain ⟨j, hj, hat⟩ := hplaces e he
  have hblock : blockAddr oneFile.kern.disk (oneFile.inodes ⟨0, .kernel⟩) 0 = smallPartition.sb.dataStartLba := by
    rw [oneFile_block, if_pos rfl]
  refine ⟨(0, j), ?_⟩
  rw [entries, oneFile_inode, slotMap_eq_some]
  refine ⟨⟨by simp, hj, ?_⟩, ?_, ?_⟩
  · rw [hblock]
    decide
  · have hlive : ∀ e ∈ oneFileEntries, e.fType ≠ .unknown := by decide
    exact hlive e he
  · rw [slotAddr, hblock]
    exact hat

theorem oneFile_tree : Tree smallPartition.kernel oneFile {0} := by
  have hzero : ∀ n : ℕ, n ∈ ({0} : Set ℕ) → n = 0 := fun n hn => hn
  refine ⟨rfl, ?_, ?_, ?_, ?_, ?_, ?_⟩
  · intro n hn
    rw [hzero n hn]
    exact ⟨by decide, rfl⟩
  · intro n hn pos hslot
    rw [hzero n hn, oneFile_inode] at *
    obtain ⟨hj, haddr⟩ := oneFile_slot hslot
    rw [haddr]
    exact oneFile_slots pos.2 hj
  · intro n hn p _
    rw [hzero n hn, oneFile_inode]
    unfold refAddr
    rw [oneFile_block]
    split_ifs
    · exact Nat.zero_le _
    · decide
    · exact Nat.zero_le _
  · intro n hn pos pos' e e' he he' hname
    rw [hzero n hn] at he he'
    have hunique : ∀ e ∈ oneFileEntries, ∀ e' ∈ oneFileEntries, e.name = e'.name → e = e' := by decide
    exact hunique e (oneFile_entries he) e' (oneFile_entries he') hname
  · intro n hn pos e he
    rw [hzero n hn] at he
    have hkinds : ∀ e ∈ oneFileEntries, e.fType = .directory ∧ e.iNo = 0 ∨ e.fType = .regular ∧ e.iNo < 4096 := by decide
    exact hkinds e (oneFile_entries he)
  · intro name hname
    have hdots : ∀ name ∈ [dot, dotDot], ∃ e ∈ oneFileEntries, e.name = name ∧ e.fType = .directory ∧ e.iNo = 0 := by decide
    obtain ⟨e, he, hn, hd, h0⟩ := hdots name hname
    obtain ⟨pos, hpos⟩ := oneFile_at e he
    exact ⟨pos, e, hpos, hn, hd, h0⟩

theorem search_file_exact_f : oneFile.Settled smallPartition.kernel {⟨0, .kernel⟩} ∧ Tree smallPartition.kernel oneFile {0} ∧
    ResolvesExactly smallPartition.kernel oneFile [slash, 102] := by
  refine ⟨oneFile_settled, oneFile_tree, ?_⟩
  have hcomp : components [slash, 102] = [[102]] := by
    rw [components_slash, components_single (by decide)]
    rfl
  apply (search_file_exact smallPartition.kernel {⟨0, .kernel⟩} oneFile oneFile_settled {0} oneFile_tree [slash, 102] rfl (by decide)
    (by decide) (by rw [hcomp]; decide)).mpr
  refine ⟨.inr (by rw [hcomp]; decide), ?_⟩
  rw [hcomp]
  exact not_belowFile_single 0 [102]

/-- `/f/x` and `//` are not resolved. -/
theorem search_file_below_file : oneFile.Settled smallPartition.kernel {⟨0, .kernel⟩} ∧ Tree smallPartition.kernel oneFile {0} ∧
    ¬ ResolvesExactly smallPartition.kernel oneFile [slash, 102, slash, 120] ∧
    ¬ ResolvesExactly smallPartition.kernel oneFile [slash, slash] := by
  refine ⟨oneFile_settled, oneFile_tree, ?_, ?_⟩
  · intro hexact
    have hcomp : components [slash, 102, slash, 120] = [[102], [120]] := by
      have hlast : components [120] = [[120]] := by
        rw [components_single (by decide)]
        rfl
      rw [components_slash]
      apply (components_append_slash [102] [120] (by decide)).trans
      rw [hlast]
      rfl
    have hnames : ∀ c ∈ components [slash, 102, slash, 120], c.length < 16 := by
      rw [hcomp]
      decide
    apply (followed_of_exactly oneFile_settled oneFile_tree rfl (by decide) (by decide) hnames (by decide) hexact).2
    obtain ⟨pos, hpos⟩ := oneFile_at ⟨[102], 1, .regular⟩ (by decide)
    rw [hcomp]
    exact .file hpos rfl (by simp)
  · intro hexact
    have hcomp : components [slash, slash] = [] := by
      rw [components_slash, components_slash]
      rfl
    have hnames : ∀ c ∈ components [slash, slash], c.length < 16 := by
      rw [hcomp]
      simp
    obtain ⟨hone | hsome, -⟩ := followed_of_exactly oneFile_settled oneFile_tree rfl (by decide) (by decide) hnames (by decide) hexact
    · cases hone
    · exact hsome hcomp

end ElephantOS
