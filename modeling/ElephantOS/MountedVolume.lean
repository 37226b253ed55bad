import ElephantOS.ReferenceCounts
import ElephantOS.VolumeTree

namespace ElephantOS

open ByteMemory HaltingState

structure Mounted (K : Kernel) (rest : Multiset Ptr) (dirs files : Set ℕ) (s : Fs) : Prop where
  refs : Refs (s.rootDir ::ₘ rest) s
  plenty : s.kern.Plenty
  volume : Volume K dirs files s.kern
  number : ∀ p ∈ s.openInodes, (s.inodes p).iNo ∈ dirs ∪ files
  stored : ∀ p ∈ s.openInodes, (storedInode K.toPartition s.kern.disk (s.inodes p).iNo).SameStored (s.inodes p)
  distinct : ∀ p ∈ s.openInodes, ∀ q ∈ s.openInodes, (s.inodes p).iNo = (s.inodes q).iNo → p = q
  root : (s.inodes s.rootDir).iNo = 0

noncomputable def Fs.tree (K : Kernel) (dirs files : Set ℕ) (s : Fs) : NamedTree ℕ Name (List UInt8) :=
  volumeTree K.toPartition dirs files s.kern.disk

structure Calm (held : Multiset Ptr) (s s' : Fs) : Prop where
  kern : HeapOnly s.kern s'.kern
  kept : Kept held s s'

theorem Calm.refl (held : Multiset Ptr) (s : Fs) : Calm held s s := ⟨HeapOnly.refl _, Kept.refl _ _⟩

theorem Calm.trans {held : Multiset Ptr} {s s' s'' : Fs} (h : Calm held s s') (h' : Calm held s' s'') : Calm held s s'' :=
  ⟨h.kern.trans h'.kern, h.kept.trans h'.kept⟩

theorem Calm.mono {held held' : Multiset Ptr} {s s' : Fs} (h : Calm held s s') (hle : ∀ p ∈ held', p ∈ held) : Calm held' s s' :=
  ⟨h.kern, h.kept.mono hle⟩

section

variable {K : Kernel} {rest : Multiset Ptr} {dirs files : Set ℕ} {s s' : Fs} {n : ℕ} {p : Ptr} {d : Dir} {u : Unit}

theorem Fs.tree_congr (hd : s'.kern.disk = s.kern.disk) : s'.tree K dirs files = s.tree K dirs files := by
  unfold Fs.tree
  rw [hd]

theorem Calm.tree {held : Multiset Ptr} (h : Calm held s s') : s'.tree K dirs files = s.tree K dirs files := Fs.tree_congr h.kern.disk

theorem Mounted.mem (h : Mounted K rest dirs files s) (hp : p ∈ rest) : p ∈ s.openInodes :=
  (h.refs.mem p).mp (Multiset.mem_cons_of_mem hp)

theorem Mounted.rootMem (h : Mounted K rest dirs files s) : s.rootDir ∈ s.openInodes := (h.refs.mem _).mp (Multiset.mem_cons_self _ _)

theorem Mounted.heap (h : Mounted K rest dirs files s) {k : Kern} (hk : HeapOnly s.kern k) : Mounted K rest dirs files { s with kern := k } where
  refs := h.refs.kern hk.next
  plenty := hk.plenty h.plenty
  volume := (h.volume.heap hk).1
  number := h.number
  stored p hp := by
    change (storedInode K.toPartition k.disk _).SameStored _
    rw [hk.disk]
    exact h.stored p hp
  distinct := h.distinct
  root := h.root

theorem Mounted.lift {α : Type} {m : KernM α} {a : α} (h : Mounted K rest dirs files s) (held : Multiset Ptr)
    (hm : ∀ k a k', m k = .ok (a, k') → HeapOnly k k') (hs : liftKern m s = .ok (a, s')) :
    Mounted K rest dirs files s' ∧ Calm held s s' ∧ ∃ k, m s.kern = .ok (a, k) ∧ s' = { s with kern := k } := by
  obtain ⟨k, hk, rfl⟩ := (liftKern_ok m s s' a).mp hs
  exact ⟨h.heap (hm _ _ _ hk), ⟨hm _ _ _ hk, Kept.kern held s k⟩, k, hk, rfl⟩

theorem Mounted.inodeOpen (h : Mounted K rest dirs files s) (hn : n ∈ dirs ∪ files) (hs : inodeOpen K n s = .ok (p, s')) :
    Mounted K (p ::ₘ rest) dirs files s' ∧ Calm (s.rootDir ::ₘ rest) s s' ∧ (s'.inodes p).iNo = n := by
  obtain ⟨hrefs, hkept⟩ := inodeOpen_refs h.refs hs
  rw [Multiset.cons_swap, ← hkept.rootDir] at hrefs
  cases hc : cached s n with
  | some q =>
    have hq : q ∈ s.openInodes := List.mem_of_find?_eq_some hc
    have hno : (s.inodes q).iNo = n := by simpa using List.find?_some hc
    rw [inodeOpen_hit hc, Except.ok.injEq, Prod.mk.injEq] at hs
    obtain ⟨rfl, rfl⟩ := hs
    have hsame : ∀ r, ((setInode q { s.inodes q with iOpenCnts := (s.inodes q).iOpenCnts + 1 } s).inodes r).iNo = (s.inodes r).iNo ∧
        (s.inodes r).SameStored ((setInode q { s.inodes q with iOpenCnts := (s.inodes q).iOpenCnts + 1 } s).inodes r) := by
      intro r
      unfold setInode
      by_cases hr : r = q
      · subst hr
        simp only [Function.update_self]
        exact ⟨trivial, rfl, rfl, fun _ _ => rfl⟩
      · simp only [Function.update_of_ne hr]
        exact ⟨trivial, Inode.SameStored.refl _⟩
    refine ⟨⟨hrefs, h.plenty, h.volume, ?_, ?_, ?_, ?_⟩, ⟨HeapOnly.refl _, hkept⟩, (hsame q).1.trans hno⟩
    · intro r hr
      rw [(hsame r).1]
      exact h.number r hr
    · intro r hr
      rw [(hsame r).1]
      exact (h.stored r hr).trans (hsame r).2
    · intro r hr t ht
      rw [(hsame r).1, (hsame t).1]
      exact h.distinct r hr t ht
    · exact (hsame s.rootDir).1.trans h.root
  | none =>
    obtain ⟨-, rfl, hheap, hlt, heq⟩ := inodeOpen_miss hc hs
    have hnone : ∀ q ∈ s.openInodes, (s.inodes q).iNo ≠ n := by
      intro q hq
      have := List.find?_eq_none.mp hc q hq
      simpa using this
    have hnew : ∀ q ∈ s.openInodes, q ≠ ⟨s.kern.heap.next, .kernel⟩ := by
      rintro q hq rfl
      exact absurd (h.refs.fresh _ hq) (lt_irrefl _)
    have hvol := (h.volume.heap hheap).1
    generalize s'.kern = k' at heq hheap hvol
    subst heq
    have hopened : (openedInode K.toPartition s.kern.disk n).iNo = n := h.volume.number n hn
    refine ⟨⟨hrefs, hheap.plenty h.plenty, hvol, ?_, ?_, ?_, ?_⟩, ⟨hheap, hkept⟩, ?_⟩
    · intro r hr
      rcases List.mem_cons.mp hr with rfl | hr
      · simp only [Function.update_self, hopened]
        exact hn
      · simp only [Function.update_of_ne (hnew r hr)]
        exact h.number r hr
    · intro r hr
      change (storedInode K.toPartition k'.disk _).SameStored _
      rw [hheap.disk]
      rcases List.mem_cons.mp hr with rfl | hr
      · simp only [Function.update_self, hopened]
        exact ⟨rfl, rfl, fun _ _ => rfl⟩
      · simp only [Function.update_of_ne (hnew r hr)]
        exact h.stored r hr
    · intro r hr t ht
      rcases List.mem_cons.mp hr with rfl | hr <;> rcases List.mem_cons.mp ht with rfl | ht
      · exact fun _ => rfl
      · simp only [Function.update_self, Function.update_of_ne (hnew t ht), hopened]
        exact fun hx => absurd hx.symm (hnone t ht)
      · simp only [Function.update_self, Function.update_of_ne (hnew r hr), hopened]
        exact fun hx => absurd hx (hnone r hr)
      · simp only [Function.update_of_ne (hnew r hr), Function.update_of_ne (hnew t ht)]
        exact h.distinct r hr t ht
    · simp only [Function.update_of_ne (hnew _ h.rootMem)]
      exact h.root
    · simp only [Function.update_self, hopened]

theorem inodeClose_heap (hs : inodeClose p s = .ok (u, s')) :
    HeapOnly s.kern s'.kern ∧ ∀ r, (s.inodes r).SameStored (s'.inodes r) := by
  have hsame : ∀ r, (s.inodes r).SameStored ((setInode p { s.inodes p with iOpenCnts := (s.inodes p).iOpenCnts - 1 } s).inodes r) := by
    intro r
    unfold setInode
    by_cases hr : r = p
    · subst hr
      simp only [Function.update_self]
      exact ⟨rfl, rfl, fun _ _ => rfl⟩
    · simp only [Function.update_of_ne hr]
      exact Inode.SameStored.refl _
  unfold inodeClose at hs
  simp only [bind_ok, modify_ok, get_ok] at hs
  obtain ⟨_, s1, rfl, _, _, ⟨rfl, rfl⟩, hs⟩ := hs
  split_ifs at hs with hz
  · simp only [bind_ok, liftKern_ok, withKernelPool_ok] at hs
    obtain ⟨_, s2, hrem, k, ⟨k1, hfree, rfl⟩, rfl⟩ := hs
    unfold listRemove at hrem
    split_ifs at hrem
    simp only [Except.ok.injEq, Prod.mk.injEq, true_and] at hrem
    subst hrem
    have hk := sysFree_ok hfree
    exact ⟨⟨hk.disk, hk.blockBitmap, hk.inodeBitmap, rfl, hk.grant, hk.next⟩, hsame⟩
  · obtain ⟨-, rfl⟩ := (pure_ok _ _ _ _).mp hs
    exact ⟨HeapOnly.refl _, hsame⟩

theorem Mounted.inodeClose (h : Mounted K (p ::ₘ rest) dirs files s) (hs : inodeClose p s = .ok (u, s')) :
    Mounted K rest dirs files s' ∧ Calm (s.rootDir ::ₘ p ::ₘ rest) s s' := by
  have hrefs₀ := h.refs
  rw [Multiset.cons_swap] at hrefs₀
  obtain ⟨hrefs, hkept⟩ := inodeClose_refs hrefs₀ hs
  rw [← hkept.rootDir] at hrefs
  rw [Multiset.cons_swap] at hkept
  have hback : ∀ r ∈ s'.openInodes, r ∈ s.openInodes := by
    intro r hr
    have hmem := (hrefs.mem r).mpr hr
    rw [hkept.rootDir] at hmem
    exact (hrefs₀.mem r).mp (Multiset.mem_cons_of_mem hmem)
  obtain ⟨hheap, hsame⟩ := inodeClose_heap hs
  refine ⟨⟨hrefs, hheap.plenty h.plenty, (h.volume.heap hheap).1, ?_, ?_, ?_, ?_⟩, ⟨hheap, hkept⟩⟩
  · intro r hr
    rw [← (hsame r).iNo]
    exact h.number r (hback r hr)
  · intro r hr
    rw [← (hsame r).iNo, hheap.disk]
    exact (h.stored r (hback r hr)).trans (hsame r)
  · intro r hr t ht hno
    rw [← (hsame r).iNo, ← (hsame t).iNo] at hno
    exact h.distinct r (hback r hr) t (hback t ht) hno
  · rw [hkept.rootDir, ← (hsame _).iNo]
    exact h.root

theorem Mounted.dirOpen (h : Mounted K rest dirs files s) (hn : n ∈ dirs) (hs : dirOpen K n s = .ok (d, s')) :
    Mounted K (dirRefs d + rest) dirs files s' ∧ Calm (s.rootDir ::ₘ rest) s s' ∧ (s'.inodes (d.inode s')).iNo = n := by
  unfold ElephantOS.dirOpen at hs
  simp only [bind_ok] at hs
  obtain ⟨pdir, s1, h1, p, s2, h2, hs⟩ := hs
  obtain ⟨hm1, hc1, -⟩ := h.lift (s.rootDir ::ₘ rest) (fun _ _ _ hk => (sysMalloc_ok hk).1) h1
  have hroot : s1.rootDir = s.rootDir := hc1.kept.rootDir
  obtain ⟨hm2, hc2, hno⟩ := hm1.inodeOpen (.inl hn) h2
  cases pdir with
  | none => simp at hs
  | some pdir =>
    obtain ⟨rfl, rfl⟩ := (pure_ok _ _ _ _).mp hs
    rw [hroot] at hc2
    exact ⟨hm2, hc1.trans hc2, hno⟩

theorem Mounted.dirClose (h : Mounted K (dirRefs d + rest) dirs files s) (hs : dirClose d s = .ok (u, s')) :
    Mounted K rest dirs files s' ∧ Calm (s.rootDir ::ₘ rest) s s' := by
  cases d with
  | root =>
    obtain ⟨-, rfl⟩ := (pure_ok _ _ _ _).mp hs
    rw [dirRefs, zero_add] at h
    exact ⟨h, Calm.refl _ _⟩
  | heap ptr inode =>
    unfold ElephantOS.dirClose at hs
    simp only [bind_ok] at hs
    obtain ⟨_, s1, h1, h2⟩ := hs
    obtain ⟨hm1, hc1⟩ := h.inodeClose h1
    obtain ⟨hm2, hc2, -⟩ := hm1.lift (s.rootDir ::ₘ rest) (fun _ _ _ hk => sysFree_ok hk) h2
    refine ⟨hm2, (hc1.mono ?_).trans hc2⟩
    intro q hq
    rw [Multiset.mem_cons] at hq ⊢
    exact hq.imp_right Multiset.mem_cons_of_mem

end

end ElephantOS
