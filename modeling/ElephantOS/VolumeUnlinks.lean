import ElephantOS.VolumeMkdir

namespace ElephantOS

open ByteMemory HaltingState

section

variable {K : Kernel} {rest extra : Multiset Ptr} {dirs dirs' files files' : Set ℕ} {s s' : Fs} {p : Ptr} {n m d : ℕ} {u : Unit}
  {name : Name} {io : Buffer} {ok : Bool} {dir : Dir} {inode inode' : Inode}

theorem dirClose_heap (hs : dirClose dir s = .ok (u, s')) : HeapOnly s.kern s'.kern ∧ ∀ r, (s.inodes r).SameStored (s'.inodes r) := by
  cases dir with
  | root =>
    obtain ⟨-, rfl⟩ := (pure_ok _ _ _ _).mp hs
    exact ⟨HeapOnly.refl _, fun _ => Inode.SameStored.refl _⟩
  | heap ptr inode =>
    unfold dirClose at hs
    simp only [bind_ok, liftKern_ok] at hs
    obtain ⟨_, s1, h1, k, h2, rfl⟩ := hs
    obtain ⟨hheap, hsame⟩ := inodeClose_heap h1
    exact ⟨hheap.trans (sysFree_ok h2), hsame⟩

theorem inodeOpen_heap (hfresh : ∀ q ∈ s.openInodes, q.id < s.kern.heap.next) (hs : inodeOpen K n s = .ok (p, s')) :
    HeapOnly s.kern s'.kern ∧ (∀ q ∈ s.openInodes, (s.inodes q).SameStored (s'.inodes q)) ∧
      (p ∈ s.openInodes ∧ (s.inodes p).iNo = n ∨ (storedInode K.toPartition s.kern.disk n).SameStored (s'.inodes p)) := by
  cases hc : cached s n with
  | some q =>
    have hq : q ∈ s.openInodes := List.mem_of_find?_eq_some hc
    have hno : (s.inodes q).iNo = n := by simpa using List.find?_some hc
    rw [inodeOpen_hit hc, Except.ok.injEq, Prod.mk.injEq] at hs
    obtain ⟨rfl, rfl⟩ := hs
    refine ⟨HeapOnly.refl _, fun r _ => ?_, .inl ⟨hq, hno⟩⟩
    exact @setInode_sameStored s q { s.inodes q with iOpenCnts := (s.inodes q).iOpenCnts + 1 } ⟨rfl, rfl, fun _ _ => rfl⟩ r
  | none =>
    obtain ⟨-, rfl, hheap, -, heq⟩ := inodeOpen_miss hc hs
    have hinodes := congrArg Fs.inodes heq
    dsimp only at hinodes
    refine ⟨hheap, fun q hq => ?_, .inr ?_⟩
    · have hne : q ≠ ⟨s.kern.heap.next, .kernel⟩ := by
        rintro rfl
        exact absurd (hfresh _ hq) (lt_irrefl _)
      rw [hinodes, Function.update_of_ne hne]
      exact Inode.SameStored.refl _
    · rw [hinodes, Function.update_self]
      exact ⟨rfl, rfl, fun _ _ => rfl⟩

theorem inodeRelease_stages (hl : Layout K.toPartition s.kern.blockBitmap.btmpBytesLen) (hm : m < 4096)
    (hown : ∀ p s₁, inodeOpen K m s = .ok (p, s₁) → Owns K.toPartition s₁.kern (s₁.inodes p) ∧ s₁.kern.blockBitmap = s.kern.blockBitmap)
    (hs : inodeRelease K m s = .ok (u, s')) : ∃ p s₁ k, inodeOpen K m s = .ok (p, s₁) ∧ InodeFreed K m (s₁.inodes p) s₁.kern k ∧
      Steady s₁.kern k ∧ ∃ v, inodeClose p { s₁ with kern := k } = .ok (v, s') := by
  unfold inodeRelease at hs
  simp only [bind_ok, get_ok, assert_ok, liftKern_ok] at hs
  obtain ⟨p, s₁, hopen, _, _, ⟨rfl, rfl⟩, _, _, ⟨-, rfl⟩, _, _, ⟨k₃, hrel, rfl⟩, _, _, ⟨k₄, hset, rfl⟩, _, _, ⟨k₅, hsync, rfl⟩,
    o, _, ⟨k₆, hmalloc, rfl⟩, hs⟩ := hs
  obtain ⟨hown, hbits⟩ := hown p s₁ hopen
  rw [← hbits] at hl
  cases o with
  | none => simp at hs
  | some buf =>
    simp only [bind_ok, liftKern_ok] at hs
    obtain ⟨_, _, ⟨k₇, hdel, rfl⟩, _, _, ⟨k₈, hfree, rfl⟩, hs⟩ := hs
    have hset' : k₄ = { k₃ with inodeBitmap := k₃.inodeBitmap.set m false } := ((modify_ok _ _ _ _).mp hset).symm
    subst hset'
    have hfreed := inodeFreed_run hl hown hm hrel hsync (sysMalloc_ok hmalloc).1 hdel
    have hk₈ := sysFree_ok hfree
    refine ⟨p, s₁, k₈, hopen, ⟨?_, ?_, ?_, ?_, fun hm => hk₈.keepsMount (hfreed.mountable hm)⟩, ?_, _, hs⟩
    · rw [hk₈.blockBitmap]
      exact hfreed.len
    · rw [hk₈.blockBitmap]
      exact hfreed.bits
    · rw [hk₈.inodeBitmap]
      exact hfreed.inodeBitmap
    · rw [hk₈.disk]
      exact hfreed.disk
    · have h1 := (Quiet.releaseBlocks K _ _ _ _ hrel).trans (Quiet.inodeBitmapSet m false _ _ _ hset)
      have h2 := (h1.trans (Quiet.bitmapSync K _ _ _ _ _ hsync)).trans (Quiet.sysMalloc _ _ _ _ hmalloc)
      exact (h2.trans (Quiet.inodeDelete K _ _ _ _ _ hdel)).trans (Quiet.sysFree _ _ _ _ hfree)

theorem Volume.entry_deleted {k k₁ : Kern} {pos₀ : ℕ × ℕ} {e₀ : Entry} (hv : Volume K dirs files k) (hd : d ∈ dirs)
    (hc : (storedInode K.toPartition k.disk d).SameStored inode) (he₀ : entriesOn K.toPartition k.disk d pos₀ = some e₀)
    (hord₀ : e₀.Ordinary) (hm₀ : e₀.iNo = m) (hrun : deleteDirEntry K inode m io k = .ok ((ok, inode'), k₁)) :
    Inodes K dirs files k₁ ∧ Undisturbed K.toPartition ((dirs ∪ files) \ {d}) k k₁ := by
  have hdir := hv.toInodes.dirAt hd hc
  have hold : entriesOn K.toPartition k.disk d = slotMap k.disk inode := (SameBlocks.of_stored hc).symm.map.symm
  rcases deleteDirEntry_unlinked hdir (hv.slot d (.inl hd)) (hc.iNo.symm.trans (hv.number d (.inl hd))) hrun with
    ⟨-, -, hnone⟩ | ⟨pos, e, he, hord, hiNo, hu⟩
  · rw [hold] at he₀
    exact absurd hm₀ (hnone pos₀ e₀ he₀ hord₀)
  · exact hv.toInodes.unlinkDir hv.names.disjoint hd hc hu (hu.dirOk hdir he hord)

structure NameRemoved (K : Kernel) (dirs files : Set ℕ) (d : ℕ) (name : Name) (m : ℕ) (s s' : Fs) : Prop where
  volume : Volume K (dirs \ {m}) (files \ {m}) s'.kern
  tree : s'.tree K (dirs \ {m}) (files \ {m}) = (s.tree K dirs files).remove d name m
  grant : s'.kern.heap.grant = s.kern.heap.grant
  stored : ∀ q ∈ s.openInodes, (s.inodes q).iNo ≠ m → (storedInode K.toPartition s'.kern.disk (s.inodes q).iNo).SameStored (s'.inodes q)
  keeps : KeepsMount K.toPartition s.kern s'.kern

theorem removeName_run {k₁ : Kern} {pos₀ : ℕ × ℕ} {e₀ : Entry} (h : Mounted K (dirRefs dir + rest) dirs files s)
    (hno : (s.inodes (dir.inode s)).iNo = d) (hd : d ∈ dirs) (he₀ : entriesOn K.toPartition s.kern.disk d pos₀ = some e₀)
    (hord₀ : e₀.Ordinary) (hm₀ : e₀.iNo = m)
    (hempty : m ∈ dirs → ∀ q e', entriesOn K.toPartition s.kern.disk m q = some e' → ¬ e'.Ordinary)
    (hrun : deleteDirEntry K (s.inodes (dir.inode s)) m io s.kern = .ok ((ok, inode'), k₁))
    (hrel : inodeRelease K m (setInode (dir.inode s) inode' { s with kern := k₁ }) = .ok (u, s')) :
    NameRemoved K dirs files d e₀.name m s s' := by
  have hmem := h.dirMem
  have hst := h.stored _ hmem
  rw [hno] at hst
  have hgives := (deleteDirEntry_gives K _ _ _) _ _ _ hrun
  obtain ⟨hinodes₁, hu₁⟩ := h.volume.entry_deleted hd hst he₀ hord₀ hm₀ hrun
  have hmem₀ : m ∈ dirs ∪ files := by
    rcases h.volume.names.kinds d hd pos₀ e₀ he₀ with ⟨-, hx⟩ | ⟨-, hx⟩
    · exact .inl (hm₀ ▸ hx)
    · exact .inr (hm₀ ▸ hx)
  have hne : d ≠ m := by
    rintro rfl
    exact hempty hd pos₀ e₀ he₀ hord₀
  have hstored₁ : storedInode K.toPartition k₁.disk m = storedInode K.toPartition s.kern.disk m := (hu₁ m ⟨hmem₀, hne.symm⟩).1
  generalize hs₁ : setInode (dir.inode s) inode' { s with kern := k₁ } = s₁ at hrel
  have hkern : s₁.kern = k₁ := by rw [← hs₁]; rfl
  have hopen₁ : s₁.openInodes = s.openInodes := by rw [← hs₁]; rfl
  have hfresh : ∀ q ∈ s₁.openInodes, q.id < s₁.kern.heap.next := by
    intro q hq
    rw [hkern]
    rw [hopen₁] at hq
    exact (h.refs.fresh q hq).trans_le hgives.1.next
  have hother : ∀ q, q ≠ dir.inode s → s₁.inodes q = s.inodes q := by
    intro q hq
    rw [← hs₁]
    simp only [setInode, Function.update_of_ne hq]
  have hparent : s₁.inodes (dir.inode s) = inode' := by
    rw [← hs₁]
    simp only [setInode, Function.update_self]
  -- the inode that is released is the stored one
  have hreleased : ∀ p s₂, inodeOpen K m s₁ = .ok (p, s₂) → HeapOnly k₁ s₂.kern ∧
      (storedInode K.toPartition s₂.kern.disk m).SameStored (s₂.inodes p) := by
    intro p s₂ hopen
    obtain ⟨hheap, hsame, hp⟩ := inodeOpen_heap hfresh hopen
    rw [hkern] at hheap
    refine ⟨hheap, ?_⟩
    rw [hheap.disk, hstored₁]
    rcases hp with ⟨hp, hpno⟩ | hp
    · have hpd : p ≠ dir.inode s := by
        rintro rfl
        rw [hparent, hgives.2.iNo, hno] at hpno
        exact hne hpno
      have hsame := hsame p hp
      rw [hopen₁] at hp
      rw [hother p hpd] at hpno hsame
      have := h.stored p hp
      rw [hpno] at this
      exact this.trans hsame
    · rw [hkern, hstored₁] at hp
      exact hp
  obtain ⟨p, s₂, k₂, hopen, hfreed, hsteady, v, hclose⟩ := inodeRelease_stages (hkern ▸ hinodes₁.layout) (h.volume.slot m hmem₀).1
    (fun p s₂ hopen => by
      obtain ⟨hheap, hp⟩ := hreleased p s₂ hopen
      have hi₂ : Inodes K dirs files s₂.kern := hinodes₁.spare (hinodes₁.elsewhere hheap.blockBitmap fun a => .inl (congrFun hheap.disk a))
      refine ⟨?_, ?_⟩
      · exact (SameBlocks.of_stored hp).symm.owns (hi₂.owns hmem₀) (hi₂.owns hmem₀).used
      · rw [hkern, hheap.blockBitmap]) hrel
  obtain ⟨hheap, hf⟩ := hreleased p s₂ hopen
  obtain ⟨hclosed, hsame₂⟩ := inodeClose_heap hclose
  obtain ⟨hv, -, hu, hdirSt, hgone, hkeep⟩ := h.volume.remove hd hst he₀ hord₀ hm₀ hempty hrun hheap hf hfreed
  subst hm₀
  have htree := h.volume.tree_remove hgone hord₀ hd hne hu hempty
  refine ⟨(hv.heap hclosed).1, ?_, ?_, ?_, hkeep.trans hclosed.keepsMount⟩
  · unfold Fs.tree
    rw [hclosed.disk]
    exact htree
  · rw [hclosed.grant, hsteady.grant, hheap.grant, hgives.1.grant]
  · intro q hq hqm
    have hq₁ : q ∈ s₁.openInodes := hopen₁ ▸ hq
    have hchain := ((inodeOpen_heap hfresh hopen).2.1 q hq₁).trans (hsame₂ q)
    rw [hclosed.disk]
    by_cases hqd : q = dir.inode s
    · rw [hqd, hparent] at hchain
      rw [hqd, hno]
      exact hdirSt.trans hchain
    · rw [hother q hqd] at hchain
      have hqno : (s.inodes q).iNo ≠ d := fun heq => hqd (h.distinct q hq _ hmem (heq.trans hno.symm))
      rw [(hu _ ⟨h.number q hq, by simp [hqno, hqm]⟩).1]
      exact (h.stored q hq).trans hchain

theorem Mounted.rebuilt (h : Mounted K rest dirs files s) (hrefs : Refs (s.rootDir ::ₘ rest) s') (hkept : Kept (s.rootDir ::ₘ rest) s s')
    (hgrant : s'.kern.heap.grant = s.kern.heap.grant) (hv : Volume K dirs' files' s'.kern)
    (hinodes : ∀ q ∈ s.rootDir ::ₘ rest, (s.inodes q).iNo ∈ dirs' ∪ files' ∧
      (storedInode K.toPartition s'.kern.disk (s.inodes q).iNo).SameStored (s'.inodes q)) : Mounted K rest dirs' files' s' := by
  have hheld : ∀ q ∈ s'.openInodes, q ∈ s.rootDir ::ₘ rest := fun q hq => (hrefs.mem q).mpr hq
  refine ⟨?_, ?_, hv, ?_, ?_, ?_, ?_⟩
  · rw [hkept.rootDir]
    exact hrefs
  · intro i
    rw [hgrant]
    exact h.plenty i
  · intro q hq
    rw [hkept.iNo q (hheld q hq)]
    exact (hinodes q (hheld q hq)).1
  · intro q hq
    rw [hkept.iNo q (hheld q hq)]
    exact (hinodes q (hheld q hq)).2
  · intro q hq t ht heq
    rw [hkept.iNo q (hheld q hq), hkept.iNo t (hheld t ht)] at heq
    exact h.distinct q ((h.refs.mem q).mp (hheld q hq)) t ((h.refs.mem t).mp (hheld t ht)) heq
  · rw [hkept.rootDir, hkept.iNo _ (Multiset.mem_cons_self _ _)]
    exact h.root

theorem Served.removed {s₁ s₂ : Fs} (h : Served K extra dirs files s) (hc : Calm (s.rootDir ::ₘ (extra + slotRefs s.fileTable)) s s₁)
    (hrem : NameRemoved K dirs files d name m s₁ s₂) (hopen : ∀ q ∈ s.rootDir ::ₘ (extra + slotRefs s.fileTable), q ∈ s₁.openInodes)
    (hheap : HeapOnly s₂.kern s'.kern) (hsame : ∀ q ∈ s.rootDir ::ₘ (extra + slotRefs s.fileTable), (s₂.inodes q).SameStored (s'.inodes q))
    (hrefs : Refs (s.rootDir ::ₘ (extra + slotRefs s.fileTable)) s') (hkept : Kept (s.rootDir ::ₘ (extra + slotRefs s.fileTable)) s s')
    (hfree : ∀ q ∈ s.rootDir ::ₘ (extra + slotRefs s.fileTable), (s.inodes q).iNo ≠ m) :
    Served K extra (dirs \ {m}) (files \ {m}) s' ∧ s'.tree K (dirs \ {m}) (files \ {m}) = (s.tree K dirs files).remove d name m ∧
      KeepsMount K.toPartition s.kern s'.kern := by
  have hmem : ∀ q ∈ s.rootDir ::ₘ (extra + slotRefs s.fileTable), (s.inodes q).iNo ∈ dirs \ {m} ∪ files \ {m} := by
    intro q hq
    rw [← Set.union_sdiff_distrib]
    exact ⟨h.number q ((h.refs.mem q).mp hq), hfree q hq⟩
  have hm : Mounted K (extra + slotRefs s.fileTable) (dirs \ {m}) (files \ {m}) s' := by
    refine h.toMounted.rebuilt hrefs hkept ?_ (hrem.volume.heap hheap).1 fun q hq => ⟨hmem q hq, ?_⟩
    · rw [hheap.grant, hrem.grant, hc.kern.grant]
    · have hno := hc.kept.iNo q hq
      have hst := hrem.stored q (hopen q hq)
      rw [hno] at hst
      rw [hheap.disk]
      exact (hst (hfree q hq)).trans (hsame q hq)
  have hslots := slotRefs_congr hkept.fileTable
  refine ⟨⟨?_, ?_, ?_⟩, ?_, (hc.kern.keepsMount.trans hrem.keeps).trans hheap.keepsMount⟩
  · rw [hslots]
    exact hm
  · intro q hq
    have hq' : q ∈ s.rootDir ::ₘ (extra + slotRefs s.fileTable) := Multiset.mem_cons_of_mem (Multiset.mem_add.mpr (.inl hq))
    rw [hkept.iNo q hq']
    exact ⟨h.extraDirs q hq, hfree q hq'⟩
  · intro q hq
    rw [hslots] at hq
    have hq' : q ∈ s.rootDir ::ₘ (extra + slotRefs s.fileTable) := Multiset.mem_cons_of_mem (Multiset.mem_add.mpr (.inr hq))
    rw [hkept.iNo q hq']
    exact ⟨h.slotFiles q hq, hfree q hq'⟩
  · rw [Fs.tree_congr hheap.disk, hrem.tree, hc.tree]

structure Unlinks (K : Kernel) (dirs files files' : Set ℕ) (names : List Name) (r : ℤ) (s s' : Fs) : Prop where
  map : r = -1 ∧ s'.map K dirs files' = s.map K dirs files ∨ r = 0 ∧ ∃ pre name after bytes, names = pre ++ name :: after ∧
    (normalize pre ++ [name], some bytes) ∈ s.map K dirs files ∧
    s'.map K dirs files' = {x ∈ s.map K dirs files | x.1 ≠ normalize pre ++ [name]}
  names : KeepsNames K dirs dirs files' files s' s
  opened : ∀ p ∈ slotRefs s.fileTable, (s.inodes p).iNo ∈ files'
  keeps : KeepsMount K.toPartition s.kern s'.kern

theorem mem_slotRefs {t : ℕ → File} (hp : p ∈ slotRefs t) : ∃ k < maxFileOpen, (t k).fdInode = some p := by
  unfold slotRefs at hp
  obtain ⟨k, hk, hmem⟩ := Multiset.mem_sum.mp hp
  refine ⟨k, Finset.mem_range.mp hk, ?_⟩
  cases hq : (t k).fdInode with
  | none => simp [hq] at hmem
  | some q =>
    rw [hq] at hmem
    rw [Multiset.mem_singleton.mp hmem]

theorem Served.not_open {s₁ : Fs} (h : Served K extra dirs files s) (hc : Calm (s.rootDir ::ₘ (extra + slotRefs s.fileTable)) s s₁) (hn : n ∈ files)
    (huse : ¬ fileInUse s₁ n = true) : ∀ q ∈ s.rootDir ::ₘ (extra + slotRefs s.fileTable), (s.inodes q).iNo ≠ n := by
  intro q hq heq
  rcases Multiset.mem_cons.mp hq with rfl | hq'
  · rw [h.root] at heq
    exact h.volume.names.disjoint 0 h.volume.names.root (heq ▸ hn)
  rcases Multiset.mem_add.mp hq' with hx | hx
  · exact h.volume.names.disjoint _ (h.extraDirs q hx) (heq ▸ hn)
  · obtain ⟨k, hk, hslot⟩ := mem_slotRefs hx
    apply huse
    unfold fileInUse
    rw [List.any_eq_true]
    refine ⟨k, List.mem_range.mpr hk, ?_⟩
    rw [hc.kept.fileTable.inode k, hslot, Option.any_some, hc.kept.iNo q hq]
    exact decide_eq_true heq

theorem Served.sysUnlink {junk : Junk} {pathname : Path} {r : ℤ} (h : Served K extra dirs files s) (hpath : PathOk pathname)
    (hs : sysUnlink K junk pathname s = .ok (r, s')) :
    ∃ files', Served K extra dirs files' s' ∧ Unlinks K dirs files files' (components pathname) r s s' := by
  have hmoves : Moves (s.rootDir ::ₘ (extra + slotRefs s.fileTable)) 0 (ElephantOS.sysUnlink K junk pathname) fun _ => 0 :=
    sysUnlink_moves K junk pathname
  obtain ⟨hrefs, hkept⟩ := hmoves s r s' (by rw [zero_add]; exact h.refs) hs
  rw [zero_add] at hrefs
  unfold ElephantOS.sysUnlink at hs
  simp only [bind_ok, assert_ok] at hs
  obtain ⟨_, _, ⟨-, rfl⟩, ⟨found, record⟩, s₁, hsearch, _, _, ⟨-, rfl⟩, hs⟩ := hs
  obtain ⟨hm, hc, hd, hends⟩ := searchFile_ended h.toMounted hpath hsearch
  dsimp only at hm hd hends hs hc
  have hfail : (do
      dirClose record.parentDir
      return (-1 : ℤ)) s₁ = .ok (r, s') → ∃ files', Served K extra dirs files' s' ∧ Unlinks K dirs files files' (components pathname) r s s' := by
    intro hs
    simp only [bind_ok] at hs
    obtain ⟨_, s₂, h2, hs⟩ := hs
    obtain ⟨rfl, rfl⟩ := (pure_ok _ _ _ _).mp hs
    obtain ⟨h', hc'⟩ := h.closed hm hc h2
    exact ⟨files, h', .inl ⟨rfl, hc'.map⟩, .of_tree hc'.tree.symm, h.slotFiles, hc'.kern.keepsMount⟩
  cases found with
  | none => exact hfail hs
  | some n =>
    dsimp only at hs
    split_ifs at hs with hdir
    · exact hfail hs
    simp only [bind_ok, get_ok] at hs
    obtain ⟨_, _, ⟨rfl, rfl⟩, hs⟩ := hs
    split_ifs at hs with huse
    · exact hfail hs
    have hreg := hends.kind.resolve_left hdir
    rw [hreg] at hends
    obtain ⟨pre, name, after, hnames, -, hdmem, hn, hp, hnorm, pos, he, hord⟩ := hends.at_file h.volume.names
    have hfree := h.not_open hc hn huse
    simp only [bind_ok] at hs
    obtain ⟨o, s₂, h2, hs⟩ := hs
    obtain ⟨hm₂, hc₂, k₂, hk₂, rfl⟩ := hm.lift (s.rootDir ::ₘ (extra + slotRefs s.fileTable))
      (fun _ _ _ hk => (sysMalloc_ok hk).1) h2
    obtain ⟨-, -, rfl⟩ := sysMalloc_plenty hm.plenty hk₂
    simp only [bind_ok] at hs
    obtain ⟨ok, s₃, h3, _, s₄, h4, _, s₅, h5, _, s₆, h6, hs⟩ := hs
    obtain ⟨rfl, rfl⟩ := (pure_ok _ _ _ _).mp hs
    obtain ⟨inode', k₃, hrun, rfl⟩ := onDirInode_result h3
    have hown : record.parentDir.inode { s₁ with kern := k₂ } = record.parentDir.inode s₁ := Dir.inode_congr _ rfl
    have hdisk : k₂.disk = s.kern.disk := hc₂.kern.disk.trans hc.kern.disk
    have hrem := @removeName_run _ _ _ _ _ _ _ _ _ _ _ _ _ _ pos ⟨name, n, .regular⟩ hm₂ rfl (by rw [hown]; exact hd)
      (by rw [hown, hdisk]; exact he) hord rfl
      (fun hx => absurd hn (h.volume.names.disjoint n hx)) hrun h4
    obtain ⟨hheap₆, hsame₆⟩ := dirClose_heap h6
    obtain ⟨k₅, hk₅, rfl⟩ := (liftKern_ok _ _ _ _).mp h5
    have hopen : ∀ q ∈ s.rootDir ::ₘ (extra + slotRefs s.fileTable), q ∈ s₁.openInodes := by
      intro q hq
      rcases Multiset.mem_cons.mp hq with rfl | hq
      · rw [← hc.kept.rootDir]
        exact hm.rootMem
      · exact hm.mem (Multiset.mem_add.mpr (.inr hq))
    obtain ⟨h', htree, hkeep⟩ := h.removed (hc.trans hc₂) hrem hopen ((sysFree_ok hk₅).trans hheap₆) (fun q _ => hsame₆ q) hrefs hkept hfree
    have hdirs : dirs \ {n} = dirs := Set.sdiff_singleton_eq_self fun hx => h.volume.names.disjoint n hx hn
    rw [hdirs] at h' htree
    have hmap : s₆.map K dirs (files \ {n}) = {x ∈ s.map K dirs files | x.1 ≠ normalize pre ++ [name]} := by
      unfold Fs.map
      rw [htree, hown]
      refine h.tree.view_remove hp ⟨hdmem, pos, _, he, hord, rfl⟩ ?_
      rintro x ⟨hx, -⟩
      exact h.volume.names.disjoint n hx hn
    refine ⟨files \ {n}, h', .inr ⟨rfl, pre, name, after, (s.tree K dirs files).content n, hnames, ?_, hmap⟩, fun c => ?_, fun p hp => ?_, hkeep⟩
    · exact NamedTree.view_leaf.mpr ⟨n, hn, NamedTree.path_snoc.mpr ⟨_, hp, hdmem, pos, _, he, hord, rfl⟩, rfl⟩
    · rw [htree]
      exact NamedTree.remove_children _ c
    · exact ⟨h.slotFiles p hp, hfree p (Multiset.mem_cons_of_mem (Multiset.mem_add.mpr (.inr hp)))⟩

end

end ElephantOS
