import ElephantOS.VolumeUnlinks

namespace ElephantOS

open ByteMemory HaltingState

section

variable {K : Kernel} {rest extra : Multiset Ptr} {dirs files : Set ℕ} {s s' : Fs} {n d : ℕ} {name prev : Name}
  {names : List Name} {searched : Path} {dir child : Dir} {inode : Inode}

theorem Volume.empty_dir {k : Kern} (hv : Volume K dirs files k) (hn : n ∈ dirs) (hc : (storedInode K.toPartition k.disk n).SameStored inode)
    (hempty : dirIsEmpty K inode = true) : ∀ pos e, entriesOn K.toPartition k.disk n pos = some e → ¬ e.Ordinary := by
  have hdir := hv.toInodes.dirAt hn hc
  have hmap : entriesOn K.toPartition k.disk n = slotMap k.disk inode := (SameBlocks.of_stored hc).symm.map.symm
  intro pos e he hord
  obtain ⟨p₁, e₁, h₁, hname₁, -, -⟩ := hv.names.self n hn
  obtain ⟨p₂, e₂, h₂, hname₂, -, -⟩ := hv.names.up n hn
  have hne₁₂ : p₁ ≠ p₂ := by
    rintro rfl
    rw [h₁] at h₂
    obtain rfl := Option.some.inj h₂
    exact dot_ne_dotDot (hname₁.symm.trans hname₂)
  have hne₁ : pos ≠ p₁ := by
    rintro rfl
    rw [h₁] at he
    obtain rfl := Option.some.inj he
    exact hord.1 hname₁
  have hne₂ : pos ≠ p₂ := by
    rintro rfl
    rw [h₂] at he
    obtain rfl := Option.some.inj he
    exact hord.2 hname₂
  have hheld : ∀ q x, entriesOn K.toPartition k.disk n q = some x → q ∈ heldSlots (slotMap k.disk inode) := by
    intro q x hx
    rw [hmap] at hx
    rw [mem_heldSlots]
    exact ⟨slotMap_range (by rw [hx]; simp), x, hx⟩
  have hsub : ({pos, p₁, p₂} : Finset (ℕ × ℕ)) ⊆ heldSlots (slotMap k.disk inode) := by
    intro q hq
    simp only [Finset.mem_insert, Finset.mem_singleton] at hq
    rcases hq with rfl | rfl | rfl
    · exact hheld _ _ he
    · exact hheld _ _ h₁
    · exact hheld _ _ h₂
  have hcard := Finset.card_le_card hsub
  rw [Finset.card_eq_three.mpr ⟨pos, p₁, p₂, hne₁, hne₂, hne₁₂, rfl⟩] at hcard
  unfold dirIsEmpty at hempty
  rw [decide_eq_true_eq, hdir.entrySize, hdir.live] at hempty
  omega

theorem SearchEnd.dir_entry {part : Partition} {mem : Memory} (h : Names (entriesOn part mem) dirs files) (hd : d ∈ dirs)
    (hend : SearchEnd (entriesOn part mem) prev 0 d names [] (some n) .directory searched)
    (hord : names.getLast?.getD prev ≠ dot ∧ names.getLast?.getD prev ≠ dotDot) :
    ∃ pos e, entriesOn part mem d pos = some e ∧ e.Ordinary ∧ e.iNo = n ∧ e.name = names.getLast?.getD prev ∧
      Walks (entriesOn part mem) 0 names n ∧ ∃ q, (volumeTree part dirs files mem).Path 0 q d ∧ normalize names = q ++ [e.name] := by
  obtain ⟨-, hp⟩ := hend.at_directory h
  generalize hr : some n = r at hend
  generalize ht : FileType.directory = t at hend
  cases hend with
  | file => cases ht
  | missing => cases hr
  | @directory pos e path hw he htype hname =>
    obtain rfl := Option.some.inj hr
    rw [← hname] at hord
    obtain ⟨q, hq⟩ := h.wellFormed.path_exists (.inl hd)
    have hown : (volumeTree part dirs files mem).Path 0 (q ++ [e.name]) e.iNo := NamedTree.path_snoc.mpr ⟨d, hq, hd, pos, e, he, hord, rfl⟩
    exact ⟨pos, e, he, hord, rfl, hname, hw, q, hq, h.wellFormed.path_unique hp hown⟩

def NotCached (K : Kernel) (pathname : Path) (s : Fs) : Prop :=
  ∀ n, Walks (entriesOn K.toPartition s.kern.disk) 0 (components pathname) n → ∀ q ∈ s.openInodes, (s.inodes q).iNo ≠ n

structure RemovesDirectory (K : Kernel) (dirs dirs' files : Set ℕ) (path : List Name) (r : ℤ) (s s' : Fs) : Prop where
  map : r = -1 ∧ s'.map K dirs' files = s.map K dirs files ∨ r = 0 ∧ path ≠ [] ∧ (path, none) ∈ s.map K dirs files ∧
    (∀ name x, (path ++ [name], x) ∉ s.map K dirs files) ∧ s'.map K dirs' files = {x ∈ s.map K dirs files | x.1 ≠ path}
  names : KeepsNames K dirs' dirs files files s' s
  keeps : KeepsMount K.toPartition s.kern s'.kern

theorem dirRemove_run {b : Bool} (h : Mounted K (dirRefs dir + (dirRefs child + rest)) dirs files s) {pos : ℕ × ℕ} {e : Entry}
    (hno : (s.inodes (dir.inode s)).iNo = d) (hd : d ∈ dirs) (he : entriesOn K.toPartition s.kern.disk d pos = some e) (hord : e.Ordinary)
    (hm : (s.inodes (child.inode s)).iNo = e.iNo)
    (hempty : ∀ q e', entriesOn K.toPartition s.kern.disk e.iNo q = some e' → ¬ e'.Ordinary) (hs : dirRemove K dir child s = .ok (b, s')) :
    b = true ∧ ∃ k s₁, HeapOnly s.kern k ∧ NameRemoved K dirs files d e.name e.iNo { s with kern := k } s₁ ∧
      HeapOnly s₁.kern s'.kern ∧ ∀ q, s₁.inodes q = s'.inodes q := by
  unfold dirRemove at hs
  simp only [bind_ok, get_ok, assert_ok] at hs
  obtain ⟨_, _, ⟨rfl, rfl⟩, _, _, ⟨-, rfl⟩, o, s₂, h2, hs⟩ := hs
  obtain ⟨hm₂, -, k, hk, rfl⟩ := h.lift 0 (fun _ _ _ hk => (sysMalloc_ok hk).1) h2
  obtain ⟨-, -, rfl⟩ := sysMalloc_plenty h.plenty hk
  have hheap := (sysMalloc_ok hk).1
  simp only [bind_ok, get_ok] at hs
  obtain ⟨ok, s₃, h3, _, _, ⟨rfl, rfl⟩, _, s₄, h4, _, s₅, h5, hs⟩ := hs
  obtain ⟨rfl, rfl⟩ := (pure_ok _ _ _ _).mp hs
  obtain ⟨inode', k₃, hrun, rfl⟩ := onDirInode_result h3
  obtain ⟨k₅, hk₅, rfl⟩ := (liftKern_ok _ _ _ _).mp h5
  have hdir : dir.inode { s with kern := k } = dir.inode s := Dir.inode_congr _ rfl
  have hchild : child.inode (setInode (dir.inode { s with kern := k }) inode' { s with kern := k₃ }) = child.inode s := Dir.inode_congr _ rfl
  have hne : child.inode s ≠ dir.inode s := by
    intro heq
    rw [heq, hno] at hm
    exact hempty pos e (hm ▸ he) hord
  have hinode : (setInode (dir.inode { s with kern := k }) inode' { s with kern := k₃ }).inodes (child.inode s) = s.inodes (child.inode s) := by
    rw [hdir]
    exact Function.update_of_ne hne _ _
  rw [hchild, hinode, hm] at h4
  refine ⟨rfl, k, s₄, hheap, ?_, sysFree_ok hk₅, fun _ => rfl⟩
  refine removeName_run hm₂ (by rw [hdir]; exact hno) hd (by rw [hheap.disk]; exact he) hord rfl ?_ (by rw [← hm]; exact hrun) h4
  intro _ q e' he'
  rw [hheap.disk] at he'
  exact hempty q e' he'

theorem Served.sysRmdir {junk : Junk} {pathname : Path} {r : ℤ} (h : Served K extra dirs files s) (hpath : PathOk pathname)
    (hlast : ∀ name, (components pathname).getLast? = some name → name ≠ dot ∧ name ≠ dotDot) (hfree : NotCached K pathname s)
    (hs : sysRmdir K junk pathname s = .ok (r, s')) :
    ∃ dirs', Served K extra dirs' files s' ∧ RemovesDirectory K dirs dirs' files (normalize (components pathname)) r s s' := by
  have hmoves : Moves (s.rootDir ::ₘ (extra + slotRefs s.fileTable)) 0 (ElephantOS.sysRmdir K junk pathname) fun _ => 0 :=
    sysRmdir_moves K junk pathname
  obtain ⟨hrefs, hkept⟩ := hmoves s r s' (by rw [zero_add]; exact h.refs) hs
  rw [zero_add] at hrefs
  unfold ElephantOS.sysRmdir at hs
  simp only [bind_ok, assert_ok] at hs
  obtain ⟨⟨found, record⟩, s₁, hsearch, _, _, ⟨hroot, rfl⟩, hs⟩ := hs
  obtain ⟨hm, hc, hd, hends⟩ := searchFile_ended h.toMounted hpath hsearch
  dsimp only at hm hd hends hs hc hroot
  have hfail : ∀ s₂, Mounted K (dirRefs record.parentDir + (extra + slotRefs s.fileTable)) dirs files s₂ →
      Calm (s.rootDir ::ₘ (extra + slotRefs s.fileTable)) s s₂ → (do
      dirClose record.parentDir
      return (-1 : ℤ)) s₂ = .ok (r, s') →
      ∃ dirs', Served K extra dirs' files s' ∧ RemovesDirectory K dirs dirs' files (normalize (components pathname)) r s s' := by
    intro s₂ hm₂ hc₂ hs
    simp only [bind_ok] at hs
    obtain ⟨_, s₃, h3, hs⟩ := hs
    obtain ⟨rfl, rfl⟩ := (pure_ok _ _ _ _).mp hs
    obtain ⟨h', hc'⟩ := h.closed hm₂ hc₂ h3
    exact ⟨dirs, h', .inl ⟨rfl, hc'.map⟩, .of_tree hc'.tree.symm, hc'.kern.keepsMount⟩
  cases found with
  | none => exact hfail s₁ hm hc hs
  | some n =>
    dsimp only at hs
    split_ifs at hs with hreg
    · exact hfail s₁ hm hc hs
    have hdirType := hends.kind.resolve_right hreg
    rw [hdirType] at hends
    obtain ⟨hn, hp⟩ := hends.at_directory h.volume.names
    simp only [bind_ok, get_ok] at hs
    obtain ⟨child, s₂, h2, _, _, ⟨rfl, rfl⟩, hs⟩ := hs
    obtain ⟨hm₂, hc₂, hnumber⟩ := hm.dirOpen hn h2
    have hopen : ∀ q ∈ s.rootDir ::ₘ (extra + slotRefs s.fileTable), q ∈ s₂.openInodes := by
      intro q hq
      rcases Multiset.mem_cons.mp hq with rfl | hq
      · rw [← hc.kept.rootDir, ← hc₂.kept.rootDir]
        exact hm₂.rootMem
      · exact hm₂.mem (Multiset.mem_add.mpr (.inr (Multiset.mem_add.mpr (.inr hq))))
    have hwiden : ∀ p ∈ s.rootDir ::ₘ (extra + slotRefs s.fileTable),
        p ∈ s.rootDir ::ₘ (dirRefs record.parentDir + (extra + slotRefs s.fileTable)) := by
      intro p hp
      rcases Multiset.mem_cons.mp hp with rfl | hp
      · exact Multiset.mem_cons_self _ _
      · exact Multiset.mem_cons_of_mem (Multiset.mem_add.mpr (.inr hp))
    have hcalm : Calm (s.rootDir ::ₘ (extra + slotRefs s.fileTable)) s s₂ := by
      rw [hc.kept.rootDir] at hc₂
      exact hc.trans (hc₂.mono hwiden)
    split_ifs at hs with hempty
    · simp only [bind_ok] at hs
      obtain ⟨removed, s₃, h3, _, s₄, h4, _, s₅, h5, hs⟩ := hs
      obtain ⟨rfl, rfl⟩ := (pure_ok _ _ _ _).mp hs
      have hord : (components pathname).getLast?.getD dot ≠ dot ∧ (components pathname).getLast?.getD dot ≠ dotDot := by
        cases hl : (components pathname).getLast? with
        | some name => exact hlast name hl
        | none =>
          -- the path is `/`, which the assertion on the inode number excludes
          rw [List.getLast?_eq_none_iff] at hl
          rw [hl] at hp
          exact absurd (congrArg some (NamedTree.path_nil.mp hp)) hroot
      obtain ⟨pos, e, he, heord, rfl, -, hw, q, hq, hsnoc⟩ := hends.dir_entry h.volume.names hd hord
      have hdisk : s₂.kern.disk = s.kern.disk := hcalm.kern.disk
      have hinside := hm₂.volume.empty_dir hn (hnumber ▸ hm₂.stored _ hm₂.dirMem) hempty
      have hparent : (s₂.inodes (record.parentDir.inode s₂)).iNo = (s₁.inodes (record.parentDir.inode s₁)).iNo := by
        rw [Dir.inode_congr _ hc₂.kept.rootDir]
        exact hc₂.kept.iNo _ ((hm.refs.mem _).mpr hm.dirMem)
      rw [add_left_comm] at hm₂
      obtain ⟨rfl, k, s₃', hheap, hrem, hheap', hsame⟩ := dirRemove_run hm₂ hparent hd (hdisk ▸ he) heord hnumber hinside h3
      have hcalm' : Calm (s.rootDir ::ₘ (extra + slotRefs s.fileTable)) s { s₂ with kern := k } := hcalm.trans ⟨hheap, Kept.kern _ s₂ k⟩
      obtain ⟨hheap₄, hsame₄⟩ := dirClose_heap h4
      obtain ⟨hheap₅, hsame₅⟩ := dirClose_heap h5
      obtain ⟨h', htree, hkeep⟩ := h.removed hcalm' hrem hopen ((hheap'.trans hheap₄).trans hheap₅)
        (fun q _ => (hsame q ▸ hsame₄ q).trans (hsame₅ q)) hrefs hkept fun q hq => hfree _ hw q ((h.refs.mem q).mp hq)
      have hfiles : files \ {e.iNo} = files := Set.sdiff_singleton_eq_self fun hx => h.volume.names.disjoint _ hn hx
      rw [hfiles] at h' htree
      have hchild : (e.name, e.iNo) ∈ (s.tree K dirs files).children (s₁.inodes (record.parentDir.inode s₁)).iNo :=
        ⟨hd, pos, e, he, heord, rfl⟩
      have hnone : ∀ x, x ∉ (s.tree K dirs files).children e.iNo := by
        rintro x ⟨-, pos', e', he', hord', -⟩
        exact hinside pos' e' (hdisk ▸ he') hord'
      refine ⟨dirs \ {e.iNo}, h', .inr ⟨rfl, by rw [hsnoc]; simp, NamedTree.view_inner.mpr ⟨_, hn, hp⟩, ?_, ?_⟩, fun c => ?_, hkeep⟩
      · rintro name x ⟨m, hpath', -⟩
        obtain ⟨c, hc', hx⟩ := NamedTree.path_snoc.mp hpath'
        rw [h.tree.path_end hc' hp] at hx
        exact hnone _ hx
      · unfold Fs.map
        rw [htree, hsnoc]
        exact h.tree.view_remove hq hchild hnone
      · rw [htree]
        exact NamedTree.remove_children _ c
    · simp only [bind_ok] at hs
      obtain ⟨_, s₃, h3, _, s₄, h4, _, s₅, h5, hs⟩ := hs
      obtain ⟨rfl, rfl⟩ := (pure_ok _ _ _ _).mp h3
      obtain ⟨hm₄, hc₄⟩ := hm₂.dirClose h4
      obtain ⟨rfl, rfl⟩ := (pure_ok _ _ _ _).mp hs
      rw [hcalm.kept.rootDir] at hc₄
      obtain ⟨h', hc'⟩ := h.closed hm₄ (hcalm.trans (hc₄.mono hwiden)) h5
      exact ⟨dirs, h', .inl ⟨rfl, hc'.map⟩, .of_tree hc'.tree.symm, hc'.kern.keepsMount⟩

end

end ElephantOS
