import ElephantOS.VolumeOpens

namespace ElephantOS

open ByteMemory HaltingState

section

variable {K : Kernel} {rest extra : Multiset Ptr} {dirs dirs' files files' : Set ℕ} {s s' : Fs} {p : Ptr} {task m k : ℕ} {r : ℤ}

theorem Mounted.push (h : Mounted K rest dirs files s) (hopen : s'.openInodes = p :: s.openInodes) (hfresh : p ∉ s.openInodes)
    (hid : p.id < s'.kern.heap.next) (hroot : s'.rootDir = s.rootDir) (hgrant : s'.kern.heap.grant = s.kern.heap.grant)
    (hnext : s.kern.heap.next ≤ s'.kern.heap.next) (hv : Volume K dirs' files' s'.kern)
    (hinodes : ∀ q ∈ s.openInodes, (s'.inodes q).iNo = (s.inodes q).iNo ∧ (s'.inodes q).iOpenCnts = (s.inodes q).iOpenCnts ∧
      (s.inodes q).iNo ∈ dirs' ∪ files' ∧ (storedInode K.toPartition s'.kern.disk (s.inodes q).iNo).SameStored (s'.inodes q))
    (hcount : (s'.inodes p).iOpenCnts = 1) (hnumber : (s'.inodes p).iNo ∈ dirs' ∪ files') (hnew : (s'.inodes p).iNo ∉ dirs ∪ files)
    (hstored : (storedInode K.toPartition s'.kern.disk (s'.inodes p).iNo).SameStored (s'.inodes p)) :
    Mounted K (p ::ₘ rest) dirs' files' s' := by
  have hno : ∀ q ∈ s.openInodes, (s'.inodes q).iNo = (s.inodes q).iNo := fun q hq => (hinodes q hq).1
  have hne : ∀ q ∈ s.openInodes, q ≠ p := by
    rintro q hq rfl
    exact hfresh hq
  have hheld : p ∉ s.rootDir ::ₘ rest := fun hm => hfresh ((h.refs.mem p).mp hm)
  have hapart : ∀ q ∈ s.openInodes, (s'.inodes q).iNo ≠ (s'.inodes p).iNo := by
    intro q hq heq
    rw [hno q hq] at heq
    exact hnew (heq ▸ h.number q hq)
  refine ⟨⟨?_, ?_, ?_, ?_⟩, ?_, hv, ?_, ?_, ?_, ?_⟩
  · rw [hopen]
    exact List.nodup_cons.mpr ⟨hfresh, h.refs.nodup⟩
  · intro q hq
    rw [hopen] at hq
    rcases List.mem_cons.mp hq with rfl | hq
    · exact hid
    · exact (h.refs.fresh q hq).trans_le hnext
  · intro q hq
    rw [hopen] at hq
    rw [hroot, Multiset.cons_swap]
    rcases List.mem_cons.mp hq with rfl | hq
    · rw [Multiset.count_cons_self, Multiset.count_eq_zero.mpr hheld]
      exact hcount
    · rw [Multiset.count_cons_of_ne (hne q hq), (hinodes q hq).2.1]
      exact h.refs.count q hq
  · intro q
    rw [hopen, hroot, Multiset.cons_swap, Multiset.mem_cons, h.refs.mem, List.mem_cons]
  · intro i
    rw [hgrant]
    exact h.plenty i
  · intro q hq
    rw [hopen] at hq
    rcases List.mem_cons.mp hq with rfl | hq
    · exact hnumber
    · rw [hno q hq]
      exact (hinodes q hq).2.2.1
  · intro q hq
    rw [hopen] at hq
    rcases List.mem_cons.mp hq with rfl | hq
    · exact hstored
    · rw [hno q hq]
      exact (hinodes q hq).2.2.2
  · intro q hq t ht heq
    rw [hopen] at hq ht
    rcases List.mem_cons.mp hq with hqp | hq' <;> rcases List.mem_cons.mp ht with htp | ht'
    · exact hqp.trans htp.symm
    · rw [hqp] at heq
      exact absurd heq.symm (hapart t ht')
    · rw [htp] at heq
      exact absurd heq (hapart q hq')
    · rw [hno q hq', hno t ht'] at heq
      exact h.distinct q hq' t ht' heq
  · rw [hroot, hno _ h.rootMem]
    exact h.root

theorem Inodes.insert_ok {k k' : Kern} {d : ℕ} {e : Entry} {inode inode' : Inode} {io : Buffer} {ok : Bool} (h : Inodes K dirs files k)
    (hd : d ∈ dirs) (hc : (storedInode K.toPartition k.disk d).SameStored inode) (he : e.Valid) (hroom : DirectRoom k.disk inode)
    (hins : syncDirEntry K inode e.dirEntry io k = .ok ((ok, inode'), k')) : ok = true := by
  have hdir := h.dirAt hd hc
  have hsmall := hdir.small
  exact (syncDirEntry_inserted hdir.entrySize h.layout hdir.owns hdir.slots he (by omega) hroom hins).1

theorem fileInode_noBlocks (m : ℕ) : NoBlocks { inodeInit m Inode.zero with writeDeny := false } ∧
    ({ inodeInit m Inode.zero with writeDeny := false } : Inode).iNo = m := by
  refine ⟨⟨rfl, ?_⟩, rfl⟩
  intro q _
  simp [inodeInit, Inode.zero]

theorem storeNewFile_run {dir : Dir} {io : Buffer} {u : Unit} (hs : storeNewFile K dir p m io s = .ok (u, s')) :
    ∃ io' k₁ k₂ k₃, inodeSync K (s.inodes (dir.inode s)) io' s.kern = .ok ((), k₁) ∧ inodeSync K (s.inodes p) io' k₁ = .ok ((), k₂) ∧
      bitmapSync K m .inodeBitmap k₂ = .ok ((), k₃) ∧ HeapOnly k₃ s'.kern ∧ s'.openInodes = p :: s.openInodes ∧ s'.rootDir = s.rootDir ∧
      s'.fileTable = s.fileTable ∧ (∀ q, q ≠ p → s'.inodes q = s.inodes q) ∧ (s.inodes p).SameStored (s'.inodes p) ∧
      (s'.inodes p).iOpenCnts = 1 := by
  unfold storeNewFile at hs
  simp only [bind_ok, get_ok, liftKern_ok] at hs
  obtain ⟨_, _, ⟨rfl, rfl⟩, _, _, ⟨k₁, h1, rfl⟩, _, _, ⟨k₂, h2, rfl⟩, _, _, ⟨k₃, h3, rfl⟩, _, s4, hpush, _, _, hcnt, k₄, h4, rfl⟩ := hs
  obtain rfl := listPush_ok hpush
  obtain rfl := (modify_ok _ _ _ _).mp hcnt
  refine ⟨_, k₁, k₂, k₃, h1, h2, h3, sysFree_ok h4, rfl, rfl, rfl, ?_, ?_, ?_⟩
  · intro q hq
    simp only [setInode, pushed, Function.update_of_ne hq]
  · simp only [setInode, pushed, Function.update_self]
    exact ⟨rfl, rfl, fun _ _ => rfl⟩
  · simp only [setInode, Function.update_self]

theorem onDirInode_parts {dir : Dir} {f : Inode → KernM (Bool × Inode)} {b : Bool} (hs : onDirInode dir f s = .ok (b, s')) :
    ∃ inode, f (s.inodes (dir.inode s)) s.kern = .ok ((b, inode), s'.kern) ∧ s'.openInodes = s.openInodes ∧ s'.rootDir = s.rootDir ∧
      s'.fileTable = s.fileTable ∧ s'.inodes = Function.update s.inodes (dir.inode s) inode := by
  obtain ⟨inode, k, hf, rfl⟩ := onDirInode_result hs
  exact ⟨inode, hf, rfl, rfl, rfl, rfl⟩

theorem Dir.inode_congr {t t' : Fs} (d : Dir) (h : t'.rootDir = t.rootDir) : d.inode t' = d.inode t := by
  cases d with
  | root => exact h
  | heap ptr inode => rfl

structure EntryMade (K : Kernel) (s : Fs) (dir : Dir) (name : Name) (m : ℕ) (p : Ptr) (k flag : ℕ) (io : Buffer) (k₂ : Kern) (ok : Bool)
    (inode' : Inode) (s' : Fs) : Prop where
  runs : syncDirEntry K (s.inodes (dir.inode s)) (⟨name, m, .regular⟩ : Entry).dirEntry io k₂ = .ok ((ok, inode'), s'.kern)
  openInodes : s'.openInodes = s.openInodes
  rootDir : s'.rootDir = s.rootDir
  fileTable : s'.fileTable = Function.update s.fileTable k ⟨0, flag, some p⟩
  parent : s'.inodes (dir.inode s) = inode'
  new : NoBlocks (s'.inodes p) ∧ (s'.inodes p).iNo = m
  others : ∀ q, q ≠ p → q ≠ dir.inode s → s'.inodes q = s.inodes q

theorem installNewFile_ways {dir : Dir} {name : Name} {flag : ℕ} {io : Buffer} {k₂ : Kern} (hpar : dir.inode s ≠ p)
    (hs : installNewFile K task dir name flag m p io { s with kern := k₂ } = .ok (r, s')) :
    (r = -1 ∧ ∃ k₃ k₄ k₅, sysFree p k₂ = .ok ((), k₃) ∧ inodeBitmapSet m false k₃ = .ok ((), k₄) ∧ sysFree io.ptr k₄ = .ok ((), k₅) ∧
      s' = setInode p (inodeInit m Inode.zero) { s with kern := k₅ }) ∨
    ∃ k ok inode' s₁, k < maxFileOpen ∧ (s.fileTable k).fdInode = none ∧ EntryMade K s dir name m p k flag io k₂ ok inode' s₁ ∧
      (ok = true → ∃ s₂, storeNewFile K dir p m io s₁ = .ok ((), s₂) ∧ pcbFdInstall task k s₂ = .ok (r, s')) := by
  unfold installNewFile at hs
  simp only [bind_ok, modify_ok, get_ok] at hs
  obtain ⟨_, _, rfl, _, _, ⟨rfl, rfl⟩, hs⟩ := hs
  cases hslot : getFreeSlotInGlobal (setInode p (inodeInit m Inode.zero) { s with kern := k₂ }) with
  | none =>
    left
    simp only [hslot, bind_ok, pure_ok, liftKern_ok] at hs
    obtain ⟨_, _, ⟨k₃, h3, rfl⟩, _, _, ⟨k₄, h4, rfl⟩, _, _, ⟨k₅, h5, rfl⟩, rfl, rfl⟩ := hs
    exact ⟨rfl, k₃, k₄, k₅, h3, h4, h5, rfl⟩
  | some k =>
    right
    obtain ⟨-, hlt, hfree⟩ := getFreeSlot_some hslot
    simp only [hslot, bind_ok, modify_ok] at hs
    obtain ⟨_, _, rfl, _, s₀, hs₀, entry, s₁, h1, ok, s₂, h2, hs⟩ := hs
    obtain ⟨rfl, rfl⟩ := createDirEntry_eq h1
    obtain ⟨inode', hins, hopen, hroot, hfile, hinodes⟩ := onDirInode_parts h2
    have hroot₀ : s₁.rootDir = s.rootDir := by rw [← hs₀]; rfl
    have hdir := dir.inode_congr hroot₀
    have hold : ∀ q, q ≠ p → s₁.inodes q = s.inodes q := by
      intro q hq
      rw [← hs₀]
      simp only [setInode, setFile, Function.update_of_ne hq]
    have hnew : s₁.inodes p = { inodeInit m Inode.zero with writeDeny := false } := by
      rw [← hs₀]
      simp only [setInode, setFile, Function.update_self]
    have hkern : s₁.kern = k₂ := by rw [← hs₀]; rfl
    rw [hdir] at hins hinodes
    rw [hold _ hpar, hkern] at hins
    refine ⟨k, ok, inode', s₂, hlt, hfree, ⟨hins, ?_, hroot.trans hroot₀, ?_, ?_, ?_, ?_⟩, ?_⟩
    · rw [hopen, ← hs₀]
      rfl
    · rw [hfile, ← hs₀]
      rfl
    · rw [hinodes, Function.update_self]
    · rw [hinodes, Function.update_of_ne hpar.symm, hnew]
      exact fileInode_noBlocks m
    · intro q hqp hqd
      rw [hinodes, Function.update_of_ne hqd, hold q hqp]
    · rintro rfl
      simp only [Bool.not_true, Bool.false_eq_true, if_false, bind_ok] at hs
      obtain ⟨u, s₃, h3, h4⟩ := hs
      exact ⟨s₃, h3, h4⟩

theorem installNewFile_installed {dir : Dir} {name : Name} {flag : ℕ} {io : Buffer} {k₁ k₂ : Kern}
    (h : Mounted K (dirRefs dir + rest) dirs files s) (hd : (s.inodes (dir.inode s)).iNo ∈ dirs) (hown : K.inodeNo m = m)
    (hname : NewName K s (s.inodes (dir.inode s)).iNo name) (hroom : DirectRoom s.kern.disk (s.inodes (dir.inode s)))
    (halloc : inodeBitmapAlloc s.kern = .ok (some m, k₁)) (hk : HeapOnly k₁ k₂) (hp : s.kern.heap.next ≤ p.id) (hid : p.id < k₂.heap.next)
    (hs : installNewFile K task dir name flag m p io { s with kern := k₂ } = .ok (r, s')) :
    (r = -1 ∧ Mounted K (dirRefs dir + rest) dirs files s' ∧ Calm (s.rootDir ::ₘ (dirRefs dir + rest)) s s') ∨
      m ∉ dirs ∪ files ∧ ∃ k, Installed K (dirRefs dir + rest) dirs (insert m files)
        ((s.tree K dirs files).addLeaf (s.inodes (dir.inode s)).iNo name m []) s k p m s' ∧ (r = -1 ∨ LooksUp s' task r k) := by
  have hdirMem := h.dirMem
  have hfresh : p ∉ s.openInodes := by
    intro hmem
    have := h.refs.fresh p hmem
    omega
  have hne : ∀ q ∈ s.openInodes, q ≠ p := by
    rintro q hq rfl
    exact hfresh hq
  rcases installNewFile_ways (hne _ hdirMem) hs with ⟨hr, k₃, k₄, k₅, h3, h4, h5, rfl⟩ | ⟨k, ok, inode', s₁, hlt, hfree, hmade, hthen⟩
  · left
    have hback := (inodeBitmapAlloc_back halloc (hk.trans (sysFree_ok h3)) h4).trans (sysFree_ok h5)
    have hst : ∀ q ∈ s.openInodes, (setInode p (inodeInit m Inode.zero) { s with kern := k₅ }).inodes q = s.inodes q := by
      intro q hq
      simp only [setInode, Function.update_of_ne (hne q hq)]
    refine ⟨hr, h.quiet rfl rfl hback.disk hback.blockBitmap hback.inodeBitmap hback.grant hback.next fun q hq => ?_, hback,
      SameFiles.refl _, rfl, rfl, fun q hq => ?_, fun q hq => ?_⟩
    · exact (hst q hq).symm ▸ ⟨Inode.SameStored.refl _, rfl⟩
    · exact congrArg Inode.iNo (hst q ((h.refs.mem q).mp hq))
    · exact congrArg Inode.writeDeny (hst q ((h.refs.mem q).mp hq))
  right
  obtain ⟨hm4096, hmnew, hk₁⟩ := inodeBitmapAlloc_new h.volume halloc
  have hdisk : k₂.disk = s.kern.disk := by rw [hk.disk, hk₁]
  have hbits : k₂.blockBitmap = s.kern.blockBitmap := by rw [hk.blockBitmap, hk₁]
  have hvalid : (⟨name, m, .regular⟩ : Entry).Valid := hname.valid hm4096 (.inl rfl)
  have hst := h.stored _ hdirMem
  have hok : ok = true := by
    have hinodes := h.volume.toInodes.spare (inodeBitmapAlloc_spares h.volume.toInodes hdisk hbits)
    refine hinodes.insert_ok hd ?_ hvalid ?_ hmade.runs
    · rw [hdisk]
      exact hst
    · rw [hdisk]
      exact hroom
  obtain ⟨s₂, hstore, hinstall⟩ := hthen hok
  obtain ⟨io', k₃, k₄, k₅, h3, h4, h5, hheap, hopen, hroot, hfile, hsame, hpst, hcount⟩ := storeNewFile_run hstore
  rw [dir.inode_congr hmade.rootDir, hmade.parent] at h3
  have hsteady : Steady k₂ s₂.kern := by
    have h1 := ((syncDirEntry_gives K _ _ _) _ _ _ hmade.runs).1
    exact ((((h1.trans (Quiet.inodeSync _ _ _ _ _ _ h3)).trans (Quiet.inodeSync _ _ _ _ _ _ h4)).trans
      (Quiet.bitmapSync _ _ _ _ _ _ h5))).trans hheap.steady
  have hgrant : k₂.heap.grant = s.kern.heap.grant := by rw [hk.grant, hk₁]
  have hnext : s.kern.heap.next ≤ k₂.heap.next := by
    have := hk.next
    rw [hk₁] at this
    exact this
  obtain ⟨hv, -, hu, hdirSt, hnewSt, hput, hkeep⟩ := h.volume.addFile halloc hk hown hd hst hvalid (hname.ordinary h hd) rfl rfl hname.absent hroom
    hmade.runs h3 hmade.new.1 hmade.new.2 h4 h5
  have htree := h.volume.tree_addFile hput (hname.ordinary h hd) hd hu (hnewSt.iSize.trans hmade.new.1.size)
  obtain ⟨hv', hu'⟩ := hv.heap hheap
  have hnumber : (s₂.inodes p).iNo = m := hpst.iNo.symm.trans hmade.new.2
  have hothers : ∀ q ∈ s.openInodes, (s₂.inodes q).iNo = (s.inodes q).iNo ∧ (s₂.inodes q).iOpenCnts = (s.inodes q).iOpenCnts ∧
      (s.inodes q).iNo ∈ dirs ∪ insert m files ∧ (storedInode K.toPartition s₂.kern.disk (s.inodes q).iNo).SameStored (s₂.inodes q) := by
    intro q hq
    have hmem : (s.inodes q).iNo ∈ dirs ∪ insert m files := by
      rw [Set.union_insert]
      exact Set.mem_insert_of_mem _ (h.number q hq)
    rw [(hu' _ hmem).1, hsame q (hne q hq)]
    by_cases hqd : q = dir.inode s
    · subst hqd
      rw [hmade.parent]
      have href := ((syncDirEntry_gives K _ _ _) _ _ _ hmade.runs).2
      exact ⟨href.iNo, href.iOpenCnts, hmem, hdirSt⟩
    · rw [hmade.others q (hne q hq) hqd]
      have hapart : (s.inodes q).iNo ≠ (s.inodes (dir.inode s)).iNo := fun heq => hqd (h.distinct q hq _ hdirMem heq)
      refine ⟨rfl, rfl, hmem, ?_⟩
      rw [(hu _ ⟨h.number q hq, hapart⟩).1]
      exact h.stored q hq
  refine ⟨hmnew, k, ?_⟩
  refine @Installed.descriptor _ _ _ _ _ _ s₂ _ _ _ _ _ _ ⟨hlt, hfree, ⟨flag, ?_⟩, ?_, Set.mem_insert _ _, hnumber, hroot.trans hmade.rootDir, ?_, ?_,
    hkeep.trans hheap.keepsMount⟩ hinstall
  · rw [hfile, hmade.fileTable]
    exact SameFiles.refl _
  · refine h.push (hopen.trans (by rw [hmade.openInodes])) hfresh (hid.trans_le hsteady.next) (hroot.trans hmade.rootDir)
      (hsteady.grant.trans hgrant) (hnext.trans hsteady.next) hv' hothers hcount ?_ ?_ ?_
    · rw [hnumber, Set.union_insert]
      exact Set.mem_insert _ _
    · rw [hnumber]
      exact hmnew
    · rw [hnumber, (hu' m (by rw [Set.union_insert]; exact Set.mem_insert _ _)).1]
      exact hnewSt.trans hpst
  · intro q hq
    exact (hothers q ((h.refs.mem q).mp hq)).1
  · unfold Fs.tree
    rw [hheap.disk]
    exact htree

theorem sysMalloc_plenty {size : ℕ} {k k' : Kern} {o : Option Buffer} (hk : k.Plenty) (hs : sysMalloc size k = .ok (o, k')) :
    HeapOnly k k' ∧ k'.heap.next = k.heap.next + 1 ∧ o = some ⟨⟨k.heap.next, k.pool⟩, size, zeros⟩ := by
  obtain ⟨hheap, hnext, -⟩ := sysMalloc_ok hs
  obtain ⟨o', k'', hs', ho, -⟩ := sysMalloc_runs size hk
  obtain ⟨rfl, -⟩ := ok_inj hs hs'
  exact ⟨hheap, hnext, ho⟩

def OwnSlot (K : Kernel) (b : Bitmap) : Prop := ∀ m, b.scanTest m = false → (∀ j < m, b.scanTest j = true) → K.inodeNo m = m

theorem OwnSlot.of_free {part : Partition} {b : Bitmap} (hm : m < 256) (hfree : b.scanTest m = false) : OwnSlot part.kernel b := by
  intro i _ hfirst
  have hle : i ≤ m := by
    by_contra hlt
    rw [hfirst m (by omega)] at hfree
    cases hfree
  exact Nat.mod_eq_of_lt (by omega)

theorem fileCreate_installed {dir : Dir} {name : Name} {flag : ℕ} (h : Mounted K (dirRefs dir + rest) dirs files s)
    (hd : (s.inodes (dir.inode s)).iNo ∈ dirs) (hslot : OwnSlot K s.kern.inodeBitmap)
    (hname : NewName K s (s.inodes (dir.inode s)).iNo name) (hroom : DirectRoom s.kern.disk (s.inodes (dir.inode s)))
    (hs : fileCreate K task dir name flag s = .ok (r, s')) :
    (r = -1 ∧ Mounted K (dirRefs dir + rest) dirs files s' ∧ Calm (s.rootDir ::ₘ (dirRefs dir + rest)) s s') ∨
      ∃ m, m ∉ dirs ∪ files ∧ ∃ k p, Installed K (dirRefs dir + rest) dirs (insert m files)
        ((s.tree K dirs files).addLeaf (s.inodes (dir.inode s)).iNo name m []) s k p m s' ∧ (r = -1 ∨ LooksUp s' task r k) := by
  unfold fileCreate at hs
  simp only [bind_ok] at hs
  obtain ⟨io, s₁, h1, hs⟩ := hs
  obtain ⟨hm₁, hc₁, k₀, hk₀, rfl⟩ := h.lift (s.rootDir ::ₘ (dirRefs dir + rest)) (fun _ _ _ hk => (sysMalloc_ok hk).1) h1
  have hdisk : k₀.disk = s.kern.disk := hc₁.kern.disk
  obtain ⟨-, -, rfl⟩ := sysMalloc_plenty h.plenty hk₀
  simp only [bind_ok, liftKern_ok] at hs
  obtain ⟨n, _, ⟨k₁, halloc, rfl⟩, hs⟩ := hs
  obtain ⟨i, -, hclear, hfirst, rfl, hk₁⟩ := inodeBitmapAlloc_ok halloc
  have hown : K.inodeNo i = i := by
    rw [hc₁.kern.inodeBitmap] at hclear hfirst
    exact hslot i hclear hfirst
  simp only [bind_ok, liftKern_ok] at hs
  obtain ⟨new, _, ⟨k₂, hk₂, rfl⟩, hs⟩ := hs
  have hplenty : k₁.Plenty := by
    rw [hk₁]
    exact hc₁.kern.plenty h.plenty
  obtain ⟨hheap, hnext, rfl⟩ := sysMalloc_plenty hplenty hk₂
  dsimp only at hs
  have hroot := @Dir.inode_congr s { s with kern := k₀ } dir rfl
  have hname' : NewName K { s with kern := k₀ } (s.inodes (dir.inode s)).iNo name := by
    refine ⟨hname.toPathName, hname.short, ?_⟩
    dsimp only
    rw [hdisk]
    exact hname.absent
  rw [← hroot] at hd hroom hname'
  rw [← hdisk] at hroom
  have hfresh : k₀.heap.next ≤ k₁.heap.next := by rw [hk₁]
  have hinst := @installNewFile_installed _ _ _ _ { s with kern := k₀ } _ ⟨k₁.heap.next, k₁.pool⟩ _ _ _ _ _ _ _ _ _ hm₁ hd hown hname' hroom
    halloc hheap hfresh (by rw [hnext]; exact Nat.lt_succ_self _) hs
  rcases hinst with ⟨hr, hm, hc⟩ | ⟨hnew, k, hi, hr⟩
  · exact .inl ⟨hr, hm, hc₁.trans hc⟩
  · refine .inr ⟨i, hnew, k, _, ⟨hi.lt, hi.free, hi.fileTable, hi.mounted, hi.file, hi.number, hi.rootDir, hi.iNo, ?_,
      hc₁.kern.keepsMount.trans hi.keeps⟩, hr⟩
    rw [hi.tree, hroot, hc₁.tree]

theorem Installed.served {t : NamedTree ℕ Name (List UInt8)} (hi : Installed K (extra + slotRefs s.fileTable) dirs files' t s k p m s')
    (hextra : ∀ q ∈ extra, (s.inodes q).iNo ∈ dirs) (hslots : ∀ q ∈ slotRefs s.fileTable, (s.inodes q).iNo ∈ files') :
    Served K extra dirs files' s' := by
  obtain ⟨flag, hsame⟩ := hi.fileTable
  have htaken : slotRefs s'.fileTable = p ::ₘ slotRefs s.fileTable := by
    rw [slotRefs_congr hsame, slotRefs_taken _ hi.lt hi.free]
  refine ⟨?_, ?_, ?_⟩
  · rw [htaken, Multiset.add_cons]
    exact hi.mounted
  · intro q hq
    rw [hi.iNo q (Multiset.mem_cons_of_mem (Multiset.mem_add.mpr (.inl hq)))]
    exact hextra q hq
  · intro q hq
    rw [htaken] at hq
    rcases Multiset.mem_cons.mp hq with rfl | hq
    · rw [hi.number]
      exact hi.file
    · rw [hi.iNo q (Multiset.mem_cons_of_mem (Multiset.mem_add.mpr (.inr hq)))]
      exact hslots q hq

theorem Installed.leadsTo {t : NamedTree ℕ Name (List UInt8)} {fd : ℤ} (h : Installed K rest dirs files t s k p m s')
    (hk : LooksUp s' task fd k) : LeadsTo s' task fd m := by
  obtain ⟨flag, hsame⟩ := h.fileTable
  refine ⟨k, p, hk, ?_, h.number⟩
  rw [hsame.inode k, Function.update_self]

end

end ElephantOS
