import ElephantOS.ReferenceCounts

namespace ElephantOS

open ByteMemory HaltingState

structure KernelCached (pool : Pool) (s : Fs) : Prop where
  running : s.kern.pool = pool
  kernel : ∀ p ∈ s.openInodes, p.pool = .kernel

def openRootDir (K : Kernel) : FsM Unit := do
  let inode ← inodeOpen K K.sb.rootInodeNo
  modify fun s => { s with rootDir := inode }

section

variable {pool : Pool} {α : Type}

abbrev KeepsKernel (pool : Pool) (m : FsM α) : Prop := Preserves (KernelCached pool) m

namespace KeepsKernel

theorem liftKern {m : KernM α} (hm : Quiet m) : KeepsKernel pool (liftKern m) := by
  intro s hs a s' h
  obtain ⟨k, hk, rfl⟩ := (liftKern_ok m s s' a).mp h
  exact ⟨(hm _ _ _ hk).pool.trans hs.running, hs.kernel⟩

theorem assert (c : Prop) [Decidable c] : KeepsKernel pool (assert c : FsM Unit) := by
  intro s hs a s' h
  obtain ⟨-, rfl⟩ := (assert_ok c s s' a).mp h
  exact hs

theorem inodeOpen (K : Kernel) (n : ℕ) : KeepsKernel pool (inodeOpen K n) := by
  intro s hs p s' h
  cases hc : cached s n with
  | some q =>
    rw [inodeOpen_hit hc] at h
    cases h
    exact ⟨hs.running, hs.kernel⟩
  | none =>
    obtain ⟨-, rfl, hheap, -, he⟩ := inodeOpen_miss hc h
    rw [he]
    refine ⟨hheap.pool.trans hs.running, fun q hq => ?_⟩
    rcases List.mem_cons.mp hq with rfl | hq
    · rfl
    · exact hs.kernel q hq

theorem inodeClose (p : Ptr) : KeepsKernel pool (inodeClose p) := by
  refine Preserves.modifying ?_ fun _ hs => ⟨hs.running, hs.kernel⟩
  apply Preserves.bind Preserves.get
  intro s
  split_ifs
  · apply Preserves.bind
    · intro t ht u t' h
      unfold listRemove at h
      split_ifs at h
      cases h
      exact ⟨ht.running, fun q hq => ht.kernel q (List.mem_of_mem_erase hq)⟩
    · intro _ t ht u t' h
      obtain ⟨k, hk, rfl⟩ := (liftKern_ok _ t t' u).mp h
      obtain ⟨k1, -, rfl⟩ := (withKernelPool_ok _ _ _ _).mp hk
      exact ⟨ht.running, ht.kernel⟩
  · exact Preserves.pure _

theorem dirOpen (K : Kernel) (n : ℕ) : KeepsKernel pool (dirOpen K n) := by
  apply Preserves.bind (liftKern (Quiet.sysMalloc _))
  intro pdir
  apply Preserves.bind (inodeOpen K n)
  intro inode
  cases pdir with
  | none => exact Preserves.halt _
  | some pdir => exact Preserves.pure _

theorem dirClose (dir : Dir) : KeepsKernel pool (dirClose dir) := by
  cases dir with
  | root => exact Preserves.pure _
  | heap ptr inode => exact Preserves.bind (inodeClose inode) fun _ => liftKern (Quiet.sysFree ptr)

theorem closing (dir : Dir) (a : α) : KeepsKernel pool (do
    ElephantOS.dirClose dir
    return a) := Preserves.bind (dirClose dir) fun _ => Preserves.pure a

theorem searchFile (K : Kernel) (junk : Junk) (pathname : Path) : KeepsKernel pool (searchFile K junk pathname) := by
  intro s hs r s' h
  have hsteps : SearchSteps K fun _ => KernelCached pool := by
    refine ⟨?_, ?_, ?_⟩
    · intro n t t' d ht hopen
      exact dirOpen K n t ht d t' hopen
    · intro d t t' u ht hclose
      exact dirClose d t ht u t' hclose
    · intro d inode name t t' found ht hlook
      exact liftKern (Quiet.searchDirEntry K inode name) t ht found t' hlook
  exact hsteps.searchFile hs h

theorem openRootDir (K : Kernel) : KeepsKernel pool (openRootDir K) := by
  apply Preserves.bind (inodeOpen K _)
  intro inode
  exact Preserves.modify fun _ hs => ⟨hs.running, hs.kernel⟩

theorem pathDepthCnt (junk : Junk) (pathname : Path) : KeepsKernel pool (pathDepthCnt junk pathname) := by
  intro s hs r s' h
  obtain rfl := pathDepthCnt_ok h
  exact hs

theorem createDirEntry (name : Name) (n : ℕ) (t : FileType) : KeepsKernel pool (createDirEntry name n t : FsM DirEntry) := by
  intro s hs r s' h
  obtain rfl := createDirEntry_ok h
  exact hs

theorem onDirInode {dir : Dir} {m : Inode → KernM (Bool × Inode)} (hm : ∀ inode, Quiet (m inode)) :
    KeepsKernel pool (onDirInode dir m) := by
  apply Preserves.bind Preserves.get
  intro s
  apply Preserves.bind (liftKern (hm _))
  rintro ⟨ok, inode⟩
  refine Preserves.modifying ?_ fun _ hs => ⟨hs.running, hs.kernel⟩
  exact Preserves.pure _

theorem inodeRelease (K : Kernel) (n : ℕ) : KeepsKernel pool (inodeRelease K n) := by
  apply Preserves.bind (inodeOpen K n)
  intro p
  apply Preserves.bind Preserves.get
  intro s
  apply Preserves.bind (assert _)
  intro _
  apply Preserves.bind (liftKern (Quiet.releaseBlocks K _))
  intro _
  apply Preserves.bind (liftKern (Quiet.inodeBitmapSet _ _))
  intro _
  apply Preserves.bind (liftKern (Quiet.bitmapSync K _ _))
  intro _
  apply Preserves.bind (liftKern (Quiet.sysMalloc _))
  intro ioBuf
  cases ioBuf with
  | none => exact Preserves.halt _
  | some ioBuf =>
    apply Preserves.bind (liftKern (Quiet.inodeDelete K _ _))
    intro _
    apply Preserves.bind (liftKern (Quiet.sysFree _))
    intro _
    exact inodeClose p

theorem dirRemove (K : Kernel) (parentDir childDir : Dir) : KeepsKernel pool (dirRemove K parentDir childDir) := by
  apply Preserves.bind Preserves.get
  intro s
  apply Preserves.bind (assert _)
  intro _
  apply Preserves.bind (liftKern (Quiet.sysMalloc _))
  intro ioBuf
  cases ioBuf with
  | none => exact Preserves.pure _
  | some ioBuf =>
    apply Preserves.bind (onDirInode fun inode => (deleteDirEntry_gives K inode _ _).quiet)
    intro _
    apply Preserves.bind Preserves.get
    intro t
    apply Preserves.bind (inodeRelease K _)
    intro _
    exact Preserves.bind (liftKern (Quiet.sysFree _)) fun _ => Preserves.pure _

theorem sysUnlink (K : Kernel) (junk : Junk) (pathname : Path) : KeepsKernel pool (sysUnlink K junk pathname) := by
  apply Preserves.bind (assert _)
  intro _
  apply Preserves.bind (searchFile K junk pathname)
  rintro ⟨found, record⟩
  apply Preserves.bind (assert _)
  intro _
  cases found with
  | none => exact closing _ _
  | some n =>
    dsimp only
    split_ifs
    · exact closing _ _
    · apply Preserves.bind Preserves.get
      intro s
      split_ifs
      · exact closing _ _
      · apply Preserves.bind (liftKern (Quiet.sysMalloc _))
        intro ioBuf
        cases ioBuf with
        | none => exact closing _ _
        | some ioBuf =>
          apply Preserves.bind (onDirInode fun inode => (deleteDirEntry_gives K inode _ _).quiet)
          intro _
          apply Preserves.bind (inodeRelease K n)
          intro _
          exact Preserves.bind (liftKern (Quiet.sysFree _)) fun _ => closing _ _

theorem mkdirFail (dir : Dir) (ioBuf : Buffer) : KeepsKernel pool (mkdirFail dir ioBuf) :=
  Preserves.bind (dirClose dir) fun _ => Preserves.bind (liftKern (Quiet.sysFree _)) fun _ => Preserves.pure _

theorem makeDir (K : Kernel) (dir : Dir) (name : Name) (n lba : ℕ) (ioBuf : Buffer) : KeepsKernel pool (makeDir K dir name n lba ioBuf) := by
  apply Preserves.bind (assert _)
  intro _
  apply Preserves.bind (liftKern (Quiet.bitmapSync K _ _))
  intro _
  apply Preserves.bind Preserves.get
  intro s
  apply Preserves.bind (liftKern (Quiet.ideWrite _ _ _))
  intro _
  apply Preserves.bind (createDirEntry _ _ _)
  intro entry
  apply Preserves.bind (onDirInode fun inode => (syncDirEntry_gives K inode _ _).quiet)
  intro ok
  cases ok with
  | false => exact Preserves.pure _
  | true =>
    apply Preserves.bind Preserves.get
    intro t
    apply Preserves.bind (liftKern (Quiet.inodeSync K _ _))
    intro _
    apply Preserves.bind (liftKern (Quiet.inodeSync K _ _))
    intro _
    exact Preserves.bind (liftKern (Quiet.bitmapSync K _ _)) fun _ => Preserves.pure _

theorem sysMkdir (K : Kernel) (junk : Junk) (pathname : Path) : KeepsKernel pool (sysMkdir K junk pathname) := by
  apply Preserves.bind (liftKern (Quiet.sysMalloc _))
  intro ioBuf
  cases ioBuf with
  | none => exact Preserves.pure _
  | some ioBuf =>
    apply Preserves.bind (searchFile K junk pathname)
    rintro ⟨found, record⟩
    dsimp only
    split_ifs
    · exact mkdirFail _ _
    · apply Preserves.bind (pathDepthCnt junk pathname)
      intro depth
      apply Preserves.bind (pathDepthCnt junk _)
      intro depth'
      split_ifs
      · exact mkdirFail _ _
      · apply Preserves.bind (liftKern Quiet.inodeBitmapAlloc)
        intro inodeNo
        cases inodeNo with
        | none => exact mkdirFail _ _
        | some inodeNo =>
          apply Preserves.bind (liftKern (Quiet.blockBitmapAlloc K))
          intro lba
          cases lba with
          | none => exact Preserves.bind (liftKern (Quiet.inodeBitmapSet _ _)) fun _ => mkdirFail _ _
          | some lba =>
            dsimp only
            cases lastName record.searchedPath with
            | none => exact Preserves.halt _
            | some name =>
              apply Preserves.bind (makeDir K _ _ _ _ _)
              intro ok
              cases ok with
              | false => exact Preserves.bind (liftKern (Quiet.inodeBitmapSet _ _)) fun _ => mkdirFail _ _
              | true => exact Preserves.bind (liftKern (Quiet.sysFree _)) fun _ => closing _ _

theorem sysRmdir (K : Kernel) (junk : Junk) (pathname : Path) : KeepsKernel pool (sysRmdir K junk pathname) := by
  apply Preserves.bind (searchFile K junk pathname)
  rintro ⟨found, record⟩
  apply Preserves.bind (assert _)
  intro _
  cases found with
  | none => exact closing _ _
  | some n =>
    dsimp only
    split_ifs
    · exact closing _ _
    · apply Preserves.bind (dirOpen K n)
      intro dir
      apply Preserves.bind Preserves.get
      intro s
      have hrest : ∀ removed : Bool, KeepsKernel pool (do
          ElephantOS.dirClose dir
          ElephantOS.dirClose record.parentDir
          return if removed then 0 else -1 : FsM ℤ) :=
        fun removed => Preserves.bind (dirClose dir) fun _ => closing _ _
      split_ifs
      · exact Preserves.bind (dirRemove K _ _) hrest
      · exact Preserves.bind (Preserves.pure _) hrest

theorem sysOpendir (K : Kernel) (junk : Junk) (name : Path) : KeepsKernel pool (sysOpendir K junk name) := by
  apply Preserves.bind (assert _)
  intro _
  split_ifs
  · exact Preserves.pure _
  · apply Preserves.bind (searchFile K junk name)
    rintro ⟨found, record⟩
    cases found with
    | none => exact closing _ _
    | some n =>
      dsimp only
      split_ifs
      · exact Preserves.bind (dirOpen K n) fun _ => closing _ _
      · exact closing _ _

theorem sysClosedir (dir : Option Dir) : KeepsKernel pool (sysClosedir dir) := by
  cases dir with
  | none => exact Preserves.pure _
  | some dir => exact closing dir _

theorem sysChdir (K : Kernel) (task : ℕ) (junk : Junk) (path : Path) : KeepsKernel pool (sysChdir K task junk path) := by
  apply Preserves.bind (searchFile K junk path)
  rintro ⟨found, record⟩
  cases found with
  | none => exact closing _ _
  | some n =>
    dsimp only
    split_ifs
    · exact Preserves.modifying (closing _ _) fun _ hs => ⟨hs.running, hs.kernel⟩
    · exact closing _ _

theorem sysStat (K : Kernel) (junk : Junk) (path : Path) : KeepsKernel pool (sysStat K junk path) := by
  unfold ElephantOS.sysStat
  split_ifs
  · exact Preserves.bind Preserves.get fun _ => Preserves.pure _
  · apply Preserves.bind (searchFile K junk path)
    rintro ⟨found, record⟩
    cases found with
    | none => exact closing _ _
    | some n =>
      apply Preserves.bind (inodeOpen K n)
      intro inode
      apply Preserves.bind Preserves.get
      intro s
      exact Preserves.bind (inodeClose inode) fun _ => closing _ _

theorem fileClose (k : ℕ) : KeepsKernel pool (fileClose k) := by
  apply Preserves.bind Preserves.get
  intro s
  split
  · exact Preserves.halt _
  · refine Preserves.modifying ?_ fun _ hs => ⟨hs.running, hs.kernel⟩
    apply Preserves.bind (inodeClose _)
    intro _
    exact Preserves.modifying (Preserves.pure _) fun _ hs => ⟨hs.running, hs.kernel⟩

theorem sysClose (task : ℕ) (fd : ℤ) : KeepsKernel pool (sysClose task fd) := by
  intro s hs r s' h
  rcases sysClose_ok h with ⟨-, -, rfl⟩ | ⟨j, k, s1, -, -, -, -, -, h1, rfl⟩
  · exact hs
  · have h1' := fileClose k s hs r s1 h1
    exact ⟨h1'.running, h1'.kernel⟩

theorem pcbFdInstall (task k : ℕ) : KeepsKernel pool (pcbFdInstall task k) := by
  apply Preserves.bind Preserves.get
  intro s
  split
  · exact Preserves.pure _
  · exact Preserves.modifying (Preserves.pure _) fun _ hs => ⟨hs.running, hs.kernel⟩

theorem fileOpen (K : Kernel) (task n flag : ℕ) : KeepsKernel pool (fileOpen K task n flag) := by
  apply Preserves.bind Preserves.get
  intro s
  split
  · exact Preserves.pure _
  · apply Preserves.bind (inodeOpen K n)
    intro inode
    refine Preserves.modifying ?_ fun _ hs => ⟨hs.running, hs.kernel⟩
    apply Preserves.bind Preserves.get
    intro t
    split_ifs
    · exact Preserves.pure _
    · exact Preserves.modifying (pcbFdInstall _ _) fun _ hs => ⟨hs.running, hs.kernel⟩
    · exact pcbFdInstall _ _

theorem storeNewFile (K : Kernel) (dir : Dir) {p : Ptr} (hp : p.pool = .kernel) (n : ℕ) (ioBuf : Buffer) :
    KeepsKernel pool (storeNewFile K dir p n ioBuf) := by
  apply Preserves.bind Preserves.get
  intro s
  apply Preserves.bind (liftKern (Quiet.inodeSync K _ _))
  intro _
  apply Preserves.bind (liftKern (Quiet.inodeSync K _ _))
  intro _
  apply Preserves.bind (liftKern (Quiet.bitmapSync K _ _))
  intro _
  apply Preserves.bind
  · intro t ht u t' h
    unfold listPush at h
    split_ifs at h
    cases h
    refine ⟨ht.running, fun q hq => ?_⟩
    rcases List.mem_cons.mp hq with rfl | hq
    · exact hp
    · exact ht.kernel q hq
  · intro _
    exact Preserves.modifying (liftKern (Quiet.sysFree _)) fun _ hs => ⟨hs.running, hs.kernel⟩

theorem dropInode (p : Ptr) (n : ℕ) (ioBuf : Buffer) : KeepsKernel pool (do
    ElephantOS.liftKern (sysFree p)
    ElephantOS.liftKern (inodeBitmapSet n false)
    ElephantOS.liftKern (sysFree ioBuf.ptr)
    return -1 : FsM ℤ) := by
  apply Preserves.bind (liftKern (Quiet.sysFree _))
  intro _
  apply Preserves.bind (liftKern (Quiet.inodeBitmapSet _ _))
  intro _
  exact Preserves.bind (liftKern (Quiet.sysFree _)) fun _ => Preserves.pure _

theorem installNewFile (K : Kernel) (task : ℕ) (dir : Dir) (name : Name) (flag n : ℕ) {p : Ptr} (hp : p.pool = .kernel) (ioBuf : Buffer) :
    KeepsKernel pool (installNewFile K task dir name flag n p ioBuf) := by
  refine Preserves.modifying ?_ fun _ hs => ⟨hs.running, hs.kernel⟩
  apply Preserves.bind Preserves.get
  intro s
  split
  · exact dropInode _ _ _
  · refine Preserves.modifying ?_ fun _ hs => ⟨hs.running, hs.kernel⟩
    refine Preserves.modifying ?_ fun _ hs => ⟨hs.running, hs.kernel⟩
    apply Preserves.bind (createDirEntry _ _ _)
    intro entry
    apply Preserves.bind (onDirInode fun inode => (syncDirEntry_gives K inode _ _).quiet)
    intro ok
    cases ok with
    | false => exact Preserves.modifying (dropInode _ _ _) fun _ hs => ⟨hs.running, hs.kernel⟩
    | true => exact Preserves.bind (storeNewFile K dir hp n ioBuf) fun _ => pcbFdInstall _ _

end KeepsKernel

theorem installNewFile_full {K : Kernel} {task : ℕ} {dir : Dir} {name : Name} {flag n : ℕ} {p : Ptr} {ioBuf : Buffer} {s s' : Fs} {r : ℤ}
    (hs : KernelCached pool s) (hfull : getFreeSlotInGlobal s = none) (h : installNewFile K task dir name flag n p ioBuf s = .ok (r, s')) :
    KernelCached pool s' := by
  unfold installNewFile at h
  simp only [bind_ok, modify_ok, get_ok] at h
  obtain ⟨_, _, rfl, _, _, ⟨rfl, rfl⟩, h⟩ := h
  have hfull' : getFreeSlotInGlobal (setInode p (inodeInit n Inode.zero) s) = none := hfull
  rw [hfull'] at h
  exact KeepsKernel.dropInode p n ioBuf (setInode p (inodeInit n Inode.zero) s) ⟨hs.running, hs.kernel⟩ r s' h

def MakesInode (s : Fs) : Prop :=
  s.kern.heap.grant s.kern.heap.next = true ∧ s.kern.heap.grant (s.kern.heap.next + 1) = true ∧ getFreeSlotInGlobal s ≠ none

theorem fileCreate_cached {K : Kernel} {task : ℕ} {dir : Dir} {name : Name} {flag : ℕ} {s s' : Fs} {r : ℤ} (hs : KernelCached pool s)
    (hp : pool = .kernel ∨ ¬ MakesInode s) (h : fileCreate K task dir name flag s = .ok (r, s')) : KernelCached pool s' := by
  unfold fileCreate at h
  simp only [bind_ok, liftKern_ok] at h
  obtain ⟨ioBuf, _, ⟨k1, h1, rfl⟩, h⟩ := h
  obtain ⟨hk1, hn1, -⟩ := sysMalloc_ok h1
  have hs1 : KernelCached pool { s with kern := k1 } := ⟨hk1.pool.trans hs.running, hs.kernel⟩
  cases ioBuf with
  | none =>
    obtain ⟨-, rfl⟩ := (pure_ok _ _ _ _).mp h
    exact hs1
  | some ioBuf =>
    simp only [bind_ok, liftKern_ok] at h
    obtain ⟨inodeNo, _, ⟨k2, h2, rfl⟩, h⟩ := h
    obtain ⟨i, -, -, -, rfl, rfl⟩ := inodeBitmapAlloc_ok h2
    simp only [bind_ok, liftKern_ok] at h
    obtain ⟨inode, _, ⟨k3, h3, rfl⟩, h⟩ := h
    obtain ⟨hk3, -, hinode⟩ := sysMalloc_ok h3
    have hs3 : KernelCached pool { s with kern := k3 } := ⟨hk3.pool.trans hs1.running, hs.kernel⟩
    cases inode with
    | none =>
      have hfail : KeepsKernel pool (do
          liftKern (inodeBitmapSet i false)
          liftKern (sysFree ioBuf.ptr)
          return -1 : FsM ℤ) :=
        Preserves.bind (KeepsKernel.liftKern (Quiet.inodeBitmapSet _ _)) fun _ =>
          Preserves.bind (KeepsKernel.liftKern (Quiet.sysFree _)) fun _ => Preserves.pure _
      exact hfail _ hs3 r s' h
    | some inode =>
      have hpool : inode.ptr.pool = pool := by
        rcases hinode with hinode | hinode
        · cases hinode
        · obtain rfl := Option.some.inj hinode
          exact hs1.running
      rcases hp with rfl | hp
      · exact KeepsKernel.installNewFile K task dir name flag i hpool ioBuf _ hs3 r s' h
      · have hfull : getFreeSlotInGlobal s = none := by
          by_contra hfree
          have hg := sysMalloc_granted h3
          dsimp only at hg
          rw [hk1.grant, hn1] at hg
          exact hp ⟨sysMalloc_granted h1, hg, hfree⟩
        exact installNewFile_full hs3 hfull h

end

/-- No file is made by a user process: its `sys_open` with `O_CREAT` finds the name, or ends before it has an inode and a file for it. -/
def NoUserFile (K : Kernel) (s : Fs) : FsCall → Prop
  | .sysOpen junk pathname flags => s.kern.pool = .user → oCreat flags = true → ∀ record s0 depth,
      searchFile K junk pathname s = .ok ((none, record), s0) → record.fileType ≠ .directory →
      pathDepthCnt junk pathname s = .ok (depth, s) → pathDepthCnt junk record.searchedPath s0 = .ok (depth, s0) → ¬ MakesInode s0
  | _ => True

theorem sysOpen_cached {K : Kernel} {task : ℕ} {junk : Junk} {pathname : Path} {flags : ℕ} {s s' : Fs} {r : ℤ} {pool : Pool}
    (hs : KernelCached pool s) (hm : NoUserFile K s (.sysOpen junk pathname flags)) (h : sysOpen K task junk pathname flags s = .ok (r, s')) :
    KernelCached pool s' := by
  rcases sysOpen_ways h with ⟨-, rfl⟩ | ⟨found, record, s0, hsearch, hrest⟩
  · exact hs
  have hs0 : KernelCached pool s0 := KeepsKernel.searchFile K junk pathname s hs _ s0 hsearch
  rcases hrest with ⟨-, hclose⟩ | ⟨hdir, ⟨depth, hd, hd0⟩, ⟨hc, rfl, name, s1, hcreate, hclose⟩ | ⟨-, n, -, hopen⟩⟩
  · exact KeepsKernel.dirClose _ s0 hs0 () s' hclose
  · have hp : pool = .kernel ∨ ¬ MakesInode s0 := by
      cases hpool : pool with
      | kernel => exact .inl rfl
      | user => exact .inr (hm (hs.running.trans hpool) hc record s0 depth hsearch hdir hd hd0)
    exact KeepsKernel.dirClose _ s1 (fileCreate_cached hs0 hp hcreate) () s' hclose
  · exact KeepsKernel.fileOpen K task n flags s0 hs0 r s' hopen

theorem FsCall.cached {K : Kernel} {task : ℕ} {handles handles' : List Dir} {c : FsCall} {s s' : Fs} {pool : Pool}
    (hs : KernelCached pool s) (hm : NoUserFile K s c) (h : c.run K task handles s = .ok (handles', s')) : KernelCached pool s' := by
  cases c <;> simp only [FsCall.run, bind_ok] at h <;> obtain ⟨r, s1, h1, h⟩ := h <;> obtain ⟨-, rfl⟩ := (pure_ok _ _ _ _).mp h
  case sysOpen => exact sysOpen_cached hs hm h1
  case sysClose => exact KeepsKernel.sysClose _ _ s hs r s1 h1
  case sysMkdir => exact KeepsKernel.sysMkdir _ _ _ s hs r s1 h1
  case sysUnlink => exact KeepsKernel.sysUnlink _ _ _ s hs r s1 h1
  case sysRmdir => exact KeepsKernel.sysRmdir _ _ _ s hs r s1 h1
  case sysOpendir => exact KeepsKernel.sysOpendir _ _ _ s hs r s1 h1
  case sysClosedir => exact KeepsKernel.sysClosedir _ s hs r s1 h1
  case sysChdir => exact KeepsKernel.sysChdir _ _ _ _ s hs r s1 h1
  case sysStat => exact KeepsKernel.sysStat _ _ _ s hs r s1 h1

theorem FsRun.cached {K : Kernel} {pool : ℕ → Pool} {s0 s : Fs} {handles : List Dir} (h0 : ∀ p ∈ s0.openInodes, p.pool = .kernel)
    (h : FsRun K pool (NoUserFile K) s0 s handles) : ∀ p ∈ s.openInodes, p.pool = .kernel := by
  induction h with
  | init => exact h0
  | @step s s' handles handles' task c _ _ hm hrun ih =>
    have hs : KernelCached (pool task) (onTask pool task s) := ⟨rfl, ih⟩
    exact (FsCall.cached hs hm hrun).kernel

def FreedInItsPool (p : Ptr) (s : Fs) : Prop :=
  (inodeClose p s = .error .wild ∧ (s.inodes p).inodeTag ≠ ⟨.linked, .linked⟩) ∨
    ∃ k s', sysFree p { s.kern with pool := p.pool } = .ok ((), k) ∧ inodeClose p s = .ok ((), s') ∧
      s'.kern = { k with pool := s.kern.pool } ∧ s'.openInodes = s.openInodes.erase p

section

variable {p : Ptr} {s : Fs}

theorem inodeClose_last (hc : (s.inodes p).iOpenCnts = 1) : inodeClose p s = (do
    listRemove p
    liftKern (withKernelPool (sysFree p))) (setInode p { s.inodes p with iOpenCnts := 0 } s) := by
  have hcount : (s.inodes p).iOpenCnts - 1 = 0 := by rw [hc]
  unfold inodeClose
  rw [bind_eq (modify_eq _ s), hcount]
  rw [get_bind]
  rw [if_pos (by simp [setInode])]

theorem listRemove_linked (hl : (s.inodes p).inodeTag = ⟨.linked, .linked⟩) (n : ℕ) :
    listRemove p (setInode p { s.inodes p with iOpenCnts := n } s) =
      .ok ((), { setInode p { s.inodes p with iOpenCnts := n } s with openInodes := s.openInodes.erase p }) := by
  unfold listRemove
  rw [if_pos (by simp [setInode, hl])]
  rfl

theorem inodeClose_kernel (hp : p.pool = .kernel) (hc : (s.inodes p).iOpenCnts = 1) : FreedInItsPool p s := by
  by_cases hl : (s.inodes p).inodeTag = ⟨.linked, .linked⟩
  · right
    have hfree : Runs (sysFree p) { s.kern with pool := .kernel } fun _ k => HeapOnly { s.kern with pool := .kernel } k := sysFree_runs hp
    obtain ⟨_, k, hk, -⟩ := hfree
    refine ⟨k, { setInode p { s.inodes p with iOpenCnts := 0 } s with
      openInodes := s.openInodes.erase p
      kern := { k with pool := s.kern.pool } }, ?_, ?_, rfl, rfl⟩
    · rw [hp]
      exact hk
    · rw [inodeClose_last hc, bind_eq (listRemove_linked hl 0)]
      exact liftKern_eq ((withKernelPool_ok _ _ _ _).mpr ⟨k, hk, rfl⟩)
  · left
    refine ⟨?_, hl⟩
    rw [inodeClose_last hc]
    refine bind_error ?_ _
    unfold listRemove
    rw [if_neg (by simpa [setInode] using hl)]

theorem inodeClose_user (hp : p.pool = .user) (hc : (s.inodes p).iOpenCnts = 1) (hl : (s.inodes p).inodeTag = ⟨.linked, .linked⟩) :
    inodeClose p s = .error .assertion := by
  rw [inodeClose_last hc, bind_eq (listRemove_linked hl 0)]
  unfold liftKern zoom withKernelPool sysFree
  simp [hp]

end

/-- Every cached inode is in the kernel heap, and whichever task closes it last frees it there. -/
structure InKernelHeap (pool : ℕ → Pool) (s : Fs) : Prop where
  allocated : ∀ p ∈ s.openInodes, p.pool = .kernel
  freed : ∀ task, ∀ p ∈ s.openInodes, (s.inodes p).iOpenCnts = 1 → FreedInItsPool p (onTask pool task s)

/-- In every run of calls from the opening of the root directory on, in which no user process makes a file. -/
theorem cached_inodes_in_kernel_heap (K : Kernel) (pool : ℕ → Pool) (s0 s1 s : Fs) (handles : List Dir) (h0 : s0.openInodes = [])
    (hroot : openRootDir K s0 = .ok ((), s1)) (h : FsRun K pool (NoUserFile K) s1 s handles) : InKernelHeap pool s := by
  have hempty : KernelCached s0.kern.pool s0 := by
    refine ⟨rfl, fun p hp => ?_⟩
    rw [h0] at hp
    cases hp
  have hopened : KernelCached s0.kern.pool s1 := KeepsKernel.openRootDir K s0 hempty () s1 hroot
  have hkernel := h.cached hopened.kernel
  exact ⟨hkernel, fun task p hp hc => inodeClose_kernel (hkernel p hp) hc⟩

/-- The disk of `oneFile` with its root directory, before `open_root_dir`. -/
def unmounted : Fs :=
  { oneFile with
    kern := { oneFile.kern with disk := blit oneFile.kern.disk (inodeAddr smallPartition 0) (wordBytes (oneFile.inodes oneFile.rootDir).pureWords) inodeSize }
    openInodes := [] }

/-- The first task is a kernel thread, the others are user processes. -/
def oneThread (task : ℕ) : Pool := if task = 0 then .kernel else .user

theorem cached_inodes_in_kernel_heap_shared : ∃ s1 s, openRootDir smallPartition.kernel unmounted = .ok ((), s1) ∧
    FsRun smallPartition.kernel oneThread (NoUserFile smallPartition.kernel) s1 s [] ∧ s.openInodes.length = 2 ∧
    (∃ p ∈ s.openInodes, (s.inodes p).iOpenCnts = 2) ∧ InKernelHeap oneThread s := by
  obtain ⟨_, s1, hroot, hs1⟩ := runs_of_runsTo (m := openRootDir smallPartition.kernel) (s := unmounted)
    (p := fun _ s => runsTo ((FsCall.sysOpen ⟨0, false⟩ [slash, 103] 6).run smallPartition.kernel 0 []) (onTask oneThread 0 s)
      fun hs s => decide (hs = []) && runsTo ((FsCall.sysOpen ⟨0, false⟩ [slash, 103] 0).run smallPartition.kernel 1 []) (onTask oneThread 1 s)
        fun hs s => decide (hs = []) && decide (s.openInodes.length = 2) && s.openInodes.any fun p => decide ((s.inodes p).iOpenCnts = 2))
    (by decide +kernel)
  obtain ⟨hs, s2, hrun2, hs2⟩ := runs_of_runsTo hs1
  simp only [Bool.and_eq_true, decide_eq_true_eq] at hs2
  obtain ⟨rfl, hs2⟩ := hs2
  obtain ⟨hs', s, hrun, hs⟩ := runs_of_runsTo hs2
  simp only [Bool.and_eq_true, decide_eq_true_eq, List.any_eq_true] at hs
  obtain ⟨⟨rfl, hlen⟩, htwice⟩ := hs
  have hreach : FsRun smallPartition.kernel oneThread (NoUserFile smallPartition.kernel) s1 s [] := by
    refine .step (c := .sysOpen ⟨0, false⟩ [slash, 103] 0) (.step (c := .sysOpen ⟨0, false⟩ [slash, 103] 6) .init trivial ?_ hrun2) trivial ?_ hrun
    · intro hu
      cases hu
    · intro _ hc
      cases hc
  exact ⟨s1, s, hroot, hreach, hlen, htwice, cached_inodes_in_kernel_heap _ _ unmounted s1 s [] rfl hroot hreach⟩

/-- A user process creates `/g`: the inode is in its own heap, and the last close stops the machine. -/
theorem cached_inode_in_user_heap : unmounted.openInodes = [] ∧ ∃ s1 s p, openRootDir smallPartition.kernel unmounted = .ok ((), s1) ∧
    FsRun smallPartition.kernel oneThread (fun _ _ => True) s1 s [] ∧ p ∈ s.openInodes ∧ p.pool = .user ∧ ¬ InKernelHeap oneThread s ∧
    inodeClose p (onTask oneThread 1 s) = .error .assertion := by
  obtain ⟨_, s1, hroot, hs1⟩ := runs_of_runsTo (m := openRootDir smallPartition.kernel) (s := unmounted)
    (p := fun _ s => runsTo ((FsCall.sysOpen ⟨0, false⟩ [slash, 103] 6).run smallPartition.kernel 1 []) (onTask oneThread 1 s)
      fun hs s => decide (hs = []) && s.openInodes.any fun p => decide (p.pool = .user) && decide ((s.inodes p).iOpenCnts = 1) &&
        decide ((s.inodes p).inodeTag = ⟨.linked, .linked⟩)) (by decide +kernel)
  obtain ⟨hs, s, hrun, hs2⟩ := runs_of_runsTo hs1
  simp only [Bool.and_eq_true, decide_eq_true_eq, List.any_eq_true] at hs2
  obtain ⟨rfl, p, hmem, ⟨hp, hc⟩, hl⟩ := hs2
  refine ⟨rfl, s1, s, p, hroot, ?_, hmem, hp, fun h => ?_, inodeClose_user hp hc hl⟩
  · exact .step (c := .sysOpen ⟨0, false⟩ [slash, 103] 6) .init trivial trivial hrun
  · have hk := h.allocated p hmem
    rw [hp] at hk
    cases hk

end ElephantOS
