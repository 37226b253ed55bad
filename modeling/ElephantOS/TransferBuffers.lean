import ElephantOS.FileLimits
import ElephantOS.DescriptorCalls

namespace ElephantOS

open ByteMemory HaltingState

theorem Leaves.assert {σ τ : Type} {view : σ → τ} (c : Prop) [Decidable c] :
    Leaves view (assert c : Exec Halt σ Unit) fun _ => True := by
  intro s u s' h
  obtain ⟨-, rfl⟩ := (assert_ok c s s' u).mp h
  exact ⟨rfl, trivial⟩

theorem Leaves.bound {σ τ : Type} {view : σ → τ} (c : Prop) [Decidable c] :
    Leaves view (bound c : Exec Halt σ Unit) fun _ => True := by
  intro s u s' h
  obtain ⟨-, rfl⟩ := (bound_ok c s s' u).mp h
  exact ⟨rfl, trivial⟩

abbrev Within {α : Type} (m : KernM α) (Q : α → Prop) : Prop := Leaves Kern.overrun m Q

namespace Within

variable (K : Kernel)

theorem ideRead {lba secCnt : ℕ} {buf : Buffer} (h : secCnt * 512 ≤ buf.len) :
    Within (ideRead lba buf secCnt) fun b => b.len = buf.len := by
  intro k b k' hk
  unfold ElephantOS.ideRead at hk
  have hlen : ¬ buf.len < secCnt * 512 := by omega
  split_ifs at hk
  simp only [Except.ok.injEq, Prod.mk.injEq] at hk
  obtain ⟨rfl, rfl⟩ := hk
  exact ⟨rfl, rfl⟩

theorem ideWrite (lba : ℕ) (bytes : Memory) (secCnt : ℕ) : Within (ideWrite lba bytes secCnt) fun _ => True := by
  intro k u k' h
  obtain ⟨-, rfl⟩ := (ideWrite_ok lba bytes secCnt u k k').mp h
  exact ⟨rfl, trivial⟩

theorem readTable (lba : ℕ) (all : ℕ → ℕ) : Within (readTable lba all) fun _ => True := by
  intro k a k' h
  obtain ⟨-, rfl, -⟩ := (readTable_ok lba all a k k').mp h
  exact ⟨rfl, trivial⟩

theorem sysMalloc (size : ℕ) : Within (sysMalloc size) fun r => ∀ b, r = some b → b.len = size := by
  intro k r k' h
  unfold ElephantOS.sysMalloc at h
  dsimp only at h
  split_ifs at h
  all_goals
    simp only [Except.ok.injEq, Prod.mk.injEq] at h
    obtain ⟨rfl, rfl⟩ := h
  · exact ⟨rfl, fun b hb => by cases hb; rfl⟩
  · exact ⟨rfl, fun b hb => nomatch hb⟩

theorem sysFree (p : Ptr) : Within (sysFree p) fun _ => True := by
  intro k u k' h
  unfold ElephantOS.sysFree at h
  split_ifs at h
  simp only [Except.ok.injEq, Prod.mk.injEq, true_and] at h
  subst h
  exact ⟨rfl, trivial⟩

theorem blockBitmapAlloc : Within (blockBitmapAlloc K) fun r => r ≠ none := by
  intro k r k' h
  obtain ⟨_, -, -, -, rfl, rfl⟩ := blockBitmapAlloc_ok h
  exact ⟨rfl, Option.some_ne_none _⟩

theorem inodeBitmapAlloc : Within inodeBitmapAlloc fun _ => True := by
  intro k r k' h
  obtain ⟨_, -, -, -, -, rfl⟩ := inodeBitmapAlloc_ok h
  exact ⟨rfl, trivial⟩

theorem bitmapSync (i : ℕ) (t : BitmapType) : Within (bitmapSync K i t) fun _ => True := by
  intro k u k' h
  cases t with
  | inodeBitmap => exact ideWrite _ _ _ k u k' h
  | blockBitmap => exact ideWrite _ _ _ k u k' h

theorem blockBitmapSet (i : ℕ) (value : Bool) : Within (blockBitmapSet i value) fun _ => True :=
  Leaves.modify fun _ => rfl

theorem inodeBitmapSet (i : ℕ) (value : Bool) : Within (inodeBitmapSet i value) fun _ => True :=
  Leaves.modify fun _ => rfl

theorem withKernelPool {α : Type} {m : KernM α} {Q : α → Prop} (h : Within m Q) : Within (withKernelPool m) Q := by
  intro k a k' hk
  obtain ⟨k1, h1, rfl⟩ := (withKernelPool_ok m k k' a).mp hk
  exact h { k with pool := .kernel } a k1 h1

theorem inodeLocate (part : Partition) (n : ℕ) : Within (inodeLocate part n) fun pos => pos = inodePosition part n := by
  apply Leaves.bind (Leaves.assert _)
  intro _ _
  exact Leaves.pure rfl

theorem inodeReplace {pos : InodePosition} {bytes : Memory} {io : Buffer} (h : (if pos.twoSec then 2 else 1) * 512 ≤ io.len) :
    Within (inodeReplace pos bytes io) fun _ => True := by
  apply Leaves.bind (ideRead h)
  intro _ _
  exact ideWrite _ _ _

theorem twoSectors {pos : InodePosition} {io : Buffer} (h : 1024 ≤ io.len) : (if pos.twoSec then 2 else 1) * 512 ≤ io.len := by
  split_ifs <;> omega

theorem inodeSync {inode : Inode} {io : Buffer} (h : 1024 ≤ io.len) : Within (inodeSync K inode io) fun _ => True := by
  apply Leaves.bind (inodeLocate _ _)
  intro _ _
  apply Leaves.bind (Leaves.assert _)
  intro _ _
  exact inodeReplace (twoSectors h)

theorem inodeDelete {n : ℕ} {io : Buffer} (h : 1024 ≤ io.len) : Within (inodeDelete K n io) fun _ => True := by
  apply Leaves.bind (Leaves.assert _)
  intro _ _
  apply Leaves.bind (inodeLocate _ _)
  intro _ _
  apply Leaves.bind (Leaves.assert _)
  intro _ _
  exact inodeReplace (twoSectors h)

theorem allDirBlocks (inode : Inode) : Within (allDirBlocks inode) fun _ => True := by
  unfold ElephantOS.allDirBlocks
  split_ifs
  · exact readTable _ _
  · exact Leaves.pure trivial

theorem searchBlocks (blocks : ℕ → ℕ) (name : Name) (more idx : ℕ) {buf : Buffer} (h : 512 ≤ buf.len) :
    Within (searchBlocks K blocks name more idx buf) fun _ => True := by
  induction more generalizing idx buf with
  | zero => exact Leaves.pure trivial
  | succ more ih =>
    unfold ElephantOS.searchBlocks
    split_ifs
    · exact ih _ h
    · apply Leaves.bind (ideRead (by omega))
      intro b hb
      split
      · exact Leaves.pure trivial
      · apply ih
        dsimp only
        omega

theorem searchDirEntry (inode : Inode) (name : Name) : Within (searchDirEntry K inode name) fun _ => True := by
  apply Leaves.bind (sysMalloc _)
  intro all _
  cases all with
  | none => exact Leaves.pure trivial
  | some all =>
    apply Leaves.bind (allDirBlocks _)
    intro blocks _
    apply Leaves.bind (sysMalloc _)
    intro buf hbuf
    cases buf with
    | none => exact Leaves.halt _
    | some buf =>
      have hlen := hbuf buf rfl
      apply Leaves.bind (searchBlocks K _ _ _ _ (by omega))
      intro _ _
      apply Leaves.bind (sysFree _)
      intro _ _
      apply Leaves.bind (sysFree _)
      intro _ _
      exact Leaves.pure trivial

theorem newDirBlock (idx : ℕ) (inode : Inode) (all : ℕ → ℕ) : Within (newDirBlock K idx inode all) fun _ => True := by
  apply Leaves.bind (blockBitmapAlloc K)
  intro r _
  cases r with
  | none => exact Leaves.pure trivial
  | some lba =>
    apply Leaves.bind (Leaves.assert _)
    intro _ _
    apply Leaves.bind (bitmapSync K _ _)
    intro _ _
    split_ifs
    · exact Leaves.pure trivial
    · apply Leaves.bind (blockBitmapAlloc K)
      intro r _
      cases r with
      | none =>
        apply Leaves.bind (blockBitmapSet _ _)
        intro _ _
        exact Leaves.pure trivial
      | some lba' =>
        apply Leaves.bind (Leaves.assert _)
        intro _ _
        apply Leaves.bind (bitmapSync K _ _)
        intro _ _
        apply Leaves.bind (ideWrite _ _ _)
        intro _ _
        exact Leaves.pure trivial
    · apply Leaves.bind (ideWrite _ _ _)
      intro _ _
      exact Leaves.pure trivial

theorem syncBlocks (e : DirEntry) (more idx : ℕ) (inode : Inode) (all : ℕ → ℕ) {io : Buffer} (h : 512 ≤ io.len) :
    Within (syncBlocks K e more idx inode all io) fun _ => True := by
  induction more generalizing idx io with
  | zero => exact Leaves.pure trivial
  | succ more ih =>
    unfold ElephantOS.syncBlocks
    split_ifs
    · apply Leaves.bind (newDirBlock K idx inode all)
      rintro ⟨ok, inode', all'⟩ _
      dsimp only
      split_ifs
      · exact Leaves.pure trivial
      · apply Leaves.bind (ideWrite _ _ _)
        intro _ _
        exact Leaves.pure trivial
    · apply Leaves.bind (ideRead (by omega))
      intro b hb
      split
      · apply Leaves.bind (ideWrite _ _ _)
        intro _ _
        exact Leaves.pure trivial
      · exact ih _ (by omega)

theorem syncDirEntry (inode : Inode) (e : DirEntry) {io : Buffer} (h : 512 ≤ io.len) :
    Within (syncDirEntry K inode e io) fun _ => True := by
  apply Leaves.bind (Leaves.assert _)
  intro _ _
  exact syncBlocks K e _ _ _ _ h

theorem scanBlock (bytes : Memory) (n more i : ℕ) (scan : BlockScan) : Within (scanBlock bytes n more i scan) fun _ => True := by
  induction more generalizing i scan with
  | zero => exact Leaves.pure trivial
  | succ more ih =>
    unfold ElephantOS.scanBlock
    dsimp only
    split_ifs
    · exact ih _ _
    · exact ih _ _
    · exact ih _ _
    · apply Leaves.bind (Leaves.assert _)
      intro _ _
      exact ih _ _
    · exact ih _ _

theorem eraseEntry (idx lba i : ℕ) (bytes : Memory) (scan : BlockScan) (inode : Inode) :
    Within (eraseEntry K idx lba i bytes scan inode) fun _ => True := by
  unfold ElephantOS.eraseEntry freeDirBlock
  split_ifs
  · apply Leaves.bind (blockBitmapSet _ _)
    intro _ _
    apply Leaves.bind (bitmapSync K _ _)
    intro _ _
    exact Leaves.pure trivial
  · apply Leaves.bind (blockBitmapSet _ _)
    intro _ _
    apply Leaves.bind (bitmapSync K _ _)
    intro _ _
    exact Leaves.halt _
  · apply Leaves.bind (ideWrite _ _ _)
    intro _ _
    exact Leaves.pure trivial

theorem deleteBlocks (n : ℕ) (inode : Inode) (all : ℕ → ℕ) (more idx : ℕ) {io : Buffer} (h : 1024 ≤ io.len) :
    Within (deleteBlocks K n inode all more idx io) fun _ => True := by
  induction more generalizing idx io with
  | zero => exact Leaves.pure trivial
  | succ more ih =>
    unfold ElephantOS.deleteBlocks
    split_ifs
    · exact ih _ h
    · apply Leaves.bind (ideRead (by dsimp only; omega))
      intro b hb
      dsimp only at hb
      apply Leaves.bind (scanBlock _ _ _ _ _)
      intro scan _
      split
      · exact ih _ (by omega)
      · apply Leaves.bind (Leaves.assert _)
        intro _ _
        apply Leaves.bind (eraseEntry K _ _ _ _ _ _)
        intro inode' _
        apply Leaves.bind (Leaves.assert _)
        intro _ _
        apply Leaves.bind (inodeSync K (by dsimp only; omega))
        intro _ _
        exact Leaves.pure trivial

theorem deleteDirEntry (inode : Inode) (n : ℕ) {io : Buffer} (h : 1024 ≤ io.len) :
    Within (deleteDirEntry K inode n io) fun _ => True := by
  apply Leaves.bind (allDirBlocks _)
  intro _ _
  exact deleteBlocks K n inode _ _ _ h

theorem freeBlock (lba : ℕ) : Within (freeBlock K lba) fun _ => True := by
  apply Leaves.bind (Leaves.assert _)
  intro _ _
  apply Leaves.bind (blockBitmapSet _ _)
  intro _ _
  exact bitmapSync K _ _

theorem freeBlocks (all : ℕ → ℕ) (more idx : ℕ) : Within (freeBlocks K all more idx) fun _ => True := by
  induction more generalizing idx with
  | zero => exact Leaves.pure trivial
  | succ more ih =>
    unfold ElephantOS.freeBlocks
    split_ifs
    · apply Leaves.bind (freeBlock K _)
      intro _ _
      exact ih _
    · exact ih _

theorem releaseBlocks (inode : Inode) : Within (releaseBlocks K inode) fun _ => True := by
  unfold ElephantOS.releaseBlocks
  apply Leaves.bind (allDirBlocks _)
  intro all _
  split_ifs
  · apply Leaves.bind (freeBlock K _)
    intro _ _
    exact freeBlocks K _ _ _
  · exact freeBlocks K _ _ _

end Within

/-- `Within` for a call of the file system. -/
abbrev FsWithin {α : Type} (m : FsM α) : Prop := Leaves (fun s : Fs => s.kern.overrun) m fun _ => True

namespace FsWithin

variable (K : Kernel)

theorem liftKern {α : Type} {m : KernM α} {Q : α → Prop} (h : Within m Q) :
    Leaves (fun s : Fs => s.kern.overrun) (liftKern m) Q := by
  intro s a s' hs
  obtain ⟨k, hk, rfl⟩ := (liftKern_ok m s s' a).mp hs
  exact h s.kern a k hk

theorem listPush (p : Ptr) : FsWithin (listPush p) := by
  intro s u s' h
  unfold ElephantOS.listPush at h
  split_ifs at h
  cases h
  exact ⟨rfl, trivial⟩

theorem listRemove (p : Ptr) : FsWithin (listRemove p) := by
  intro s u s' h
  unfold ElephantOS.listRemove at h
  split_ifs at h
  cases h
  exact ⟨rfl, trivial⟩

theorem inodeOpen (n : ℕ) : FsWithin (inodeOpen K n) := by
  unfold ElephantOS.inodeOpen
  apply Leaves.bind Leaves.get
  intro s _
  split
  · refine Leaves.modifying ?_
    exact Leaves.pure trivial
  · apply Leaves.bind (liftKern (Within.inodeLocate _ _))
    intro pos _
    apply Leaves.bind (liftKern (Within.withKernelPool (Within.sysMalloc _)))
    intro found _
    apply Leaves.bind (liftKern (Within.sysMalloc _))
    intro buf hbuf
    cases buf with
    | none => exact Leaves.halt _
    | some buf =>
      have hlen : (if pos.twoSec then 2 else 1) * 512 ≤ buf.len := by
        rw [hbuf buf rfl]
        split_ifs <;> omega
      apply Leaves.bind (liftKern (Within.ideRead hlen))
      intro _ _
      cases found with
      | none => exact Leaves.halt _
      | some found =>
        refine Leaves.modifying ?_
        apply Leaves.bind (listPush _)
        intro _ _
        refine Leaves.modifying ?_
        apply Leaves.bind (liftKern (Within.sysFree _))
        intro _ _
        exact Leaves.pure trivial

theorem inodeClose (p : Ptr) : FsWithin (inodeClose p) := by
  unfold ElephantOS.inodeClose
  refine Leaves.modifying ?_
  apply Leaves.bind Leaves.get
  intro s _
  split_ifs
  · apply Leaves.bind (listRemove p)
    intro _ _
    exact liftKern (Within.withKernelPool (Within.sysFree p))
  · exact Leaves.pure trivial

theorem dirOpen (n : ℕ) : FsWithin (dirOpen K n) := by
  apply Leaves.bind (liftKern (Within.sysMalloc _))
  intro pdir _
  apply Leaves.bind (inodeOpen K n)
  intro inode _
  cases pdir with
  | none => exact Leaves.halt _
  | some pdir => exact Leaves.pure trivial

theorem dirClose (dir : Dir) : FsWithin (dirClose dir) := by
  cases dir with
  | root => exact Leaves.pure trivial
  | heap ptr inode =>
    apply Leaves.bind (inodeClose inode)
    intro _ _
    exact liftKern (Within.sysFree ptr)

theorem parseName (path : Path) : FsWithin (parseName path) := by
  apply Leaves.bind (Leaves.bound _)
  intro _ _
  exact Leaves.pure trivial

theorem depthFrom (fuel depth : ℕ) (name : Name) (p : Option Path) : FsWithin (depthFrom fuel depth name p) := by
  induction fuel generalizing depth name p with
  | zero => exact Leaves.halt _
  | succ fuel ih =>
    unfold ElephantOS.depthFrom
    split_ifs
    · exact Leaves.pure trivial
    · cases p with
      | none => exact Leaves.pure trivial
      | some p =>
        apply Leaves.bind (parseName p)
        intro _ _
        exact ih _ _ _

theorem pathDepthCnt (junk : Junk) (path : Path) : FsWithin (pathDepthCnt junk path) := by
  apply Leaves.bind (parseName path)
  rintro ⟨name, p⟩ _
  dsimp only
  split_ifs
  · exact Leaves.pure trivial
  · exact Leaves.pure trivial
  · exact depthFrom _ _ _ _

theorem searchFile (junk : Junk) (path : Path) : FsWithin (searchFile K junk path) := by
  intro s r s' hs
  have hsteps : SearchSteps K fun _ t => t.kern.overrun = s.kern.overrun := by
    refine ⟨?_, ?_, ?_⟩
    · intro n t t' d ht hopen
      exact (dirOpen K n t d t' hopen).1.trans ht
    · intro d t t' u ht hclose
      exact (dirClose d t u t' hclose).1.trans ht
    · intro d inode name t t' found ht hlook
      exact (liftKern (Within.searchDirEntry K inode name) t found t' hlook).1.trans ht
  exact ⟨hsteps.searchFile rfl hs, trivial⟩

theorem onDirInode {dir : Dir} {m : Inode → KernM (Bool × Inode)} (hm : ∀ inode, Within (m inode) fun _ => True) :
    FsWithin (onDirInode dir m) := by
  apply Leaves.bind Leaves.get
  intro s _
  apply Leaves.bind (liftKern (hm _))
  rintro ⟨ok, inode⟩ _
  refine Leaves.modifying ?_
  exact Leaves.pure trivial

theorem createDirEntry (name : Name) (n : ℕ) (t : FileType) : FsWithin (createDirEntry name n t) := by
  apply Leaves.bind (Leaves.assert _)
  intro _ _
  exact Leaves.pure trivial

theorem storeNewFile (dir : Dir) (p : Ptr) (n : ℕ) {io : Buffer} (h : 1024 ≤ io.len) : FsWithin (storeNewFile K dir p n io) := by
  unfold ElephantOS.storeNewFile
  dsimp only
  apply Leaves.bind Leaves.get
  intro s _
  refine Leaves.bind (liftKern (Within.inodeSync K ?_)) fun _ _ => ?_
  · exact h
  refine Leaves.bind (liftKern (Within.inodeSync K ?_)) fun _ _ => ?_
  · exact h
  apply Leaves.bind (liftKern (Within.bitmapSync K _ _))
  intro _ _
  apply Leaves.bind (listPush _)
  intro _ _
  refine Leaves.modifying ?_
  exact liftKern (Within.sysFree _)

theorem pcbFdInstall (task k : ℕ) : FsWithin (pcbFdInstall task k) := by
  apply Leaves.bind Leaves.get
  intro s _
  split
  · exact Leaves.pure trivial
  · refine Leaves.modifying ?_
    exact Leaves.pure trivial

theorem installNewFile (task : ℕ) (dir : Dir) (name : Name) (flag n : ℕ) (p : Ptr) {io : Buffer} (h : 1024 ≤ io.len) :
    FsWithin (installNewFile K task dir name flag n p io) := by
  unfold ElephantOS.installNewFile
  refine Leaves.modifying ?_
  apply Leaves.bind Leaves.get
  intro s _
  split
  · apply Leaves.bind (liftKern (Within.sysFree _))
    intro _ _
    apply Leaves.bind (liftKern (Within.inodeBitmapSet _ _))
    intro _ _
    apply Leaves.bind (liftKern (Within.sysFree _))
    intro _ _
    exact Leaves.pure trivial
  · refine Leaves.modifying ?_
    refine Leaves.modifying ?_
    apply Leaves.bind (createDirEntry _ _ _)
    intro e _
    apply Leaves.bind (onDirInode fun inode => Within.syncDirEntry K inode e (by omega))
    intro ok _
    cases ok with
    | false =>
      refine Leaves.modifying ?_
      apply Leaves.bind (liftKern (Within.sysFree _))
      intro _ _
      apply Leaves.bind (liftKern (Within.inodeBitmapSet _ _))
      intro _ _
      apply Leaves.bind (liftKern (Within.sysFree _))
      intro _ _
      exact Leaves.pure trivial
    | true =>
      apply Leaves.bind (storeNewFile K _ _ _ h)
      intro _ _
      exact pcbFdInstall _ _

theorem fileCreate (task : ℕ) (dir : Dir) (name : Name) (flag : ℕ) : FsWithin (fileCreate K task dir name flag) := by
  apply Leaves.bind (liftKern (Within.sysMalloc 1024))
  intro io hio
  cases io with
  | none => exact Leaves.pure trivial
  | some io =>
    have hlen := hio io rfl
    apply Leaves.bind (liftKern Within.inodeBitmapAlloc)
    intro n _
    cases n with
    | none => exact Leaves.pure trivial
    | some n =>
      apply Leaves.bind (liftKern (Within.sysMalloc _))
      intro found _
      cases found with
      | none =>
        apply Leaves.bind (liftKern (Within.inodeBitmapSet _ _))
        intro _ _
        apply Leaves.bind (liftKern (Within.sysFree _))
        intro _ _
        exact Leaves.pure trivial
      | some found => exact installNewFile K _ _ _ _ _ _ (by omega)

theorem inodeRelease (n : ℕ) : FsWithin (inodeRelease K n) := by
  apply Leaves.bind (inodeOpen K n)
  intro p _
  apply Leaves.bind Leaves.get
  intro s _
  apply Leaves.bind (Leaves.assert _)
  intro _ _
  apply Leaves.bind (liftKern (Within.releaseBlocks K _))
  intro _ _
  apply Leaves.bind (liftKern (Within.inodeBitmapSet _ _))
  intro _ _
  apply Leaves.bind (liftKern (Within.bitmapSync K _ _))
  intro _ _
  apply Leaves.bind (liftKern (Within.sysMalloc 1024))
  intro io hio
  cases io with
  | none => exact Leaves.halt _
  | some io =>
    have hlen := hio io rfl
    apply Leaves.bind (liftKern (Within.inodeDelete K (by omega)))
    intro _ _
    apply Leaves.bind (liftKern (Within.sysFree _))
    intro _ _
    exact inodeClose p

theorem dirRemove (parent child : Dir) : FsWithin (dirRemove K parent child) := by
  apply Leaves.bind Leaves.get
  intro s _
  apply Leaves.bind (Leaves.assert _)
  intro _ _
  apply Leaves.bind (liftKern (Within.sysMalloc 1024))
  intro io hio
  cases io with
  | none => exact Leaves.pure trivial
  | some io =>
    have hlen := hio io rfl
    apply Leaves.bind (onDirInode fun inode => Within.deleteDirEntry K inode _ (by omega))
    intro _ _
    apply Leaves.bind Leaves.get
    intro s _
    apply Leaves.bind (inodeRelease K _)
    intro _ _
    apply Leaves.bind (liftKern (Within.sysFree _))
    intro _ _
    exact Leaves.pure trivial

theorem closing {α : Type} (dir : Dir) (a : α) : FsWithin (do ElephantOS.dirClose dir; return a) := by
  apply Leaves.bind (dirClose dir)
  intro _ _
  exact Leaves.pure trivial

theorem sysUnlink (junk : Junk) (path : Path) : FsWithin (sysUnlink K junk path) := by
  apply Leaves.bind (Leaves.assert _)
  intro _ _
  apply Leaves.bind (searchFile K junk path)
  rintro ⟨n, record⟩ _
  apply Leaves.bind (Leaves.assert _)
  intro _ _
  cases n with
  | none => exact closing _ _
  | some n =>
    dsimp only
    split_ifs
    · exact closing _ _
    · apply Leaves.bind Leaves.get
      intro s _
      split_ifs
      · exact closing _ _
      · apply Leaves.bind (liftKern (Within.sysMalloc 1024))
        intro io hio
        cases io with
        | none => exact closing _ _
        | some io =>
          have hlen := hio io rfl
          apply Leaves.bind (onDirInode fun inode => Within.deleteDirEntry K inode _ (by omega))
          intro _ _
          apply Leaves.bind (inodeRelease K n)
          intro _ _
          apply Leaves.bind (liftKern (Within.sysFree _))
          intro _ _
          exact closing _ _

theorem sysRmdir (junk : Junk) (path : Path) : FsWithin (sysRmdir K junk path) := by
  apply Leaves.bind (searchFile K junk path)
  rintro ⟨n, record⟩ _
  apply Leaves.bind (Leaves.assert _)
  intro _ _
  cases n with
  | none => exact closing _ _
  | some n =>
    dsimp only
    split_ifs
    · exact closing _ _
    · apply Leaves.bind (dirOpen K n)
      intro dir _
      apply Leaves.bind Leaves.get
      intro s _
      split_ifs
      · apply Leaves.bind (dirRemove K _ _)
        intro _ _
        apply Leaves.bind (dirClose dir)
        intro _ _
        exact closing _ _
      · rw [pure_bind]
        apply Leaves.bind (dirClose dir)
        intro _ _
        exact closing _ _

theorem makeDir (dir : Dir) (name : Name) (n lba : ℕ) {io : Buffer} (h : 1024 ≤ io.len) : FsWithin (makeDir K dir name n lba io) := by
  apply Leaves.bind (Leaves.assert _)
  intro _ _
  apply Leaves.bind (liftKern (Within.bitmapSync K _ _))
  intro _ _
  apply Leaves.bind Leaves.get
  intro s _
  apply Leaves.bind (liftKern (Within.ideWrite _ _ _))
  intro _ _
  apply Leaves.bind (createDirEntry _ _ _)
  intro e _
  apply Leaves.bind (onDirInode fun inode => Within.syncDirEntry K inode e (by dsimp only; omega))
  intro ok _
  cases ok with
  | false => exact Leaves.pure trivial
  | true =>
    apply Leaves.bind Leaves.get
    intro s _
    refine Leaves.bind (liftKern (Within.inodeSync K ?_)) fun _ _ => ?_
    · exact h
    refine Leaves.bind (liftKern (Within.inodeSync K ?_)) fun _ _ => ?_
    · exact h
    apply Leaves.bind (liftKern (Within.bitmapSync K _ _))
    intro _ _
    exact Leaves.pure trivial

theorem mkdirFail (dir : Dir) (io : Buffer) : FsWithin (mkdirFail dir io) := by
  apply Leaves.bind (dirClose dir)
  intro _ _
  apply Leaves.bind (liftKern (Within.sysFree _))
  intro _ _
  exact Leaves.pure trivial

theorem sysMkdir (junk : Junk) (path : Path) : FsWithin (sysMkdir K junk path) := by
  apply Leaves.bind (liftKern (Within.sysMalloc 1024))
  intro io hio
  cases io with
  | none => exact Leaves.pure trivial
  | some io =>
    have hlen := hio io rfl
    apply Leaves.bind (searchFile K junk path)
    rintro ⟨found, record⟩ _
    dsimp only
    split_ifs
    · exact mkdirFail _ _
    · apply Leaves.bind (pathDepthCnt junk _)
      intro d _
      apply Leaves.bind (pathDepthCnt junk _)
      intro d' _
      split_ifs
      · exact mkdirFail _ _
      · apply Leaves.bind (liftKern Within.inodeBitmapAlloc)
        intro n _
        cases n with
        | none => exact mkdirFail _ _
        | some n =>
          apply Leaves.bind (liftKern (Within.blockBitmapAlloc K))
          intro lba _
          cases lba with
          | none =>
            apply Leaves.bind (liftKern (Within.inodeBitmapSet _ _))
            intro _ _
            exact mkdirFail _ _
          | some lba =>
            dsimp only
            split
            · apply Leaves.bind (makeDir K _ _ _ _ (by omega))
              intro ok _
              cases ok with
              | false =>
                apply Leaves.bind (liftKern (Within.inodeBitmapSet _ _))
                intro _ _
                exact mkdirFail _ _
              | true =>
                apply Leaves.bind (liftKern (Within.sysFree _))
                intro _ _
                exact closing _ _
            · exact Leaves.halt _

end FsWithin

namespace Within

variable (K : Kernel)

theorem firstBlock (inode : Inode) : Within (firstBlock K inode) fun r => r.1 = true := by
  unfold ElephantOS.firstBlock
  split_ifs
  · apply Leaves.bind (blockBitmapAlloc K)
    intro r hr
    cases r with
    | none => exact absurd rfl hr
    | some lba =>
      apply Leaves.bind (Leaves.assert _)
      intro _ _
      apply Leaves.bind (bitmapSync K _ _)
      intro _ _
      exact Leaves.pure rfl
  · exact Leaves.pure rfl

theorem growLoop (direct : ℕ → Bool) (more idx : ℕ) (inode : Inode) (all : ℕ → ℕ) :
    Within (growLoop K direct more idx inode all) fun r => r.1 = true := by
  induction more generalizing idx inode all with
  | zero => exact Leaves.pure rfl
  | succ more ih =>
    unfold ElephantOS.growLoop
    apply Leaves.bind (blockBitmapAlloc K)
    intro r hr
    cases r with
    | none => exact absurd rfl hr
    | some lba =>
      apply Leaves.bind (Leaves.assert _)
      intro _ _
      apply Leaves.bind (bitmapSync K _ _)
      intro _ _
      exact ih _ _ _

theorem collectBlocks (has will : ℕ) (inode : Inode) : Within (collectBlocks K has will inode) fun r => r.1 = true := by
  unfold ElephantOS.collectBlocks
  split_ifs
  · exact Leaves.pure rfl
  · apply Leaves.bind (Leaves.assert _)
    intro _ _
    apply Leaves.bind (readTable _ _)
    intro _ _
    exact Leaves.pure rfl
  · apply Leaves.bind (Leaves.bound _)
    intro _ _
    apply Leaves.bind (Leaves.assert _)
    intro _ _
    exact growLoop K _ _ _ _ _
  · apply Leaves.bind (blockBitmapAlloc K)
    intro r hr
    cases r with
    | none => exact absurd rfl hr
    | some lba =>
      apply Leaves.bind (Leaves.assert _)
      intro _ _
      apply Leaves.bind (growLoop K _ _ _ _ _)
      rintro ⟨ok, inode', all'⟩ rfl
      apply Leaves.bind (ideWrite _ _ _)
      intro _ _
      exact Leaves.pure rfl
  · apply Leaves.bind (Leaves.assert _)
    intro _ _
    apply Leaves.bind (readTable _ _)
    intro _ _
    apply Leaves.bind (growLoop K _ _ _ _ _)
    rintro ⟨ok, inode', all'⟩ rfl
    apply Leaves.bind (ideWrite _ _ _)
    intro _ _
    exact Leaves.pure rfl

theorem loadSector (first : Bool) (lba : ℕ) {io : Buffer} (h : 512 ≤ io.len) :
    Within (loadSector first lba io) fun b => b.len = io.len := by
  unfold ElephantOS.loadSector
  dsimp only
  split_ifs
  · refine Leaves.mono (ideRead ?_) fun _ hb => hb
    dsimp only
    omega
  · exact Leaves.pure rfl

theorem writeLoop (blocks : ℕ → ℕ) (buf : Memory) (count fuel bw : ℕ) (first : Bool) {io : Buffer} (file : File) (inode : Inode)
    (h : 512 ≤ io.len) :
    Within (writeLoop blocks buf count fuel bw first io file inode) fun r => r.2.1.len = io.len := by
  induction fuel generalizing bw first io file inode with
  | zero => exact Leaves.pure rfl
  | succ fuel ih =>
    unfold ElephantOS.writeLoop
    split_ifs
    · apply Leaves.bind (Leaves.bound _)
      intro _ _
      apply Leaves.bind (loadSector _ _ h)
      intro b hb
      apply Leaves.bind (ideWrite _ _ _)
      intro _ _
      refine Leaves.mono (ih _ _ _ _ ?_) ?_
      · dsimp only
        omega
      · intro r hr
        exact hr.trans hb
    · exact Leaves.pure rfl

end Within

theorem inOneSector_iff (part : Partition) (n : ℕ) : InOneSector n ↔ (inodePosition part n).twoSec = false := by
  have hlt : n * inodeSize % 512 < 512 := Nat.mod_lt _ (by omega)
  have hsize : inodeSize = 76 := rfl
  simp only [InOneSector, inodePosition, decide_eq_false_iff_not]
  omega

theorem short_iff (part : Partition) {n len : ℕ} (hlen : len = 512) :
    decide (len < (if (inodePosition part n).twoSec then 2 else 1) * 512) = false ↔ InOneSector n := by
  rw [inOneSector_iff part, decide_eq_false_iff_not]
  cases (inodePosition part n).twoSec <;> simp [hlen]

theorem fileWrite_stages {K : Kernel} {file file' : File} {inode inode' : Inode} {buf : Memory} {count : ℕ} {ret : ℤ} {k k' : Kern}
    (h : fileWrite K file inode buf count k = .ok ((ret, file', inode'), k')) :
    (WriteRefused k inode count ∧ ret = -1 ∧ file' = file ∧ inode' = inode ∧ k'.overrun = k.overrun) ∨
      (¬ WriteRefused k inode count ∧ ∃ io k2, io.len = 512 ∧ k2.overrun = k.overrun ∧
        ∃ inode₁ k3, firstBlock K inode k2 = .ok ((true, inode₁), k3) ∧
        ∃ has will inode₂ blocks k4, collectBlocks K has will inode₁ k3 = .ok ((true, inode₂, blocks), k4) ∧
        ∃ n io' k5, writeLoop blocks buf count count 0 true io { file with fdPos := u32 (inode₂.iSize + 2 ^ 32 - 1) } inode₂ k4 =
          .ok ((n, io', file', inode'), k5) ∧
        ∃ k6, inodeSync K inode' io' k5 = .ok ((), k6) ∧ k'.overrun = k6.overrun) := by
  unfold fileWrite at h
  split_ifs at h with hsize
  · simp only [pure_ok, Prod.mk.injEq] at h
    obtain ⟨⟨rfl, rfl, rfl⟩, rfl⟩ := h
    exact .inl ⟨.inl hsize, rfl, rfl, rfl, rfl⟩
  rw [bind_ok] at h
  obtain ⟨io, k1, h1, h⟩ := h
  obtain ⟨ho1, hio⟩ := Within.sysMalloc _ k io k1 h1
  have hnext := (sysMalloc_ok h1).2.1
  have hgrant := (sysMalloc_ok h1).1.grant
  rcases sysMalloc_cases h1 with ⟨hg1, rfl, -⟩ | ⟨hg1, hsome, -⟩
  · simp only [pure_ok, Prod.mk.injEq] at h
    obtain ⟨⟨rfl, rfl, rfl⟩, rfl⟩ := h
    exact .inl ⟨.inr (.inl hg1), rfl, rfl, rfl, ho1⟩
  obtain ⟨io, rfl⟩ := Option.ne_none_iff_exists'.mp hsome
  rw [bind_ok] at h
  obtain ⟨all, k2, h2, h⟩ := h
  obtain ⟨ho2, -⟩ := Within.sysMalloc _ k1 all k2 h2
  rcases sysMalloc_cases h2 with ⟨hg2, rfl, -⟩ | ⟨hg2, hsome2, -⟩
  · simp only [pure_ok, Prod.mk.injEq] at h
    obtain ⟨⟨rfl, rfl, rfl⟩, rfl⟩ := h
    rw [hgrant, hnext] at hg2
    exact .inl ⟨.inr (.inr hg2), rfl, rfl, rfl, ho2.trans ho1⟩
  obtain ⟨all, rfl⟩ := Option.ne_none_iff_exists'.mp hsome2
  rw [hgrant, hnext] at hg2
  have hgo : ¬ WriteRefused k inode count := by
    rintro (hlarge | hg | hg)
    · exact hsize hlarge
    · rw [hg1] at hg
      cases hg
    · rw [hg2] at hg
      cases hg
  rw [bind_ok] at h
  obtain ⟨⟨ok, inode₁⟩, k3, h3, h⟩ := h
  obtain ⟨-, rfl⟩ := Within.firstBlock K inode k2 _ k3 h3
  simp only [Bool.not_true, Bool.false_eq_true, if_false, bind_ok, assert_ok] at h
  obtain ⟨_, _, ⟨-, rfl⟩, ⟨ok, inode₂, blocks⟩, k4, h4, h⟩ := h
  obtain ⟨-, rfl⟩ := Within.collectBlocks K _ _ _ _ _ _ h4
  simp only [Bool.not_true, Bool.false_eq_true, if_false, bind_ok, pure_ok, Prod.mk.injEq] at h
  obtain ⟨⟨n, io', file₃, inode₃⟩, k5, h5, _, k6, h6, _, k7, h7, _, k8, h8, ⟨-, rfl, rfl⟩, rfl⟩ := h
  refine .inr ⟨hgo, io, k2, hio io rfl, ho2.trans ho1, inode₁, k3, h3, _, _, inode₂, blocks, k4, h4, n, io', k5, h5, k6, h6, ?_⟩
  rw [(Within.sysFree _ _ _ _ h8).1, (Within.sysFree _ _ _ _ h7).1]

/-- The one buffer of a single sector that reaches `inode_sync` is that of `file_write`. -/
theorem fileWrite_transfers {K : Kernel} {file file' : File} {inode inode' : Inode} {buf : Memory} {count : ℕ} {ret : ℤ} {k k' : Kern}
    (h : fileWrite K file inode buf count k = .ok ((ret, file', inode'), k')) :
    (WriteRefused k inode count ∧ ret = -1 ∧ k'.overrun = k.overrun ∧ inode' = inode) ∨
      (¬ WriteRefused k inode count ∧ (k'.overrun = false ↔ k.overrun = false ∧ InOneSector (K.inodeNo inode.iNo)) ∧
        inode'.iNo = inode.iNo) := by
  rcases fileWrite_stages h with ⟨hgo, rfl, -, rfl, hsame⟩ | ⟨hgo, io, k2, hlen, ho2, inode₁, k3, h3, _, _, inode₂, blocks, k4, h4, n, io',
    k5, h5, k6, h6, ho6⟩
  · exact .inl ⟨hgo, rfl, hsame, rfl⟩
  have ho3 := (Within.firstBlock K inode k2 _ k3 h3).1
  have ho4 := (Within.collectBlocks K _ _ _ _ _ _ h4).1
  obtain ⟨ho5, hlen5⟩ := Within.writeLoop _ _ _ _ _ _ _ _ (by omega) _ _ _ h5
  have hn1 := ((firstBlock_gives K inode) _ _ _ h3).2.iNo
  have hn2 := ((collectBlocks_gives K _ _ _) _ _ _ h4).2.iNo
  have hn3 := ((writeLoop_gives _ _ _ _ _ _ _ _ _) _ _ _ h5).2.2.iNo
  dsimp only at hn1 hn2 hn3 hlen5
  have hn : inode'.iNo = inode.iNo := hn3.trans (hn2.trans hn1)
  refine .inr ⟨hgo, ?_, hn⟩
  rw [ho6, inodeSync_overrun h6, ho5, ho4, ho3, ho2, hn, Bool.or_eq_false_iff, short_iff K.toPartition (hlen5.trans hlen)]

theorem fileWrite_overrun {K : Kernel} {file file' : File} {inode inode' : Inode} {buf : Memory} {count : ℕ} {ret : ℤ} {k k' : Kern}
    (hk : k.overrun = false) (h : fileWrite K file inode buf count k = .ok ((ret, file', inode'), k')) :
    k'.overrun = false ↔ WriteRefused k inode count ∨ InOneSector (K.inodeNo inode.iNo) := by
  rcases fileWrite_transfers h with ⟨hgo, -, hsame, -⟩ | ⟨hgo, hiff, -⟩
  · exact iff_of_true (hsame.trans hk) (.inl hgo)
  · exact hiff.trans ⟨fun hor => .inr hor.2, fun hor => ⟨hk, hor.resolve_left hgo⟩⟩

/-- Every call that stores or clears an inode brings a buffer of two sectors, except `file_write`: there the transfer stays in the
buffer exactly if the slot it goes to lies in one sector. -/
theorem inode_transfers_fit (part : Partition) :
    (∀ task dir name flag, FsWithin (fileCreate part.kernel task dir name flag)) ∧
      (∀ junk path, FsWithin (sysMkdir part.kernel junk path)) ∧
      (∀ junk path, FsWithin (sysUnlink part.kernel junk path)) ∧
      (∀ junk path, FsWithin (sysRmdir part.kernel junk path)) ∧
      (∀ n, FsWithin (inodeRelease part.kernel n)) ∧
      ∀ file inode buf count k ret file' inode' k', k.overrun = false →
        fileWrite part.kernel file inode buf count k = .ok ((ret, file', inode'), k') →
        (k'.overrun = false ↔ WriteRefused k inode count ∨ InOneSector (inode.iNo % 256)) := by
  refine ⟨FsWithin.fileCreate _, FsWithin.sysMkdir _, FsWithin.sysUnlink _, FsWithin.sysRmdir _, FsWithin.inodeRelease _, ?_⟩
  intro file inode buf count k ret file' inode' k' hk h
  have hfits := fileWrite_overrun hk h
  rwa [show part.kernel.inodeNo inode.iNo = inode.iNo % 256 from rfl] at hfits

theorem mounted_write (n : ℕ) : ∃ ret file' inode' k', fileWrite (formattedPartition 63 4709).kernel ⟨0, 2, none⟩ (inodeInit n Inode.zero)
    zeros 1 Kern.mounted = .ok ((ret, file', inode'), k') := by
  have hneed : blocksNeeded (usedBlocks (inodeInit n Inode.zero)) (((inodeInit n Inode.zero).iSize + 1) / 512 + 1) = 1 := by
    simp [blocksNeeded, usedBlocks, inodeInit]
  have hfree : blocksNeeded (usedBlocks (inodeInit n Inode.zero)) (((inodeInit n Inode.zero).iSize + 1) / 512 + 1) ≤
      (freeBits (formattedPartition 63 4709) Kern.mounted.blockBitmap).card := by
    have hmany := mounted_free_many
    omega
  have hsize : (inodeInit n Inode.zero).iSize + 1 < 140 * 512 := by
    change 0 + 1 < 140 * 512
    omega
  obtain ⟨⟨ret, file', inode'⟩, k', h, -⟩ := fileWrite_runs (mounted_ready n) ⟨0, 2, none⟩ zeros hsize hfree
  exact ⟨ret, file', inode', k', h⟩

theorem inode_transfers_fit_five : ∃ ret file' inode' k', fileWrite (formattedPartition 63 4709).kernel ⟨0, 2, none⟩
    (inodeInit 5 Inode.zero) zeros 1 Kern.mounted = .ok ((ret, file', inode'), k') ∧ k'.overrun = false := by
  obtain ⟨ret, file', inode', k', h⟩ := mounted_write 5
  have hfits := (inode_transfers_fit (formattedPartition 63 4709)).2.2.2.2.2 _ _ _ _ _ _ _ _ _ rfl h
  exact ⟨ret, file', inode', k', h, hfits.mpr (.inr (show 5 * 76 % 512 + 76 ≤ 512 by decide))⟩

/-- The slot of inode 6 begins 456 bytes into its sector: the second sector is read past the end of the buffer. -/
theorem inode_six_overruns : ∃ ret file' inode' k', fileWrite (formattedPartition 63 4709).kernel ⟨0, 2, none⟩
    (inodeInit 6 Inode.zero) zeros 1 Kern.mounted = .ok ((ret, file', inode'), k') ∧ k'.overrun = true := by
  obtain ⟨ret, file', inode', k', h⟩ := mounted_write 6
  refine ⟨ret, file', inode', k', h, ?_⟩
  have hsame := fileWrite_overrun rfl h
  rw [← Bool.not_eq_false, hsame]
  rintro ((hlarge | hg | hg) | hone)
  · exact absurd hlarge (by decide)
  · cases hg
  · cases hg
  · exact absurd (show 6 * 76 % 512 + 76 ≤ 512 from hone) (by decide)

end ElephantOS
