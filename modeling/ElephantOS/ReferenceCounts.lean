import ElephantOS.DescriptorRuns
import ElephantOS.Syscalls

namespace ElephantOS

open ByteMemory HaltingState

def Moves {α : Type} (base pre : Multiset Ptr) (m : FsM α) (post : α → Multiset Ptr) : Prop :=
  ∀ s a s', Refs (pre + base) s → m s = .ok (a, s') → Refs (post a + base) s' ∧ Kept base s s'

namespace Moves

variable {α β : Type} {base pre mid : Multiset Ptr}

theorem pure {a : α} {post : α → Multiset Ptr} (h : post a = pre) : Moves base pre (Pure.pure a) post := by
  intro s b s' hr hs
  obtain ⟨rfl, rfl⟩ := (pure_ok _ _ _ _).mp hs
  rw [h]
  exact ⟨hr, Kept.refl base s⟩

theorem bind {m : FsM α} {f : α → FsM β} {mid : α → Multiset Ptr} {post : β → Multiset Ptr} (hm : Moves base pre m mid)
    (hf : ∀ a, Moves base (mid a) (f a) post) : Moves base pre (m >>= f) post := by
  intro s b s' hr hs
  obtain ⟨a, s1, h1, h2⟩ := (bind_ok m f s _).mp hs
  obtain ⟨hr1, hk1⟩ := hm s a s1 hr h1
  obtain ⟨hr2, hk2⟩ := hf a s1 b s' hr1 h2
  exact ⟨hr2, hk1.trans hk2⟩

theorem halt {e : Halt} {post : α → Multiset Ptr} : Moves base pre (HaltingState.halt e) post := by
  intro s a s' _ hs
  simp at hs

theorem get {f : Fs → FsM β} {post : β → Multiset Ptr} (hf : ∀ s, Moves base pre (f s) post) :
    Moves base pre (MonadState.get >>= f) post := by
  intro s b s' hr hs
  simp only [bind_ok, get_ok] at hs
  obtain ⟨_, _, ⟨rfl, rfl⟩, hs⟩ := hs
  exact hf s s b s' hr hs

theorem assert {c : Prop} [Decidable c] : Moves base pre (ElephantOS.assert c) fun _ => pre := by
  intro s a s' hr hs
  obtain ⟨-, rfl⟩ := (assert_ok c s s' a).mp hs
  exact ⟨hr, Kept.refl base s⟩

theorem liftKern {m : KernM α} (hm : Quiet m) : Moves base pre (ElephantOS.liftKern m) fun _ => pre := by
  intro s a s' hr hs
  obtain ⟨hr', hk⟩ := liftKern_refs hm hr hs
  exact ⟨hr', hk.mono fun p hp => Multiset.mem_add.mpr (.inr hp)⟩

theorem inodeOpen (K : Kernel) (n : ℕ) : Moves base pre (ElephantOS.inodeOpen K n) fun p => p ::ₘ pre := by
  intro s p s' hr hs
  obtain ⟨hr', hk⟩ := inodeOpen_refs hr hs
  rw [Multiset.cons_add]
  exact ⟨hr', hk.mono fun p hp => Multiset.mem_add.mpr (.inr hp)⟩

theorem inodeClose (p : Ptr) : Moves base (p ::ₘ pre) (ElephantOS.inodeClose p) fun _ => pre := by
  intro s a s' hr hs
  rw [Multiset.cons_add] at hr
  obtain ⟨hr', hk⟩ := inodeClose_refs hr hs
  exact ⟨hr', hk.mono fun p hp => Multiset.mem_cons_of_mem (Multiset.mem_add.mpr (.inr hp))⟩

theorem dirOpen (K : Kernel) (n : ℕ) : Moves base pre (ElephantOS.dirOpen K n) fun d => dirRefs d + pre := by
  intro s d s' hr hs
  obtain ⟨hr', hk⟩ := dirOpen_refs hr hs
  rw [add_assoc]
  exact ⟨hr', hk.mono fun p hp => Multiset.mem_add.mpr (.inr hp)⟩

theorem dirClose (d : Dir) : Moves base (dirRefs d + pre) (ElephantOS.dirClose d) fun _ => pre := by
  intro s a s' hr hs
  rw [add_assoc] at hr
  obtain ⟨hr', hk⟩ := dirClose_refs hr hs
  exact ⟨hr', hk.mono fun p hp => Multiset.mem_add.mpr (.inr hp)⟩

theorem searchFile (K : Kernel) (junk : Junk) (pathname : Path) :
    Moves base pre (ElephantOS.searchFile K junk pathname) fun r => dirRefs r.2.parentDir + pre := by
  intro s r s' hr hs
  obtain ⟨hr', hk⟩ := searchFile_refs hr hs
  rw [add_assoc]
  exact ⟨hr', hk.mono fun p hp => Multiset.mem_add.mpr (.inr hp)⟩

theorem pathDepthCnt (junk : Junk) (pathname : Path) : Moves base pre (ElephantOS.pathDepthCnt junk pathname) fun _ => pre := by
  intro s a s' hr hs
  obtain rfl := pathDepthCnt_ok hs
  exact ⟨hr, Kept.refl base _⟩

theorem createDirEntry (name : Name) (n : ℕ) (t : FileType) :
    Moves base pre (ElephantOS.createDirEntry name n t) fun _ => pre := by
  intro s a s' hr hs
  obtain rfl := createDirEntry_ok hs
  exact ⟨hr, Kept.refl base _⟩

theorem onDirInode {dir : Dir} {m : Inode → KernM (Bool × Inode)} (hm : ∀ inode, Gives (m inode) fun r => inode.SameRef r.2) :
    Moves base pre (ElephantOS.onDirInode dir m) fun _ => pre := by
  intro s a s' hr hs
  obtain ⟨k, inodes, rfl, hk, hsame⟩ := onDirInode_ok hm hs
  refine ⟨⟨hr.nodup, fun p hp => (hr.fresh p hp).trans_le hk.next, fun p hp => ?_, hr.mem⟩, SameFiles.refl _, rfl, rfl,
    fun p _ => (hsame p).iNo, fun p _ => (hsame p).writeDeny⟩
  exact (hsame p).iOpenCnts.trans (hr.count p hp)

end Moves

theorem Quiet.freeBlock (K : Kernel) (lba : ℕ) : Quiet (ElephantOS.freeBlock K lba) :=
  Quiet.bind (Quiet.assert _) fun _ => Quiet.bind (Quiet.blockBitmapSet _ _) fun _ => Quiet.bitmapSync _ _ _

theorem Quiet.freeBlocks (K : Kernel) (all : ℕ → ℕ) (more idx : ℕ) : Quiet (ElephantOS.freeBlocks K all more idx) := by
  induction more generalizing idx with
  | zero => exact Quiet.pure _
  | succ more ih =>
    unfold ElephantOS.freeBlocks
    split_ifs
    · exact Quiet.bind (Quiet.freeBlock _ _) fun _ => ih _
    · exact ih _

theorem Quiet.releaseBlocks (K : Kernel) (inode : Inode) : Quiet (ElephantOS.releaseBlocks K inode) := by
  unfold ElephantOS.releaseBlocks
  refine Quiet.bind (Quiet.allDirBlocks _) fun all => ?_
  split_ifs
  · exact Quiet.bind (Quiet.freeBlock _ _) fun _ => Quiet.freeBlocks _ _ _ _
  · exact Quiet.freeBlocks _ _ _ _

section

variable {base pre : Multiset Ptr} (K : Kernel) (junk : Junk)

theorem inodeRelease_moves (n : ℕ) : Moves base pre (inodeRelease K n) fun _ => pre := by
  unfold inodeRelease
  refine Moves.bind (Moves.inodeOpen K n) fun p => Moves.get fun s => Moves.bind Moves.assert fun _ => ?_
  refine Moves.bind (Moves.liftKern (Quiet.releaseBlocks _ _)) fun _ => Moves.bind (Moves.liftKern (Quiet.inodeBitmapSet _ _)) fun _ => ?_
  refine Moves.bind (Moves.liftKern (Quiet.bitmapSync _ _ _)) fun _ => Moves.bind (Moves.liftKern (Quiet.sysMalloc _)) fun io => ?_
  cases io with
  | none => exact Moves.halt
  | some io =>
    exact Moves.bind (Moves.liftKern (Quiet.inodeDelete _ _ _)) fun _ => Moves.bind (Moves.liftKern (Quiet.sysFree _)) fun _ =>
      Moves.inodeClose p

theorem dirRemove_moves (parent child : Dir) : Moves base pre (dirRemove K parent child) fun _ => pre := by
  unfold dirRemove
  refine Moves.get fun s => Moves.bind Moves.assert fun _ => Moves.bind (Moves.liftKern (Quiet.sysMalloc _)) fun io => ?_
  cases io with
  | none => exact Moves.pure rfl
  | some io =>
    refine Moves.bind (Moves.onDirInode fun inode => deleteDirEntry_gives K inode _ _) fun _ => Moves.get fun s => ?_
    exact Moves.bind (inodeRelease_moves K _) fun _ => Moves.bind (Moves.liftKern (Quiet.sysFree _)) fun _ => Moves.pure rfl

theorem closeAnd_moves {α : Type} (d : Dir) (a : α) : Moves base (dirRefs d + pre) (do
    dirClose d
    return a) fun _ => pre := Moves.bind (Moves.dirClose d) fun _ => Moves.pure rfl

theorem sysUnlink_moves (pathname : Path) : Moves base pre (sysUnlink K junk pathname) fun _ => pre := by
  unfold sysUnlink
  refine Moves.bind Moves.assert fun _ => Moves.bind (Moves.searchFile K junk pathname) ?_
  rintro ⟨found, record⟩
  refine Moves.bind Moves.assert fun _ => ?_
  cases found with
  | none => exact closeAnd_moves _ _
  | some n =>
    dsimp only
    split_ifs
    · exact closeAnd_moves _ _
    · refine Moves.get fun s => ?_
      split_ifs
      · exact closeAnd_moves _ _
      · refine Moves.bind (Moves.liftKern (Quiet.sysMalloc _)) fun io => ?_
        cases io with
        | none => exact closeAnd_moves _ _
        | some io =>
          refine Moves.bind (Moves.onDirInode fun inode => deleteDirEntry_gives K inode _ _) fun _ => ?_
          exact Moves.bind (inodeRelease_moves K _) fun _ => Moves.bind (Moves.liftKern (Quiet.sysFree _)) fun _ => closeAnd_moves _ _

theorem mkdirFail_moves (d : Dir) (io : Buffer) : Moves base (dirRefs d + pre) (mkdirFail d io) fun _ => pre :=
  Moves.bind (Moves.dirClose d) fun _ => Moves.bind (Moves.liftKern (Quiet.sysFree _)) fun _ => Moves.pure rfl

theorem makeDir_moves (d : Dir) (name : Name) (n lba : ℕ) (io : Buffer) : Moves base pre (makeDir K d name n lba io) fun _ => pre := by
  unfold makeDir
  refine Moves.bind Moves.assert fun _ => Moves.bind (Moves.liftKern (Quiet.bitmapSync _ _ _)) fun _ => Moves.get fun s => ?_
  refine Moves.bind (Moves.liftKern (Quiet.ideWrite _ _ _)) fun _ => Moves.bind (Moves.createDirEntry _ _ _) fun e => ?_
  refine Moves.bind (Moves.onDirInode fun inode => syncDirEntry_gives K inode _ _) fun ok => ?_
  split_ifs
  · exact Moves.pure rfl
  · refine Moves.get fun s => Moves.bind (Moves.liftKern (Quiet.inodeSync _ _ _)) fun _ => ?_
    exact Moves.bind (Moves.liftKern (Quiet.inodeSync _ _ _)) fun _ => Moves.bind (Moves.liftKern (Quiet.bitmapSync _ _ _)) fun _ =>
      Moves.pure rfl

theorem sysMkdir_moves (pathname : Path) : Moves base pre (sysMkdir K junk pathname) fun _ => pre := by
  unfold sysMkdir
  refine Moves.bind (Moves.liftKern (Quiet.sysMalloc _)) fun io => ?_
  cases io with
  | none => exact Moves.pure rfl
  | some io =>
    refine Moves.bind (Moves.searchFile K junk pathname) ?_
    rintro ⟨found, record⟩
    dsimp only
    split_ifs
    · exact mkdirFail_moves _ _
    · refine Moves.bind (Moves.pathDepthCnt _ _) fun depth => Moves.bind (Moves.pathDepthCnt _ _) fun depth' => ?_
      split_ifs
      · exact mkdirFail_moves _ _
      · refine Moves.bind (Moves.liftKern Quiet.inodeBitmapAlloc) fun n => ?_
        cases n with
        | none => exact mkdirFail_moves _ _
        | some n =>
          refine Moves.bind (Moves.liftKern (Quiet.blockBitmapAlloc K)) fun lba => ?_
          cases lba with
          | none => exact Moves.bind (Moves.liftKern (Quiet.inodeBitmapSet _ _)) fun _ => mkdirFail_moves _ _
          | some lba =>
            dsimp only
            cases lastName record.searchedPath with
            | none => exact Moves.halt
            | some name =>
              refine Moves.bind (makeDir_moves K _ _ _ _ _) fun ok => ?_
              split_ifs
              · exact Moves.bind (Moves.liftKern (Quiet.inodeBitmapSet _ _)) fun _ => mkdirFail_moves _ _
              · exact Moves.bind (Moves.liftKern (Quiet.sysFree _)) fun _ => closeAnd_moves _ _

theorem sysRmdir_moves (pathname : Path) : Moves base pre (sysRmdir K junk pathname) fun _ => pre := by
  unfold sysRmdir
  refine Moves.bind (Moves.searchFile K junk pathname) ?_
  rintro ⟨found, record⟩
  refine Moves.bind Moves.assert fun _ => ?_
  cases found with
  | none => exact closeAnd_moves _ _
  | some n =>
    dsimp only
    split_ifs
    · exact closeAnd_moves _ _
    · refine Moves.bind (Moves.dirOpen K n) fun d => Moves.get fun s => ?_
      split_ifs
      · exact Moves.bind (dirRemove_moves K _ _) fun _ => Moves.bind (Moves.dirClose d) fun _ => closeAnd_moves _ _
      · exact Moves.bind (Moves.pure rfl) fun _ => Moves.bind (Moves.dirClose d) fun _ => closeAnd_moves _ _

theorem sysStat_moves (pathname : Path) : Moves base pre (sysStat K junk pathname) fun _ => pre := by
  unfold sysStat
  split_ifs
  · exact Moves.get fun s => Moves.pure rfl
  · refine Moves.bind (Moves.searchFile K junk pathname) ?_
    rintro ⟨found, record⟩
    cases found with
    | none => exact closeAnd_moves _ _
    | some n =>
      exact Moves.bind (Moves.inodeOpen K n) fun p => Moves.get fun s => Moves.bind (Moves.inodeClose p) fun _ => closeAnd_moves _ _

theorem sysChdir_moves (task : ℕ) (pathname : Path) : Moves base pre (sysChdir K task junk pathname) fun _ => pre := by
  unfold sysChdir
  refine Moves.bind (Moves.searchFile K junk pathname) ?_
  rintro ⟨found, record⟩
  cases found with
  | none => exact closeAnd_moves _ _
  | some n =>
    dsimp only
    split_ifs
    · have hcwd : Moves base (dirRefs record.parentDir + pre)
          (modify fun s => { s with cwdInodeNr := Function.update s.cwdInodeNr task n }) fun _ => dirRefs record.parentDir + pre := by
        intro s a s' hr hs
        obtain rfl := (modify_ok _ _ _ _).mp hs
        exact ⟨⟨hr.nodup, hr.fresh, hr.count, hr.mem⟩, SameFiles.refl _, rfl, rfl, fun _ _ => rfl, fun _ _ => rfl⟩
      exact Moves.bind hcwd fun _ => closeAnd_moves _ _
    · exact closeAnd_moves _ _

def handleRefs (d : Option Dir) : Multiset Ptr := d.elim 0 dirRefs

theorem sysOpendir_moves (pathname : Path) : Moves base pre (sysOpendir K junk pathname) fun d => handleRefs d + pre := by
  unfold sysOpendir
  refine Moves.bind Moves.assert fun _ => ?_
  split_ifs
  · exact Moves.pure (zero_add _)
  · refine Moves.bind (Moves.searchFile K junk pathname) ?_
    rintro ⟨found, record⟩
    have hnone : Moves base (dirRefs record.parentDir + pre) (do
        dirClose record.parentDir
        return (none : Option Dir)) fun d => handleRefs d + pre :=
      Moves.bind (Moves.dirClose _) fun _ => Moves.pure (zero_add _)
    cases found with
    | none => exact hnone
    | some n =>
      dsimp only
      split_ifs
      · refine Moves.bind (Moves.dirOpen K n) fun d => ?_
        rw [add_left_comm]
        exact Moves.bind (Moves.dirClose _) fun _ => Moves.pure rfl
      · exact hnone

end

inductive FsCall
  | sysOpen (junk : Junk) (pathname : Path) (flags : ℕ)
  | sysClose (fd : ℤ)
  | sysMkdir (junk : Junk) (pathname : Path)
  | sysUnlink (junk : Junk) (pathname : Path)
  | sysRmdir (junk : Junk) (pathname : Path)
  | sysOpendir (junk : Junk) (name : Path)
  | sysClosedir (dir : Option Dir)
  | sysChdir (junk : Junk) (path : Path)
  | sysStat (junk : Junk) (path : Path)

def FsCall.run (K : Kernel) (task : ℕ) (handles : List Dir) : FsCall → FsM (List Dir)
  | .sysOpen junk pathname flags => do
    let _ ← ElephantOS.sysOpen K task junk pathname flags
    return handles
  | .sysClose fd => do
    let _ ← ElephantOS.sysClose task fd
    return handles
  | .sysMkdir junk pathname => do
    let _ ← ElephantOS.sysMkdir K junk pathname
    return handles
  | .sysUnlink junk pathname => do
    let _ ← ElephantOS.sysUnlink K junk pathname
    return handles
  | .sysRmdir junk pathname => do
    let _ ← ElephantOS.sysRmdir K junk pathname
    return handles
  | .sysOpendir junk name => do
    let dir ← ElephantOS.sysOpendir K junk name
    return dir.toList ++ handles
  | .sysClosedir dir => do
    let _ ← ElephantOS.sysClosedir dir
    return dir.elim handles handles.erase
  | .sysChdir junk path => do
    let _ ← ElephantOS.sysChdir K task junk path
    return handles
  | .sysStat junk path => do
    let _ ← ElephantOS.sysStat K junk path
    return handles

/-- Only a handle that is open is closed. -/
def FsCall.Enabled (handles : List Dir) : FsCall → Prop
  | .sysClosedir (some dir) => dir ∈ handles
  | _ => True

/-- The states reached by calls of any tasks, with the directory handles that are open there. -/
inductive FsRun (K : Kernel) (pool : ℕ → Pool) (Meets : Fs → FsCall → Prop) (s0 : Fs) : Fs → List Dir → Prop
  | init : FsRun K pool Meets s0 s0 []
  | step {s s' : Fs} {handles handles' : List Dir} {task : ℕ} {c : FsCall} : FsRun K pool Meets s0 s handles → c.Enabled handles →
      Meets (onTask pool task s) c → c.run K task handles (onTask pool task s) = .ok (handles', s') → FsRun K pool Meets s0 s' handles'

def slotCount (s : Fs) (p : Ptr) : ℕ := ((Finset.range maxFileOpen).filter fun k => (s.fileTable k).fdInode = some p).card

/-- Every cached inode is open as often as files and directory handles refer to it, the root directory once more,
and none is cached that is not open. -/
def CountsExact (s : Fs) (handles : List Dir) : Prop :=
  ∀ p ∈ s.openInodes, (s.inodes p).iOpenCnts = slotCount s p + handles.countP (fun d => d.inode s = p) +
    (if p = s.rootDir then 1 else 0) ∧ (s.inodes p).iOpenCnts ≠ 0

/-- Where nothing is left open or uncounted: a file that exists is opened by a path of one name, so that its directory
is `root_dir`, and `sys_opendir` is not asked for `/`, for which it returns `root_dir` itself. -/
def Balanced (K : Kernel) (s : Fs) : FsCall → Prop
  | .sysOpen junk pathname flags => oCreat flags = false → ∀ n record s0 depth,
      searchFile K junk pathname s = .ok ((some n, record), s0) → record.fileType ≠ .directory →
      pathDepthCnt junk pathname s = .ok (depth, s) → pathDepthCnt junk record.searchedPath s0 = .ok (depth, s0) →
      (pathParse pathname).2 = none
  | .sysOpendir _ name => name ≠ [slash]
  | _ => True

theorem slotRefs_count (s : Fs) (p : Ptr) : (slotRefs s.fileTable).count p = slotCount s p := by
  unfold slotRefs slotCount
  rw [Multiset.count_sum', Finset.card_filter]
  refine Finset.sum_congr rfl fun k _ => ?_
  cases (s.fileTable k).fdInode with
  | none => rfl
  | some q => simp [Multiset.count_singleton, eq_comm]

theorem handles_count (s : Fs) (p : Ptr) (handles : List Dir) (h : .root ∉ handles) :
    ((handles.map dirRefs).sum).count p = handles.countP fun d => d.inode s = p := by
  induction handles with
  | nil => rfl
  | cons d handles ih =>
    rw [List.mem_cons, not_or] at h
    rw [List.map_cons, List.sum_cons, Multiset.count_add, ih h.2, List.countP_cons, Nat.add_comm]
    cases d with
    | root => exact absurd rfl h.1
    | heap ptr inode => simp [dirRefs, Dir.inode, Multiset.count_singleton, eq_comm]

theorem searchLoop_end {K : Kernel} {s s' : Fs} {fuel : ℕ} {subPath : Option Path} {record : PathSearchRecord} {pNo iNo : ℕ}
    {r : Option ℕ × PathSearchRecord} (hs : searchLoop K fuel subPath [] record pNo iNo s = .ok (r, s')) :
    r.2.fileType = .directory := by
  cases fuel with
  | zero => simp [searchLoop] at hs
  | succ fuel =>
    unfold searchLoop at hs
    rw [if_pos rfl] at hs
    simp only [bind_ok] at hs
    obtain ⟨_, s1, -, d, s2, -, hs⟩ := hs
    obtain ⟨rfl, rfl⟩ := (pure_ok _ _ _ _).mp hs
    rfl

theorem searchLoop_single {K : Kernel} {s s' : Fs} {fuel : ℕ} {name : Name} {record : PathSearchRecord} {pNo iNo : ℕ}
    {r : Option ℕ × PathSearchRecord} (hs : searchLoop K fuel none name record pNo iNo s = .ok (r, s')) :
    r.2.fileType = .directory ∨ r.2.parentDir = record.parentDir := by
  cases fuel with
  | zero => simp [searchLoop] at hs
  | succ fuel =>
    by_cases hname : name = []
    · subst hname
      exact .inl (searchLoop_end hs)
    · unfold searchLoop at hs
      rw [if_neg hname] at hs
      simp only [bind_ok, assert_ok, bound_ok, get_ok] at hs
      obtain ⟨_, _, ⟨-, rfl⟩, _, _, ⟨-, rfl⟩, _, _, ⟨rfl, rfl⟩, found, s1, -, hs⟩ := hs
      cases found with
      | none =>
        obtain ⟨rfl, rfl⟩ := (pure_ok _ _ _ _).mp hs
        exact .inr rfl
      | some dirE =>
        simp only [bind_ok] at hs
        obtain ⟨next, s2, h2, hs⟩ := hs
        obtain ⟨rfl, rfl⟩ := nextName_ok h2
        cases ht : dirE.fType with
        | directory =>
          simp only [ht, bind_ok] at hs
          obtain ⟨_, s3, -, d, s4, -, hs⟩ := hs
          -- there is no second name
          exact .inl (searchLoop_end hs)
        | regular =>
          simp only [ht] at hs
          obtain ⟨rfl, rfl⟩ := (pure_ok _ _ _ _).mp hs
          exact .inr rfl
        | unknown =>
          simp only [ht] at hs
          exact .inl (searchLoop_end hs)
        | other w =>
          simp only [ht] at hs
          exact .inl (searchLoop_end hs)

theorem searchFile_single {K : Kernel} {s s' : Fs} {junk : Junk} {pathname : Path} {r : Option ℕ × PathSearchRecord}
    (hp : (pathParse pathname).2 = none) (hs : searchFile K junk pathname s = .ok (r, s')) (hd : r.2.fileType ≠ .directory) :
    r.2.parentDir = .root := by
  unfold searchFile at hs
  split_ifs at hs
  · obtain ⟨rfl, rfl⟩ := (pure_ok _ _ _ _).mp hs
    rfl
  · simp only [bind_ok, assert_ok] at hs
    obtain ⟨_, _, ⟨-, rfl⟩, next, s1, h1, hs⟩ := hs
    obtain ⟨rfl, rfl⟩ := parseName_ok h1
    rw [hp] at hs
    exact (searchLoop_single hs).resolve_left hd

def allRefs (s : Fs) (handles : List Dir) : Multiset Ptr := s.rootDir ::ₘ ((handles.map dirRefs).sum + slotRefs s.fileTable)

structure CountInv (s : Fs) (handles : List Dir) : Prop where
  refs : Refs (allRefs s handles) s
  heap : .root ∉ handles

theorem CountInv.exact {s : Fs} {handles : List Dir} (h : CountInv s handles) : CountsExact s handles := by
  intro p hp
  have hc := h.refs.count p hp
  have hpos := Multiset.count_pos.mpr ((h.refs.mem p).mpr hp)
  rw [allRefs, Multiset.count_cons, Multiset.count_add, handles_count s p handles h.heap, slotRefs_count] at hc
  rw [← h.refs.count p hp] at hpos
  exact ⟨by omega, by omega⟩

theorem Kept.allRefs {s s' : Fs} {held : Multiset Ptr} (h : Kept held s s') (handles : List Dir) :
    allRefs s' handles = allRefs s handles := by
  rw [ElephantOS.allRefs, h.rootDir, slotRefs_congr h.fileTable, ElephantOS.allRefs]

theorem CountInv.moves {α : Type} {s s' : Fs} {handles : List Dir} (h : CountInv s handles) {m : FsM α} {a : α}
    (hm : Moves (allRefs s handles) 0 m fun _ => 0) (hs : m s = .ok (a, s')) : CountInv s' handles := by
  obtain ⟨hr, hk⟩ := hm s a s' (by rw [zero_add]; exact h.refs) hs
  rw [zero_add, ← hk.allRefs handles] at hr
  exact ⟨hr, h.heap⟩

theorem LeftOpen.eq_zero {K : Kernel} {s : Fs} {junk : Junk} {pathname : Path} {flags : ℕ} {lost : Multiset Ptr}
    (h : LeftOpen K junk pathname flags s lost) (hb : Balanced K s (.sysOpen junk pathname flags)) : lost = 0 := by
  rcases h with h | ⟨hc, n, record, s0, hsearch, hdir, ⟨depth, hd, hd'⟩, rfl⟩
  · exact h
  · have := searchFile_single (hb hc n record s0 depth hsearch hdir hd hd') hsearch hdir
    rw [show record.parentDir = .root from this]
    rfl

theorem CountInv.sysOpen {K : Kernel} {task : ℕ} {s s' : Fs} {handles : List Dir} (h : CountInv s handles) {junk : Junk}
    {pathname : Path} {flags : ℕ} {r : ℤ} (hb : Balanced K s (.sysOpen junk pathname flags))
    (hs : ElephantOS.sysOpen K task junk pathname flags s = .ok (r, s')) : CountInv s' handles := by
  rcases sysOpen_opened h.refs hs with ⟨-, ⟨lost, hl, hr⟩, hk⟩ | ⟨k, p, o⟩
  · rw [hl.eq_zero hb, zero_add, ← hk.allRefs handles] at hr
    exact ⟨hr, h.heap⟩
  · obtain ⟨lost, hl, hr⟩ := o.refs
    refine ⟨?_, h.heap⟩
    rw [hl.eq_zero hb, zero_add] at hr
    rw [allRefs, o.rootDir, slotRefs_congr o.fileTable, slotRefs_taken _ o.free.2.1 o.free.2.2, Multiset.add_cons, Multiset.cons_swap]
    exact hr

theorem CountInv.sysClose {task : ℕ} {s s' : Fs} {handles : List Dir} (h : CountInv s handles) {fd r : ℤ}
    (hs : ElephantOS.sysClose task fd s = .ok (r, s')) : CountInv s' handles := by
  rcases sysClose_ok hs with ⟨-, -, rfl⟩ | ⟨j, k, s1, -, -, -, h32, -, h1, rfl⟩
  · exact h
  · cases hp : (s.fileTable k).fdInode with
    | none =>
      unfold fileClose at h1
      simp [bind_ok, hp] at h1
    | some p =>
      have hr := h.refs
      rw [allRefs, slotRefs_freed s.fileTable h32 hp, Multiset.add_cons, Multiset.cons_swap] at hr
      obtain ⟨-, hf⟩ := fileClose_ok hp hr h1
      have hr1 := hf.refs
      rw [← slotRefs_congr hf.fileTable, ← hf.rootDir] at hr1
      exact ⟨⟨hr1.nodup, hr1.fresh, hr1.count, hr1.mem⟩, h.heap⟩

theorem CountInv.sysOpendir {K : Kernel} {s s' : Fs} {handles : List Dir} (h : CountInv s handles) {junk : Junk} {name : Path}
    {d : Option Dir} (hb : Balanced K s (.sysOpendir junk name)) (hs : ElephantOS.sysOpendir K junk name s = .ok (d, s')) :
    CountInv s' (d.toList ++ handles) := by
  obtain ⟨hr, hk⟩ := @sysOpendir_moves (allRefs s handles) 0 K junk name s d s' (by rw [zero_add]; exact h.refs) hs
  dsimp only at hr
  rw [add_zero, ← hk.allRefs handles] at hr
  have hroot : d ≠ some .root := by
    rintro rfl
    unfold ElephantOS.sysOpendir at hs
    simp only [bind_ok, assert_ok] at hs
    obtain ⟨_, _, ⟨-, rfl⟩, hs⟩ := hs
    rw [if_neg hb] at hs
    simp only [bind_ok] at hs
    obtain ⟨⟨found, record⟩, s1, -, hs⟩ := hs
    cases found with
    | none =>
      simp only [bind_ok, pure_ok] at hs
      obtain ⟨_, _, -, hd, -⟩ := hs
      cases hd
    | some n =>
      dsimp only at hs
      split_ifs at hs
      · simp only [bind_ok, dirOpen] at hs
        obtain ⟨d, s2, ⟨pdir, _, -, _, _, -, hd⟩, _, s3, -, hs⟩ := hs
        cases pdir with
        | none => simp at hd
        | some pdir =>
          obtain ⟨rfl, -⟩ := (pure_ok _ _ _ _).mp hd
          simp at hs
      · simp only [bind_ok, pure_ok] at hs
        obtain ⟨_, _, -, hd, -⟩ := hs
        cases hd
  cases d with
  | none =>
    rw [handleRefs, Option.elim_none, zero_add] at hr
    exact ⟨hr, h.heap⟩
  | some d =>
    refine ⟨?_, ?_⟩
    · simp only [allRefs, Option.toList_some, List.singleton_append, List.map_cons, List.sum_cons, add_assoc]
      rw [← Multiset.add_cons]
      exact hr
    · simp only [Option.toList_some, List.singleton_append, List.mem_cons, not_or]
      exact ⟨fun he => hroot (by rw [he]), h.heap⟩

theorem CountInv.sysClosedir {s s' : Fs} {handles : List Dir} (h : CountInv s handles) {d : Dir} {r : ℤ} (hd : d ∈ handles)
    (hs : ElephantOS.sysClosedir (some d) s = .ok (r, s')) : CountInv s' (handles.erase d) := by
  unfold ElephantOS.sysClosedir at hs
  simp only [bind_ok] at hs
  obtain ⟨_, s1, h1, hs⟩ := hs
  obtain ⟨-, rfl⟩ := (pure_ok _ _ _ _).mp hs
  have hr := h.refs
  have hsum : (handles.map dirRefs).sum = dirRefs d + ((handles.erase d).map dirRefs).sum := by
    rw [← List.sum_cons, ← List.map_cons]
    exact ((List.perm_cons_erase hd).map dirRefs).sum_eq
  rw [allRefs, hsum, add_assoc, ← Multiset.add_cons] at hr
  obtain ⟨hr1, hk⟩ := dirClose_refs hr h1
  refine ⟨?_, fun hm => h.heap (List.mem_of_mem_erase hm)⟩
  rwa [hk.allRefs]

theorem FsRun.countInv {K : Kernel} {pool : ℕ → Pool} {s0 s : Fs} {handles : List Dir} (h0 : s0.Booted)
    (h : FsRun K pool (Balanced K) s0 s handles) : CountInv s handles := by
  induction h with
  | init =>
    refine ⟨?_, List.not_mem_nil⟩
    rw [allRefs, h0.slotRefs]
    exact h0.refs
  | @step s s' handles handles' task c _ hen hb hrun ih =>
    have hinv : CountInv (onTask pool task s) handles := ⟨⟨ih.refs.nodup, ih.refs.fresh, ih.refs.count, ih.refs.mem⟩, ih.heap⟩
    cases c <;> simp only [FsCall.run, bind_ok] at hrun <;> obtain ⟨r, s1, h1, hrun⟩ := hrun <;>
      obtain ⟨rfl, rfl⟩ := (pure_ok _ _ _ _).mp hrun
    case sysOpen => exact hinv.sysOpen hb h1
    case sysClose => exact hinv.sysClose h1
    case sysMkdir => exact hinv.moves (sysMkdir_moves K _ _) h1
    case sysUnlink => exact hinv.moves (sysUnlink_moves K _ _) h1
    case sysRmdir => exact hinv.moves (sysRmdir_moves K _ _) h1
    case sysOpendir => exact hinv.sysOpendir hb h1
    case sysClosedir d =>
      cases d with
      | none =>
        obtain ⟨-, rfl⟩ := (pure_ok _ _ _ _).mp h1
        exact hinv
      | some d => exact hinv.sysClosedir hen h1
    case sysChdir => exact hinv.moves (sysChdir_moves K _ _ _) h1
    case sysStat => exact hinv.moves (sysStat_moves K _ _) h1

/-- In runs of balanced calls every open count is the number of references. -/
theorem reference_counts (K : Kernel) (pool : ℕ → Pool) (s0 s : Fs) (handles : List Dir) (h0 : s0.Booted)
    (h : FsRun K pool (Balanced K) s0 s handles) : CountsExact s handles := (h.countInv h0).exact

theorem reference_counts_stat : ∃ s, FsRun smallPartition.kernel kernelThreads (Balanced smallPartition.kernel) oneFile s [] ∧
    s.openInodes = [⟨0, .kernel⟩] ∧ CountsExact s [] := by
  obtain ⟨r, s, hrun, hs⟩ := runs_of_runsTo (m := (FsCall.sysStat ⟨0, false⟩ [slash, 102]).run smallPartition.kernel 0 [])
    (s := onTask kernelThreads 0 oneFile) (p := fun hs s => decide (hs = []) && decide (s.openInodes = [⟨0, .kernel⟩])) (by decide +kernel)
  simp only [Bool.and_eq_true, decide_eq_true_eq] at hs
  obtain ⟨rfl, hopen⟩ := hs
  have hreach : FsRun smallPartition.kernel kernelThreads (Balanced smallPartition.kernel) oneFile s [] :=
    .step (c := .sysStat ⟨0, false⟩ [slash, 102]) .init trivial trivial hrun
  exact ⟨s, hreach, hopen, reference_counts _ _ _ _ _ oneFile_booted hreach⟩

/-- A file system with the directory `/d` and in it the file `/d/f`. -/
def oneFileBelow : Fs :=
  { oneFile with
    kern := { oneFile.kern with
      disk := blit (blit (blit (blit zeros (inodeAddr smallPartition 1) (wordBytes (inodeInit 1 Inode.zero).pureWords) inodeSize)
        (inodeAddr smallPartition 2) (wordBytes (Inode.pureWords { (inodeInit 2 Inode.zero).setSector 0
          (smallPartition.sb.dataStartLba + 1) with iSize := 72 })) inodeSize)
        (smallPartition.sb.dataStartLba * 512)
        (blit (dotEntries 0 0) 48 (DirEntry.bytes ⟨nameBytes [100], 2, .directory⟩) 24) 512)
        ((smallPartition.sb.dataStartLba + 1) * 512)
        (blit (dotEntries 2 0) 48 (DirEntry.bytes ⟨nameBytes [102], 1, .regular⟩) 24) 512
      blockBitmap := ⟨512, Function.update zeros 0 3⟩
      inodeBitmap := ⟨512, Function.update zeros 0 7⟩ } }

theorem oneFileBelow_booted : oneFileBelow.Booted := by
  have h := oneFile_booted
  exact ⟨h.openInodes, h.count, h.fresh, h.fileTable, h.fdTable⟩

/-- After `sys_open("/d/f", O_RDONLY)` the inode of `/d` is open, and nothing refers to it. -/
theorem reference_counts_left_open : oneFileBelow.Booted ∧
    ¬ ∀ s handles, FsRun smallPartition.kernel kernelThreads (fun _ _ => True) oneFileBelow s handles → CountsExact s handles := by
  refine ⟨oneFileBelow_booted, fun h => ?_⟩
  obtain ⟨hs, s, hrun, hp⟩ := runs_of_runsTo
    (m := (FsCall.sysOpen ⟨0, false⟩ [slash, 100, slash, 102] 0).run smallPartition.kernel 0 []) (s := onTask kernelThreads 0 oneFileBelow)
    (p := fun hs s => decide (hs = []) && s.openInodes.any fun p => decide (p ≠ s.rootDir) && decide ((s.inodes p).iNo = 2) &&
      decide ((s.inodes p).iOpenCnts ≠ slotCount s p)) (by decide +kernel)
  simp only [Bool.and_eq_true, decide_eq_true_eq, List.any_eq_true] at hp
  obtain ⟨rfl, p, hmem, ⟨hroot, -⟩, hne⟩ := hp
  have hexact := h s [] (.step (c := .sysOpen ⟨0, false⟩ [slash, 100, slash, 102] 0) .init trivial trivial hrun) p hmem
  rw [if_neg hroot] at hexact
  exact hne hexact.1

end ElephantOS
