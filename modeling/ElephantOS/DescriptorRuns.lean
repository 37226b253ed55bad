import ElephantOS.Descriptors
import ElephantOS.PartitionFormat

namespace ElephantOS

open ByteMemory HaltingState

def slotRefs (t : ℕ → File) : Multiset Ptr :=
  ∑ k ∈ Finset.range maxFileOpen, (t k).fdInode.elim 0 fun p => {p}

theorem slotRefs_congr {t t' : ℕ → File} (h : SameFiles t t') : slotRefs t' = slotRefs t :=
  Finset.sum_congr rfl fun k _ => by rw [h.inode k]

theorem slotRefs_update (t : ℕ → File) {k : ℕ} (hk : k < maxFileOpen) (file : File) (h : (t k).fdInode = none) :
    slotRefs (Function.update t k file) = (file.fdInode.elim 0 fun p => {p}) + slotRefs t := by
  have hmem : k ∈ Finset.range maxFileOpen := Finset.mem_range.mpr hk
  have hrest : ∀ j ∈ (Finset.range maxFileOpen).erase k, (Function.update t k file j).fdInode = (t j).fdInode := by
    intro j hj
    rw [Function.update_of_ne (Finset.ne_of_mem_erase hj)]
  unfold slotRefs
  rw [← Finset.add_sum_erase _ _ hmem, ← Finset.add_sum_erase (Finset.range maxFileOpen) (fun k => (t k).fdInode.elim 0 _) hmem]
  simp only [Function.update_self, h, Option.elim_none, zero_add]
  congr 1
  exact Finset.sum_congr rfl fun j hj => by rw [hrest j hj]

theorem slotRefs_taken (t : ℕ → File) {k flag : ℕ} (hk : k < maxFileOpen) (h : (t k).fdInode = none) (p : Ptr) :
    slotRefs (Function.update t k ⟨0, flag, some p⟩) = p ::ₘ slotRefs t := by
  rw [slotRefs_update t hk _ h]
  rfl

theorem slotRefs_freed (t : ℕ → File) {k : ℕ} (hk : k < maxFileOpen) {p : Ptr} (h : (t k).fdInode = some p) :
    slotRefs t = p ::ₘ slotRefs (Function.update t k { t k with fdInode := none }) := by
  have hback : Function.update (Function.update t k { t k with fdInode := none }) k (t k) = t := by
    rw [Function.update_idem, Function.update_eq_self]
  have := slotRefs_update (Function.update t k { t k with fdInode := none }) hk (t k) (by rw [Function.update_self])
  rw [hback, h] at this
  exact this

def Refers (s : Fs) (d : ℕ × ℕ) (k : ℕ) : Prop := 3 ≤ d.2 ∧ d.2 < maxFilesOpenPerProc ∧ s.fdTable d.1 d.2 = k

def Occupied (s : Fs) (k : ℕ) : Prop := (s.fileTable k).fdInode ≠ none

instance (s : Fs) (k : ℕ) : Decidable (Occupied s k) := inferInstanceAs (Decidable (_ ≠ _))

structure FdInv (s : Fs) : Prop where
  range : ∀ task j, 3 ≤ j → j < maxFilesOpenPerProc → s.fdTable task j = -1 ∨
    ∃ k, 3 ≤ k ∧ k < maxFileOpen ∧ s.fdTable task j = (k : ℕ) ∧ Occupied s k
  inj : ∀ d d' k, Refers s d k → Refers s d' k → d = d'

def NoLeak (s : Fs) : Prop := ∀ k, 3 ≤ k → k < maxFileOpen → Occupied s k → ∃ d, Refers s d k

section

variable {held : Multiset Ptr} {s s' : Fs} {task : ℕ}

theorem FdInv.refers (h : FdInv s) {d : ℕ × ℕ} {k : ℕ} (hd : Refers s d k) : 3 ≤ k ∧ k < maxFileOpen ∧ Occupied s k := by
  obtain ⟨h3, h8, he⟩ := hd
  rcases h.range d.1 d.2 h3 h8 with hneg | ⟨k', h3', h32, he', hocc⟩
  · omega
  · obtain rfl : k' = k := by omega
    exact ⟨h3', h32, hocc⟩

theorem FdInv.congr (h : FdInv s) (hfiles : ∀ k, (s'.fileTable k).fdInode = (s.fileTable k).fdInode) (hfd : s'.fdTable = s.fdTable) :
    FdInv s' := by
  refine ⟨fun task j h3 h8 => ?_, fun d d' k hd hd' => ?_⟩
  · rw [hfd]
    unfold Occupied
    simp only [hfiles]
    exact h.range task j h3 h8
  · unfold Refers at hd hd'
    rw [hfd] at hd hd'
    exact h.inj d d' k hd hd'

theorem NoLeak.congr (h : NoLeak s) (hfiles : ∀ k, (s'.fileTable k).fdInode = (s.fileTable k).fdInode) (hfd : s'.fdTable = s.fdTable) :
    NoLeak s' := by
  unfold NoLeak Occupied Refers at *
  simp only [hfiles, hfd]
  exact h

theorem FdInv.taken (h : FdInv s) {k : ℕ} {file : File} {s1 : Fs} (hfree : (s.fileTable k).fdInode = none)
    (hused : file.fdInode ≠ none) (hfiles : SameFiles (Function.update s.fileTable k file) s1.fileTable) (hfd : s1.fdTable = s.fdTable) :
    FdInv s1 ∧ (∀ d, ¬ Refers s1 d k) ∧ Occupied s1 k := by
  have hfile : ∀ j, (s1.fileTable j).fdInode = (Function.update s.fileTable k file j).fdInode := hfiles.inode
  have hocc : Occupied s1 k := by
    unfold Occupied
    rw [hfile, Function.update_self]
    exact hused
  refine ⟨⟨fun task j h3 h8 => ?_, fun d d' k' hd hd' => ?_⟩, fun d hd => ?_, hocc⟩
  · rw [hfd]
    rcases h.range task j h3 h8 with hneg | ⟨k', h3', h32, he, ho⟩
    · exact .inl hneg
    · refine .inr ⟨k', h3', h32, he, ?_⟩
      by_cases hk : k' = k
      · rw [hk]
        exact hocc
      · unfold Occupied
        rw [hfile, Function.update_of_ne hk]
        exact ho
  · unfold Refers at hd hd'
    rw [hfd] at hd hd'
    exact h.inj d d' k' hd hd'
  · unfold Refers at hd
    rw [hfd] at hd
    exact (h.refers hd).2.2 hfree

theorem setFd_refers {j : ℕ} {fd : ℤ} {d : ℕ × ℕ} {k : ℕ} :
    Refers (setFd task j fd s) d k ↔
      if d = (task, j) then 3 ≤ j ∧ j < maxFilesOpenPerProc ∧ fd = k else Refers s d k := by
  obtain ⟨t, i⟩ := d
  unfold Refers setFd
  by_cases ht : t = task
  · subst ht
    by_cases hi : i = j
    · subst hi
      simp
    · simp [hi]
  · simp [ht]

theorem FdInv.install (h : FdInv s) {j k : ℕ} (hk : 3 ≤ k ∧ k < maxFileOpen) (hocc : Occupied s k) (hnone : ∀ d, ¬ Refers s d k)
    (hj : FreeFd s task j) : FdInv (setFd task j k s) := by
  refine ⟨fun t i h3 h8 => ?_, fun d d' k' hd hd' => ?_⟩
  · by_cases he : t = task ∧ i = j
    · obtain ⟨rfl, rfl⟩ := he
      exact .inr ⟨k, hk.1, hk.2, by simp [setFd], hocc⟩
    · have hfd : (setFd task j k s).fdTable t i = s.fdTable t i := by
        by_cases ht : t = task
        · subst ht
          have hi : i ≠ j := fun hi => he ⟨rfl, hi⟩
          simp [setFd, hi]
        · simp [setFd, ht]
      rw [hfd]
      exact h.range t i h3 h8
  · rw [setFd_refers] at hd hd'
    split_ifs at hd hd' with e e' e'
    · rw [e, e']
    · obtain rfl : k = k' := by exact_mod_cast hd.2.2
      exact absurd hd' (hnone d')
    · obtain rfl : k = k' := by exact_mod_cast hd'.2.2
      exact absurd hd (hnone d)
    · exact h.inj d d' k' hd hd'

theorem FdInv.closed (h : FdInv s) {j k : ℕ} {p : Ptr} {s1 : Fs} (hj : Refers s (task, j) k) (hf : SlotFreed held k p s s1) :
    FdInv (setFd task j (-1) s1) := by
  have hfile : ∀ i, (s1.fileTable i).fdInode = (Function.update s.fileTable k { s.fileTable k with fdInode := none } i).fdInode :=
    hf.fileTable.inode
  have hrefers : ∀ d k', Refers s1 d k' ↔ Refers s d k' := by
    intro d k'
    unfold Refers
    rw [hf.fdTable]
  refine ⟨fun t i h3 h8 => ?_, fun d d' k' hd hd' => ?_⟩
  · by_cases he : t = task ∧ i = j
    · obtain ⟨rfl, rfl⟩ := he
      exact .inl (by simp [setFd])
    · have hfd : (setFd task j (-1) s1).fdTable t i = s.fdTable t i := by
        rw [← hf.fdTable]
        by_cases ht : t = task
        · subst ht
          have hi : i ≠ j := fun hi => he ⟨rfl, hi⟩
          simp [setFd, hi]
        · simp [setFd, ht]
      rw [hfd]
      rcases h.range t i h3 h8 with hneg | ⟨k', h3', h32, hk', ho⟩
      · exact .inl hneg
      · refine .inr ⟨k', h3', h32, hk', ?_⟩
        have hne : k' ≠ k := by
          rintro rfl
          have := h.inj (t, i) (task, j) k' ⟨h3, h8, hk'⟩ hj
          exact he (Prod.mk.inj this)
        change (s1.fileTable k').fdInode ≠ none
        rw [hfile, Function.update_of_ne hne]
        exact ho
  · rw [setFd_refers] at hd hd'
    split_ifs at hd hd' with e e' e'
    · rw [e, e']
    · exact hd.2.2.elim
    · exact hd'.2.2.elim
    · exact h.inj d d' k' ((hrefers d k').mp hd) ((hrefers d' k').mp hd')

theorem NoLeak.install {k : ℕ} {s1 : Fs} {file : File} (h : NoLeak s)
    (hfiles : SameFiles (Function.update s.fileTable k file) s1.fileTable) (hfd : s1.fdTable = s.fdTable) {j : ℕ}
    (hj : FreeFd s task j) : NoLeak (setFd task j k s1) := by
  intro i h3 h32 hocc
  by_cases he : i = k
  · subst he
    exact ⟨(task, j), setFd_refers.mpr (by rw [if_pos rfl]; exact ⟨hj.1, hj.2.1, rfl⟩)⟩
  · have hfile := hfiles.inode i
    rw [Function.update_of_ne he] at hfile
    obtain ⟨d, hd⟩ := h i h3 h32 (by
      change (s1.fileTable i).fdInode ≠ none at hocc
      rwa [hfile] at hocc)
    have hne : d ≠ (task, j) := by
      rintro rfl
      have h1 := hd.2.2
      have h2 := hj.2.2
      simp only at h1
      omega
    refine ⟨d, setFd_refers.mpr ?_⟩
    rw [if_neg hne]
    unfold Refers
    rw [hfd]
    exact hd

theorem NoLeak.closed {j k : ℕ} {p : Ptr} {s1 : Fs} (h : NoLeak s) (hj : Refers s (task, j) k) (hf : SlotFreed held k p s s1) :
    NoLeak (setFd task j (-1) s1) := by
  intro i h3 h32 hocc
  have hfile := hf.fileTable.inode i
  change (s1.fileTable i).fdInode ≠ none at hocc
  have hne : i ≠ k := by
    rintro rfl
    rw [hfile, Function.update_self] at hocc
    exact hocc rfl
  rw [hfile, Function.update_of_ne hne] at hocc
  obtain ⟨d, hd⟩ := h i h3 h32 hocc
  have hd' : d ≠ (task, j) := by
    rintro rfl
    have h1 := hd.2.2
    have h2 := hj.2.2
    omega
  refine ⟨d, setFd_refers.mpr ?_⟩
  rw [if_neg hd']
  unfold Refers
  rw [hf.fdTable]
  exact hd

end

/-- The state once the file system is up: the root directory is open, and nothing else. -/
structure Fs.Booted (s : Fs) : Prop where
  openInodes : s.openInodes = [s.rootDir]
  count : (s.inodes s.rootDir).iOpenCnts = 1
  fresh : s.rootDir.id < s.kern.heap.next
  fileTable : ∀ k, (s.fileTable k).fdInode = none
  fdTable : ∀ task j, 3 ≤ j → j < maxFilesOpenPerProc → s.fdTable task j = -1

inductive FileCall
  | sysOpen (task : ℕ) (junk : Junk) (pathname : Path) (flags : ℕ)
  | sysClose (task : ℕ) (fd : ℤ)

def FileCall.task : FileCall → ℕ
  | .sysOpen task _ _ _ => task
  | .sysClose task _ => task

def FileCall.run (K : Kernel) : FileCall → FsM ℤ
  | .sysOpen task junk pathname flags => ElephantOS.sysOpen K task junk pathname flags
  | .sysClose task fd => ElephantOS.sysClose task fd

/-- Task `task` is running; its memory comes from its own pool. -/
def onTask (pool : ℕ → Pool) (task : ℕ) (s : Fs) : Fs := { s with kern := { s.kern with pool := pool task } }

/-- The states reached from `s0` by calls that each meet `Meets` when they are made. -/
inductive FileRun (K : Kernel) (pool : ℕ → Pool) (Meets : Fs → FileCall → Prop) (s0 : Fs) : Fs → Prop
  | init : FileRun K pool Meets s0 s0
  | step {s s' : Fs} {c : FileCall} {r : ℤ} : FileRun K pool Meets s0 s → Meets (onTask pool c.task s) c →
      c.run K (onTask pool c.task s) = .ok (r, s') → FileRun K pool Meets s0 s'

/-- A sequence of calls, and what they return. -/
def runAll (K : Kernel) (pool : ℕ → Pool) : List FileCall → FsM (List ℤ)
  | [] => return []
  | c :: cs => do
    modify (onTask pool c.task)
    let r ← c.run K
    let rs ← runAll K pool cs
    return r :: rs

theorem runAll_reached {K : Kernel} {pool : ℕ → Pool} {s0 s s' : Fs} {cs : List FileCall} {rs : List ℤ}
    (h : FileRun K pool (fun _ _ => True) s0 s) (hs : runAll K pool cs s = .ok (rs, s')) :
    FileRun K pool (fun _ _ => True) s0 s' := by
  induction cs generalizing s rs with
  | nil =>
    obtain ⟨-, rfl⟩ := (pure_ok _ _ _ _).mp hs
    exact h
  | cons c cs ih =>
    unfold runAll at hs
    simp only [bind_ok, modify_ok, pure_ok] at hs
    obtain ⟨_, _, rfl, r, s1, h1, rs', s2, h2, -, rfl⟩ := hs
    exact ih (h.step trivial h1) h2

/-- Each file from 3 on is in use exactly when one descriptor, and only one, refers to it. -/
def Accounted (s : Fs) : Prop := ∀ k, 3 ≤ k → k < maxFileOpen → (Occupied s k ↔ ∃! d, Refers s d k)

/-- An open that fails leaves the same files in use. -/
def FailedOpenKeeps (K : Kernel) (pool : ℕ → Pool) (Meets : Fs → FileCall → Prop) (s : Fs) : Prop :=
  ∀ task junk pathname flags s', Meets (onTask pool task s) (.sysOpen task junk pathname flags) →
    sysOpen K task junk pathname flags (onTask pool task s) = .ok (-1, s') → ∀ k, Occupied s' k ↔ Occupied s k

theorem accounted_of {s : Fs} (h : FdInv s) (hl : NoLeak s) : Accounted s := by
  intro k h3 h32
  constructor
  · intro hocc
    obtain ⟨d, hd⟩ := hl k h3 h32 hocc
    exact ⟨d, hd, fun d' hd' => h.inj d' d k hd' hd⟩
  · rintro ⟨d, hd, -⟩
    exact (h.refers hd).2.2

/-- Where `sys_open` gives back what it took: the task has a free descriptor, and a file that is opened for
writing has its `write_deny` clear. -/
def Grantable (K : Kernel) (s : Fs) : FileCall → Prop
  | .sysOpen task junk pathname flags => (∃ j, FreeFd s task j) ∧ (oWrite flags = true → oCreat flags = false →
      ∀ n record s0 inode s1, searchFile K junk pathname s = .ok ((some n, record), s0) →
        inodeOpen K n s0 = .ok (inode, s1) → (s1.inodes inode).writeDeny = false)
  | .sysClose _ _ => True

structure TableInv (s : Fs) : Prop where
  fd : FdInv s
  refs : ∃ lost, Refs (lost + slotRefs s.fileTable) s

theorem Fs.Booted.slotRefs {s : Fs} (h : s.Booted) : slotRefs s.fileTable = 0 :=
  Finset.sum_eq_zero fun k _ => by rw [h.fileTable k]; rfl

theorem Fs.Booted.refs {s : Fs} (h : s.Booted) : Refs {s.rootDir} s := by
  refine ⟨?_, ?_, ?_, ?_⟩ <;> rw [h.openInodes]
  · exact List.nodup_singleton _
  · intro p hp
    rw [List.mem_singleton.mp hp]
    exact h.fresh
  · intro p hp
    rw [List.mem_singleton.mp hp, h.count, Multiset.count_singleton_self]
  · intro p
    rw [Multiset.mem_singleton, List.mem_singleton]

theorem Fs.Booted.tableInv {s : Fs} (h : s.Booted) : TableInv s ∧ NoLeak s := by
  refine ⟨⟨⟨fun task j h3 h8 => .inl (h.fdTable task j h3 h8), fun d d' k hd _ => ?_⟩, {s.rootDir}, ?_⟩, fun k _ _ hocc => ?_⟩
  · have h1 := hd.2.2
    rw [h.fdTable d.1 d.2 hd.1 hd.2.1] at h1
    omega
  · rw [h.slotRefs, add_zero]
    exact h.refs
  · exact absurd (h.fileTable k) hocc

section

variable {K : Kernel} {held : Multiset Ptr} {s s' : Fs} {task : ℕ} {junk : Junk} {pathname : Path} {flags : ℕ} {r : ℤ}

def LeftOpen (K : Kernel) (junk : Junk) (pathname : Path) (flags : ℕ) (s : Fs) (lost : Multiset Ptr) : Prop :=
  lost = 0 ∨ oCreat flags = false ∧ ∃ n record s0, searchFile K junk pathname s = .ok ((some n, record), s0) ∧
    record.fileType ≠ .directory ∧ (∃ depth, pathDepthCnt junk pathname s = .ok (depth, s) ∧
      pathDepthCnt junk record.searchedPath s0 = .ok (depth, s0)) ∧ lost = dirRefs record.parentDir

structure Opened (K : Kernel) (held : Multiset Ptr) (task : ℕ) (junk : Junk) (pathname : Path) (flags : ℕ) (r : ℤ) (k : ℕ) (p : Ptr)
    (s s' : Fs) : Prop where
  free : 3 ≤ k ∧ k < maxFileOpen ∧ (s.fileTable k).fdInode = none
  refs : ∃ lost, LeftOpen K junk pathname flags s lost ∧ Refs (lost + p ::ₘ held) s'
  rootDir : s'.rootDir = s.rootDir
  fileTable : SameFiles (Function.update s.fileTable k ⟨0, flags, some p⟩) s'.fileTable
  fdTable : (∃ j, FreeFd s task j ∧ r = j ∧ s'.fdTable = (setFd task j k s).fdTable) ∨ r = -1 ∧ s'.fdTable = s.fdTable
  fails : r = -1 → ¬ Grantable K s (.sysOpen task junk pathname flags)
  writeDeny : ∀ q ∈ held, q ≠ p → (s'.inodes q).writeDeny = (s.inodes q).writeDeny
  reader : oWrite flags = false → p ∈ held → (s'.inodes p).writeDeny = (s.inodes p).writeDeny
  writer : oWrite flags = true → oCreat flags = false → (s'.inodes p).writeDeny = true
  clear : r ≠ -1 → oWrite flags = true → oCreat flags = false → p ∈ held → (s.inodes p).writeDeny = false
  created : oCreat flags = true → p ∉ held

theorem FreeFd.congr {j : ℕ} (h : s'.fdTable = s.fdTable) : FreeFd s' task j ↔ FreeFd s task j := by
  unfold FreeFd
  rw [h]

theorem sysOpen_opened (h : Refs held s) (hs : sysOpen K task junk pathname flags s = .ok (r, s')) :
    (r = -1 ∧ (∃ lost, LeftOpen K junk pathname flags s lost ∧ Refs (lost + held) s') ∧ Kept held s s') ∨
      ∃ k p, Opened K held task junk pathname flags r k p s s' := by
  have hzero : ∀ {held' : Multiset Ptr} {t : Fs}, Refs held' t → ∃ lost, LeftOpen K junk pathname flags s lost ∧ Refs (lost + held') t :=
    fun ht => ⟨0, .inl rfl, by rwa [zero_add]⟩
  rcases sysOpen_cases h hs with ⟨hr, hr', hk⟩ | ⟨hc, d, name, s0, s1, hr0, hk0, h1, h2⟩ | ⟨hc, n, record, s0, hsearch, hdir, hdepth, hr0, hk0, h1⟩
  · exact .inl ⟨hr, hzero hr', hk⟩
  · have hmem : ∀ q ∈ held, q ∈ dirRefs d + held := fun q hq => Multiset.mem_add.mpr (.inr hq)
    rcases fileCreate_ok hr0 h1 with ⟨rfl, hr1, hk1⟩ | ⟨k, p, sa, hp, ht, hd, hi⟩
    · obtain ⟨hr2, hk2⟩ := dirClose_refs hr1 h2
      exact .inl ⟨rfl, hzero hr2, (hk0.trans (hk1.mono hmem)).trans hk2⟩
    · have hp' : p ∉ held := fun hm => hp (hmem p hm)
      -- the descriptor is installed before the directory is closed
      have hinst : ∃ fd, s1 = { sa with fdTable := fd } ∧
          ((∃ j, FreeFd s task j ∧ r = j ∧ fd = (setFd task j k s).fdTable) ∨ r = -1 ∧ fd = s.fdTable ∧ ∀ j, ¬ FreeFd s task j) := by
        have hfd : sa.fdTable = s.fdTable := ht.fdTable.trans hk0.fdTable
        rcases pcbFdInstall_ok hi with ⟨j, hj, rfl, rfl⟩ | ⟨rfl, rfl, hj⟩
        · refine ⟨_, rfl, .inl ⟨j, (FreeFd.congr hfd).mp hj, rfl, ?_⟩⟩
          simp only [setFd, hfd]
        · exact ⟨_, rfl, .inr ⟨rfl, hfd, fun j hf => hj j ((FreeFd.congr hfd).mpr hf)⟩⟩
      obtain ⟨fd, rfl, hfd⟩ := hinst
      have hra : Refs (dirRefs d + p ::ₘ held) { sa with fdTable := fd } := by
        rw [Multiset.add_cons]
        exact ⟨ht.refs.nodup, ht.refs.fresh, ht.refs.count, ht.refs.mem⟩
      obtain ⟨hr2, hk2⟩ := dirClose_refs hra h2
      have hfree := ht.free
      refine .inr ⟨k, p, ⟨⟨hfree.1, hfree.2.1, ?_⟩, hzero hr2, (hk2.rootDir.trans ht.rootDir).trans hk0.rootDir, ?_, ?_, fun hneg hg => ?_, fun q hq hne => ?_, fun _ hm =>
        absurd hm hp', fun _ hf => absurd hc (by rw [hf]; decide), fun _ _ hf => absurd hc (by rw [hf]; decide), fun _ => hp'⟩⟩
      · rw [← hk0.fileTable.inode k]
        exact hfree.2.2
      · exact ((SameFiles.update hk0.fileTable k _).trans ht.fileTable).trans hk2.fileTable
      · rw [hk2.fdTable]
        rcases hfd with ⟨j, hj, hr, he⟩ | ⟨hr, he, -⟩
        · exact .inl ⟨j, hj, hr, he⟩
        · exact .inr ⟨hr, he⟩
      · rcases hfd with ⟨j, hj, hr, -⟩ | ⟨-, -, hj⟩
        · omega
        · obtain ⟨j, hf⟩ := hg.1
          exact hj j hf
      · rw [hk2.writeDeny q (Multiset.mem_cons_of_mem hq), ← hk0.writeDeny q hq]
        exact ht.writeDeny q (hmem q hq) hne
  · have hmem : ∀ q ∈ held, q ∈ dirRefs record.parentDir + held := fun q hq => Multiset.mem_add.mpr (.inr hq)
    have hleft : LeftOpen K junk pathname flags s (dirRefs record.parentDir) := .inr ⟨hc, n, record, s0, hsearch, hdir, hdepth, rfl⟩
    rcases fileOpen_ok hr0 h1 with ⟨rfl, rfl⟩ | ⟨k, p, s1, ht, hw, hrd, hend⟩
    · exact .inl ⟨rfl, ⟨_, hleft, hr0⟩, hk0⟩
    · have hfd : s1.fdTable = s.fdTable := ht.fdTable.trans hk0.fdTable
      have hinst : ∃ fd, s' = { s1 with fdTable := fd } ∧
          ((∃ j, FreeFd s task j ∧ r = j ∧ fd = (setFd task j k s).fdTable) ∨ r = -1 ∧ fd = s.fdTable) ∧
          (r = -1 → ¬ Grantable K s (.sysOpen task junk pathname flags)) := by
        rcases hend with ⟨rfl, rfl, hwr, sa, hopen, hd⟩ | ⟨-, hi⟩
        · refine ⟨s'.fdTable, rfl, .inr ⟨rfl, hfd⟩, fun _ hg => ?_⟩
          rw [hg.2 hwr hc n record s0 p sa hsearch hopen] at hd
          cases hd
        · rcases pcbFdInstall_ok hi with ⟨j, hj, rfl, rfl⟩ | ⟨rfl, rfl, hj⟩
          · refine ⟨_, rfl, .inl ⟨j, (FreeFd.congr hfd).mp hj, rfl, ?_⟩, fun h => by omega⟩
            simp only [setFd, hfd]
          · refine ⟨s'.fdTable, rfl, .inr ⟨rfl, hfd⟩, fun _ hg => ?_⟩
            obtain ⟨j, hf⟩ := hg.1
            exact hj j ((FreeFd.congr hfd).mpr hf)
      have hclear : r ≠ -1 → oWrite flags = true → p ∈ held → (s.inodes p).writeDeny = false := by
        intro hr hwr hm
        rcases hend with ⟨hneg, -⟩ | ⟨hcl, -⟩
        · exact absurd hneg hr
        · rw [← hk0.writeDeny p hm]
          exact hcl (hmem p hm) hwr
      obtain ⟨fd, rfl, hfd', hfails⟩ := hinst
      refine .inr ⟨k, p, ⟨⟨ht.free.1, ht.free.2.1, ?_⟩, ⟨dirRefs record.parentDir, hleft, ?_⟩,
        ht.rootDir.trans hk0.rootDir, ?_, hfd', hfails, fun q hq hne => ?_,
        fun hwr hm => ?_, fun hwr _ => hw hwr, fun hr hwr _ hm => hclear hr hwr hm, fun hf => ?_⟩⟩
      · rw [← hk0.fileTable.inode k]
        exact ht.free.2.2
      · rw [Multiset.add_cons]
        exact ⟨ht.refs.nodup, ht.refs.fresh, ht.refs.count, ht.refs.mem⟩
      · exact (SameFiles.update hk0.fileTable k _).trans ht.fileTable
      · rw [← hk0.writeDeny q hq]
        exact ht.writeDeny q (hmem q hq) hne
      · rw [← hk0.writeDeny p hm]
        exact hrd (hmem p hm) hwr
      · rw [hc] at hf
        cases hf

theorem Opened.fdInv {k : ℕ} {p : Ptr} (o : Opened K held task junk pathname flags r k p s s') (h : FdInv s) : FdInv s' := by
  obtain ⟨h1, hnone, hocc⟩ := @FdInv.taken s h k ⟨0, flags, some p⟩ { s' with fdTable := s.fdTable } o.free.2.2
    (Option.some_ne_none p) o.fileTable rfl
  rcases o.fdTable with ⟨j, hj, -, hfd⟩ | ⟨-, hfd⟩
  · exact (h1.install ⟨o.free.1, o.free.2.1⟩ hocc hnone (show FreeFd _ task j from hj)).congr (fun _ => rfl) hfd
  · exact h1.congr (fun _ => rfl) hfd

theorem Opened.noLeak {k : ℕ} {p : Ptr} (o : Opened K held task junk pathname flags r k p s s') (h : NoLeak s) (hr : r ≠ -1) :
    NoLeak s' := by
  rcases o.fdTable with ⟨j, hj, -, hfd⟩ | ⟨hneg, -⟩
  · have := @NoLeak.install s task k { s' with fdTable := s.fdTable } _ h o.fileTable rfl j hj
    exact this.congr (fun _ => rfl) hfd
  · exact absurd hneg hr

theorem Opened.tableInv {k : ℕ} {p : Ptr} {lost : Multiset Ptr}
    (o : Opened K (lost + slotRefs s.fileTable) task junk pathname flags r k p s s') (h : FdInv s) : TableInv s' := by
  obtain ⟨lost', -, hr⟩ := o.refs
  refine ⟨o.fdInv h, lost' + lost, ?_⟩
  rwa [slotRefs_congr o.fileTable, slotRefs_taken _ o.free.2.1 o.free.2.2, Multiset.add_cons, add_assoc, ← Multiset.add_cons]

theorem TableInv.closed (h : TableInv s) {fd : ℤ} (hs : sysClose task fd s = .ok (r, s')) :
    s' = s ∨ ∃ j k p lost s1, fd = (j : ℕ) ∧ Refers s (task, j) k ∧ (s.fileTable k).fdInode = some p ∧
      Refs (lost + slotRefs s.fileTable) s ∧
      SlotFreed (lost + slotRefs (Function.update s.fileTable k { s.fileTable k with fdInode := none })) k p s s1 ∧
      s' = setFd task j (-1) s1 := by
  rcases sysClose_ok hs with ⟨-, -, rfl⟩ | ⟨j, k, s1, h3, h8, hfd, h32, hk, h1, rfl⟩
  · exact .inl rfl
  · have hd : Refers s (task, j) k := ⟨h3, h8, hk⟩
    obtain ⟨p, hp⟩ := Option.ne_none_iff_exists'.mp (h.fd.refers hd).2.2
    obtain ⟨lost, hr⟩ := h.refs
    have hr' := hr
    rw [slotRefs_freed s.fileTable h32 hp, Multiset.add_cons] at hr'
    exact .inr ⟨j, k, p, lost, s1, hfd, hd, hp, hr, (fileClose_ok hp hr' h1).2, rfl⟩

theorem TableInv.close (h : TableInv s) {fd : ℤ} (hs : sysClose task fd s = .ok (r, s')) :
    TableInv s' ∧ (NoLeak s → NoLeak s') := by
  rcases h.closed hs with rfl | ⟨j, k, p, lost, s1, -, hd, -, -, hf, rfl⟩
  · exact ⟨h, id⟩
  · refine ⟨⟨h.fd.closed hd hf, lost, ?_⟩, fun hl => hl.closed hd hf⟩
    have hr := hf.refs
    rw [← slotRefs_congr hf.fileTable] at hr
    exact ⟨hr.nodup, hr.fresh, hr.count, hr.mem⟩

end

theorem TableInv.onTask {s : Fs} (h : TableInv s) (pool : ℕ → Pool) (task : ℕ) : TableInv (onTask pool task s) := by
  obtain ⟨lost, hr⟩ := h.refs
  exact ⟨h.fd.congr (fun _ => rfl) rfl, lost, hr.nodup, hr.fresh, hr.count, hr.mem⟩

theorem FileRun.tableInv {K : Kernel} {pool : ℕ → Pool} {Meets : Fs → FileCall → Prop} {s0 s : Fs} (h0 : s0.Booted)
    (h : FileRun K pool Meets s0 s) : TableInv s := by
  induction h with
  | init => exact h0.tableInv.1
  | @step s s' c r _ _ hrun ih =>
    have hinv := ih.onTask pool c.task
    cases c with
    | sysOpen task junk pathname flags =>
      obtain ⟨lost, hr⟩ := hinv.refs
      rcases sysOpen_opened hr hrun with ⟨-, ⟨lost', -, hr'⟩, hk⟩ | ⟨k, p, o⟩
      · refine ⟨hinv.fd.congr hk.fileTable.inode hk.fdTable, lost' + lost, ?_⟩
        rwa [slotRefs_congr hk.fileTable, add_assoc]
      · exact o.tableInv hinv.fd
    | sysClose task fd => exact (hinv.close hrun).1

theorem FileRun.noLeak {K : Kernel} {pool : ℕ → Pool} {s0 s : Fs} (h0 : s0.Booted) (h : FileRun K pool (Grantable K) s0 s) :
    NoLeak s := by
  induction h with
  | init => exact h0.tableInv.2
  | @step s s' c r hrun0 hmeets hrun ih =>
    have hinv := (hrun0.tableInv h0).onTask pool c.task
    have hl : NoLeak (onTask pool c.task s) := ih.congr (fun _ => rfl) rfl
    cases c with
    | sysOpen task junk pathname flags =>
      obtain ⟨lost, hr⟩ := hinv.refs
      rcases sysOpen_opened hr hrun with ⟨-, -, hk⟩ | ⟨k, p, o⟩
      · exact hl.congr hk.fileTable.inode hk.fdTable
      · exact o.noLeak hl fun hneg => o.fails hneg hmeets
    | sysClose task fd => exact (hinv.close hrun).2 hl

/-- As long as every open is made by a task with a free descriptor and none asks to write a file whose `write_deny`
is set, the file table and the descriptors account for each other, and a failed open takes no file. -/
theorem descriptors_accounted (K : Kernel) (pool : ℕ → Pool) (s0 s : Fs) (h0 : s0.Booted) (h : FileRun K pool (Grantable K) s0 s) :
    Accounted s ∧ FailedOpenKeeps K pool (Grantable K) s := by
  refine ⟨accounted_of (h.tableInv h0).fd (h.noLeak h0), fun task junk pathname flags s' hmeets hs k => ?_⟩
  obtain ⟨lost, hr⟩ := ((h.tableInv h0).onTask pool task).refs
  rcases sysOpen_opened hr hs with ⟨-, -, hk⟩ | ⟨k, p, o⟩
  · unfold Occupied
    rw [hk.fileTable.inode k]
    rfl
  · exact absurd hmeets (o.fails rfl)

def smallPartition : Partition := formattedPartition 63 620

/-- A file system with one file, `/f`, that nobody has opened yet. -/
def oneFile : Fs where
  kern := { Kern.blank with
    disk := blit (blit zeros (inodeAddr smallPartition 1) (wordBytes (inodeInit 1 Inode.zero).pureWords) inodeSize)
      (smallPartition.sb.dataStartLba * 512)
      (blit (dotEntries 0 0) 48 (DirEntry.bytes ⟨nameBytes [102], 1, .regular⟩) 24) 512
    blockBitmap := ⟨512, Function.update zeros 0 1⟩
    inodeBitmap := ⟨512, Function.update zeros 0 3⟩
    heap := ⟨[(⟨0, .kernel⟩, inodeSize)], 1, fun _ => true, false⟩ }
  inodes := fun _ => { Inode.zero with
    iSize := 72
    iOpenCnts := 1
    iSectors := Function.update (fun _ => 0) 0 smallPartition.sb.dataStartLba
    inodeTag := ⟨.linked, .linked⟩ }
  openInodes := [⟨0, .kernel⟩]
  rootDir := ⟨0, .kernel⟩
  fileTable := fun _ => ⟨0, 0, none⟩
  fdTable := fun _ j => if j < 3 then j else -1
  cwdInodeNr := fun _ => 0

theorem oneFile_booted : oneFile.Booted := by
  refine ⟨rfl, rfl, Nat.one_pos, fun _ => rfl, fun task j h3 _ => ?_⟩
  exact if_neg (by omega)

def openF (flags : ℕ) : FileCall := .sysOpen 0 ⟨0, false⟩ [slash, 102] flags

def kernelThreads : ℕ → Pool := fun _ => .kernel

theorem descriptors_accounted_one_open : ∃ s, FileRun smallPartition.kernel kernelThreads (Grantable smallPartition.kernel) oneFile s ∧
    Occupied s 3 ∧ Accounted s := by
  obtain ⟨r, s, hrun, hs⟩ := runs_of_runsTo (m := (openF 0).run smallPartition.kernel) (s := onTask kernelThreads 0 oneFile)
    (p := fun _ s => decide (Occupied s 3)) (by decide +kernel)
  have hreach : FileRun smallPartition.kernel kernelThreads (Grantable smallPartition.kernel) oneFile s := by
    refine FileRun.step (c := openF 0) .init ⟨⟨3, by decide, by decide, by decide⟩, fun hw => ?_⟩ hrun
    exact absurd hw (by decide)
  exact ⟨s, hreach, of_decide_eq_true hs, (descriptors_accounted _ _ _ _ oneFile_booted hreach).1⟩

/-- The second task to open `/f` for writing is turned away, but file 4 stays taken. -/
theorem descriptors_leak_denied : ¬ ∀ s, FileRun smallPartition.kernel kernelThreads (fun _ _ => True) oneFile s →
    Accounted s ∧ FailedOpenKeeps smallPartition.kernel kernelThreads (fun _ _ => True) s := by
  intro h
  obtain ⟨rs, s, hrun, hs⟩ := runs_of_runsTo (m := runAll smallPartition.kernel kernelThreads [openF 1]) (s := oneFile)
    (p := fun _ s => !decide (Occupied s 4) && runsTo ((openF 1).run smallPartition.kernel) (onTask kernelThreads 0 s)
      fun r' s' => decide (r' = -1) && decide (Occupied s' 4)) (by decide +kernel)
  rw [Bool.and_eq_true] at hs
  obtain ⟨r', s', hrun', hs'⟩ := runs_of_runsTo hs.2
  simp only [Bool.and_eq_true, decide_eq_true_eq] at hs'
  obtain ⟨rfl, hocc⟩ := hs'
  have hkeep := (h s (runAll_reached .init hrun)).2 0 ⟨0, false⟩ [slash, 102] 1 s' trivial hrun' 4
  have hfree : ¬ Occupied s 4 := by simpa using hs.1
  exact hfree (hkeep.mp hocc)

end ElephantOS
