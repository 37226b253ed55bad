import ElephantOS.ReferenceCounts
import ElephantOS.FileRead

/-! The calls of `fs/fs.c` that take a descriptor: `sys_write`, `sys_read`, `sys_lseek` and `sys_close`. What the console prints is left out. -/

namespace ElephantOS

open ByteMemory HaltingState

/-- A function of `file.c` on file `k` of the table, which looks at the inode first. -/
def onFile (k : ℕ) (m : File → Inode → KernM (ℤ × File × Inode)) : FsM ℤ := do
  let s ← get
  match (s.fileTable k).fdInode with
  -- a null pointer
  | none => halt .wild
  | some p =>
    let (r, file, inode) ← liftKern (m (s.fileTable k) (s.inodes p))
    modify (setFile k file)
    modify (setInode p inode)
    return r

/-- The console branch copies the bytes into `char tmp_buf[1024]`. -/
def sysWrite (K : Kernel) (task : ℕ) (fd : ℤ) (buf : Memory) (count : ℕ) : FsM ℤ :=
  if fd < 0 then return -1
  else if fd = 1 then do
    bound (count ≤ 1024)
    return int32 count
  else do
    let k ← fdLocal2global task fd.toNat
    let s ← get
    if oWrite (s.fileTable k).fdFlag then onFile k fun file inode => fileWrite K file inode buf count
    else return -1

/-- `buf` is missing when it is a null pointer; what was read into it is left out. -/
def sysRead (task : ℕ) (fd : ℤ) (buf : Option Memory) (count : ℕ) : FsM ℤ :=
  if fd < 0 then return -1
  else do
    assert (buf.isSome = true)
    let k ← fdLocal2global task fd.toNat
    onFile k fun file inode => do
      let (r, file, _) ← fileRead file inode (buf.getD zeros) count
      return (r, file, inode)

/-- Sums of `int32_t` wrap around. -/
def seekPos (file : File) (inode : Inode) (offset : ℤ) (whence : ℕ) : ℤ :=
  if whence = 1 then offset
  else if whence = 2 then Int.bmod (int32 file.fdPos + offset) (2 ^ 32)
  else Int.bmod (int32 inode.iSize + offset) (2 ^ 32)

def sysLseek (task : ℕ) (fd offset : ℤ) (whence : ℕ) : FsM ℤ :=
  if fd < 0 then return -1
  else do
    assert (0 < whence ∧ whence < 4)
    let k ← fdLocal2global task fd.toNat
    onFile k fun file inode =>
      let newPos := seekPos file inode offset whence
      if newPos < 0 ∨ int32 inode.iSize - 1 < newPos then return (-1, file, inode)
      else return (newPos, { file with fdPos := newPos.toNat }, inode)

/-- A call with a descriptor. -/
inductive FdCall
  | sysClose (fd : ℤ)
  | sysWrite (fd : ℤ) (buf : Memory) (count : ℕ)
  | sysRead (fd : ℤ) (buf : Option Memory) (count : ℕ)
  | sysLseek (fd offset : ℤ) (whence : ℕ)

def FdCall.fd : FdCall → ℤ
  | .sysClose fd => fd
  | .sysWrite fd _ _ => fd
  | .sysRead fd _ _ => fd
  | .sysLseek fd _ _ => fd

def FdCall.run (K : Kernel) (task : ℕ) : FdCall → FsM ℤ
  | .sysClose fd => ElephantOS.sysClose task fd
  | .sysWrite fd buf count => ElephantOS.sysWrite K task fd buf count
  | .sysRead fd buf count => ElephantOS.sysRead task fd buf count
  | .sysLseek fd offset whence => ElephantOS.sysLseek task fd offset whence

/-- What the arguments of a call lead it to: an error, a copy of some length to the console's buffer, a file of the table. -/
inductive Route
  | refused
  | console (copied : ℕ)
  | file (k : ℕ)
  deriving DecidableEq

def FdCall.route (task : ℕ) : FdCall → FsM Route
  | .sysClose fd =>
    if 2 < fd then do
      let k ← fdLocal2global task fd.toNat
      return .file k
    else return .refused
  | .sysWrite fd _ count =>
    if fd < 0 then return .refused
    else if fd = 1 then return .console count
    else do
      let k ← fdLocal2global task fd.toNat
      let s ← get
      if oWrite (s.fileTable k).fdFlag then return .file k else return .refused
  | .sysRead fd buf _ =>
    if fd < 0 then return .refused
    else do
      assert (buf.isSome = true)
      let k ← fdLocal2global task fd.toNat
      return .file k
  | .sysLseek fd _ whence =>
    if fd < 0 then return .refused
    else do
      assert (0 < whence ∧ whence < 4)
      let k ← fdLocal2global task fd.toNat
      return .file k

def FdCall.act (K : Kernel) (task : ℕ) (c : FdCall) : Route → FsM ℤ
  | .refused => return -1
  | .console copied => do
    bound (copied ≤ 1024)
    return int32 copied
  | .file k =>
    match c with
    | .sysClose fd => do
      let ret ← fileClose k
      modify (setFd task fd.toNat (-1))
      return ret
    | .sysWrite _ buf count => onFile k fun file inode => fileWrite K file inode buf count
    | .sysRead _ buf count => onFile k fun file inode => do
      let (r, file, _) ← fileRead file inode (buf.getD zeros) count
      return (r, file, inode)
    | .sysLseek _ offset whence => onFile k fun file inode =>
      let newPos := seekPos file inode offset whence
      if newPos < 0 ∨ int32 inode.iSize - 1 < newPos then return (-1, file, inode)
      else return (newPos, { file with fdPos := newPos.toNat }, inode)

theorem FdCall.run_eq (K : Kernel) (task : ℕ) (c : FdCall) : c.run K task = c.route task >>= c.act K task := by
  cases c with
  | sysClose fd =>
    simp only [run, route, ElephantOS.sysClose]
    split_ifs
    · simp only [bind_assoc, pure_bind]
      rfl
    · rfl
  | sysWrite fd buf count =>
    simp only [run, route, ElephantOS.sysWrite]
    split_ifs
    · rfl
    · rfl
    · simp only [bind_assoc]
      congr 1
      funext k
      congr 1
      funext s
      split_ifs <;> rfl
  | sysRead fd buf count =>
    simp only [run, route, ElephantOS.sysRead]
    split_ifs
    · rfl
    · simp only [bind_assoc, pure_bind]
      rfl
  | sysLseek fd offset whence =>
    simp only [run, route, ElephantOS.sysLseek]
    split_ifs
    · rfl
    · simp only [bind_assoc, pure_bind]
      rfl

/-- `fd_table` of the task leads from the descriptor to file `k`. -/
def LooksUp (s : Fs) (task : ℕ) (fd : ℤ) (k : ℕ) : Prop :=
  0 ≤ fd ∧ fd < maxFilesOpenPerProc ∧ k < maxFileOpen ∧ s.fdTable task fd.toNat = (k : ℕ)

theorem fdLocal2global_ok {task k : ℕ} {fd : ℤ} (hfd : 0 ≤ fd) {s s' : Fs} : fdLocal2global task fd.toNat s = .ok (k, s') ↔
    s' = s ∧ LooksUp s task fd k := by
  unfold fdLocal2global LooksUp
  simp only [bind_ok, bound_ok, get_ok, assert_ok, pure_ok]
  constructor
  · rintro ⟨_, _, ⟨hj, rfl⟩, _, _, ⟨rfl, rfl⟩, _, _, ⟨⟨hlo, hhi⟩, rfl⟩, rfl, rfl⟩
    exact ⟨rfl, hfd, by omega, by omega, by omega⟩
  · rintro ⟨rfl, -, hj, hk, htable⟩
    exact ⟨(), s', ⟨by omega, rfl⟩, s', s', ⟨rfl, rfl⟩, (), s', ⟨⟨by omega, by omega⟩, rfl⟩, by omega, rfl⟩

section

variable {task : ℕ} {r : Route} {s s' : Fs}

theorem lookUp_ok {fd : ℤ} (hfd : 0 ≤ fd) : (fdLocal2global task fd.toNat >>= fun k => pure (.file k)) s = .ok (r, s') ↔
    s' = s ∧ ∃ k, LooksUp s task fd k ∧ r = .file k := by
  rw [bind_ok]
  constructor
  · rintro ⟨k, s1, hl, hr⟩
    obtain ⟨rfl, hk⟩ := (fdLocal2global_ok hfd).mp hl
    obtain ⟨rfl, rfl⟩ := (pure_ok _ _ _ _).mp hr
    exact ⟨rfl, k, hk, rfl⟩
  · rintro ⟨rfl, k, hk, rfl⟩
    exact ⟨k, s', (fdLocal2global_ok hfd).mpr ⟨rfl, hk⟩, rfl⟩

theorem pure_route {a : Route} : (pure a : FsM Route) s = .ok (r, s') ↔ s' = s ∧ r = a := by
  rw [pure_ok, eq_comm, and_comm, eq_comm (a := s)]

theorem checked_route {c : Prop} [Decidable c] {fd : ℤ} :
    (if fd < 0 then pure .refused else do
      assert c
      let k ← fdLocal2global task fd.toNat
      return .file k : FsM Route) s = .ok (r, s') ↔
    s' = s ∧ (fd < 0 ∧ r = .refused ∨ 0 ≤ fd ∧ c ∧ ∃ k, LooksUp s task fd k ∧ r = .file k) := by
  split_ifs with hneg
  · have : ¬ 0 ≤ fd := by omega
    rw [pure_route]
    simp [this, hneg]
  · have hfd : 0 ≤ fd := by omega
    rw [bind_ok]
    simp only [assert_ok]
    constructor
    · rintro ⟨_, _, ⟨hc, rfl⟩, hl⟩
      obtain ⟨rfl, hk⟩ := (lookUp_ok hfd).mp hl
      exact ⟨rfl, .inr ⟨hfd, hc, hk⟩⟩
    · rintro ⟨rfl, ⟨h, -⟩ | ⟨-, hc, hk⟩⟩
      · exact absurd h hneg
      · exact ⟨(), s', ⟨hc, rfl⟩, (lookUp_ok hfd).mpr ⟨rfl, hk⟩⟩

theorem sysClose_route {fd : ℤ} : (FdCall.sysClose fd).route task s = .ok (r, s') ↔
    s' = s ∧ (fd ≤ 2 ∧ r = .refused ∨ 2 < fd ∧ ∃ k, LooksUp s task fd k ∧ r = .file k) := by
  simp only [FdCall.route]
  split_ifs with h2
  · rw [lookUp_ok (by omega)]
    have : ¬ fd ≤ 2 := by omega
    simp [this, h2]
  · have : fd ≤ 2 := by omega
    rw [pure_route]
    simp [this, h2]

theorem sysRead_route {fd : ℤ} {buf : Option Memory} {count : ℕ} : (FdCall.sysRead fd buf count).route task s = .ok (r, s') ↔
    s' = s ∧ (fd < 0 ∧ r = .refused ∨ 0 ≤ fd ∧ buf.isSome = true ∧ ∃ k, LooksUp s task fd k ∧ r = .file k) := checked_route

theorem sysLseek_route {fd offset : ℤ} {whence : ℕ} : (FdCall.sysLseek fd offset whence).route task s = .ok (r, s') ↔
    s' = s ∧ (fd < 0 ∧ r = .refused ∨ 0 ≤ fd ∧ (0 < whence ∧ whence < 4) ∧ ∃ k, LooksUp s task fd k ∧ r = .file k) := checked_route

theorem sysWrite_route {fd : ℤ} {buf : Memory} {count : ℕ} : (FdCall.sysWrite fd buf count).route task s = .ok (r, s') ↔
    s' = s ∧ (fd < 0 ∧ r = .refused ∨ fd = 1 ∧ r = .console count ∨ (0 ≤ fd ∧ fd ≠ 1) ∧ ∃ k, LooksUp s task fd k ∧
      r = if oWrite (s.fileTable k).fdFlag then .file k else .refused) := by
  simp only [FdCall.route]
  split_ifs with hneg hone
  · have h0 : ¬ 0 ≤ fd := by omega
    have h1 : fd ≠ 1 := by omega
    rw [pure_route]
    simp [h0, h1, hneg]
  · rw [pure_route]
    simp [hone]
  · have hfd : 0 ≤ fd := by omega
    rw [bind_ok]
    constructor
    · rintro ⟨k, s1, hl, hr⟩
      obtain ⟨rfl, hk⟩ := (fdLocal2global_ok hfd).mp hl
      obtain ⟨_, _, hget, hr⟩ := (bind_ok _ _ _ _).mp hr
      obtain ⟨rfl, rfl⟩ := (get_ok _ _ _).mp hget
      split_ifs at hr with hflag
      · obtain ⟨rfl, rfl⟩ := (pure_ok _ _ _ _).mp hr
        exact ⟨rfl, .inr (.inr ⟨⟨hfd, hone⟩, k, hk, by rw [if_pos hflag]⟩)⟩
      · obtain ⟨rfl, rfl⟩ := (pure_ok _ _ _ _).mp hr
        exact ⟨rfl, .inr (.inr ⟨⟨hfd, hone⟩, k, hk, by rw [if_neg hflag]⟩)⟩
    · rintro ⟨rfl, ⟨h, -⟩ | ⟨h, -⟩ | ⟨-, k, hk, rfl⟩⟩
      · exact absurd h hneg
      · exact absurd h hone
      · refine ⟨k, s', (fdLocal2global_ok hfd).mpr ⟨rfl, hk⟩, ?_⟩
        refine (bind_ok _ _ _ _).mpr ⟨s', s', rfl, ?_⟩
        split_ifs <;> rfl

theorem FdCall.route_same {c : FdCall} (h : c.route task s = .ok (r, s')) : s' = s := by
  cases c with
  | sysClose fd => exact (sysClose_route.mp h).1
  | sysWrite fd buf count => exact (sysWrite_route.mp h).1
  | sysRead fd buf count => exact (sysRead_route.mp h).1
  | sysLseek fd offset whence => exact (sysLseek_route.mp h).1

end

/-- `file_write` gives up before it starts: the file would be too long, or there is no memory for a buffer. -/
def WriteRefused (k : Kern) (inode : Inode) (count : ℕ) : Prop :=
  512 * 140 < u32 (inode.iSize + count) ∨ k.heap.grant k.heap.next = false ∨ k.heap.grant (k.heap.next + 1) = false

/-- The transfers of the call stay in their buffers: a write is refused, or stores an inode whose slot lies in one sector. -/
def FdCall.Stays (K : Kernel) (task : ℕ) (s : Fs) : FdCall → Prop
  | .sysWrite fd _ count => ∀ k p, LooksUp s task fd k → oWrite (s.fileTable k).fdFlag = true → (s.fileTable k).fdInode = some p →
      WriteRefused s.kern (s.inodes p) count ∨ InOneSector (K.inodeNo (s.inodes p).iNo)
  | _ => True

/-- The states reached by any calls of any tasks whose transfers stay in their buffers, with the directory handles that are open there. -/
inductive CallRun (K : Kernel) (pool : ℕ → Pool) (s0 : Fs) : Fs → List Dir → Prop
  | init : CallRun K pool s0 s0 []
  | fs {s s' : Fs} {handles handles' : List Dir} {task : ℕ} {c : FsCall} : CallRun K pool s0 s handles → c.Enabled handles →
      c.run K task handles (onTask pool task s) = .ok (handles', s') → CallRun K pool s0 s' handles'
  | fd {s s' : Fs} {handles : List Dir} {task : ℕ} {c : FdCall} {r : ℤ} : CallRun K pool s0 s handles → c.Stays K task (onTask pool task s) →
      c.run K task (onTask pool task s) = .ok (r, s') → CallRun K pool s0 s' handles

/-- The file system is up, and every task has its three standard descriptors. -/
structure Fs.Started (s : Fs) : Prop extends s.Booted where
  standard : ∀ task j, j < 3 → s.fdTable task j = (j : ℕ)

/-- What every run of calls keeps: the descriptors in use have files of their own, and the first three refer to the first three files,
which are never opened. -/
structure CallInv (s : Fs) (handles : List Dir) : Prop where
  fd : FdInv s
  standard : ∀ task j, j < 3 → s.fdTable task j = (j : ℕ)
  unopened : ∀ k < 3, (s.fileTable k).fdInode = none
  refs : ∃ lost, Refs (lost + allRefs s handles) s

section

variable {K : Kernel} {s s' : Fs} {handles : List Dir} {task : ℕ}

theorem CallInv.onTask (h : CallInv s handles) (pool : ℕ → Pool) (task : ℕ) : CallInv (onTask pool task s) handles := by
  obtain ⟨lost, hr⟩ := h.refs
  exact ⟨h.fd.congr (fun _ => rfl) rfl, h.standard, h.unopened, lost, hr.nodup, hr.fresh, hr.count, hr.mem⟩

theorem CallInv.kept (h : CallInv s handles) {held : Multiset Ptr} (hk : Kept held s s') {handles' : List Dir}
    (hr : ∃ lost, Refs (lost + allRefs s' handles') s') : CallInv s' handles' := by
  refine ⟨h.fd.congr hk.fileTable.inode hk.fdTable, ?_, ?_, hr⟩
  · rw [hk.fdTable]
    exact h.standard
  · intro k hk3
    rw [hk.fileTable.inode k]
    exact h.unopened k hk3

theorem CallInv.moves {α : Type} (h : CallInv s handles) {m : FsM α} {a : α} (hm : ∀ base, Moves base 0 m fun _ => 0)
    (hs : m s = .ok (a, s')) : CallInv s' handles := by
  obtain ⟨lost, hr⟩ := h.refs
  obtain ⟨hr', hk⟩ := hm (lost + allRefs s handles) s a s' (by rw [zero_add]; exact hr) hs
  apply h.kept hk
  refine ⟨lost, ?_⟩
  rw [zero_add, ← hk.allRefs handles] at hr'
  exact hr'

theorem allRefs_slot {p : Ptr} (hroot : s'.rootDir = s.rootDir) (hslots : slotRefs s'.fileTable = p ::ₘ slotRefs s.fileTable) :
    allRefs s' handles = p ::ₘ allRefs s handles := by
  unfold allRefs
  rw [hroot, hslots, Multiset.add_cons, Multiset.cons_swap]

theorem CallInv.sysOpen (h : CallInv s handles) {junk : Junk} {pathname : Path} {flags : ℕ} {r : ℤ}
    (hs : ElephantOS.sysOpen K task junk pathname flags s = .ok (r, s')) : CallInv s' handles := by
  obtain ⟨lost, hr⟩ := h.refs
  rcases sysOpen_opened hr hs with ⟨-, ⟨lost', -, hr'⟩, hk⟩ | ⟨k, p, o⟩
  · apply h.kept hk
    refine ⟨lost' + lost, ?_⟩
    rwa [hk.allRefs handles, add_assoc]
  · obtain ⟨lost', -, hr'⟩ := o.refs
    have hfile : ∀ i < 3, (s'.fileTable i).fdInode = (s.fileTable i).fdInode := by
      intro i hi
      rw [o.fileTable.inode i, Function.update_of_ne (by have := o.free.1; omega)]
    refine ⟨o.fdInv h.fd, ?_, ?_, lost' + lost, ?_⟩
    · intro t j hj
      rcases o.fdTable with ⟨j', hfree, -, hfd⟩ | ⟨-, hfd⟩
      · rw [hfd, ← h.standard t j hj]
        have hne : j ≠ j' := by
          have := hfree.1
          omega
        by_cases ht : t = task
        · subst ht
          simp only [setFd, Function.update_self, Function.update_of_ne hne]
        · simp only [setFd, Function.update_of_ne ht]
      · rw [hfd]
        exact h.standard t j hj
    · intro i hi
      rw [hfile i hi]
      exact h.unopened i hi
    · rw [Multiset.add_cons] at hr'
      rw [allRefs_slot o.rootDir ((slotRefs_congr o.fileTable).trans (slotRefs_taken _ o.free.2.1 o.free.2.2 p)), Multiset.add_cons,
        add_assoc]
      exact hr'

theorem CallInv.sysClose (h : CallInv s handles) {fd r : ℤ} (hs : ElephantOS.sysClose task fd s = .ok (r, s')) : CallInv s' handles := by
  rcases sysClose_ok hs with ⟨-, -, rfl⟩ | ⟨j, k, s1, h3, h8, -, h32, hk, h1, rfl⟩
  · exact h
  · have hd : Refers s (task, j) k := ⟨h3, h8, hk⟩
    obtain ⟨p, hp⟩ := Option.ne_none_iff_exists'.mp (h.fd.refers hd).2.2
    obtain ⟨lost, hr⟩ := h.refs
    have hall := @allRefs_slot { s with fileTable := Function.update s.fileTable k { s.fileTable k with fdInode := none } } s handles p rfl
      (slotRefs_freed s.fileTable h32 hp)
    rw [hall, Multiset.add_cons] at hr
    obtain ⟨-, hf⟩ := fileClose_ok hp hr h1
    refine ⟨h.fd.closed hd hf, ?_, ?_, lost, ?_⟩
    · intro t i hi
      have hne : i ≠ j := by omega
      rw [← h.standard t i hi, ← hf.fdTable]
      by_cases ht : t = task
      · subst ht
        simp only [setFd, Function.update_self, Function.update_of_ne hne]
      · simp only [setFd, Function.update_of_ne ht]
    · intro i hi
      change (s1.fileTable i).fdInode = none
      rw [hf.fileTable.inode i, Function.update_of_ne (by have := (h.fd.refers hd).1; omega)]
      exact h.unopened i hi
    · have hr1 := hf.refs
      have hsame : allRefs (setFd task j (-1) s1) handles =
          allRefs { s with fileTable := Function.update s.fileTable k { s.fileTable k with fdInode := none } } handles := by
        unfold allRefs
        rw [← slotRefs_congr hf.fileTable, ← hf.rootDir]
        rfl
      rw [hsame]
      exact ⟨hr1.nodup, hr1.fresh, hr1.count, hr1.mem⟩

theorem slotRefs_inode {t t' : ℕ → File} (h : ∀ k, (t' k).fdInode = (t k).fdInode) : slotRefs t' = slotRefs t := by
  apply Finset.sum_congr rfl
  intro k _
  rw [h k]

theorem CallInv.onFile (h : CallInv s handles) {k : ℕ} {m : File → Inode → KernM (ℤ × File × Inode)} {r : ℤ}
    (hm : ∀ file inode, Gives (m file inode) fun a => a.2.1.fdInode = file.fdInode ∧ inode.SameRef a.2.2)
    (hs : ElephantOS.onFile k m s = .ok (r, s')) : CallInv s' handles := by
  unfold ElephantOS.onFile at hs
  rw [bind_ok] at hs
  obtain ⟨_, _, hget, hs⟩ := hs
  obtain ⟨rfl, rfl⟩ := (get_ok _ _ _).mp hget
  cases hp : (s.fileTable k).fdInode with
  | none => simp [hp] at hs
  | some p =>
    simp only [hp, bind_ok, modify_ok, pure_ok] at hs
    obtain ⟨⟨r', file, inode⟩, s1, hl, _, _, rfl, _, _, rfl, -, rfl⟩ := hs
    obtain ⟨k1, hk1, rfl⟩ := (liftKern_ok _ _ _ _).mp hl
    obtain ⟨hsteady, hfile, hinode⟩ := hm _ _ _ _ _ hk1
    obtain ⟨lost, hr⟩ := h.refs
    have hinodes : ∀ i, ((setFile k file s).fileTable i).fdInode = (s.fileTable i).fdInode := by
      intro i
      by_cases hi : i = k
      · subst hi
        simp only [setFile, Function.update_self]
        exact hfile
      · simp only [setFile, Function.update_of_ne hi]
    have hall : allRefs (setFile k file s) handles = allRefs s handles := by
      unfold allRefs
      rw [slotRefs_inode hinodes]
      rfl
    refine ⟨h.fd.congr hinodes rfl, h.standard, ?_, lost, ?_⟩
    · intro i hi
      exact (hinodes i).trans (h.unopened i hi)
    · have hr1 := (hr.kern hsteady.next).setInode (fun _ => hinode.iOpenCnts.symm)
      rw [← hall] at hr1
      exact ⟨hr1.nodup, hr1.fresh, hr1.count, hr1.mem⟩

theorem firstBlock_gives (K : Kernel) (inode : Inode) : Gives (firstBlock K inode) fun a => inode.Relinked a.2 := by
  unfold firstBlock
  split_ifs
  · apply Gives.step (Quiet.blockBitmapAlloc K)
    intro lba
    cases lba with
    | none => exact Gives.pure (Inode.Relinked.refl _)
    | some lba =>
      apply Gives.step (Quiet.assert _)
      intro _
      apply Gives.step (Quiet.bitmapSync _ _ _)
      intro _
      exact Gives.pure (Inode.Relinked.setSector inode 0 lba)
  · exact Gives.pure (Inode.Relinked.refl _)

theorem growLoop_gives (K : Kernel) (direct : ℕ → Bool) (more idx : ℕ) (inode : Inode) (all : ℕ → ℕ) :
    Gives (growLoop K direct more idx inode all) fun a => inode.Relinked a.2.1 := by
  induction more generalizing idx inode all with
  | zero => exact Gives.pure (Inode.Relinked.refl _)
  | succ more ih =>
    unfold growLoop
    apply Gives.step (Quiet.blockBitmapAlloc K)
    intro lba
    cases lba with
    | none => exact Gives.pure (Inode.Relinked.refl _)
    | some lba =>
      apply Gives.step (Quiet.assert _)
      intro _
      apply Gives.step (Quiet.bitmapSync _ _ _)
      intro _
      apply Gives.mono (ih _ _ _)
      intro a ha
      split_ifs at ha
      · exact (Inode.Relinked.setSector inode idx lba).trans ha
      · exact ha

theorem collectBlocks_gives (K : Kernel) (has will : ℕ) (inode : Inode) :
    Gives (collectBlocks K has will inode) fun a => inode.Relinked a.2.1 := by
  -- the two cases that write the indirect table
  have hgrown : ∀ (table : Inode → ℕ) (a : Bool × Inode × (ℕ → ℕ)), inode.Relinked a.2.1 →
      Gives (if a.1 = true then do
          writeTable (table a.2.1) a.2.2
          return (true, a.2.1, a.2.2)
        else return (false, a.2.1, a.2.2) : KernM (Bool × Inode × (ℕ → ℕ))) fun r => inode.Relinked r.2.1 := by
    intro table a ha
    split_ifs
    · apply Gives.step (Quiet.ideWrite _ _ _)
      intro _
      exact Gives.pure ha
    · exact Gives.pure ha
  unfold collectBlocks
  split_ifs
  · exact Gives.pure (Inode.Relinked.refl _)
  · apply Gives.step (Quiet.assert _)
    intro _
    apply Gives.step (Quiet.readTable _ _)
    intro _
    exact Gives.pure (Inode.Relinked.refl _)
  · apply Gives.step (Quiet.bound _)
    intro _
    apply Gives.step (Quiet.assert _)
    intro _
    exact growLoop_gives K _ _ _ _ _
  · apply Gives.step (Quiet.blockBitmapAlloc K)
    intro lba
    cases lba with
    | none => exact Gives.pure (Inode.Relinked.refl _)
    | some lba =>
      apply Gives.step (Quiet.assert _)
      intro _
      apply Gives.bind (growLoop_gives K _ _ _ _ _)
      intro a ha
      exact hgrown (fun _ => lba) a ((Inode.Relinked.setSector inode 12 lba).trans ha)
  · apply Gives.step (Quiet.assert _)
    intro _
    apply Gives.step (Quiet.readTable _ _)
    intro _
    apply Gives.bind (growLoop_gives K _ _ _ _ _)
    intro a ha
    exact hgrown (fun inode => inode.iSectors 12) a ha

theorem writeLoop_gives (blocks : ℕ → ℕ) (buf : Memory) (count fuel n : ℕ) (first : Bool) (io : Buffer) (file : File) (inode : Inode) :
    Gives (writeLoop blocks buf count fuel n first io file inode) fun a => a.2.2.1.fdInode = file.fdInode ∧ inode.SameRef a.2.2.2 := by
  induction fuel generalizing n first io file inode with
  | zero => exact Gives.pure ⟨rfl, Inode.SameRef.refl _⟩
  | succ fuel ih =>
    unfold writeLoop
    split_ifs
    · apply Gives.step (Quiet.bound _)
      intro _
      apply Gives.step
      · unfold loadSector
        split_ifs
        · exact Quiet.ideRead _ _ _
        · exact Quiet.pure _
      · intro _
        apply Gives.step (Quiet.ideWrite _ _ _)
        intro _
        apply Gives.mono (ih _ _ _ _ _)
        rintro a ⟨hfile, hinode⟩
        exact ⟨hfile, (Inode.SameRef.size _ _).trans hinode⟩
    · exact Gives.pure ⟨rfl, Inode.SameRef.refl _⟩

theorem fileWrite_gives (K : Kernel) (file : File) (inode : Inode) (buf : Memory) (count : ℕ) :
    Gives (fileWrite K file inode buf count) fun a => a.2.1.fdInode = file.fdInode ∧ inode.SameRef a.2.2 := by
  have hfail : Gives (pure (-1, file, inode) : KernM (ℤ × File × Inode)) fun a => a.2.1.fdInode = file.fdInode ∧ inode.SameRef a.2.2 :=
    Gives.pure ⟨rfl, Inode.SameRef.refl _⟩
  unfold fileWrite
  split_ifs
  · exact hfail
  · apply Gives.step (Quiet.sysMalloc _)
    intro io
    cases io with
    | none => exact hfail
    | some io =>
      apply Gives.step (Quiet.sysMalloc _)
      intro all
      cases all with
      | none => exact hfail
      | some all =>
        apply Gives.bind (firstBlock_gives K inode)
        rintro ⟨ok, inode₁⟩ h₁
        cases ok with
        | false => exact Gives.pure ⟨rfl, h₁.toSameRef⟩
        | true =>
          apply Gives.step (Quiet.assert _)
          intro _
          apply Gives.bind (collectBlocks_gives K _ _ _)
          rintro ⟨ok, inode₂, blocks⟩ h₂
          cases ok with
          | false => exact Gives.pure ⟨rfl, (h₁.trans h₂).toSameRef⟩
          | true =>
            apply Gives.bind (writeLoop_gives _ _ _ _ _ _ _ _ _)
            rintro ⟨n, io', file', inode₃⟩ ⟨hfile, h₃⟩
            apply Gives.step (Quiet.inodeSync _ _ _)
            intro _
            apply Gives.step (Quiet.sysFree _)
            intro _
            apply Gives.step (Quiet.sysFree _)
            intro _
            exact Gives.pure ⟨hfile, (h₁.trans h₂).toSameRef.trans h₃⟩

theorem Quiet.readBlocks (inode : Inode) (lo hi : ℕ) : Quiet (ElephantOS.readBlocks inode lo hi) := by
  unfold ElephantOS.readBlocks
  split_ifs
  · exact Quiet.pure _
  · exact Quiet.readTable _ _
  · exact Quiet.pure _
  · exact Quiet.bind (Quiet.assert _) fun _ => Quiet.readTable _ _
  · exact Quiet.bind (Quiet.assert _) fun _ => Quiet.readTable _ _

theorem readLoop_gives (blocks : ℕ → ℕ) (size fuel n : ℕ) (io : Option Buffer) (file : File) (buf : Memory) :
    Gives (readLoop blocks size fuel n io file buf) fun a => a.2.1.fdInode = file.fdInode := by
  induction fuel generalizing n io file buf with
  | zero => exact Gives.pure rfl
  | succ fuel ih =>
    unfold readLoop
    split_ifs
    · apply Gives.step (Quiet.bound _)
      intro _
      cases io with
      | none => exact Gives.halt _
      | some io =>
        apply Gives.step (Quiet.ideRead _ _ _)
        intro _
        exact ih _ _ _ _
    · exact Gives.pure rfl

theorem fileRead_gives (file : File) (inode : Inode) (buf : Memory) (count : ℕ) :
    Gives (fileRead file inode buf count) fun a => a.2.1.fdInode = file.fdInode := by
  unfold fileRead
  dsimp only
  generalize (if u32 (file.fdPos + count) > inode.iSize then u32 (inode.iSize + 2 ^ 32 - file.fdPos) else count) = size
  split_ifs
  · exact Gives.pure rfl
  · apply Gives.step (Quiet.sysMalloc _)
    intro io
    apply Gives.step (Quiet.sysMalloc _)
    intro all
    cases all with
    | none => exact Gives.pure rfl
    | some all =>
      apply Gives.step (Quiet.assert _)
      intro _
      apply Gives.step (Quiet.readBlocks _ _ _)
      intro blocks
      apply Gives.bind (readLoop_gives _ _ _ _ _ _ _)
      rintro ⟨n, file', buf'⟩ hfile
      apply Gives.step (Quiet.sysFree _)
      intro _
      cases io with
      | none => exact Gives.halt _
      | some io =>
        apply Gives.step (Quiet.sysFree _)
        intro _
        exact Gives.pure hfile

theorem CallInv.fdCall (h : CallInv s handles) {c : FdCall} {r : ℤ} (hs : c.run K task s = .ok (r, s')) : CallInv s' handles := by
  by_cases hclose : ∃ fd, c = .sysClose fd
  · obtain ⟨fd, rfl⟩ := hclose
    exact h.sysClose hs
  rw [FdCall.run_eq, bind_ok] at hs
  obtain ⟨route, s1, hroute, hs⟩ := hs
  obtain rfl := FdCall.route_same hroute
  cases route with
  | refused =>
    obtain ⟨-, rfl⟩ := (pure_ok _ _ _ _).mp hs
    exact h
  | console copied =>
    simp only [FdCall.act, bind_ok, bound_ok, pure_ok] at hs
    obtain ⟨_, _, ⟨-, rfl⟩, -, rfl⟩ := hs
    exact h
  | file k =>
    cases c with
    | sysClose fd => exact absurd ⟨fd, rfl⟩ hclose
    | sysWrite fd buf count => exact h.onFile (fun file inode => fileWrite_gives K file inode buf count) hs
    | sysRead fd buf count =>
      simp only [FdCall.act] at hs
      refine h.onFile ?_ hs
      intro file inode
      apply Gives.bind (fileRead_gives file inode _ count)
      rintro ⟨n, file', buf'⟩ hfile
      exact Gives.pure ⟨hfile, Inode.SameRef.refl _⟩
    | sysLseek fd offset whence =>
      simp only [FdCall.act] at hs
      refine h.onFile ?_ hs
      intro file inode
      split_ifs
      · exact Gives.pure ⟨rfl, Inode.SameRef.refl _⟩
      · exact Gives.pure ⟨rfl, Inode.SameRef.refl _⟩

theorem CallInv.sysOpendir (h : CallInv s handles) {junk : Junk} {name : Path} {d : Option Dir}
    (hs : ElephantOS.sysOpendir K junk name s = .ok (d, s')) : CallInv s' (d.toList ++ handles) := by
  obtain ⟨lost, hr⟩ := h.refs
  obtain ⟨hr', hk⟩ := @sysOpendir_moves (lost + allRefs s handles) 0 K junk name s d s' (by rw [zero_add]; exact hr) hs
  apply h.kept hk
  refine ⟨lost, ?_⟩
  dsimp only at hr'
  rw [add_zero, ← hk.allRefs handles, add_left_comm] at hr'
  cases d with
  | none =>
    rw [handleRefs, Option.elim_none, zero_add] at hr'
    exact hr'
  | some d =>
    simp only [allRefs, Option.toList_some, List.singleton_append, List.map_cons, List.sum_cons, add_assoc]
    rw [← Multiset.add_cons]
    exact hr'

theorem CallInv.sysClosedir (h : CallInv s handles) {d : Dir} {r : ℤ} (hd : d ∈ handles)
    (hs : ElephantOS.sysClosedir (some d) s = .ok (r, s')) : CallInv s' (handles.erase d) := by
  unfold ElephantOS.sysClosedir at hs
  simp only [bind_ok] at hs
  obtain ⟨_, s1, h1, hs⟩ := hs
  obtain ⟨-, rfl⟩ := (pure_ok _ _ _ _).mp hs
  obtain ⟨lost, hr⟩ := h.refs
  have hsum : (handles.map dirRefs).sum = dirRefs d + ((handles.erase d).map dirRefs).sum := by
    rw [← List.sum_cons, ← List.map_cons]
    exact ((List.perm_cons_erase hd).map dirRefs).sum_eq
  have hall : allRefs s handles = dirRefs d + allRefs s (handles.erase d) := by
    unfold allRefs
    rw [hsum, add_assoc, ← Multiset.add_cons]
  rw [hall, add_left_comm] at hr
  obtain ⟨hr1, hk⟩ := dirClose_refs hr h1
  apply h.kept hk
  refine ⟨lost, ?_⟩
  rwa [hk.allRefs]

theorem CallInv.fsCall (h : CallInv s handles) {c : FsCall} (hen : c.Enabled handles) {handles' : List Dir}
    (hs : c.run K task handles s = .ok (handles', s')) : CallInv s' handles' := by
  cases c <;> simp only [FsCall.run, bind_ok] at hs <;> obtain ⟨r, s1, h1, hs⟩ := hs <;>
    obtain ⟨rfl, rfl⟩ := (pure_ok _ _ _ _).mp hs
  case sysOpen => exact h.sysOpen h1
  case sysClose => exact h.sysClose h1
  case sysMkdir => exact h.moves (fun _ => sysMkdir_moves K _ _) h1
  case sysUnlink => exact h.moves (fun _ => sysUnlink_moves K _ _) h1
  case sysRmdir => exact h.moves (fun _ => sysRmdir_moves K _ _) h1
  case sysOpendir => exact h.sysOpendir h1
  case sysClosedir d =>
    cases d with
    | none =>
      obtain ⟨-, rfl⟩ := (pure_ok _ _ _ _).mp h1
      exact h
    | some d => exact h.sysClosedir hen h1
  case sysChdir => exact h.moves (fun _ => sysChdir_moves K _ _ _) h1
  case sysStat => exact h.moves (fun _ => sysStat_moves K _ _) h1

end

theorem CallRun.inv {K : Kernel} {pool : ℕ → Pool} {s0 s : Fs} {handles : List Dir} (h0 : s0.Started) (h : CallRun K pool s0 s handles) :
    CallInv s handles := by
  induction h with
  | init =>
    refine ⟨h0.toBooted.tableInv.1.fd, h0.standard, fun k _ => h0.fileTable k, 0, ?_⟩
    rw [zero_add, allRefs, h0.toBooted.slotRefs]
    exact h0.toBooted.refs
  | fs _ hen hrun ih => exact (ih.onTask _ _).fsCall hen hrun
  | fd _ _ hrun ih => exact (ih.onTask _ _).fdCall hrun

def OpenFd (s : Fs) (task : ℕ) (fd : ℤ) : Prop := 3 ≤ fd ∧ fd < maxFilesOpenPerProc ∧ s.fdTable task fd.toNat ≠ -1

/-- The call fails, or writes to the console from its buffer, or acts on an open file through a descriptor of the task's own. -/
def Confined (task : ℕ) (c : FdCall) (s : Fs) : Prop := ∃ r, c.route task s = .ok (r, s) ∧
  match r with
  | .refused => True
  | .console copied => c.fd = 1 ∧ copied ≤ 1024
  | .file k => OpenFd s task c.fd ∧ s.fdTable task c.fd.toNat = (k : ℕ) ∧ Occupied s k

def FdCall.Fits (task : ℕ) (s : Fs) : FdCall → Prop
  | .sysClose fd => fd ≤ 2 ∨ OpenFd s task fd
  | .sysWrite fd _ count => fd < 0 ∨ fd = 1 ∧ count ≤ 1024 ∨
      (fd = 0 ∨ fd = 2) ∧ oWrite (s.fileTable fd.toNat).fdFlag = false ∨ OpenFd s task fd
  | .sysRead fd buf _ => fd < 0 ∨ buf.isSome = true ∧ OpenFd s task fd
  | .sysLseek fd _ whence => fd < 0 ∨ (0 < whence ∧ whence < 4) ∧ OpenFd s task fd

section

variable {s : Fs} {handles : List Dir} {task : ℕ} {fd : ℤ}

theorem CallInv.openFd (h : CallInv s handles) (hfd : OpenFd s task fd) : ∃ k, LooksUp s task fd k ∧ Occupied s k := by
  obtain ⟨h3, h8, hne⟩ := hfd
  rcases h.fd.range task fd.toNat (by omega) (by omega) with hneg | ⟨k, -, h32, hk, hocc⟩
  · exact absurd hneg hne
  · exact ⟨k, ⟨by omega, h8, h32, hk⟩, hocc⟩

theorem LooksUp.open {k : ℕ} (h : LooksUp s task fd k) (h3 : 3 ≤ fd) : OpenFd s task fd := by
  obtain ⟨-, h8, -, hk⟩ := h
  refine ⟨h3, h8, ?_⟩
  rw [hk]
  omega

theorem LooksUp.unique {k k' : ℕ} (h : LooksUp s task fd k) (h' : LooksUp s task fd k') : k = k' := by
  have := h.2.2.2
  have := h'.2.2.2
  omega

theorem CallInv.standard_lookUp (h : CallInv s handles) (h0 : 0 ≤ fd) (h3 : fd < 3) : LooksUp s task fd fd.toNat := by
  refine ⟨h0, ?_, ?_, h.standard task fd.toNat (by omega)⟩
  · unfold maxFilesOpenPerProc
    omega
  · unfold maxFileOpen
    omega

end

theorem oneFile_started : oneFile.Started := by
  refine ⟨oneFile_booted, ?_⟩
  intro task j hj
  exact if_pos hj

end ElephantOS
