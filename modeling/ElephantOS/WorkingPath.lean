import Mathlib.Data.List.Flatten
import ElephantOS.WorkingDirectory
import ElephantOS.TransferBuffers

namespace ElephantOS

open ByteMemory HaltingState

/-- A directory tree whose directories have a parent and a depth: every directory but the root is entered once, under its parent,
and its second entry is `..`; free slots are cleared. -/
structure WellFormed (K : Kernel) (s : Fs) (dirs : Set ℕ) (parent depth : ℕ → ℕ) : Prop extends Tree K s dirs where
  data : 0 < K.sb.dataStartLba
  block : ∀ n ∈ dirs, K.sb.dataStartLba ≤ (theInode K s n).iSectors 0
  dot : ∀ n ∈ dirs, ∀ pos e, entries K s n pos = some e → e.name = dot → e.iNo = n
  dotDot : ∀ n ∈ dirs, n ≠ 0 → entries K s n (0, 1) = some ⟨ElephantOS.dotDot, parent n, .directory⟩
  listed : ∀ n ∈ dirs, n ≠ 0 → ∃ pos e, entries K s (parent n) pos = some e ∧ e.iNo = n ∧ e.fType = .directory ∧
    e.name ≠ ElephantOS.dot ∧ e.name ≠ ElephantOS.dotDot
  once : ∀ p ∈ dirs, ∀ q ∈ dirs, ∀ pos pos' e e', entries K s p pos = some e → entries K s q pos' = some e' →
    e.name ≠ ElephantOS.dot → e.name ≠ ElephantOS.dotDot → e'.name ≠ ElephantOS.dot → e'.name ≠ ElephantOS.dotDot → e.iNo = e'.iNo →
    p = q ∧ pos = pos'
  deeper : ∀ n ∈ dirs, n ≠ 0 → depth n = depth (parent n) + 1
  cleared : ∀ n ∈ dirs, ∀ pos, Slot s.kern.disk (theInode K s n) pos →
    (entryAt s.kern.disk (slotAddr s.kern.disk (theInode K s n) pos)).fType = .unknown →
    (entryAt s.kern.disk (slotAddr s.kern.disk (theInode K s n) pos)).iNo = 0
  below : ∀ n ∈ dirs, ∀ pos e, entries K s n pos = some e → e.name ≠ ElephantOS.dot → e.name ≠ ElephantOS.dotDot →
    e.iNo ≠ 0 ∧ slash ∉ e.name

section

variable {K : Kernel} {s : Fs} {dirs : Set ℕ} {parent depth : ℕ → ℕ}

namespace WellFormed

theorem parent_mem (h : WellFormed K s dirs parent depth) {n : ℕ} (hn : n ∈ dirs) (h0 : n ≠ 0) : parent n ∈ dirs := by
  rcases h.kinds n hn _ _ (h.dotDot n hn h0) with ⟨-, hmem⟩ | ⟨hf, -⟩
  · exact hmem
  · cases hf

theorem upLink (h : WellFormed K s dirs parent depth) {n : ℕ} (hn : n ∈ dirs) (h0 : n ≠ 0) : UpLink K s n (parent n) := by
  obtain ⟨hslot, -, hentry⟩ := slotMap_eq_some.mp (h.dotDot n hn h0)
  have hentry' : entryAt s.kern.disk ((theInode K s n).iSectors 0 * 512 + 24) = ⟨ElephantOS.dotDot, parent n, .directory⟩ := hentry
  have hle := h.onDisk n hn 0 (by omega)
  rw [refAddr_block _ _ (by omega)] at hle
  refine ⟨h.block n hn, hle, ?_, ?_, (h.number _ (h.parent_mem hn h0)).1⟩
  · rw [hentry']
  · rw [hentry']

theorem up (h : WellFormed K s dirs parent depth) {n : ℕ} (hn : n ∈ dirs) {pos : ℕ × ℕ} {e : Entry} (he : entries K s n pos = some e)
    (hname : e.name = ElephantOS.dotDot) : e.iNo = if n = 0 then 0 else parent n := by
  split_ifs with h0
  · subst h0
    obtain ⟨pos', e', he', hname', -, hno⟩ := h.dots ElephantOS.dotDot (by simp)
    rw [h.unique 0 h.root pos pos' e e' he he' (hname.trans hname'.symm)]
    exact hno
  · rw [h.unique n hn pos (0, 1) e _ he (h.dotDot n hn h0) hname]

theorem called (h : WellFormed K s dirs parent depth) {n : ℕ} (hn : n ∈ dirs) (h0 : n ≠ 0) {pos : ℕ × ℕ} {e : Entry}
    (he : entries K s (parent n) pos = some e) (hno : e.iNo = n) (hdot : e.name ≠ ElephantOS.dot) (hdotDot : e.name ≠ ElephantOS.dotDot) :
    Called K s (parent n) n e.name := by
  have hp := h.parent_mem hn h0
  have hdeep := h.deeper n hn h0
  obtain ⟨hslot, -, hentry⟩ := slotMap_eq_some.mp he
  refine ⟨pos, ⟨hslot, by rw [hentry, hno], ?_⟩, by rw [hentry]⟩
  intro pos' hbefore hslot' hno'
  by_cases hfree : (entryAt s.kern.disk (slotAddr s.kern.disk (theInode K s (parent n)) pos')).fType = .unknown
  · rw [h.cleared _ hp pos' hslot' hfree] at hno'
    exact h0 hno'.symm
  have he' : entries K s (parent n) pos' = some (entryAt s.kern.disk (slotAddr s.kern.disk (theInode K s (parent n)) pos')) :=
    slotMap_eq_some.mpr ⟨hslot', hfree, rfl⟩
  by_cases hd : (entryAt s.kern.disk (slotAddr s.kern.disk (theInode K s (parent n)) pos')).name = ElephantOS.dot
  · have hself := h.dot _ hp pos' _ he' hd
    rw [hno'] at hself
    rw [← hself] at hdeep
    omega
  by_cases hdd : (entryAt s.kern.disk (slotAddr s.kern.disk (theInode K s (parent n)) pos')).name = ElephantOS.dotDot
  · have hup := h.up hp he' hdd
    rw [hno'] at hup
    split_ifs at hup with hp0
    · exact h0 hup
    · have hdeep' := h.deeper _ hp hp0
      rw [← hup] at hdeep'
      omega
  · obtain ⟨-, rfl⟩ := h.once _ hp _ hp pos pos' e _ he he' hdot hdotDot hd hdd (hno.trans hno'.symm)
    rcases hbefore with hlt | ⟨-, hlt⟩
    · exact lt_irrefl _ hlt
    · exact lt_irrefl _ hlt

end WellFormed

inductive Chain (K : Kernel) (s : Fs) (parent : ℕ → ℕ) : ℕ → List Name → Prop
  | root : Chain K s parent 0 []
  | up {n : ℕ} {pos : ℕ × ℕ} {e : Entry} {names : List Name} : n ≠ 0 → entries K s (parent n) pos = some e → e.iNo = n →
      e.fType = .directory → e.name ≠ dot → e.name ≠ dotDot → Chain K s parent (parent n) names → Chain K s parent n (e.name :: names)

theorem WellFormed.chain (h : WellFormed K s dirs parent depth) {n : ℕ} (hn : n ∈ dirs) : ∃ names, Chain K s parent n names := by
  induction hd : depth n generalizing n with
  | zero =>
    by_cases h0 : n = 0
    · rw [h0]
      exact ⟨[], .root⟩
    · have := h.deeper n hn h0
      omega
  | succ d ih =>
    by_cases h0 : n = 0
    · rw [h0]
      exact ⟨[], .root⟩
    · have hdeep := h.deeper n hn h0
      obtain ⟨names, hnames⟩ := ih (h.parent_mem hn h0) (by omega)
      obtain ⟨pos, e, he, hno, htype, hdot, hdotDot⟩ := h.listed n hn h0
      exact ⟨e.name :: names, .up h0 he hno htype hdot hdotDot hnames⟩

theorem Chain.climbs (h : WellFormed K s dirs parent depth) {n : ℕ} {names : List Name} (hchain : Chain K s parent n names) (hn : n ∈ dirs) :
    Climbs K s n (slashed names) := by
  induction hchain with
  | root => exact .root
  | @up n pos e names h0 he hno htype hdot hdotDot _ ih =>
    exact .up h0 (h.upLink hn h0) (h.called hn h0 he hno hdot hdotDot) (ih (h.parent_mem hn h0))

theorem Walks.trans {M : ℕ → ℕ × ℕ → Option Entry} {n m i : ℕ} {names rest : List Name} (h : Walks M n names m) (h' : Walks M m rest i) :
    Walks M n (names ++ rest) i := by
  induction h with
  | here n => exact h'
  | down he hd _ ih => exact .down he hd (ih h')

theorem Chain.root_of_nil {n : ℕ} (h : Chain K s parent n []) : n = 0 := by
  cases h
  rfl

theorem Chain.walks {n : ℕ} {names : List Name} (h : Chain K s parent n names) : Walks (entries K s) 0 names.reverse n := by
  induction h with
  | root => exact .here 0
  | @up n pos e names h0 he hno htype _ _ _ ih =>
    rw [List.reverse_cons]
    apply ih.trans
    apply Walks.down he htype
    rw [hno]
    exact .here n

theorem Chain.plain (h : WellFormed K s dirs parent depth) {n : ℕ} {names : List Name} (hchain : Chain K s parent n names) (hn : n ∈ dirs) :
    ∀ name ∈ names, name ≠ [] ∧ name ≠ dot ∧ name ≠ dotDot ∧ slash ∉ name ∧ name.length < 16 ∧ 0 ∉ name := by
  induction hchain with
  | root =>
    intro name hname
    cases hname
  | @up n pos e names h0 he hno htype hdot hdotDot _ ih =>
    have hp := h.parent_mem hn h0
    intro name hname
    rcases List.mem_cons.mp hname with rfl | hname
    · obtain ⟨hslot, hlive, hentry⟩ := slotMap_eq_some.mp he
      obtain ⟨hlen, hfree⟩ := h.slots _ hp _ hslot
      rw [hentry] at hlen hfree
      refine ⟨fun hnil => hlive (hfree.mpr hnil), hdot, hdotDot, (h.below _ hp pos e he hdot hdotDot).2, hlen, ?_⟩
      rw [← hentry]
      exact zero_notMem_nameFrom _ _ _
    · exact ih hp name hname

theorem Walks.chain (h : WellFormed K s dirs parent depth) {m n : ℕ} {rest : List Name} (hwalks : Walks (entries K s) m rest n)
    (hm : m ∈ dirs) {names : List Name} (hchain : Chain K s parent m names) :
    ∃ names', Chain K s parent n names' ∧ names'.reverse.Sublist (names.reverse ++ rest) := by
  induction hwalks generalizing names with
  | here n =>
    rw [List.append_nil]
    exact ⟨names, hchain, List.Sublist.refl _⟩
  | @down m i pos e rest he hd _ ih =>
    have hmem : e.iNo ∈ dirs := by
      rcases h.kinds m hm pos e he with ⟨-, hmem⟩ | ⟨hf, -⟩
      · exact hmem
      · rw [hd] at hf
        cases hf
    have hskip : (names.reverse ++ rest).Sublist (names.reverse ++ e.name :: rest) :=
      List.Sublist.append_left (List.sublist_cons_self _ _) _
    by_cases hdot : e.name = dot
    · have hself := h.dot m hm pos e he hdot
      rw [hself] at ih
      obtain ⟨names', hchain', hsub⟩ := ih hm hchain
      exact ⟨names', hchain', hsub.trans hskip⟩
    by_cases hdotDot : e.name = dotDot
    · have hup := h.up hm he hdotDot
      split_ifs at hup with h0
      · rw [hup, ← h0] at ih
        obtain ⟨names', hchain', hsub⟩ := ih hm hchain
        exact ⟨names', hchain', hsub.trans hskip⟩
      · cases hchain with
        | root => exact absurd rfl h0
        | @up _ pos' e' names₁ _ _ _ _ _ _ hchain₁ =>
          rw [hup] at ih
          obtain ⟨names', hchain', hsub⟩ := ih (h.parent_mem hm h0) hchain₁
          refine ⟨names', hchain', hsub.trans ?_⟩
          rw [List.reverse_cons, List.append_assoc]
          apply List.Sublist.append_left
          exact (List.sublist_cons_self _ _).trans (List.sublist_cons_self _ _)
    · obtain ⟨hne, -⟩ := h.below m hm pos e he hdot hdotDot
      obtain ⟨pos', e', he', hno', -, hdot', hdotDot'⟩ := h.listed _ hmem hne
      obtain ⟨hparent, -⟩ := h.once m hm _ (h.parent_mem hmem hne) pos pos' e e' he he' hdot hdotDot hdot' hdotDot' hno'.symm
      have hnext : Chain K s parent e.iNo (e.name :: names) := by
        refine @Chain.up K s parent e.iNo pos e names hne ?_ rfl hd hdot hdotDot ?_
        · rw [← hparent]
          exact he
        · rw [← hparent]
          exact hchain
      obtain ⟨names', hchain', hsub⟩ := ih hmem hnext
      refine ⟨names', hchain', ?_⟩
      rwa [List.reverse_cons, List.append_assoc] at hsub

end

theorem slashed_cons (name : Name) (names : List Name) : slashed (name :: names) = slash :: name ++ slashed names := rfl

theorem slashed_reverse_length (names : List Name) : (slashed names.reverse).length = (slashed names).length := by
  induction names with
  | nil => rfl
  | cons name names ih =>
    rw [List.reverse_cons, slashed_append, slashed_single, slashed_cons, List.length_append, List.length_append, ih, Nat.add_comm]

theorem slashed_length_le {names names' : List Name} (h : names.Sublist names') : (slashed names).length ≤ (slashed names').length :=
  (h.flatMap _).length_le

theorem components_length {path : Path} (h : path.head? = some slash) : (slashed (components path)).length ≤ path.length := by
  induction hlen : path.length using Nat.strong_induction_on generalizing path with
  | _ len ih =>
    have hparse := pathParse_length h
    rw [components_eq]
    split_ifs with hnil
    · exact Nat.zero_le _
    · rw [slashed_cons, List.length_append, List.length_cons]
      cases hrest : (pathParse path).2 with
      | none =>
        rw [hrest] at hparse
        simp only [Option.getD_none, List.length_nil] at hparse ⊢
        change _ + 0 ≤ _
        omega
      | some rest =>
        rw [hrest, Option.getD_some] at hparse
        rw [Option.getD_some]
        obtain ⟨-, -, -, -, -, -, hhead⟩ := pathParse_split path
        have hshort := ih rest.length (by omega) (hhead rest hrest) rfl
        omega

theorem components_slashed {names : List Name} (h : ∀ name ∈ names, name ≠ [] ∧ slash ∉ name) : components (slashed names) = names := by
  induction names with
  | nil => rfl
  | cons name names ih =>
    obtain ⟨⟨hne, hslash⟩, hrest⟩ := List.forall_mem_cons.mp h
    rw [slashed_cons, List.cons_append, components_slash]
    cases names with
    | nil =>
      have hnil : name ++ slashed [] = name := List.append_nil name
      rw [hnil, components_single hslash, if_neg hne]
    | cons name' names' =>
      have hih := ih hrest
      rw [slashed_cons, List.cons_append, components_slash] at hih
      rw [slashed_cons, List.cons_append, components_append_slash _ _ hslash, if_neg hne, hih]
      rfl

section

variable {K : Kernel} {s s' : Fs} {held : Multiset Ptr} {dirs : Set ℕ}

theorem Watching.settled (h : Watching K s held 0 s') (hset : s.Settled K held) : s'.Settled K held := by
  have hrefs := h.refs
  rw [zero_add] at hrefs
  have hroot : s.rootDir ∈ held := (hset.refs.mem _).mpr hset.rootDir
  refine ⟨hset.table, hset.entrySize, hrefs, h.plenty, h.kernel, h.linked, h.distinct, ?_, ?_⟩
  · rw [h.rootDir]
    exact (hrefs.mem _).mp hroot
  · rw [h.rootDir, ← (h.kept _ hroot).iNo]
    exact hset.rootNo

theorem Watching.entries (h : Watching K s held 0 s') (hset : s.Settled K held) (n : ℕ) : ElephantOS.entries K s' n = ElephantOS.entries K s n := by
  have hsame := h.same hset.watching n
  unfold ElephantOS.entries
  rw [h.disk, (hsame.slotMap s.kern.disk).1]

theorem Watching.tree (h : Watching K s held 0 s') (hset : s.Settled K held) (htree : Tree K s dirs) : Tree K s' dirs := by
  have hsame := fun n => (h.same hset.watching n).slotMap s.kern.disk
  refine ⟨htree.root, ?_, ?_, ?_, ?_, ?_, ?_⟩
  · intro n hn
    obtain ⟨hsmall, hno⟩ := htree.number n hn
    exact ⟨hsmall, (h.same hset.watching n).iNo.symm.trans hno⟩
  · intro n hn
    rw [h.disk]
    exact (hsame n).2.1 (htree.slots n hn)
  · intro n hn
    rw [h.disk]
    exact (hsame n).2.2 (htree.onDisk n hn)
  · intro n hn
    rw [h.entries hset]
    exact htree.unique n hn
  · intro n hn
    rw [h.entries hset]
    exact htree.kinds n hn
  · rw [h.entries hset]
    exact htree.dots

theorem Watching.climbs (h : Watching K s held 0 s') (hset : s.Settled K held) {n : ℕ} {path : Path} (hclimbs : Climbs K s n path) :
    Climbs K s' n path := by
  induction hclimbs with
  | root => exact .root
  | @up n p name rest h0 hup hname _ ih =>
    have hsector := (h.same hset.watching n).iSectors 0 (by omega)
    have hblock := (h.same hset.watching p).blockAddr s.kern.disk
    refine .up h0 ⟨?_, ?_, ?_, ?_, hup.small⟩ ?_ ih
    · rw [← hsector]
      exact hup.data
    · rw [← hsector]
      exact hup.onDisk
    · rw [← hsector, h.disk]
      exact hup.iNo
    · rw [← hsector, h.disk]
      exact hup.fType
    · obtain ⟨pos, ⟨hslot, hno, hfirst⟩, heq⟩ := hname
      refine ⟨pos, ⟨?_, ?_, ?_⟩, ?_⟩
      · simpa only [Slot, h.disk, hblock] using hslot
      · simpa only [slotAddr, h.disk, hblock] using hno
      · simpa only [Slot, slotAddr, h.disk, hblock] using hfirst
      · simpa only [slotAddr, h.disk, hblock] using heq

theorem Watching.cwd {extra : Multiset Ptr} (h : Watching K s held extra s') (c : ℕ → ℕ) :
    Watching K s held extra { s' with cwdInodeNr := c } :=
  ⟨⟨h.refs.nodup, h.refs.fresh, h.refs.count, h.refs.mem⟩, h.disk, h.plenty, h.pool, h.rootDir, h.kernel, h.linked, h.distinct, h.kept, h.clean⟩

theorem DirAt.cwd {dir : Dir} {m : ℕ} (h : DirAt K s held dir m s') (c : ℕ → ℕ) : DirAt K s held dir m { s' with cwdInodeNr := c } := by
  cases dir with
  | root => exact ⟨h.watching.cwd c, h.mem, h.inode, h.pool⟩
  | heap ptr inode => exact ⟨h.watching.cwd c, h.mem, h.inode, h.pool⟩

theorem liftKern_cwd {α : Type} (m : KernM α) : Leaves Fs.cwdInodeNr (liftKern m) fun _ => True := by
  intro s a s' h
  obtain ⟨k, -, rfl⟩ := (liftKern_ok m s s' a).mp h
  exact ⟨rfl, trivial⟩

theorem dirClose_cwd (dir : Dir) : Leaves Fs.cwdInodeNr (dirClose dir) fun _ => True := by
  cases dir with
  | root => exact Leaves.pure trivial
  | heap ptr inode =>
    have hremove : Leaves Fs.cwdInodeNr (listRemove inode) fun _ => True := by
      intro s u s' h
      unfold listRemove at h
      split_ifs at h
      cases h
      exact ⟨rfl, trivial⟩
    have hclose : Leaves Fs.cwdInodeNr (inodeClose inode) fun _ => True := by
      unfold inodeClose
      refine Leaves.modifying ?_
      apply Leaves.bind Leaves.get
      intro s _
      split_ifs
      · apply Leaves.bind hremove
        intro _ _
        exact liftKern_cwd _
      · exact Leaves.pure trivial
    apply Leaves.bind hclose
    intro _ _
    exact liftKern_cwd _

def RootPath (path : Path) : Prop := path = [slash] ∨ path = slash :: dot ∨ path = slash :: dotDot

theorem searchFile_root {path : Path} (h : RootPath path) (junk : Junk) : searchFile K junk path s = .ok ((some 0, ⟨.root, .directory, []⟩), s) := by
  have hpath : path = [slash] ∨ path = slash :: dot ∨ path = slash :: dotDot := h
  unfold searchFile
  rw [if_pos hpath]
  rfl

theorem RootPath.walks (h : Tree K s dirs) {path : Path} (hpath : RootPath path) : Walks (entries K s) 0 (components path) 0 := by
  have hdots : ∀ name ∈ [dot, dotDot], Walks (entries K s) 0 [name] 0 := by
    intro name hname
    obtain ⟨pos, e, he, rfl, hd, hno⟩ := h.dots name hname
    apply Walks.down he hd
    rw [hno]
    exact .here 0
  rcases hpath with rfl | rfl | rfl
  · exact .here 0
  · rw [components_slash, components_single (by decide), if_neg (by decide)]
    exact hdots dot (by simp)
  · rw [components_slash, components_single (by decide), if_neg (by decide)]
    exact hdots dotDot (by simp)

theorem foundNo_some {n i : ℕ} (h : foundNo n = some i) : i = n := by
  unfold foundNo at h
  split_ifs at h
  exact (Option.some.inj h).symm

theorem sysChdir_ok (hset : s.Settled K held) (htree : Tree K s dirs) {task : ℕ} {junk : Junk} {path : Path} (habs : path.head? = some slash)
    (hlen : path.length < maxPathLen) (hzero : 0 ∉ path) (hnames : ∀ c ∈ components path, c.length < 16)
    (h : sysChdir K task junk path s = .ok (0, s')) :
    Watching K s held 0 s' ∧ (path = [slash] ∨ components path ≠ [] →
      s'.cwdInodeNr task ∈ dirs ∧ Walks (entries K s) 0 (components path) (s'.cwdInodeNr task)) := by
  unfold sysChdir at h
  rw [bind_ok] at h
  obtain ⟨⟨found, record⟩, s₁, h1, h⟩ := h
  by_cases hroot : RootPath path
  · rw [searchFile_root hroot] at h1
    obtain ⟨⟨rfl, rfl⟩, rfl⟩ : (some 0 = found ∧ ⟨.root, .directory, []⟩ = record) ∧ s = s₁ := by simpa using h1
    simp only [if_true, bind_ok, modify_ok, pure_ok, dirClose] at h
    obtain ⟨_, _, rfl, _, _, ⟨-, rfl⟩, -, rfl⟩ := h
    refine ⟨hset.watching.cwd _, fun _ => ?_⟩
    simp only [Function.update_self]
    exact ⟨htree.root, hroot.walks htree⟩
  · obtain ⟨-, ⟨m, hparent⟩, hdir, -⟩ := (searchFile_found hset htree habs hlen hzero hnames hroot junk).returned h1
    cases found with
    | none =>
      simp only [bind_ok, pure_ok] at h
      obtain ⟨_, _, -, hret, -⟩ := h
      cases hret
    | some n =>
      dsimp only at h
      split_ifs at h with htype
      · simp only [bind_ok, modify_ok, pure_ok] at h
        obtain ⟨_, _, rfl, _, s₂, hclose, -, rfl⟩ := h
        have hw := (hparent.cwd (Function.update s₁.cwdInodeNr task n)).close.returned hclose
        have hcwd : s₂.cwdInodeNr task = n := by
          rw [(dirClose_cwd _ _ _ _ hclose).1]
          exact Function.update_self _ _ _
        refine ⟨hw, ?_⟩
        intro hpath
        have hnil : components path ≠ [] := hpath.resolve_left fun hp => hroot (.inl hp)
        obtain ⟨i, hi, hwalks⟩ := hdir htype
        rw [if_neg hnil] at hwalks
        rw [hcwd, foundNo_some hi.symm]
        exact hwalks
      · simp only [bind_ok, pure_ok] at h
        obtain ⟨_, _, -, hret, -⟩ := h
        cases hret

theorem Walks.resolves {M : ℕ → ℕ × ℕ → Option Entry} {n i : ℕ} {names : List Name} (h : Walks M n names i) : Resolves M n names i := by
  induction h with
  | here n => exact .here n
  | down he hd _ ih => exact .down he hd ih

theorem Walks.short (htree : Tree K s dirs) {m n : ℕ} {names : List Name} (h : Walks (entries K s) m names n) (hm : m ∈ dirs) :
    ∀ c ∈ names, c.length < 16 := by
  induction h with
  | here n =>
    intro c hc
    cases hc
  | @down m i pos e rest he hd _ ih =>
    have hmem : e.iNo ∈ dirs := by
      rcases htree.kinds m hm pos e he with ⟨-, hmem⟩ | ⟨hf, -⟩
      · exact hmem
      · rw [hd] at hf
        cases hf
    intro c hc
    rcases List.mem_cons.mp hc with rfl | hc
    · obtain ⟨hslot, -, hentry⟩ := slotMap_eq_some.mp he
      have hlen := (htree.slots m hm _ hslot).1
      rwa [hentry] at hlen
    · exact ih hmem c hc

theorem not_rootPath {names : List Name} (hne : names ≠ []) (h : ∀ name ∈ names, name ≠ [] ∧ name ≠ dot ∧ name ≠ dotDot ∧ slash ∉ name) :
    ¬ RootPath (slashed names) := by
  have hcomp : components (slashed names) = names := components_slashed fun name hname => ⟨(h name hname).1, (h name hname).2.2.2⟩
  rintro (hp | hp | hp)
  · rw [hp] at hcomp
    exact hne hcomp.symm
  · rw [hp, components_slash, components_single (by decide), if_neg (by decide)] at hcomp
    exact (h dot (by rw [← hcomp]; simp)).2.1 rfl
  · rw [hp, components_slash, components_single (by decide), if_neg (by decide)] at hcomp
    exact (h dotDot (by rw [← hcomp]; simp)).2.2.1 rfl

theorem searchFile_slashed (hset : s.Settled K held) (htree : Tree K s dirs) {n : ℕ} {names : List Name} (hne : names ≠ [])
    (hplain : ∀ name ∈ names, name ≠ [] ∧ name ≠ dot ∧ name ≠ dotDot ∧ slash ∉ name) (hzero : 0 ∉ slashed names)
    (hlen : (slashed names).length < maxPathLen) (hwalks : Walks (entries K s) 0 names n) (junk : Junk) :
    ∃ record s₁, searchFile K junk (slashed names) s = .ok ((some n, record), s₁) := by
  have hcomp : components (slashed names) = names := components_slashed fun name hname => ⟨(hplain name hname).1, (hplain name hname).2.2.2⟩
  have habs : (slashed names).head? = some slash := by
    cases names with
    | nil => exact absurd rfl hne
    | cons name names => rfl
  have hshort := hwalks.short htree htree.root
  obtain ⟨⟨r, record⟩, s₁, hrun, ⟨hfound, -⟩⟩ := searchFile_found hset htree habs hlen hzero (by rw [hcomp]; exact hshort)
    (not_rootPath hne hplain) junk
  unfold Found at hfound
  rw [hcomp, if_neg hne] at hfound
  have hbelow : ¬ BelowFile (entries K s) 0 names := fun hb => htree.not_resolves hb htree.root n hwalks.resolves
  have hr : r = some n := (hfound.2 hbelow n).mpr hwalks.resolves
  exact ⟨record, s₁, by rw [hrun, hr]⟩

end

def absolutePath (names : List Name) : Path := if names = [] then [slash] else slashed names

/-- After `sys_chdir` to `path`, `sys_getcwd` returns an absolute path of plain names for which `search_file` finds the working
directory. -/
def Inverts (K : Kernel) (s : Fs) (task : ℕ) (path : Path) : Prop := ∀ junk s', sysChdir K task junk path s = .ok (0, s') →
  ∃ names : List Name, (∀ name ∈ names, name ≠ [] ∧ name ≠ dot ∧ name ≠ dotDot ∧ slash ∉ name) ∧
    ∀ bytes size, (absolutePath names).length < size → ∃ buf s'', sysGetcwd K task size ⟨bytes, ∅⟩ s' = .ok ((true, buf), s'') ∧
      buf.Says (absolutePath names) ∧
      ∀ junk, ∃ record s₃, searchFile K junk (absolutePath names) s'' = .ok ((some (s'.cwdInodeNr task), record), s₃)

section

variable {K : Kernel} {s s' : Fs} {held : Multiset Ptr} {dirs : Set ℕ} {parent depth : ℕ → ℕ}

theorem root_says (bytes : Memory) : (((⟨bytes, ∅⟩ : UserBuffer).store 0 slash).store 1 0).Says [slash] := by
  intro i hi
  have hcases : i = 0 ∨ i = 1 := by
    simp only [List.length_singleton] at hi
    omega
  rcases hcases with rfl | rfl
  · rfl
  · rfl

theorem inverts_of_named (hset : s.Settled K held) (h : WellFormed K s dirs parent depth) {task : ℕ} {path : Path}
    (habs : path.head? = some slash) (hlen : path.length < maxPathLen) (hzero : 0 ∉ path) (hshort : ∀ c ∈ components path, c.length < 16)
    (hpath : path = [slash] ∨ components path ≠ []) : Inverts K s task path := by
  intro junk s' hchdir
  obtain ⟨hw, hcwd⟩ := sysChdir_ok hset h.toTree habs hlen hzero hshort hchdir
  obtain ⟨hmem, hwalks⟩ := hcwd hpath
  obtain ⟨names, hchain, hsub⟩ := hwalks.chain h h.root .root
  rw [List.reverse_nil, List.nil_append] at hsub
  have hset' := hw.settled hset
  have htree' := hw.tree hset h.toTree
  by_cases hroot : s'.cwdInodeNr task = 0
  · refine ⟨[], fun name hname => absurd hname List.not_mem_nil, ?_⟩
    intro bytes size hsize
    obtain ⟨k, -, -, hrun⟩ := sysGetcwd_root (K := K) hset'.plenty hroot size ⟨bytes, ∅⟩
    refine ⟨_, _, hrun, root_says bytes, ?_⟩
    intro junk'
    rw [hroot]
    exact ⟨_, _, searchFile_root (.inl rfl) junk'⟩
  · have hplain := hchain.plain h hmem
    have hne : names.reverse ≠ [] := by
      intro hnil
      rw [List.reverse_eq_nil_iff] at hnil
      rw [hnil] at hchain
      exact hroot hchain.root_of_nil
    have hplain' : ∀ name ∈ names.reverse, name ≠ [] ∧ name ≠ dot ∧ name ≠ dotDot ∧ slash ∉ name := by
      intro name hname
      obtain ⟨h1, h2, h3, h4, -, -⟩ := hplain name (List.mem_reverse.mp hname)
      exact ⟨h1, h2, h3, h4⟩
    have hpathLen : (slashed names.reverse).length < maxPathLen :=
      lt_of_le_of_lt ((slashed_length_le hsub).trans (components_length habs)) hlen
    refine ⟨names.reverse, hplain', ?_⟩
    intro bytes size hsize
    have habsolute : absolutePath names.reverse = slashed names.reverse := if_neg hne
    rw [habsolute] at hsize ⊢
    rw [slashed_reverse_length] at hsize
    have hclimbs := hw.climbs hset (hchain.climbs h hmem)
    have hzeros : 0 ∉ slashed names.reverse := by
      intro hmem0
      obtain ⟨name, hname, hin⟩ := List.mem_flatMap.mp hmem0
      rcases List.mem_cons.mp hin with h0 | h0
      · exact absurd h0 (by decide)
      · exact (hplain name (List.mem_reverse.mp hname)).2.2.2.2.2 h0
    obtain ⟨⟨ok, buf⟩, s'', hrun, -⟩ := sysGetcwd_runs hset' htree' h.data hmem hroot hclimbs
      (by rwa [← slashed_reverse_length]) hsize.le ⟨bytes, ∅⟩
    obtain ⟨hw'', -, ⟨-, hnone⟩ | ⟨path', hclimbs', -, rfl, -, hspells⟩⟩ := sysGetcwd_below hset' htree' h.data hmem hroot hrun
    · exact absurd hclimbs (hnone _)
    · refine ⟨buf, s'', hrun, ?_, ?_⟩
      · exact hspells names (hclimbs'.unique hclimbs) fun name hname => (hplain name hname).2.2.2.1
      · intro junk'
        have hwalks'' : Walks (entries K s'') 0 names.reverse (s'.cwdInodeNr task) := by
          have hentries : entries K s'' = entries K s := by
            funext m
            rw [hw''.entries hset', hw.entries hset]
          rw [hentries]
          exact hchain.walks
        exact searchFile_slashed (hw''.settled hset') (hw''.tree hset' htree') hne hplain' hzeros hpathLen hwalks'' junk'

theorem not_inverts_slashes (hset : s.Settled K held) (htree : Tree K s dirs) {task : ℕ} {path : Path} (habs : path.head? = some slash)
    (hlen : path.length < maxPathLen) (hzero : 0 ∉ path) (hpath : path ≠ [slash]) (hnil : components path = []) : ¬ Inverts K s task path := by
  have hroot : ¬ RootPath path := by
    rintro (hp | hp | hp)
    · exact hpath hp
    · rw [hp, components_slash, components_single (by decide), if_neg (by decide)] at hnil
      cases hnil
    · rw [hp, components_slash, components_single (by decide), if_neg (by decide)] at hnil
      cases hnil
  intro hinverts
  obtain ⟨⟨r, record⟩, s₁, hrun, hfound, ⟨m, hparent⟩, -, hends⟩ := searchFile_found hset htree habs hlen hzero
    (by rw [hnil]; intro c hc; cases hc) hroot ⟨4096, false⟩
  unfold Found at hfound
  rw [if_pos hnil] at hfound
  obtain ⟨_, s', hclose, -⟩ := (hparent.cwd (Function.update s₁.cwdInodeNr task 4096)).close
  have hcwd : s'.cwdInodeNr task = 4096 := by
    rw [(dirClose_cwd _ _ _ _ hclose).1]
    exact Function.update_self _ _ _
  have hchdir : sysChdir K task ⟨4096, false⟩ path s = .ok (0, s') := by
    have hr : r = some 4096 := hfound
    unfold sysChdir
    rw [bind_eq hrun]
    dsimp only
    rw [hr]
    dsimp only
    rw [if_pos (hends hnil)]
    simp only [bind_ok, modify_ok, pure_ok]
    exact ⟨(), _, rfl, (), _, hclose, trivial, rfl⟩
  obtain ⟨names, -, hget⟩ := hinverts _ _ hchdir
  obtain ⟨buf, s'', hgetcwd, -⟩ := hget zeros ((absolutePath names).length + 1) (Nat.lt_succ_self _)
  unfold sysGetcwd at hgetcwd
  rw [bind_ok] at hgetcwd
  obtain ⟨io, s₂, hmalloc, hgetcwd⟩ := hgetcwd
  obtain ⟨k, -, rfl⟩ := (liftKern_ok _ _ _ _).mp hmalloc
  cases io with
  | none =>
    simp only [pure_ok] at hgetcwd
    cases hgetcwd.1
  | some io =>
    simp only [bind_ok, get_ok, assert_ok] at hgetcwd
    obtain ⟨_, _, ⟨rfl, rfl⟩, _, _, ⟨hsmall, -⟩, -⟩ := hgetcwd
    dsimp only at hsmall
    omega

end

/-- In a well-formed tree `sys_getcwd` inverts `sys_chdir` to a path that names a directory exactly if the path is `/` or has a name. -/
theorem getcwd_inverts_chdir (K : Kernel) (held : Multiset Ptr) (s : Fs) (hset : s.Settled K held) (dirs : Set ℕ) (parent depth : ℕ → ℕ)
    (htree : WellFormed K s dirs parent depth) (task : ℕ) (path : Path) (habs : path.head? = some slash) (hlen : path.length < maxPathLen)
    (hzero : 0 ∉ path) (n : ℕ) (hpath : Walks (entries K s) 0 (components path) n) :
    Inverts K s task path ↔ path = [slash] ∨ components path ≠ [] := by
  have hshort := hpath.short htree.toTree htree.root
  constructor
  · intro hinverts
    by_contra hnot
    rw [not_or, not_not] at hnot
    exact not_inverts_slashes hset htree.toTree habs hlen hzero hnot.1 hnot.2 hinverts
  · exact inverts_of_named hset htree habs hlen hzero hshort

theorem oneDir_wellFormed : WellFormed smallPartition.kernel oneDir {n | n < 2} (fun _ => 0) id := by
  have hin : ∀ {n : ℕ} {pos : ℕ × ℕ} {e : Entry}, n < 2 → entries smallPartition.kernel oneDir n pos = some e → e ∈ oneDirEntries n :=
    fun hn he => oneDir_entries hn he
  refine ⟨oneDir_tree, by decide, ?_, ?_, ?_, ?_, ?_, ?_, ?_, ?_⟩
  · intro n hn
    have hle : ∀ n < 2, smallPartition.sb.dataStartLba ≤ oneDirBlock n := by decide
    rw [oneDir_sectors n hn 0 (by omega), if_pos rfl]
    exact hle n hn
  · intro n hn pos e he hname
    have hdot : ∀ n < 2, ∀ e ∈ oneDirEntries n, e.name = dot → e.iNo = n := by decide
    exact hdot n hn e (hin hn he) hname
  · intro n hn h0
    obtain ⟨hslot, haddr⟩ := oneDir_slot_zero hn (show 1 < 21 by omega)
    have hentry : ∀ n < 2, entryAt oneDir.kern.disk (oneDirBlock n * 512 + 24 * 1) = ⟨dotDot, 0, .directory⟩ := by decide +kernel
    refine slotMap_eq_some.mpr ⟨hslot, by decide, ?_⟩
    rw [haddr]
    exact hentry n hn
  · intro n hn h0
    obtain ⟨pos, hpos⟩ := oneDir_at Nat.zero_lt_two ⟨[100], 1, .directory⟩ (by decide)
    have hone : n = 1 := by
      have : n < 2 := hn
      omega
    exact ⟨pos, _, hpos, hone.symm, rfl, by decide, by decide⟩
  · intro p hp q hq pos pos' e e' he he' hdot hdotDot hdot' hdotDot' hno
    have hchild : ∀ n < 2, ∀ e ∈ oneDirEntries n, e.name ≠ dot → e.name ≠ dotDot → n = 0 := by decide
    obtain rfl := hchild p hp e (hin hp he) hdot hdotDot
    obtain rfl := hchild q hq e' (hin hq he') hdot' hdotDot'
    refine ⟨rfl, ?_⟩
    have hplace : ∀ {pos : ℕ × ℕ} {e : Entry}, entries smallPartition.kernel oneDir 0 pos = some e → e.name ≠ dot → e.name ≠ dotDot →
        pos = (0, 2) := by
      intro pos e he hdot hdotDot
      obtain ⟨hslot, hlive, rfl⟩ := slotMap_eq_some.mp he
      obtain ⟨hp, hj, haddr⟩ := oneDir_slot Nat.zero_lt_two hslot
      rw [haddr] at hlive hdot hdotDot
      have honly : ∀ j < 21, (entryAt oneDir.kern.disk (oneDirBlock 0 * 512 + 24 * j)).fType ≠ .unknown →
          (entryAt oneDir.kern.disk (oneDirBlock 0 * 512 + 24 * j)).name ≠ dot →
          (entryAt oneDir.kern.disk (oneDirBlock 0 * 512 + 24 * j)).name ≠ dotDot → j = 2 := by decide +kernel
      exact Prod.ext hp (honly pos.2 hj hlive hdot hdotDot)
    rw [hplace he hdot hdotDot, hplace he' hdot' hdotDot']
  · intro n hn h0
    have hlt : n < 2 := hn
    simp only [id_eq]
    omega
  · intro n hn pos hslot hfree
    obtain ⟨-, hj, haddr⟩ := oneDir_slot hn hslot
    rw [haddr] at hfree ⊢
    have hclear : ∀ n < 2, ∀ j < 21, (entryAt oneDir.kern.disk (oneDirBlock n * 512 + 24 * j)).fType = .unknown →
        (entryAt oneDir.kern.disk (oneDirBlock n * 512 + 24 * j)).iNo = 0 := by decide +kernel
    exact hclear n hn pos.2 hj hfree
  · intro n hn pos e he hdot hdotDot
    have hbelow : ∀ n < 2, ∀ e ∈ oneDirEntries n, e.name ≠ dot → e.name ≠ dotDot → e.iNo ≠ 0 ∧ slash ∉ e.name := by decide
    exact hbelow n hn e (hin hn he) hdot hdotDot

theorem getcwd_inverts_chdir_d : (∃ s', sysChdir smallPartition.kernel 0 ⟨0, false⟩ [slash, 100] oneDir = .ok (0, s')) ∧
    Inverts smallPartition.kernel oneDir 0 [slash, 100] := by
  have hcomp : components [slash, 100] = [[100]] := by
    rw [components_slash, components_single (by decide)]
    rfl
  have hwalks : Walks (entries smallPartition.kernel oneDir) 0 (components [slash, 100]) 1 := by
    obtain ⟨pos, hpos⟩ := oneDir_at Nat.zero_lt_two ⟨[100], 1, .directory⟩ (by decide)
    rw [hcomp]
    exact Walks.down hpos rfl (.here 1)
  refine ⟨?_, ?_⟩
  · obtain ⟨r, s', hrun, hr⟩ := runs_of_runsTo (show runsTo (sysChdir smallPartition.kernel 0 ⟨0, false⟩ [slash, 100]) oneDir
      (fun r _ => decide (r = 0)) = true by decide +kernel)
    rw [of_decide_eq_true hr] at hrun
    exact ⟨s', hrun⟩
  apply (getcwd_inverts_chdir smallPartition.kernel {⟨0, .kernel⟩} oneDir oneDir_settled {n | n < 2} (fun _ => 0) id oneDir_wellFormed 0
    [slash, 100] rfl (by decide) (by decide) 1 hwalks).mpr
  right
  rw [hcomp]
  decide

/-- Two slashes name the root directory, but the number that `sys_chdir` stores for them was never set. -/
theorem getcwd_after_slashes : Walks (entries smallPartition.kernel oneDir) 0 (components [slash, slash]) 0 ∧
    ¬ Inverts smallPartition.kernel oneDir 0 [slash, slash] := by
  have hnil : components [slash, slash] = [] := by
    rw [components_slash, components_slash]
    rfl
  refine ⟨?_, not_inverts_slashes oneDir_settled oneDir_tree rfl (by decide) (by decide) (by decide) hnil⟩
  rw [hnil]
  exact .here 0

end ElephantOS
