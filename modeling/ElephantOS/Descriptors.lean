import ElephantOS.References

namespace ElephantOS

open ByteMemory HaltingState

variable {K : Kernel} {held : Multiset Ptr} {s s' : Fs} {task : ℕ}

theorem getFreeSlot_some {k : ℕ} (h : getFreeSlotInGlobal s = some k) :
    3 ≤ k ∧ k < maxFileOpen ∧ (s.fileTable k).fdInode = none := by
  have hp := List.find?_some h
  have hm := List.mem_of_find?_eq_some h
  rw [List.mem_range'_1] at hm
  simp only [maxFileOpen] at hm ⊢
  exact ⟨hm.1, by omega, by simpa using hp⟩

def FreeFd (s : Fs) (task j : ℕ) : Prop := 3 ≤ j ∧ j < maxFilesOpenPerProc ∧ s.fdTable task j = -1

theorem pcbFdInstall_ok {k : ℕ} {r : ℤ} (h : pcbFdInstall task k s = .ok (r, s')) :
    (∃ j, FreeFd s task j ∧ r = j ∧ s' = setFd task j k s) ∨ (r = -1 ∧ s' = s ∧ ∀ j, ¬ FreeFd s task j) := by
  unfold pcbFdInstall at h
  simp only [bind_ok, get_ok] at h
  obtain ⟨_, _, ⟨rfl, rfl⟩, h⟩ := h
  cases hj : (List.range' 3 (maxFilesOpenPerProc - 3)).find? fun j => s.fdTable task j = -1 with
  | none =>
    simp only [hj] at h
    obtain ⟨rfl, rfl⟩ := (pure_ok _ _ _ _).mp h
    refine .inr ⟨rfl, rfl, fun j hfd => ?_⟩
    obtain ⟨h3, h8, hfree⟩ := hfd
    have hnone := List.find?_eq_none.mp hj j (by
      rw [List.mem_range'_1]
      simp only [maxFilesOpenPerProc] at h8 ⊢
      omega)
    simp [hfree] at hnone
  | some j =>
    simp only [hj, bind_ok, modify_ok, pure_ok] at h
    obtain ⟨_, _, rfl, rfl, rfl⟩ := h
    have hp := List.find?_some hj
    have hm := List.mem_of_find?_eq_some hj
    rw [List.mem_range'_1] at hm
    simp only [maxFilesOpenPerProc] at hm
    exact .inl ⟨j, ⟨hm.1, by simp only [maxFilesOpenPerProc]; omega, by simpa using hp⟩, rfl, rfl⟩

structure SlotTaken (held : Multiset Ptr) (flag k : ℕ) (inode : Ptr) (s s' : Fs) : Prop where
  free : 3 ≤ k ∧ k < maxFileOpen ∧ (s.fileTable k).fdInode = none
  refs : Refs (inode ::ₘ held) s'
  fileTable : SameFiles (Function.update s.fileTable k ⟨0, flag, some inode⟩) s'.fileTable
  fdTable : s'.fdTable = s.fdTable
  rootDir : s'.rootDir = s.rootDir
  iNo : ∀ p ∈ held, (s'.inodes p).iNo = (s.inodes p).iNo
  writeDeny : ∀ p ∈ held, p ≠ inode → (s'.inodes p).writeDeny = (s.inodes p).writeDeny

theorem fileOpen_ok {n flag : ℕ} {r : ℤ} (h : Refs held s) (hs : fileOpen K task n flag s = .ok (r, s')) :
    (r = -1 ∧ s' = s) ∨
      ∃ k inode s1, SlotTaken held flag k inode s s1 ∧
        (oWrite flag = true → (s1.inodes inode).writeDeny = true) ∧
        (inode ∈ held → oWrite flag = false → (s1.inodes inode).writeDeny = (s.inodes inode).writeDeny) ∧
        ((r = -1 ∧ s' = s1 ∧ oWrite flag = true ∧ ∃ s0, inodeOpen K n s = .ok (inode, s0) ∧ (s0.inodes inode).writeDeny = true) ∨
          ((inode ∈ held → oWrite flag = true → (s.inodes inode).writeDeny = false) ∧ pcbFdInstall task k s1 = .ok (r, s'))) := by
  unfold fileOpen at hs
  simp only [bind_ok, get_ok] at hs
  obtain ⟨_, _, ⟨rfl, rfl⟩, hs⟩ := hs
  cases hk : getFreeSlotInGlobal s with
  | none =>
    simp only [hk] at hs
    obtain ⟨rfl, rfl⟩ := (pure_ok _ _ _ _).mp hs
    exact .inl ⟨rfl, rfl⟩
  | some k =>
    simp only [hk, bind_ok, modify_ok, get_ok] at hs
    obtain ⟨inode, s1, h1, _, _, rfl, _, _, ⟨rfl, rfl⟩, hs⟩ := hs
    obtain ⟨hr, hkept⟩ := inodeOpen_refs h h1
    have hr1 : Refs (inode ::ₘ held) (setFile k ⟨0, flag, some inode⟩ s1) := ⟨hr.nodup, hr.fresh, hr.count, hr.mem⟩
    have htaken : SlotTaken held flag k inode s (setFile k ⟨0, flag, some inode⟩ s1) :=
      ⟨getFreeSlot_some hk, hr1, hkept.fileTable.update k _, hkept.fdTable, hkept.rootDir, hkept.iNo, fun p hp _ => hkept.writeDeny p hp⟩
    refine .inr ⟨k, inode, ?_⟩
    cases hw : oWrite flag with
    | false =>
      simp only [hw, Bool.false_and, Bool.false_eq_true, if_false] at hs
      exact ⟨_, htaken, fun hf => absurd hf Bool.false_ne_true, fun hm _ => hkept.writeDeny inode hm,
        .inr ⟨fun _ hf => absurd hf Bool.false_ne_true, hs⟩⟩
    | true =>
      simp only [hw, Bool.true_and, if_true] at hs
      cases hd : (s1.inodes inode).writeDeny with
      | true =>
        rw [if_pos (show ((setFile k ⟨0, flag, some inode⟩ s1).inodes inode).writeDeny = true from hd)] at hs
        obtain ⟨rfl, rfl⟩ := (pure_ok _ _ _ _).mp hs
        exact ⟨_, htaken, fun _ => hd, fun _ hf => absurd hf.symm Bool.false_ne_true, .inl ⟨rfl, rfl, rfl, s1, h1, hd⟩⟩
      | false =>
        have hd' : ((setFile k ⟨0, flag, some inode⟩ s1).inodes inode).writeDeny = false := hd
        rw [if_neg (by rw [hd']; decide)] at hs
        simp only [bind_ok, modify_ok] at hs
        obtain ⟨_, _, rfl, hs⟩ := hs
        refine ⟨_, ?_, fun _ => ?_, fun _ hf => absurd hf.symm Bool.false_ne_true,
          .inr ⟨fun hm _ => (hkept.writeDeny inode hm).symm.trans hd, hs⟩⟩
        · refine ⟨htaken.free, hr1.setInode fun _ => rfl, htaken.fileTable, htaken.fdTable, htaken.rootDir, fun p hp => ?_,
            fun p hp hne => ?_⟩
          · by_cases he : p = inode
            · subst he
              simp only [setInode, Function.update_self]
              exact htaken.iNo p hp
            · simp only [setInode, Function.update_of_ne he]
              exact htaken.iNo p hp
          · simp only [setInode, Function.update_of_ne hne]
            exact htaken.writeDeny p hp hne
        · simp only [setInode, Function.update_self]

theorem liftKern_quiet {α : Type} {m : KernM α} {a : α} (hm : Quiet m) (hs : liftKern m s = .ok (a, s')) :
    ∃ k, s' = { s with kern := k } ∧ Steady s.kern k := by
  obtain ⟨k, hk, rfl⟩ := (liftKern_ok m s s' a).mp hs
  exact ⟨k, rfl, hm _ _ _ hk⟩

theorem onDirInode_result {dir : Dir} {m : Inode → KernM (Bool × Inode)} {b : Bool} (hs : onDirInode dir m s = .ok (b, s')) :
    ∃ inode k, m (s.inodes (dir.inode s)) s.kern = .ok ((b, inode), k) ∧ s' = setInode (dir.inode s) inode { s with kern := k } := by
  unfold onDirInode at hs
  simp only [bind_ok, get_ok, liftKern_ok, modify_ok, pure_ok] at hs
  obtain ⟨_, _, ⟨rfl, rfl⟩, ⟨ok, inode⟩, _, ⟨k, hk, rfl⟩, _, _, rfl, rfl, rfl⟩ := hs
  exact ⟨inode, k, hk, rfl⟩

theorem onDirInode_ok {dir : Dir} {m : Inode → KernM (Bool × Inode)} {b : Bool}
    (hm : ∀ inode, Gives (m inode) fun r => inode.SameRef r.2) (h : onDirInode dir m s = .ok (b, s')) :
    ∃ k inodes, s' = { s with
      kern := k
      inodes := inodes } ∧ Steady s.kern k ∧ ∀ p, (s.inodes p).SameRef (inodes p) := by
  obtain ⟨inode, k, hk, rfl⟩ := onDirInode_result h
  obtain ⟨hsteady, hsame⟩ := hm _ _ _ _ hk
  refine ⟨k, _, rfl, hsteady, fun p => ?_⟩
  by_cases he : p = dir.inode s
  · subst he
    simp only [Function.update_self]
    exact hsame
  · simp only [Function.update_of_ne he]
    exact Inode.SameRef.refl _

theorem listPush_ok {p : Ptr} {u : Unit} (h : listPush p s = .ok (u, s')) : s' = pushed p s := by
  unfold listPush at h
  split_ifs at h
  simp only [Except.ok.injEq, Prod.mk.injEq, true_and] at h
  exact h.symm

theorem storeNewFile_ok {dir : Dir} {p : Ptr} {n : ℕ} {io : Buffer} {u : Unit} (h : Refs held s) (hp : p ∉ held)
    (hid : p.id < s.kern.heap.next) (hs : storeNewFile K dir p n io s = .ok (u, s')) :
    Refs (p ::ₘ held) s' ∧ s'.fileTable = s.fileTable ∧ s'.fdTable = s.fdTable ∧ s'.rootDir = s.rootDir ∧
      (∀ q, q ≠ p → s'.inodes q = s.inodes q) ∧ (s'.inodes p).writeDeny = (s.inodes p).writeDeny := by
  unfold storeNewFile at hs
  simp only [bind_ok, get_ok] at hs
  obtain ⟨_, _, ⟨rfl, rfl⟩, _, s1, h1, _, s2, h2, _, s3, h3, _, s4, h4, _, s5, h5, h6⟩ := hs
  obtain ⟨k1, rfl, hk1⟩ := liftKern_quiet (Quiet.inodeSync _ _ _) h1
  obtain ⟨k2, rfl, hk2⟩ := liftKern_quiet (Quiet.inodeSync _ _ _) h2
  obtain ⟨k3, rfl, hk3⟩ := liftKern_quiet (Quiet.bitmapSync _ _ _) h3
  obtain rfl := listPush_ok h4
  obtain rfl := (modify_ok _ _ _ _).mp h5
  obtain ⟨k6, rfl, hk6⟩ := liftKern_quiet (Quiet.sysFree _) h6
  have hnext : s.kern.heap.next ≤ k6.heap.next := ((hk1.next.trans hk2.next).trans hk3.next).trans hk6.next
  have hp' := (h.mem p).not.mp hp
  have hne : ∀ q ∈ s.openInodes, q ≠ p := by
    rintro q hq rfl
    exact hp' hq
  refine ⟨⟨List.nodup_cons.mpr ⟨hp', h.nodup⟩, fun q hq => ?_, fun q hq => ?_, fun q => ?_⟩, rfl, rfl, rfl, fun q hq => ?_, ?_⟩
  · rcases List.mem_cons.mp hq with rfl | hq
    · exact hid.trans_le hnext
    · exact (h.fresh q hq).trans_le hnext
  · rcases List.mem_cons.mp hq with rfl | hq
    · simp only [setInode, Function.update_self, Multiset.count_cons_self, Multiset.count_eq_zero.mpr hp]
    · simp only [setInode, pushed, Function.update_of_ne (hne q hq), Multiset.count_cons_of_ne (hne q hq)]
      exact h.count q hq
  · rw [Multiset.mem_cons, h.mem]
    exact List.mem_cons.symm
  · simp only [setInode, pushed, Function.update_of_ne hq]
  · simp only [setInode, pushed, Function.update_self]

theorem createDirEntry_ok {σ : Type} {name : Name} {n : ℕ} {t : FileType} {e : DirEntry} {s s' : σ}
    (h : (createDirEntry name n t : Exec Halt σ DirEntry) s = .ok (e, s')) : s' = s := by
  unfold createDirEntry at h
  simp only [bind_ok, assert_ok, pure_ok] at h
  obtain ⟨_, _, ⟨-, rfl⟩, -, rfl⟩ := h
  rfl

theorem installNewFile_ok {dir : Dir} {name : Name} {flag n : ℕ} {p : Ptr} {io : Buffer} {r : ℤ} (h : Refs held s) (hp : p ∉ held)
    (hid : p.id < s.kern.heap.next) (hs : installNewFile K task dir name flag n p io s = .ok (r, s')) :
    (r = -1 ∧ Refs held s' ∧ Kept held s s') ∨
      ∃ k s1, SlotTaken held flag k p s s1 ∧ (s1.inodes p).writeDeny = false ∧ pcbFdInstall task k s1 = .ok (r, s') := by
  unfold installNewFile at hs
  simp only [bind_ok, modify_ok, get_ok] at hs
  obtain ⟨_, _, rfl, _, _, ⟨rfl, rfl⟩, hs⟩ := hs
  have hr1 : Refs held (setInode p (inodeInit n Inode.zero) s) := h.setInode fun hm => absurd hm hp
  have hk1 : Kept held s (setInode p (inodeInit n Inode.zero) s) := Kept.setInode fun hm => absurd hm hp
  cases hk : getFreeSlotInGlobal (setInode p (inodeInit n Inode.zero) s) with
  | none =>
    simp only [hk, bind_ok, pure_ok] at hs
    obtain ⟨_, s2, h2, _, s3, h3, _, s4, h4, rfl, rfl⟩ := hs
    obtain ⟨k2, rfl, hk2⟩ := liftKern_quiet (Quiet.sysFree _) h2
    obtain ⟨k3, rfl, hk3⟩ := liftKern_quiet (Quiet.inodeBitmapSet _ _) h3
    obtain ⟨k4, rfl, hk4⟩ := liftKern_quiet (Quiet.sysFree _) h4
    refine .inl ⟨rfl, hr1.kern ((hk2.next.trans hk3.next).trans hk4.next), hk1.trans (Kept.kern held _ _)⟩
  | some k =>
    have hfree := getFreeSlot_some hk
    simp only [hk, bind_ok, modify_ok] at hs
    obtain ⟨_, _, rfl, _, _, rfl, e, s2, h2, ok, s3, h3, hs⟩ := hs
    obtain rfl := createDirEntry_ok h2
    obtain ⟨k3, inodes, rfl, hk3, hsame⟩ := onDirInode_ok (fun inode => syncDirEntry_gives K inode e io) h3
    have hcount : ∀ q ∈ s.openInodes, (inodes q).iOpenCnts = held.count q := by
      intro q hq
      have hne : q ≠ p := by
        rintro rfl
        exact hp ((h.mem q).mpr hq)
      rw [(hsame q).iOpenCnts, ← h.count q hq]
      simp only [setInode, setFile, Function.update_of_ne hne]
    have hinodes : ∀ q ∈ held, (inodes q).iNo = (s.inodes q).iNo ∧ (inodes q).writeDeny = (s.inodes q).writeDeny := by
      intro q hq
      have hne : q ≠ p := by
        rintro rfl
        exact hp hq
      rw [(hsame q).iNo, (hsame q).writeDeny]
      simp only [setInode, setFile, Function.update_of_ne hne, and_self]
    split_ifs at hs
    · simp only [bind_ok, modify_ok, pure_ok] at hs
      obtain ⟨_, _, rfl, _, s4, h4, _, s5, h5, _, s6, h6, rfl, rfl⟩ := hs
      obtain ⟨k4, rfl, hk4⟩ := liftKern_quiet (Quiet.sysFree _) h4
      obtain ⟨k5, rfl, hk5⟩ := liftKern_quiet (Quiet.inodeBitmapSet _ _) h5
      obtain ⟨k6, rfl, hk6⟩ := liftKern_quiet (Quiet.sysFree _) h6
      have hnext := ((hk3.next.trans hk4.next).trans hk5.next).trans hk6.next
      refine .inl ⟨rfl, ⟨h.nodup, fun q hq => (h.fresh q hq).trans_le hnext, hcount, h.mem⟩, fun j => ?_, rfl, rfl,
        fun q hq => (hinodes q hq).1, fun q hq => (hinodes q hq).2⟩
      by_cases he : j = k
      · subst he
        exact .inr ⟨hfree.2.2, by simp only [setFile, setInode, Function.update_self]⟩
      · exact .inl (by simp only [setFile, setInode, Function.update_of_ne he])
    · simp only [bind_ok] at hs
      obtain ⟨_, s4, h4, hs⟩ := hs
      obtain ⟨hr4, hfile, hfd, hroot, hother, hdeny⟩ := storeNewFile_ok
        (s := { setInode p _ (setFile k ⟨0, flag, some p⟩ (setInode p (inodeInit n Inode.zero) s)) with
          kern := k3
          inodes := inodes })
        ⟨h.nodup, fun q hq => (h.fresh q hq).trans_le hk3.next, hcount, h.mem⟩ hp (hid.trans_le hk3.next) h4
      refine .inr ⟨k, s4, ⟨hfree, hr4, ?_, hfd, hroot, fun q hq => ?_, fun q hq hne => ?_⟩, ?_, hs⟩
      · rw [hfile]
        exact SameFiles.refl _
      · have hne : q ≠ p := by
          rintro rfl
          exact hp hq
        rw [hother q hne]
        exact (hinodes q hq).1
      · rw [hother q hne]
        exact (hinodes q hq).2
      · rw [hdeny]
        change (inodes p).writeDeny = false
        rw [(hsame p).writeDeny]
        simp only [setInode, Function.update_self]

theorem fileCreate_ok {dir : Dir} {name : Name} {flag : ℕ} {r : ℤ} (h : Refs held s)
    (hs : fileCreate K task dir name flag s = .ok (r, s')) :
    (r = -1 ∧ Refs held s' ∧ Kept held s s') ∨
      ∃ k p s1, p ∉ held ∧ SlotTaken held flag k p s s1 ∧ (s1.inodes p).writeDeny = false ∧
        pcbFdInstall task k s1 = .ok (r, s') := by
  unfold fileCreate at hs
  simp only [bind_ok] at hs
  obtain ⟨io, s1, h1, hs⟩ := hs
  obtain ⟨k1, rfl, hk1⟩ := liftKern_quiet (Quiet.sysMalloc _) h1
  cases io with
  | none =>
    obtain ⟨rfl, rfl⟩ := (pure_ok _ _ _ _).mp hs
    exact .inl ⟨rfl, h.kern hk1.next, Kept.kern held s k1⟩
  | some io =>
    simp only [bind_ok] at hs
    obtain ⟨n, s2, h2, hs⟩ := hs
    obtain ⟨k2, rfl, hk2⟩ := liftKern_quiet Quiet.inodeBitmapAlloc h2
    cases n with
    | none =>
      obtain ⟨rfl, rfl⟩ := (pure_ok _ _ _ _).mp hs
      exact .inl ⟨rfl, h.kern (hk1.next.trans hk2.next), Kept.kern held s k2⟩
    | some n =>
      simp only [bind_ok] at hs
      obtain ⟨new, s3, h3, hs⟩ := hs
      obtain ⟨k3, hm3, rfl⟩ := (liftKern_ok _ _ _ _).mp h3
      obtain ⟨hk3, hnext3, hnew⟩ := sysMalloc_ok hm3
      cases new with
      | none =>
        simp only [bind_ok, pure_ok] at hs
        obtain ⟨_, s4, h4, _, s5, h5, rfl, rfl⟩ := hs
        obtain ⟨k4, rfl, hk4⟩ := liftKern_quiet (Quiet.inodeBitmapSet _ _) h4
        obtain ⟨k5, rfl, hk5⟩ := liftKern_quiet (Quiet.sysFree _) h5
        exact .inl ⟨rfl, h.kern ((((hk1.next.trans hk2.next).trans hk3.next).trans hk4.next).trans hk5.next),
          Kept.kern held s k5⟩
      | some new =>
        obtain rfl : new = _ := by simpa using hnew
        have hle : s.kern.heap.next ≤ k2.heap.next := hk1.next.trans hk2.next
        have hfresh := h.notMem_fresh (show s.kern.heap.next ≤ (⟨k2.heap.next, k2.pool⟩ : Ptr).id from hle)
        rcases installNewFile_ok (h.kern (hle.trans hk3.next)) hfresh
          (show k2.heap.next < k3.heap.next by rw [hnext3]; exact Nat.lt_succ_self _) hs with ⟨hr, hr', hkept⟩ | ⟨k, s4, htaken, hd, hi⟩
        · exact .inl ⟨hr, hr', (Kept.kern held s k3).trans hkept⟩
        · refine .inr ⟨k, _, s4, hfresh, ?_, hd, hi⟩
          exact ⟨htaken.free, htaken.refs, htaken.fileTable, htaken.fdTable, htaken.rootDir, htaken.iNo, htaken.writeDeny⟩

structure SlotFreed (held : Multiset Ptr) (k : ℕ) (inode : Ptr) (s s' : Fs) : Prop where
  refs : Refs held s'
  fileTable : SameFiles (Function.update s.fileTable k { s.fileTable k with fdInode := none }) s'.fileTable
  fdTable : s'.fdTable = s.fdTable
  rootDir : s'.rootDir = s.rootDir
  iNo : ∀ p ∈ held, (s'.inodes p).iNo = (s.inodes p).iNo
  writeDeny : ∀ p ∈ held, p ≠ inode → (s'.inodes p).writeDeny = (s.inodes p).writeDeny

theorem fileClose_ok {k : ℕ} {p : Ptr} {r : ℤ} (hk : (s.fileTable k).fdInode = some p) (h : Refs (p ::ₘ held) s)
    (hs : fileClose k s = .ok (r, s')) : r = 0 ∧ SlotFreed held k p s s' := by
  unfold fileClose at hs
  simp only [bind_ok, get_ok] at hs
  obtain ⟨_, _, ⟨rfl, rfl⟩, hs⟩ := hs
  simp only [hk, bind_ok, modify_ok, pure_ok] at hs
  obtain ⟨_, _, rfl, _, s1, h1, _, _, rfl, rfl, rfl⟩ := hs
  have h0 : Refs (p ::ₘ held) (setInode p { s.inodes p with writeDeny := false } s) := h.setInode fun _ => rfl
  obtain ⟨hr, hkept⟩ := inodeClose_refs h0 h1
  have hmem : ∀ q ∈ held, q ∈ p ::ₘ held := fun q hq => Multiset.mem_cons_of_mem hq
  refine ⟨rfl, ⟨hr.nodup, hr.fresh, hr.count, hr.mem⟩, ?_, hkept.fdTable, hkept.rootDir, fun q hq => ?_, fun q hq hne => ?_⟩
  · have hsame := SameFiles.update hkept.fileTable k { s1.fileTable k with fdInode := none }
    intro j
    by_cases he : j = k
    · subst he
      exact .inr ⟨by simp only [Function.update_self], by simp only [setFile, Function.update_self]⟩
    · have := hsame j
      simp only [setInode, Function.update_of_ne he] at this
      simp only [setFile, Function.update_of_ne he]
      exact this
  · change (s1.inodes q).iNo = _
    rw [hkept.iNo q (hmem q hq)]
    by_cases he : q = p
    · subst he
      simp only [setInode, Function.update_self]
    · simp only [setInode, Function.update_of_ne he]
  · change (s1.inodes q).writeDeny = _
    rw [hkept.writeDeny q (hmem q hq)]
    simp only [setInode, Function.update_of_ne hne]

theorem sysClose_ok {fd r : ℤ} (hs : sysClose task fd s = .ok (r, s')) :
    (fd ≤ 2 ∧ r = -1 ∧ s' = s) ∨
      ∃ j k s1, 3 ≤ j ∧ j < maxFilesOpenPerProc ∧ fd = j ∧ k < maxFileOpen ∧ s.fdTable task j = k ∧
        fileClose k s = .ok (r, s1) ∧ s' = setFd task j (-1) s1 := by
  unfold sysClose fdLocal2global at hs
  split_ifs at hs with h2
  · simp only [bind_ok, bound_ok, get_ok, assert_ok, pure_ok, modify_ok] at hs
    obtain ⟨k, s0, ⟨_, _, ⟨hb, rfl⟩, _, _, ⟨rfl, rfl⟩, _, _, ⟨⟨hlo, hhi⟩, rfl⟩, rfl, rfl⟩, _, s1, h1, _, _, rfl, rfl, rfl⟩ := hs
    refine .inr ⟨fd.toNat, _, s1, by omega, hb, by omega, ?_, by omega, h1, rfl⟩
    omega
  · obtain ⟨rfl, rfl⟩ := (pure_ok _ _ _ _).mp hs
    exact .inl ⟨by omega, rfl, rfl⟩

theorem sysOpen_ways {junk : Junk} {pathname : Path} {flags : ℕ} {r : ℤ} (hs : sysOpen K task junk pathname flags s = .ok (r, s')) :
    (r = -1 ∧ s' = s) ∨ ∃ found record s0, searchFile K junk pathname s = .ok ((found, record), s0) ∧
      ((r = -1 ∧ dirClose record.parentDir s0 = .ok ((), s')) ∨
        (record.fileType ≠ .directory ∧ (∃ depth, pathDepthCnt junk pathname s = .ok (depth, s) ∧
          pathDepthCnt junk record.searchedPath s0 = .ok (depth, s0)) ∧
          ((oCreat flags = true ∧ found = none ∧ ∃ name s1, fileCreate K task record.parentDir name flags s0 = .ok (r, s1) ∧
            dirClose record.parentDir s1 = .ok ((), s')) ∨
          (oCreat flags = false ∧ ∃ n, found = some n ∧ fileOpen K task n flags s0 = .ok (r, s'))))) := by
  unfold sysOpen at hs
  split_ifs at hs
  · obtain ⟨rfl, rfl⟩ := (pure_ok _ _ _ _).mp hs
    exact .inl ⟨rfl, rfl⟩
  · simp only [bind_ok, assert_ok] at hs
    obtain ⟨_, _, ⟨-, rfl⟩, depth, s1, h1, ⟨inodeNo, record⟩, s2, h2, hs⟩ := hs
    obtain rfl := pathDepthCnt_ok h1
    refine .inr ⟨inodeNo, record, s2, h2, ?_⟩
    dsimp only at hs
    have hclose : ∀ {s3 : Fs} {u : Unit} {r' : ℤ}, dirClose record.parentDir s2 = .ok (u, s3) →
        (pure (-1) : FsM ℤ) s3 = .ok (r', s') → r' = -1 ∧ dirClose record.parentDir s2 = .ok ((), s') := by
      intro s3 u r' h3 h4
      obtain ⟨rfl, rfl⟩ := (pure_ok _ _ _ _).mp h4
      exact ⟨rfl, h3⟩
    split_ifs at hs with hdir
    · simp only [bind_ok] at hs
      obtain ⟨_, s3, h3, hs⟩ := hs
      exact .inl (hclose h3 hs)
    · simp only [bind_ok] at hs
      obtain ⟨depth', s3, h3, hs⟩ := hs
      obtain rfl := pathDepthCnt_ok h3
      split_ifs at hs with hdepth
      · simp only [bind_ok] at hs
        obtain ⟨_, s4, h4, hs⟩ := hs
        exact .inl (hclose h4 hs)
      · have hdepth : depth = depth' := not_not.mp hdepth
        subst hdepth
        cases inodeNo with
        | none =>
          cases hc : oCreat flags with
          | false =>
            simp only [hc, bind_ok] at hs
            obtain ⟨_, s4, h4, hs⟩ := hs
            exact .inl (hclose h4 hs)
          | true =>
            simp only [hc] at hs
            cases hn : lastName pathname with
            | none => simp [hn] at hs
            | some name =>
              simp only [hn, bind_ok] at hs
              obtain ⟨fd, s4, h4, _, s5, h5, hs⟩ := hs
              obtain ⟨rfl, rfl⟩ := (pure_ok _ _ _ _).mp hs
              exact .inr ⟨hdir, ⟨depth, h1, h3⟩, .inl ⟨rfl, rfl, name, s4, h4, h5⟩⟩
        | some n =>
          cases hc : oCreat flags with
          | false =>
            simp only [hc] at hs
            exact .inr ⟨hdir, ⟨depth, h1, h3⟩, .inr ⟨rfl, n, rfl, hs⟩⟩
          | true =>
            simp only [hc, bind_ok] at hs
            obtain ⟨_, s4, h4, hs⟩ := hs
            exact .inl (hclose h4 hs)

theorem sysOpen_cases {junk : Junk} {pathname : Path} {flags : ℕ} {r : ℤ} (h : Refs held s)
    (hs : sysOpen K task junk pathname flags s = .ok (r, s')) :
    (r = -1 ∧ Refs held s' ∧ Kept held s s') ∨
      (oCreat flags = true ∧ ∃ d name s0 s1, Refs (dirRefs d + held) s0 ∧ Kept held s s0 ∧
        fileCreate K task d name flags s0 = .ok (r, s1) ∧ dirClose d s1 = .ok ((), s')) ∨
      (oCreat flags = false ∧ ∃ n record s0, searchFile K junk pathname s = .ok ((some n, record), s0) ∧
        record.fileType ≠ .directory ∧ (∃ depth, pathDepthCnt junk pathname s = .ok (depth, s) ∧
          pathDepthCnt junk record.searchedPath s0 = .ok (depth, s0)) ∧
        Refs (dirRefs record.parentDir + held) s0 ∧ Kept held s s0 ∧ fileOpen K task n flags s0 = .ok (r, s')) := by
  rcases sysOpen_ways hs with ⟨rfl, rfl⟩ | ⟨found, record, s0, hsearch, hrest⟩
  · exact .inl ⟨rfl, h, Kept.refl held s'⟩
  obtain ⟨hr0, hk0⟩ := searchFile_refs h hsearch
  rcases hrest with ⟨rfl, hclose⟩ | ⟨hdir, hdepth, ⟨hc, -, name, s1, hcreate, hclose⟩ | ⟨hc, n, rfl, hopen⟩⟩
  · obtain ⟨hr1, hk1⟩ := dirClose_refs hr0 hclose
    exact .inl ⟨rfl, hr1, hk0.trans hk1⟩
  · exact .inr (.inl ⟨hc, record.parentDir, name, s0, s1, hr0, hk0, hcreate, hclose⟩)
  · exact .inr (.inr ⟨hc, n, record, s0, hsearch, hdir, hdepth, hr0, hk0, hopen⟩)

end ElephantOS
