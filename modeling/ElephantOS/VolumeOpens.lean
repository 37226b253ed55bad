import ElephantOS.CreationCalls
import ElephantOS.VolumeCalls

namespace ElephantOS

open ByteMemory HaltingState

structure Installed (K : Kernel) (rest : Multiset Ptr) (dirs files : Set ℕ) (t : NamedTree ℕ Name (List UInt8)) (s : Fs) (k : ℕ) (p : Ptr)
    (n : ℕ) (s' : Fs) : Prop where
  lt : k < maxFileOpen
  free : (s.fileTable k).fdInode = none
  fileTable : ∃ flag, SameFiles (Function.update s.fileTable k ⟨0, flag, some p⟩) s'.fileTable
  mounted : Mounted K (p ::ₘ rest) dirs files s'
  file : n ∈ files
  number : (s'.inodes p).iNo = n
  rootDir : s'.rootDir = s.rootDir
  iNo : ∀ q ∈ s.rootDir ::ₘ rest, (s'.inodes q).iNo = (s.inodes q).iNo
  tree : s'.tree K dirs files = t
  keeps : KeepsMount K.toPartition s.kern s'.kern

section

variable {K : Kernel} {rest extra : Multiset Ptr} {dirs files : Set ℕ} {t : NamedTree ℕ Name (List UInt8)} {s s' s'' : Fs} {p : Ptr}
  {task k n : ℕ} {r : ℤ}

theorem pcbFdInstall_keeps (hs : pcbFdInstall task k s = .ok (r, s')) : s'.kern = s.kern ∧ s'.inodes = s.inodes ∧
    s'.openInodes = s.openInodes ∧ s'.rootDir = s.rootDir ∧ s'.fileTable = s.fileTable := by
  rcases pcbFdInstall_ok hs with ⟨j, -, -, rfl⟩ | ⟨-, rfl, -⟩
  · exact ⟨rfl, rfl, rfl, rfl, rfl⟩
  · exact ⟨rfl, rfl, rfl, rfl, rfl⟩

theorem pcbFdInstall_looksUp (hk : k < maxFileOpen) (hs : pcbFdInstall task k s = .ok (r, s')) : r = -1 ∨ LooksUp s' task r k := by
  rcases pcbFdInstall_ok hs with ⟨j, hj, rfl, rfl⟩ | ⟨hr, -, -⟩
  · right
    obtain ⟨h3, h8, -⟩ := hj
    refine ⟨by omega, by exact_mod_cast h8, hk, ?_⟩
    simp [setFd]
  · exact .inl hr

theorem Installed.descriptor (h : Installed K rest dirs files t s k p n s') (hs : pcbFdInstall task k s' = .ok (r, s'')) :
    Installed K rest dirs files t s k p n s'' ∧ (r = -1 ∨ LooksUp s'' task r k) := by
  obtain ⟨h1, h2, h3, h4, h5⟩ := pcbFdInstall_keeps hs
  refine ⟨⟨h.lt, h.free, ?_, h.mounted.tables h1 h2 h3 h4, h.file, ?_, h4.trans h.rootDir, ?_, ?_, ?_⟩, pcbFdInstall_looksUp h.lt hs⟩
  · rw [h5]
    exact h.fileTable
  · rw [h2]
    exact h.number
  · rw [h2]
    exact h.iNo
  · rw [← h.tree]
    exact Fs.tree_congr (by rw [h1])
  · rw [h1]
    exact h.keeps

theorem Installed.dirClose {d : Dir} {u : Unit} (h : Installed K (dirRefs d + rest) dirs files t s k p n s') (hs : dirClose d s' = .ok (u, s'')) :
    Installed K rest dirs files t s k p n s'' ∧ s''.fdTable = s'.fdTable := by
  have hm := h.mounted
  rw [← Multiset.add_cons] at hm
  obtain ⟨hm', hc⟩ := hm.dirClose hs
  have hroot := h.rootDir
  rw [hroot] at hc
  obtain ⟨flag, hfiles⟩ := h.fileTable
  refine ⟨⟨h.lt, h.free, ⟨flag, hfiles.trans hc.kept.fileTable⟩, hm', h.file, ?_, hc.kept.rootDir.trans hroot, ?_, ?_,
    h.keeps.trans hc.kern.keepsMount⟩, hc.kept.fdTable⟩
  · rw [hc.kept.iNo p (by simp)]
    exact h.number
  · intro q hq
    rw [hc.kept.iNo q ?_, h.iNo q ?_]
    · rw [Multiset.mem_cons] at hq ⊢
      exact hq.imp_right fun hx => Multiset.mem_add.mpr (.inr hx)
    · rw [Multiset.mem_cons] at hq ⊢
      exact hq.imp_right Multiset.mem_cons_of_mem
  · exact hc.tree.trans h.tree

theorem fileOpen_installed {flag : ℕ} (h : Mounted K rest dirs files s) (hn : n ∈ files) (hs : fileOpen K task n flag s = .ok (r, s')) :
    r = -1 ∧ s' = s ∨ ∃ k p, Installed K rest dirs files (s.tree K dirs files) s k p n s' ∧ (r = -1 ∨ LooksUp s' task r k) := by
  unfold fileOpen at hs
  simp only [bind_ok, get_ok] at hs
  obtain ⟨_, _, ⟨rfl, rfl⟩, hs⟩ := hs
  cases hk : getFreeSlotInGlobal s with
  | none =>
    simp only [hk] at hs
    obtain ⟨rfl, rfl⟩ := (pure_ok _ _ _ _).mp hs
    exact .inl ⟨rfl, rfl⟩
  | some k =>
    right
    simp only [hk, bind_ok, modify_ok, get_ok] at hs
    obtain ⟨p, s1, h1, _, _, rfl, _, _, ⟨rfl, rfl⟩, hs⟩ := hs
    obtain ⟨-, hlt, hfree⟩ := getFreeSlot_some hk
    obtain ⟨hm, hc, hno⟩ := h.inodeOpen (.inr hn) h1
    refine ⟨k, p, ?_⟩
    have htaken : Installed K rest dirs files (s.tree K dirs files) s k p n (setFile k ⟨0, flag, some p⟩ s1) :=
      ⟨hlt, hfree, ⟨flag, hc.kept.fileTable.update k _⟩, hm.tables rfl rfl rfl rfl, hn, hno, hc.kept.rootDir, hc.kept.iNo, hc.tree,
        hc.kern.keepsMount⟩
    have hdeny : Installed K rest dirs files (s.tree K dirs files) s k p n
        (setInode p { (setFile k ⟨0, flag, some p⟩ s1).inodes p with writeDeny := true } (setFile k ⟨0, flag, some p⟩ s1)) := by
      have hsame : ∀ q, ((setInode p { s1.inodes p with writeDeny := true } s1).inodes q).iNo = (s1.inodes q).iNo :=
        fun q => (@setInode_sameStored s1 p { s1.inodes p with writeDeny := true } ⟨rfl, rfl, fun _ _ => rfl⟩ q).iNo.symm
      refine ⟨hlt, hfree, ⟨flag, hc.kept.fileTable.update k _⟩, ?_, hn, (hsame p).trans hno, hc.kept.rootDir, ?_, hc.tree, hc.kern.keepsMount⟩
      · exact (@Mounted.setInode _ _ _ _ _ p { s1.inodes p with writeDeny := true } hm ⟨rfl, rfl, fun _ _ => rfl⟩ rfl).tables rfl rfl rfl rfl
      · exact fun q hq => (hsame q).trans (hc.kept.iNo q hq)
    split_ifs at hs
    · obtain ⟨rfl, rfl⟩ := (pure_ok _ _ _ _).mp hs
      exact ⟨htaken, .inl rfl⟩
    · simp only [bind_ok, modify_ok] at hs
      obtain ⟨_, _, rfl, hs⟩ := hs
      exact hdeny.descriptor hs
    · exact htaken.descriptor hs

structure NewName (K : Kernel) (s : Fs) (d : ℕ) (name : Name) : Prop extends PathName name where
  short : name.length < 16
  absent : ∀ pos e, entriesOn K.toPartition s.kern.disk d pos = some e → e.name ≠ name

theorem NewName.ordinary {name : Name} {d : ℕ} {t : FileType} (hn : NewName K s d name) (h : Mounted K rest dirs files s) (hd : d ∈ dirs) :
    (⟨name, n, t⟩ : Entry).Ordinary := by
  obtain ⟨pos, e, he, hdot, -⟩ := h.volume.names.self d hd
  obtain ⟨pos', e', he', hdd, -⟩ := h.volume.names.up d hd
  constructor
  · rintro rfl
    exact hn.absent pos e he hdot
  · rintro rfl
    exact hn.absent pos' e' he' hdd

theorem NewName.valid {name : Name} {d : ℕ} {t : FileType} (hn : NewName K s d name) (hno : n < 4096) (ht : t = .regular ∨ t = .directory) :
    (⟨name, n, t⟩ : Entry).Valid := ⟨hn.noNul, hn.named, hn.short, by dsimp only; omega, ht⟩

theorem createDirEntry_eq {σ : Type} {name : Name} {t : FileType} {e : DirEntry} {a b : σ}
    (h : (createDirEntry name n t : Exec Halt σ DirEntry) a = .ok (e, b)) : b = a ∧ e = (⟨name, n, t⟩ : Entry).dirEntry := by
  unfold createDirEntry at h
  simp only [bind_ok, assert_ok, pure_ok] at h
  obtain ⟨_, _, ⟨-, rfl⟩, rfl, rfl⟩ := h
  exact ⟨rfl, rfl⟩

theorem inodeBitmapAlloc_back {k k₁ k₂ k₃ : Kern} {u : Unit} (h : inodeBitmapAlloc k = .ok (some n, k₁)) (hk : HeapOnly k₁ k₂)
    (hs : inodeBitmapSet n false k₂ = .ok (u, k₃)) : HeapOnly k k₃ := by
  obtain ⟨i, -, hclear, -, hi, rfl⟩ := inodeBitmapAlloc_ok h
  obtain rfl := Option.some.inj hi
  obtain rfl := (modify_ok _ _ _ _).mp hs
  refine ⟨hk.disk, hk.blockBitmap, ?_, hk.pool, hk.grant, hk.next⟩
  change k₂.inodeBitmap.set n false = _
  rw [hk.inodeBitmap]
  exact Bitmap.set_back hclear

end

end ElephantOS
