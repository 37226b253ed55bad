import ElephantOS.VolumeReads

namespace ElephantOS

open ByteMemory HaltingState

inductive Reaches (names : List Name) : List Name → Option (List UInt8) → Prop
  | directory : Reaches names (normalize names) none
  | file {pre after : List Name} {name : Name} {bytes : List UInt8} : names = pre ++ name :: after →
      Reaches names (normalize pre ++ [name]) (some bytes)

section

variable {K : Kernel} {rest extra : Multiset Ptr} {dirs files : Set ℕ} {s s' : Fs} {n d : ℕ} {names : List Name} {prev : Name}
  {pathname searched : Path} {junk : Junk} {r : ℤ} {t : FileType}

theorem SearchEnd.reaches {part : Partition} {mem : Memory} (h : Names (entriesOn part mem) dirs files)
    (hend : SearchEnd (entriesOn part mem) prev 0 d names [] (some n) t searched) : ∃ path x, Reaches names path x ∧
      (path, x) ∈ (volumeTree part dirs files mem).view 0 ∧ (t = .directory ∧ n ∈ dirs ∧ x = none ∧ path = normalize names ∨
        t = .regular ∧ n ∈ files ∧ x = some (contentsOf mem (storedInode part mem n))) := by
  rcases hend.kind with rfl | rfl
  · obtain ⟨hn, hp⟩ := hend.at_directory h
    exact ⟨_, none, .directory, NamedTree.view_inner.mpr ⟨n, hn, hp⟩, .inl ⟨rfl, hn, rfl, rfl⟩⟩
  · obtain ⟨pre, name, after, hnames, -, hd, hn, hp, -, pos, he, hord⟩ := hend.at_file h
    have hpath : (volumeTree part dirs files mem).Path 0 (normalize pre ++ [name]) n :=
      NamedTree.path_snoc.mpr ⟨d, hp, hd, pos, _, he, hord, rfl⟩
    refine ⟨_, some (contentsOf mem (storedInode part mem n)), .file hnames, ?_, .inr ⟨rfl, hn, rfl⟩⟩
    exact NamedTree.view_leaf.mpr ⟨n, hn, hpath, volumeTree_file hn⟩

theorem components_root : components [slash] = [] := by
  decide

theorem Mounted.root_map (h : Mounted K rest dirs files s) : ([], none) ∈ s.map K dirs files :=
  NamedTree.view_inner.mpr ⟨0, h.volume.names.root, .nil 0⟩

theorem Served.sysOpendir {o : Option Dir} (h : Served K extra dirs files s) (hpath : PathOk pathname)
    (hs : sysOpendir K junk pathname s = .ok (o, s')) :
    Served K ((o.toList.map dirRefs).sum + extra) dirs files s' ∧ Calm (s.rootDir ::ₘ (extra + slotRefs s.fileTable)) s s' ∧
      (o ≠ none → (normalize (components pathname), none) ∈ s.map K dirs files) := by
  unfold ElephantOS.sysOpendir at hs
  simp only [bind_ok, assert_ok] at hs
  obtain ⟨_, _, ⟨-, rfl⟩, hs⟩ := hs
  split_ifs at hs with hroot
  · obtain ⟨rfl, rfl⟩ := (pure_ok _ _ _ _).mp hs
    refine ⟨by simpa [dirRefs] using h, Calm.refl _ _, fun _ => ?_⟩
    rw [hroot, components_root]
    exact h.root_map
  simp only [bind_ok] at hs
  obtain ⟨⟨found, record⟩, s₁, hsearch, hs⟩ := hs
  obtain ⟨hm, hc, hd, hends⟩ := searchFile_ended h.toMounted hpath hsearch
  dsimp only at hm hd hends hs hc
  have hfail : (do
      dirClose record.parentDir
      return (none : Option Dir)) s₁ = .ok (o, s') → Served K ((o.toList.map dirRefs).sum + extra) dirs files s' ∧
        Calm (s.rootDir ::ₘ (extra + slotRefs s.fileTable)) s s' ∧ (o ≠ none → (normalize (components pathname), none) ∈ s.map K dirs files) := by
    intro hs
    simp only [bind_ok] at hs
    obtain ⟨_, s₂, h2, hs⟩ := hs
    obtain ⟨rfl, rfl⟩ := (pure_ok _ _ _ _).mp hs
    obtain ⟨h', hc'⟩ := h.closed hm hc h2
    exact ⟨by simpa using h', hc', fun hne => absurd rfl hne⟩
  cases found with
  | none => exact hfail hs
  | some n =>
    dsimp only at hs
    split_ifs at hs with hdir
    · rw [hdir] at hends
      obtain ⟨hn, hp⟩ := hends.at_directory h.volume.names
      simp only [bind_ok] at hs
      obtain ⟨ret, s₂, h2, _, s₃, h3, hs⟩ := hs
      obtain ⟨rfl, rfl⟩ := (pure_ok _ _ _ _).mp hs
      obtain ⟨hm₂, hc₂, hno⟩ := hm.dirOpen hn h2
      rw [add_left_comm] at hm₂
      obtain ⟨hm₃, hc₃⟩ := hm₂.dirClose h3
      have hwiden : ∀ e : Dir, ∀ p ∈ s.rootDir ::ₘ (extra + slotRefs s.fileTable), p ∈ s.rootDir ::ₘ (dirRefs e + (extra + slotRefs s.fileTable)) := by
        intro e p hp
        rcases Multiset.mem_cons.mp hp with rfl | hp
        · exact Multiset.mem_cons_self _ _
        · exact Multiset.mem_cons_of_mem (Multiset.mem_add.mpr (.inr hp))
      have hr₂ : s₂.rootDir = s.rootDir := hc₂.kept.rootDir.trans hc.kept.rootDir
      have hcalm : Calm (s.rootDir ::ₘ (extra + slotRefs s.fileTable)) s s₃ := by
        rw [hc.kept.rootDir] at hc₂
        rw [hr₂] at hc₃
        exact (hc.trans (hc₂.mono (hwiden _))).trans (hc₃.mono (hwiden ret))
      have hnumber : (s₃.inodes (ret.inode s₃)).iNo ∈ dirs := by
        rw [Dir.inode_congr ret hc₃.kept.rootDir, hc₃.kept.iNo _ ?_, hno]
        · exact hn
        · cases ret with
          | root => exact Multiset.mem_cons_self _ _
          | heap ptr inode => exact Multiset.mem_cons_of_mem (Multiset.mem_add.mpr (.inl (by simp [dirRefs, Dir.inode])))
      refine ⟨?_, hcalm, fun _ => NamedTree.view_inner.mpr ⟨n, hn, hp⟩⟩
      have hserved := h.reached hm₃ hcalm hnumber
      simpa using hserved
    · exact hfail hs

theorem dirRefs_erase {handles : List Dir} {e : Dir} (h : e ∈ handles) :
    (handles.map dirRefs).sum = dirRefs e + ((handles.erase e).map dirRefs).sum := by
  rw [← List.sum_cons, ← List.map_cons]
  exact ((List.perm_cons_erase h).map dirRefs).sum_eq

theorem Served.sysClosedir {e : Dir} (h : Served K (dirRefs e + extra) dirs files s) (hs : sysClosedir (some e) s = .ok (r, s')) :
    Served K extra dirs files s' ∧ Calm (s.rootDir ::ₘ (extra + slotRefs s.fileTable)) s s' := by
  unfold ElephantOS.sysClosedir at hs
  simp only [bind_ok] at hs
  obtain ⟨_, s₁, h1, hs⟩ := hs
  obtain ⟨rfl, rfl⟩ := (pure_ok _ _ _ _).mp hs
  have hm := h.toMounted
  rw [add_assoc] at hm
  obtain ⟨hm', hc⟩ := hm.dirClose h1
  have hslots := slotRefs_congr hc.kept.fileTable
  refine ⟨⟨?_, ?_, ?_⟩, hc⟩
  · rw [hslots]
    exact hm'
  · intro q hq
    rw [hc.kept.iNo q (Multiset.mem_cons_of_mem (Multiset.mem_add.mpr (.inl hq)))]
    exact h.extraDirs q (Multiset.mem_add.mpr (.inr hq))
  · intro q hq
    rw [hslots] at hq
    rw [hc.kept.iNo q (Multiset.mem_cons_of_mem (Multiset.mem_add.mpr (.inr hq)))]
    exact h.slotFiles q hq

theorem Served.sysChdir {task : ℕ} (h : Served K extra dirs files s) (hpath : PathOk pathname)
    (hs : sysChdir K task junk pathname s = .ok (r, s')) :
    Served K extra dirs files s' ∧ Calm (s.rootDir ::ₘ (extra + slotRefs s.fileTable)) s s' ∧
      (r = -1 ∨ r = 0 ∧ (normalize (components pathname), none) ∈ s.map K dirs files) := by
  unfold ElephantOS.sysChdir at hs
  simp only [bind_ok] at hs
  obtain ⟨⟨found, record⟩, s₁, hsearch, hs⟩ := hs
  obtain ⟨hm, hc, hd, hends⟩ := searchFile_ended h.toMounted hpath hsearch
  dsimp only at hm hd hends hs hc
  have hfail : (do
      dirClose record.parentDir
      return (-1 : ℤ)) s₁ = .ok (r, s') → Served K extra dirs files s' ∧ Calm (s.rootDir ::ₘ (extra + slotRefs s.fileTable)) s s' ∧
        (r = -1 ∨ r = 0 ∧ (normalize (components pathname), none) ∈ s.map K dirs files) := by
    intro hs
    simp only [bind_ok] at hs
    obtain ⟨_, s₂, h2, hs⟩ := hs
    obtain ⟨rfl, rfl⟩ := (pure_ok _ _ _ _).mp hs
    obtain ⟨h', hc'⟩ := h.closed hm hc h2
    exact ⟨h', hc', .inl rfl⟩
  cases found with
  | none => exact hfail hs
  | some n =>
    dsimp only at hs
    split_ifs at hs with hdir
    · rw [hdir] at hends
      obtain ⟨hn, hp⟩ := hends.at_directory h.volume.names
      simp only [bind_ok, modify_ok] at hs
      obtain ⟨_, _, rfl, _, s₃, h3, hs⟩ := hs
      obtain ⟨rfl, rfl⟩ := (pure_ok _ _ _ _).mp hs
      have hcalm : Calm (s.rootDir ::ₘ (extra + slotRefs s.fileTable)) s { s₁ with cwdInodeNr := Function.update s₁.cwdInodeNr task n } :=
        hc.trans ⟨HeapOnly.refl _, SameFiles.refl _, rfl, rfl, fun _ _ => rfl, fun _ _ => rfl⟩
      have hm' : Mounted K (dirRefs record.parentDir + (extra + slotRefs s.fileTable)) dirs files
          { s₁ with cwdInodeNr := Function.update s₁.cwdInodeNr task n } := hm.tables rfl rfl rfl rfl
      obtain ⟨h', hc'⟩ := h.closed hm' hcalm h3
      exact ⟨h', hc', .inr ⟨rfl, NamedTree.view_inner.mpr ⟨n, hn, hp⟩⟩⟩
    · exact hfail hs

def Describes (o : Stat) (x : Option (List UInt8)) : Prop :=
  o.stFiletype = .directory ∧ x = none ∨ o.stFiletype = .regular ∧ ∃ bytes, x = some bytes ∧ o.stSize = bytes.length

theorem Served.sysStat {o : Option Stat} (h : Served K extra dirs files s) (hpath : PathOk pathname)
    (hs : sysStat K junk pathname s = .ok (o, s')) :
    Served K extra dirs files s' ∧ Calm (s.rootDir ::ₘ (extra + slotRefs s.fileTable)) s s' ∧
      ∀ st, o = some st → ∃ path x, Reaches (components pathname) path x ∧ (path, x) ∈ s.map K dirs files ∧ Describes st x := by
  unfold ElephantOS.sysStat at hs
  split_ifs at hs with hspecial
  · simp only [bind_ok, get_ok] at hs
    obtain ⟨_, _, ⟨rfl, rfl⟩, hs⟩ := hs
    obtain ⟨rfl, rfl⟩ := (pure_ok _ _ _ _).mp hs
    refine ⟨h, Calm.refl _ _, fun st hst => ?_⟩
    obtain rfl := Option.some.inj hst
    have hroot : normalize (components pathname) = [] := by
      rcases hspecial with rfl | rfl | rfl <;> decide
    refine ⟨_, none, .directory, ?_, .inl ⟨rfl, rfl⟩⟩
    rw [hroot]
    exact h.root_map
  simp only [bind_ok] at hs
  obtain ⟨⟨found, record⟩, s₁, hsearch, hs⟩ := hs
  obtain ⟨hm, hc, hd, hends⟩ := searchFile_ended h.toMounted hpath hsearch
  dsimp only at hm hd hends hs hc
  cases found with
  | none =>
    simp only [bind_ok] at hs
    obtain ⟨_, s₂, h2, hs⟩ := hs
    obtain ⟨rfl, rfl⟩ := (pure_ok _ _ _ _).mp hs
    obtain ⟨h', hc'⟩ := h.closed hm hc h2
    refine ⟨h', hc', fun st hst => ?_⟩
    cases hst
  | some n =>
    simp only [bind_ok, get_ok] at hs
    obtain ⟨p, s₂, h2, _, _, ⟨rfl, rfl⟩, _, s₃, h3, _, s₄, h4, hs⟩ := hs
    obtain ⟨rfl, rfl⟩ := (pure_ok _ _ _ _).mp hs
    obtain ⟨path, x, hreach, hmem, hkind⟩ := hends.reaches h.volume.names
    have hn : n ∈ dirs ∪ files := by
      rcases hkind with ⟨-, hn, -⟩ | ⟨-, hn, -⟩
      · exact .inl hn
      · exact .inr hn
    obtain ⟨hm₂, hc₂, hno⟩ := hm.inodeOpen hn h2
    have hst := hm₂.stored p (hm₂.mem (Multiset.mem_cons_self _ _))
    obtain ⟨hm₃, hc₃⟩ := hm₂.inodeClose h3
    have hwiden : ∀ q ∈ s.rootDir ::ₘ (extra + slotRefs s.fileTable),
        q ∈ s.rootDir ::ₘ (dirRefs record.parentDir + (extra + slotRefs s.fileTable)) := by
      intro q hq
      rcases Multiset.mem_cons.mp hq with rfl | hq
      · exact Multiset.mem_cons_self _ _
      · exact Multiset.mem_cons_of_mem (Multiset.mem_add.mpr (.inr hq))
    have hcalm : Calm (s.rootDir ::ₘ (extra + slotRefs s.fileTable)) s s₃ := by
      rw [hc₂.kept.rootDir] at hc₃
      rw [hc.kept.rootDir] at hc₂ hc₃
      refine (hc.trans (hc₂.mono hwiden)).trans (hc₃.mono fun q hq => ?_)
      rw [Multiset.cons_swap]
      exact Multiset.mem_cons_of_mem (hwiden q hq)
    obtain ⟨h', hc'⟩ := h.closed hm₃ hcalm h4
    refine ⟨h', hc', fun st hst' => ?_⟩
    obtain rfl := Option.some.inj hst'
    refine ⟨path, x, hreach, hmem, ?_⟩
    rcases hkind with ⟨ht, -, rfl, -⟩ | ⟨ht, -, rfl⟩
    · exact .inl ⟨ht, rfl⟩
    · refine .inr ⟨ht, _, rfl, ?_⟩
      have hdisk : s₂.kern.disk = s.kern.disk := hc₂.kern.disk.trans hc.kern.disk
      rw [hno, hdisk] at hst
      simp [contentsOf, hst.iSize]

end

end ElephantOS
