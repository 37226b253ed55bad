import ElephantOS.VolumeCreates

namespace ElephantOS

open ByteMemory HaltingState

def Fs.map (K : Kernel) (dirs files : Set ℕ) (s : Fs) : Set (List Name × Option (List UInt8)) := (s.tree K dirs files).view 0

def OpenAt (K : Kernel) (dirs files : Set ℕ) (s : Fs) (task : ℕ) (fd : ℤ) (path : List Name) : Prop :=
  ∃ n ∈ files, (s.tree K dirs files).Path 0 path n ∧ LeadsTo s task fd n

section

variable {K : Kernel} {rest extra : Multiset Ptr} {dirs files files' : Set ℕ} {s s' : Fs} {task d n m : ℕ} {name prev : Name}
  {names : List Name} {path searched : Path}

theorem Mounted.tree (h : Mounted K rest dirs files s) : (s.tree K dirs files).WellFormed 0 := h.volume.names.wellFormed

theorem Names.regular_ordinary {M : ℕ → ℕ × ℕ → Option Entry} {pos : ℕ × ℕ} {e : Entry} (h : Names M dirs files) (hd : d ∈ dirs)
    (he : M d pos = some e) (ht : e.fType = .regular) : e.Ordinary := by
  constructor
  · intro hdot
    obtain ⟨q, e', hq, hname, -, ht'⟩ := h.self d hd
    rw [← h.unique d hd pos q e e' he hq (hdot.trans hname.symm), ht] at ht'
    cases ht'
  · intro hdd
    obtain ⟨q, e', hq, hname, ht', -⟩ := h.up d hd
    rw [← h.unique d hd pos q e e' he hq (hdd.trans hname.symm), ht] at ht'
    cases ht'

theorem normalize_ordinary (h : name ≠ dot ∧ name ≠ dotDot) : normalize (names ++ [name]) = normalize names ++ [name] := by
  rw [normalize_snoc, if_neg h.1, if_neg h.2]

theorem SearchEnd.at_file {part : Partition} {mem : Memory} (h : Names (entriesOn part mem) dirs files)
    (hend : SearchEnd (entriesOn part mem) prev 0 d names [] (some n) .regular searched) :
    ∃ pre name after, names = pre ++ name :: after ∧ searched = slashed (pre ++ [name]) ∧ d ∈ dirs ∧ n ∈ files ∧
      (volumeTree part dirs files mem).Path 0 (normalize pre) d ∧ normalize (pre ++ [name]) = normalize pre ++ [name] ∧
      ∃ pos, entriesOn part mem d pos = some ⟨name, n, .regular⟩ ∧ (⟨name, n, .regular⟩ : Entry).Ordinary := by
  generalize hr : some n = r at hend
  generalize ht : FileType.regular = t at hend
  cases hend with
  | directory => cases ht
  | missing => cases hr
  | @file pos e pre after hnames hw he htype =>
    obtain rfl := Option.some.inj hr
    obtain ⟨hp, hd⟩ := h.walk_root hw
    have hord := h.regular_ordinary hd he htype
    have hmem : e.iNo ∈ files := by
      rcases h.kinds d hd pos e he with ⟨hdir, -⟩ | ⟨-, hm⟩
      · rw [htype] at hdir
        cases hdir
      · exact hm
    refine ⟨pre, e.name, after, hnames, rfl, hd, hmem, hp, normalize_ordinary hord, pos, ?_, hord⟩
    rw [he, ← htype]

theorem SearchEnd.at_directory {part : Partition} {mem : Memory} (h : Names (entriesOn part mem) dirs files)
    (hend : SearchEnd (entriesOn part mem) prev 0 d names [] (some n) .directory searched) :
    n ∈ dirs ∧ (volumeTree part dirs files mem).Path 0 (normalize names) n := by
  generalize hr : some n = r at hend
  generalize ht : FileType.directory = t at hend
  cases hend with
  | file => cases ht
  | missing => cases hr
  | directory hw _ _ _ =>
    obtain rfl := Option.some.inj hr
    obtain ⟨hp, hd⟩ := h.walk_root hw
    exact ⟨hd, hp⟩

theorem SearchEnd.kind {M : ℕ → ℕ × ℕ → Option Entry} {t : FileType} (h : SearchEnd M prev 0 d names [] (some n) t searched) :
    t = .directory ∨ t = .regular := by
  generalize hr : some n = r at h
  cases h with
  | directory => exact .inl rfl
  | file => exact .inr rfl
  | missing => cases hr

theorem Installed.openAt {t : NamedTree ℕ Name (List UInt8)} {r : ℤ} {k : ℕ} {p : Ptr} {path : List Name}
    (h : Installed K rest dirs files t s k p n s') (hr : r = -1 ∨ LooksUp s' task r k) (hp : t.Path 0 path n) :
    r = -1 ∨ OpenAt K dirs files s' task r path := by
  refine hr.imp_right fun hk => ⟨n, h.file, ?_, h.leadsTo hk⟩
  rw [h.tree]
  exact hp

def KeepsNames (K : Kernel) (dirs dirs' files files' : Set ℕ) (s s' : Fs) : Prop :=
  ∀ c, (s.tree K dirs files).children c ⊆ (s'.tree K dirs' files').children c

theorem Fs.map_congr (h : s'.tree K dirs files = s.tree K dirs files) : s'.map K dirs files = s.map K dirs files := by
  unfold Fs.map
  rw [h]

theorem KeepsNames.of_tree (h : s'.tree K dirs files = s.tree K dirs files) : KeepsNames K dirs dirs files files s s' := by
  intro c
  rw [h]

structure OpensFile (K : Kernel) (dirs files files' : Set ℕ) (task flags : ℕ) (path : List Name) (r : ℤ) (s s' : Fs) : Prop where
  map : s'.map K dirs files' = s.map K dirs files ∧ (oCreat flags = true → r = -1) ∨
    oCreat flags = true ∧ path ≠ [] ∧ (path.dropLast, none) ∈ s.map K dirs files ∧ (∀ x, (path, x) ∉ s.map K dirs files) ∧
      s'.map K dirs files' = insert (path, some []) (s.map K dirs files)
  descriptor : r = -1 ∨ OpenAt K dirs files' s' task r path
  names : KeepsNames K dirs dirs files files' s s'
  slots : ∀ p ∈ slotRefs s.fileTable, (s.inodes p).iNo ∈ files' ∧ (s'.inodes p).iNo = (s.inodes p).iNo
  keeps : KeepsMount K.toPartition s.kern s'.kern

theorem NewName.fresh (h : Mounted K rest dirs files s) (hd : d ∈ dirs) (hname : NewName K s d name)
    (hp : (s.tree K dirs files).Path 0 (normalize names) d) : normalize (names ++ [name]) = normalize names ++ [name] ∧
      (normalize names, none) ∈ s.map K dirs files ∧ ∀ x, (normalize names ++ [name], x) ∉ s.map K dirs files := by
  refine ⟨normalize_ordinary (hname.ordinary (n := 0) (t := .regular) h hd), NamedTree.view_inner.mpr ⟨d, hd, hp⟩, ?_⟩
  rintro x ⟨n, hn, -⟩
  obtain ⟨c, hc, hmem⟩ := NamedTree.path_snoc.mp hn
  rw [h.tree.path_end hc hp] at hmem
  obtain ⟨-, pos, e, he, -, hx⟩ := hmem
  exact hname.absent pos e he (Prod.mk.inj hx).1.symm

def HasRoom (K : Kernel) (pathname : Path) (s : Fs) : Prop := ∀ names name n, components pathname = names ++ [name] →
  Walks (entriesOn K.toPartition s.kern.disk) 0 names n → DirectRoom s.kern.disk (storedInode K.toPartition s.kern.disk n)

theorem HasRoom.of_disk {pathname : Path} (h : HasRoom K pathname s) (hd : s'.kern.disk = s.kern.disk) : HasRoom K pathname s' := by
  unfold HasRoom
  rw [hd]
  exact h

theorem HasRoom.at {pathname : Path} {d : Dir} (h : HasRoom K pathname s) (hm : Mounted K (dirRefs d + rest) dirs files s)
    (hnames : components pathname = names ++ [name])
    (hwalk : Walks (entriesOn K.toPartition s.kern.disk) 0 names (s.inodes (d.inode s)).iNo) : DirectRoom s.kern.disk (s.inodes (d.inode s)) := by
  obtain ⟨p, hp, hroom⟩ := h names name _ hnames hwalk
  have hst := (hm.stored _ hm.dirMem).iSectors p (by omega)
  rw [hst] at hroom
  exact ⟨p, hp, hroom⟩

structure RoomFor (K : Kernel) (pathname : Path) (s : Fs) : Prop where
  room : HasRoom K pathname s
  slot : OwnSlot K s.kern.inodeBitmap

theorem Served.closed {d : Dir} {u : Unit} {s₁ : Fs} (h : Served K extra dirs files s)
    (hm : Mounted K (dirRefs d + (extra + slotRefs s.fileTable)) dirs files s₁) (hc : Calm (s.rootDir ::ₘ (extra + slotRefs s.fileTable)) s s₁)
    (hs : dirClose d s₁ = .ok (u, s')) : Served K extra dirs files s' ∧ Calm (s.rootDir ::ₘ (extra + slotRefs s.fileTable)) s s' := by
  obtain ⟨hm', hc'⟩ := hm.dirClose hs
  rw [hc.kept.rootDir] at hc'
  exact ⟨h.calm hm' (hc.trans hc'), hc.trans hc'⟩

theorem Calm.map {held : Multiset Ptr} (h : Calm held s s') : s'.map K dirs files = s.map K dirs files := by
  unfold Fs.map
  rw [h.tree]

theorem Served.reached {d : Dir} {s₁ : Fs} (h : Served K extra dirs files s)
    (hm : Mounted K (dirRefs d + (extra + slotRefs s.fileTable)) dirs files s₁) (hc : Calm (s.rootDir ::ₘ (extra + slotRefs s.fileTable)) s s₁)
    (hd : (s₁.inodes (d.inode s₁)).iNo ∈ dirs) : Served K (dirRefs d + extra) dirs files s₁ := by
  have hslots := slotRefs_congr hc.kept.fileTable
  refine ⟨?_, ?_, ?_⟩
  · rw [hslots, add_assoc]
    exact hm
  · intro q hq
    rcases Multiset.mem_add.mp hq with hq | hq
    · cases d with
      | root => simp [dirRefs] at hq
      | heap ptr inode =>
        obtain rfl := Multiset.mem_singleton.mp hq
        exact hd
    · rw [hc.kept.iNo q (Multiset.mem_cons_of_mem (Multiset.mem_add.mpr (.inl hq)))]
      exact h.extraDirs q hq
  · intro q hq
    rw [hslots] at hq
    rw [hc.kept.iNo q (Multiset.mem_cons_of_mem (Multiset.mem_add.mpr (.inr hq)))]
    exact h.slotFiles q hq

theorem sysOpen_create {junk : Junk} {pathname : Path} {flags depth : ℕ} {r : ℤ} {record : PathSearchRecord} {s₀ : Fs}
    (hslash : pathname.getLast? ≠ some slash) (hdepth : pathDepthCnt junk pathname s = .ok (depth, s))
    (hsearch : searchFile K junk pathname s = .ok ((none, record), s₀)) (hdir : record.fileType ≠ .directory)
    (hdepth' : pathDepthCnt junk record.searchedPath s₀ = .ok (depth, s₀)) (hcreat : oCreat flags = true)
    (hs : sysOpen K task junk pathname flags s = .ok (r, s')) : ∃ name s₁, lastName pathname = some name ∧
      fileCreate K task record.parentDir name flags s₀ = .ok (r, s₁) ∧ dirClose record.parentDir s₁ = .ok ((), s') := by
  unfold ElephantOS.sysOpen at hs
  rw [if_neg hslash] at hs
  simp only [bind_ok, assert_ok] at hs
  obtain ⟨_, _, ⟨-, rfl⟩, _, _, h1, _, _, h2, hs⟩ := hs
  obtain ⟨rfl, rfl⟩ := ok_inj h1 hdepth
  obtain ⟨rfl, rfl⟩ := ok_inj h2 hsearch
  dsimp only at hs
  rw [if_neg hdir] at hs
  simp only [bind_ok] at hs
  obtain ⟨_, _, h3, hs⟩ := hs
  obtain ⟨rfl, rfl⟩ := ok_inj h3 hdepth'
  rw [if_neg (not_not.mpr rfl), hcreat] at hs
  cases hname : lastName pathname with
  | none => simp [hname] at hs
  | some name =>
    simp only [hname, bind_ok] at hs
    obtain ⟨fd, s₁, h4, _, s₂, h5, hs⟩ := hs
    obtain ⟨rfl, rfl⟩ := (pure_ok _ _ _ _).mp hs
    exact ⟨name, s₁, rfl, h4, h5⟩

theorem Served.sysOpen {junk : Junk} {pathname : Path} {flags : ℕ} {r : ℤ} (h : Served K extra dirs files s)
    (hpath : PathOk pathname) (hroom : oCreat flags = true → RoomFor K pathname s)
    (hs : sysOpen K task junk pathname flags s = .ok (r, s')) : ∃ extra' files', Served K (extra' + extra) dirs files' s' ∧
      OpensFile K dirs files files' task flags (normalize (components pathname)) r s s' := by
  have hslot : ∀ p ∈ slotRefs s.fileTable, p ∈ s.rootDir ::ₘ (extra + slotRefs s.fileTable) :=
    fun p hp => Multiset.mem_cons_of_mem (Multiset.mem_add.mpr (.inr hp))
  have hkept : ∀ {t : Fs}, Kept (s.rootDir ::ₘ (extra + slotRefs s.fileTable)) s t → ∀ p ∈ slotRefs s.fileTable,
      (s.inodes p).iNo ∈ files ∧ (t.inodes p).iNo = (s.inodes p).iNo := fun hk p hp => ⟨h.slotFiles p hp, hk.iNo p (hslot p hp)⟩
  by_cases hslash : pathname.getLast? = some slash
  · unfold ElephantOS.sysOpen at hs
    rw [if_pos hslash] at hs
    obtain ⟨rfl, rfl⟩ := (pure_ok _ _ _ _).mp hs
    exact ⟨0, files, (zero_add extra).symm ▸ h, .inl ⟨rfl, fun _ => rfl⟩, .inl rfl, .of_tree rfl, fun p hp => ⟨h.slotFiles p hp, rfl⟩, .refl _ _⟩
  rcases sysOpen_ways hs with ⟨rfl, rfl⟩ | ⟨found, record, s₀, hsearch, hrest⟩
  · exact ⟨0, files, (zero_add extra).symm ▸ h, .inl ⟨rfl, fun _ => rfl⟩, .inl rfl, .of_tree rfl, fun p hp => ⟨h.slotFiles p hp, rfl⟩, .refl _ _⟩
  obtain ⟨hm, hc, hd, hends⟩ := searchFile_ended h.toMounted hpath hsearch
  dsimp only at hm hd hends
  rcases hrest with ⟨rfl, hclose⟩ | ⟨hdir, ⟨depth, hdepth, hdepth'⟩, hways⟩
  · obtain ⟨h', hc'⟩ := h.closed hm hc hclose
    exact ⟨0, files, (zero_add extra).symm ▸ h', .inl ⟨hc'.map, fun _ => rfl⟩, .inl rfl, .of_tree hc'.tree, hkept hc'.kept, hc'.kern.keepsMount⟩
  have hserved := h.reached hm hc hd
  rcases hways with ⟨hcreat, rfl, -⟩ | ⟨hcreat, n, rfl, hopen⟩
  · obtain ⟨name, s₁, hlast, hcreate, hclose⟩ := sysOpen_create hslash hdepth hsearch hdir hdepth' hcreat hs
    obtain ⟨names, name', hnames, hwalk, habsent, -⟩ := hends.last hpath.noNul hdepth hdepth'
    have habs : slash ∈ pathname := by
      by_contra hno
      simp [lastName, hno] at hlast
    obtain rfl : name = name' := Option.some.inj (hlast.symm.trans (lastName_components hslash habs hnames))
    have hmem : name ∈ components pathname := by simp [hnames]
    have hname : NewName K s₀ (s₀.inodes (record.parentDir.inode s₀)).iNo name := by
      refine ⟨components_name hpath.noNul name hmem, hpath.short name hmem, ?_⟩
      rw [hc.kern.disk]
      exact habsent
    obtain ⟨hp, -⟩ := h.volume.names.walk_root hwalk
    obtain ⟨hnorm, hparent, hfresh⟩ := hname.fresh hm hd (by rw [hc.tree]; exact hp)
    have hroom' : DirectRoom s₀.kern.disk (s₀.inodes (record.parentDir.inode s₀)) := by
      refine ((hroom hcreat).room.of_disk hc.kern.disk).at hm hnames ?_
      rw [hc.kern.disk]
      exact hwalk
    have hown : OwnSlot K s₀.kern.inodeBitmap := by
      rw [hc.kern.inodeBitmap]
      exact (hroom hcreat).slot
    rcases fileCreate_installed hm hd hown hname hroom' hcreate with ⟨rfl, hm', hc'⟩ | ⟨m, hnew, k, p, hi, hr⟩
    · rw [hc.kept.rootDir] at hc'
      have hc₂ := hc.trans (hc'.mono fun q hq => ?_)
      · obtain ⟨h', hc''⟩ := h.closed hm' hc₂ hclose
        exact ⟨0, files, (zero_add extra).symm ▸ h', .inl ⟨hc''.map, fun _ => rfl⟩, .inl rfl, .of_tree hc''.tree, hkept hc''.kept, hc''.kern.keepsMount⟩
      · rw [Multiset.mem_cons] at hq ⊢
        exact hq.imp_right fun hx => Multiset.mem_add.mpr (.inr hx)
    · obtain ⟨hi', hfd⟩ := hi.dirClose hclose
      have hr' : r = -1 ∨ LooksUp s' task r k := by
        unfold LooksUp
        rw [hfd]
        exact hr
      have hne : (s₀.inodes (record.parentDir.inode s₀)).iNo ≠ m := by
        intro heq
        exact hnew (.inl (heq ▸ hd))
      have hp₀ : (s₀.tree K dirs files).Path 0 (normalize names) (s₀.inodes (record.parentDir.inode s₀)).iNo := by
        rw [hc.tree]
        exact hp
      have hmap : s'.map K dirs (insert m files) = insert (normalize names ++ [name], some []) (s.map K dirs files) := by
        unfold Fs.map
        rw [hi'.tree, hm.tree.view_addLeaf hp₀ (fun hx => hnew (.inl hx)) (fun hx => hnew (.inr hx)) hne, hc.tree]
      have hslots := slotRefs_congr hc.kept.fileTable
      have hinst := hi'
      rw [← hslots] at hinst
      rw [hnames, hnorm]
      refine ⟨0, insert m files, ?_, .inr ⟨hcreat, by simp, ?_, ?_, hmap⟩, hinst.openAt hr' ?_, fun c => ?_,
        fun q hq => ⟨Set.mem_insert_of_mem _ (h.slotFiles q hq), ?_⟩, hc.kern.keepsMount.trans hi'.keeps⟩
      · rw [zero_add]
        refine hinst.served (fun q hq => hserved.extraDirs q (Multiset.mem_add.mpr (.inr hq))) fun q hq => ?_
        exact Set.mem_insert_of_mem _ (hserved.slotFiles q hq)
      · rw [List.dropLast_concat, ← hc.map]
        exact hparent
      · rw [← hc.map]
        exact hfresh
      · exact NamedTree.addLeaf_path hp₀
      · rw [hi'.tree, hc.tree]
        exact NamedTree.addLeaf_children _ c
      · rw [hi'.iNo q ?_, hc.kept.iNo q (hslot q hq)]
        rw [hc.kept.rootDir]
        exact hslot q hq
  · rcases hends.kind with hk | hk
    · exact absurd hk hdir
    rw [hk] at hends
    obtain ⟨pre, name, after, hnames, hsearched, hdmem, hn, hp, hnorm, pos, he, hord⟩ := hends.at_file h.volume.names
    rw [hsearched] at hdepth'
    obtain ⟨rfl, -⟩ := searched_whole hpath.noNul hnames hdepth hdepth'
    have hpathn : (s₀.tree K dirs files).Path 0 (normalize (components pathname)) n := by
      rw [hnames, hnorm, hc.tree]
      exact NamedTree.path_snoc.mpr ⟨_, hp, hdmem, pos, _, he, hord, rfl⟩
    rcases fileOpen_installed hserved.toMounted hn hopen with ⟨rfl, rfl⟩ | ⟨k, p, hi, hr⟩
    · exact ⟨_, files, hserved, .inl ⟨hc.map, fun _ => rfl⟩, .inl rfl, .of_tree hc.tree, hkept hc.kept, hc.kern.keepsMount⟩
    · refine ⟨_, files, hi.served hserved.extraDirs hserved.slotFiles, .inl ⟨?_, ?_⟩, hi.openAt hr hpathn, .of_tree (hi.tree.trans hc.tree),
        fun q hq => ⟨h.slotFiles q hq, ?_⟩, hc.kern.keepsMount.trans hi.keeps⟩
      · unfold Fs.map
        rw [hi.tree, hc.tree]
      · rw [hcreat]
        simp
      · rw [hi.iNo q ?_, hc.kept.iNo q (hslot q hq)]
        rw [slotRefs_congr hc.kept.fileTable]
        exact Multiset.mem_cons_of_mem (Multiset.mem_add.mpr (.inr hq))

end

end ElephantOS
