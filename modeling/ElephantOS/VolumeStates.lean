import ElephantOS.VolumeRuns

namespace ElephantOS

open ByteMemory HaltingState FileSpace

section

variable {part : Partition} {pool : ℕ → Pool} {c c' c₁ c₂ : Fs × List Dir} {ls : List (ℕ × VolumeCall)} {task task' n : ℕ} {fd r : ℤ}
  {path : List Name} {t : FileType} {f : OpenFile Name} {pathname : Path}

theorem VolumeRun.served (h : VolumeRun part pool ls c) : ∃ extra dirs files, Served part.kernel extra dirs files c.1 := by
  obtain ⟨A, ⟨-, lost, dirs, files, hserved⟩, -, -⟩ := h.shows
  exact ⟨_, dirs, files, hserved⟩

theorem Names.named_mem {M : Memory} {dirs files : Set ℕ} (h : Names (entriesOn part M) dirs files) (hn : NamedAt part M path n t) :
    n ∈ dirs ∪ files := by
  rcases (h.named_path hn).2 with ⟨-, hd⟩ | ⟨-, hf⟩
  · exact .inl hd
  · exact .inr hf

theorem Names.named_exists {M : Memory} {dirs files : Set ℕ} (h : Names (entriesOn part M) dirs files) (hn : n ∈ dirs ∪ files) :
    ∃ path t, NamedAt part M path n t := by
  obtain ⟨path, hp⟩ := h.wellFormed.path_exists hn
  rcases hn with hd | hf
  · exact ⟨path, _, (h.path_named hp).1 hd⟩
  · exact ⟨path, _, (h.path_named hp).2 hf⟩

theorem Names.named_unique {M : Memory} {dirs files : Set ℕ} {path' : List Name} {t' : FileType} (h : Names (entriesOn part M) dirs files)
    (hn : NamedAt part M path n t) (hn' : NamedAt part M path' n t') : path' = path :=
  h.wellFormed.path_unique (h.named_path hn').1 (h.named_path hn).1

/-- The inodes that the bitmap has in use are the ones that can be reached from the root directory, each by one path. -/
theorem volume_run_named_once (h : VolumeRun part pool ls c) (hn : n < 4096) :
    c.1.kern.inodeBitmap.scanTest n = true ↔ ∃! path, ∃ t, NamedAt part c.1.kern.disk path n t := by
  obtain ⟨extra, dirs, files, hserved⟩ := h.served
  have hnames := hserved.volume.names
  rw [hserved.volume.inodeBits n hn]
  constructor
  · intro hmem
    obtain ⟨path, t, hp⟩ := hnames.named_exists hmem
    refine ⟨path, ⟨t, hp⟩, ?_⟩
    rintro path' ⟨t', hp'⟩
    exact hnames.named_unique hp hp'
  · rintro ⟨path, ⟨t, hp⟩, -⟩
    exact hnames.named_mem hp

theorem volume_run_named_once_file : ∃ s : Fs, VolumeRun (formattedPartition 63 4709) kernelThreads [(0, .sysOpen [slash, 102] 6 3)] (s, []) ∧
    (s.kern.inodeBitmap.scanTest 1 = true ↔ ∃! path, ∃ t, NamedAt (formattedPartition 63 4709) s.kern.disk path 1 t) := by
  obtain ⟨s₀, s₁, -, -, -, hfresh, hopen, -⟩ := sampleFile
  have h : VolumeRun (formattedPartition 63 4709) kernelThreads [(0, .sysOpen [slash, 102] 6 3)] (s₁, []) := ⟨s₀, hfresh, .single hopen⟩
  exact ⟨s₁, h, volume_run_named_once h (by omega)⟩

/-- The blocks of whatever has a path are in use, and are the blocks of nothing else. -/
theorem volume_run_blocks_apart {p : ℕ} (h : VolumeRun part pool ls c) (hn : NamedAt part c.1.kern.disk path n t) (hp : p < 141)
    (hnz : refAddr c.1.kern.disk (storedInode part c.1.kern.disk n) p ≠ 0) :
    UsedBlock part c.1.kern (refAddr c.1.kern.disk (storedInode part c.1.kern.disk n) p) ∧
      ∀ path' m t' q, NamedAt part c.1.kern.disk path' m t' → q < 141 →
        refAddr c.1.kern.disk (storedInode part c.1.kern.disk m) q = refAddr c.1.kern.disk (storedInode part c.1.kern.disk n) p →
          path' = path ∧ q = p := by
  obtain ⟨extra, dirs, files, hserved⟩ := h.served
  have hnames := hserved.volume.names
  have hmem := hnames.named_mem hn
  have howns := hserved.volume.owns hmem
  refine ⟨howns.used p hp hnz, fun path' m t' q hm hq heq => ?_⟩
  by_cases hnm : n = m
  · subst hnm
    exact ⟨hnames.named_unique hn hm, (howns.inj p hp q hq hnz heq.symm).symm⟩
  · exact absurd heq.symm (hserved.volume.apart n hmem m (hnames.named_mem hm) hnm p hp q hq hnz)

theorem volume_run_blocks_apart_root : ∃ s : Fs, refAddr s.kern.disk (storedInode (formattedPartition 63 4709) s.kern.disk 0) 0 ≠ 0 ∧
    UsedBlock (formattedPartition 63 4709) s.kern (refAddr s.kern.disk (storedInode (formattedPartition 63 4709) s.kern.disk 0) 0) ∧
      ∀ path' m t' q, NamedAt (formattedPartition 63 4709) s.kern.disk path' m t' → q < 141 →
        refAddr s.kern.disk (storedInode (formattedPartition 63 4709) s.kern.disk m) q =
          refAddr s.kern.disk (storedInode (formattedPartition 63 4709) s.kern.disk 0) 0 → path' = [] ∧ q = 0 := by
  obtain ⟨s₀, s₁, -, -, -, hfresh, hopen, -⟩ := sampleFile
  have h : VolumeRun (formattedPartition 63 4709) kernelThreads [(0, .sysOpen [slash, 102] 6 3)] (s₁, []) := ⟨s₀, hfresh, .single hopen⟩
  obtain ⟨extra, dirs, files, hserved⟩ := h.served
  have hblock : refAddr s₁.kern.disk (storedInode (formattedPartition 63 4709) s₁.kern.disk 0) 0 ≠ 0 := by
    obtain ⟨j, e, he, -⟩ := (hserved.volume.dir 0 hserved.volume.names.root).dotted.here
    rw [refAddr_block _ _ (by omega)]
    exact (slotMap_eq_some.mp he).1.2.2
  exact ⟨s₁, hblock, volume_run_blocks_apart h .root (by omega) hblock⟩

/-- An inode in memory is held, has a path, is the one on the disk, and is in memory once: one that is in use is never freed. -/
theorem volume_run_cached_inodes {p : Ptr} (h : VolumeRun part pool ls c) (hp : p ∈ c.1.openInodes) : 0 < (c.1.inodes p).iOpenCnts ∧
    (∃ path t, NamedAt part c.1.kern.disk path (c.1.inodes p).iNo t) ∧
      (storedInode part c.1.kern.disk (c.1.inodes p).iNo).SameStored (c.1.inodes p) ∧
        ∀ q ∈ c.1.openInodes, (c.1.inodes q).iNo = (c.1.inodes p).iNo → q = p := by
  obtain ⟨extra, dirs, files, hserved⟩ := h.served
  refine ⟨?_, hserved.volume.names.named_exists (hserved.number p hp), hserved.stored p hp, fun q hq heq => hserved.distinct q hq p hp heq⟩
  rw [hserved.refs.count p hp]
  exact Multiset.count_pos.mpr ((hserved.refs.mem p).mpr hp)

theorem volume_run_cached_inodes_root : ∃ s : Fs, s.rootDir ∈ s.openInodes ∧ 0 < (s.inodes s.rootDir).iOpenCnts ∧
    (∃ path t, NamedAt (formattedPartition 63 4709) s.kern.disk path (s.inodes s.rootDir).iNo t) ∧
      (storedInode (formattedPartition 63 4709) s.kern.disk (s.inodes s.rootDir).iNo).SameStored (s.inodes s.rootDir) ∧
        ∀ q ∈ s.openInodes, (s.inodes q).iNo = (s.inodes s.rootDir).iNo → q = s.rootDir := by
  obtain ⟨s₀, s₁, -, -, -, hfresh, hopen, -⟩ := sampleFile
  have h : VolumeRun (formattedPartition 63 4709) kernelThreads [(0, .sysOpen [slash, 102] 6 3)] (s₁, []) := ⟨s₀, hfresh, .single hopen⟩
  obtain ⟨extra, dirs, files, hserved⟩ := h.served
  exact ⟨s₁, hserved.rootMem, volume_run_cached_inodes h hserved.rootMem⟩

/-- A file that is open can be reached, and is read and written at a position inside it or at its end. -/
theorem volume_run_open_files (h : VolumeRun part pool ls c) (hf : DescriptorAt part.kernel c.1 task fd f) :
    ∃ bytes, (f.path, some bytes) ∈ pathMap part c.1.kern.disk ∧ f.pos ≤ bytes.length := by
  obtain ⟨A, hA⟩ := h.shows
  obtain ⟨bytes, hmem, hpos⟩ := hA.wellFormed.opened _ f ((hA.shows.opened task fd f).mpr hf)
  rw [hA.shows.map] at hmem
  exact ⟨bytes, hmem, hpos⟩

theorem volume_run_open_files_new : ∃ s : Fs, DescriptorAt (formattedPartition 63 4709).kernel s 0 3 ⟨[[102]], 0, true⟩ ∧
    ∃ bytes, ([[102]], some bytes) ∈ pathMap (formattedPartition 63 4709) s.kern.disk ∧ 0 ≤ bytes.length := by
  obtain ⟨s₀, s₁, -, -, -, hfresh, hopen, -⟩ := sampleFile
  have hf : DescriptorAt (formattedPartition 63 4709).kernel s₁ 0 3 ⟨[[102]], 0, true⟩ := by
    have hpath : normalize (components [slash, 102]) = [[102]] := by decide
    have hshows := (hopen.created hfresh.shows (by decide) (by decide)).2
    rw [hpath] at hshows
    refine (hshows.opened _ _ _).mp ?_
    dsimp only
    rw [Function.update_self]
    rfl
  exact ⟨s₁, hf, volume_run_open_files ⟨s₀, hfresh, .single hopen⟩ hf⟩

/-- `sys_read` gives the bytes that the file has at the position of the descriptor, moves it past them, and changes no file. -/
theorem volume_run_reads {buf buf' : Memory} {count : ℕ} {s' : Fs} (h : VolumeRun part pool ls c) (hcount : count < 2 ^ 31)
    (hs : sysReadInto task fd buf count (onTask pool task c.1) = .ok ((r, buf'), s')) :
    pathMap part s'.kern.disk = pathMap part c.1.kern.disk ∧ (r = -1 ∨ ∃ f bytes, DescriptorAt part.kernel c.1 task fd f ∧
      (f.path, some bytes) ∈ pathMap part c.1.kern.disk ∧ bytesOf buf' r.toNat = (bytes.drop f.pos).take count ∧
        DescriptorAt part.kernel s' task fd { f with pos := f.pos + (bytesOf buf' r.toNat).length }) := by
  obtain ⟨A, hA⟩ := h.shows
  obtain ⟨s, handles⟩ := c
  have hstep : VolumeStep part.kernel pool (s, handles) _ (s', handles) := .sysRead hcount hs
  obtain ⟨es, A', hmeans, hrun, -, hshows'⟩ := hstep.answered hA
  generalize hb : bytesOf buf' r.toNat = bytes at hmeans ⊢
  generalize hres : r = res at hmeans ⊢
  cases hmeans with
  | readFails =>
    obtain rfl := Machine.Run.nil_iff.mp hrun
    exact ⟨hshows'.map.symm.trans hA.shows.map, .inl rfl⟩
  | @reads _ _ _ path _ =>
    have hread := Machine.Run.single_iff.mp hrun
    generalize hpath : path = q at hread
    cases hread with
    | @read o f old _ _ hf hold hbytes =>
      refine ⟨hshows'.map.symm.trans hA.shows.map, .inr ⟨f, old, (hA.shows.opened _ _ _).mp hf, ?_, hbytes, ?_⟩⟩
      · rw [hA.shows.map] at hold
        exact hold
      · refine (hshows'.opened _ _ _).mp ?_
        dsimp only
        rw [Function.update_self]

theorem volume_run_reads_byte : ∃ (s s' : Fs) (buf : Memory), sysReadInto 0 3 zeros 5 (onTask kernelThreads 0 s) = .ok ((1, buf), s') ∧
    pathMap (formattedPartition 63 4709) s'.kern.disk = pathMap (formattedPartition 63 4709) s.kern.disk ∧
      ((1 : ℤ) = -1 ∨ ∃ f bytes, DescriptorAt (formattedPartition 63 4709).kernel s 0 3 f ∧
        (f.path, some bytes) ∈ pathMap (formattedPartition 63 4709) s.kern.disk ∧
          bytesOf buf (1 : ℤ).toNat = (bytes.drop f.pos).take 5 ∧
            DescriptorAt (formattedPartition 63 4709).kernel s' 0 3 { f with pos := f.pos + (bytesOf buf (1 : ℤ).toNat).length }) := by
  obtain ⟨s₀, s₁, s₂, s₃, buf, hfresh, hopen, hwrite, -, hread⟩ := sampleFile
  exact ⟨s₂, s₃, buf, hread, volume_run_reads ⟨s₀, hfresh, .snoc (.single hopen) hwrite⟩ (by omega) hread⟩

/-- `sys_write` leaves the inode and the blocks of everything but the file of the descriptor. -/
theorem volume_run_writes_apart {bytes : List UInt8} (h : VolumeRun part pool ls c)
    (hs : VolumeStep part.kernel pool c (task, .sysWrite fd bytes r) c') (hn : NamedAt part c.1.kern.disk path n t)
    (hother : ¬ LeadsTo c.1 task fd n) : storedInode part c'.1.kern.disk n = storedInode part c.1.kern.disk n ∧
      ∀ a ∈ ownSectors c.1.kern.disk (storedInode part c.1.kern.disk n), c'.1.kern.disk a = c.1.kern.disk a := by
  obtain ⟨extra, dirs, files, hserved⟩ := h.served
  cases hs with
  | sysWrite _ hcount _ hrun =>
    obtain ⟨-, -, hu, -⟩ := (hserved.onTask pool task).sysWrite hcount hrun
    obtain ⟨hstored, hblocks⟩ := hu n ⟨hserved.volume.names.named_mem hn, hother⟩
    exact ⟨hstored, hblocks.bytes⟩

theorem volume_run_writes_apart_root : ∃ s s' : Fs,
    VolumeStep (formattedPartition 63 4709).kernel kernelThreads (s, []) (0, .sysWrite 3 (bytesOf zeros 2) 2) (s', []) ∧
    storedInode (formattedPartition 63 4709) s'.kern.disk 0 = storedInode (formattedPartition 63 4709) s.kern.disk 0 ∧
      ∀ a ∈ ownSectors s.kern.disk (storedInode (formattedPartition 63 4709) s.kern.disk 0), s'.kern.disk a = s.kern.disk a := by
  obtain ⟨s₀, s₁, s₂, -, -, hfresh, hopen, hwrite, -⟩ := sampleFile
  have h : VolumeRun (formattedPartition 63 4709) kernelThreads [(0, .sysOpen [slash, 102] 6 3)] (s₁, []) := ⟨s₀, hfresh, .single hopen⟩
  refine ⟨s₁, s₂, hwrite, volume_run_writes_apart h hwrite .root ?_⟩
  rintro ⟨k, p, hk, hp, hno⟩
  obtain ⟨extra, dirs, files, hserved⟩ := h.served
  have hfile := (hserved.slot hk.2.2.1 hp).2
  rw [hno] at hfile
  exact hserved.volume.names.disjoint 0 hserved.volume.names.root hfile

/-- Making a directory and removing it, by whichever tasks, leaves the map as it was. -/
theorem volume_run_mkdir_rmdir {pathname' : Path} (h : VolumeRun part pool ls c) (hmake : VolumeStep part.kernel pool c (task, .sysMkdir pathname 0) c₁)
    (hremove : VolumeStep part.kernel pool c₁ (task', .sysRmdir pathname' 0) c₂)
    (hsame : normalize (components pathname') = normalize (components pathname)) :
    pathMap part c₂.1.kern.disk = pathMap part c.1.kern.disk := by
  obtain ⟨A, hA⟩ := h.shows
  obtain ⟨es, A₁, hmeans, hrun, hA₁⟩ := (hmake.answered hA).shows hA.wellFormed
  obtain ⟨es', A₂, hmeans', hrun', hA₂⟩ := (hremove.answered hA₁).shows hA₁.wellFormed
  cases hmeans
  cases hmeans'
  have hmade := Machine.Run.single_iff.mp hrun
  have hremoved := Machine.Run.single_iff.mp hrun'
  rw [hsame] at hremoved
  generalize normalize (components pathname) = path at hmade hremoved
  cases hmade with
  | makeDirectory hv =>
    cases hremoved with
    | removeDirectory _ _ _ =>
      have hmap := hA₂.shows.map
      have hback : {x ∈ insert (path, none) A.map | x.1 ≠ path} = A.map := by
        ext ⟨p, x⟩
        constructor
        · rintro ⟨hx | hx, hne⟩
          · exact absurd (Prod.mk.inj hx).1 hne
          · exact hx
        · refine fun hx => ⟨.inr hx, ?_⟩
          rintro rfl
          exact hv.absent x hx
      dsimp only at hmap
      rw [hback] at hmap
      exact hmap.symm.trans hA.shows.map

theorem volume_run_mkdir_rmdir_once : ∃ s₀ s₁ s₂, FreshVolume (formattedPartition 63 4709) s₀ ∧
    VolumeStep (formattedPartition 63 4709).kernel kernelThreads (s₀, []) (1, .sysMkdir [slash, 100] 0) (s₁, []) ∧
    VolumeStep (formattedPartition 63 4709).kernel kernelThreads (s₁, []) (1, .sysRmdir [slash, 100] 0) (s₂, []) ∧
    pathMap (formattedPartition 63 4709) s₂.kern.disk = pathMap (formattedPartition 63 4709) s₀.kern.disk := by
  obtain ⟨s₀, s₁, -, s₂, hfresh, hmake, -, hremove⟩ := sampleDirectory
  exact ⟨s₀, s₁, s₂, hfresh, hmake, hremove, volume_run_mkdir_rmdir ⟨s₀, hfresh, .nil⟩ hmake hremove rfl⟩

/-- Formatting and mounting leave the root directory and nothing else, and no file open. -/
theorem fresh_volume_is_root {s : Fs} (h : FreshVolume part s) : pathMap part s.kern.disk = {([], none)} ∧
    ∀ task fd f, ¬ DescriptorAt part.kernel s task fd f := by
  refine ⟨h.shows.shows.map.symm, fun task fd f hf => ?_⟩
  cases (h.shows.shows.opened task fd f).mpr hf

theorem fresh_volume_is_root_sample : ∃ s : Fs, FreshVolume (formattedPartition 63 4709) s ∧
    pathMap (formattedPartition 63 4709) s.kern.disk = {([], none)} ∧
    ∀ task fd f, ¬ DescriptorAt (formattedPartition 63 4709).kernel s task fd f := by
  obtain ⟨s₀, -, -, -, -, hfresh, -⟩ := sampleFile
  exact ⟨s₀, hfresh, fresh_volume_is_root hfresh⟩

end

end ElephantOS
