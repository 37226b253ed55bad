import ElephantOS.VolumePaths

namespace ElephantOS

open ByteMemory HaltingState

structure DirMade (K : Kernel) (rest : Multiset Ptr) (dirs files : Set ℕ) (parent : ℕ) (name : Name) (n : ℕ) (s s' : Fs) : Prop where
  new : n ∉ dirs ∪ files
  mounted : Mounted K rest (insert n dirs) files s'
  rootDir : s'.rootDir = s.rootDir
  fileTable : s'.fileTable = s.fileTable
  iNo : ∀ q ∈ s.openInodes, (s'.inodes q).iNo = (s.inodes q).iNo
  tree : s'.tree K (insert n dirs) files = (s.tree K dirs files).addInner parent name n
  keeps : KeepsMount K.toPartition s.kern s'.kern

section

variable {K : Kernel} {rest extra : Multiset Ptr} {dirs files : Set ℕ} {s s' : Fs} {n lba : ℕ} {name : Name} {io : Buffer} {ok : Bool} {dir : Dir}

theorem makeDir_parts {k₁ : Kern} (hmake : makeDir K dir name n lba io { s with kern := k₁ } = .ok (ok, s')) :
    ∃ k₂ k₃ io' inode', bitmapSync K (lba - K.sb.dataStartLba) .blockBitmap k₁ = .ok ((), k₂) ∧ sectorRange lba 1 ∧
      syncDirEntry K (s.inodes (dir.inode s)) (⟨name, n, .directory⟩ : Entry).dirEntry io'
        { k₂ with disk := blit k₂.disk (lba * 512) (newDirBytes io.bytes n (s.inodes (dir.inode s)).iNo) (1 * 512) } =
          .ok ((ok, inode'), k₃) ∧
      (ok = true → ∃ k₄ k₅ k₆, inodeSync K inode' io' k₃ = .ok ((), k₄) ∧ inodeSync K (newDirInode K n lba) io' k₄ = .ok ((), k₅) ∧
        bitmapSync K n .inodeBitmap k₅ = .ok ((), k₆) ∧ s' = setInode (dir.inode s) inode' { s with kern := k₆ }) := by
  have hinode : ∀ k : Kern, dir.inode { s with kern := k } = dir.inode s := by
    intro k
    cases dir <;> rfl
  unfold makeDir at hmake
  simp only [bind_ok, assert_ok, get_ok, liftKern_ok] at hmake
  obtain ⟨_, _, ⟨-, rfl⟩, _, _, ⟨k₂, hsync, rfl⟩, _, _, ⟨rfl, rfl⟩, _, _, ⟨k₃, hwrite, rfl⟩, entry, _, hcreate, ok', s₄, hdir, hmake⟩ := hmake
  obtain ⟨rfl, rfl⟩ := createDirEntry_eq hcreate
  obtain ⟨inode', k₄, hins, rfl⟩ := onDirInode_result hdir
  obtain ⟨hrange, rfl⟩ := (ideWrite_ok _ _ _ _ _ _).mp hwrite
  simp only [hinode] at hins hmake
  cases ok' with
  | false =>
    obtain ⟨rfl, rfl⟩ := (pure_ok _ _ _ _).mp hmake
    exact ⟨k₂, k₄, _, inode', hsync, hrange, hins, by simp⟩
  | true =>
    simp only [Bool.not_true, Bool.false_eq_true, if_false, bind_ok, get_ok, liftKern_ok, pure_ok] at hmake
    obtain ⟨_, _, ⟨rfl, rfl⟩, _, _, ⟨k₅, hparent, rfl⟩, _, _, ⟨k₆, hnew, rfl⟩, _, _, ⟨k₇, hbits, rfl⟩, rfl, rfl⟩ := hmake
    refine ⟨k₂, k₄, _, inode', hsync, hrange, hins, fun _ => ⟨k₅, k₆, k₇, ?_, hnew, hbits, rfl⟩⟩
    have hown : dir.inode (setInode (dir.inode s) inode' { s with kern := k₄ }) = dir.inode s := dir.inode_congr rfl
    rw [hown] at hparent
    simpa [setInode] using hparent

theorem Volume.addDir_ok {k k₁ k₂ k₃ k₅ : Kern} {bytes : Memory} {inode inode' : Inode} {d : ℕ} {e : Entry} {u : Unit}
    (hv : Volume K dirs files k) (halloc : inodeBitmapAlloc k = .ok (some n, k₁)) (hblock : blockBitmapAlloc K k₁ = .ok (some lba, k₂))
    (hsync : bitmapSync K (lba - K.sb.dataStartLba) .blockBitmap k₂ = .ok (u, k₃)) (hd : d ∈ dirs)
    (hc : (storedInode K.toPartition k.disk d).SameStored inode) (he : e.Valid) (hroom : DirectRoom k.disk inode)
    (hins : syncDirEntry K inode e.dirEntry io { k₃ with disk := blit k₃.disk (lba * 512) bytes (1 * 512) } = .ok ((ok, inode'), k₅)) :
    ok = true := by
  obtain ⟨-, -, rfl⟩ := inodeBitmapAlloc_new hv halloc
  have h₁ := hv.toInodes.spare (@inodeBitmapAlloc_spares _ _ { k with inodeBitmap := k.inodeBitmap.set n true } _ _ hv.toInodes rfl rfl)
  have hl := h₁.layout
  obtain ⟨lba', hsome, ha₂, -⟩ := blockBitmapAlloc_allocated hblock
  obtain rfl := Option.some.inj hsome
  obtain ⟨ha, -, -⟩ := ha₂.synced hl.whole hsync
  have hs₄ := @Inodes.newBlock_spares _ _ _ _ _ _ bytes h₁ ha
  have hroom₁ : DirectRoom { k with inodeBitmap := k.inodeBitmap.set n true }.disk inode := hroom
  refine (h₁.spare hs₄).insert_ok hd ?_ he (hroom₁.newBlock hl (h₁.dirAt hd hc).owns ha) hins
  have heq := (h₁.unmoved hs₄ d (.inl hd)).1
  dsimp only at heq ⊢
  rw [heq]
  exact hc

theorem makeDir_dirMade {k₁ k₂ : Kern} (h : Mounted K (dirRefs dir + rest) dirs files s) (hd : (s.inodes (dir.inode s)).iNo ∈ dirs)
    (hown : K.inodeNo n = n) (hname : NewName K s (s.inodes (dir.inode s)).iNo name)
    (hroom : DirectRoom s.kern.disk (s.inodes (dir.inode s))) (halloc : inodeBitmapAlloc s.kern = .ok (some n, k₁))
    (hblock : blockBitmapAlloc K k₁ = .ok (some lba, k₂))
    (hmake : makeDir K dir name n lba io { s with kern := k₂ } = .ok (ok, s')) :
    ok = true ∧ DirMade K (dirRefs dir + rest) dirs files (s.inodes (dir.inode s)).iNo name n s s' := by
  have hmem := h.dirMem
  have hst := h.stored _ hmem
  obtain ⟨hn4096, hnew, hk₁⟩ := inodeBitmapAlloc_new h.volume halloc
  have hvalid : (⟨name, n, .directory⟩ : Entry).Valid := hname.valid hn4096 (.inr rfl)
  have hord : (⟨name, n, .directory⟩ : Entry).Ordinary := hname.ordinary h hd
  obtain ⟨k₃, k₄, io', inode', hsync, hrange, hins, hthen⟩ := makeDir_parts hmake
  have hok := h.volume.addDir_ok halloc hblock hsync hd hst hvalid hroom hins
  obtain ⟨k₅, k₆, k₇, h5, h6, h7, rfl⟩ := hthen hok
  refine ⟨hok, ?_⟩
  obtain ⟨hv, -, hu, hstored, hput, hempty, hkeep⟩ := h.volume.addDir halloc hblock hsync (sectorRange_one.mp hrange) hown hd hst
    (fun i hi => newDirBytes_apply _ _ _ hi) hvalid hord rfl rfl hname.absent hroom hins h5 h6 h7
  have htree := h.volume.tree_addDir hput hord hd hu hempty
  have href := ((syncDirEntry_gives K _ _ _) _ _ _ hins).2
  have hsteady : Steady s.kern k₇ := by
    have h1 := (Quiet.inodeBitmapAlloc _ _ _ halloc).trans (Quiet.blockBitmapAlloc K _ _ _ hblock)
    have h2 := h1.trans (Quiet.bitmapSync K _ _ _ _ _ hsync)
    have h3 : Steady s.kern k₄ := by
      have h4 := ((syncDirEntry_gives K _ _ _) _ _ _ hins).1
      exact ⟨h4.pool.trans h2.pool, h4.grant.trans h2.grant, h2.next.trans h4.next⟩
    exact ((h3.trans (Quiet.inodeSync K _ _ _ _ _ h5)).trans (Quiet.inodeSync K _ _ _ _ _ h6)).trans (Quiet.bitmapSync K _ _ _ _ _ h7)
  have hinodes : ∀ q ∈ s.openInodes, ((setInode (dir.inode s) inode' { s with kern := k₇ }).inodes q).iNo = (s.inodes q).iNo ∧
      ((setInode (dir.inode s) inode' { s with kern := k₇ }).inodes q).iOpenCnts = (s.inodes q).iOpenCnts ∧
      (s.inodes q).iNo ∈ insert n dirs ∪ files ∧
      (storedInode K.toPartition k₇.disk (s.inodes q).iNo).SameStored ((setInode (dir.inode s) inode' { s with kern := k₇ }).inodes q) := by
    intro q hq
    have hq' : (s.inodes q).iNo ∈ insert n dirs ∪ files := by
      rw [Set.insert_union]
      exact Set.mem_insert_of_mem _ (h.number q hq)
    by_cases hqd : q = dir.inode s
    · subst hqd
      simp only [setInode, Function.update_self]
      exact ⟨href.iNo, href.iOpenCnts, hq', hstored⟩
    · simp only [setInode, Function.update_of_ne hqd]
      have hapart : (s.inodes q).iNo ≠ (s.inodes (dir.inode s)).iNo := fun heq => hqd (h.distinct q hq _ hmem heq)
      refine ⟨trivial, trivial, hq', ?_⟩
      rw [(hu _ ⟨h.number q hq, hapart⟩).1]
      exact h.stored q hq
  exact ⟨hnew, h.same rfl rfl hsteady.grant hsteady.next hv hinodes, rfl, rfl, fun q hq => (hinodes q hq).1, htree, hkeep⟩

theorem Served.mkdirFail {s₁ : Fs} {r : ℤ} (h : Served K extra dirs files s)
    (hm : Mounted K (dirRefs dir + (extra + slotRefs s.fileTable)) dirs files s₁) (hc : Calm (s.rootDir ::ₘ (extra + slotRefs s.fileTable)) s s₁)
    (hs : mkdirFail dir io s₁ = .ok (r, s')) : r = -1 ∧ Served K extra dirs files s' ∧ HeapOnly s.kern s'.kern := by
  unfold ElephantOS.mkdirFail at hs
  simp only [bind_ok] at hs
  obtain ⟨_, s₂, h1, _, s₃, h2, hs⟩ := hs
  obtain ⟨rfl, rfl⟩ := (pure_ok _ _ _ _).mp hs
  obtain ⟨h', hc'⟩ := h.closed hm hc h1
  have hslots := slotRefs_congr hc'.kept.fileTable
  obtain ⟨hm', hc'', -⟩ := h'.toMounted.lift (s₂.rootDir ::ₘ (extra + slotRefs s₂.fileTable)) (fun _ _ _ hk => sysFree_ok hk) h2
  exact ⟨rfl, h'.calm hm' hc'', hc'.kern.trans hc''.kern⟩

structure MakesDirectory (K : Kernel) (dirs dirs' files : Set ℕ) (path : List Name) (r : ℤ) (s s' : Fs) : Prop where
  map : r = -1 ∧ s'.map K dirs' files = s.map K dirs files ∨ r = 0 ∧ path ≠ [] ∧ (path.dropLast, none) ∈ s.map K dirs files ∧
    (∀ x, (path, x) ∉ s.map K dirs files) ∧ s'.map K dirs' files = insert (path, none) (s.map K dirs files)
  names : KeepsNames K dirs dirs' files files s s'
  keeps : KeepsMount K.toPartition s.kern s'.kern

theorem DirMade.served {s₀ s₁ s₂ : Fs} {parent : ℕ} {ptr : Ptr} {u v : Unit} (h : Served K extra dirs files s)
    (hm : Mounted K (dirRefs dir + (extra + slotRefs s.fileTable)) dirs files s₀) (hc : Calm (s.rootDir ::ₘ (extra + slotRefs s.fileTable)) s s₀)
    (hmade : DirMade K (dirRefs dir + (extra + slotRefs s.fileTable)) dirs files parent name n s₀ s₁)
    (hfree : liftKern (sysFree ptr) s₁ = .ok (u, s₂)) (hclose : dirClose dir s₂ = .ok (v, s')) :
    Served K extra (insert n dirs) files s' ∧ s'.tree K (insert n dirs) files = (s.tree K dirs files).addInner parent name n ∧
      KeepsMount K.toPartition s.kern s'.kern := by
  obtain ⟨hm₂, hc₂, -⟩ := hmade.mounted.lift (s₁.rootDir ::ₘ (dirRefs dir + (extra + slotRefs s.fileTable))) (fun _ _ _ hk => sysFree_ok hk) hfree
  obtain ⟨hm₃, hc₃⟩ := hm₂.dirClose hclose
  have hslots : slotRefs s'.fileTable = slotRefs s.fileTable := by
    rw [slotRefs_congr hc₃.kept.fileTable, slotRefs_congr hc₂.kept.fileTable, hmade.fileTable, slotRefs_congr hc.kept.fileTable]
  have hno : ∀ q ∈ extra + slotRefs s.fileTable, (s'.inodes q).iNo = (s.inodes q).iNo := by
    intro q hq
    rw [hc₃.kept.iNo q (Multiset.mem_cons_of_mem hq), hc₂.kept.iNo q (Multiset.mem_cons_of_mem (Multiset.mem_add.mpr (.inr hq))),
      hmade.iNo q (hm.mem (Multiset.mem_add.mpr (.inr hq))), hc.kept.iNo q (Multiset.mem_cons_of_mem hq)]
  refine ⟨⟨?_, ?_, ?_⟩, ?_, ((hc.kern.keepsMount.trans hmade.keeps).trans hc₂.kern.keepsMount).trans hc₃.kern.keepsMount⟩
  · rw [hslots]
    exact hm₃
  · intro q hq
    rw [hno q (Multiset.mem_add.mpr (.inl hq))]
    exact Set.mem_insert_of_mem _ (h.extraDirs q hq)
  · intro q hq
    rw [hslots] at hq
    rw [hno q (Multiset.mem_add.mpr (.inr hq))]
    exact h.slotFiles q hq
  · rw [hc₃.tree, hc₂.tree, hmade.tree, hc.tree]

theorem Served.sysMkdir {junk : Junk} {pathname : Path} {r : ℤ} (h : Served K extra dirs files s)
    (hpath : PathOk pathname) (hroom : RoomFor K pathname s)
    (hs : sysMkdir K junk pathname s = .ok (r, s')) : ∃ dirs', Served K extra dirs' files s' ∧
      MakesDirectory K dirs dirs' files (normalize (components pathname)) r s s' := by
  unfold ElephantOS.sysMkdir at hs
  simp only [bind_ok] at hs
  obtain ⟨o, s₀, h0, hs⟩ := hs
  obtain ⟨hm₀, hc₀, k₀, hk₀, rfl⟩ := h.toMounted.lift (s.rootDir ::ₘ (extra + slotRefs s.fileTable)) (fun _ _ _ hk => (sysMalloc_ok hk).1) h0
  obtain ⟨-, -, rfl⟩ := sysMalloc_plenty h.plenty hk₀
  simp only [bind_ok] at hs
  obtain ⟨⟨found, record⟩, s₁, hsearch, hs⟩ := hs
  obtain ⟨hm, hc, hd, hends⟩ := searchFile_ended hm₀ hpath hsearch
  dsimp only at hm hd hends hs hc
  have hc₁ := hc₀.trans hc
  have hdisk : k₀.disk = s.kern.disk := hc₀.kern.disk
  rw [hdisk] at hends
  have hfail : ∀ {io : Buffer}, ElephantOS.mkdirFail record.parentDir io s₁ = .ok (r, s') → ∃ dirs', Served K extra dirs' files s' ∧
      MakesDirectory K dirs dirs' files (normalize (components pathname)) r s s' := by
    intro io hs
    obtain ⟨rfl, h', hheap⟩ := h.mkdirFail hm hc₁ hs
    have htree := @Fs.tree_congr K dirs files s s' hheap.disk
    exact ⟨dirs, h', .inl ⟨rfl, Fs.map_congr htree⟩, .of_tree htree, hheap.keepsMount⟩
  split_ifs at hs with hfound
  · exact hfail hs
  obtain rfl : found = none := not_not.mp hfound
  simp only [bind_ok] at hs
  obtain ⟨depth, _, hdepth, depth', _, hdepth', hs⟩ := hs
  obtain rfl := (pathDepthCnt_ok hdepth).symm
  obtain rfl := (pathDepthCnt_ok hdepth').symm
  split_ifs at hs with hne
  · exact hfail hs
  obtain rfl : depth = depth' := not_not.mp hne
  simp only [bind_ok, liftKern_ok] at hs
  obtain ⟨o, _, ⟨k₁, halloc, rfl⟩, hs⟩ := hs
  obtain ⟨n, -, hclear, hfirst, rfl, -⟩ := inodeBitmapAlloc_ok halloc
  rw [hc₁.kern.inodeBitmap] at hclear hfirst
  simp only [bind_ok, liftKern_ok] at hs
  obtain ⟨o, _, ⟨k₂, hblock, rfl⟩, hs⟩ := hs
  obtain ⟨lba, rfl, -⟩ := blockBitmapAlloc_allocated hblock
  obtain ⟨names, name, hnames, hwalk, habsent, hlast⟩ := hends.last hpath.noNul hdepth hdepth'
  simp only [hlast, bind_ok] at hs
  obtain ⟨ok, s₂, hmake, hs⟩ := hs
  have hmem : name ∈ components pathname := by simp [hnames]
  have hname : NewName K s₁ (s₁.inodes (record.parentDir.inode s₁)).iNo name := by
    refine ⟨components_name hpath.noNul name hmem, hpath.short name hmem, ?_⟩
    rw [hc₁.kern.disk]
    exact habsent
  have hroom' : DirectRoom s₁.kern.disk (s₁.inodes (record.parentDir.inode s₁)) := by
    refine (hroom.room.of_disk hc₁.kern.disk).at hm hnames ?_
    rw [hc₁.kern.disk]
    exact hwalk
  obtain ⟨rfl, hmade⟩ := makeDir_dirMade hm hd (hroom.slot n hclear hfirst) hname hroom' halloc hblock hmake
  simp only [Bool.not_true, Bool.false_eq_true, if_false, bind_ok] at hs
  obtain ⟨_, s₃, h3, _, s₄, h4, hs⟩ := hs
  obtain ⟨rfl, rfl⟩ := (pure_ok _ _ _ _).mp hs
  obtain ⟨h', htree, hkeep⟩ := hmade.served h hm hc₁ h3 h4
  obtain ⟨hp, -⟩ := h.volume.names.walk_root hwalk
  obtain ⟨hnorm, hparent, hfresh⟩ := hname.fresh hm hd (by rw [hc₁.tree]; exact hp)
  rw [hc₁.map] at hparent hfresh
  have hneq : (s₁.inodes (record.parentDir.inode s₁)).iNo ≠ n := by
    intro heq
    exact hmade.new (.inl (heq ▸ hd))
  rw [hnames, hnorm]
  refine ⟨_, h', .inr ⟨rfl, by simp, ?_, hfresh, ?_⟩, fun c => ?_, hkeep⟩
  · rw [List.dropLast_concat]
    exact hparent
  · unfold Fs.map
    rw [htree]
    exact h.tree.view_addInner hp (fun hx => hmade.new (.inl hx)) (fun hx => hmade.new (.inr hx)) hneq
  · rw [htree]
    exact NamedTree.addInner_children _ c

end

end ElephantOS
