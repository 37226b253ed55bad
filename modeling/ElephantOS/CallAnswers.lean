import ElephantOS.CallMeanings

namespace ElephantOS

open ByteMemory HaltingState FileSpace

section

variable {K : Kernel} {extra extra' : Multiset Ptr} {dirs dirs' files files' : Set ℕ} {s s' : Fs} {handles : List Dir}
  {A : FileSpace (ℕ × ℤ) Name UInt8} {task flags j k i : ℕ} {r fd : ℤ} {p : Ptr} {path : List Name} {junk : Junk} {pathname : Path}

theorem Running.of (hcalls : CallInv s handles) (hserved : Served K (extra' + (extra + (handles.map dirRefs).sum)) dirs files s) :
    Running K s handles := by
  rw [← add_assoc] at hserved
  exact ⟨hcalls, _, dirs, files, hserved⟩

theorem Served.map_eq (h : Served K extra dirs files s) : s.map K dirs files = pathMap K.toPartition s.kern.disk := h.volume.map_eq

theorem Opened.file {held : Multiset Ptr} (h : Opened K held task junk pathname flags r k p s s') :
    s'.fileTable k = ⟨0, flags, some p⟩ ∧ ∀ i, i ≠ k → s'.fileTable i = s.fileTable i ∨ (s.fileTable i).fdInode = none ∧ (s'.fileTable i).fdInode = none := by
  constructor
  · rcases h.fileTable k with heq | ⟨hnone, -⟩
    · rw [heq, Function.update_self]
    · rw [Function.update_self] at hnone
      cases hnone
  · intro i hi
    have := h.fileTable i
    rwa [Function.update_of_ne hi] at this

theorem Opened.others {held : Multiset Ptr} {t : ℕ} {d : ℤ} {f : OpenFile Name} (h : Opened K held task junk pathname flags r k p s s')
    (hs : Served K extra dirs files s) (hs' : Served K extra' dirs' files' s') (inv : CallInv s handles)
    (hnames : KeepsNames K dirs dirs' files files' s s')
    (hslots : ∀ q ∈ slotRefs s.fileTable, (s.inodes q).iNo ∈ files' ∧ (s'.inodes q).iNo = (s.inodes q).iNo)
    (hne : (t, d) ≠ (task, r)) : DescriptorAt K s' t d f ↔ DescriptorAt K s t d f := by
  refine descriptorAt_congr ?_ (fun i hi => h.file.2 i ?_) fun i q hi hq => ?_
  · rcases h.fdTable with ⟨j, hfree, hj, hfd⟩ | ⟨-, hfd⟩
    · rw [hfd]
      by_cases ht : t = task
      · subst ht
        have hj : d.toNat ≠ j := by
          have := hfree.1
          rintro rfl
          exact hne (by rw [hj]; congr 1; omega)
        simp only [setFd, Function.update_self, Function.update_of_ne hj]
      · simp only [setFd, Function.update_of_ne ht]
    · rw [hfd]
  · rintro rfl
    exact inv.lookUp_free hi h.free.1 h.free.2.2
  · have hmem := mem_slotRefs_of hi.2.2.1 hq
    obtain ⟨hin, hno⟩ := hslots q hmem
    exact ⟨hno, fun path => hnames.named hs.volume hs'.volume (hs.slotFiles q hmem) hin⟩

theorem ShowsSpace.sysOpen (h : ShowsSpace K (s, handles) A) (hpath : PathOk pathname)
    (hroom : oCreat flags = true → RoomFor K pathname s) (hs : sysOpen K task junk pathname flags s = .ok (r, s')) :
    Answered K A (task, .sysOpen pathname flags r) (s', handles) := by
  obtain ⟨⟨hcalls, lost, dirs, files, hserved⟩, hshows, -⟩ := h
  obtain ⟨extra', files', hserved', hopens⟩ := hserved.sysOpen hpath hroom hs
  have hrunning : Running K s' handles := .of (hcalls.sysOpen hs) hserved'
  obtain ⟨M, opened⟩ := A
  have hM : M = s.map K dirs files := hshows.map.trans hserved.map_eq.symm
  -- a call that returns -1 leaves the descriptors
  have hfails : r = -1 → (∀ t d f, DescriptorAt K s' t d f ↔ DescriptorAt K s t d f) →
      Answered K ⟨M, opened⟩ (task, .sysOpen pathname flags r) (s', handles) := by
    rintro rfl hsame
    have hopened : ∀ t d f, opened (t, d) = some f ↔ DescriptorAt K s' t d f := fun t d f => (hshows.opened t d f).trans (hsame t d f).symm
    rcases hopens.map with ⟨hmap, -⟩ | ⟨hcreat, hne, hparent, habsent, hmap⟩
    · exact .idle .openFails hrunning ⟨by rw [hM, ← hmap, hserved'.map_eq], hopened⟩
    · rw [← hM] at hparent habsent hmap
      refine .step (.creates hcreat) (.create ⟨hne, hparent, habsent⟩) hrunning ⟨?_, hopened⟩
      rw [← hserved'.map_eq, hmap]
  rcases sysOpen_opened hserved.refs hs with ⟨hr, -, hkept⟩ | ⟨k, p, ho⟩
  · refine hfails hr fun t d f => hserved.sameDescriptors hserved' hkept (fun q hq => ?_) (fun q hq => (hopens.slots q hq).1) (.inl hopens.names)
    exact Multiset.mem_cons_of_mem (Multiset.mem_add.mpr (.inr hq))
  have hothers := fun (t : ℕ) (d : ℤ) (hne : (t, d) ≠ (task, r)) (f : OpenFile Name) =>
    ho.others hserved hserved' hcalls hopens.names hopens.slots hne (f := f)
  rcases ho.fdTable with ⟨j, hfree, hr, hfd⟩ | ⟨hr, hfd⟩
  · have hrneg : r ≠ -1 := by omega
    obtain ⟨n, hn, hp, k', p', hk', hp', hno⟩ := hopens.descriptor.resolve_left hrneg
    have hlook : LooksUp s' task r k := by
      refine ⟨by omega, by have := hfree.2.1; omega, ho.free.2.1, ?_⟩
      rw [hfd, hr, Int.toNat_natCast]
      simp only [setFd, Function.update_self]
    obtain rfl := hk'.unique hlook
    have hown : DescriptorAt K s' task r ⟨normalize (components pathname), 0, oWrite flags⟩ := by
      refine ⟨k', p', hk', hp', ?_, by rw [ho.file.1], by rw [ho.file.1]⟩
      rw [hno]
      exact hserved'.volume.names.named_file.mpr ⟨hn, hp⟩
    have hfile : (normalize (components pathname), some ((s'.tree K dirs files').content n)) ∈ s'.map K dirs files' :=
      NamedTree.view_leaf.mpr ⟨n, hn, hp, rfl⟩
    have hvacant : opened (task, r) = none := by
      refine Option.eq_none_iff_forall_ne_some.mpr fun f hf => ?_
      obtain ⟨i, q, hi, -⟩ := (hshows.opened task r f).mp hf
      have hentry := hi.2.2.2
      have hneg := hfree.2.2
      rw [hr, Int.toNat_natCast] at hentry
      omega
    have hshows' : ∀ N, N = s'.map K dirs files' → Shows K s' ⟨N, Function.update opened (task, r)
        (some ⟨normalize (components pathname), 0, oWrite flags⟩)⟩ := by
      intro N hN
      refine hshows.update (hN.trans hserved'.map_eq) hothers fun f => ⟨fun hf => ?_, fun hf => ?_⟩
      · rw [hserved'.descriptor_unique hf hown]
      · obtain rfl := Option.some.inj hf
        exact hown
    rcases hopens.map with ⟨hmap, hcreat⟩ | ⟨hcreat, hne, hparent, habsent, hmap⟩
    · have hno : oCreat flags = false := by
        rw [Bool.eq_false_iff]
        exact fun hc => hrneg (hcreat hc)
      rw [← hM] at hmap
      rw [hmap] at hfile
      exact .step (.opens hno (by omega)) (.openFile hfile hvacant) hrunning (hshows' _ hmap.symm)
    · rw [← hM] at hparent habsent hmap
      rw [hmap] at hfile
      exact .steps (.createsOpen hcreat (by omega)) (.create ⟨hne, hparent, habsent⟩) (.openFile hfile hvacant) hrunning (hshows' _ hmap.symm)
  · refine hfails hr fun t d f => ?_
    by_cases hne : (t, d) = (task, r)
    · obtain ⟨rfl, rfl⟩ := Prod.mk.inj hne
      subst hr
      constructor
      · rintro ⟨i, q, hi, -⟩
        exact absurd hi.1 (by decide)
      · rintro ⟨i, q, hi, -⟩
        exact absurd hi.1 (by decide)
    · exact hothers t d hne f

theorem Served.freed_refs (h : Served K extra dirs files s) (hk : k < maxFileOpen) (hp : (s.fileTable k).fdInode = some p) :
    Refs (p ::ₘ s.rootDir ::ₘ (extra + slotRefs (Function.update s.fileTable k { s.fileTable k with fdInode := none }))) s := by
  have hr := h.refs
  rwa [slotRefs_freed s.fileTable hk hp, Multiset.add_cons, Multiset.cons_swap] at hr

theorem ShowsSpace.sysClose (h : ShowsSpace K (s, handles) A) (hs : sysClose task fd s = .ok (r, s')) :
    Answered K A (task, .sysClose fd r) (s', handles) := by
  obtain ⟨⟨hcalls, lost, dirs, files, hserved⟩, hshows, -⟩ := h
  obtain ⟨hserved', hheap⟩ := hserved.sysClose hs
  have hdisk := hheap.disk
  have hrunning : Running K s' handles := ⟨hcalls.sysClose hs, lost, dirs, files, hserved'⟩
  rcases sysClose_ok hs with ⟨-, rfl, rfl⟩ | ⟨j, k, s₁, h3, h8, rfl, hk, hentry, hclose, rfl⟩
  · exact .idle .closeFails hrunning hshows
  have hlook : LooksUp s task j k := ⟨by omega, by omega, hk, hentry⟩
  obtain ⟨p, hp⟩ := Option.ne_none_iff_exists'.mp (hcalls.fd.refers (d := (task, j)) ⟨h3, h8, hentry⟩).2.2
  obtain ⟨rfl, hfreed⟩ := fileClose_ok hp (hserved.freed_refs hk hp) hclose
  obtain ⟨path, hf, -⟩ := hserved.descriptor hlook hp
  obtain ⟨M, opened⟩ := A
  refine .step .closes (.closeFile ((hshows.opened _ _ _).mpr hf)) hrunning (hshows.update ?_ (fun t d hne f => ?_) fun f => ?_)
  · rw [hdisk]
    exact hshows.map
  · refine descriptorAt_congr ?_ (fun i hi => ?_) fun i q hi hq => ⟨?_, fun path => ?_⟩
    · rw [← hfreed.fdTable]
      by_cases ht : t = task
      · subst ht
        have hj : d.toNat ≠ j := by
          rintro rfl
          exact hne (by congr 1; omega)
        simp only [setFd, Function.update_self, Function.update_of_ne hj]
      · simp only [setFd, Function.update_of_ne ht]
    · have hik : i ≠ k := by
        rintro rfl
        obtain ⟨rfl, rfl⟩ := hcalls.lookUp_inj hlook hi hp
        exact hne rfl
      have := hfreed.fileTable i
      rwa [Function.update_of_ne hik] at this
    · have hik : i ≠ k := by
        rintro rfl
        obtain ⟨rfl, rfl⟩ := hcalls.lookUp_inj hlook hi hp
        exact hne rfl
      refine hfreed.iNo q (Multiset.mem_cons_of_mem (Multiset.mem_add.mpr (.inr ?_)))
      refine @mem_slotRefs_of { s with fileTable := Function.update s.fileTable k { s.fileTable k with fdInode := none } } i q hi.2.2.1 ?_
      dsimp only
      rw [Function.update_of_ne hik]
      exact hq
    · rw [hdisk]
  · constructor
    · rintro ⟨i, q, hi, -⟩
      have hneg := hi.2.2.2
      rw [Int.toNat_natCast] at hneg
      simp only [setFd, Function.update_self] at hneg
      omega
    · intro hf
      cases hf

theorem Served.content (h : Served K extra dirs files s) (hi : LooksUp s task fd i) (hp : (s.fileTable i).fdInode = some p) :
    ((s.tree K dirs files).content (s.inodes p).iNo).length = (s.inodes p).iSize := by
  obtain ⟨hopen, hmem⟩ := h.slot hi.2.2.1 hp
  unfold Fs.tree
  rw [volumeTree_file hmem, contentsOf, List.length_map, List.length_range, (h.stored p hopen).iSize]

theorem Served.sysWrite_tables {buf : Memory} {count : ℕ} (h : Served K extra dirs files s) (hpos : 0 < count) (hcount : count < 2 ^ 31)
    (hs : ElephantOS.sysWrite K task fd buf count s = .ok (r, s')) : s'.fdTable = s.fdTable ∧ (∀ q, (s'.inodes q).iNo = (s.inodes q).iNo) ∧
      ((r = -1 ∨ fd = 1) ∧ s'.fileTable = s.fileTable ∨ r = count ∧ fd ≠ 1 ∧ ∃ i p, LooksUp s task fd i ∧ (s.fileTable i).fdInode = some p ∧
        oWrite (s.fileTable i).fdFlag = true ∧
        s'.fileTable = Function.update s.fileTable i { s.fileTable i with fdPos := (s.inodes p).iSize + count - 1 }) := by
  have hrun : (FdCall.sysWrite fd buf count).run K task s = .ok (r, s') := hs
  rw [FdCall.run_eq, bind_ok] at hrun
  obtain ⟨route, s₁, hroute, hact⟩ := hrun
  obtain ⟨hsame, hcases⟩ := sysWrite_route.mp hroute
  obtain rfl := hsame.symm
  rcases hcases with ⟨-, rfl⟩ | ⟨hone, rfl⟩ | ⟨hne, i, hi, rfl⟩
  · obtain ⟨rfl, rfl⟩ := (pure_ok _ _ _ _).mp hact
    exact ⟨rfl, fun _ => rfl, .inl ⟨.inl rfl, rfl⟩⟩
  · simp only [FdCall.act, bind_ok, bound_ok, pure_ok] at hact
    obtain ⟨_, _, ⟨-, rfl⟩, -, rfl⟩ := hact
    exact ⟨rfl, fun _ => rfl, .inl ⟨.inr hone, rfl⟩⟩
  cases hflag : oWrite (s.fileTable i).fdFlag with
  | false =>
    rw [hflag, if_neg Bool.false_ne_true] at hact
    obtain ⟨rfl, rfl⟩ := (pure_ok _ _ _ _).mp hact
    exact ⟨rfl, fun _ => rfl, .inl ⟨.inl rfl, rfl⟩⟩
  | true =>
    rw [hflag, if_pos rfl] at hact
    simp only [FdCall.act] at hact
    obtain ⟨p, file, inode, kern, hp, hm, rfl⟩ := onFile_ok hact
    obtain ⟨hopen, hmem⟩ := h.slot hi.2.2.1 hp
    have hst := h.stored p hopen
    have hfile := h.volume.file _ hmem
    have hok : FileOk K.toPartition s.kern (s.inodes p) := (SameBlocks.of_stored hst).symm.fileOk hfile hfile.owns.used
    have hsmall := hok.small
    have hsteps := (fileWrite_gives K _ _ _ _ _ _ _ hm).2
    refine ⟨rfl, fun q => ?_, ?_⟩
    · by_cases hq : q = p
      · subst hq
        simp only [setInode, Function.update_self]
        exact hsteps.2.iNo
      · simp only [setInode, setFile, Function.update_of_ne hq]
    · rcases fileWrite_ok h.volume.layout hok (by omega) hm with ⟨rfl, rfl, -, -⟩ | ⟨rfl, hsame, hw⟩
      · refine .inl ⟨.inl rfl, ?_⟩
        simp only [setInode, setFile, Function.update_eq_self]
      · refine .inr ⟨if_pos hcount, hne.2, i, p, hi, hp, hflag, ?_⟩
        have hsize : inode.iSize = (s.inodes p).iSize + count := by rw [hw.fields]
        rcases fileWrite_pos hm with ⟨-, heq⟩ | ⟨-, -, -, hat⟩
        · omega
        · simp only [setInode, setFile]
          rw [hsame, hat]
          congr 2
          unfold u32
          omega

theorem ShowsSpace.sysWrite {buf : Memory} {count : ℕ} (h : ShowsSpace K (s, handles) A) (hpos : 0 < count) (hcount : count < 2 ^ 31)
    (hs : sysWrite K task fd buf count s = .ok (r, s')) : Answered K A (task, .sysWrite fd (bytesOf buf count) r) (s', handles) := by
  obtain ⟨⟨hcalls, lost, dirs, files, hserved⟩, hshows, -⟩ := h
  obtain ⟨hserved', happended, -⟩ := hserved.sysWrite hcount hs
  have hrunning : Running K s' handles := ⟨hcalls.fdCall (c := .sysWrite fd buf count) hs, lost, dirs, files, hserved'⟩
  have hlen : (bytesOf buf count).length = count := by simp [bytesOf]
  have hconsole : fd = 1 → ∀ m, ¬ LeadsTo s task fd m := by
    rintro rfl m ⟨k, p, hk, hp, -⟩
    rw [hk.unique (hcalls.standard_lookUp (by decide) (by decide)), hcalls.unopened _ (by decide)] at hp
    cases hp
  obtain ⟨hfd, hno, htables⟩ := hserved.sysWrite_tables hpos hcount hs
  rcases htables with ⟨hr, hfiles⟩ | ⟨rfl, hne, i, p, hi, hp, hwritable, hfiles⟩
  · have htree : s'.tree K dirs files = s.tree K dirs files := by
      rcases happended with ⟨-, htree⟩ | ⟨m, -, hleads, hcountr, -⟩
      · exact htree
      · rcases hr with hr | hr
        · rw [hlen] at hcountr
          omega
        · exact absurd hleads (hconsole hr m)
    have hshows' : Shows K s' A := by
      refine hshows.same ?_ fun t d f => descriptorAt_congr (by rw [hfd]) (fun i _ => .inl (by rw [hfiles])) fun i q hi hq => ⟨hno q, fun path => ?_⟩
      · rw [← hserved.map_eq, ← hserved'.map_eq, Fs.map_congr htree]
      · have hmem := hserved.slotFiles q (mem_slotRefs_of hi.2.2.1 hq)
        exact (KeepsNames.of_tree htree).named hserved.volume hserved'.volume hmem hmem
    rcases hr with rfl | rfl
    · exact .idle .writeFails hrunning hshows'
    · exact .idle .console hrunning hshows'
  · rcases happended with ⟨hr, -⟩ | ⟨m, hm, ⟨k, q, hk, hq, rfl⟩, -, htree⟩
    · omega
    obtain rfl := hk.unique hi
    obtain rfl := Option.some.inj (hq.symm.trans hp)
    obtain ⟨path, hf, hpath⟩ := hserved.descriptor hi hp
    have hold := hserved.opened_contents hi hp hpath
    rw [← hshows.map] at hold
    have hbytes : bytesOf buf count ≠ [] := List.ne_nil_of_length_pos (by omega)
    have hstep := @Step.append _ _ _ _ A (task, fd) _ _ (bytesOf buf count) ((hshows.opened _ _ _).mpr hf) hwritable hold hbytes
    rw [hserved.content hi hp, hlen] at hstep
    have hmeans := @Means.writes task fd path (bytesOf buf count)
    rw [hlen] at hmeans
    refine .step hmeans hstep hrunning (hserved.moved hserved' hcalls hshows ?_ hi hp hf hfd hfiles hno fun c => ?_)
    · rw [← hserved'.map_eq, Fs.map, htree, hserved.toMounted.tree.view_setContent hpath hm, hshows.map, ← hserved.map_eq]
      rfl
    · rw [htree]
      exact subset_rfl

theorem ShowsSpace.inside (h : ShowsSpace K (s, handles) A) (hi : LooksUp s task fd i) (hp : (s.fileTable i).fdInode = some p) :
    (s.fileTable i).fdPos ≤ (s.inodes p).iSize := by
  obtain ⟨⟨hcalls, lost, dirs, files, hserved⟩, hshows, hwell⟩ := h
  obtain ⟨path, hf, hpath⟩ := hserved.descriptor hi hp
  obtain ⟨bytes, hmem, hpos⟩ := hwell.opened _ _ ((hshows.opened _ _ _).mpr hf)
  have hat := hserved.opened_contents hi hp hpath
  rw [← hshows.map] at hat
  obtain rfl := Option.some.inj (hwell.unique _ _ _ hmem hat)
  rwa [hserved.content hi hp] at hpos

theorem ShowsSpace.sysRead {buf buf' : Memory} {count : ℕ} (h : ShowsSpace K (s, handles) A) (hcount : count < 2 ^ 31)
    (hs : sysReadInto task fd buf count s = .ok ((r, buf'), s')) :
    Answered K A (task, .sysRead fd count (bytesOf buf' r.toNat) r) (s', handles) := by
  have hinside : ∀ i p, LooksUp s task fd i → (s.fileTable i).fdInode = some p → (s.fileTable i).fdPos ≤ (s.inodes p).iSize :=
    fun _ _ hi hp => h.inside hi hp
  obtain ⟨⟨hcalls, lost, dirs, files, hserved⟩, hshows, -⟩ := h
  obtain ⟨hserved', hheap, hread⟩ := hserved.sysReadInto hcount hinside hs
  have hrunning : Running K s' handles :=
    ⟨hcalls.fdCall (K := K) (c := .sysRead fd (some buf) count) (sysRead_into hs), lost, dirs, files, hserved'⟩
  have hmap : A.map = pathMap K.toPartition s'.kern.disk := by
    rw [hheap.disk]
    exact hshows.map
  rcases hread with ⟨rfl, kern, rfl⟩ | ⟨⟨i, p, kern, hi, hp, -, hbytes, heq⟩, hr⟩
  · refine .idle .readFails hrunning ⟨hmap, fun t d f => (hshows.opened t d f).trans ?_⟩
    refine Iff.symm (@descriptorAt_congr K s { s with kern := kern } t d f rfl (fun _ _ => .inl rfl) fun i q _ _ => ⟨rfl, fun path => ?_⟩)
    rw [hheap.disk]
  · obtain ⟨path, hf, hpath⟩ := hserved.descriptor hi hp
    have hold := hserved.opened_contents hi hp hpath
    rw [← hshows.map] at hold
    have hlen : ((bytesOf buf' r.toNat).length : ℤ) = r := by
      simp only [bytesOf, List.length_map, List.length_range]
      omega
    have hmeans := @Means.reads task count fd path (bytesOf buf' r.toNat)
    rw [hlen] at hmeans
    refine .step hmeans (.read ((hshows.opened _ _ _).mpr hf) hold hbytes) hrunning ?_
    refine hserved.moved hserved' hcalls hshows hmap hi hp hf ?_ ?_ ?_ (.of_tree (Fs.tree_congr hheap.disk))
    · rw [heq]
      rfl
    · rw [heq]
      rfl
    · intro q
      rw [heq]
      rfl

theorem seekOrigin_target {file : File} {inode : Inode} {offset : ℤ} {whence : ℕ} :
    seekTarget file inode offset whence = (seekOrigin whence).base file.fdPos inode.iSize + offset := by
  unfold seekTarget seekOrigin
  split_ifs
  · exact (zero_add offset).symm
  · rfl
  · rfl

theorem ShowsSpace.sysLseek {offset : ℤ} {whence : ℕ} (h : ShowsSpace K (s, handles) A) (hoffset : -2 ^ 31 ≤ offset ∧ offset < 2 ^ 31)
    (hs : sysLseek task fd offset whence s = .ok (r, s')) : Answered K A (task, .sysLseek fd offset whence r) (s', handles) := by
  have hinside : ∀ i p, LooksUp s task fd i → (s.fileTable i).fdInode = some p → (s.fileTable i).fdPos ≤ (s.inodes p).iSize :=
    fun _ _ hi hp => h.inside hi hp
  obtain ⟨⟨hcalls, lost, dirs, files, hserved⟩, hshows, -⟩ := h
  obtain ⟨hserved', hseek⟩ := hserved.sysLseek hoffset hinside hs
  have hrunning : Running K s' handles := ⟨hcalls.fdCall (K := K) (c := .sysLseek fd offset whence) hs, lost, dirs, files, hserved'⟩
  rcases hseek with ⟨rfl, rfl⟩ | ⟨i, p, hi, hp, -, hr, hlo, hhi, rfl⟩
  · exact .idle .seekFails hrunning hshows
  · obtain ⟨path, hf, hpath⟩ := hserved.descriptor hi hp
    have hold := hserved.opened_contents hi hp hpath
    rw [← hshows.map] at hold
    have hat : (r.toNat : ℤ) = r := Int.toNat_of_nonneg hlo
    have hmeans := @Means.seeks task whence r.toNat fd offset
    rw [hat] at hmeans
    refine .step hmeans (.seek ((hshows.opened _ _ _).mpr hf) hold ?_ ?_) hrunning
      (hserved.moved hserved' hcalls hshows hshows.map hi hp hf rfl rfl (fun _ => rfl) (.of_tree rfl))
    · rw [hat, hserved.content hi hp, ← seekOrigin_target]
      exact hr
    · rw [hserved.content hi hp]
      omega

theorem Served.keptDescriptors {m : FsM ℤ} (h : Served K extra dirs files s) (h' : Served K extra' dirs' files' s')
    (hm : Moves (s.rootDir ::ₘ (extra + slotRefs s.fileTable)) 0 m fun _ => 0) (hs : m s = .ok (r, s'))
    (hopen : ∀ p ∈ slotRefs s.fileTable, (s.inodes p).iNo ∈ files')
    (hnames : KeepsNames K dirs dirs' files files' s s' ∨ KeepsNames K dirs' dirs files' files s' s) (t : ℕ) (d : ℤ) (f : OpenFile Name) :
    DescriptorAt K s' t d f ↔ DescriptorAt K s t d f := by
  obtain ⟨-, hkept⟩ := hm s r s' (by rw [zero_add]; exact h.refs) hs
  exact h.sameDescriptors h' hkept (fun q hq => Multiset.mem_cons_of_mem (Multiset.mem_add.mpr (.inr hq))) hopen hnames

theorem Served.shows_calm {held : Multiset Ptr} (h : Served K extra dirs files s) (h' : Served K extra' dirs files s')
    (hc : Calm (s.rootDir ::ₘ (held + slotRefs s.fileTable)) s s') (hshows : Shows K s A) : Shows K s' A := by
  refine hshows.same (by rw [hc.kern.disk]) fun t d f => h.sameDescriptors h' hc.kept (fun q hq => ?_) h.slotFiles (.inl (.of_tree hc.tree))
  exact Multiset.mem_cons_of_mem (Multiset.mem_add.mpr (.inr hq))

theorem Served.descriptor_map {f : OpenFile Name} (h : Served K extra dirs files s) (hf : DescriptorAt K s task fd f) :
    ∃ bytes, (f.path, some bytes) ∈ s.map K dirs files := by
  obtain ⟨i, q, -, -, hn, -⟩ := hf
  obtain ⟨hmem, hp⟩ := h.volume.names.named_file.mp hn
  exact ⟨_, NamedTree.view_leaf.mpr ⟨_, hmem, hp, rfl⟩⟩

theorem ShowsSpace.sysMkdir (h : ShowsSpace K (s, handles) A) (hpath : PathOk pathname)
    (hroom : RoomFor K pathname s) (hs : sysMkdir K junk pathname s = .ok (r, s')) : Answered K A (task, .sysMkdir pathname r) (s', handles) := by
  obtain ⟨⟨hcalls, lost, dirs, files, hserved⟩, hshows, -⟩ := h
  obtain ⟨dirs', hserved', hmakes⟩ := hserved.sysMkdir hpath hroom hs
  have hrunning : Running K s' handles := ⟨hcalls.moves (fun _ => sysMkdir_moves K _ _) hs, lost, dirs', files, hserved'⟩
  have hsame := hserved.keptDescriptors hserved' (sysMkdir_moves K junk pathname) hs hserved.slotFiles (.inl hmakes.names)
  have hopened := fun t d f => (hshows.opened t d f).trans (hsame t d f).symm
  have hM : A.map = s.map K dirs files := hshows.map.trans hserved.map_eq.symm
  rcases hmakes.map with ⟨rfl, hmap⟩ | ⟨rfl, hne, hparent, habsent, hmap⟩
  · exact .idle .mkdirFails hrunning ⟨by rw [hM, ← hmap, hserved'.map_eq], hopened⟩
  · rw [← hM] at hparent habsent hmap
    exact .step .makesDirectory (.makeDirectory ⟨hne, hparent, habsent⟩) hrunning ⟨hmap.symm.trans hserved'.map_eq, hopened⟩

theorem ShowsSpace.sysUnlink (h : ShowsSpace K (s, handles) A) (hpath : PathOk pathname)
    (hs : sysUnlink K junk pathname s = .ok (r, s')) : Answered K A (task, .sysUnlink pathname r) (s', handles) := by
  obtain ⟨⟨hcalls, lost, dirs, files, hserved⟩, hshows, -⟩ := h
  obtain ⟨files', hserved', hunlinks⟩ := hserved.sysUnlink hpath hs
  have hrunning : Running K s' handles := ⟨hcalls.moves (fun _ => sysUnlink_moves K _ _) hs, lost, dirs, files', hserved'⟩
  have hsame := hserved.keptDescriptors hserved' (sysUnlink_moves K junk pathname) hs hunlinks.opened (.inr hunlinks.names)
  have hopened := fun t d f => (hshows.opened t d f).trans (hsame t d f).symm
  have hM : A.map = s.map K dirs files := hshows.map.trans hserved.map_eq.symm
  rcases hunlinks.map with ⟨rfl, hmap⟩ | ⟨rfl, pre, name, after, bytes, hnames, hfile, hmap⟩
  · exact .idle .unlinkFails hrunning ⟨by rw [hM, ← hmap, hserved'.map_eq], hopened⟩
  · rw [← hM] at hfile
    refine .step (.unlinks hnames) (.removeFile hfile fun o f hf => ?_) hrunning ⟨?_, hopened⟩
    · obtain ⟨bytes', hmem⟩ := hserved'.descriptor_map ((hopened o.1 o.2 f).mp hf)
      rw [hmap] at hmem
      exact hmem.2
    · rw [← hserved'.map_eq, hmap, hM]

theorem ShowsSpace.sysRmdir (h : ShowsSpace K (s, handles) A) (hpath : PathOk pathname)
    (hlast : ∀ name, (components pathname).getLast? = some name → name ≠ dot ∧ name ≠ dotDot) (hfree : NotCached K pathname s)
    (hs : sysRmdir K junk pathname s = .ok (r, s')) : Answered K A (task, .sysRmdir pathname r) (s', handles) := by
  obtain ⟨⟨hcalls, lost, dirs, files, hserved⟩, hshows, -⟩ := h
  obtain ⟨dirs', hserved', hremoves⟩ := hserved.sysRmdir hpath hlast hfree hs
  have hrunning : Running K s' handles := ⟨hcalls.moves (fun _ => sysRmdir_moves K _ _) hs, lost, dirs', files, hserved'⟩
  have hsame := hserved.keptDescriptors hserved' (sysRmdir_moves K junk pathname) hs hserved.slotFiles (.inr hremoves.names)
  have hopened := fun t d f => (hshows.opened t d f).trans (hsame t d f).symm
  have hM : A.map = s.map K dirs files := hshows.map.trans hserved.map_eq.symm
  rcases hremoves.map with ⟨rfl, hmap⟩ | ⟨rfl, hne, hdir, hempty, hmap⟩
  · exact .idle .rmdirFails hrunning ⟨by rw [hM, ← hmap, hserved'.map_eq], hopened⟩
  · rw [← hM] at hdir hempty hmap
    exact .step .removesDirectory (.removeDirectory hne hdir hempty) hrunning ⟨hmap.symm.trans hserved'.map_eq, hopened⟩

theorem ShowsSpace.sysOpendir {dir : Option Dir} (h : ShowsSpace K (s, handles) A) (hpath : PathOk pathname)
    (hs : sysOpendir K junk pathname s = .ok (dir, s')) : Answered K A (task, .sysOpendir pathname dir) (s', dir.toList ++ handles) := by
  obtain ⟨⟨hcalls, lost, dirs, files, hserved⟩, hshows, -⟩ := h
  obtain ⟨hserved', hcalm, hmap⟩ := hserved.sysOpendir hpath hs
  have hrunning : Running K s' (dir.toList ++ handles) := by
    refine ⟨hcalls.sysOpendir hs, lost, dirs, files, ?_⟩
    rwa [List.map_append, List.sum_append, add_left_comm]
  have hshows' := hserved.shows_calm hserved' hcalm hshows
  cases dir with
  | none => exact .idle .opendirFails hrunning hshows'
  | some dir =>
    have hdir := hmap (Option.some_ne_none dir)
    rw [hserved.map_eq, ← hshows.map] at hdir
    exact .step .opensDirectory (.look hdir) hrunning hshows'

theorem ShowsSpace.sysClosedir {dir : Dir} (h : ShowsSpace K (s, handles) A) (hmem : dir ∈ handles)
    (hs : sysClosedir (some dir) s = .ok (r, s')) : Answered K A (task, .sysClosedir dir r) (s', handles.erase dir) := by
  obtain ⟨⟨hcalls, lost, dirs, files, hserved⟩, hshows, -⟩ := h
  dsimp only at hserved
  rw [dirRefs_erase hmem, add_left_comm] at hserved
  obtain ⟨hserved', hcalm⟩ := hserved.sysClosedir hs
  have hrunning : Running K s' (handles.erase dir) := ⟨hcalls.sysClosedir hmem hs, lost, dirs, files, hserved'⟩
  exact .idle .closesDirectory hrunning (hserved.shows_calm hserved' hcalm hshows)

theorem ShowsSpace.sysChdir (h : ShowsSpace K (s, handles) A) (hpath : PathOk pathname)
    (hs : sysChdir K task junk pathname s = .ok (r, s')) : Answered K A (task, .sysChdir pathname r) (s', handles) := by
  obtain ⟨⟨hcalls, lost, dirs, files, hserved⟩, hshows, -⟩ := h
  obtain ⟨hserved', hcalm, hr⟩ := hserved.sysChdir hpath hs
  have hrunning : Running K s' handles := ⟨hcalls.moves (fun _ => sysChdir_moves K _ _ _) hs, lost, dirs, files, hserved'⟩
  have hshows' := hserved.shows_calm hserved' hcalm hshows
  rcases hr with rfl | ⟨rfl, hdir⟩
  · exact .idle .chdirFails hrunning hshows'
  · rw [hserved.map_eq, ← hshows.map] at hdir
    exact .step .changesDirectory (.look hdir) hrunning hshows'

theorem ShowsSpace.sysStat {stat : Option Stat} (h : ShowsSpace K (s, handles) A) (hpath : PathOk pathname)
    (hs : sysStat K junk pathname s = .ok (stat, s')) : Answered K A (task, .sysStat pathname stat) (s', handles) := by
  obtain ⟨⟨hcalls, lost, dirs, files, hserved⟩, hshows, -⟩ := h
  obtain ⟨hserved', hcalm, hdescribes⟩ := hserved.sysStat hpath hs
  have hrunning : Running K s' handles := ⟨hcalls.moves (fun _ => sysStat_moves K _ _) hs, lost, dirs, files, hserved'⟩
  have hshows' := hserved.shows_calm hserved' hcalm hshows
  cases stat with
  | none => exact .idle .statFails hrunning hshows'
  | some stat =>
    obtain ⟨path, x, hreaches, hat, hdescribes⟩ := hdescribes stat rfl
    rw [hserved.map_eq, ← hshows.map] at hat
    exact .step (.describes hreaches hdescribes) (.look hat) hrunning hshows'

end

end ElephantOS
