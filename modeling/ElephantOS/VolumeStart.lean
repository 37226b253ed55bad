import ElephantOS.CallMeanings
import ElephantOS.FormatBounds
import ElephantOS.KernelInodes

namespace ElephantOS

open ByteMemory HaltingState

/-- `filesys_init` after the search, for the default partition. -/
def mountDefault (startLba secCnt : ℕ) : FsM Partition := do
  let part ← liftKern (mountPartition startLba secCnt)
  -- `list_init(&cur_part->open_inodes)`
  modify fun s => { s with openInodes := [] }
  openRootDir part.kernel
  modify fun s => { s with
    fileTable := fun fdIdx => if fdIdx < maxFileOpen then { s.fileTable fdIdx with fdInode := none } else s.fileTable fdIdx }
  return part

structure Fs.Idle (s : Fs) : Prop where
  standard : ∀ task j, j < 3 → s.fdTable task j = (j : ℕ)
  free : ∀ task j, 3 ≤ j → j < maxFilesOpenPerProc → s.fdTable task j = -1

def idleFs : Fs := { Fs.blank with fdTable := fun _ j => if j < 3 then (j : ℕ) else -1 }

theorem idleFs_idle : idleFs.Idle := by
  constructor
  · intro task j hj
    simp [idleFs, hj]
  · intro task j hj _
    simp only [idleFs]
    rw [if_neg (by omega)]

section

variable {startLba secCnt : ℕ} {pad : Memory} {k k₁ k₂ : Kern} {part : Partition}

theorem formattedPartition_layout (hf : Formattable startLba secCnt) (hend : startLba + secCnt + 4096 ≤ 2 ^ 32) :
    Layout (formattedPartition startLba secCnt) (blockBitmapSects secCnt * 512) := by
  obtain ⟨l1, l2, l3, l4, -⟩ := format_layout hf
  obtain ⟨-, hcount, hc⟩ := format_counts hf
  have e1 : (formattedPartition startLba secCnt).sb.blockBitmapLba = startLba + 2 := l1
  have e2 : (formattedPartition startLba secCnt).sb.inodeBitmapLba = startLba + 2 + blockBitmapSects secCnt := l2
  have e3 : (formattedPartition startLba secCnt).sb.inodeTableLba = startLba + 3 + blockBitmapSects secCnt := l3
  have e4 : (formattedPartition startLba secCnt).sb.dataStartLba = startLba + 611 + blockBitmapSects secCnt := l4
  constructor
  · omega
  · rw [e1, e2]
    omega
  · rw [e2, e3]
    omega
  · rw [e3, e4]
    omega
  · rw [e4]
    omega

theorem formattedPartition_table (hf : Formattable startLba secCnt) (hd : (formatSuperBlock startLba secCnt).dataStartLba ≤ maxLba) :
    TableOnDisk (formattedPartition startLba secCnt) := by
  obtain ⟨-, -, l3, l4, -⟩ := format_layout hf
  obtain ⟨-, hcount, -⟩ := format_counts hf
  have e3 : (formattedPartition startLba secCnt).sb.inodeTableLba = startLba + 3 + blockBitmapSects secCnt := l3
  constructor
  · rw [e3]
    change _ ≤ startLba + secCnt
    omega
  · rw [e3]
    omega

theorem newDirInode_root (lba : ℕ) : (newDirInode (formattedPartition startLba secCnt).kernel 0 lba).pureWords =
    fun i => if i = 1 then 24 * 2 else if i = 4 then lba else 0 := by
  funext i
  unfold Inode.pureWords
  split_ifs with h0 h1 h2 h3 h4 h5 h6 <;> try omega
  · rfl
  · rfl
  · rw [newDirInode_sectors, if_pos (by omega)]
  · rw [newDirInode_sectors, if_neg (by omega)]

theorem formatted_root (hd : FormattedDisk startLba secCnt pad k.disk) :
    (storedInode (formattedPartition startLba secCnt) k.disk 0).SameStored
      (newDirInode (formattedPartition startLba secCnt).kernel 0 (formatSuperBlock startLba secCnt).dataStartLba) := by
  have hlba : (formatSuperBlock startLba secCnt).dataStartLba < 2 ^ 32 := by
    unfold formatSuperBlock u32
    dsimp only
    omega
  refine (Inode.load_pureWords (newDirInode_fits rfl (by omega) hlba) fun i hi => ?_).1
  rw [newDirInode_root]
  have hat : inodeAddr (formattedPartition startLba secCnt) 0 = (formatSuperBlock startLba secCnt).inodeTableLba * 512 := by
    simp [inodeAddr, formattedPartition]
  rw [hat, hd.inodeTable i (by omega)]
  rfl

theorem Names.single {M : ℕ → ℕ × ℕ → Option Entry} (here : M 0 (0, 0) = some ⟨dot, 0, .directory⟩) (up : M 0 (0, 1) = some ⟨dotDot, 0, .directory⟩)
    (only : ∀ pos e, M 0 pos = some e → (pos = (0, 0) ∧ e = ⟨dot, 0, .directory⟩) ∨ (pos = (0, 1) ∧ e = ⟨dotDot, 0, .directory⟩)) :
    Names M {0} ∅ := by
  have hspecial : ∀ d ∈ ({0} : Set ℕ), ∀ pos e, M d pos = some e → ¬ e.Ordinary := by
    rintro _ rfl pos e he hord
    rcases only pos e he with ⟨-, rfl⟩ | ⟨-, rfl⟩
    · exact hord.1 rfl
    · exact hord.2 rfl
  refine ⟨fun _ _ => Set.notMem_empty _, rfl, ?_, ?_, ?_, ?_, fun d hd pos e he hord => absurd hord (hspecial d hd pos e he),
    fun c hc _ _ pos _ e _ he _ hord _ _ => absurd hord (hspecial c hc pos e he), ?_, ⟨fun _ => 0, fun d hd pos e he hord => absurd hord (hspecial d hd pos e he)⟩⟩
  · rintro _ rfl pos e he
    rcases only pos e he with ⟨-, rfl⟩ | ⟨-, rfl⟩ <;> exact .inl ⟨rfl, rfl⟩
  · rintro _ rfl pos pos' e e' he he' hname
    rcases only pos e he with ⟨rfl, rfl⟩ | ⟨rfl, rfl⟩ <;> rcases only pos' e' he' with ⟨rfl, rfl⟩ | ⟨rfl, rfl⟩
    · rfl
    · exact absurd hname dot_ne_dotDot
    · exact absurd hname.symm dot_ne_dotDot
    · rfl
  · rintro _ rfl
    exact ⟨_, _, here, rfl, rfl, rfl⟩
  · rintro _ rfl
    exact ⟨_, _, up, rfl, rfl, .inl ⟨rfl, rfl⟩⟩
  · rintro n (rfl | hn) hne
    · exact absurd rfl hne
    · exact hn.elim

theorem formatted_inodeBits {bits : Memory} (hbits : ∀ i < 512, bits i = Function.update zeros 0 1 i) {n : ℕ} (hn : n < 4096) :
    (Bitmap.mk 512 bits).scanTest n = true ↔ n = 0 := by
  rw [Bitmap.scanTest_eq]
  dsimp only
  rw [hbits (n / 8) (by omega)]
  have hm : n % 8 < 8 := Nat.mod_lt _ (by omega)
  have h1 : ∀ k < 8, (1 : UInt8).toBitVec.getLsbD k = decide (k = 0) := by decide
  have h0 : ∀ k < 8, (0 : UInt8).toBitVec.getLsbD k = false := by decide
  by_cases hz : n / 8 = 0
  · rw [hz, Function.update_self, h1 _ hm, decide_eq_true_eq]
    omega
  · rw [Function.update_of_ne hz]
    change (0 : UInt8).toBitVec.getLsbD (n % 8) = true ↔ _
    rw [h0 _ hm]
    simp only [Bool.false_eq_true, false_iff]
    omega

theorem formatted_volume (hf : Formattable startLba secCnt) (hend : startLba + secCnt + 4096 ≤ 2 ^ 32)
    (h1 : partitionFormat startLba secCnt pad k = .ok ((), k₁)) (h2 : mountPartition startLba secCnt k₁ = .ok (part, k₂)) :
    part = formattedPartition startLba secCnt ∧ k₂.disk = k₁.disk ∧ Volume part.kernel {0} ∅ k₂ := by
  obtain ⟨rfl, hsects, hlen, htest⟩ := mounted_test hf h1 h2
  have hformat := partitionFormat_disk hf h1
  obtain ⟨-, hdisk, -, -, -, -, hinodes⟩ := mountPartition_ok hf hformat h2
  have hlow := (partitionFormat_ok h1).2.2
  have hformat₂ : FormattedDisk startLba secCnt pad k₂.disk := by
    rw [hdisk]
    exact hformat
  have hlayout := formattedPartition_layout hf hend
  rw [← hlen] at hlayout
  have hroot := formatted_root hformat₂
  have hused : UsedBlock (formattedPartition startLba secCnt) k₂ (formatSuperBlock startLba secCnt).dataStartLba := by
    refine ⟨le_rfl, ?_, ?_⟩
    · rw [hlen]
      change _ - (formatSuperBlock startLba secCnt).dataStartLba < _
      omega
    · change k₂.blockBitmap.scanTest ((formatSuperBlock startLba secCnt).dataStartLba - (formatSuperBlock startLba secCnt).dataStartLba) = true
      rw [Nat.sub_self, htest 0 (by omega)]
      simp
  have hnew := @newDirInode_new (formattedPartition startLba secCnt).kernel k₂ 0 0 _ rfl hlayout (formattedPartition_table hf hlow) hused hlow
    ⟨by omega, rfl⟩ (by omega) hformat₂.rootDir
  have hsame := SameBlocks.of_stored (d := k₂.disk) hroot
  have hentries : entriesOn (formattedPartition startLba secCnt).kernel.toPartition k₂.disk 0 = slotMap k₂.disk
      (newDirInode (formattedPartition startLba secCnt).kernel 0 (formatSuperBlock startLba secCnt).dataStartLba) := hsame.map
  have hdir := hsame.dirOk hnew.dirOk rfl hnew.dirOk.owns.used
  refine ⟨rfl, hdisk, ⟨⟨hlayout, ?_, ?_, ?_, fun n hn => hn.elim, ?_⟩, ?_, ?_, fun n hn => ?_⟩⟩
  · rintro n (rfl | hn)
    · exact ⟨by omega, rfl⟩
    · exact hn.elim
  · rintro n (rfl | hn)
    · exact hroot.iNo
    · exact hn.elim
  · rintro n rfl
    exact hdir
  · rintro n (rfl | hn) m (rfl | hm) hne
    · exact absurd rfl hne
    · exact hm.elim
    · exact hn.elim
    · exact hn.elim
  · refine Names.single ?_ ?_ fun pos e he => ?_
    · rw [hentries]
      exact hnew.first.1
    · rw [hentries]
      exact hnew.first.2
    · rw [hentries] at he
      exact hnew.entries he
  · rw [hinodes]
  · rw [hinodes, formatted_inodeBits (fun i hi => ?_) hn]
    · simp
    · have := @blit_inside zeros (slice k₁.disk ((formatSuperBlock startLba secCnt).inodeBitmapLba * 512)) 0 512 i hi
      rw [Nat.zero_add] at this
      rw [this, slice]
      exact hformat.inodeBitmap i hi

/-- The map that is there after formatting: the root directory and nothing else. -/
def rootOnly : FileSpace (ℕ × ℤ) Name UInt8 := ⟨{([], none)}, fun _ => none⟩

theorem rootOnly_wellFormed : rootOnly.WellFormed where
  root := rfl
  parent path name x h := by simp [rootOnly] at h
  unique path x y hx hy := by
    obtain ⟨-, rfl⟩ := Prod.mk.inj hx
    obtain ⟨-, rfl⟩ := Prod.mk.inj hy
    rfl
  opened o f hf := by cases hf

theorem Volume.root_map {K : Kernel} (h : Volume K {0} ∅ k) : pathMap K.toPartition k.disk = rootOnly.map := by
  have hwell := h.names.wellFormed
  rw [h.names.pathMap]
  ext ⟨path, x⟩
  constructor
  · rintro ⟨n, hp, ⟨rfl, hx⟩ | ⟨hn, -⟩⟩
    · obtain rfl : path = [] := hwell.path_unique hp (.nil 0)
      obtain rfl : x = none := hx
      rfl
    · exact hn.elim
  · rintro h
    obtain ⟨rfl, rfl⟩ := Prod.mk.inj h
    exact NamedTree.view_inner.mpr ⟨0, rfl, .nil 0⟩

structure RootOpen (K : Kernel) (s : Fs) : Prop where
  openInodes : s.openInodes = [s.rootDir]
  count : (s.inodes s.rootDir).iOpenCnts = 1
  fresh : s.rootDir.id < s.kern.heap.next
  number : (s.inodes s.rootDir).iNo = 0
  stored : (storedInode K.toPartition s.kern.disk 0).SameStored (s.inodes s.rootDir)
  fileTable : ∀ i < maxFileOpen, (s.fileTable i).fdInode = none

theorem RootOpen.refs {K : Kernel} {s : Fs} (h : RootOpen K s) : Refs {s.rootDir} s := by
  refine ⟨?_, ?_, ?_, ?_⟩ <;> rw [h.openInodes]
  · exact List.nodup_singleton _
  · intro p hp
    rw [List.mem_singleton.mp hp]
    exact h.fresh
  · intro p hp
    rw [List.mem_singleton.mp hp, Multiset.count_singleton_self]
    exact h.count
  · intro p
    rw [Multiset.mem_singleton, List.mem_singleton]

theorem RootOpen.shows {K : Kernel} {s : Fs} {dirs files : Set ℕ} {M : Set (List Name × Option (List UInt8))} (h : RootOpen K s)
    (hplenty : s.kern.Plenty) (hvolume : Volume K dirs files s.kern) (hidle : s.Idle) (hmap : M = pathMap K.toPartition s.kern.disk)
    (hwell : FileSpace.WellFormed (⟨M, fun _ => none⟩ : FileSpace (ℕ × ℤ) Name UInt8)) : ShowsSpace K (s, []) ⟨M, fun _ => none⟩ := by
  have hroot := hvolume.names.root
  have hslots : slotRefs s.fileTable = 0 := Finset.sum_eq_zero fun i hi => by rw [h.fileTable i (Finset.mem_range.mp hi)]; rfl
  have hno : ∀ p ∈ s.openInodes, p = s.rootDir := by
    intro p hp
    rw [h.openInodes] at hp
    exact List.mem_singleton.mp hp
  refine ⟨⟨⟨⟨?_, ?_⟩, hidle.standard, ?_, 0, ?_⟩, 0, dirs, files, ⟨⟨?_, hplenty, hvolume, ?_, ?_, ?_, h.number⟩, ?_, ?_⟩⟩, ⟨hmap, ?_⟩, hwell⟩
  · exact fun task j h3 h8 => .inl (hidle.free task j h3 h8)
  · rintro ⟨task, j⟩ d' k ⟨h3, h8, hk⟩
    rw [hidle.free task j h3 h8] at hk
    omega
  · intro k hk
    exact h.fileTable k (by unfold maxFileOpen; omega)
  · rw [zero_add, allRefs, hslots]
    exact h.refs
  · rw [hslots]
    exact h.refs
  · intro p hp
    rw [hno p hp, h.number]
    exact .inl hroot
  · intro p hp
    rw [hno p hp, h.number]
    exact h.stored
  · intro p hp q hq _
    rw [hno p hp, hno q hq]
  · intro p hp
    simp at hp
  · intro p hp
    rw [hslots] at hp
    simp at hp
  · intro task fd f
    refine iff_of_false (fun hf => by cases hf) ?_
    rintro ⟨i, p, hi, hp, -⟩
    rw [h.fileTable i hi.2.2.1] at hp
    cases hp

theorem mountDefault_mounted {s s' : Fs} (h : mountDefault startLba secCnt s = .ok (part, s')) :
    ∃ k₂, mountPartition startLba secCnt s.kern = .ok (part, k₂) ∧ HeapOnly k₂ s'.kern ∧ s'.fdTable = s.fdTable ∧
      (part.sb.rootInodeNo = 0 → ∀ dirs files, Volume part.kernel dirs files k₂ → RootOpen part.kernel s') := by
  unfold mountDefault ElephantOS.openRootDir at h
  simp only [bind_ok, modify_ok, liftKern_ok, pure_ok] at h
  obtain ⟨part, _, ⟨k₂, hmount, rfl⟩, _, _, rfl, _, _, ⟨p, s₁, hopen, rfl⟩, _, _, rfl, rfl, rfl⟩ := h
  obtain ⟨-, rfl, hheap, hlt, heq⟩ := inodeOpen_miss rfl hopen
  dsimp only at heq hheap hlt
  have hfd : s₁.fdTable = s.fdTable := (congrArg Fs.fdTable heq).trans rfl
  refine ⟨k₂, hmount, hheap, hfd, fun hzero dirs files hvolume => ?_⟩
  have hno : (openedInode part k₂.disk 0).iNo = 0 := hvolume.number 0 (.inl hvolume.names.root)
  clear hfd
  have hroot : part.kernel.sb.rootInodeNo = 0 := hzero
  rw [hroot] at heq
  generalize s₁.kern = k₃ at heq hheap hlt
  subst heq
  refine ⟨rfl, ?_, hlt, ?_, ?_, fun i hi => ?_⟩
  · simp only [Function.update_self]
    rfl
  · simp only [Function.update_self]
    exact hno
  · simp only [Function.update_self]
    rw [hheap.disk]
    exact ⟨rfl, rfl, fun _ _ => rfl⟩
  · simp only [hi, if_true]

theorem Fs.Idle.congr {s s' : Fs} (h : s.Idle) (hfd : s'.fdTable = s.fdTable) : s'.Idle := by
  constructor
  · rw [hfd]
    exact h.standard
  · rw [hfd]
    exact h.free

theorem mountDefault_partition {s s' : Fs} (hf : Formattable startLba secCnt) (h1 : partitionFormat startLba secCnt pad k = .ok ((), s.kern))
    (h2 : mountDefault startLba secCnt s = .ok (part, s')) : part = formattedPartition startLba secCnt := by
  obtain ⟨k₂, hmount, -⟩ := mountDefault_mounted h2
  exact (mounted_test hf h1 hmount).1

theorem mountDefault_shows {s s' : Fs} (hf : Formattable startLba secCnt) (hend : startLba + secCnt + 4096 ≤ 2 ^ 32) (hplenty : k.Plenty)
    (hidle : s.Idle) (h1 : partitionFormat startLba secCnt pad k = .ok ((), s.kern)) (h2 : mountDefault startLba secCnt s = .ok (part, s')) :
    ShowsSpace part.kernel (s', []) rootOnly := by
  obtain ⟨k₂, hmount, hheap, hfd, hroot⟩ := mountDefault_mounted h2
  obtain ⟨rfl, -, hvolume⟩ := formatted_volume hf hend h1 hmount
  have hplenty₂ : k₂.Plenty := by
    obtain ⟨-, -, -, hgrant, -⟩ := mountPartition_ok hf (partitionFormat_disk hf h1) hmount
    intro i
    rw [hgrant, (partitionFormat_ok h1).1.grant]
    exact hplenty i
  have hvolume' := (hvolume.heap hheap).1
  exact (hroot rfl _ _ hvolume).shows (hheap.plenty hplenty₂) hvolume' (hidle.congr hfd) hvolume'.root_map.symm rootOnly_wellFormed

end

end ElephantOS
