import ElephantOS.DiskStartup
import ElephantOS.VolumeMounts
import ElephantOS.VolumeRuns

namespace ElephantOS

open ByteMemory HaltingState FileSpace

def WrittenBack (s : Fs) : ℕ × VolumeCall → Prop
  | (task, .sysWrite fd bytes _) => TableWrittenBack s task fd bytes.length
  | _ => True

inductive LifeStep (part : Partition) (pool : ℕ → Pool) : Fs × List Dir → Option (ℕ × VolumeCall) → Fs × List Dir → Prop
  | call {c c' : Fs × List Dir} {l : ℕ × VolumeCall} : VolumeStep part.kernel pool c l c' → WrittenBack c.1 l →
      LifeStep part pool c (some l) c'
  | mount {c : Fs × List Dir} {s s' : Fs} {part' : Partition} : s.Idle → s.kern.Plenty → s.kern.disk = c.1.kern.disk →
      mountDefault part.startLba part.secCnt s = .ok (part', s') → LifeStep part pool c none (s', [])

def lifeMachine (part : Partition) (pool : ℕ → Pool) : Machine (Fs × List Dir) (Option (ℕ × VolumeCall)) := ⟨LifeStep part pool⟩

/-- Calls and mounts from a fresh volume on. -/
def VolumeLife (part : Partition) (pool : ℕ → Pool) (ls : List (Option (ℕ × VolumeCall))) (c : Fs × List Dir) : Prop :=
  ∃ s, FreshVolume part s ∧ (lifeMachine part pool).Run (s, []) ls c

/-- A mount closes every file, and does nothing else. -/
inductive LifeMeans : Option (ℕ × VolumeCall) → List (Event (ℕ × ℤ) Name UInt8) → Prop
  | call {l : ℕ × VolumeCall} {es : List (Event (ℕ × ℤ) Name UInt8)} : Means l es → LifeMeans (some l) es
  | mount : LifeMeans none [.restart]

structure Alive (part : Partition) (c : Fs × List Dir) (A : FileSpace (ℕ × ℤ) Name UInt8) : Prop where
  shows : ShowsSpace part.kernel c A
  mountable : Mountable part c.1.kern

section

variable {K : Kernel} {part : Partition} {pool : ℕ → Pool} {c c' : Fs × List Dir} {l : ℕ × VolumeCall} {s : Fs}
  {ls ls' : List (Option (ℕ × VolumeCall))} {A : FileSpace (ℕ × ℤ) Name UInt8} {path : List Name}

theorem VolumeStep.keepsMount (hs : VolumeStep K pool c l c') (h : ShowsSpace K c A) (hw : WrittenBack c.1 l) :
    KeepsMount K.toPartition c.1.kern c'.1.kern := by
  have htask : ∀ (t : Fs) (task : ℕ), KeepsMount K.toPartition t.kern (onTask pool task t).kern := fun _ _ => .of_eq rfl rfl rfl
  obtain ⟨s, handles⟩ := c
  obtain ⟨task, call⟩ := l
  have hon := h.onTask pool task
  have hinside : ∀ {fd : ℤ} (i : ℕ) (p : Ptr), LooksUp (onTask pool task s) task fd i → ((onTask pool task s).fileTable i).fdInode = some p →
      ((onTask pool task s).fileTable i).fdPos ≤ ((onTask pool task s).inodes p).iSize := fun _ _ hi hp => hon.inside hi hp
  obtain ⟨⟨-, lost, dirs, files, hserved⟩, -, -⟩ := hon
  refine (htask s task).trans ?_
  cases hs with
  | sysOpen hpath hroom hrun =>
    obtain ⟨_, _, -, hopens⟩ := hserved.sysOpen hpath (fun hc => ⟨(hroom hc).1.room, (hroom hc).1.slot⟩) hrun
    exact hopens.keeps
  | sysClose hrun => exact (hserved.sysClose hrun).2.keepsMount
  | @sysWrite _ _ _ _ count buf _ _ hpos hcount _ hrun =>
    have hlen : (bytesOf buf count).length = count := by simp [bytesOf]
    simp only [WrittenBack, hlen] at hw
    exact (hserved.sysWrite hcount hrun).2.2.2 hw
  | sysRead hcount hrun => exact (hserved.sysReadInto hcount hinside hrun).2.1.keepsMount
  | sysLseek hoffset hrun =>
    obtain ⟨-, ⟨-, heq⟩ | ⟨_, _, -, -, -, -, -, -, heq⟩⟩ := hserved.sysLseek hoffset hinside hrun
    · rw [heq]
      exact .refl _ _
    · rw [heq]
      exact .of_eq rfl rfl rfl
  | sysMkdir hpath hroom hrun =>
    obtain ⟨_, -, hmakes⟩ := hserved.sysMkdir hpath ⟨hroom.room, hroom.slot⟩ hrun
    exact hmakes.keeps
  | sysUnlink hpath hrun =>
    obtain ⟨_, -, hunlinks⟩ := hserved.sysUnlink hpath hrun
    exact hunlinks.keeps
  | sysRmdir hpath hlast hfree hrun =>
    obtain ⟨_, -, hremoves⟩ := hserved.sysRmdir hpath hlast hfree hrun
    exact hremoves.keeps
  | sysOpendir hpath hrun => exact (hserved.sysOpendir hpath hrun).2.1.kern.keepsMount
  | sysClosedir hmem hrun =>
    rw [dirRefs_erase hmem, add_left_comm] at hserved
    exact (hserved.sysClosedir hrun).2.kern.keepsMount
  | sysChdir hpath hrun => exact (hserved.sysChdir hpath hrun).2.1.kern.keepsMount
  | sysStat hpath hrun => exact (hserved.sysStat hpath hrun).2.1.kern.keepsMount

theorem FreshVolume.formatted (h : FreshVolume part s) : Formatted part ∧ Mountable part s.kern := by
  obtain ⟨hf, hend, hplenty, hidle, hformat, hmount⟩ := h
  obtain rfl := mountDefault_partition hf hformat hmount
  obtain ⟨-, hsects, hlow⟩ := partitionFormat_ok hformat
  have hform : Formatted (formattedPartition _ _) := ⟨hf, hsects, hlow, rfl⟩
  obtain ⟨k₂, hmount, hheap, -⟩ := mountDefault_mounted hmount
  have hsb := SuperBlock.load_bytes (formatSuperBlock_words hf) (partitionFormat_disk hf hformat).superBlock
  obtain ⟨-, -, -, -, hm⟩ := mountPartition_mountable hform hsb hmount
  exact ⟨hform, hheap.keepsMount hm⟩

theorem FreshVolume.alive (h : FreshVolume part s) : Alive part (s, []) rootOnly := ⟨h.shows, h.formatted.2⟩

theorem Alive.volume (h : Alive part c A) : ∃ dirs files, Volume part.kernel dirs files c.1.kern := by
  obtain ⟨⟨⟨-, lost, dirs, files, hserved⟩, -, -⟩, -⟩ := h
  exact ⟨dirs, files, hserved.volume⟩

theorem Alive.mounted {part' : Partition} {s s' : Fs} (h : Alive part c A) (hf : Formatted part) (hidle : s.Idle) (hplenty : s.kern.Plenty)
    (hd : s.kern.disk = c.1.kern.disk) (hmount : mountDefault part.startLba part.secCnt s = .ok (part', s')) :
    part' = part ∧ Alive part (s', []) ⟨A.map, fun _ => none⟩ := by
  obtain ⟨dirs, files, hv⟩ := h.volume
  have hwell : FileSpace.WellFormed (⟨A.map, fun _ => none⟩ : FileSpace (ℕ × ℤ) Name UInt8) :=
    Step.wellFormed h.shows.wellFormed .restart
  have hmap := h.shows.shows.map
  rw [hmap] at hwell ⊢
  obtain ⟨hpart, hm, hshows⟩ := mountDefault_again hf hv h.mountable hwell hidle hplenty hd hmount
  exact ⟨hpart, hshows, hm⟩

theorem life_simulates (hf : Formatted part) (pool : ℕ → Pool) :
    Machine.Simulates (lifeMachine part pool) (machine (ℕ × ℤ) Name UInt8) LifeMeans (Alive part) := by
  intro c l c' A h hs
  cases hs with
  | call hstep hw =>
    obtain ⟨es, A', hmeans, hrun, hshows⟩ := (VolumeStep.answered hstep h.shows).shows h.shows.wellFormed
    exact ⟨es, A', .call hmeans, hrun, hshows, hstep.keepsMount h.shows hw h.mountable⟩
  | mount hidle hplenty hd hmount => exact ⟨_, _, .mount, .single .restart, (h.mounted hf hidle hplenty hd hmount).2⟩

theorem VolumeLife.alive (h : VolumeLife part pool ls c) : Formatted part ∧ ∃ ess A, List.Forall₂ LifeMeans ls ess ∧
    (machine (ℕ × ℤ) Name UInt8).Run rootOnly ess.flatten A ∧ Alive part c A := by
  obtain ⟨s, hfresh, hrun⟩ := h
  exact ⟨hfresh.formatted.1, (life_simulates hfresh.formatted.1 pool).run hfresh.alive hrun⟩

theorem VolumeLife.mount {s : Fs} (h : VolumeLife part pool ls c) (hidle : s.Idle) (hplenty : s.kern.Plenty) (hd : s.kern.disk = c.1.kern.disk) :
    ∃ s', mountDefault part.startLba part.secCnt s = .ok (part, s') ∧ VolumeLife part pool (ls ++ [none]) (s', []) ∧
      pathMap part s'.kern.disk = pathMap part c.1.kern.disk ∧ ∀ task fd f, ¬ DescriptorAt part.kernel s' task fd f := by
  obtain ⟨hf, -, A, -, -, halive⟩ := h.alive
  obtain ⟨part', s', hmount, -⟩ := mountDefault_runs hf (by rw [hd]; exact halive.mountable.superBlock) hplenty
  obtain ⟨hpart, hagain⟩ := halive.mounted hf hidle hplenty hd hmount
  obtain rfl := hpart.symm
  obtain ⟨s₀, hfresh, hrun⟩ := h
  refine ⟨s', hmount, ⟨s₀, hfresh, .snoc hrun (.mount hidle hplenty hd hmount)⟩, ?_, fun task fd f hat => ?_⟩
  · exact hagain.shows.shows.map.symm.trans halive.shows.shows.map
  · cases (hagain.shows.shows.opened task fd f).mpr hat

end

namespace PartitionScan

variable {records : ℕ → Slot → Part} {pad : ℕ → Slot → Memory} {sbBuf : Buffer} {hd : ℕ}

def AllFound (r : Slot → Part) (disk : Memory) : Prop := ∀ slot, (r slot).secCnt ≠ 0 → (r slot).Ready disk ∧ HasMagic disk (r slot)

theorem checkParts_found {m n : ℕ} (hm : n + m = 12) {part : Slot} {t : SearchState} (hk : t.kern.Plenty)
    (h : AllFound (records hd) (t.disks hd)) : Runs (checkParts records pad sbBuf hd part n) t fun partIdx t' =>
      partIdx = 12 ∧ Steady t.kern t'.kern ∧ t'.disks = t.disks ∧ t'.formatted = t.formatted := by
  induction m generalizing n part t with
  | zero =>
    obtain rfl : n = 12 := hm
    rw [checkParts_done]
    exact Runs.pure ⟨rfl, Steady.refl _, rfl, rfl⟩
  | succ m ih =>
    rw [checkParts, if_pos (by omega)]
    refine Runs.bind (checkPart_runs hk fun hthere => (h _ hthere).1) ?_
    intro _ t' hc
    have hno : ∀ slot, ¬ NeedsFormat (t.disks hd) (records hd slot) := fun slot hneeds => hneeds.2 (h slot hneeds.1).2
    have hdisks : t'.disks = t.disks := by rw [hc.disks, if_neg (hno _)]
    have hlog : t'.formatted = t.formatted := by rw [hc.formatted, if_neg (hno _)]
    refine (ih (by omega) (hc.steady.plenty hk) (by rw [hdisks]; exact h)).mono ?_
    rintro _ t'' ⟨hidx, hsteady, hdisks', hlog'⟩
    exact ⟨hidx, hc.steady.trans hsteady, hdisks'.trans hdisks, hlog'.trans hlog⟩

theorem filesysInit_found {k : Kern} (hk : k.Plenty) {disks : ℕ → Memory} (h : AllFound (records 0) (disks 0)) :
    Runs (filesysInit records pad 2) ⟨k, disks, []⟩ fun _ t => t.kern.Plenty ∧ t.disks = disks ∧ t.formatted = [] := by
  unfold filesysInit
  refine Runs.bind (@onKern_runs _ _ ⟨k, disks, []⟩ _ (sysMalloc_runs 512 hk)) ?_
  rintro _ t₀ ⟨⟨rfl, hheap⟩, hdisks, hlog⟩
  dsimp only at hdisks hlog hheap ⊢
  have hrun := @checkParts_found records pad ⟨⟨k.heap.next, k.pool⟩, 512, zeros⟩ 0 12 0 (Nat.zero_add 12) (.prim 0) t₀ (hheap.plenty hk)
    (by rw [hdisks]; exact h)
  change Runs (searchChannels records pad _ [0, 1] 0 >>= _) t₀ _
  refine Runs.bind (P := fun _ t₁ => Steady t₀.kern t₁.kern ∧ t₁.disks = t₀.disks ∧ t₁.formatted = t₀.formatted) ?_ ?_
  · unfold searchChannels
    refine Runs.bind hrun ?_
    rintro _ t₁ ⟨rfl, h₁⟩
    unfold searchChannels
    rw [checkParts_done]
    exact ⟨_, _, rfl, h₁⟩
  · rintro _ t₁ ⟨hsteady, hdisks₁, hlog₁⟩
    have hpool : (⟨k.heap.next, k.pool⟩ : Ptr).pool = t₁.kern.pool := by
      rw [hsteady.pool, hheap.pool]
    refine (onKern_runs (sysFree_runs hpool)).mono ?_
    rintro _ t ⟨hkern, hdisks', hlog'⟩
    exact ⟨hkern.plenty (hsteady.plenty (hheap.plenty hk)), (hdisks'.trans hdisks₁).trans hdisks, (hlog'.trans hlog₁).trans hlog⟩

end PartitionScan

section

variable {part : Partition} {pool : ℕ → Pool} {c c' : Fs × List Dir} {ls ls' : List (Option (ℕ × VolumeCall))} {path : List Name}

/-- The volume is on the records of a disk, and whatever else is on them has a file system. -/
structure Recorded (r : PartitionScan.Slot → PartitionScan.Part) (part : Partition) (disk : Memory) : Prop where
  volume : ∃ i < 12, r (PartitionScan.partSlot i) = ⟨part.startLba, part.secCnt⟩
  others : ∀ slot, (r slot).secCnt ≠ 0 → r slot ≠ ⟨part.startLba, part.secCnt⟩ →
    (r slot).Ready disk ∧ PartitionScan.HasMagic disk (r slot)

theorem Formatted.found {disk : Memory} {r : PartitionScan.Slot → PartitionScan.Part} (hf : Formatted part)
    (hsb : SuperBlock.load disk ((part.startLba + 1) * 512) = part.sb) (hr : Recorded r part disk) : PartitionScan.AllFound r disk := by
  have hmagic : PartitionScan.HasMagic disk ⟨part.startLba, part.secCnt⟩ := by
    have hword : part.sb.magic = 0x19590318 := by
      rw [hf.superBlock]
      rfl
    unfold PartitionScan.HasMagic
    dsimp only
    rw [(format_layout hf.formattable).2.2.2.2, ← hword, ← hsb]
    rfl
  have hlow := hf.onDisk
  rw [(format_layout hf.formattable).2.2.2.1] at hlow
  intro slot hthere
  by_cases hown : r slot = ⟨part.startLba, part.secCnt⟩
  · rw [hown]
    have hlarge := hf.formattable.large
    exact ⟨⟨by dsimp only; omega, by dsimp only; omega, hf.formattable.small, fun hno => absurd hmagic hno⟩, hmagic⟩
  · exact hr.others slot hthere hown

theorem ShowsSpace.smallWrite {K : Kernel} {s : Fs} {handles : List Dir} {A : FileSpace (ℕ × ℤ) Name UInt8} {task count : ℕ} {fd : ℤ}
    {f : OpenFile Name} {old : List UInt8} (h : ShowsSpace K (s, handles) A) (hf : DescriptorAt K s task fd f)
    (hold : (f.path, some old) ∈ pathMap K.toPartition s.kern.disk) (hsmall : old.length + count < 12 * 512) : TableWrittenBack s task fd count := by
  intro k p hk hp _ hlarge
  obtain ⟨⟨-, lost, dirs, files, hserved⟩, hshows, hwell⟩ := h
  obtain ⟨path, hat, hpath⟩ := hserved.descriptor hk hp
  obtain rfl := hserved.descriptor_unique hf hat
  have hmem := hserved.opened_contents hk hp hpath
  rw [← hshows.map] at hold hmem
  have hlen := hserved.content hk hp
  rw [← Option.some.inj (hwell.unique _ _ _ hold hmem)] at hlen
  dsimp only at hlen
  omega

theorem sampleLife : ∃ s₁ s₂ s₃, VolumeLife (formattedPartition 63 4709) kernelThreads [some (0, .sysOpen [slash, 102] 6 3)] (s₁, []) ∧
    ([[102]], some []) ∈ pathMap (formattedPartition 63 4709) s₁.kern.disk ∧
    LifeStep (formattedPartition 63 4709) kernelThreads (s₁, []) (some (0, .sysWrite 3 (bytesOf zeros 2) 2)) (s₂, []) ∧
    LifeStep (formattedPartition 63 4709) kernelThreads (s₂, []) none (s₃, []) := by
  obtain ⟨s₀, s₁, s₂, -, -, hfresh, hopen, hwrite, -⟩ := sampleFile
  have hpath : normalize (components [slash, 102]) = [[102]] := by decide
  have hcreated := (hopen.created hfresh.shows (by decide) (by decide)).2
  rw [hpath] at hcreated
  have hmap : ([[102]], some []) ∈ pathMap (formattedPartition 63 4709) s₁.kern.disk := by
    have hmap := hcreated.map
    dsimp only at hmap
    exact hmap ▸ .inl rfl
  have hat : DescriptorAt (formattedPartition 63 4709).kernel s₁ 0 3 ⟨[[102]], 0, true⟩ := by
    refine (hcreated.opened _ _ _).mp ?_
    dsimp only
    rw [Function.update_self]
    rfl
  have hlife : VolumeLife (formattedPartition 63 4709) kernelThreads [some (0, .sysOpen [slash, 102] 6 3)] (s₁, []) :=
    ⟨s₀, hfresh, .single (.call hopen trivial)⟩
  obtain ⟨-, -, A, -, -, halive⟩ := hlife.alive
  have hwritten : LifeStep (formattedPartition 63 4709) kernelThreads (s₁, []) (some (0, .sysWrite 3 (bytesOf zeros 2) 2)) (s₂, []) :=
    .call hwrite (halive.shows.smallWrite hat hmap (by simp [bytesOf]))
  obtain ⟨s₀, hfresh, hrun⟩ := hlife
  have hidle : ({ idleFs with kern := { Kern.blank with disk := s₂.kern.disk } } : Fs).Idle := ⟨idleFs_idle.standard, idleFs_idle.free⟩
  obtain ⟨s₃, hmount, -⟩ := VolumeLife.mount ⟨s₀, hfresh, .snoc hrun hwritten⟩ hidle Kern.blank_plenty rfl
  exact ⟨s₁, s₂, s₃, ⟨s₀, hfresh, hrun⟩, hmap, hwritten, .mount hidle Kern.blank_plenty rfl hmount⟩

/-- Whatever the tasks call and however often the volume is mounted, it is a run of a file system as a map from paths, in which a mount
closes the files and does nothing else. -/
theorem volume_life_refines (h : VolumeLife part pool ls c) : ∃ ess A, List.Forall₂ LifeMeans ls ess ∧
    (machine (ℕ × ℤ) Name UInt8).Run rootOnly ess.flatten A ∧ Shows part.kernel c.1 A := by
  obtain ⟨-, ess, A, hmeans, hrun, halive⟩ := h.alive
  exact ⟨ess, A, hmeans, hrun, halive.shows.shows⟩

theorem volume_life_refines_file : ∃ s : Fs, VolumeLife (formattedPartition 63 4709) kernelThreads
      [some (0, .sysOpen [slash, 102] 6 3), some (0, .sysWrite 3 (bytesOf zeros 2) 2), none] (s, []) ∧
    ∃ ess A, List.Forall₂ LifeMeans [some (0, .sysOpen [slash, 102] 6 3), some (0, .sysWrite 3 (bytesOf zeros 2) 2), none] ess ∧
      (machine (ℕ × ℤ) Name UInt8).Run rootOnly ess.flatten A ∧ Shows (formattedPartition 63 4709).kernel s A := by
  obtain ⟨s₁, s₂, s₃, ⟨s₀, hfresh, hrun⟩, -, hwrite, hmount⟩ := sampleLife
  have h : VolumeLife (formattedPartition 63 4709) kernelThreads
      [some (0, .sysOpen [slash, 102] 6 3), some (0, .sysWrite 3 (bytesOf zeros 2) 2), none] (s₃, []) :=
    ⟨s₀, hfresh, .snoc (.snoc hrun hwrite) hmount⟩
  exact ⟨s₃, h, volume_life_refines h⟩

/-- No update of a file is lost, doubled or reordered, whatever is mounted in between. -/
theorem volume_life_keeps_updates {bytes : List UInt8} (h : VolumeLife part pool ls c) (hrun : (lifeMachine part pool).Run c ls' c')
    (hfile : (path, some bytes) ∈ pathMap part c.1.kern.disk) :
    ∃ A ess A', Shows part.kernel c.1 A ∧ List.Forall₂ LifeMeans ls' ess ∧ (machine (ℕ × ℤ) Name UInt8).Run A ess.flatten A' ∧
      Shows part.kernel c'.1 A' ∧ (.removeFile path ∉ ess.flatten →
        (path, some (bytes ++ appendedTo path ess.flatten)) ∈ pathMap part c'.1.kern.disk) := by
  obtain ⟨hf, -, A, -, -, halive⟩ := h.alive
  obtain ⟨ess, A', hmeans, hrun', halive'⟩ := (life_simulates hf pool).run halive hrun
  refine ⟨A, ess, A', halive.shows.shows, hmeans, hrun', halive'.shows.shows, fun hkeep => ?_⟩
  have hmem : (path, some bytes) ∈ A.map := by
    rw [halive.shows.shows.map]
    exact hfile
  have hend := Run.contents halive.shows.wellFormed hrun' hmem hkeep
  rw [halive'.shows.shows.map] at hend
  exact hend

theorem volume_life_keeps_updates_file : ∃ s₁ s₃ : Fs, ([[102]], some []) ∈ pathMap (formattedPartition 63 4709) s₁.kern.disk ∧
    ∃ A ess A', Shows (formattedPartition 63 4709).kernel s₁ A ∧
      List.Forall₂ LifeMeans [some (0, .sysWrite 3 (bytesOf zeros 2) 2), none] ess ∧
      (machine (ℕ × ℤ) Name UInt8).Run A ess.flatten A' ∧ Shows (formattedPartition 63 4709).kernel s₃ A' ∧
      (.removeFile [[102]] ∉ ess.flatten →
        ([[102]], some ([] ++ appendedTo [[102]] ess.flatten)) ∈ pathMap (formattedPartition 63 4709) s₃.kern.disk) := by
  obtain ⟨s₁, s₂, s₃, hlife, hmap, hwrite, hmount⟩ := sampleLife
  exact ⟨s₁, s₃, hmap, volume_life_keeps_updates hlife (.snoc (.single hwrite) hmount) hmap⟩

/-- When the machine starts again it finds the volume, formats nothing, and mounts what was there, with no file open. -/
theorem volume_life_starts {records : ℕ → PartitionScan.Slot → PartitionScan.Part} {pad : ℕ → PartitionScan.Slot → Memory} {k : Kern}
    {disks : ℕ → Memory} {s : Fs} (h : VolumeLife part pool ls c) (hd : disks 0 = c.1.kern.disk)
    (hr : Recorded (records 0) part c.1.kern.disk) (hplenty : k.Plenty) (hidle : s.Idle) :
    ∃ t s', PartitionScan.filesysInit records pad 2 ⟨k, disks, []⟩ = .ok ((), t) ∧ t.formatted = [] ∧ t.disks = disks ∧
      mountDefault part.startLba part.secCnt { s with kern := { t.kern with disk := t.disks 0 } } = .ok (part, s') ∧
      VolumeLife part pool (ls ++ [none]) (s', []) ∧ pathMap part s'.kern.disk = pathMap part c.1.kern.disk ∧
      ∀ task fd f, ¬ DescriptorAt part.kernel s' task fd f := by
  obtain ⟨hf, -, A, -, -, halive⟩ := h.alive
  have hfound : PartitionScan.AllFound (records 0) (disks 0) := by
    rw [hd]
    exact hf.found halive.mountable.superBlock hr
  obtain ⟨_, t, hsearch, hplenty', hdisks, hlog⟩ := @PartitionScan.filesysInit_found records pad _ hplenty _ hfound
  have hdisk : t.disks 0 = c.1.kern.disk := by rw [hdisks, hd]
  obtain ⟨s', hmount, hlife, hmap, hopen⟩ := @VolumeLife.mount _ _ _ _ { s with kern := { t.kern with disk := t.disks 0 } } h
    ⟨hidle.standard, hidle.free⟩ hplenty' hdisk
  exact ⟨t, s', hsearch, hlog, hdisks, hmount, hlife, hmap, hopen⟩

theorem volume_life_starts_file : ∃ (s₂ s₃ : Fs) (t : PartitionScan.SearchState),
    PartitionScan.filesysInit (fun _ slot => if slot = .prim 0 then ⟨63, 4709⟩ else ⟨0, 0⟩) (fun _ _ => zeros) 2
      ⟨Kern.blank, fun _ => s₂.kern.disk, []⟩ = .ok ((), t) ∧ t.formatted = [] ∧ t.disks = (fun _ => s₂.kern.disk) ∧
    mountDefault 63 4709 { idleFs with kern := { t.kern with disk := t.disks 0 } } = .ok (formattedPartition 63 4709, s₃) ∧
    VolumeLife (formattedPartition 63 4709) kernelThreads
      [some (0, .sysOpen [slash, 102] 6 3), some (0, .sysWrite 3 (bytesOf zeros 2) 2), none] (s₃, []) ∧
    pathMap (formattedPartition 63 4709) s₃.kern.disk = pathMap (formattedPartition 63 4709) s₂.kern.disk ∧
    ∀ task fd f, ¬ DescriptorAt (formattedPartition 63 4709).kernel s₃ task fd f := by
  obtain ⟨s₁, s₂, -, ⟨s₀, hfresh, hrun⟩, -, hwrite, -⟩ := sampleLife
  have h : VolumeLife (formattedPartition 63 4709) kernelThreads
      [some (0, .sysOpen [slash, 102] 6 3), some (0, .sysWrite 3 (bytesOf zeros 2) 2)] (s₂, []) := ⟨s₀, hfresh, .snoc hrun hwrite⟩
  have hrecorded : Recorded (fun slot => if slot = .prim 0 then ⟨63, 4709⟩ else ⟨0, 0⟩) (formattedPartition 63 4709) s₂.kern.disk := by
    refine ⟨⟨0, by omega, rfl⟩, fun slot hthere hother => ?_⟩
    by_cases hfirst : slot = .prim 0
    · rw [if_pos hfirst] at hother
      exact absurd rfl hother
    · rw [if_neg hfirst] at hthere
      exact absurd rfl hthere
  obtain ⟨t, s₃, hstart⟩ := @volume_life_starts _ _ _ _ (fun _ slot => if slot = .prim 0 then ⟨63, 4709⟩ else ⟨0, 0⟩) (fun _ _ => zeros)
    Kern.blank (fun _ => s₂.kern.disk) idleFs h rfl hrecorded Kern.blank_plenty idleFs_idle
  exact ⟨s₂, s₃, t, hstart⟩

/-- Between two calls the super block and both bitmaps are on the disk as they are in memory. -/
theorem volume_life_synced (h : VolumeLife part pool ls c) : SuperBlock.load c.1.kern.disk ((part.startLba + 1) * 512) = part.sb ∧
    (∀ i < c.1.kern.blockBitmap.btmpBytesLen, c.1.kern.disk (part.sb.blockBitmapLba * 512 + i) = c.1.kern.blockBitmap.bits i) ∧
      ∀ i < 512, c.1.kern.disk (part.sb.inodeBitmapLba * 512 + i) = c.1.kern.inodeBitmap.bits i := by
  obtain ⟨-, -, A, -, -, halive⟩ := h.alive
  have hm := halive.mountable
  refine ⟨hm.superBlock, fun i hi => ?_, hm.inodeBitmap⟩
  have hat := Nat.div_add_mod' i 512
  have hsync := hm.blockBitmap (i / 512) (by omega) (i % 512) (Nat.mod_lt _ (by omega))
  rw [Nat.add_mul, Nat.add_assoc, hat] at hsync
  exact hsync

theorem volume_life_synced_file : ∃ s : Fs, SuperBlock.load s.kern.disk (64 * 512) = formatSuperBlock 63 4709 ∧
    (∀ i < s.kern.blockBitmap.btmpBytesLen, s.kern.disk ((formatSuperBlock 63 4709).blockBitmapLba * 512 + i) = s.kern.blockBitmap.bits i) ∧
      ∀ i < 512, s.kern.disk ((formatSuperBlock 63 4709).inodeBitmapLba * 512 + i) = s.kern.inodeBitmap.bits i := by
  obtain ⟨s₁, s₂, -, ⟨s₀, hfresh, hrun⟩, -, hwrite, -⟩ := sampleLife
  have h : VolumeLife (formattedPartition 63 4709) kernelThreads
      [some (0, .sysOpen [slash, 102] 6 3), some (0, .sysWrite 3 (bytesOf zeros 2) 2)] (s₂, []) := ⟨s₀, hfresh, .snoc hrun hwrite⟩
  exact ⟨s₂, volume_life_synced h⟩

end

end ElephantOS
