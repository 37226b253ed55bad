import ElephantOS.CallAnswers
import ElephantOS.VolumeStart

namespace ElephantOS

open ByteMemory HaltingState FileSpace

/-- The default partition was just formatted and mounted, and no task has a file open. -/
inductive FreshVolume (part : Partition) (s' : Fs) : Prop
  | mounted {startLba secCnt : ℕ} {pad : Memory} {k : Kern} {s : Fs} : Formattable startLba secCnt → startLba + secCnt + 4096 ≤ 2 ^ 32 →
      k.Plenty → s.Idle → partitionFormat startLba secCnt pad k = .ok ((), s.kern) → mountDefault startLba secCnt s = .ok (part, s') →
      FreshVolume part s'

/-- Calls by any tasks, with what they returned, from a fresh volume on. -/
def VolumeRun (part : Partition) (pool : ℕ → Pool) (ls : List (ℕ × VolumeCall)) (c : Fs × List Dir) : Prop :=
  ∃ s, FreshVolume part s ∧ (volumeMachine part.kernel pool).Run (s, []) ls c

/-- A call that is to leave everything as it is. -/
def VolumeCall.Failed : VolumeCall → Prop
  | .sysOpen _ flags fd => fd = -1 ∧ oCreat flags = false
  | .sysClose _ r => r = -1
  | .sysWrite _ _ r => r = -1
  | .sysRead _ _ _ r => r = -1
  | .sysLseek _ _ _ r => r = -1
  | .sysMkdir _ r => r = -1
  | .sysUnlink _ r => r = -1
  | .sysRmdir _ r => r = -1
  | .sysOpendir _ dir => dir = none
  | .sysClosedir _ r => r = -1
  | .sysChdir _ r => r = -1
  | .sysStat _ stat => stat = none

def VolumeCall.Makes (path : List Name) : VolumeCall → Prop
  | .sysOpen pathname flags fd => oCreat flags = true ∧ 0 ≤ fd ∧ normalize (components pathname) = path
  | .sysMkdir pathname r => r = 0 ∧ normalize (components pathname) = path
  | _ => False

/-- A call that removed a file or a directory. -/
def VolumeCall.Removes : VolumeCall → Prop
  | .sysUnlink _ r => r = 0
  | .sysRmdir _ r => r = 0
  | _ => False

section

variable {K : Kernel} {pool : ℕ → Pool} {c c' c₁ c₂ c₃ : Fs × List Dir} {l : ℕ × VolumeCall} {ls ls' : List (ℕ × VolumeCall)}
  {A A' : FileSpace (ℕ × ℤ) Name UInt8} {task task' : ℕ} {call call' : VolumeCall} {es : List (Event (ℕ × ℤ) Name UInt8)} {path : List Name}

theorem VolumeStep.answered (hs : VolumeStep K pool c l c') (h : ShowsSpace K c A) : Answered K A l c' := by
  cases hs with
  | sysOpen hpath hroom hrun => exact (h.onTask pool _).sysOpen hpath (fun hc => ⟨(hroom hc).1.room, (hroom hc).1.slot⟩) hrun
  | sysClose hrun => exact (h.onTask pool _).sysClose hrun
  | sysWrite hpos hcount _ hrun => exact (h.onTask pool _).sysWrite hpos hcount hrun
  | sysRead hcount hrun => exact (h.onTask pool _).sysRead hcount hrun
  | sysLseek hoffset hrun => exact (h.onTask pool _).sysLseek hoffset hrun
  | sysMkdir hpath hroom hrun => exact (h.onTask pool _).sysMkdir hpath ⟨hroom.room, hroom.slot⟩ hrun
  | sysUnlink hpath hrun => exact (h.onTask pool _).sysUnlink hpath hrun
  | sysRmdir hpath hlast hfree hrun => exact (h.onTask pool _).sysRmdir hpath hlast hfree hrun
  | sysOpendir hpath hrun => exact (h.onTask pool _).sysOpendir hpath hrun
  | sysClosedir hmem hrun => exact (h.onTask pool _).sysClosedir hmem hrun
  | sysChdir hpath hrun => exact (h.onTask pool _).sysChdir hpath hrun
  | sysStat hpath hrun => exact (h.onTask pool _).sysStat hpath hrun

theorem volume_simulates (K : Kernel) (pool : ℕ → Pool) :
    Machine.Simulates (volumeMachine K pool) (machine (ℕ × ℤ) Name UInt8) Means (ShowsSpace K) := by
  intro c l c' A h hs
  exact (VolumeStep.answered hs h).shows h.wellFormed

theorem FreshVolume.shows {part : Partition} {s : Fs} (h : FreshVolume part s) : ShowsSpace part.kernel (s, []) rootOnly := by
  obtain ⟨hf, hend, hplenty, hidle, hformat, hmount⟩ := h
  exact mountDefault_shows hf hend hplenty hidle hformat hmount

theorem Means.failed (h : Means (task, call) es) (hfail : call.Failed) : es = [] := by
  cases h <;> first | rfl | skip
  case creates hcreat => exact absurd (hfail.2.symm.trans hcreat) Bool.false_ne_true
  case opens _ hfd =>
    have := hfail.1
    omega
  case createsOpen _ hfd =>
    have := hfail.1
    omega
  case closes => cases hfail
  case writes =>
    have : _ = (-1 : ℤ) := hfail
    omega
  case reads =>
    have : _ = (-1 : ℤ) := hfail
    omega
  case seeks =>
    have : _ = (-1 : ℤ) := hfail
    omega
  case makesDirectory => cases hfail
  case unlinks => cases hfail
  case removesDirectory => cases hfail
  case opensDirectory => cases hfail
  case changesDirectory => cases hfail
  case describes => cases hfail

theorem Means.makes (h : Means (task, call) es) (hmakes : call.Makes path) : ∃ e es', es = [e] ++ es' ∧ e.Makes path := by
  cases h <;> first | exact hmakes.elim | skip
  case openFails =>
    have := hmakes.2.1
    omega
  case creates =>
    have := hmakes.2.1
    omega
  case opens hno _ => exact absurd (hno.symm.trans hmakes.1) Bool.false_ne_true
  case createsOpen =>
    obtain ⟨-, -, rfl⟩ := hmakes
    exact ⟨_, _, rfl, rfl⟩
  case mkdirFails => cases hmakes.1
  case makesDirectory =>
    obtain ⟨-, rfl⟩ := hmakes
    exact ⟨_, [], rfl, rfl⟩

theorem Means.removes (h : Means (task, call) es) (hkeep : ¬ call.Removes) : ∀ e ∈ es, ¬ e.Removes path := by
  cases h with
  | unlinks => exact absurd rfl hkeep
  | removesDirectory => exact absurd rfl hkeep
  | createsOpen =>
    intro e he
    rcases List.mem_pair.mp he with rfl | rfl <;> exact id
  | _ =>
    intro e he
    first
      | exact absurd he List.not_mem_nil
      | obtain rfl := List.mem_singleton.mp he
        exact id

theorem VolumeCall.Makes.not_removes (h : call.Makes path) : ¬ call.Removes := by
  cases call <;> first | exact id | exact h.elim

theorem ShowsSpace.stays {x : Option (List UInt8)} (h : ShowsSpace K c A) (hx : (path, x) ∈ A.map) (hrun : (volumeMachine K pool).Run c ls c')
    (hkeep : ∀ l ∈ ls, ¬ l.2.Removes) : ∃ A', ShowsSpace K c' A' ∧ ∃ y, (path, y) ∈ A'.map ∧ y.isSome = x.isSome := by
  induction hrun with
  | nil => exact ⟨A, h, x, hx, rfl⟩
  | snoc _ hstep ih =>
    rw [List.forall_mem_append] at hkeep
    obtain ⟨A₁, h₁, y, hy, hsome⟩ := ih hkeep.1
    obtain ⟨es, A₂, hmeans, hrun, h₂⟩ := (VolumeStep.answered hstep h₁).shows h₁.wellFormed
    obtain ⟨z, hz, hsome'⟩ := Run.stays h₁.wellFormed hrun hy (hmeans.removes (hkeep.2 _ (List.mem_singleton_self _)))
    exact ⟨A₂, h₂, z, hz, hsome'.trans hsome⟩

theorem VolumeStep.created {pathname : Path} {flags : ℕ} {fd : ℤ} (hs : VolumeStep K pool c (task, .sysOpen pathname flags fd) c')
    (h : ShowsSpace K c A) (hcreat : oCreat flags = true) (hfd : 0 ≤ fd) : Vacant A.map (normalize (components pathname)) ∧
      Shows K c'.1 ⟨insert (normalize (components pathname), some []) A.map,
        Function.update A.opened (task, fd) (some ⟨normalize (components pathname), 0, oWrite flags⟩)⟩ := by
  obtain ⟨es, A', hmeans, hrun, -, hshows⟩ := hs.answered h
  cases hmeans with
  | openFails => omega
  | creates => omega
  | opens hno => exact absurd (hno.symm.trans hcreat) Bool.false_ne_true
  | createsOpen =>
    obtain ⟨B, hfirst, hsecond⟩ := Machine.Run.append_iff.mp (show Machine.Run _ _ ([_] ++ [_]) _ from hrun)
    have h1 := Machine.Run.single_iff.mp hfirst
    have h2 := Machine.Run.single_iff.mp hsecond
    cases h1 with
    | create hv =>
      cases h2 with
      | openFile _ _ => exact ⟨hv, hshows⟩

theorem VolumeRun.shows {part : Partition} (h : VolumeRun part pool ls c) : ∃ A, ShowsSpace part.kernel c A := by
  obtain ⟨s, hfresh, hrun⟩ := h
  obtain ⟨-, A, -, -, hshows⟩ := (volume_simulates part.kernel pool).run hfresh.shows hrun
  exact ⟨A, hshows⟩

theorem Walks.single {M : ℕ → ℕ × ℕ → Option Entry} {name : Name} {m n : ℕ} (h : Walks M m [name] n) :
    ∃ pos e, M m pos = some e ∧ e.name = name ∧ e.iNo = n := by
  generalize hnames : [name] = names at h
  cases h with
  | here => cases hnames
  | down he _ hrest =>
    obtain ⟨hname, rfl⟩ := List.cons.inj hnames
    cases hrest
    exact ⟨_, _, he, hname.symm, rfl⟩

theorem RoomFor.of_root {part : Partition} {s : Fs} {n : ℕ} {pathname : Path} {name : Name} (hname : components pathname = [name])
    (hn : n < 256) (hfree : s.kern.inodeBitmap.scanTest n = false) (hroom : (storedInode part s.kern.disk 0).iSectors 1 = 0) :
    RoomFor part.kernel pathname s := by
  refine ⟨fun names name' m hnames hwalk => ⟨1, by omega, .inl ?_⟩, .of_free hn hfree⟩
  rw [hname] at hnames
  obtain ⟨rfl, -⟩ := List.append_inj' (hnames.symm.trans (List.nil_append [name]).symm) rfl
  cases hwalk
  exact hroom

theorem PathOk.of_name {c : UInt8} (hname : components [slash, c] = [[c]]) (hnul : c ≠ 0) : PathOk [slash, c] := by
  refine ⟨?_, ?_, ?_⟩
  · simp [hnul.symm, slash]
  · simp [hname]
  · simp [hname]

theorem sampleFile : ∃ s₀ s₁ s₂ s₃ buf, FreshVolume (formattedPartition 63 4709) s₀ ∧
    VolumeStep (formattedPartition 63 4709).kernel kernelThreads (s₀, []) (0, .sysOpen [slash, 102] 6 3) (s₁, []) ∧
    VolumeStep (formattedPartition 63 4709).kernel kernelThreads (s₁, []) (0, .sysWrite 3 (bytesOf zeros 2) 2) (s₂, []) ∧
    sysWrite (formattedPartition 63 4709).kernel 0 3 zeros 2 (onTask kernelThreads 0 s₁) = .ok (2, s₂) ∧
    sysReadInto 0 3 zeros 5 (onTask kernelThreads 0 s₂) = .ok ((1, buf), s₃) := by
  obtain ⟨_, k, hformat, hmount⟩ := runs_of_runsTo (m := partitionFormat 63 4709 zeros) (s := Kern.blank)
    (p := fun _ k => runsTo (mountDefault 63 4709) { idleFs with kern := k } fun _ s₀ => decide (s₀.kern.inodeBitmap.scanTest 1 = false) &&
      decide ((storedInode (formattedPartition 63 4709) s₀.kern.disk 0).iSectors 1 = 0) &&
      runsTo (sysOpen (formattedPartition 63 4709).kernel 0 ⟨0, false⟩ [slash, 102] 6) (onTask kernelThreads 0 s₀) fun r s₁ => decide (r = 3) &&
      decide (s₁.fdTable 0 3 = 3) && decide (∀ p ∈ (s₁.fileTable 3).fdInode, (s₁.inodes p).iNo = 1) &&
      runsTo (sysWrite (formattedPartition 63 4709).kernel 0 3 zeros 2) (onTask kernelThreads 0 s₁) fun r s₂ => decide (r = 2) &&
      runsTo (sysReadInto 0 3 zeros 5) (onTask kernelThreads 0 s₂) fun r _ => decide (r.1 = 1)) (by decide +kernel)
  obtain ⟨part, s₀, hmount, hs₀⟩ := runs_of_runsTo hmount
  simp only [Bool.and_eq_true, decide_eq_true_eq] at hs₀
  obtain ⟨⟨hfree, hblock⟩, hopen⟩ := hs₀
  obtain ⟨r, s₁, hopen, hr⟩ := runs_of_runsTo hopen
  simp only [Bool.and_eq_true, decide_eq_true_eq] at hr
  obtain ⟨⟨⟨rfl, hfd⟩, hino⟩, hwrite⟩ := hr
  obtain ⟨r, s₂, hwrite, hr⟩ := runs_of_runsTo hwrite
  simp only [Bool.and_eq_true, decide_eq_true_eq] at hr
  obtain ⟨rfl, hread⟩ := hr
  obtain ⟨⟨r, buf⟩, s₃, hread, hr⟩ := runs_of_runsTo hread
  obtain rfl : r = 1 := of_decide_eq_true hr
  have hf : Formattable 63 4709 := ⟨by omega, by omega⟩
  obtain rfl := @mountDefault_partition _ _ _ _ _ { idleFs with kern := k } _ hf hformat hmount
  have hname : components [slash, 102] = [[102]] := by decide
  have hidle : ({ idleFs with kern := k } : Fs).Idle := ⟨idleFs_idle.standard, idleFs_idle.free⟩
  refine ⟨s₀, s₁, s₂, s₃, buf, .mounted hf (by omega) Kern.blank_plenty hidle hformat hmount, ?_, ?_, hwrite, hread⟩
  · exact .sysOpen (.of_name hname (by decide)) (fun _ => ⟨.of_root hname (by omega) hfree hblock, rfl⟩) hopen
  · refine .sysWrite (by omega) (by omega) ?_ hwrite
    rintro k p ⟨-, -, -, hk⟩ - hp
    have hk : s₁.fdTable 0 3 = (k : ℕ) := hk
    rw [hfd] at hk
    obtain rfl : k = 3 := by omega
    right
    rw [show ((onTask kernelThreads 0 s₁).inodes p).iNo = 1 from hino p hp]
    decide

theorem sampleDirectory : ∃ s₀ s₁ s₂ s₃, FreshVolume (formattedPartition 63 4709) s₀ ∧
    VolumeStep (formattedPartition 63 4709).kernel kernelThreads (s₀, []) (1, .sysMkdir [slash, 100] 0) (s₁, []) ∧
    VolumeStep (formattedPartition 63 4709).kernel kernelThreads (s₁, []) (2, .sysMkdir [slash, 100] (-1)) (s₂, []) ∧
    VolumeStep (formattedPartition 63 4709).kernel kernelThreads (s₁, []) (1, .sysRmdir [slash, 100] 0) (s₃, []) := by
  obtain ⟨_, k, hformat, hmount⟩ := runs_of_runsTo (m := partitionFormat 63 4709 zeros) (s := Kern.blank)
    (p := fun _ k => runsTo (mountDefault 63 4709) { idleFs with kern := k } fun _ s₀ => decide (s₀.kern.inodeBitmap.scanTest 1 = false) &&
      decide ((storedInode (formattedPartition 63 4709) s₀.kern.disk 0).iSectors 1 = 0) &&
      runsTo (sysMkdir (formattedPartition 63 4709).kernel ⟨0, false⟩ [slash, 100]) (onTask kernelThreads 1 s₀) fun r s₁ => decide (r = 0) &&
      decide (s₁.kern.inodeBitmap.scanTest 2 = false) && decide ((storedInode (formattedPartition 63 4709) s₁.kern.disk 0).iSectors 1 = 0) &&
      decide (entriesOn (formattedPartition 63 4709) s₁.kern.disk 0 (0, 2) = some ⟨[100], 1, .directory⟩) &&
      (s₁.openInodes.all fun p => decide ((s₁.inodes p).iNo ≠ 1)) &&
      runsTo (sysMkdir (formattedPartition 63 4709).kernel ⟨0, false⟩ [slash, 100]) (onTask kernelThreads 2 s₁) (fun r _ => decide (r = -1)) &&
      runsTo (sysRmdir (formattedPartition 63 4709).kernel ⟨0, false⟩ [slash, 100]) (onTask kernelThreads 1 s₁) fun r _ => decide (r = 0))
    (by decide +kernel)
  obtain ⟨part, s₀, hmount, hs₀⟩ := runs_of_runsTo hmount
  simp only [Bool.and_eq_true, decide_eq_true_eq] at hs₀
  obtain ⟨⟨hfree, hblock⟩, hmake⟩ := hs₀
  obtain ⟨r, s₁, hmake, hr⟩ := runs_of_runsTo hmake
  simp only [Bool.and_eq_true, decide_eq_true_eq, List.all_eq_true] at hr
  obtain ⟨⟨⟨⟨⟨⟨rfl, hfree₁⟩, hblock₁⟩, hentry⟩, hcached⟩, hagain⟩, hremove⟩ := hr
  obtain ⟨r, s₂, hagain, hr⟩ := runs_of_runsTo hagain
  obtain rfl : r = -1 := of_decide_eq_true hr
  obtain ⟨r, s₃, hremove, hr⟩ := runs_of_runsTo hremove
  obtain rfl : r = 0 := of_decide_eq_true hr
  have hf : Formattable 63 4709 := ⟨by omega, by omega⟩
  obtain rfl := @mountDefault_partition _ _ _ _ _ { idleFs with kern := k } _ hf hformat hmount
  have hname : components [slash, 100] = [[100]] := by decide
  have hpath : PathOk [slash, 100] := .of_name hname (by decide)
  have hidle : ({ idleFs with kern := k } : Fs).Idle := ⟨idleFs_idle.standard, idleFs_idle.free⟩
  have hfresh : FreshVolume (formattedPartition 63 4709) s₀ := .mounted hf (by omega) Kern.blank_plenty hidle hformat hmount
  have hstep : VolumeStep (formattedPartition 63 4709).kernel kernelThreads (s₀, []) (1, .sysMkdir [slash, 100] 0) (s₁, []) :=
    .sysMkdir hpath (.of_root hname (by omega) hfree hblock) hmake
  refine ⟨s₀, s₁, s₂, s₃, hfresh, hstep, .sysMkdir hpath (.of_root hname (by omega) hfree₁ hblock₁) hagain, .sysRmdir hpath ?_ ?_ hremove⟩
  · intro name hlast
    rw [hname] at hlast
    obtain rfl := Option.some.inj hlast
    decide
  · obtain ⟨es, A, -, -, ⟨-, lost, dirs, files, hserved⟩, -⟩ := hstep.answered hfresh.shows
    intro n hwalk q hq
    rw [hname] at hwalk
    obtain ⟨pos, e, he, hd, rfl⟩ := hwalk.single
    obtain rfl := hserved.volume.names.unique 0 hserved.volume.names.root _ _ _ _ hentry he hd.symm
    exact hcached q hq

/-- Whatever the tasks call, one after the other, is a run of a file system as a map from paths: each call does what its result means. -/
theorem volume_run_refines {part : Partition} (h : VolumeRun part pool ls c) : ∃ ess A, List.Forall₂ Means ls ess ∧
    (machine (ℕ × ℤ) Name UInt8).Run rootOnly ess.flatten A ∧ Shows part.kernel c.1 A := by
  obtain ⟨s, hfresh, hrun⟩ := h
  obtain ⟨ess, A, hmeans, hrun', hshows⟩ := (volume_simulates part.kernel pool).run hfresh.shows hrun
  exact ⟨ess, A, hmeans, hrun', hshows.shows⟩

theorem volume_run_refines_file : ∃ s, VolumeRun (formattedPartition 63 4709) kernelThreads
      [(0, .sysOpen [slash, 102] 6 3), (0, .sysWrite 3 (bytesOf zeros 2) 2)] (s, []) ∧
    ∃ ess A, List.Forall₂ Means [(0, .sysOpen [slash, 102] 6 3), (0, .sysWrite 3 (bytesOf zeros 2) 2)] ess ∧
      (machine (ℕ × ℤ) Name UInt8).Run rootOnly ess.flatten A ∧ Shows (formattedPartition 63 4709).kernel s A := by
  obtain ⟨s₀, s₁, s₂, -, -, hfresh, hopen, hwrite, -⟩ := sampleFile
  have h : VolumeRun (formattedPartition 63 4709) kernelThreads
      [(0, .sysOpen [slash, 102] 6 3), (0, .sysWrite 3 (bytesOf zeros 2) 2)] (s₂, []) := ⟨s₀, hfresh, .snoc (.single hopen) hwrite⟩
  exact ⟨s₂, h, volume_run_refines h⟩

/-- No update of a file is lost, doubled or reordered: in any run after this one that does not remove it, it grows by what the
writes to its path appended. -/
theorem volume_run_keeps_updates {part : Partition} {bytes : List UInt8} (h : VolumeRun part pool ls c)
    (hrun : (volumeMachine part.kernel pool).Run c ls' c') (hfile : (path, some bytes) ∈ pathMap part c.1.kern.disk) :
    ∃ A ess A', Shows part.kernel c.1 A ∧ List.Forall₂ Means ls' ess ∧ (machine (ℕ × ℤ) Name UInt8).Run A ess.flatten A' ∧
      Shows part.kernel c'.1 A' ∧ (.removeFile path ∉ ess.flatten →
        (path, some (bytes ++ appendedTo path ess.flatten)) ∈ pathMap part c'.1.kern.disk) := by
  obtain ⟨A, hA⟩ := h.shows
  obtain ⟨ess, A', hmeans, hrun', hshows'⟩ := (volume_simulates part.kernel pool).run hA hrun
  refine ⟨A, ess, A', hA.shows, hmeans, hrun', hshows'.shows, fun hkeep => ?_⟩
  have hmem : (path, some bytes) ∈ A.map := by
    rw [hA.shows.map]
    exact hfile
  have hend := Run.contents hA.wellFormed hrun' hmem hkeep
  rw [hshows'.shows.map] at hend
  exact hend

theorem volume_run_keeps_updates_file : ∃ s₁ s₂, ([[102]], some []) ∈ pathMap (formattedPartition 63 4709) s₁.kern.disk ∧
    ∃ A ess A', Shows (formattedPartition 63 4709).kernel s₁ A ∧ List.Forall₂ Means [(0, .sysWrite 3 (bytesOf zeros 2) 2)] ess ∧
      (machine (ℕ × ℤ) Name UInt8).Run A ess.flatten A' ∧ Shows (formattedPartition 63 4709).kernel s₂ A' ∧
      (.removeFile [[102]] ∉ ess.flatten →
        ([[102]], some ([] ++ appendedTo [[102]] ess.flatten)) ∈ pathMap (formattedPartition 63 4709) s₂.kern.disk) := by
  obtain ⟨s₀, s₁, s₂, -, -, hfresh, hopen, hwrite, -⟩ := sampleFile
  have hmap : ([[102]], some []) ∈ pathMap (formattedPartition 63 4709) s₁.kern.disk := by
    have hshows := (hopen.created hfresh.shows (by decide) (by decide)).2
    have hpath : normalize (components [slash, 102]) = [[102]] := by decide
    rw [hpath] at hshows
    have hmap := hshows.map
    dsimp only at hmap
    exact hmap ▸ .inl rfl
  exact ⟨s₁, s₂, hmap, volume_run_keeps_updates ⟨s₀, hfresh, .single hopen⟩ (.single hwrite) hmap⟩

/-- A call that fails leaves the map and the descriptors. -/
theorem volume_run_failed_call {part : Partition} (h : VolumeRun part pool ls c) (hs : VolumeStep part.kernel pool c (task, call) c')
    (hfail : call.Failed) : pathMap part c'.1.kern.disk = pathMap part c.1.kern.disk ∧
      ∀ t fd f, DescriptorAt part.kernel c'.1 t fd f ↔ DescriptorAt part.kernel c.1 t fd f := by
  obtain ⟨A, hA⟩ := h.shows
  obtain ⟨es, A', hmeans, hrun, -, hshows'⟩ := hs.answered hA
  obtain rfl := hmeans.failed hfail
  obtain rfl := Machine.Run.nil_iff.mp hrun
  refine ⟨hshows'.map.symm.trans hA.shows.map, fun t fd f => ?_⟩
  exact (hshows'.opened t fd f).symm.trans (hA.shows.opened t fd f)

theorem volume_run_failed_call_mkdir : ∃ s₁ s₂, pathMap (formattedPartition 63 4709) s₂.kern.disk = pathMap (formattedPartition 63 4709) s₁.kern.disk ∧
    ∀ t fd f, DescriptorAt (formattedPartition 63 4709).kernel s₂ t fd f ↔ DescriptorAt (formattedPartition 63 4709).kernel s₁ t fd f := by
  obtain ⟨s₀, s₁, s₂, -, hfresh, hmake, hagain, -⟩ := sampleDirectory
  exact ⟨s₁, s₂, volume_run_failed_call ⟨s₀, hfresh, .single hmake⟩ hagain rfl⟩

/-- Of the tasks that try to make a file or a directory at a path, one succeeds: until something is removed, no other does. -/
theorem volume_run_makes_once {part : Partition} (h : VolumeRun part pool ls c) (hmake : VolumeStep part.kernel pool c (task, call) c₁)
    (hmakes : call.Makes path) (hrun : (volumeMachine part.kernel pool).Run c₁ ls' c₂) (hkeep : ∀ l ∈ ls', ¬ l.2.Removes)
    (hagain : VolumeStep part.kernel pool c₂ (task', call') c₃) : ¬ call'.Makes path := by
  intro hmakes'
  obtain ⟨A, hA⟩ := h.shows
  obtain ⟨es, A₁, hmeans, hrun₁, hA₁⟩ := (hmake.answered hA).shows hA.wellFormed
  have hes : ∀ e ∈ es, ¬ e.Removes path := hmeans.removes hmakes.not_removes
  obtain ⟨e, es', rfl, he⟩ := hmeans.makes hmakes
  obtain ⟨B, hfirst, hrest⟩ := Machine.Run.append_iff.mp hrun₁
  obtain ⟨-, x, hx⟩ := Step.makes (Machine.Run.single_iff.mp hfirst) he
  obtain ⟨y, hy, -⟩ := Run.stays (Run.wellFormed hA.wellFormed hfirst) hrest hx (List.forall_mem_append.mp hes).2
  obtain ⟨A₂, hA₂, z, hz, -⟩ := hA₁.stays hy hrun hkeep
  obtain ⟨es₂, _, hmeans₂, hrun₂, -⟩ := hagain.answered hA₂
  obtain ⟨e', es₃, rfl, he'⟩ := hmeans₂.makes hmakes'
  obtain ⟨C, hsecond, -⟩ := Machine.Run.append_iff.mp hrun₂
  exact (Step.makes (Machine.Run.single_iff.mp hsecond) he').1.absent z hz

theorem volume_run_makes_once_mkdir : ∃ s₀ s₁ s₂, FreshVolume (formattedPartition 63 4709) s₀ ∧
    VolumeStep (formattedPartition 63 4709).kernel kernelThreads (s₀, []) (1, .sysMkdir [slash, 100] 0) (s₁, []) ∧
    VolumeStep (formattedPartition 63 4709).kernel kernelThreads (s₁, []) (2, .sysMkdir [slash, 100] (-1)) (s₂, []) ∧
    ¬ (VolumeCall.sysMkdir [slash, 100] (-1)).Makes [[100]] := by
  obtain ⟨s₀, s₁, s₂, -, hfresh, hmake, hagain, -⟩ := sampleDirectory
  have hpath : normalize (components [slash, 100]) = [[100]] := by decide
  refine ⟨s₀, s₁, s₂, hfresh, hmake, hagain, ?_⟩
  exact volume_run_makes_once ⟨s₀, hfresh, .nil⟩ hmake ⟨rfl, hpath⟩ .nil (fun _ h => absurd h List.not_mem_nil) hagain

end

end ElephantOS
