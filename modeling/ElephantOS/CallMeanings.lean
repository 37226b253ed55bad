import ElephantOS.VolumeDescriptors

namespace ElephantOS

open ByteMemory HaltingState FileSpace

inductive VolumeCall
  | sysOpen (pathname : Path) (flags : ℕ) (fd : ℤ)
  | sysClose (fd r : ℤ)
  | sysWrite (fd : ℤ) (bytes : List UInt8) (r : ℤ)
  | sysRead (fd : ℤ) (count : ℕ) (bytes : List UInt8) (r : ℤ)
  | sysLseek (fd offset : ℤ) (whence : ℕ) (r : ℤ)
  | sysMkdir (pathname : Path) (r : ℤ)
  | sysUnlink (pathname : Path) (r : ℤ)
  | sysRmdir (pathname : Path) (r : ℤ)
  | sysOpendir (name : Path) (dir : Option Dir)
  | sysClosedir (dir : Dir) (r : ℤ)
  | sysChdir (path : Path) (r : ℤ)
  | sysStat (path : Path) (stat : Option Stat)

/-- A call by a task, with the directory handles that are open before and after it. Names fit their arrays, a directory that is to
take a new name has room in its direct blocks, files are created by kernel threads, what is written stores its inode within the buffer,
and `sys_rmdir` is not given `.`, `..` or a directory that is in use. -/
inductive VolumeStep (K : Kernel) (pool : ℕ → Pool) : Fs × List Dir → ℕ × VolumeCall → Fs × List Dir → Prop
  | sysOpen {s s' : Fs} {handles : List Dir} {task flags : ℕ} {junk : Junk} {pathname : Path} {fd : ℤ} : PathOk pathname →
      (oCreat flags = true → RoomFor K pathname s ∧ pool task = .kernel) → ElephantOS.sysOpen K task junk pathname flags (onTask pool task s) = .ok (fd, s') →
      VolumeStep K pool (s, handles) (task, .sysOpen pathname flags fd) (s', handles)
  | sysClose {s s' : Fs} {handles : List Dir} {task : ℕ} {fd r : ℤ} : ElephantOS.sysClose task fd (onTask pool task s) = .ok (r, s') →
      VolumeStep K pool (s, handles) (task, .sysClose fd r) (s', handles)
  | sysWrite {s s' : Fs} {handles : List Dir} {task count : ℕ} {buf : Memory} {fd r : ℤ} : 0 < count → count < 2 ^ 31 →
      (FdCall.sysWrite fd buf count).Stays K task (onTask pool task s) → ElephantOS.sysWrite K task fd buf count (onTask pool task s) = .ok (r, s') →
      VolumeStep K pool (s, handles) (task, .sysWrite fd (bytesOf buf count) r) (s', handles)
  | sysRead {s s' : Fs} {handles : List Dir} {task count : ℕ} {buf buf' : Memory} {fd r : ℤ} : count < 2 ^ 31 →
      sysReadInto task fd buf count (onTask pool task s) = .ok ((r, buf'), s') →
      VolumeStep K pool (s, handles) (task, .sysRead fd count (bytesOf buf' r.toNat) r) (s', handles)
  | sysLseek {s s' : Fs} {handles : List Dir} {task whence : ℕ} {fd offset r : ℤ} : -2 ^ 31 ≤ offset ∧ offset < 2 ^ 31 →
      ElephantOS.sysLseek task fd offset whence (onTask pool task s) = .ok (r, s') →
      VolumeStep K pool (s, handles) (task, .sysLseek fd offset whence r) (s', handles)
  | sysMkdir {s s' : Fs} {handles : List Dir} {task : ℕ} {junk : Junk} {pathname : Path} {r : ℤ} : PathOk pathname → RoomFor K pathname s →
      ElephantOS.sysMkdir K junk pathname (onTask pool task s) = .ok (r, s') →
      VolumeStep K pool (s, handles) (task, .sysMkdir pathname r) (s', handles)
  | sysUnlink {s s' : Fs} {handles : List Dir} {task : ℕ} {junk : Junk} {pathname : Path} {r : ℤ} : PathOk pathname →
      ElephantOS.sysUnlink K junk pathname (onTask pool task s) = .ok (r, s') →
      VolumeStep K pool (s, handles) (task, .sysUnlink pathname r) (s', handles)
  | sysRmdir {s s' : Fs} {handles : List Dir} {task : ℕ} {junk : Junk} {pathname : Path} {r : ℤ} : PathOk pathname →
      (∀ name, (components pathname).getLast? = some name → name ≠ dot ∧ name ≠ dotDot) → NotCached K pathname s →
      ElephantOS.sysRmdir K junk pathname (onTask pool task s) = .ok (r, s') →
      VolumeStep K pool (s, handles) (task, .sysRmdir pathname r) (s', handles)
  | sysOpendir {s s' : Fs} {handles : List Dir} {task : ℕ} {junk : Junk} {name : Path} {dir : Option Dir} : PathOk name →
      ElephantOS.sysOpendir K junk name (onTask pool task s) = .ok (dir, s') →
      VolumeStep K pool (s, handles) (task, .sysOpendir name dir) (s', dir.toList ++ handles)
  | sysClosedir {s s' : Fs} {handles : List Dir} {task : ℕ} {dir : Dir} {r : ℤ} : dir ∈ handles →
      ElephantOS.sysClosedir (some dir) (onTask pool task s) = .ok (r, s') →
      VolumeStep K pool (s, handles) (task, .sysClosedir dir r) (s', handles.erase dir)
  | sysChdir {s s' : Fs} {handles : List Dir} {task : ℕ} {junk : Junk} {path : Path} {r : ℤ} : PathOk path →
      ElephantOS.sysChdir K task junk path (onTask pool task s) = .ok (r, s') →
      VolumeStep K pool (s, handles) (task, .sysChdir path r) (s', handles)
  | sysStat {s s' : Fs} {handles : List Dir} {task : ℕ} {junk : Junk} {path : Path} {stat : Option Stat} : PathOk path →
      ElephantOS.sysStat K junk path (onTask pool task s) = .ok (stat, s') →
      VolumeStep K pool (s, handles) (task, .sysStat path stat) (s', handles)

def volumeMachine (K : Kernel) (pool : ℕ → Pool) : Machine (Fs × List Dir) (ℕ × VolumeCall) := ⟨VolumeStep K pool⟩

def seekOrigin (whence : ℕ) : Origin := if whence = 1 then .start else if whence = 2 then .current else .last

/-- What a call has done, going by what it returned: one that returns -1 has done nothing, but for `sys_open`, which can have
made a file that it then has no descriptor for. -/
inductive Means : ℕ × VolumeCall → List (Event (ℕ × ℤ) Name UInt8) → Prop
  | openFails {task flags : ℕ} {pathname : Path} : Means (task, .sysOpen pathname flags (-1)) []
  | creates {task flags : ℕ} {pathname : Path} : oCreat flags = true →
      Means (task, .sysOpen pathname flags (-1)) [.create (normalize (components pathname))]
  | opens {task flags : ℕ} {pathname : Path} {fd : ℤ} : oCreat flags = false → 0 ≤ fd →
      Means (task, .sysOpen pathname flags fd) [.openFile (task, fd) (normalize (components pathname)) (oWrite flags)]
  | createsOpen {task flags : ℕ} {pathname : Path} {fd : ℤ} : oCreat flags = true → 0 ≤ fd → Means (task, .sysOpen pathname flags fd)
      [.create (normalize (components pathname)), .openFile (task, fd) (normalize (components pathname)) (oWrite flags)]
  | closeFails {task : ℕ} {fd : ℤ} : Means (task, .sysClose fd (-1)) []
  | closes {task : ℕ} {fd : ℤ} : Means (task, .sysClose fd 0) [.closeFile (task, fd)]
  | writeFails {task : ℕ} {fd : ℤ} {bytes : List UInt8} : Means (task, .sysWrite fd bytes (-1)) []
  | console {task : ℕ} {bytes : List UInt8} {r : ℤ} : Means (task, .sysWrite 1 bytes r) []
  | writes {task : ℕ} {fd : ℤ} {path : List Name} {bytes : List UInt8} :
      Means (task, .sysWrite fd bytes bytes.length) [.append (task, fd) path bytes]
  | readFails {task count : ℕ} {fd : ℤ} {bytes : List UInt8} : Means (task, .sysRead fd count bytes (-1)) []
  | reads {task count : ℕ} {fd : ℤ} {path : List Name} {bytes : List UInt8} :
      Means (task, .sysRead fd count bytes bytes.length) [.read (task, fd) path count bytes]
  | seekFails {task whence : ℕ} {fd offset : ℤ} : Means (task, .sysLseek fd offset whence (-1)) []
  | seeks {task whence pos : ℕ} {fd offset : ℤ} :
      Means (task, .sysLseek fd offset whence pos) [.seek (task, fd) (seekOrigin whence) offset pos]
  | mkdirFails {task : ℕ} {pathname : Path} : Means (task, .sysMkdir pathname (-1)) []
  | makesDirectory {task : ℕ} {pathname : Path} : Means (task, .sysMkdir pathname 0) [.makeDirectory (normalize (components pathname))]
  | unlinkFails {task : ℕ} {pathname : Path} : Means (task, .sysUnlink pathname (-1)) []
  | unlinks {task : ℕ} {pathname : Path} {pre after : List Name} {name : Name} : components pathname = pre ++ name :: after →
      Means (task, .sysUnlink pathname 0) [.removeFile (normalize pre ++ [name])]
  | rmdirFails {task : ℕ} {pathname : Path} : Means (task, .sysRmdir pathname (-1)) []
  | removesDirectory {task : ℕ} {pathname : Path} : Means (task, .sysRmdir pathname 0) [.removeDirectory (normalize (components pathname))]
  | opendirFails {task : ℕ} {name : Path} : Means (task, .sysOpendir name none) []
  | opensDirectory {task : ℕ} {name : Path} {dir : Dir} : Means (task, .sysOpendir name (some dir)) [.look (normalize (components name)) none]
  | closesDirectory {task : ℕ} {dir : Dir} {r : ℤ} : Means (task, .sysClosedir dir r) []
  | chdirFails {task : ℕ} {path : Path} : Means (task, .sysChdir path (-1)) []
  | changesDirectory {task : ℕ} {path : Path} : Means (task, .sysChdir path 0) [.look (normalize (components path)) none]
  | statFails {task : ℕ} {path : Path} : Means (task, .sysStat path none) []
  | describes {task : ℕ} {pathname : Path} {stat : Stat} {path : List Name} {x : Option (List UInt8)} :
      Reaches (components pathname) path x → Describes stat x → Means (task, .sysStat pathname (some stat)) [.look path (x.map List.length)]

structure Running (K : Kernel) (s : Fs) (handles : List Dir) : Prop where
  calls : CallInv s handles
  served : ∃ lost dirs files, Served K (lost + (handles.map dirRefs).sum) dirs files s

structure ShowsSpace (K : Kernel) (c : Fs × List Dir) (A : FileSpace (ℕ × ℤ) Name UInt8) : Prop where
  running : Running K c.1 c.2
  shows : Shows K c.1 A
  wellFormed : A.WellFormed

def Answered (K : Kernel) (A : FileSpace (ℕ × ℤ) Name UInt8) (l : ℕ × VolumeCall) (c : Fs × List Dir) : Prop :=
  ∃ es A', Means l es ∧ (machine (ℕ × ℤ) Name UInt8).Run A es A' ∧ Running K c.1 c.2 ∧ Shows K c.1 A'

section

variable {K : Kernel} {s : Fs} {handles : List Dir} {A A' : FileSpace (ℕ × ℤ) Name UInt8} {l : ℕ × VolumeCall} {c : Fs × List Dir}
  {e e' : Event (ℕ × ℤ) Name UInt8}

theorem ShowsSpace.onTask (h : ShowsSpace K (s, handles) A) (pool : ℕ → Pool) (task : ℕ) : ShowsSpace K (onTask pool task s, handles) A := by
  obtain ⟨⟨hcalls, lost, dirs, files, hserved⟩, ⟨hmap, hopened⟩, hwell⟩ := h
  exact ⟨⟨hcalls.onTask pool task, lost, dirs, files, hserved.onTask pool task⟩, ⟨hmap, hopened⟩, hwell⟩

theorem Answered.shows (h : Answered K A l c) (hwell : A.WellFormed) : ∃ es A', Means l es ∧ (machine (ℕ × ℤ) Name UInt8).Run A es A' ∧
    ShowsSpace K c A' := by
  obtain ⟨es, A', hmeans, hrun, hrunning, hshows⟩ := h
  exact ⟨es, A', hmeans, hrun, hrunning, hshows, Run.wellFormed hwell hrun⟩

theorem Answered.idle (hmeans : Means l []) (hrunning : Running K c.1 c.2) (hshows : Shows K c.1 A) : Answered K A l c :=
  ⟨[], A, hmeans, .nil, hrunning, hshows⟩

theorem Answered.step (hmeans : Means l [e]) (hstep : Step A e A') (hrunning : Running K c.1 c.2) (hshows : Shows K c.1 A') : Answered K A l c :=
  ⟨[e], A', hmeans, .single hstep, hrunning, hshows⟩

theorem Answered.steps {A'' : FileSpace (ℕ × ℤ) Name UInt8} (hmeans : Means l [e, e']) (hstep : Step A e A') (hstep' : Step A' e' A'')
    (hrunning : Running K c.1 c.2) (hshows : Shows K c.1 A'') : Answered K A l c :=
  ⟨[e, e'], A'', hmeans, .snoc (.single hstep) hstep', hrunning, hshows⟩

end

end ElephantOS
