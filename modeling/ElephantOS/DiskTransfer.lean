import ElephantOS.DiskChannel
import ElephantOS.Kernel

/-!
`ide_read` and `ide_write` of `device/ide.c` at the ports of a controller. The waiting for the disk is in `DiskChannel`; here the
controller has the sectors of a command ready when it is asked for them.
-/

namespace ElephantOS.DiskTransfer

open ByteMemory HaltingState DiskChannel

/-- A command under way on a drive, of which `pos` bytes are transferred. -/
structure Command where
  kind : Kind
  slave : Bool
  lba : ℕ
  secCnt : ℕ
  pos : ℕ

structure Controller where
  sectCnt : UInt8
  lbaL : UInt8
  lbaM : UInt8
  lbaH : UInt8
  dev : UInt8
  command : Option Command
  /-- the contents of the master and of the slave -/
  drives : Bool → Memory

abbrev PortM := Exec Halt Controller

inductive Port | sectCnt | lbaL | lbaM | lbaH | dev
  deriving DecidableEq

def outb (port : Port) (data : UInt8) : PortM Unit := modify fun c =>
  match port with
  | .sectCnt => { c with sectCnt := data }
  | .lbaL => { c with lbaL := data }
  | .lbaM => { c with lbaM := data }
  | .lbaH => { c with lbaH := data }
  | .dev => { c with dev := data }

/-- The address is that of the four registers, 28 bits long; a count of zero stands for 256. -/
def cmdOut (kind : Kind) : PortM Unit := modify fun c => { c with
  command := some
    { kind := kind
      slave := c.dev &&& 0x10 != 0
      lba := c.lbaL.toNat + 2 ^ 8 * c.lbaM.toNat + 2 ^ 16 * c.lbaH.toNat + 2 ^ 24 * (c.dev &&& 0x0f).toNat
      secCnt := if c.sectCnt = 0 then 256 else c.sectCnt.toNat
      pos := 0 } }

/-- `busy_wait` sees DRQ as long as bytes of a command are left. -/
def busyWait : PortM Bool := do
  let c ← get
  return c.command.any fun cmd => cmd.pos < cmd.secCnt * 512

/-- The next `2 * wordCnt` bytes of a read, to the offset `off` of a buffer. -/
def insw (buf : Memory) (off wordCnt : ℕ) : PortM Memory := do
  let c ← get
  let some cmd := c.command | halt .wild
  if cmd.kind = .read ∧ cmd.pos + 2 * wordCnt ≤ cmd.secCnt * 512 then
    set { c with command := some { cmd with pos := cmd.pos + 2 * wordCnt } }
    return blit buf off (slice (c.drives cmd.slave) (cmd.lba * 512 + cmd.pos)) (2 * wordCnt)
  else halt .wild

def outsw (buf : Memory) (off wordCnt : ℕ) : PortM Unit := do
  let c ← get
  let some cmd := c.command | halt .wild
  if cmd.kind = .write ∧ cmd.pos + 2 * wordCnt ≤ cmd.secCnt * 512 then
    set { c with
      command := some { cmd with pos := cmd.pos + 2 * wordCnt }
      drives := Function.update c.drives cmd.slave
        (blit (c.drives cmd.slave) (cmd.lba * 512 + cmd.pos) (slice buf off) (2 * wordCnt)) }
  else halt .wild

def check (p : Prop) [Decidable p] : PortM Unit := if p then pure () else halt .assertion

def devBits (slave : Bool) : UInt8 := 0xa0 ||| 0x40 ||| if slave then 0x10 else 0

def selectDisk (slave : Bool) : PortM Unit := outb .dev (devBits slave)

def selectSector (slave : Bool) (lba : ℕ) (secCnt : UInt8) : PortM Unit := do
  check (lba ≤ maxLba)
  outb .sectCnt secCnt
  outb .lbaL (UInt8.ofNat lba)
  outb .lbaM (UInt8.ofNat (lba >>> 8))
  outb .lbaH (UInt8.ofNat (lba >>> 16))
  outb .dev (devBits slave ||| UInt8.ofNat (lba >>> 24))

/-- `size_in_byte` of `read_from_sector` and `write2sector` -/
def sizeInByte (secCnt : UInt8) : ℕ := if secCnt = 0 then 256 * 512 else secCnt.toNat * 512

def readFromSector (buf : Memory) (off : ℕ) (secCnt : UInt8) : PortM Memory := insw buf off (sizeInByte secCnt / 2)

def writeToSector (buf : Memory) (off : ℕ) (secCnt : UInt8) : PortM Unit := outsw buf off (sizeInByte secCnt / 2)

/-- One round of the loop: up to 256 sectors, whose number is handed on in eight bits. -/
def readRound (slave : Bool) (j : Job) (buf : Memory) : PortM Memory := do
  selectSector slave ((j.lba + j.secsDone) % 4294967296) (UInt8.ofNat j.secsOp)
  cmdOut .read
  let ready ← busyWait
  check (ready = true)
  readFromSector buf (j.secsDone * 512) (UInt8.ofNat j.secsOp)

def writeRound (slave : Bool) (j : Job) (buf : Memory) : PortM Unit := do
  selectSector slave ((j.lba + j.secsDone) % 4294967296) (UInt8.ofNat j.secsOp)
  cmdOut .write
  let ready ← busyWait
  check (ready = true)
  writeToSector buf (j.secsDone * 512) (UInt8.ofNat j.secsOp)

def readLoop (slave : Bool) : ℕ → Job → Memory → PortM Memory
  | 0, _, _ => halt .hang
  | fuel + 1, j, buf =>
    if j.secsDone < j.secCnt then do
      let buf ← readRound slave j buf
      readLoop slave fuel j.next buf
    else return buf

def writeLoop (slave : Bool) : ℕ → Job → Memory → PortM Unit
  | 0, _, _ => halt .hang
  | fuel + 1, j, buf =>
    if j.secsDone < j.secCnt then do
      writeRound slave j buf
      writeLoop slave fuel j.next buf
    else return ()

/-- Every round handles a sector or more. -/
def ideRead (slave : Bool) (lba : ℕ) (buf : Memory) (secCnt : ℕ) : PortM Memory := do
  check (lba ≤ maxLba)
  check (0 < secCnt)
  selectDisk slave
  readLoop slave (secCnt + 1) ⟨.read, lba, secCnt, 0⟩ buf

def ideWrite (slave : Bool) (lba : ℕ) (buf : Memory) (secCnt : ℕ) : PortM Unit := do
  check (lba ≤ maxLba)
  check (0 < secCnt)
  selectDisk slave
  writeLoop slave (secCnt + 1) ⟨.write, lba, secCnt, 0⟩ buf

section

variable {slave : Bool} {lba n : ℕ} {c : Controller} {kind : Kind}

theorem check_ok {p : Prop} [Decidable p] (h : p) (c : Controller) : check p c = .ok ((), c) := by
  unfold check
  rw [if_pos h]
  rfl

theorem devBits_fields : ∀ slave, devBits slave &&& 0x0f = 0 ∧ (devBits slave &&& 0x10 != 0) = slave := by decide

theorem register_lba (h : lba ≤ maxLba) : (UInt8.ofNat lba).toNat + 2 ^ 8 * (UInt8.ofNat (lba >>> 8)).toNat +
    2 ^ 16 * (UInt8.ofNat (lba >>> 16)).toNat = lba ∧ UInt8.ofNat (lba >>> 24) = 0 := by
  have hmax : lba ≤ 163839 := h
  have hhigh : lba >>> 24 = 0 := by
    rw [Nat.shiftRight_eq_div_pow]
    omega
  refine ⟨?_, by rw [hhigh]; rfl⟩
  rw [UInt8.toNat_ofNat', UInt8.toNat_ofNat', UInt8.toNat_ofNat', Nat.shiftRight_eq_div_pow, Nat.shiftRight_eq_div_pow]
  omega

theorem count_eight_bits (h : 0 < n) (h' : n ≤ 256) : (if UInt8.ofNat n = 0 then 256 else (UInt8.ofNat n).toNat) = n ∧
    sizeInByte (UInt8.ofNat n) = n * 512 := by
  unfold sizeInByte
  by_cases hn : n = 256
  · subst hn
    decide
  · have hne : UInt8.ofNat n ≠ 0 := by
      intro hzero
      have := congrArg UInt8.toNat hzero
      rw [UInt8.toNat_ofNat'] at this
      simp at this
      omega
    rw [if_neg hne, if_neg hne, UInt8.toNat_ofNat', Nat.mod_eq_of_lt (by omega)]
    exact ⟨rfl, rfl⟩

/-- The registers past `select_sector`. -/
def Controller.selected (c : Controller) (slave : Bool) (lba : ℕ) (secCnt : UInt8) : Controller := { c with
  sectCnt := secCnt
  lbaL := UInt8.ofNat lba
  lbaM := UInt8.ofNat (lba >>> 8)
  lbaH := UInt8.ofNat (lba >>> 16)
  dev := devBits slave ||| UInt8.ofNat (lba >>> 24) }

theorem selectSector_ok (h : lba ≤ maxLba) (secCnt : UInt8) (c : Controller) :
    selectSector slave lba secCnt c = .ok ((), c.selected slave lba secCnt) := by
  unfold selectSector
  rw [bind_eq (check_ok h c)]
  rfl

theorem cmdOut_ok (h : lba ≤ maxLba) (hn : 0 < n) (hn' : n ≤ 256) (c : Controller) :
    cmdOut kind (c.selected slave lba (UInt8.ofNat n)) =
      .ok ((), { c.selected slave lba (UInt8.ofNat n) with command := some ⟨kind, slave, lba, n, 0⟩ }) := by
  obtain ⟨hlba, hhigh⟩ := register_lba h
  obtain ⟨hlow, hdev⟩ := devBits_fields slave
  unfold cmdOut
  rw [modify_eq]
  simp only [Controller.selected, hhigh, UInt8.or_zero, hlow, hdev, hlba, (count_eight_bits hn hn').1]
  rfl

theorem busyWait_ok {cmd : Command} (hcmd : c.command = some cmd) (hpos : cmd.pos < cmd.secCnt * 512) : busyWait c = .ok (true, c) := by
  refine (bind_ok _ _ _ _).mpr ⟨c, c, rfl, ?_⟩
  rw [hcmd, Option.any_some, decide_eq_true hpos]
  rfl

theorem insw_ok {cmd : Command} {buf : Memory} {off words : ℕ} (hcmd : c.command = some cmd) (hkind : cmd.kind = .read)
    (hpos : cmd.pos + 2 * words ≤ cmd.secCnt * 512) :
    insw buf off words c = .ok (blit buf off (slice (c.drives cmd.slave) (cmd.lba * 512 + cmd.pos)) (2 * words),
      { c with command := some { cmd with pos := cmd.pos + 2 * words } }) := by
  refine (bind_ok _ _ _ _).mpr ⟨c, c, rfl, ?_⟩
  simp only [hcmd]
  rw [if_pos ⟨hkind, hpos⟩]
  rfl

theorem outsw_ok {cmd : Command} {buf : Memory} {off words : ℕ} (hcmd : c.command = some cmd) (hkind : cmd.kind = .write)
    (hpos : cmd.pos + 2 * words ≤ cmd.secCnt * 512) :
    outsw buf off words c = .ok ((), { c with
      command := some { cmd with pos := cmd.pos + 2 * words }
      drives := Function.update c.drives cmd.slave
        (blit (c.drives cmd.slave) (cmd.lba * 512 + cmd.pos) (slice buf off) (2 * words)) }) := by
  refine (bind_ok _ _ _ _).mpr ⟨c, c, rfl, ?_⟩
  simp only [hcmd]
  rw [if_pos ⟨hkind, hpos⟩]
  rfl

structure Fits (j : Job) : Prop where
  range : j.lba + j.secsDone ≤ maxLba
  some : 0 < j.secsOp
  chunk : j.secsOp ≤ 256

theorem Fits.address {j : Job} (h : Fits j) : (j.lba + j.secsDone) % 4294967296 = j.lba + j.secsDone := by
  have hmax : j.lba + j.secsDone ≤ 163839 := h.range
  omega

theorem readRound_ok {j : Job} (h : Fits j) (buf : Memory) (c : Controller) : ∃ c',
    readRound slave j buf c = .ok (blit buf (j.secsDone * 512) (slice (c.drives slave) ((j.lba + j.secsDone) * 512)) (j.secsOp * 512), c') ∧
      c'.drives = c.drives := by
  have hsize := (count_eight_bits h.some h.chunk).2
  have hwords : 2 * (j.secsOp * 512 / 2) = j.secsOp * 512 := by omega
  have hsome := h.some
  unfold readRound readFromSector
  rw [h.address, hsize, bind_eq (selectSector_ok h.range _ c), bind_eq (cmdOut_ok h.range h.some h.chunk c),
    bind_eq (busyWait_ok rfl (by simp only; omega)), bind_eq (check_ok rfl _), insw_ok rfl rfl (by simp only; omega), hwords]
  simp only [Nat.add_zero]
  exact ⟨_, rfl, rfl⟩

theorem writeRound_ok {j : Job} (h : Fits j) (buf : Memory) (c : Controller) : ∃ c', writeRound slave j buf c = .ok ((), c') ∧
    c'.drives = Function.update c.drives slave
      (blit (c.drives slave) ((j.lba + j.secsDone) * 512) (slice buf (j.secsDone * 512)) (j.secsOp * 512)) := by
  have hsize := (count_eight_bits h.some h.chunk).2
  have hwords : 2 * (j.secsOp * 512 / 2) = j.secsOp * 512 := by omega
  have hsome := h.some
  unfold writeRound writeToSector
  rw [h.address, hsize, bind_eq (selectSector_ok h.range _ c), bind_eq (cmdOut_ok h.range h.some h.chunk c),
    bind_eq (busyWait_ok rfl (by simp only; omega)), bind_eq (check_ok rfl _), outsw_ok rfl rfl (by simp only; omega), hwords]
  simp only [Nat.add_zero]
  exact ⟨_, rfl, rfl⟩

structure AtRound (j : Job) : Prop where
  range : sectorRange j.lba j.secCnt
  done : j.secsDone < j.secCnt → j.secsDone % 256 = 0
  bound : j.secsDone ≤ j.secCnt

theorem AtRound.size {j : Job} (h : AtRound j) : j.secCnt ≤ 164095 := by
  have hmax : j.lba + (j.secCnt - 1) / 256 * 256 ≤ 163839 := h.range.1
  omega

theorem AtRound.secsOp {j : Job} (h : AtRound j) (hlt : j.secsDone < j.secCnt) : j.secsOp = min 256 (j.secCnt - j.secsDone) := by
  have hsize := h.size
  unfold Job.secsOp
  rw [Nat.mod_eq_of_lt (by omega)]
  split_ifs <;> omega

theorem AtRound.fits {j : Job} (h : AtRound j) (hlt : j.secsDone < j.secCnt) : Fits j := by
  have hop := h.secsOp hlt
  have hrange := h.range.1
  have hdone := h.done hlt
  exact ⟨by omega, by omega, by omega⟩

theorem AtRound.next {j : Job} (h : AtRound j) (hlt : j.secsDone < j.secCnt) :
    AtRound j.next ∧ j.next.secsDone = j.secsDone + j.secsOp ∧ j.next.secCnt = j.secCnt ∧ j.next.lba = j.lba := by
  have hop := h.secsOp hlt
  have hsize := h.size
  have hdone := h.done hlt
  have hnext : j.next.secsDone = j.secsDone + j.secsOp := Nat.mod_eq_of_lt (by omega)
  have hcnt : j.next.secCnt = j.secCnt := rfl
  refine ⟨⟨h.range, ?_, ?_⟩, hnext, rfl, rfl⟩
  · rw [hnext, hcnt]
    omega
  · rw [hnext, hcnt]
    omega

theorem slice_slice (m : Memory) (a b : ℕ) : slice (slice m a) b = slice m (a + b) := by
  funext i
  simp only [slice, Nat.add_assoc]

theorem blit_start (m src : Memory) {n i : ℕ} (h : i < n) : blit m 0 src n i = src i := by
  rw [blit_apply, if_pos ⟨Nat.zero_le i, by omega⟩, Nat.sub_zero]

theorem readLoop_ok {fuel : ℕ} {j : Job} (h : AtRound j) (hfuel : j.secCnt - j.secsDone < fuel) (buf : Memory) (c : Controller) : ∃ c',
    readLoop slave fuel j buf c = .ok (blit buf (j.secsDone * 512) (slice (c.drives slave) ((j.lba + j.secsDone) * 512))
      ((j.secCnt - j.secsDone) * 512), c') ∧ c'.drives = c.drives := by
  induction fuel generalizing j buf c with
  | zero => omega
  | succ fuel ih =>
    rw [readLoop]
    by_cases hlt : j.secsDone < j.secCnt
    · obtain ⟨hat, hdone, hcnt, hlba⟩ := h.next hlt
      have hop := h.secsOp hlt
      obtain ⟨c₁, hround, hdrives⟩ := @readRound_ok slave j (h.fits hlt) buf c
      obtain ⟨c', hloop, hdrives'⟩ := ih hat (by rw [hdone, hcnt]; omega) (blit buf (j.secsDone * 512)
        (slice (c.drives slave) ((j.lba + j.secsDone) * 512)) (j.secsOp * 512)) c₁
      refine ⟨c', ?_, hdrives'.trans hdrives⟩
      rw [if_pos hlt, bind_eq hround, hloop, hdrives, hdone, hcnt, hlba]
      have hslice : slice (c.drives slave) ((j.lba + (j.secsDone + j.secsOp)) * 512) =
          slice (slice (c.drives slave) ((j.lba + j.secsDone) * 512)) (j.secsOp * 512) := by
        rw [slice_slice, ← Nat.add_mul, Nat.add_assoc]
      rw [hslice, Nat.add_mul j.secsDone j.secsOp, blit_append, ← Nat.add_mul, show j.secsOp + (j.secCnt - (j.secsDone + j.secsOp)) = j.secCnt - j.secsDone by omega]
    · refine ⟨c, ?_, rfl⟩
      rw [if_neg hlt, show j.secCnt - j.secsDone = 0 by omega]
      have hnone : blit buf (j.secsDone * 512) (slice (c.drives slave) ((j.lba + j.secsDone) * 512)) (0 * 512) = buf := by
        funext a
        exact blit_outside _ _ (by omega)
      rw [hnone]
      rfl

theorem writeLoop_ok {fuel : ℕ} {j : Job} (h : AtRound j) (hfuel : j.secCnt - j.secsDone < fuel) (buf : Memory) (c : Controller) : ∃ c',
    writeLoop slave fuel j buf c = .ok ((), c') ∧ c'.drives = Function.update c.drives slave
      (blit (c.drives slave) ((j.lba + j.secsDone) * 512) (slice buf (j.secsDone * 512)) ((j.secCnt - j.secsDone) * 512)) := by
  induction fuel generalizing j c with
  | zero => omega
  | succ fuel ih =>
    rw [writeLoop]
    by_cases hlt : j.secsDone < j.secCnt
    · obtain ⟨hat, hdone, hcnt, hlba⟩ := h.next hlt
      have hop := h.secsOp hlt
      obtain ⟨c₁, hround, hdrives⟩ := @writeRound_ok slave j (h.fits hlt) buf c
      obtain ⟨c', hloop, hdrives'⟩ := ih hat (by rw [hdone, hcnt]; omega) c₁
      refine ⟨c', ?_, ?_⟩
      · rw [if_pos hlt, bind_eq hround]
        exact hloop
      · rw [hdrives', hdrives, Function.update_self, Function.update_idem, hdone, hcnt, hlba]
        have hslice : slice buf ((j.secsDone + j.secsOp) * 512) = slice (slice buf (j.secsDone * 512)) (j.secsOp * 512) := by
          rw [slice_slice, ← Nat.add_mul]
        rw [hslice, ← Nat.add_assoc, Nat.add_mul (j.lba + j.secsDone), blit_append, ← Nat.add_mul,
          show j.secsOp + (j.secCnt - (j.secsDone + j.secsOp)) = j.secCnt - j.secsDone by omega]
    · refine ⟨c, ?_, ?_⟩
      · rw [if_neg hlt]
        rfl
      · rw [show j.secCnt - j.secsDone = 0 by omega]
        have hnone : blit (c.drives slave) ((j.lba + j.secsDone) * 512) (slice buf (j.secsDone * 512)) (0 * 512) = c.drives slave := by
          funext a
          exact blit_outside _ _ (by omega)
        rw [hnone, Function.update_eq_self]

theorem ideRead_ok {secCnt : ℕ} (h : sectorRange lba secCnt) (buf : Memory) (c : Controller) : ∃ c',
    ideRead slave lba buf secCnt c = .ok (blit buf 0 (slice (c.drives slave) (lba * 512)) (secCnt * 512), c') ∧ c'.drives = c.drives := by
  have hat : AtRound ⟨.read, lba, secCnt, 0⟩ := ⟨h, fun _ => rfl, Nat.zero_le _⟩
  have hlba : lba ≤ maxLba := (Nat.le_add_right _ _).trans h.1
  unfold ideRead
  rw [bind_eq (check_ok hlba c), bind_eq (check_ok h.2 c), bind_eq (show selectDisk slave c = .ok ((), { c with dev := devBits slave }) from rfl)]
  obtain ⟨c', hloop, hdrives⟩ := @readLoop_ok slave (secCnt + 1) _ hat (by simp only; omega) buf { c with dev := devBits slave }
  simp only [Nat.zero_mul, Nat.add_zero, Nat.sub_zero] at hloop
  exact ⟨c', hloop, hdrives⟩

theorem ideWrite_ok {secCnt : ℕ} (h : sectorRange lba secCnt) (buf : Memory) (c : Controller) : ∃ c',
    ideWrite slave lba buf secCnt c = .ok ((), c') ∧
      c'.drives = Function.update c.drives slave (blit (c.drives slave) (lba * 512) buf (secCnt * 512)) := by
  have hat : AtRound ⟨.write, lba, secCnt, 0⟩ := ⟨h, fun _ => rfl, Nat.zero_le _⟩
  have hlba : lba ≤ maxLba := (Nat.le_add_right _ _).trans h.1
  have hslice : slice buf 0 = buf := by
    funext i
    simp only [slice, Nat.zero_add]
  unfold ideWrite
  rw [bind_eq (check_ok hlba c), bind_eq (check_ok h.2 c), bind_eq (show selectDisk slave c = .ok ((), { c with dev := devBits slave }) from rfl)]
  obtain ⟨c', hloop, hdrives⟩ := @writeLoop_ok slave (secCnt + 1) _ hat (by simp only; omega) buf { c with dev := devBits slave }
  simp only [Nat.zero_mul, Nat.add_zero, Nat.sub_zero, hslice] at hdrives
  exact ⟨c', hloop, hdrives⟩

theorem ideRead_kernel {secCnt : ℕ} (h : sectorRange lba secCnt) {k : Kern} (hdisk : c.drives slave = k.disk) (buf : Buffer) :
    ∃ buf' k' c', ElephantOS.ideRead lba buf secCnt k = .ok (buf', k') ∧ ideRead slave lba buf.bytes secCnt c = .ok (buf'.bytes, c') ∧
      c'.drives slave = k'.disk := by
  obtain ⟨c', hrun, hdrives⟩ := @ideRead_ok slave lba secCnt h buf.bytes c
  refine ⟨_, _, c', if_pos h, ?_, ?_⟩
  · rw [hrun, hdisk]
  · rw [hdrives, hdisk]
    split_ifs <;> rfl

theorem ideWrite_kernel {secCnt : ℕ} (h : sectorRange lba secCnt) {k : Kern} (hdisk : c.drives slave = k.disk) (buf : Memory) :
    ∃ k' c', ElephantOS.ideWrite lba buf secCnt k = .ok ((), k') ∧ ideWrite slave lba buf secCnt c = .ok ((), c') ∧
      c'.drives slave = k'.disk := by
  obtain ⟨c', hrun, hdrives⟩ := @ideWrite_ok slave lba secCnt h buf c
  refine ⟨_, c', if_pos h, hrun, ?_⟩
  rw [hdrives, Function.update_self, hdisk]

end

/-- What a range of sectors is for the two calls, whatever the registers and the drives hold. -/
structure Transfers (slave : Bool) (lba secCnt : ℕ) : Prop where
  read : ∀ c buf, ∃ buf' c', ideRead slave lba buf secCnt c = .ok (buf', c') ∧ c'.drives = c.drives ∧
    (∀ i < secCnt * 512, buf' i = c.drives slave (lba * 512 + i)) ∧ ∀ i, secCnt * 512 ≤ i → buf' i = buf i
  write : ∀ c buf, ∃ c', ideWrite slave lba buf secCnt c = .ok ((), c') ∧
    (∀ i < secCnt * 512, c'.drives slave (lba * 512 + i) = buf i) ∧
    (∀ a, a < lba * 512 ∨ (lba + secCnt) * 512 ≤ a → c'.drives slave a = c.drives slave a) ∧ c'.drives (!slave) = c.drives (!slave)
  back : ∀ c buf buf₀, ∃ c₁ buf' c₂, ideWrite slave lba buf secCnt c = .ok ((), c₁) ∧ ideRead slave lba buf₀ secCnt c₁ = .ok (buf', c₂) ∧
    ∀ i < secCnt * 512, buf' i = buf i

/-- Transfers inside the first 80 MB are complete and in order. -/
theorem transfers_complete (slave : Bool) (lba secCnt : ℕ) (hcnt : 1 ≤ secCnt) (hlba : lba + secCnt - 1 ≤ maxLba) :
    Transfers slave lba secCnt := by
  have hrange : sectorRange lba secCnt := sectorRange_of_le (by omega) hcnt
  refine ⟨?_, ?_, ?_⟩
  · intro c buf
    obtain ⟨c', hrun, hdrives⟩ := @ideRead_ok slave lba secCnt hrange buf c
    refine ⟨_, c', hrun, hdrives, ?_, ?_⟩
    · intro i hi
      exact blit_start _ _ hi
    · intro i hi
      exact blit_outside _ _ (.inr (by omega))
  · intro c buf
    obtain ⟨c', hrun, hdrives⟩ := @ideWrite_ok slave lba secCnt hrange buf c
    refine ⟨c', hrun, ?_, ?_, ?_⟩
    · intro i hi
      rw [hdrives, Function.update_self, blit_inside _ _ hi]
    · intro a ha
      rw [Nat.add_mul] at ha
      rw [hdrives, Function.update_self]
      exact blit_outside _ _ ha
    · rw [hdrives, Function.update_of_ne (by cases slave <;> decide)]
  · intro c buf buf₀
    obtain ⟨c₁, hwrite, hdrives⟩ := @ideWrite_ok slave lba secCnt hrange buf c
    obtain ⟨c₂, hread, -⟩ := @ideRead_ok slave lba secCnt hrange buf₀ c₁
    refine ⟨c₁, _, c₂, hwrite, hread, ?_⟩
    intro i hi
    have hback : c₁.drives slave (lba * 512 + i) = buf i := by
      rw [hdrives, Function.update_self]
      exact blit_inside _ _ hi
    rw [blit_start _ _ hi]
    exact hback

theorem transfers_complete_512 : Transfers true 163328 512 := transfers_complete true 163328 512 (by decide) (by decide)

end ElephantOS.DiskTransfer
