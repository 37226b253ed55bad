import ElephantOS.Kernel

/-! `busy_wait` of `device/ide.c`, over the values that the status register has when it is read, and `mtime_sleep` of `device/timer.c`. -/

namespace ElephantOS.DiskWait

open HaltingState

def bitStatBsy : UInt8 := 0x80

def bitStatDrq : UInt8 := 0x8

def milSecondsPerIntr : ℕ := 1000 / 100

structure Wait where
  /-- readings of the status register -/
  reads : ℕ
  /-- the ticks of every sleep -/
  sleeps : List ℕ

abbrev WaitM := Exec Halt Wait

/-- A sleep returns once the timer has ticked often enough. -/
def mtimeSleep (mSeconds : ℕ) : WaitM Unit := do
  let sleepTicks := (mSeconds + milSecondsPerIntr - 1) / milSecondsPerIntr
  assert (0 < sleepTicks)
  modify fun w => { w with sleeps := sleepTicks :: w.sleeps }

section

variable (status : ℕ → UInt8)

/-- `inb(reg_status(channel))` -/
def inbStatus : WaitM UInt8 := do
  let w ← get
  modify fun w => { w with reads := w.reads + 1 }
  return status w.reads

/-- `time_limit -= 10 >= 0`: what is subtracted is the value of the comparison. -/
def lessTime (timeLimit : BitVec 16) : BitVec 16 := timeLimit - if (10 : ℤ) ≥ 0 then 1 else 0

def waitLoop : ℕ → BitVec 16 → WaitM Bool
  | 0, _ => halt .hang
  | fuel + 1, timeLimit =>
    if lessTime timeLimit = 0 then return false
    else do
      let st ← inbStatus status
      if st &&& bitStatBsy = 0 then
        let st ← inbStatus status
        return st &&& bitStatDrq != 0
      else
        mtimeSleep 10
        waitLoop fuel (lessTime timeLimit)

def busyWait : WaitM Bool := waitLoop status (2 ^ 16) (30 * 1000)

/-- Reading `i` is the first that does not find the drive busy. -/
def FirstReady (i : ℕ) : Prop := status i &&& bitStatBsy = 0 ∧ ∀ j < i, status j &&& bitStatBsy ≠ 0

/-- The drive asks for data at reading `i`. -/
def asksData (i : ℕ) : Bool := status i &&& bitStatDrq != 0

end

variable {status : ℕ → UInt8} {i : ℕ}

theorem FirstReady.unique {j : ℕ} (h : FirstReady status i) (h' : FirstReady status j) : i = j := by
  rcases lt_trichotomy i j with hlt | heq | hgt
  · exact absurd h.1 (h'.2 i hlt)
  · exact heq
  · exact absurd h'.1 (h.2 j hgt)

theorem lessTime_ofNat (n : ℕ) : lessTime (BitVec.ofNat 16 (n + 1)) = BitVec.ofNat 16 n := by
  unfold lessTime
  rw [if_pos (by decide)]
  apply BitVec.eq_of_toNat_eq
  rw [BitVec.toNat_sub, BitVec.toNat_ofNat, BitVec.toNat_ofNat]
  change (2 ^ 16 - 1 + (n + 1) % 2 ^ 16) % 2 ^ 16 = n % 2 ^ 16
  omega

theorem limit_ne_zero {n : ℕ} (hn : 0 < n) (hn16 : n < 2 ^ 16) : BitVec.ofNat 16 n ≠ 0 := by
  intro h
  have hz := congrArg BitVec.toNat h
  rw [BitVec.toNat_ofNat, Nat.mod_eq_of_lt hn16] at hz
  exact hn.ne' hz

theorem mtimeSleep_ten (w : Wait) : mtimeSleep 10 w = .ok ((), { w with sleeps := 1 :: w.sleeps }) := rfl

theorem inbStatus_ok (w : Wait) : inbStatus status w = .ok (status w.reads, { w with reads := w.reads + 1 }) := rfl

theorem waitLoop_busy {n fuel : ℕ} (hn : 0 < n) (hn16 : n < 2 ^ 16) {w : Wait} (hbusy : status w.reads &&& bitStatBsy ≠ 0) :
    waitLoop status (fuel + 1) (BitVec.ofNat 16 (n + 1)) w =
      waitLoop status fuel (BitVec.ofNat 16 n) ⟨w.reads + 1, 1 :: w.sleeps⟩ := by
  rw [waitLoop, lessTime_ofNat, if_neg (limit_ne_zero hn hn16), bind_eq (inbStatus_ok w), if_neg hbusy, bind_eq (mtimeSleep_ten _)]

theorem waitLoop_ready {n fuel : ℕ} (hn : 0 < n) (hn16 : n < 2 ^ 16) {w : Wait} (hready : status w.reads &&& bitStatBsy = 0) :
    waitLoop status (fuel + 1) (BitVec.ofNat 16 (n + 1)) w = .ok (asksData status (w.reads + 1), ⟨w.reads + 2, w.sleeps⟩) := by
  rw [waitLoop, lessTime_ofNat, if_neg (limit_ne_zero hn hn16), bind_eq (inbStatus_ok w), if_pos hready, bind_eq (inbStatus_ok _)]
  rfl

theorem waitLoop_over {fuel : ℕ} (w : Wait) : waitLoop status (fuel + 1) (BitVec.ofNat 16 1) w = .ok (false, w) := by
  rw [waitLoop, lessTime_ofNat 0]
  rfl

theorem waitLoop_spec {n fuel : ℕ} (hn16 : n < 2 ^ 16) (hfuel : n < fuel) (w : Wait) :
    (∃ i < n, FirstReady (fun j => status (w.reads + j)) i ∧ waitLoop status fuel (BitVec.ofNat 16 (n + 1)) w =
      .ok (asksData status (w.reads + i + 1), ⟨w.reads + i + 2, List.replicate i 1 ++ w.sleeps⟩)) ∨
    ((∀ j < n, status (w.reads + j) &&& bitStatBsy ≠ 0) ∧ waitLoop status fuel (BitVec.ofNat 16 (n + 1)) w =
      .ok (false, ⟨w.reads + n, List.replicate n 1 ++ w.sleeps⟩)) := by
  induction n generalizing fuel w with
  | zero =>
    obtain ⟨fuel, rfl⟩ := Nat.exists_eq_add_of_lt hfuel
    exact .inr ⟨fun j hj => absurd hj (Nat.not_lt_zero j), waitLoop_over w⟩
  | succ n ih =>
    obtain ⟨fuel, rfl⟩ := Nat.exists_eq_succ_of_ne_zero (by omega : fuel ≠ 0)
    by_cases hready : status w.reads &&& bitStatBsy = 0
    · left
      refine ⟨0, by omega, ⟨hready, fun j hj => absurd hj (Nat.not_lt_zero j)⟩, ?_⟩
      exact waitLoop_ready (by omega) hn16 hready
    · rw [waitLoop_busy (by omega) hn16 hready]
      have hlist : ∀ i, List.replicate i 1 ++ 1 :: w.sleeps = List.replicate (i + 1) 1 ++ w.sleeps := by
        intro i
        rw [List.replicate_succ', List.append_assoc]
        rfl
      rcases ih (by omega) (by omega : n < fuel) ⟨w.reads + 1, 1 :: w.sleeps⟩ with ⟨i, hi, hfirst, hrun⟩ | ⟨hbusy, hrun⟩
      · left
        refine ⟨i + 1, by omega, ⟨?_, ?_⟩, ?_⟩
        · have := hfirst.1
          simpa only [Nat.add_assoc, Nat.add_comm 1 i] using this
        · intro j hj
          cases j with
          | zero => exact hready
          | succ j =>
            have := hfirst.2 j (by omega)
            simpa only [Nat.add_assoc, Nat.add_comm 1 j] using this
        · rw [hrun, hlist]
          simp only [Nat.add_assoc, Nat.add_comm 1]
      · right
        refine ⟨?_, ?_⟩
        · intro j hj
          cases j with
          | zero => exact hready
          | succ j =>
            have := hbusy j (by omega)
            simpa only [Nat.add_assoc, Nat.add_comm 1 j] using this
        · rw [hrun, hlist]
          simp only [Nat.add_assoc, Nat.add_comm 1]

theorem busyWait_spec (status : ℕ → UInt8) :
    (∃ i < 29999, FirstReady status i ∧ busyWait status ⟨0, []⟩ = .ok (asksData status (i + 1), ⟨i + 2, List.replicate i 1⟩)) ∨
    ((∀ j < 29999, status j &&& bitStatBsy ≠ 0) ∧ busyWait status ⟨0, []⟩ = .ok (false, ⟨29999, List.replicate 29999 1⟩)) := by
  have hspec := @waitLoop_spec status 29999 (2 ^ 16) (by omega) (by omega) ⟨0, []⟩
  simp only [Nat.zero_add, List.append_nil] at hspec
  exact hspec

/-- It returns, with the answer of the first reading that does not find the drive busy, and gives up after 3000 sleeps of 10 ms. -/
def Bounded (status : ℕ → UInt8) : Prop := ∃ r w, busyWait status ⟨0, []⟩ = .ok (r, w) ∧
  (r = true ↔ ∃ i, i + 1 < w.reads ∧ FirstReady status i ∧ asksData status (i + 1) = true) ∧
  (∀ ticks ∈ w.sleeps, ticks * milSecondsPerIntr = 10) ∧ (r = false → w.sleeps.length ≤ 3000)

theorem bounded_iff (status : ℕ → UInt8) :
    Bounded status ↔ ∃ i, FirstReady status i ∧ (i ≤ 3000 ∨ i < 29999 ∧ asksData status (i + 1) = true) := by
  rcases busyWait_spec status with ⟨i, hi, hfirst, hrun⟩ | ⟨hbusy, hrun⟩
  · constructor
    · rintro ⟨r, w, h, -, -, hlimit⟩
      obtain ⟨rfl, rfl⟩ := ok_inj hrun h
      refine ⟨i, hfirst, ?_⟩
      cases hdata : asksData status (i + 1) with
      | true => exact .inr ⟨hi, rfl⟩
      | false =>
        left
        have := hlimit hdata
        rwa [List.length_replicate] at this
    · rintro ⟨j, hj, hor⟩
      obtain rfl := hfirst.unique hj
      refine ⟨_, _, hrun, ?_, ?_, ?_⟩
      · constructor
        · intro h
          exact ⟨i, Nat.lt_succ_self _, hfirst, h⟩
        · rintro ⟨j, -, hj, h⟩
          obtain rfl := hfirst.unique hj
          exact h
      · intro ticks hticks
        rw [List.eq_of_mem_replicate hticks]
        rfl
      · intro h
        rw [List.length_replicate]
        rcases hor with hor | ⟨-, hor⟩
        · exact hor
        · rw [h] at hor
          cases hor
  · apply iff_of_false
    · rintro ⟨r, w, h, -, -, hlimit⟩
      obtain ⟨rfl, rfl⟩ := ok_inj hrun h
      have := hlimit rfl
      rw [List.length_replicate] at this
      omega
    · rintro ⟨i, hfirst, hor⟩
      have hlate : 29999 ≤ i := by
        by_contra hlt
        exact hbusy i (by omega) hfirst.1
      omega

theorem sleeps_iff (status : ℕ → UInt8) :
    Runs (busyWait status) ⟨0, []⟩ fun _ w => w.sleeps.length ≤ 3000 ↔ ∃ i ≤ 3000, FirstReady status i := by
  rcases busyWait_spec status with ⟨i, hi, hfirst, hrun⟩ | ⟨hbusy, hrun⟩
  · refine ⟨_, _, hrun, ?_⟩
    dsimp only
    rw [List.length_replicate]
    constructor
    · intro h
      exact ⟨i, h, hfirst⟩
    · rintro ⟨j, hj, hfirst'⟩
      obtain rfl := hfirst.unique hfirst'
      exact hj
  · refine ⟨_, _, hrun, ?_⟩
    dsimp only
    rw [List.length_replicate]
    apply iff_of_false (by omega)
    rintro ⟨i, hi, hfirst⟩
    exact hbusy i (by omega) hfirst.1

/-- The wait is bounded as documented exactly when the drive is ready by then, or asks for data when it is. -/
theorem busy_wait_bounded (status : ℕ → UInt8) :
    (Bounded status ↔ ∃ i, FirstReady status i ∧ (i ≤ 3000 ∨ i < 29999 ∧ asksData status (i + 1) = true)) ∧
      Runs (busyWait status) ⟨0, []⟩ fun _ w => w.sleeps.length ≤ 3000 ↔ ∃ i ≤ 3000, FirstReady status i :=
  ⟨bounded_iff status, sleeps_iff status⟩

/-- A drive that stays busy is waited for ten times as long. -/
theorem busy_wait_unbounded : ¬ Bounded fun _ => 0x80 := by
  rw [bounded_iff]
  rintro ⟨i, hfirst, -⟩
  have hbusy : (0x80 : UInt8) &&& bitStatBsy ≠ 0 := by decide
  exact hbusy hfirst.1

end ElephantOS.DiskWait
