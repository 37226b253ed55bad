import ElephantOS.ByteMemory
import ElephantOS.HaltingState

/-! `lib/kernel/bitmap.c`: bit maps over bytes, first-fit search. -/

namespace ElephantOS

open ByteMemory

/-- Why the machine stops: a failed `ASSERT` or `PANIC`, an access outside every object,
a loop that never ends. -/
inductive Halt | assertion | wild | hang
  deriving DecidableEq

structure Bitmap where
  btmpBytesLen : ℕ
  bits : Memory

namespace Bitmap

def mask (odd : ℕ) : UInt8 := 1 <<< UInt8.ofNat odd

def scanTest (b : Bitmap) (bitIdx : ℕ) : Bool := b.bits (bitIdx / 8) &&& mask (bitIdx % 8) != 0

def set (b : Bitmap) (bitIdx : ℕ) (value : Bool) : Bitmap :=
  let byteIdx := bitIdx / 8
  let bitOdd := bitIdx % 8
  if value then { b with bits := Function.update b.bits byteIdx (b.bits byteIdx ||| mask bitOdd) }
  else { b with bits := Function.update b.bits byteIdx (b.bits byteIdx &&& ~~~ mask bitOdd) }

/-- The first loop of `bitmap_scan`: step over full bytes. The byte is compared before its
index is checked, as in the source. -/
def skipFull (b : Bitmap) : ℕ → ℕ → ℕ
  | 0, idxByte => idxByte
  | fuel + 1, idxByte =>
    if b.bits idxByte = 0xff ∧ idxByte < b.btmpBytesLen then skipFull b fuel (idxByte + 1) else idxByte

def skipSet (byte : UInt8) : ℕ → ℕ → ℕ
  | 0, idxBit => idxBit
  | fuel + 1, idxBit => if mask idxBit &&& byte != 0 then skipSet byte fuel (idxBit + 1) else idxBit

/-- The last loop of `bitmap_scan`, for `bitLeft` more positions. -/
def scanRun (b : Bitmap) (cnt : ℕ) : ℕ → ℕ → ℕ → Option ℕ
  | 0, _, _ => none
  | bitLeft + 1, nextBit, count =>
    let count := if b.scanTest nextBit then 0 else count + 1
    if count = cnt then some (nextBit + 1 - cnt) else scanRun b cnt bitLeft (nextBit + 1) count

def scan (b : Bitmap) (cnt : ℕ) : Except Halt (Option ℕ) :=
  let idxByte := b.skipFull b.btmpBytesLen 0
  if idxByte < b.btmpBytesLen then
    let bitIdxStart := idxByte * 8 + skipSet (b.bits idxByte) 8 0
    if cnt = 1 then .ok (some bitIdxStart)
    else .ok (b.scanRun cnt (b.btmpBytesLen * 8 - bitIdxStart) (bitIdxStart + 1) 1)
  else .error .assertion

theorem mask_toBitVec (k : ℕ) (hk : k < 8) : (mask k).toBitVec = 1#8 <<< k := by
  interval_cases k <;> decide

theorem and_mask (x : UInt8) (k : ℕ) (hk : k < 8) : (x &&& mask k != 0) = x.toBitVec.getLsbD k := by
  have hm := mask_toBitVec k hk
  rw [Bool.eq_iff_iff, bne_iff_ne, ne_eq, ← UInt8.toBitVec_inj, UInt8.toBitVec_and, hm]
  constructor
  · intro h
    by_contra hx
    apply h
    apply BitVec.eq_of_getLsbD_eq
    intro i hi
    by_cases hik : i = k
    · subst hik
      simp at hx
      simp [hx]
    · simp [BitVec.getLsbD_shiftLeft]
      omega
  · intro hx h
    have hbit : (x.toBitVec &&& 1#8 <<< k).getLsbD k = true := by
      rw [BitVec.getLsbD_and, hx]
      simp [hk]
    rw [h] at hbit
    simp at hbit

theorem scanTest_eq (b : Bitmap) (i : ℕ) :
    b.scanTest i = (b.bits (i / 8)).toBitVec.getLsbD (i % 8) :=
  and_mask _ _ (Nat.mod_lt _ (by omega))

@[simp] theorem set_len (b : Bitmap) (i : ℕ) (v : Bool) : (b.set i v).btmpBytesLen = b.btmpBytesLen := by
  cases v <;> rfl

theorem set_bits (b : Bitmap) (i : ℕ) (v : Bool) (j : ℕ) (hj : j ≠ i / 8) :
    (b.set i v).bits j = b.bits j := by
  cases v <;> simp [set, hj]

theorem set_byte (b : Bitmap) (i : ℕ) (v : Bool) (k : ℕ) (hk : k < 8) :
    ((b.set i v).bits (i / 8)).toBitVec.getLsbD k =
      if k = i % 8 then v else (b.bits (i / 8)).toBitVec.getLsbD k := by
  have hi : i % 8 < 8 := Nat.mod_lt _ (by omega)
  have hm := mask_toBitVec (i % 8) hi
  have hbit : (1#8 <<< (i % 8)).getLsbD k = decide (k = i % 8) := by
    by_cases hlt : k < i % 8
    · simp [hk, hlt]
      omega
    · simp [hk, hlt]
      omega
  cases v with
  | true =>
    simp only [set, if_true, Function.update_self, UInt8.toBitVec_or, hm, BitVec.getLsbD_or, hbit]
    by_cases hki : k = i % 8 <;> simp [hki]
  | false =>
    simp only [set, Bool.false_eq_true, if_false, Function.update_self, UInt8.toBitVec_and,
      UInt8.toBitVec_not, hm, BitVec.getLsbD_and, BitVec.getLsbD_not, hbit]
    by_cases hki : k = i % 8 <;> simp [hki, hk]

@[simp] theorem scanTest_set (b : Bitmap) (i j : ℕ) (v : Bool) :
    (b.set i v).scanTest j = if j = i then v else b.scanTest j := by
  rw [scanTest_eq, scanTest_eq]
  by_cases hb : j / 8 = i / 8
  · rw [hb, set_byte b i v (j % 8) (Nat.mod_lt _ (by omega))]
    have : j % 8 = i % 8 ↔ j = i := by omega
    simp [this]
  · have hne : j ≠ i := fun h => hb (by rw [h])
    rw [set_bits b i v _ hb, if_neg hne]

theorem full_byte (b : Bitmap) (k : ℕ) : b.bits k = 0xff ↔ ∀ i < 8, b.scanTest (8 * k + i) = true := by
  have hget : ∀ i < 8, b.scanTest (8 * k + i) = (b.bits k).toBitVec.getLsbD i := by
    intro i hi
    rw [scanTest_eq]
    have hd : (8 * k + i) / 8 = k := by omega
    have hm : (8 * k + i) % 8 = i := by omega
    rw [hd, hm]
  constructor
  · intro h i hi
    rw [hget i hi, h]
    interval_cases i <;> decide
  · intro h
    apply UInt8.toBitVec_inj.mp
    apply BitVec.eq_of_getLsbD_eq
    intro i hi
    have hff : (0xff : UInt8).toBitVec.getLsbD i = true := by interval_cases i <;> decide
    rw [hff, ← hget i hi]
    exact h i hi

theorem skipFull_spec (b : Bitmap) (fuel idx : ℕ) (hf : b.btmpBytesLen ≤ idx + fuel)
    (hi : idx ≤ b.btmpBytesLen) :
    idx ≤ b.skipFull fuel idx ∧ b.skipFull fuel idx ≤ b.btmpBytesLen ∧
      (∀ k, idx ≤ k → k < b.skipFull fuel idx → b.bits k = 0xff) ∧
      (b.skipFull fuel idx < b.btmpBytesLen → b.bits (b.skipFull fuel idx) ≠ 0xff) := by
  induction fuel generalizing idx with
  | zero =>
    simp only [skipFull]
    refine ⟨le_refl _, hi, fun k _ _ => by omega, fun h => by omega⟩
  | succ fuel ih =>
    by_cases hc : b.bits idx = 0xff ∧ idx < b.btmpBytesLen
    · simp only [skipFull, hc, and_self, if_true]
      obtain ⟨h1, h2, h3, h4⟩ := ih (idx + 1) (by omega) (by omega)
      refine ⟨by omega, h2, fun k hk hk' => ?_, h4⟩
      by_cases hki : k = idx
      · rw [hki]; exact hc.1
      · exact h3 k (by omega) hk'
    · simp only [skipFull, hc, if_false]
      refine ⟨le_refl _, hi, fun k _ _ => by omega, fun h hbits => hc ⟨hbits, h⟩⟩

theorem skipSet_spec (byte : UInt8) (fuel idx : ℕ) (hi : idx + fuel = 8)
    (hlow : ∀ i < idx, byte.toBitVec.getLsbD i = true) :
    (∀ i < skipSet byte fuel idx, byte.toBitVec.getLsbD i = true) ∧
      (skipSet byte fuel idx < 8 → byte.toBitVec.getLsbD (skipSet byte fuel idx) = false) ∧
      skipSet byte fuel idx ≤ 8 := by
  induction fuel generalizing idx with
  | zero => exact ⟨by simpa [skipSet] using hlow, fun h => by simp [skipSet] at h; omega, by simp [skipSet]; omega⟩
  | succ fuel ih =>
    have hm : (mask idx &&& byte != 0) = byte.toBitVec.getLsbD idx := by
      rw [UInt8.and_comm]
      exact and_mask byte idx (by omega)
    cases hb : byte.toBitVec.getLsbD idx with
    | true =>
      simp only [skipSet, hm, hb, if_true]
      apply ih (idx + 1) (by omega)
      intro i hlt
      by_cases he : i = idx
      · rw [he]; exact hb
      · exact hlow i (by omega)
    | false =>
      simp only [skipSet, hm, hb, Bool.false_eq_true, if_false]
      exact ⟨hlow, fun _ => trivial, by omega⟩

theorem skipSet_lt (b : Bitmap) {k : ℕ} (h : b.bits k ≠ 0xff) : skipSet (b.bits k) 8 0 < 8 := by
  obtain ⟨hset, -, -⟩ := skipSet_spec (b.bits k) 8 0 (by omega) (by omega)
  by_contra hge
  apply h
  apply (full_byte b k).mpr
  intro i hi
  have hbit := hset i (by omega)
  rw [scanTest_eq]
  rwa [show (8 * k + i) / 8 = k by omega, show (8 * k + i) % 8 = i by omega]

theorem scan_one (b : Bitmap) :
    (∃ i, b.scan 1 = .ok (some i) ∧ i < 8 * b.btmpBytesLen ∧ b.scanTest i = false ∧
      ∀ j < i, b.scanTest j = true) ∨
    (b.scan 1 = .error .assertion ∧ ∀ j < 8 * b.btmpBytesLen, b.scanTest j = true) := by
  obtain ⟨-, hle, hfull, hnot⟩ := skipFull_spec b b.btmpBytesLen 0 (by omega) (by omega)
  have hbefore : ∀ j < 8 * b.skipFull b.btmpBytesLen 0, b.scanTest j = true := by
    intro j hj
    have h := (full_byte b (j / 8)).mp (hfull (j / 8) (by omega) (by omega)) (j % 8) (by omega)
    rwa [Nat.div_add_mod] at h
  by_cases hlt : b.skipFull b.btmpBytesLen 0 < b.btmpBytesLen
  · left
    obtain ⟨hs1, hs2, hs3⟩ := skipSet_spec (b.bits (b.skipFull b.btmpBytesLen 0)) 8 0 (by omega) (by omega)
    have hget : ∀ i < 8, b.scanTest (b.skipFull b.btmpBytesLen 0 * 8 + i) =
        (b.bits (b.skipFull b.btmpBytesLen 0)).toBitVec.getLsbD i := by
      intro i hi
      rw [scanTest_eq]
      have hd : (b.skipFull b.btmpBytesLen 0 * 8 + i) / 8 = b.skipFull b.btmpBytesLen 0 := by omega
      have hm : (b.skipFull b.btmpBytesLen 0 * 8 + i) % 8 = i := by omega
      rw [hd, hm]
    have hs := skipSet_lt b (hnot hlt)
    refine ⟨b.skipFull b.btmpBytesLen 0 * 8 + skipSet (b.bits (b.skipFull b.btmpBytesLen 0)) 8 0,
      by simp [scan, hlt], by omega, ?_, ?_⟩
    · rw [hget _ hs]
      exact hs2 hs
    · intro j hj
      by_cases hj8 : j < 8 * b.skipFull b.btmpBytesLen 0
      · exact hbefore j hj8
      · have h := hget (j - b.skipFull b.btmpBytesLen 0 * 8) (by omega)
        rw [show b.skipFull b.btmpBytesLen 0 * 8 + (j - b.skipFull b.btmpBytesLen 0 * 8) = j by omega] at h
        rw [h]
        exact hs1 _ (by omega)
  · right
    refine ⟨by simp [scan, hlt], fun j hj => hbefore j (by omega)⟩

/-- `cnt` clear bits from `i` on. -/
def FreeRun (b : Bitmap) (i cnt : ℕ) : Prop := ∀ j, j < cnt → b.scanTest (i + j) = false

theorem scanRun_some (b : Bitmap) (cnt bitLeft nextBit count i : ℕ) (hcount : count < cnt) (hnext : count ≤ nextBit)
    (hclear : ∀ k, nextBit ≤ k + count → k < nextBit → b.scanTest k = false)
    (h : b.scanRun cnt bitLeft nextBit count = some i) :
    b.FreeRun i cnt ∧ i + cnt ≤ nextBit + bitLeft ∧ ∀ k, nextBit ≤ k + count → b.FreeRun k cnt → i ≤ k := by
  induction bitLeft generalizing nextBit count with
  | zero => simp [scanRun] at h
  | succ bitLeft ih =>
    cases hbit : b.scanTest nextBit with
    | true =>
      have hne : ¬ 0 = cnt := by omega
      simp only [scanRun, hbit, if_true, hne, if_false] at h
      obtain ⟨hfree, hle, hfirst⟩ := ih (nextBit + 1) 0 (by omega) (by omega) (by omega) h
      refine ⟨hfree, by omega, ?_⟩
      intro k hk hrun
      apply hfirst k _ hrun
      -- a run that starts earlier would hold the set bit
      by_contra hlt
      have := hrun (nextBit - k) (by omega)
      rw [show k + (nextBit - k) = nextBit by omega, hbit] at this
      cases this
    | false =>
      simp only [scanRun, hbit, Bool.false_eq_true, if_false] at h
      have hclear' : ∀ k, nextBit + 1 ≤ k + (count + 1) → k < nextBit + 1 → b.scanTest k = false := by
        intro k hk hk'
        by_cases heq : k = nextBit
        · rw [heq]
          exact hbit
        · exact hclear k (by omega) (by omega)
      by_cases hfull : count + 1 = cnt
      · rw [if_pos hfull, Option.some.injEq] at h
        subst h
        refine ⟨?_, by omega, fun k hk _ => by omega⟩
        intro j hj
        exact hclear' _ (by omega) (by omega)
      · rw [if_neg hfull] at h
        obtain ⟨hfree, hle, hfirst⟩ := ih (nextBit + 1) (count + 1) (by omega) (by omega) hclear' h
        refine ⟨hfree, by omega, fun k hk hrun => hfirst k (by omega) hrun⟩

theorem scan_some (b : Bitmap) {cnt i : ℕ} (hcnt : 0 < cnt) (h : b.scan cnt = .ok (some i)) :
    b.FreeRun i cnt ∧ i + cnt ≤ 8 * b.btmpBytesLen + 1 ∧ (cnt = 1 → i < 8 * b.btmpBytesLen) ∧
      ∀ k, b.FreeRun k cnt → i ≤ k := by
  have hbefore : ∀ start, b.scan 1 = .ok (some start) → start < 8 * b.btmpBytesLen ∧ b.scanTest start = false ∧
      ∀ k, b.FreeRun k cnt → start ≤ k := by
    intro start hstart
    rcases scan_one b with ⟨first, hscan, hlt, hclear, hset⟩ | ⟨hscan, -⟩
    · rw [hscan] at hstart
      simp only [Except.ok.injEq, Option.some.injEq] at hstart
      subst hstart
      refine ⟨hlt, hclear, ?_⟩
      intro k hrun
      by_contra hk
      have := hrun 0 hcnt
      rw [Nat.add_zero, hset k (by omega)] at this
      cases this
    · rw [hscan] at hstart
      cases hstart
  by_cases hone : cnt = 1
  · subst hone
    obtain ⟨hlt, hclear, hfirst⟩ := hbefore i h
    refine ⟨?_, by omega, fun _ => hlt, hfirst⟩
    intro j hj
    rw [show i + j = i by omega]
    exact hclear
  · by_cases hlen : b.skipFull b.btmpBytesLen 0 < b.btmpBytesLen
    · obtain ⟨hlt, hclear, hfirst⟩ := hbefore
        (b.skipFull b.btmpBytesLen 0 * 8 + skipSet (b.bits (b.skipFull b.btmpBytesLen 0)) 8 0) (by simp [scan, hlen])
      simp only [scan, hlen, if_true, hone, if_false, Except.ok.injEq] at h
      obtain ⟨hfree, hle, hmin⟩ := scanRun_some b cnt _ _ 1 i (by omega) (by omega) (by
        intro k hk hk'
        have hk0 : k = b.skipFull b.btmpBytesLen 0 * 8 + skipSet (b.bits (b.skipFull b.btmpBytesLen 0)) 8 0 := by omega
        rw [hk0]
        exact hclear) h
      refine ⟨hfree, by omega, fun h1 => absurd h1 hone, ?_⟩
      intro k hrun
      exact hmin k (by have := hfirst k hrun; omega) hrun
    · simp only [scan, hlen, if_false] at h
      cases h

end Bitmap

end ElephantOS
