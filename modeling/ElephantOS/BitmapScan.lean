import ElephantOS.Bitmap

namespace ElephantOS.Bitmap

open HaltingState

abbrev ReadM := Exec Halt (List ℕ)

def readByte (b : Bitmap) (i : ℕ) : ReadM UInt8 := do
  modify (i :: ·)
  pure (b.bits i)

def asInt (w : ℕ) : ℤ := if w < 2147483648 then w else w - 4294967296

def skipFullBytes (b : Bitmap) : ℕ → ℕ → ReadM ℕ
  | 0, _ => halt .hang
  | fuel + 1, idxByte => do
    let byte ← b.readByte idxByte
    if byte = 0xff ∧ idxByte < b.btmpBytesLen then skipFullBytes b fuel ((idxByte + 1) % 4294967296) else pure idxByte

def skipSetBits (b : Bitmap) (idxByte : ℕ) : ℕ → ℕ → ReadM ℕ
  | 0, _ => halt .hang
  | fuel + 1, idxBit => do
    let byte ← b.readByte idxByte
    if mask idxBit &&& byte != 0 then skipSetBits b idxByte fuel (idxBit + 1) else pure idxBit

def bitmapScanTest (b : Bitmap) (bitIdx : ℕ) : ReadM Bool := do
  let byte ← b.readByte (bitIdx / 8)
  pure (byte &&& mask (bitIdx % 8) != 0)

def findRun (b : Bitmap) (cnt : ℕ) : ℕ → ℕ → ℕ → ReadM ℤ
  | 0, _, _ => pure (-1)
  | bitLeft + 1, nextBit, count => do
    let used ← b.bitmapScanTest nextBit
    let count := if used then 0 else (count + 1) % 4294967296
    if count = cnt then pure (asInt ((nextBit + (4294967296 - cnt) + 1) % 4294967296))
    else findRun b cnt bitLeft ((nextBit + 1) % 4294967296) count

def bitmapScan (b : Bitmap) (cnt : ℕ) : ReadM ℤ := do
  let idxByte ← b.skipFullBytes (b.btmpBytesLen + 1) 0
  if idxByte < b.btmpBytesLen then
    let idxBit ← b.skipSetBits idxByte 8 0
    let bitIdxStart := (idxByte * 8 + idxBit) % 4294967296
    let bitLeft := (b.btmpBytesLen * 8 % 4294967296 + (4294967296 - bitIdxStart)) % 4294967296
    if cnt = 1 then pure (asInt bitIdxStart) else b.findRun cnt bitLeft ((bitIdxStart + 1) % 4294967296) 1
  else halt .assertion

/-- `cnt` clear bits from `i` on, all of them within the map. -/
def RunInside (b : Bitmap) (cnt i : ℕ) : Prop := i + cnt ≤ 8 * b.btmpBytesLen ∧ b.FreeRun i cnt

/-- The search returns the first run or -1, and reads the bytes of the map only. -/
def ScanCorrect (b : Bitmap) (cnt : ℕ) : Prop := ∃ v reads, b.bitmapScan cnt [] = .ok (v, reads) ∧
  (∀ i ∈ reads, i < b.btmpBytesLen) ∧
  ((∃ s : ℕ, v = s ∧ b.RunInside cnt s ∧ ∀ k, b.RunInside cnt k → s ≤ k) ∨ v = -1 ∧ ∀ k, ¬ b.RunInside cnt k)

/-- The first clear bit of the map. -/
structure FirstClear (b : Bitmap) (s : ℕ) : Prop where
  inside : s < 8 * b.btmpBytesLen
  clear : b.scanTest s = false
  before : ∀ j < s, b.scanTest j = true

/-- The bits that the last loop tests end here, when `s` is the first clear bit: the number of bits left and their index are words. -/
def loopEnd (b : Bitmap) (s : ℕ) : ℕ := min (s + 1 + (8 * b.btmpBytesLen - s) % 4294967296) 4294967296

theorem readByte_bind {α : Type} (b : Bitmap) (i : ℕ) (f : UInt8 → ReadM α) (reads : List ℕ) :
    (b.readByte i >>= f) reads = f (b.bits i) (i :: reads) := rfl

theorem bitmapScanTest_bind {α : Type} (b : Bitmap) (i : ℕ) (f : Bool → ReadM α) (reads : List ℕ) :
    (b.bitmapScanTest i >>= f) reads = f (b.scanTest i) (i / 8 :: reads) := rfl

theorem reads_cons {P : ℕ → Prop} {x : ℕ} {reads reads' : List ℕ} (h : ∀ i ∈ reads', i ∈ x :: reads ∨ P i) (hx : P x) :
    ∀ i ∈ reads', i ∈ reads ∨ P i := by
  intro i hi
  rcases h i hi with hmem | hP
  · rcases List.mem_cons.mp hmem with rfl | hmem
    · exact .inr hx
    · exact .inl hmem
  · exact .inr hP

theorem skipFullBytes_reads (b : Bitmap) (hlen : b.btmpBytesLen < 4294967296) {fuel idx : ℕ} (hf : b.btmpBytesLen ≤ idx + fuel)
    (hi : idx ≤ b.btmpBytesLen) (reads : List ℕ) :
    ∃ reads', b.skipFullBytes (fuel + 1) idx reads = .ok (b.skipFull fuel idx, reads') ∧
      ∀ i ∈ reads', i ∈ reads ∨ i ≤ b.skipFull fuel idx := by
  induction fuel generalizing idx reads with
  | zero =>
    have hstop : ¬ (b.bits idx = 0xff ∧ idx < b.btmpBytesLen) := by omega
    refine ⟨idx :: reads, ?_, ?_⟩
    · rw [skipFullBytes, readByte_bind, if_neg hstop]
      rfl
    · exact reads_cons (fun _ => .inl) (by exact le_refl _)
  | succ fuel ih =>
    rw [skipFullBytes, readByte_bind, skipFull]
    by_cases hfull : b.bits idx = 0xff ∧ idx < b.btmpBytesLen
    · rw [if_pos hfull, if_pos hfull, Nat.mod_eq_of_lt (by omega)]
      obtain ⟨reads', hrun, hreads⟩ := @ih (idx + 1) (by omega) (by omega) (idx :: reads)
      obtain ⟨hle, -⟩ := skipFull_spec b fuel (idx + 1) (by omega) (by omega)
      exact ⟨reads', hrun, reads_cons hreads (by omega)⟩
    · rw [if_neg hfull, if_neg hfull]
      exact ⟨idx :: reads, rfl, reads_cons (fun _ => .inl) (by exact le_refl _)⟩

theorem skipSetBits_reads (b : Bitmap) {idxByte fuel idx : ℕ} (hclear : skipSet (b.bits idxByte) fuel idx < idx + fuel)
    (reads : List ℕ) :
    ∃ reads', b.skipSetBits idxByte fuel idx reads = .ok (skipSet (b.bits idxByte) fuel idx, reads') ∧
      ∀ i ∈ reads', i ∈ reads ∨ i = idxByte := by
  induction fuel generalizing idx reads with
  | zero =>
    rw [skipSet] at hclear
    omega
  | succ fuel ih =>
    rw [skipSetBits, readByte_bind]
    rw [skipSet] at hclear ⊢
    by_cases hbit : (mask idx &&& b.bits idxByte != 0) = true
    · rw [if_pos hbit] at hclear ⊢
      rw [if_pos hbit]
      obtain ⟨reads', hrun, hreads⟩ := @ih (idx + 1) (by omega) (idxByte :: reads)
      exact ⟨reads', hrun, reads_cons hreads (by rfl)⟩
    · rw [if_neg hbit, if_neg hbit]
      exact ⟨idxByte :: reads, rfl, reads_cons (fun _ => .inl) (by rfl)⟩

theorem findRun_some (b : Bitmap) {cnt bitLeft nextBit count i : ℕ} (hcnt : 2 ≤ cnt) (hcount : count < cnt) (hnext : count ≤ nextBit)
    (hend : nextBit + bitLeft < 4294967296) (h : b.scanRun cnt bitLeft nextBit count = some i) (reads : List ℕ) :
    ∃ reads', b.findRun cnt bitLeft nextBit count reads = .ok (asInt i, reads') ∧ (i + cnt - 1) / 8 ∈ reads' ∧
      nextBit < i + cnt ∧ ∀ j ∈ reads', j ∈ reads ∨ j ≤ (i + cnt - 1) / 8 := by
  induction bitLeft generalizing nextBit count reads with
  | zero => cases h
  | succ bitLeft ih =>
    rw [findRun, bitmapScanTest_bind]
    rw [scanRun] at h
    have hmod : (count + 1) % 4294967296 = count + 1 := Nat.mod_eq_of_lt (by omega)
    have hmod' : (nextBit + 1) % 4294967296 = nextBit + 1 := Nat.mod_eq_of_lt (by omega)
    rw [hmod, hmod']
    generalize hc : (if b.scanTest nextBit = true then 0 else count + 1) = c at h ⊢
    have hcle : c ≤ count + 1 := by
      rw [← hc]
      split_ifs <;> omega
    by_cases hfound : c = cnt
    · rw [if_pos hfound] at h ⊢
      obtain rfl := Option.some.inj h
      have hword : (nextBit + (4294967296 - cnt) + 1) % 4294967296 = nextBit + 1 - cnt := by omega
      have hlast : nextBit + 1 - cnt + cnt - 1 = nextBit := by omega
      rw [hword, hlast]
      exact ⟨_, rfl, List.mem_cons_self, by omega, reads_cons (fun _ => .inl) (by exact le_refl _)⟩
    · rw [if_neg hfound] at h ⊢
      obtain ⟨reads', hrun, hlast, hlt, hreads⟩ := @ih (nextBit + 1) c (by omega) (by omega) (by omega) h (nextBit / 8 :: reads)
      exact ⟨reads', hrun, hlast, by omega, reads_cons hreads (by omega)⟩

theorem findRun_none (b : Bitmap) {cnt bitLeft nextBit count : ℕ} (hnext : count ≤ nextBit)
    (hend : nextBit + bitLeft < 4294967296) (h : b.scanRun cnt bitLeft nextBit count = none) (reads : List ℕ) :
    ∃ reads', b.findRun cnt bitLeft nextBit count reads = .ok (-1, reads') ∧ (∀ j ∈ reads, j ∈ reads') ∧
      ∀ j, nextBit ≤ j → j < nextBit + bitLeft → j / 8 ∈ reads' := by
  induction bitLeft generalizing nextBit count reads with
  | zero =>
    refine ⟨reads, rfl, fun _ => id, ?_⟩
    intro j hj hj'
    omega
  | succ bitLeft ih =>
    rw [findRun, bitmapScanTest_bind]
    rw [scanRun] at h
    have hmod : (count + 1) % 4294967296 = count + 1 := Nat.mod_eq_of_lt (by omega)
    have hmod' : (nextBit + 1) % 4294967296 = nextBit + 1 := Nat.mod_eq_of_lt (by omega)
    rw [hmod, hmod']
    generalize hc : (if b.scanTest nextBit = true then 0 else count + 1) = c at h ⊢
    have hcle : c ≤ count + 1 := by
      rw [← hc]
      split_ifs <;> omega
    by_cases hfound : c = cnt
    · rw [if_pos hfound] at h
      cases h
    · rw [if_neg hfound] at h ⊢
      obtain ⟨reads', hrun, hkept, hreads⟩ := @ih (nextBit + 1) c (by omega) (by omega) h (nextBit / 8 :: reads)
      refine ⟨reads', hrun, ?_, ?_⟩
      · intro j hj
        exact hkept j (List.mem_cons_of_mem _ hj)
      · intro j hj hj'
        by_cases hhere : j = nextBit
        · rw [hhere]
          exact hkept _ List.mem_cons_self
        · exact hreads j (by omega) (by omega)

theorem scanRun_none (b : Bitmap) {cnt bitLeft nextBit count : ℕ} (hcount : count < cnt)
    (h : b.scanRun cnt bitLeft nextBit count = none) :
    ∀ k, nextBit ≤ k + count → k + cnt ≤ nextBit + bitLeft → ¬ b.FreeRun k cnt := by
  induction bitLeft generalizing nextBit count with
  | zero =>
    intro k hk hk'
    omega
  | succ bitLeft ih =>
    intro k hk hk' hrun
    rw [scanRun] at h
    cases hbit : b.scanTest nextBit with
    | true =>
      rw [hbit, if_pos rfl, if_neg (by omega)] at h
      by_cases hbefore : k ≤ nextBit
      · -- the run would hold the set bit
        have := hrun (nextBit - k) (by omega)
        rw [show k + (nextBit - k) = nextBit by omega, hbit] at this
        cases this
      · exact ih (by omega) h k (by omega) (by omega) hrun
    | false =>
      rw [hbit, if_neg Bool.false_ne_true] at h
      split_ifs at h
      exact ih (by omega) h k (by omega) (by omega) hrun

theorem findRun_set (b : Bitmap) {cnt bitLeft nextBit count : ℕ} (hcnt : 0 < cnt) (hnext : nextBit < 4294967296)
    (hset : ∀ j < bitLeft, b.scanTest ((nextBit + j) % 4294967296) = true) (reads : List ℕ) :
    ∃ reads', b.findRun cnt bitLeft nextBit count reads = .ok (-1, reads') ∧ ∀ i ∈ reads', i ∈ reads ∨ i < 536870912 := by
  induction bitLeft generalizing nextBit count reads with
  | zero => exact ⟨reads, rfl, fun _ => .inl⟩
  | succ bitLeft ih =>
    have hbit := hset 0 (Nat.succ_pos _)
    rw [Nat.add_zero, Nat.mod_eq_of_lt hnext] at hbit
    rw [findRun, bitmapScanTest_bind, hbit, if_pos rfl, if_neg (by omega)]
    obtain ⟨reads', hrun, hreads⟩ := @ih ((nextBit + 1) % 4294967296) 0 (Nat.mod_lt _ (by decide)) (fun j hj => by
      have := hset (j + 1) (by omega)
      rwa [show (nextBit + (j + 1)) % 4294967296 = ((nextBit + 1) % 4294967296 + j) % 4294967296 by omega] at this) (nextBit / 8 :: reads)
    exact ⟨reads', hrun, reads_cons hreads (by omega)⟩

def result : Option ℕ → ℤ
  | some i => asInt i
  | none => -1

theorem findRun_wraps (b : Bitmap) {cnt bitLeft nextBit count : ℕ} (hcnt : cnt < 4294967296) (hcount : count < cnt) (hnext : count ≤ nextBit)
    (hlt : nextBit < 4294967296) (hset : ∀ j, j + 4294967296 < nextBit + bitLeft → b.scanTest j = true) (reads : List ℕ) :
    ∃ reads', b.findRun cnt bitLeft nextBit count reads =
        .ok (result (b.scanRun cnt (min bitLeft (4294967296 - nextBit)) nextBit count), reads') ∧
      ∀ i ∈ reads', i ∈ reads ∨ i < 536870912 := by
  induction bitLeft generalizing nextBit count reads with
  | zero =>
    rw [Nat.zero_min]
    exact ⟨reads, rfl, fun _ => .inl⟩
  | succ bitLeft ih =>
    have hmin : min (bitLeft + 1) (4294967296 - nextBit) = min bitLeft (4294967296 - (nextBit + 1)) + 1 := by omega
    have hmod : (count + 1) % 4294967296 = count + 1 := Nat.mod_eq_of_lt (by omega)
    rw [findRun, bitmapScanTest_bind, hmin, scanRun, hmod]
    generalize hc : (if b.scanTest nextBit = true then 0 else count + 1) = c
    have hcle : c ≤ count + 1 := by
      rw [← hc]
      split_ifs <;> omega
    by_cases hfound : c = cnt
    · have hword : (nextBit + (4294967296 - cnt) + 1) % 4294967296 = nextBit + 1 - cnt := by omega
      rw [if_pos hfound, if_pos hfound, hword]
      exact ⟨_, rfl, reads_cons (fun _ => .inl) (by omega)⟩
    · rw [if_neg hfound, if_neg hfound]
      by_cases hlast : nextBit + 1 = 4294967296
      · have hnone : min bitLeft (4294967296 - (nextBit + 1)) = 0 := by omega
        obtain ⟨reads', hrun, hreads⟩ := @findRun_set b cnt bitLeft ((nextBit + 1) % 4294967296) c (by omega) (Nat.mod_lt _ (by decide))
          (fun j hj => hset _ (by omega)) (nextBit / 8 :: reads)
        rw [hnone]
        exact ⟨reads', hrun, reads_cons hreads (by omega)⟩
      · rw [Nat.mod_eq_of_lt (show nextBit + 1 < 4294967296 by omega)]
        obtain ⟨reads', hrun, hreads⟩ := @ih (nextBit + 1) c (by omega) (by omega) (by omega) (fun j hj => hset j (by omega))
          (nextBit / 8 :: reads)
        exact ⟨reads', hrun, reads_cons hreads (by omega)⟩

theorem bitmapScan_opens (b : Bitmap) (hlen : b.btmpBytesLen < 4294967296) (cnt : ℕ) :
    (∃ s reads, b.FirstClear s ∧ (∀ i ∈ reads, i ≤ s / 8) ∧
      b.bitmapScan cnt [] = if cnt = 1 then .ok (asInt (s % 4294967296), reads)
        else b.findRun cnt ((8 * b.btmpBytesLen - s) % 4294967296) ((s + 1) % 4294967296) 1 reads) ∨
    (b.bitmapScan cnt [] = .error .assertion ∧ ∀ j < 8 * b.btmpBytesLen, b.scanTest j = true) := by
  obtain ⟨reads, hrun, hreads⟩ := @skipFullBytes_reads b hlen b.btmpBytesLen 0 (by omega) (by omega) []
  obtain ⟨-, hle, -, hnot⟩ := skipFull_spec b b.btmpBytesLen 0 (by omega) (by omega)
  unfold bitmapScan
  rw [bind_eq hrun]
  by_cases hlt : b.skipFull b.btmpBytesLen 0 < b.btmpBytesLen
  · left
    rcases scan_one b with ⟨s, hscan, hs, hclear, hset⟩ | ⟨hscan, -⟩
    · have hbit := skipSet_lt b (hnot hlt)
      have hstart : b.skipFull b.btmpBytesLen 0 * 8 + skipSet (b.bits (b.skipFull b.btmpBytesLen 0)) 8 0 = s := by
        simpa [scan, hlt] using hscan
      obtain ⟨reads', hrun', hreads'⟩ := @skipSetBits_reads b (b.skipFull b.btmpBytesLen 0) 8 0 (by omega) reads
      refine ⟨s, reads', ⟨hs, hclear, hset⟩, ?_, ?_⟩
      · intro i hi
        rcases hreads' i hi with hi | hi
        · rcases hreads i hi with hi | hi
          · cases hi
          · omega
        · omega
      · have hnext : (s % 4294967296 + 1) % 4294967296 = (s + 1) % 4294967296 := by omega
        have hleft : (b.btmpBytesLen * 8 % 4294967296 + (4294967296 - s % 4294967296)) % 4294967296 =
            (8 * b.btmpBytesLen - s) % 4294967296 := by omega
        rw [if_pos hlt, bind_eq hrun', hstart, hnext, hleft]
        split_ifs <;> rfl
    · simp [scan, hlt] at hscan
  · right
    rw [if_neg hlt]
    refine ⟨rfl, ?_⟩
    rcases scan_one b with ⟨s, hscan, -⟩ | ⟨-, hset⟩
    · simp [scan, hlt] at hscan
    · exact hset

theorem asInt_of_lt {w : ℕ} (h : w < 2147483648) : asInt w = w := if_pos h

theorem asInt_eq {w s : ℕ} (hw : w < 4294967296) (h : asInt w = s) : s < 2147483648 := by
  unfold asInt at h
  split_ifs at h <;> omega

section

variable {b : Bitmap} {cnt s k : ℕ}

theorem FirstClear.single (h : b.FirstClear s) : b.FreeRun s 1 := by
  intro j hj
  rw [show s + j = s by omega]
  exact h.clear

theorem FirstClear.counted (h : b.FirstClear s) : ∀ k, s + 1 ≤ k + 1 → k < s + 1 → b.scanTest k = false := by
  intro k hk hk'
  rw [show k = s by omega]
  exact h.clear

theorem FirstClear.first (h : b.FirstClear s) (hcnt : 0 < cnt) (hk : b.FreeRun k cnt) : s ≤ k := by
  by_contra hlt
  have := hk 0 hcnt
  rw [Nat.add_zero, h.before k (by omega)] at this
  cases this

theorem FirstClear.unique {s' : ℕ} (h : b.FirstClear s) (h' : b.FirstClear s') : s = s' :=
  le_antisymm (h.first Nat.one_pos h'.single) (h'.first Nat.one_pos h.single)

theorem no_run_of_full (hcnt : 0 < cnt) (hset : ∀ j < 8 * b.btmpBytesLen, b.scanTest j = true) : ¬ b.RunInside cnt k := by
  rintro ⟨hk, hfree⟩
  have := hfree 0 hcnt
  rw [Nat.add_zero, hset k (by omega)] at this
  cases this

theorem scanCorrect_iff {v : ℤ} {reads : List ℕ} (heq : b.bitmapScan cnt [] = .ok (v, reads)) : b.ScanCorrect cnt ↔
    (∀ i ∈ reads, i < b.btmpBytesLen) ∧
      ((∃ s : ℕ, v = s ∧ b.RunInside cnt s ∧ ∀ k, b.RunInside cnt k → s ≤ k) ∨ v = -1 ∧ ∀ k, ¬ b.RunInside cnt k) := by
  constructor
  · rintro ⟨v', reads', hrun, h⟩
    rw [heq] at hrun
    cases hrun
    exact h
  · exact fun h => ⟨v, reads, heq, h⟩

theorem single_correct (h : b.FirstClear s) {reads : List ℕ} (hreads : ∀ i ∈ reads, i ≤ s / 8)
    (heq : b.bitmapScan 1 [] = .ok (asInt (s % 4294967296), reads)) : b.ScanCorrect 1 ↔ s < 2147483648 := by
  have hinside := h.inside
  rw [scanCorrect_iff heq]
  constructor
  · rintro ⟨-, ⟨s', hv, hs', -⟩ | ⟨-, hnone⟩⟩
    · have := h.first Nat.one_pos hs'.2
      have := asInt_eq (Nat.mod_lt s (by decide)) hv
      omega
    · exact absurd ⟨h.inside, h.single⟩ (hnone s)
  · intro hlt
    rw [Nat.mod_eq_of_lt (by omega), asInt_of_lt hlt]
    refine ⟨?_, .inl ⟨s, rfl, ⟨h.inside, h.single⟩, fun k hk => h.first Nat.one_pos hk.2⟩⟩
    intro i hi
    have := hreads i hi
    omega

theorem small_correct (hlen : 8 * b.btmpBytesLen < 4294967296) (h : b.FirstClear s) (hcnt : 2 ≤ cnt) {reads : List ℕ}
    (hreads : ∀ i ∈ reads, i ≤ s / 8) (heq : b.bitmapScan cnt [] = b.findRun cnt (8 * b.btmpBytesLen - s) (s + 1) 1 reads) :
    b.ScanCorrect cnt ↔ ∃ k < 2147483648, b.RunInside cnt k := by
  have hs := h.inside
  cases hres : b.scanRun cnt (8 * b.btmpBytesLen - s) (s + 1) 1 with
  | none =>
    obtain ⟨reads', hfind, -, hall⟩ := findRun_none b (by omega) (by omega) hres reads
    rw [scanCorrect_iff (heq.trans hfind)]
    constructor
    · rintro ⟨hinside, -⟩
      have hlast := hinside _ (hall (8 * b.btmpBytesLen) (by omega) (by omega))
      omega
    · rintro ⟨k, -, hk, hfree⟩
      have hsk := h.first (by omega) hfree
      exact absurd hfree (scanRun_none b (by omega) hres k (by omega) (by omega))
  | some i =>
    obtain ⟨hfree, hend, hmin⟩ := scanRun_some b cnt _ _ 1 i (by omega) (by omega) h.counted hres
    obtain ⟨reads', hfind, hlast, hlt, hreads'⟩ := findRun_some b (by omega) (by omega) (by omega) (by omega) hres reads
    rw [scanCorrect_iff (heq.trans hfind)]
    constructor
    · rintro ⟨hinside, ⟨s', hv, hs', -⟩ | ⟨-, hnone⟩⟩
      · exact ⟨s', asInt_eq (by omega) hv, hs'⟩
      · -- the run found would end with the bit behind the map
        have hout : ¬ i + cnt ≤ 8 * b.btmpBytesLen := fun h => hnone i ⟨h, hfree⟩
        have := hinside _ hlast
        omega
    · rintro ⟨k, hint, hk, hfree'⟩
      have hsk := h.first (by omega) hfree'
      have hik := hmin k (by omega) hfree'
      rw [asInt_of_lt (by omega)]
      refine ⟨?_, .inl ⟨i, rfl, ⟨by omega, hfree⟩, ?_⟩⟩
      · intro j hj
        rcases hreads' j hj with hj | hj
        · have := hreads j hj
          omega
        · omega
      · intro k hk
        have := h.first (by omega) hk.2
        exact hmin k (by omega) hk.2

theorem large_correct (hlen : 4294967296 ≤ 8 * b.btmpBytesLen) (h : b.FirstClear s) (hcnt : 2 ≤ cnt) (hword : cnt < 4294967296)
    {reads : List ℕ} (hreads : ∀ i ∈ reads, i ≤ s / 8)
    (heq : b.bitmapScan cnt [] = b.findRun cnt ((8 * b.btmpBytesLen - s) % 4294967296) ((s + 1) % 4294967296) 1 reads) :
    b.ScanCorrect cnt ↔ (∃ k < 2147483648, b.RunInside cnt k ∧ k + cnt ≤ b.loopEnd s) ∨ ∀ k, ¬ b.RunInside cnt k := by
  have hs := h.inside
  have hinside : ∀ reads' : List ℕ, (∀ i ∈ reads', i ∈ reads ∨ i < 536870912) → ∀ i ∈ reads', i < b.btmpBytesLen := by
    intro reads' hall i hi
    rcases hall i hi with hi | hi
    · have := hreads i hi
      omega
    · omega
  by_cases hfirst : s + 1 < 4294967296
  · rw [Nat.mod_eq_of_lt hfirst] at heq
    obtain ⟨reads', hrun, hreads'⟩ := @findRun_wraps b cnt ((8 * b.btmpBytesLen - s) % 4294967296) (s + 1) 1 hword hcnt (by omega) hfirst
      (fun j hj => h.before j (by omega)) reads
    rw [← heq] at hrun
    have hend : s + 1 + min ((8 * b.btmpBytesLen - s) % 4294967296) (4294967296 - (s + 1)) = b.loopEnd s := by
      unfold loopEnd
      omega
    have hendle : b.loopEnd s ≤ 8 * b.btmpBytesLen := le_trans (min_le_right _ _) hlen
    cases hres : b.scanRun cnt (min ((8 * b.btmpBytesLen - s) % 4294967296) (4294967296 - (s + 1))) (s + 1) 1 with
    | none =>
      rw [hres] at hrun
      rw [scanCorrect_iff hrun]
      constructor
      · rintro ⟨-, ⟨s', hv, -⟩ | ⟨-, hnone⟩⟩
        · exact absurd hv (by simp [result])
        · exact .inr hnone
      · rintro (⟨k, -, ⟨-, hfree⟩, hk⟩ | hnone)
        · have := h.first (by omega) hfree
          exact absurd hfree (scanRun_none b hcnt hres k (by omega) (by omega))
        · exact ⟨hinside _ hreads', .inr ⟨rfl, hnone⟩⟩
    | some i =>
      rw [hres] at hrun
      obtain ⟨hfree, hi, hmin⟩ := scanRun_some b cnt _ _ 1 i hcnt (by omega) h.counted hres
      have hrunInside : b.RunInside cnt i := ⟨by omega, hfree⟩
      rw [scanCorrect_iff hrun]
      constructor
      · rintro ⟨-, ⟨s', hv, hs', hleast⟩ | ⟨-, hnone⟩⟩
        · have hint := asInt_eq (by omega) hv
          have hle := hleast i hrunInside
          exact .inl ⟨s', hint, hs', by omega⟩
        · exact absurd hrunInside (hnone i)
      · rintro (⟨k, hint, hk, -⟩ | hnone)
        · have := h.first (by omega) hk.2
          have hik := hmin k (by omega) hk.2
          have hres' : result (some i) = i := asInt_of_lt (by omega)
          refine ⟨hinside _ hreads', .inl ⟨i, hres', hrunInside, ?_⟩⟩
          intro k' hk'
          have := h.first (by omega) hk'.2
          exact hmin k' (by omega) hk'.2
        · exact absurd hrunInside (hnone i)
  · -- all bits with indices below the last word are set
    obtain ⟨reads', hrun, hreads'⟩ := @findRun_set b cnt ((8 * b.btmpBytesLen - s) % 4294967296) ((s + 1) % 4294967296) 1 (by omega)
      (Nat.mod_lt _ (by decide)) (fun j hj => h.before _ (by omega)) reads
    rw [← heq] at hrun
    rw [scanCorrect_iff hrun]
    constructor
    · rintro ⟨-, ⟨s', hv, -⟩ | ⟨-, hnone⟩⟩
      · omega
      · exact .inr hnone
    · rintro (⟨k, hint, hk, -⟩ | hnone)
      · have := h.first (by omega) hk.2
        omega
      · exact ⟨hinside _ hreads', .inr ⟨rfl, hnone⟩⟩

/-- The search is right exactly when there is a run of clear bits to find, at an index that is an `int` and before the last loop ends,
or when the map is too large for the byte behind it to be read: otherwise it fails an assertion on a full map, or gives up only after that
byte. -/
theorem bitmapScan_correct (b : Bitmap) (cnt : ℕ) (hcnt : 0 < cnt) (hword : cnt < 4294967296) (hlen : b.btmpBytesLen < 4294967296) :
    b.ScanCorrect cnt ↔ (∃ s k, b.FirstClear s ∧ k < 2147483648 ∧ b.RunInside cnt k ∧ (cnt = 1 ∨ k + cnt ≤ b.loopEnd s)) ∨
      (4294967296 ≤ 8 * b.btmpBytesLen ∧ (∃ s, b.FirstClear s) ∧ ∀ k, ¬ b.RunInside cnt k) := by
  rcases bitmapScan_opens b hlen cnt with ⟨s, reads, h, hreads, heq⟩ | ⟨herror, hset⟩
  · by_cases hone : cnt = 1
    · subst hone
      rw [if_pos rfl] at heq
      rw [single_correct h hreads heq]
      constructor
      · intro hlt
        exact .inl ⟨s, s, h, hlt, ⟨h.inside, h.single⟩, .inl rfl⟩
      · rintro (⟨_, k, -, hint, hk, -⟩ | ⟨-, -, hnone⟩)
        · have := h.first Nat.one_pos hk.2
          omega
        · exact absurd ⟨h.inside, h.single⟩ (hnone s)
    · rw [if_neg hone] at heq
      by_cases hsmall : 8 * b.btmpBytesLen < 4294967296
      · have hs := h.inside
        rw [Nat.mod_eq_of_lt (by omega), Nat.mod_eq_of_lt (by omega)] at heq
        rw [small_correct hsmall h (by omega) hreads heq]
        constructor
        · rintro ⟨k, hint, hk⟩
          have hk' := hk.1
          refine .inl ⟨s, k, h, hint, hk, .inr ?_⟩
          unfold loopEnd
          omega
        · rintro (⟨-, k, -, hint, hk, -⟩ | ⟨hlarge, -⟩)
          · exact ⟨k, hint, hk⟩
          · omega
      · rw [large_correct (by omega) h (by omega) hword hreads heq]
        constructor
        · rintro (⟨k, hint, hk, hend⟩ | hnone)
          · exact .inl ⟨s, k, h, hint, hk, .inr hend⟩
          · exact .inr ⟨by omega, ⟨s, h⟩, hnone⟩
        · rintro (⟨s', k, h', hint, hk, hend⟩ | ⟨-, -, hnone⟩)
          · obtain rfl := h.unique h'
            exact .inl ⟨k, hint, hk, hend.resolve_left hone⟩
          · exact .inr hnone
  · apply iff_of_false
    · rintro ⟨v, reads, hrun, -⟩
      rw [herror] at hrun
      cases hrun
    · rintro (⟨s, k, -, -, hk, -⟩ | ⟨-, ⟨s, h⟩, -⟩)
      · exact no_run_of_full hcnt hset hk
      · have := h.clear
        rw [hset s h.inside] at this
        cases this

end

def lastClear : Bitmap := ⟨1, fun i => if i = 0 then 127 else 0⟩

theorem bitmapScan_behind : ¬ ∀ (b : Bitmap) (cnt : ℕ), 0 < b.btmpBytesLen → 0 < cnt → b.ScanCorrect cnt := by
  intro h
  obtain ⟨v, reads, hrun, hreads, -⟩ := h lastClear 2 (by decide) (by decide)
  have hscan : lastClear.bitmapScan 2 [] = .ok (7, [1, 0, 0, 0, 0, 0, 0, 0, 0, 0]) := by decide
  rw [hscan] at hrun
  cases hrun
  exact absurd (hreads 1 (by simp)) (by decide)

theorem bitmapScan_correct_six : lastClear.set 6 false |>.ScanCorrect 2 := by
  apply (bitmapScan_correct _ 2 (by decide) (by decide) (by decide)).mpr
  refine .inl ⟨6, 6, ⟨by decide, by decide, ?_⟩, by decide, ⟨by decide, ?_⟩, .inr (by decide)⟩
  · intro j hj
    interval_cases j <;> decide
  · intro j hj
    interval_cases j <;> decide

end ElephantOS.Bitmap
