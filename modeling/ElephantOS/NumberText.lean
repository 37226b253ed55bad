import ElephantOS.FormattedOutput

namespace ElephantOS.FormattedOutput

open ByteMemory HaltingState

/-- The digits of `n` in `base`, most significant first: none is missing and none leads in vain. -/
structure IsDigits (base n : ℕ) (ds : List ℕ) : Prop where
  small : ∀ m ∈ ds, m < base
  value : Nat.ofDigits base ds.reverse = n
  leading : ds = [0] ∨ ∃ m rest, ds = m :: rest ∧ m ≠ 0

theorem IsDigits.unique {base n : ℕ} {ds ds' : List ℕ} (hbase : 2 ≤ base) (h : IsDigits base n ds) (h' : IsDigits base n ds') : ds = ds' := by
  have hzero : ∀ {l : List ℕ}, IsDigits base n l → l ≠ [0] → l = (Nat.digits base n).reverse := by
    intro l hl hne
    obtain ⟨m, rest, rfl, hm⟩ := hl.leading.resolve_left hne
    rw [← hl.value, Nat.digits_ofDigits base hbase, List.reverse_reverse]
    · intro x hx
      exact hl.small x (List.mem_reverse.mp hx)
    · intro hnil
      simpa using hm
  have hval : ∀ {l : List ℕ}, IsDigits base n l → l = [0] → n = 0 := by
    intro l hl hl0
    rw [← hl.value, hl0]
    exact Nat.ofDigits_singleton
  have hdigits : n = 0 → ∀ {l : List ℕ}, IsDigits base n l → l = [0] := by
    intro hn l hl
    by_contra hne
    obtain ⟨m, rest, rfl, hm⟩ := hl.leading.resolve_left hne
    have := hzero hl hne
    rw [hn, Nat.digits_zero] at this
    cases this
  by_cases hn : n = 0
  · rw [hdigits hn h, hdigits hn h']
  · rw [hzero h fun h0 => hn (hval h h0), hzero h' fun h0 => hn (hval h' h0)]

def digitValue (c : UInt8) : Option ℕ :=
  if 48 ≤ c ∧ c ≤ 57 then some (c.toNat - 48) else if 65 ≤ c ∧ c ≤ 70 then some (c.toNat - 55) else none

def readDigits (base : ℕ) : ℕ → List UInt8 → Option ℕ
  | acc, [] => some acc
  | acc, c :: cs => do
    let m ← digitValue c
    if m < base then readDigits base (base * acc + m) cs else none

def readNumeral (base : ℕ) (text : List UInt8) : Option ℕ := if text = [] then none else readDigits base 0 text

theorem digitValue_digitChar : ∀ m < 16, digitValue (digitChar m) = some m := by decide

theorem readDigits_map {base acc : ℕ} {ds : List ℕ} (h16 : base ≤ 16) (h : ∀ m ∈ ds, m < base) :
    readDigits base acc (ds.map digitChar) = some (ds.foldl (fun a m => base * a + m) acc) := by
  induction ds generalizing acc with
  | nil => rfl
  | cons m ds ih =>
    have hm := h m (List.mem_cons_self ..)
    rw [List.map_cons, readDigits, digitValue_digitChar m (by omega), Option.bind_eq_bind, Option.bind_some, if_pos hm, List.foldl_cons]
    exact ih fun x hx => h x (List.mem_cons_of_mem _ hx)

theorem IsDigits.ne_nil {base n : ℕ} {ds : List ℕ} (h : IsDigits base n ds) : ds ≠ [] := by
  rcases h.leading with rfl | ⟨m, rest, rfl, -⟩
  · simp
  · simp

theorem IsDigits.read {base n : ℕ} {ds : List ℕ} (h16 : base ≤ 16) (h : IsDigits base n ds) : readNumeral base (ds.map digitChar) = some n := by
  have hvalue : ds.foldl (fun a m => base * a + m) 0 = n := by
    rw [← h.value, Nat.ofDigits_eq_foldr, List.foldr_reverse]
    congr 1
    funext a m
    exact Nat.add_comm _ _
  unfold readNumeral
  rw [if_neg, readDigits_map h16 h.small, hvalue]
  intro hnil
  exact h.ne_nil (List.map_eq_nil_iff.mp hnil)

end ElephantOS.FormattedOutput
