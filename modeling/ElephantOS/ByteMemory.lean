import Mathlib.Tactic

namespace ElephantOS.ByteMemory

abbrev Memory := ℕ → UInt8

def zeros : Memory := fun _ => 0

/-- `blit m off src n` overwrites `m[off .. off+n)` with the first `n` bytes of `src`. -/
def blit (m : Memory) (off : ℕ) (src : Memory) (n : ℕ) : Memory :=
  fun a => if off ≤ a ∧ a < off + n then src (a - off) else m a

def slice (m : Memory) (off : ℕ) : Memory := fun i => m (off + i)

/-- A list of bytes at address 0. -/
def ofList (l : List UInt8) : Memory := fun i => l.getD i 0

def SameOn (m m' : Memory) (a n : ℕ) : Prop := ∀ i, i < n → m' (a + i) = m (a + i)

def SameOff (S : Set ℕ) (m m' : Memory) : Prop := ∀ a, a ∉ S → m' a = m a

theorem blit_apply (m src : Memory) (off n a : ℕ) :
    blit m off src n a = if off ≤ a ∧ a < off + n then src (a - off) else m a := rfl

theorem blit_inside (m src : Memory) {off n a : ℕ} (h : a < n) : blit m off src n (off + a) = src a := by
  simp [blit, h]

theorem blit_outside (m src : Memory) {off n a : ℕ} (h : a < off ∨ off + n ≤ a) :
    blit m off src n a = m a := by
  have hn : ¬ (off ≤ a ∧ a < off + n) := by omega
  simp [blit, hn]

theorem blit_sameOn (m src : Memory) {off n a len : ℕ} (h : a + len ≤ off ∨ off + n ≤ a) :
    SameOn m (blit m off src n) a len := by
  intro i hi
  exact blit_outside m src (by omega)

theorem blit_congr {m src src' : Memory} {off n : ℕ} (h : ∀ i < n, src i = src' i) : blit m off src n = blit m off src' n := by
  funext a
  by_cases ha : off ≤ a ∧ a < off + n
  · simp only [blit, ha, and_self, if_true]
    exact h _ (by omega)
  · simp only [blit, ha, if_false]

theorem blit_append (m src : Memory) (off n n' : ℕ) :
    blit (blit m off src n) (off + n) (slice src n) n' = blit m off src (n + n') := by
  funext a
  by_cases h1 : off + n ≤ a ∧ a < off + n + n'
  · have h2 : off ≤ a ∧ a < off + (n + n') := by omega
    simp only [blit, h1, h2, and_self, if_true, slice]
    congr 1
    omega
  · by_cases h2 : off ≤ a ∧ a < off + n
    · have h3 : off ≤ a ∧ a < off + (n + n') := by omega
      simp only [blit, h1, h2, h3, and_self, if_true, if_false]
    · have h3 : ¬ (off ≤ a ∧ a < off + (n + n')) := by omega
      simp only [blit, h1, h2, h3, if_false]

theorem SameOn.refl (m : Memory) (a n : ℕ) : SameOn m m a n := fun _ _ => rfl

theorem SameOn.mono {m m' : Memory} {a n b k : ℕ} (h : SameOn m m' a n) (hab : a ≤ b)
    (hbk : b + k ≤ a + n) : SameOn m m' b k := by
  intro i hi
  have := h (b - a + i) (by omega)
  have he : a + (b - a + i) = b + i := by omega
  rwa [he] at this

theorem SameOff.refl (S : Set ℕ) (m : Memory) : SameOff S m m := fun _ _ => rfl

theorem SameOff.trans {S : Set ℕ} {m m' m'' : Memory} (h : SameOff S m m') (h' : SameOff S m' m'') :
    SameOff S m m'' := fun a ha => (h' a ha).trans (h a ha)

theorem SameOff.mono {S T : Set ℕ} {m m' : Memory} (h : SameOff S m m') (hst : S ⊆ T) : SameOff T m m' :=
  fun a ha => h a fun hs => ha (hst hs)

theorem blit_sameOff {S : Set ℕ} (m src : Memory) {off n : ℕ} (h : ∀ a, off ≤ a → a < off + n → a ∈ S) :
    SameOff S m (blit m off src n) := by
  intro a ha
  apply blit_outside
  by_contra hn
  exact ha (h a (by omega) (by omega))

def word (m : Memory) (a : ℕ) : ℕ :=
  (m a).toNat + 256 * (m (a + 1)).toNat + 65536 * (m (a + 2)).toNat + 16777216 * (m (a + 3)).toNat

def wordBytes (w : ℕ → ℕ) : Memory := fun i => UInt8.ofNat (w (i / 4) / 256 ^ (i % 4))

theorem word_lt (m : Memory) (a : ℕ) : word m a < 2 ^ 32 := by
  have h0 := (m a).toNat_lt
  have h1 := (m (a + 1)).toNat_lt
  have h2 := (m (a + 2)).toNat_lt
  have h3 := (m (a + 3)).toNat_lt
  unfold word
  omega

theorem word_congr {m m' : Memory} {a b : ℕ} (h : ∀ i, i < 4 → m' (b + i) = m (a + i)) :
    word m' b = word m a := by
  have h0 := h 0 (by omega)
  have h1 := h 1 (by omega)
  have h2 := h 2 (by omega)
  have h3 := h 3 (by omega)
  simp only [Nat.add_zero] at h0
  simp only [word, h0, h1, h2, h3]

theorem word_zeros (a : ℕ) : word zeros a = 0 := by simp [word, zeros]

theorem word_sameOn {m m' : Memory} {a n b : ℕ} (h : SameOn m m' a n) (hab : a ≤ b)
    (hb : b + 4 ≤ a + n) : word m' b = word m b :=
  word_congr (h.mono hab hb)

theorem word_blit_inside (m src : Memory) {off n a : ℕ} (h : a + 4 ≤ n) :
    word (blit m off src n) (off + a) = word src a := by
  apply word_congr
  intro i hi
  rw [Nat.add_assoc]
  exact blit_inside m src (by omega)

theorem word_blit_outside (m src : Memory) {off n a : ℕ} (h : a + 4 ≤ off ∨ off + n ≤ a) :
    word (blit m off src n) a = word m a :=
  word_congr (blit_sameOn m src h)

theorem wordBytes_at (w : ℕ → ℕ) (j i : ℕ) (hi : i < 4) :
    wordBytes w (4 * j + i) = UInt8.ofNat (w j / 256 ^ i) := by
  have hd : (4 * j + i) / 4 = j := by omega
  have hm : (4 * j + i) % 4 = i := by omega
  simp only [wordBytes, hd, hm]

theorem word_wordBytes (w : ℕ → ℕ) (j : ℕ) : word (wordBytes w) (4 * j) = w j % 2 ^ 32 := by
  have h0 := wordBytes_at w j 0 (by omega)
  have h1 := wordBytes_at w j 1 (by omega)
  have h2 := wordBytes_at w j 2 (by omega)
  have h3 := wordBytes_at w j 3 (by omega)
  simp only [Nat.add_zero] at h0
  simp only [word, h0, h1, h2, h3, UInt8.toNat_ofNat']
  omega

end ElephantOS.ByteMemory
