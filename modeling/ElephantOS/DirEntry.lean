import ElephantOS.Inode

namespace ElephantOS

open ByteMemory HaltingState

/-- `enum file_types` as it is stored in a 32-bit word. -/
inductive FileType | unknown | regular | directory | other (w : ℕ)
  deriving DecidableEq

namespace FileType

def ofWord : ℕ → FileType
  | 0 => unknown
  | 1 => regular
  | 2 => directory
  | w + 3 => other w

def toWord : FileType → ℕ
  | unknown => 0
  | regular => 1
  | directory => 2
  | other w => w + 3

theorem ofWord_toWord (t : FileType) : ofWord t.toWord = t := by
  cases t <;> rfl

end FileType

/-- The bytes of a C string, without the terminating NUL. -/
abbrev Name := List UInt8

structure DirEntry where
  filename : Memory
  iNo : ℕ
  fType : FileType

namespace DirEntry

def zero : DirEntry := ⟨zeros, 0, .unknown⟩

/-- The 24 bytes of an entry. -/
def bytes (e : DirEntry) : Memory := fun i =>
  if i < 16 then e.filename i
  else if i < 20 then wordBytes (fun _ => e.iNo) (i - 16)
  else wordBytes (fun _ => e.fType.toWord) (i - 20)

def load (m : Memory) (a : ℕ) : DirEntry := ⟨slice m a, word m (a + 16), FileType.ofWord (word m (a + 20))⟩

end DirEntry

def sameString (m : Memory) : ℕ → Name → Bool
  | a, [] => m a == 0
  | a, c :: cs => m a == c && sameString m (a + 1) cs

def nameBytes (name : Name) : Memory := ofList name

def dot : Name := [46]
def dotDot : Name := [46, 46]

def maxFileNameLen : ℕ := 16

def createDirEntry {σ : Type} (filename : Name) (inodeNo : ℕ) (fileType : FileType) : Exec Halt σ DirEntry := do
  assert (filename.length ≤ maxFileNameLen)
  return ⟨nameBytes filename, inodeNo, fileType⟩

def nameFrom (m : Memory) : ℕ → ℕ → Name
  | 0, _ => []
  | n + 1, a => if m a = 0 then [] else m a :: nameFrom m n (a + 1)

/-- A directory entry as its name, its inode number and its type. -/
structure Entry where
  name : Name
  iNo : ℕ
  fType : FileType
  deriving DecidableEq

def nameAt (m : Memory) (a : ℕ) : Name := nameFrom m maxFileNameLen a

def entryAt (m : Memory) (a : ℕ) : Entry := ⟨nameAt m a, word m (a + 16), FileType.ofWord (word m (a + 20))⟩

theorem nameFrom_congr {m m' : Memory} {n a b : ℕ} (h : ∀ i < n, m' (b + i) = m (a + i)) :
    nameFrom m' n b = nameFrom m n a := by
  induction n generalizing a b with
  | zero => rfl
  | succ n ih =>
    have h0 := h 0 (by omega)
    have hs : nameFrom m' n (b + 1) = nameFrom m n (a + 1) := by
      apply ih
      intro i hi
      have := h (i + 1) (by omega)
      rwa [Nat.add_comm i 1, ← Nat.add_assoc, ← Nat.add_assoc] at this
    simp only [Nat.add_zero] at h0
    simp only [nameFrom, h0, hs]

theorem zero_notMem_nameFrom (m : Memory) (n a : ℕ) : (0 : UInt8) ∉ nameFrom m n a := by
  induction n generalizing a with
  | zero => simp [nameFrom]
  | succ n ih =>
    unfold nameFrom
    split_ifs with h
    · simp
    · simp [Ne.symm h, ih (a + 1)]

theorem sameString_iff {m : Memory} {n a : ℕ} {name : Name} (h0 : 0 ∉ name) (ht : (nameFrom m n a).length < n) :
    sameString m a name = true ↔ nameFrom m n a = name := by
  induction n generalizing a name with
  | zero => exact absurd ht (Nat.not_lt_zero _)
  | succ n ih =>
    unfold nameFrom at ht ⊢
    cases name with
    | nil => by_cases hm : m a = 0 <;> simp [sameString, hm]
    | cons c cs =>
      rw [List.mem_cons, not_or] at h0
      by_cases hm : m a = 0
      · simp [sameString, hm, h0.1]
      · rw [if_neg hm, List.length_cons] at ht
        have hs := ih h0.2 (show (nameFrom m n (a + 1)).length < n by omega)
        simp [sameString, hm, hs]

theorem sameString_congr {m m' : Memory} {a b : ℕ} {name : Name} (h : ∀ i ≤ name.length, m' (b + i) = m (a + i)) :
    sameString m' b name = sameString m a name := by
  induction name generalizing a b with
  | nil => simp only [sameString, show m' b = m a from h 0 (le_refl _)]
  | cons c cs ih =>
    have h0 : m' b = m a := h 0 (Nat.zero_le _)
    have hs : sameString m' (b + 1) cs = sameString m (a + 1) cs := by
      apply ih
      intro i hi
      have := h (i + 1) (by simp only [List.length_cons]; omega)
      rwa [Nat.add_comm i 1, ← Nat.add_assoc, ← Nat.add_assoc] at this
    simp only [sameString, h0, hs]

theorem nameFrom_ofList {m : Memory} {n a : ℕ} {name : Name} (h0 : 0 ∉ name) (hn : name.length ≤ n)
    (h : ∀ i < n, m (a + i) = ofList name i) : nameFrom m n a = name := by
  induction n generalizing a name with
  | zero => rw [List.length_eq_zero_iff.mp (by omega : name.length = 0)]; rfl
  | succ n ih =>
    have ha := h 0 (by omega)
    rw [Nat.add_zero] at ha
    cases name with
    | nil => simp [nameFrom, ha, ofList]
    | cons c cs =>
      rw [List.mem_cons, not_or] at h0
      have hs : nameFrom m n (a + 1) = cs := by
        apply ih h0.2 (by simpa using hn)
        intro i hi
        rw [Nat.add_assoc, Nat.add_comm 1 i, h (i + 1) (by omega)]
        simp [ofList]
      have hc : m a = c := by simpa [ofList] using ha
      simp [nameFrom, hc, hs, Ne.symm h0.1]

theorem entryAt_congr {m m' : Memory} {a b : ℕ} (h : ∀ i < 24, m' (b + i) = m (a + i)) : entryAt m' b = entryAt m a := by
  have hw : ∀ o, o + 4 ≤ 24 → word m' (b + o) = word m (a + o) := by
    intro o ho
    apply word_congr
    intro i hi
    rw [Nat.add_assoc, Nat.add_assoc]
    exact h (o + i) (by omega)
  have hn : nameAt m' b = nameAt m a := nameFrom_congr fun i hi => h i (by simp only [maxFileNameLen] at hi; omega)
  simp only [entryAt, hn, hw 16 (by omega), hw 20 (by omega)]

theorem word_bytes {m : Memory} {a o n : ℕ} (hn : n < 2 ^ 32) (h : ∀ i < 4, m (a + o + i) = wordBytes (fun _ => n) i) :
    word m (a + o) = n := by
  have hword : word m (a + o) = word (wordBytes fun _ => n) (4 * 0) := by
    apply word_congr
    intro i hi
    rw [h i hi, Nat.mul_zero, Nat.zero_add]
  rw [hword, word_wordBytes, Nat.mod_eq_of_lt hn]

theorem entryAt_stored {m : Memory} {a : ℕ} {e : DirEntry} (hn : e.iNo < 2 ^ 32) (ht : e.fType.toWord < 2 ^ 32)
    (h : ∀ i < 24, m (a + i) = e.bytes i) : (entryAt m a).iNo = e.iNo ∧ (entryAt m a).fType = e.fType := by
  have h16 : word m (a + 16) = e.iNo := by
    apply word_bytes hn
    intro i hi
    rw [Nat.add_assoc, h (16 + i) (by omega), DirEntry.bytes, if_neg (by omega), if_pos (by omega), Nat.add_sub_cancel_left]
  have h20 : word m (a + 20) = e.fType.toWord := by
    apply word_bytes ht
    intro i hi
    rw [Nat.add_assoc, h (20 + i) (by omega), DirEntry.bytes, if_neg (by omega), if_neg (by omega), Nat.add_sub_cancel_left]
  simp only [entryAt, h16, h20, FileType.ofWord_toWord, and_self]

theorem entryAt_bytes {m : Memory} {a n : ℕ} {name : Name} {t : FileType} (h0 : 0 ∉ name) (hl : name.length < 16)
    (hn : n < 2 ^ 32) (ht : t.toWord < 2 ^ 32) (h : ∀ i < 24, m (a + i) = (DirEntry.mk (nameBytes name) n t).bytes i) :
    entryAt m a = ⟨name, n, t⟩ := by
  obtain ⟨hino, htype⟩ := entryAt_stored hn ht h
  have hname : nameAt m a = name := by
    apply nameFrom_ofList h0 (by simp only [maxFileNameLen]; omega)
    intro i hi
    simp only [maxFileNameLen] at hi
    rw [h i (by omega), DirEntry.bytes, if_pos hi]
    rfl
  simp only [entryAt, Entry.mk.injEq] at hino htype ⊢
  exact ⟨hname, hino, htype⟩

theorem entryAt_zeros {m : Memory} {a : ℕ} (h : ∀ i < 24, m (a + i) = 0) : entryAt m a = ⟨[], 0, .unknown⟩ := by
  have hw : ∀ o, o + 4 ≤ 24 → word m (a + o) = 0 := by
    intro o ho
    rw [← word_zeros 0]
    apply word_congr
    intro i hi
    rw [Nat.add_assoc]
    exact h (o + i) (by omega)
  have h0 := h 0 (by omega)
  rw [Nat.add_zero] at h0
  have hn : nameAt m a = [] := by
    unfold nameAt maxFileNameLen nameFrom
    exact if_pos h0
  simp only [entryAt, hn, hw 16 (by omega), hw 20 (by omega)]
  rfl

end ElephantOS
