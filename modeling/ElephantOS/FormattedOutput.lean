import ElephantOS.Bitmap
import ElephantOS.PageWalk

/-! `lib/stdio.c`: `vsprintf` and `itoa`, into a buffer with any contents. -/

namespace ElephantOS.FormattedOutput

open ByteMemory HaltingState

/-- The buffer, with the offset `buf_ptr - str`. -/
structure Dest where
  bytes : Memory
  bufPtr : ℕ

abbrev OutM := Exec Halt Dest

/-- What `va_arg` finds on the stack. -/
inductive Arg
  | str (s : List UInt8)
  | char (c : UInt8)
  | int (n : BitVec 32)

section

variable (len : ℕ)

/-- `*(buf_ptr++) = c` in a buffer of `len` bytes. -/
def putc (c : UInt8) : OutM Unit := do
  let s ← get
  if s.bufPtr < len then set (⟨Function.update s.bytes s.bufPtr c, s.bufPtr + 1⟩ : Dest)
  else halt .wild

/-- `strcpy` to `buf_ptr`, which then moves past the string but not past its terminator. -/
def copyString (s : List UInt8) : OutM Unit := do
  let d ← get
  if d.bufPtr + s.length < len then set (⟨blit d.bytes d.bufPtr (ofList s) (s.length + 1), d.bufPtr + s.length⟩ : Dest)
  else halt .wild

def digitChar (m : ℕ) : UInt8 := if m < 10 then UInt8.ofNat (m + 48) else UInt8.ofNat (m - 10 + 65)

/-- For the bases 10 and 16. -/
def itoa (base : ℕ) (hbase : 2 ≤ base) (value : ℕ) : OutM Unit :=
  if value / base = 0 then putc len (digitChar (value % base))
  else do
    itoa base hbase (value / base)
    putc len (digitChar (value % base))
termination_by value
decreasing_by
  apply Nat.div_lt_self _ hbase
  by_contra hzero
  simp_all

/-- `%d`: the sign is written apart; the least number is its own opposite. -/
def putInt (n : BitVec 32) : OutM Unit :=
  if n.toInt < 0 then do
    putc len 45
    itoa len 10 (by decide) (-n).toNat
  else itoa len 10 (by decide) n.toNat

/-- The loop over the format; a `%` before any other character is skipped. -/
def vsprintfLoop : List UInt8 → List Arg → OutM Unit
  | [], _ => pure ()
  | indexChar :: rest, args =>
    if indexChar ≠ 37 then do
      putc len indexChar
      vsprintfLoop rest args
    else
      match rest, args with
      | [], _ => pure ()
      | 115 :: rest, .str s :: args => do
        copyString len s
        vsprintfLoop rest args
      | 99 :: rest, .char c :: args => do
        putc len c
        vsprintfLoop rest args
      | 100 :: rest, .int n :: args => do
        putInt len n
        vsprintfLoop rest args
      | 120 :: rest, .int n :: args => do
        itoa len 16 (by decide) n.toNat
        vsprintfLoop rest args
      | c :: rest, args =>
        -- no such argument, or no case of the switch
        if c = 115 ∨ c = 99 ∨ c = 100 ∨ c = 120 then halt .wild else vsprintfLoop (c :: rest) args

/-- From `p` on; there is no string that the buffer does not end. -/
def strlen (m : Memory) : ℕ → ℕ → Except Halt ℕ
  | 0, _ => .error .wild
  | left + 1, p => if m p = 0 then .ok p else strlen m left (p + 1)

def vsprintf (format : List UInt8) (args : List Arg) (m : Memory) : Except Halt (ℕ × Memory) := do
  let (_, d) ← vsprintfLoop len format args ⟨m, 0⟩
  let n ← strlen d.bytes len 0
  return (n, d.bytes)

end

def numeral (base n : ℕ) : List UInt8 := if n = 0 then [48] else (Nat.digits base n).reverse.map digitChar

def intText (n : ℤ) : List UInt8 := if n < 0 then 45 :: numeral 10 n.natAbs else numeral 10 n.natAbs

/-- An ordinary character or a directive with its argument. -/
inductive Piece
  | char (c : UInt8) (h : c ≠ 0 ∧ c ≠ 37)
  | str (s : List UInt8) (h : 0 ∉ s)
  | argChar (c : UInt8) (h : c ≠ 0)
  | decimal (n : BitVec 32)
  | hex (n : BitVec 32)

namespace Piece

def format : Piece → List UInt8
  | char c _ => [c]
  | str _ _ => [37, 115]
  | argChar _ _ => [37, 99]
  | decimal _ => [37, 100]
  | hex _ => [37, 120]

def args : Piece → List Arg
  | char _ _ => []
  | str s _ => [.str s]
  | argChar c _ => [.char c]
  | decimal n => [.int n]
  | hex n => [.int n]

def text : Piece → List UInt8
  | char c _ => [c]
  | str s _ => s
  | argChar c _ => [c]
  | decimal n => intText n.toInt
  | hex n => numeral 16 n.toNat

def isStr : Piece → Bool
  | str _ _ => true
  | _ => false

end Piece

namespace Dest

def put (d : Dest) (t : List UInt8) : Dest := ⟨blit d.bytes d.bufPtr (ofList t) t.length, d.bufPtr + t.length⟩

def piece (d : Dest) (p : Piece) : Dest :=
  if p.isStr then ⟨blit d.bytes d.bufPtr (ofList p.text) (p.text.length + 1), d.bufPtr + p.text.length⟩ else d.put p.text

theorem put_append (d : Dest) (s t : List UInt8) : (d.put s).put t = d.put (s ++ t) := by
  unfold put
  simp only [List.length_append, mk.injEq]
  refine ⟨?_, by omega⟩
  rw [← blit_append]
  have hslice : ∀ i < t.length, ofList t i = slice (ofList (s ++ t)) s.length i := by
    intro i _
    simp [ofList, slice, List.getElem?_append_right]
  have hfirst : ∀ i < s.length, ofList s i = ofList (s ++ t) i := by
    intro i hi
    simp [ofList, List.getElem?_append_left hi]
  rw [blit_congr hslice, blit_congr hfirst]

end Dest

section

variable {len : ℕ} {d : Dest}

theorem putc_ok {c : UInt8} (h : d.bufPtr < len) : putc len c d = .ok ((), d.put [c]) := by
  refine (bind_ok _ _ _ _).mpr ⟨d, d, rfl, ?_⟩
  rw [if_pos h]
  have hput : d.put [c] = ⟨Function.update d.bytes d.bufPtr c, d.bufPtr + 1⟩ := by
    unfold Dest.put
    congr 1
    funext a
    rw [blit_apply, Function.update_apply]
    by_cases ha : a = d.bufPtr
    · rw [if_pos (by simp; omega), if_pos ha, ha]
      simp [ofList]
    · rw [if_neg (by simp; omega), if_neg ha]
  rw [hput]
  rfl

theorem numeral_one {base value : ℕ} (hbase : 2 ≤ base) (h : value / base = 0) : numeral base value = [digitChar (value % base)] := by
  have hlt : value < base := by
    rcases Nat.div_eq_zero_iff.mp h with h | h
    · omega
    · exact h
  unfold numeral
  by_cases hzero : value = 0
  · rw [if_pos hzero, hzero]
    simp [digitChar]
  · rw [if_neg hzero, Nat.digits_of_lt base value hzero hlt, Nat.mod_eq_of_lt hlt]
    rfl

theorem numeral_more {base value : ℕ} (hbase : 2 ≤ base) (h : value / base ≠ 0) :
    numeral base value = numeral base (value / base) ++ [digitChar (value % base)] := by
  have hpos : 0 < value := by
    by_contra hzero
    simp_all
  unfold numeral
  rw [if_neg (by omega), if_neg h, Nat.digits_def' hbase hpos]
  simp

theorem itoa_ok {base : ℕ} (hbase : 2 ≤ base) (value : ℕ) (h : d.bufPtr + (numeral base value).length ≤ len) :
    itoa len base hbase value d = .ok ((), d.put (numeral base value)) := by
  induction value using Nat.strong_induction_on with
  | _ value ih =>
    rw [itoa]
    by_cases hone : value / base = 0
    · rw [numeral_one hbase hone] at h ⊢
      rw [if_pos hone]
      exact putc_ok h
    · have hlt : value / base < value := by
        apply Nat.div_lt_self _ hbase
        by_contra hzero
        simp_all
      rw [numeral_more hbase hone, List.length_append, List.length_singleton] at h
      rw [if_neg hone, numeral_more hbase hone, ← Dest.put_append]
      exact (bind_ok _ _ _ _).mpr ⟨(), _, ih _ hlt (by omega), putc_ok (by simp [Dest.put]; omega)⟩

theorem putInt_ok (n : BitVec 32) (h : d.bufPtr + (intText n.toInt).length ≤ len) : putInt len n d = .ok ((), d.put (intText n.toInt)) := by
  unfold putInt
  unfold intText at h ⊢
  split_ifs at h ⊢ with hneg
  · have habs : (-n).toNat = n.toInt.natAbs := by
      have hlt := n.isLt
      rw [BitVec.toInt_eq_toNat_cond] at hneg ⊢
      rw [BitVec.toNat_neg]
      split_ifs at hneg ⊢ <;> omega
    rw [List.length_cons] at h
    rw [habs]
    have hsign : d.put (45 :: numeral 10 n.toInt.natAbs) = (d.put [45]).put (numeral 10 n.toInt.natAbs) := by
      rw [Dest.put_append]
      rfl
    rw [hsign]
    exact (bind_ok _ _ _ _).mpr ⟨(), _, putc_ok (by omega), itoa_ok (by decide) _ (by simp [Dest.put]; omega)⟩
  · have habs : n.toNat = n.toInt.natAbs := by
      have hlt := n.isLt
      rw [BitVec.toInt_eq_toNat_cond] at hneg ⊢
      split_ifs at hneg ⊢ <;> omega
    rw [habs]
    exact itoa_ok (by decide) _ h

theorem copyString_ok {s : List UInt8} (h0 : 0 ∉ s) (h : d.bufPtr + s.length < len) : copyString len s d = .ok ((), d.piece (.str s h0)) := by
  refine (bind_ok _ _ _ _).mpr ⟨d, d, rfl, ?_⟩
  rw [if_pos h]
  rfl

theorem vsprintfLoop_piece (p : Piece) (format : List UInt8) (args : List Arg) (h : d.bufPtr + p.text.length < len) :
    vsprintfLoop len (p.format ++ format) (p.args ++ args) d = vsprintfLoop len format args (d.piece p) := by
  cases p with
  | char c hc =>
    change vsprintfLoop len (c :: format) args d = _
    rw [vsprintfLoop.eq_def]
    simp only [if_pos hc.2]
    exact bind_eq (putc_ok (by exact Nat.lt_of_le_of_lt (Nat.le_add_right _ _) h)) _
  | str s hs =>
    change vsprintfLoop len (37 :: 115 :: format) (.str s :: args) d = _
    rw [vsprintfLoop, if_neg (by simp)]
    exact bind_eq (copyString_ok hs h) _
  | argChar c hc =>
    change vsprintfLoop len (37 :: 99 :: format) (.char c :: args) d = _
    rw [vsprintfLoop, if_neg (by simp)]
    exact bind_eq (putc_ok (by exact Nat.lt_of_le_of_lt (Nat.le_add_right _ _) h)) _
  | decimal n =>
    change vsprintfLoop len (37 :: 100 :: format) (.int n :: args) d = _
    rw [vsprintfLoop, if_neg (by simp)]
    exact bind_eq (putInt_ok n h.le) _
  | hex n =>
    change vsprintfLoop len (37 :: 120 :: format) (.int n :: args) d = _
    rw [vsprintfLoop, if_neg (by simp)]
    exact bind_eq (itoa_ok (by decide) n.toNat h.le) _

theorem piece_ptr (d : Dest) (p : Piece) : (d.piece p).bufPtr = d.bufPtr + p.text.length := by
  unfold Dest.piece
  split_ifs <;> rfl

theorem vsprintfLoop_ok (ps : List Piece) (h : d.bufPtr + (ps.flatMap Piece.text).length < len) :
    vsprintfLoop len (ps.flatMap Piece.format) (ps.flatMap Piece.args) d = .ok ((), ps.foldl Dest.piece d) := by
  induction ps generalizing d with
  | nil => rfl
  | cons p ps ih =>
    simp only [List.flatMap_cons, List.length_append] at h ⊢
    rw [vsprintfLoop_piece p _ _ (by omega), List.foldl_cons]
    exact ih (by rw [piece_ptr]; omega)

end

/-- The text ends with a string argument. -/
def endsWithStr (ps : List Piece) : Bool := ps.getLast?.any Piece.isStr

section

variable {d : Dest}

theorem numeral_ne_nil {base n : ℕ} : numeral base n ≠ [] := by
  unfold numeral
  split_ifs with h
  · simp
  · simp [Nat.digits_ne_nil_iff_ne_zero.mpr h]

theorem text_ne_nil {p : Piece} (h : p.isStr = false) : p.text ≠ [] := by
  cases p with
  | char c _ => simp [Piece.text]
  | str s _ => cases h
  | argChar c _ => simp [Piece.text]
  | decimal n =>
    change intText n.toInt ≠ []
    unfold intText
    split_ifs
    · simp
    · exact numeral_ne_nil
  | hex n => exact numeral_ne_nil

theorem endsWithStr_of_empty {ps : List Piece} (hne : ps ≠ []) (h : ps.flatMap Piece.text = []) : endsWithStr ps = true := by
  have hlast := List.getLast_mem hne
  unfold endsWithStr
  rw [List.getLast?_eq_some_getLast hne, Option.any_some]
  by_contra hstr
  exact text_ne_nil (by simpa using hstr) (List.flatMap_eq_nil_iff.mp h _ hlast)

theorem piece_bytes (d : Dest) (p : Piece) (a : ℕ) : (d.piece p).bytes a =
    if d.bufPtr ≤ a ∧ a < d.bufPtr + p.text.length then ofList p.text (a - d.bufPtr)
    else if a = d.bufPtr + p.text.length ∧ p.isStr = true then 0 else d.bytes a := by
  unfold Dest.piece Dest.put
  cases hstr : p.isStr with
  | true =>
    simp only [if_true, and_true, blit_apply]
    by_cases ha : a = d.bufPtr + p.text.length
    · rw [if_pos (by omega), if_neg (by omega), if_pos ha, ha]
      simp [ofList]
    · rw [if_neg ha]
      congr 1
      rw [eq_iff_iff]
      omega
  | false => simp [blit_apply]

theorem foldl_piece (ps : List Piece) (d : Dest) (a : ℕ) : (ps.foldl Dest.piece d).bytes a =
    if d.bufPtr ≤ a ∧ a < d.bufPtr + (ps.flatMap Piece.text).length then ofList (ps.flatMap Piece.text) (a - d.bufPtr)
    else if a = d.bufPtr + (ps.flatMap Piece.text).length ∧ endsWithStr ps = true then 0 else d.bytes a := by
  induction ps generalizing d with
  | nil => simp [endsWithStr]
  | cons p ps ih =>
    rw [List.foldl_cons, ih, piece_ptr, piece_bytes, List.flatMap_cons, List.length_append]
    have hofList : ∀ i, ofList (p.text ++ ps.flatMap Piece.text) i =
        if i < p.text.length then ofList p.text i else ofList (ps.flatMap Piece.text) (i - p.text.length) := by
      intro i
      split_ifs with hi
      · simp [ofList, List.getElem?_append_left hi]
      · simp [ofList, List.getElem?_append_right (Nat.le_of_not_lt hi)]
    rw [hofList, ← Nat.add_assoc]
    by_cases hnil : ps = []
    · subst hnil
      have hends : endsWithStr [p] = p.isStr := rfl
      have hnone : endsWithStr [] = false := rfl
      have hrange : ¬ (d.bufPtr + p.text.length ≤ a ∧ a < d.bufPtr + p.text.length) := by omega
      simp only [List.flatMap_nil, List.length_nil, hnone, hrange, if_false, hends, Nat.add_zero, Bool.false_eq_true, and_false]
      split_ifs <;> first | rfl | omega
    · have hends : endsWithStr (p :: ps) = endsWithStr ps := by
        unfold endsWithStr
        rw [List.getLast?_cons_of_ne_nil hnil]
      have hrest : endsWithStr ps = true ∨ 0 < (ps.flatMap Piece.text).length := by
        rw [List.length_pos_iff]
        by_cases hempty : ps.flatMap Piece.text = []
        · exact .inl (endsWithStr_of_empty hnil hempty)
        · exact .inr hempty
      rw [hends]
      -- the terminator of a string before the last piece is written over
      by_cases hin : d.bufPtr + p.text.length ≤ a ∧ a < d.bufPtr + p.text.length + (ps.flatMap Piece.text).length
      · rw [if_pos hin, if_pos (by omega), if_neg (by omega)]
        congr 1
        omega
      · rw [if_neg hin]
        by_cases hend : a = d.bufPtr + p.text.length + (ps.flatMap Piece.text).length ∧ endsWithStr ps = true
        · rw [if_pos hend, if_neg (by omega), if_pos ⟨by omega, hend.2⟩]
        · rw [if_neg hend]
          by_cases htext : d.bufPtr ≤ a ∧ a < d.bufPtr + p.text.length
          · rw [if_pos htext, if_pos (by omega), if_pos (by omega)]
          · have hnot : ¬ (a = d.bufPtr + p.text.length ∧ p.isStr = true) := by
              rintro ⟨ha, -⟩
              rcases hrest with hstr | hpos
              · exact hend ⟨by omega, hstr⟩
              · omega
            rw [if_neg htext, if_neg hnot, if_neg (by omega), if_neg hend]

theorem strlen_ok {m : Memory} {left p n : ℕ} (hp : p ≤ n) (hn : n < p + left) (hzero : m n = 0) (hbefore : ∀ i, p ≤ i → i < n → m i ≠ 0) :
    strlen m left p = .ok n := by
  induction left generalizing p with
  | zero => omega
  | succ left ih =>
    rw [strlen]
    by_cases he : p = n
    · rw [if_pos (by rw [he]; exact hzero), he]
    · rw [if_neg (hbefore p (le_refl _) (by omega))]
      exact ih (by omega) (by omega) fun i hi => hbefore i (by omega)

theorem digitChar_ne_zero : ∀ m < 16, digitChar m ≠ 0 := by decide

theorem zero_notMem_numeral {base n : ℕ} (hbase : 2 ≤ base) (h16 : base ≤ 16) : 0 ∉ numeral base n := by
  unfold numeral
  split_ifs
  · decide
  · intro hmem
    obtain ⟨m, hm, hzero⟩ := List.mem_map.mp hmem
    have hlt := Nat.digits_lt_base hbase (List.mem_reverse.mp hm)
    exact digitChar_ne_zero m (by omega) hzero

theorem zero_notMem_text (p : Piece) : 0 ∉ p.text := by
  cases p with
  | char c h => simpa [Piece.text] using h.1.symm
  | str s h => exact h
  | argChar c h => simpa [Piece.text] using h.symm
  | decimal n =>
    change 0 ∉ intText n.toInt
    unfold intText
    have hnumeral := @zero_notMem_numeral 10 n.toInt.natAbs (by decide) (by decide)
    split_ifs
    · rw [List.mem_cons, not_or]
      exact ⟨by decide, hnumeral⟩
    · exact hnumeral
  | hex n => exact zero_notMem_numeral (by decide) (by decide)

theorem ofList_ne_zero {t : List UInt8} (h : 0 ∉ t) {i : ℕ} (hi : i < t.length) : ofList t i ≠ 0 := by
  intro hzero
  apply h
  rw [← hzero]
  simp [ofList, hi]

end

/-- The text of the pieces. -/
def formatted (ps : List Piece) : List UInt8 := ps.flatMap Piece.text

/-- The buffer holds the text with its terminator, and its length is returned. -/
def Formats (len : ℕ) (ps : List Piece) (m : Memory) : Prop := ∃ m',
  vsprintf len (ps.flatMap Piece.format) (ps.flatMap Piece.args) m = .ok ((formatted ps).length, m') ∧
    (∀ i < (formatted ps).length, m' i = ofList (formatted ps) i) ∧ m' (formatted ps).length = 0

theorem vsprintf_bytes {len : ℕ} {ps : List Piece} {m m' : Memory} {n : ℕ} (h : (formatted ps).length < len)
    (hrun : vsprintf len (ps.flatMap Piece.format) (ps.flatMap Piece.args) m = .ok (n, m')) : m' = (ps.foldl Dest.piece ⟨m, 0⟩).bytes := by
  unfold vsprintf at hrun
  rw [vsprintfLoop_ok ps (by simpa [formatted] using h)] at hrun
  change (strlen (ps.foldl Dest.piece ⟨m, 0⟩).bytes len 0 >>= fun n => pure (n, (ps.foldl Dest.piece ⟨m, 0⟩).bytes)) = _ at hrun
  cases hlen : strlen (ps.foldl Dest.piece ⟨m, 0⟩).bytes len 0 with
  | error e =>
    rw [hlen] at hrun
    cases hrun
  | ok n' =>
    rw [hlen] at hrun
    cases hrun
    rfl

theorem terminator (ps : List Piece) (m : Memory) : (ps.foldl Dest.piece ⟨m, 0⟩).bytes (formatted ps).length =
    if endsWithStr ps = true then 0 else m (formatted ps).length := by
  rw [foldl_piece]
  simp [formatted]

theorem Formats.condition {len : ℕ} {ps : List Piece} {m : Memory} (h : (formatted ps).length < len) (hf : Formats len ps m) :
    endsWithStr ps = true ∨ m (formatted ps).length = 0 := by
  obtain ⟨m', hrun, -, hzero⟩ := hf
  rw [vsprintf_bytes h hrun, terminator] at hzero
  split_ifs at hzero with hends
  · exact .inl hends
  · exact .inr hzero

/-- `vsprintf` leaves a proper string exactly when the text ends with a string argument or the buffer held a zero at its end. -/
theorem vsprintf_formats (len : ℕ) (ps : List Piece) (m : Memory) (h : (formatted ps).length < len) :
    Formats len ps m ↔ endsWithStr ps = true ∨ m (formatted ps).length = 0 := by
  constructor
  · exact Formats.condition h
  · intro hcond
    have hzero : (ps.foldl Dest.piece ⟨m, 0⟩).bytes (formatted ps).length = 0 := by
      rw [terminator]
      rcases hcond with hends | hm
      · rw [if_pos hends]
      · rw [hm, ite_self]
    have htext : ∀ i < (formatted ps).length, (ps.foldl Dest.piece ⟨m, 0⟩).bytes i = ofList (formatted ps) i := by
      intro i hi
      rw [foldl_piece, Nat.zero_add, if_pos ⟨Nat.zero_le i, hi⟩]
      rfl
    have hnone : 0 ∉ formatted ps := by
      unfold formatted
      rw [List.mem_flatMap]
      rintro ⟨p, -, hp⟩
      exact zero_notMem_text p hp
    have hlen := @strlen_ok (ps.foldl Dest.piece ⟨m, 0⟩).bytes len 0 _ (Nat.zero_le _) (by omega) hzero fun i _ hi => by
      rw [htext i hi]
      exact ofList_ne_zero hnone hi
    refine ⟨_, ?_, htext, hzero⟩
    unfold vsprintf
    rw [vsprintfLoop_ok ps (by simpa [formatted] using h)]
    change (strlen (ps.foldl Dest.piece ⟨m, 0⟩).bytes len 0 >>= fun n => pure (n, (ps.foldl Dest.piece ⟨m, 0⟩).bytes)) = _
    rw [hlen]
    rfl

theorem vsprintf_formats_name : Formats 8 [.str [115, 100, 97] (by decide), .decimal 1] zeros :=
  (vsprintf_formats 8 [.str [115, 100, 97] (by decide), .decimal 1] zeros (by decide +kernel)).mpr (.inr rfl)

/-- In a buffer full of `x` the text `a` goes on without end. -/
theorem vsprintf_stale : ¬ ∀ len ps m, (formatted ps).length < len → Formats len ps m := by
  intro h
  have hshort : (formatted [.char 97 (by decide)]).length < 64 := by decide
  rcases (h 64 [.char 97 (by decide)] (fun _ => 120) hshort).condition hshort with hends | hzero
  · cases hends
  · exact absurd hzero (by decide)

end ElephantOS.FormattedOutput
