import ElephantOS.Bitmap

/-! `put_char` and `put_str` of `lib/kernel/print.asm`: the text screen, its cursor in the CRT controller and its bytes in video memory. -/

namespace ElephantOS.Screen

open ByteMemory HaltingState

structure Console where
  /-- the CRT register that the index port has selected -/
  index : UInt8
  crt : UInt8 → UInt8
  /-- the bytes from 0xc00b8000 on -/
  video : Memory
  /-- where bytes were stored, the last store first -/
  stores : List ℕ

abbrev ConsoleM := Exec Halt Console

/-- `VIDEO_DESC` ends at 0xbffff. -/
def videoLimit : ℕ := 0x7fff

/-- `out dx, al` at port 0x3d4 -/
def outIndex (al : UInt8) : ConsoleM Unit := modify fun k => { k with index := al }

/-- `out dx, al` at port 0x3d5 -/
def outData (al : UInt8) : ConsoleM Unit := modify fun k => { k with crt := Function.update k.crt k.index al }

/-- `in al, dx` at port 0x3d5 -/
def inData : ConsoleM UInt8 := do
  let k ← get
  return k.crt k.index

def storeVideo (off : ℕ) (b : UInt8) : ConsoleM Unit :=
  modify fun k => { k with video := Function.update k.video off b, stores := off :: k.stores }

/-- `mov byte [gs:off], b`: a store beyond the limit raises a protection exception, whose handler never returns. -/
def storeGs (off : ℕ) (b : UInt8) : ConsoleM Unit := if off ≤ videoLimit then storeVideo off b else halt .wild

def loadVideo (off : ℕ) : ConsoleM UInt8 := do
  let k ← get
  return k.video off

def getCursor : ConsoleM (BitVec 16) := do
  outIndex 0x0e
  let ah ← inData
  outIndex 0x0f
  let al ← inData
  return ah.toBitVec ++ al.toBitVec

/-- `.set_cursor` -/
def setCursor (bx : BitVec 16) : ConsoleM Unit := do
  outIndex 0x0e
  outData (UInt8.ofBitVec (bx.extractLsb' 8 8))
  outIndex 0x0f
  outData (UInt8.ofBitVec (bx.extractLsb' 0 8))

/-- `movsd` without a segment of its own, the addresses counted from 0xc00b8000. -/
def movsd (esi edi : ℕ) : ConsoleM Unit := do
  let b₀ ← loadVideo esi
  let b₁ ← loadVideo (esi + 1)
  let b₂ ← loadVideo (esi + 2)
  let b₃ ← loadVideo (esi + 3)
  storeVideo edi b₀
  storeVideo (edi + 1) b₁
  storeVideo (edi + 2) b₂
  storeVideo (edi + 3) b₃

def repMovsd : ℕ → ℕ → ℕ → ConsoleM Unit
  | 0, _, _ => return
  | ecx + 1, esi, edi => do
    movsd esi edi
    repMovsd ecx (esi + 4) (edi + 4)

/-- `.cls`: each round stores the word 0x0720. -/
def cls : ℕ → ℕ → ConsoleM Unit
  | 0, _ => return
  | ecx + 1, ebx => do
    storeGs ebx 0x20
    storeGs (ebx + 1) 0x07
    cls ecx (ebx + 2)

/-- `.roll_screen`, with the new cursor -/
def rollScreen : ConsoleM (BitVec 16) := do
  repMovsd 960 160 0
  cls 80 3840
  return 1920#16

/-- `.is_line_feed` and `.is_carriage_return` -/
def lineFeed (bx : BitVec 16) : ConsoleM (BitVec 16) :=
  let bx := bx - bx % 80#16 + 80#16
  if bx.slt 2000#16 then return bx else rollScreen

/-- From `shl bx, 1` to `shr bx, 1`: the character and the attribute of a cell. -/
def storeCell (bx : BitVec 16) (cl : UInt8) : ConsoleM (BitVec 16) := do
  let bx := bx <<< 1
  storeGs bx.toNat cl
  let bx := bx + 1#16
  storeGs bx.toNat 0x07
  return bx >>> 1

def isBackspace (bx : BitVec 16) : ConsoleM (BitVec 16) := storeCell (bx - 1#16) 0x20

def putOther (bx : BitVec 16) (cl : UInt8) : ConsoleM (BitVec 16) := do
  let bx ← storeCell bx cl
  let bx := bx + 1#16
  if bx.slt 2000#16 then return bx else lineFeed bx

/-- `put_char` between the reading and the setting of the cursor -/
def nextCursor (cl : UInt8) (bx : BitVec 16) : ConsoleM (BitVec 16) :=
  if cl = 0x0d ∨ cl = 0x0a then lineFeed bx
  else if cl = 0x08 then isBackspace bx
  else putOther bx cl

def putChar (cl : UInt8) : ConsoleM Unit := do
  let bx ← getCursor
  let bx ← nextCursor cl bx
  setCursor bx

/-- The loop of `put_str` over the memory that holds the string; a string without an end does not end it. -/
def putStrFrom (mem : BitVec 32 → UInt8) : ℕ → BitVec 32 → ConsoleM Unit
  | 0, _ => halt .hang
  | fuel + 1, ebx => do
    let cl := mem ebx
    if cl = 0 then return
    else
      putChar cl
      putStrFrom mem fuel (ebx + 1#32)

def putStr (mem : BitVec 32 → UInt8) (str : BitVec 32) : ConsoleM Unit := putStrFrom mem (2 ^ 32) str

/-- The characters of a string one after the other. -/
def putChars : List UInt8 → ConsoleM Unit
  | [] => return
  | c :: s => do
    putChar c
    putChars s

/-- The memory holds `s` and then the end of the string. -/
def StringAt (mem : BitVec 32 → UInt8) : BitVec 32 → List UInt8 → Prop
  | a, [] => mem a = 0
  | a, c :: s => mem a = c ∧ c ≠ 0 ∧ StringAt mem (a + 1#32) s

namespace Console

/-- The cursor as the controller has it. -/
def cursor (k : Console) : ℕ := (k.crt 0x0e).toNat * 256 + (k.crt 0x0f).toNat

end Console

def nextLine (pos : ℕ) : ℕ := if pos / 80 < 24 then (pos / 80 + 1) * 80 else 1920

def advance (pos : ℕ) (c : UInt8) : ℕ :=
  if c = 0x0d ∨ c = 0x0a then nextLine pos
  else if c = 0x08 then pos - 1
  else if pos + 1 < 2000 then pos + 1 else nextLine (pos + 1)

def position (pos : ℕ) (s : List UInt8) : ℕ := s.foldl advance pos

/-- Every row moves up by one and the last one is blank. -/
structure Scrolled (v v' : Memory) : Prop where
  row : ∀ row < 24, ∀ i < 160, v' (row * 160 + i) = v ((row + 1) * 160 + i)
  blank : ∀ col < 80, v' (24 * 160 + 2 * col) = 0x20 ∧ v' (24 * 160 + 2 * col + 1) = 0x07

/-- What was stored since lies within the 4000 bytes of the screen. -/
def OnScreen (k k' : Console) : Prop := ∃ l, k'.stores = l ++ k.stores ∧ ∀ off ∈ l, off < 4000

theorem advance_lt {pos : ℕ} (h : pos < 2000) (c : UInt8) : advance pos c < 2000 := by
  unfold advance nextLine
  split_ifs <;> omega

theorem position_lt {pos : ℕ} (h : pos < 2000) (s : List UInt8) : position pos s < 2000 := by
  induction s generalizing pos with
  | nil => exact h
  | cons c s ih => exact ih (advance_lt h c)

theorem OnScreen.refl (k : Console) : OnScreen k k := ⟨[], rfl, by simp⟩

theorem OnScreen.trans {k k' k'' : Console} (h : OnScreen k k') (h' : OnScreen k' k'') : OnScreen k k'' := by
  obtain ⟨l, hl, hin⟩ := h
  obtain ⟨l', hl', hin'⟩ := h'
  refine ⟨l' ++ l, by rw [hl', hl, List.append_assoc], ?_⟩
  intro off hoff
  rcases List.mem_append.mp hoff with hoff | hoff
  · exact hin' off hoff
  · exact hin off hoff

variable {k : Console} {pos : ℕ}

theorem storeVideo_runs {off : ℕ} {b : UInt8} (hoff : off < 4000) : Runs (storeVideo off b) k fun _ k' =>
    k'.crt = k.crt ∧ k'.video = Function.update k.video off b ∧ OnScreen k k' := by
  refine ⟨(), _, rfl, rfl, rfl, [off], rfl, ?_⟩
  intro o ho
  rw [List.mem_singleton.mp ho]
  exact hoff

theorem storeGs_runs {off : ℕ} {b : UInt8} (hoff : off < 4000) : Runs (storeGs off b) k fun _ k' =>
    k'.crt = k.crt ∧ k'.video = Function.update k.video off b ∧ OnScreen k k' := by
  have hlimit : off ≤ videoLimit := by
    unfold videoLimit
    omega
  rw [storeGs, if_pos hlimit]
  exact storeVideo_runs hoff

theorem loadVideo_eq (off : ℕ) : loadVideo off k = .ok (k.video off, k) := rfl

theorem movsd_runs {edi : ℕ} (h : edi + 4 ≤ 4000) : Runs (movsd (edi + 160) edi) k fun _ k' =>
    k'.crt = k.crt ∧ OnScreen k k' ∧
      ∀ j, k'.video j = if edi ≤ j ∧ j < edi + 4 then k.video (j + 160) else k.video j := by
  refine Runs.step (loadVideo_eq _) (Runs.step (loadVideo_eq _) (Runs.step (loadVideo_eq _) (Runs.step (loadVideo_eq _) ?_)))
  apply (storeVideo_runs (by omega)).bind
  rintro _ k₁ ⟨hcrt₁, hvideo₁, hscreen₁⟩
  apply (storeVideo_runs (by omega)).bind
  rintro _ k₂ ⟨hcrt₂, hvideo₂, hscreen₂⟩
  apply (storeVideo_runs (by omega)).bind
  rintro _ k₃ ⟨hcrt₃, hvideo₃, hscreen₃⟩
  apply (storeVideo_runs (by omega)).mono
  rintro _ k₄ ⟨hcrt₄, hvideo₄, hscreen₄⟩
  refine ⟨hcrt₄.trans (hcrt₃.trans (hcrt₂.trans hcrt₁)), hscreen₁.trans (hscreen₂.trans (hscreen₃.trans hscreen₄)), ?_⟩
  intro j
  rw [hvideo₄, hvideo₃, hvideo₂, hvideo₁]
  simp only [Function.update_apply]
  by_cases hj : edi ≤ j ∧ j < edi + 4
  · rw [if_pos hj]
    obtain rfl | rfl | rfl | rfl : j = edi ∨ j = edi + 1 ∨ j = edi + 2 ∨ j = edi + 3 := by omega
    · simp
    · simp [Nat.add_right_comm]
    · simp [Nat.add_right_comm]
    · simp [Nat.add_right_comm]
  · rw [if_neg hj, if_neg (by omega), if_neg (by omega), if_neg (by omega), if_neg (by omega)]

theorem repMovsd_runs (n edi : ℕ) (hn : edi + 4 * n ≤ 4000) : Runs (repMovsd n (edi + 160) edi) k fun _ k' =>
    k'.crt = k.crt ∧ OnScreen k k' ∧
      ∀ j, k'.video j = if edi ≤ j ∧ j < edi + 4 * n then k.video (j + 160) else k.video j := by
  induction n generalizing edi k with
  | zero =>
    refine ⟨(), k, rfl, rfl, OnScreen.refl k, ?_⟩
    intro j
    rw [if_neg (by omega)]
  | succ n ih =>
    apply (movsd_runs (by omega)).bind
    rintro _ k₁ ⟨hcrt₁, hscreen₁, hvideo₁⟩
    rw [Nat.add_right_comm]
    apply (ih (edi + 4) (by omega)).mono
    rintro _ k₂ ⟨hcrt₂, hscreen₂, hvideo₂⟩
    refine ⟨hcrt₂.trans hcrt₁, hscreen₁.trans hscreen₂, ?_⟩
    intro j
    -- a byte is moved once, and before that nothing is stored where it comes from
    rw [hvideo₂]
    by_cases hlater : edi + 4 ≤ j ∧ j < edi + 4 + 4 * n
    · rw [if_pos hlater, hvideo₁, if_neg (by omega), if_pos (by omega)]
    · rw [if_neg hlater, hvideo₁]
      by_cases hnow : edi ≤ j ∧ j < edi + 4
      · rw [if_pos hnow, if_pos (by omega)]
      · rw [if_neg hnow, if_neg (by omega)]

theorem cls_runs (n ebx : ℕ) (hn : ebx + 2 * n ≤ 4000) : Runs (cls n ebx) k fun _ k' =>
    k'.crt = k.crt ∧ OnScreen k k' ∧ (∀ j, j < ebx ∨ ebx + 2 * n ≤ j → k'.video j = k.video j) ∧
      ∀ i < n, k'.video (ebx + 2 * i) = 0x20 ∧ k'.video (ebx + 2 * i + 1) = 0x07 := by
  induction n generalizing ebx k with
  | zero => exact ⟨(), k, rfl, rfl, OnScreen.refl k, fun _ _ => rfl, by simp⟩
  | succ n ih =>
    apply (storeGs_runs (by omega)).bind
    rintro _ k₁ ⟨hcrt₁, hvideo₁, hscreen₁⟩
    apply (storeGs_runs (by omega)).bind
    rintro _ k₂ ⟨hcrt₂, hvideo₂, hscreen₂⟩
    apply (ih (ebx + 2) (by omega)).mono
    rintro _ k₃ ⟨hcrt₃, hscreen₃, hsame, hblank⟩
    refine ⟨hcrt₃.trans (hcrt₂.trans hcrt₁), hscreen₁.trans (hscreen₂.trans hscreen₃), ?_, ?_⟩
    · intro j hj
      rw [hsame j (by omega), hvideo₂, hvideo₁, Function.update_of_ne (by omega), Function.update_of_ne (by omega)]
    · intro i hi
      cases i with
      | zero =>
        rw [Nat.mul_zero, Nat.add_zero, hsame _ (by omega), hsame _ (by omega), hvideo₂, hvideo₁]
        simp
      | succ i =>
        have hnext := hblank i (by omega)
        rw [Nat.mul_add, ← Nat.add_assoc, Nat.add_right_comm ebx]
        exact hnext

theorem rollScreen_runs (k : Console) : Runs rollScreen k fun bx k' =>
    bx = 1920#16 ∧ k'.crt = k.crt ∧ OnScreen k k' ∧ Scrolled k.video k'.video := by
  apply (repMovsd_runs 960 0 (by omega)).bind
  rintro _ k₁ ⟨hcrt₁, hscreen₁, hvideo₁⟩
  apply (cls_runs 80 3840 (by omega)).bind
  rintro _ k₂ ⟨hcrt₂, hscreen₂, hsame, hblank⟩
  refine Runs.pure ⟨rfl, hcrt₂.trans hcrt₁, hscreen₁.trans hscreen₂, ?_, ?_⟩
  · intro row hrow i hi
    rw [hsame _ (by omega), hvideo₁, if_pos (by omega)]
    congr 1
    omega
  · intro col hcol
    exact hblank col hcol

theorem toNat_append (hi lo : UInt8) : (hi.toBitVec ++ lo.toBitVec : BitVec 16) = BitVec.ofNat 16 (hi.toNat * 256 + lo.toNat) := by
  apply BitVec.eq_of_toNat_eq
  have hhi := hi.toNat_lt
  have hlo := lo.toNat_lt
  have hor := Nat.shiftLeft_add_eq_or_of_lt (b := lo.toNat) (i := 8) hlo hi.toNat
  rw [BitVec.toNat_append, BitVec.toNat_ofNat]
  change hi.toNat <<< 8 ||| lo.toNat = _
  rw [← hor, Nat.shiftLeft_eq]
  omega

theorem getCursor_runs (k : Console) : Runs getCursor k fun bx k' =>
    bx = BitVec.ofNat 16 k.cursor ∧ k'.crt = k.crt ∧ k'.video = k.video ∧ k'.stores = k.stores :=
  ⟨_, _, rfl, toNat_append _ _, rfl, rfl, rfl⟩

theorem setCursor_runs (bx : BitVec 16) : Runs (setCursor bx) k fun _ k' =>
    k'.cursor = bx.toNat ∧ k'.video = k.video ∧ k'.stores = k.stores := by
  refine ⟨_, _, rfl, ?_, rfl, rfl⟩
  have hbx := bx.isLt
  have hne : (0x0e : UInt8) ≠ 0x0f := by decide
  have hhi : (bx.extractLsb' 8 8).toNat = bx.toNat / 256 % 256 := by
    rw [BitVec.extractLsb'_toNat, Nat.shiftRight_eq_div_pow]
  have hlo : (bx.extractLsb' 0 8).toNat = bx.toNat % 256 := by
    rw [BitVec.extractLsb'_toNat, Nat.shiftRight_zero]
  simp only [Console.cursor, Function.update_self, Function.update_of_ne hne]
  change (bx.extractLsb' 8 8).toNat * 256 + (bx.extractLsb' 0 8).toNat = bx.toNat
  rw [hhi, hlo]
  omega

theorem slt_screen {n : ℕ} (hn : n < 2 ^ 15) : (BitVec.ofNat 16 n).slt 2000#16 = decide (n < 2000) := by
  have hmod : n % 2 ^ 16 = n := Nat.mod_eq_of_lt (by omega)
  have hlimit : (2000#16).toInt = 2000 := by decide
  rw [BitVec.slt, BitVec.toInt_eq_toNat_cond, BitVec.toNat_ofNat, hmod, if_pos (by omega), hlimit]
  exact decide_eq_decide.mpr (by omega)

theorem shiftLeft_one (n : ℕ) : (BitVec.ofNat 16 n) <<< 1 = BitVec.ofNat 16 (2 * n) := by
  apply BitVec.eq_of_toNat_eq
  rw [BitVec.toNat_shiftLeft, BitVec.toNat_ofNat, BitVec.toNat_ofNat, Nat.shiftLeft_eq]
  omega

theorem shiftRight_one {n : ℕ} (hn : n < 2 ^ 15) : (BitVec.ofNat 16 (2 * n) + 1#16) >>> 1 = BitVec.ofNat 16 n := by
  apply BitVec.eq_of_toNat_eq
  rw [BitVec.toNat_ushiftRight, BitVec.toNat_add, BitVec.toNat_ofNat, BitVec.toNat_ofNat, Nat.shiftRight_eq_div_pow]
  change (2 * n % 2 ^ 16 + 1) % 2 ^ 16 / 2 ^ 1 = n % 2 ^ 16
  omega

theorem storeCell_runs {cl : UInt8} (hpos : pos < 2000) : Runs (storeCell (BitVec.ofNat 16 pos) cl) k fun bx k' =>
    bx = BitVec.ofNat 16 pos ∧ k'.crt = k.crt ∧ OnScreen k k' := by
  simp only [storeCell, shiftLeft_one]
  have hchar : (BitVec.ofNat 16 (2 * pos)).toNat < 4000 := by
    rw [BitVec.toNat_ofNat]
    omega
  have hattr : (BitVec.ofNat 16 (2 * pos) + 1#16).toNat < 4000 := by
    simp only [BitVec.toNat_add, BitVec.toNat_ofNat]
    omega
  apply (storeGs_runs hchar).bind
  rintro _ k₁ ⟨hcrt₁, -, hscreen₁⟩
  apply (storeGs_runs hattr).bind
  rintro _ k₂ ⟨hcrt₂, -, hscreen₂⟩
  exact Runs.pure ⟨shiftRight_one (by omega), hcrt₂.trans hcrt₁, hscreen₁.trans hscreen₂⟩

theorem lineFeed_runs (hpos : pos ≤ 2000) : Runs (lineFeed (BitVec.ofNat 16 pos)) k fun bx k' =>
    bx = BitVec.ofNat 16 (nextLine pos) ∧ k'.crt = k.crt ∧ OnScreen k k' := by
  have hbx : BitVec.ofNat 16 pos - BitVec.ofNat 16 pos % 80#16 + 80#16 = BitVec.ofNat 16 ((pos / 80 + 1) * 80) := by
    apply BitVec.eq_of_toNat_eq
    have hmod : pos % 2 ^ 16 = pos := Nat.mod_eq_of_lt (by omega)
    have hcols : 80 % 2 ^ 16 = 80 := rfl
    simp only [BitVec.toNat_add, BitVec.toNat_sub, BitVec.toNat_umod, BitVec.toNat_ofNat, hmod, hcols]
    omega
  simp only [lineFeed, hbx, slt_screen (n := (pos / 80 + 1) * 80) (by omega), decide_eq_true_eq]
  unfold nextLine
  by_cases hrow : pos / 80 < 24
  · rw [if_pos hrow, if_pos (by omega)]
    exact Runs.pure ⟨rfl, rfl, OnScreen.refl k⟩
  · rw [if_neg hrow, if_neg (by omega)]
    apply (rollScreen_runs k).mono
    rintro bx k' ⟨hbx, hcrt, hscreen, -⟩
    exact ⟨hbx, hcrt, hscreen⟩

theorem isBackspace_runs (hpos : pos < 2000) (h0 : pos ≠ 0) : Runs (isBackspace (BitVec.ofNat 16 pos)) k fun bx k' =>
    bx = BitVec.ofNat 16 (pos - 1) ∧ k'.crt = k.crt ∧ OnScreen k k' := by
  have hdec : BitVec.ofNat 16 pos - 1#16 = BitVec.ofNat 16 (pos - 1) := by
    apply BitVec.eq_of_toNat_eq
    simp only [BitVec.toNat_sub, BitVec.toNat_ofNat]
    omega
  rw [isBackspace, hdec]
  exact storeCell_runs (by omega)

theorem putOther_runs (hpos : pos < 2000) (cl : UInt8) : Runs (putOther (BitVec.ofNat 16 pos) cl) k fun bx k' =>
    bx = BitVec.ofNat 16 (if pos + 1 < 2000 then pos + 1 else nextLine (pos + 1)) ∧ k'.crt = k.crt ∧ OnScreen k k' := by
  apply (storeCell_runs hpos).bind
  rintro _ k₁ ⟨rfl, hcrt₁, hscreen₁⟩
  have hinc : BitVec.ofNat 16 pos + 1#16 = BitVec.ofNat 16 (pos + 1) := (BitVec.ofNat_add pos 1).symm
  simp only [hinc, slt_screen (n := pos + 1) (by omega), decide_eq_true_eq]
  by_cases hlast : pos + 1 < 2000
  · rw [if_pos hlast, if_pos hlast]
    exact Runs.pure ⟨rfl, hcrt₁, hscreen₁⟩
  · rw [if_neg hlast, if_neg hlast]
    apply (lineFeed_runs (by omega)).mono
    rintro bx k₂ ⟨hbx, hcrt₂, hscreen₂⟩
    exact ⟨hbx, hcrt₂.trans hcrt₁, hscreen₁.trans hscreen₂⟩

theorem putChar_runs {c : UInt8} (hpos : k.cursor < 2000) (hfirst : c = 0x08 → k.cursor ≠ 0) :
    Runs (putChar c) k fun _ k' => k'.cursor = advance k.cursor c ∧ OnScreen k k' := by
  apply (getCursor_runs k).bind
  rintro _ k₁ ⟨rfl, hcrt₁, -, hstores₁⟩
  have hbx : Runs (nextCursor c (BitVec.ofNat 16 k.cursor)) k₁ fun bx k' =>
      bx = BitVec.ofNat 16 (advance k.cursor c) ∧ k'.crt = k₁.crt ∧ OnScreen k₁ k' := by
    unfold nextCursor advance
    by_cases hfeed : c = 0x0d ∨ c = 0x0a
    · rw [if_pos hfeed, if_pos hfeed]
      exact lineFeed_runs (by omega)
    · rw [if_neg hfeed, if_neg hfeed]
      by_cases hback : c = 0x08
      · rw [if_pos hback, if_pos hback]
        exact isBackspace_runs hpos (hfirst hback)
      · rw [if_neg hback, if_neg hback]
        exact putOther_runs hpos c
  apply hbx.bind
  rintro _ k₂ ⟨rfl, -, hscreen₂⟩
  apply (setCursor_runs _).mono
  rintro _ k₃ ⟨hcursor, -, hstores₃⟩
  have hlt := advance_lt hpos c
  obtain ⟨l, hl, hin⟩ := hscreen₂
  refine ⟨?_, l, by rw [hstores₃, hl, hstores₁], hin⟩
  rw [hcursor, BitVec.toNat_ofNat]
  omega

theorem isBackspace_first : isBackspace 0#16 k = .error .wild := rfl

theorem putChar_first (h : k.cursor = 0) : putChar 0x08 k = .error .wild := by
  obtain ⟨_, k₁, hrun, rfl, -⟩ := getCursor_runs k
  rw [h] at hrun
  rw [putChar, bind_eq hrun]
  exact bind_error isBackspace_first _

theorem putChars_append (s t : List UInt8) : putChars (s ++ t) = putChars s >>= fun _ => putChars t := by
  induction s with
  | nil => rfl
  | cons c s ih =>
    rw [List.cons_append, putChars, putChars, ih, bind_assoc]

theorem putChars_runs {s : List UInt8} (hpos : k.cursor < 2000) (hs : ∀ p, p ++ [0x08] <+: s → position k.cursor p ≠ 0) :
    Runs (putChars s) k fun _ k' => k'.cursor = position k.cursor s ∧ OnScreen k k' := by
  induction s generalizing k with
  | nil => exact ⟨(), k, rfl, rfl, OnScreen.refl k⟩
  | cons c s ih =>
    have hfirst : c = 0x08 → k.cursor ≠ 0 := by
      rintro rfl
      exact hs [] ⟨s, rfl⟩
    apply (putChar_runs hpos hfirst).bind
    rintro _ k₁ ⟨hcursor₁, hscreen₁⟩
    have hrest : ∀ p, p ++ [0x08] <+: s → position k₁.cursor p ≠ 0 := by
      rintro p ⟨t, rfl⟩
      rw [hcursor₁]
      exact hs (c :: p) ⟨t, by simp⟩
    apply (ih (by rw [hcursor₁]; exact advance_lt hpos c) hrest).mono
    rintro _ k₂ ⟨hcursor₂, hscreen₂⟩
    refine ⟨?_, hscreen₁.trans hscreen₂⟩
    rw [hcursor₂, hcursor₁]
    rfl

theorem putChars_cursor {s : List UInt8} {k' : Console} (hpos : k.cursor < 2000) (h : putChars s k = .ok ((), k')) :
    k'.cursor = position k.cursor s := by
  induction s generalizing k with
  | nil =>
    obtain ⟨-, rfl⟩ := (pure_ok () () k k').mp h
    rfl
  | cons c s ih =>
    obtain ⟨_, k₁, hchar, hrest⟩ := (bind_ok _ _ k _).mp h
    have hfirst : c = 0x08 → k.cursor ≠ 0 := by
      rintro rfl h0
      rw [putChar_first h0] at hchar
      cases hchar
    obtain ⟨hcursor, -⟩ := (putChar_runs hpos hfirst).returned hchar
    rw [ih (by rw [hcursor]; exact advance_lt hpos c) hrest, hcursor]
    rfl

section

variable {mem : BitVec 32 → UInt8} {str : BitVec 32} {s : List UInt8}

theorem StringAt.byte_ne (h : StringAt mem str s) {i : ℕ} (hi : i < s.length) : mem (str + BitVec.ofNat 32 i) ≠ 0 := by
  induction s generalizing str i with
  | nil => simp at hi
  | cons c s ih =>
    obtain ⟨hc, hne, hrest⟩ := h
    cases i with
    | zero => simpa [hc] using hne
    | succ i =>
      have hnext := ih hrest (Nat.lt_of_succ_lt_succ hi)
      rwa [BitVec.add_assoc, Nat.add_comm i 1, BitVec.ofNat_add] at *

theorem StringAt.byte_end (h : StringAt mem str s) : mem (str + BitVec.ofNat 32 s.length) = 0 := by
  induction s generalizing str with
  | nil =>
    have hend : mem str = 0 := h
    simpa using hend
  | cons c s ih =>
    have hnext := ih h.2.2
    rwa [List.length_cons, Nat.add_comm, BitVec.ofNat_add, ← BitVec.add_assoc]

theorem StringAt.length_lt (h : StringAt mem str s) : s.length < 2 ^ 32 := by
  by_contra hlong
  -- addresses repeat after 2 ^ 32 bytes, so the end would be a byte of the string as well
  have hsame : BitVec.ofNat 32 (s.length - 2 ^ 32) = BitVec.ofNat 32 s.length := by
    apply BitVec.eq_of_toNat_eq
    rw [BitVec.toNat_ofNat, BitVec.toNat_ofNat]
    omega
  have hne := h.byte_ne (i := s.length - 2 ^ 32) (by omega)
  rw [hsame] at hne
  exact hne h.byte_end

theorem putStrFrom_eq {fuel : ℕ} (h : StringAt mem str s) (hfuel : s.length < fuel) :
    putStrFrom mem fuel str = putChars s := by
  induction s generalizing str fuel with
  | nil =>
    obtain ⟨fuel, rfl⟩ : ∃ n, fuel = n + 1 := ⟨fuel - 1, by omega⟩
    have hend : mem str = 0 := h
    simp only [putStrFrom, hend, if_true]
    rfl
  | cons c s ih =>
    obtain ⟨fuel, rfl⟩ : ∃ n, fuel = n + 1 := ⟨fuel - 1, by omega⟩
    obtain ⟨hc, hne, hrest⟩ := h
    have hrec := ih hrest (by simpa using hfuel : s.length < fuel)
    simp only [putStrFrom, hc, hne, if_false, hrec]
    rfl

theorem putStr_eq (h : StringAt mem str s) : putStr mem str = putChars s := putStrFrom_eq h h.length_lt

end

/-- After every character of the string the cursor is on the screen, and so is what was stored. -/
def StaysOnScreen (k : Console) (s : List UInt8) : Prop :=
  ∀ p, p <+: s → ∃ k', putChars p k = .ok ((), k') ∧ k'.cursor < 2000 ∧ OnScreen k k'

/-- At some character of the string a backspace comes in the first cell. -/
def BackspaceInFirstCell (pos : ℕ) (s : List UInt8) : Prop := ∃ p, p ++ [0x08] <+: s ∧ position pos p = 0

theorem staysOnScreen_iff (hpos : k.cursor < 2000) (s : List UInt8) :
    StaysOnScreen k s ↔ ¬ BackspaceInFirstCell k.cursor s := by
  constructor
  · rintro hstays ⟨p, hp, h0⟩
    obtain ⟨k', hrun, -⟩ := hstays (p ++ [0x08]) hp
    rw [putChars_append] at hrun
    obtain ⟨_, k₁, hbefore, hback⟩ := (bind_ok _ _ k _).mp hrun
    obtain ⟨_, k₂, hchar, -⟩ := (bind_ok _ _ k₁ _).mp hback
    rw [putChar_first ((putChars_cursor hpos hbefore).trans h0)] at hchar
    cases hchar
  · intro hnone p hp
    have hs : ∀ q, q ++ [0x08] <+: p → position k.cursor q ≠ 0 := fun q hq h0 => hnone ⟨q, hq.trans hp, h0⟩
    obtain ⟨_, k', hrun, hcursor, hscreen⟩ := putChars_runs hpos hs
    exact ⟨k', hrun, by rw [hcursor]; exact position_lt hpos p, hscreen⟩

/-- A string keeps the cursor and all stores on the screen exactly when no backspace comes in the first cell. -/
theorem cursor_on_screen_iff {mem : BitVec 32 → UInt8} {str : BitVec 32} {s : List UInt8} {k : Console} (hstr : StringAt mem str s)
    (hpos : k.cursor < 2000) :
    putStr mem str = putChars s ∧ (StaysOnScreen k s ↔ ¬ BackspaceInFirstCell k.cursor s) ∧
      ∀ k, ∃ k', rollScreen k = .ok (1920#16, k') ∧ OnScreen k k' ∧ Scrolled k.video k'.video := by
  refine ⟨putStr_eq hstr, staysOnScreen_iff hpos s, ?_⟩
  intro k
  obtain ⟨bx, k', hrun, rfl, -, hscreen, hscrolled⟩ := rollScreen_runs k
  exact ⟨k', hrun, hscreen, hscrolled⟩

def home : Console := { index := 0, crt := fun _ => 0, video := fun _ => 0, stores := [] }

theorem cursor_on_screen_iff_erased : StaysOnScreen home [0x41, 0x08] := by
  have hstr : StringAt (fun a => if a = 0 then 0x41 else if a = 1 then 0x08 else 0) 0 [0x41, 0x08] := by
    simp [StringAt]
  apply (cursor_on_screen_iff hstr (k := home) (by decide)).2.1.mpr
  rintro ⟨p, ⟨t, ht⟩, h0⟩
  cases p with
  | nil => simp at ht
  | cons c p =>
    obtain ⟨rfl, hp⟩ : c = 0x41 ∧ p ++ [0x08] ++ t = [0x08] := by simpa using ht
    cases p with
    | nil => exact absurd h0 (by decide)
    | cons d p => simp at hp

/-- A backspace in the first cell stores outside video memory. -/
theorem cursor_on_screen_fails : StringAt (fun a => if a = 0 then 0x08 else 0) 0 [0x08] ∧ home.cursor < 2000 ∧
    ¬ StaysOnScreen home [0x08] ∧ putStr (fun a => if a = 0 then 0x08 else 0) 0 home = .error .wild := by
  have hstr : StringAt (fun a => if a = 0 then 0x08 else 0) 0 [0x08] := by simp [StringAt]
  have hpos : home.cursor = 0 := rfl
  refine ⟨hstr, by decide, ?_, ?_⟩
  · rw [staysOnScreen_iff (by decide), not_not]
    exact ⟨[], ⟨[], rfl⟩, hpos⟩
  · rw [putStr_eq hstr, putChars]
    exact bind_error (putChar_first hpos) _

end ElephantOS.Screen
