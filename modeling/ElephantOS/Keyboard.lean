import Mathlib.Data.Nat.Bitwise
import ElephantOS.Bitmap
import ElephantOS.Ioqueue

/-! `device/keyboard.c`: the scan codes of a keyboard and the flags for its modifier keys. -/

namespace ElephantOS.Keyboard

open HaltingState Ioqueue

def shiftLMake : UInt16 := 0x2a

def shiftRMake : UInt16 := 0x36

def altLMake : UInt16 := 0x38

def altRMake : UInt16 := 0xe038

def ctrlLMake : UInt16 := 0x1d

def ctrlRMake : UInt16 := 0xe01d

def capsLockMake : UInt16 := 0x3a

def keymap : List (UInt8 × UInt8) := [
  (0, 0), (27, 27), (49, 33), (50, 64), (51, 35), (52, 36), (53, 37), (54, 94),
  (55, 38), (56, 42), (57, 40), (48, 41), (45, 95), (61, 43), (8, 8), (9, 9),
  (113, 81), (119, 87), (101, 69), (114, 82), (116, 84), (121, 89), (117, 85), (105, 73),
  (111, 79), (112, 80), (91, 123), (93, 125), (13, 13), (0, 0), (97, 65), (115, 83),
  (100, 68), (102, 70), (103, 71), (104, 72), (106, 74), (107, 75), (108, 76), (59, 58),
  (39, 34), (96, 126), (0, 0), (92, 124), (122, 90), (120, 88), (99, 67), (118, 86),
  (98, 66), (110, 78), (109, 77), (44, 60), (46, 62), (47, 63), (0, 0), (42, 42),
  (0, 0), (32, 32), (0, 0)]

structure Flags where
  ctrlStatus : Bool
  shiftStatus : Bool
  altStatus : Bool
  capsLockStatus : Bool
  extScancode : Bool
  deriving DecidableEq

structure KbdState where
  flags : Flags
  kbdBuf : Queue

abbrev KeyM := Exec Halt KbdState

def setFlags (f : Flags → Flags) : KeyM Unit := modify fun k => { k with flags := f k.flags }

def twoChars (scancode : UInt16) : Bool :=
  scancode < 0x0e || scancode = 0x29 || scancode = 0x1a || scancode = 0x1b || scancode = 0x2b || scancode = 0x27 || scancode = 0x28 ||
    scancode = 0x33 || scancode = 0x34 || scancode = 0x35

def handleBreak (scancode : UInt16) : KeyM Unit := do
  let makeCode := scancode &&& 0xff7f
  if makeCode = ctrlLMake ∨ makeCode = ctrlRMake then setFlags fun f => { f with ctrlStatus := false }
  else if makeCode = shiftLMake ∨ makeCode = shiftRMake then setFlags fun f => { f with shiftStatus := false }
  else if makeCode = altLMake ∨ makeCode = altRMake then setFlags fun f => { f with altStatus := false }

/-- The character of a key in the state of the flags before the interrupt, with the row of `keymap` it stands in. -/
def keyChar (scancode : UInt16) (last : Flags) : Except Halt (ℕ × UInt8) :=
  let shift := if twoChars scancode then last.shiftStatus
    else if last.shiftStatus && last.capsLockStatus then false
    else last.shiftStatus || last.capsLockStatus
  let index := (scancode &&& 0x00ff).toUInt8.toNat
  match keymap[index]? with
  | none => .error .wild
  | some row => .ok (index, if shift then row.2 else row.1)

/-- The keys of `keymap`, and the right Alt and Ctrl. -/
def known (scancode : UInt16) : Bool := (0 < scancode && scancode < 0x3b) || scancode = altRMake || scancode = ctrlRMake

/-- Past `scancode &= 0x00ff` the tests for the right keys are the same as those for the left ones. -/
def noteModifier (scancode : UInt16) : KeyM Unit :=
  if scancode = ctrlLMake ∨ scancode = ctrlRMake then setFlags fun f => { f with ctrlStatus := true }
  else if scancode = shiftLMake ∨ scancode = shiftRMake then setFlags fun f => { f with shiftStatus := true }
  else if scancode = altLMake ∨ scancode = altRMake then setFlags fun f => { f with altStatus := true }
  else if scancode = capsLockMake then setFlags fun f => { f with capsLockStatus := !f.capsLockStatus }
  else pure ()

def keyDown (scancode : UInt16) (curChar : UInt8) : KeyM Unit :=
  if curChar ≠ 0 then modify fun k => if k.kbdBuf.full then k else { k with kbdBuf := (Call.putchar curChar).transfer k.kbdBuf }
  else noteModifier (scancode &&& 0x00ff)

/-- Returns the index into `keymap`, if there was one. -/
def handleMake (scancode : UInt16) : KeyM (Option ℕ) := do
  let k ← get
  if known scancode then
    match keyChar scancode k.flags with
    | .error e => halt e
    | .ok (index, curChar) =>
      keyDown scancode curChar
      return some index
  else return none

def intrKeyboardHandler (byte : UInt8) : KeyM (Option ℕ) := do
  let k ← get
  if byte = 0xe0 then
    setFlags fun f => { f with extScancode := true }
    return none
  else
    let scancode := if k.flags.extScancode then 0xe000 ||| byte.toUInt16 else byte.toUInt16
    setFlags fun f => { f with extScancode := false }
    if scancode &&& 0x0080 ≠ 0 then
      handleBreak scancode
      return none
    else handleMake scancode

/-- A key of scan code set 1: a make code of seven bits, with or without the prefix. The prefix is no break code. -/
structure Key where
  ext : Bool
  code : Fin 0x80
  valid : code ≠ 0 ∧ code ≠ 0x60
  deriving DecidableEq

namespace Key

def prefixed (ext : Bool) (byte : UInt8) : List UInt8 := if ext then [0xe0, byte] else [byte]

def makeByte (code : Fin 0x80) : UInt8 := UInt8.ofNat code

def breakByte (code : Fin 0x80) : UInt8 := UInt8.ofNat code ||| 0x80

def scancode (ext : Bool) (code : Fin 0x80) : UInt16 := if ext then 0xe000 ||| UInt16.ofNat code else UInt16.ofNat code

def isCtrl (key : Key) : Bool := key.code = 0x1d

def isShift (key : Key) : Bool := !key.ext && (key.code = 0x2a || key.code = 0x36)

def isAlt (key : Key) : Bool := key.code = 0x38

def isCapsLock (key : Key) : Bool := !key.ext && key.code = 0x3a

end Key

inductive KeyEvent
  | press (key : Key)
  | release (key : Key)
  deriving DecidableEq

def KeyEvent.codes : KeyEvent → List UInt8
  | .press key => Key.prefixed key.ext (Key.makeByte key.code)
  | .release key => Key.prefixed key.ext (Key.breakByte key.code)

namespace Flags

/-- The flags past the codes of an event. -/
def after (f : Flags) : KeyEvent → Flags
  | .press key => { f with
      ctrlStatus := key.isCtrl || f.ctrlStatus
      shiftStatus := key.isShift || f.shiftStatus
      altStatus := key.isAlt || f.altStatus
      capsLockStatus := key.isCapsLock ^^ f.capsLockStatus }
  | .release key => { f with
      ctrlStatus := !key.isCtrl && f.ctrlStatus
      shiftStatus := !key.isShift && f.shiftStatus
      altStatus := !key.isAlt && f.altStatus }

end Flags

section

variable {ext : Bool} {code : Fin 0x80}

open Key

theorem or_high (code : Fin 0x80) (b : ℕ) : b * 2 ^ 7 ||| code.val = b * 2 ^ 7 + code.val := by
  rw [Nat.mul_comm]
  exact (Nat.two_pow_add_eq_or_of_lt code.isLt b).symm

theorem makeByte_toNat (code : Fin 0x80) : (makeByte code).toNat = code.val := by
  have hcode := code.isLt
  unfold makeByte
  rw [UInt8.toNat_ofNat', Nat.mod_eq_of_lt (by omega)]

theorem breakByte_toNat (code : Fin 0x80) : (breakByte code).toNat = 0x80 + code.val := by
  have hor := or_high code 1
  have hmake := makeByte_toNat code
  unfold makeByte at hmake
  unfold breakByte
  rw [UInt8.toNat_or, hmake, Nat.or_comm]
  exact hor

theorem scancode_toNat (ext : Bool) (code : Fin 0x80) : (scancode ext code).toNat = (if ext then 0xe000 else 0) + code.val := by
  have hcode := code.isLt
  have hor := or_high code 0x1c0
  unfold scancode
  split_ifs
  · rw [UInt16.toNat_or, UInt16.toNat_ofNat', Nat.mod_eq_of_lt (by omega)]
    exact hor
  · rw [UInt16.toNat_ofNat', Nat.mod_eq_of_lt (by omega), Nat.zero_add]

theorem scancode_inj {ext' : Bool} {code' : Fin 0x80} : scancode ext code = scancode ext' code' ↔ ext = ext' ∧ code = code' := by
  rw [← UInt16.toNat_inj, scancode_toNat, scancode_toNat, Fin.ext_iff]
  have h := code.isLt
  have h' := code'.isLt
  cases ext <;> cases ext' <;> simp <;> omega

theorem make_scancode (ext : Bool) (code : Fin 0x80) :
    (if ext then 0xe000 ||| (makeByte code).toUInt16 else (makeByte code).toUInt16) = scancode ext code ∧
      scancode ext code &&& 0x80 = 0 ∧ makeByte code ≠ 0xe0 := by
  have hcode := code.isLt
  have hbyte := makeByte_toNat code
  refine ⟨?_, ?_, ?_⟩
  · have hwide : (makeByte code).toUInt16 = UInt16.ofNat code.val := by
      rw [← UInt16.toNat_inj, UInt8.toNat_toUInt16, hbyte, UInt16.toNat_ofNat', Nat.mod_eq_of_lt (by omega)]
    rw [hwide]
    rfl
  · have hclear : (scancode ext code).toNat.testBit 7 = false := by
      rw [scancode_toNat, Nat.testBit_eq_decide_div_mod_eq, decide_eq_false_iff_not]
      split_ifs <;> omega
    rw [← UInt16.toNat_inj, UInt16.toNat_and]
    change (scancode ext code).toNat &&& 2 ^ 7 = 0
    rw [Nat.and_two_pow, hclear]
    rfl
  · intro h
    rw [h] at hbyte
    change 0xe0 = code.val at hbyte
    omega

theorem break_scancode : ∀ ext code, ∃ sc : UInt16, (if ext then 0xe000 ||| (breakByte code).toUInt16 else (breakByte code).toUInt16) = sc ∧
    sc &&& 0x80 ≠ 0 ∧ sc &&& 0xff7f = scancode ext code := by
  intro ext code
  refine ⟨_, rfl, ?_⟩
  revert ext code
  decide +kernel

theorem breakByte_ne (code : Fin 0x80) (hcode : code ≠ 0x60) : breakByte code ≠ 0xe0 := by
  intro h
  have hbyte := breakByte_toNat code
  rw [h] at hbyte
  change 0xe0 = 0x80 + code.val at hbyte
  apply hcode
  apply Fin.ext
  change code.val = 0x60
  omega

theorem scancode_ctrl (ext : Bool) (code : Fin 0x80) : (scancode ext code = ctrlLMake ∨ scancode ext code = ctrlRMake) ↔ code = 0x1d := by
  rw [show ctrlLMake = scancode false 0x1d from rfl, show ctrlRMake = scancode true 0x1d from rfl, scancode_inj, scancode_inj]
  cases ext <;> simp

theorem scancode_shift (ext : Bool) (code : Fin 0x80) : (scancode ext code = shiftLMake ∨ scancode ext code = shiftRMake) ↔
    ext = false ∧ (code = 0x2a ∨ code = 0x36) := by
  rw [show shiftLMake = scancode false 0x2a from rfl, show shiftRMake = scancode false 0x36 from rfl, scancode_inj, scancode_inj, and_or_left]

theorem scancode_caps (ext : Bool) (code : Fin 0x80) : scancode ext code = capsLockMake ↔ ext = false ∧ code = 0x3a := by
  rw [show capsLockMake = scancode false 0x3a from rfl, scancode_inj]

theorem scancode_alt (ext : Bool) (code : Fin 0x80) : (scancode ext code = altLMake ∨ scancode ext code = altRMake) ↔ code = 0x38 := by
  rw [show altLMake = scancode false 0x38 from rfl, show altRMake = scancode true 0x38 from rfl, scancode_inj, scancode_inj]
  cases ext <;> simp

theorem known_iff (ext : Bool) (code : Fin 0x80) :
    known (scancode ext code) = true ↔ if ext then code = 0x1d ∨ code = 0x38 else code ≠ 0 ∧ code < 0x3b := by
  have hpos : code ≠ 0 ↔ 0 < code.val := by
    rw [ne_eq, Fin.ext_iff]
    exact Nat.pos_iff_ne_zero.symm
  unfold known
  rw [show altRMake = scancode true 0x38 from rfl, show ctrlRMake = scancode true 0x1d from rfl]
  simp only [Bool.or_eq_true, Bool.and_eq_true, decide_eq_true_eq, scancode_inj, UInt16.lt_iff_toNat_lt, scancode_toNat]
  cases ext with
  | false =>
    simp only [Bool.false_eq_true, if_false, false_and, or_false, Nat.zero_add, hpos]
    exact Iff.rfl
  | true =>
    simp [or_comm]
    omega

theorem known_bound (ext : Bool) (code : Fin 0x80) (h : known (scancode ext code) = true) : code < 0x3b := by
  rw [known_iff] at h
  cases ext with
  | false => exact h.2
  | true => rcases h with rfl | rfl <;> decide

theorem scancode_low (ext : Bool) (code : Fin 0x80) : scancode ext code &&& 0x00ff = scancode false code ∧
    (scancode ext code &&& 0x00ff).toUInt8.toNat = code.val := by
  have hcode := code.isLt
  have hlow : scancode ext code &&& 0x00ff = scancode false code := by
    rw [← UInt16.toNat_inj, UInt16.toNat_and]
    change (scancode ext code).toNat &&& (2 ^ 8 - 1) = _
    rw [Nat.and_two_pow_sub_one_eq_mod, scancode_toNat, scancode_toNat]
    simp only [Bool.false_eq_true, if_false]
    split_ifs <;> omega
  refine ⟨hlow, ?_⟩
  rw [hlow, UInt16.toNat_toUInt8, scancode_toNat]
  simp only [Bool.false_eq_true, if_false]
  omega

theorem keymap_row : ∀ code : Fin 0x80, code < 0x3b → ∃ row, keymap[code.val]? = some row ∧
    (row.1 = 0 ↔ code ∈ [0, 0x1d, 0x2a, 0x36, 0x38, 0x3a]) ∧ (row.2 = 0 ↔ code ∈ [0, 0x1d, 0x2a, 0x36, 0x38, 0x3a]) := by
  intro code hcode
  have hlt : code.val < keymap.length := hcode
  refine ⟨keymap[code.val], List.getElem?_eq_getElem hlt, ?_⟩
  revert code
  decide +kernel

theorem keyChar_ok (h : known (scancode ext code) = true) (hcode : code ≠ 0) (last : Flags) :
    ∃ curChar, keyChar (scancode ext code) last = .ok (code.val, curChar) ∧ (curChar = 0 ↔ code ∈ [0x1d, 0x2a, 0x36, 0x38, 0x3a]) := by
  obtain ⟨row, hrow, h1, h2⟩ := keymap_row code (known_bound ext code h)
  rw [List.mem_cons, or_iff_right hcode] at h1 h2
  have hcolumn : ∀ shift : Bool, (if shift then row.2 else row.1) = 0 ↔ code ∈ [0x1d, 0x2a, 0x36, 0x38, 0x3a] := by
    rintro (_ | _)
    · exact h1
    · exact h2
  unfold keyChar
  simp only [(scancode_low ext code).2, hrow]
  exact ⟨_, rfl, hcolumn _⟩

theorem handleBreak_ok (key : Key) (sc : UInt16) (hsc : sc &&& 0xff7f = scancode key.ext key.code) (k : KbdState) :
    handleBreak sc k = .ok ((), { k with flags := k.flags.after (.release key) }) := by
  unfold handleBreak setFlags Flags.after isCtrl isShift isAlt
  simp only [hsc, scancode_ctrl, scancode_shift, scancode_alt]
  obtain ⟨ext, code, _⟩ := key
  simp only
  split_ifs with h1 h2 h3
  · subst h1
    simp [modify_eq]
  · obtain ⟨rfl, rfl | rfl⟩ := h2 <;> simp [modify_eq]
  · subst h3
    simp [modify_eq]
  · have hshift : (!ext && (code = 0x2a || code = 0x36 : Bool)) = false := by
      simpa using h2
    simp [h1, hshift, h3]

theorem unknown_plain (ext : Bool) (code : Fin 0x80) (hcode : code ≠ 0)
    (h : ¬ if ext then code = 0x1d ∨ code = 0x38 else code ≠ 0 ∧ code < 0x3b) :
    code ≠ 0x1d ∧ (ext = false → code ≠ 0x2a ∧ code ≠ 0x36) ∧ code ≠ 0x38 ∧ (ext = false → code ≠ 0x3a) := by
  cases ext with
  | true =>
    rw [if_pos rfl, not_or] at h
    exact ⟨h.1, nofun, h.2, nofun⟩
  | false =>
    have hlarge : ¬ code < 0x3b := fun hlt => h ⟨hcode, hlt⟩
    refine ⟨?_, fun _ => ⟨?_, ?_⟩, ?_, fun _ => ?_⟩ <;> rintro rfl <;> exact hlarge (by decide)

theorem after_plain (key : Key) (hctrl : key.code ≠ 0x1d) (hshift : key.ext = false → key.code ≠ 0x2a ∧ key.code ≠ 0x36)
    (halt : key.code ≠ 0x38) (hcaps : key.ext = false → key.code ≠ 0x3a) (f : Flags) : f.after (.press key) = f := by
  unfold Flags.after isCtrl isShift isAlt isCapsLock
  cases hext : key.ext with
  | true => simp [hctrl, halt, hext]
  | false => simp [hctrl, halt, hext, hshift hext, hcaps hext]

theorem noteModifier_ok (key : Key) (hknown : known (scancode key.ext key.code) = true) (k : KbdState) :
    noteModifier (scancode false key.code) k = .ok ((), { k with flags := k.flags.after (.press key) }) := by
  unfold noteModifier setFlags Flags.after isCtrl isShift isAlt isCapsLock
  rw [known_iff] at hknown
  simp only [scancode_ctrl, scancode_shift, scancode_alt, scancode_caps]
  obtain ⟨ext, code, _⟩ := key
  simp only at hknown ⊢
  split_ifs with h1 h2 h3 h4
  · subst h1
    simp [modify_eq]
  · obtain ⟨-, rfl | rfl⟩ := h2 <;> cases ext <;> simp [modify_eq] at hknown ⊢
  · subst h3
    simp [modify_eq]
  · obtain ⟨-, rfl⟩ := h4
    cases ext <;> simp [modify_eq] at hknown ⊢
  · cases ext <;> simp_all

theorem handleMake_ok (key : Key) (k : KbdState) : ∃ row k', handleMake (scancode key.ext key.code) k = .ok (row, k') ∧
    k'.flags = k.flags.after (.press key) ∧ ∀ i ∈ row, i < 0x3b := by
  unfold handleMake
  by_cases hknown : known (scancode key.ext key.code) = true
  · obtain ⟨curChar, hchar, hzero⟩ := keyChar_ok hknown key.valid.1 k.flags
    have hbound : ∀ i ∈ some key.code.val, i < 0x3b := by
      rintro _ ⟨rfl⟩
      exact known_bound key.ext key.code hknown
    have hdown : ∃ k', keyDown (scancode key.ext key.code) curChar k = .ok ((), k') ∧ k'.flags = k.flags.after (.press key) := by
      unfold keyDown
      by_cases hmod : key.code ∈ [0x1d, 0x2a, 0x36, 0x38, 0x3a]
      · rw [if_neg fun hc => hc (hzero.mpr hmod), (scancode_low key.ext key.code).1]
        exact ⟨_, noteModifier_ok key hknown k, rfl⟩
      · rw [if_pos fun hc => hmod (hzero.mp hc)]
        simp only [List.mem_cons, List.not_mem_nil, or_false, not_or] at hmod
        rw [after_plain key hmod.1 (fun _ => ⟨hmod.2.1, hmod.2.2.1⟩) hmod.2.2.2.1 (fun _ => hmod.2.2.2.2)]
        refine ⟨_, modify_eq _ _, ?_⟩
        split_ifs <;> rfl
    obtain ⟨k', hk', hflags⟩ := hdown
    refine ⟨some key.code.val, k', (bind_ok _ _ _ _).mpr ⟨k, k, rfl, ?_⟩, hflags, hbound⟩
    rw [if_pos hknown, hchar]
    exact (bind_ok _ _ _ _).mpr ⟨(), k', hk', rfl⟩
  · have hplain := unknown_plain key.ext key.code key.valid.1 (by rwa [known_iff] at hknown)
    refine ⟨none, k, (bind_ok _ _ _ _).mpr ⟨k, k, rfl, ?_⟩, ?_, by simp⟩
    · rw [if_neg hknown]
      rfl
    · exact (after_plain key hplain.1 hplain.2.1 hplain.2.2.1 hplain.2.2.2 _).symm

def lastByte : KeyEvent → UInt8
  | .press key => makeByte key.code
  | .release key => breakByte key.code

def eventExt : KeyEvent → Bool
  | .press key => key.ext
  | .release key => key.ext

theorem codes_eq (e : KeyEvent) : e.codes = prefixed (eventExt e) (lastByte e) := by cases e <;> rfl

def Flags.plain (f : Flags) : Flags := { f with extScancode := false }

theorem handler_byte {byte : UInt8} {sc : UInt16} {k : KbdState} (hne : byte ≠ 0xe0)
    (hsc : (if k.flags.extScancode then 0xe000 ||| byte.toUInt16 else byte.toUInt16) = sc) : intrKeyboardHandler byte k =
      (if sc &&& 0x0080 ≠ 0 then do handleBreak sc; return none else handleMake sc) { k with flags := k.flags.plain } := by
  subst hsc
  unfold intrKeyboardHandler
  rw [get_bind, if_neg hne]
  exact bind_eq (modify_eq _ _) _

theorem handler_last (e : KeyEvent) (k : KbdState) (hext : k.flags.extScancode = eventExt e) :
    ∃ row k', intrKeyboardHandler (lastByte e) k = .ok (row, k') ∧ k'.flags = (k.flags.after e).plain ∧ ∀ i ∈ row, i < 0x3b := by
  cases e with
  | press key =>
    obtain ⟨hcode, hbit, hne⟩ := make_scancode key.ext key.code
    obtain ⟨row, k', hmake, hflags, hrow⟩ := handleMake_ok key { k with flags := k.flags.plain }
    have hsc : (if k.flags.extScancode then 0xe000 ||| (makeByte key.code).toUInt16 else (makeByte key.code).toUInt16) =
        scancode key.ext key.code := by
      rw [hext]
      exact hcode
    refine ⟨row, k', ?_, hflags, hrow⟩
    rw [lastByte, handler_byte hne hsc, if_neg fun hc => hc hbit]
    exact hmake
  | release key =>
    obtain ⟨sc, hcode, hbit, hmask⟩ := break_scancode key.ext key.code
    have hsc : (if k.flags.extScancode then 0xe000 ||| (breakByte key.code).toUInt16 else (breakByte key.code).toUInt16) = sc := by
      rw [hext]
      exact hcode
    refine ⟨none, { k with flags := (k.flags.after (.release key)).plain }, ?_, rfl, by simp⟩
    rw [lastByte, handler_byte (breakByte_ne key.code key.valid.2) hsc, if_pos hbit, bind_eq (handleBreak_ok key sc hmask _)]
    rfl

theorem handler_first (k : KbdState) :
    intrKeyboardHandler 0xe0 k = .ok (none, { k with flags := { k.flags with extScancode := true } }) := rfl

end

/-- The bytes have been read, one interrupt each, with these rows of `keymap`. Between the interrupts the characters may be taken. -/
inductive Fed (k₀ : KbdState) : List UInt8 → List ℕ → KbdState → Prop
  | nil : Fed k₀ [] [] k₀
  | byte {bytes : List UInt8} {rows : List ℕ} {k k' : KbdState} {b : UInt8} {row : Option ℕ} :
    Fed k₀ bytes rows k → intrKeyboardHandler b k = .ok (row, k') → Fed k₀ (bytes ++ [b]) (rows ++ row.toList) k'
  | queue {bytes : List UInt8} {rows : List ℕ} {k : KbdState} (q : Queue) :
    Fed k₀ bytes rows k → Fed k₀ bytes rows { k with kbdBuf := q }

section

variable {k₀ k : KbdState} {bytes : List UInt8} {rows : List ℕ} {b : UInt8}

theorem Fed.none (h : Fed k₀ bytes rows k) (hbytes : bytes = []) : rows = [] ∧ k.flags = k₀.flags := by
  induction h with
  | nil => exact ⟨rfl, rfl⟩
  | byte => simp at hbytes
  | queue q _ ih => exact ih hbytes

theorem Fed.last (h : Fed k₀ (bytes ++ [b]) rows k) : ∃ rows' k₁ row k₂, Fed k₀ bytes rows' k₁ ∧
    intrKeyboardHandler b k₁ = .ok (row, k₂) ∧ k₂.flags = k.flags ∧ rows = rows' ++ row.toList := by
  generalize hall : bytes ++ [b] = all at h
  induction h with
  | nil => simp at hall
  | @byte bytes' rows' k₁ k₂ b' row hfed hrun =>
    obtain ⟨rfl, hb⟩ := List.append_inj' hall rfl
    obtain rfl := List.head_eq_of_cons_eq hb
    exact ⟨rows', k₁, row, k₂, hfed, hrun, rfl, rfl⟩
  | queue q _ ih => exact ih hall

theorem after_prefixed (f : Flags) (ext : Bool) (e : KeyEvent) (hf : f.extScancode = false) :
    ({ f with extScancode := ext }.after e).plain = f.after e := by
  cases e <;> simp [Flags.after, Flags.plain, hf]

theorem after_ext (f : Flags) (e : KeyEvent) : (f.after e).extScancode = f.extScancode := by cases e <;> rfl

theorem Fed.event {e : KeyEvent} (h : Fed k₀ (bytes ++ e.codes) rows k) (hplain : ∀ rows' k₁, Fed k₀ bytes rows' k₁ →
    k₁.flags.extScancode = false) : ∃ rows' k₁ row, Fed k₀ bytes rows' k₁ ∧ k.flags = k₁.flags.after e ∧ rows = rows' ++ row ∧
      ∀ i ∈ row, i < 0x3b := by
  rw [codes_eq] at h
  cases hext : eventExt e with
  | false =>
    rw [hext] at h
    obtain ⟨rows', k₁, row, k₂, hfed, hrun, hflags, rfl⟩ := h.last
    have hk₁ := hplain _ _ hfed
    obtain ⟨row', k', hlast, hafter, hrow⟩ := handler_last e k₁ (by rw [hk₁, hext])
    obtain ⟨rfl, rfl⟩ := ok_inj hrun hlast
    refine ⟨rows', k₁, row.toList, hfed, ?_, rfl, by simpa using hrow⟩
    rw [← hflags, hafter]
    exact after_prefixed k₁.flags k₁.flags.extScancode e hk₁
  | true =>
    rw [hext] at h
    have hsplit : bytes ++ Key.prefixed true (lastByte e) = (bytes ++ [0xe0]) ++ [lastByte e] := by simp [Key.prefixed]
    rw [hsplit] at h
    obtain ⟨rows', k₁, row, k₂, hfed, hrun, hflags, rfl⟩ := h.last
    obtain ⟨rows'', k₃, row₁, k₄, hfed', hrun', hflags', rfl⟩ := hfed.last
    have hk₃ := hplain _ _ hfed'
    obtain ⟨rfl, rfl⟩ := ok_inj hrun' (handler_first k₃)
    obtain ⟨row', k', hlast, hafter, hrow⟩ := handler_last e k₁ (by rw [← hflags', hext])
    obtain ⟨rfl, rfl⟩ := ok_inj hrun hlast
    refine ⟨rows'', k₃, row.toList, hfed', ?_, by simp, by simpa using hrow⟩
    rw [← hflags, hafter, ← hflags', after_prefixed k₃.flags true e hk₃]

theorem foldl_after_ext (es : List KeyEvent) (f : Flags) : (es.foldl Flags.after f).extScancode = f.extScancode := by
  induction es generalizing f with
  | nil => rfl
  | cons e es ih => rw [List.foldl_cons, ih, after_ext]

theorem Fed.events {es : List KeyEvent} (h : Fed k₀ (es.flatMap KeyEvent.codes) rows k) (hk₀ : k₀.flags.extScancode = false) :
    k.flags = es.foldl Flags.after k₀.flags ∧ ∀ i ∈ rows, i < 0x3b := by
  induction es using List.reverseRecOn generalizing rows k with
  | nil =>
    obtain ⟨rfl, hflags⟩ := h.none rfl
    exact ⟨hflags, by simp⟩
  | append_singleton es e ih =>
    rw [List.flatMap_append, List.flatMap_singleton] at h
    obtain ⟨rows', k₁, row, hfed, hflags, rfl, hrow⟩ := h.event fun rows' k₁ hfed => by
      rw [(ih hfed).1, foldl_after_ext, hk₀]
    obtain ⟨hk₁, hrows'⟩ := ih hfed
    refine ⟨?_, ?_⟩
    · rw [List.foldl_append, hflags, hk₁]
      rfl
    · intro i hi
      rcases List.mem_append.mp hi with hi | hi
      · exact hrows' i hi
      · exact hrow i hi

theorem Fed.exists (es : List KeyEvent) (hk₀ : k₀.flags.extScancode = false) : ∃ rows k, Fed k₀ (es.flatMap KeyEvent.codes) rows k := by
  induction es using List.reverseRecOn with
  | nil => exact ⟨[], k₀, .nil⟩
  | append_singleton es e ih =>
    obtain ⟨rows, k, hfed⟩ := ih
    have hk : k.flags.extScancode = false := by rw [(hfed.events hk₀).1, foldl_after_ext, hk₀]
    rw [List.flatMap_append, List.flatMap_singleton, codes_eq]
    cases hext : eventExt e with
    | false =>
      obtain ⟨row, k', hrun, -⟩ := handler_last e k (by rw [hk, hext])
      exact ⟨_, k', hfed.byte hrun⟩
    | true =>
      have hfirst := hfed.byte (handler_first k)
      obtain ⟨row, k', hrun, -⟩ := handler_last e { k with flags := { k.flags with extScancode := true } } (by rw [hext])
      have hsplit : es.flatMap KeyEvent.codes ++ Key.prefixed true (lastByte e) = (es.flatMap KeyEvent.codes ++ [0xe0]) ++ [lastByte e] := by
        simp [Key.prefixed]
      rw [hsplit]
      exact ⟨_, k', hfirst.byte hrun⟩

end

/-- The keys held past the events. -/
def held (es : List KeyEvent) : Finset Key := es.foldl (fun keys e => match e with
  | .press key => insert key keys
  | .release key => keys.erase key) ∅

theorem held_press (es : List KeyEvent) (key : Key) : held (es ++ [.press key]) = insert key (held es) := by
  unfold held
  rw [List.foldl_append]
  rfl

theorem held_release (es : List KeyEvent) (key : Key) : held (es ++ [.release key]) = (held es).erase key := by
  unfold held
  rw [List.foldl_append]
  rfl

/-- Keys are released only while they are held. -/
def Proper (es : List KeyEvent) : Prop := ∀ before key after, es = before ++ .release key :: after → key ∈ held before

/-- A key of the kind `c` is released only when no other one is held. -/
def Lone (c : Key → Bool) (es : List KeyEvent) : Prop := ∀ before key after, es = before ++ .release key :: after → c key = true →
  ∀ other ∈ held before, c other = true → other = key

/-- One flag, for the keys of the kind `c`. -/
def track (c : Key → Bool) (flag : Bool) : KeyEvent → Bool
  | .press key => c key || flag
  | .release key => !c key && flag

section

variable {c : Key → Bool} {es : List KeyEvent}

theorem Lone.before {rest : List KeyEvent} (h : Lone c (es ++ rest)) : Lone c es := by
  intro before key after hsplit
  apply h before key (after ++ rest)
  rw [hsplit]
  simp

theorem Lone.track (h : Lone c es) : es.foldl (track c) false = true ↔ ∃ key ∈ held es, c key = true := by
  induction es using List.reverseRecOn with
  | nil => simp [held]
  | append_singleton es e ih =>
    rw [List.foldl_append, List.foldl_cons, List.foldl_nil]
    cases e with
    | press key =>
      rw [held_press, Keyboard.track, Bool.or_eq_true, ih h.before]
      simp
    | release key =>
      rw [held_release, Keyboard.track, Bool.and_eq_true, ih h.before, Bool.not_eq_true']
      constructor
      · rintro ⟨hkey, other, hother, hc⟩
        refine ⟨other, Finset.mem_erase.mpr ⟨?_, hother⟩, hc⟩
        rintro rfl
        rw [hkey] at hc
        cases hc
      · rintro ⟨other, hother, hc⟩
        obtain ⟨hne, hmem⟩ := Finset.mem_erase.mp hother
        refine ⟨?_, other, hmem, hc⟩
        by_contra hkey
        exact hne (h es key [] rfl (by simpa using hkey) other hmem hc)

theorem lone_of_track (h : ∀ before after, es = before ++ after →
    (before.foldl (track c) false = true ↔ ∃ key ∈ held before, c key = true)) : Lone c es := by
  intro before key after hsplit hkey other hother hc
  by_contra hne
  have hwrong := (h (before ++ [.release key]) after (by rw [hsplit]; simp)).mpr ⟨other, ?_, hc⟩
  · rw [List.foldl_append, List.foldl_cons, List.foldl_nil, track, hkey] at hwrong
    cases hwrong
  · rw [held_release]
    exact Finset.mem_erase.mpr ⟨hne, hother⟩

theorem foldl_flags (es : List KeyEvent) (f : Flags) : (es.foldl Flags.after f).ctrlStatus = es.foldl (track Key.isCtrl) f.ctrlStatus ∧
    (es.foldl Flags.after f).shiftStatus = es.foldl (track Key.isShift) f.shiftStatus ∧
    (es.foldl Flags.after f).altStatus = es.foldl (track Key.isAlt) f.altStatus := by
  induction es generalizing f with
  | nil => exact ⟨rfl, rfl, rfl⟩
  | cons e es ih =>
    rw [List.foldl_cons, List.foldl_cons, List.foldl_cons, List.foldl_cons]
    cases e <;> exact ih _

def isCapsPress : KeyEvent → Bool
  | .press key => key.isCapsLock
  | .release _ => false

theorem foldl_caps (es : List KeyEvent) (f : Flags) (hf : f.capsLockStatus = false) :
    (es.foldl Flags.after f).capsLockStatus = true ↔ Odd (es.countP isCapsPress) := by
  induction es using List.reverseRecOn with
  | nil => simp [hf]
  | append_singleton es e ih =>
    rw [List.foldl_append, List.foldl_cons, List.foldl_nil, List.countP_append, List.countP_singleton]
    cases e with
    | press key =>
      cases hcaps : key.isCapsLock with
      | true => simp [Flags.after, isCapsPress, hcaps, Nat.odd_add_one, ← ih]
      | false => simp [Flags.after, isCapsPress, hcaps, ih]
    | release key => simpa [Flags.after, isCapsPress] using ih

end

structure Tracks (es : List KeyEvent) (f : Flags) : Prop where
  shift : f.shiftStatus = true ↔ ∃ key ∈ held es, key.isShift = true
  ctrl : f.ctrlStatus = true ↔ ∃ key ∈ held es, key.isCtrl = true
  alt : f.altStatus = true ↔ ∃ key ∈ held es, key.isAlt = true
  capsLock : f.capsLockStatus = true ↔ Odd (es.countP isCapsPress)

/-- The keyboard before the first key, with any characters in the buffer. -/
def start (q : Queue) : KbdState := ⟨⟨false, false, false, false, false⟩, q⟩

/-- After each complete code the handler has returned, with the flags right and every row it looked up in the table. -/
def TracksAll (q : Queue) (es : List KeyEvent) : Prop := ∀ before after, es = before ++ after →
  (∃ rows k, Fed (start q) (before.flatMap KeyEvent.codes) rows k) ∧
    ∀ rows k, Fed (start q) (before.flatMap KeyEvent.codes) rows k → Tracks before k.flags ∧ ∀ i ∈ rows, i < 0x3b

theorem TracksAll.lone {q : Queue} {es : List KeyEvent} (h : TracksAll q es) :
    Lone Key.isShift es ∧ Lone Key.isCtrl es ∧ Lone Key.isAlt es := by
  have hflags : ∀ before after, es = before ++ after → Tracks before (before.foldl Flags.after (start q).flags) := by
    intro before after hsplit
    obtain ⟨⟨rows, k, hfed⟩, hall⟩ := h before after hsplit
    rw [← (hfed.events rfl).1]
    exact (hall rows k hfed).1
  refine ⟨lone_of_track ?_, lone_of_track ?_, lone_of_track ?_⟩
  · intro before after hsplit
    rw [← (hflags before after hsplit).shift, (foldl_flags before _).2.1]
    rfl
  · intro before after hsplit
    rw [← (hflags before after hsplit).ctrl, (foldl_flags before _).1]
    rfl
  · intro before after hsplit
    rw [← (hflags before after hsplit).alt, (foldl_flags before _).2.2]
    rfl

/-- The flags follow the modifier keys exactly as long as no modifier is released while the other one of its kind is held. -/
theorem modifiers_tracked (q : Queue) (es : List KeyEvent) :
    TracksAll q es ↔ Lone Key.isShift es ∧ Lone Key.isCtrl es ∧ Lone Key.isAlt es := by
  constructor
  · exact TracksAll.lone
  · rintro ⟨hshift, hctrl, halt⟩ before after rfl
    refine ⟨Fed.exists before rfl, ?_⟩
    intro rows k hfed
    obtain ⟨hflags, hrows⟩ := hfed.events rfl
    obtain ⟨hc, hs, ha⟩ := foldl_flags before (start q).flags
    refine ⟨⟨?_, ?_, ?_, ?_⟩, hrows⟩
    · rw [hflags, hs]
      exact hshift.before.track
    · rw [hflags, hc]
      exact hctrl.before.track
    · rw [hflags, ha]
      exact halt.before.track
    · rw [hflags]
      exact foldl_caps before _ rfl

def leftShift : Key := ⟨false, 0x2a, by decide⟩

def rightShift : Key := ⟨false, 0x36, by decide⟩

def shiftsOverlap : List KeyEvent := [.press leftShift, .press rightShift, .release leftShift]

theorem shiftsOverlap_untracked : ¬ ∀ q es, Proper es → TracksAll q es := by
  intro h
  have hproper : Proper shiftsOverlap := by
    intro before key after hsplit
    match before, hsplit with
    | [e₁, e₂], hsplit =>
      obtain ⟨rfl, rfl, hlast, -⟩ : e₁ = .press leftShift ∧ e₂ = .press rightShift ∧ leftShift = key ∧ [] = after := by
        simpa [shiftsOverlap, eq_comm] using hsplit
      subst hlast
      decide
    | _ :: _ :: _ :: _, hsplit => simp [shiftsOverlap] at hsplit
  have hlone := (h ⟨fun _ => none, fun _ => 0, 0, 0, [], []⟩ _ hproper).lone.1
  have hsame := hlone [.press leftShift, .press rightShift] leftShift [] rfl rfl rightShift (by decide) rfl
  cases hsame

end ElephantOS.Keyboard
