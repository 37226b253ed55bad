import ElephantOS.PathResolution

/-! `path_parse` of `fs/fs.c` byte by byte, and the two loops that call it again and again on one name buffer. -/

namespace ElephantOS.PathTokens

open ByteMemory HaltingState

structure Buffer where
  /-- the memory from the start of `name` on -/
  name : Memory
  /-- the places in `name` that `path_parse` has stored a byte at, the last one first -/
  stores : List ℕ

abbrev ParseM := Exec Halt Buffer

/-- `*name_store = c`; what a byte behind the array overwrites is not known. -/
def storeName (nameStore : ℕ) (c : UInt8) : ParseM Unit := do
  if nameStore < maxFileNameLen then
    modify fun b => { b with name := Function.update b.name nameStore c, stores := nameStore :: b.stores }
  else halt .wild

/-- The second loop of `path_parse`. -/
def copyName : Path → ℕ → ParseM Path
  | [], _ => return []
  | c :: pathname, nameStore =>
    if c = slash then return c :: pathname
    else do
      storeName nameStore c
      copyName pathname (nameStore + 1)

def pathParse (pathname : Path) : ParseM (Option Path) := do
  let pathname ← copyName (pathname.dropWhile (· = slash)) 0
  return if pathname = [] then none else some pathname

/-- `memset(name, 0, MAX_FILE_NAME_LEN)` -/
def clearName : ParseM Unit := modify fun b => { b with name := blit b.name 0 zeros maxFileNameLen }

/-- `if (p) p = path_parse(p, name)` -/
def parseMore : Option Path → ParseM (Option Path)
  | none => return none
  | some p => pathParse p

/-- The loop of `search_file` over the names it finds. -/
def tokensFrom : ℕ → Option Path → ParseM (List Name)
  | 0, _ => halt .hang
  | fuel + 1, subPath => do
    let b ← get
    if b.name 0 = 0 then return []
    clearName
    let subPath ← parseMore subPath
    let more ← tokensFrom fuel subPath
    return nameAt b.name 0 :: more

/-- `search_file` starts with `name` cleared. -/
def tokens (pathname : Path) : ParseM (List Name) := do
  clearName
  let subPath ← pathParse pathname
  tokensFrom (pathname.length + 1) subPath

/-- The loop of `path_depth_cnt`. -/
def depthFrom : ℕ → ℕ → Option Path → ParseM ℕ
  | 0, _, _ => halt .hang
  | fuel + 1, depth, p => do
    let b ← get
    if b.name 0 = 0 then return depth
    clearName
    let p ← parseMore p
    depthFrom fuel (depth + 1) p

/-- `path_depth_cnt` leaves `name` as it was on the stack. -/
def pathDepthCnt (pathname : Path) : ParseM ℕ := do
  let p ← pathParse pathname
  depthFrom (pathname.length + 2) 0 p

/-- Every byte stored since leaves room in `name` for a terminator. -/
def InBuffer (b b' : Buffer) : Prop := ∃ l, b'.stores = l ++ b.stores ∧ ∀ off ∈ l, off + 1 < maxFileNameLen

/-- The buffer after `path_parse` has stored `name` in it. -/
def Buffer.write (b : Buffer) (n : ℕ) (name : Name) : Buffer :=
  { name := blit b.name n (ofList name) name.length, stores := (List.range' n name.length).reverse ++ b.stores }

def Cleared (b : Buffer) : Prop := ∀ i < maxFileNameLen, b.name i = 0

variable {b b' : Buffer} {path : Path}

theorem InBuffer.refl (b : Buffer) : InBuffer b b := ⟨[], rfl, by simp⟩

theorem InBuffer.trans {b'' : Buffer} (h : InBuffer b b') (h' : InBuffer b' b'') : InBuffer b b'' := by
  obtain ⟨l, hl, hin⟩ := h
  obtain ⟨l', hl', hin'⟩ := h'
  refine ⟨l' ++ l, by rw [hl', hl, List.append_assoc], ?_⟩
  intro off hoff
  rcases List.mem_append.mp hoff with hoff | hoff
  · exact hin' off hoff
  · exact hin off hoff

theorem clearName_eq (b : Buffer) : ∃ b', clearName b = .ok ((), b') ∧ Cleared b' ∧ b'.stores = b.stores := by
  refine ⟨_, rfl, ?_, rfl⟩
  intro i hi
  have h : blit b.name 0 zeros maxFileNameLen (0 + i) = 0 := blit_inside b.name zeros hi
  rwa [Nat.zero_add] at h

theorem write_nil (b : Buffer) (n : ℕ) : b.write n [] = b := by
  have hname : blit b.name n (ofList []) 0 = b.name := by
    funext a
    exact blit_outside _ _ (by omega)
  simp [Buffer.write, hname]

theorem write_cons (b : Buffer) (n : ℕ) (c : UInt8) (name : Name) :
    Buffer.write { b with name := Function.update b.name n c, stores := n :: b.stores } (n + 1) name = b.write n (c :: name) := by
  have hname : blit (Function.update b.name n c) (n + 1) (ofList name) name.length =
      blit b.name n (ofList (c :: name)) (name.length + 1) := by
    funext a
    by_cases ha : n + 1 ≤ a ∧ a < n + 1 + name.length
    · rw [blit_apply, if_pos ha, blit_apply, if_pos (by omega)]
      obtain ⟨i, rfl⟩ := Nat.exists_eq_add_of_le ha.1
      have hi : n + 1 + i - n = i + 1 := by omega
      rw [Nat.add_sub_cancel_left, hi]
      simp [ofList]
    · rw [blit_apply, if_neg ha]
      by_cases han : a = n
      · rw [han, Function.update_self, blit_apply, if_pos (by omega), Nat.sub_self]
        rfl
      · rw [Function.update_of_ne han, blit_apply, if_neg (by omega)]
  simp [Buffer.write, hname, List.range'_succ]

theorem copyName_eq (path : Path) {n : ℕ} (hn : n ≤ 16) : copyName path n b =
    if n + (path.takeWhile (· ≠ slash)).length ≤ 16 then
      .ok (path.dropWhile (· ≠ slash), b.write n (path.takeWhile (· ≠ slash)))
    else .error .wild := by
  induction path generalizing n b with
  | nil =>
    rw [List.takeWhile_nil, write_nil, if_pos (by simpa using hn)]
    rfl
  | cons c path ih =>
    by_cases hc : c = slash
    · have hstop : ¬ decide (c ≠ slash) = true := by simpa using hc
      simp only [List.takeWhile_cons, List.dropWhile_cons, if_neg hstop]
      rw [write_nil, if_pos (by simpa using hn), copyName,
        if_pos hc]
      rfl
    · have hgo : decide (c ≠ slash) = true := by simpa using hc
      simp only [List.takeWhile_cons, List.dropWhile_cons, if_pos hgo]
      rw [copyName, if_neg hc, List.length_cons]
      by_cases hroom : n < maxFileNameLen
      · have hroom' : n < 16 := hroom
        have hstore : storeName n c b =
            .ok ((), { b with name := Function.update b.name n c, stores := n :: b.stores }) := by
          rw [storeName, if_pos hroom]
          rfl
        rw [bind_eq hstore, ih (by omega), write_cons, Nat.add_right_comm, Nat.add_assoc n]
      · have hroom' : ¬ n < 16 := hroom
        have hstore : storeName n c b = .error .wild := by
          rw [storeName, if_neg hroom]
          rfl
        rw [bind_error hstore, if_neg (by omega)]

theorem pathParse_eq (path : Path) : pathParse path b =
    if (ElephantOS.pathParse path).1.length ≤ 16 then
      .ok ((ElephantOS.pathParse path).2, b.write 0 (ElephantOS.pathParse path).1)
    else .error .wild := by
  have hcopy : copyName (path.dropWhile (· = slash)) 0 b =
      if (ElephantOS.pathParse path).1.length ≤ 16 then
        .ok ((path.dropWhile (· = slash)).dropWhile (· ≠ slash), b.write 0 (ElephantOS.pathParse path).1)
      else .error .wild := by
    have h := copyName_eq (b := b) (path.dropWhile (· = slash)) (Nat.zero_le 16)
    rwa [Nat.zero_add] at h
  by_cases hlen : (ElephantOS.pathParse path).1.length ≤ 16
  · rw [if_pos hlen] at hcopy ⊢
    rw [pathParse, bind_eq hcopy]
    rfl
  · rw [if_neg hlen] at hcopy ⊢
    rw [pathParse, bind_error hcopy]

theorem parseMore_eq (p : Option Path) : parseMore p = pathParse (p.getD []) := by
  cases p <;> rfl

theorem zero_notMem (h0 : 0 ∉ path) : 0 ∉ (ElephantOS.pathParse path).1 ∧ 0 ∉ (ElephantOS.pathParse path).2.getD [] := by
  obtain ⟨slashes, name, hpath, -, hname, -⟩ := pathParse_split path
  rw [hpath, List.mem_append, List.mem_append, hname] at h0
  tauto

theorem rest_length (h : (ElephantOS.pathParse path).1 ≠ []) : ((ElephantOS.pathParse path).2.getD []).length < path.length := by
  obtain ⟨slashes, name, hpath, -, hname, -⟩ := pathParse_split path
  have hlen := congrArg List.length hpath
  have hpos := List.length_pos_iff.mpr h
  rw [List.length_append, List.length_append, hname] at hlen
  omega

theorem write_first (b : Buffer) {name : Name} (h0 : 0 ∉ name) (h : name ≠ []) : (b.write 0 name).name 0 ≠ 0 := by
  cases name with
  | nil => exact absurd rfl h
  | cons c name =>
    have hc : (b.write 0 (c :: name)).name 0 = c := by simp [Buffer.write, blit, ofList]
    rw [hc]
    rintro rfl
    exact h0 List.mem_cons_self

theorem write_nameAt {name : Name} (hb : Cleared b) (h0 : 0 ∉ name) (hlen : name.length ≤ 16) :
    nameAt (b.write 0 name).name 0 = name := by
  apply nameFrom_ofList h0 hlen
  intro i hi
  by_cases hin : i < name.length
  · exact blit_inside _ _ hin
  · have hzero : ofList name i = 0 := by
      have hi' : name.length ≤ i := by omega
      simp [ofList, List.getElem?_eq_none hi']
    have hsame : (b.write 0 name).name i = b.name i := blit_outside _ _ (by omega)
    rw [hzero, Nat.zero_add, hsame]
    exact hb i hi

theorem write_inBuffer (b : Buffer) {name : Name} (hlen : name.length < 16) : InBuffer b (b.write 0 name) := by
  refine ⟨_, rfl, ?_⟩
  intro off hoff
  rw [List.mem_reverse, List.mem_range'] at hoff
  unfold maxFileNameLen
  omega

theorem depthFrom_eq (fuel depth : ℕ) (p : Option Path) :
    depthFrom fuel depth p = (do let l ← tokensFrom fuel p; return depth + l.length) := by
  induction fuel generalizing depth p with
  | zero => rfl
  | succ fuel ih =>
    funext b
    have hmore : ∀ p, depthFrom fuel (depth + 1) p = (do let l ← tokensFrom fuel p; return depth + (l.length + 1)) := by
      intro p
      simp only [ih, Nat.add_right_comm depth 1, Nat.add_assoc]
    rw [depthFrom, tokensFrom, bind_assoc, get_bind, get_bind]
    by_cases hstop : b.name 0 = 0
    · rw [if_pos hstop, if_pos hstop]
      rfl
    · rw [if_neg hstop, if_neg hstop]
      simp only [hmore, bind_assoc, pure_bind, List.length_cons]

theorem tokensFrom_runs {fuel : ℕ} (hb : Cleared b) (h0 : 0 ∉ path) (hfuel : path.length < fuel)
    (hnames : ∀ c ∈ components path, c.length < 16) :
    Runs (pathParse path >>= tokensFrom fuel) b fun r b' => r = components path ∧ InBuffer b b' := by
  induction fuel generalizing path b with
  | zero => omega
  | succ fuel ih =>
    obtain ⟨hname0, hrest0⟩ := zero_notMem h0
    have hcomp := components_eq path
    by_cases hnil : (ElephantOS.pathParse path).1 = []
    · rw [if_pos hnil] at hcomp
      have hparse : pathParse path b = .ok ((ElephantOS.pathParse path).2, b) := by
        rw [pathParse_eq, hnil, write_nil]
        rfl
      have hstop : b.name 0 = 0 := hb 0 (by decide)
      refine Runs.step hparse ?_
      rw [tokensFrom]
      apply Runs.get
      rw [if_pos hstop]
      exact Runs.pure ⟨hcomp.symm, InBuffer.refl b⟩
    · rw [if_neg hnil] at hcomp
      rw [hcomp] at hnames
      have hlen := hnames _ List.mem_cons_self
      have hparse := pathParse_eq (b := b) path
      rw [if_pos hlen.le] at hparse
      obtain ⟨b₂, hclear, hb₂, hstores⟩ := clearName_eq (b.write 0 (ElephantOS.pathParse path).1)
      refine Runs.step hparse ?_
      rw [tokensFrom]
      apply Runs.get
      rw [if_neg (write_first b hname0 hnil)]
      refine Runs.step hclear ?_
      rw [parseMore_eq, ← bind_assoc]
      have hlt := rest_length hnil
      have hrun := ih hb₂ hrest0 (by omega) fun c hc => hnames c (List.mem_cons_of_mem _ hc)
      apply hrun.bind
      rintro more b₃ ⟨rfl, l, hl, hin⟩
      refine Runs.pure ⟨?_, (write_inBuffer b hlen).trans ⟨l, by rw [hl, hstores], hin⟩⟩
      rw [write_nameAt hb hname0 hlen.le, hcomp]

theorem tokensFrom_stores {fuel : ℕ} {r : List Name} (hb : Cleared b) (h0 : 0 ∉ path)
    (h : (pathParse path >>= tokensFrom fuel) b = .ok (r, b')) : ∃ l, b'.stores = l ++ b.stores ∧
      ((∀ off ∈ l, off + 1 < maxFileNameLen) → ∀ c ∈ components path, c.length < 16) := by
  induction fuel generalizing path b r b' with
  | zero =>
    obtain ⟨_, _, -, hhalt⟩ := (bind_ok _ _ b _).mp h
    cases hhalt
  | succ fuel ih =>
    obtain ⟨hname0, hrest0⟩ := zero_notMem h0
    obtain ⟨p, b₁, hparse, hloop⟩ := (bind_ok _ _ b _).mp h
    rw [pathParse_eq] at hparse
    have hcomp := components_eq path
    by_cases hlen : (ElephantOS.pathParse path).1.length ≤ 16
    · rw [if_pos hlen] at hparse
      cases hparse
      rw [tokensFrom, get_bind] at hloop
      by_cases hnil : (ElephantOS.pathParse path).1 = []
      · rw [if_pos hnil] at hcomp
        have hstop : b.name 0 = 0 := hb 0 (by decide)
        rw [hnil, write_nil, if_pos hstop] at hloop
        cases hloop
        exact ⟨[], rfl, by simp [hcomp]⟩
      · rw [if_neg hnil] at hcomp
        obtain ⟨b₂, hclear, hb₂, hstores⟩ := clearName_eq (b.write 0 (ElephantOS.pathParse path).1)
        rw [if_neg (write_first b hname0 hnil), bind_eq hclear, parseMore_eq, ← bind_assoc] at hloop
        obtain ⟨more, b₃, hmore, hend⟩ := (bind_ok _ _ b₂ _).mp hloop
        cases hend
        obtain ⟨l, hl, hfit⟩ := ih hb₂ hrest0 hmore
        refine ⟨l ++ (List.range' 0 (ElephantOS.pathParse path).1.length).reverse, ?_, ?_⟩
        · rw [hl, hstores, List.append_assoc]
          rfl
        · intro hin c hc
          rw [hcomp] at hc
          rcases List.mem_cons.mp hc with rfl | hc
          · by_contra hlong
            have hlast := hin 15 (List.mem_append_right _ (by simp; omega))
            exact absurd hlast (by decide)
          · exact hfit (fun off hoff => hin off (List.mem_append_left _ hoff)) c hc
    · rw [if_neg hlen] at hparse
      cases hparse

theorem tokens_runs (b : Buffer) (h0 : 0 ∉ path) (hnames : ∀ c ∈ components path, c.length < 16) :
    Runs (tokens path) b fun r b' => r = components path ∧ InBuffer b b' := by
  obtain ⟨b₁, hclear, hb₁, hstores⟩ := clearName_eq b
  refine Runs.step hclear ?_
  apply (tokensFrom_runs hb₁ h0 (Nat.lt_succ_self _) hnames).mono
  rintro r b₂ ⟨hr, l, hl, hin⟩
  exact ⟨hr, l, by rw [hl, hstores], hin⟩

theorem tokens_fit {r : List Name} (h0 : 0 ∉ path) (h : tokens path b = .ok (r, b')) (hin : InBuffer b b') :
    ∀ c ∈ components path, c.length < 16 := by
  obtain ⟨b₁, hclear, hb₁, hstores⟩ := clearName_eq b
  rw [tokens, bind_eq hclear] at h
  obtain ⟨l, hl, hfit⟩ := tokensFrom_stores hb₁ h0 h
  obtain ⟨l', hl', hin'⟩ := hin
  rw [hl', hstores] at hl
  rw [List.append_cancel_right hl] at hin'
  exact hfit hin'

theorem pathDepthCnt_nameless (hnil : components path = []) :
    Runs (pathDepthCnt path) b fun r b' => r = (if b.name 0 = 0 then 0 else 1) ∧ InBuffer b b' := by
  have hname : (ElephantOS.pathParse path).1 = [] := by
    by_contra hne
    rw [components_eq, if_neg hne] at hnil
    cases hnil
  have hparse : pathParse path b = .ok (none, b) := by
    rw [pathParse_eq, hname, write_nil, pathParse_none hname]
    rfl
  refine Runs.step hparse ?_
  rw [depthFrom]
  apply Runs.get
  by_cases hstop : b.name 0 = 0
  · rw [if_pos hstop, if_pos hstop]
    exact Runs.pure ⟨rfl, InBuffer.refl b⟩
  · rw [if_neg hstop, if_neg hstop]
    obtain ⟨b₁, hclear, hb₁, hstores⟩ := clearName_eq b
    refine Runs.step hclear (Runs.step (a := none) rfl ?_)
    rw [depthFrom]
    apply Runs.get
    rw [if_pos (hb₁ 0 (by decide))]
    exact Runs.pure ⟨rfl, [], hstores, by simp⟩

theorem pathDepthCnt_runs (h0 : 0 ∉ path) (hnames : ∀ c ∈ components path, c.length < 16) (hne : components path ≠ []) :
    Runs (pathDepthCnt path) b fun r b' => r = (components path).length ∧ InBuffer b b' := by
  obtain ⟨hname0, hrest0⟩ := zero_notMem h0
  have hcomp := components_eq path
  have hname : (ElephantOS.pathParse path).1 ≠ [] := by
    intro hnil
    rw [if_pos hnil] at hcomp
    exact hne hcomp
  rw [if_neg hname] at hcomp
  rw [hcomp] at hnames
  have hlen := hnames _ List.mem_cons_self
  have hparse := pathParse_eq (b := b) path
  rw [if_pos hlen.le] at hparse
  refine Runs.step hparse ?_
  rw [depthFrom]
  apply Runs.get
  rw [if_neg (write_first b hname0 hname)]
  obtain ⟨b₁, hclear, hb₁, hstores⟩ := clearName_eq (b.write 0 (ElephantOS.pathParse path).1)
  refine Runs.step hclear ?_
  simp only [parseMore_eq, depthFrom_eq]
  rw [← bind_assoc]
  have hlt := rest_length hname
  have hfuel : ((ElephantOS.pathParse path).2.getD []).length < path.length + 1 := by omega
  apply (tokensFrom_runs hb₁ hrest0 hfuel fun c hc => hnames c (List.mem_cons_of_mem _ hc)).bind
  rintro more b₂ ⟨rfl, l, hl, hin⟩
  refine Runs.pure ⟨?_, (write_inBuffer b hlen).trans ⟨l, by rw [hl, hstores], hin⟩⟩
  rw [hcomp, List.length_cons]
  omega

/-- The names of the path come out in order, the count is theirs, and no store leaves the buffer. -/
def Tokenised (b : Buffer) (path : Path) : Prop :=
  (∃ b', tokens path b = .ok (components path, b') ∧ InBuffer b b') ∧
    ∃ b', pathDepthCnt path b = .ok ((components path).length, b') ∧ InBuffer b b'

/-- A path is taken apart as it should be exactly when every name leaves room for a terminator and, if there is
no name at all, the buffer of `path_depth_cnt` began with a zero. -/
theorem tokenised_iff (b : Buffer) (h0 : 0 ∉ path) : Tokenised b path ↔
    (∀ c ∈ components path, c.length < maxFileNameLen) ∧ (components path = [] → b.name 0 = 0) := by
  constructor
  · rintro ⟨⟨b₁, htokens, hin⟩, b₂, hdepth, -⟩
    refine ⟨tokens_fit h0 htokens hin, ?_⟩
    intro hnil
    obtain ⟨hcount, -⟩ := (pathDepthCnt_nameless hnil).returned hdepth
    by_contra hne
    rw [hnil, if_neg hne] at hcount
    cases hcount
  · rintro ⟨hnames, hjunk⟩
    obtain ⟨_, b₁, htokens, rfl, hin⟩ := tokens_runs b h0 hnames
    refine ⟨⟨b₁, htokens, hin⟩, ?_⟩
    by_cases hnil : components path = []
    · obtain ⟨_, b₂, hdepth, rfl, hin₂⟩ := pathDepthCnt_nameless (b := b) hnil
      rw [if_pos (hjunk hnil)] at hdepth
      exact ⟨b₂, by rw [hdepth, hnil]; rfl, hin₂⟩
    · obtain ⟨_, b₂, hdepth, rfl, hin₂⟩ := pathDepthCnt_runs (b := b) h0 hnames hnil
      exact ⟨b₂, hdepth, hin₂⟩

/-- A stack that holds other data. -/
def used : Buffer := { name := fun _ => 120, stores := [] }

theorem tokenised_iff_two : Tokenised used [47, 47, 97, 47, 98, 99, 47] := by
  have hcomp : components [47, 47, 97, 47, 98, 99, 47] = [[97], [98, 99]] := by decide
  apply (tokenised_iff used (by decide)).mpr
  rw [hcomp]
  exact ⟨by decide, by simp⟩

/-- "/" has no name and "/aaaaaaaaaaaaaaaa" has one of 16 characters. -/
theorem path_not_tokenised : ¬ Tokenised used [47] ∧ ¬ Tokenised used (47 :: List.replicate 16 97) := by
  constructor
  · rintro ⟨-, b', hdepth, -⟩
    have hnil : components [47] = [] := by decide
    obtain ⟨hcount, -⟩ := (pathDepthCnt_nameless hnil).returned hdepth
    exact absurd hcount (by decide)
  · rintro ⟨⟨b', htokens, hin⟩, -⟩
    have hfit := tokens_fit (by decide) htokens hin
    exact absurd (hfit (List.replicate 16 97) (by decide)) (by decide)

end ElephantOS.PathTokens
