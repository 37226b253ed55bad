import ElephantOS.PartitionScan

namespace ElephantOS.PartitionScan

open ByteMemory HaltingState

def target (base : ℕ) (e : Entry) : ℕ := if base ≠ 0 then (e.startLba + base) % 4294967296 else e.startLba

def baseBehind (base : ℕ) (e : Entry) : ℕ := if base ≠ 0 then base else e.startLba

def Entry.part (e : Entry) (lba : ℕ) : Part := ⟨(lba + e.startLba) % 4294967296, e.secCnt⟩

inductive Tour (disk : Memory) : ℕ → ℕ → ℕ → List Entry → List Step → ℕ → ℕ → Prop
  | nil {base l lba : ℕ} : Tour disk base l lba [] [] base 0
  | unused {base base' l lba depth : ℕ} {e : Entry} {es : List Entry} {steps : List Step} : e.fsType = 0 →
    Tour disk base l lba es steps base' depth → Tour disk base l lba (e :: es) steps base' depth
  | prim {base base' l depth : ℕ} {e : Entry} {es : List Entry} {steps : List Step} : e.Used →
    Tour disk base l 0 es steps base' depth → Tour disk base l 0 (e :: es) (.prim (e.part 0) :: steps) base' depth
  | logic {base base' l lba depth : ℕ} {e : Entry} {es : List Entry} {steps : List Step} : e.Used → lba ≠ 0 → l + 1 ≠ 8 →
    Tour disk base (l + 1) lba es steps base' depth → Tour disk base l lba (e :: es) (.logic (e.part lba) :: steps) base' depth
  | eighth {base lba : ℕ} {e : Entry} {es : List Entry} : e.Used → lba ≠ 0 →
    Tour disk base 7 lba (e :: es) [.logic (e.part lba)] base 0
  | link {base base₁ base' l lba depth depth' : ℕ} {e : Entry} {es : List Entry} {inner steps : List Step} : e.fsType = 5 →
    Tour disk (baseBehind base e) l (target base e) (table disk (target base e)) inner base₁ depth →
    Tour disk base₁ (l + inner.countP Step.isLogic) lba es steps base' depth' →
    Tour disk base l lba (e :: es) (.ebr (target base e) :: (inner ++ steps)) base' (max (depth + 1) depth')

/-- The counters past a tour, with the limits of the two arrays and of `max_lba`. -/
structure Counted (s : ScanState) (steps : List Step) (s' : ScanState) : Prop where
  prim : s'.pNo = s.pNo + steps.countP Step.isPrim
  logic : s'.lNo = s.lNo + steps.countP Step.isLogic
  primBound : s'.pNo ≤ 3
  logicBound : s'.lNo ≤ 8
  ebr : ∀ lba, .ebr lba ∈ steps → lba ≤ 163839

section

variable {disk : Memory} {hd lba : ℕ} {s s' : ScanState} {e : Entry} {es : List Entry}

theorem scanTable_link (scan : ℕ → ScanM Unit) (h : e.fsType = 5) (s : ScanState) : scanTable scan hd lba (e :: es) s =
    (scan (target s.extLbaBase e) >>= fun _ => scanTable scan hd lba es) { s with extLbaBase := baseBehind s.extLbaBase e } := by
  rw [scanTable, if_pos h, get_bind]
  unfold target baseBehind
  split_ifs <;> rfl

theorem addPrim_pNo (p : Part) (h : s.pNo ≤ 3) : (s.addPrim hd p).pNo = s.pNo + 1 := Nat.mod_eq_of_lt (by omega)

theorem addLogic_lNo (p : Part) (h : s.lNo ≤ 8) : (s.addLogic hd p).lNo = s.lNo + 1 := Nat.mod_eq_of_lt (by omega)

theorem scanTable_prim (scan : ℕ → ScanM Unit) (h : e.Used) (s : ScanState) : scanTable scan hd 0 (e :: es) s =
    if (s.addPrim hd (e.part 0)).pNo < 4 then scanTable scan hd 0 es (s.addPrim hd (e.part 0)) else .error .primaries := by
  rw [scanTable, if_neg h.2, if_pos h.1, if_pos rfl, modify_bind, get_bind, check_bind]
  rfl

theorem scanTable_logic (scan : ℕ → ScanM Unit) (h : e.Used) (hlba : lba ≠ 0) (s : ScanState) : scanTable scan hd lba (e :: es) s =
    if s.lNo < 8 then
      if 8 ≤ (s.addLogic hd (e.part lba)).lNo then .ok ((), s.addLogic hd (e.part lba))
      else scanTable scan hd lba es (s.addLogic hd (e.part lba))
    else .error .overrun := by
  rw [scanTable, if_neg h.2, if_pos h.1, if_neg hlba, get_bind, check_bind]
  split_ifs with hlt hge
  · rw [set_bind, get_bind]
    exact congrFun (if_pos hge) _
  · rw [set_bind, get_bind]
    exact congrFun (if_neg hge) _
  · rfl

theorem scanTable_free (scan : ℕ → ScanM Unit) (h : e.fsType = 0) (s : ScanState) :
    scanTable scan hd lba (e :: es) s = scanTable scan hd lba es s := by
  rw [scanTable, if_neg (by omega), if_neg (by omega)]

theorem Entry.kinds (e : Entry) : e.fsType = 0 ∨ e.fsType = 5 ∨ e.Used := by
  unfold Used
  omega

theorem Counted.cons {st : Step} {steps : List Step} {s₁ : ScanState} (h : Counted s₁ steps s')
    (hprim : s₁.pNo = s.pNo + [st].countP Step.isPrim) (hlogic : s₁.lNo = s.lNo + [st].countP Step.isLogic)
    (hebr : ∀ lba, st = .ebr lba → lba ≤ 163839) : Counted s (st :: steps) s' := by
  have hsplit : st :: steps = [st] ++ steps := rfl
  refine ⟨?_, ?_, h.primBound, h.logicBound, ?_⟩
  · rw [hsplit, List.countP_append, h.prim, hprim, Nat.add_assoc]
  · rw [hsplit, List.countP_append, h.logic, hlogic, Nat.add_assoc]
  · intro lba hmem
    rcases List.mem_cons.mp hmem with he | hmem
    · exact hebr lba he.symm
    · exact h.ebr lba hmem

theorem Counted.append {inner steps : List Step} {s₁ : ScanState} (h₁ : Counted s inner s₁) (h : Counted s₁ steps s') :
    Counted s (inner ++ steps) s' := by
  refine ⟨?_, ?_, h.primBound, h.logicBound, ?_⟩
  · rw [List.countP_append, h.prim, h₁.prim, Nat.add_assoc]
  · rw [List.countP_append, h.logic, h₁.logic, Nat.add_assoc]
  · intro lba hmem
    rcases List.mem_append.mp hmem with hmem | hmem
    · exact h₁.ebr lba hmem
    · exact h.ebr lba hmem

def Toured (disk : Memory) (levels lba : ℕ) (es : List Entry) (s s' : ScanState) : Prop :=
  ∃ steps depth, Tour disk s.extLbaBase s.lNo lba es steps s'.extLbaBase depth ∧ depth ≤ levels ∧ Counted s steps s'

theorem scanTable_toured {n : ℕ} (scan : ℕ → ScanM Unit) (hscan : ∀ lba s s', scan lba s = .ok ((), s') → s.pNo ≤ 3 → s.lNo ≤ 8 →
    lba ≤ 163839 ∧ ∃ k < n, Toured disk k lba (table disk lba) s s') (h : scanTable scan hd lba es s = .ok ((), s')) (hp : s.pNo ≤ 3)
    (hl : s.lNo ≤ 8) : Toured disk n lba es s s' := by
  induction es generalizing s with
  | nil =>
    cases h
    exact ⟨[], 0, .nil, Nat.zero_le _, rfl, rfl, hp, hl, by simp⟩
  | cons e es ih =>
    rcases e.kinds with hfree | hlink | hused
    · rw [scanTable_free scan hfree] at h
      obtain ⟨steps, depth, htour, hdepth, hcount⟩ := ih h hp hl
      exact ⟨steps, depth, .unused hfree htour, hdepth, hcount⟩
    · rw [scanTable_link scan hlink] at h
      obtain ⟨_, s₁, hinner, hrest⟩ := (bind_ok _ _ _ _).mp h
      obtain ⟨hlba, k, hk, inner, depth₁, htour₁, hdepth₁, hcount₁⟩ := hscan _ _ _ hinner hp hl
      obtain ⟨steps, depth, htour, hdepth, hcount⟩ := ih hrest hcount₁.primBound hcount₁.logicBound
      rw [hcount₁.logic] at htour
      refine ⟨_, _, .link hlink htour₁ htour, max_le (by omega) hdepth, ?_⟩
      apply (hcount₁.append hcount).cons
      · rfl
      · rfl
      · rintro _ ⟨rfl⟩
        exact hlba
    · by_cases hzero : lba = 0
      · subst hzero
        rw [scanTable_prim scan hused] at h
        split_ifs at h with hfour
        rw [addPrim_pNo _ hp] at hfour
        obtain ⟨steps, depth, htour, hdepth, hcount⟩ := ih h (by rw [addPrim_pNo _ hp]; omega) hl
        refine ⟨_, depth, .prim hused htour, hdepth, ?_⟩
        apply hcount.cons
        · rw [addPrim_pNo _ hp]
          rfl
        · rfl
        · rintro _ ⟨⟩
      · rw [scanTable_logic scan hused hzero] at h
        split_ifs at h with hlt hge
        · cases h
          rw [addLogic_lNo _ hl] at hge
          have hseven : s.lNo = 7 := by omega
          refine ⟨[.logic (e.part lba)], 0, ?_, Nat.zero_le _, ?_, ?_, hp, ?_, by simp⟩
          · rw [hseven]
            exact .eighth hused hzero
          · rfl
          · exact addLogic_lNo _ hl
          · rw [addLogic_lNo _ hl]
            omega
        · rw [addLogic_lNo _ hl] at hge
          obtain ⟨steps, depth, htour, hdepth, hcount⟩ := ih h hp (by rw [addLogic_lNo _ hl]; omega)
          rw [addLogic_lNo _ hl] at htour
          refine ⟨_, depth, .logic hused hzero (by omega) htour, hdepth, ?_⟩
          apply hcount.cons
          · rfl
          · rw [addLogic_lNo _ hl]
            rfl
          · rintro _ ⟨⟩

theorem partitionScan_toured {n : ℕ} (h : partitionScan disk hd n lba s = .ok ((), s')) (hp : s.pNo ≤ 3) (hl : s.lNo ≤ 8) :
    lba ≤ 163839 ∧ ∃ k < n, Toured disk k lba (table disk lba) s s' := by
  induction n generalizing lba s s' with
  | zero => cases h
  | succ n ih =>
    rw [partitionScan, check_bind] at h
    split_ifs at h with hlba
    exact ⟨hlba, n, Nat.lt_succ_self n, scanTable_toured _ (fun lba s s' h hp hl => ih h hp hl) h hp hl⟩

end

def Slot.InArray : Slot → Prop
  | .prim i => i < 4
  | .logic i => i < 8

/-- Nothing is written outside the two arrays. -/
def Confined (s s' : ScanState) : Prop := ∀ d slot, ¬ slot.InArray → s'.records d slot = s.records d slot

section

variable {disk : Memory} {hd lba : ℕ} {s s' s'' : ScanState} {e : Entry} {es : List Entry}

theorem Confined.refl (s : ScanState) : Confined s s := fun _ _ _ => rfl

theorem Confined.trans (h : Confined s s') (h' : Confined s' s'') : Confined s s'' := by
  intro d slot hslot
  rw [h' d slot hslot, h d slot hslot]

theorem update_confined {slot : Slot} {p : Part} (hin : slot.InArray) {records : ℕ → Slot → Part} {d : ℕ} {other : Slot} (hother : ¬ other.InArray) :
    Function.update records hd (Function.update (records hd) slot p) d other = records d other := by
  have hne : other ≠ slot := by
    rintro rfl
    exact hother hin
  by_cases hd' : d = hd
  · rw [hd', Function.update_self, Function.update_of_ne hne]
  · rw [Function.update_of_ne hd']

theorem addPrim_confined (p : Part) (h : s.pNo ≤ 3) : Confined s (s.addPrim hd p) := by
  intro d slot hslot
  exact update_confined (show (Slot.prim s.pNo).InArray from Nat.lt_succ_of_le h) hslot

theorem addLogic_confined (p : Part) (h : s.lNo < 8) : Confined s (s.addLogic hd p) := by
  intro d slot hslot
  exact update_confined (show (Slot.logic s.lNo).InArray from h) hslot

theorem Tour.scanned {base base' l depth : ℕ} {steps : List Step} (h : Tour disk base l lba es steps base' depth) (hbase : s.extLbaBase = base)
    (hl : s.lNo = l) (hprims : s.pNo + steps.countP Step.isPrim ≤ 3) (hlogics : l + steps.countP Step.isLogic ≤ 8)
    (hebr : ∀ lba, .ebr lba ∈ steps → lba ≤ 163839) {n : ℕ} (hn : depth ≤ n) :
    ∃ s', scanTable (partitionScan disk hd n) hd lba es s = .ok ((), s') ∧
      s'.extLbaBase = base' ∧ s'.pNo = s.pNo + steps.countP Step.isPrim ∧ s'.lNo = l + steps.countP Step.isLogic ∧ Confined s s' := by
  induction h generalizing n s with
  | nil => exact ⟨s, rfl, hbase, rfl, hl, Confined.refl s⟩
  | unused hfree _ ih =>
    rw [scanTable_free _ hfree]
    exact ih hbase hl hprims hlogics hebr hn
  | @prim base base' l depth e es steps hused _ ih =>
    simp only [List.countP_cons, Step.isPrim, Step.isLogic, if_true, Bool.false_eq_true, if_false, Nat.add_zero] at hprims hlogics ⊢
    have hp : s.pNo ≤ 3 := by omega
    have hnext := @addPrim_pNo hd s (e.part 0) hp
    obtain ⟨s', hrun, hbase', hp', hl', hconf⟩ := ih (s := s.addPrim hd (e.part 0)) hbase hl (by rw [hnext]; omega) hlogics
      (fun lba hmem => hebr lba (List.mem_cons_of_mem _ hmem)) hn
    refine ⟨s', ?_, hbase', ?_, hl', (addPrim_confined _ hp).trans hconf⟩
    · rw [scanTable_prim _ hused, hnext, if_pos (by omega)]
      exact hrun
    · rw [hp', hnext]
      omega
  | @logic base base' l lba depth e es steps hused hlba hne _ ih =>
    simp only [List.countP_cons, Step.isPrim, Step.isLogic, if_true, Bool.false_eq_true, if_false, Nat.add_zero] at hprims hlogics ⊢
    have hlt : s.lNo < 8 := by omega
    have hnext := @addLogic_lNo hd s (e.part lba) hlt.le
    obtain ⟨s', hrun, hbase', hp', hl', hconf⟩ := ih (s := s.addLogic hd (e.part lba)) hbase (by rw [hnext, hl]) hprims (by omega)
      (fun lba hmem => hebr lba (List.mem_cons_of_mem _ hmem)) hn
    refine ⟨s', ?_, hbase', hp', ?_, (addLogic_confined _ hlt).trans hconf⟩
    · rw [scanTable_logic _ hused hlba, if_pos hlt, hnext, if_neg (by omega)]
      exact hrun
    · rw [hl']
      omega
  | @eighth base lba e es hused hlba =>
    have hlt : s.lNo < 8 := by omega
    have hnext := @addLogic_lNo hd s (e.part lba) hlt.le
    refine ⟨s.addLogic hd (e.part lba), ?_, hbase, rfl, ?_, addLogic_confined _ hlt⟩
    · rw [scanTable_logic _ hused hlba, if_pos hlt, hnext, if_pos (by omega)]
    · rw [hnext, hl]
      rfl
  | @link base base₁ base' l lba depth depth' e es inner steps hlink _ _ ih₁ ih =>
    simp only [List.countP_cons, List.countP_append, Step.isPrim, Step.isLogic, Bool.false_eq_true, if_false, Nat.add_zero] at hprims hlogics ⊢
    obtain ⟨hinner, hrest⟩ := max_le_iff.mp hn
    obtain ⟨k, rfl⟩ : ∃ k, n = k + 1 := ⟨n - 1, by omega⟩
    obtain ⟨s₁, hrun₁, hbase₁, hp₁, hl₁, hconf₁⟩ := ih₁ (s := { s with extLbaBase := baseBehind base e }) rfl hl (by simp only; omega)
      (by omega) (fun lba hmem => hebr lba (List.mem_cons_of_mem _ (List.mem_append_left _ hmem))) (Nat.le_of_succ_le_succ hinner)
    obtain ⟨s', hrun, hbase', hp', hl', hconf⟩ := ih hbase₁ hl₁ (by rw [hp₁]; simp only; omega) (by omega)
      (fun lba hmem => hebr lba (List.mem_cons_of_mem _ (List.mem_append_right _ hmem))) hrest
    refine ⟨s', ?_, hbase', ?_, ?_, ?_⟩
    · have htarget : target base e ≤ 163839 := hebr _ (List.mem_cons_self ..)
      rw [scanTable_link _ hlink, hbase]
      refine (bind_ok _ _ _ _).mpr ⟨(), s₁, ?_, hrun⟩
      rw [partitionScan, check_bind, if_pos htarget]
      exact hrun₁
    · rw [hp', hp₁, Nat.add_assoc]
    · rw [hl', Nat.add_assoc]
    · exact hconf₁.trans hconf

end

/-- The scan of the disk returns on a stack of `levels` calls and stays inside the arrays. -/
def Survives (disk : Memory) (hd levels : ℕ) (s : ScanState) : Prop :=
  ∃ s', partitionScan disk hd levels 0 s = .ok ((), s') ∧ Confined s s'

/-- The tour of the disk is finite, nests no deeper than the stack allows, meets at most three primary and at most eight logical
partitions, and no boot record behind `max_lba`. -/
def Tourable (disk : Memory) (levels base : ℕ) : Prop := ∃ steps base' depth, Tour disk base 0 0 (table disk 0) steps base' depth ∧
  depth < levels ∧ steps.countP Step.isPrim ≤ 3 ∧ steps.countP Step.isLogic ≤ 8 ∧ ∀ lba, .ebr lba ∈ steps → lba ≤ 163839

theorem Survives.tourable {disk : Memory} {hd levels : ℕ} {s : ScanState} (h : Survives disk hd levels s) (hp : s.pNo = 0) (hl : s.lNo = 0) :
    Tourable disk levels s.extLbaBase := by
  obtain ⟨s', hrun, -⟩ := h
  obtain ⟨-, k, hk, steps, depth, htour, hdepth, hcount⟩ := partitionScan_toured hrun (by omega) (by omega)
  have hprim := hcount.prim
  have hlogic := hcount.logic
  have hprims := hcount.primBound
  have hlogics := hcount.logicBound
  rw [hl] at htour
  exact ⟨steps, _, depth, htour, by omega, by omega, by omega, hcount.ebr⟩

/-- A scan with its counters at zero survives exactly the disks that can be toured. -/
theorem partitionScan_survives (disk : Memory) (hd levels : ℕ) (s : ScanState) (hp : s.pNo = 0) (hl : s.lNo = 0) :
    Survives disk hd levels s ↔ Tourable disk levels s.extLbaBase := by
  constructor
  · intro h
    exact h.tourable hp hl
  · rintro ⟨steps, base', depth, htour, hdepth, hprims, hlogics, hebr⟩
    obtain ⟨k, rfl⟩ : ∃ k, levels = k + 1 := ⟨levels - 1, by omega⟩
    obtain ⟨s', hrun, -, -, -, hconf⟩ := @Tour.scanned disk hd _ s _ _ _ _ _ _ htour rfl hl (by omega) (by omega) hebr k (Nat.le_of_lt_succ hdepth)
    refine ⟨s', ?_, hconf⟩
    rw [partitionScan, check_bind, if_pos (Nat.zero_le _)]
    exact hrun

theorem partitionScan_survives_chained : Survives chained 1 3 start := by
  apply (partitionScan_survives chained 1 3 start rfl rfl).mpr
  have hfree : ∀ base l lba, Tour chained base l lba [⟨0, 0, 0⟩, ⟨0, 0, 0⟩] [] base 0 := by
    intro base l lba
    exact .unused rfl (.unused rfl .nil)
  have hlast : Tour chained 10 1 17 (table chained 17) [.logic ⟨18, 2⟩] 10 0 := by
    have htable : table chained 17 = [⟨131, 1, 2⟩, ⟨0, 0, 0⟩, ⟨0, 0, 0⟩, ⟨0, 0, 0⟩] := by decide
    rw [htable]
    exact .logic (by decide) (by decide) (by decide) (.unused rfl (hfree _ _ _))
  have hfirst : Tour chained 10 0 10 (table chained 10) [.logic ⟨11, 3⟩, .ebr 17, .logic ⟨18, 2⟩] 10 1 := by
    have htable : table chained 10 = [⟨131, 1, 3⟩, ⟨5, 7, 0⟩, ⟨0, 0, 0⟩, ⟨0, 0, 0⟩] := by decide
    have hlink := @Tour.link chained 10 10 10 1 10 0 0 ⟨5, 7, 0⟩ _ [.logic ⟨18, 2⟩] [] rfl hlast (hfree _ _ _)
    rw [htable]
    exact .logic (by decide) (by decide) (by decide) hlink
  have htour : Tour chained 0 0 0 (table chained 0) [.prim ⟨1, 9⟩, .ebr 10, .logic ⟨11, 3⟩, .ebr 17, .logic ⟨18, 2⟩] 10 2 := by
    have htable : table chained 0 = [⟨131, 1, 9⟩, ⟨5, 10, 0⟩, ⟨0, 0, 0⟩, ⟨0, 0, 0⟩] := by decide
    have hlink := @Tour.link chained 0 10 10 0 0 1 0 ⟨5, 10, 0⟩ _ [.logic ⟨11, 3⟩, .ebr 17, .logic ⟨18, 2⟩] [] rfl hfirst (hfree _ _ _)
    rw [htable]
    exact .prim (by decide) hlink
  refine ⟨_, _, _, htour, by decide, by decide, by decide, ?_⟩
  intro lba hmem
  simp only [List.mem_cons, Step.ebr.injEq, reduceCtorEq, List.not_mem_nil, or_false, false_or] at hmem
  omega

def looped : Memory := fun a =>
  match a with
  | 450 => 5 | 454 => 1
  | 962 => 5
  | _ => 0

theorem looped_never (n : ℕ) {s s' : ScanState} (hbase : s.extLbaBase = 1) : partitionScan looped 0 n 1 s ≠ .ok ((), s') := by
  induction n generalizing s s' with
  | zero =>
    intro h
    cases h
  | succ n ih =>
    intro h
    have htable : table looped 1 = [⟨5, 0, 0⟩, ⟨0, 0, 0⟩, ⟨0, 0, 0⟩, ⟨0, 0, 0⟩] := by decide
    rw [partitionScan, check_bind, if_pos (by decide), htable, scanTable_link _ rfl] at h
    obtain ⟨_, s₁, hinner, -⟩ := (bind_ok _ _ _ _).mp h
    rw [hbase] at hinner
    exact ih rfl hinner

/-- No stack is large enough for this disk. -/
theorem looped_scan : ¬ ∃ levels, ∀ disk hd, Survives disk hd levels start := by
  rintro ⟨levels, h⟩
  obtain ⟨s', hscan, -⟩ := h looped 0
  have htable : table looped 0 = [⟨5, 1, 0⟩, ⟨0, 0, 0⟩, ⟨0, 0, 0⟩, ⟨0, 0, 0⟩] := by decide
  cases levels with
  | zero => cases hscan
  | succ levels =>
    rw [partitionScan, check_bind, if_pos (Nat.zero_le _), htable, scanTable_link _ rfl] at hscan
    obtain ⟨_, s₁, hinner, -⟩ := (bind_ok _ _ _ _).mp hscan
    exact looped_never levels rfl hinner

end ElephantOS.PartitionScan
