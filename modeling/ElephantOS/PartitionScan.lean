import ElephantOS.ByteMemory
import ElephantOS.HaltingState

/-!
`partition_scan` of `device/ide.c`: the partition table of a disk and the chain of its extended partition. The buffer for the boot
sector is taken to be there; `levels` is the number of nested calls that the kernel stack has room for.
-/

namespace ElephantOS.PartitionScan

open ByteMemory HaltingState

/-- `struct partition_table_entry`, as far as it is read. -/
structure Entry where
  fsType : ℕ
  startLba : ℕ
  secCnt : ℕ
  deriving DecidableEq

def tableEntry (disk : Memory) (lba i : ℕ) : Entry where
  fsType := (disk (512 * lba + 446 + 16 * i + 4)).toNat
  startLba := word disk (512 * lba + 446 + 16 * i + 8)
  secCnt := word disk (512 * lba + 446 + 16 * i + 12)

/-- `partition_table` of the boot sector at `lba`. -/
def table (disk : Memory) (lba : ℕ) : List Entry := (List.range 4).map (tableEntry disk lba)

/-- `struct partition`, as far as the scan fills it in. -/
structure Part where
  startLba : ℕ
  secCnt : ℕ
  deriving DecidableEq

/-- An element of `prim_parts` or of `logic_parts`. -/
inductive Slot
  | prim (i : ℕ)
  | logic (i : ℕ)
  deriving DecidableEq

structure ScanState where
  extLbaBase : ℕ
  pNo : ℕ
  lNo : ℕ
  /-- the partition records of each disk -/
  records : ℕ → Slot → Part
  /-- `partition_list`, as the records its tags stand in -/
  partitionList : List (ℕ × Slot)

inductive ScanFault | maxLba | primaries | overrun | stack
  deriving DecidableEq

abbrev ScanM := Exec ScanFault ScanState

def ScanState.addPrim (s : ScanState) (hd : ℕ) (p : Part) : ScanState := { s with
  records := Function.update s.records hd (Function.update (s.records hd) (.prim s.pNo) p)
  partitionList := s.partitionList ++ [(hd, .prim s.pNo)]
  pNo := (s.pNo + 1) % 256 }

def ScanState.addLogic (s : ScanState) (hd : ℕ) (p : Part) : ScanState := { s with
  records := Function.update s.records hd (Function.update (s.records hd) (.logic s.lNo) p)
  partitionList := s.partitionList ++ [(hd, .logic s.lNo)]
  lNo := (s.lNo + 1) % 256 }

def check (c : Prop) [Decidable c] (f : ScanFault) : ScanM Unit := if c then pure () else halt f

/-- The loop over the entries of the boot sector at `extLba`; `scan` is the recursive call. A logical partition past the eighth record
would be written behind the array. -/
def scanTable (scan : ℕ → ScanM Unit) (hd extLba : ℕ) : List Entry → ScanM Unit
  | [] => pure ()
  | p :: rest =>
    if p.fsType = 5 then do
      let s ← get
      if s.extLbaBase ≠ 0 then scan ((p.startLba + s.extLbaBase) % 4294967296)
      else do
        set { s with extLbaBase := p.startLba }
        scan p.startLba
      scanTable scan hd extLba rest
    else if p.fsType ≠ 0 then
      if extLba = 0 then do
        modify fun s => s.addPrim hd ⟨(extLba + p.startLba) % 4294967296, p.secCnt⟩
        let s ← get
        check (s.pNo < 4) .primaries
        scanTable scan hd extLba rest
      else do
        let s ← get
        check (s.lNo < 8) .overrun
        set (s.addLogic hd ⟨(extLba + p.startLba) % 4294967296, p.secCnt⟩)
        let s ← get
        if s.lNo ≥ 8 then pure () else scanTable scan hd extLba rest
    else scanTable scan hd extLba rest

/-- Every call stands on the stack of the one that found its link. -/
def partitionScan (disk : Memory) (hd : ℕ) : ℕ → ℕ → ScanM Unit
  | 0, _ => halt .stack
  | levels + 1, extLba => do
    check (extLba ≤ 163839) .maxLba
    scanTable (partitionScan disk hd levels) hd extLba (table disk extLba)

/-- What a scan meets: a primary partition, an extended boot record at its sector, a logical partition. -/
inductive Step
  | prim (p : Part)
  | ebr (lba : ℕ)
  | logic (p : Part)
  deriving DecidableEq

def Entry.Used (e : Entry) : Prop := e.fsType ≠ 0 ∧ e.fsType ≠ 5

instance (e : Entry) : Decidable e.Used := inferInstanceAs (Decidable (_ ∧ _))

def prims (es : List Entry) : List Step := es.filterMap fun e => if e.Used then some (.prim ⟨e.startLba, e.secCnt⟩) else none

def logics (lba : ℕ) (es : List Entry) : List Step :=
  es.filterMap fun e => if e.Used then some (.logic ⟨lba + e.startLba, e.secCnt⟩) else none

def Plain (lba : ℕ) (es : List Entry) : Prop := ∀ e ∈ es, e.fsType ≠ 5 ∧ (e.Used → lba + e.startLba < 4294967296)

/-- The chain of extended boot records from sector `lba` on, with the partitions it defines in their order. Being a finite derivation,
it has no cycle. Links are relative to `base`, partitions to their boot record. -/
inductive Chain (disk : Memory) (base : ℕ) : ℕ → List Step → Prop
  | last {lba : ℕ} : lba ≠ 0 → Plain lba (table disk lba) → Chain disk base lba (.ebr lba :: logics lba (table disk lba))
  | link {lba : ℕ} {before after : List Entry} {e : Entry} {steps : List Step} : lba ≠ 0 → table disk lba = before ++ e :: after →
      Plain lba before → Plain lba after → e.fsType = 5 → base + e.startLba < 4294967296 →
      Chain disk base (base + e.startLba) steps →
      Chain disk base lba (.ebr lba :: logics lba before ++ steps ++ logics lba after)

/-- The partition table of a disk: primary partitions and at most one extended one. -/
inductive Layout (disk : Memory) : List Step → Prop
  | plain : Plain 0 (table disk 0) → Layout disk (prims (table disk 0))
  | extended {before after : List Entry} {e : Entry} {steps : List Step} : table disk 0 = before ++ e :: after → Plain 0 before →
      Plain 0 after → e.fsType = 5 → Chain disk e.startLba e.startLba steps → Layout disk (prims before ++ steps ++ prims after)

def Step.isPrim : Step → Bool
  | .prim _ => true
  | _ => false

def Step.isLogic : Step → Bool
  | .logic _ => true
  | _ => false

/-- The boot records that a scan reads, each nested in the one before, when `l` logical partitions were met already. -/
def nested : ℕ → List Step → ℕ
  | _, [] => 0
  | l, .prim _ :: rest => nested l rest
  | l, .ebr _ :: rest => nested l rest + if l < 8 then 1 else 0
  | l, .logic _ :: rest => nested (l + 1) rest

/-- A well-formed disk with the steps of its scan: at most eight logical partitions. -/
structure WellFormed (disk : Memory) (steps : List Step) : Prop where
  layout : Layout disk steps
  eight : steps.countP Step.isLogic ≤ 8

/-- The partitions in the order of the scan, with the records they belong in. -/
def assigned : ℕ → ℕ → List Step → List (Slot × Part)
  | _, _, [] => []
  | p, l, .prim part :: rest => (.prim p, part) :: assigned (p + 1) l rest
  | p, l, .logic part :: rest => (.logic l, part) :: assigned p (l + 1) rest
  | p, l, .ebr _ :: rest => assigned p l rest

/-- The records of the disk and the list hold exactly the given partitions, each once, in order. -/
structure Filled (hd : ℕ) (parts : List (Slot × Part)) (s s' : ScanState) : Prop where
  list : s'.partitionList = s.partitionList ++ parts.map fun a => (hd, a.1)
  records : ∀ a ∈ parts, s'.records hd a.1 = a.2
  others : ∀ slot, slot ∉ parts.map Prod.fst → s'.records hd slot = s.records hd slot
  disks : ∀ d, d ≠ hd → s'.records d = s.records d

/-- The scan as a walk over the steps: boot records past the eighth logical partition are not read. -/
def runSteps (hd : ℕ) : List Step → ScanState → Except ScanFault ScanState
  | [], s => .ok s
  | .prim p :: rest, s => if (s.addPrim hd p).pNo < 4 then runSteps hd rest (s.addPrim hd p) else .error .primaries
  | .ebr lba :: rest, s => if s.lNo < 8 ∧ 163839 < lba then .error .maxLba else runSteps hd rest s
  | .logic p :: rest, s => runSteps hd rest (s.addLogic hd p)

def asRun (r : Except ScanFault ScanState) : Except ScanFault (Unit × ScanState) :=
  match r with
  | .ok s => .ok ((), s)
  | .error f => .error f

variable {disk : Memory} {hd : ℕ}

theorem runSteps_append (steps steps' : List Step) (s : ScanState) :
    runSteps hd (steps ++ steps') s = (runSteps hd steps s).bind (runSteps hd steps') := by
  induction steps generalizing s with
  | nil => rfl
  | cons step rest ih =>
    cases step with
    | prim p =>
      simp only [List.cons_append, runSteps]
      split_ifs
      · exact ih _
      · rfl
    | ebr lba =>
      simp only [List.cons_append, runSteps]
      split_ifs
      · rfl
      · exact ih _
    | logic p =>
      simp only [List.cons_append, runSteps]
      exact ih _

theorem check_bind {α : Type} (c : Prop) [Decidable c] (e : ScanFault) (s : ScanState) (f : Unit → ScanM α) :
    (check c e >>= f) s = if c then f () s else .error e := by
  unfold check
  split_ifs <;> rfl

theorem scanTable_prims (scan : ℕ → ScanM Unit) (hd : ℕ) {es : List Entry} (hes : Plain 0 es) (rest : List Entry) (s : ScanState) :
    scanTable scan hd 0 (es ++ rest) s = (runSteps hd (prims es) s).bind (fun s => scanTable scan hd 0 rest s) := by
  induction es generalizing s with
  | nil => rfl
  | cons e es ih =>
    obtain ⟨⟨hlink, hword⟩, hrest⟩ := List.forall_mem_cons.mp hes
    rw [List.cons_append, scanTable, if_neg hlink]
    by_cases hused : e.fsType ≠ 0
    · have hprims : prims (e :: es) = .prim ⟨e.startLba, e.secCnt⟩ :: prims es := by
        unfold prims
        rw [List.filterMap_cons_some]
        rw [if_pos (show e.Used from ⟨hused, hlink⟩)]
      have hmod := Nat.mod_eq_of_lt (hword ⟨hused, hlink⟩)
      rw [if_pos hused, if_pos rfl, hprims, runSteps, modify_bind, get_bind, check_bind, hmod, Nat.zero_add]
      split_ifs
      · exact ih hrest _
      · rfl
    · have hprims : prims (e :: es) = prims es := by
        unfold prims
        rw [List.filterMap_cons_none]
        rw [if_neg (fun h : e.Used => hused h.1)]
      rw [if_neg hused, hprims]
      exact ih hrest s

theorem scanTable_logics (scan : ℕ → ScanM Unit) {lba : ℕ} (hlba : lba ≠ 0) {es : List Entry} (hes : Plain lba es) (rest : List Entry) {s : ScanState}
    (hs : s.lNo < 8) (height : s.lNo + (logics lba es).length ≤ 8) :
    ∃ s', runSteps hd (logics lba es) s = .ok s' ∧ s'.lNo = s.lNo + (logics lba es).length ∧ s'.extLbaBase = s.extLbaBase ∧
      scanTable scan hd lba (es ++ rest) s = if s'.lNo < 8 then scanTable scan hd lba rest s' else .ok ((), s') := by
  induction es generalizing s with
  | nil =>
    refine ⟨s, rfl, rfl, rfl, ?_⟩
    rw [if_pos hs]
    rfl
  | cons e es ih =>
    obtain ⟨⟨hlink, hword⟩, hrest⟩ := List.forall_mem_cons.mp hes
    rw [List.cons_append, scanTable, if_neg hlink]
    by_cases hused : e.fsType ≠ 0
    · have hlogics : logics lba (e :: es) = .logic ⟨lba + e.startLba, e.secCnt⟩ :: logics lba es := by
        unfold logics
        rw [List.filterMap_cons_some]
        rw [if_pos (show e.Used from ⟨hused, hlink⟩)]
      have hmod := Nat.mod_eq_of_lt (hword ⟨hused, hlink⟩)
      rw [hlogics, List.length_cons] at height ⊢
      have hnext : (s.addLogic hd ⟨lba + e.startLba, e.secCnt⟩).lNo = s.lNo + 1 := by
        change (s.lNo + 1) % 256 = s.lNo + 1
        omega
      rw [if_pos hused, if_neg hlba, get_bind, check_bind, if_pos hs, set_bind, get_bind, hmod, hnext, runSteps]
      by_cases hfull : s.lNo + 1 ≥ 8
      · -- the eighth partition is the last one
        have hnone : logics lba es = [] := by
          apply List.eq_nil_of_length_eq_zero
          omega
        rw [if_pos hfull, hnone]
        refine ⟨_, rfl, by rw [hnext]; simp, rfl, ?_⟩
        rw [hnext, if_neg (by omega)]
        rfl
      · rw [if_neg hfull]
        obtain ⟨s', hrun, hl, hb, hscan⟩ := ih hrest (s := s.addLogic hd ⟨lba + e.startLba, e.secCnt⟩) (by omega) (by omega)
        exact ⟨s', hrun, by omega, hb, hscan⟩
    · have hlogics : logics lba (e :: es) = logics lba es := by
        unfold logics
        rw [List.filterMap_cons_none]
        rw [if_neg (fun h : e.Used => hused h.1)]
      rw [if_neg hused, hlogics]
      rw [hlogics] at height
      exact ih hrest hs height

theorem logics_count (lba : ℕ) (es : List Entry) : (logics lba es).countP Step.isLogic = (logics lba es).length := by
  rw [List.countP_eq_length]
  intro st hst
  unfold logics at hst
  obtain ⟨e, -, he⟩ := List.mem_filterMap.mp hst
  split_ifs at he
  cases he
  rfl

theorem nested_append (l : ℕ) (steps steps' : List Step) :
    nested l (steps ++ steps') = nested l steps + nested (l + steps.countP Step.isLogic) steps' := by
  induction steps generalizing l with
  | nil => simp [nested]
  | cons st rest ih =>
    cases st with
    | prim p => simpa [nested, Step.isLogic] using ih l
    | ebr lba =>
      simp only [List.cons_append, nested, ih l, List.countP_cons, Step.isLogic, Bool.false_eq_true, if_false, Nat.add_zero]
      omega
    | logic p =>
      simp only [List.cons_append, nested, ih (l + 1), List.countP_cons, Step.isLogic, if_true]
      rw [show l + 1 + rest.countP Step.isLogic = l + (rest.countP Step.isLogic + 1) by omega]

theorem nested_none {steps : List Step} (h : ∀ lba, .ebr lba ∉ steps) (l : ℕ) : nested l steps = 0 := by
  induction steps generalizing l with
  | nil => rfl
  | cons st rest ih =>
    have hrest : ∀ lba, .ebr lba ∉ rest := fun lba hmem => h lba (List.mem_cons_of_mem _ hmem)
    cases st with
    | prim p => exact ih hrest l
    | ebr lba => exact absurd List.mem_cons_self (h lba)
    | logic p => exact ih hrest (l + 1)

theorem nested_logics (lba : ℕ) (es : List Entry) (l : ℕ) : nested l (logics lba es) = 0 := by
  apply nested_none
  intro lba' hmem
  obtain ⟨e, -, he⟩ := List.mem_filterMap.mp hmem
  split_ifs at he
  cases he

theorem nested_prims (es : List Entry) (l : ℕ) : nested l (prims es) = 0 := by
  apply nested_none
  intro lba' hmem
  obtain ⟨e, -, he⟩ := List.mem_filterMap.mp hmem
  split_ifs at he
  cases he

theorem nested_full {l : ℕ} (h : 8 ≤ l) (steps : List Step) : nested l steps = 0 := by
  induction steps generalizing l with
  | nil => rfl
  | cons st rest ih =>
    cases st with
    | prim p => exact ih h
    | ebr lba => rw [nested, ih h, if_neg (by omega)]
    | logic p => exact ih (by omega)

theorem Chain.noPrim {base lba : ℕ} {steps : List Step} (h : Chain disk base lba steps) : ∀ st ∈ steps, st.isPrim = false := by
  have hlogics : ∀ (lba : ℕ) (es : List Entry), ∀ st ∈ logics lba es, st.isPrim = false := by
    intro lba es st hst
    unfold logics at hst
    obtain ⟨e, -, he⟩ := List.mem_filterMap.mp hst
    split_ifs at he
    cases he
    rfl
  induction h with
  | last _ _ =>
    intro st hst
    rcases List.mem_cons.mp hst with rfl | hst
    · rfl
    · exact hlogics _ _ st hst
  | link _ _ _ _ _ _ _ ih =>
    intro st hst
    rcases List.mem_append.mp hst with hst | hst
    · rcases List.mem_append.mp hst with hst | hst
      · rcases List.mem_cons.mp hst with rfl | hst
        · rfl
        · exact hlogics _ _ st hst
      · exact ih st hst
    · exact hlogics _ _ st hst

theorem runSteps_skip {steps : List Step} {s : ScanState} (hs : 8 ≤ s.lNo) (hprim : ∀ st ∈ steps, st.isPrim = false)
    (hlogic : steps.countP Step.isLogic = 0) : runSteps hd steps s = .ok s := by
  induction steps with
  | nil => rfl
  | cons st rest ih =>
    obtain ⟨hp, hrest⟩ := List.forall_mem_cons.mp hprim
    cases st with
    | prim p => cases hp
    | logic p => simp [Step.isLogic] at hlogic
    | ebr lba =>
      rw [runSteps, if_neg (by omega)]
      apply ih hrest
      rw [List.countP_cons] at hlogic
      omega

theorem runSteps_counts {steps : List Step} {s s' : ScanState} (h : runSteps hd steps s = .ok s')
    (height : s.lNo + steps.countP Step.isLogic ≤ 8) :
    s'.lNo = s.lNo + steps.countP Step.isLogic ∧ s'.extLbaBase = s.extLbaBase := by
  induction steps generalizing s with
  | nil =>
    cases h
    exact ⟨rfl, rfl⟩
  | cons st rest ih =>
    rw [List.countP_cons] at height ⊢
    cases st with
    | prim p =>
      rw [runSteps] at h
      split_ifs at h
      exact ih (s := s.addPrim hd p) h height
    | ebr lba =>
      rw [runSteps] at h
      split_ifs at h
      exact ih h height
    | logic p =>
      rw [runSteps] at h
      have hnext : (s.addLogic hd p).lNo = s.lNo + 1 := by
        change (s.lNo + 1) % 256 = s.lNo + 1
        simp only [Step.isLogic, if_true] at height
        omega
      simp only [Step.isLogic, if_true] at height ⊢
      obtain ⟨hl, hb⟩ := ih h (by omega)
      exact ⟨by omega, hb⟩

theorem bind_asRun {r : Except ScanFault ScanState} {op : ScanM Unit} {s : ScanState} (h : op s = asRun r) (f : Unit → ScanM Unit) :
    (op >>= f) s = r.bind (fun s' => f () s') := by
  change (op s >>= fun p => f p.1 p.2) = _
  rw [h]
  cases r <;> rfl

theorem scanTable_unused (scan : ℕ → ScanM Unit) {lba : ℕ} {es : List Entry} (hes : Plain lba es) (hnone : logics lba es = []) (s : ScanState) :
    scanTable scan hd lba es s = .ok ((), s) := by
  induction es with
  | nil => rfl
  | cons e es ih =>
    obtain ⟨⟨hlink, -⟩, hrest⟩ := List.forall_mem_cons.mp hes
    have hall := List.filterMap_eq_nil_iff.mp hnone
    have hunused : ¬ e.fsType ≠ 0 := by
      intro hused
      have := hall e List.mem_cons_self
      rw [if_pos (show e.Used from ⟨hused, hlink⟩)] at this
      cases this
    rw [scanTable, if_neg hlink, if_neg hunused]
    exact ih hrest (List.filterMap_eq_nil_iff.mpr fun a ha => hall a (List.mem_cons_of_mem _ ha))

theorem Chain.scanned {base lba : ℕ} {steps : List Step} (h : Chain disk base lba steps) (hbase : base ≠ 0) {n : ℕ} {s : ScanState}
    (hs : s.extLbaBase = base) (hlt : s.lNo < 8) (height : s.lNo + steps.countP Step.isLogic ≤ 8) (hn : nested s.lNo steps ≤ n) :
    partitionScan disk hd n lba s = asRun (runSteps hd steps s) := by
  induction h generalizing n s with
  | @last lba hlba hplain =>
    rw [nested, if_pos hlt] at hn
    obtain ⟨k, rfl⟩ : ∃ k, n = k + 1 := ⟨n - 1, by omega⟩
    rw [List.countP_cons, logics_count] at height
    rw [partitionScan, check_bind, runSteps]
    by_cases hmax : lba ≤ 163839
    · rw [if_pos hmax, if_neg (by omega)]
      obtain ⟨s', hrun, -, -, hscan⟩ := scanTable_logics (partitionScan disk hd k) hlba hplain [] hlt (by simpa [Step.isLogic] using height)
      rw [List.append_nil] at hscan
      rw [hscan, hrun]
      split_ifs <;> rfl
    · rw [if_neg hmax, if_pos ⟨hlt, by omega⟩]
      rfl
  | @link lba before after e steps hlba htable hbefore hafter hlink hword hchain ih =>
    rw [List.cons_append, List.cons_append, nested, if_pos hlt, List.append_assoc, nested_append, nested_append, nested_logics, nested_logics,
      logics_count] at hn
    obtain ⟨k, rfl⟩ : ∃ k, n = k + 1 := ⟨n - 1, by omega⟩
    rw [List.countP_append, List.countP_append, List.countP_cons, logics_count, logics_count] at height
    simp only [Step.isLogic, Bool.false_eq_true, if_false, Nat.add_zero] at height
    rw [partitionScan, check_bind, List.cons_append, List.cons_append, runSteps]
    by_cases hmax : lba ≤ 163839
    · rw [if_pos hmax, if_neg (by omega), htable]
      obtain ⟨s₁, hrun, hl, hb, hscan⟩ := scanTable_logics (partitionScan disk hd k) hlba hbefore (e :: after) hlt
        (by omega)
      rw [hscan, List.append_assoc, runSteps_append, hrun]
      change _ = asRun (runSteps hd (steps ++ logics lba after) s₁)
      rw [runSteps_append]
      by_cases hmore : s₁.lNo < 8
      · have hlinked : (e.startLba + s₁.extLbaBase) % 4294967296 = base + e.startLba := by
          rw [hb, hs]
          omega
        have hbase' : s₁.extLbaBase ≠ 0 := by
          rw [hb, hs]
          exact hbase
        have hstep := ih (hb.trans hs) hmore (by omega) (n := k) (by rw [hl]; omega)
        rw [if_pos hmore, scanTable, if_pos hlink, get_bind, if_pos hbase', hlinked, bind_asRun hstep _]
        cases hrest : runSteps hd steps s₁ with
        | error f => rfl
        | ok s₂ =>
          obtain ⟨hl₂, -⟩ := runSteps_counts hrest (by omega)
          change scanTable _ hd lba after s₂ = asRun (runSteps hd (logics lba after) s₂)
          by_cases hmore₂ : s₂.lNo < 8
          · obtain ⟨s₃, hrun₃, -, -, hscan₃⟩ := scanTable_logics (partitionScan disk hd k) hlba hafter [] hmore₂ (by omega)
            rw [List.append_nil] at hscan₃
            rw [hscan₃, hrun₃]
            split_ifs <;> rfl
          · have hnone : logics lba after = [] := by
              apply List.eq_nil_of_length_eq_zero
              omega
            rw [scanTable_unused _ hafter hnone, hnone]
            rfl
      · rw [if_neg hmore]
        have hzero : steps.countP Step.isLogic = 0 := by omega
        have hnone : logics lba after = [] := by
          apply List.eq_nil_of_length_eq_zero
          omega
        rw [runSteps_skip (by omega) hchain.noPrim hzero, hnone]
        rfl
    · rw [if_neg hmax, if_pos ⟨hlt, by omega⟩]
      rfl

theorem Chain.overflows {base lba : ℕ} {steps : List Step} (h : Chain disk base lba steps) (hbase : base ≠ 0) {n : ℕ} {s : ScanState}
    (hs : s.extLbaBase = base) (hlt : s.lNo < 8) (height : s.lNo + steps.countP Step.isLogic ≤ 8) (hn : n < nested s.lNo steps)
    (s' : ScanState) : partitionScan disk hd n lba s ≠ .ok ((), s') := by
  induction h generalizing n s s' with
  | @last lba hlba hplain =>
    rw [nested, if_pos hlt, nested_logics] at hn
    obtain rfl : n = 0 := by omega
    rintro ⟨⟩
  | @link lba before after e steps hlba htable hbefore hafter hlink hword hchain ih =>
    rw [List.cons_append, List.cons_append, nested, if_pos hlt, List.append_assoc, nested_append, nested_append, nested_logics, nested_logics,
      logics_count] at hn
    rw [List.countP_append, List.countP_append, List.countP_cons, logics_count, logics_count] at height
    simp only [Step.isLogic, Bool.false_eq_true, if_false, Nat.add_zero] at height
    cases n with
    | zero => rintro ⟨⟩
    | succ k =>
      rw [partitionScan, check_bind]
      split_ifs with hmax
      · rw [htable]
        obtain ⟨s₁, hrun, hl, hb, hscan⟩ := scanTable_logics (partitionScan disk hd k) hlba hbefore (e :: after) hlt (by omega)
        have hmore : s₁.lNo < 8 := by
          by_contra hge
          rw [← hl, nested_full (by omega)] at hn
          omega
        have hlinked : (e.startLba + s₁.extLbaBase) % 4294967296 = base + e.startLba := by
          rw [hb, hs]
          omega
        rw [hscan, if_pos hmore, scanTable, if_pos hlink, get_bind, if_pos (by rw [hb, hs]; exact hbase), hlinked]
        intro hok
        obtain ⟨_, s₂, hinner, -⟩ := (bind_ok _ _ _ _).mp hok
        exact ih (hb.trans hs) hmore (by omega) (by rw [hl]; omega) s₂ hinner
      · rintro ⟨⟩

theorem runSteps_base (b : ℕ) (steps : List Step) (s : ScanState) :
    runSteps hd steps { s with extLbaBase := b } = (runSteps hd steps s).map fun s' => { s' with extLbaBase := b } := by
  induction steps generalizing s with
  | nil => rfl
  | cons st rest ih =>
    cases st with
    | prim p =>
      have hadd : ({ s with extLbaBase := b } : ScanState).addPrim hd p = { s.addPrim hd p with extLbaBase := b } := rfl
      simp only [runSteps, hadd]
      split_ifs
      · exact ih _
      · rfl
    | ebr lba =>
      simp only [runSteps]
      split_ifs
      · rfl
      · exact ih _
    | logic p =>
      have hadd : ({ s with extLbaBase := b } : ScanState).addLogic hd p = { s.addLogic hd p with extLbaBase := b } := rfl
      simp only [runSteps, hadd]
      exact ih _

theorem prims_noLogic (es : List Entry) : (prims es).countP Step.isLogic = 0 := by
  rw [List.countP_eq_zero]
  intro st hst
  unfold prims at hst
  obtain ⟨e, -, he⟩ := List.mem_filterMap.mp hst
  split_ifs at he
  cases he
  simp [Step.isLogic]

theorem scanTable_only_prims (scan : ℕ → ScanM Unit) {es : List Entry} (hes : Plain 0 es) (s : ScanState) :
    scanTable scan hd 0 es s = asRun (runSteps hd (prims es) s) := by
  have h := scanTable_prims scan hd hes [] s
  rw [List.append_nil] at h
  rw [h]
  cases runSteps hd (prims es) s <;> rfl

theorem WellFormed.scanned {steps : List Step} (h : WellFormed disk steps) : ∃ b, ∀ {n : ℕ} {s : ScanState}, s.extLbaBase = 0 → s.lNo = 0 →
    (nested 0 steps < n → partitionScan disk hd n 0 s = asRun (runSteps hd steps { s with extLbaBase := b })) ∧
      (n ≤ nested 0 steps → ∀ s', partitionScan disk hd n 0 s ≠ .ok ((), s')) := by
  obtain ⟨hlayout, height⟩ := h
  cases hlayout with
  | plain hplain =>
    refine ⟨0, fun {n s} hb _ => ?_⟩
    rw [nested_prims]
    cases n with
    | zero => exact ⟨fun hn => absurd hn (lt_irrefl _), fun _ _ h => nomatch h⟩
    | succ k =>
      refine ⟨fun _ => ?_, fun hn => absurd hn (Nat.not_succ_le_zero _)⟩
      rw [partitionScan, check_bind, if_pos (Nat.zero_le _), scanTable_only_prims _ hplain, ← hb]
  | @extended before after e steps htable hbefore hafter hlink hchain =>
    have hbase : e.startLba ≠ 0 := by
      cases hchain with
      | last hne _ => exact hne
      | link hne => exact hne
    refine ⟨e.startLba, fun {n s} hb hl => ?_⟩
    rw [List.countP_append, List.countP_append, prims_noLogic, prims_noLogic] at height
    have hall : nested 0 (prims before ++ steps ++ prims after) = nested 0 steps := by
      rw [nested_append, nested_append, nested_prims, nested_prims, prims_noLogic, Nat.zero_add, Nat.add_zero]
    rw [hall]
    cases n with
    | zero => exact ⟨fun hn => absurd hn (Nat.not_lt_zero _), fun _ _ h => nomatch h⟩
    | succ k =>
      rw [partitionScan, check_bind, if_pos (Nat.zero_le _), htable, scanTable_prims _ hd hbefore, runSteps_append, runSteps_append,
        runSteps_base e.startLba]
      cases hrun : runSteps hd (prims before) s with
      | error f => exact ⟨fun _ => rfl, fun _ _ h => nomatch h⟩
      | ok s₁ =>
        have hcounts := runSteps_counts hrun (by rw [hl, prims_noLogic]; omega)
        rw [hl, prims_noLogic] at hcounts
        have hb₁ : ¬ s₁.extLbaBase ≠ 0 := by
          rw [hcounts.2, hb]
          simp
        -- the chain starts with the base just stored and without a logical partition
        have hlt : ({ s₁ with extLbaBase := e.startLba } : ScanState).lNo < 8 := by
          rw [hcounts.1]
          decide
        have hroom : ({ s₁ with extLbaBase := e.startLba } : ScanState).lNo + steps.countP Step.isLogic ≤ 8 := by
          rw [hcounts.1]
          omega
        have hnested : nested ({ s₁ with extLbaBase := e.startLba } : ScanState).lNo steps = nested 0 steps :=
          congrArg (nested · steps) hcounts.1
        change (_ → scanTable _ hd 0 (e :: after) s₁ = _) ∧ (_ → ∀ s', scanTable _ hd 0 (e :: after) s₁ ≠ _)
        rw [scanTable, if_pos hlink, get_bind, if_neg hb₁, set_bind]
        constructor
        · intro hn
          have hstep := @Chain.scanned disk hd _ _ _ hchain hbase k _ rfl hlt hroom (by rw [hnested]; omega)
          rw [bind_asRun hstep]
          change _ = asRun ((runSteps hd steps { s₁ with extLbaBase := e.startLba }).bind (runSteps hd (prims after)))
          cases hrest : runSteps hd steps { s₁ with extLbaBase := e.startLba } with
          | error f => rfl
          | ok s₂ => exact scanTable_only_prims _ hafter s₂
        · intro hn s' hok
          obtain ⟨_, s₂, hinner, -⟩ := (bind_ok _ _ _ _).mp hok
          exact hchain.overflows hbase rfl hlt hroom (by rw [hnested]; omega) s₂ hinner

theorem runSteps_ok_iff {steps : List Step} {s : ScanState} (hp : s.pNo ≤ 3) (height : s.lNo + steps.countP Step.isLogic ≤ 8) :
    (∃ s', runSteps hd steps s = .ok s') ↔ s.pNo + steps.countP Step.isPrim ≤ 3 ∧
      ∀ before lba after, steps = before ++ .ebr lba :: after → s.lNo + before.countP Step.isLogic < 8 → lba ≤ 163839 := by
  induction steps generalizing s with
  | nil =>
    refine iff_of_true ⟨s, rfl⟩ ⟨by simpa using hp, ?_⟩
    intro before lba after hsplit
    simp at hsplit
  | cons st rest ih =>
    have hcons : (∀ before lba after, st :: rest = before ++ .ebr lba :: after → s.lNo + before.countP Step.isLogic < 8 →
        lba ≤ 163839) ↔ ((∀ lba, st = .ebr lba → s.lNo < 8 → lba ≤ 163839) ∧ ∀ before lba after, rest = before ++ .ebr lba :: after →
        s.lNo + (st :: before).countP Step.isLogic < 8 → lba ≤ 163839) := by
      constructor
      · intro h
        refine ⟨?_, ?_⟩
        · rintro lba rfl hlt
          exact h [] lba rest rfl hlt
        · intro before lba after hrest
          exact h (st :: before) lba after (by rw [hrest]; rfl)
      · rintro ⟨hhead, htail⟩ before lba after hsplit
        cases before with
        | nil =>
          obtain ⟨rfl, -⟩ := List.cons.inj hsplit
          exact hhead lba rfl
        | cons b before =>
          obtain ⟨rfl, hrest⟩ := List.cons.inj hsplit
          exact htail before lba after hrest
    rw [hcons]
    cases st with
    | prim p =>
      simp only [List.countP_cons, Step.isLogic, Step.isPrim, Bool.false_eq_true, if_false, if_true, Nat.add_zero] at height ⊢
      have hnext : (s.addPrim hd p).pNo = s.pNo + 1 := by
        change (s.pNo + 1) % 256 = s.pNo + 1
        omega
      rw [runSteps, hnext]
      by_cases hfour : s.pNo + 1 < 4
      · rw [if_pos hfour]
        have := ih (s := s.addPrim hd p) (by omega) height
        rw [hnext] at this
        rw [this]
        have hl : (s.addPrim hd p).lNo = s.lNo := rfl
        rw [hl, show s.pNo + 1 + rest.countP Step.isPrim = s.pNo + (rest.countP Step.isPrim + 1) by omega]
        simp
      · rw [if_neg hfour]
        apply iff_of_false
        · rintro ⟨s', hs'⟩
          cases hs'
        · rintro ⟨hle, -⟩
          omega
    | ebr lba =>
      simp only [List.countP_cons, Step.isLogic, Step.isPrim, Bool.false_eq_true, if_false, Nat.add_zero] at height ⊢
      rw [runSteps]
      by_cases hbad : s.lNo < 8 ∧ 163839 < lba
      · rw [if_pos hbad]
        apply iff_of_false
        · rintro ⟨s', hs'⟩
          cases hs'
        · rintro ⟨-, hhead, -⟩
          have := hhead lba rfl hbad.1
          omega
      · rw [if_neg hbad, ih hp height]
        constructor
        · rintro ⟨hle, htail⟩
          refine ⟨hle, ?_, htail⟩
          rintro _ ⟨rfl⟩ hlt
          omega
        · rintro ⟨hle, -, htail⟩
          exact ⟨hle, htail⟩
    | logic p =>
      simp only [List.countP_cons, Step.isLogic, Step.isPrim, Bool.false_eq_true, if_false, if_true, Nat.add_zero] at height ⊢
      have hnext : (s.addLogic hd p).lNo = s.lNo + 1 := by
        change (s.lNo + 1) % 256 = s.lNo + 1
        omega
      have := ih (s := s.addLogic hd p) hp (by omega)
      rw [hnext] at this
      rw [runSteps, this]
      have hpn : (s.addLogic hd p).pNo = s.pNo := rfl
      rw [hpn]
      simp only [Nat.add_assoc, Nat.add_comm 1]
      simp

theorem assigned_slots {p l : ℕ} {steps : List Step} {a : Slot × Part} (ha : a ∈ assigned p l steps) :
    (∃ i, p ≤ i ∧ a.1 = .prim i) ∨ ∃ i, l ≤ i ∧ a.1 = .logic i := by
  induction steps generalizing p l with
  | nil => cases ha
  | cons st rest ih =>
    cases st with
    | prim part =>
      rcases List.mem_cons.mp ha with rfl | ha
      · exact .inl ⟨p, le_refl _, rfl⟩
      · rcases ih ha with ⟨i, hi, he⟩ | h
        · exact .inl ⟨i, by omega, he⟩
        · exact .inr h
    | logic part =>
      rcases List.mem_cons.mp ha with rfl | ha
      · exact .inr ⟨l, le_refl _, rfl⟩
      · rcases ih ha with h | ⟨i, hi, he⟩
        · exact .inl h
        · exact .inr ⟨i, by omega, he⟩
    | ebr lba => exact ih ha

theorem Filled.cons {as : List (Slot × Part)} {s s₁ s' : ScanState} (h : Filled hd as s₁ s') {slot : Slot} {part : Part}
    (hlist : s₁.partitionList = s.partitionList ++ [(hd, slot)])
    (hrecords : s₁.records = Function.update s.records hd (Function.update (s.records hd) slot part))
    (hnew : slot ∉ as.map Prod.fst) : Filled hd ((slot, part) :: as) s s' := by
  have hhere : s₁.records hd = Function.update (s.records hd) slot part := by
    rw [hrecords, Function.update_self]
  refine ⟨?_, ?_, ?_, ?_⟩
  · rw [h.list, hlist, List.append_assoc]
    rfl
  · rw [List.forall_mem_cons]
    refine ⟨?_, h.records⟩
    rw [h.others slot hnew, hhere, Function.update_self]
  · intro other hother
    rw [List.map_cons, List.mem_cons, not_or] at hother
    rw [h.others other hother.2, hhere, Function.update_of_ne hother.1]
  · intro d hd'
    rw [h.disks d hd', hrecords, Function.update_of_ne hd']

theorem runSteps_filled {steps : List Step} {s s' : ScanState} (h : runSteps hd steps s = .ok s') (hp : s.pNo ≤ 3)
    (height : s.lNo + steps.countP Step.isLogic ≤ 8) : Filled hd (assigned s.pNo s.lNo steps) s s' := by
  induction steps generalizing s with
  | nil =>
    cases h
    exact ⟨by simp [assigned], by simp [assigned], fun _ _ => rfl, fun _ _ => rfl⟩
  | cons st rest ih =>
    rw [List.countP_cons] at height
    cases st with
    | prim part =>
      have hnext : (s.addPrim hd part).pNo = s.pNo + 1 := by
        change (s.pNo + 1) % 256 = s.pNo + 1
        omega
      rw [runSteps] at h
      split_ifs at h with hfour
      have hrest := ih (s := s.addPrim hd part) h (by omega) height
      rw [hnext] at hrest
      apply hrest.cons rfl rfl
      rintro hmem
      obtain ⟨a, ha, he⟩ := List.mem_map.mp hmem
      rcases assigned_slots ha with ⟨i, hi, hslot⟩ | ⟨i, -, hslot⟩
      · rw [he, Slot.prim.injEq] at hslot
        omega
      · rw [he] at hslot
        cases hslot
    | logic part =>
      simp only [Step.isLogic, if_true] at height
      have hnext : (s.addLogic hd part).lNo = s.lNo + 1 := by
        change (s.lNo + 1) % 256 = s.lNo + 1
        omega
      rw [runSteps] at h
      have hrest := ih (s := s.addLogic hd part) h hp (by omega)
      rw [hnext] at hrest
      apply hrest.cons rfl rfl
      rintro hmem
      obtain ⟨a, ha, he⟩ := List.mem_map.mp hmem
      rcases assigned_slots ha with ⟨i, -, hslot⟩ | ⟨i, hi, hslot⟩
      · rw [he] at hslot
        cases hslot
      · rw [he, Slot.logic.injEq] at hslot
        omega
    | ebr lba =>
      rw [runSteps] at h
      split_ifs at h
      exact ih h hp height

theorem WellFormed.walk {steps : List Step} (h : WellFormed disk steps) (hd : ℕ) {s : ScanState} (hbase : s.extLbaBase = 0) (hp : s.pNo = 0)
    (hl : s.lNo = 0) : ∃ r, (∀ n, (nested 0 steps < n → partitionScan disk hd n 0 s = asRun r) ∧
      (n ≤ nested 0 steps → ∀ s', partitionScan disk hd n 0 s ≠ .ok ((), s'))) ∧ ((∃ s', r = .ok s') ↔ steps.countP Step.isPrim ≤ 3 ∧
      ∀ before lba after, steps = before ++ .ebr lba :: after → before.countP Step.isLogic < 8 → lba ≤ 163839) ∧
      ∀ s', r = .ok s' → Filled hd (assigned 0 0 steps) s s' := by
  obtain ⟨b, hscan⟩ := @WellFormed.scanned disk hd steps h
  -- the walk starts from the same counters, records and list
  obtain ⟨s₀, hs₀⟩ : ∃ s₀ : ScanState, s₀ = { s with extLbaBase := b } := ⟨_, rfl⟩
  have hp₀ : s₀.pNo = 0 := by
    rw [hs₀]
    exact hp
  have hl₀ : s₀.lNo = 0 := by
    rw [hs₀]
    exact hl
  have height : s₀.lNo + steps.countP Step.isLogic ≤ 8 := by
    rw [hl₀, Nat.zero_add]
    exact h.eight
  refine ⟨runSteps hd steps s₀, ?_, ?_, ?_⟩
  · intro n
    rw [hs₀]
    exact hscan hbase hl
  · have hiff := @runSteps_ok_iff hd steps s₀ (by omega) height
    simpa only [hp₀, hl₀, Nat.zero_add] using hiff
  · intro s' hrun
    have hfilled := runSteps_filled hrun (by omega) height
    rw [hp₀, hl₀, hs₀] at hfilled
    exact ⟨hfilled.list, hfilled.records, hfilled.others, hfilled.disks⟩

/-- A scan from the counters' start fills in exactly the partitions of the disk if and only if there are at most three primary ones,
every boot record that it reads lies within the first 80 MB, and these nest no deeper than the stack allows. -/
theorem partitionScan_exact (disk : Memory) (hd levels : ℕ) (steps : List Step) (h : WellFormed disk steps) (s : ScanState)
    (hbase : s.extLbaBase = 0) (hp : s.pNo = 0) (hl : s.lNo = 0) :
    (∃ s', partitionScan disk hd levels 0 s = .ok ((), s') ∧ Filled hd (assigned 0 0 steps) s s') ↔
      steps.countP Step.isPrim ≤ 3 ∧ (∀ before lba after, steps = before ++ .ebr lba :: after →
        before.countP Step.isLogic < 8 → lba ≤ 163839) ∧ nested 0 steps < levels := by
  obtain ⟨r, hscan, hiff, hfilled⟩ := h.walk hd hbase hp hl
  rw [← and_assoc, ← hiff]
  constructor
  · rintro ⟨s', hok, -⟩
    have hroom : nested 0 steps < levels := by
      by_contra hle
      exact (hscan levels).2 (by omega) s' hok
    rw [(hscan levels).1 hroom] at hok
    cases r with
    | error f => cases hok
    | ok s₁ => exact ⟨⟨s₁, rfl⟩, hroom⟩
  · rintro ⟨⟨s', rfl⟩, hroom⟩
    exact ⟨s', (hscan levels).1 hroom, hfilled s' rfl⟩

def fourPrimaries : Memory := fun a =>
  match a with
  | 450 => 131 | 454 => 1 | 458 => 2
  | 466 => 131 | 470 => 3 | 474 => 2
  | 482 => 131 | 486 => 5 | 490 => 2
  | 498 => 131 | 502 => 7 | 506 => 2
  | _ => 0

theorem fourPrimaries_plain : Plain 0 (table fourPrimaries 0) := by
  unfold Plain
  decide

theorem fourPrimaries_steps : prims (table fourPrimaries 0) = [.prim ⟨1, 2⟩, .prim ⟨3, 2⟩, .prim ⟨5, 2⟩, .prim ⟨7, 2⟩] := by decide

def start : ScanState where
  extLbaBase := 0
  pNo := 0
  lNo := 0
  records := fun _ _ => ⟨0, 0⟩
  partitionList := []

/-- The fourth primary partition fails the assertion behind its record, however large the stack is. -/
theorem partitionScan_fourth : ¬ ∃ levels, ∀ disk hd steps, WellFormed disk steps →
    ∃ s', partitionScan disk hd levels 0 start = .ok ((), s') ∧ Filled hd (assigned 0 0 steps) start s' := by
  rintro ⟨levels, h⟩
  obtain ⟨s', hok, -⟩ := h fourPrimaries 0 _ ⟨.plain fourPrimaries_plain, by rw [prims_noLogic]; decide⟩
  cases levels with
  | zero => cases hok
  | succ levels =>
    rw [partitionScan, check_bind, if_pos (Nat.zero_le _), scanTable_only_prims _ fourPrimaries_plain, fourPrimaries_steps] at hok
    cases hok

/-- One primary partition, and an extended one that holds two logical partitions in two boot records. -/
def chained : Memory := fun a =>
  match a with
  | 450 => 131 | 454 => 1 | 458 => 9
  | 466 => 5 | 470 => 10
  | 5570 => 131 | 5574 => 1 | 5578 => 3
  | 5586 => 5 | 5590 => 7
  | 9154 => 131 | 9158 => 1 | 9162 => 2
  | _ => 0

theorem chained_wellFormed : WellFormed chained [.prim ⟨1, 9⟩, .ebr 10, .logic ⟨11, 3⟩, .ebr 17, .logic ⟨18, 2⟩] := by
  refine ⟨?_, by decide⟩
  have hlast : Chain chained 10 17 [.ebr 17, .logic ⟨18, 2⟩] := by
    apply Chain.last (by decide)
    unfold Plain
    decide
  have hchain : Chain chained 10 10 [.ebr 10, .logic ⟨11, 3⟩, .ebr 17, .logic ⟨18, 2⟩] := by
    have htable : table chained 10 = [⟨131, 1, 3⟩] ++ ⟨5, 7, 0⟩ :: [⟨0, 0, 0⟩, ⟨0, 0, 0⟩] := by decide
    exact .link (by decide) htable (by unfold Plain; decide) (by unfold Plain; decide) rfl (by decide) hlast
  have htable : table chained 0 = [⟨131, 1, 9⟩] ++ ⟨5, 10, 0⟩ :: [⟨0, 0, 0⟩, ⟨0, 0, 0⟩] := by decide
  exact .extended htable (by unfold Plain; decide) (by unfold Plain; decide) rfl hchain

theorem partitionScan_chained : ∃ s', partitionScan chained 1 3 0 start = .ok ((), s') ∧
    Filled 1 [(.prim 0, ⟨1, 9⟩), (.logic 0, ⟨11, 3⟩), (.logic 1, ⟨18, 2⟩)] start s' := by
  apply (partitionScan_exact chained 1 3 _ chained_wellFormed start rfl rfl rfl).mpr
  refine ⟨by decide, ?_, by decide⟩
  intro before lba after hsplit _
  have hmem : Step.ebr lba ∈ before ++ .ebr lba :: after := by simp
  rw [← hsplit] at hmem
  simp only [List.mem_cons, Step.ebr.injEq, reduceCtorEq, List.not_mem_nil, or_false, false_or] at hmem
  omega

end ElephantOS.PartitionScan
