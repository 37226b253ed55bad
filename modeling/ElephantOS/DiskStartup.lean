import ElephantOS.PartitionFormat
import ElephantOS.PartitionScan

/-!
`ide_init` of `device/ide.c` and the search for file systems in `filesys_init` of `fs/fs.c`. Of each channel only the second disk is
handled. The setup of the channels and the mount of `sdb1` at the end, which changes no disk, are left out.
-/

namespace ElephantOS.PartitionScan

open ByteMemory HaltingState

def ScanState.resetCounters (s : ScanState) : ScanState := { s with pNo := 0, lNo := 0 }

def scanChannels (disks : ℕ → Memory) (levels : ℕ) : List ℕ → ScanM Unit
  | [] => pure ()
  | channelNo :: rest => do
    -- the first disk of a channel is not scanned
    modify ScanState.resetCounters
    partitionScan (disks channelNo) channelNo levels 0
    modify ScanState.resetCounters
    scanChannels disks levels rest

def ideInit (channelCnt : ℕ) (disks : ℕ → Memory) (levels : ℕ) : ScanM Unit := do
  modify fun s => { s with partitionList := [] }
  scanChannels disks levels (List.range channelCnt)

structure SearchState where
  kern : Kern
  /-- the second disk of each channel -/
  disks : ℕ → Memory
  /-- the partitions that `partition_format` was called for -/
  formatted : List (ℕ × Slot)

abbrev SearchM := Exec Halt SearchState

def onKern {α : Type} (m : KernM α) : SearchM α := zoom SearchState.kern (fun t k => { t with kern := k }) m

/-- Kernel code that works on the disk `hd`. -/
def onDisk {α : Type} (hd : ℕ) (m : KernM α) : SearchM α :=
  zoom (fun t => { t.kern with disk := t.disks hd })
    (fun t k => { t with kern := k, disks := Function.update t.disks hd k.disk }) m

/-- `part++` -/
def Slot.next : Slot → Slot
  | .prim i => .prim (i + 1)
  | .logic i => .logic (i + 1)

section

variable (records : ℕ → Slot → Part) (pad : ℕ → Slot → Memory) (sbBuf : Buffer)

def checkPart (hd : ℕ) (slot : Slot) : SearchM Unit :=
  let part := records hd slot
  if part.secCnt ≠ 0 then do
    let buf ← onDisk hd (ideRead (u32 (part.startLba + 1)) { sbBuf with bytes := zeros } 1)
    if word buf.bytes 0 = 0x19590318 then pure ()
    else do
      onDisk hd (partitionFormat part.startLba part.secCnt (pad hd slot))
      modify fun t => { t with formatted := t.formatted ++ [(hd, slot)] }
  else pure ()

/-- The loop over the records of one disk; `part_idx` outlives it. -/
def checkParts (hd : ℕ) (part : Slot) (partIdx : ℕ) : SearchM ℕ :=
  if partIdx < 12 then do
    let part := if partIdx = 4 then .logic 0 else part
    checkPart records pad sbBuf hd part
    checkParts hd part.next (partIdx + 1)
  else pure partIdx
termination_by 12 - partIdx

def searchChannels : List ℕ → ℕ → SearchM Unit
  | [], _ => pure ()
  | channelNo :: rest, partIdx => do
    let partIdx ← checkParts records pad sbBuf channelNo (.prim 0) partIdx
    searchChannels rest partIdx

end

def filesysInit (records : ℕ → Slot → Part) (pad : ℕ → Slot → Memory) (channelCnt : ℕ) : SearchM Unit := do
  let some sbBuf ← onKern (sysMalloc 512) | halt .assertion
  searchChannels records pad sbBuf (List.range channelCnt) 0
  onKern (sysFree sbBuf.ptr)

/-- The super block of the partition carries the file system's magic number. -/
def HasMagic (disk : Memory) (p : Part) : Prop := word disk (u32 (p.startLba + 1) * 512) = 0x19590318

instance (disk : Memory) (p : Part) : Decidable (HasMagic disk p) := inferInstanceAs (Decidable (_ = _))

/-- The machine with these disks comes up with the records of `s` and in the state `t`. -/
structure Starts (pad : ℕ → Slot → Memory) (k : Kern) (levels : ℕ) (disks : ℕ → Memory) (s : ScanState) (t : SearchState) : Prop where
  scanned : ideInit 2 disks levels start = .ok ((), s)
  searched : filesysInit s.records pad 2 ⟨k, disks, []⟩ = .ok ((), t)

/-- Every recorded partition carries the magic number, and was formatted if and only if it did not carry it before. -/
def AllFormatted (disks : ℕ → Memory) (s : ScanState) (t : SearchState) : Prop :=
  ∀ a ∈ s.partitionList, HasMagic (t.disks a.1) (s.records a.1 a.2) ∧
    (a ∈ t.formatted ↔ ¬ HasMagic (disks a.1) (s.records a.1 a.2))

/-- The second disks of both channels. -/
def twoDisks (d₀ d₁ : Memory) : ℕ → Memory := fun channelNo => if channelNo = 0 then d₀ else d₁

/-- Two machines that differ in the disk of channel 0 come up with the same records of the other disk and with all partitions
formatted. -/
def Independent (pad : ℕ → Slot → Memory) (k : Kern) (levels : ℕ) (d₀ d₀' d₁ : Memory) : Prop :=
  ∃ s t s' t', Starts pad k levels (twoDisks d₀ d₁) s t ∧ Starts pad k levels (twoDisks d₀' d₁) s' t' ∧ s.records 1 = s'.records 1 ∧
    AllFormatted (twoDisks d₀ d₁) s t ∧ AllFormatted (twoDisks d₀' d₁) s' t'

/-- The driver reaches the super block of the partition and, where it is to be formatted, all that `partition_format` writes. -/
structure Part.Ready (disk : Memory) (p : Part) : Prop where
  two : 2 ≤ p.secCnt
  readable : p.startLba + 1 ≤ maxLba
  bounded : p.startLba + p.secCnt < 2 ^ 32
  room : ¬ HasMagic disk p → 620 ≤ p.secCnt ∧ 0 < blockBitmapSects p.secCnt ∧
    (formatSuperBlock p.startLba p.secCnt).dataStartLba ≤ maxLba

def Part.Apart (p q : Part) : Prop := p.startLba + p.secCnt ≤ q.startLba ∨ q.startLba + q.secCnt ≤ p.startLba

/-- A well-formed disk within the limits of the driver and of its stack, with a partition to mount. -/
structure Usable (levels : ℕ) (disk : Memory) (steps : List Step) : Prop where
  wellFormed : WellFormed disk steps
  primaries : steps.countP Step.isPrim ≤ 3
  reachable : ∀ before lba after, steps = before ++ .ebr lba :: after → before.countP Step.isLogic < 8 → lba ≤ 163839
  shallow : nested 0 steps < levels
  default : 0 < steps.countP Step.isPrim
  ready : ∀ a ∈ assigned 0 0 steps, a.2.Ready disk
  apart : (assigned 0 0 steps).Pairwise fun a b => a.2.Apart b.2

theorem onKern_runs {α : Type} {m : KernM α} {t : SearchState} {P : α → Kern → Prop} (h : Runs m t.kern P) :
    Runs (onKern m) t fun a t' => P a t'.kern ∧ t'.disks = t.disks ∧ t'.formatted = t.formatted := by
  obtain ⟨a, k, hm, hp⟩ := h
  refine ⟨a, { t with kern := k }, ?_, hp, rfl, rfl⟩
  unfold onKern
  rw [zoom_ok]
  exact ⟨k, hm, rfl⟩

theorem onDisk_runs {α : Type} {hd : ℕ} {m : KernM α} {t : SearchState} {P : α → Kern → Prop}
    (h : Runs m { t.kern with disk := t.disks hd } P) :
    Runs (onDisk hd m) t fun a t' => P a t'.kern ∧ t'.disks = Function.update t.disks hd t'.kern.disk ∧ t'.formatted = t.formatted := by
  obtain ⟨a, k, hm, hp⟩ := h
  refine ⟨a, { t with kern := k, disks := Function.update t.disks hd k.disk }, ?_, hp, rfl, rfl⟩
  unfold onDisk
  rw [zoom_ok]
  exact ⟨k, hm, rfl⟩

section

variable {disk : Memory} {p q : Part}

theorem Part.Ready.formattable (h : p.Ready disk) (hm : ¬ HasMagic disk p) : Formattable p.startLba p.secCnt :=
  ⟨(h.room hm).1, h.bounded⟩

theorem Part.Ready.superBlock (h : p.Ready disk) : u32 (p.startLba + 1) = p.startLba + 1 := by
  have := h.two
  have := h.bounded
  unfold u32
  apply Nat.mod_eq_of_lt
  omega

theorem formatDisk_outside {startLba secCnt : ℕ} (hf : Formattable startLba secCnt) (pad d : Memory) {a : ℕ}
    (ha : a < startLba * 512 ∨ (startLba + secCnt) * 512 ≤ a) : formatDisk startLba secCnt pad d a = d a := by
  obtain ⟨l1, l2, l3, l4, l5⟩ := format_layout hf
  obtain ⟨-, hcount, -⟩ := format_counts hf
  have hsects : (formatSuperBlock startLba secCnt).blockBitmapSects = blockBitmapSects secCnt := rfl
  have hone : (formatSuperBlock startLba secCnt).inodeBitmapSects = 1 := rfl
  have htable : (formatSuperBlock startLba secCnt).inodeTableSects = 608 := rfl
  have hlarge := (format_counts hf).1
  simp only [formatDisk, hsects, hone, htable, l1, l2, l3, l4, l5]
  have hout : ∀ l n, startLba ≤ l → l + n ≤ startLba + secCnt → a < l * 512 ∨ l * 512 + n * 512 ≤ a := by
    intro l n hl hn
    have h1 := Nat.mul_le_mul_right 512 hl
    have h2 := Nat.mul_le_mul_right 512 hn
    rw [Nat.add_mul] at h2
    rcases ha with ha | ha
    · exact .inl (ha.trans_le h1)
    · exact .inr (h2.trans ha)
  rw [blit_outside _ _ (hout _ _ (by omega) (by omega)), blit_outside _ _ (hout _ _ (by omega) (by omega)),
    blit_outside _ _ (hout _ _ (by omega) (by omega)), blit_outside _ _ (hout _ _ (by omega) (by omega)),
    blit_outside _ _ (hout _ _ (by omega) (by omega))]

theorem formatDisk_magic (h : p.Ready disk) (hm : ¬ HasMagic disk p) (pad d : Memory) :
    HasMagic (formatDisk p.startLba p.secCnt pad d) p := by
  have hf := h.formattable hm
  have hload := SuperBlock.load_bytes (formatSuperBlock_words hf) (formatDisk_regions hf pad d).superBlock
  unfold HasMagic
  rw [h.superBlock]
  have hmagic : (formatSuperBlock p.startLba p.secCnt).magic = 0x19590318 := rfl
  rw [← hmagic, ← hload]
  rfl

theorem formatDisk_other {disk' : Memory} (h : p.Ready disk) (hm : ¬ HasMagic disk p) (hq : q.Ready disk') (happart : p.Apart q)
    (pad d : Memory) : HasMagic (formatDisk p.startLba p.secCnt pad d) q ↔ HasMagic d q := by
  have hsame : word (formatDisk p.startLba p.secCnt pad d) (u32 (q.startLba + 1) * 512) = word d (u32 (q.startLba + 1) * 512) := by
    apply word_congr
    intro i hi
    have htwo := hq.two
    apply formatDisk_outside (h.formattable hm)
    rw [hq.superBlock]
    rcases happart with hle | hle
    · right
      omega
    · left
      omega
  unfold HasMagic
  rw [hsame]

end

def NeedsFormat (disk : Memory) (p : Part) : Prop := p.secCnt ≠ 0 ∧ ¬ HasMagic disk p

instance (disk : Memory) (p : Part) : Decidable (NeedsFormat disk p) := inferInstanceAs (Decidable (_ ∧ _))

section

variable {records : ℕ → Slot → Part} {pad : ℕ → Slot → Memory} {sbBuf : Buffer} {hd : ℕ}

structure PartChecked (records : ℕ → Slot → Part) (pad : ℕ → Slot → Memory) (hd : ℕ) (slot : Slot) (t t' : SearchState) : Prop where
  steady : Steady t.kern t'.kern
  disks : t'.disks = if NeedsFormat (t.disks hd) (records hd slot) then Function.update t.disks hd
    (formatDisk (records hd slot).startLba (records hd slot).secCnt (pad hd slot) (t.disks hd)) else t.disks
  formatted : t'.formatted = if NeedsFormat (t.disks hd) (records hd slot) then t.formatted ++ [(hd, slot)] else t.formatted

theorem checkPart_runs {slot : Slot} {t : SearchState} (hk : t.kern.Plenty)
    (hready : (records hd slot).secCnt ≠ 0 → (records hd slot).Ready (t.disks hd)) :
    Runs (checkPart records pad sbBuf hd slot) t fun _ t' => PartChecked records pad hd slot t t' := by
  unfold checkPart
  obtain ⟨p, hp⟩ : ∃ p, records hd slot = p := ⟨_, rfl⟩
  simp only [hp] at hready ⊢
  by_cases hthere : p.secCnt ≠ 0
  · rw [if_pos hthere]
    have hr := hready hthere
    have hrange : sectorRange (u32 (p.startLba + 1)) 1 := by
      rw [hr.superBlock, sectorRange_one]
      exact hr.readable
    refine Runs.bind (onDisk_runs (ideRead_runs hrange _ _)) ?_
    rintro buf t₁ ⟨⟨hbuf, hheap⟩, hdisks, hlog⟩
    have hsame : t₁.disks = t.disks := by
      rw [hdisks, hheap.disk]
      exact Function.update_eq_self hd t.disks
    have hword : word buf.bytes 0 = word (t.disks hd) (u32 (p.startLba + 1) * 512) := by
      rw [hbuf]
      apply word_congr
      intro i hi
      change blit zeros 0 _ (1 * 512) (0 + i) = _
      rw [blit_inside _ _ (by omega)]
      rfl
    have hsteady : Steady t.kern t₁.kern := ⟨hheap.pool, hheap.grant, hheap.next⟩
    by_cases hmagic : HasMagic (t.disks hd) p
    · have hno : ¬ NeedsFormat (t.disks hd) p := fun h => h.2 hmagic
      rw [if_pos (hword.trans hmagic)]
      apply Runs.pure
      refine ⟨hsteady, ?_, ?_⟩
      · rw [hp, if_neg hno, hsame]
      · rw [hp, if_neg hno, hlog]
    · have hyes : NeedsFormat (t.disks hd) p := ⟨hthere, hmagic⟩
      rw [if_neg (fun h => hmagic (hword.symm.trans h))]
      obtain ⟨hlarge, hsects, hdata⟩ := hr.room hmagic
      have hf := hr.formattable hmagic
      have hruns := partitionFormat_runs hf (pad hd slot) (k := { t₁.kern with disk := t₁.disks hd })
        (fun i => hsteady.plenty hk i) hsects hdata
      refine Runs.bind (onDisk_runs (hruns.after fun _ _ h => (partitionFormat_ok h).1)) ?_
      rintro _ t₂ ⟨⟨-, hformat⟩, hdisks₂, hlog₂⟩
      have hdisk := hformat.disk
      dsimp only at hdisk
      refine ⟨⟨⟩, _, modify_eq _ _, ?_, ?_, ?_⟩
      · exact hsteady.trans ⟨hformat.pool, hformat.grant, hformat.next⟩
      · rw [hp, if_pos hyes]
        dsimp only
        rw [hdisks₂, hdisk, hsame]
      · rw [hp, if_pos hyes]
        dsimp only
        rw [hlog₂, hlog]
  · rw [if_neg hthere]
    have hno : ¬ NeedsFormat (t.disks hd) p := fun h => hthere h.1
    apply Runs.pure
    refine ⟨Steady.refl _, ?_, ?_⟩
    · rw [hp, if_neg hno]
    · rw [hp, if_neg hno]

/-- The `i`-th record of a disk in the order of the search. -/
def partSlot (i : ℕ) : Slot := if i < 4 then .prim i else .logic (i - 4)

theorem partSlot_inj {i j : ℕ} (h : partSlot i = partSlot j) : i = j := by
  unfold partSlot at h
  split_ifs at h
  · exact Slot.prim.inj h
  · have := Slot.logic.inj h
    omega

theorem partSlot_next {i : ℕ} (h : i + 1 ≠ 4) : (partSlot i).next = partSlot (i + 1) := by
  unfold partSlot
  by_cases hi : i < 4
  · rw [if_pos hi, if_pos (by omega)]
    rfl
  · rw [if_neg hi, if_neg (by omega), show i + 1 - 4 = i - 4 + 1 by omega]
    rfl

structure Searchable (r : Slot → Part) (disk : Memory) : Prop where
  ready : ∀ slot, (r slot).secCnt ≠ 0 → (r slot).Ready disk
  apart : ∀ slot slot', slot ≠ slot' → (r slot).secCnt ≠ 0 → (r slot').secCnt ≠ 0 → (r slot).Apart (r slot')

/-- The first `n` records of the disk have been searched since `t₀`. -/
structure Searched (records : ℕ → Slot → Part) (hd n : ℕ) (t₀ t : SearchState) : Prop where
  steady : Steady t₀.kern t.kern
  others : ∀ d, d ≠ hd → t.disks d = t₀.disks d
  done : ∀ i < n, (records hd (partSlot i)).secCnt ≠ 0 → HasMagic (t.disks hd) (records hd (partSlot i))
  kept : ∀ i, n ≤ i → (records hd (partSlot i)).secCnt ≠ 0 →
    (HasMagic (t.disks hd) (records hd (partSlot i)) ↔ HasMagic (t₀.disks hd) (records hd (partSlot i)))
  formatted : ∀ a, a ∈ t.formatted ↔ a ∈ t₀.formatted ∨
    ∃ i < n, a = (hd, partSlot i) ∧ NeedsFormat (t₀.disks hd) (records hd (partSlot i))

theorem Searched.refl (records : ℕ → Slot → Part) (hd : ℕ) (t : SearchState) : Searched records hd 0 t t := by
  refine ⟨Steady.refl _, fun _ _ => rfl, fun _ h => absurd h (Nat.not_lt_zero _), fun _ _ _ => Iff.rfl, ?_⟩
  intro a
  simp

theorem Searched.needs {n : ℕ} {t₀ t : SearchState} (h : Searched records hd n t₀ t) :
    NeedsFormat (t.disks hd) (records hd (partSlot n)) ↔ NeedsFormat (t₀.disks hd) (records hd (partSlot n)) := by
  unfold NeedsFormat
  constructor
  · rintro ⟨hthere, hmagic⟩
    exact ⟨hthere, fun hm => hmagic ((h.kept n (le_refl _) hthere).mpr hm)⟩
  · rintro ⟨hthere, hmagic⟩
    exact ⟨hthere, fun hm => hmagic ((h.kept n (le_refl _) hthere).mp hm)⟩

theorem Part.Ready.congr {disk disk' : Memory} {p : Part} (h : p.Ready disk) (hm : HasMagic disk' p ↔ HasMagic disk p) : p.Ready disk' :=
  ⟨h.two, h.readable, h.bounded, fun hn => h.room fun hm' => hn (hm.mpr hm')⟩

theorem PartChecked.other {slot slot' : Slot} {t t' : SearchState} (h : PartChecked records pad hd slot t t') (hne : slot ≠ slot')
    {disk : Memory} (hs : Searchable (records hd) disk) (hready : (records hd slot).secCnt ≠ 0 → (records hd slot).Ready (t.disks hd))
    (hthere : (records hd slot').secCnt ≠ 0) :
    HasMagic (t'.disks hd) (records hd slot') ↔ HasMagic (t.disks hd) (records hd slot') := by
  rw [h.disks]
  split_ifs with hneeds
  · rw [Function.update_self]
    exact formatDisk_other (hready hneeds.1) hneeds.2 (hs.ready slot' hthere) (hs.apart slot slot' hne hneeds.1 hthere) _ _
  · rfl

theorem PartChecked.magic {slot : Slot} {t t' : SearchState} (h : PartChecked records pad hd slot t t')
    (hready : (records hd slot).Ready (t.disks hd)) (hthere : (records hd slot).secCnt ≠ 0) :
    HasMagic (t'.disks hd) (records hd slot) := by
  rw [h.disks]
  split_ifs with hneeds
  · rw [Function.update_self]
    exact formatDisk_magic hready hneeds.2 _ _
  · by_contra hno
    exact hneeds ⟨hthere, hno⟩

theorem Searched.step {n : ℕ} {t₀ t t' : SearchState} (h : Searched records hd n t₀ t) (hs : Searchable (records hd) (t₀.disks hd))
    (hc : PartChecked records pad hd (partSlot n) t t') : Searched records hd (n + 1) t₀ t' := by
  have hready : (records hd (partSlot n)).secCnt ≠ 0 → (records hd (partSlot n)).Ready (t.disks hd) :=
    fun hthere => (hs.ready _ hthere).congr (h.kept n (le_refl _) hthere)
  have hother : ∀ i, i ≠ n → (records hd (partSlot i)).secCnt ≠ 0 →
      (HasMagic (t'.disks hd) (records hd (partSlot i)) ↔ HasMagic (t.disks hd) (records hd (partSlot i))) := by
    intro i hi hthere
    exact hc.other (fun he => hi (partSlot_inj he).symm) hs hready hthere
  refine ⟨h.steady.trans hc.steady, ?_, ?_, ?_, ?_⟩
  · intro d hd'
    rw [← h.others d hd', hc.disks]
    split_ifs
    · exact Function.update_of_ne hd' _ _
    · rfl
  · intro i hi hthere
    by_cases hn : i = n
    · subst hn
      exact hc.magic (hready hthere) hthere
    · exact (hother i hn hthere).mpr (h.done i (by omega) hthere)
  · intro i hi hthere
    exact (hother i (by omega) hthere).trans (h.kept i (by omega) hthere)
  · intro a
    have hlog : a ∈ t'.formatted ↔ a ∈ t.formatted ∨ a = (hd, partSlot n) ∧ NeedsFormat (t.disks hd) (records hd (partSlot n)) := by
      rw [hc.formatted]
      split_ifs with hneeds
      · simp [hneeds]
      · simp [hneeds]
    rw [hlog, h.formatted a, h.needs, or_assoc]
    apply or_congr Iff.rfl
    constructor
    · rintro (⟨i, hi, ha⟩ | ha)
      · exact ⟨i, by omega, ha⟩
      · exact ⟨n, by omega, ha⟩
    · rintro ⟨i, hi, ha⟩
      by_cases hn : i = n
      · subst hn
        exact .inr ha
      · exact .inl ⟨i, by omega, ha⟩

theorem checkParts_done (part : Slot) : checkParts records pad sbBuf hd part 12 = pure 12 := by
  rw [checkParts, if_neg (by omega)]

theorem checkParts_runs {m n : ℕ} (hm : n + m = 12) {part : Slot} (hpart : n = 4 ∨ part = partSlot n) {t₀ t : SearchState}
    (hk : t₀.kern.Plenty) (hs : Searchable (records hd) (t₀.disks hd)) (h : Searched records hd n t₀ t) :
    Runs (checkParts records pad sbBuf hd part n) t fun partIdx t' => partIdx = 12 ∧ Searched records hd 12 t₀ t' := by
  induction m generalizing n part t with
  | zero =>
    obtain rfl : n = 12 := hm
    rw [checkParts_done]
    exact Runs.pure ⟨rfl, h⟩
  | succ m ih =>
    rw [checkParts, if_pos (by omega)]
    have hslot : (if n = 4 then .logic 0 else part) = partSlot n := by
      rcases hpart with rfl | rfl
      · rfl
      · split_ifs with hfour
        · rw [hfour]
          rfl
        · rfl
    simp only [hslot]
    have hready : (records hd (partSlot n)).secCnt ≠ 0 → (records hd (partSlot n)).Ready (t.disks hd) :=
      fun hthere => (hs.ready _ hthere).congr (h.kept n (le_refl _) hthere)
    refine Runs.bind (checkPart_runs (h.steady.plenty hk) hready) ?_
    intro _ t' hc
    apply ih (by omega) _ (h.step hs hc)
    by_cases hfour : n + 1 = 4
    · exact .inl hfour
    · exact .inr (partSlot_next hfour)

theorem filesysInit_runs {k : Kern} (hk : k.Plenty) {disks : ℕ → Memory} (hs : Searchable (records 0) (disks 0)) :
    Runs (filesysInit records pad 2) ⟨k, disks, []⟩ fun _ t => ∃ t₀ t₁, t₀.disks = disks ∧ t₀.formatted = [] ∧
      Searched records 0 12 t₀ t₁ ∧ t.disks = t₁.disks ∧ t.formatted = t₁.formatted := by
  unfold filesysInit
  refine Runs.bind (@onKern_runs _ _ ⟨k, disks, []⟩ _ (sysMalloc_runs 512 hk)) ?_
  rintro _ t₀ ⟨⟨rfl, hheap⟩, hdisks, hlog⟩
  dsimp only at hdisks hlog hheap ⊢
  have hs₀ : Searchable (records 0) (t₀.disks 0) := by
    rw [hdisks]
    exact hs
  have hrun := @checkParts_runs records pad ⟨⟨k.heap.next, k.pool⟩, 512, zeros⟩ 0 12 0 (Nat.zero_add 12) (.prim 0) (.inr rfl) t₀ t₀
    (hheap.plenty hk) hs₀ (Searched.refl records 0 t₀)
  change Runs (searchChannels records pad _ [0, 1] 0 >>= _) t₀ _
  refine Runs.bind (P := fun _ t₁ => Searched records 0 12 t₀ t₁) ?_ ?_
  · unfold searchChannels
    refine Runs.bind hrun ?_
    rintro _ t₁ ⟨rfl, h₁⟩
    unfold searchChannels
    rw [checkParts_done]
    exact ⟨_, _, rfl, h₁⟩
  · intro _ t₁ h₁
    have hpool : (⟨k.heap.next, k.pool⟩ : Ptr).pool = t₁.kern.pool := by
      rw [h₁.steady.pool, hheap.pool]
    refine (onKern_runs (sysFree_runs hpool)).mono ?_
    rintro _ t ⟨-, hdisks', hlog'⟩
    exact ⟨t₀, t₁, hdisks, hlog, h₁, hdisks', hlog'⟩

end

theorem ideInit_ok {disks : ℕ → Memory} {n : ℕ} {s : ScanState} : ideInit 2 disks n start = .ok ((), s) ↔
    ∃ s₁ s₂, partitionScan (disks 0) 0 n 0 start = .ok ((), s₁) ∧
      partitionScan (disks 1) 1 n 0 s₁.resetCounters = .ok ((), s₂) ∧ s₂.resetCounters = s := by
  change (partitionScan (disks 0) 0 n 0 >>= fun _ => _) start = _ ↔ _
  rw [bind_ok]
  constructor
  · rintro ⟨_, s₁, h₁, h⟩
    change (partitionScan (disks 1) 1 n 0 >>= fun _ => _) s₁.resetCounters = _ at h
    rw [bind_ok] at h
    obtain ⟨_, s₂, h₂, h⟩ := h
    cases h
    exact ⟨s₁, s₂, h₁, h₂, rfl⟩
  · rintro ⟨s₁, s₂, h₁, h₂, rfl⟩
    refine ⟨(), s₁, h₁, ?_⟩
    change (partitionScan (disks 1) 1 n 0 >>= fun _ => _) s₁.resetCounters = _
    rw [bind_ok]
    exact ⟨(), s₂, h₂, rfl⟩

theorem Starts.unique {pad : ℕ → Slot → Memory} {k : Kern} {levels : ℕ} {disks : ℕ → Memory} {s s' : ScanState} {t t' : SearchState}
    (h : Starts pad k levels disks s t) (h' : Starts pad k levels disks s' t') : s = s' ∧ t = t' := by
  obtain ⟨-, rfl⟩ := ok_inj h.scanned h'.scanned
  exact ⟨rfl, (ok_inj h.searched h'.searched).2⟩

section

variable {d₀ d₁ disk : Memory} {steps₀ steps : List Step} {hd levels : ℕ}

theorem prims_isPrim {es : List Entry} {st : Step} (h : st ∈ prims es) : st.isPrim = true := by
  unfold prims at h
  obtain ⟨e, -, he⟩ := List.mem_filterMap.mp h
  split_ifs at he
  cases he
  rfl

theorem plain_walk (hplain : Plain 0 (table disk 0)) (hd : ℕ) {s : ScanState} (hp : s.pNo = 0) (hl : s.lNo = 0) :
    ∃ r, (∀ n ≥ 1, partitionScan disk hd n 0 s = asRun r) ∧ ((∃ s', r = .ok s') ↔ (prims (table disk 0)).countP Step.isPrim ≤ 3) ∧
      ∀ s', r = .ok s' → Filled hd (assigned 0 0 (prims (table disk 0))) s s' := by
  have height : s.lNo + (prims (table disk 0)).countP Step.isLogic ≤ 8 := by
    rw [hl, prims_noLogic]
    omega
  refine ⟨runSteps hd (prims (table disk 0)) s, ?_, ?_, ?_⟩
  · intro n hn
    obtain ⟨m, rfl⟩ : ∃ m, n = m + 1 := ⟨n - 1, by omega⟩
    rw [partitionScan, check_bind, if_pos (Nat.zero_le _), scanTable_only_prims _ hplain]
  · rw [runSteps_ok_iff (by omega) height, hp, Nat.zero_add]
    apply and_iff_left
    intro before lba after hsplit
    have hmem : Step.ebr lba ∈ prims (table disk 0) := by
      rw [hsplit]
      simp
    cases prims_isPrim hmem
  · intro s' hrun
    have hfilled := runSteps_filled hrun (by omega) height
    rwa [hp, hl] at hfilled

theorem assigned_partSlot (hp : steps.countP Step.isPrim ≤ 3) (hl : steps.countP Step.isLogic ≤ 8) {a : Slot × Part}
    (ha : a ∈ assigned 0 0 steps) : ∃ i < 12, a.1 = partSlot i := by
  have hbound : ∀ (steps : List Step) (p l : ℕ), a ∈ assigned p l steps → (∃ i < p + steps.countP Step.isPrim, a.1 = .prim i) ∨
      ∃ i < l + steps.countP Step.isLogic, a.1 = .logic i := by
    intro steps
    induction steps with
    | nil =>
      intro p l h
      cases h
    | cons st rest ih =>
      intro p l h
      rw [List.countP_cons, List.countP_cons]
      cases st with
      | prim part =>
        simp only [Step.isPrim, Step.isLogic, if_true, Bool.false_eq_true, if_false]
        rcases List.mem_cons.mp h with rfl | h
        · exact .inl ⟨p, by omega, rfl⟩
        · rcases ih (p + 1) l h with ⟨i, hi, he⟩ | h
          · exact .inl ⟨i, by omega, he⟩
          · exact .inr h
      | logic part =>
        simp only [Step.isPrim, Step.isLogic, if_true, Bool.false_eq_true, if_false]
        rcases List.mem_cons.mp h with rfl | h
        · exact .inr ⟨l, by omega, rfl⟩
        · rcases ih p (l + 1) h with h | ⟨i, hi, he⟩
          · exact .inl h
          · exact .inr ⟨i, by omega, he⟩
      | ebr lba => exact ih p l h
  rcases hbound steps 0 0 ha with ⟨i, hi, he⟩ | ⟨i, hi, he⟩
  · refine ⟨i, by omega, ?_⟩
    rw [he, partSlot, if_pos (by omega)]
  · refine ⟨4 + i, by omega, ?_⟩
    rw [he, partSlot, if_neg (by omega), Nat.add_sub_cancel_left]

theorem Filled.record {parts : List (Slot × Part)} {s s' : ScanState} (h : Filled hd parts s s') (hs : s.records hd = start.records hd)
    {slot : Slot} (hthere : (s'.records hd slot).secCnt ≠ 0) : (slot, s'.records hd slot) ∈ parts := by
  by_cases hmem : slot ∈ parts.map Prod.fst
  · obtain ⟨a, ha, rfl⟩ := List.mem_map.mp hmem
    rw [h.records a ha]
    exact ha
  · rw [h.others slot hmem, hs] at hthere
    exact absurd rfl hthere

theorem Part.Apart.symm {p q : Part} (h : p.Apart q) : q.Apart p := Or.symm h

theorem Usable.searchable (h : Usable levels disk steps) {s s' : ScanState} (hf : Filled hd (assigned 0 0 steps) s s')
    (hs : s.records hd = start.records hd) : Searchable (s'.records hd) disk := by
  constructor
  · intro slot hthere
    exact h.ready _ (hf.record hs hthere)
  · intro slot slot' hne hthere hthere'
    have hsymm : Std.Symm fun a b : Slot × Part => a.2.Apart b.2 := ⟨fun _ _ hab => hab.symm⟩
    apply h.apart.forall (hf.record hs hthere) (hf.record hs hthere')
    intro he
    exact hne (congrArg Prod.fst he)

structure Outcome (d₀ d₁ : Memory) (parts₀ parts₁ : List (Slot × Part)) (s : ScanState) (t : SearchState) : Prop where
  list : s.partitionList = parts₀.map (fun a => (0, a.1)) ++ parts₁.map (fun a => (1, a.1))
  first : ∀ a ∈ parts₀, s.records 0 a.1 = a.2 ∧ HasMagic (t.disks 0) a.2 ∧ ((0, a.1) ∈ t.formatted ↔ ¬ HasMagic d₀ a.2)
  second : ∀ a ∈ parts₁, s.records 1 a.1 = a.2
  empty : ∀ slot, slot ∉ parts₁.map Prod.fst → s.records 1 slot = ⟨0, 0⟩
  untouched : t.disks 1 = d₁
  unformatted : ∀ slot, (1, slot) ∉ t.formatted

theorem Outcome.records_eq {d₀ d₀' : Memory} {parts₀ parts₀' parts₁ : List (Slot × Part)} {s s' : ScanState} {t t' : SearchState}
    (h : Outcome d₀ d₁ parts₀ parts₁ s t) (h' : Outcome d₀' d₁ parts₀' parts₁ s' t') : s.records 1 = s'.records 1 := by
  funext slot
  by_cases hmem : slot ∈ parts₁.map Prod.fst
  · obtain ⟨a, ha, rfl⟩ := List.mem_map.mp hmem
    rw [h.second a ha, h'.second a ha]
  · rw [h.empty slot hmem, h'.empty slot hmem]

theorem Outcome.allFormatted_iff {parts₀ parts₁ : List (Slot × Part)} {s : ScanState} {t : SearchState}
    (h : Outcome d₀ d₁ parts₀ parts₁ s t) : AllFormatted (twoDisks d₀ d₁) s t ↔ ∀ a ∈ parts₁, HasMagic d₁ a.2 := by
  unfold AllFormatted
  rw [h.list]
  constructor
  · intro hall a ha
    have hmem : (1, a.1) ∈ parts₀.map (fun a => (0, a.1)) ++ parts₁.map (fun a => (1, a.1)) :=
      List.mem_append_right _ (List.mem_map_of_mem ha)
    have hmagic := (hall _ hmem).1
    rwa [h.untouched, h.second a ha] at hmagic
  · intro hall b hb
    rcases List.mem_append.mp hb with hb | hb
    · obtain ⟨a, ha, rfl⟩ := List.mem_map.mp hb
      obtain ⟨hrecord, hmagic, hlog⟩ := h.first a ha
      dsimp only
      rw [hrecord]
      exact ⟨hmagic, hlog⟩
    · obtain ⟨a, ha, rfl⟩ := List.mem_map.mp hb
      dsimp only
      rw [h.second a ha, h.untouched]
      exact ⟨hall a ha, iff_of_false (h.unformatted a.1) (not_not.mpr (hall a ha))⟩

theorem starts_of_scans {s₁ s₂ : ScanState} (h₁ : partitionScan d₀ 0 levels 0 start = .ok ((), s₁))
    (h₂ : partitionScan d₁ 1 levels 0 s₁.resetCounters = .ok ((), s₂)) (hs : Searchable (s₂.records 0) d₀)
    (pad : ℕ → Slot → Memory) {k : Kern} (hk : k.Plenty) : ∃ t, Starts pad k levels (twoDisks d₀ d₁) s₂.resetCounters t ∧
      ∃ t₀ t₁, t₀.disks = twoDisks d₀ d₁ ∧ t₀.formatted = [] ∧ Searched s₂.records 0 12 t₀ t₁ ∧ t.disks = t₁.disks ∧
        t.formatted = t₁.formatted := by
  obtain ⟨_, t, hrun, hsearched⟩ := @filesysInit_runs s₂.records pad k hk (twoDisks d₀ d₁) hs
  exact ⟨t, ⟨ideInit_ok.mpr ⟨s₁, s₂, h₁, h₂, rfl⟩, hrun⟩, hsearched⟩

theorem Usable.starts (h₀ : Usable levels d₀ steps₀) (hplain : Plain 0 (table d₁ 0)) (hthree : (prims (table d₁ 0)).countP Step.isPrim ≤ 3)
    (pad : ℕ → Slot → Memory) {k : Kern} (hk : k.Plenty) : ∃ s t, Starts pad k levels (twoDisks d₀ d₁) s t ∧
      Outcome d₀ d₁ (assigned 0 0 steps₀) (assigned 0 0 (prims (table d₁ 0))) s t := by
  obtain ⟨r, hscan, hiff, hfill⟩ := @WellFormed.walk d₀ steps₀ h₀.wellFormed 0 start rfl rfl rfl
  obtain ⟨s₁, rfl⟩ := hiff.mpr ⟨h₀.primaries, h₀.reachable⟩
  have hf₁ := hfill s₁ rfl
  obtain ⟨r', hscan', hiff', hfill'⟩ := @plain_walk d₁ hplain 1 s₁.resetCounters rfl rfl
  obtain ⟨s₂, rfl⟩ := hiff'.mpr hthree
  have hf₂ := hfill' s₂ rfl
  have hrecords : s₂.records 0 = s₁.records 0 := hf₂.disks 0 (by decide)
  have hsearch : Searchable (s₂.records 0) d₀ := by
    rw [hrecords]
    exact h₀.searchable hf₁ rfl
  obtain ⟨t, hstart, t₀, t₁, hdisks₀, hlog₀, hsearched, hdisks, hlog⟩ :=
    starts_of_scans ((hscan levels).1 h₀.shallow) (hscan' levels (Nat.one_le_of_lt h₀.shallow)) hsearch pad hk
  refine ⟨s₂.resetCounters, t, hstart, ?_, ?_, hf₂.records, ?_, ?_, ?_⟩
  · change s₂.partitionList = _
    rw [hf₂.list]
    change s₁.partitionList ++ _ = _
    rw [hf₁.list]
    rfl
  · intro a ha
    obtain ⟨i, hi, hslot⟩ := assigned_partSlot h₀.primaries h₀.wellFormed.eight ha
    have hrecord : s₂.records 0 a.1 = a.2 := by
      rw [hrecords]
      exact hf₁.records a ha
    have hthere : (s₂.records 0 (partSlot i)).secCnt ≠ 0 := by
      have := (h₀.ready a ha).two
      rw [← hslot, hrecord]
      omega
    have hmagic := hsearched.done i hi hthere
    have hdisk : t₀.disks 0 = d₀ := by
      rw [hdisks₀]
      rfl
    rw [← hslot, hrecord] at hmagic hthere
    refine ⟨hrecord, by rwa [hdisks], ?_⟩
    rw [hlog, hsearched.formatted, hlog₀, hdisk]
    constructor
    · rintro (hnil | ⟨j, -, hj, hneeds⟩)
      · cases hnil
      · rw [Prod.mk.injEq] at hj
        rw [← hj.2, hrecord] at hneeds
        exact hneeds.2
    · intro hno
      refine .inr ⟨i, hi, by rw [hslot], ?_⟩
      rw [← hslot, hrecord]
      exact ⟨hthere, hno⟩
  · intro slot hslot
    change s₂.records 1 slot = _
    rw [hf₂.others slot hslot]
    change s₁.records 1 slot = _
    rw [hf₁.disks 1 (by decide)]
    rfl
  · rw [hdisks, hsearched.others 1 (by decide), hdisks₀]
    rfl
  · intro slot hslot
    rw [hlog, hsearched.formatted, hlog₀] at hslot
    rcases hslot with hnil | ⟨j, -, hj, -⟩
    · cases hnil
    · cases hj

end

/-- One primary partition of 2000 sectors, not formatted. -/
def onePrimary : Memory := fun a =>
  match a with
  | 450 => 131 | 454 => 1 | 458 => 208 | 459 => 7
  | _ => 0

def withExtended (b₀ b₁ b₂ : UInt8) : Memory := fun a =>
  match a with
  | 450 => 131 | 454 => 1 | 458 => 208 | 459 => 7
  | 466 => 5 | 470 => b₀ | 471 => b₁ | 472 => b₂
  | _ => 0

def farExtended : Memory := withExtended 255 127 2

/-- An extended partition in sector 3000. -/
def nearExtended : Memory := withExtended 184 11 0

theorem onePrimary_plain : Plain 0 (table onePrimary 0) := by
  unfold Plain
  decide

theorem onePrimary_prims : prims (table onePrimary 0) = [.prim ⟨1, 2000⟩] := by decide

theorem ready_of_unformatted (disk : Memory) : (⟨1, 2000⟩ : Part).Ready disk :=
  ⟨by decide, by decide, by decide, fun _ => by decide⟩

theorem onePrimary_usable {levels : ℕ} (hlevels : 0 < levels) : Usable levels onePrimary [.prim ⟨1, 2000⟩] := by
  have hlayout : Layout onePrimary [.prim ⟨1, 2000⟩] := by
    rw [← onePrimary_prims]
    exact .plain onePrimary_plain
  refine ⟨⟨hlayout, by decide⟩, by decide, ?_, hlevels, by decide, ?_, by simp [assigned]⟩
  · intro before lba after hsplit
    have hmem : Step.ebr lba ∈ [Step.prim ⟨1, 2000⟩] := by
      rw [hsplit]
      simp
    simp at hmem
  · simp [assigned, ready_of_unformatted]

theorem farExtended_usable {levels : ℕ} (hlevels : 2 ≤ levels) : Usable levels farExtended [.prim ⟨1, 2000⟩, .ebr 163839] := by
  have hchain : Chain farExtended 163839 163839 [.ebr 163839] := by
    apply Chain.last (by decide)
    unfold Plain
    decide
  have htable : table farExtended 0 = [⟨131, 1, 2000⟩] ++ ⟨5, 163839, 0⟩ :: [⟨0, 0, 0⟩, ⟨0, 0, 0⟩] := by decide
  have hlayout : Layout farExtended [.prim ⟨1, 2000⟩, .ebr 163839] :=
    .extended htable (by unfold Plain; decide) (by unfold Plain; decide) rfl hchain
  refine ⟨⟨hlayout, by decide⟩, by decide, ?_, hlevels, by decide, ?_, by simp [assigned]⟩
  · intro before lba after hsplit _
    have hmem : Step.ebr lba ∈ [Step.prim ⟨1, 2000⟩, .ebr 163839] := by
      rw [hsplit]
      simp
    simp only [List.mem_cons, Step.ebr.injEq, reduceCtorEq, List.not_mem_nil, or_false, false_or] at hmem
    omega
  · simp [assigned, ready_of_unformatted]

theorem onePrimary_scan {n : ℕ} (hn : n ≥ 1) : partitionScan onePrimary 0 n 0 start = .ok ((), start.addPrim 0 ⟨1, 2000⟩) := by
  obtain ⟨m, rfl⟩ : ∃ m, n = m + 1 := ⟨n - 1, by omega⟩
  rfl

theorem farExtended_scan {n : ℕ} (hn : n ≥ 2) :
    partitionScan farExtended 0 n 0 start = .ok ((), { start.addPrim 0 ⟨1, 2000⟩ with extLbaBase := 163839 }) := by
  obtain ⟨m, rfl⟩ : ∃ m, n = m + 2 := ⟨n - 2, by omega⟩
  rfl

theorem leaked_scan {disk : Memory} {hd : ℕ} {before after : List Entry} {e : Entry} (htable : table disk 0 = before ++ e :: after)
    (hbefore : Plain 0 before) (hlink : e.fsType = 5) (hpos : e.startLba ≠ 0) (hle : e.startLba ≤ 163839) {s : ScanState}
    (hbase : s.extLbaBase = 163839) (hl : s.lNo = 0) (n : ℕ) (s' : ScanState) : partitionScan disk hd n 0 s ≠ .ok ((), s') := by
  cases n with
  | zero =>
    rintro ⟨⟩
  | succ n =>
    rw [partitionScan, check_bind, if_pos (Nat.zero_le _), htable, scanTable_prims _ hd hbefore]
    cases hrun : runSteps hd (prims before) s with
    | error f => rintro ⟨⟩
    | ok s₁ =>
      obtain ⟨-, hb⟩ := runSteps_counts hrun (by rw [hl, prims_noLogic]; omega)
      rw [hbase] at hb
      have herror : ∃ f, partitionScan disk hd n ((e.startLba + 163839) % 4294967296) s₁ = .error f := by
        cases n with
        | zero => exact ⟨_, rfl⟩
        | succ n =>
          rw [partitionScan, check_bind, if_neg (by omega)]
          exact ⟨_, rfl⟩
      obtain ⟨f, hf⟩ := herror
      change scanTable _ hd 0 (e :: after) s₁ ≠ _
      rw [scanTable, if_pos hlink, get_bind, if_pos (by rw [hb]; decide), hb, bind_error hf]
      rintro ⟨⟩

theorem Starts.second {pad : ℕ → Slot → Memory} {k : Kern} {levels : ℕ} {d₀ d₁ : Memory} {s s₁ : ScanState} {t : SearchState}
    (h : Starts pad k levels (twoDisks d₀ d₁) s t) (hs : partitionScan d₀ 0 levels 0 start = .ok ((), s₁)) :
    ∃ s₂, partitionScan d₁ 1 levels 0 s₁.resetCounters = .ok ((), s₂) := by
  obtain ⟨s₁', s₂, h₁, h₂, -⟩ := ideInit_ok.mp h.scanned
  obtain ⟨-, rfl⟩ := ok_inj hs h₁
  exact ⟨s₂, h₂⟩

theorem Chain.head {disk : Memory} {base lba : ℕ} {steps : List Step} (h : Chain disk base lba steps) :
    lba ≠ 0 ∧ ∃ rest, steps = .ebr lba :: rest := by
  cases h with
  | last hne _ => exact ⟨hne, _, rfl⟩
  | link hne => exact ⟨hne, _, rfl⟩

theorem not_independent_extended {d₁ : Memory} {before after : List Entry} {e : Entry} {steps : List Step}
    (h : WellFormed d₁ (prims before ++ steps ++ prims after)) (htable : table d₁ 0 = before ++ e :: after) (hbefore : Plain 0 before)
    (hlink : e.fsType = 5) (hchain : Chain d₁ e.startLba e.startLba steps) (pad : ℕ → Slot → Memory) (k : Kern) {levels : ℕ}
    (hlevels : 2 ≤ levels) : ¬ Independent pad k levels onePrimary farExtended d₁ := by
  rintro ⟨s, t, s', t', hstart, hstart', -⟩
  obtain ⟨hpos, rest, rfl⟩ := hchain.head
  have hle : e.startLba ≤ 163839 := by
    obtain ⟨r, hwalk, hiff, -⟩ := h.walk 1 (s := (start.addPrim 0 ⟨1, 2000⟩).resetCounters) rfl rfl rfl
    obtain ⟨s₂, hok⟩ := hstart.second (onePrimary_scan (Nat.one_le_of_lt hlevels))
    have hroom := lt_of_not_ge fun hn => (hwalk levels).2 hn s₂ hok
    rw [(hwalk levels).1 hroom] at hok
    have hr : ∃ s₂, r = .ok s₂ := by
      cases r with
      | error f => cases hok
      | ok s₂ => exact ⟨s₂, rfl⟩
    apply (hiff.mp hr).2 (prims before) e.startLba (rest ++ prims after)
    · simp
    · rw [prims_noLogic]
      omega
  obtain ⟨s₂, hok⟩ := hstart'.second (farExtended_scan hlevels)
  exact leaked_scan htable hbefore hlink hpos hle rfl rfl levels s₂ hok

theorem not_starts_extended {d₁ : Memory} {before after : List Entry} {e : Entry} {steps : List Step}
    (h : WellFormed d₁ (prims before ++ steps ++ prims after)) (hchain : Chain d₁ e.startLba e.startLba steps) {pad : ℕ → Slot → Memory}
    {k : Kern} {s : ScanState} {t : SearchState} : ¬ Starts pad k 1 (twoDisks onePrimary d₁) s t := by
  intro hstart
  obtain ⟨-, rest, rfl⟩ := hchain.head
  obtain ⟨r, hwalk, -⟩ := h.walk 1 (s := (start.addPrim 0 ⟨1, 2000⟩).resetCounters) rfl rfl rfl
  obtain ⟨s₂, hok⟩ := hstart.second (onePrimary_scan (le_refl 1))
  apply (hwalk 1).2 _ s₂ hok
  rw [nested_append, nested_append, nested_prims, nested_prims, prims_noLogic, nested, if_pos (by decide)]
  omega

/-- Which disks of channel 1 are handled alike, and completely, whatever disk stands on channel 0: those without an extended partition,
with at most three primary ones, all of which carry the magic number already. -/
theorem disks_independent (d₁ : Memory) (steps : List Step) (h : WellFormed d₁ steps) (pad : ℕ → Slot → Memory) (k : Kern)
    (hk : k.Plenty) (levels : ℕ) (hlevels : 0 < levels) :
    (∀ d₀ d₀' steps₀ steps₀', Usable levels d₀ steps₀ → Usable levels d₀' steps₀' → Independent pad k levels d₀ d₀' d₁) ↔
      (∀ e ∈ table d₁ 0, e.fsType ≠ 5) ∧ steps.countP Step.isPrim ≤ 3 ∧ ∀ a ∈ assigned 0 0 steps, HasMagic d₁ a.2 := by
  obtain ⟨hlayout, height⟩ := h
  cases hlayout with
  | plain hplain =>
    constructor
    · intro hall
      obtain ⟨s, t, -, -, hstart, -, -, hformatted, -⟩ := hall _ _ _ _ (onePrimary_usable hlevels) (onePrimary_usable hlevels)
      have hthree : (prims (table d₁ 0)).countP Step.isPrim ≤ 3 := by
        obtain ⟨s₂, hok⟩ := hstart.second (onePrimary_scan hlevels)
        obtain ⟨r, hscan, hiff, -⟩ := plain_walk hplain 1 (s := (start.addPrim 0 ⟨1, 2000⟩).resetCounters) rfl rfl
        rw [hscan levels hlevels] at hok
        apply hiff.mp
        cases r with
        | error f => cases hok
        | ok s' => exact ⟨s', rfl⟩
      refine ⟨fun e he => (hplain e he).1, hthree, ?_⟩
      obtain ⟨s', t', hstart', houtcome⟩ := (onePrimary_usable hlevels).starts hplain hthree pad hk
      obtain ⟨rfl, rfl⟩ := hstart.unique hstart'
      exact houtcome.allFormatted_iff.mp hformatted
    · rintro ⟨-, hthree, hmagic⟩ d₀ d₀' steps₀ steps₀' h₀ h₀'
      obtain ⟨s, t, hstart, houtcome⟩ := h₀.starts hplain hthree pad hk
      obtain ⟨s', t', hstart', houtcome'⟩ := h₀'.starts hplain hthree pad hk
      exact ⟨s, t, s', t', hstart, hstart', houtcome.records_eq houtcome', houtcome.allFormatted_iff.mpr hmagic,
        houtcome'.allFormatted_iff.mpr hmagic⟩
  | @extended before after e steps htable hbefore hafter hlink hchain =>
    have hwell : WellFormed d₁ (prims before ++ steps ++ prims after) := ⟨.extended htable hbefore hafter hlink hchain, height⟩
    apply iff_of_false
    · intro hall
      by_cases hone : levels = 1
      · subst hone
        obtain ⟨s, t, -, -, hstart, -⟩ := hall _ _ _ _ (onePrimary_usable hlevels) (onePrimary_usable hlevels)
        exact not_starts_extended hwell hchain hstart
      · have htwo : 2 ≤ levels := by omega
        exact not_independent_extended hwell htable hbefore hlink hchain pad k htwo
          (hall _ _ _ _ (onePrimary_usable hlevels) (farExtended_usable htwo))
    · rintro ⟨hno, -⟩
      apply hno e _ hlink
      rw [htable]
      simp

/-- The partition of `onePrimary`, with the magic number in its super block. -/
def formattedPrimary : Memory := fun a =>
  match a with
  | 450 => 131 | 454 => 1 | 458 => 208 | 459 => 7
  | 1024 => 0x18 | 1025 => 0x03 | 1026 => 0x59 | 1027 => 0x19
  | _ => 0

theorem disks_independent_formatted : Independent (fun _ _ => zeros) Kern.blank 80 onePrimary farExtended formattedPrimary := by
  have hplain : Plain 0 (table formattedPrimary 0) := by
    unfold Plain
    decide
  have hwell : WellFormed formattedPrimary (prims (table formattedPrimary 0)) := ⟨.plain hplain, by rw [prims_noLogic]; omega⟩
  apply (disks_independent formattedPrimary _ hwell (fun _ _ => zeros) Kern.blank Kern.blank_plenty 80 (by decide)).mpr _ _ _ _ _
    (onePrimary_usable (by decide)) (farExtended_usable (by decide))
  refine ⟨fun e he => (hplain e he).1, by decide, by decide⟩

theorem onePrimary_searchable (disk : Memory) : Searchable ((start.addPrim 0 ⟨1, 2000⟩).records 0) disk := by
  have honly : ∀ slot, ((start.addPrim 0 ⟨1, 2000⟩).records 0 slot).secCnt ≠ 0 → slot = .prim 0 := by
    intro slot hthere
    by_contra hne
    apply hthere
    change (Function.update (start.records 0) (.prim 0) _ slot).secCnt = 0
    rw [Function.update_of_ne hne]
    rfl
  constructor
  · intro slot hthere
    rw [honly slot hthere]
    exact ready_of_unformatted disk
  · intro slot slot' hne hthere hthere'
    exact absurd ((honly slot hthere).trans (honly slot' hthere').symm) hne

theorem nearExtended_scan {n : ℕ} (hn : n ≥ 2) :
    partitionScan nearExtended 0 n 0 start = .ok ((), { start.addPrim 0 ⟨1, 2000⟩ with extLbaBase := 3000 }) := by
  obtain ⟨m, rfl⟩ : ∃ m, n = m + 2 := ⟨n - 2, by omega⟩
  rfl

/-- The disk of channel 1 keeps a partition unformatted, and loses its logical partitions when that of channel 0 has an extended one. -/
theorem disks_dependent : (∃ s t, Starts (fun _ _ => zeros) Kern.blank 80 (twoDisks onePrimary onePrimary) s t ∧
    (1, .prim 0) ∈ s.partitionList ∧ (1, .prim 0) ∉ t.formatted ∧ ¬ HasMagic (t.disks 1) (s.records 1 (.prim 0))) ∧
    ∃ s t s' t', Starts (fun _ _ => zeros) Kern.blank 80 (twoDisks onePrimary chained) s t ∧
      Starts (fun _ _ => zeros) Kern.blank 80 (twoDisks nearExtended chained) s' t' ∧
      s.records 1 (.logic 0) = ⟨11, 3⟩ ∧ s'.records 1 (.logic 0) = ⟨0, 0⟩ := by
  constructor
  · obtain ⟨s, t, hstart, h⟩ := (@onePrimary_usable 80 (by decide)).starts onePrimary_plain (by decide) (fun _ _ => zeros)
      Kern.blank_plenty
    rw [onePrimary_prims] at h
    have hrecord : s.records 1 (.prim 0) = ⟨1, 2000⟩ := h.second _ (List.mem_singleton_self _)
    refine ⟨s, t, hstart, ?_, h.unformatted _, ?_⟩
    · rw [h.list]
      decide
    · rw [hrecord, h.untouched]
      decide
  · -- both scans of the second disk, with the base it finds
    have hright : partitionScan chained 1 80 0 (start.addPrim 0 ⟨1, 2000⟩).resetCounters = .ok ((),
        ({ (start.addPrim 0 ⟨1, 2000⟩).resetCounters.addPrim 1 ⟨1, 9⟩ with extLbaBase := 10 }.addLogic 1 ⟨11, 3⟩).addLogic 1 ⟨18, 2⟩) := rfl
    have hwrong : partitionScan chained 1 80 0 ({ start.addPrim 0 ⟨1, 2000⟩ with extLbaBase := 3000 } : ScanState).resetCounters =
        .ok ((), ({ start.addPrim 0 ⟨1, 2000⟩ with extLbaBase := 3000 } : ScanState).resetCounters.addPrim 1 ⟨1, 9⟩) := rfl
    obtain ⟨t, hstart, -⟩ := starts_of_scans (onePrimary_scan (by decide)) hright (onePrimary_searchable _) (fun _ _ => zeros)
      Kern.blank_plenty
    obtain ⟨t', hstart', -⟩ := starts_of_scans (nearExtended_scan (by decide)) hwrong (onePrimary_searchable _) (fun _ _ => zeros)
      Kern.blank_plenty
    exact ⟨_, t, _, t', hstart, hstart', rfl, rfl⟩

end ElephantOS.PartitionScan
