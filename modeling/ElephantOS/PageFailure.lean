import ElephantOS.PageMapping

namespace ElephantOS.Paging

open HaltingState ByteMemory

section

variable (alloc : Pool → MemM (Option Word))

def pageTableAddBy (vaddr pagePhyaddr : Word) : MemM Unit := do
  let pde ← load (pdePtr vaddr)
  if present pde then
    let pte ← load (ptePtr vaddr)
    assert (present pte = false)
    store (ptePtr vaddr) (pagePhyaddr ||| 7#32)
  else
    let pdePhyaddr ← alloc .kernel
    store (pdePtr vaddr) (pdePhyaddr.getD 0 ||| 7#32)
    clearPage (ptePtr vaddr &&& 0xfffff000#32)
    let pte ← load (ptePtr vaddr)
    assert (present pte = false)
    store (ptePtr vaddr) (pagePhyaddr ||| 7#32)

def mapPagesBy (pf : Pool) : ℕ → Word → MemM Bool
  | 0, _ => return true
  | cnt + 1, vaddr => do
    match ← alloc pf with
    | none => return false
    | some pagePhyaddr =>
      pageTableAddBy alloc vaddr pagePhyaddr
      mapPagesBy pf cnt (vaddr + 0x1000#32)

def mallocPageBy (pf : Pool) (pgCnt : ℕ) : MemM (Option Word) := do
  assert (0 < pgCnt ∧ pgCnt < 3840)
  match ← vaddrGet pf pgCnt with
  | none => return none
  | some vaddrStart =>
    let ok ← mapPagesBy alloc pf pgCnt vaddrStart
    return if ok then some vaddrStart else none

end

/-- `palloc` as documented: `NULL` when the pool has no frame left. -/
def pallocOrNull (pf : Pool) : MemM (Option Word) := do
  let m ← get
  let p := poolOf pf m
  match p.poolBitmap.scan 1 with
  | .ok (some bitIdx) =>
    set (setPool pf { p with poolBitmap := p.poolBitmap.set bitIdx true } m)
    return some (BitVec.ofNat 32 (bitIdx * 4096 + p.phyAddrStart))
  | _ => return none

def Exhausted (pf : Pool) (m : Machine) : Prop :=
  ∀ b < 8 * (poolOf pf m).poolBitmap.btmpBytesLen, (poolOf pf m).poolBitmap.scanTest b = true

theorem mapPagesBy_palloc (pf : Pool) (cnt : ℕ) (vaddr : Word) : mapPagesBy palloc pf cnt vaddr = mapPages pf cnt vaddr := by
  induction cnt generalizing vaddr with
  | zero => rfl
  | succ cnt ih =>
    simp only [mapPagesBy, mapPages, ih]
    rfl

theorem mallocPageBy_palloc (pf : Pool) (pgCnt : ℕ) : mallocPageBy palloc pf pgCnt = mallocPage pf pgCnt := by
  simp only [mallocPageBy, mapPagesBy_palloc]
  rfl

section

variable {m m' : Machine} {pf : Pool}

theorem pallocOrNull_none (h : Exhausted pf m) : pallocOrNull pf m = .ok (none, m) := by
  rcases Bitmap.scan_one (poolOf pf m).poolBitmap with ⟨b, -, hb, hbit, -⟩ | ⟨hscan, -⟩
  · rw [h b hb] at hbit
    cases hbit
  · rw [pallocOrNull, bind_eq (rfl : (get : MemM Machine) m = .ok (m, m))]
    simp only [hscan]
    rfl

theorem pallocOrNull_palloc (h : ¬ Exhausted pf m) : pallocOrNull pf m = palloc pf m := by
  rcases Bitmap.scan_one (poolOf pf m).poolBitmap with ⟨b, hscan, -⟩ | ⟨-, hfull⟩
  · rw [pallocOrNull, palloc, bind_eq (rfl : (get : MemM Machine) m = .ok (m, m)), bind_eq (rfl : (get : MemM Machine) m = .ok (m, m))]
    simp only [hscan]
  · exact absurd hfull h

end

def crowdedMachine : Machine :=
  { memInit (fun _ => 0) zeros 0x2000000 with
    userPool := ⟨⟨480, fun _ => 0xff⟩, 0x1100000, 0xf00000⟩
    userVaddr := fun _ => ⟨⟨94199, zeros⟩, userVaddrStart⟩
    pgdir := fun _ => some 0xc0101000#32 }

theorem crowdedMachine_exhausted : Exhausted .user crowdedMachine := by
  intro b _
  have h := (Bitmap.full_byte (poolOf .user crowdedMachine).poolBitmap (b / 8)).mp rfl (b % 8) (Nat.mod_lt _ (by omega))
  rwa [Nat.div_add_mod] at h

end ElephantOS.Paging
