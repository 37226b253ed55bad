import ElephantOS.PageAllocation

/-! `mem_pool_init` of `kernel/memory.c`: the two frame pools and the place of the three bitmaps. -/

namespace ElephantOS.Paging

structure BitmapPlace where
  bits : ℕ
  btmpBytesLen : ℕ

structure PoolPlace where
  poolBitmap : BitmapPlace
  phyAddrStart : ℕ
  poolSize : ℕ

structure Pools where
  kernelPool : PoolPlace
  userPool : PoolPlace
  kernelVaddr : BitmapPlace

def memBitmapBase : ℕ := 0xc009a000

/-- The page counts are `uint16_t`. -/
def memPoolInit (allMem : ℕ) : Pools :=
  let usedMem := 4096 * 256 + 0x100000
  let freeMem := u32 (allMem + 2 ^ 32 - usedMem)
  let allFreePages := freeMem / 4096 % 2 ^ 16
  let kernelFreePages := allFreePages / 2
  let userFreePages := allFreePages - kernelFreePages
  let kbmLength := kernelFreePages / 8
  let ubmLength := userFreePages / 8
  let kpStart := usedMem
  let upStart := kpStart + kernelFreePages * 4096
  { kernelPool := ⟨⟨memBitmapBase, kbmLength⟩, kpStart, kernelFreePages * 4096⟩
    userPool := ⟨⟨memBitmapBase + kbmLength, ubmLength⟩, upStart, userFreePages * 4096⟩
    kernelVaddr := ⟨memBitmapBase + kbmLength + ubmLength, kbmLength⟩ }

theorem memInit_pools (ram : PhysMem) (beyond : ByteMemory.Memory) (allMem : ℕ) :
    let m := memInit ram beyond allMem
    let p := memPoolInit allMem
    m.kernelPool.poolBitmap.btmpBytesLen = p.kernelPool.poolBitmap.btmpBytesLen ∧ m.kernelPool.phyAddrStart = p.kernelPool.phyAddrStart ∧
      m.kernelPool.poolSize = p.kernelPool.poolSize ∧ m.userPool.poolBitmap.btmpBytesLen = p.userPool.poolBitmap.btmpBytesLen ∧
      m.userPool.phyAddrStart = p.userPool.phyAddrStart ∧ m.userPool.poolSize = p.userPool.poolSize ∧
      m.kernelVaddr.vaddrBitmap.btmpBytesLen = p.kernelVaddr.btmpBytesLen :=
  ⟨rfl, rfl, rfl, rfl, rfl, rfl, rfl⟩

/-- A bit of the pool's bitmap stands for the frame at `addr`. -/
def PoolPlace.Covers (p : PoolPlace) (addr : ℕ) : Prop := ∃ i < 8 * p.poolBitmap.btmpBytesLen, addr = p.phyAddrStart + 4096 * i

def BitmapPlace.Apart (a b : BitmapPlace) : Prop := a.bits + a.btmpBytesLen ≤ b.bits ∨ b.bits + b.btmpBytesLen ≤ a.bits

/-- In the four pages below the main thread's. -/
def BitmapPlace.Inside (b : BitmapPlace) : Prop := 0xc009a000 ≤ b.bits ∧ b.bits + b.btmpBytesLen ≤ 0xc009e000

instance (p : PoolPlace) (addr : ℕ) : Decidable (p.Covers addr) :=
  inferInstanceAs (Decidable (∃ i < 8 * p.poolBitmap.btmpBytesLen, addr = p.phyAddrStart + 4096 * i))

/-- The whole frames of `[0x200000, allMem)` that neither pool covers, by their number. -/
def Pools.leftOut (p : Pools) (allMem : ℕ) : Finset ℕ := (Finset.range ((allMem - 0x200000) / 4096)).filter fun n =>
  ¬ p.kernelPool.Covers (0x200000 + 4096 * n) ∧ ¬ p.userPool.Covers (0x200000 + 4096 * n)

theorem Pools.mem_leftOut {p : Pools} {allMem n : ℕ} : n ∈ p.leftOut allMem ↔ n < (allMem - 0x200000) / 4096 ∧
    ¬ p.kernelPool.Covers (0x200000 + 4096 * n) ∧ ¬ p.userPool.Covers (0x200000 + 4096 * n) := by
  unfold leftOut
  rw [Finset.mem_filter, Finset.mem_range]

/-- The pools share no frame, lie in the memory and leave out fewer than 17 frames of it, and the bitmaps have room. -/
structure Pools.Fit (p : Pools) (allMem : ℕ) : Prop where
  disjoint : ∀ addr, p.kernelPool.Covers addr → ¬ p.userPool.Covers addr
  inside : ∀ addr, p.kernelPool.Covers addr ∨ p.userPool.Covers addr → 0x200000 ≤ addr ∧ addr + 4096 ≤ allMem
  few : (p.leftOut allMem).card < 17
  bitmaps : p.kernelPool.poolBitmap.Inside ∧ p.userPool.poolBitmap.Inside ∧ p.kernelVaddr.Inside
  apart : p.kernelPool.poolBitmap.Apart p.userPool.poolBitmap ∧ p.kernelPool.poolBitmap.Apart p.kernelVaddr ∧
    p.userPool.poolBitmap.Apart p.kernelVaddr

section

variable {allMem n : ℕ}

/-- The pages `mem_pool_init` counts. -/
def countedPages (allMem : ℕ) : ℕ := (allMem - 0x200000) / 4096 % 2 ^ 16

theorem freePages_eq (h : 0x400000 ≤ allMem) (h' : allMem ≤ 0x20000000) :
    u32 (allMem + 2 ^ 32 - (4096 * 256 + 0x100000)) / 4096 % 2 ^ 16 = countedPages allMem := by
  unfold u32 countedPages
  omega

theorem kernelPool_covers (h : 0x400000 ≤ allMem) (h' : allMem ≤ 0x20000000) :
    (memPoolInit allMem).kernelPool.Covers (0x200000 + 4096 * n) ↔ n < 8 * (countedPages allMem / 2 / 8) := by
  unfold PoolPlace.Covers memPoolInit
  simp only [freePages_eq h h']
  constructor
  · rintro ⟨i, hi, he⟩
    omega
  · intro hn
    exact ⟨n, hn, by omega⟩

theorem userPool_covers (h : 0x400000 ≤ allMem) (h' : allMem ≤ 0x20000000) :
    (memPoolInit allMem).userPool.Covers (0x200000 + 4096 * n) ↔
      countedPages allMem / 2 ≤ n ∧ n < countedPages allMem / 2 + 8 * ((countedPages allMem - countedPages allMem / 2) / 8) := by
  unfold PoolPlace.Covers memPoolInit
  simp only [freePages_eq h h']
  constructor
  · rintro ⟨i, hi, he⟩
    omega
  · rintro ⟨hle, hlt⟩
    exact ⟨n - countedPages allMem / 2, by omega, by omega⟩

theorem covers_frame {p : PoolPlace} {addr : ℕ} (h : p.Covers addr) (hstart : ∃ k, p.phyAddrStart = 0x200000 + 4096 * k) :
    ∃ n, addr = 0x200000 + 4096 * n := by
  obtain ⟨i, -, rfl⟩ := h
  obtain ⟨k, hk⟩ := hstart
  exact ⟨k + i, by omega⟩

theorem memPoolInit_frame {addr : ℕ} (h : (memPoolInit allMem).kernelPool.Covers addr ∨ (memPoolInit allMem).userPool.Covers addr) :
    ∃ n, addr = 0x200000 + 4096 * n := by
  rcases h with h | h
  · exact covers_frame h ⟨0, rfl⟩
  · refine covers_frame h ⟨u32 (allMem + 2 ^ 32 - (4096 * 256 + 0x100000)) / 4096 % 2 ^ 16 / 2, ?_⟩
    simp only [memPoolInit]
    omega

theorem leftOut_few (h : 0x400000 ≤ allMem) (h' : allMem ≤ 0x20000000) (hcount : countedPages allMem = (allMem - 0x200000) / 4096) :
    ((memPoolInit allMem).leftOut allMem).card < 17 := by
  have hsub : (memPoolInit allMem).leftOut allMem ⊆
      Finset.Ico (8 * (countedPages allMem / 2 / 8)) (countedPages allMem / 2) ∪
        Finset.Ico (countedPages allMem / 2 + 8 * ((countedPages allMem - countedPages allMem / 2) / 8)) (countedPages allMem) := by
    intro n hn
    rw [Pools.mem_leftOut, kernelPool_covers h h', userPool_covers h h'] at hn
    rw [Finset.mem_union, Finset.mem_Ico, Finset.mem_Ico]
    omega
  have hcard := (Finset.card_le_card hsub).trans (Finset.card_union_le _ _)
  rw [Nat.card_Ico, Nat.card_Ico] at hcard
  omega

theorem leftOut_many (h : 0x400000 ≤ allMem) (h' : allMem ≤ 0x20000000) (hcount : 0x10200000 ≤ allMem) :
    65536 ≤ ((memPoolInit allMem).leftOut allMem).card := by
  have hsub : Finset.Ico (countedPages allMem) ((allMem - 0x200000) / 4096) ⊆ (memPoolInit allMem).leftOut allMem := by
    intro n hn
    rw [Finset.mem_Ico] at hn
    rw [Pools.mem_leftOut, kernelPool_covers h h', userPool_covers h h']
    omega
  have hcard := Finset.card_le_card hsub
  rw [Nat.card_Ico] at hcard
  unfold countedPages at hcard
  omega

theorem memPoolInit_bitmaps (h : 0x400000 ≤ allMem) (h' : allMem ≤ 0x20000000) :
    let p := memPoolInit allMem
    p.kernelPool.poolBitmap.Inside ∧ p.userPool.poolBitmap.Inside ∧ p.kernelVaddr.Inside := by
  have hlt : countedPages allMem < 2 ^ 16 := Nat.mod_lt _ (by decide)
  unfold memPoolInit BitmapPlace.Inside memBitmapBase
  simp only [freePages_eq h h']
  omega

theorem memPoolInit_apart (allMem : ℕ) :
    let p := memPoolInit allMem
    p.kernelPool.poolBitmap.Apart p.userPool.poolBitmap ∧ p.kernelPool.poolBitmap.Apart p.kernelVaddr ∧
      p.userPool.poolBitmap.Apart p.kernelVaddr := by
  unfold memPoolInit BitmapPlace.Apart
  simp only
  omega

/-- The pools cover the memory exactly when its pages can be counted in 16 bits. -/
theorem memPoolInit_fit (allMem : ℕ) (h : 0x400000 ≤ allMem) (h' : allMem ≤ 0x20000000) :
    (memPoolInit allMem).Fit allMem ↔ allMem < 0x10200000 := by
  constructor
  · intro hfit
    by_contra hge
    have hmany := leftOut_many h h' (by omega)
    have hfew := hfit.few
    omega
  · intro hlt
    have hcount : countedPages allMem = (allMem - 0x200000) / 4096 := by
      unfold countedPages
      omega
    refine ⟨?_, ?_, leftOut_few h h' hcount, memPoolInit_bitmaps h h', memPoolInit_apart allMem⟩
    · intro addr hk hu
      obtain ⟨n, rfl⟩ := memPoolInit_frame (.inl hk)
      rw [kernelPool_covers h h'] at hk
      rw [userPool_covers h h'] at hu
      omega
    · intro addr hcov
      obtain ⟨n, rfl⟩ := memPoolInit_frame hcov
      rw [kernelPool_covers h h', userPool_covers h h'] at hcov
      omega

theorem memPoolInit_fit_32 : (memPoolInit 0x2000000).Fit 0x2000000 :=
  (memPoolInit_fit 0x2000000 (by decide) (by decide)).mpr (by decide)

/-- With 512 MB the count is that of 254 MB. -/
theorem memPoolInit_512 : ¬ ∀ allMem, 0x400000 ≤ allMem → allMem ≤ 0x20000000 → (memPoolInit allMem).Fit allMem := by
  intro hall
  have hfew := (hall 0x20000000 (by decide) (by decide)).few
  have hmany := @leftOut_many 0x20000000 (by decide) (by decide) (by decide)
  omega

end

end ElephantOS.Paging
