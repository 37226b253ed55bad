import ElephantOS.FileContents

namespace ElephantOS

open ByteMemory HaltingState

section

variable (alloc : KernM (Option ℕ)) (K : Kernel)

def firstBlockBy (inode : Inode) : KernM (Bool × Inode) := do
  if inode.iSectors 0 = 0 then
    let some blockLba ← alloc | return (false, inode)
    let blockBitmapIdx := blockLba - K.sb.dataStartLba
    assert (blockBitmapIdx ≠ 0)
    bitmapSync K blockBitmapIdx .blockBitmap
    return (true, inode.setSector 0 blockLba)
  else return (true, inode)

def growLoopBy (direct : ℕ → Bool) : ℕ → ℕ → Inode → (ℕ → ℕ) → KernM (Bool × Inode × (ℕ → ℕ))
  | 0, _, inode, allBlocks => return (true, inode, allBlocks)
  | more + 1, blockIdx, inode, allBlocks => do
    let some blockLba ← alloc | return (false, inode, allBlocks)
    assert (direct blockIdx = true → inode.iSectors blockIdx = 0)
    let inode := if direct blockIdx then inode.setSector blockIdx blockLba else inode
    bitmapSync K (blockLba - K.sb.dataStartLba) .blockBitmap
    growLoopBy direct more (blockIdx + 1) inode (Function.update allBlocks blockIdx blockLba)

def collectBlocksBy (has will : ℕ) (inode : Inode) : KernM (Bool × Inode × (ℕ → ℕ)) := do
  let last := Function.update (fun _ => 0) (has - 1) (inode.iSectors (has - 1))
  if will = has then
    if has ≤ 12 then return (true, inode, last)
    else
      assert (inode.iSectors 12 ≠ 0)
      let allBlocks ← readTable (inode.iSectors 12) (fun _ => 0)
      return (true, inode, allBlocks)
  else if will ≤ 12 then
    bound (has - 1 < 13)
    assert (inode.iSectors (has - 1) ≠ 0)
    growLoopBy alloc K (fun _ => true) (will - has) has inode last
  else if has ≤ 12 then
    let some indirectBlockTable ← alloc | return (false, inode, last)
    assert (inode.iSectors 12 = 0)
    let inode := inode.setSector 12 indirectBlockTable
    let (ok, inode, allBlocks) ← growLoopBy alloc K (fun i => decide (i < 12)) (will - has) has inode last
    if ok then
      writeTable indirectBlockTable allBlocks
      return (true, inode, allBlocks)
    else return (false, inode, allBlocks)
  else
    assert (inode.iSectors 12 ≠ 0)
    let allBlocks ← readTable (inode.iSectors 12) (fun _ => 0)
    let (ok, inode, allBlocks) ← growLoopBy alloc K (fun _ => false) (will - has) has inode allBlocks
    if ok then
      writeTable (inode.iSectors 12) allBlocks
      return (true, inode, allBlocks)
    else return (false, inode, allBlocks)

/-- `file_write`, with `alloc` in the place of `block_bitmap_alloc`. -/
def fileWriteBy (file : File) (inode : Inode) (buf : Memory) (count : ℕ) : KernM (ℤ × File × Inode) := do
  if u32 (inode.iSize + count) > 512 * 140 then return (-1, file, inode)
  let some ioBuf ← sysMalloc 512 | return (-1, file, inode)
  let some allBlocks ← sysMalloc (512 + 48) | return (-1, file, inode)
  let (ok, inode) ← firstBlockBy alloc K inode
  if !ok then return (-1, file, inode)
  let fileHasUsedBlocks := inode.iSize / 512 + 1
  let fileWillUseBlocks := u32 (inode.iSize + count) / 512 + 1
  assert (fileWillUseBlocks ≤ 140)
  let (ok, inode, blocks) ← collectBlocksBy alloc K fileHasUsedBlocks fileWillUseBlocks inode
  if !ok then return (-1, file, inode)
  let file := { file with fdPos := u32 (inode.iSize + 2 ^ 32 - 1) }
  let (bytesWritten, ioBuf, file, inode) ← writeLoop blocks buf count count 0 true ioBuf file inode
  inodeSync K inode ioBuf
  sysFree allBlocks.ptr
  sysFree ioBuf.ptr
  return (int32 bytesWritten, file, inode)

end

theorem growLoopBy_eq (K : Kernel) (direct : ℕ → Bool) : growLoopBy (blockBitmapAlloc K) K direct = growLoop K direct := by
  funext more
  induction more with
  | zero => rfl
  | succ more ih =>
    funext blockIdx inode allBlocks
    rw [growLoopBy, ih]
    rfl

theorem collectBlocksBy_eq (K : Kernel) : collectBlocksBy (blockBitmapAlloc K) K = collectBlocks K := by
  funext has will inode
  simp only [collectBlocksBy, growLoopBy_eq]
  rfl

theorem fileWriteBy_eq (K : Kernel) : fileWriteBy (blockBitmapAlloc K) K = fileWrite K := by
  have hfirst : firstBlockBy (blockBitmapAlloc K) K = firstBlock K := rfl
  funext file inode buf count
  rw [fileWriteBy, hfirst, collectBlocksBy_eq]
  rfl

structure Allocator (alloc : KernM (Option ℕ)) : Prop where
  fails : ∀ k k', alloc k = .ok (none, k') → k' = k
  takes : ∀ k k' lba, alloc k = .ok (some lba, k') → ∃ b, k' = { k with blockBitmap := b }

/-- `block_bitmap_alloc` as it is documented: it fails when no block is free. -/
def blockAllocOrFail (K : Kernel) : KernM (Option ℕ) := fun k =>
  match k.blockBitmap.scan 1 with
  | .ok (some i) => .ok (some (K.sb.dataStartLba + i), { k with blockBitmap := k.blockBitmap.set i true })
  | _ => .ok (none, k)

theorem blockAllocOrFail_allocator (K : Kernel) : Allocator (blockAllocOrFail K) where
  fails := by
    intro k k' h
    unfold blockAllocOrFail at h
    split at h
    · simp at h
    · simpa [eq_comm] using h
  takes := by
    intro k k' lba h
    unfold blockAllocOrFail at h
    split at h
    · simp only [Except.ok.injEq, Prod.mk.injEq] at h
      exact ⟨_, h.2.symm⟩
    · simp at h

theorem blockBitmapAlloc_allocator (K : Kernel) : Allocator (blockBitmapAlloc K) where
  fails := by
    intro k k' h
    obtain ⟨i, -, -, -, hr, -⟩ := blockBitmapAlloc_ok h
    cases hr
  takes := by
    intro k k' lba h
    obtain ⟨i, -, -, -, -, hk⟩ := blockBitmapAlloc_ok h
    exact ⟨_, hk⟩

section

variable (K : Kernel)

theorem blockBitmapAlloc_extends : Extends (blockBitmapAlloc K) (blockAllocOrFail K) := by
  intro k r h
  unfold blockBitmapAlloc at h
  unfold blockAllocOrFail
  split at h
  · cases h
  · next hscan =>
    rw [hscan]
    exact h
  · next i hscan =>
    rw [hscan]
    exact h

theorem firstBlock_extends (inode : Inode) : Extends (firstBlock K inode) (firstBlockBy (blockAllocOrFail K) K inode) := by
  unfold firstBlock firstBlockBy
  split_ifs
  · apply (blockBitmapAlloc_extends K).bind
    intro r
    exact Extends.refl _
  · exact Extends.refl _

theorem growLoop_extends (direct : ℕ → Bool) (more idx : ℕ) (inode : Inode) (all : ℕ → ℕ) :
    Extends (growLoop K direct more idx inode all) (growLoopBy (blockAllocOrFail K) K direct more idx inode all) := by
  induction more generalizing idx inode all with
  | zero => exact Extends.refl _
  | succ more ih =>
    unfold growLoop growLoopBy
    apply (blockBitmapAlloc_extends K).bind
    intro r
    cases r with
    | none => exact Extends.refl _
    | some lba =>
      apply (Extends.refl _).bind
      intro _
      apply (Extends.refl _).bind
      intro _
      exact ih _ _ _

theorem collectBlocks_extends (has will : ℕ) (inode : Inode) :
    Extends (collectBlocks K has will inode) (collectBlocksBy (blockAllocOrFail K) K has will inode) := by
  unfold collectBlocks collectBlocksBy
  split_ifs
  · exact Extends.refl _
  · exact Extends.refl _
  · apply (Extends.refl _).bind
    intro _
    apply (Extends.refl _).bind
    intro _
    exact growLoop_extends K _ _ _ _ _
  · apply (blockBitmapAlloc_extends K).bind
    intro r
    cases r with
    | none => exact Extends.refl _
    | some lba =>
      apply (Extends.refl _).bind
      intro _
      apply (growLoop_extends K _ _ _ _ _).bind
      intro _
      exact Extends.refl _
  · apply (Extends.refl _).bind
    intro _
    apply (Extends.refl _).bind
    intro all
    apply (growLoop_extends K _ _ _ _ _).bind
    intro _
    exact Extends.refl _

theorem fileWrite_extends (file : File) (inode : Inode) (buf : Memory) (count : ℕ) :
    Extends (fileWrite K file inode buf count) (fileWriteBy (blockAllocOrFail K) K file inode buf count) := by
  unfold fileWrite fileWriteBy
  split_ifs
  · exact Extends.refl _
  apply (Extends.refl _).bind
  intro io
  cases io with
  | none => exact Extends.refl _
  | some io =>
    apply (Extends.refl _).bind
    intro all
    cases all with
    | none => exact Extends.refl _
    | some all =>
      apply (firstBlock_extends K inode).bind
      rintro ⟨ok, inode⟩
      dsimp only
      split_ifs
      · exact Extends.refl _
      apply (Extends.refl _).bind
      intro _
      apply (collectBlocks_extends K _ _ _).bind
      intro _
      exact Extends.refl _

end

section

variable {alloc : KernM (Option ℕ)} {K : Kernel} {k k' : Kern} {inode inode' : Inode}

theorem Allocator.heap (ha : Allocator alloc) {r : Option ℕ} (h : alloc k = .ok (r, k')) : k'.heap = k.heap := by
  cases r with
  | none => rw [ha.fails k k' h]
  | some lba =>
    obtain ⟨b, rfl⟩ := ha.takes k k' lba h
    rfl

theorem bitmapSync_heap {i : ℕ} {u : Unit} (h : bitmapSync K i .blockBitmap k = .ok (u, k')) : k'.heap = k.heap := by
  obtain ⟨-, rfl⟩ := (bitmapSync_block K i u k k').mp h
  rfl

theorem writeTable_heap {lba : ℕ} {all : ℕ → ℕ} {u : Unit} (h : writeTable lba all k = .ok (u, k')) : k'.heap = k.heap := by
  obtain ⟨-, rfl⟩ := (ideWrite_ok _ _ _ _ _ _).mp h
  rfl

def MayFail (alloc : KernM (Option ℕ)) : Prop := ∃ k k', alloc k = .ok (none, k')

theorem firstBlockBy_heap (ha : Allocator alloc) {ok : Bool} (h : firstBlockBy alloc K inode k = .ok ((ok, inode'), k')) :
    k'.heap = k.heap ∧ (ok = false → MayFail alloc) := by
  unfold firstBlockBy at h
  split_ifs at h
  · rw [bind_ok] at h
    obtain ⟨r, k1, h1, h⟩ := h
    cases r with
    | none =>
      simp only [pure_ok] at h
      rw [← h.2]
      exact ⟨ha.heap h1, fun _ => ⟨k, k1, h1⟩⟩
    | some lba =>
      simp only [bind_ok, assert_ok, pure_ok, Prod.mk.injEq] at h
      obtain ⟨_, _, ⟨-, rfl⟩, _, k2, h2, ⟨rfl, -⟩, rfl⟩ := h
      rw [bitmapSync_heap h2]
      exact ⟨ha.heap h1, fun hf => absurd hf.symm Bool.false_ne_true⟩
  · simp only [pure_ok, Prod.mk.injEq] at h
    obtain ⟨⟨rfl, -⟩, rfl⟩ := h
    exact ⟨rfl, fun hf => absurd hf.symm Bool.false_ne_true⟩

theorem growLoopBy_heap (ha : Allocator alloc) {direct : ℕ → Bool} {more idx : ℕ} {all all' : ℕ → ℕ} {ok : Bool}
    (h : growLoopBy alloc K direct more idx inode all k = .ok ((ok, inode', all'), k')) :
    k'.heap = k.heap ∧ (ok = false → MayFail alloc) := by
  induction more generalizing idx inode all k with
  | zero =>
    simp only [growLoopBy, pure_ok, Prod.mk.injEq] at h
    obtain ⟨⟨rfl, -⟩, rfl⟩ := h
    exact ⟨rfl, fun hf => absurd hf.symm Bool.false_ne_true⟩
  | succ more ih =>
    unfold growLoopBy at h
    rw [bind_ok] at h
    obtain ⟨r, k1, h1, h⟩ := h
    cases r with
    | none =>
      simp only [pure_ok] at h
      rw [← h.2]
      exact ⟨ha.heap h1, fun _ => ⟨k, k1, h1⟩⟩
    | some lba =>
      simp only [bind_ok, assert_ok] at h
      obtain ⟨_, _, ⟨-, rfl⟩, _, k2, h2, h⟩ := h
      obtain ⟨hheap, hfail⟩ := ih h
      rw [hheap, bitmapSync_heap h2]
      exact ⟨ha.heap h1, hfail⟩

theorem storeTable_heap {ok ok' : Bool} {lba : ℕ} {all all' : ℕ → ℕ}
    (h : (if ok = true then do
        writeTable lba all
        return (true, inode, all)
      else return (false, inode, all) : KernM (Bool × Inode × (ℕ → ℕ))) k = .ok ((ok', inode', all'), k')) :
    k'.heap = k.heap ∧ ok' = ok := by
  cases ok with
  | true =>
    simp only [if_true, bind_ok, pure_ok, Prod.mk.injEq] at h
    obtain ⟨_, k1, h1, ⟨rfl, -⟩, rfl⟩ := h
    exact ⟨writeTable_heap h1, rfl⟩
  | false =>
    simp only [Bool.false_eq_true, if_false, pure_ok, Prod.mk.injEq] at h
    obtain ⟨⟨rfl, -⟩, rfl⟩ := h
    exact ⟨rfl, rfl⟩

theorem collectBlocksBy_heap (ha : Allocator alloc) {has will : ℕ} {all : ℕ → ℕ} {ok : Bool}
    (h : collectBlocksBy alloc K has will inode k = .ok ((ok, inode', all), k')) :
    k'.heap = k.heap ∧ (ok = false → MayFail alloc) := by
  unfold collectBlocksBy at h
  split_ifs at h
  · simp only [pure_ok, Prod.mk.injEq] at h
    obtain ⟨⟨rfl, -⟩, rfl⟩ := h
    exact ⟨rfl, fun hf => absurd hf.symm Bool.false_ne_true⟩
  · simp only [bind_ok, assert_ok, readTable_ok, pure_ok, Prod.mk.injEq] at h
    obtain ⟨_, _, ⟨-, rfl⟩, _, _, ⟨-, rfl, -⟩, ⟨rfl, -⟩, rfl⟩ := h
    exact ⟨rfl, fun hf => absurd hf.symm Bool.false_ne_true⟩
  · simp only [bind_ok, assert_ok, bound_ok] at h
    obtain ⟨_, _, ⟨-, rfl⟩, _, _, ⟨-, rfl⟩, h⟩ := h
    exact growLoopBy_heap ha h
  · rw [bind_ok] at h
    obtain ⟨r, k1, h1, h⟩ := h
    cases r with
    | none =>
      simp only [pure_ok] at h
      rw [← h.2]
      exact ⟨ha.heap h1, fun _ => ⟨k, k1, h1⟩⟩
    | some lba =>
      simp only [bind_ok, assert_ok] at h
      obtain ⟨_, _, ⟨-, rfl⟩, ⟨ok2, inode2, all2⟩, k2, h2, h⟩ := h
      obtain ⟨hheap, hfail⟩ := growLoopBy_heap ha h2
      obtain ⟨hheap', rfl⟩ := storeTable_heap h
      rw [hheap', hheap]
      exact ⟨ha.heap h1, hfail⟩
  · simp only [bind_ok, assert_ok, readTable_ok] at h
    obtain ⟨_, _, ⟨-, rfl⟩, _, _, ⟨-, rfl, -⟩, ⟨ok2, inode2, all2⟩, k2, h2, h⟩ := h
    obtain ⟨hheap, hfail⟩ := growLoopBy_heap ha h2
    obtain ⟨hheap', rfl⟩ := storeTable_heap h
    rw [hheap']
    exact ⟨hheap, hfail⟩

theorem writeLoop_short {blocks : ℕ → ℕ} {buf : Memory} {count fuel bw bw' : ℕ} {first : Bool} {io io' : Buffer} {file file' : File}
    (h : writeLoop blocks buf count fuel bw first io file inode k = .ok ((bw', io', file', inode'), k')) :
    bw' ≤ bw + (140 * 512 - inode.iSize) := by
  induction fuel generalizing bw first io file inode k with
  | zero =>
    simp only [writeLoop, pure_ok, Prod.mk.injEq] at h
    omega
  | succ fuel ih =>
    unfold writeLoop at h
    split_ifs at h
    · simp only [bind_ok, bound_ok] at h
      obtain ⟨_, _, ⟨hidx, -⟩, _, _, -, _, _, -, h⟩ := h
      have hmod : inode.iSize % 512 < 512 := Nat.mod_lt _ (by omega)
      have hrest := ih h
      dsimp only at hrest
      have hu : u32 (inode.iSize + min (count - bw) (512 - inode.iSize % 512)) =
          inode.iSize + min (count - bw) (512 - inode.iSize % 512) := Nat.mod_eq_of_lt (by omega)
      rw [hu] at hrest
      omega
    · simp only [pure_ok, Prod.mk.injEq] at h
      omega

theorem sysMalloc_cases {size : ℕ} {r : Option Buffer} (h : sysMalloc size k = .ok (r, k')) :
    (k.heap.grant k.heap.next = false ∧ r = none ∧ k' = { k with heap := { k.heap with next := k.heap.next + 1 } }) ∨
      (k.heap.grant k.heap.next = true ∧ r ≠ none ∧ k'.heap.live.length = k.heap.live.length + 1) := by
  unfold sysMalloc at h
  cases hg : k.heap.grant k.heap.next with
  | false =>
    simp only [hg, Bool.false_eq_true, if_false, Except.ok.injEq, Prod.mk.injEq] at h
    exact .inl ⟨rfl, h.1.symm, h.2.symm⟩
  | true =>
    simp only [hg, if_true, Except.ok.injEq, Prod.mk.injEq] at h
    obtain ⟨rfl, rfl⟩ := h
    exact .inr ⟨rfl, by simp, by simp⟩

theorem sysMalloc_keeps {size : ℕ} {r : Option Buffer} (h : sysMalloc size k = .ok (r, k')) :
    k.heap.live.length ≤ k'.heap.live.length := by
  rcases sysMalloc_cases h with ⟨-, -, rfl⟩ | ⟨-, -, hlen⟩
  · rfl
  · omega

theorem writeLoop_count {blocks : ℕ → ℕ} {buf : Memory} {count fuel bw bw' : ℕ} {first : Bool} {io io' : Buffer} {file file' : File}
    (hfuel : count ≤ bw + fuel) (hbw : bw ≤ count)
    (h : writeLoop blocks buf count fuel bw first io file inode k = .ok ((bw', io', file', inode'), k')) : bw' = count := by
  induction fuel generalizing bw first io file inode k with
  | zero =>
    simp only [writeLoop, pure_ok, Prod.mk.injEq] at h
    omega
  | succ fuel ih =>
    unfold writeLoop at h
    split_ifs at h
    · simp only [bind_ok, bound_ok] at h
      obtain ⟨_, _, -, _, _, -, _, _, -, h⟩ := h
      have hmod : inode.iSize % 512 < 512 := Nat.mod_lt _ (by omega)
      exact ih (by omega) (by omega) h
    · simp only [pure_ok, Prod.mk.injEq] at h
      omega

theorem fileWriteBy_cases (ha : Allocator alloc) {file file' : File} {buf : Memory} {count : ℕ} {ret : ℤ}
    (h : fileWriteBy alloc K file inode buf count k = .ok ((ret, file', inode'), k')) :
    (512 * 140 < u32 (inode.iSize + count) ∧ k' = k ∧ file' = file ∧ inode' = inode) ∨
      (k.heap.grant k.heap.next = false ∧ k' = { k with heap := { k.heap with next := k.heap.next + 1 } } ∧ file' = file ∧
        inode' = inode) ∨
      (u32 (inode.iSize + count) ≤ 512 * 140 ∧ k.heap.grant k.heap.next = true ∧ k.heap.live.length < k'.heap.live.length ∧
        (¬ k.Plenty ∨ MayFail alloc)) ∨
      (ret = int32 count ∧ count ≤ 140 * 512) := by
  unfold fileWriteBy at h
  split_ifs at h with hsize
  · simp only [pure_ok, Prod.mk.injEq] at h
    exact .inl ⟨hsize, h.2.symm, h.1.2.1.symm, h.1.2.2.symm⟩
  rw [bind_ok] at h
  obtain ⟨io, k1, h1, h⟩ := h
  rcases sysMalloc_cases h1 with ⟨hg, rfl, rfl⟩ | ⟨hg, hio, hlen⟩
  · simp only [pure_ok, Prod.mk.injEq] at h
    exact .inr (.inl ⟨hg, h.2.symm, h.1.2.1.symm, h.1.2.2.symm⟩)
  obtain ⟨io, rfl⟩ := Option.ne_none_iff_exists'.mp hio
  rw [bind_ok] at h
  obtain ⟨all, k2, h2, h⟩ := h
  have hlen2 := sysMalloc_keeps h2
  cases all with
  | none =>
    simp only [pure_ok] at h
    rw [← h.2]
    refine .inr (.inr (.inl ⟨Nat.not_lt.mp hsize, hg, by omega, .inl fun hp => ?_⟩))
    obtain ⟨_, _, h2', hsome, -⟩ := sysMalloc_runs (512 + 48) ((sysMalloc_ok h1).1.plenty hp)
    obtain ⟨rfl, -⟩ := ok_inj h2 h2'
    cases hsome
  | some all =>
    simp only [bind_ok] at h
    obtain ⟨⟨ok1, inode1⟩, k3, h3, h⟩ := h
    obtain ⟨hheap3, hfail3⟩ := firstBlockBy_heap ha h3
    cases ok1 with
    | false =>
      simp only [Bool.not_false, if_true, pure_ok] at h
      rw [← h.2, hheap3]
      exact .inr (.inr (.inl ⟨Nat.not_lt.mp hsize, hg, by omega, .inr (hfail3 rfl)⟩))
    | true =>
      simp only [Bool.not_true, Bool.false_eq_true, if_false, bind_ok, assert_ok] at h
      obtain ⟨_, _, ⟨-, rfl⟩, ⟨ok2, inode2, blocks⟩, k4, h4, h⟩ := h
      obtain ⟨hheap4, hfail4⟩ := collectBlocksBy_heap ha h4
      cases ok2 with
      | false =>
        simp only [Bool.not_false, if_true, pure_ok] at h
        rw [← h.2, hheap4, hheap3]
        exact .inr (.inr (.inl ⟨Nat.not_lt.mp hsize, hg, by omega, .inr (hfail4 rfl)⟩))
      | true =>
        simp only [Bool.not_true, Bool.false_eq_true, if_false, bind_ok, pure_ok, Prod.mk.injEq] at h
        obtain ⟨⟨bw, io', file2, inode3⟩, k5, h5, _, k6, h6, _, k7, h7, _, k8, h8, ⟨rfl, -, -⟩, -⟩ := h
        have hshort := writeLoop_short h5
        obtain rfl := writeLoop_count (by omega) (by omega) h5
        exact .inr (.inr (.inr ⟨rfl, by omega⟩))

theorem fileWriteBy_fails (ha : Allocator alloc) {file file' : File} {buf : Memory} {count : ℕ}
    (h : fileWriteBy alloc K file inode buf count k = .ok ((-1, file', inode'), k')) :
    (512 * 140 < u32 (inode.iSize + count) ∧ k' = k ∧ file' = file ∧ inode' = inode) ∨
      (k.heap.grant k.heap.next = false ∧ k' = { k with heap := { k.heap with next := k.heap.next + 1 } } ∧ file' = file ∧
        inode' = inode) ∨
      (u32 (inode.iSize + count) ≤ 512 * 140 ∧ k.heap.grant k.heap.next = true ∧ k.heap.live.length < k'.heap.live.length) := by
  rcases fileWriteBy_cases ha h with hsize | hbuf | ⟨hsize, hg, hlen, -⟩ | ⟨hret, hcount⟩
  · exact .inl hsize
  · exact .inr (.inl hbuf)
  · exact .inr (.inr ⟨hsize, hg, hlen⟩)
  · have hint : int32 count = (count : ℤ) := if_pos (by omega)
    omega

/-- What a failed write should leave: the bitmap, the file, its indirect table and the heap as they were, so that a later write that
has the blocks it needs succeeds. -/
structure LeavesFile (K : Kernel) (k : Kern) (inode : Inode) (k' : Kern) (file' : File) (inode' : Inode) : Prop where
  blockBitmap : k'.blockBitmap = k.blockBitmap
  iSize : inode'.iSize = inode.iSize
  iSectors : inode'.iSectors = inode.iSectors
  table : SameOn k.disk k'.disk (inode.iSectors 12 * 512) 512
  heap : k'.heap.live = k.heap.live
  later : WriteReady K k inode → ∀ buf count, inode.iSize + count < 140 * 512 →
    blocksNeeded (usedBlocks inode) ((inode.iSize + count) / 512 + 1) ≤ (freeBits K.toPartition k.blockBitmap).card →
    Runs (fileWriteBy (blockAllocOrFail K) K file' inode' buf count) k' fun r _ => r.1 = int32 count

theorem WriteReady.later_write (h : WriteReady K k inode) (file : File) (buf : Memory) {count : ℕ} (hc : inode.iSize + count < 140 * 512)
    (hfree : blocksNeeded (usedBlocks inode) ((inode.iSize + count) / 512 + 1) ≤ (freeBits K.toPartition k.blockBitmap).card) :
    Runs (fileWriteBy (blockAllocOrFail K) K file inode buf count) k fun r _ => r.1 = int32 count := by
  obtain ⟨r, k1, hrun, hret, -⟩ := fileWrite_runs h file buf hc hfree
  exact ⟨r, k1, fileWrite_extends K file inode buf count k _ hrun, hret⟩

end

/-- A write that fails leaves everything as it was exactly if it fails at the size check or for want of its first buffer. -/
theorem failed_write_leaves (K : Kernel) (k k' : Kern) (file file' : File) (inode inode' : Inode) (buf : Memory) (count : ℕ)
    (h : fileWriteBy (blockAllocOrFail K) K file inode buf count k = .ok ((-1, file', inode'), k')) :
    LeavesFile K k inode k' file' inode' ↔ 512 * 140 < u32 (inode.iSize + count) ∨ k.heap.grant k.heap.next = false := by
  rcases fileWriteBy_fails (blockAllocOrFail_allocator K) h with ⟨hsize, rfl, rfl, rfl⟩ | ⟨hg, rfl, rfl, rfl⟩ | ⟨hsize, hg, hlen⟩
  · refine iff_of_true ⟨rfl, rfl, rfl, SameOn.refl _ _ _, rfl, ?_⟩ (.inl hsize)
    intro hready buf' count' hc hfree
    exact hready.later_write file' buf' hc hfree
  · refine iff_of_true ⟨rfl, rfl, rfl, SameOn.refl _ _ _, rfl, ?_⟩ (.inr hg)
    intro hready
    rw [hready.plenty] at hg
    cases hg
  · constructor
    · intro hleaves
      rw [hleaves.heap] at hlen
      omega
    · rintro (hlarge | hg')
      · omega
      · rw [hg] at hg'
        cases hg'

theorem failed_write_leaves_large : ∃ file' inode' k', fileWriteBy (blockAllocOrFail (formattedPartition 63 4709).kernel)
      (formattedPartition 63 4709).kernel ⟨0, 2, none⟩ (inodeInit 1 Inode.zero) zeros 71681 Kern.mounted = .ok ((-1, file', inode'), k') ∧
    LeavesFile (formattedPartition 63 4709).kernel Kern.mounted (inodeInit 1 Inode.zero) k' file' inode' := by
  have hlarge : 512 * 140 < u32 ((inodeInit 1 Inode.zero).iSize + 71681) := by decide
  have hrun : fileWriteBy (blockAllocOrFail (formattedPartition 63 4709).kernel) (formattedPartition 63 4709).kernel ⟨0, 2, none⟩
      (inodeInit 1 Inode.zero) zeros 71681 Kern.mounted = .ok ((-1, ⟨0, 2, none⟩, inodeInit 1 Inode.zero), Kern.mounted) := by
    unfold fileWriteBy
    rw [if_pos hlarge]
    rfl
  exact ⟨_, _, _, hrun, (failed_write_leaves _ _ _ _ _ _ _ _ _ hrun).mpr (.inl hlarge)⟩

/-- A mounted partition with one free block. -/
def Kern.nearlyFull : Kern := { Kern.blank with blockBitmap := ⟨512, fun i => if i = 0 then 253 else 255⟩ }

/-- A write of two blocks that finds only one: the file keeps the block and the heap both buffers. -/
theorem failed_write_keeps_block : ∃ file' inode' k', fileWriteBy (blockAllocOrFail (formattedPartition 63 4709).kernel)
      (formattedPartition 63 4709).kernel ⟨0, 2, none⟩ (inodeInit 1 Inode.zero) zeros 600 Kern.nearlyFull = .ok ((-1, file', inode'), k') ∧
    inode'.iSectors 0 ≠ 0 ∧ k'.blockBitmap.scanTest 1 = true ∧ Kern.nearlyFull.blockBitmap.scanTest 1 = false ∧
    ¬ LeavesFile (formattedPartition 63 4709).kernel Kern.nearlyFull (inodeInit 1 Inode.zero) k' file' inode' := by
  obtain ⟨⟨r, file', inode'⟩, k', hrun, hres⟩ := runs_of_runsTo (show runsTo (fileWriteBy (blockAllocOrFail (formattedPartition 63 4709).kernel)
    (formattedPartition 63 4709).kernel ⟨0, 2, none⟩ (inodeInit 1 Inode.zero) zeros 600) Kern.nearlyFull
    (fun r k' => decide (r.1 = -1 ∧ r.2.2.iSectors 0 ≠ 0 ∧ k'.blockBitmap.scanTest 1 = true)) = true by decide +kernel)
  obtain ⟨rfl, hsector, hbit⟩ := of_decide_eq_true hres
  refine ⟨file', inode', k', hrun, hsector, hbit, by decide, ?_⟩
  intro hleaves
  have hbitmap := congrArg (fun b => b.scanTest 1) hleaves.blockBitmap
  rw [hbit] at hbitmap
  exact absurd hbitmap (by decide)

end ElephantOS
