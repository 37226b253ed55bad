import ElephantOS.FileFailure

namespace ElephantOS

open ByteMemory HaltingState

def Unchanged (k k' : Kern) : Prop := k' = { k with heap := { k.heap with next := k'.heap.next } }

/-- A write past the largest size is refused without any effect. -/
def RefusesLarge (K : Kernel) (k : Kern) (file : File) (inode : Inode) (count : ℕ) : Prop := 512 * 140 < inode.iSize + count →
  ∀ buf, ∃ k', fileWrite K file inode buf count k = .ok ((-1, file, inode), k') ∧ Unchanged k k'

def readSize (file : File) (inode : Inode) (count : ℕ) : ℕ :=
  if u32 (file.fdPos + count) > inode.iSize then u32 (inode.iSize + 2 ^ 32 - file.fdPos) else count

def readSetup (file : File) (inode : Inode) (size : ℕ) : KernM (Option (Option Buffer × Buffer × (ℕ → ℕ))) := do
  let ioBuf ← sysMalloc 512
  let some allBlocks ← sysMalloc (512 + 48) | return none
  let blockReadStartIdx := file.fdPos / 512
  let blockReadEndIdx := u32 (file.fdPos + size) / 512
  assert (blockReadStartIdx < 139 ∧ blockReadEndIdx < 139)
  let blocks ← readBlocks inode blockReadStartIdx blockReadEndIdx
  return some (ioBuf, allBlocks, blocks)

def fileReadRounds (rounds : ℕ) (file : File) (inode : Inode) (buf : Memory) (count : ℕ) : KernM ℕ := do
  let size := readSize file inode count
  if u32 (file.fdPos + count) > inode.iSize ∧ size = 0 then return 0
  let some (ioBuf, _, blocks) ← readSetup file inode size | return 0
  let (bytesRead, _, _) ← readLoop blocks size (min rounds size) 0 ioBuf file buf
  return bytesRead

/-- The read neither has stored more than the rest of the file at any moment nor returns more. -/
structure ReadsWithin (k : Kern) (file : File) (inode : Inode) (count : ℕ) : Prop where
  moment : ∀ rounds buf n k', fileReadRounds rounds file inode buf count k = .ok (n, k') → n ≤ inode.iSize - file.fdPos
  returned : ∀ buf r file' buf' k', fileRead file inode buf count k = .ok ((r, file', buf'), k') → r ≤ (inode.iSize - file.fdPos : ℕ)

section

variable {K : Kernel} {k k' : Kern} {file file' : File} {inode : Inode} {count : ℕ}

theorem fileRead_eq (buf : Memory) : fileRead file inode buf count = (do
    let size := readSize file inode count
    if u32 (file.fdPos + count) > inode.iSize ∧ size = 0 then return (-1, file, buf)
    let some (ioBuf, allBlocks, blocks) ← readSetup file inode size | return (-1, file, buf)
    let (bytesRead, file, buf) ← readLoop blocks size size 0 ioBuf file buf
    sysFree allBlocks.ptr
    let some ioBuf := ioBuf | halt .assertion
    sysFree ioBuf.ptr
    return (int32 bytesRead, file, buf)) := by
  unfold fileRead readSetup
  dsimp only
  change (if _ ∧ readSize file inode count = 0 then _ else _) = _
  congr 1
  simp only [bind_assoc]
  congr 1
  funext io
  congr 1
  funext all
  cases all with
  | none => rfl
  | some all =>
    simp only [bind_assoc, pure_bind]
    rfl

theorem fileRead_rounds {buf buf' : Memory} {r : ℤ} (h : fileRead file inode buf count k = .ok ((r, file', buf'), k')) :
    r = -1 ∨ ∃ n k1, fileReadRounds (readSize file inode count) file inode buf count k = .ok (n, k1) ∧ r = int32 n := by
  rw [fileRead_eq] at h
  unfold fileReadRounds
  dsimp only at h ⊢
  rw [Nat.min_self]
  split_ifs at h ⊢
  · simp only [pure_ok, Prod.mk.injEq] at h
    exact .inl h.1.1.symm
  · rw [bind_ok] at h
    obtain ⟨setup, k1, hsetup, h⟩ := h
    cases setup with
    | none =>
      simp only [pure_ok, Prod.mk.injEq] at h
      exact .inl h.1.1.symm
    | some setup =>
      obtain ⟨io, all, blocks⟩ := setup
      simp only [bind_ok] at h
      obtain ⟨⟨br, file1, buf1⟩, k2, hloop, _, k3, -, h⟩ := h
      cases io with
      | none => simp at h
      | some io =>
        simp only [bind_ok, pure_ok, Prod.mk.injEq] at h
        obtain ⟨_, k4, -, ⟨rfl, -, -⟩, -⟩ := h
        refine .inr ⟨br, k2, ?_, rfl⟩
        rw [bind_eq hsetup]
        dsimp only
        rw [bind_eq hloop]
        rfl

theorem int32_le (n : ℕ) : int32 n ≤ n := by
  unfold int32
  split_ifs <;> omega

theorem ReadsWithin.of_moments
    (h : ∀ rounds buf n k', fileReadRounds rounds file inode buf count k = .ok (n, k') → n ≤ inode.iSize - file.fdPos) :
    ReadsWithin k file inode count := by
  refine ⟨h, fun buf r file' buf' k' hread => ?_⟩
  rcases fileRead_rounds hread with rfl | ⟨n, k1, hrounds, rfl⟩
  · omega
  · have hn := h _ _ _ _ hrounds
    have hle := int32_le n
    omega

theorem readLoop_le {blocks : ℕ → ℕ} {size fuel br br' : ℕ} {io : Option Buffer} {buf buf' : Memory} (hbr : br ≤ size)
    (h : readLoop blocks size fuel br io file buf k = .ok ((br', file', buf'), k')) : br' ≤ size := by
  induction fuel generalizing br io file buf k with
  | zero =>
    simp only [readLoop, pure_ok, Prod.mk.injEq] at h
    omega
  | succ fuel ih =>
    unfold readLoop at h
    split_ifs at h
    · simp only [bind_ok, bound_ok] at h
      obtain ⟨_, _, ⟨-, rfl⟩, h⟩ := h
      cases io with
      | none => simp at h
      | some io =>
        simp only [bind_ok] at h
        obtain ⟨_, _, -, h⟩ := h
        exact ih (by omega) h
    · simp only [pure_ok, Prod.mk.injEq] at h
      omega

theorem reads_within {rounds n : ℕ} {buf : Memory} (h : fileReadRounds rounds file inode buf count k = .ok (n, k')) :
    n ≤ readSize file inode count := by
  unfold fileReadRounds at h
  dsimp only at h
  split_ifs at h
  · simp only [pure_ok] at h
    omega
  · rw [bind_ok] at h
    obtain ⟨r, k1, -, h⟩ := h
    cases r with
    | none =>
      simp only [pure_ok] at h
      omega
    | some r =>
      obtain ⟨io, all, blocks⟩ := r
      simp only [bind_ok, pure_ok] at h
      obtain ⟨⟨br, file1, buf1⟩, k2, hloop, rfl, -⟩ := h
      exact readLoop_le (Nat.zero_le _) hloop

theorem readBlocks_range {lo hi : ℕ} (hd : OnDisk k.disk inode) (ht : 12 ≤ hi → inode.iSectors 12 ≠ 0) :
    Runs (readBlocks inode lo hi) k fun b k' => k' = k ∧ ∀ p < 140, b p ≤ maxLba := by
  have hdirect : ∀ l h p, h < 12 → directBlocks inode l h p ≤ maxLba := by
    intro l h p hh
    unfold directBlocks
    split_ifs with hp
    · have := hd p (by omega)
      rwa [refAddr_block _ _ (by omega), blockAddr, if_pos (by omega)] at this
    · exact Nat.zero_le _
  have htable : ∀ base : ℕ → ℕ, 12 ≤ hi → (∀ p, base p ≤ maxLba) →
      Runs (readTable (inode.iSectors 12) base) k fun b k' => k' = k ∧ ∀ p < 140, b p ≤ maxLba := by
    intro base h12 hbase
    have hon : inode.iSectors 12 ≤ maxLba := by
      have := hd 140 (by omega)
      rwa [refAddr_table] at this
    refine ⟨_, k, (readTable_ok _ _ _ k k).mpr ⟨sectorRange_one.mpr hon, rfl, rfl⟩, rfl, fun p hp => ?_⟩
    dsimp only
    split_ifs with hp12
    · have := hd p (by omega)
      rwa [refAddr_block _ _ hp, blockAddr, if_neg (by omega), if_neg (ht h12)] at this
    · exact hbase p
  unfold readBlocks
  split_ifs with c1 c2 c3 c4
  · exact Runs.pure ⟨rfl, fun p _ => hdirect _ _ p (by omega)⟩
  · exact htable _ (by omega) fun p => Nat.zero_le _
  · exact Runs.pure ⟨rfl, fun p _ => hdirect _ _ p (by omega)⟩
  · exact Runs.assert (ht (by omega)) (htable _ (by omega) fun p => hdirect _ _ p (by omega))
  · exact Runs.assert (ht (by omega)) (htable _ (by omega) fun p => Nat.zero_le _)

theorem readLoop_round {blocks : ℕ → ℕ} {size fuel br : ℕ} (hblocks : ∀ p < 140, blocks p ≤ maxLba) (hpos : file.fdPos < 140 * 512)
    (hsize : br + 512 ≤ size) (io : Buffer) (buf : Memory) (k : Kern) :
    ∃ io' buf' k', readLoop blocks size (fuel + 1) br (some io) file buf k =
      readLoop blocks size fuel (br + (512 - file.fdPos % 512)) (some io') { file with fdPos := (file.fdPos / 512 + 1) * 512 } buf' k' := by
  have hmod : file.fdPos % 512 < 512 := Nat.mod_lt _ (by omega)
  have hchunk : min (size - br) (512 - file.fdPos % 512) = 512 - file.fdPos % 512 := by omega
  have hu : u32 (file.fdPos + (512 - file.fdPos % 512)) = (file.fdPos / 512 + 1) * 512 := by
    rw [u32, Nat.mod_eq_of_lt (by omega)]
    omega
  obtain ⟨io', k1, hread, -⟩ := ideRead_runs (sectorRange_one.mpr (hblocks (file.fdPos / 512) (by omega)))
    { io with bytes := blit io.bytes 0 zeros 512 } k
  have hbound : (bound (file.fdPos / 512 < 140) : KernM Unit) k = .ok ((), k) := (bound_ok _ _ _ _).mpr ⟨by omega, rfl⟩
  refine ⟨io', blit buf br (slice io'.bytes (file.fdPos % 512)) (512 - file.fdPos % 512), k1, ?_⟩
  conv_lhs => unfold readLoop
  rw [if_pos (by omega)]
  dsimp only
  rw [bind_eq hbound, bind_eq hread, hchunk, hu]

theorem readLoop_rounds {blocks : ℕ → ℕ} {size rounds br : ℕ} (hblocks : ∀ p < 140, blocks p ≤ maxLba)
    (hrounds : file.fdPos / 512 + rounds ≤ 140) (hsize : br + 140 * 512 ≤ size + file.fdPos / 512 * 512) (io : Buffer) (buf : Memory) (k : Kern) :
    Runs (readLoop blocks size rounds br (some io) file buf) k fun r _ =>
      r.1 = br + ((file.fdPos / 512 + rounds) * 512 - file.fdPos) := by
  induction rounds generalizing br file io buf k with
  | zero =>
    apply Runs.pure
    have := Nat.div_mul_le_self file.fdPos 512
    dsimp only
    omega
  | succ rounds ih =>
    obtain ⟨io', buf', k', heq⟩ := @readLoop_round file blocks size rounds br hblocks (by omega) (by omega) io buf k
    obtain ⟨r, k2, hrun, hr⟩ := @ih { file with fdPos := (file.fdPos / 512 + 1) * 512 } (br + (512 - file.fdPos % 512))
      (by dsimp only; omega) (by dsimp only; omega) io' buf' k'
    refine ⟨r, k2, heq.trans hrun, ?_⟩
    dsimp only at hr
    omega

theorem u32_wrap {a b : ℕ} (ha : a < 2 ^ 32) (hb : b < 2 ^ 32) (h : 2 ^ 32 ≤ a + b) : u32 (a + b) = a + b - 2 ^ 32 := by
  rw [u32, Nat.mod_eq_sub_mod h, Nat.mod_eq_of_lt (by omega)]

theorem readSize_within (hpos : file.fdPos ≤ inode.iSize) (h : file.fdPos + count < 2 ^ 32) :
    readSize file inode count ≤ inode.iSize - file.fdPos := by
  have hu : u32 (file.fdPos + count) = file.fdPos + count := Nat.mod_eq_of_lt h
  unfold readSize
  split_ifs with hpast
  · rw [u32, show inode.iSize + 2 ^ 32 - file.fdPos = inode.iSize - file.fdPos + 2 ^ 32 by omega, Nat.add_mod_right]
    exact Nat.mod_le _ _
  · omega

theorem readSize_wrap (hpos : file.fdPos ≤ inode.iSize) (hsize : inode.iSize < 2 ^ 32) (hcount : count < 2 ^ 32)
    (h : 2 ^ 32 ≤ file.fdPos + count) : ¬ u32 (file.fdPos + count) > inode.iSize ∧ readSize file inode count = count := by
  have hu := u32_wrap (show file.fdPos < 2 ^ 32 by omega) hcount h
  have hpast : ¬ u32 (file.fdPos + count) > inode.iSize := by omega
  exact ⟨hpast, if_neg hpast⟩

theorem readSetup_wrap (hf : FileOk K.toPartition k inode) (hd : OnDisk k.disk inode) (hk : k.Plenty) (hpos : file.fdPos ≤ inode.iSize)
    (hcount : count < 2 ^ 32) (h : 2 ^ 32 ≤ file.fdPos + count) (hstart : file.fdPos < 139 * 512) :
    Runs (readSetup file inode count) k fun r _ => ∃ io all blocks, r = some (some io, all, blocks) ∧ ∀ p < 140, blocks p ≤ maxLba := by
  have hsmall := hf.small
  have hu := u32_wrap (show file.fdPos < 2 ^ 32 by omega) hcount h
  unfold readSetup
  refine Runs.bind (sysMalloc_runs _ hk) ?_
  rintro _ k1 ⟨rfl, hk1⟩
  refine Runs.bind (sysMalloc_runs _ (hk1.plenty hk)) ?_
  rintro _ k2 ⟨rfl, hk2⟩
  have hdisk := (hk1.trans hk2).disk
  refine Runs.assert (by rw [hu]; omega) ?_
  rw [hu]
  refine Runs.bind (readBlocks_range (by rw [hdisk]; exact hd) fun h12 => hf.table_of_size h12 (by omega)) ?_
  rintro blocks _ ⟨rfl, hblocks⟩
  exact Runs.pure ⟨_, _, blocks, rfl, hblocks⟩

theorem reads_past_end (hf : FileOk K.toPartition k inode) (hd : OnDisk k.disk inode) (hk : k.Plenty) (hpos : file.fdPos ≤ inode.iSize)
    (hcount : count < 2 ^ 32) (h : 2 ^ 32 ≤ file.fdPos + count) (hstart : file.fdPos < 139 * 512) : ¬ ReadsWithin k file inode count := by
  have hsmall := hf.small
  obtain ⟨hpast, hsize⟩ := readSize_wrap hpos (by omega) hcount h
  obtain ⟨_, k1, hsetup, io, all, blocks, rfl, hblocks⟩ := readSetup_wrap hf hd hk hpos hcount h hstart
  obtain ⟨rounds, hrounds⟩ : ∃ rounds, inode.iSize / 512 + 1 = file.fdPos / 512 + rounds :=
    ⟨inode.iSize / 512 + 1 - file.fdPos / 512, by omega⟩
  obtain ⟨⟨n, file', buf'⟩, k2, hloop, hn⟩ := @readLoop_rounds file blocks count rounds 0 hblocks (by omega) (by omega) io zeros k1
  intro hwithin
  have hrun : fileReadRounds rounds file inode zeros count k = .ok (n, k2) := by
    unfold fileReadRounds
    dsimp only
    rw [hsize, if_neg (fun hp => hpast hp.1), bind_eq hsetup]
    dsimp only
    rw [show min rounds count = rounds by omega, bind_eq hloop]
    rfl
  have := hwithin.moment rounds zeros n k2 hrun
  dsimp only at hn
  omega

theorem readsWithin_late (hlate : 139 * 512 ≤ file.fdPos) : ReadsWithin k file inode count := by
  apply ReadsWithin.of_moments
  intro rounds buf n k' h
  unfold fileReadRounds at h
  dsimp only at h
  split_ifs at h
  · simp only [pure_ok] at h
    omega
  · rw [bind_ok] at h
    obtain ⟨r, k1, hsetup, h⟩ := h
    cases r with
    | none =>
      simp only [pure_ok] at h
      omega
    | some r =>
      unfold readSetup at hsetup
      simp only [bind_ok] at hsetup
      obtain ⟨io, k2, -, all, k3, -, hsetup⟩ := hsetup
      cases all with
      | none => simp at hsetup
      | some all =>
        simp only [bind_ok, assert_ok] at hsetup
        obtain ⟨_, _, ⟨⟨hlt, -⟩, -⟩, -⟩ := hsetup
        omega

theorem refusesLarge_iff (hsize : inode.iSize ≤ 140 * 512) (hcount : count < 2 ^ 32) :
    RefusesLarge K k file inode count ↔ inode.iSize + count < 2 ^ 32 ∨ k.heap.grant k.heap.next = false := by
  constructor
  · intro hrefuse
    by_contra hno
    push Not at hno
    obtain ⟨hwrap, hgrant⟩ := hno
    obtain ⟨k', hrun, hunch⟩ := hrefuse (by omega) zeros
    rw [← fileWriteBy_eq] at hrun
    have hu := u32_wrap (show inode.iSize < 2 ^ 32 by omega) hcount hwrap
    rcases fileWriteBy_fails (blockBitmapAlloc_allocator K) hrun with ⟨hbig, -⟩ | ⟨hg, -⟩ | ⟨-, -, hlen⟩
    · omega
    · exact hgrant hg
    · rw [hunch] at hlen
      exact absurd hlen (lt_irrefl _)
  · intro hcond hlarge buf
    unfold fileWrite
    by_cases hbig : u32 (inode.iSize + count) > 512 * 140
    · rw [if_pos hbig]
      exact ⟨k, rfl, rfl⟩
    · rw [if_neg hbig]
      rcases hcond with hlt | hg
      · rw [u32, Nat.mod_eq_of_lt hlt] at hbig
        omega
      · have hnone : sysMalloc 512 k = .ok (none, { k with heap := { k.heap with next := k.heap.next + 1 } }) := by
          unfold sysMalloc
          rw [hg]
          rfl
        rw [bind_eq hnone]
        exact ⟨_, rfl, rfl⟩

end

/-- The size check of `file_write` works exactly if its sum does not wrap around (or no memory is there for the first buffer), and a
read stays within the file exactly if the sum of `file_read` does not wrap around, or the position is one it refuses. -/
theorem range_checks_wrap (K : Kernel) (k : Kern) (file : File) (inode : Inode) (count : ℕ) (hsize : inode.iSize ≤ 140 * 512)
    (hpos : file.fdPos ≤ inode.iSize) (hcount : count < 2 ^ 32) :
    (RefusesLarge K k file inode count ↔ inode.iSize + count < 2 ^ 32 ∨ k.heap.grant k.heap.next = false) ∧
      (file.fdPos + count < 2 ^ 32 ∨ 139 * 512 ≤ file.fdPos → ReadsWithin k file inode count) ∧
      (FileOk K.toPartition k inode → OnDisk k.disk inode → k.Plenty → ReadsWithin k file inode count →
        file.fdPos + count < 2 ^ 32 ∨ 139 * 512 ≤ file.fdPos) := by
  refine ⟨refusesLarge_iff hsize hcount, ?_, ?_⟩
  · rintro (hlt | hlate)
    · apply ReadsWithin.of_moments
      intro rounds buf n k' hrun
      exact (reads_within hrun).trans (readSize_within hpos hlt)
    · exact readsWithin_late hlate
  · intro hf hd hk hwithin
    by_contra hno
    push Not at hno
    exact reads_past_end hf hd hk hpos hcount hno.1 hno.2 hwithin

theorem mounted_ready (n : ℕ) : WriteReady (formattedPartition 63 4709).kernel Kern.mounted (inodeInit n Inode.zero) := by
  refine ⟨mounted_layout, ⟨by decide, by decide⟩, fun _ => rfl, by decide, newFile_ok _ _ _ _, fun p _ => ?_,
    (Nat.mod_lt _ (by omega)).trans (by omega)⟩
  simp [refAddr, blockAddr, inodeInit]

theorem range_checks_wrap_small : RefusesLarge (formattedPartition 63 4709).kernel Kern.mounted ⟨0, 2, none⟩ (inodeInit 1 Inode.zero) 80000 ∧
    ReadsWithin Kern.mounted ⟨0, 2, none⟩ (inodeInit 1 Inode.zero) 80000 := by
  obtain ⟨hwrite, hread, -⟩ := range_checks_wrap (formattedPartition 63 4709).kernel Kern.mounted ⟨0, 2, none⟩ (inodeInit 1 Inode.zero) 80000
    (by decide) (by decide) (by decide)
  exact ⟨hwrite.mpr (.inl (by decide)), hread (.inl (by decide))⟩

/-- A file of one byte: a write of `2 ^ 32 - 1` bytes passes the size check, and a read of as many from its end starts to store them. -/
theorem range_checks_fooled : ∃ file inode k, fileWrites (formattedPartition 63 4709).kernel ⟨0, 2, none⟩ (inodeInit 1 Inode.zero) [[7]]
      Kern.mounted = .ok (([1], file, inode), k) ∧ inode.iSize = 1 ∧
    ¬ RefusesLarge (formattedPartition 63 4709).kernel k file inode (2 ^ 32 - 1) ∧
    ¬ ReadsWithin k { file with fdPos := 1 } inode (2 ^ 32 - 1) := by
  have hcontents : Contents Kern.mounted.disk (inodeInit 1 Inode.zero) [] := ⟨rfl, fun q hq => by simp at hq⟩
  obtain ⟨⟨rets, file, inode⟩, k, hrun, hrets, hready, hc⟩ := fileWrites_runs (mounted_ready 1) hcontents ⟨0, 2, none⟩ [[7]] (by decide)
    fun _ => Finset.card_pos.mpr ⟨1, mounted_free⟩
  dsimp only at hrets hready hc
  have hsize : inode.iSize = 1 := hc.size
  refine ⟨file, inode, k, by rw [hrun, hrets]; rfl, hsize, ?_, ?_⟩
  · rw [refusesLarge_iff (by omega) (by omega), hready.plenty]
    rintro (hlt | hg)
    · omega
    · cases hg
  · exact reads_past_end hready.file hready.onDisk hready.plenty (by dsimp only; omega) (by omega) (by dsimp only; omega) (by dsimp only; omega)

/-- The states a file comes to by calls of `file_write`, through any descriptors, when a write within the limit has the blocks it needs. -/
inductive WriteRun (K : Kernel) (k : Kern) (inode : Inode) : Kern → Inode → Prop
  | start : WriteRun K k inode k inode
  | write {k1 k2 : Kern} {inode1 inode2 : Inode} {file file' : File} {buf : Memory} {count : ℕ} {ret : ℤ}
      (hrun : WriteRun K k inode k1 inode1) (hcount : count < 2 ^ 32)
      (hfree : inode1.iSize + count < 140 * 512 →
        blocksNeeded (usedBlocks inode1) ((inode1.iSize + count) / 512 + 1) ≤ (freeBits K.toPartition k1.blockBitmap).card)
      (hw : fileWrite K file inode1 buf count k1 = .ok ((ret, file', inode2), k2)) : WriteRun K k inode k2 inode2

section

variable {K : Kernel} {k k' : Kern} {file file' : File} {inode inode' : Inode} {count : ℕ}

theorem fileWrite_wrap {buf : Memory} {ret : ℤ} (hk : k.Plenty) (hsize : inode.iSize ≤ 140 * 512) (hcount : count < 2 ^ 32)
    (hwrap : 2 ^ 32 ≤ inode.iSize + count) : fileWrite K file inode buf count k ≠ .ok ((ret, file', inode'), k') := by
  intro h
  rw [← fileWriteBy_eq] at h
  have hu := u32_wrap (show inode.iSize < 2 ^ 32 by omega) hcount hwrap
  rcases fileWriteBy_cases (blockBitmapAlloc_allocator K) h with ⟨hbig, -⟩ | ⟨hg, -⟩ | ⟨-, -, -, hnone | ⟨k1, k2, hfail⟩⟩ | ⟨-, hle⟩
  · omega
  · rw [hk] at hg
    cases hg
  · exact hnone hk
  · obtain ⟨i, -, -, -, hr, -⟩ := blockBitmapAlloc_ok hfail
    cases hr
  · omega

theorem WriteReady.heapOnly (h : WriteReady K k inode) (hk : HeapOnly k k') : WriteReady K k' inode where
  layout := by rw [hk.blockBitmap]; exact h.layout
  table := h.table
  plenty := hk.plenty h.plenty
  root := by rw [hk.blockBitmap]; exact h.root
  file := h.file.congr hk.disk hk.blockBitmap
  onDisk := by rw [hk.disk]; exact h.onDisk
  number := h.number

theorem WriteReady.write {buf : Memory} {ret : ℤ} (h : WriteReady K k inode) (hcount : count < 2 ^ 32)
    (hfree : inode.iSize + count < 140 * 512 →
      blocksNeeded (usedBlocks inode) ((inode.iSize + count) / 512 + 1) ≤ (freeBits K.toPartition k.blockBitmap).card)
    (hw : fileWrite K file inode buf count k = .ok ((ret, file', inode'), k')) : WriteReady K k' inode' := by
  have hsmall := h.file.small
  by_cases hwrap : inode.iSize + count < 2 ^ 32
  · rcases fileWrite_ok h.layout h.file hwrap hw with ⟨-, -, rfl, hk⟩ | ⟨-, -, hwritten⟩
    · exact h.heapOnly hk
    · have hsize' := hwritten.file.small
      rw [hwritten.fields] at hsize'
      obtain ⟨r, k1, hrun, -, hdisk, -⟩ := fileWrite_runs h file buf hsize' (hfree hsize')
      obtain ⟨rfl, rfl⟩ := ok_inj hw hrun
      exact hwritten.ready h hdisk
  · exact absurd hw (fileWrite_wrap h.plenty (by omega) hcount (by omega))

theorem WriteRun.ready (h : WriteReady K k inode) (hrun : WriteRun K k inode k' inode') : WriteReady K k' inode' := by
  induction hrun with
  | start => exact h
  | write _ hcount hfree hw ih => exact ih.write hcount hfree hw

theorem fileWrite_at_limit (h : WriteReady K k inode) (buf : Memory) (hlimit : inode.iSize + count = 140 * 512)
    (hfree : blocksNeeded (usedBlocks inode) ((inode.iSize + count) / 512 + 1) ≤ (freeBits K.toPartition k.blockBitmap).card) :
    fileWrite K file inode buf count k = .error .assertion := by
  have hu : u32 (inode.iSize + count) = 140 * 512 := by rw [hlimit]; rfl
  obtain ⟨_, k1, hm1, rfl, hk1⟩ := sysMalloc_runs 512 h.plenty
  obtain ⟨_, k2, hm2, rfl, hk2⟩ := sysMalloc_runs (512 + 48) (hk1.plenty h.plenty)
  have hk12 := hk1.trans hk2
  have hready := h.heapOnly hk12
  have hneed : (if inode.iSectors 0 = 0 then 1 else 0) ≤ (freeBits K.toPartition k2.blockBitmap).card := by
    rw [hk12.blockBitmap]
    refine le_trans ?_ hfree
    unfold usedBlocks blocksNeeded
    split_ifs <;> omega
  obtain ⟨⟨ok, inode1⟩, k3, hfirst, -⟩ := firstBlock_runs hready.layout hready.root (h.onDisk 0 (by omega)) hneed
  obtain ⟨rfl, hcol, -⟩ := firstBlock_ok hready.layout hready.file.blocks hfirst
  have hsize : inode1.iSize = inode.iSize := by rw [hcol.fields]
  unfold fileWrite
  rw [hu, if_neg (by omega), bind_eq hm1]
  dsimp only
  rw [bind_eq hm2]
  dsimp only
  rw [bind_eq hfirst]
  simp only [Bool.not_true, Bool.false_eq_true, if_false]
  apply bind_error
  apply assert_error
  rw [hsize, hu]
  omega

theorem readLoop_wild {blocks : ℕ → ℕ} {size fuel n br : ℕ} (hblocks : ∀ p < 140, blocks p ≤ maxLba) (hn : file.fdPos / 512 + n = 140)
    (hfuel : n < fuel) (hsize : br + 140 * 512 < size + file.fdPos / 512 * 512) (io : Buffer) (buf : Memory) (k : Kern) :
    readLoop blocks size fuel br (some io) file buf k = .error .wild := by
  induction n generalizing fuel br file io buf k with
  | zero =>
    obtain ⟨fuel, rfl⟩ : ∃ f, fuel = f + 1 := ⟨fuel - 1, by omega⟩
    unfold readLoop
    rw [if_pos (by omega)]
    apply bind_error
    apply bound_error
    omega
  | succ n ih =>
    obtain ⟨fuel, rfl⟩ : ∃ f, fuel = f + 1 := ⟨fuel - 1, by omega⟩
    obtain ⟨io', buf', k', heq⟩ := @readLoop_round file blocks size fuel br hblocks (by omega) (by omega) io buf k
    rw [heq]
    apply ih
    · dsimp only
      omega
    · omega
    · dsimp only
      omega

theorem fileRead_wild (hf : FileOk K.toPartition k inode) (hd : OnDisk k.disk inode) (hk : k.Plenty) (buf : Memory)
    (hpos : file.fdPos ≤ inode.iSize) (hcount : count < 2 ^ 32) (h : 2 ^ 32 ≤ file.fdPos + count) (hstart : file.fdPos < 139 * 512) :
    fileRead file inode buf count k = .error .wild := by
  have hsmall := hf.small
  obtain ⟨hpast, hsize⟩ := readSize_wrap hpos (by omega) hcount h
  obtain ⟨_, k1, hsetup, io, all, blocks, rfl, hblocks⟩ := readSetup_wrap hf hd hk hpos hcount h hstart
  rw [fileRead_eq]
  dsimp only
  rw [hsize, if_neg (fun hp => hpast hp.1), bind_eq hsetup]
  apply bind_error
  apply readLoop_wild hblocks (show file.fdPos / 512 + (140 - file.fdPos / 512) = 140 by omega)
  · omega
  · omega

/-- The reads that the block-index assertion of `file_read` admits, or does not come to: those that end in one of the first 139 blocks
and those at the end of the file. The end of a read that wraps around is not what is checked. -/
def ReadAdmitted (file : File) (inode : Inode) (count : ℕ) : Prop :=
  if file.fdPos + count < 2 ^ 32 then
    (file.fdPos = inode.iSize ∧ 0 < count) ∨ min (file.fdPos + count) inode.iSize < 139 * 512
  else file.fdPos < 139 * 512

theorem readSetup_refused (hk : k.Plenty) {size : ℕ} (h : ¬ (file.fdPos / 512 < 139 ∧ u32 (file.fdPos + size) / 512 < 139)) :
    readSetup file inode size k = .error .assertion := by
  obtain ⟨_, k1, hm1, rfl, hk1⟩ := sysMalloc_runs 512 hk
  obtain ⟨_, k2, hm2, rfl, hk2⟩ := sysMalloc_runs (512 + 48) (hk1.plenty hk)
  unfold readSetup
  rw [bind_eq hm1]
  dsimp only
  rw [bind_eq hm2]
  apply bind_error
  exact assert_error h k2

theorem readSize_eq (hpos : file.fdPos ≤ inode.iSize) (h : file.fdPos + count < 2 ^ 32) (hsize : inode.iSize < 2 ^ 32) :
    readSize file inode count = min (file.fdPos + count) inode.iSize - file.fdPos := by
  have hu : u32 (file.fdPos + count) = file.fdPos + count := Nat.mod_eq_of_lt h
  unfold readSize
  split_ifs with hpast
  · rw [u32, show inode.iSize + 2 ^ 32 - file.fdPos = inode.iSize - file.fdPos + 2 ^ 32 by omega, Nat.add_mod_right,
      Nat.mod_eq_of_lt (by omega)]
    omega
  · omega

theorem fileRead_admitted_iff (hf : FileOk K.toPartition k inode) (hd : OnDisk k.disk inode) (hk : k.Plenty) (buf : Memory)
    (hpos : file.fdPos ≤ inode.iSize) (hcount : count < 2 ^ 32) :
    fileRead file inode buf count k ≠ .error .assertion ↔ ReadAdmitted file inode count := by
  have hsmall := hf.small
  unfold ReadAdmitted
  split_ifs with hwrap
  · have hu : u32 (file.fdPos + count) = file.fdPos + count := Nat.mod_eq_of_lt hwrap
    have hsize := readSize_eq hpos hwrap (by omega)
    by_cases heof : file.fdPos = inode.iSize ∧ 0 < count
    · refine iff_of_true ?_ (.inl heof)
      rw [fileRead_eq]
      dsimp only
      rw [if_pos ⟨by omega, by omega⟩]
      intro herr
      cases herr
    · by_cases hend : min (file.fdPos + count) inode.iSize < 139 * 512
      · obtain ⟨r, k1, hrun, -⟩ := fileRead_runs hf hd hk file buf hpos hwrap hend
        refine iff_of_true ?_ (.inr hend)
        rw [hrun]
        intro herr
        cases herr
      · refine iff_of_false (not_not.mpr ?_) (not_or.mpr ⟨heof, hend⟩)
        rw [fileRead_eq]
        dsimp only
        rw [if_neg (by omega)]
        apply bind_error
        apply readSetup_refused hk
        rw [hsize, u32, Nat.mod_eq_of_lt (by omega)]
        omega
  · by_cases hstart : file.fdPos < 139 * 512
    · refine iff_of_true ?_ hstart
      rw [fileRead_wild hf hd hk buf hpos hcount (by omega) hstart]
      intro herr
      cases herr
    · refine iff_of_false (not_not.mpr ?_) hstart
      obtain ⟨hpast, hsize⟩ := readSize_wrap hpos (by omega) hcount (by omega)
      rw [fileRead_eq]
      dsimp only
      rw [if_neg fun hp => hpast hp.1]
      apply bind_error
      apply readSetup_refused hk
      omega

end

/-- In every state a file comes to by writes, a write that the byte check admits passes the assertion on its blocks exactly if it stays
below the limit, and a read passes the assertion on its block indices exactly if it ends in the first 139 blocks or at the end of the file. -/
theorem file_limits (part : Partition) (k k' : Kern) (n : ℕ) (inode inode' : Inode) (hl : Layout part k.blockBitmap.btmpBytesLen)
    (ht : TableOnDisk part) (hk : k.Plenty) (hroot : k.blockBitmap.scanTest 0 = true)
    (hrun : WriteRun part.kernel k (inodeInit n inode) k' inode') :
    (∀ file buf count, inode'.iSize + count ≤ 140 * 512 →
      blocksNeeded (usedBlocks inode') ((inode'.iSize + count) / 512 + 1) ≤ (freeBits part k'.blockBitmap).card →
      (fileWrite part.kernel file inode' buf count k' ≠ .error .assertion ↔ inode'.iSize + count < 140 * 512)) ∧
    ∀ file buf count, file.fdPos ≤ inode'.iSize → count < 2 ^ 32 →
      (fileRead file inode' buf count k' ≠ .error .assertion ↔ ReadAdmitted file inode' count) := by
  have hready : WriteReady part.kernel k (inodeInit n inode) := by
    refine ⟨hl, ht, hk, hroot, newFile_ok part k n inode, fun p _ => ?_, (Nat.mod_lt _ (by omega)).trans (by omega)⟩
    simp [refAddr, blockAddr, inodeInit]
  have hready' := hrun.ready hready
  refine ⟨?_, ?_⟩
  · intro file buf count hle hfree
    by_cases hlt : inode'.iSize + count < 140 * 512
    · obtain ⟨r, k1, hw, -⟩ := fileWrite_runs hready' file buf hlt hfree
      refine iff_of_true ?_ hlt
      rw [hw]
      intro herr
      cases herr
    · refine iff_of_false (not_not.mpr ?_) hlt
      exact fileWrite_at_limit hready' buf (by omega) hfree
  · intro file buf count hpos hcount
    exact fileRead_admitted_iff hready'.file hready'.onDisk hready'.plenty buf hpos hcount

theorem file_limits_three_bytes :
    fileWrite (formattedPartition 63 4709).kernel ⟨0, 2, none⟩ (inodeInit 1 Inode.zero) zeros 3 Kern.mounted ≠ .error .assertion ∧
      fileRead ⟨0, 2, none⟩ (inodeInit 1 Inode.zero) zeros 3 Kern.mounted ≠ .error .assertion := by
  obtain ⟨hwrite, hread⟩ := file_limits (formattedPartition 63 4709) Kern.mounted Kern.mounted 1 Inode.zero _ mounted_layout
    ⟨by decide, by decide⟩ (fun _ => rfl) (by decide) .start
  refine ⟨(hwrite ⟨0, 2, none⟩ zeros 3 (by decide) (Finset.card_pos.mpr ⟨1, mounted_free⟩)).mpr (by decide), ?_⟩
  apply (hread ⟨0, 2, none⟩ zeros 3 (by decide) (by decide)).mpr
  rw [ReadAdmitted, if_pos (by decide)]
  exact .inl ⟨rfl, by decide⟩

theorem mounted_free_many : 142 ≤ (freeBits (formattedPartition 63 4709) Kern.mounted.blockBitmap).card := by
  have hfree : ∀ i < 142, i + 1 ∈ freeBits (formattedPartition 63 4709) Kern.mounted.blockBitmap := by
    have hbits : ∀ i < 142, Kern.mounted.blockBitmap.scanTest (i + 1) = false := by decide +kernel
    intro i hi
    refine mem_freeBits.mpr ⟨?_, hbits i hi, ?_⟩
    · change i + 1 < 8 * 512
      omega
    · have hmax : (formattedPartition 63 4709).sb.dataStartLba + 142 ≤ maxLba := by decide
      omega
  have hsub : (Finset.range 142).image (· + 1) ⊆ freeBits (formattedPartition 63 4709) Kern.mounted.blockBitmap := by
    intro j hj
    obtain ⟨i, hi, rfl⟩ := Finset.mem_image.mp hj
    exact hfree i (Finset.mem_range.mp hi)
  have hcard := Finset.card_le_card hsub
  rwa [Finset.card_image_of_injective _ (fun a b hab => Nat.succ.inj hab), Finset.card_range] at hcard

/-- A write of as many bytes as the check admits to a new file, on a partition with room for them. -/
theorem file_limits_disagree :
    WriteRun (formattedPartition 63 4709).kernel Kern.mounted (inodeInit 1 Inode.zero) Kern.mounted (inodeInit 1 Inode.zero) ∧
    (inodeInit 1 Inode.zero).iSize + 140 * 512 ≤ 140 * 512 ∧
    blocksNeeded (usedBlocks (inodeInit 1 Inode.zero)) ((0 + 140 * 512) / 512 + 1) ≤
      (freeBits (formattedPartition 63 4709) Kern.mounted.blockBitmap).card ∧
    fileWrite (formattedPartition 63 4709).kernel ⟨0, 2, none⟩ (inodeInit 1 Inode.zero) zeros (140 * 512) Kern.mounted = .error .assertion :=
  ⟨.start, le_refl _, mounted_free_many, fileWrite_at_limit (mounted_ready 1) zeros rfl mounted_free_many⟩

end ElephantOS
