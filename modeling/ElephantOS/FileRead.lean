import ElephantOS.FileRuns

/-! `file_read` of `fs/file.c`. -/

namespace ElephantOS

open ByteMemory HaltingState

/-- The entries of `i_sectors` with index in `lo .. hi`, in a cleared array. -/
def directBlocks (inode : Inode) (lo hi : ℕ) : ℕ → ℕ := fun p => if lo ≤ p ∧ p ≤ hi then inode.iSectors p else 0

/-- Fill `all_blocks` with the addresses of the blocks `startIdx .. endIdx`. -/
def readBlocks (inode : Inode) (startIdx endIdx : ℕ) : KernM (ℕ → ℕ) := do
  if startIdx = endIdx then
    if endIdx < 12 then return directBlocks inode endIdx endIdx
    else readTable (inode.iSectors 12) (fun _ => 0)
  else if endIdx < 12 then return directBlocks inode startIdx endIdx
  else if startIdx < 12 then
    assert (inode.iSectors 12 ≠ 0)
    readTable (inode.iSectors 12) (directBlocks inode startIdx 11)
  else
    assert (inode.iSectors 12 ≠ 0)
    readTable (inode.iSectors 12) (fun _ => 0)

/-- The loop of `file_read`, in at most `fuel` rounds; `memset` asserts that it has a buffer. -/
def readLoop (allBlocks : ℕ → ℕ) (size : ℕ) : ℕ → ℕ → Option Buffer → File → Memory → KernM (ℕ × File × Memory)
  | 0, bytesRead, _, file, buf => return (bytesRead, file, buf)
  | fuel + 1, bytesRead, ioBuf, file, buf =>
    if bytesRead < size then do
      let secIdx := file.fdPos / 512
      bound (secIdx < 140)
      let secLba := allBlocks secIdx
      let secOffBytes := file.fdPos % 512
      let secLeftBytes := 512 - secOffBytes
      let chunkSize := min (size - bytesRead) secLeftBytes
      let some io := ioBuf | halt .assertion
      let io ← ideRead secLba { io with bytes := blit io.bytes 0 zeros 512 } 1
      readLoop allBlocks size fuel (bytesRead + chunkSize) (some io)
        { file with fdPos := u32 (file.fdPos + chunkSize) } (blit buf bytesRead (slice io.bytes secOffBytes) chunkSize)
    else return (bytesRead, file, buf)

/-- `file_read`; the file and the destination buffer are passed in and handed back. -/
def fileRead (file : File) (inode : Inode) (buf : Memory) (count : ℕ) : KernM (ℤ × File × Memory) := do
  let past := u32 (file.fdPos + count) > inode.iSize
  let size := if past then u32 (inode.iSize + 2 ^ 32 - file.fdPos) else count
  if past ∧ size = 0 then return (-1, file, buf)
  let ioBuf ← sysMalloc 512
  let some allBlocks ← sysMalloc (512 + 48) | return (-1, file, buf)
  let blockReadStartIdx := file.fdPos / 512
  let blockReadEndIdx := u32 (file.fdPos + size) / 512
  assert (blockReadStartIdx < 139 ∧ blockReadEndIdx < 139)
  let blocks ← readBlocks inode blockReadStartIdx blockReadEndIdx
  let (bytesRead, file, buf) ← readLoop blocks size size 0 ioBuf file buf
  sysFree allBlocks.ptr
  let some ioBuf := ioBuf | halt .assertion
  sysFree ioBuf.ptr
  return (int32 bytesRead, file, buf)

theorem readBlocks_runs {inode : Inode} {lo hi : ℕ} {k : Kern} (hle : lo ≤ hi) (hhi : hi < 140)
    (ht : 12 ≤ hi → inode.iSectors 12 ≠ 0 ∧ inode.iSectors 12 ≤ maxLba) :
    Runs (readBlocks inode lo hi) k fun b k' => k = k' ∧ ∀ p, lo ≤ p → p ≤ hi → b p = blockAddr k.disk inode p := by
  have hdirect : ∀ l h p, l ≤ p → p ≤ h → p < 12 → directBlocks inode l h p = blockAddr k.disk inode p := by
    intro l h p h1 h2 h3
    rw [directBlocks, if_pos ⟨h1, h2⟩, blockAddr, if_pos h3]
  have htable : ∀ base : ℕ → ℕ, 12 ≤ hi → (∀ p, lo ≤ p → p < 12 → base p = blockAddr k.disk inode p) →
      Runs (readTable (inode.iSectors 12) base) k fun b k' => k = k' ∧
        ∀ p, lo ≤ p → p ≤ hi → b p = blockAddr k.disk inode p := by
    intro base h12 hbase
    refine ⟨_, k, (readTable_ok _ _ _ k k).mpr ⟨sectorRange_one.mpr (ht h12).2, rfl, rfl⟩, rfl, fun p h1 h2 => ?_⟩
    dsimp only
    by_cases hp : p < 12
    · rw [if_neg (by omega)]
      exact hbase p h1 hp
    · rw [if_pos (by omega), blockAddr, if_neg hp, if_neg (ht h12).1]
  unfold readBlocks
  split_ifs with c1 c2 c3 c4
  · subst c1
    exact Runs.pure ⟨rfl, fun p h1 h2 => hdirect _ _ p h1 h2 (by omega)⟩
  · exact htable _ (by omega) fun p h1 h2 => by omega
  · exact Runs.pure ⟨rfl, fun p h1 h2 => hdirect _ _ p h1 h2 (by omega)⟩
  · exact Runs.assert (ht (by omega)).1 (htable _ (by omega) fun p h1 h2 => hdirect _ _ p h1 (by omega) h2)
  · exact Runs.assert (ht (by omega)).1 (htable _ (by omega) fun p h1 h2 => by omega)

/-- The result of the loop when `br` of `size` bytes are already in place. -/
def readResult (blocks : ℕ → ℕ) (d : Memory) (size pos br : ℕ) (file : File) (buf : Memory) : ℕ × File × Memory :=
  (size, { file with fdPos := pos + size }, blit buf br (fun i => d (byteAddr blocks (pos + br + i))) (size - br))

theorem readResult_done {blocks : ℕ → ℕ} {d : Memory} {pos br : ℕ} {file : File} {buf : Memory}
    (hpos : file.fdPos = pos + br) : readResult blocks d br pos br file buf = (br, file, buf) := by
  have hz : blit buf br (fun i => d (byteAddr blocks (pos + br + i))) (br - br) = buf := by
    funext a
    exact blit_outside _ _ (by omega)
  rw [readResult, hz, ← hpos]

theorem readChunk {blocks : ℕ → ℕ} {d base buf : Memory} {pos br chunk : ℕ} (hc : (pos + br) % 512 + chunk ≤ 512) :
    blit buf br (slice (blit base 0 (slice d (blocks ((pos + br) / 512) * 512)) (1 * 512)) ((pos + br) % 512)) chunk =
      blit buf br (fun i => d (byteAddr blocks (pos + br + i))) chunk := by
  apply blit_congr
  intro i hi
  have hin := @blit_inside base (slice d (blocks ((pos + br) / 512) * 512)) 0 _ _
    (show (pos + br) % 512 + i < 1 * 512 by omega)
  have h1 : (pos + br + i) / 512 = (pos + br) / 512 := by omega
  have h2 : (pos + br + i) % 512 = (pos + br) % 512 + i := by omega
  rw [Nat.zero_add] at hin
  rw [slice, hin, slice, byteAddr, h1, h2]

theorem readLoop_runs {blocks : ℕ → ℕ} {size fuel pos br : ℕ} {io : Buffer} {file : File} {buf : Memory} {k : Kern}
    (hfuel : size ≤ br + fuel) (hbr : br ≤ size) (hpos : file.fdPos = pos + br) (hlt : pos + size < 140 * 512)
    (hdisk : ∀ p, pos / 512 ≤ p → p ≤ (pos + size) / 512 → blocks p ≤ maxLba) :
    Runs (readLoop blocks size fuel br (some io) file buf) k fun r k' =>
      HeapOnly k k' ∧ r = readResult blocks k.disk size pos br file buf := by
  induction fuel generalizing br io file buf k with
  | zero =>
    obtain rfl : br = size := by omega
    exact Runs.pure ⟨HeapOnly.refl _, (readResult_done hpos).symm⟩
  | succ fuel ih =>
    unfold readLoop
    split_ifs with hc
    · have hb := hdisk ((pos + br) / 512) (by omega) (by omega)
      rw [← hpos] at hb
      refine Runs.bound (by omega) ?_
      refine Runs.bind (ideRead_runs (sectorRange_one.mpr hb) _ k) ?_
      rintro _ k1 ⟨rfl, hk1⟩
      rw [hpos]
      have hmod : (pos + br) % 512 < 512 := Nat.mod_lt _ (by omega)
      generalize hchunk : min (size - br) (512 - (pos + br) % 512) = chunk
      have hu : u32 (pos + br + chunk) = pos + (br + chunk) := by
        rw [u32, Nat.mod_eq_of_lt (by omega)]
        omega
      rw [readChunk (by omega), hu]
      refine (ih (by omega) (by omega) rfl).mono ?_
      rintro r k' ⟨hk', rfl⟩
      refine ⟨hk1.trans hk', ?_⟩
      have hrest := blit_append buf (fun i => k.disk (byteAddr blocks (pos + br + i))) br chunk (size - (br + chunk))
      have hs : (fun i => k.disk (byteAddr blocks (pos + (br + chunk) + i))) =
          slice (fun i => k.disk (byteAddr blocks (pos + br + i))) chunk := by
        funext i
        rw [slice, show pos + (br + chunk) + i = pos + br + (chunk + i) by omega]
      simp only [readResult, hk1.disk]
      rw [hs, hrest, show chunk + (size - (br + chunk)) = size - br by omega]
    · obtain rfl : br = size := by omega
      exact Runs.pure ⟨HeapOnly.refl _, (readResult_done hpos).symm⟩

theorem FileOk.table_of_size {part : Partition} {k : Kern} {inode : Inode} (hf : FileOk part k inode) {p : ℕ}
    (h12 : 12 ≤ p) (hp : p ≤ inode.iSize / 512) : inode.iSectors 12 ≠ 0 := by
  apply hf.blocks.table.mpr
  unfold usedBlocks
  split_ifs with hz
  · have := hf.empty hz
    omega
  · omega

/-- What a read of `count` bytes should return for a file with `size` bytes `contents`. -/
def readSpec (contents : Memory) (size : ℕ) (file : File) (buf : Memory) (count : ℕ) : ℤ × File × Memory :=
  if file.fdPos = size ∧ 0 < count then (-1, file, buf)
  else
    let stop := min (file.fdPos + count) size
    (((stop - file.fdPos : ℕ) : ℤ), { file with fdPos := stop }, blit buf 0 (slice contents file.fdPos) (stop - file.fdPos))

theorem fileRead_runs {part : Partition} {k : Kern} {inode : Inode} (hf : FileOk part k inode) (hd : OnDisk k.disk inode)
    (hk : k.Plenty) (file : File) (buf : Memory) {count : ℕ} (hpos : file.fdPos ≤ inode.iSize)
    (hcount : file.fdPos + count < 2 ^ 32) (hend : min (file.fdPos + count) inode.iSize < 139 * 512) :
    Runs (fileRead file inode buf count) k fun r k' =>
      HeapOnly k k' ∧ r = readSpec (fileByte k.disk inode) inode.iSize file buf count := by
  have hsmall := hf.small
  have hu : u32 (file.fdPos + count) = file.fdPos + count := Nat.mod_eq_of_lt hcount
  obtain ⟨size, hsize⟩ : ∃ size, min (file.fdPos + count) inode.iSize - file.fdPos = size := ⟨_, rfl⟩
  have hmin : min (file.fdPos + count) inode.iSize = file.fdPos + size := by omega
  have hsz : (if file.fdPos + count > inode.iSize then u32 (inode.iSize + 2 ^ 32 - file.fdPos) else count) = size := by
    split_ifs with hc
    · rw [u32, show inode.iSize + 2 ^ 32 - file.fdPos = size + 2 ^ 32 by omega, Nat.add_mod_right,
        Nat.mod_eq_of_lt (by omega)]
    · omega
  have hu' : u32 (file.fdPos + size) = file.fdPos + size := Nat.mod_eq_of_lt (by omega)
  unfold fileRead readSpec
  simp only [hu, hsz, hmin, Nat.add_sub_cancel_left]
  by_cases hstop : file.fdPos = inode.iSize ∧ 0 < count
  · rw [if_pos hstop, if_pos (by omega)]
    exact Runs.pure ⟨HeapOnly.refl _, rfl⟩
  rw [if_neg hstop, if_neg (by omega)]
  refine Runs.bind (sysMalloc_runs _ hk) ?_
  rintro _ k1 ⟨rfl, hk1⟩
  refine Runs.bind (sysMalloc_runs _ (hk1.plenty hk)) ?_
  rintro _ k2 ⟨rfl, hk2⟩
  have hk12 := hk1.trans hk2
  refine Runs.assert (by simp only [hu, hsz, hu']; omega) ?_
  rw [hu']
  refine Runs.bind (readBlocks_runs (by omega) (by omega) fun h12 => ⟨hf.table_of_size h12 (by omega), ?_⟩) ?_
  · exact hd 140 (by omega)
  rintro blocks _ ⟨rfl, hblocks⟩
  rw [hk12.disk] at hblocks
  have hrange : ∀ p, file.fdPos / 512 ≤ p → p ≤ (file.fdPos + size) / 512 → blocks p ≤ maxLba := by
    intro p h1 h2
    rw [hblocks p h1 h2]
    have := hd p (by omega)
    rwa [refAddr, if_neg (by omega)] at this
  refine Runs.bind (@readLoop_runs _ _ _ file.fdPos _ _ _ _ _ (by omega) (by omega) rfl (by omega) hrange) ?_
  rintro _ k3 ⟨hk3, rfl⟩
  refine Runs.bind (sysFree_runs ?_) fun _ k4 hk4 => ?_
  · rw [hk3.pool, hk2.pool]
  refine Runs.bind (sysFree_runs ?_) fun _ k5 hk5 => ?_
  · rw [hk4.pool, hk3.pool, hk2.pool, hk1.pool]
  refine Runs.pure ⟨((hk12.trans hk3).trans hk4).trans hk5, ?_⟩
  have hint : int32 size = (size : ℤ) := if_pos (by omega)
  have hbytes : blit buf 0 (fun i => k2.disk (byteAddr blocks (file.fdPos + 0 + i))) size =
      blit buf 0 (slice (fileByte k.disk inode) file.fdPos) size := by
    apply blit_congr
    intro i hi
    rw [slice, fileByte, hk12.disk, Nat.add_zero, byteAddr, byteAddr, hblocks _ (by omega) (by omega)]
  simp only [readResult, hint, Nat.sub_zero, hbytes]

end ElephantOS
