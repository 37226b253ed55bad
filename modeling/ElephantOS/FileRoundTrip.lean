import ElephantOS.TransferBuffers

namespace ElephantOS

open ByteMemory HaltingState

theorem fileWrites_overrun {K : Kernel} {file file' : File} {inode inode' : Inode} {bufs : List (List UInt8)} {k k' : Kern}
    (h : fileWrites K file inode bufs k = .ok ((bufs.map (fun buf => (buf.length : ℤ)), file', inode'), k')) :
    k'.overrun = false ↔ k.overrun = false ∧ (bufs = [] ∨ InOneSector (K.inodeNo inode.iNo)) := by
  induction bufs generalizing file inode k with
  | nil =>
    simp only [fileWrites, pure_ok] at h
    simp [h.2]
  | cons buf bufs ih =>
    simp only [fileWrites, bind_ok, pure_ok, Prod.mk.injEq, List.map_cons, List.cons.injEq] at h
    obtain ⟨⟨ret, file1, inode1⟩, k1, hw, ⟨rets, file2, inode2⟩, k2, hws, ⟨⟨hret, hrets⟩, rfl, rfl⟩, rfl⟩ := h
    dsimp only at hret hrets hws
    subst hrets
    rcases fileWrite_transfers hw with ⟨-, rfl, -, -⟩ | ⟨-, hfirst, hn⟩
    · omega
    · rw [ih hws, hfirst, hn]
      simp only [reduceCtorEq, false_or]
      tauto

/-- The writes of `bufs`, one after the other, to a new file with inode number `n` return their counts and keep their transfers in their
buffers, and each read that comes after them returns the bytes of the file. -/
def ContentsKept (part : Partition) (k : Kern) (n : ℕ) (inode : Inode) (file : File) (bufs : List (List UInt8)) : Prop :=
  ∃ file' inode' k', fileWrites part.kernel file (inodeInit n inode) bufs k =
      .ok ((bufs.map (fun buf => (buf.length : ℤ)), file', inode'), k') ∧
    k'.overrun = false ∧ inode'.iSize = bufs.flatten.length ∧
    ∀ (pos count : ℕ) (dst : Memory), pos ≤ inode'.iSize → pos + count < 2 ^ 32 →
      min (pos + count) inode'.iSize < 139 * 512 →
      ∃ k'', fileRead { file' with fdPos := pos } inode' dst count k' =
        .ok (readSpec (ofList bufs.flatten) bufs.flatten.length { file' with fdPos := pos } dst count, k'')

theorem ContentsKept.inOneSector {part : Partition} {k : Kern} {n : ℕ} {inode : Inode} {file : File} {bufs : List (List UInt8)}
    (h : ContentsKept part k n inode file bufs) : bufs = [] ∨ InOneSector (n % 256) := by
  obtain ⟨file', inode', k', hw, hover, -⟩ := h
  exact ((fileWrites_overrun hw).mp hover).2

/-- Every sequence of writes to a new file that has the blocks it needs returns its counts, and afterwards each read returns the bytes of
the concatenated buffers, exactly if there is no write or the slot of the inode lies in one sector. -/
theorem file_contents (part : Partition) (k : Kern) (n : ℕ) (inode : Inode) (file : File) (bufs : List (List UInt8))
    (hl : Layout part k.blockBitmap.btmpBytesLen) (ht : TableOnDisk part) (hk : k.Plenty) (hover : k.overrun = false)
    (hroot : k.blockBitmap.scanTest 0 = true) (htotal : bufs.flatten.length < 140 * 512)
    (hfree : bufs ≠ [] → blocksNeeded 0 (bufs.flatten.length / 512 + 1) ≤ (freeBits part k.blockBitmap).card) :
    ContentsKept part k n inode file bufs ↔ bufs = [] ∨ InOneSector (n % 256) := by
  refine ⟨ContentsKept.inOneSector, fun hslot => ?_⟩
  have hready : WriteReady part.kernel k (inodeInit n inode) := by
    refine ⟨hl, ht, hk, hroot, newFile_ok part k n inode, fun p hp => ?_, (Nat.mod_lt _ (by omega)).trans (by omega)⟩
    simp [refAddr, blockAddr, inodeInit]
  have hempty : Contents k.disk (inodeInit n inode) [] := ⟨rfl, fun q hq => by simp at hq⟩
  obtain ⟨⟨rets, file', inode'⟩, k', hws, hrets, hr, hc⟩ := fileWrites_runs hready hempty file bufs htotal hfree
  dsimp only at hrets hr hc
  rw [List.nil_append] at hc
  subst hrets
  refine ⟨file', inode', k', hws, (fileWrites_overrun hws).mpr ⟨hover, hslot⟩, hc.size, fun pos count dst h1 h2 h3 => ?_⟩
  obtain ⟨r, k'', hread, -, rfl⟩ := fileRead_runs hr.file hr.onDisk hr.plenty { file' with fdPos := pos } dst h1 h2 h3
  refine ⟨k'', ?_⟩
  rw [hread, hc.size, readSpec_congr hc.byte]

theorem file_contents_three_bytes : ContentsKept (formattedPartition 63 4709) Kern.mounted 1 Inode.zero ⟨0, 2, none⟩ [[1, 2], [3]] :=
  (file_contents (formattedPartition 63 4709) Kern.mounted 1 Inode.zero ⟨0, 2, none⟩ [[1, 2], [3]] mounted_layout
    ⟨by decide, by decide⟩ (fun _ => rfl) rfl (by decide) (by decide) fun _ => Finset.card_pos.mpr ⟨1, mounted_free⟩).mpr (.inr (by decide))

/-- The slot of inode 6 begins 456 bytes into its sector: the one write reads the second sector past the end of its buffer, and the two
words of the inode that come to lie on the links of the block behind it are zero. -/
theorem file_contents_inode_six : (∃ file' inode' k', fileWrites (formattedPartition 63 4709).kernel ⟨0, 2, none⟩ (inodeInit 6 Inode.zero)
      [[7]] Kern.mounted = .ok (([1], file', inode'), k') ∧ k'.overrun = true ∧ inode'.iSectors 10 = 0 ∧ inode'.iSectors 11 = 0) ∧
    ¬ ContentsKept (formattedPartition 63 4709) Kern.mounted 6 Inode.zero ⟨0, 2, none⟩ [[7]] := by
  have hslot : ¬ ([[7]] = ([] : List (List UInt8)) ∨ InOneSector 6) := by decide
  have hempty : Contents Kern.mounted.disk (inodeInit 6 Inode.zero) [] := ⟨rfl, fun q hq => by simp at hq⟩
  obtain ⟨⟨rets, file', inode'⟩, k', hws, hrets, hr, hc⟩ := fileWrites_runs (mounted_ready 6) hempty ⟨0, 2, none⟩ [[7]] (by decide)
    fun _ => Finset.card_pos.mpr ⟨1, mounted_free⟩
  dsimp only at hrets hr hc
  subst hrets
  have hsize : inode'.iSize = 1 := hc.size
  have hused : usedBlocks inode' ≤ 1 := by
    unfold usedBlocks
    split_ifs <;> omega
  have hunused : ∀ p, 1 ≤ p → p < 12 → inode'.iSectors p = 0 := by
    intro p hp hlt
    by_contra hne
    have hblock := hr.file.blocks.block p (by omega)
    rw [blockAddr, if_pos hlt] at hblock
    have := hblock.mp hne
    omega
  refine ⟨⟨file', inode', k', hws, ?_, hunused 10 (by omega) (by omega), hunused 11 (by omega) (by omega)⟩, fun h => hslot h.inOneSector⟩
  rw [← Bool.not_eq_false, fileWrites_overrun hws]
  exact fun h => hslot h.2

end ElephantOS
