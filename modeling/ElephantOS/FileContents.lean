import ElephantOS.FileRead
import ElephantOS.PartitionFormat

namespace ElephantOS

open ByteMemory HaltingState

/-- Calls of `file_write`, one buffer after the other, with what they return. -/
def fileWrites (K : Kernel) : File → Inode → List (List UInt8) → KernM (List ℤ × File × Inode)
  | file, inode, [] => return ([], file, inode)
  | file, inode, buf :: bufs => do
    let (ret, file, inode) ← fileWrite K file inode (ofList buf) buf.length
    let (rets, file, inode) ← fileWrites K file inode bufs
    return (ret :: rets, file, inode)

theorem blocksNeeded_add {a b c : ℕ} (hab : a ≤ b) (hbc : b ≤ c) :
    blocksNeeded a b + blocksNeeded b c = blocksNeeded a c := by
  unfold blocksNeeded
  split_ifs <;> omega

structure Contents (d : Memory) (inode : Inode) (bytes : List UInt8) : Prop where
  size : inode.iSize = bytes.length
  byte : ∀ q < bytes.length, fileByte d inode q = ofList bytes q

theorem ofList_append_left {l l' : List UInt8} {q : ℕ} (hq : q < l.length) : ofList (l ++ l') q = ofList l q := by
  simp only [ofList, List.getD_eq_getElem?_getD, List.getElem?_append_left hq]

theorem ofList_append_right {l l' : List UInt8} {q : ℕ} (hq : l.length ≤ q) :
    ofList (l ++ l') q = ofList l' (q - l.length) := by
  simp only [ofList, List.getD_eq_getElem?_getD, List.getElem?_append_right hq]

theorem Written.ready {K : Kernel} {buf : Memory} {count : ℕ} {k k' : Kern} {inode inode' : Inode}
    (h : Written K buf count k inode k' inode') (hr : WriteReady K k inode) (hd : OnDisk k'.disk inode') :
    WriteReady K k' inode' where
  layout := by rw [h.grown.len]; exact hr.layout
  table := hr.table
  plenty := h.steady.plenty hr.plenty
  root := (h.grown.bits 0).mpr (.inl hr.root)
  file := h.file
  onDisk := hd
  number := by rw [h.fields]; exact h.number

theorem Written.contents {K : Kernel} {buf bytes : List UInt8} {k k' : Kern} {inode inode' : Inode}
    (h : Written K (ofList buf) buf.length k inode k' inode') (hc : Contents k.disk inode bytes) :
    Contents k'.disk inode' (bytes ++ buf) where
  size := by rw [h.fields, List.length_append, ← hc.size]
  byte q hq := by
    rw [List.length_append] at hq
    by_cases hlt : q < bytes.length
    · rw [h.old q (by rw [hc.size]; exact hlt), hc.byte q hlt, ofList_append_left hlt]
    · rw [h.new q (by rw [hc.size]; omega) (by rw [hc.size]; omega), hc.size, ofList_append_right (by omega)]

theorem fileWrites_runs {K : Kernel} {k : Kern} {inode : Inode} {bytes : List UInt8} (hr : WriteReady K k inode)
    (hc : Contents k.disk inode bytes) (file : File) (bufs : List (List UInt8))
    (htotal : (bytes ++ bufs.flatten).length < 140 * 512)
    (hfree : bufs ≠ [] → blocksNeeded (usedBlocks inode) ((bytes ++ bufs.flatten).length / 512 + 1) ≤
      (freeBits K.toPartition k.blockBitmap).card) :
    Runs (fileWrites K file inode bufs) k fun r k' => r.1 = bufs.map (fun buf => (buf.length : ℤ)) ∧
      WriteReady K k' r.2.2 ∧ Contents k'.disk r.2.2 (bytes ++ bufs.flatten) := by
  induction bufs generalizing k inode bytes file with
  | nil => exact Runs.pure ⟨rfl, hr, by simpa using hc⟩
  | cons buf bufs ih =>
    simp only [List.flatten_cons, List.length_append] at htotal hfree
    have hfree := hfree (List.cons_ne_nil _ _)
    have hmid : inode.iSize + buf.length = (bytes ++ buf).length := by rw [hc.size, List.length_append]
    have hused : usedBlocks inode ≤ (inode.iSize + buf.length) / 512 + 1 := by
      unfold usedBlocks
      split_ifs <;> omega
    have hadd := blocksNeeded_add hused
      (show (inode.iSize + buf.length) / 512 + 1 ≤ (bytes.length + (buf.length + bufs.flatten.length)) / 512 + 1 by
        rw [hc.size]; omega)
    obtain ⟨⟨ret, file1, inode1⟩, k1, hw, hret, hd1, hcard⟩ := fileWrite_runs hr file (ofList buf)
      (show inode.iSize + buf.length < 140 * 512 by rw [hc.size]; omega) (by omega)
    dsimp only at hret hd1
    have hint : int32 buf.length = (buf.length : ℤ) := if_pos (by omega)
    rw [hint] at hret
    obtain ⟨hneg, -⟩ | ⟨-, -, hwritten⟩ := fileWrite_ok hr.layout hr.file (by rw [hc.size]; omega) hw
    · omega
    have hc1 := hwritten.contents hc
    have hused1 : usedBlocks inode1 = (inode.iSize + buf.length) / 512 + 1 := by
      rw [usedBlocks, if_neg hwritten.first, hc1.size, ← hmid]
    refine Runs.step hw ?_
    obtain ⟨⟨rets, file2, inode2⟩, k2, hws, h1, h2, h3⟩ := ih (hwritten.ready hr hd1) hc1 file1
      (by simp only [List.length_append]; omega) (fun _ => by
        rw [hused1]
        simp only [List.length_append] at hadd ⊢
        rw [Nat.add_assoc]
        omega)
    refine Runs.step hws (Runs.pure ⟨?_, h2, ?_⟩)
    · dsimp only at h1 ⊢
      rw [h1, hret, List.map_cons]
    · rw [List.flatten_cons, ← List.append_assoc]
      exact h3

theorem newFile_ok (part : Partition) (k : Kern) (n : ℕ) (inode : Inode) : FileOk part k (inodeInit n inode) := by
  have hz : ∀ p, refAddr k.disk (inodeInit n inode) p = 0 := by
    intro p
    simp [refAddr, blockAddr, inodeInit]
  refine ⟨⟨fun p _ h => absurd (hz p) h, fun p _ _ _ h => absurd (hz p) h⟩, ⟨fun p hp => ?_, ?_⟩, fun _ => rfl, by simp [inodeInit]⟩
  · have h0 := hz p
    rw [refAddr, if_neg (by omega)] at h0
    rw [h0]
    simp [usedBlocks, inodeInit]
  · simp [usedBlocks, inodeInit]

theorem readSpec_congr {c c' : Memory} {size : ℕ} (h : ∀ q < size, c q = c' q) (file : File) (buf : Memory) (count : ℕ) :
    readSpec c size file buf count = readSpec c' size file buf count := by
  have hb : blit buf 0 (slice c file.fdPos) (min (file.fdPos + count) size - file.fdPos) =
      blit buf 0 (slice c' file.fdPos) (min (file.fdPos + count) size - file.fdPos) :=
    blit_congr fun i hi => h _ (by omega)
  simp only [readSpec, hb]

/-- A mounted partition with one sector of block bitmap and only the root directory's block in use. -/
def Kern.mounted : Kern := { Kern.blank with blockBitmap := ⟨512, Function.update zeros 0 1⟩ }

theorem mounted_layout : Layout (formattedPartition 63 4709) 512 :=
  ⟨rfl, by decide, by decide, by decide, by decide⟩

theorem mounted_free : 1 ∈ freeBits (formattedPartition 63 4709) Kern.mounted.blockBitmap :=
  mem_freeBits.mpr ⟨by decide, by decide, by decide⟩

end ElephantOS
