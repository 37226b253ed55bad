import ElephantOS.InodeCache
import ElephantOS.PartitionFormat

namespace ElephantOS

open ByteMemory HaltingState

structure Fs.Ready (s : Fs) : Prop where
  plenty : s.kern.Plenty
  canPush : s.CanPush
  fresh : ⟨s.kern.heap.next, .kernel⟩ ∉ s.openInodes

/-- Writing `inode` and opening its number gives the inode back, stays inside the buffer and touches no other slot. -/
def StoreRoundTrip (K : Kernel) (s : Fs) (inode : Inode) (ioBuf : Buffer) : Prop :=
  ∃ s1 p s2, liftKern (inodeSync K inode ioBuf) s = .ok ((), s1) ∧ s1.kern.overrun = s.kern.overrun ∧
    inodeOpen K inode.iNo s1 = .ok (p, s2) ∧
    (s2.inodes p).SameStored inode ∧ (s2.inodes p).iOpenCnts = 1 ∧ (s2.inodes p).writeDeny = false ∧
    ∀ m < 4096, m ≠ inode.iNo → SameOn s.kern.disk s1.kern.disk (inodeAddr K.toPartition m) inodeSize

/-- The disk holds this inode in its own slot and its cleared copy in slot `iNo % 256`. -/
def StoredTwice (part : Partition) (d : Memory) (inode : Inode) : Prop :=
  (Inode.load d (inodeAddr part inode.iNo)).SameStored inode ∧
    (Inode.load d (inodeAddr part inode.iNo)).writeDeny = false ∧
    ∀ i < inodeSize, d (inodeAddr part (inode.iNo % 256) + i) = wordBytes inode.pureWords i

theorem HeapOnly.ready {s : Fs} {k : Kern} {d : Memory} (h : HeapOnly { s.kern with disk := d } k)
    (hs : s.Ready) (hids : ∀ p ∈ s.openInodes, p.id < s.kern.heap.next) : Fs.Ready { s with kern := k } where
  plenty := h.plenty (k := { s.kern with disk := d }) hs.plenty
  canPush := hs.canPush
  fresh hmem := by
    have hlt := hids _ hmem
    have hle : s.kern.heap.next ≤ k.heap.next := h.next
    simp only at hlt
    omega

theorem inodeSync_open {K : Kernel} (hp : TableOnDisk K.toPartition) {s : Fs} {inode : Inode} {ioBuf : Buffer}
    (hlen : 1024 ≤ ioBuf.len) (hn : inode.iNo < 4096) (hw : K.inodeNo inode.iNo < 4096) (hc : cached s inode.iNo = none)
    (hs : s.Ready) (hids : ∀ p ∈ s.openInodes, p.id < s.kern.heap.next) :
    ∃ s1 p s2, liftKern (inodeSync K inode ioBuf) s = .ok ((), s1) ∧ s1.kern.overrun = s.kern.overrun ∧
      inodeOpen K inode.iNo s1 = .ok (p, s2) ∧ s1.kern.disk = blit s.kern.disk (inodeAddr K.toPartition (K.inodeNo inode.iNo))
        (wordBytes inode.pureWords) inodeSize ∧
      s2.inodes p = openedInode K.toPartition s1.kern.disk inode.iNo := by
  obtain ⟨_, k1, hsync, hk1⟩ := inodeSync_runs hp hw ioBuf s.kern
  obtain ⟨p, s2, hopen, -⟩ := inodeOpen_runs hp hn (hk1.ready hs hids).plenty (hk1.ready hs hids).canPush
    (hk1.ready hs hids).fresh
  obtain ⟨-, -, -, -, he⟩ := inodeOpen_miss (s := { s with kern := k1 }) hc hopen
  have hfits : k1.overrun = s.kern.overrun := by
    rw [inodeSync_overrun hsync, Bool.or_eq_left_iff_imp, decide_eq_true_eq]
    intro hshort
    split_ifs at hshort <;> omega
  refine ⟨_, p, s2, liftKern_eq hsync, hfits, hopen, hk1.disk, ?_⟩
  rw [he]
  exact Function.update_self _ _ _

/-- `inode_sync` and `inode_open` agree on the slot of an inode exactly when its number survives
the cast to `uint8_t`, or when the disk already holds what should be written. -/
theorem storeRoundTrip_iff (part : Partition) (hp : TableOnDisk part) (s : Fs) (inode : Inode) (ioBuf : Buffer)
    (hlen : 1024 ≤ ioBuf.len) (hn : inode.iNo < 4096) (hf : inode.Fits) (hc : cached s inode.iNo = none)
    (hs : s.Ready) (hids : ∀ p ∈ s.openInodes, p.id < s.kern.heap.next) :
    StoreRoundTrip part.kernel s inode ioBuf ↔ inode.iNo < 256 ∨ StoredTwice part s.kern.disk inode := by
  have hw : part.kernel.inodeNo inode.iNo < 4096 := (Nat.mod_lt _ (by omega)).trans (by omega)
  obtain ⟨s1, p, s2, hsync, hfits, hopen, hdisk, hinode⟩ := inodeSync_open (K := part.kernel) hp hlen hn hw hc hs hids
  change s1.kern.disk = blit s.kern.disk (inodeAddr part (inode.iNo % 256)) _ _ at hdisk
  change s2.inodes p = openedInode part s1.kern.disk inode.iNo at hinode
  constructor
  · rintro ⟨_, _, _, hsync', -, hopen', hstored, -, hdeny, hframe⟩
    obtain ⟨-, rfl⟩ := ok_inj hsync hsync'
    obtain ⟨rfl, rfl⟩ := ok_inj hopen hopen'
    by_cases hlt : inode.iNo < 256
    · exact .inl hlt
    right
    have hne : inode.iNo % 256 ≠ inode.iNo := by omega
    have hslot : Inode.load s1.kern.disk (inodeAddr part inode.iNo) = Inode.load s.kern.disk (inodeAddr part inode.iNo) := by
      apply Inode.load_congr
      rw [hdisk]
      exact blit_sameOn _ _ (inodeAddr_disjoint part hne.symm)
    rw [hinode] at hstored hdeny
    refine ⟨?_, ?_, fun i hi => ?_⟩
    · rw [← hslot]
      exact ⟨hstored.iNo, hstored.iSize, hstored.iSectors⟩
    · rw [← hslot]
      exact hdeny
    · have hsame : SameOn s.kern.disk s1.kern.disk (inodeAddr part (inode.iNo % 256)) inodeSize :=
        hframe (inode.iNo % 256) hw hne
      rw [← hsame i hi, hdisk]
      exact blit_inside _ _ hi
  · intro hcase
    have hslot : (Inode.load s1.kern.disk (inodeAddr part inode.iNo)).SameStored inode ∧
        (Inode.load s1.kern.disk (inodeAddr part inode.iNo)).writeDeny = false := by
      by_cases he : inode.iNo % 256 = inode.iNo
      · rw [he] at hdisk
        apply Inode.load_pureWords hf
        intro i hi
        rw [hdisk]
        exact blit_inside _ _ hi
      · obtain ⟨h1, h2, -⟩ := hcase.resolve_left (by omega)
        have : Inode.load s1.kern.disk (inodeAddr part inode.iNo) = Inode.load s.kern.disk (inodeAddr part inode.iNo) := by
          apply Inode.load_congr
          rw [hdisk]
          exact blit_sameOn _ _ (inodeAddr_disjoint part (Ne.symm he))
        rw [this]
        exact ⟨h1, h2⟩
    refine ⟨s1, p, s2, hsync, hfits, hopen, ?_, ?_, ?_, ?_⟩
    · rw [hinode]
      exact ⟨hslot.1.iNo, hslot.1.iSize, hslot.1.iSectors⟩
    · rw [hinode]; rfl
    · rw [hinode]; exact hslot.2
    · intro m hm hne i hi
      change s1.kern.disk (inodeAddr part m + i) = _
      rw [hdisk]
      by_cases hslotm : m = inode.iNo % 256
      · obtain ⟨-, -, h3⟩ := hcase.resolve_left (by omega)
        change blit _ _ _ _ (inodeAddr part m + i) = s.kern.disk (inodeAddr part m + i)
        rw [hslotm, blit_inside _ _ hi, h3 i hi]
      · exact blit_sameOn _ _ (inodeAddr_disjoint part hslotm) i hi

theorem storeRoundTrip_255 : StoreRoundTrip (formattedPartition 63 4709).kernel Fs.blank
    { Inode.zero with iNo := 255 } ⟨⟨0, .kernel⟩, 1024, zeros⟩ := by
  refine (storeRoundTrip_iff (formattedPartition 63 4709) ⟨by decide, by decide⟩ Fs.blank _ _ (by decide) (by decide)
    ⟨by decide, by decide, fun _ _ => Nat.two_pow_pos 32⟩ rfl ⟨fun _ => rfl, ?_, ?_⟩ ?_).mpr (.inl (by decide))
  · intro q hq
    exact absurd hq (by simp [Fs.blank])
  · exact List.not_mem_nil
  · intro p hp
    exact absurd hp List.not_mem_nil

/-- Inode 256 is written over inode 0. -/
theorem storeRoundTrip_256 : ¬ StoreRoundTrip (formattedPartition 63 4709).kernel Fs.blank
    { Inode.zero with iNo := 256 } ⟨⟨0, .kernel⟩, 1024, zeros⟩ := by
  rintro ⟨s1, p, s2, hsync, -, -, -, -, -, hframe⟩
  obtain ⟨k1, hk1, rfl⟩ := (liftKern_ok _ _ _ _).mp hsync
  obtain ⟨-, hk1⟩ := inodeSync_ok hk1
  have hd := hk1.disk
  have h0 := hframe 0 (by decide) (by decide) 1 (by decide)
  dsimp only at hd h0
  rw [hd] at h0
  have hin := @blit_inside Fs.blank.kern.disk (wordBytes ({ Inode.zero with iNo := 256 } : Inode).pureWords)
    (inodeAddr (formattedPartition 63 4709) 0) _ _ (show 1 < inodeSize by decide)
  have h1 : wordBytes ({ Inode.zero with iNo := 256 } : Inode).pureWords 1 = 1 := by decide
  rw [h1] at hin
  have hz : Fs.blank.kern.disk (inodeAddr (formattedPartition 63 4709) 0 + 1) = 0 := rfl
  exact absurd ((hin.symm.trans h0).trans hz) (by decide)

end ElephantOS
