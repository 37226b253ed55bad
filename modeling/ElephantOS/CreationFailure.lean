import ElephantOS.CreationCalls
import ElephantOS.DirectoryVisits
import ElephantOS.DirectoryAdd

namespace ElephantOS

open ByteMemory HaltingState

def InData (part : Partition) (d : Memory) (inode : Inode) : Prop :=
  ∀ p < 141, refAddr d inode p ≠ 0 → part.sb.dataStartLba ≤ refAddr d inode p

section

variable {part : Partition} {len : ℕ} {d d' : Memory} {inode inode' : Inode}

theorem InData.congr (h : InData part d inode) (hs : inode.SameStored inode') : InData part d inode' := by
  intro p hp hne
  have he : refAddr d inode' p = refAddr d inode p := by
    refine refAddr_congr (fun i hi => (hs.iSectors i hi).symm) (fun _ => ?_) hp
    exact fun _ _ => rfl
  rw [he] at hne ⊢
  exact h p hp hne

theorem InData.slotMap (h : InData part d inode) (hl : Layout part len) (hoff : SameOff (blockBitmapArea part len) d d')
    (pos : ℕ × ℕ) : slotMap d' inode pos = slotMap d inode pos := by
  have hsame : ∀ lba, part.sb.dataStartLba ≤ lba → ∀ a, lba * 512 ≤ a → d' a = d a := by
    intro lba hlba a ha
    exact hoff a (hl.data_off ((Nat.mul_le_mul_right 512 hlba).trans ha))
  by_cases hpos : pos.1 < 140
  · refine slotMap_congr (blockAddr_congr (fun _ _ => rfl) (fun ht i _ => ?_) hpos) fun hslot i _ => ?_
    · have htable := h 140 (by omega)
      rw [refAddr_table] at htable
      exact hsame _ (htable ht) _ (Nat.le_add_right _ _)
    · have hblock := h pos.1 (by omega)
      rw [refAddr_block _ _ hpos] at hblock
      refine hsame _ (hblock hslot.2.2) _ ?_
      unfold slotAddr
      omega
  · have hnone : ∀ m, ElephantOS.slotMap m inode pos = none := fun m => slotMap_eq_none.mpr fun hslot => absurd hslot.1 hpos
    rw [hnone, hnone]

theorem slotMap_noTable (h : inode.iSectors 12 = 0) {pos : ℕ × ℕ} (hpos : 12 ≤ pos.1) : slotMap d inode pos = none := by
  apply slotMap_eq_none.mpr
  intro hslot
  have hb := hslot.2.2
  unfold blockAddr at hb
  rw [if_neg (by omega), if_pos h] at hb
  exact absurd rfl hb

end

section

variable {K : Kernel} {alloc : KernM (Option ℕ)} {inode inode' : Inode} {k k' : Kern}

theorem Refused.kern (h : Refused K alloc inode k inode' k') :
    ∃ d, SameOff (blockBitmapArea K.toPartition k.blockBitmap.btmpBytesLen) k.disk d ∧ k' = { k with disk := d } := by
  cases h with
  | first _ => exact ⟨k.disk, SameOff.refl _ _, rfl⟩
  | second lba k1 d _ hoff => exact ⟨d, hoff, rfl⟩

theorem Refused.sameRef (h : Refused K alloc inode k inode' k') : inode.SameRef inode' := by
  cases h with
  | first _ => exact Inode.SameRef.refl _
  | second lba k1 d _ _ => exact (Inode.SameRef.setSector _ _ _).trans (Inode.SameRef.setSector _ _ _)

theorem Refused.sameDirectory (h : Refused K alloc inode k inode' k') (hl : Layout K.toPartition k.blockBitmap.btmpBytesLen)
    (hin : InData K.toPartition k.disk inode)
    (hkeeps : (∃ lba k1, alloc k = .ok (some lba, k1)) → ∀ pos, 12 ≤ pos.1 → slotMap k.disk inode pos = none) :
    SameDirectory k.disk inode k'.disk inode' := by
  cases h with
  | first _ => exact ⟨rfl, fun _ => rfl⟩
  | second lba k1 d halloc hoff =>
    refine ⟨rfl, fun pos => ?_⟩
    by_cases hpos : 12 ≤ pos.1
    · rw [hkeeps ⟨lba, k1, halloc⟩ pos hpos]
      exact slotMap_noTable (by simp [Inode.setSector]) hpos
    · rw [← hin.slotMap hl hoff]
      refine slotMap_congr ?_ fun _ _ _ => rfl
      unfold blockAddr
      rw [if_pos (by omega), if_pos (by omega)]
      simp [Inode.setSector, Function.update_of_ne (show pos.1 ≠ 12 by omega)]

end

/-- A state between two calls: the counts of the cached inodes tell their holders, and no block of a file reaches into the bitmaps. -/
structure Fs.Consistent (K : Kernel) (held : Multiset Ptr) (s : Fs) : Prop where
  refs : Refs held s
  root : s.rootDir ∈ held
  fresh : s.kern.heap.Fresh
  layout : Layout K.toPartition s.kern.blockBitmap.btmpBytesLen
  cached : ∀ p ∈ s.openInodes, InData K.toPartition s.kern.disk (s.inodes p)
  stored : ∀ n < 4096, s.kern.inodeBitmap.scanTest n = true →
    InData K.toPartition s.kern.disk (Inode.load s.kern.disk (inodeAddr K.toPartition n))

/-- The bitmaps, the directories, the file table, the cache of inodes and the heap are as they were. -/
structure NoTrace (K : Kernel) (s s' : Fs) : Prop where
  blockBitmap : s'.kern.blockBitmap = s.kern.blockBitmap
  inodeBitmap : s'.kern.inodeBitmap = s.kern.inodeBitmap
  directories : Unmoved K s s'
  fileTable : s'.fileTable = s.fileTable
  openInodes : ∀ p, p ∈ s'.openInodes ↔ p ∈ s.openInodes
  heap : s'.kern.heap.live = s.kern.heap.live

section

variable (inodeAlloc blockAlloc : KernM (Option ℕ)) (K : Kernel)

def LosesTable (before : Fs) (p : Ptr) (k : Kern) : Prop := p ∈ before.openInodes ∧ (∃ lba k', blockAlloc k = .ok (some lba, k')) ∧
  ∃ pos, 12 ≤ pos.1 ∧ slotMap before.kern.disk (before.inodes p) pos ≠ none

def InstallLeaves (task : ℕ) (before : Fs) (parentDir : Dir) (filename : Name) (inodeNo : ℕ) (ioBuf : Buffer) (k : Kern) (s : Fs) : Prop :=
  match getFreeSlotInGlobal s with
  | some fdIdx =>
    match syncDirEntryBy blockAlloc K (s.inodes (parentDir.inode s)) ⟨nameBytes filename, inodeNo, .regular⟩ ioBuf k with
    | .ok ((true, _), _) => ∀ j, ¬ FreeFd s task j
    | .ok ((false, _), _) => s.fileTable fdIdx ≠ ⟨0, 0, none⟩ ∨ LosesTable blockAlloc before (parentDir.inode s) k
    | .error _ => False
  | none => False

def CreateLeaves (task : ℕ) (before : Fs) (parentDir : Dir) (filename : Name) (s : Fs) : Prop :=
  match sysMalloc 1024 s.kern with
  | .ok (some ioBuf, k1) =>
    match inodeAlloc k1 with
    | .ok (none, _) => True
    | .ok (some inodeNo, k2) =>
      match sysMalloc inodeSize k2 with
      | .ok (some _, k3) => InstallLeaves blockAlloc K task before parentDir filename inodeNo ioBuf k3 s
      | _ => False
    | .error _ => False
  | _ => False

/-- `sys_open` comes to `file_create`, and that leaves something behind. -/
def OpenLeaves (task : ℕ) (junk : Junk) (pathname : Path) (s : Fs) : Prop :=
  pathname.getLast? ≠ some slash ∧ ∃ record s1 depth filename, searchFile K junk pathname s = .ok ((none, record), s1) ∧
    record.fileType ≠ .directory ∧ pathDepthCnt junk pathname s = .ok (depth, s) ∧
    pathDepthCnt junk record.searchedPath s1 = .ok (depth, s1) ∧ lastName pathname = some filename ∧
    CreateLeaves inodeAlloc blockAlloc K task s record.parentDir filename s1

/-- `sys_mkdir` gets an inode and a block for the new directory, and no place for its entry. -/
def MkdirLeaves (junk : Junk) (pathname : Path) (s : Fs) : Prop :=
  ∃ ioBuf k0 record s1 depth inodeNo k1 blockLba k2 dirname s2, sysMalloc 1024 s.kern = .ok (some ioBuf, k0) ∧
    searchFile K junk pathname { s with kern := k0 } = .ok ((none, record), s1) ∧
    pathDepthCnt junk pathname s1 = .ok (depth, s1) ∧ pathDepthCnt junk record.searchedPath s1 = .ok (depth, s1) ∧
    inodeAlloc s1.kern = .ok (some inodeNo, k1) ∧ blockAlloc k1 = .ok (some blockLba, k2) ∧
    lastName record.searchedPath = some dirname ∧
    makeDirBy blockAlloc K record.parentDir dirname inodeNo blockLba ioBuf { s1 with kern := k2 } = .ok (false, s2)

end

section

variable {K : Kernel} {held : Multiset Ptr} {before s s' : Fs} {d : Dir} {u : Unit}

theorem Visiting.noTrace (h : Visiting held before (Unmoved K before) .root s) : NoTrace K before s where
  blockBitmap := h.blockBitmap
  inodeBitmap := h.inodeBitmap
  directories := h.dirs
  fileTable := h.fileTable
  openInodes := by
    intro p
    rw [h.openInodes]
    rfl
  heap := h.live

theorem NoTrace.no_block (hc : before.Consistent K held) {b : Ptr × ℕ} (hb : b ∈ s.kern.heap.live) (hnew : before.kern.heap.next ≤ b.1.id)
    (hd : ∀ ptr p, d = .heap ptr p → b.1 ≠ ptr ∧ b.1 ≠ p) (hs : dirClose d s = .ok (u, s')) : ¬ NoTrace K before s' := by
  intro h
  have hmem := (dirClose_effect hs).2.2.2 b hb hd
  rw [h.heap] at hmem
  have := hc.fresh b hmem
  omega

theorem NoTrace.no_file (j : ℕ) (hj : s.fileTable j ≠ before.fileTable j) (hs : dirClose d s = .ok (u, s')) : ¬ NoTrace K before s' := by
  intro h
  apply hj
  rw [← h.fileTable, (dirClose_effect hs).2.1]

theorem NoTrace.no_table {p : Ptr} (hp : p ∈ before.openInodes) {pos : ℕ × ℕ} (hpos : 12 ≤ pos.1)
    (hlive : slotMap before.kern.disk (before.inodes p) pos ≠ none) (hz : (s.inodes p).iSectors 12 = 0)
    (hs : dirClose d s = .ok (u, s')) : ¬ NoTrace K before s' := by
  intro h
  apply hlive
  have hz' : (s'.inodes p).iSectors 12 = 0 := by
    rw [← ((dirClose_effect hs).2.2.1 p).iSectors 12 (by omega)]
    exact hz
  rw [← (h.directories.cached p hp).entries pos]
  exact slotMap_noTable hz' hpos

end

structure InodeTaken (k : Kern) (inodeNo : ℕ) (io : Ptr) (more : List (Ptr × ℕ)) (k' : Kern) : Prop where
  free : k.inodeBitmap.scanTest inodeNo = false
  inodeBitmap : k'.inodeBitmap = k.inodeBitmap.set inodeNo true
  blockBitmap : k'.blockBitmap = k.blockBitmap
  live : k'.heap.live = more ++ (io, 1024) :: k.heap.live
  buffer : io.id = k.heap.next
  next : k.heap.next < k'.heap.next

section

variable {k k' k1 k2 : Kern} {inodeNo : ℕ} {io new : Ptr} {u : Unit}

theorem InodeTaken.freed (h : InodeTaken k inodeNo io [(new, inodeSize)] k') (hfresh : k.heap.Fresh) (hnew : k.heap.next < new.id)
    (hs : sysFree new k' = .ok (u, k1)) : InodeTaken k inodeNo io [] k1 ∧ k1.disk = k'.disk := by
  obtain ⟨hk, hl⟩ := sysFree_filter hs
  have holder : ∀ b ∈ (io, 1024) :: k.heap.live, b.1.id < new.id := by
    intro b hb
    have hio := h.buffer
    rcases List.mem_cons.mp hb with rfl | hb
    · dsimp only
      omega
    · have := hfresh b hb
      omega
  refine ⟨⟨h.free, hk.inodeBitmap.trans h.inodeBitmap, hk.blockBitmap.trans h.blockBitmap, ?_, h.buffer, h.next.trans_le hk.next⟩, hk.disk⟩
  rw [hl, h.live]
  exact filter_newest holder (le_refl _)

theorem InodeTaken.undone (h : InodeTaken k inodeNo io [] k') (hfresh : k.heap.Fresh) (hset : inodeBitmapSet inodeNo false k' = .ok (u, k1))
    (hs : sysFree io k1 = .ok (u, k2)) : Undone k k2 ∧ k2.disk = k'.disk := by
  obtain rfl := (modify_ok _ _ _ _).mp hset
  obtain ⟨hk, hl⟩ := sysFree_filter hs
  refine ⟨⟨hk.blockBitmap.trans h.blockBitmap, ?_, ?_, h.next.le.trans hk.next⟩, hk.disk⟩
  · rw [hk.inodeBitmap]
    change k'.inodeBitmap.set inodeNo false = _
    rw [h.inodeBitmap]
    exact Bitmap.set_back h.free
  · rw [hl]
    change k'.heap.live.filter _ = _
    rw [h.live]
    exact filter_newest hfresh h.buffer.ge

end

section

variable {inodeAlloc blockAlloc : KernM (Option ℕ)} {K : Kernel} {held : Multiset Ptr} {before s s1 s2 : Fs} {d : Dir}

theorem Visiting.inode_open (h : Visiting held before (Unwritten before) d s) (hc : before.Consistent K held) :
    d.inode s ∈ s.openInodes := by
  apply (h.refs.mem _).mp
  cases d with
  | root =>
    have hroot : (Dir.root.inode s) = before.rootDir := h.rootDir
    rw [hroot, dirRefs, zero_add]
    exact hc.root
  | heap ptr p => exact Multiset.mem_add.mpr (.inl (Multiset.mem_singleton_self p))

theorem Unwritten.moved (h : Unwritten before s) (hc : before.Consistent K held) {p : Ptr}
    (hoff : SameOff (blockBitmapArea K.toPartition before.kern.blockBitmap.btmpBytesLen) s.kern.disk s1.kern.disk)
    (hrest : ∀ q ∈ before.openInodes, q ≠ p → s1.inodes q = s.inodes q)
    (hp : p ∈ before.openInodes → SameDirectory s.kern.disk (s.inodes p) s1.kern.disk (s1.inodes p)) : Unmoved K before s1 := by
  refine ⟨fun q hq => ?_, fun n hn hused => ?_⟩
  · have hsame := SameDirectory.of_stored before.kern.disk (h.inodes q hq)
    by_cases he : q = p
    · subst he
      have hdir := hp hq
      rw [h.disk] at hdir
      exact hsame.trans hdir
    · rw [hrest q hq he]
      refine hsame.trans ⟨rfl, ((hc.cached q hq).congr (h.inodes q hq)).slotMap hc.layout ?_⟩
      rwa [h.disk] at hoff
  · rw [h.disk] at hoff
    have hload : Inode.load s1.kern.disk (inodeAddr K.toPartition n) = Inode.load before.kern.disk (inodeAddr K.toPartition n) := by
      apply Inode.load_congr
      intro i hi
      apply hoff
      rintro ⟨-, hlt⟩
      have h1 := hc.layout.blockBitmap
      have h2 := Nat.mul_le_mul_right 512 hc.layout.inodeBitmap
      unfold inodeAddr at hlt
      omega
    rw [hload]
    exact ⟨rfl, (hc.stored n hn hused).slotMap hc.layout hoff⟩

theorem Visiting.ended (h : Visiting held before (Unmoved K before) d s) (hc : before.Consistent K held) {u : Unit}
    (hs : dirClose d s = .ok (u, s1)) : NoTrace K before s1 :=
  (h.close hc.refs hc.fresh (Unmoved.lasting K before) hs).noTrace

theorem Visiting.older {D : Fs → Prop} (h : Visiting held before D d s) {ptr p : Ptr} (hd : d = .heap ptr p) :
    ptr.id < s.kern.heap.next ∧ p.id < s.kern.heap.next := by
  subst hd
  constructor
  · refine h.fresh (ptr, dirSize) ?_
    rw [h.live]
    exact List.mem_append_left _ (List.mem_append_right _ (List.mem_singleton_self _))
  · exact h.refs.fresh p ((h.refs.mem p).mp (Multiset.mem_add.mpr (.inl (Multiset.mem_singleton_self p))))

theorem storeNewFile_tables {p : Ptr} {n : ℕ} {io : Buffer} {u : Unit} (hs : storeNewFile K d p n io s = .ok (u, s1)) :
    s1.fileTable = s.fileTable ∧ s1.fdTable = s.fdTable := by
  unfold storeNewFile at hs
  simp only [bind_ok, get_ok, liftKern_ok, modify_ok] at hs
  obtain ⟨_, _, ⟨rfl, rfl⟩, _, _, ⟨k1, -, rfl⟩, _, _, ⟨k2, -, rfl⟩, _, _, ⟨k3, -, rfl⟩, _, s4, hpush, _, _, rfl, k5, -, rfl⟩ := hs
  obtain rfl := listPush_ok hpush
  exact ⟨rfl, rfl⟩

theorem Refused.trace (hc : before.Consistent K held) (h : Visiting held before (Unwritten before) d s) {k k' k1 : Kern} {inode : Inode}
    (href : Refused K blockAlloc (s.inodes (d.inode s)) k inode k') (hdisk : k.disk = s.kern.disk)
    (hblocks : k.blockBitmap = s.kern.blockBitmap) (hundone : Undone s.kern k1) (hdisk1 : k1.disk = k'.disk) {inodes : Ptr → Inode}
    (hparent : inodes (d.inode s) = inode) (hrest : ∀ q ∈ s.openInodes, q ≠ d.inode s → inodes q = s.inodes q) {fdIdx : ℕ} {u : Unit}
    (hclose : dirClose d { s with
      kern := k1
      fileTable := Function.update s.fileTable fdIdx ⟨0, 0, none⟩
      inodes := inodes } = .ok (u, s2)) :
    NoTrace K before s2 ↔ ¬ (s.fileTable fdIdx ≠ ⟨0, 0, none⟩ ∨ LosesTable blockAlloc before (d.inode s) k) := by
  have hlen : k.blockBitmap.btmpBytesLen = before.kern.blockBitmap.btmpBytesLen := by rw [hblocks, h.blockBitmap]
  have hbefore : ∀ q ∈ before.openInodes, q ∈ s.openInodes := by
    intro q hq
    rw [h.openInodes]
    exact List.mem_append_right _ hq
  by_cases hslot : s.fileTable fdIdx = ⟨0, 0, none⟩
  · by_cases hlose : LosesTable blockAlloc before (d.inode s) k
    · obtain ⟨hp, ⟨lba, k2, halloc⟩, pos, hpos, hlive⟩ := hlose
      refine iff_of_false (NoTrace.no_table hp hpos hlive ?_ hclose) (not_not.mpr (.inr ⟨hp, ⟨lba, k2, halloc⟩, pos, hpos, hlive⟩))
      change (inodes (d.inode s)).iSectors 12 = 0
      rw [hparent]
      cases href with
      | first hnone =>
        rw [halloc] at hnone
        simp at hnone
      | second _ _ _ _ _ => simp [Inode.setSector]
    · have htable : Function.update s.fileTable fdIdx ⟨0, 0, none⟩ = s.fileTable := by
        rw [← hslot]
        exact Function.update_eq_self _ _
      rw [htable] at hclose
      obtain ⟨d', hoff, hk'⟩ := href.kern
      have hend : k1.disk = d' := by rw [hdisk1, hk']
      have hmoved : Unmoved K before { s with kern := k1, inodes := inodes } := by
        refine h.dirs.moved hc ?_ (fun q hq => hrest q (hbefore q hq)) fun hp => ?_
        · change SameOff _ s.kern.disk k1.disk
          rw [hend, ← hdisk, ← hlen]
          exact hoff
        · change SameDirectory s.kern.disk (s.inodes (d.inode s)) k1.disk (inodes (d.inode s))
          rw [hparent, hdisk1, ← hdisk]
          refine href.sameDirectory (hlen ▸ hc.layout) ?_ fun halloc pos hpos => ?_
          · rw [hdisk, h.dirs.disk]
            exact (hc.cached _ hp).congr (h.dirs.inodes _ hp)
          · by_contra hlive
            refine hlose ⟨hp, halloc, pos, hpos, ?_⟩
            rwa [← (SameDirectory.of_stored _ (h.dirs.inodes _ hp)).entries pos, ← h.dirs.disk, ← hdisk]
      have hvisit := h.back hundone (fun q hq => ?_) hmoved
      · exact iff_of_true (hvisit.ended hc hclose) fun hleaves => hleaves.elim (fun hne => hne hslot) hlose
      · by_cases he : q = d.inode s
        · rw [he, hparent]
          exact href.sameRef.iOpenCnts
        · rw [hrest q hq he]
  · refine iff_of_false (NoTrace.no_file fdIdx ?_ hclose) (not_not.mpr (.inl hslot))
    rw [← h.fileTable]
    simpa using Ne.symm hslot

theorem installNewFileBy_trace (hb : BlockAllocator K blockAlloc) (hc : before.Consistent K held)
    (h : Visiting held before (Unwritten before) d s) {k : Kern} {task flag inodeNo : ℕ} {name : Name} {io : Buffer} {new : Ptr}
    (ht : InodeTaken s.kern inodeNo io.ptr [(new, inodeSize)] k) (hdisk : k.disk = s.kern.disk) (hnew : s.kern.heap.next < new.id)
    (hio : 512 ≤ io.len)
    (hs : installNewFileBy blockAlloc K task d name flag inodeNo new io { s with kern := k } = .ok (-1, s1)) {u : Unit}
    (hclose : dirClose d s1 = .ok (u, s2)) :
    NoTrace K before s2 ↔ ¬ InstallLeaves blockAlloc K task before d name inodeNo io k s := by
  have hopen : new ∉ s.openInodes := by
    intro hm
    have := h.refs.fresh new hm
    omega
  have hbefore : ∀ q ∈ before.openInodes, q ∈ s.openInodes := by
    intro q hq
    rw [h.openInodes]
    exact List.mem_append_right _ hq
  have hne : ∀ q ∈ s.openInodes, q ≠ new := by
    rintro q hq rfl
    exact hopen hq
  have hparent := hne _ (h.inode_open hc)
  unfold installNewFileBy at hs
  simp only [bind_ok, modify_ok, get_ok] at hs
  obtain ⟨_, _, rfl, _, _, ⟨rfl, rfl⟩, hs⟩ := hs
  cases hfd : getFreeSlotInGlobal s with
  | none =>
    simp only [show getFreeSlotInGlobal (setInode new (inodeInit inodeNo Inode.zero) { s with kern := k }) = none from hfd, bind_ok,
      liftKern_ok, pure_ok] at hs
    obtain ⟨_, _, ⟨k1, h1, rfl⟩, _, _, ⟨k2, h2, rfl⟩, _, _, ⟨k3, h3, rfl⟩, -, rfl⟩ := hs
    obtain ⟨ht1, hd1⟩ := ht.freed h.fresh hnew h1
    obtain ⟨hundone, hd3⟩ := ht1.undone h.fresh h2 h3
    have hvisit : Visiting held before (Unmoved K before) d
        { s with kern := k3, inodes := Function.update s.inodes new (inodeInit inodeNo Inode.zero) } := by
      refine h.back hundone (fun q hq => ?_) (Unwritten.unmoved ?_ K)
      · simp only [Function.update_of_ne (hne q hq)]
      · refine ⟨((hd3.trans hd1).trans hdisk).trans h.dirs.disk, fun q hq => ?_⟩
        simp only [Function.update_of_ne (hne q (hbefore q hq))]
        exact h.dirs.inodes q hq
    refine iff_of_true (hvisit.ended hc hclose) ?_
    simp only [InstallLeaves, hfd, not_false_eq_true]
  | some fdIdx =>
    simp only [show getFreeSlotInGlobal (setInode new (inodeInit inodeNo Inode.zero) { s with kern := k }) = some fdIdx from hfd, bind_ok,
      modify_ok] at hs
    obtain ⟨_, t1, ht1, _, t2, ht2, e, s3, hentry, ok, s4, hsync, hs⟩ := hs
    have heq : t2 = { s with
        kern := k
        fileTable := Function.update s.fileTable fdIdx ⟨0, flag, some new⟩
        inodes := t2.inodes } := by
      rw [← ht2, ← ht1]
      rfl
    have hold : ∀ q, q ≠ new → t2.inodes q = s.inodes q := by
      intro q hq
      rw [← ht2, ← ht1]
      simp only [setInode, setFile, Function.update_of_ne hq]
    clear ht1 ht2
    generalize t2.inodes = inodes at heq hold
    subst heq
    unfold createDirEntry at hentry
    simp only [bind_ok, assert_ok, pure_ok] at hentry
    obtain ⟨_, _, ⟨-, rfl⟩, rfl, rfl⟩ := hentry
    obtain ⟨inode, k4, hentered, rfl⟩ := onDirInode_result hsync
    have hdir : ∀ (kern : Kern) (files : ℕ → File) (inodes : Ptr → Inode),
        d.inode { s with kern := kern, fileTable := files, inodes := inodes } = d.inode s := by
      intro kern files inodes
      cases d <;> rfl
    simp only [hdir, hold _ hparent] at hentered hs
    cases ok with
    | true =>
      simp only [Bool.not_true, Bool.false_eq_true, if_false, bind_ok] at hs
      obtain ⟨_, s5, hstore, hs⟩ := hs
      obtain ⟨hfiles, hfds⟩ := storeNewFile_tables hstore
      rcases pcbFdInstall_ok hs with ⟨j, -, hj, -⟩ | ⟨-, rfl, hnone⟩
      · omega
      · refine iff_of_false (NoTrace.no_file fdIdx ?_ hclose) (not_not.mpr ?_)
        · have hfree := (getFreeSlot_some hfd).2.2
          rw [h.fileTable] at hfree
          intro he
          rw [← he, hfiles] at hfree
          simp [setInode] at hfree
        · simp only [InstallLeaves, hfd, hentered]
          intro j hj
          refine hnone j ⟨hj.1, hj.2.1, ?_⟩
          rw [hfds]
          exact hj.2.2
    | false =>
      simp only [Bool.not_false, if_true, bind_ok, modify_ok, liftKern_ok, pure_ok] at hs
      obtain ⟨_, _, rfl, _, _, ⟨k5, h5, rfl⟩, _, _, ⟨k6, h6, rfl⟩, _, _, ⟨k7, h7, rfl⟩, -, rfl⟩ := hs
      have href := syncDirEntryBy_false hb (by rw [ht.blockBitmap, h.blockBitmap]; exact hc.layout.whole) hio hentered
      obtain ⟨d', -, rfl⟩ := href.kern
      have ht4 : InodeTaken s.kern inodeNo io.ptr [(new, inodeSize)] { k with disk := d' } :=
        ⟨ht.free, ht.inodeBitmap, ht.blockBitmap, ht.live, ht.buffer, ht.next⟩
      obtain ⟨ht5, hd5⟩ := ht4.freed h.fresh hnew h5
      obtain ⟨hundone, hd7⟩ := ht5.undone h.fresh h6 h7
      simp only [setInode, setFile, Function.update_idem] at hclose
      rw [href.trace hc h hdisk ht.blockBitmap hundone (hd7.trans hd5) ?_ ?_ hclose]
      · simp only [InstallLeaves, hfd, hentered]
      · simp only [Function.update_self]
      · intro q hq hqp
        simp only [Function.update_of_ne hqp]
        exact hold q (hne q hq)

theorem fileCreateBy_trace (hi : InodeAllocator inodeAlloc) (hb : BlockAllocator K blockAlloc) (hc : before.Consistent K held)
    (h : Visiting held before (Unwritten before) d s) {task flag : ℕ} {name : Name}
    (hs : fileCreateBy inodeAlloc blockAlloc K task d name flag s = .ok (-1, s1)) {u : Unit} (hclose : dirClose d s1 = .ok (u, s2)) :
    NoTrace K before s2 ↔ ¬ CreateLeaves inodeAlloc blockAlloc K task before d name s := by
  unfold fileCreateBy at hs
  simp only [bind_ok, liftKern_ok] at hs
  obtain ⟨io, _, ⟨k1, h1, rfl⟩, hs⟩ := hs
  cases io with
  | none =>
    obtain ⟨-, rfl⟩ := (pure_ok _ _ _ _).mp hs
    obtain ⟨hk1, hl1⟩ := sysMalloc_none h1
    have hvisit := h.back ⟨hk1.blockBitmap, hk1.inodeBitmap, hl1, hk1.next⟩ (fun _ _ => rfl)
      ((Unwritten.lasting before s { s with kern := k1 } h.dirs hk1.disk fun _ _ => Inode.SameStored.refl _).unmoved K)
    refine iff_of_true (hvisit.ended hc hclose) ?_
    simp only [CreateLeaves, h1, not_false_eq_true]
  | some io =>
    obtain ⟨hk1, rfl, hl1, hn1⟩ := sysMalloc_some h1
    simp only [bind_ok, liftKern_ok] at hs
    obtain ⟨n, _, ⟨k2, h2, rfl⟩, hs⟩ := hs
    cases n with
    | none =>
      obtain ⟨-, rfl⟩ := (pure_ok _ _ _ _).mp hs
      obtain rfl := hi.fails _ _ h2
      refine iff_of_false (NoTrace.no_block hc (b := (⟨s.kern.heap.next, s.kern.pool⟩, 1024)) ?_ h.next ?_ hclose) (not_not.mpr ?_)
      · change _ ∈ k2.heap.live
        rw [hl1]
        exact List.mem_cons_self
      · intro ptr p hd
        obtain ⟨hptr, hp⟩ := h.older hd
        refine ⟨fun he => ?_, fun he => ?_⟩ <;>
        · have hid := congrArg Ptr.id he
          dsimp only at hid
          omega
      · simp only [CreateLeaves, h1, h2]
    | some inodeNo =>
      obtain ⟨hfree, rfl⟩ := hi.takes _ _ _ h2
      simp only [bind_ok, liftKern_ok] at hs
      obtain ⟨new, _, ⟨k3, h3, rfl⟩, hs⟩ := hs
      rw [hk1.inodeBitmap] at hfree
      cases new with
      | none =>
        obtain ⟨hk3, hl3⟩ := sysMalloc_none h3
        simp only [bind_ok, liftKern_ok, pure_ok] at hs
        obtain ⟨_, _, ⟨k4, h4, rfl⟩, _, _, ⟨k5, h5, rfl⟩, -, rfl⟩ := hs
        have htaken : InodeTaken s.kern inodeNo ⟨s.kern.heap.next, s.kern.pool⟩ [] k3 := by
          refine ⟨hfree, ?_, hk3.blockBitmap.trans hk1.blockBitmap, hl3.trans hl1, rfl, ?_⟩
          · rw [hk3.inodeBitmap, ← hk1.inodeBitmap]
          · have : k1.heap.next ≤ k3.heap.next := hk3.next
            omega
        obtain ⟨hundone, hdisk⟩ := htaken.undone h.fresh h4 h5
        have hunwritten := Unwritten.lasting before s { s with kern := k5 } h.dirs (hdisk.trans (hk3.disk.trans hk1.disk))
          fun _ _ => Inode.SameStored.refl _
        have hvisit := h.back hundone (fun _ _ => rfl) (hunwritten.unmoved K)
        refine iff_of_true (hvisit.ended hc hclose) ?_
        simp only [CreateLeaves, h1, h2, h3, not_false_eq_true]
      | some new =>
        obtain ⟨hk3, rfl, hl3, hn3⟩ := sysMalloc_some h3
        have htaken : InodeTaken s.kern inodeNo ⟨s.kern.heap.next, s.kern.pool⟩ [(⟨k1.heap.next, k1.pool⟩, inodeSize)] k3 := by
          refine ⟨hfree, ?_, hk3.blockBitmap.trans hk1.blockBitmap, ?_, rfl, ?_⟩
          · rw [hk3.inodeBitmap, ← hk1.inodeBitmap]
          · rw [hl3]
            change _ :: k1.heap.live = _
            rw [hl1]
            rfl
          · have : k1.heap.next ≤ k3.heap.next := hk3.next
            omega
        have htrace := installNewFileBy_trace hb hc h htaken (hk3.disk.trans hk1.disk) ?_ ?_ hs hclose
        · simp only [CreateLeaves, h1, h2, h3]
          exact htrace
        · change s.kern.heap.next < k1.heap.next
          omega
        · dsimp only
          omega

theorem sysOpenBy_trace (hi : InodeAllocator inodeAlloc) (hb : BlockAllocator K blockAlloc) (hc : s.Consistent K held) {task flags : ℕ}
    {junk : Junk} {pathname : Path} (hflags : oCreat flags = true)
    (hs : sysOpenBy inodeAlloc blockAlloc K task junk pathname flags s = .ok (-1, s2)) :
    NoTrace K s s2 ↔ ¬ OpenLeaves inodeAlloc blockAlloc K task junk pathname s := by
  have hstart : Visiting held s (Unwritten s) .root s := Visiting.start hc.refs hc.fresh
  unfold sysOpenBy at hs
  split_ifs at hs with hslash
  · obtain ⟨-, rfl⟩ := (pure_ok _ _ _ _).mp hs
    refine iff_of_true ⟨rfl, rfl, hstart.dirs.unmoved K, rfl, fun _ => Iff.rfl, rfl⟩ ?_
    rintro ⟨hno, -⟩
    exact hno hslash
  simp only [bind_ok, assert_ok] at hs
  obtain ⟨_, _, ⟨-, rfl⟩, depth, s0, hdepth, ⟨found, record⟩, s1, hsearch, hs⟩ := hs
  obtain rfl := pathDepthCnt_ok hdepth
  have hvisit := hstart.searchFile hc.refs hc.fresh (Unwritten.lasting s0) hsearch
  -- what the search opened is closed again
  have hclosed : ∀ {u : Unit} {t : Fs}, dirClose record.parentDir s1 = .ok (u, t) → NoTrace K s0 t := by
    intro u t hclose
    exact (hvisit.mono fun hD => hD.unmoved K).ended hc hclose
  have hleaves : OpenLeaves inodeAlloc blockAlloc K task junk pathname s0 → found = none ∧ record.fileType ≠ .directory ∧
      pathDepthCnt junk record.searchedPath s1 = .ok (depth, s1) ∧ ∃ filename, lastName pathname = some filename ∧
        CreateLeaves inodeAlloc blockAlloc K task s0 record.parentDir filename s1 := by
    rintro ⟨-, record', s1', depth', filename, hsearch', htype, hdepth', hsame, hname, hcreate⟩
    obtain ⟨he, rfl⟩ := ok_inj hsearch hsearch'
    obtain ⟨rfl, rfl⟩ := Prod.mk.inj he
    obtain ⟨rfl, -⟩ := ok_inj hdepth hdepth'
    exact ⟨rfl, htype, hsame, filename, hname, hcreate⟩
  dsimp only at hs
  split_ifs at hs with htype
  · simp only [bind_ok, pure_ok] at hs
    obtain ⟨_, _, hclose, -, rfl⟩ := hs
    exact iff_of_true (hclosed hclose) fun hl => (hleaves hl).2.1 htype
  simp only [bind_ok] at hs
  obtain ⟨depth', s1', hdepth', hs⟩ := hs
  obtain rfl := pathDepthCnt_ok hdepth'
  split_ifs at hs with hne
  · simp only [bind_ok, pure_ok] at hs
    obtain ⟨_, _, hclose, -, rfl⟩ := hs
    refine iff_of_true (hclosed hclose) fun hl => hne ?_
    exact (ok_inj (hleaves hl).2.2.1 hdepth').1
  obtain rfl : depth = depth' := not_not.mp hne
  cases found with
  | some n =>
    simp only [hflags, bind_ok, pure_ok] at hs
    obtain ⟨_, _, hclose, -, rfl⟩ := hs
    refine iff_of_true (hclosed hclose) fun hl => ?_
    exact absurd (hleaves hl).1 (by simp)
  | none =>
    simp only [hflags] at hs
    cases hname : lastName pathname with
    | none => simp [hname] at hs
    | some filename =>
      simp only [hname, bind_ok, pure_ok] at hs
      obtain ⟨fd, s3, hcreate, _, _, hclose, rfl, rfl⟩ := hs
      rw [fileCreateBy_trace hi hb hc hvisit hcreate hclose, not_iff_not]
      constructor
      · intro hl
        exact ⟨hslash, record, s1', depth, filename, hsearch, htype, hdepth, hdepth', hname, hl⟩
      · intro hl
        obtain ⟨-, -, -, filename', hname', hl⟩ := hleaves hl
        rw [hname] at hname'
        obtain rfl := Option.some.inj hname'
        exact hl

theorem mkdirFail_noTrace (hc : s.Consistent K held) {k0 k : Kern} {io : Buffer} (hio : sysMalloc 1024 s.kern = .ok (some io, k0))
    (h : Visiting held { s with kern := k0 } (Unwritten { s with kern := k0 }) d s1) (hk : Undone s1.kern k) (hdisk : k.disk = s1.kern.disk)
    {r : ℤ} (hs : mkdirFail d io { s1 with kern := k } = .ok (r, s2)) : NoTrace K s s2 := by
  obtain ⟨hk0, rfl, hl0, hn0⟩ := sysMalloc_some hio
  have hfresh := sysMalloc_fresh hc.fresh hio
  unfold mkdirFail at hs
  simp only [bind_ok, liftKern_ok, pure_ok] at hs
  obtain ⟨_, t, hclose, _, _, ⟨k1, hfree, rfl⟩, -, rfl⟩ := hs
  have hvisit := h.back hk (fun _ _ => rfl) (Unwritten.lasting _ s1 { s1 with kern := k } h.dirs hdisk fun _ _ => Inode.SameStored.refl _)
  have hend := hvisit.close (hc.refs.kern hk0.next) hfresh (Unwritten.lasting _) hclose
  obtain ⟨hk1, hl1⟩ := sysFree_filter hfree
  have hunwritten : Unwritten s { t with kern := k1 } := ⟨(hk1.disk.trans hend.dirs.disk).trans hk0.disk, hend.dirs.inodes⟩
  refine ⟨(hk1.blockBitmap.trans hend.blockBitmap).trans hk0.blockBitmap, (hk1.inodeBitmap.trans hend.inodeBitmap).trans hk0.inodeBitmap,
    hunwritten.unmoved K, hend.fileTable, fun p => ?_, ?_⟩
  · change p ∈ t.openInodes ↔ _
    rw [hend.openInodes]
    rfl
  · change k1.heap.live = _
    rw [hl1, hend.live]
    change List.filter _ k0.heap.live = _
    rw [hl0]
    exact filter_newest hc.fresh (le_refl _)

theorem makeDirBy_false (hb : BlockAllocator K blockAlloc) (hl : s.kern.blockBitmap.btmpBytesLen % 512 = 0) {name : Name}
    {inodeNo lba : ℕ} {io : Buffer} (hio : 512 ≤ io.len) (hs : makeDirBy blockAlloc K d name inodeNo lba io s = .ok (false, s1)) :
    s1.kern.blockBitmap = s.kern.blockBitmap := by
  unfold makeDirBy at hs
  simp only [bind_ok, assert_ok, liftKern_ok, get_ok] at hs
  obtain ⟨_, _, ⟨-, rfl⟩, _, _, ⟨k1, h1, rfl⟩, _, _, ⟨rfl, rfl⟩, _, _, ⟨k2, h2, rfl⟩, e, s3, hentry, ok, s4, hsync, hs⟩ := hs
  have hblocks : k2.blockBitmap = s.kern.blockBitmap := by
    obtain ⟨-, rfl⟩ := (bitmapSync_block _ _ _ _ _).mp h1
    obtain ⟨-, rfl⟩ := (ideWrite_ok _ _ _ _ _ _).mp h2
    rfl
  obtain rfl := createDirEntry_ok hentry
  obtain ⟨inode, k4, hentered, rfl⟩ := onDirInode_result hsync
  cases ok with
  | true =>
    simp only [Bool.not_true, Bool.false_eq_true, if_false, bind_ok, pure_ok] at hs
    obtain ⟨_, _, _, _, _, _, _, _, _, _, _, _, he, -⟩ := hs
    cases he
  | false =>
    obtain ⟨-, rfl⟩ := (pure_ok _ _ _ _).mp hs
    rw [← hblocks] at hl ⊢
    obtain ⟨d', -, rfl⟩ := (syncDirEntryBy_false hb hl (show 512 ≤ io.cleared.len from hio) hentered).kern
    rfl

theorem mkdirFail_blocks {io : Buffer} {r : ℤ} (hs : mkdirFail d io s = .ok (r, s1)) : s1.kern.blockBitmap = s.kern.blockBitmap := by
  unfold mkdirFail at hs
  simp only [bind_ok, liftKern_ok, pure_ok] at hs
  obtain ⟨_, t, hclose, _, _, ⟨k, hfree, rfl⟩, -, rfl⟩ := hs
  exact (sysFree_ok hfree).blockBitmap.trans (dirClose_effect hclose).1.blockBitmap

theorem NoTrace.no_directory (hb : BlockAllocator K blockAlloc) (hc : s.Consistent K held) {i inodeNo lba : ℕ} {name : Name} {io : Buffer}
    {s3 : Fs} {k : Kern} {u : Unit} {r : ℤ} (hclear : s.kern.blockBitmap.scanTest i = false)
    (hset : s1.kern.blockBitmap = s.kern.blockBitmap.set i true) (hio : 512 ≤ io.len)
    (hmake : makeDirBy blockAlloc K d name inodeNo lba io s1 = .ok (false, s3)) (hk : inodeBitmapSet inodeNo false s3.kern = .ok (u, k))
    (hs : mkdirFail d io { s3 with kern := k } = .ok (r, s2)) : ¬ NoTrace K s s2 := by
  intro h
  have hlen : s1.kern.blockBitmap.btmpBytesLen % 512 = 0 := by
    rw [hset, Bitmap.set_len]
    exact hc.layout.whole
  have hsame : k.blockBitmap = s3.kern.blockBitmap := by
    obtain rfl := (modify_ok _ _ _ _).mp hk
    rfl
  have hend : s.kern.blockBitmap = s1.kern.blockBitmap :=
    h.blockBitmap.symm.trans ((mkdirFail_blocks hs).trans (hsame.trans (makeDirBy_false hb hlen hio hmake)))
  rw [hend, hset, Bitmap.scanTest_set, if_pos rfl] at hclear
  cases hclear

theorem sysMkdirBy_trace (hi : InodeAllocator inodeAlloc) (hb : BlockAllocator K blockAlloc) (hc : s.Consistent K held)
    {junk : Junk} {pathname : Path} (hs : sysMkdirBy inodeAlloc blockAlloc K junk pathname s = .ok (-1, s2)) :
    NoTrace K s s2 ↔ ¬ MkdirLeaves inodeAlloc blockAlloc K junk pathname s := by
  unfold sysMkdirBy at hs
  simp only [bind_ok, liftKern_ok] at hs
  obtain ⟨io, _, ⟨k0, hio, rfl⟩, hs⟩ := hs
  cases io with
  | none =>
    obtain ⟨-, rfl⟩ := (pure_ok _ _ _ _).mp hs
    obtain ⟨hk0, hl0⟩ := sysMalloc_none hio
    have hunwritten : Unwritten s { s with kern := k0 } := ⟨hk0.disk, fun _ _ => Inode.SameStored.refl _⟩
    refine iff_of_true ⟨hk0.blockBitmap, hk0.inodeBitmap, hunwritten.unmoved K, rfl, fun _ => Iff.rfl, hl0⟩ ?_
    rintro ⟨io, k0', record, s1, depth, n, k1, lba, k2, name, s3, hio', -⟩
    obtain ⟨he, -⟩ := ok_inj hio hio'
    cases he
  | some io =>
    obtain ⟨hk0, hbuf, -, -⟩ := sysMalloc_some hio
    have hrefs := hc.refs.kern hk0.next
    have hfresh := sysMalloc_fresh hc.fresh hio
    simp only [bind_ok] at hs
    obtain ⟨⟨found, record⟩, s1, hsearch, hs⟩ := hs
    dsimp only at hs
    have hstart : Visiting held { s with kern := k0 } (Unwritten { s with kern := k0 }) .root { s with kern := k0 } :=
      Visiting.start hrefs hfresh
    have hvisit := hstart.searchFile hrefs hfresh (Unwritten.lasting _) hsearch
    have hleaves : MkdirLeaves inodeAlloc blockAlloc K junk pathname s → found = none ∧ ∃ depth inodeNo k1 lba k2,
        pathDepthCnt junk pathname s1 = .ok (depth, s1) ∧ pathDepthCnt junk record.searchedPath s1 = .ok (depth, s1) ∧
          inodeAlloc s1.kern = .ok (some inodeNo, k1) ∧ blockAlloc k1 = .ok (some lba, k2) := by
      rintro ⟨io', k0', record', s1', depth, inodeNo, k1, lba, k2, name, s3, hio', hsearch', hdepth, hsame, hinode, hblock, -, -⟩
      obtain ⟨hbuf', rfl⟩ := ok_inj hio hio'
      obtain ⟨he, rfl⟩ := ok_inj hsearch hsearch'
      obtain ⟨rfl, rfl⟩ := Prod.mk.inj he
      exact ⟨rfl, depth, inodeNo, k1, lba, k2, hdepth, hsame, hinode, hblock⟩
    have hfails : mkdirFail record.parentDir io s1 = .ok (-1, s2) → NoTrace K s s2 :=
      mkdirFail_noTrace hc hio hvisit ⟨rfl, rfl, rfl, le_refl _⟩ rfl
    by_cases hfound : found = none
    · subst hfound
      simp only [ne_eq, not_true_eq_false, if_false, bind_ok] at hs
      obtain ⟨depth, s1', hdepth, depth', s1'', hdepth', hs⟩ := hs
      obtain rfl := pathDepthCnt_ok hdepth
      obtain rfl := pathDepthCnt_ok hdepth'
      by_cases hne : depth = depth'
      · subst hne
        simp only [not_true_eq_false, if_false, bind_ok, liftKern_ok] at hs
        obtain ⟨n, _, ⟨k1, hinode, rfl⟩, hs⟩ := hs
        cases n with
        | none =>
          obtain rfl := hi.fails _ _ hinode
          refine iff_of_true (hfails hs) fun hl => ?_
          obtain ⟨-, _, _, _, _, _, -, -, h1, -⟩ := hleaves hl
          cases (ok_inj hinode h1).1
        | some inodeNo =>
          obtain ⟨hfree, hk1⟩ := hi.takes _ _ _ hinode
          simp only [bind_ok, liftKern_ok] at hs
          obtain ⟨r, _, ⟨k2, hblock, rfl⟩, hs⟩ := hs
          cases r with
          | none =>
            obtain rfl := hb.fails _ _ hblock
            simp only [bind_ok, liftKern_ok] at hs
            obtain ⟨_, _, ⟨k3, hset, rfl⟩, hs⟩ := hs
            have hundone : Undone s1''.kern k3 ∧ k3.disk = s1''.kern.disk := by
              obtain rfl := (modify_ok _ _ _ _).mp hset
              rw [hk1]
              exact ⟨⟨rfl, Bitmap.set_back hfree, rfl, le_refl _⟩, rfl⟩
            refine iff_of_true (mkdirFail_noTrace hc hio hvisit hundone.1 hundone.2 hs) fun hl => ?_
            obtain ⟨-, _, _, _, _, _, -, -, h1, h2⟩ := hleaves hl
            obtain ⟨-, rfl⟩ := ok_inj hinode h1
            cases (ok_inj hblock h2).1
          | some lba =>
            obtain ⟨i, -, hclear, rfl, hk2⟩ := hb.takes _ _ _ hblock
            cases hname : lastName record.searchedPath with
            | none => simp [hname] at hs
            | some name =>
              simp only [hname, bind_ok] at hs
              obtain ⟨ok, s3, hmake, hs⟩ := hs
              cases ok with
              | true =>
                simp only [Bool.not_true, Bool.false_eq_true, if_false, bind_ok, pure_ok] at hs
                obtain ⟨_, _, _, _, _, _, hr, -⟩ := hs
                omega
              | false =>
                simp only [Bool.not_false, if_true, bind_ok, liftKern_ok] at hs
                obtain ⟨_, _, ⟨k3, hset, rfl⟩, hs⟩ := hs
                refine iff_of_false (fun hno => ?_) (not_not.mpr ⟨io, k0, record, s1'', depth, inodeNo, k1, _, k2, name, s3, hio, hsearch,
                  hdepth, hdepth', hinode, hblock, hname, hmake⟩)
                have hbits : k1.blockBitmap = s.kern.blockBitmap := by
                  rw [hk1]
                  exact hvisit.blockBitmap.trans hk0.blockBitmap
                rw [hbits] at hclear
                have htaken : ({ s1'' with kern := k2 } : Fs).kern.blockBitmap = s.kern.blockBitmap.set i true := by
                  change k2.blockBitmap = _
                  rw [hk2, ← hbits]
                refine NoTrace.no_directory hb hc hclear htaken ?_ hmake hset hs hno
                rw [hbuf]
                dsimp only
                omega
      · simp only [hne, not_false_eq_true, if_true] at hs
        refine iff_of_true (hfails hs) fun hl => hne ?_
        obtain ⟨-, depth1, _, _, _, _, h1, h2, -⟩ := hleaves hl
        exact (ok_inj hdepth h1).1.trans (ok_inj h2 hdepth').1
    · simp only [ne_eq, hfound, not_false_eq_true, if_true] at hs
      exact iff_of_true (hfails hs) fun hl => hfound (hleaves hl).1

end

/-- With allocators that may fail at any call, a creation that fails leaves a trace in the cases of `OpenLeaves` and `MkdirLeaves`, and in
no other. -/
theorem failed_creation_traceless (inodeAlloc blockAlloc : KernM (Option ℕ)) (K : Kernel) (held : Multiset Ptr) (s : Fs)
    (hi : InodeAllocator inodeAlloc) (hb : BlockAllocator K blockAlloc) (hc : s.Consistent K held) :
    (∀ task junk pathname flags s', oCreat flags = true → sysOpenBy inodeAlloc blockAlloc K task junk pathname flags s = .ok (-1, s') →
      (NoTrace K s s' ↔ ¬ OpenLeaves inodeAlloc blockAlloc K task junk pathname s)) ∧
    ∀ junk pathname s', sysMkdirBy inodeAlloc blockAlloc K junk pathname s = .ok (-1, s') →
      (NoTrace K s s' ↔ ¬ MkdirLeaves inodeAlloc blockAlloc K junk pathname s) :=
  ⟨fun _ _ _ _ _ hflags hs => sysOpenBy_trace hi hb hc hflags hs, fun _ _ _ hs => sysMkdirBy_trace hi hb hc hs⟩

theorem oneFile_consistent : oneFile.Consistent smallPartition.kernel {⟨0, .kernel⟩} where
  refs := by
    refine ⟨List.nodup_singleton _, ?_, ?_, ?_⟩
    · intro p hp
      obtain rfl := List.mem_singleton.mp hp
      exact Nat.one_pos
    · intro p hp
      obtain rfl := List.mem_singleton.mp hp
      exact (Multiset.count_singleton_self _).symm
    · intro p
      rw [Multiset.mem_singleton]
      exact List.mem_singleton.symm
  root := Multiset.mem_singleton_self _
  fresh := by
    intro b hb
    obtain rfl := List.mem_singleton.mp hb
    exact Nat.one_pos
  layout := ⟨rfl, by decide, by decide, by decide, by decide⟩
  cached := by
    intro p hp q hq hne
    obtain rfl := List.mem_singleton.mp hp
    rw [oneFile_refs] at hne ⊢
    split_ifs at hne ⊢
    · exact le_refl _
    · exact absurd rfl hne
  stored := by
    intro n hn hused
    have hsmall : n < 8 := by
      by_contra hlarge
      have hzero : oneFile.kern.inodeBitmap.bits (n / 8) = 0 := Function.update_of_ne (by omega) _ _
      simp [Bitmap.scanTest, hzero] at hused
    have htwo : ∀ m < 8, oneFile.kern.inodeBitmap.scanTest m = true → m < 2 := by decide
    have hsectors : ∀ m < 2, ∀ i < 13, (Inode.load oneFile.kern.disk (inodeAddr smallPartition m)).iSectors i = 0 := by decide +kernel
    have hempty := hsectors n (htwo n hsmall hused)
    intro p hp hne
    refine absurd ?_ hne
    unfold refAddr blockAddr
    split_ifs with h140 h12 htable
    · exact hempty 12 (by omega)
    · exact hempty p (by omega)
    · rfl
    · exact absurd (hempty 12 (by omega)) htable

def tableFull : Fs :=
  { oneFile with
    kern := { oneFile.kern with heap := ⟨[(⟨1, .kernel⟩, inodeSize), (⟨0, .kernel⟩, inodeSize)], 2, fun _ => true, false⟩ }
    inodes := Function.update oneFile.inodes ⟨1, .kernel⟩
      { inodeInit 1 Inode.zero with iOpenCnts := 29, inodeTag := ⟨.linked, .linked⟩ }
    openInodes := [⟨1, .kernel⟩, ⟨0, .kernel⟩]
    fileTable := fun k => if 3 ≤ k ∧ k < 32 then ⟨0, 0, some ⟨1, .kernel⟩⟩ else ⟨0, 0, none⟩
    fdTable := fun task j => if j < 3 then j else if 0 < task ∧ 5 * task + j < 37 then 5 * task + j - 5 else -1 }

theorem tableFull_disk : tableFull.kern.disk = oneFile.kern.disk := by
  simp only [tableFull]

theorem tableFull_inodeBitmap : tableFull.kern.inodeBitmap = oneFile.kern.inodeBitmap := by
  simp only [tableFull]

theorem tableFull_root : tableFull.inodes ⟨0, .kernel⟩ = oneFile.inodes ⟨0, .kernel⟩ := by
  have hne : (⟨0, .kernel⟩ : Ptr) ≠ ⟨1, .kernel⟩ := by decide
  simp only [tableFull, Function.update_of_ne hne]

theorem tableFull_consistent : tableFull.Consistent smallPartition.kernel (Multiset.replicate 29 ⟨1, .kernel⟩ + {⟨0, .kernel⟩}) where
  refs := by
    refine ⟨by decide, ?_, ?_, ?_⟩
    · intro p hp
      rcases List.mem_pair.mp hp with rfl | rfl <;> decide
    · intro p hp
      rcases List.mem_pair.mp hp with rfl | rfl <;> rw [Multiset.count_add, Multiset.count_replicate] <;> decide
    · intro p
      rw [Multiset.mem_add, Multiset.mem_replicate, Multiset.mem_singleton]
      exact (or_congr_left (and_iff_right (by decide))).trans List.mem_pair.symm
  root := Multiset.mem_add.mpr (.inr (Multiset.mem_singleton_self _))
  fresh := by
    intro b hb
    rcases List.mem_pair.mp hb with rfl | rfl <;> decide
  layout := oneFile_consistent.layout
  cached := by
    intro p hp
    rcases List.mem_pair.mp hp with rfl | rfl
    · intro q _ hne
      refine absurd ?_ hne
      unfold refAddr blockAddr
      split_ifs <;> first | rfl | contradiction
    · rw [tableFull_disk, tableFull_root]
      exact oneFile_consistent.cached _ (List.mem_singleton_self _)
  stored := by
    rw [tableFull_disk, tableFull_inodeBitmap]
    exact oneFile_consistent.stored

theorem CreateLeaves.noSlot {inodeAlloc blockAlloc : KernM (Option ℕ)} {K : Kernel} {task : ℕ} {before s : Fs} {parentDir : Dir}
    {filename : Name} (h : CreateLeaves inodeAlloc blockAlloc K task before parentDir filename s) (hslot : getFreeSlotInGlobal s = none) :
    ∃ ioBuf k1 k2, sysMalloc 1024 s.kern = .ok (some ioBuf, k1) ∧ inodeAlloc k1 = .ok (none, k2) := by
  unfold CreateLeaves InstallLeaves at h
  rw [hslot] at h
  split at h
  · rename_i ioBuf k1 hio
    split at h
    · exact ⟨ioBuf, k1, _, hio, ‹_›⟩
    · split at h <;> cases h
    · cases h
  · cases h

theorem failed_creation_traceless_tableFull :
    (∃ s', sysOpenBy inodeBitmapAlloc (fun k => .ok (none, k)) smallPartition.kernel 0 ⟨0, false⟩ [slash, 103] 4 tableFull =
      .ok (-1, s') ∧ NoTrace smallPartition.kernel tableFull s') ∧
    ∃ s', sysMkdirBy inodeBitmapAlloc (fun k => .ok (none, k)) smallPartition.kernel ⟨0, false⟩ [slash, 103] tableFull =
      .ok (-1, s') ∧ NoTrace smallPartition.kernel tableFull s' := by
  have hnone : BlockAllocator smallPartition.kernel fun k => .ok (none, k) := by
    constructor
    · intro k k' h
      exact (Prod.mk.inj (Except.ok.inj h)).2.symm
    · intro k k' lba h
      cases h
  have htheorem := failed_creation_traceless inodeBitmapAlloc (fun k => .ok (none, k)) smallPartition.kernel _ tableFull
    inodeBitmapAlloc_allocator hnone tableFull_consistent
  constructor
  · obtain ⟨r, s', hrun, hr⟩ := runs_of_runsTo (m := sysOpenBy inodeBitmapAlloc (fun k => .ok (none, k))
      smallPartition.kernel 0 ⟨0, false⟩ [slash, 103] 4) (s := tableFull) (p := fun r _ => decide (r = -1)) (by decide +kernel)
    obtain rfl := of_decide_eq_true hr
    refine ⟨s', hrun, (htheorem.1 _ _ _ _ _ rfl hrun).mpr ?_⟩
    rintro ⟨-, record, s1, _, _, hsearch, -, -, -, -, hleaves⟩
    obtain ⟨found, s1', hsearch', hfree⟩ := runs_of_runsTo (m := searchFile smallPartition.kernel ⟨0, false⟩ [slash, 103])
      (s := tableFull) (p := fun _ s => decide (getFreeSlotInGlobal s = none) &&
        runsTo (sysMalloc 1024 >>= fun _ => inodeBitmapAlloc) s.kern fun n _ => decide (n ≠ none)) (by decide +kernel)
    rw [Bool.and_eq_true, decide_eq_true_eq] at hfree
    obtain ⟨-, rfl⟩ := ok_inj hsearch hsearch'
    obtain ⟨ioBuf, k1, k2, hio, hno⟩ := hleaves.noSlot hfree.1
    obtain ⟨n, k3, hboth, hn⟩ := runs_of_runsTo hfree.2
    rw [bind_eq hio] at hboth
    obtain ⟨rfl, -⟩ := ok_inj hno hboth
    cases hn
  · obtain ⟨r, s', hrun, hr⟩ := runs_of_runsTo (m := sysMkdirBy inodeBitmapAlloc (fun k => .ok (none, k))
      smallPartition.kernel ⟨0, false⟩ [slash, 103]) (s := tableFull) (p := fun r _ => decide (r = -1)) (by decide +kernel)
    obtain rfl := of_decide_eq_true hr
    refine ⟨s', hrun, (htheorem.2 _ _ _ hrun).mpr ?_⟩
    rintro ⟨_, _, _, _, _, _, _, _, _, _, _, -, -, -, -, -, hblock, -⟩
    cases hblock

/-- Task 0 has its five descriptors on `/f`; creating `/g` then fails, and the new file stays open without one. -/
theorem failed_creation_keeps_file : ∃ s s', FileRun smallPartition.kernel kernelThreads (fun _ _ => True) oneFile s ∧
    sysOpen smallPartition.kernel 0 ⟨0, false⟩ [slash, 103] 4 (onTask kernelThreads 0 s) = .ok (-1, s') ∧
    ¬ NoTrace smallPartition.kernel (onTask kernelThreads 0 s) s' := by
  obtain ⟨rs, s, hrun, hs⟩ := runs_of_runsTo (m := runAll smallPartition.kernel kernelThreads [openF 0, openF 0, openF 0, openF 0, openF 0])
    (s := oneFile) (p := fun _ s => !decide (Occupied s 8) &&
      runsTo (sysOpen smallPartition.kernel 0 ⟨0, false⟩ [slash, 103] 4) (onTask kernelThreads 0 s)
      fun r' s' => decide (r' = -1) && decide (Occupied s' 8)) (by decide +kernel)
  rw [Bool.and_eq_true] at hs
  obtain ⟨r', s', hrun', hs'⟩ := runs_of_runsTo hs.2
  simp only [Bool.and_eq_true, decide_eq_true_eq] at hs'
  obtain ⟨rfl, hocc⟩ := hs'
  refine ⟨s, s', runAll_reached .init hrun, hrun', fun h => ?_⟩
  have hfree : ¬ Occupied s 8 := by simpa using hs.1
  apply hfree
  unfold Occupied at hocc ⊢
  rwa [h.fileTable] at hocc

end ElephantOS
