import ElephantOS.DirectoryInsert
import ElephantOS.PathResolution
import ElephantOS.Descriptors

namespace ElephantOS

open ByteMemory HaltingState

section

variable {k k' : Kern}

def Heap.Fresh (h : Heap) : Prop := ∀ b ∈ h.live, b.1.id < h.next

theorem sysMalloc_fresh {size : ℕ} {b : Buffer} (hfresh : k.heap.Fresh) (h : sysMalloc size k = .ok (some b, k')) : k'.heap.Fresh := by
  obtain ⟨-, rfl, hl, hn⟩ := sysMalloc_some h
  intro b hb
  rw [hl] at hb
  rcases List.mem_cons.mp hb with rfl | hb
  · dsimp only
    omega
  · have := hfresh b hb
    omega

theorem filter_older {live : List (Ptr × ℕ)} {next : ℕ} {p : Ptr} (hlive : ∀ b ∈ live, b.1.id < next) (hp : next ≤ p.id) :
    live.filter (fun b => b.1 ≠ p) = live := by
  apply List.filter_eq_self.mpr
  intro b hb
  have := hlive b hb
  have hne : b.1 ≠ p := by
    rintro rfl
    omega
  simpa using hne

theorem filter_newest {live : List (Ptr × ℕ)} {next n : ℕ} {p : Ptr} (hlive : ∀ b ∈ live, b.1.id < next) (hp : next ≤ p.id) :
    ((p, n) :: live).filter (fun b => b.1 ≠ p) = live := by
  rw [List.filter_cons_of_neg (by simp)]
  exact filter_older hlive hp

theorem ideRead_live {lba secCnt : ℕ} {buf b : Buffer} (h : ideRead lba buf secCnt k = .ok (b, k')) :
    k'.heap.live = k.heap.live := by
  unfold ideRead at h
  split_ifs at h <;> cases h <;> rfl

theorem searchBlocks_same {K : Kernel} {blocks : ℕ → ℕ} {name : Name} {more idx : ℕ} {buf : Buffer} {r : Option DirEntry}
    (h : searchBlocks K blocks name more idx buf k = .ok (r, k')) : HeapOnly k k' ∧ k'.heap.live = k.heap.live := by
  induction more generalizing idx buf k with
  | zero =>
    obtain ⟨-, rfl⟩ := (pure_ok _ _ _ _).mp h
    exact ⟨HeapOnly.refl _, rfl⟩
  | succ more ih =>
    unfold searchBlocks at h
    split_ifs at h
    · exact ih h
    · rw [bind_ok] at h
      obtain ⟨b, k1, h1, h⟩ := h
      have hk1 := (ideRead_ok h1).2.1
      have hlive := ideRead_live h1
      cases hf : firstSlot (dirEntrysPerSec K) fun i => sameString b.bytes (24 * i) name with
      | some i =>
        simp only [hf] at h
        obtain ⟨-, rfl⟩ := (pure_ok _ _ _ _).mp h
        exact ⟨hk1, hlive⟩
      | none =>
        simp only [hf] at h
        obtain ⟨hk, hl⟩ := ih h
        exact ⟨hk1.trans hk, hl.trans hlive⟩

theorem searchDirEntry_same {K : Kernel} {inode : Inode} {name : Name} {r : Option DirEntry} (hfresh : k.heap.Fresh)
    (h : searchDirEntry K inode name k = .ok (r, k')) : HeapOnly k k' ∧ k'.heap.live = k.heap.live := by
  unfold searchDirEntry at h
  rw [bind_ok] at h
  obtain ⟨all, k1, h1, h⟩ := h
  cases all with
  | none =>
    obtain ⟨-, rfl⟩ := (pure_ok _ _ _ _).mp h
    exact sysMalloc_none h1
  | some all =>
    obtain ⟨hk1, rfl, hl1, hn1⟩ := sysMalloc_some h1
    rw [bind_ok] at h
    obtain ⟨blocks, k2, h2, h⟩ := h
    obtain rfl : k2 = k1 := by
      unfold allDirBlocks at h2
      split_ifs at h2
      · exact ((readTable_ok _ _ _ _ _).mp h2).2.1
      · exact ((pure_ok _ _ _ _).mp h2).2.symm
    rw [bind_ok] at h
    obtain ⟨buf, k3, h3, h⟩ := h
    cases buf with
    | none => simp at h
    | some buf =>
      obtain ⟨hk3, rfl, hl3, hn3⟩ := sysMalloc_some h3
      simp only [bind_ok, pure_ok] at h
      obtain ⟨found, k4, h4, _, k5, h5, _, k6, h6, -, rfl⟩ := h
      obtain ⟨hk4, hl4⟩ := searchBlocks_same h4
      obtain ⟨hk5, hl5⟩ := sysFree_filter h5
      obtain ⟨hk6, hl6⟩ := sysFree_filter h6
      refine ⟨((((hk1.trans hk3).trans hk4).trans hk5).trans hk6), ?_⟩
      rw [hl6, hl5, hl4, hl3, filter_newest (sysMalloc_fresh hfresh h1) (le_refl _), hl1]
      exact filter_newest hfresh (le_refl _)

end

section

variable {s s' : Fs}

theorem inodeOpen_live {K : Kernel} {n : ℕ} {p : Ptr} (hfresh : s.kern.heap.Fresh) (hc : cached s n = none)
    (h : inodeOpen K n s = .ok (p, s')) : s'.kern.heap.live = (p, inodeSize) :: s.kern.heap.live := by
  unfold inodeOpen inodeLocate at h
  simp only [bind_ok, get_ok] at h
  obtain ⟨_, _, ⟨rfl, rfl⟩, h⟩ := h
  simp only [hc, bind_ok, liftKern_ok, withKernelPool_ok, assert_ok, pure_ok] at h
  obtain ⟨_, _, ⟨_, ⟨_, _, ⟨-, rfl⟩, rfl, rfl⟩, rfl⟩, found, _, ⟨_, ⟨k1, hm1, rfl⟩, rfl⟩, buf, _, ⟨k2, hm2, rfl⟩, h⟩ := h
  cases buf with
  | none => simp at h
  | some buf =>
    simp only [bind_ok, liftKern_ok] at h
    obtain ⟨buf', _, ⟨k3, hr, rfl⟩, h⟩ := h
    cases found with
    | none => simp at h
    | some found =>
      simp only [bind_ok, liftKern_ok, modify_ok, pure_ok] at h
      obtain ⟨_, _, rfl, _, _, hpush, _, _, rfl, _, _, ⟨k4, hf, rfl⟩, rfl, rfl⟩ := h
      obtain rfl := listPush_ok hpush
      obtain ⟨-, rfl, hl1, hn1⟩ := sysMalloc_some hm1
      obtain ⟨-, rfl, hl2, -⟩ := sysMalloc_some hm2
      have hl3 := ideRead_live hr
      obtain ⟨-, -, rfl⟩ := ideRead_ok hr
      have hl4 : k4.heap.live = k3.heap.live.filter fun b => b.1 ≠ ⟨k1.heap.next, s.kern.pool⟩ := (sysFree_filter hf).2
      have hfresh1 : k1.heap.Fresh := sysMalloc_fresh (k := { s.kern with pool := .kernel }) hfresh hm1
      change k4.heap.live = _
      rw [hl4, hl3, hl2]
      exact (filter_newest hfresh1 (le_refl _)).trans hl1

theorem inodeClose_closed {p : Ptr} {u : Unit} (hs : inodeClose p s = .ok (u, s')) :
    ((s.inodes p).iOpenCnts - 1 ≠ 0 ∧ s' = setInode p { s.inodes p with iOpenCnts := (s.inodes p).iOpenCnts - 1 } s) ∨
      ((s.inodes p).iOpenCnts - 1 = 0 ∧ ∃ k, HeapOnly s.kern k ∧ k.heap.live = s.kern.heap.live.filter (fun b => b.1 ≠ p) ∧
        s' = { setInode p { s.inodes p with iOpenCnts := (s.inodes p).iOpenCnts - 1 } s with
          kern := k
          openInodes := s.openInodes.erase p }) := by
  unfold inodeClose at hs
  simp only [bind_ok, modify_ok, get_ok] at hs
  obtain ⟨_, s1, rfl, _, _, ⟨rfl, rfl⟩, hs⟩ := hs
  split_ifs at hs with hz
  · simp only [setInode, Function.update_self] at hz
    simp only [bind_ok, liftKern_ok, withKernelPool_ok] at hs
    obtain ⟨_, s2, hrem, k, ⟨k1, hfree, rfl⟩, rfl⟩ := hs
    unfold listRemove at hrem
    split_ifs at hrem
    simp only [Except.ok.injEq, Prod.mk.injEq, true_and] at hrem
    subst hrem
    obtain ⟨hk, hl⟩ := sysFree_filter hfree
    exact .inr ⟨hz, { k1 with pool := s.kern.pool }, ⟨hk.disk, hk.blockBitmap, hk.inodeBitmap, rfl, hk.grant, hk.next⟩, hl, rfl⟩
  · simp only [setInode, Function.update_self] at hz
    obtain ⟨-, rfl⟩ := (pure_ok _ _ _ _).mp hs
    exact .inl ⟨hz, rfl⟩

end

structure SameDirectory (d : Memory) (inode : Inode) (d' : Memory) (inode' : Inode) : Prop where
  iSize : inode'.iSize = inode.iSize
  entries : ∀ pos, slotMap d' inode' pos = slotMap d inode pos

theorem SameDirectory.trans {d d' d'' : Memory} {i i' i'' : Inode} (h : SameDirectory d i d' i') (h' : SameDirectory d' i' d'' i'') :
    SameDirectory d i d'' i'' :=
  ⟨h'.iSize.trans h.iSize, fun pos => (h'.entries pos).trans (h.entries pos)⟩

theorem SameDirectory.of_stored (d : Memory) {i i' : Inode} (h : i.SameStored i') : SameDirectory d i d i' := by
  refine ⟨h.iSize.symm, fun pos => slotMap_congr ?_ fun _ _ _ => rfl⟩
  rw [h.blockAddr d]

structure Unmoved (K : Kernel) (s₀ s : Fs) : Prop where
  cached : ∀ p ∈ s₀.openInodes, SameDirectory s₀.kern.disk (s₀.inodes p) s.kern.disk (s.inodes p)
  stored : ∀ n < 4096, s₀.kern.inodeBitmap.scanTest n = true →
    SameDirectory s₀.kern.disk (Inode.load s₀.kern.disk (inodeAddr K.toPartition n)) s.kern.disk
      (Inode.load s.kern.disk (inodeAddr K.toPartition n))

structure Unwritten (s₀ s : Fs) : Prop where
  disk : s.kern.disk = s₀.kern.disk
  inodes : ∀ p ∈ s₀.openInodes, (s₀.inodes p).SameStored (s.inodes p)

def Lasting (s₀ : Fs) (D : Fs → Prop) : Prop := ∀ s s' : Fs, D s → s'.kern.disk = s.kern.disk →
  (∀ p ∈ s₀.openInodes, (s.inodes p).SameStored (s'.inodes p)) → D s'

theorem Unwritten.lasting (s₀ : Fs) : Lasting s₀ (Unwritten s₀) := by
  intro s s' h hdisk hin
  exact ⟨hdisk.trans h.disk, fun p hp => (h.inodes p hp).trans (hin p hp)⟩

theorem Unmoved.lasting (K : Kernel) (s₀ : Fs) : Lasting s₀ (Unmoved K s₀) := by
  intro s s' h hdisk hin
  refine ⟨fun p hp => ?_, fun n hn hused => ?_⟩
  · rw [hdisk]
    exact (h.cached p hp).trans (SameDirectory.of_stored _ (hin p hp))
  · rw [hdisk]
    exact h.stored n hn hused

theorem Unwritten.unmoved {s₀ s : Fs} (h : Unwritten s₀ s) (K : Kernel) : Unmoved K s₀ s := by
  refine ⟨fun p hp => ?_, fun n hn hused => ?_⟩
  · rw [h.disk]
    exact SameDirectory.of_stored _ (h.inodes p hp)
  · rw [h.disk]
    exact ⟨rfl, fun _ => rfl⟩

def Dir.entered (s₀ : Fs) : Dir → List Ptr
  | .root => []
  | .heap _ inode => if inode ∈ s₀.openInodes then [] else [inode]

def Dir.blocks (s₀ : Fs) : Dir → List (Ptr × ℕ)
  | .root => []
  | .heap ptr inode => (if inode ∈ s₀.openInodes then [] else [(inode, inodeSize)]) ++ [(ptr, dirSize)]

structure Visiting (held : Multiset Ptr) (s₀ : Fs) (D : Fs → Prop) (d : Dir) (s : Fs) : Prop where
  refs : Refs (dirRefs d + held) s
  openInodes : s.openInodes = d.entered s₀ ++ s₀.openInodes
  live : s.kern.heap.live = d.blocks s₀ ++ s₀.kern.heap.live
  fresh : s.kern.heap.Fresh
  next : s₀.kern.heap.next ≤ s.kern.heap.next
  apart : ∀ ptr p, d = .heap ptr p → s₀.kern.heap.next ≤ ptr.id ∧ (p ∉ s₀.openInodes → s₀.kern.heap.next ≤ p.id ∧ p ≠ ptr)
  blockBitmap : s.kern.blockBitmap = s₀.kern.blockBitmap
  inodeBitmap : s.kern.inodeBitmap = s₀.kern.inodeBitmap
  fileTable : s.fileTable = s₀.fileTable
  fdTable : s.fdTable = s₀.fdTable
  rootDir : s.rootDir = s₀.rootDir
  dirs : D s

section

variable {K : Kernel} {held : Multiset Ptr} {s₀ s s' : Fs} {D : Fs → Prop} {d : Dir}

theorem Visiting.start (hr : Refs held s) (hfresh : s.kern.heap.Fresh) : Visiting held s (Unwritten s) .root s where
  refs := by rwa [dirRefs, zero_add]
  openInodes := rfl
  live := rfl
  fresh := hfresh
  next := le_refl _
  apart := by
    intro _ _ h
    cases h
  blockBitmap := rfl
  inodeBitmap := rfl
  fileTable := rfl
  fdTable := rfl
  rootDir := rfl
  dirs := ⟨rfl, fun p _ => Inode.SameStored.refl _⟩

theorem Visiting.kern (h : Visiting held s₀ D d s) {k : Kern} (hk : HeapOnly s.kern k) (hlive : k.heap.live = s.kern.heap.live)
    (hD : Lasting s₀ D) : Visiting held s₀ D d { s with kern := k } where
  refs := h.refs.kern hk.next
  openInodes := h.openInodes
  live := hlive.trans h.live
  fresh := by
    intro b hb
    rw [hlive] at hb
    exact (h.fresh b hb).trans_le hk.next
  next := h.next.trans hk.next
  apart := h.apart
  blockBitmap := hk.blockBitmap.trans h.blockBitmap
  inodeBitmap := hk.inodeBitmap.trans h.inodeBitmap
  fileTable := h.fileTable
  fdTable := h.fdTable
  rootDir := h.rootDir
  dirs := hD s _ h.dirs hk.disk fun p _ => Inode.SameStored.refl _

theorem Visiting.look (h : Visiting held s₀ D d s) (hD : Lasting s₀ D) {inode : Inode} {name : Name} {r : Option DirEntry}
    (hs : liftKern (searchDirEntry K inode name) s = .ok (r, s')) : Visiting held s₀ D d s' := by
  obtain ⟨k, hk, rfl⟩ := (liftKern_ok _ _ _ _).mp hs
  obtain ⟨hheap, hlive⟩ := searchDirEntry_same h.fresh hk
  exact h.kern hheap hlive hD

theorem stored_counts (i : Inode) (n : ℕ) : i.SameStored { i with iOpenCnts := n } := ⟨rfl, rfl, fun _ _ => rfl⟩

theorem setInode_stored (p : Ptr) (n : ℕ) (s : Fs) (q : Ptr) :
    (s.inodes q).SameStored ((setInode p { s.inodes p with iOpenCnts := n } s).inodes q) := by
  by_cases he : q = p
  · subst he
    simp only [setInode, Function.update_self]
    exact stored_counts _ _
  · simp only [setInode, Function.update_of_ne he]
    exact Inode.SameStored.refl _

theorem Visiting.close (h : Visiting held s₀ D d s) (hr : Refs held s₀) (hfresh : s₀.kern.heap.Fresh) (hD : Lasting s₀ D) {u : Unit}
    (hs : dirClose d s = .ok (u, s')) : Visiting held s₀ D .root s' := by
  cases d with
  | root =>
    obtain ⟨-, rfl⟩ := (pure_ok _ _ _ _).mp hs
    exact h
  | heap ptr p =>
    have hrefs := (dirClose_refs h.refs hs).1
    obtain ⟨hptr, hnew⟩ := h.apart ptr p rfl
    unfold dirClose at hs
    simp only [bind_ok, liftKern_ok] at hs
    obtain ⟨_, s1, hclose, k, hfree, rfl⟩ := hs
    obtain ⟨hk, hl⟩ := sysFree_filter hfree
    have hcount := h.refs.count p ((h.refs.mem p).mp (Multiset.mem_add.mpr (.inl (Multiset.mem_singleton_self p))))
    rw [dirRefs, Multiset.count_add, Multiset.count_singleton_self] at hcount
    -- the state after the inode is closed
    have hclosed : s1.openInodes = s₀.openInodes ∧ s1.kern.heap.live = (ptr, dirSize) :: s₀.kern.heap.live ∧ HeapOnly s.kern s1.kern ∧
        s1.fileTable = s.fileTable ∧ s1.fdTable = s.fdTable ∧ s1.rootDir = s.rootDir ∧ ∀ q, (s.inodes q).SameStored (s1.inodes q) := by
      by_cases hmem : p ∈ s₀.openInodes
      · have hpos : 0 < held.count p := Multiset.count_pos.mpr ((hr.mem p).mpr hmem)
        have hopen := h.openInodes
        have hlive := h.live
        simp only [Dir.entered, Dir.blocks, if_pos hmem, List.nil_append, List.singleton_append] at hopen hlive
        rcases inodeClose_closed hclose with ⟨-, rfl⟩ | ⟨hz, -⟩
        · exact ⟨hopen, hlive, HeapOnly.refl _, rfl, rfl, rfl, setInode_stored p _ s⟩
        · omega
      · have hzero : held.count p = 0 := Multiset.count_eq_zero.mpr fun hp => hmem ((hr.mem p).mp hp)
        have hopen := h.openInodes
        have hlive := h.live
        simp only [Dir.entered, Dir.blocks, if_neg hmem, List.singleton_append] at hopen hlive
        obtain ⟨hp, hne⟩ := hnew hmem
        rcases inodeClose_closed hclose with ⟨hz, -⟩ | ⟨-, k1, hk1, hl1, rfl⟩
        · omega
        · refine ⟨?_, ?_, hk1, rfl, rfl, rfl, setInode_stored p _ s⟩
          · change s.openInodes.erase p = _
            rw [hopen, List.erase_cons_head]
          · change k1.heap.live = _
            rw [hl1, hlive, List.cons_append, List.filter_cons_of_neg (by simp), List.singleton_append,
              List.filter_cons_of_pos (by simpa using hne.symm), filter_older hfresh hp]
    obtain ⟨hopen, hlive, hheap, hfiles, hfds, hroot, hstored⟩ := hclosed
    have hall := hheap.trans hk
    have hend : k.heap.live = s₀.kern.heap.live := by
      rw [hl, hlive]
      exact filter_newest hfresh hptr
    refine ⟨?_, hopen, hend, ?_, h.next.trans hall.next, ?_, hall.blockBitmap.trans h.blockBitmap, hall.inodeBitmap.trans h.inodeBitmap,
      hfiles.trans h.fileTable, hfds.trans h.fdTable, hroot.trans h.rootDir, hD s _ h.dirs hall.disk fun q _ => hstored q⟩
    · rwa [dirRefs, zero_add]
    · intro b hb
      change b ∈ k.heap.live at hb
      rw [hend] at hb
      exact ((hfresh b hb).trans_le h.next).trans_le hall.next
    · intro _ _ hd
      cases hd

theorem Visiting.open (h : Visiting held s₀ D .root s) (hr : Refs held s₀) (hD : Lasting s₀ D) {n : ℕ} (hs : dirOpen K n s = .ok (d, s')) :
    Visiting held s₀ D d s' := by
  have hrefs := h.refs
  rw [dirRefs, zero_add] at hrefs
  have hrefs' := (dirOpen_refs hrefs hs).1
  unfold dirOpen at hs
  simp only [bind_ok, liftKern_ok] at hs
  obtain ⟨pdir, s1, ⟨k1, hm1, rfl⟩, p, s2, hopen, hs⟩ := hs
  cases pdir with
  | none => simp at hs
  | some pdir =>
    obtain ⟨rfl, rfl⟩ := (pure_ok _ _ _ _).mp hs
    obtain ⟨hk1, rfl, hl1, hn1⟩ := sysMalloc_some hm1
    have hfresh1 := sysMalloc_fresh h.fresh hm1
    have hcache := h.openInodes
    have hlive := h.live
    simp only [Dir.entered, Dir.blocks, List.nil_append] at hcache hlive
    have hnext := h.next
    cases hc : cached { s with kern := k1 } n with
    | some q =>
      rw [inodeOpen_hit hc] at hopen
      simp only [Except.ok.injEq, Prod.mk.injEq] at hopen
      obtain ⟨rfl, rfl⟩ := hopen
      have hmem : q ∈ s₀.openInodes := by
        rw [← hcache]
        exact (cached_mem hc).1
      refine ⟨hrefs', ?_, ?_, hfresh1, h.next.trans hk1.next, ?_, hk1.blockBitmap.trans h.blockBitmap, hk1.inodeBitmap.trans h.inodeBitmap,
        h.fileTable, h.fdTable, h.rootDir, hD s _ h.dirs hk1.disk fun r _ => setInode_stored q _ { s with kern := k1 } r⟩
      · simp only [Dir.entered, if_pos hmem, List.nil_append]
        exact hcache
      · simp only [Dir.blocks, if_pos hmem, List.nil_append, List.singleton_append]
        exact hl1.trans (by rw [hlive])
      · rintro _ _ ⟨⟩
        exact ⟨hnext, fun hno => absurd hmem hno⟩
    | none =>
      obtain ⟨-, rfl, hheap, hlt, heq⟩ := inodeOpen_miss hc hopen
      have hl2 := inodeOpen_live hfresh1 hc hopen
      have hnot : (⟨k1.heap.next, .kernel⟩ : Ptr) ∉ s₀.openInodes := by
        intro hmem
        have := hr.fresh _ hmem
        dsimp only at this
        omega
      generalize s2.kern = k2 at heq hheap hlt hl2
      subst heq
      have hall := hk1.trans hheap
      refine ⟨hrefs', ?_, ?_, ?_, h.next.trans hall.next, ?_, hall.blockBitmap.trans h.blockBitmap, hall.inodeBitmap.trans h.inodeBitmap,
        h.fileTable, h.fdTable, h.rootDir, hD s _ h.dirs hall.disk fun r hr' => ?_⟩
      · simp only [Dir.entered, if_neg hnot, List.singleton_append]
        rw [hcache]
      · simp only [Dir.blocks, if_neg hnot, List.cons_append]
        rw [hl2]
        change _ :: k1.heap.live = _
        rw [hl1, hlive]
        rfl
      · intro b hb
        rw [hl2] at hb
        rcases List.mem_cons.mp hb with rfl | hb
        · exact hlt
        · exact (hfresh1 b hb).trans hlt
      · rintro _ _ ⟨⟩
        refine ⟨hnext, fun _ => ⟨?_, ?_⟩⟩
        · dsimp only
          omega
        · intro he
          have := congrArg Ptr.id he
          dsimp only at this
          omega
      · have hne : r ≠ ⟨k1.heap.next, .kernel⟩ := by
          rintro rfl
          exact hnot hr'
        simp only [Function.update_of_ne hne]
        exact Inode.SameStored.refl _

theorem Visiting.mono (h : Visiting held s₀ D d s) {D' : Fs → Prop} (hD : D s → D' s) : Visiting held s₀ D' d s :=
  ⟨h.refs, h.openInodes, h.live, h.fresh, h.next, h.apart, h.blockBitmap, h.inodeBitmap, h.fileTable, h.fdTable, h.rootDir, hD h.dirs⟩

structure Undone (k k' : Kern) : Prop where
  blockBitmap : k'.blockBitmap = k.blockBitmap
  inodeBitmap : k'.inodeBitmap = k.inodeBitmap
  live : k'.heap.live = k.heap.live
  next : k.heap.next ≤ k'.heap.next

theorem Visiting.back (h : Visiting held s₀ D d s) {k : Kern} {inodes : Ptr → Inode} {D' : Fs → Prop} (hk : Undone s.kern k)
    (hcount : ∀ p ∈ s.openInodes, (inodes p).iOpenCnts = (s.inodes p).iOpenCnts) (hD : D' { s with kern := k, inodes := inodes }) :
    Visiting held s₀ D' d { s with kern := k, inodes := inodes } where
  refs := ⟨h.refs.nodup, fun p hp => (h.refs.fresh p hp).trans_le hk.next, fun p hp => (hcount p hp).trans (h.refs.count p hp), h.refs.mem⟩
  openInodes := h.openInodes
  live := hk.live.trans h.live
  fresh := by
    intro b hb
    change b ∈ k.heap.live at hb
    rw [hk.live] at hb
    exact (h.fresh b hb).trans_le hk.next
  next := h.next.trans hk.next
  apart := h.apart
  blockBitmap := hk.blockBitmap.trans h.blockBitmap
  inodeBitmap := hk.inodeBitmap.trans h.inodeBitmap
  fileTable := h.fileTable
  fdTable := h.fdTable
  rootDir := h.rootDir
  dirs := hD

theorem dirClose_effect {u : Unit} (hs : dirClose d s = .ok (u, s')) : HeapOnly s.kern s'.kern ∧ s'.fileTable = s.fileTable ∧
    (∀ q, (s.inodes q).SameStored (s'.inodes q)) ∧
      ∀ b ∈ s.kern.heap.live, (∀ ptr p, d = .heap ptr p → b.1 ≠ ptr ∧ b.1 ≠ p) → b ∈ s'.kern.heap.live := by
  cases d with
  | root =>
    obtain ⟨-, rfl⟩ := (pure_ok _ _ _ _).mp hs
    exact ⟨HeapOnly.refl _, rfl, fun q => Inode.SameStored.refl _, fun b hb _ => hb⟩
  | heap ptr p =>
    unfold dirClose at hs
    simp only [bind_ok, liftKern_ok] at hs
    obtain ⟨_, s1, hclose, k, hfree, rfl⟩ := hs
    obtain ⟨hk, hl⟩ := sysFree_filter hfree
    have hkeeps : ∀ b ∈ s1.kern.heap.live, b.1 ≠ ptr → b ∈ k.heap.live := by
      intro b hb hne
      rw [hl]
      exact List.mem_filter.mpr ⟨hb, by simpa using hne⟩
    rcases inodeClose_closed hclose with ⟨-, rfl⟩ | ⟨-, k1, hk1, hl1, rfl⟩
    · exact ⟨hk, rfl, setInode_stored p _ s, fun b hb hne => hkeeps b hb (hne ptr p rfl).1⟩
    · refine ⟨hk1.trans hk, rfl, setInode_stored p _ s, fun b hb hne => ?_⟩
      obtain ⟨hptr, hp⟩ := hne ptr p rfl
      refine hkeeps b ?_ hptr
      change b ∈ k1.heap.live
      rw [hl1]
      exact List.mem_filter.mpr ⟨hb, by simpa using hp⟩

theorem Visiting.searchFile (h : Visiting held s₀ D .root s) (hr : Refs held s₀) (hfresh : s₀.kern.heap.Fresh) (hD : Lasting s₀ D)
    {junk : Junk} {pathname : Path} {r : Option ℕ × PathSearchRecord} (hs : searchFile K junk pathname s = .ok (r, s')) :
    Visiting held s₀ D r.2.parentDir s' := by
  have hsteps : SearchSteps K (Visiting held s₀ D) := by
    refine ⟨?_, ?_, ?_⟩
    · intro n t t' d ht hopen
      exact ht.open hr hD hopen
    · intro d t t' u ht hclose
      exact ht.close hr hfresh hD hclose
    · intro d inode name t t' found ht hlook
      exact ht.look hD hlook
  exact hsteps.searchFile h hs

end

end ElephantOS
