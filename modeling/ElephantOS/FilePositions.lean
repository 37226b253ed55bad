import ElephantOS.TransferBuffers

namespace ElephantOS

open ByteMemory HaltingState

section

variable {K : Kernel} {k k' : Kern} {file file' : File} {inode inode' : Inode}

theorem u32_chunk {pos left : ℕ} (h : pos / 512 < 140) : u32 (pos + min left (512 - pos % 512)) = pos + min left (512 - pos % 512) ∧
    pos + min left (512 - pos % 512) ≤ 140 * 512 := by
  have hmod : pos % 512 < 512 := Nat.mod_lt _ (by omega)
  exact ⟨Nat.mod_eq_of_lt (by omega), by omega⟩

theorem readLoop_pos {blocks : ℕ → ℕ} {size fuel br br' : ℕ} {io : Option Buffer} {buf buf' : Memory} (hfuel : size ≤ br + fuel)
    (hbr : br ≤ size) (h : readLoop blocks size fuel br io file buf k = .ok ((br', file', buf'), k')) :
    file'.fdPos = file.fdPos + (size - br) ∧ (br < size → file'.fdPos ≤ 140 * 512) := by
  induction fuel generalizing br io file buf k with
  | zero =>
    simp only [readLoop, pure_ok, Prod.mk.injEq] at h
    obtain ⟨⟨-, rfl, -⟩, -⟩ := h
    exact ⟨by omega, by omega⟩
  | succ fuel ih =>
    unfold readLoop at h
    split_ifs at h with hlt
    · simp only [bind_ok, bound_ok] at h
      obtain ⟨_, _, ⟨hidx, rfl⟩, h⟩ := h
      cases io with
      | none => simp at h
      | some io =>
        simp only [bind_ok] at h
        obtain ⟨io', k1, -, h⟩ := h
        obtain ⟨hu, hle⟩ := @u32_chunk file.fdPos (size - br) hidx
        have hmod : file.fdPos % 512 < 512 := Nat.mod_lt _ (by omega)
        obtain ⟨hpos, hend⟩ := ih (by omega) (by omega) h
        dsimp only at hpos
        rw [hu] at hpos
        refine ⟨by omega, fun _ => ?_⟩
        by_cases hmore : br + min (size - br) (512 - file.fdPos % 512) < size
        · exact hend hmore
        · omega
    · simp only [pure_ok, Prod.mk.injEq] at h
      obtain ⟨⟨-, rfl, -⟩, -⟩ := h
      exact ⟨by omega, by omega⟩

theorem fileRead_pos {buf buf' : Memory} {count : ℕ} {ret : ℤ} (hsize : inode.iSize < 2 ^ 32) (hpos : file.fdPos ≤ inode.iSize)
    (h : fileRead file inode buf count k = .ok ((ret, file', buf'), k')) : file'.fdPos ≤ inode.iSize := by
  unfold fileRead at h
  dsimp only at h
  generalize hs : (if u32 (file.fdPos + count) > inode.iSize then u32 (inode.iSize + 2 ^ 32 - file.fdPos) else count) = size at h
  split_ifs at h with hend
  · simp only [pure_ok, Prod.mk.injEq] at h
    obtain ⟨⟨-, rfl, -⟩, -⟩ := h
    exact hpos
  · rw [bind_ok] at h
    obtain ⟨io, k1, -, h⟩ := h
    rw [bind_ok] at h
    obtain ⟨all, k2, -, h⟩ := h
    cases all with
    | none =>
      simp only [pure_ok, Prod.mk.injEq] at h
      obtain ⟨⟨-, rfl, -⟩, -⟩ := h
      exact hpos
    | some all =>
      simp only [bind_ok, assert_ok] at h
      obtain ⟨_, _, -, blocks, k3, -, ⟨br, file₁, buf₁⟩, k4, hloop, _, k5, -, h⟩ := h
      obtain ⟨hread, hlimit⟩ := readLoop_pos (by omega) (Nat.zero_le _) hloop
      have hfile : file' = file₁ := by
        cases io with
        | none => simp at h
        | some io =>
          simp only [bind_ok, pure_ok, Prod.mk.injEq] at h
          obtain ⟨_, _, -, ⟨-, rfl, -⟩, -⟩ := h
          rfl
      rw [hfile, hread, Nat.sub_zero]
      split_ifs at hs with hpast
      · have hu : u32 (inode.iSize + 2 ^ 32 - file.fdPos) = inode.iSize - file.fdPos := by
          unfold u32
          omega
        omega
      · by_cases hzero : size = 0
        · omega
        · have hle := hlimit (by omega)
          have hu : u32 (file.fdPos + count) = file.fdPos + count := Nat.mod_eq_of_lt (by omega)
          omega

theorem writeLoop_pos {blocks : ℕ → ℕ} {buf : Memory} {count fuel bw bw' : ℕ} {first : Bool} {io io' : Buffer} (hfuel : count ≤ bw + fuel)
    (hbw : bw ≤ count) (hfile : file.fdPos < 2 ^ 32)
    (h : writeLoop blocks buf count fuel bw first io file inode k = .ok ((bw', io', file', inode'), k')) :
    inode'.iSize = inode.iSize + (count - bw) ∧ (bw < count → inode'.iSize ≤ 140 * 512) ∧
      file'.fdPos = u32 (file.fdPos + (count - bw)) := by
  induction fuel generalizing bw first io file inode k with
  | zero =>
    simp only [writeLoop, pure_ok, Prod.mk.injEq] at h
    obtain ⟨⟨-, -, rfl, rfl⟩, -⟩ := h
    have hzero : count - bw = 0 := by omega
    rw [hzero, Nat.add_zero, Nat.add_zero, u32, Nat.mod_eq_of_lt hfile]
    exact ⟨rfl, by omega, rfl⟩
  | succ fuel ih =>
    unfold writeLoop at h
    split_ifs at h with hlt
    · simp only [bind_ok, bound_ok] at h
      obtain ⟨_, _, ⟨hidx, -⟩, _, _, -, _, _, -, h⟩ := h
      obtain ⟨hu, hle⟩ := @u32_chunk inode.iSize (count - bw) hidx
      have hmod : inode.iSize % 512 < 512 := Nat.mod_lt _ (by omega)
      obtain ⟨hsize, hlimit, hpos⟩ := ih (by omega) (by omega) (Nat.mod_lt _ (by omega)) h
      dsimp only at hsize hpos
      rw [hu] at hsize
      refine ⟨by omega, fun _ => ?_, ?_⟩
      · by_cases hmore : bw + min (count - bw) (512 - inode.iSize % 512) < count
        · exact hlimit hmore
        · omega
      · rw [hpos]
        unfold u32
        omega
    · simp only [pure_ok, Prod.mk.injEq] at h
      obtain ⟨⟨-, -, rfl, rfl⟩, -⟩ := h
      have hzero : count - bw = 0 := by omega
      rw [hzero, Nat.add_zero, Nat.add_zero, u32, Nat.mod_eq_of_lt hfile]
      exact ⟨rfl, by omega, rfl⟩

theorem fileWrite_pos {buf : Memory} {count : ℕ} {ret : ℤ} (h : fileWrite K file inode buf count k = .ok ((ret, file', inode'), k')) :
    (file' = file ∧ inode'.iSize = inode.iSize) ∨
      (¬ WriteRefused k inode count ∧ inode'.iSize = inode.iSize + count ∧ (0 < count → inode'.iSize ≤ 140 * 512) ∧
        file'.fdPos = u32 (u32 (inode.iSize + 2 ^ 32 - 1) + count)) := by
  rcases fileWrite_stages h with ⟨-, -, rfl, rfl, -⟩ | ⟨hgo, io, k2, -, -, inode₁, k3, h3, _, _, inode₂, blocks, k4, h4, n, io', k5, hloop, -⟩
  · exact .inl ⟨rfl, rfl⟩
  have hsize1 := ((firstBlock_gives K inode) _ _ _ h3).2.iSize
  have hsize2 := ((collectBlocks_gives K _ _ _) _ _ _ h4).2.iSize
  obtain ⟨hs, hlimit, hp⟩ := writeLoop_pos (by omega) (Nat.zero_le _) (Nat.mod_lt _ (by omega)) hloop
  rw [Nat.sub_zero] at hs hp
  dsimp only at hsize1 hsize2 hp
  rw [hsize2, hsize1] at hs hp
  exact .inr ⟨hgo, hs, hlimit, hp⟩

theorem fileWrite_inside {buf : Memory} {count : ℕ} {ret : ℤ} (hsize : inode.iSize < 2 ^ 31) (hpos : file.fdPos ≤ inode.iSize)
    (hzero : count = 0 → ¬ WriteRefused k inode 0 → inode.iSize ≠ 0)
    (h : fileWrite K file inode buf count k = .ok ((ret, file', inode'), k')) :
    file'.fdPos ≤ inode'.iSize ∧ inode.iSize ≤ inode'.iSize ∧ inode'.iSize < 2 ^ 31 := by
  rcases fileWrite_pos h with ⟨rfl, hs⟩ | ⟨hgo, hs, hlimit, hp⟩
  · exact ⟨by omega, by omega, by omega⟩
  · by_cases hc : count = 0
    · subst hc
      have hne := hzero rfl hgo
      unfold u32 at hp
      exact ⟨by omega, by omega, by omega⟩
    · have hle := hlimit (by omega)
      unfold u32 at hp
      exact ⟨by omega, by omega, by omega⟩

end

def Positioned (s : Fs) : Prop := ∀ k < maxFileOpen, ∀ p, (s.fileTable k).fdInode = some p →
  (s.fileTable k).fdPos ≤ (s.inodes p).iSize ∧ (s.inodes p).iSize < 2 ^ 31

section

variable {K : Kernel} {s s' : Fs} {task : ℕ}

structure Moved (file file' : File) (inode inode' : Inode) : Prop where
  fdInode : file'.fdInode = file.fdInode
  fdPos : file'.fdPos ≤ inode'.iSize
  grows : inode.iSize ≤ inode'.iSize
  size : inode'.iSize < 2 ^ 31

theorem onFile_ok {k : ℕ} {m : File → Inode → KernM (ℤ × File × Inode)} {r : ℤ} (hs : onFile k m s = .ok (r, s')) :
    ∃ p file inode kern, (s.fileTable k).fdInode = some p ∧
      m (s.fileTable k) (s.inodes p) s.kern = .ok ((r, file, inode), kern) ∧
      s' = setInode p inode (setFile k file { s with kern := kern }) := by
  unfold onFile at hs
  rw [bind_ok] at hs
  obtain ⟨_, _, hget, hs⟩ := hs
  obtain ⟨rfl, rfl⟩ := (get_ok _ _ _).mp hget
  cases hp : (s.fileTable k).fdInode with
  | none => simp [hp] at hs
  | some p =>
    simp only [hp, bind_ok, modify_ok, pure_ok] at hs
    obtain ⟨⟨r', file, inode⟩, s1, hl, _, _, rfl, _, _, rfl, rfl, rfl⟩ := hs
    obtain ⟨kern, hk, rfl⟩ := (liftKern_ok _ _ _ _).mp hl
    exact ⟨p, file, inode, kern, rfl, hk, rfl⟩

theorem Positioned.onFile (h : Positioned s) {k : ℕ} {p : Ptr} {file : File} {inode : Inode} {kern : Kern}
    (hp : (s.fileTable k).fdInode = some p) (hm : Moved (s.fileTable k) file (s.inodes p) inode) :
    Positioned (setInode p inode (setFile k file { s with kern := kern })) := by
  intro j hj q hq
  by_cases hjk : j = k
  · subst hjk
    simp only [setInode, setFile, Function.update_self] at hq ⊢
    rw [hm.fdInode, hp, Option.some.injEq] at hq
    subst hq
    rw [Function.update_self]
    exact ⟨hm.fdPos, hm.size⟩
  · simp only [setInode, setFile, Function.update_of_ne hjk] at hq ⊢
    obtain ⟨hpos, hsize⟩ := h j hj q hq
    by_cases hqp : q = p
    · subst hqp
      rw [Function.update_self]
      exact ⟨hpos.trans hm.grows, hm.size⟩
    · rw [Function.update_of_ne hqp]
      exact ⟨hpos, hsize⟩

theorem inodeClose_sizes {p : Ptr} {u : Unit} (hs : inodeClose p s = .ok (u, s')) : s'.fileTable = s.fileTable ∧
    (∀ q, (s'.inodes q).iSize = (s.inodes q).iSize) ∧ (∀ q ∈ s'.openInodes, q ∈ s.openInodes) ∧ HeapOnly s.kern s'.kern := by
  have hsize : ∀ q, (Function.update s.inodes p { s.inodes p with iOpenCnts := (s.inodes p).iOpenCnts - 1 } q).iSize =
      (s.inodes q).iSize := by
    intro q
    by_cases he : q = p
    · rw [he, Function.update_self]
    · rw [Function.update_of_ne he]
  unfold inodeClose at hs
  simp only [bind_ok, modify_ok, get_ok] at hs
  obtain ⟨_, s1, rfl, _, _, ⟨rfl, rfl⟩, hs⟩ := hs
  split_ifs at hs
  · simp only [bind_ok, liftKern_ok, withKernelPool_ok] at hs
    obtain ⟨_, s2, hrem, k, ⟨k1, hfree, rfl⟩, rfl⟩ := hs
    unfold listRemove at hrem
    split_ifs at hrem
    simp only [Except.ok.injEq, Prod.mk.injEq, true_and] at hrem
    subst hrem
    have hk := sysFree_ok hfree
    exact ⟨rfl, hsize, fun q hq => List.mem_of_mem_erase hq, hk.disk, hk.blockBitmap, hk.inodeBitmap, rfl, hk.grant, hk.next⟩
  · obtain ⟨-, rfl⟩ := (pure_ok _ _ _ _).mp hs
    exact ⟨rfl, hsize, fun q hq => hq, HeapOnly.refl _⟩

theorem Positioned.sysClose (h : Positioned s) {fd r : ℤ} (hs : ElephantOS.sysClose task fd s = .ok (r, s')) : Positioned s' := by
  rcases sysClose_ok hs with ⟨-, -, rfl⟩ | ⟨j, k, s1, -, -, -, -, -, hclose, rfl⟩
  · exact h
  unfold fileClose at hclose
  simp only [bind_ok, get_ok] at hclose
  obtain ⟨_, _, ⟨rfl, rfl⟩, hclose⟩ := hclose
  cases hk : (s.fileTable k).fdInode with
  | none => simp [hk] at hclose
  | some p =>
    simp only [hk, bind_ok, modify_ok, pure_ok] at hclose
    obtain ⟨_, _, rfl, _, s2, h2, _, _, rfl, -, rfl⟩ := hclose
    obtain ⟨hfiles, hsizes, -, -⟩ := inodeClose_sizes h2
    have hdeny : ∀ q, (Function.update s.inodes p { s.inodes p with writeDeny := false } q).iSize = (s.inodes q).iSize := by
      intro q
      by_cases he : q = p
      · rw [he, Function.update_self]
      · rw [Function.update_of_ne he]
    intro i hi q hq
    by_cases hik : i = k
    · subst hik
      simp [setFd, setFile] at hq
    · simp only [setFd, setFile, Function.update_of_ne hik] at hq ⊢
      rw [hfiles] at hq ⊢
      rw [hsizes q]
      change _ ≤ (Function.update s.inodes p _ q).iSize ∧ (Function.update s.inodes p _ q).iSize < _
      rw [hdeny q]
      exact h i hi q hq

structure Larger (s₀ : Fs) (new : Option Ptr) (limit : ℕ) (s : Fs) : Prop where
  next : s₀.kern.heap.next ≤ s.kern.heap.next
  size : ∀ p, p.id < s₀.kern.heap.next → (s₀.inodes p).iSize ≤ (s.inodes p).iSize
  cache : ∀ p, p ∈ s.openInodes ∨ new = some p → (s.inodes p).iSize < limit
  files : ∀ k, (s.fileTable k).fdInode ≠ none → s.fileTable k = s₀.fileTable k ∨ (s.fileTable k).fdPos = 0

namespace Larger

variable {s₀ : Fs} {new : Option Ptr} {limit : ℕ}

theorem kern (h : Larger s₀ new limit s) {k : Kern} (hk : s.kern.heap.next ≤ k.heap.next) : Larger s₀ new limit { s with kern := k } :=
  ⟨h.next.trans hk, h.size, h.cache, h.files⟩

theorem liftKern (h : Larger s₀ new limit s) {α : Type} {m : KernM α} {a : α} (hm : Quiet m)
    (hs : ElephantOS.liftKern m s = .ok (a, s')) : Larger s₀ new limit s' := by
  obtain ⟨k, rfl, hk⟩ := liftKern_quiet hm hs
  exact h.kern hk.next

theorem setInode (h : Larger s₀ new limit s) {p : Ptr} {inode : Inode} (hold : p.id < s₀.kern.heap.next → (s₀.inodes p).iSize ≤ inode.iSize)
    (hnew : inode.iSize < limit) : Larger s₀ new limit (setInode p inode s) := by
  refine ⟨h.next, fun q hq => ?_, fun q hq => ?_, h.files⟩
  · by_cases he : q = p
    · subst he
      simp only [ElephantOS.setInode, Function.update_self]
      exact hold hq
    · simp only [ElephantOS.setInode, Function.update_of_ne he]
      exact h.size q hq
  · by_cases he : q = p
    · subst he
      simp only [ElephantOS.setInode, Function.update_self]
      exact hnew
    · simp only [ElephantOS.setInode, Function.update_of_ne he]
      exact h.cache q hq

theorem sameSize (h : Larger s₀ new limit s) {p : Ptr} {inode : Inode} (hsize : inode.iSize = (s.inodes p).iSize) :
    Larger s₀ new limit (ElephantOS.setInode p inode s) := by
  have hsame : ∀ q, ((ElephantOS.setInode p inode s).inodes q).iSize = (s.inodes q).iSize := by
    intro q
    by_cases he : q = p
    · subst he
      simp only [ElephantOS.setInode, Function.update_self]
      exact hsize
    · simp only [ElephantOS.setInode, Function.update_of_ne he]
  refine ⟨h.next, fun q hq => ?_, fun q hq => ?_, h.files⟩
  · rw [hsame q]
    exact h.size q hq
  · rw [hsame q]
    exact h.cache q hq

theorem setFile (h : Larger s₀ new limit s) (k : ℕ) {file : File} (hpos : file.fdPos = 0) : Larger s₀ new limit (setFile k file s) := by
  refine ⟨h.next, h.size, h.cache, fun j hj => ?_⟩
  by_cases he : j = k
  · subst he
    simp only [ElephantOS.setFile, Function.update_self]
    exact .inr hpos
  · simp only [ElephantOS.setFile, Function.update_of_ne he] at hj ⊢
    exact h.files j hj

theorem pcbFdInstall (h : Larger s₀ new limit s) {k : ℕ} {r : ℤ} (hs : pcbFdInstall task k s = .ok (r, s')) : Larger s₀ new limit s' := by
  rcases pcbFdInstall_ok hs with ⟨j, -, -, rfl⟩ | ⟨-, rfl, -⟩
  · exact ⟨h.next, h.size, h.cache, h.files⟩
  · exact h

theorem forget (h : Larger s₀ new limit s) : Larger s₀ none limit s := by
  refine ⟨h.next, h.size, fun p hp => h.cache p (.inl ?_), h.files⟩
  rcases hp with hp | hp
  · exact hp
  · cases hp

theorem mono (h : Larger s₀ new limit s) {limit' : ℕ} (hle : limit ≤ limit') : Larger s₀ new limit' s :=
  ⟨h.next, h.size, fun p hp => (h.cache p hp).trans_le hle, h.files⟩

theorem inodeClose (h : Larger s₀ new limit s) {p : Ptr} {u : Unit} (hs : inodeClose p s = .ok (u, s')) : Larger s₀ new limit s' := by
  obtain ⟨hfiles, hsize, hopen, hk⟩ := inodeClose_sizes hs
  refine ⟨h.next.trans hk.next, fun q hq => ?_, fun q hq => ?_, ?_⟩
  · rw [hsize q]
    exact h.size q hq
  · rw [hsize q]
    exact h.cache q (hq.imp_left (hopen q))
  · rw [hfiles]
    exact h.files

theorem dirClose (h : Larger s₀ new limit s) {d : Dir} {u : Unit} (hs : dirClose d s = .ok (u, s')) : Larger s₀ new limit s' := by
  cases d with
  | root =>
    obtain ⟨-, rfl⟩ := (pure_ok _ _ _ _).mp hs
    exact h
  | heap ptr inode =>
    unfold ElephantOS.dirClose at hs
    simp only [bind_ok] at hs
    obtain ⟨_, s1, h1, h2⟩ := hs
    exact (h.inodeClose h1).liftKern (Quiet.sysFree _) h2

theorem inodeOpen (h : Larger s₀ new limit s) (hdisk : ∀ n < 4096, (Inode.load s.kern.disk (inodeAddr K.toPartition n)).iSize < limit)
    {n : ℕ} {p : Ptr} (hs : inodeOpen K n s = .ok (p, s')) : Larger s₀ new limit s' ∧ s'.kern.disk = s.kern.disk := by
  cases hc : cached s n with
  | some q =>
    rw [inodeOpen_hit hc] at hs
    simp only [Except.ok.injEq, Prod.mk.injEq] at hs
    obtain ⟨-, rfl⟩ := hs
    exact ⟨h.sameSize rfl, rfl⟩
  | none =>
    obtain ⟨hn, rfl, hheap, -, heq⟩ := inodeOpen_miss hc hs
    have hnext := hheap.next
    have hkern := hheap.disk
    generalize s'.kern = k' at heq hnext hkern
    subst heq
    refine ⟨⟨h.next.trans hnext, fun q hq => ?_, fun q hq => ?_, h.files⟩, hkern⟩
    · have he : q ≠ ⟨s.kern.heap.next, .kernel⟩ := by
        rintro rfl
        exact absurd h.next (by dsimp only at hq; omega)
      simp only [Function.update_of_ne he]
      exact h.size q hq
    · by_cases he : q = ⟨s.kern.heap.next, .kernel⟩
      · subst he
        simp only [Function.update_self]
        exact hdisk n hn
      · simp only [Function.update_of_ne he]
        apply h.cache
        rcases hq with hq | hq
        · exact .inl (List.mem_of_ne_of_mem he hq)
        · exact .inr hq

end Larger

theorem searchDirEntry_disk (K : Kernel) (inode : Inode) (name : Name) : Leaves Kern.disk (searchDirEntry K inode name) fun _ => True := by
  have hfree : ∀ p, Leaves Kern.disk (sysFree p) fun _ => True := fun p k _ k' h => ⟨(sysFree_ok h).disk, trivial⟩
  have hmalloc : ∀ n, Leaves Kern.disk (sysMalloc n) fun _ => True := fun n k _ k' h => ⟨(sysMalloc_ok h).1.disk, trivial⟩
  have hblocks : ∀ (blocks : ℕ → ℕ) (more idx : ℕ) (buf : Buffer),
      Leaves Kern.disk (searchBlocks K blocks name more idx buf) fun _ => True := by
    intro blocks more
    induction more with
    | zero =>
      intro _ _
      exact Leaves.pure trivial
    | succ more ih =>
      intro idx buf
      unfold searchBlocks
      split_ifs
      · exact ih _ _
      · apply Leaves.bind (fun k _ k' h => ⟨(ideRead_ok h).2.1.disk, trivial⟩ : Leaves Kern.disk (ideRead _ _ _) fun _ => True)
        intro b _
        split
        · exact Leaves.pure trivial
        · exact ih _ _
  apply Leaves.bind (hmalloc _)
  intro all _
  cases all with
  | none => exact Leaves.pure trivial
  | some all =>
    apply Leaves.bind (fun k a k' h => ?_ : Leaves Kern.disk (allDirBlocks inode) fun _ => True)
    · intro blocks _
      apply Leaves.bind (hmalloc _)
      intro buf _
      cases buf with
      | none => exact Leaves.halt _
      | some buf =>
        apply Leaves.bind (hblocks _ _ _ _)
        intro _ _
        apply Leaves.bind (hfree _)
        intro _ _
        apply Leaves.bind (hfree _)
        intro _ _
        exact Leaves.pure trivial
    · unfold allDirBlocks at h
      split_ifs at h
      · obtain ⟨-, rfl, -⟩ := (readTable_ok _ _ _ _ _).mp h
        exact ⟨rfl, trivial⟩
      · obtain ⟨-, rfl⟩ := (pure_ok _ _ _ _).mp h
        exact ⟨rfl, trivial⟩

def Scanning (s₀ : Fs) (limit : ℕ) (s : Fs) : Prop := Larger s₀ none limit s ∧ s.kern.disk = s₀.kern.disk

section

variable {s₀ : Fs} {limit : ℕ}

theorem Scanning.inodeOpen (hdisk : ∀ n < 4096, (Inode.load s₀.kern.disk (inodeAddr K.toPartition n)).iSize < limit) {n : ℕ} {p : Ptr}
    (h : Scanning s₀ limit s) (hs : inodeOpen K n s = .ok (p, s')) : Scanning s₀ limit s' := by
  rw [← h.2] at hdisk
  obtain ⟨h', hd⟩ := h.1.inodeOpen hdisk hs
  exact ⟨h', hd.trans h.2⟩

theorem Scanning.search (hdisk : ∀ n < 4096, (Inode.load s₀.kern.disk (inodeAddr K.toPartition n)).iSize < limit) :
    SearchSteps K fun _ => Scanning s₀ limit where
  opens := by
    intro n s s' d h hs
    unfold dirOpen at hs
    simp only [bind_ok, liftKern_ok] at hs
    obtain ⟨pdir, s1, ⟨k, hk, rfl⟩, p, s2, hopen, hs⟩ := hs
    have hheap := (sysMalloc_ok hk).1
    have hscan : Scanning s₀ limit { s with kern := k } := ⟨h.1.kern hheap.next, hheap.disk.trans h.2⟩
    have hopened := hscan.inodeOpen hdisk hopen
    cases pdir with
    | none => simp at hs
    | some pdir =>
      obtain ⟨-, rfl⟩ := (pure_ok _ _ _ _).mp hs
      exact hopened
  closes := by
    rintro d s s' u ⟨h, hsame⟩ hs
    refine ⟨h.dirClose hs, ?_⟩
    cases d with
    | root =>
      obtain ⟨-, rfl⟩ := (pure_ok _ _ _ _).mp hs
      exact hsame
    | heap ptr inode =>
      unfold dirClose at hs
      simp only [bind_ok, liftKern_ok] at hs
      obtain ⟨_, s1, h1, k, hk, rfl⟩ := hs
      exact ((sysFree_ok hk).disk.trans (inodeClose_sizes h1).2.2.2.disk).trans hsame
  looks := by
    rintro d inode name s s' r ⟨h, hsame⟩ hs
    refine ⟨h.liftKern (Quiet.searchDirEntry K inode name) hs, ?_⟩
    obtain ⟨k, hk, rfl⟩ := (liftKern_ok _ _ _ _).mp hs
    exact (searchDirEntry_disk K inode name _ _ _ hk).1.trans hsame

end

section

variable {s₀ : Fs} {new : Option Ptr} {limit : ℕ}

theorem Scanning.fileOpen (h : Scanning s₀ limit s)
    (hdisk : ∀ n < 4096, (Inode.load s₀.kern.disk (inodeAddr K.toPartition n)).iSize < limit) {n flag : ℕ} {r : ℤ} (hs : fileOpen K task n flag s = .ok (r, s')) : Larger s₀ none limit s' := by
  unfold ElephantOS.fileOpen at hs
  simp only [bind_ok, get_ok] at hs
  obtain ⟨_, _, ⟨rfl, rfl⟩, hs⟩ := hs
  cases hk : getFreeSlotInGlobal s with
  | none =>
    simp only [hk] at hs
    obtain ⟨-, rfl⟩ := (pure_ok _ _ _ _).mp hs
    exact h.1
  | some k =>
    simp only [hk, bind_ok, modify_ok, get_ok] at hs
    obtain ⟨p, s1, h1, _, _, rfl, _, _, ⟨rfl, rfl⟩, hs⟩ := hs
    have hopened := (h.inodeOpen hdisk h1).1
    have htaken : Larger s₀ none limit (setFile k ⟨0, flag, some p⟩ s1) := hopened.setFile k rfl
    cases hw : oWrite flag with
    | false =>
      simp only [hw, Bool.false_and, Bool.false_eq_true, if_false] at hs
      exact htaken.pcbFdInstall hs
    | true =>
      simp only [hw, Bool.true_and, if_true] at hs
      split_ifs at hs
      · obtain ⟨-, rfl⟩ := (pure_ok _ _ _ _).mp hs
        exact htaken
      · simp only [bind_ok, modify_ok] at hs
        obtain ⟨_, _, rfl, hs⟩ := hs
        refine Larger.pcbFdInstall (htaken.sameSize ?_) hs
        rfl

theorem Larger.adopt (h : Larger s₀ none limit s) {p : Ptr} {inode : Inode} (hp : s₀.kern.heap.next ≤ p.id) (hsize : inode.iSize < limit) :
    Larger s₀ (some p) limit (ElephantOS.setInode p inode s) := by
  have h1 : Larger s₀ none limit (ElephantOS.setInode p inode s) := h.setInode (fun hid => absurd hp (by omega)) hsize
  refine ⟨h1.next, h1.size, fun q hq => ?_, h1.files⟩
  rcases hq with hq | hq
  · exact h1.cache q (.inl hq)
  · obtain rfl := Option.some.inj hq
    simp only [ElephantOS.setInode, Function.update_self]
    exact hsize

theorem Larger.onDirInode (h : Larger s₀ new limit s) {dir : Dir} {m : Inode → KernM (Bool × Inode)} {b : Bool}
    (hd : dir.inode s ∈ s.openInodes) (hlimit : limit + K.sb.dirEntrySize ≤ 2 ^ 32)
    (hm : ∀ inode, Gives (m inode) fun r => inode.SameRef r.2 ∧ inode.Entered K r.2) (hs : onDirInode dir m s = .ok (b, s')) :
    Larger s₀ new (limit + K.sb.dirEntrySize) s' := by
  obtain ⟨inode, k, hk, rfl⟩ := onDirInode_result hs
  obtain ⟨hsteady, -, hsize⟩ := hm _ _ _ _ hk
  have hlt := h.cache _ (.inl hd)
  have hgrows : (s.inodes (dir.inode s)).iSize ≤ inode.iSize ∧ inode.iSize < limit + K.sb.dirEntrySize := by
    rcases hsize with hsame | hmore
    · dsimp only at hsame
      omega
    · dsimp only at hmore
      rw [u32, Nat.mod_eq_of_lt (by omega)] at hmore
      omega
  apply ((h.kern hsteady.next).mono (Nat.le_add_right _ _)).setInode
  · intro hid
    exact (h.size _ hid).trans hgrows.1
  · exact hgrows.2

theorem Larger.storeNewFile {p : Ptr} (h : Larger s₀ (some p) limit s) {dir : Dir} {n : ℕ} {io : Buffer} {u : Unit}
    (hs : storeNewFile K dir p n io s = .ok (u, s')) : Larger s₀ (some p) limit s' := by
  unfold ElephantOS.storeNewFile at hs
  simp only [bind_ok, get_ok] at hs
  obtain ⟨_, _, ⟨rfl, rfl⟩, _, s1, h1, _, s2, h2, _, s3, h3, _, s4, h4, _, s5, h5, h6⟩ := hs
  have hg3 := ((h.liftKern (Quiet.inodeSync _ _ _) h1).liftKern (Quiet.inodeSync _ _ _) h2).liftKern (Quiet.bitmapSync _ _ _) h3
  obtain rfl := listPush_ok h4
  obtain rfl := (modify_ok _ _ _ _).mp h5
  have hg4 : Larger s₀ (some p) limit { s3 with openInodes := p :: s3.openInodes } := by
    refine ⟨hg3.next, hg3.size, fun q hq => hg3.cache q ?_, hg3.files⟩
    rcases hq with hq | hq
    · rcases List.mem_cons.mp hq with rfl | hq
      · exact .inr rfl
      · exact .inl hq
    · exact .inr hq
  have hg5 : Larger s₀ (some p) limit (pushed p s3) := hg4.sameSize rfl
  refine Larger.liftKern (hg5.sameSize ?_) (Quiet.sysFree _) h6
  rfl

theorem Larger.installNewFile (h : Larger s₀ none limit s) {dir : Dir} {name : Name} {flag n : ℕ} {p : Ptr} {io : Buffer} {r : ℤ}
    (hp : s₀.kern.heap.next ≤ p.id) (hd : dir.inode s ∈ s.openInodes) (hlimit : limit + K.sb.dirEntrySize ≤ 2 ^ 32)
    (hs : installNewFile K task dir name flag n p io s = .ok (r, s')) : Larger s₀ none (limit + K.sb.dirEntrySize) s' := by
  unfold ElephantOS.installNewFile at hs
  simp only [bind_ok, modify_ok, get_ok] at hs
  obtain ⟨_, _, rfl, _, _, ⟨rfl, rfl⟩, hs⟩ := hs
  have hpos := h.cache _ (.inl hd)
  have hnew : Larger s₀ (some p) limit (ElephantOS.setInode p (inodeInit n Inode.zero) s) := by
    apply h.adopt hp
    change 0 < limit
    omega
  have hle : limit ≤ limit + K.sb.dirEntrySize := Nat.le_add_right _ _
  cases hk : getFreeSlotInGlobal (ElephantOS.setInode p (inodeInit n Inode.zero) s) with
  | none =>
    simp only [hk, bind_ok, pure_ok] at hs
    obtain ⟨_, s2, h2, _, s3, h3, _, s4, h4, -, rfl⟩ := hs
    exact ((((hnew.liftKern (Quiet.sysFree _) h2).liftKern (Quiet.inodeBitmapSet _ _) h3).liftKern (Quiet.sysFree _) h4).mono hle).forget
  | some k =>
    simp only [hk, bind_ok, modify_ok] at hs
    obtain ⟨_, _, rfl, _, _, rfl, e, s2, h2, ok, s3, h3, hs⟩ := hs
    obtain rfl := createDirEntry_ok h2
    have htaken : Larger s₀ (some p) limit (ElephantOS.setFile k ⟨0, flag, some p⟩ (ElephantOS.setInode p (inodeInit n Inode.zero) s)) :=
      hnew.setFile k rfl
    have hentered : Larger s₀ (some p) (limit + K.sb.dirEntrySize) s3 := by
      refine Larger.onDirInode (htaken.sameSize ?_) ?_ hlimit (fun inode => syncDirEntry_enters K inode e io) h3
      · rfl
      · cases dir <;> exact hd
    split_ifs at hs
    · simp only [bind_ok, modify_ok, pure_ok] at hs
      obtain ⟨_, _, rfl, _, s4, h4, _, s5, h5, _, s6, h6, -, rfl⟩ := hs
      have hback : Larger s₀ (some p) (limit + K.sb.dirEntrySize) (ElephantOS.setFile k ⟨0, 0, none⟩ s3) := hentered.setFile k rfl
      exact (((hback.liftKern (Quiet.sysFree _) h4).liftKern (Quiet.inodeBitmapSet _ _) h5).liftKern (Quiet.sysFree _) h6).forget
    · simp only [bind_ok] at hs
      obtain ⟨_, s4, h4, hs⟩ := hs
      exact ((hentered.storeNewFile h4).pcbFdInstall hs).forget

theorem Larger.fileCreate (h : Larger s₀ none limit s) {dir : Dir} {name : Name} {flag : ℕ} {r : ℤ} (hd : dir.inode s ∈ s.openInodes)
    (hlimit : limit + K.sb.dirEntrySize ≤ 2 ^ 32) (hs : fileCreate K task dir name flag s = .ok (r, s')) :
    Larger s₀ none (limit + K.sb.dirEntrySize) s' := by
  have hle : limit ≤ limit + K.sb.dirEntrySize := Nat.le_add_right _ _
  unfold ElephantOS.fileCreate at hs
  simp only [bind_ok] at hs
  obtain ⟨io, s1, h1, hs⟩ := hs
  obtain ⟨k1, rfl, hk1⟩ := liftKern_quiet (Quiet.sysMalloc _) h1
  have hg1 := h.kern hk1.next
  cases io with
  | none =>
    obtain ⟨-, rfl⟩ := (pure_ok _ _ _ _).mp hs
    exact hg1.mono hle
  | some io =>
    simp only [bind_ok] at hs
    obtain ⟨no, s2, h2, hs⟩ := hs
    obtain ⟨k2, rfl, hk2⟩ := liftKern_quiet Quiet.inodeBitmapAlloc h2
    have hg2 := hg1.kern hk2.next
    cases no with
    | none =>
      obtain ⟨-, rfl⟩ := (pure_ok _ _ _ _).mp hs
      exact hg2.mono hle
    | some no =>
      simp only [bind_ok] at hs
      obtain ⟨found, s3, h3, hs⟩ := hs
      obtain ⟨k3, hm3, rfl⟩ := (liftKern_ok _ _ _ _).mp h3
      obtain ⟨hk3, -, hfound⟩ := sysMalloc_ok hm3
      have hg3 := hg2.kern hk3.next
      cases found with
      | none =>
        simp only [bind_ok, pure_ok] at hs
        obtain ⟨_, s4, h4, _, s5, h5, -, rfl⟩ := hs
        exact ((hg3.liftKern (Quiet.inodeBitmapSet _ _) h4).liftKern (Quiet.sysFree _) h5).mono hle
      | some found =>
        obtain rfl : found = _ := by simpa using hfound
        refine hg3.installNewFile ?_ ?_ hlimit hs
        · exact hg2.next
        · cases dir <;> exact hd

end

def Sane (K : Kernel) (s : Fs) : Prop :=
  (∀ p ∈ s.openInodes, (s.inodes p).iSize + K.sb.dirEntrySize < 2 ^ 31) ∧
    ∀ n < 4096, (Inode.load s.kern.disk (inodeAddr K.toPartition n)).iSize + K.sb.dirEntrySize < 2 ^ 31

theorem Sane.sysOpen (hsane : Sane K s) {held : Multiset Ptr} (hrefs : Refs held s) (hroot : s.rootDir ∈ held) {junk : Junk}
    {pathname : Path} {flags : ℕ} {r : ℤ} (hs : sysOpen K task junk pathname flags s = .ok (r, s')) : Larger s none (2 ^ 31) s' := by
  have hentry := hsane.1 s.rootDir ((hrefs.mem _).mp hroot)
  have hdisk : ∀ n < 4096, (Inode.load s.kern.disk (inodeAddr K.toPartition n)).iSize < 2 ^ 31 - K.sb.dirEntrySize := by
    intro n hn
    have := hsane.2 n hn
    omega
  have hstart : Larger s none (2 ^ 31 - K.sb.dirEntrySize) s := by
    refine ⟨le_refl _, fun _ _ => le_refl _, fun p hp => ?_, fun _ _ => .inl rfl⟩
    rcases hp with hp | hp
    · have := hsane.1 p hp
      omega
    · cases hp
  have hle : 2 ^ 31 - K.sb.dirEntrySize ≤ 2 ^ 31 := Nat.sub_le _ _
  rcases sysOpen_ways hs with ⟨-, rfl⟩ | ⟨found, record, s0, hsearch, hrest⟩
  · exact hstart.mono hle
  have hscan := (Scanning.search hdisk).searchFile ⟨hstart, rfl⟩ hsearch
  obtain ⟨hr0, hk0⟩ := searchFile_refs hrefs hsearch
  rcases hrest with ⟨-, hclose⟩ | ⟨-, -, ⟨-, -, name, s1, hcreate, hclose⟩ | ⟨-, n, -, hopen⟩⟩
  · exact (hscan.1.dirClose hclose).mono hle
  · have hparent : record.parentDir.inode s0 ∈ s0.openInodes := by
      apply (hr0.mem _).mp
      dsimp only
      rw [Multiset.mem_add]
      cases record.parentDir with
      | root =>
        right
        change s0.rootDir ∈ held
        rwa [hk0.rootDir]
      | heap ptr inode => exact .inl (Multiset.mem_singleton_self _)
    have hsum : 2 ^ 31 - K.sb.dirEntrySize + K.sb.dirEntrySize = 2 ^ 31 := by omega
    have hcreated := hscan.1.fileCreate hparent (by omega) hcreate
    rw [hsum] at hcreated
    exact hcreated.dirClose hclose
  · exact (hscan.fileOpen hdisk hopen).mono hle

theorem Sane.onTask (h : Sane K s) (pool : ℕ → Pool) (task : ℕ) : Sane K (onTask pool task s) := h

theorem CallInv.slot_mem {handles : List Dir} (inv : CallInv s handles) {k : ℕ} {p : Ptr} (hk : k < maxFileOpen)
    (hp : (s.fileTable k).fdInode = some p) : p ∈ s.openInodes ∧ p.id < s.kern.heap.next := by
  obtain ⟨lost, hr⟩ := inv.refs
  have hmem : p ∈ s.openInodes := by
    apply (hr.mem p).mp
    rw [allRefs, slotRefs_freed s.fileTable hk hp, Multiset.mem_add, Multiset.mem_cons, Multiset.mem_add, Multiset.mem_cons]
    exact .inr (.inr (.inr (.inl rfl)))
  exact ⟨hmem, hr.fresh p hmem⟩

theorem Positioned.sysOpen {handles : List Dir} (h : Positioned s) (inv : CallInv s handles) (hsane : Sane K s) {junk : Junk}
    {pathname : Path} {flags : ℕ} {r : ℤ} (hs : sysOpen K task junk pathname flags s = .ok (r, s')) : Positioned s' := by
  obtain ⟨lost, hr⟩ := inv.refs
  have hroot : s.rootDir ∈ lost + allRefs s handles := Multiset.mem_add.mpr (.inr (Multiset.mem_cons_self _ _))
  have hgrown := hsane.sysOpen hr hroot hs
  have inv' := inv.sysOpen hs
  intro k hk p hp
  have hlimit := hgrown.cache p (.inl (inv'.slot_mem hk hp).1)
  refine ⟨?_, hlimit⟩
  rcases hgrown.files k (by rw [hp]; exact Option.some_ne_none _) with hsame | hzero
  · rw [hsame] at hp ⊢
    exact (h k hk p hp).1.trans (hgrown.size p (inv.slot_mem hk hp).2)
  · omega

end

inductive PositionCall
  | sysOpen (junk : Junk) (pathname : Path) (flags : ℕ)
  | onFd (c : FdCall)

def PositionCall.run (K : Kernel) (task : ℕ) : PositionCall → FsM ℤ
  | .sysOpen junk pathname flags => ElephantOS.sysOpen K task junk pathname flags
  | .onFd c => c.run K task

/-- Calls of any tasks one after the other; `Meets` says which call a task may make in which state. -/
inductive PositionRun (K : Kernel) (pool : ℕ → Pool) (Meets : Fs → ℕ → PositionCall → Prop) (s0 : Fs) : Fs → Prop
  | init : PositionRun K pool Meets s0 s0
  | step {s s' : Fs} {task : ℕ} {c : PositionCall} {r : ℤ} : PositionRun K pool Meets s0 s → Meets (onTask pool task s) task c →
      c.run K task (onTask pool task s) = .ok (r, s') → PositionRun K pool Meets s0 s'

/-- Files are opened while every size fits, and created by kernel threads; no write of no bytes gets to an empty file, and no write stores
an inode past the end of its buffer. -/
def Appends (K : Kernel) (s : Fs) (task : ℕ) : PositionCall → Prop
  | .sysOpen _ _ flags => Sane K s ∧ (oCreat flags = true → s.kern.pool = .kernel)
  | .onFd (.sysWrite fd buf count) => (FdCall.sysWrite fd buf count).Stays K task s ∧ (count = 0 → ∀ k p, LooksUp s task fd k →
      oWrite (s.fileTable k).fdFlag = true → (s.fileTable k).fdInode = some p → ¬ WriteRefused s.kern (s.inodes p) 0 → (s.inodes p).iSize ≠ 0)
  | .onFd _ => True

def seekTarget (file : File) (inode : Inode) (offset : ℤ) (whence : ℕ) : ℤ :=
  if whence = 1 then offset
  else if whence = 2 then file.fdPos + offset
  else inode.iSize + offset

section

variable {K : Kernel} {s s' : Fs} {task : ℕ} {file : File} {inode : Inode} {offset : ℤ} {whence : ℕ}

theorem seekPos_target (hpos : file.fdPos ≤ inode.iSize) (hsize : inode.iSize < 2 ^ 31) (hlo : -2 ^ 31 ≤ offset) (hhi : offset < 2 ^ 31) :
    (seekPos file inode offset whence < 0 ∨ int32 inode.iSize - 1 < seekPos file inode offset whence) ∧
        ¬ (0 ≤ seekTarget file inode offset whence ∧ seekTarget file inode offset whence < inode.iSize) ∨
      seekPos file inode offset whence = seekTarget file inode offset whence ∧
        ¬ (seekPos file inode offset whence < 0 ∨ int32 inode.iSize - 1 < seekPos file inode offset whence) ∧
        0 ≤ seekTarget file inode offset whence ∧ seekTarget file inode offset whence < inode.iSize := by
  have hi : int32 inode.iSize = inode.iSize := if_pos hsize
  have hf : int32 file.fdPos = file.fdPos := if_pos (by omega)
  unfold seekPos seekTarget
  rw [hi, hf]
  split_ifs
  · omega
  · simp only [Int.bmod]
    omega
  · simp only [Int.bmod]
    omega

theorem sysLseek_eq {fd : ℤ} {k : ℕ} {p : Ptr} (hk : LooksUp s task fd k) (hp : (s.fileTable k).fdInode = some p)
    (hwhence : 0 < whence ∧ whence < 4) : sysLseek task fd offset whence s =
      if seekPos (s.fileTable k) (s.inodes p) offset whence < 0 ∨
          int32 (s.inodes p).iSize - 1 < seekPos (s.fileTable k) (s.inodes p) offset whence then .ok (-1, s)
      else .ok (seekPos (s.fileTable k) (s.inodes p) offset whence,
        setFile k { s.fileTable k with fdPos := (seekPos (s.fileTable k) (s.inodes p) offset whence).toNat } s) := by
  have hfd := hk.1
  unfold sysLseek
  rw [if_neg (by omega), bind_eq ((assert_ok _ s s ()).mpr ⟨hwhence, rfl⟩), bind_eq ((fdLocal2global_ok hfd).mpr ⟨rfl, hk⟩)]
  unfold onFile
  rw [bind_eq ((get_ok s s s).mpr ⟨rfl, rfl⟩)]
  simp only [hp]
  split_ifs with hbad
  · rw [bind_eq (liftKern_eq rfl)]
    change Except.ok (-1, setInode p (s.inodes p) (setFile k (s.fileTable k) s)) = _
    simp only [setInode, setFile, Function.update_eq_self]
  · rw [bind_eq (liftKern_eq rfl)]
    change Except.ok (_, setInode p (s.inodes p) (setFile k _ s)) = _
    simp only [setInode, setFile, Function.update_eq_self]

theorem Positioned.sysLseek (K : Kernel) (h : Positioned s) {fd r : ℤ}
    (hs : ElephantOS.sysLseek task fd offset whence s = .ok (r, s')) : Positioned s' := by
  have hrun : (FdCall.sysLseek fd offset whence).run K task s = .ok (r, s') := hs
  rw [FdCall.run_eq, bind_ok] at hrun
  obtain ⟨route, s1, hroute, hs⟩ := hrun
  obtain ⟨rfl, hcases⟩ := sysLseek_route.mp hroute
  rcases hcases with ⟨-, rfl⟩ | ⟨-, -, k, hk, rfl⟩
  · obtain ⟨-, rfl⟩ := (pure_ok _ _ _ _).mp hs
    exact h
  simp only [FdCall.act] at hs
  obtain ⟨p, file, inode, kern, hp, hm, rfl⟩ := onFile_ok hs
  apply h.onFile hp
  obtain ⟨hpos, hsize⟩ := h k hk.2.2.1 p hp
  have hi : int32 (s1.inodes p).iSize = (s1.inodes p).iSize := if_pos hsize
  split_ifs at hm with hbad
  · simp only [pure_ok, Prod.mk.injEq] at hm
    obtain ⟨⟨-, rfl, rfl⟩, -⟩ := hm
    exact ⟨rfl, hpos, le_refl _, hsize⟩
  · simp only [pure_ok, Prod.mk.injEq] at hm
    obtain ⟨⟨-, rfl, rfl⟩, -⟩ := hm
    refine ⟨rfl, ?_, le_refl _, hsize⟩
    dsimp only
    omega

theorem Positioned.sysRead (K : Kernel) (h : Positioned s) {fd r : ℤ} {buf : Option Memory} {count : ℕ}
    (hs : ElephantOS.sysRead task fd buf count s = .ok (r, s')) : Positioned s' := by
  have hrun : (FdCall.sysRead fd buf count).run K task s = .ok (r, s') := hs
  rw [FdCall.run_eq, bind_ok] at hrun
  obtain ⟨route, s1, hroute, hs⟩ := hrun
  obtain ⟨rfl, hcases⟩ := sysRead_route.mp hroute
  rcases hcases with ⟨-, rfl⟩ | ⟨-, -, k, hk, rfl⟩
  · obtain ⟨-, rfl⟩ := (pure_ok _ _ _ _).mp hs
    exact h
  simp only [FdCall.act] at hs
  obtain ⟨p, file, inode, kern, hp, hm, rfl⟩ := onFile_ok hs
  apply h.onFile hp
  obtain ⟨hpos, hsize⟩ := h k hk.2.2.1 p hp
  simp only [bind_ok, pure_ok, Prod.mk.injEq] at hm
  obtain ⟨⟨r', file', buf'⟩, k1, hread, ⟨-, rfl, rfl⟩, -⟩ := hm
  exact ⟨(fileRead_gives _ _ _ _ _ _ _ hread).2, fileRead_pos (by omega) hpos hread, le_refl _, hsize⟩

theorem Positioned.sysWrite (h : Positioned s) {fd r : ℤ} {buf : Memory} {count : ℕ}
    (hmeets : Appends K s task (.onFd (.sysWrite fd buf count))) (hs : ElephantOS.sysWrite K task fd buf count s = .ok (r, s')) : Positioned s' := by
  have hrun : (FdCall.sysWrite fd buf count).run K task s = .ok (r, s') := hs
  rw [FdCall.run_eq, bind_ok] at hrun
  obtain ⟨route, s1, hroute, hs⟩ := hrun
  obtain ⟨rfl, hcases⟩ := sysWrite_route.mp hroute
  rcases hcases with ⟨-, rfl⟩ | ⟨-, rfl⟩ | ⟨-, k, hk, rfl⟩
  · obtain ⟨-, rfl⟩ := (pure_ok _ _ _ _).mp hs
    exact h
  · simp only [FdCall.act, bind_ok, bound_ok, pure_ok] at hs
    obtain ⟨_, _, ⟨-, rfl⟩, -, rfl⟩ := hs
    exact h
  cases hflag : oWrite (s1.fileTable k).fdFlag with
  | false =>
    rw [hflag, if_neg Bool.false_ne_true] at hs
    obtain ⟨-, rfl⟩ := (pure_ok _ _ _ _).mp hs
    exact h
  | true =>
    rw [hflag, if_pos rfl] at hs
    simp only [FdCall.act] at hs
    obtain ⟨p, file, inode, kern, hp, hm, rfl⟩ := onFile_ok hs
    apply h.onFile hp
    obtain ⟨hpos, hsize⟩ := h k hk.2.2.1 p hp
    obtain ⟨hinside, hgrows, hlimit⟩ := fileWrite_inside hsize hpos (fun hc hgo => hmeets.2 hc k p hk hflag hp hgo) hm
    exact ⟨(fileWrite_gives K _ _ _ _ _ _ _ hm).2.1, hinside, hgrows, hlimit⟩

theorem Positioned.call {handles : List Dir} (h : Positioned s) (inv : CallInv s handles) {c : PositionCall}
    (hmeets : Appends K s task c) {r : ℤ} (hs : c.run K task s = .ok (r, s')) : Positioned s' := by
  cases c with
  | sysOpen junk pathname flags => exact h.sysOpen inv hmeets.1 hs
  | onFd c =>
    cases c with
    | sysClose fd => exact h.sysClose hs
    | sysWrite fd buf count => exact h.sysWrite hmeets hs
    | sysRead fd buf count => exact h.sysRead K hs
    | sysLseek fd offset whence => exact h.sysLseek K hs

end

theorem PositionRun.positioned {K : Kernel} {pool : ℕ → Pool} {s0 s : Fs} (h0 : s0.Started) (h : PositionRun K pool (Appends K) s0 s) :
    CallInv s [] ∧ Positioned s := by
  induction h with
  | init =>
    refine ⟨CallRun.inv h0 (@CallRun.init K pool s0), fun k _ p hp => ?_⟩
    rw [h0.fileTable k] at hp
    cases hp
  | @step s s' task c r _ hmeets hrun ih =>
    obtain ⟨inv, hpos⟩ := ih
    have inv' := inv.onTask pool task
    have hpos' : Positioned (onTask pool task s) := hpos
    refine ⟨?_, hpos'.call inv' hmeets hrun⟩
    cases c with
    | sysOpen junk pathname flags => exact inv'.sysOpen hrun
    | onFd c => exact inv'.fdCall hrun

/-- Every file in use has its position inside the file or at its end. -/
def Inside (s : Fs) : Prop := ∀ k < maxFileOpen, ∀ p, (s.fileTable k).fdInode = some p → (s.fileTable k).fdPos ≤ (s.inodes p).iSize

/-- `sys_lseek` moves an open file to the target when that is inside the file, and else fails and changes nothing. -/
def SeeksExactly (s : Fs) : Prop := ∀ (task : ℕ) (fd : ℤ) (k : ℕ) (p : Ptr) (offset : ℤ) (whence : ℕ), LooksUp s task fd k →
  (s.fileTable k).fdInode = some p → -2 ^ 31 ≤ offset ∧ offset < 2 ^ 31 → 0 < whence ∧ whence < 4 →
  ∃ r s', sysLseek task fd offset whence s = .ok (r, s') ∧
    if 0 ≤ seekTarget (s.fileTable k) (s.inodes p) offset whence ∧
      seekTarget (s.fileTable k) (s.inodes p) offset whence < (s.inodes p).iSize
    then r = seekTarget (s.fileTable k) (s.inodes p) offset whence ∧
      ((s'.fileTable k).fdPos : ℤ) = seekTarget (s.fileTable k) (s.inodes p) offset whence
    else r = -1 ∧ s' = s

theorem Positioned.seeks {s : Fs} (h : Positioned s) : SeeksExactly s := by
  rintro task fd k p offset whence hk hp ⟨hlo, hhi⟩ hwhence
  obtain ⟨hpos, hsize⟩ := h k hk.2.2.1 p hp
  rw [sysLseek_eq hk hp hwhence]
  rcases @seekPos_target (s.fileTable k) (s.inodes p) offset whence hpos hsize hlo hhi with ⟨hbad, hout⟩ | ⟨heq, hgood, hin⟩
  · rw [if_pos hbad]
    exact ⟨-1, s, rfl, by rw [if_neg hout]; exact ⟨rfl, rfl⟩⟩
  · rw [if_neg hgood]
    refine ⟨_, _, rfl, ?_⟩
    rw [if_pos hin]
    refine ⟨heq, ?_⟩
    simp only [setFile, Function.update_self]
    rw [heq]
    exact Int.toNat_of_nonneg hin.1

/-- In every run in which no write of no bytes gets to an empty file, and inodes are created and stored in the kernel's own memory and
within their buffers, positions stay inside their files and seeks are exact. -/
theorem positions_inside (K : Kernel) (pool : ℕ → Pool) (s0 s : Fs) (h0 : s0.Started) (h : PositionRun K pool (Appends K) s0 s) :
    Inside s ∧ SeeksExactly s := by
  obtain ⟨-, hpos⟩ := h.positioned h0
  exact ⟨fun k hk p hp => (hpos k hk p hp).1, hpos.seeks⟩

theorem oneFile_sane : Sane smallPartition.kernel oneFile := by
  refine ⟨fun p _ => by change 72 + 24 < 2 ^ 31; omega, fun n hn => ?_⟩
  by_cases h1 : n = 1
  · subst h1
    decide +kernel
  · have htable : smallPartition.sb.dataStartLba = smallPartition.sb.inodeTableLba + 608 := by decide
    have hword : word oneFile.kern.disk (inodeAddr smallPartition n + 4) = 0 := by
      unfold oneFile
      dsimp only
      rw [word_blit_outside, word_blit_outside, word_zeros]
      · simp only [inodeAddr, inodeSize]
        omega
      · simp only [inodeAddr, inodeSize, htable]
        omega
    change word oneFile.kern.disk (inodeAddr smallPartition n + 4) + 24 < 2 ^ 31
    rw [hword]
    omega

theorem positions_inside_appended : ∃ s, PositionRun smallPartition.kernel kernelThreads (Appends smallPartition.kernel) oneFile s ∧
    (s.fileTable 3).fdPos = 2 ∧ Inside s ∧ SeeksExactly s := by
  obtain ⟨fd, s1, hopen, hp⟩ := runs_of_runsTo
    (m := (PositionCall.sysOpen ⟨0, false⟩ [slash, 102] 2).run smallPartition.kernel 0) (s := onTask kernelThreads 0 oneFile)
    (p := fun _ s => decide (∀ p ∈ (s.fileTable 3).fdInode, (s.inodes p).iNo = 1) && decide (s.fdTable 0 3 = 3) &&
      runsTo ((PositionCall.onFd (.sysWrite 3 zeros 3)).run smallPartition.kernel 0) (onTask kernelThreads 0 s)
        fun _ s' => decide ((s'.fileTable 3).fdPos = 2)) (by decide +kernel)
  simp only [Bool.and_eq_true, decide_eq_true_eq] at hp
  obtain ⟨⟨hino, hfd⟩, hp⟩ := hp
  obtain ⟨r, s2, hwrite, hpos⟩ := runs_of_runsTo hp
  have h1 : PositionRun smallPartition.kernel kernelThreads (Appends smallPartition.kernel) oneFile s1 := by
    refine .step .init ?_ hopen
    exact ⟨oneFile_sane.onTask kernelThreads 0, fun hcreat => absurd hcreat (by decide)⟩
  have h2 : PositionRun smallPartition.kernel kernelThreads (Appends smallPartition.kernel) oneFile s2 := by
    refine .step h1 ?_ hwrite
    refine ⟨?_, fun hcount => absurd hcount (by decide)⟩
    rintro k p ⟨-, -, -, hk⟩ - hp
    have hk : s1.fdTable 0 3 = (k : ℕ) := hk
    rw [hfd] at hk
    obtain rfl : k = 3 := by omega
    have hslot : InOneSector (smallPartition.kernel.inodeNo 1) := by decide
    right
    rw [show ((onTask kernelThreads 0 s1).inodes p).iNo = 1 from hino p hp]
    exact hslot
  exact ⟨s2, h2, of_decide_eq_true hpos, positions_inside _ _ _ _ oneFile_started h2⟩

/-- A write of no bytes to the empty file `/f` puts its position at 2^32 - 1. -/
theorem positions_escape : oneFile.Started ∧ ¬ ∀ s, PositionRun smallPartition.kernel kernelThreads (fun _ _ _ => True) oneFile s →
    Inside s ∧ SeeksExactly s := by
  refine ⟨oneFile_started, ?_⟩
  intro h
  obtain ⟨fd, s1, hopen, hp⟩ := runs_of_runsTo
    (m := (PositionCall.sysOpen ⟨0, false⟩ [slash, 102] 2).run smallPartition.kernel 0) (s := onTask kernelThreads 0 oneFile)
    (p := fun _ s => runsTo ((PositionCall.onFd (.sysWrite 3 zeros 0)).run smallPartition.kernel 0) (onTask kernelThreads 0 s)
      fun _ s' => decide (∃ p ∈ (s'.fileTable 3).fdInode, (s'.inodes p).iSize < (s'.fileTable 3).fdPos)) (by decide +kernel)
  obtain ⟨r, s2, hwrite, hpos⟩ := runs_of_runsTo hp
  obtain ⟨p, hinode, hlt⟩ := of_decide_eq_true hpos
  have hin := (h s2 (.step (.step .init trivial hopen) trivial hwrite)).1 3 (by decide) p hinode
  omega

end ElephantOS
