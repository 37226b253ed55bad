import ElephantOS.VolumeMap

namespace ElephantOS

open ByteMemory HaltingState

/-- `sys_read`, with the caller's buffer handed back. -/
def sysReadInto (task : ℕ) (fd : ℤ) (buf : Memory) (count : ℕ) : FsM (ℤ × Memory) :=
  if fd < 0 then return (-1, buf)
  else do
    let k ← fdLocal2global task fd.toNat
    let s ← get
    match (s.fileTable k).fdInode with
    -- a null pointer
    | none => halt .wild
    | some p =>
      let (r, file, buf) ← liftKern (fileRead (s.fileTable k) (s.inodes p) buf count)
      modify (setFile k file)
      return (r, buf)

section

variable {K : Kernel} {extra : Multiset Ptr} {dirs files : Set ℕ} {s s' : Fs} {k k' : Kern} {p : Ptr} {task n : ℕ} {inode : Inode}
  {file : File} {buf buf' : Memory} {count : ℕ} {fd r : ℤ}

theorem sysRead_into (hs : sysReadInto task fd buf count s = .ok ((r, buf'), s')) : sysRead task fd (some buf) count s = .ok (r, s') := by
  unfold sysReadInto at hs
  unfold sysRead
  split_ifs at hs ⊢ with hneg
  · obtain ⟨heq, rfl⟩ := (pure_ok _ _ _ _).mp hs
    obtain ⟨rfl, rfl⟩ := Prod.mk.inj heq
    rfl
  · simp only [bind_ok, get_ok, assert_ok] at hs ⊢
    obtain ⟨k, s₁, hk, _, _, ⟨rfl, rfl⟩, hs⟩ := hs
    obtain rfl := ((fdLocal2global_ok (by omega)).mp hk).1.symm
    refine ⟨(), _, ⟨rfl, rfl⟩, k, _, hk, ?_⟩
    unfold onFile
    simp only [bind_ok, get_ok]
    refine ⟨s, s, ⟨rfl, rfl⟩, ?_⟩
    cases hp : (s.fileTable k).fdInode with
    | none =>
      rw [hp] at hs
      cases hs
    | some p =>
      simp only [hp, bind_ok, liftKern_ok, modify_ok] at hs
      obtain ⟨⟨r', file, buf₁⟩, _, ⟨kern, hread, rfl⟩, _, _, rfl, hs⟩ := hs
      obtain ⟨heq, rfl⟩ := (pure_ok _ _ _ _).mp hs
      obtain ⟨rfl, rfl⟩ := Prod.mk.inj heq
      simp only [bind_ok, liftKern_ok, modify_ok]
      refine ⟨⟨r', file, s.inodes p⟩, _, ⟨kern, ⟨_, kern, hread, rfl⟩, rfl⟩, (), _, rfl, (), _, rfl, ?_⟩
      simp only [setInode, setFile, Function.update_eq_self]
      rfl

theorem readBlocks_ok {lo hi : ℕ} {b : ℕ → ℕ} (hle : lo ≤ hi) (hhi : hi < 140) (ht : 12 ≤ hi → inode.iSectors 12 ≠ 0)
    (hs : readBlocks inode lo hi k = .ok (b, k')) : k' = k ∧ ∀ p, lo ≤ p → p ≤ hi → b p = blockAddr k.disk inode p := by
  have hlba : 12 ≤ hi → inode.iSectors 12 ≤ maxLba := by
    intro h12
    unfold readBlocks at hs
    split_ifs at hs with c1 c2 c3 c4
    · omega
    · exact sectorRange_one.mp ((readTable_ok _ _ _ _ _).mp hs).1
    · omega
    · simp only [bind_ok, assert_ok] at hs
      obtain ⟨_, _, ⟨-, rfl⟩, hs⟩ := hs
      exact sectorRange_one.mp ((readTable_ok _ _ _ _ _).mp hs).1
    · simp only [bind_ok, assert_ok] at hs
      obtain ⟨_, _, ⟨-, rfl⟩, hs⟩ := hs
      exact sectorRange_one.mp ((readTable_ok _ _ _ _ _).mp hs).1
  obtain ⟨b', k₁, hrun, rfl, hb⟩ := @readBlocks_runs inode lo hi k hle hhi fun h12 => ⟨ht h12, hlba h12⟩
  obtain ⟨rfl, rfl⟩ := ok_inj hrun hs
  exact ⟨rfl, hb⟩

theorem readLoop_ok {blocks : ℕ → ℕ} {size fuel pos br : ℕ} {io : Buffer} {res : ℕ × File × Memory} (hfuel : size ≤ br + fuel)
    (hbr : br ≤ size) (hpos : file.fdPos = pos + br) (hlt : pos + size < 140 * 512)
    (hs : readLoop blocks size fuel br (some io) file buf k = .ok (res, k')) :
    HeapOnly k k' ∧ res = readResult blocks k.disk size pos br file buf := by
  induction fuel generalizing br io file buf k with
  | zero =>
    obtain rfl : br = size := by omega
    obtain ⟨rfl, rfl⟩ := (pure_ok _ _ _ _).mp hs
    exact ⟨HeapOnly.refl _, (readResult_done hpos).symm⟩
  | succ fuel ih =>
    unfold readLoop at hs
    split_ifs at hs with hc
    · simp only [bind_ok, bound_ok] at hs
      obtain ⟨_, _, ⟨hidx, rfl⟩, io', k1, hread, hs⟩ := hs
      obtain ⟨-, hk1, rfl⟩ := ideRead_ok hread
      rw [hpos] at hs
      have hmod : (pos + br) % 512 < 512 := Nat.mod_lt _ (by omega)
      generalize hchunk : min (size - br) (512 - (pos + br) % 512) = chunk at hs
      have hu : u32 (pos + br + chunk) = pos + (br + chunk) := by
        rw [u32, Nat.mod_eq_of_lt (by omega)]
        omega
      rw [readChunk (by omega), hu] at hs
      obtain ⟨hk', rfl⟩ := ih (by omega) (by omega) rfl hs
      refine ⟨hk1.trans hk', ?_⟩
      have hrest := blit_append buf (fun i => k.disk (byteAddr blocks (pos + br + i))) br chunk (size - (br + chunk))
      have hshift : (fun i => k.disk (byteAddr blocks (pos + (br + chunk) + i))) =
          slice (fun i => k.disk (byteAddr blocks (pos + br + i))) chunk := by
        funext i
        rw [slice, show pos + (br + chunk) + i = pos + br + (chunk + i) by omega]
      simp only [readResult, hk1.disk]
      rw [hshift, hrest, show chunk + (size - (br + chunk)) = size - br by omega]
    · obtain rfl : br = size := by omega
      obtain ⟨rfl, rfl⟩ := (pure_ok _ _ _ _).mp hs
      exact ⟨HeapOnly.refl _, (readResult_done hpos).symm⟩

theorem fileRead_ok {part : Partition} {res : ℤ × File × Memory} (hf : FileOk part k inode) (hk : k.Plenty) (hpos : file.fdPos ≤ inode.iSize)
    (hcount : file.fdPos + count < 2 ^ 32) (hs : fileRead file inode buf count k = .ok (res, k')) :
    HeapOnly k k' ∧ res = readSpec (fileByte k.disk inode) inode.iSize file buf count := by
  have hsmall := hf.small
  have hu : u32 (file.fdPos + count) = file.fdPos + count := Nat.mod_eq_of_lt hcount
  obtain ⟨size, hsize⟩ : ∃ size, min (file.fdPos + count) inode.iSize - file.fdPos = size := ⟨_, rfl⟩
  have hmin : min (file.fdPos + count) inode.iSize = file.fdPos + size := by omega
  have hsz : (if file.fdPos + count > inode.iSize then u32 (inode.iSize + 2 ^ 32 - file.fdPos) else count) = size := by
    split_ifs with hc
    · rw [u32, show inode.iSize + 2 ^ 32 - file.fdPos = size + 2 ^ 32 by omega, Nat.add_mod_right,
        Nat.mod_eq_of_lt (by omega)]
    · omega
  have hu' : u32 (file.fdPos + size) = file.fdPos + size := Nat.mod_eq_of_lt (by omega)
  unfold fileRead at hs
  unfold readSpec
  simp only [hu, hsz] at hs
  simp only [hmin, Nat.add_sub_cancel_left]
  by_cases hstop : file.fdPos = inode.iSize ∧ 0 < count
  · rw [if_pos (by omega)] at hs
    obtain ⟨rfl, rfl⟩ := (pure_ok _ _ _ _).mp hs
    rw [if_pos hstop]
    exact ⟨HeapOnly.refl _, rfl⟩
  rw [if_neg (by omega)] at hs
  rw [if_neg hstop]
  simp only [bind_ok] at hs
  obtain ⟨o, k1, h1, hs⟩ := hs
  obtain ⟨hk1, -, rfl⟩ := sysMalloc_plenty hk h1
  obtain ⟨o, k2, h2, hs⟩ := hs
  obtain ⟨hk2, -, rfl⟩ := sysMalloc_plenty (hk1.plenty hk) h2
  simp only [bind_ok, assert_ok, hu'] at hs
  obtain ⟨_, k2, ⟨⟨hlo, hhi⟩, rfl⟩, blocks, k2', hread, ⟨br, file', buf'⟩, k3, hloop, hs⟩ := hs
  obtain ⟨hsame, hblocks⟩ := readBlocks_ok (by omega) (by omega) (fun h12 => hf.table_of_size h12 (by omega)) hread
  subst hsame
  have hk12 := hk1.trans hk2
  rw [hk12.disk] at hblocks
  obtain ⟨hk3, heq⟩ := readLoop_ok (by omega) (Nat.zero_le _) (Nat.add_zero _).symm (by omega) hloop
  obtain ⟨hbr, hrest⟩ := Prod.mk.inj heq
  obtain ⟨rfl, rfl⟩ := Prod.mk.inj hrest
  subst hbr
  obtain ⟨_, k4, h4, _, k5, h5, hs⟩ := hs
  obtain ⟨rfl, rfl⟩ := (pure_ok _ _ _ _).mp hs
  refine ⟨((hk12.trans hk3).trans (sysFree_ok h4)).trans (sysFree_ok h5), ?_⟩
  have hint : int32 br = (br : ℤ) := if_pos (by omega)
  have hbytes : blit buf 0 (fun i => k2'.disk (byteAddr blocks (file.fdPos + 0 + i))) br =
      blit buf 0 (slice (fileByte k.disk inode) file.fdPos) br := by
    apply blit_congr
    intro i hi
    rw [slice, fileByte, hk12.disk, Nat.add_zero, byteAddr, byteAddr, hblocks _ (by omega) (by omega)]
  simp only [hint, Nat.sub_zero, hbytes]

theorem Served.setPos {i : ℕ} (h : Served K extra dirs files s) (hheap : HeapOnly s.kern k) (pos : ℕ) :
    Served K extra dirs files (setFile i { s.fileTable i with fdPos := pos } { s with kern := k }) := by
  have hslots : slotRefs (Function.update s.fileTable i { s.fileTable i with fdPos := pos }) = slotRefs s.fileTable := by
    apply slotRefs_inode
    intro j
    by_cases hj : j = i
    · subst hj
      simp only [Function.update_self]
    · simp only [Function.update_of_ne hj]
  refine ⟨?_, h.extraDirs, fun q hq => ?_⟩
  · change Mounted K (extra + slotRefs (Function.update s.fileTable i { s.fileTable i with fdPos := pos })) dirs files _
    rw [hslots]
    exact (h.toMounted.heap hheap).tables rfl rfl rfl rfl
  · change q ∈ slotRefs (Function.update s.fileTable i { s.fileTable i with fdPos := pos }) at hq
    rw [hslots] at hq
    exact h.slotFiles q hq

def ReadAt (K : Kernel) (dirs files : Set ℕ) (task : ℕ) (fd : ℤ) (count : ℕ) (bytes : List UInt8) (s s' : Fs) : Prop :=
  ∃ i p kern, LooksUp s task fd i ∧ (s.fileTable i).fdInode = some p ∧ HeapOnly s.kern kern ∧
    bytes = (((s.tree K dirs files).content (s.inodes p).iNo).drop (s.fileTable i).fdPos).take count ∧
    s' = setFile i { s.fileTable i with fdPos := (s.fileTable i).fdPos + bytes.length } { s with kern := kern }

theorem readSpec_bytes {contents : Memory} {size : ℕ} (hpos : file.fdPos ≤ size) :
    (((List.range size).map contents).drop file.fdPos).take count =
      bytesOf (blit buf 0 (slice contents file.fdPos) (min (file.fdPos + count) size - file.fdPos)) (min (file.fdPos + count) size - file.fdPos) := by
  have hlen : ((((List.range size).map contents).drop file.fdPos).take count).length = min (file.fdPos + count) size - file.fdPos := by
    simp only [List.length_take, List.length_drop, List.length_map, List.length_range]
    omega
  refine List.ext_getElem (hlen.trans (by simp [bytesOf])) fun q hq _ => ?_
  have hblit := @blit_inside buf (slice contents file.fdPos) 0 (min (file.fdPos + count) size - file.fdPos) q (by omega)
  rw [Nat.zero_add] at hblit
  simp [bytesOf, hblit, slice]

theorem Served.sysReadInto (h : Served K extra dirs files s) (hcount : count < 2 ^ 31)
    (hinside : ∀ i p, LooksUp s task fd i → (s.fileTable i).fdInode = some p → (s.fileTable i).fdPos ≤ (s.inodes p).iSize)
    (hs : sysReadInto task fd buf count s = .ok ((r, buf'), s')) : Served K extra dirs files s' ∧ HeapOnly s.kern s'.kern ∧
      (r = -1 ∧ (∃ kern, s' = { s with kern := kern }) ∨ ReadAt K dirs files task fd count (bytesOf buf' r.toNat) s s' ∧ 0 ≤ r) := by
  unfold ElephantOS.sysReadInto at hs
  split_ifs at hs with hneg
  · obtain ⟨heq, rfl⟩ := (pure_ok _ _ _ _).mp hs
    obtain ⟨rfl, rfl⟩ := Prod.mk.inj heq
    exact ⟨h, HeapOnly.refl _, .inl ⟨rfl, s.kern, rfl⟩⟩
  simp only [bind_ok, get_ok] at hs
  obtain ⟨i, s₁, hlook, _, _, ⟨rfl, rfl⟩, hs⟩ := hs
  obtain ⟨hsame, hi⟩ := (fdLocal2global_ok (by omega)).mp hlook
  obtain rfl := hsame.symm
  cases hp : (s.fileTable i).fdInode with
  | none =>
    rw [hp] at hs
    cases hs
  | some p =>
    simp only [hp, bind_ok, liftKern_ok, modify_ok] at hs
    obtain ⟨⟨r', file, buf₁⟩, _, ⟨kern, hread, rfl⟩, _, _, rfl, hs⟩ := hs
    obtain ⟨heq, rfl⟩ := (pure_ok _ _ _ _).mp hs
    obtain ⟨rfl, rfl⟩ := Prod.mk.inj heq
    have hpos := hinside i p hi hp
    obtain ⟨hopen, hmem⟩ := h.slot hi.2.2.1 hp
    have hst := h.stored p hopen
    have hfile := h.volume.file _ hmem
    have hok : FileOk K.toPartition s.kern (s.inodes p) := (SameBlocks.of_stored hst).symm.fileOk hfile hfile.owns.used
    have hsmall := hok.small
    have hcontent : (s.tree K dirs files).content (s.inodes p).iNo = contentsOf s.kern.disk (s.inodes p) := by
      unfold Fs.tree
      rw [volumeTree_file hmem]
      exact (SameBlocks.of_stored hst).contents hok rfl
    obtain ⟨hheap, hspec⟩ := fileRead_ok hok h.plenty hpos (by omega) hread
    unfold readSpec at hspec
    split_ifs at hspec with hend
    · obtain ⟨rfl, hrest⟩ := Prod.mk.inj hspec
      obtain ⟨rfl, rfl⟩ := Prod.mk.inj hrest
      have heq : setFile i (s.fileTable i) { s with kern := kern } = { s with kern := kern } := by
        simp only [setFile, Function.update_eq_self]
      have hserved := h.setPos hheap (s.fileTable i).fdPos (i := i)
      rw [heq] at hserved ⊢
      exact ⟨hserved, hheap, .inl ⟨rfl, kern, rfl⟩⟩
    · obtain ⟨rfl, hrest⟩ := Prod.mk.inj hspec
      obtain ⟨rfl, rfl⟩ := Prod.mk.inj hrest
      refine ⟨h.setPos hheap _, hheap, .inr ⟨⟨i, p, kern, hi, hp, hheap, ?_, ?_⟩, by omega⟩⟩
      · rw [hcontent, contentsOf, @readSpec_bytes _ buf _ _ _ hpos, Int.toNat_natCast]
      · have hlen : ∀ (m : Memory) (n : ℕ), (bytesOf m n).length = n := by simp [bytesOf]
        rw [Int.toNat_natCast, hlen]
        have hstop : (s.fileTable i).fdPos + (min ((s.fileTable i).fdPos + count) (s.inodes p).iSize - (s.fileTable i).fdPos) =
            min ((s.fileTable i).fdPos + count) (s.inodes p).iSize := by omega
        rw [hstop]

theorem Served.sysLseek {offset : ℤ} {whence : ℕ} (h : Served K extra dirs files s) (hoffset : -2 ^ 31 ≤ offset ∧ offset < 2 ^ 31)
    (hinside : ∀ i p, LooksUp s task fd i → (s.fileTable i).fdInode = some p → (s.fileTable i).fdPos ≤ (s.inodes p).iSize)
    (hs : sysLseek task fd offset whence s = .ok (r, s')) : Served K extra dirs files s' ∧ (r = -1 ∧ s' = s ∨ ∃ i p, LooksUp s task fd i ∧
      (s.fileTable i).fdInode = some p ∧ (0 < whence ∧ whence < 4) ∧ r = seekTarget (s.fileTable i) (s.inodes p) offset whence ∧ 0 ≤ r ∧
      r < (s.inodes p).iSize ∧ s' = setFile i { s.fileTable i with fdPos := r.toNat } s) := by
  have hrun : (FdCall.sysLseek fd offset whence).run K task s = .ok (r, s') := hs
  rw [FdCall.run_eq, bind_ok] at hrun
  obtain ⟨route, s₁, hroute, hact⟩ := hrun
  obtain ⟨hsame, hcases⟩ := sysLseek_route.mp hroute
  obtain rfl := hsame.symm
  rcases hcases with ⟨-, rfl⟩ | ⟨-, hwhence, i, hi, rfl⟩
  · obtain ⟨rfl, rfl⟩ := (pure_ok _ _ _ _).mp hact
    exact ⟨h, .inl ⟨rfl, rfl⟩⟩
  simp only [FdCall.act] at hact
  obtain ⟨p, -, -, -, hp, -, -⟩ := onFile_ok hact
  obtain ⟨hopen, hmem⟩ := h.slot hi.2.2.1 hp
  have hsmall := (h.volume.file _ hmem).small
  rw [(h.stored p hopen).iSize] at hsmall
  rw [sysLseek_eq hi hp hwhence] at hs
  rcases @seekPos_target (s.fileTable i) (s.inodes p) offset whence (hinside i p hi hp) (by omega) hoffset.1 hoffset.2 with
    ⟨hbad, -⟩ | ⟨heq, hgood, hlo, hhi⟩
  · rw [if_pos hbad] at hs
    obtain ⟨heq, rfl⟩ := Prod.mk.inj (Except.ok.inj hs)
    exact ⟨h, .inl ⟨heq.symm, rfl⟩⟩
  · rw [if_neg hgood, heq] at hs
    obtain ⟨rfl, rfl⟩ := Prod.mk.inj (Except.ok.inj hs)
    exact ⟨h.setPos (HeapOnly.refl _) _, .inr ⟨i, p, hi, hp, hwhence, rfl, hlo, hhi, rfl⟩⟩

end

end ElephantOS
