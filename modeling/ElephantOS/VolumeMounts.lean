import ElephantOS.VolumeStart

namespace ElephantOS

open ByteMemory HaltingState FileSpace

structure Formatted (part : Partition) : Prop where
  formattable : Formattable part.startLba part.secCnt
  sects : 0 < blockBitmapSects part.secCnt
  onDisk : (formatSuperBlock part.startLba part.secCnt).dataStartLba ≤ maxLba
  superBlock : part.sb = formatSuperBlock part.startLba part.secCnt

section

variable {K : Kernel} {startLba secCnt : ℕ} {sb : SuperBlock} {part part' : Partition} {k k' : Kern} {dirs files : Set ℕ}

theorem mountPartition_reads (h : mountPartition startLba secCnt k = .ok (part, k')) (hsb : SuperBlock.load k.disk (u32 (startLba + 1) * 512) = sb)
    (hinode : sb.inodeBitmapSects = 1) (hsmall : sb.blockBitmapSects * 512 < 2 ^ 32) :
    part = ⟨startLba, secCnt, sb⟩ ∧ k'.disk = k.disk ∧ k'.heap.grant = k.heap.grant ∧
      k'.blockBitmap = ⟨sb.blockBitmapSects * 512, blit zeros 0 (slice k.disk (sb.blockBitmapLba * 512)) (sb.blockBitmapSects * 512)⟩ ∧
      k'.inodeBitmap = ⟨512, blit zeros 0 (slice k.disk (sb.inodeBitmapLba * 512)) 512⟩ := by
  unfold mountPartition at h
  simp only [bind_ok] at h
  obtain ⟨b1, k1, hm1, h⟩ := h
  cases b1 with
  | none => simp at h
  | some b1 =>
  simp only [bind_ok] at h
  obtain ⟨b2, k2, hm2, h⟩ := h
  cases b2 with
  | none => simp at h
  | some b2 =>
  simp only [bind_ok] at h
  obtain ⟨b3, k3, hr3, b4, k4, hm4, h⟩ := h
  cases b4 with
  | none => simp at h
  | some b4 =>
  simp only [bind_ok] at h
  obtain ⟨b5, k5, hr5, _, k6, hmod6, b7, k7, hm7, h⟩ := h
  cases b7 with
  | none => simp at h
  | some b7 =>
  simp only [bind_ok, pure_ok] at h
  obtain ⟨b8, k8, hr8, _, k9, hmod9, hpart, rfl⟩ := h
  simp only [modify_ok] at hmod6 hmod9
  obtain ⟨h1, -, -⟩ := sysMalloc_ok hm1
  obtain ⟨h2, -, -⟩ := sysMalloc_ok hm2
  obtain ⟨-, h3, hb3⟩ := ideRead_ok hr3
  obtain ⟨h4, -, hb4⟩ := sysMalloc_ok hm4
  obtain ⟨-, h5, hb5⟩ := ideRead_ok hr5
  obtain ⟨h7, -, hb7⟩ := sysMalloc_ok hm7
  obtain ⟨-, h8, hb8⟩ := ideRead_ok hr8
  have h12 := h1.trans h2
  have h14 := (h12.trans h3).trans h4
  have h15 := h14.trans h5
  have hload : SuperBlock.load b3.bytes 0 = sb := by
    rw [← hsb, hb3]
    apply SuperBlock.load_congr
    intro i hi
    dsimp only
    rw [blit_inside _ _ (by omega), slice, h12.disk]
  rw [hload] at hpart hm4 hr5 hmod6 hm7 hr8 hmod9 hb4 hb5 hb7 hb8
  have hz4 : b4.bytes = zeros := by
    simp only [reduceCtorEq, false_or, Option.some.injEq] at hb4
    rw [hb4]
  have hz7 : b7.bytes = zeros := by
    simp only [reduceCtorEq, false_or, Option.some.injEq] at hb7
    rw [hb7]
  have hk6 : k6.disk = k.disk := by rw [← hmod6]; exact h15.disk
  have hk5 : k5.heap = k6.heap := by rw [← hmod6]
  have h78 := h7.trans h8
  subst hmod9
  have hbytes : u32 (sb.blockBitmapSects * 512) = sb.blockBitmapSects * 512 := Nat.mod_eq_of_lt hsmall
  refine ⟨hpart.symm, h78.disk.trans hk6, ?_, ?_, ?_⟩
  · rw [← h15.grant, hk5]
    exact h78.grant
  · change k8.blockBitmap = _
    rw [h78.blockBitmap, ← hmod6, hb5, h14.disk, hz4, hbytes]
  · rw [hb8, hz7, h7.disk, hk6, hinode]
    change Bitmap.mk (u32 (1 * 512)) (blit zeros 0 _ (1 * 512)) = _
    rw [one_mul, u32, Nat.mod_eq_of_lt (by omega)]

theorem mountPartition_mountable (hf : Formatted part) (hsb : SuperBlock.load k.disk ((part.startLba + 1) * 512) = part.sb)
    (h : mountPartition part.startLba part.secCnt k = .ok (part', k')) : part' = part ∧ k'.disk = k.disk ∧ k'.heap.grant = k.heap.grant ∧
      k'.inodeBitmap.btmpBytesLen = 512 ∧ Mountable part k' := by
  obtain ⟨l1, -, -, -, l5⟩ := format_layout hf.formattable
  have hcounts := (format_counts hf.formattable).2.1
  have hend := hf.formattable.small
  have hlarge := hf.formattable.large
  have hsects : part.sb.blockBitmapSects = blockBitmapSects part.secCnt := by rw [hf.superBlock]; rfl
  have hone : part.sb.inodeBitmapSects = 1 := by rw [hf.superBlock]; rfl
  have hbelow : part.startLba + 2 ≤ part.sb.blockBitmapLba := by rw [hf.superBlock, l1]
  have hsmall : part.sb.blockBitmapSects * 512 < 2 ^ 32 := by
    obtain ⟨-, -, hc⟩ := format_counts hf.formattable
    rw [hsects]
    omega
  obtain ⟨rfl, hdisk, hgrant, hblocks, hinodes⟩ := mountPartition_reads h (by rw [l5]; exact hsb) hone hsmall
  refine ⟨rfl, hdisk, hgrant, by rw [hinodes], ⟨by rw [hblocks], hbelow, ?_, fun j hj i hi => ?_⟩, fun i hi => ?_⟩
  · rw [hdisk]
    exact hsb
  · rw [hblocks] at hj ⊢
    have hlt : j * 512 + i < part.sb.blockBitmapSects * 512 := by
      have hj' : j + 1 ≤ part.sb.blockBitmapSects := Nat.lt_of_mul_lt_mul_right hj
      refine (Nat.add_lt_add_left hi _).trans_le ?_
      rw [← Nat.succ_mul]
      exact Nat.mul_le_mul_right 512 hj'
    have hin := @blit_inside zeros (slice k.disk (part.sb.blockBitmapLba * 512)) 0 _ _ hlt
    rw [Nat.zero_add] at hin
    dsimp only
    rw [hin, hdisk, slice, ← Nat.add_assoc, ← Nat.add_mul]
  · have hin := @blit_inside zeros (slice k.disk (part.sb.inodeBitmapLba * 512)) 0 512 i hi
    rw [Nat.zero_add] at hin
    rw [hinodes, hdisk]
    exact hin.symm

theorem Mountable.same_bits (h : Mountable part k) (h' : Mountable part k') (hd : k'.disk = k.disk) :
    (∀ i < 8 * k.blockBitmap.btmpBytesLen, k'.blockBitmap.scanTest i = k.blockBitmap.scanTest i) ∧
      ∀ n < 4096, k'.inodeBitmap.scanTest n = k.inodeBitmap.scanTest n := by
  have hlen : k'.blockBitmap.btmpBytesLen = k.blockBitmap.btmpBytesLen := h'.len.trans h.len.symm
  constructor
  · intro i hi
    have hwhole := h.len
    have hj : i / 8 / 512 * 512 < k.blockBitmap.btmpBytesLen := by omega
    have hat := Nat.div_add_mod' (i / 8) 512
    have h1 := h.blockBitmap _ hj (i / 8 % 512) (Nat.mod_lt _ (by omega))
    have h2 := h'.blockBitmap _ (hlen ▸ hj) (i / 8 % 512) (Nat.mod_lt _ (by omega))
    rw [hat] at h1 h2
    rw [Bitmap.scanTest_eq, Bitmap.scanTest_eq, ← h1, ← h2, hd]
  · intro n hn
    have h1 := h.inodeBitmap (n / 8) (by omega)
    have h2 := h'.inodeBitmap (n / 8) (by omega)
    rw [Bitmap.scanTest_eq, Bitmap.scanTest_eq, ← h1, ← h2, hd]

theorem Volume.remounted (hv : Volume K dirs files k) (hm : Mountable K.toPartition k) (hm' : Mountable K.toPartition k') (hd : k'.disk = k.disk)
    (hinodes : k'.inodeBitmap.btmpBytesLen = 512) :
    Volume K dirs files k' := by
  obtain ⟨hblocks, hbits⟩ := hm.same_bits hm' hd
  have hlen : k'.blockBitmap.btmpBytesLen = k.blockBitmap.btmpBytesLen := hm'.len.trans hm.len.symm
  have hs : Spares K.toPartition (dirs ∪ files) k k' := by
    refine ⟨hlen, fun n hn p hp hnz => ?_, fun a => .inl (congrFun hd a)⟩
    obtain ⟨h1, h2, h3⟩ := (hv.owns hn).used p hp hnz
    refine ⟨h1, hlen ▸ h2, ?_⟩
    rw [hblocks _ h2]
    exact h3
  refine ⟨hv.toInodes.spare hs, hv.names.congr fun _ hc => (hv.toInodes.unmoved hs).entries (.inl hc), hinodes, fun n hn => ?_⟩
  rw [hbits n hn]
  exact hv.inodeBits n hn

theorem mountDefault_again {s s' : Fs} (hf : Formatted part) (hv : Volume part.kernel dirs files k) (hm : Mountable part k)
    (hwell : FileSpace.WellFormed (⟨pathMap part k.disk, fun _ => none⟩ : FileSpace (ℕ × ℤ) Name UInt8)) (hidle : s.Idle)
    (hplenty : s.kern.Plenty) (hd : s.kern.disk = k.disk) (h : mountDefault part.startLba part.secCnt s = .ok (part', s')) :
    part' = part ∧ Mountable part s'.kern ∧ ShowsSpace part.kernel (s', []) ⟨pathMap part k.disk, fun _ => none⟩ := by
  obtain ⟨k₂, hmount, hheap, hfd, hroot⟩ := mountDefault_mounted h
  obtain ⟨hpart, hdisk, hgrant, hinodes, hm₂⟩ := mountPartition_mountable hf (by rw [hd]; exact hm.superBlock) hmount
  obtain rfl := hpart.symm
  have hzero : part.sb.rootInodeNo = 0 := by rw [hf.superBlock]; rfl
  have hv₂ := hv.remounted hm hm₂ (hdisk.trans hd) hinodes
  refine ⟨rfl, hheap.keepsMount hm₂, (hroot hzero dirs files hv₂).shows (hheap.plenty fun i => ?_) (hv₂.heap hheap).1 (hidle.congr hfd) ?_ hwell⟩
  · rw [hgrant]
    exact hplenty i
  · rw [hheap.disk, hdisk, hd]
    rfl

theorem Formatted.mountPartition_runs (hf : Formatted part) (hsb : SuperBlock.load k.disk ((part.startLba + 1) * 512) = part.sb)
    (hplenty : k.Plenty) : Runs (mountPartition part.startLba part.secCnt) k fun _ _ => True := by
  obtain ⟨r0, r1, r2, -, -⟩ := format_ranges hf.formattable hf.sects hf.onDisk
  unfold mountPartition
  refine Runs.bind (sysMalloc_runs 512 hplenty) ?_
  rintro _ k1 ⟨rfl, h1⟩
  refine Runs.bind (sysMalloc_runs 512 (h1.plenty hplenty)) ?_
  rintro _ k2 ⟨rfl, h2⟩
  have h12 := h1.trans h2
  refine Runs.bind (ideRead_runs r0 _ k2) ?_
  rintro _ k3 ⟨rfl, h3⟩
  have hload : SuperBlock.load (blit zeros 0 (slice k2.disk (u32 (part.startLba + 1) * 512)) (1 * 512)) 0 =
      formatSuperBlock part.startLba part.secCnt := by
    rw [← hf.superBlock, ← hsb]
    apply SuperBlock.load_congr
    intro i hi
    rw [blit_inside _ _ (by omega), slice, h12.disk, (format_layout hf.formattable).2.2.2.2]
  simp only [hload]
  refine Runs.bind (sysMalloc_runs _ (h3.plenty (h12.plenty hplenty))) ?_
  rintro _ k4 ⟨rfl, h4⟩
  refine Runs.bind (ideRead_runs r1 _ k4) ?_
  rintro _ k5 ⟨rfl, h5⟩
  have hk5 := h5.plenty (h4.plenty (h3.plenty (h12.plenty hplenty)))
  refine Runs.bind (P := fun _ k6 => k6.heap = k5.heap) ⟨_, _, modify_eq _ _, rfl⟩ ?_
  intro _ k6 h6
  have hk6 : k6.Plenty := fun i => by rw [h6]; exact hk5 i
  refine Runs.bind (sysMalloc_runs _ hk6) ?_
  rintro _ k7 ⟨rfl, h7⟩
  refine Runs.bind (ideRead_runs r2 _ k7) ?_
  rintro _ k8 ⟨rfl, h8⟩
  refine Runs.bind (P := fun _ _ => True) ⟨_, _, modify_eq _ _, trivial⟩ ?_
  intro _ k9 _
  exact ⟨_, _, rfl, trivial⟩

theorem mountDefault_runs {s : Fs} (hf : Formatted part) (hsb : SuperBlock.load s.kern.disk ((part.startLba + 1) * 512) = part.sb)
    (hplenty : s.kern.Plenty) : Runs (mountDefault part.startLba part.secCnt) s fun _ _ => True := by
  obtain ⟨part', k₂, hmount, -⟩ := hf.mountPartition_runs hsb hplenty
  obtain ⟨hpart, -, hgrant, -⟩ := mountPartition_mountable hf hsb hmount
  obtain rfl := hpart.symm
  have hplenty₂ : k₂.Plenty := by
    intro i
    rw [hgrant]
    exact hplenty i
  have htable : TableOnDisk part := by
    have hsb' := hf.superBlock
    have := formattedPartition_table hf.formattable hf.onDisk
    unfold formattedPartition at this
    rwa [← hsb'] at this
  unfold mountDefault ElephantOS.openRootDir
  refine Runs.bind (liftKern_runs (Q := fun a k' => part = a ∧ k₂ = k') ⟨part, k₂, hmount, rfl, rfl⟩) ?_
  rintro _ _ ⟨_, ⟨rfl, rfl⟩, rfl⟩
  refine Runs.modify ?_
  have hzero : part.kernel.sb.rootInodeNo = 0 := by
    change part.sb.rootInodeNo = 0
    rw [hf.superBlock]
    rfl
  rw [hzero]
  refine Runs.bind (P := fun _ _ => True) (Runs.bind (inodeOpen_runs htable (by omega) hplenty₂ ?_ ?_) fun p s₁ _ => ⟨_, _, rfl, trivial⟩)
    fun _ s₂ _ => ⟨_, _, rfl, trivial⟩
  · intro q hq
    simp at hq
  · exact List.not_mem_nil

end

end ElephantOS
