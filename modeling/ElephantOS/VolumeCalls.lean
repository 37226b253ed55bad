import ElephantOS.FilePositions
import ElephantOS.NewNames

namespace ElephantOS

open ByteMemory HaltingState

structure Served (K : Kernel) (extra : Multiset Ptr) (dirs files : Set ℕ) (s : Fs) : Prop
    extends Mounted K (extra + slotRefs s.fileTable) dirs files s where
  extraDirs : ∀ p ∈ extra, (s.inodes p).iNo ∈ dirs
  slotFiles : ∀ p ∈ slotRefs s.fileTable, (s.inodes p).iNo ∈ files

section

variable {K : Kernel} {rest extra : Multiset Ptr} {dirs dirs' files files' : Set ℕ} {s s' : Fs} {p : Ptr} {task n : ℕ}

theorem Refs.same {held : Multiset Ptr} (h : Refs held s) (hopen : s'.openInodes = s.openInodes) (hnext : s.kern.heap.next ≤ s'.kern.heap.next)
    (hold : ∀ q ∈ s.openInodes, (s'.inodes q).iOpenCnts = (s.inodes q).iOpenCnts) : Refs held s' := by
  refine ⟨?_, ?_, ?_, ?_⟩ <;> rw [hopen]
  · exact h.nodup
  · exact fun q hq => (h.fresh q hq).trans_le hnext
  · exact fun q hq => (hold q hq).trans (h.count q hq)
  · exact h.mem

theorem Mounted.same (h : Mounted K rest dirs files s) (hopen : s'.openInodes = s.openInodes) (hroot : s'.rootDir = s.rootDir)
    (hgrant : s'.kern.heap.grant = s.kern.heap.grant) (hnext : s.kern.heap.next ≤ s'.kern.heap.next) (hv : Volume K dirs' files' s'.kern)
    (hinodes : ∀ q ∈ s.openInodes, (s'.inodes q).iNo = (s.inodes q).iNo ∧ (s'.inodes q).iOpenCnts = (s.inodes q).iOpenCnts ∧
      (s.inodes q).iNo ∈ dirs' ∪ files' ∧ (storedInode K.toPartition s'.kern.disk (s.inodes q).iNo).SameStored (s'.inodes q)) :
    Mounted K rest dirs' files' s' := by
  have hno : ∀ q ∈ s.openInodes, (s'.inodes q).iNo = (s.inodes q).iNo := fun q hq => (hinodes q hq).1
  refine ⟨?_, ?_, hv, ?_, ?_, ?_, ?_⟩
  · rw [hroot]
    exact h.refs.same hopen hnext fun q hq => (hinodes q hq).2.1
  · intro i
    rw [hgrant]
    exact h.plenty i
  · intro q hq
    rw [hopen] at hq
    rw [hno q hq]
    exact (hinodes q hq).2.2.1
  · intro q hq
    rw [hopen] at hq
    rw [hno q hq]
    exact (hinodes q hq).2.2.2
  · intro q hq r hr heq
    rw [hopen] at hq hr
    rw [hno q hq, hno r hr] at heq
    exact h.distinct q hq r hr heq
  · rw [hroot, hno _ h.rootMem]
    exact h.root

theorem Mounted.quiet (h : Mounted K rest dirs files s) (hopen : s'.openInodes = s.openInodes) (hroot : s'.rootDir = s.rootDir)
    (hdisk : s'.kern.disk = s.kern.disk) (hb : s'.kern.blockBitmap = s.kern.blockBitmap) (hi : s'.kern.inodeBitmap = s.kern.inodeBitmap)
    (hgrant : s'.kern.heap.grant = s.kern.heap.grant) (hnext : s.kern.heap.next ≤ s'.kern.heap.next)
    (hinodes : ∀ q ∈ s.openInodes, (s.inodes q).SameStored (s'.inodes q) ∧ (s'.inodes q).iOpenCnts = (s.inodes q).iOpenCnts) :
    Mounted K rest dirs files s' := by
  have hv := h.volume.spare (h.volume.toInodes.elsewhere hb fun a => .inl (congrFun hdisk a)) hi
  refine h.same hopen hroot hgrant hnext hv fun q hq => ?_
  obtain ⟨hst, hc⟩ := hinodes q hq
  rw [hdisk]
  exact ⟨hst.iNo.symm, hc, h.number q hq, (h.stored q hq).trans hst⟩

theorem setInode_sameStored {inode : Inode} (hst : (s.inodes p).SameStored inode) (q : Ptr) :
    (s.inodes q).SameStored ((setInode p inode s).inodes q) := by
  unfold setInode
  by_cases hq : q = p
  · subst hq
    simp only [Function.update_self]
    exact hst
  · simp only [Function.update_of_ne hq]
    exact Inode.SameStored.refl _

theorem setInode_counts {inode : Inode} (hc : inode.iOpenCnts = (s.inodes p).iOpenCnts) (q : Ptr) :
    ((setInode p inode s).inodes q).iOpenCnts = (s.inodes q).iOpenCnts := by
  unfold setInode
  by_cases hq : q = p
  · subst hq
    simp only [Function.update_self]
    exact hc
  · simp only [Function.update_of_ne hq]

theorem Mounted.setInode {inode : Inode} (h : Mounted K rest dirs files s) (hst : (s.inodes p).SameStored inode)
    (hc : inode.iOpenCnts = (s.inodes p).iOpenCnts) : Mounted K rest dirs files (setInode p inode s) :=
  h.quiet rfl rfl rfl rfl rfl rfl (le_refl _) fun q _ => ⟨setInode_sameStored hst q, setInode_counts hc q⟩

theorem Mounted.tables (h : Mounted K rest dirs files s) (hk : s'.kern = s.kern) (hi : s'.inodes = s.inodes)
    (hopen : s'.openInodes = s.openInodes) (hroot : s'.rootDir = s.rootDir) : Mounted K rest dirs files s' := by
  refine h.quiet hopen hroot (by rw [hk]) (by rw [hk]) (by rw [hk]) (by rw [hk]) (by rw [hk]) fun q _ => ?_
  rw [hi]
  exact ⟨Inode.SameStored.refl _, rfl⟩

theorem Served.calm (h : Served K extra dirs files s) (hm : Mounted K (extra + slotRefs s.fileTable) dirs files s')
    (hc : Calm (s.rootDir ::ₘ (extra + slotRefs s.fileTable)) s s') : Served K extra dirs files s' := by
  have hslots := slotRefs_congr hc.kept.fileTable
  rw [← hslots] at hm
  refine ⟨hm, ?_, ?_⟩
  · intro q hq
    rw [hc.kept.iNo q (Multiset.mem_cons_of_mem (Multiset.mem_add.mpr (.inl hq)))]
    exact h.extraDirs q hq
  · intro q hq
    rw [hslots] at hq
    rw [hc.kept.iNo q (Multiset.mem_cons_of_mem (Multiset.mem_add.mpr (.inr hq)))]
    exact h.slotFiles q hq

theorem Served.onTask (h : Served K extra dirs files s) (pool : ℕ → Pool) (task : ℕ) : Served K extra dirs files (onTask pool task s) :=
  ⟨h.toMounted.quiet rfl rfl rfl rfl rfl rfl (le_refl _) fun _ _ => ⟨Inode.SameStored.refl _, rfl⟩, h.extraDirs, h.slotFiles⟩

theorem Served.slot (h : Served K extra dirs files s) {k : ℕ} (hk : k < maxFileOpen) (hp : (s.fileTable k).fdInode = some p) :
    p ∈ s.openInodes ∧ (s.inodes p).iNo ∈ files := by
  have hmem : p ∈ slotRefs s.fileTable := by
    rw [slotRefs_freed s.fileTable hk hp]
    exact Multiset.mem_cons_self _ _
  exact ⟨h.toMounted.mem (Multiset.mem_add.mpr (.inr hmem)), h.slotFiles p hmem⟩

theorem Served.sysClose {fd r : ℤ} (h : Served K extra dirs files s) (hs : sysClose task fd s = .ok (r, s')) :
    Served K extra dirs files s' ∧ HeapOnly s.kern s'.kern := by
  rcases sysClose_ok hs with ⟨-, -, rfl⟩ | ⟨j, k, s1, -, -, -, hk, -, h1, rfl⟩
  · exact ⟨h, HeapOnly.refl _⟩
  unfold fileClose at h1
  simp only [bind_ok, get_ok] at h1
  obtain ⟨_, _, ⟨rfl, rfl⟩, h1⟩ := h1
  cases hp : (s.fileTable k).fdInode with
  | none => simp [hp] at h1
  | some p =>
    simp only [hp, bind_ok, modify_ok, pure_ok] at h1
    obtain ⟨_, _, rfl, _, s2, h2, _, _, rfl, rfl, rfl⟩ := h1
    have hfreed := slotRefs_freed s.fileTable hk hp
    have hm := h.toMounted
    rw [hfreed, Multiset.add_cons] at hm
    have hm1 := @Mounted.setInode _ _ _ _ _ p { s.inodes p with writeDeny := false } hm ⟨rfl, rfl, fun _ _ => rfl⟩ rfl
    obtain ⟨hm2, hc⟩ := hm1.inodeClose h2
    have hno : ∀ q, ((ElephantOS.setInode p { s.inodes p with writeDeny := false } s).inodes q).iNo = (s.inodes q).iNo :=
      fun q => (@setInode_sameStored _ _ { s.inodes p with writeDeny := false } ⟨rfl, rfl, fun _ _ => rfl⟩ q).iNo.symm
    have hslots : slotRefs (Function.update s2.fileTable k { s2.fileTable k with fdInode := none }) =
        slotRefs (Function.update s.fileTable k { s.fileTable k with fdInode := none }) := by
      apply slotRefs_inode
      intro i
      by_cases hi : i = k
      · subst hi
        simp only [Function.update_self]
      · simp only [Function.update_of_ne hi]
        exact hc.kept.fileTable.inode i
    have hheld : ∀ q ∈ extra + slotRefs (Function.update s.fileTable k { s.fileTable k with fdInode := none }),
        (s2.inodes q).iNo = (s.inodes q).iNo := by
      intro q hq
      rw [hc.kept.iNo q (Multiset.mem_cons_of_mem (Multiset.mem_cons_of_mem hq)), hno]
    refine ⟨⟨?_, ?_, ?_⟩, hc.kern⟩
    · change Mounted K (extra + slotRefs (Function.update s2.fileTable k { s2.fileTable k with fdInode := none })) dirs files _
      rw [hslots]
      exact hm2.tables rfl rfl rfl rfl
    · intro q hq
      change (s2.inodes q).iNo ∈ dirs
      rw [hheld q (Multiset.mem_add.mpr (.inl hq))]
      exact h.extraDirs q hq
    · intro q hq
      change q ∈ slotRefs (Function.update s2.fileTable k { s2.fileTable k with fdInode := none }) at hq
      rw [hslots] at hq
      change (s2.inodes q).iNo ∈ files
      rw [hheld q (Multiset.mem_add.mpr (.inr hq))]
      apply h.slotFiles q
      rw [hfreed]
      exact Multiset.mem_cons_of_mem hq

/-- The descriptor leads to inode `m`. -/
def LeadsTo (s : Fs) (task : ℕ) (fd : ℤ) (m : ℕ) : Prop :=
  ∃ k p, LooksUp s task fd k ∧ (s.fileTable k).fdInode = some p ∧ (s.inodes p).iNo = m

def Appended (K : Kernel) (dirs files : Set ℕ) (task : ℕ) (fd r : ℤ) (bytes : List UInt8) (s s' : Fs) : Prop :=
  (r = -1 ∨ fd = 1) ∧ s'.tree K dirs files = s.tree K dirs files ∨ ∃ m ∈ files, LeadsTo s task fd m ∧ r = bytes.length ∧
    s'.tree K dirs files = (s.tree K dirs files).setContent m ((s.tree K dirs files).content m ++ bytes)

def TableWrittenBack (s : Fs) (task : ℕ) (fd : ℤ) (count : ℕ) : Prop := ∀ k p, LooksUp s task fd k → (s.fileTable k).fdInode = some p →
  usedBlocks (s.inodes p) ≤ 12 → 12 * 512 ≤ (s.inodes p).iSize + count → TableTogether s.kern.blockBitmap (s.inodes p)

theorem Written.keepsMount {buf : Memory} {count : ℕ} {k k' : Kern} {inode inode' : Inode} (hw : Written K buf count k inode k' inode')
    (hl : Layout K.toPartition k.blockBitmap.btmpBytesLen)
    (htable : usedBlocks inode ≤ 12 → 12 * 512 ≤ inode.iSize + count → TableTogether k.blockBitmap inode) : KeepsMount K.toPartition k k' := by
  have hmap : MapKept K.toPartition k k' :=
    .of_sameOff hl hw.grown.len (hw.sync htable) (fun p hp hnz => (hw.file.owns.used p hp hnz).1) hw.disk
  exact fun h => h.kept hl hmap hw.inodeBitmap

theorem Served.sysWrite {fd r : ℤ} {buf : Memory} {count : ℕ} (h : Served K extra dirs files s) (hcount : count < 2 ^ 31)
    (hs : sysWrite K task fd buf count s = .ok (r, s')) : Served K extra dirs files s' ∧
      Appended K dirs files task fd r (bytesOf buf count) s s' ∧
      Undisturbed K.toPartition {m ∈ dirs ∪ files | ¬ LeadsTo s task fd m} s.kern s'.kern ∧
      (TableWrittenBack s task fd count → KeepsMount K.toPartition s.kern s'.kern) := by
  have hsub : {m ∈ dirs ∪ files | ¬ LeadsTo s task fd m} ⊆ dirs ∪ files := Set.sep_subset _ _
  have hstay : Undisturbed K.toPartition {m ∈ dirs ∪ files | ¬ LeadsTo s task fd m} s.kern s.kern :=
    (h.volume.heap (HeapOnly.refl _)).2.mono hsub
  have hrun : (FdCall.sysWrite fd buf count).run K task s = .ok (r, s') := hs
  rw [FdCall.run_eq, bind_ok] at hrun
  obtain ⟨route, s1, hroute, hs⟩ := hrun
  obtain ⟨rfl, hcases⟩ := sysWrite_route.mp hroute
  rcases hcases with ⟨-, rfl⟩ | ⟨hone, rfl⟩ | ⟨-, k, hk, rfl⟩
  · obtain ⟨rfl, rfl⟩ := (pure_ok _ _ _ _).mp hs
    exact ⟨h, .inl ⟨.inl rfl, rfl⟩, hstay, fun _ => .refl _ _⟩
  · simp only [FdCall.act, bind_ok, bound_ok, pure_ok] at hs
    obtain ⟨_, _, ⟨-, rfl⟩, -, rfl⟩ := hs
    exact ⟨h, .inl ⟨.inr hone, rfl⟩, hstay, fun _ => .refl _ _⟩
  cases hflag : oWrite (s1.fileTable k).fdFlag with
  | false =>
    rw [hflag, if_neg Bool.false_ne_true] at hs
    obtain ⟨rfl, rfl⟩ := (pure_ok _ _ _ _).mp hs
    exact ⟨h, .inl ⟨.inl rfl, rfl⟩, hstay, fun _ => .refl _ _⟩
  | true =>
    rw [hflag, if_pos rfl] at hs
    simp only [FdCall.act] at hs
    obtain ⟨p, file, inode, kern, hp, hm, rfl⟩ := onFile_ok hs
    obtain ⟨hopen, hmem⟩ := h.slot hk.2.2.1 hp
    have hst := h.stored p hopen
    have hfile := h.volume.file _ hmem
    have hsmall := hfile.small
    rw [hst.iSize] at hsmall
    have hok : FileOk K.toPartition s1.kern (s1.inodes p) := (SameBlocks.of_stored hst).symm.fileOk hfile hfile.owns.used
    have hgives := (fileWrite_gives K _ _ _ _ _ _ _ hm).2
    have hslots : slotRefs (Function.update s1.fileTable k file) = slotRefs s1.fileTable := by
      apply slotRefs_inode
      intro i
      by_cases hi : i = k
      · subst hi
        simp only [Function.update_self]
        exact hgives.1
      · simp only [Function.update_of_ne hi]
    have hno : ∀ q, ((setInode p inode (setFile k file { s1 with kern := kern })).inodes q).iNo = (s1.inodes q).iNo := by
      intro q
      by_cases hq : q = p
      · subst hq
        simp only [setInode, Function.update_self]
        exact hgives.2.iNo
      · simp only [setInode, setFile, Function.update_of_ne hq]
    have hserved : Mounted K (extra + slotRefs s1.fileTable) dirs files (setInode p inode (setFile k file { s1 with kern := kern })) →
        Served K extra dirs files (setInode p inode (setFile k file { s1 with kern := kern })) := by
      intro hmounted
      refine ⟨?_, ?_, ?_⟩
      · change Mounted K (extra + slotRefs (Function.update s1.fileTable k file)) dirs files _
        rwa [hslots]
      · intro q hq
        rw [hno]
        exact h.extraDirs q hq
      · intro q hq
        change q ∈ slotRefs (Function.update s1.fileTable k file) at hq
        rw [hslots] at hq
        rw [hno]
        exact h.slotFiles q hq
    have hcounts : ∀ q, ((setInode p inode (setFile k file { s1 with kern := kern })).inodes q).iOpenCnts = (s1.inodes q).iOpenCnts := by
      intro q
      exact setInode_counts (s := setFile k file { s1 with kern := kern }) hgives.2.iOpenCnts q
    have hlen : (bytesOf buf count).length = count := by simp [bytesOf]
    rcases fileWrite_ok h.volume.layout hok (by omega) hm with ⟨rfl, -, rfl, hheap⟩ | ⟨rfl, -, hw⟩
    · refine ⟨hserved ?_, .inl ⟨.inl rfl, ?_⟩, (h.volume.heap hheap).2.mono hsub, fun _ => hheap.keepsMount⟩
      · refine h.toMounted.quiet rfl rfl hheap.disk hheap.blockBitmap hheap.inodeBitmap hheap.grant hheap.next fun q _ => ⟨?_, hcounts q⟩
        exact @setInode_sameStored (setFile k file { s1 with kern := kern }) p _ (Inode.SameStored.refl _) q
      · exact h.volume.toInodes.tree_same (h.volume.heap hheap).2
    · obtain ⟨hv, hafter, hu⟩ := h.volume.write hmem hst hw
      refine ⟨hserved (h.toMounted.same rfl rfl hw.steady.grant hw.steady.next hv ?_), ?_, hu.mono ?_, fun htable =>
        hw.keepsMount h.volume.layout (htable k p hk hp)⟩
      · intro q hq
        refine ⟨hno q, hcounts q, h.number q hq, ?_⟩
        by_cases hqp : q = p
        · subst hqp
          simp only [setInode, Function.update_self]
          exact hafter
        · simp only [setInode, setFile, Function.update_of_ne hqp]
          have hne : (s1.inodes q).iNo ≠ (s1.inodes p).iNo := fun heq => hqp (h.distinct q hq p hopen heq)
          rw [(hu _ ⟨h.number q hq, hne⟩).1]
          exact h.stored q hq
      · refine .inr ⟨_, hmem, ⟨k, p, hk, hp, rfl⟩, ?_, h.volume.tree_write hmem hst hw⟩
        rw [hlen, int32, if_pos hcount]
      · rintro m ⟨hm, hleads⟩
        refine ⟨hm, ?_⟩
        rintro rfl
        exact hleads ⟨k, p, hk, hp, rfl⟩

end

end ElephantOS
