import ElephantOS.FileContents
import ElephantOS.NamedTree
import ElephantOS.VolumeRemoval

namespace ElephantOS

open ByteMemory HaltingState

def contentsOf (d : Memory) (inode : Inode) : List UInt8 := (List.range inode.iSize).map (fileByte d inode)

open Classical in
noncomputable def volumeTree (part : Partition) (dirs files : Set ℕ) (d : Memory) : NamedTree ℕ Name (List UInt8) where
  inner := dirs
  leaves := files
  children c := {x | c ∈ dirs ∧ ∃ pos e, entriesOn part d c pos = some e ∧ e.Ordinary ∧ x = (e.name, e.iNo)}
  content m := if m ∈ files then contentsOf d (storedInode part d m) else []

def bytesOf (buf : Memory) (count : ℕ) : List UInt8 := (List.range count).map buf

/-- The directory that a list of names leads to, the names `.` and `..` applied. -/
def normalize (names : List Name) : List Name :=
  names.foldl (fun q name => if name = dot then q else if name = dotDot then q.dropLast else q ++ [name]) []

section

variable {K : Kernel} {part : Partition} {k k' : Kern} {d d' : Memory} {inode inode' : Inode} {dirs files : Set ℕ} {n m c : ℕ} {e : Entry}
  {pos : ℕ × ℕ} {bytes : List UInt8} {names : List Name} {name : Name}

theorem contentsOf_contents (d : Memory) (inode : Inode) : Contents d inode (contentsOf d inode) := by
  have hlen : (contentsOf d inode).length = inode.iSize := by simp [contentsOf]
  refine ⟨hlen.symm, fun q hq => ?_⟩
  rw [hlen] at hq
  simp [contentsOf, ofList, hq]

theorem Contents.eq (h : Contents d inode bytes) : contentsOf d inode = bytes := by
  have hlen : (contentsOf d inode).length = inode.iSize := by simp [contentsOf]
  refine List.ext_getElem (hlen.trans h.size) fun q hq hq' => ?_
  have := h.byte q hq'
  simpa [contentsOf, ofList, List.getD_eq_getElem?_getD, hq'] using this

theorem SameBlocks.contents (h : SameBlocks d inode d' inode') (hf : FileOk part k inode) (hd : k.disk = d) :
    contentsOf d' inode' = contentsOf d inode := by
  unfold contentsOf
  rw [h.stored.iSize]
  refine List.map_congr_left fun q hq => ?_
  have hq := List.mem_range.mp hq
  have hsmall := hf.small
  have hp : q / 512 < 140 := by omega
  have hne : blockAddr d inode (q / 512) ≠ 0 := by
    rw [← hd]
    refine (hf.blocks.block _ hp).mpr ?_
    unfold usedBlocks
    split_ifs with h0
    · have := hf.empty h0
      omega
    · omega
  unfold fileByte byteAddr
  rw [h.blocks hp]
  refine h.bytes _ ⟨q / 512, by omega, ?_, ?_⟩ <;> rw [refAddr_block _ _ hp]
  · exact hne
  · exact byteAddr_sector _ _

theorem volumeTree_children {x : Name × ℕ} : x ∈ (volumeTree part dirs files d).children c ↔
    c ∈ dirs ∧ ∃ pos e, entriesOn part d c pos = some e ∧ e.Ordinary ∧ x = (e.name, e.iNo) := Iff.rfl

theorem volumeTree_file (hm : m ∈ files) : (volumeTree part dirs files d).content m = contentsOf d (storedInode part d m) := if_pos hm

theorem volumeTree_noFile (hm : m ∉ files) : (volumeTree part dirs files d).content m = [] := if_neg hm

theorem Inodes.tree_same (h : Inodes K dirs files k) (hu : Undisturbed K.toPartition (dirs ∪ files) k k') :
    volumeTree K.toPartition dirs files k'.disk = volumeTree K.toPartition dirs files k.disk := by
  refine NamedTree.ext rfl rfl ?_ ?_
  · funext c
    ext x
    rw [volumeTree_children, volumeTree_children]
    refine and_congr_right fun hc => ?_
    rw [hu.entries (.inl hc)]
  · funext m
    by_cases hm : m ∈ files
    · rw [volumeTree_file hm, volumeTree_file hm]
      exact (hu m (.inr hm)).2.contents (h.file m hm) rfl
    · rw [volumeTree_noFile hm, volumeTree_noFile hm]

theorem Inodes.content_same (h : Inodes K dirs files k) {N : Set ℕ} (hu : Undisturbed K.toPartition N k k') (hm : m ∈ files) (hN : m ∈ N) :
    contentsOf k'.disk (storedInode K.toPartition k'.disk m) = contentsOf k.disk (storedInode K.toPartition k.disk m) :=
  (hu m hN).2.contents (h.file m hm) rfl

theorem EntryPut.children {x : Name × ℕ} (h : EntryPut part dirs n e d d') (hord : e.Ordinary) (hn : n ∈ dirs) (hc : c ∈ dirs) :
    (∃ pos e', entriesOn part d' c pos = some e' ∧ e'.Ordinary ∧ x = (e'.name, e'.iNo)) ↔
      x ∈ (volumeTree part dirs files d).children c ∨ c = n ∧ x = (e.name, e.iNo) := by
  obtain ⟨pos, hfree, h⟩ := h
  rw [h c hc, volumeTree_children]
  constructor
  · rintro ⟨q, e', hq, ho, hx⟩
    rcases place_some.mp hq with ⟨hcn, -, rfl⟩ | ⟨-, hq⟩
    · exact .inr ⟨hcn, hx⟩
    · exact .inl ⟨hc, q, e', hq, ho, hx⟩
  · rintro (⟨-, q, e', hq, ho, hx⟩ | ⟨rfl, hx⟩)
    · exact ⟨q, e', place_kept hfree hq, ho, hx⟩
    · exact ⟨pos, e, place_self _ _ _ _, hord, hx⟩

theorem Volume.tree_addFile (hv : Volume K dirs files k) (hput : EntryPut K.toPartition dirs n e k.disk k'.disk) (hord : e.Ordinary)
    (hn : n ∈ dirs) (hu : Undisturbed K.toPartition ((dirs ∪ files) \ {n}) k k')
    (hempty : (storedInode K.toPartition k'.disk e.iNo).iSize = 0) : volumeTree K.toPartition dirs (insert e.iNo files) k'.disk =
      (volumeTree K.toPartition dirs files k.disk).addLeaf n e.name e.iNo [] := by
  refine NamedTree.ext rfl rfl ?_ ?_
  · funext c
    ext x
    rw [volumeTree_children]
    refine Iff.trans ?_ NamedTree.mem_update_insert.symm
    constructor
    · rintro ⟨hc, hx⟩
      exact (hput.children hord hn hc).mp hx
    · intro hx
      have hc : c ∈ dirs := by
        rcases hx with hx | ⟨rfl, -⟩
        · exact hx.1
        · exact hn
      exact ⟨hc, (hput.children hord hn hc).mpr hx⟩
  · funext m
    simp only [NamedTree.addLeaf]
    by_cases hm : m = e.iNo
    · subst hm
      rw [Function.update_self, volumeTree_file (Set.mem_insert _ _)]
      unfold contentsOf
      rw [hempty]
      rfl
    · rw [Function.update_of_ne hm]
      by_cases hmf : m ∈ files
      · rw [volumeTree_file hmf, volumeTree_file (Set.mem_insert_of_mem _ hmf)]
        refine hv.toInodes.content_same hu hmf ⟨.inr hmf, ?_⟩
        rintro rfl
        exact hv.names.disjoint m hn hmf
      · rw [volumeTree_noFile hmf, volumeTree_noFile fun hx => hx.elim hm hmf]

theorem Volume.tree_addDir (hv : Volume K dirs files k) (hput : EntryPut K.toPartition dirs n e k.disk k'.disk) (hord : e.Ordinary)
    (hn : n ∈ dirs) (hu : Undisturbed K.toPartition ((dirs ∪ files) \ {n}) k k')
    (hempty : ∀ pos e', entriesOn K.toPartition k'.disk e.iNo pos = some e' → ¬ e'.Ordinary) :
    volumeTree K.toPartition (insert e.iNo dirs) files k'.disk = (volumeTree K.toPartition dirs files k.disk).addInner n e.name e.iNo := by
  refine NamedTree.ext rfl rfl ?_ ?_
  · funext c
    ext x
    rw [volumeTree_children]
    refine Iff.trans ?_ NamedTree.mem_update_insert.symm
    constructor
    · rintro ⟨rfl | hc, pos, e', he', ho, hx⟩
      · exact absurd ho (hempty pos e' he')
      · exact (hput.children hord hn hc).mp ⟨pos, e', he', ho, hx⟩
    · intro hx
      have hc : c ∈ dirs := by
        rcases hx with hx | ⟨rfl, -⟩
        · exact hx.1
        · exact hn
      exact ⟨.inr hc, (hput.children hord hn hc).mpr hx⟩
  · funext m
    simp only [NamedTree.addInner]
    by_cases hmf : m ∈ files
    · rw [volumeTree_file hmf, volumeTree_file hmf]
      refine hv.toInodes.content_same hu hmf ⟨.inr hmf, ?_⟩
      rintro rfl
      exact hv.names.disjoint m hn hmf
    · rw [volumeTree_noFile hmf, volumeTree_noFile hmf]

theorem Volume.tree_remove (hv : Volume K dirs files k) (hgone : EntryGone K.toPartition (dirs \ {e.iNo}) n e k.disk k'.disk) (hord : e.Ordinary)
    (hn : n ∈ dirs) (hne : n ≠ e.iNo) (hu : Undisturbed K.toPartition ((dirs ∪ files) \ {n, e.iNo}) k k')
    (hempty : e.iNo ∈ dirs → ∀ pos e', entriesOn K.toPartition k.disk e.iNo pos = some e' → ¬ e'.Ordinary) :
    volumeTree K.toPartition (dirs \ {e.iNo}) (files \ {e.iNo}) k'.disk = (volumeTree K.toPartition dirs files k.disk).remove n e.name e.iNo := by
  obtain ⟨pos, hpos, hgone⟩ := hgone
  have honly : ∀ q e', entriesOn K.toPartition k.disk n q = some e' → e'.Ordinary → (q ≠ pos ↔ (e'.name, e'.iNo) ≠ (e.name, e.iNo)) := by
    intro q e' hq ho
    refine ⟨fun hne heq => hne ?_, fun hne heq => hne ?_⟩
    · exact (hv.names.once n hn n hn q pos e' e hq hpos ho hord (Prod.mk.inj heq).2).2
    · rw [heq, hpos, Option.some.injEq] at hq
      rw [hq]
  refine NamedTree.ext rfl rfl ?_ ?_
  · funext c
    ext x
    rw [volumeTree_children]
    simp only [NamedTree.remove]
    by_cases hce : c = e.iNo
    · subst hce
      rw [Function.update_of_ne hne.symm]
      refine ⟨fun hx => absurd rfl hx.1.2, ?_⟩
      rintro ⟨hc, q, e', hq, ho, -⟩
      exact absurd ho (hempty hc q e' hq)
    · by_cases hcn : c = n
      · subst hcn
        rw [Function.update_self, hgone c ⟨hn, hce⟩]
        constructor
        · rintro ⟨-, q, e', hq, ho, rfl⟩
          obtain ⟨hne', hq⟩ := place_none.mp hq
          exact ⟨⟨hn, q, e', hq, ho, rfl⟩, (honly q e' hq ho).mp fun heq => hne' ⟨rfl, heq⟩⟩
        · rintro ⟨⟨-, q, e', hq, ho, rfl⟩, hx⟩
          exact ⟨⟨hn, hce⟩, q, e', place_none.mpr ⟨fun heq => (honly q e' hq ho).mpr hx heq.2, hq⟩, ho, rfl⟩
      · rw [Function.update_of_ne hcn, volumeTree_children, Set.mem_sdiff]
        refine ⟨?_, ?_⟩
        · rintro ⟨⟨hc, hcm⟩, hx⟩
          rw [hgone c ⟨hc, hcm⟩] at hx
          obtain ⟨q, e', hq, hx⟩ := hx
          exact ⟨hc, q, e', (place_none.mp hq).2, hx⟩
        · rintro ⟨hc, q, e', hq, hx⟩
          refine ⟨⟨hc, hce⟩, q, e', ?_, hx⟩
          rw [hgone c ⟨hc, hce⟩]
          exact place_none.mpr ⟨fun heq => hcn heq.1, hq⟩
  · funext m
    simp only [NamedTree.remove]
    by_cases hm : m = e.iNo
    · subst hm
      rw [Function.update_self]
      exact volumeTree_noFile fun hx => hx.2 rfl
    · rw [Function.update_of_ne hm]
      by_cases hmf : m ∈ files
      · have hmf' : m ∈ files \ {e.iNo} := ⟨hmf, hm⟩
        rw [volumeTree_file hmf, volumeTree_file hmf']
        refine hv.toInodes.content_same hu hmf ⟨.inr hmf, ?_⟩
        rintro (rfl | rfl)
        · exact hv.names.disjoint m hn hmf
        · exact hm rfl
      · rw [volumeTree_noFile hmf, volumeTree_noFile fun hx => hmf hx.1]

theorem Written.ofBytes {buf : Memory} {count : ℕ} (hw : Written K buf count k inode k' inode') :
    Written K (ofList (bytesOf buf count)) (bytesOf buf count).length k inode k' inode' := by
  have hlen : (bytesOf buf count).length = count := by simp [bytesOf]
  rw [hlen]
  refine { hw with new := fun q h1 h2 => ?_ }
  rw [hw.new q h1 h2]
  have hq : q - inode.iSize < count := by omega
  simp [bytesOf, ofList, hq]

theorem Volume.tree_write {buf : Memory} {count : ℕ} (hv : Volume K dirs files k) (hn : n ∈ files)
    (hc : (storedInode K.toPartition k.disk n).SameStored inode) (hw : Written K buf count k inode k' inode') :
    volumeTree K.toPartition dirs files k'.disk = (volumeTree K.toPartition dirs files k.disk).setContent n
      ((volumeTree K.toPartition dirs files k.disk).content n ++ bytesOf buf count) := by
  obtain ⟨-, hafter, hu⟩ := hv.write hn hc hw
  have hold : contentsOf k.disk inode = contentsOf k.disk (storedInode K.toPartition k.disk n) :=
    (SameBlocks.of_stored hc.symm).contents (hv.file n hn) rfl
  have hnew : contentsOf k'.disk (storedInode K.toPartition k'.disk n) = contentsOf k.disk inode ++ bytesOf buf count := by
    rw [(SameBlocks.of_stored hafter).contents hw.file rfl]
    exact (hw.ofBytes.contents (contentsOf_contents k.disk inode)).eq
  refine NamedTree.ext rfl rfl ?_ ?_
  · funext c
    ext x
    rw [volumeTree_children]
    simp only [NamedTree.setContent]
    rw [volumeTree_children]
    refine and_congr_right fun hmem => ?_
    rw [hu.entries ⟨.inl hmem, ?_⟩]
    rintro rfl
    exact hv.names.disjoint c hmem hn
  · funext m
    simp only [NamedTree.setContent]
    by_cases hm : m = n
    · subst hm
      rw [Function.update_self, volumeTree_file hn, volumeTree_file hn, hnew, hold]
    · rw [Function.update_of_ne hm]
      by_cases hmf : m ∈ files
      · rw [volumeTree_file hmf, volumeTree_file hmf]
        exact hv.toInodes.content_same hu hmf ⟨.inr hmf, hm⟩
      · rw [volumeTree_noFile hmf, volumeTree_noFile hmf]

theorem Names.wellFormed (h : Names (entriesOn part d) dirs files) : (volumeTree part dirs files d).WellFormed 0 := by
  refine ⟨h.disjoint, h.root, ?_, ?_, ?_, ?_, ?_⟩
  · rintro c name m ⟨hc, q, e', hq, ho, hx⟩
    obtain ⟨rfl, rfl⟩ := Prod.mk.inj hx
    exact ⟨hc, (h.kinds c hc q e' hq).imp (fun hk => hk.2) fun hk => hk.2, h.notRoot c hc q e' hq ho⟩
  · rintro c name m m' ⟨hc, q, e', hq, -, hx⟩ ⟨-, q', e'', hq', -, hx'⟩
    obtain ⟨rfl, rfl⟩ := Prod.mk.inj hx
    obtain ⟨hname, rfl⟩ := Prod.mk.inj hx'
    rw [h.unique c hc q q' e' e'' hq hq' hname]
  · rintro c c' name name' m ⟨hc, q, e', hq, ho, hx⟩ ⟨hc', q', e'', hq', ho', hx'⟩
    obtain ⟨rfl, rfl⟩ := Prod.mk.inj hx
    obtain ⟨rfl, hno⟩ := Prod.mk.inj hx'
    obtain ⟨rfl, rfl⟩ := h.once c hc c' hc' q q' e' e'' hq hq' ho ho' hno
    rw [hq, Option.some.injEq] at hq'
    exact ⟨rfl, congrArg Entry.name hq'⟩
  · intro m hm hm0
    obtain ⟨c, hc, q, e', hq, ho, hno⟩ := h.named m hm hm0
    exact ⟨c, e'.name, hc, q, e', hq, ho, by rw [hno]⟩
  · obtain ⟨rank, hrank⟩ := h.ranked
    refine ⟨rank, ?_⟩
    rintro c name m ⟨hc, q, e', hq, ho, hx⟩
    rw [(Prod.mk.inj hx).2]
    exact hrank c hc q e' hq ho

theorem normalize_snoc : normalize (names ++ [name]) =
    if name = dot then normalize names else if name = dotDot then (normalize names).dropLast else normalize names ++ [name] := by
  unfold normalize
  rw [List.foldl_append]
  rfl

theorem Names.step (h : Names (entriesOn part d) dirs files) (hc : c ∈ dirs) (he : entriesOn part d c pos = some e)
    (ht : e.fType = .directory) (hp : (volumeTree part dirs files d).Path 0 (normalize names) c) :
    (volumeTree part dirs files d).Path 0 (normalize (names ++ [e.name])) e.iNo := by
  have hw : (volumeTree part dirs files d).WellFormed 0 := h.wellFormed
  rw [normalize_snoc]
  split_ifs with hdot hdd
  · obtain ⟨q, e', hq, hname, hno, -⟩ := h.self c hc
    obtain rfl := h.unique c hc pos q e e' he hq (hdot.trans hname.symm)
    rwa [hno]
  · obtain ⟨q, e', hq, hname, -, hup⟩ := h.up c hc
    obtain rfl := h.unique c hc pos q e e' he hq (hdd.trans hname.symm)
    rcases hup with ⟨rfl, hroot⟩ | ⟨q', e', hq', ho, hno⟩
    · rw [hroot, hw.path_root hp]
      exact .nil 0
    · have hmem : e.iNo ∈ dirs := by
        rcases h.kinds c hc pos e he with ⟨-, hm⟩ | ⟨hr, -⟩
        · exact hm
        · rw [ht] at hr
          cases hr
      obtain ⟨names', hp'⟩ := hw.path_exists (n := e.iNo) (.inl hmem)
      have hsnoc : (volumeTree part dirs files d).Path 0 (names' ++ [e'.name]) c :=
        NamedTree.path_snoc.mpr ⟨e.iNo, hp', hmem, q', e', hq', ho, by rw [hno]⟩
      rw [hw.path_unique hp hsnoc, List.dropLast_concat]
      exact hp'
  · exact NamedTree.path_snoc.mpr ⟨c, hp, hc, pos, e, he, ⟨hdot, hdd⟩, rfl⟩

theorem Names.walk_path (h : Names (entriesOn part d) dirs files) {rest : List Name} (hw : Walks (entriesOn part d) c rest m) (hc : c ∈ dirs)
    (hp : (volumeTree part dirs files d).Path 0 (normalize names) c) :
    (volumeTree part dirs files d).Path 0 (normalize (names ++ rest)) m ∧ m ∈ dirs := by
  induction hw generalizing names with
  | here n =>
    rw [List.append_nil]
    exact ⟨hp, hc⟩
  | @down n i pos e rest he ht _ ih =>
    have hmem : e.iNo ∈ dirs := by
      rcases h.kinds n hc pos e he with ⟨-, hm⟩ | ⟨hr, -⟩
      · exact hm
      · rw [ht] at hr
        cases hr
    have hnext := ih hmem (h.step hc he ht hp)
    rw [List.append_assoc] at hnext
    exact hnext

theorem Names.walk_root (h : Names (entriesOn part d) dirs files) (hw : Walks (entriesOn part d) 0 names m) :
    (volumeTree part dirs files d).Path 0 (normalize names) m ∧ m ∈ dirs :=
  @Names.walk_path _ _ _ _ _ _ [] h _ hw h.root (.nil 0)

end

end ElephantOS
