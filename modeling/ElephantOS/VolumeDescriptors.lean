import ElephantOS.DescriptorCalls
import ElephantOS.FileSpace
import ElephantOS.VolumeLooks

namespace ElephantOS

open ByteMemory HaltingState

/-- The descriptor of the task has `f` open. -/
def DescriptorAt (K : Kernel) (s : Fs) (task : ℕ) (fd : ℤ) (f : OpenFile Name) : Prop :=
  ∃ i p, LooksUp s task fd i ∧ (s.fileTable i).fdInode = some p ∧ NamedAt K.toPartition s.kern.disk f.path (s.inodes p).iNo .regular ∧
    f.pos = (s.fileTable i).fdPos ∧ f.writable = oWrite (s.fileTable i).fdFlag

/-- The disk and the descriptors as a map with its open files. -/
structure Shows (K : Kernel) (s : Fs) (A : FileSpace (ℕ × ℤ) Name UInt8) : Prop where
  map : A.map = pathMap K.toPartition s.kern.disk
  opened : ∀ task fd f, A.opened (task, fd) = some f ↔ DescriptorAt K s task fd f

section

variable {K : Kernel} {held extra extra' : Multiset Ptr} {dirs dirs' files files' : Set ℕ} {s s' : Fs} {task task' i n : ℕ} {fd fd' : ℤ}
  {p : Ptr} {f f' : OpenFile Name} {path : List Name} {handles : List Dir} {A : FileSpace (ℕ × ℤ) Name UInt8} {o : Option (OpenFile Name)}
  {M : Set (List Name × Option (List UInt8))}

theorem KeepsNames.named (h : KeepsNames K dirs dirs' files files' s s') (hv : Volume K dirs files s.kern) (hv' : Volume K dirs' files' s'.kern)
    (hn : n ∈ files) (hn' : n ∈ files') :
    NamedAt K.toPartition s'.kern.disk path n .regular ↔ NamedAt K.toPartition s.kern.disk path n .regular := by
  have hiff : (s'.tree K dirs' files').Path 0 path n ↔ (s.tree K dirs files).Path 0 path n :=
    hv.names.wellFormed.path_extend hv'.names.wellFormed h (.inr hn)
  rw [hv.names.named_file, hv'.names.named_file]
  exact and_congr (iff_of_true hn' hn) hiff

theorem LooksUp.congr (h : s'.fdTable task fd.toNat = s.fdTable task fd.toNat) : LooksUp s' task fd i ↔ LooksUp s task fd i := by
  unfold LooksUp
  rw [h]

theorem descriptorAt_congr (hfd : s'.fdTable task fd.toNat = s.fdTable task fd.toNat)
    (hfile : ∀ i, LooksUp s task fd i → s'.fileTable i = s.fileTable i ∨ (s.fileTable i).fdInode = none ∧ (s'.fileTable i).fdInode = none)
    (hnode : ∀ i p, LooksUp s task fd i → (s.fileTable i).fdInode = some p → (s'.inodes p).iNo = (s.inodes p).iNo ∧
      ∀ path, NamedAt K.toPartition s'.kern.disk path (s.inodes p).iNo .regular ↔ NamedAt K.toPartition s.kern.disk path (s.inodes p).iNo .regular) :
    DescriptorAt K s' task fd f ↔ DescriptorAt K s task fd f := by
  constructor
  · rintro ⟨i, p, hi, hp, hn, hpos, hw⟩
    rw [LooksUp.congr hfd] at hi
    rcases hfile i hi with heq | ⟨-, hnone⟩
    · rw [heq] at hp hpos hw
      obtain ⟨hno, hnamed⟩ := hnode i p hi hp
      rw [hno, hnamed] at hn
      exact ⟨i, p, hi, hp, hn, hpos, hw⟩
    · rw [hnone] at hp
      cases hp
  · rintro ⟨i, p, hi, hp, hn, hpos, hw⟩
    rcases hfile i hi with heq | ⟨hnone, -⟩
    · obtain ⟨hno, hnamed⟩ := hnode i p hi hp
      rw [← hnamed, ← hno] at hn
      rw [← heq] at hp hpos hw
      exact ⟨i, p, (LooksUp.congr hfd).mpr hi, hp, hn, hpos, hw⟩
    · rw [hnone] at hp
      cases hp

theorem mem_slotRefs_of (hi : i < maxFileOpen) (hp : (s.fileTable i).fdInode = some p) : p ∈ slotRefs s.fileTable := by
  rw [slotRefs_freed s.fileTable hi hp]
  exact Multiset.mem_cons_self _ _

theorem Served.sameDescriptors (h : Served K extra dirs files s) (h' : Served K extra' dirs' files' s') (hkept : Kept held s s')
    (hheld : ∀ p ∈ slotRefs s.fileTable, p ∈ held) (hopen : ∀ p ∈ slotRefs s.fileTable, (s.inodes p).iNo ∈ files')
    (hnames : KeepsNames K dirs dirs' files files' s s' ∨ KeepsNames K dirs' dirs files' files s' s) :
    DescriptorAt K s' task fd f ↔ DescriptorAt K s task fd f := by
  refine descriptorAt_congr (by rw [hkept.fdTable]) (fun i _ => hkept.fileTable i) fun i p hi hp => ?_
  have hmem := mem_slotRefs_of hi.2.2.1 hp
  refine ⟨hkept.iNo p (hheld p hmem), fun path => ?_⟩
  rcases hnames with hk | hk
  · exact hk.named h.volume h'.volume (h.slotFiles p hmem) (hopen p hmem)
  · exact (hk.named h'.volume h.volume (hopen p hmem) (h.slotFiles p hmem)).symm

theorem Served.descriptor (h : Served K extra dirs files s) (hi : LooksUp s task fd i) (hp : (s.fileTable i).fdInode = some p) :
    ∃ path, DescriptorAt K s task fd ⟨path, (s.fileTable i).fdPos, oWrite (s.fileTable i).fdFlag⟩ ∧
      (s.tree K dirs files).Path 0 path (s.inodes p).iNo := by
  have hmem := (h.slot hi.2.2.1 hp).2
  obtain ⟨path, hpath⟩ := h.volume.names.wellFormed.path_exists (.inr hmem)
  exact ⟨path, ⟨i, p, hi, hp, h.volume.names.named_file.mpr ⟨hmem, hpath⟩, rfl, rfl⟩, hpath⟩

theorem Served.descriptor_unique (h : Served K extra dirs files s) (hf : DescriptorAt K s task fd f) (hf' : DescriptorAt K s task fd f') : f = f' := by
  obtain ⟨path, pos, writable⟩ := f
  obtain ⟨path', pos', writable'⟩ := f'
  obtain ⟨i, p, hi, hp, hn, rfl, rfl⟩ := hf
  obtain ⟨i', p', hi', hp', hn', rfl, rfl⟩ := hf'
  obtain rfl := hi.unique hi'
  obtain rfl := Option.some.inj (hp.symm.trans hp')
  have hpath := (h.volume.names.named_file.mp hn).2
  have hpath' := (h.volume.names.named_file.mp hn').2
  have heq : path = path' := h.volume.names.wellFormed.path_unique hpath hpath'
  rw [heq]

theorem Served.opened_contents (h : Served K extra dirs files s) (hi : LooksUp s task fd i) (hp : (s.fileTable i).fdInode = some p)
    (hpath : (s.tree K dirs files).Path 0 path (s.inodes p).iNo) :
    (path, some ((s.tree K dirs files).content (s.inodes p).iNo)) ∈ pathMap K.toPartition s.kern.disk := by
  rw [← h.volume.map_eq]
  exact NamedTree.view_leaf.mpr ⟨_, (h.slot hi.2.2.1 hp).2, hpath, rfl⟩

theorem CallInv.lookUp_inj (inv : CallInv s handles) (h : LooksUp s task fd i) (h' : LooksUp s task' fd' i) (hp : (s.fileTable i).fdInode = some p) :
    task' = task ∧ fd' = fd := by
  have hslot : ∀ {t : ℕ} {d : ℤ}, LooksUp s t d i → 3 ≤ d := by
    intro t d hd
    by_contra hlt
    have hi : i = d.toNat := hd.unique (inv.standard_lookUp hd.1 (by omega))
    rw [inv.unopened i (by omega)] at hp
    cases hp
  have h3 := hslot h
  have h3' := hslot h'
  have heq := inv.fd.inj (task, fd.toNat) (task', fd'.toNat) i ⟨by dsimp only; omega, by have := h.2.1; dsimp only; omega, h.2.2.2⟩
    ⟨by dsimp only; omega, by have := h'.2.1; dsimp only; omega, h'.2.2.2⟩
  obtain ⟨rfl, hfd⟩ := Prod.mk.inj heq
  exact ⟨rfl, by omega⟩

theorem CallInv.lookUp_free (inv : CallInv s handles) (h : LooksUp s task fd i) (h3 : 3 ≤ i) : (s.fileTable i).fdInode ≠ none := by
  by_cases hfd : 3 ≤ fd
  · obtain ⟨k, hk, hocc⟩ := inv.openFd (h.open hfd)
    obtain rfl := h.unique hk
    exact hocc
  · have := h.unique (inv.standard_lookUp h.1 (by omega))
    omega

theorem Shows.same (h : Shows K s A) (hmap : pathMap K.toPartition s'.kern.disk = pathMap K.toPartition s.kern.disk)
    (hopened : ∀ task fd f, DescriptorAt K s' task fd f ↔ DescriptorAt K s task fd f) : Shows K s' A :=
  ⟨h.map.trans hmap.symm, fun task fd f => (h.opened task fd f).trans (hopened task fd f).symm⟩

theorem Shows.update (h : Shows K s A) (hmap : M = pathMap K.toPartition s'.kern.disk)
    (hothers : ∀ t d, (t, d) ≠ (task, fd) → ∀ f, DescriptorAt K s' t d f ↔ DescriptorAt K s t d f)
    (hown : ∀ f, DescriptorAt K s' task fd f ↔ o = some f) : Shows K s' ⟨M, Function.update A.opened (task, fd) o⟩ := by
  refine ⟨hmap, fun t d f => ?_⟩
  dsimp only
  by_cases hd : (t, d) = (task, fd)
  · obtain ⟨rfl, rfl⟩ := Prod.mk.inj hd
    rw [Function.update_self]
    exact (hown f).symm
  · rw [Function.update_of_ne hd, h.opened]
    exact (hothers t d hd f).symm

theorem Served.moved (h : Served K extra dirs files s) (h' : Served K extra' dirs files s') (inv : CallInv s handles) {pos : ℕ}
    (hshows : Shows K s A) (hmap : M = pathMap K.toPartition s'.kern.disk) (hi : LooksUp s task fd i)
    (hp : (s.fileTable i).fdInode = some p) (hf : DescriptorAt K s task fd f)
    (hfd : s'.fdTable = s.fdTable) (hfiles : s'.fileTable = Function.update s.fileTable i { s.fileTable i with fdPos := pos })
    (hno : ∀ q, (s'.inodes q).iNo = (s.inodes q).iNo) (hnames : KeepsNames K dirs dirs files files s s') :
    Shows K s' ⟨M, Function.update A.opened (task, fd) (some { f with pos := pos })⟩ := by
  have hnode : ∀ q n, q ∈ slotRefs s.fileTable → (s.inodes q).iNo = n → (s'.inodes q).iNo = n ∧
      ∀ path, NamedAt K.toPartition s'.kern.disk path n .regular ↔ NamedAt K.toPartition s.kern.disk path n .regular := by
    rintro q n hq rfl
    exact ⟨hno q, fun path => hnames.named h.volume h'.volume (h.slotFiles q hq) (h.slotFiles q hq)⟩
  refine hshows.update hmap (fun t d hne f' => ?_) fun f' => ?_
  · refine descriptorAt_congr (by rw [hfd]) (fun j hj => ?_) fun j q hj hq => hnode q _ (mem_slotRefs_of hj.2.2.1 hq) rfl
    by_cases hji : j = i
    · subst hji
      obtain ⟨rfl, rfl⟩ := inv.lookUp_inj hi hj hp
      exact absurd rfl hne
    · rw [hfiles, Function.update_of_ne hji]
      exact .inl rfl
  · obtain ⟨path, hat, hpath⟩ := h.descriptor hi hp
    obtain rfl := h.descriptor_unique hf hat
    have hmem := mem_slotRefs_of hi.2.2.1 hp
    have hown : DescriptorAt K s' task fd ⟨path, pos, oWrite (s.fileTable i).fdFlag⟩ := by
      refine ⟨i, p, (LooksUp.congr (by rw [hfd])).mpr hi, by rw [hfiles, Function.update_self]; exact hp, ?_, ?_, ?_⟩
      · obtain ⟨heq, hnamed⟩ := hnode p _ hmem rfl
        rw [heq]
        exact (hnamed path).mpr (h.volume.names.named_file.mpr ⟨h.slotFiles p hmem, hpath⟩)
      · rw [hfiles, Function.update_self]
      · rw [hfiles, Function.update_self]
    constructor
    · intro hf'
      rw [h'.descriptor_unique hf' hown]
    · rintro hf'
      obtain rfl := Option.some.inj hf'
      exact hown

end

end ElephantOS
