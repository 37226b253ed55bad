import ElephantOS.FileTable

namespace ElephantOS

open ByteMemory HaltingState

def Quiet {α : Type} (m : KernM α) : Prop := ∀ k a k', m k = .ok (a, k') → Steady k k'

namespace Quiet

variable {α β : Type}

theorem pure (a : α) : Quiet (Pure.pure a) := by
  intro k b k' h
  obtain ⟨-, rfl⟩ := (pure_ok a b k k').mp h
  exact Steady.refl k

theorem bind {m : KernM α} {f : α → KernM β} (hm : Quiet m) (hf : ∀ a, Quiet (f a)) : Quiet (m >>= f) := by
  intro k b k' h
  obtain ⟨a, k1, h1, h2⟩ := (bind_ok m f k _).mp h
  exact (hm k a k1 h1).trans (hf a k1 b k' h2)

theorem halt (e : Halt) : Quiet (HaltingState.halt e : KernM α) := by
  intro k a k' h
  simp at h

theorem assert (c : Prop) [Decidable c] : Quiet (ElephantOS.assert c) := by
  intro k a k' h
  obtain ⟨-, rfl⟩ := (assert_ok c k k' a).mp h
  exact Steady.refl k

theorem bound (c : Prop) [Decidable c] : Quiet (ElephantOS.bound c) := by
  intro k a k' h
  obtain ⟨-, rfl⟩ := (bound_ok c k k' a).mp h
  exact Steady.refl k

theorem sysMalloc (size : ℕ) : Quiet (ElephantOS.sysMalloc size) := fun _ _ _ h => (sysMalloc_ok h).1.steady

theorem sysFree (p : Ptr) : Quiet (ElephantOS.sysFree p) := fun _ _ _ h => (sysFree_ok h).steady

theorem ideRead (lba : ℕ) (buf : Buffer) (secCnt : ℕ) : Quiet (ElephantOS.ideRead lba buf secCnt) :=
  fun _ _ _ h => (ideRead_ok h).2.1.steady

theorem ideWrite (lba : ℕ) (bytes : Memory) (secCnt : ℕ) : Quiet (ElephantOS.ideWrite lba bytes secCnt) := by
  intro k a k' h
  obtain ⟨-, rfl⟩ := (ideWrite_ok lba bytes secCnt a k k').mp h
  exact ⟨rfl, rfl, le_refl _⟩

theorem readTable (lba : ℕ) (all : ℕ → ℕ) : Quiet (ElephantOS.readTable lba all) := by
  intro k a k' h
  obtain ⟨-, rfl, -⟩ := (readTable_ok lba all a k k').mp h
  exact Steady.refl _

theorem blockBitmapAlloc (K : Kernel) : Quiet (ElephantOS.blockBitmapAlloc K) := by
  intro k a k' h
  obtain ⟨_, -, -, -, -, rfl⟩ := blockBitmapAlloc_ok h
  exact ⟨rfl, rfl, le_refl _⟩

theorem inodeBitmapAlloc : Quiet ElephantOS.inodeBitmapAlloc := by
  intro k a k' h
  obtain ⟨_, -, -, -, -, rfl⟩ := inodeBitmapAlloc_ok h
  exact ⟨rfl, rfl, le_refl _⟩

theorem bitmapSync (K : Kernel) (i : ℕ) (t : BitmapType) : Quiet (ElephantOS.bitmapSync K i t) := by
  intro k a k' h
  cases t with
  | inodeBitmap => exact ideWrite _ _ _ k a k' h
  | blockBitmap => exact ideWrite _ _ _ k a k' h

theorem blockBitmapSet (i : ℕ) (value : Bool) : Quiet (ElephantOS.blockBitmapSet i value) := by
  rintro k a k' h
  obtain rfl := (modify_ok _ k k' a).mp h
  exact ⟨rfl, rfl, le_refl _⟩

theorem inodeBitmapSet (i : ℕ) (value : Bool) : Quiet (ElephantOS.inodeBitmapSet i value) := by
  rintro k a k' h
  obtain rfl := (modify_ok _ k k' a).mp h
  exact ⟨rfl, rfl, le_refl _⟩

theorem inodeLocate (part : Partition) (n : ℕ) : Quiet (ElephantOS.inodeLocate part n) :=
  bind (assert _) fun _ => pure _

theorem inodeReplace (pos : InodePosition) (bytes : Memory) (io : Buffer) : Quiet (ElephantOS.inodeReplace pos bytes io) :=
  bind (ideRead _ _ _) fun _ => ideWrite _ _ _

theorem inodeSync (K : Kernel) (inode : Inode) (io : Buffer) : Quiet (ElephantOS.inodeSync K inode io) :=
  bind (inodeLocate _ _) fun _ => bind (assert _) fun _ => inodeReplace _ _ _

theorem inodeDelete (K : Kernel) (n : ℕ) (io : Buffer) : Quiet (ElephantOS.inodeDelete K n io) :=
  bind (assert _) fun _ => bind (inodeLocate _ _) fun _ => bind (assert _) fun _ => inodeReplace _ _ _

theorem allDirBlocks (inode : Inode) : Quiet (ElephantOS.allDirBlocks inode) := by
  unfold ElephantOS.allDirBlocks
  split_ifs
  · exact readTable _ _
  · exact pure _

theorem searchBlocks (K : Kernel) (blocks : ℕ → ℕ) (name : Name) (more idx : ℕ) (buf : Buffer) :
    Quiet (ElephantOS.searchBlocks K blocks name more idx buf) := by
  induction more generalizing idx buf with
  | zero => exact pure _
  | succ more ih =>
    unfold ElephantOS.searchBlocks
    split_ifs
    · exact ih _ _
    · refine bind (ideRead _ _ _) fun buf => ?_
      split
      · exact pure _
      · exact ih _ _

theorem searchDirEntry (K : Kernel) (inode : Inode) (name : Name) : Quiet (ElephantOS.searchDirEntry K inode name) := by
  unfold ElephantOS.searchDirEntry
  refine bind (sysMalloc _) fun all => ?_
  cases all with
  | none => exact pure _
  | some all =>
    refine bind (allDirBlocks _) fun blocks => bind (sysMalloc _) fun buf => ?_
    cases buf with
    | none => exact halt _
    | some buf =>
      exact bind (searchBlocks _ _ _ _ _ _) fun _ => bind (sysFree _) fun _ => bind (sysFree _) fun _ => pure _

end Quiet

structure Inode.SameRef (a b : Inode) : Prop where
  iNo : b.iNo = a.iNo
  iOpenCnts : b.iOpenCnts = a.iOpenCnts
  writeDeny : b.writeDeny = a.writeDeny

namespace Inode.SameRef

theorem refl (a : Inode) : a.SameRef a := ⟨rfl, rfl, rfl⟩

theorem trans {a b c : Inode} (h : a.SameRef b) (h' : b.SameRef c) : a.SameRef c :=
  ⟨h'.iNo.trans h.iNo, h'.iOpenCnts.trans h.iOpenCnts, h'.writeDeny.trans h.writeDeny⟩

theorem setSector (a : Inode) (i lba : ℕ) : a.SameRef (a.setSector i lba) := by
  unfold Inode.setSector
  split_ifs <;> exact ⟨rfl, rfl, rfl⟩

theorem size (a : Inode) (n : ℕ) : a.SameRef { a with iSize := n } := ⟨rfl, rfl, rfl⟩

end Inode.SameRef

structure Inode.Relinked (a b : Inode) : Prop extends a.SameRef b where
  iSize : b.iSize = a.iSize

namespace Inode.Relinked

theorem refl (a : Inode) : a.Relinked a := ⟨SameRef.refl a, rfl⟩

theorem trans {a b c : Inode} (h : a.Relinked b) (h' : b.Relinked c) : a.Relinked c :=
  ⟨h.toSameRef.trans h'.toSameRef, h'.iSize.trans h.iSize⟩

theorem setSector (a : Inode) (i lba : ℕ) : a.Relinked (a.setSector i lba) := by
  refine ⟨SameRef.setSector a i lba, ?_⟩
  unfold Inode.setSector
  split_ifs <;> rfl

end Inode.Relinked

def Gives {α : Type} (m : KernM α) (Q : α → Prop) : Prop := ∀ k a k', m k = .ok (a, k') → Steady k k' ∧ Q a

namespace Gives

variable {α β : Type} {Q : α → Prop}

theorem pure {a : α} (h : Q a) : Gives (Pure.pure a) Q := by
  intro k b k' hk
  obtain ⟨rfl, rfl⟩ := (pure_ok a b k k').mp hk
  exact ⟨Steady.refl k, h⟩

theorem step {m : KernM β} {f : β → KernM α} (hm : Quiet m) (hf : ∀ b, Gives (f b) Q) : Gives (m >>= f) Q := by
  intro k a k' h
  obtain ⟨b, k1, h1, h2⟩ := (bind_ok m f k _).mp h
  obtain ⟨hs, hq⟩ := hf b k1 a k' h2
  exact ⟨(hm k b k1 h1).trans hs, hq⟩

theorem bind {P : β → Prop} {m : KernM β} {f : β → KernM α} (hm : Gives m P) (hf : ∀ b, P b → Gives (f b) Q) :
    Gives (m >>= f) Q := by
  intro k a k' h
  obtain ⟨b, k1, h1, h2⟩ := (bind_ok m f k _).mp h
  obtain ⟨hs1, hp⟩ := hm k b k1 h1
  obtain ⟨hs2, hq⟩ := hf b hp k1 a k' h2
  exact ⟨hs1.trans hs2, hq⟩

theorem halt (e : Halt) : Gives (HaltingState.halt e : KernM α) Q := by
  intro k a k' h
  simp at h

theorem quiet {m : KernM α} (h : Gives m Q) : Quiet m := fun k a k' hk => (h k a k' hk).1

theorem mono {m : KernM α} {P : α → Prop} (h : Gives m P) (hq : ∀ a, P a → Q a) : Gives m Q := by
  intro k a k' hs
  obtain ⟨hsteady, hp⟩ := h k a k' hs
  exact ⟨hsteady, hq a hp⟩

end Gives

theorem newDirBlock_gives (K : Kernel) (idx : ℕ) (inode : Inode) (all : ℕ → ℕ) :
    Gives (newDirBlock K idx inode all) fun r => inode.Relinked r.2.1 := by
  unfold newDirBlock
  refine Gives.step (Quiet.blockBitmapAlloc K) fun r => ?_
  cases r with
  | none => exact Gives.pure (Inode.Relinked.refl _)
  | some lba =>
    refine Gives.step (Quiet.assert _) fun _ => Gives.step (Quiet.bitmapSync _ _ _) fun _ => ?_
    split_ifs
    · exact Gives.pure (Inode.Relinked.setSector _ _ _)
    · refine Gives.step (Quiet.blockBitmapAlloc K) fun r => ?_
      cases r with
      | none =>
        refine Gives.step (Quiet.blockBitmapSet _ _) fun _ => Gives.pure ?_
        exact (Inode.Relinked.setSector inode 12 lba).trans (Inode.Relinked.setSector (inode.setSector 12 lba) 12 0)
      | some lba' =>
        refine Gives.step (Quiet.assert _) fun _ => Gives.step (Quiet.bitmapSync _ _ _) fun _ =>
          Gives.step (Quiet.ideWrite _ _ _) fun _ => Gives.pure ?_
        exact (Inode.Relinked.setSector inode 12 lba).trans (Inode.Relinked.setSector (inode.setSector 12 lba) 13 lba')
    · exact Gives.step (Quiet.ideWrite _ _ _) fun _ => Gives.pure (Inode.Relinked.refl _)

def Inode.Entered (K : Kernel) (a b : Inode) : Prop := b.iSize = a.iSize ∨ b.iSize = u32 (a.iSize + K.sb.dirEntrySize)

theorem syncBlocks_gives (K : Kernel) (e : DirEntry) (more idx : ℕ) (inode : Inode) (all : ℕ → ℕ) (io : Buffer) :
    Gives (syncBlocks K e more idx inode all io) fun r => inode.SameRef r.2 ∧ inode.Entered K r.2 := by
  induction more generalizing idx io with
  | zero => exact Gives.pure ⟨Inode.SameRef.refl _, .inl rfl⟩
  | succ more ih =>
    unfold syncBlocks
    split_ifs
    · refine Gives.bind (newDirBlock_gives K idx inode all) ?_
      rintro ⟨ok, inode', all'⟩ h
      dsimp only at h ⊢
      split_ifs
      · exact Gives.pure ⟨h.toSameRef, .inl h.iSize⟩
      · refine Gives.step (Quiet.ideWrite _ _ _) fun _ => Gives.pure ⟨h.toSameRef.trans (Inode.SameRef.size _ _), .inr ?_⟩
        dsimp only
        rw [h.iSize]
    · refine Gives.step (Quiet.ideRead _ _ _) fun io => ?_
      split
      · exact Gives.step (Quiet.ideWrite _ _ _) fun _ => Gives.pure ⟨Inode.SameRef.size _ _, .inr rfl⟩
      · exact ih _ _

theorem syncDirEntry_enters (K : Kernel) (inode : Inode) (e : DirEntry) (io : Buffer) :
    Gives (syncDirEntry K inode e io) fun r => inode.SameRef r.2 ∧ inode.Entered K r.2 :=
  Gives.step (Quiet.assert _) fun _ => syncBlocks_gives K e _ _ inode _ io

theorem syncDirEntry_gives (K : Kernel) (inode : Inode) (e : DirEntry) (io : Buffer) :
    Gives (syncDirEntry K inode e io) fun r => inode.SameRef r.2 :=
  (syncDirEntry_enters K inode e io).mono fun _ h => h.1

theorem Quiet.scanBlock (bytes : Memory) (n more i : ℕ) (scan : BlockScan) :
    Quiet (ElephantOS.scanBlock bytes n more i scan) := by
  induction more generalizing i scan with
  | zero => exact Quiet.pure _
  | succ more ih =>
    unfold ElephantOS.scanBlock
    dsimp only
    split_ifs
    · exact ih _ _
    · exact ih _ _
    · exact ih _ _
    · exact Quiet.bind (Quiet.assert _) fun _ => ih _ _
    · exact ih _ _

theorem eraseEntry_gives (K : Kernel) (idx lba i : ℕ) (bytes : Memory) (scan : BlockScan) (inode : Inode) :
    Gives (eraseEntry K idx lba i bytes scan inode) fun r => inode.SameRef r := by
  unfold eraseEntry freeDirBlock
  split_ifs
  · exact Gives.step (Quiet.blockBitmapSet _ _) fun _ => Gives.step (Quiet.bitmapSync _ _ _) fun _ =>
      Gives.pure (Inode.SameRef.setSector _ _ _)
  · exact Gives.step (Quiet.blockBitmapSet _ _) fun _ => Gives.step (Quiet.bitmapSync _ _ _) fun _ => Gives.halt _
  · exact Gives.step (Quiet.ideWrite _ _ _) fun _ => Gives.pure (Inode.SameRef.refl _)

theorem deleteBlocks_gives (K : Kernel) (n : ℕ) (inode : Inode) (all : ℕ → ℕ) (more idx : ℕ) (io : Buffer) :
    Gives (deleteBlocks K n inode all more idx io) fun r => inode.SameRef r.2 := by
  induction more generalizing idx io with
  | zero => exact Gives.pure (Inode.SameRef.refl _)
  | succ more ih =>
    unfold deleteBlocks
    split_ifs
    · exact ih _ _
    · refine Gives.step (Quiet.ideRead _ _ _) fun io => Gives.step (Quiet.scanBlock _ _ _ _ _) fun scan => ?_
      split
      · exact ih _ _
      · refine Gives.step (Quiet.assert _) fun _ => Gives.bind (eraseEntry_gives K _ _ _ _ _ inode) fun inode' h => ?_
        exact Gives.step (Quiet.assert _) fun _ => Gives.step (Quiet.inodeSync _ _ _) fun _ =>
          Gives.pure (h.trans (Inode.SameRef.size _ _))

theorem deleteDirEntry_gives (K : Kernel) (inode : Inode) (n : ℕ) (io : Buffer) :
    Gives (deleteDirEntry K inode n io) fun r => inode.SameRef r.2 :=
  Gives.step (Quiet.allDirBlocks _) fun _ => deleteBlocks_gives K n inode _ _ _ io

structure Refs (held : Multiset Ptr) (s : Fs) : Prop where
  nodup : s.openInodes.Nodup
  fresh : ∀ p ∈ s.openInodes, p.id < s.kern.heap.next
  count : ∀ p ∈ s.openInodes, (s.inodes p).iOpenCnts = held.count p
  mem : ∀ p, p ∈ held ↔ p ∈ s.openInodes

def SameFiles (t t' : ℕ → File) : Prop := ∀ k, t' k = t k ∨ (t k).fdInode = none ∧ (t' k).fdInode = none

theorem SameFiles.refl (t : ℕ → File) : SameFiles t t := fun _ => .inl rfl

theorem SameFiles.inode {t t' : ℕ → File} (h : SameFiles t t') (k : ℕ) : (t' k).fdInode = (t k).fdInode := by
  rcases h k with h | ⟨h, h'⟩
  · rw [h]
  · rw [h, h']

theorem SameFiles.trans {t t' t'' : ℕ → File} (h : SameFiles t t') (h' : SameFiles t' t'') : SameFiles t t'' := by
  intro k
  rcases h k with hk | ⟨hk, hk'⟩
  · rw [← hk]
    exact h' k
  · exact .inr ⟨hk, (h'.inode k).trans hk'⟩

theorem SameFiles.update {t t' : ℕ → File} (h : SameFiles t t') (k : ℕ) (file : File) :
    SameFiles (Function.update t k file) (Function.update t' k file) := by
  intro j
  by_cases he : j = k
  · subst he
    exact .inl (by simp only [Function.update_self])
  · simp only [Function.update_of_ne he]
    exact h j

structure Kept (held : Multiset Ptr) (s s' : Fs) : Prop where
  fileTable : SameFiles s.fileTable s'.fileTable
  fdTable : s'.fdTable = s.fdTable
  rootDir : s'.rootDir = s.rootDir
  iNo : ∀ p ∈ held, (s'.inodes p).iNo = (s.inodes p).iNo
  writeDeny : ∀ p ∈ held, (s'.inodes p).writeDeny = (s.inodes p).writeDeny

theorem Kept.refl (held : Multiset Ptr) (s : Fs) : Kept held s s := ⟨SameFiles.refl _, rfl, rfl, fun _ _ => rfl, fun _ _ => rfl⟩

theorem Kept.trans {held : Multiset Ptr} {s s' s'' : Fs} (h : Kept held s s') (h' : Kept held s' s'') : Kept held s s'' :=
  ⟨h.fileTable.trans h'.fileTable, h'.fdTable.trans h.fdTable, h'.rootDir.trans h.rootDir,
    fun p hp => (h'.iNo p hp).trans (h.iNo p hp), fun p hp => (h'.writeDeny p hp).trans (h.writeDeny p hp)⟩

theorem Kept.mono {held held' : Multiset Ptr} {s s' : Fs} (h : Kept held s s') (hle : ∀ p ∈ held', p ∈ held) : Kept held' s s' :=
  ⟨h.fileTable, h.fdTable, h.rootDir, fun p hp => h.iNo p (hle p hp), fun p hp => h.writeDeny p (hle p hp)⟩

section

variable {held : Multiset Ptr} {s s' : Fs}

theorem Refs.kern (h : Refs held s) {k : Kern} (hk : s.kern.heap.next ≤ k.heap.next) : Refs held { s with kern := k } :=
  ⟨h.nodup, fun p hp => (h.fresh p hp).trans_le hk, h.count, h.mem⟩

theorem Kept.kern (held : Multiset Ptr) (s : Fs) (k : Kern) : Kept held s { s with kern := k } :=
  ⟨SameFiles.refl _, rfl, rfl, fun _ _ => rfl, fun _ _ => rfl⟩

theorem Refs.setInode (h : Refs held s) {p : Ptr} {inode : Inode} (hsame : p ∈ held → (s.inodes p).iOpenCnts = inode.iOpenCnts) :
    Refs held (setInode p inode s) := by
  refine ⟨h.nodup, h.fresh, fun q hq => ?_, h.mem⟩
  rw [← h.count q hq]
  by_cases he : q = p
  · subst he
    simp only [ElephantOS.setInode, Function.update_self]
    exact (hsame ((h.mem q).mpr hq)).symm
  · simp only [ElephantOS.setInode, Function.update_of_ne he]

theorem Kept.setInode {p : Ptr} {inode : Inode} (h : p ∈ held → (s.inodes p).SameRef inode) : Kept held s (setInode p inode s) := by
  refine ⟨SameFiles.refl _, rfl, rfl, fun q hq => ?_, fun q hq => ?_⟩ <;>
  · by_cases he : q = p
    · subst he
      simp only [ElephantOS.setInode, Function.update_self]
      first | exact (h hq).iNo | exact (h hq).writeDeny
    · simp only [ElephantOS.setInode, Function.update_of_ne he]

theorem liftKern_refs {α : Type} {m : KernM α} {a : α} (hm : Quiet m) (h : Refs held s) (hs : liftKern m s = .ok (a, s')) :
    Refs held s' ∧ Kept held s s' := by
  obtain ⟨k, hk, rfl⟩ := (liftKern_ok m s s' a).mp hs
  exact ⟨h.kern (hm _ _ _ hk).next, Kept.kern held s k⟩

theorem Refs.notMem_fresh (h : Refs held s) {p : Ptr} (hp : s.kern.heap.next ≤ p.id) : p ∉ held := by
  intro hm
  have := h.fresh p ((h.mem p).mp hm)
  omega

theorem inodeOpen_refs {K : Kernel} {n : ℕ} {p : Ptr} (h : Refs held s) (hs : inodeOpen K n s = .ok (p, s')) :
    Refs (p ::ₘ held) s' ∧ Kept held s s' := by
  cases hc : cached s n with
  | some q =>
    rw [inodeOpen_hit hc] at hs
    simp only [Except.ok.injEq, Prod.mk.injEq] at hs
    obtain ⟨rfl, rfl⟩ := hs
    have hq : q ∈ s.openInodes := List.mem_of_find?_eq_some hc
    refine ⟨⟨h.nodup, h.fresh, fun r hr => ?_, fun r => ?_⟩, ⟨SameFiles.refl _, rfl, rfl, fun r _ => ?_, fun r _ => ?_⟩⟩
    · rw [Multiset.count_cons]
      by_cases he : r = q
      · subst he
        simp only [setInode, Function.update_self, if_true, h.count r hr]
      · simp only [setInode, Function.update_of_ne he, if_neg he, Nat.add_zero]
        exact h.count r hr
    · rw [Multiset.mem_cons, h.mem]
      constructor
      · rintro (rfl | hr)
        · exact hq
        · exact hr
      · exact .inr
    all_goals
      by_cases he : r = q
      · subst he
        simp only [setInode, Function.update_self]
      · simp only [setInode, Function.update_of_ne he]
  | none =>
    obtain ⟨-, rfl, hheap, hlt, heq⟩ := inodeOpen_miss hc hs
    have hnew := h.notMem_fresh (show s.kern.heap.next ≤ (⟨s.kern.heap.next, .kernel⟩ : Ptr).id from le_refl _)
    have hnew' := (h.mem _).not.mp hnew
    generalize s'.kern = k' at heq hlt hheap
    subst heq
    refine ⟨⟨List.nodup_cons.mpr ⟨hnew', h.nodup⟩, fun q hq => ?_, fun q hq => ?_, fun q => ?_⟩, SameFiles.refl _, rfl, rfl, fun q hq => ?_,
      fun q hq => ?_⟩
    · rcases List.mem_cons.mp hq with rfl | hq
      · exact hlt
      · exact (h.fresh q hq).trans hlt
    · rcases List.mem_cons.mp hq with rfl | hq
      · simp only [Function.update_self, openedInode, Multiset.count_cons_self, Multiset.count_eq_zero.mpr hnew]
      · have he : q ≠ ⟨s.kern.heap.next, .kernel⟩ := by
          rintro rfl
          exact hnew' hq
        simp only [Function.update_of_ne he, Multiset.count_cons_of_ne he]
        exact h.count q hq
    · rw [Multiset.mem_cons, List.mem_cons, h.mem]
    all_goals
      have he : q ≠ ⟨s.kern.heap.next, .kernel⟩ := by
        rintro rfl
        exact hnew hq
      simp only [Function.update_of_ne he]

theorem inodeClose_refs {p : Ptr} {u : Unit} (h : Refs (p ::ₘ held) s) (hs : inodeClose p s = .ok (u, s')) :
    Refs held s' ∧ Kept (p ::ₘ held) s s' := by
  have hp : p ∈ s.openInodes := (h.mem p).mp (Multiset.mem_cons_self p held)
  have hcnt := h.count p hp
  rw [Multiset.count_cons_self] at hcnt
  unfold inodeClose at hs
  simp only [bind_ok, modify_ok, get_ok] at hs
  obtain ⟨_, s1, rfl, _, _, ⟨rfl, rfl⟩, hs⟩ := hs
  split_ifs at hs with hz
  · -- the last holder: the inode leaves the list
    simp only [setInode, Function.update_self] at hz
    have hzero : p ∉ held := Multiset.count_eq_zero.mp (by omega)
    simp only [bind_ok, liftKern_ok, withKernelPool_ok] at hs
    obtain ⟨_, s2, hrem, k, ⟨k1, hfree, rfl⟩, rfl⟩ := hs
    unfold listRemove at hrem
    split_ifs at hrem
    simp only [Except.ok.injEq, Prod.mk.injEq, true_and] at hrem
    subst hrem
    have hmem : ∀ q, q ∈ s.openInodes.erase p ↔ q ≠ p ∧ q ∈ s.openInodes := fun q => h.nodup.mem_erase_iff
    refine ⟨⟨h.nodup.erase p, fun q hq => ?_, fun q hq => ?_, fun q => ?_⟩, SameFiles.refl _, rfl, rfl, fun q hq => ?_, fun q hq => ?_⟩
    · exact (h.fresh q ((hmem q).mp hq).2).trans_le (sysFree_ok hfree).next
    · obtain ⟨hne, hq⟩ := (hmem q).mp hq
      simp only [setInode, Function.update_of_ne hne]
      rw [h.count q hq, Multiset.count_cons_of_ne hne]
    · change _ ↔ q ∈ s.openInodes.erase p
      rw [hmem, ← h.mem q, Multiset.mem_cons]
      constructor
      · intro hq
        refine ⟨?_, .inr hq⟩
        rintro rfl
        exact hzero hq
      · rintro ⟨hne, rfl | hq⟩
        · exact absurd rfl hne
        · exact hq
    all_goals
      by_cases he : q = p
      · subst he
        simp only [setInode, Function.update_self]
      · simp only [setInode, Function.update_of_ne he]
  · simp only [setInode, Function.update_self] at hz
    obtain ⟨-, rfl⟩ := (pure_ok _ _ _ _).mp hs
    have hpos : p ∈ held := by
      rw [← Multiset.count_pos]
      omega
    refine ⟨⟨h.nodup, h.fresh, fun q hq => ?_, fun q => ?_⟩, SameFiles.refl _, rfl, rfl, fun q hq => ?_, fun q hq => ?_⟩
    · by_cases he : q = p
      · subst he
        simp only [setInode, Function.update_self]
        omega
      · simp only [setInode, Function.update_of_ne he]
        rw [h.count q hq, Multiset.count_cons_of_ne he]
    · change _ ↔ q ∈ s.openInodes
      rw [← h.mem q, Multiset.mem_cons]
      constructor
      · exact .inr
      · rintro (rfl | hq)
        · exact hpos
        · exact hq
    all_goals
      by_cases he : q = p
      · subst he
        simp only [setInode, Function.update_self]
      · simp only [setInode, Function.update_of_ne he]

def dirRefs : Dir → Multiset Ptr
  | .root => 0
  | .heap _ inode => {inode}

theorem dirOpen_refs {K : Kernel} {n : ℕ} {d : Dir} (h : Refs held s) (hs : dirOpen K n s = .ok (d, s')) :
    Refs (dirRefs d + held) s' ∧ Kept held s s' := by
  unfold dirOpen at hs
  simp only [bind_ok] at hs
  obtain ⟨pdir, s1, h1, p, s2, h2, hs⟩ := hs
  obtain ⟨hr1, hk1⟩ := liftKern_refs (Quiet.sysMalloc _) h h1
  obtain ⟨hr2, hk2⟩ := inodeOpen_refs hr1 h2
  cases pdir with
  | none => simp at hs
  | some pdir =>
    obtain ⟨rfl, rfl⟩ := (pure_ok _ _ _ _).mp hs
    exact ⟨hr2, hk1.trans hk2⟩

theorem dirClose_refs {d : Dir} {u : Unit} (h : Refs (dirRefs d + held) s) (hs : dirClose d s = .ok (u, s')) :
    Refs held s' ∧ Kept held s s' := by
  cases d with
  | root =>
    obtain ⟨-, rfl⟩ := (pure_ok _ _ _ _).mp hs
    rw [dirRefs, zero_add] at h
    exact ⟨h, Kept.refl held s⟩
  | heap ptr inode =>
    unfold dirClose at hs
    simp only [bind_ok] at hs
    obtain ⟨_, s1, h1, h2⟩ := hs
    obtain ⟨hr1, hk1⟩ := inodeClose_refs h h1
    obtain ⟨hr2, hk2⟩ := liftKern_refs (Quiet.sysFree _) hr1 h2
    exact ⟨hr2, (hk1.mono fun p hp => Multiset.mem_cons_of_mem hp).trans hk2⟩

theorem parseName_ok {pathname : Path} {r : Name × Option Path} (hs : parseName pathname s = .ok (r, s')) :
    s' = s ∧ r = pathParse pathname := by
  unfold parseName at hs
  simp only [bind_ok, bound_ok, pure_ok] at hs
  obtain ⟨_, _, ⟨-, rfl⟩, rfl, rfl⟩ := hs
  exact ⟨rfl, rfl⟩

theorem nextName_ok {subPath : Option Path} {r : Name × Option Path} (hs : nextName subPath s = .ok (r, s')) :
    s' = s ∧ r = (subPath.map pathParse).getD ([], none) := by
  cases subPath with
  | none =>
    obtain ⟨rfl, rfl⟩ := (pure_ok _ _ _ _).mp hs
    exact ⟨rfl, rfl⟩
  | some p => exact parseName_ok hs

theorem depthFrom_ok {fuel depth r : ℕ} {name : Name} {p : Option Path} (hs : depthFrom fuel depth name p s = .ok (r, s')) :
    s' = s := by
  induction fuel generalizing depth name p with
  | zero => simp [depthFrom] at hs
  | succ fuel ih =>
    unfold depthFrom at hs
    split_ifs at hs
    · exact ((pure_ok _ _ _ _).mp hs).2.symm
    · cases p with
      | none => exact ((pure_ok _ _ _ _).mp hs).2.symm
      | some p =>
        simp only [bind_ok] at hs
        obtain ⟨_, s1, h1, h2⟩ := hs
        obtain ⟨rfl, -⟩ := parseName_ok h1
        exact ih h2

theorem pathDepthCnt_ok {junk : Junk} {pathname : Path} {r : ℕ} (hs : pathDepthCnt junk pathname s = .ok (r, s')) : s' = s := by
  unfold pathDepthCnt at hs
  simp only [bind_ok] at hs
  obtain ⟨_, s1, h1, h2⟩ := hs
  obtain ⟨rfl, -⟩ := parseName_ok h1
  split_ifs at h2
  · exact ((pure_ok _ _ _ _).mp h2).2.symm
  · exact ((pure_ok _ _ _ _).mp h2).2.symm
  · exact depthFrom_ok h2

structure SearchSteps (K : Kernel) (I : Dir → Fs → Prop) : Prop where
  opens : ∀ {n : ℕ} {s s' : Fs} {d : Dir}, I .root s → dirOpen K n s = .ok (d, s') → I d s'
  closes : ∀ {d : Dir} {s s' : Fs} {u : Unit}, I d s → dirClose d s = .ok (u, s') → I .root s'
  looks : ∀ {d : Dir} {inode : Inode} {name : Name} {s s' : Fs} {r : Option DirEntry}, I d s →
    liftKern (searchDirEntry K inode name) s = .ok (r, s') → I d s'

section

variable {K : Kernel} {I : Dir → Fs → Prop} {r : Option ℕ × PathSearchRecord}

theorem SearchSteps.searchLoop (h : SearchSteps K I) {fuel : ℕ} {subPath : Option Path} {name : Name} {record : PathSearchRecord}
    {pNo iNo : ℕ} (hi : I record.parentDir s) (hs : searchLoop K fuel subPath name record pNo iNo s = .ok (r, s')) :
    I r.2.parentDir s' := by
  induction fuel generalizing s subPath name record pNo iNo with
  | zero => simp [ElephantOS.searchLoop] at hs
  | succ fuel ih =>
    unfold ElephantOS.searchLoop at hs
    split_ifs at hs
    · simp only [bind_ok] at hs
      obtain ⟨_, s1, h1, d, s2, h2, hs⟩ := hs
      obtain ⟨rfl, rfl⟩ := (pure_ok _ _ _ _).mp hs
      exact h.opens (h.closes hi h1) h2
    · simp only [bind_ok, assert_ok, bound_ok, get_ok] at hs
      obtain ⟨_, _, ⟨-, rfl⟩, _, _, ⟨-, rfl⟩, _, _, ⟨rfl, rfl⟩, found, s1, h1, hs⟩ := hs
      have hi1 := h.looks hi h1
      cases found with
      | none =>
        obtain ⟨rfl, rfl⟩ := (pure_ok _ _ _ _).mp hs
        exact hi1
      | some dirE =>
        simp only [bind_ok] at hs
        obtain ⟨next, s2, h2, hs⟩ := hs
        obtain ⟨rfl, -⟩ := nextName_ok h2
        cases ht : dirE.fType with
        | directory =>
          simp only [ht, bind_ok] at hs
          obtain ⟨_, s3, h3, d, s4, h4, hs⟩ := hs
          exact ih (h.opens (h.closes hi1 h3) h4) hs
        | regular =>
          simp only [ht] at hs
          obtain ⟨rfl, rfl⟩ := (pure_ok _ _ _ _).mp hs
          exact hi1
        | unknown =>
          simp only [ht] at hs
          exact @ih s2 _ _ ⟨record.parentDir, record.fileType, record.searchedPath ++ slash :: name⟩ _ _ hi1 hs
        | other w =>
          simp only [ht] at hs
          exact @ih s2 _ _ ⟨record.parentDir, record.fileType, record.searchedPath ++ slash :: name⟩ _ _ hi1 hs

theorem SearchSteps.searchFile (h : SearchSteps K I) {junk : Junk} {pathname : Path} (hi : I .root s)
    (hs : searchFile K junk pathname s = .ok (r, s')) : I r.2.parentDir s' := by
  unfold ElephantOS.searchFile at hs
  split_ifs at hs
  · obtain ⟨rfl, rfl⟩ := (pure_ok _ _ _ _).mp hs
    exact hi
  · simp only [bind_ok, assert_ok] at hs
    obtain ⟨_, _, ⟨-, rfl⟩, _, s1, h1, hs⟩ := hs
    obtain ⟨rfl, -⟩ := parseName_ok h1
    exact h.searchLoop hi hs

end

theorem searchFile_refs {K : Kernel} {junk : Junk} {pathname : Path} {r : Option ℕ × PathSearchRecord} (h : Refs held s)
    (hs : searchFile K junk pathname s = .ok (r, s')) : Refs (dirRefs r.2.parentDir + held) s' ∧ Kept held s s' := by
  have hsteps : SearchSteps K fun d t => Refs (dirRefs d + held) t ∧ Kept held s t := by
    refine ⟨?_, ?_, ?_⟩
    · rintro n t t' d ⟨hr, hk⟩ ht
      rw [dirRefs, zero_add] at hr
      obtain ⟨hr', hk'⟩ := dirOpen_refs hr ht
      exact ⟨hr', hk.trans hk'⟩
    · rintro d t t' u ⟨hr, hk⟩ ht
      obtain ⟨hr', hk'⟩ := dirClose_refs hr ht
      rw [dirRefs, zero_add]
      exact ⟨hr', hk.trans hk'⟩
    · rintro d inode name t t' found ⟨hr, hk⟩ ht
      obtain ⟨hr', hk'⟩ := liftKern_refs (Quiet.searchDirEntry _ _ _) hr ht
      exact ⟨hr', hk.trans (hk'.mono fun p hp => Multiset.mem_add.mpr (.inr hp))⟩
  refine hsteps.searchFile ⟨?_, Kept.refl held s⟩ hs
  rwa [dirRefs, zero_add]

end

end ElephantOS
