import ElephantOS.VolumeAdds

namespace ElephantOS

open ByteMemory HaltingState

section

variable {K : Kernel} {k k₁ k₂ k₃ k₅ k₆ k₇ : Kern} {dirs files : Set ℕ} {inode inode' f : Inode} {d m : ℕ} {u v w : Unit}
  {io io' : Buffer} {ok : Bool}

structure InodeFreed (K : Kernel) (m : ℕ) (f : Inode) (k k' : Kern) : Prop where
  len : k'.blockBitmap.btmpBytesLen = k.blockBitmap.btmpBytesLen
  bits : ∀ i, k'.blockBitmap.scanTest i = true ↔ k.blockBitmap.scanTest i = true ∧ K.sb.dataStartLba + i ∉ blocksOf k.disk f
  inodeBitmap : k'.inodeBitmap = k.inodeBitmap.set m false
  disk : ∀ a, k'.disk a = k.disk a ∨ a < K.sb.inodeTableLba * 512 ∨ a ∈ inodeSlot K.toPartition m
  mountable : MapStored K.toPartition k → Mountable K.toPartition k'

theorem inodeFreed_run (hl : Layout K.toPartition k.blockBitmap.btmpBytesLen) (ho : Owns K.toPartition k f) (hm : m < 4096)
    (hrel : releaseBlocks K f k = .ok (u, k₃))
    (hb : bitmapSync K m .inodeBitmap { k₃ with inodeBitmap := k₃.inodeBitmap.set m false } = .ok (v, k₅)) (hk : HeapOnly k₅ k₆)
    (hdel : inodeDelete K m io k₆ = .ok (w, k₇)) : InodeFreed K m f k k₇ := by
  have hfreed := releaseBlocks_freed hl ho hrel
  have hdel' := inodeDelete_ok hdel
  have hl₃ : Layout K.toPartition k₃.blockBitmap.btmpBytesLen := by
    rw [hfreed.len]
    exact hl
  have hhigh := @inodeBitmapSync_off K m { k₃ with inodeBitmap := k₃.inodeBitmap.set m false } hl₃ hm _ k₅ hb
  obtain ⟨-, hk₅⟩ := (bitmapSync_inode K m _ _ k₅).mp hb
  have hoff : SameOff (inodeSlot K.toPartition m) k₆.disk k₇.disk := by
    rw [hdel'.disk]
    exact blit_sameOff _ _ fun b h1 h2 => ⟨h1, h2⟩
  have hbb : k₇.blockBitmap = k₃.blockBitmap := by
    rw [hdel'.blockBitmap, hk.blockBitmap, hk₅]
  refine ⟨?_, ?_, ?_, ?_, ?_⟩
  · rw [hbb]
    exact hfreed.len
  · rw [hbb]
    exact hfreed.bits
  · rw [hdel'.inodeBitmap, hk.inodeBitmap, hk₅]
    change k₃.inodeBitmap.set m false = _
    rw [hfreed.inodeBitmap]
  · intro a
    by_cases hlow : a < K.sb.inodeTableLba * 512
    · exact .inr (.inl hlow)
    · by_cases hslot : a ∈ inodeSlot K.toPartition m
      · exact .inr (.inr hslot)
      · left
        rw [hoff a hslot, hk.disk, hhigh (by omega)]
        exact hfreed.disk a fun hmap => hlow (hl.map_low hmap)
  · intro hm₀
    have h₃ : MapStored K.toPartition k₃ := hm₀.kept hl hfreed.mapKept
    have h₄ : MapStored K.toPartition { k₃ with inodeBitmap := k₃.inodeBitmap.set m false } := h₃.kept hl₃ (.of_eq rfl rfl)
    have h₅ : Mountable K.toPartition k₅ := bitmapSync_mountable h₄ hl₃ hm hb
    have hl₆ : Layout K.toPartition k₆.blockBitmap.btmpBytesLen := by
      rw [hk.blockBitmap, hk₅]
      exact hl₃
    refine (hk.keepsMount h₅).kept hl₆ (.above hl₆ hdel'.blockBitmap fun a ha => hoff a ?_) hdel'.inodeBitmap
    rintro ⟨hslot, -⟩
    unfold inodeAddr at hslot
    omega

theorem Inodes.freeInode (h : Inodes K dirs files k) (hm : m ∈ dirs ∪ files) (hf : (storedInode K.toPartition k.disk m).SameStored f)
    (hfreed : InodeFreed K m f k k₁) : Inodes K (dirs \ {m}) (files \ {m}) k₁ ∧ Undisturbed K.toPartition ((dirs ∪ files) \ {m}) k k₁ := by
  have hsame := SameBlocks.of_stored (d := k.disk) hf
  have h' : Inodes K (dirs \ {m}) (files \ {m}) k := h.mono Set.sdiff_subset Set.sdiff_subset
  have hsub : dirs \ {m} ∪ files \ {m} = (dirs ∪ files) \ {m} := Set.union_sdiff_distrib.symm
  have hs : Spares K.toPartition (dirs \ {m} ∪ files \ {m}) k k₁ := by
    rw [hsub]
    refine ⟨hfreed.len, ?_, ?_⟩
    · rintro n ⟨hn, hne⟩ p hp hnz
      obtain ⟨h1, h2, h3⟩ := (h.owns hn).used p hp hnz
      refine ⟨h1, ?_, (hfreed.bits _).mpr ⟨h3, ?_⟩⟩
      · rw [hfreed.len]
        exact h2
      · rw [show K.sb.dataStartLba + (refAddr k.disk (storedInode K.toPartition k.disk n) p - K.toPartition.sb.dataStartLba) =
          refAddr k.disk (storedInode K.toPartition k.disk n) p from Nat.add_sub_cancel' h1]
        rintro ⟨q, hq, hnz', heq⟩
        rw [← hsame.refs hq] at heq
        exact h.apart n hn m hm hne p hp q hq hnz heq.symm
    · intro a
      rcases hfreed.disk a with heq | hlow | hslot
      · exact .inl heq
      · exact .inr (.inl hlow)
      · exact .inr (.inr (.inl ⟨m, (h.slot m hm).1, fun hx => hx.2 rfl, hslot⟩))
  refine ⟨h'.spare hs, ?_⟩
  rw [← hsub]
  exact h'.unmoved hs

theorem Volume.remove {pos₀ : ℕ × ℕ} {e₀ : Entry} (hv : Volume K dirs files k) (hd : d ∈ dirs)
    (hc : (storedInode K.toPartition k.disk d).SameStored inode) (he₀ : entriesOn K.toPartition k.disk d pos₀ = some e₀)
    (hord₀ : e₀.Ordinary) (hm₀ : e₀.iNo = m) (hempty : m ∈ dirs → ∀ q e', entriesOn K.toPartition k.disk m q = some e' → ¬ e'.Ordinary)
    (hrun : deleteDirEntry K inode m io k = .ok ((ok, inode'), k₁)) (hk : HeapOnly k₁ k₂)
    (hf : (storedInode K.toPartition k₂.disk m).SameStored f) (hfreed : InodeFreed K m f k₂ k₃) :
    Volume K (dirs \ {m}) (files \ {m}) k₃ ∧ d ≠ m ∧ Undisturbed K.toPartition ((dirs ∪ files) \ {d, m}) k k₃ ∧
      (storedInode K.toPartition k₃.disk d).SameStored inode' ∧
      EntryGone K.toPartition (dirs \ {m}) d e₀ k.disk k₃.disk ∧ KeepsMount K.toPartition k k₃ := by
  have hdir := hv.toInodes.dirAt hd hc
  have hold : entriesOn K.toPartition k.disk d = slotMap k.disk inode := (SameBlocks.of_stored hc).symm.map.symm
  have hno : inode.iNo = d := hc.iNo.symm.trans (hv.number d (.inl hd))
  have hmem : m ∈ dirs ∪ files := by
    rcases hv.names.kinds d hd pos₀ e₀ he₀ with ⟨-, hx⟩ | ⟨-, hx⟩
    · exact .inl (hm₀ ▸ hx)
    · exact .inr (hm₀ ▸ hx)
  have hne : d ≠ m := by
    rintro rfl
    exact hempty hd pos₀ e₀ he₀ hord₀
  rcases deleteDirEntry_unlinked hdir (hv.slot d (.inl hd)) hno hrun with ⟨-, -, hnone⟩ | ⟨pos, e, he, hord, hiNo, hu⟩
  · rw [hold] at he₀
    exact absurd hm₀ (hnone pos₀ e₀ he₀ hord₀)
  have hsame : pos = pos₀ := (hv.names.once d hd d hd pos pos₀ e e₀ (hold ▸ he) he₀ hord hord₀ (hiNo.trans hm₀.symm)).2
  have hdir₁ := hu.dirOk hdir he hord
  obtain ⟨h₁, hu₁⟩ := hv.toInodes.unlinkDir hv.names.disjoint hd hc hu hdir₁
  have hmap₁ : MapKept K.toPartition k k₁ := .of_sameOff hv.layout hu.shrunk.len hu.sync (fun p hp hnz => (hdir.owns.used p hp hnz).1) hu.disk
  have hs₂ : Spares K.toPartition (dirs ∪ files) k₁ k₂ := h₁.elsewhere hk.blockBitmap fun a => .inl (congrFun hk.disk a)
  have h₂ := h₁.spare hs₂
  have hu₂ := h₁.unmoved hs₂
  obtain ⟨h₃, hu₃⟩ := h₂.freeInode hmem hf hfreed
  have hsub : (dirs ∪ files) \ {d, m} ⊆ (dirs ∪ files) \ {d} := Set.sdiff_subset_sdiff_right (by simp)
  have hsub' : (dirs ∪ files) \ {d, m} ⊆ (dirs ∪ files) \ {m} := Set.sdiff_subset_sdiff_right (by simp)
  have hstay : (storedInode K.toPartition k₃.disk d).SameStored inode' := by
    rw [(hu₃ d ⟨.inl hd, hne⟩).1, (hu₂ d (.inl hd)).1]
    exact hu.stored
  have hdirs : ∀ c ∈ dirs \ {m}, entriesOn K.toPartition k₃.disk c = place (entriesOn K.toPartition k.disk) d pos none c := by
    rintro c ⟨hcd, hcm⟩
    rw [hu₃.entries ⟨.inl hcd, hcm⟩, hu₂.entries (.inl hcd)]
    unfold place
    by_cases hc' : c = d
    · subst hc'
      rw [Function.update_self, hold, ← hu.removed.map]
      exact (SameBlocks.of_stored (d := k₁.disk) hu.stored).map
    · rw [Function.update_of_ne hc']
      exact hu₁.entries ⟨.inl hcd, hc'⟩
  have hnames := hv.names.remove hd (hold ▸ he) hord (by rw [hiNo]; exact hempty)
  rw [hiNo] at hnames
  refine ⟨⟨h₃, hnames.congr hdirs, ?_, ?_⟩, hne, ((hu₁.mono hsub).trans (hu₂.mono Set.sdiff_subset)).trans (hu₃.mono hsub'), hstay,
    ⟨pos₀, he₀, hsame ▸ hdirs⟩, fun hm => hfreed.mountable ((hm.toMapStored.kept hv.layout hmap₁).kept h₁.layout hk.mapKept)⟩
  · rw [hfreed.inodeBitmap, Bitmap.set_len, hk.inodeBitmap, hu.inodeBitmap]
    exact hv.inodeLen
  · rw [hfreed.inodeBitmap, hk.inodeBitmap, hu.inodeBitmap]
    refine set_inodeBits (b := false) hv fun i => ?_
    rw [← Set.union_sdiff_distrib, Set.mem_sdiff, Set.mem_singleton_iff]
    split_ifs with hi
    · simp [hi]
    · simp [hi]

end

end ElephantOS
