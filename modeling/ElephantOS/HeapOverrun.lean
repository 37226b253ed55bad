import ElephantOS.HeapRuns

namespace ElephantOS.Paging

open HaltingState LinkedList

section

variable {o : Owner} {A : ℕ → Option Kind} {F : ℕ → List Word} {W : Word → Word} {live : List (Word × ℕ)} {h h' : Heap} {i : ℕ}
  {a b e p w x before : Word} {u : Unit}

theorem translate_none {m : Machine} (h : access m a = none) : translate a m = .error .wild := by
  simp only [translate, h]

theorem load_none {m : Machine} (h : access m a = none) : load a m = .error .wild := bind_error (translate_none h) _

theorem store_none {m : Machine} (h : access m a = none) : store a w m = .error .wild := bind_error (translate_none h) _

theorem storeWord_tlb (hs : storeWord a w h = .ok (u, h')) : h'.machine.tlb = h.machine.tlb := by
  unfold storeWord at hs
  split_ifs at hs
  · cases hs
    rfl
  · cases hacc : access h.machine a with
    | none =>
      rw [page, store_none hacc] at hs
      cases hs
    | some q =>
      rw [page, store_eq hacc] at hs
      cases hs
      rfl

theorem loadWord_same (hs : loadWord a h = .ok (w, h')) : h' = h := by
  unfold loadWord at hs
  split_ifs at hs
  · cases hs
    rfl
  · cases hacc : access h.machine a with
    | none =>
      rw [page, load_none hacc] at hs
      cases hs
    | some q =>
      rw [page, load_eq hacc] at hs
      cases hs
      rfl

theorem listInsertBefore_tlb (hs : listInsertBefore before e h = .ok (u, h')) : h'.machine.tlb = h.machine.tlb := by
  simp only [listInsertBefore, bind_ok] at hs
  obtain ⟨_, h₁, hl₁, _, h₂, hs₂, _, h₃, hl₃, _, h₄, hs₄, _, h₅, hs₅, hs₆⟩ := hs
  rw [storeWord_tlb hs₆, storeWord_tlb hs₅, storeWord_tlb hs₄, loadWord_same hl₃, storeWord_tlb hs₂, loadWord_same hl₁]

theorem At.loadWord_null (hat : At o (pagesOf A) W h) (huser : o.pool = .user) (htlb : h.machine.tlb 0 = none) :
    Paging.loadWord 4#32 h = .error (.page .wild) := by
  obtain ⟨stray, H, inv, -⟩ := hat.space.frames
  have hwalk : walk h.machine.mem h.machine.cr3 4#32 = none := by
    cases hd : dirOf h.machine h.machine.cur with
    | none =>
      cases hv : h.machine.pgdir h.machine.cur with
      | none =>
        rw [hat.space.task.mp hv] at huser
        cases huser
      | some v =>
        obtain ⟨f, hf⟩ := inv.mapped _ (inv.dirPage _ v hv).2
        have hframe : kernelFrame h.machine.mem (v.toNat / 4096) = some f := hf
        rw [dirOf, hv, Option.bind_some, hframe] at hd
        cases hd
    | some d =>
      have hnone : useFrame h.machine (.upage h.machine.cur 0) = none := by
        cases hf : useFrame h.machine (.upage h.machine.cur 0) with
        | none => rfl
        | some f =>
          have hlow := (inv.user _ _ f (by omega) hf).1
          omega
      simp only [useFrame, hd, Option.bind_some] at hnone
      rw [cr3_eq inv hd, walk_eq (inv.dirSpace _ d hd).aligned, show (4#32 : Word).toNat / 4096 = 0 from rfl]
      cases ht : entryFrame h.machine.mem d 0 with
      | none => rfl
      | some g =>
        rw [ht, Option.bind_some] at hnone
        rw [Option.bind_some, hnone]
        rfl
  have hdesc : ¬ h.isDesc 4#32 := by
    rw [hat.isDesc, Owner.Desc]
    have hhigh := o.high
    have hfour : (4#32 : Word).toNat = 4 := rfl
    omega
  have hacc : access h.machine 4#32 = none := by
    unfold access
    rw [show (4#32 : Word).toNat / 4096 = 0 from rfl, htlb]
    exact hwalk
  rw [Paging.loadWord, if_neg hdesc, page, load_none hacc]

theorem block_ne_ends (ha : Arenas o A) (hi : i < 7) (hb : IsBlock A i b) : b ≠ o.head i ∧ b ≠ o.tail i := by
  have hfits := o.fits
  have hdesc := ha.apart _ (block_page ha hb)
  rw [Owner.Desc, descBytes] at hdesc
  rw [descBytes] at hfits
  constructor
  · rintro rfl
    rw [toNat_head o hi] at hdesc
    omega
  · rintro rfl
    rw [toNat_tail o hi] at hdesc
    omega

theorem At.elemFind_null (hat : At o (pagesOf A) W h) (huser : o.pool = .user) (htlb : h.machine.tlb 0 = none) (ha : Arenas o A)
    (hi : i < 7) (hfirst : W (o.head i + 4#32) = b) (hb : IsBlock A i b) (hnext : W (b + 4#32) = 0) (hx : IsBlock A i x) (hne : b ≠ x) :
    Paging.elemFind (o.head i) x h = .error (.page .wild) := by
  have hhead := node_reach ha hi (x := o.head i) (Or.inl rfl)
  have hblock := node_reach ha hi (x := b) (Or.inr (Or.inr hb))
  have hzero : (0 : Word) ≠ o.tail i := by
    intro heq
    have hnat := toNat_tail o hi
    rw [← heq, show (0 : Word).toNat = 0 from rfl] at hnat
    omega
  have hzero' : (0 : Word) ≠ x := by
    rintro rfl
    have hlo := (block_place ha hx).2.1
    simp at hlo
  obtain ⟨fuel, hfuel⟩ : ∃ fuel, 2 ^ 32 = fuel + 1 + 1 := ⟨4294967294, by norm_num⟩
  rw [Paging.elemFind, bind_eq (hat.loadWord hhead.2), hfirst, hfuel, show o.head i + 8#32 = o.tail i from rfl]
  rw [Paging.elemFindFrom, if_neg (block_ne_ends ha hi hb).2, if_neg hne, bind_eq (hat.loadWord hblock.2), hnext]
  rw [Paging.elemFindFrom, if_neg hzero, if_neg hzero', show (0 : Word) + 4#32 = 4#32 from rfl]
  exact bind_error (hat.loadWord_null huser htlb) _

/-- The free list of size `i` begins with the block `b`, whose link to the next one is null. -/
structure CutList (o : Owner) (W : Word → Word) (i n cnt : ℕ) (b : Word) : Prop where
  arena : W (wordAt n 0) = o.desc i
  count : W (wordAt n 4) = BitVec.ofNat 32 cnt
  large : W (wordAt n 8) = 0
  size : W (o.desc i) = BitVec.ofNat 32 (blockSize i)
  blocks : W (o.desc i + 4#32) = BitVec.ofNat 32 (perArena i)
  first : W (o.head i + 4#32) = b
  next : W (b + 4#32) = 0

theorem CutList.relink {n cnt : ℕ} {l : List Word} (hc : CutList o W i n cnt b) (ha : Arenas o A) (hn : A n = some (.small i))
    (hb : IsBlock A i b) (hl : ∀ x ∈ l, o.Node A i x ∧ o.head i ≠ x ∧ b ≠ x) {W' : Word → Word}
    (hout : ∀ a, links.Outside l a → W' a = W a) : CutList o W' i n cnt b := by
  have hi := ha.size n i hn
  have hheader : ∀ c, c < 12 → W' (wordAt n c) = W (wordAt n c) := by
    intro c hc
    exact hout _ fun x hx => (header_outside ha hn hc hi (hl x hx).1).symm
  have hdesc := hout (o.desc i) fun x hx => (desc_outside ha hi hi (hl x hx).1).1.symm
  have hdesc' := hout (o.desc i + 4#32) fun x hx => (desc_outside ha hi hi (hl x hx).1).2.symm
  have hnext : ∀ y, o.Node A i y → (∀ x ∈ l, y ≠ x) → W' (y + 4#32) = W (y + 4#32) := by
    intro y hy hne
    exact hout _ fun x hx => ⟨fun heq => hne x hx (by simpa [links] using heq), node_cross ha hi hi hy (hl x hx).1⟩
  exact ⟨(hheader 0 (by omega)).trans hc.arena, (hheader 4 (by omega)).trans hc.count, (hheader 8 (by omega)).trans hc.large,
    hdesc.trans hc.size, hdesc'.trans hc.blocks, (hnext _ (Or.inl rfl) fun x hx => (hl x hx).2.1).trans hc.first,
    (hnext b (Or.inr (Or.inr hb)) fun x hx => (hl x hx).2.2).trans hc.next⟩

theorem CutList.recount {n cnt cnt' : ℕ} (hc : CutList o W i n cnt b) (ha : Arenas o A) (hn : A n = some (.small i))
    (hb : IsBlock A i b) : CutList o (Function.update W (wordAt n 4) (BitVec.ofNat 32 cnt')) i n cnt' b := by
  have hi := ha.size n i hn
  have hheader : ∀ c, c < 12 → c ≠ 4 → wordAt n c ≠ wordAt n 4 :=
    fun c hc hne heq => hne (wordAt_inj (ha.bound hn) (by omega) (by omega) heq)
  have hdesc : ∀ a, o.Desc a → a ≠ wordAt n 4 := fun a hd heq => header_not_desc ha hn (c := 4) (by omega) (heq ▸ hd)
  have hnode : ∀ x, o.Node A i x → x + 4#32 ≠ wordAt n 4 := fun x hx => (header_outside ha hn (by omega) hi hx).2.symm
  refine ⟨?_, Function.update_self _ _ _, ?_, ?_, ?_, ?_, ?_⟩
  · rw [Function.update_of_ne (hheader 0 (by omega) (by omega)), hc.arena]
  · rw [Function.update_of_ne (hheader 8 (by omega) (by omega)), hc.large]
  · rw [Function.update_of_ne (hdesc _ (desc_place o hi).1), hc.size]
  · rw [Function.update_of_ne (hdesc _ (desc_place o hi).2.1), hc.blocks]
  · rw [Function.update_of_ne (hnode _ (Or.inl rfl)), hc.first]
  · rw [Function.update_of_ne (hnode _ (Or.inr (Or.inr hb))), hc.next]

theorem HeapInv.cutList (inv : HeapInv o A F W live h) {n : ℕ} (hn : A n = some (.small i)) (hb : (F i).head? = some b) :
    CutList o (Function.update (Function.update W b 0) (b + 4#32) 0) i n (freeIn n (F i)) b := by
  have hl := inv.layout
  have ha := hl.arenas
  have hi := ha.size n i hn
  have hlist := hl.lists i hi
  have hblock : IsBlock A i b := hlist.blocks b (List.mem_of_mem_head? hb)
  have hnode : o.Node A i b := Or.inr (Or.inr hblock)
  have hout : ∀ a, a ≠ b ∧ a ≠ b + 4#32 → Function.update (Function.update W b 0) (b + 4#32) 0 a = W a := by
    rintro a ⟨hab, hab'⟩
    rw [Function.update_of_ne hab', Function.update_of_ne hab]
  have hfirst : W (o.head i + 4#32) = b := by
    rw [hlist.first, List.headD_eq_head?_getD, hb]
    rfl
  have hhead : o.head i + 4#32 ≠ b ∧ o.head i + 4#32 ≠ b + 4#32 :=
    ⟨node_cross ha hi hi (Or.inl rfl) hnode, fun heq => (block_ne_ends ha hi hblock).1.symm (by simpa using heq)⟩
  refine ⟨?_, ?_, ?_, ?_, ?_, ?_, Function.update_self _ _ _⟩
  · rw [hout _ (header_outside ha hn (by omega) hi hnode), (hl.small n i hn).1]
  · rw [hout _ (header_outside ha hn (by omega) hi hnode), inv.count n i hn]
  · rw [hout _ (header_outside ha hn (by omega) hi hnode), (hl.small n i hn).2]
  · rw [hout _ (desc_outside ha hi hi hnode).1, (hl.sizes i hi).1]
  · rw [hout _ (desc_outside ha hi hi hnode).2, (hl.sizes i hi).2]
  · rw [hout _ hhead, hfirst]

theorem CutList.reach {n cnt : ℕ} (hc : CutList o W i n cnt b) (hat : At o (pagesOf A) W h) (ha : Arenas o A)
    (hn : A n = some (.small i)) : Paging.loadWord (wordAt n 0) h = .ok (o.desc i, h) ∧
      Paging.loadWord (wordAt n 0 + 4#32) h = .ok (BitVec.ofNat 32 cnt, h) ∧ Paging.loadWord (wordAt n 0 + 8#32) h = .ok (0, h) ∧
      Paging.loadWord (o.desc i) h = .ok (BitVec.ofNat 32 (blockSize i), h) ∧
      Paging.loadWord (o.desc i + 4#32) h = .ok (BitVec.ofNat 32 (perArena i), h) := by
  have hi := ha.size n i hn
  have hheader : ∀ c, c < 12 → o.Reach (pagesOf A) (wordAt n c) := fun c hc => Or.inr (header_place ha hn (by omega)).2.2
  have hdesc := Layout.reach_desc o (pagesOf A) hi
  rw [show wordAt n 0 + 4#32 = wordAt n 4 from wordAt_add _ 0 4, show wordAt n 0 + 8#32 = wordAt n 8 from wordAt_add _ 0 8,
    hat.loadWord (hheader 0 (by omega)), hat.loadWord (hheader 4 (by omega)), hat.loadWord (hheader 8 (by omega)),
    hat.loadWord hdesc.1, hat.loadWord hdesc.2, hc.arena, hc.count, hc.large, hc.size, hc.blocks]
  exact ⟨rfl, rfl, rfl, rfl, rfl⟩

theorem CutList.removeBlocks {n cnt : ℕ} (hc : CutList o W i n cnt b) (hat : At o (pagesOf A) W h) (huser : o.pool = .user)
    (htlb : h.machine.tlb 0 = none) (ha : Arenas o A) (hn : A n = some (.small i)) (hb : IsBlock A i b) (hne : b ≠ blockAddr n i 0) :
    Paging.removeBlocks (wordAt n 0) (perArena i) 0 h = .error (.page .wild) := by
  have hi := ha.size n i hn
  have hpos := perArena_pos hi
  obtain ⟨more, hmore⟩ : ∃ more, perArena i = more + 1 := ⟨perArena i - 1, by omega⟩
  obtain ⟨harena, -, -, hsize, -⟩ := hc.reach hat ha hn
  have hblock : Paging.arena2block (wordAt n 0) 0 h = .ok (blockAddr n i 0, h) := by
    rw [Paging.arena2block, bind_eq harena, bind_eq hsize, wordAt_block]
    rfl
  rw [hmore, Paging.removeBlocks, bind_eq hblock, bind_eq harena, show freeListOf (o.desc i) = o.head i from rfl]
  exact bind_error (hat.elemFind_null huser htlb ha hi hc.first hb hc.next (isBlock_blockAddr hn hpos) hne) _

theorem FreeList.last {q : Word} {s : List Word} (hl : FreeList o A W i (s ++ [q])) : W (o.tail i) = q := by
  have hchain := hl.chain
  have hnodes : o.nodes i (s ++ [q]) = (o.head i :: s) ++ [q] ++ [o.tail i] := by simp [Owner.nodes]
  rw [hnodes] at hchain
  exact hchain.cut.2.1.2

theorem HeapInv.free_null (inv : HeapInv o A F W live h) (huser : o.pool = .user) (htlb : h.machine.tlb 0 = none) {n : ℕ} {q : Word}
    {s : List Word} (hn : A n = some (.small i)) (hF : F i = b :: s ++ [q]) (hnot : blockAddr n i 0 ∉ F i)
    (hall : freeIn n (F i) + 1 = perArena i) :
    ∃ h₁ h₂, Paging.storeWord b 0 h = .ok ((), h₁) ∧ Paging.storeWord (b + 4#32) 0 h₁ = .ok ((), h₂) ∧
      Paging.sysFree (blockAddr n i 0) h₂ = .error (.page .wild) := by
  have hl := inv.layout
  have ha := hl.arenas
  have hi := ha.size n i hn
  have hpos := perArena_pos hi
  have hlist := hl.lists i hi
  have hp := isBlock_blockAddr hn hpos
  have hq : IsBlock A i q := hlist.blocks q (by rw [hF]; simp)
  have hb : IsBlock A i b := hlist.blocks b (by rw [hF]; simp)
  have hbp : b ≠ blockAddr n i 0 := fun heq => hnot (by rw [hF, ← heq]; simp)
  have hbq : b ≠ q := by
    have hnodup := hlist.nodup
    rw [hF] at hnodup
    simp only [List.cons_append, List.nodup_cons, List.mem_append, List.mem_singleton, not_or] at hnodup
    exact hnodup.1.2
  have hnodes : ∀ x ∈ [q, blockAddr n i 0, o.tail i], o.Node A i x ∧ o.head i ≠ x ∧ b ≠ x := by
    intro x hx
    simp only [List.mem_cons, List.not_mem_nil, or_false] at hx
    rcases hx with rfl | rfl | rfl
    · exact ⟨Or.inr (Or.inr hq), (block_ne_ends ha hi hq).1.symm, hbq⟩
    · exact ⟨Or.inr (Or.inr hp), (block_ne_ends ha hi hp).1.symm, hbp⟩
    · refine ⟨Or.inr (Or.inl rfl), ?_, (block_ne_ends ha hi hb).2⟩
      intro heq
      have hnat := congrArg BitVec.toNat heq
      rw [toNat_head o hi, toNat_tail o hi] at hnat
      omega
  have hreach := node_reach ha hi (x := b) (Or.inr (Or.inr hb))
  obtain ⟨h₁, hs₁, hat₁⟩ := inv.words.storeWord hreach.1 0
  obtain ⟨h₂, hs₂, hat₂⟩ := hat₁.storeWord hreach.2 0
  refine ⟨h₁, h₂, hs₁, hs₂, ?_⟩
  have hcut₂ := inv.cutList hn (b := b) (by rw [hF]; rfl)
  have htail : Function.update (Function.update W b 0) (b + 4#32) 0 (o.tail i) = q := by
    have hlast := FreeList.last (hF ▸ hlist : FreeList o A W i (b :: s ++ [q]))
    rw [Function.update_of_ne (node_cross ha hi hi (Or.inr (Or.inr hb)) (Or.inr (Or.inl rfl))).symm,
      Function.update_of_ne (block_ne_ends ha hi hb).2.symm, hlast]
  -- the block goes to the end of the list, whose first link stays as it is
  obtain ⟨hp₁, hp₂⟩ := node_reach ha hi (x := blockAddr n i 0) (Or.inr (Or.inr hp))
  obtain ⟨h₃, happend, hat₃⟩ := hat₂.listInsertBefore (node_reach ha hi (x := o.tail i) (Or.inr (Or.inl rfl))).1
    (by rw [htail]; exact (node_reach ha hi (Or.inr (Or.inr hq))).2) hp₁ hp₂
  have hcut₃ : CutList o (links.insertBefore _ (o.tail i) (blockAddr n i 0)) i n (freeIn n (F i)) b :=
    hcut₂.relink ha hn hb hnodes fun a hout => Fields.insertBefore_outside htail (by simp) (by simp) (by simp) hout
  obtain ⟨h₄, hstore, hat₄⟩ := hat₃.storeWord (hl.reach_header hn (c := 4) (by omega)) (BitVec.ofNat 32 (perArena i))
  have hcut₄ : CutList o _ i n (perArena i) b := hcut₃.recount ha hn hb
  have htlb₄ : h₄.machine.tlb 0 = none := by
    rw [storeWord_tlb hstore, listInsertBefore_tlb happend, storeWord_tlb hs₂, storeWord_tlb hs₁, htlb]
  have hremove := hcut₄.removeBlocks hat₄ huser htlb₄ ha hn hb hbp
  have hnonzero : blockAddr n i 0 ≠ 0 := by
    intro heq
    have hlo := (block_place ha hp).2.1
    rw [heq] at hlo
    simp at hlo
  have hpool : h₂.pool = .kernel → kHeapStart ≤ (blockAddr n i 0).toNat := by
    rw [hat₂.pool, huser]
    exact fun h => nomatch h
  have hget : (get : HeapM Heap) h₂ = .ok (h₂, h₂) := rfl
  have hcnt : BitVec.ofNat 32 (freeIn n (F i)) + 1 = BitVec.ofNat 32 (perArena i) := by
    rw [← hall, BitVec.ofNat_add]
    rfl
  obtain ⟨harena, -, hlarge, -, -⟩ := hcut₂.reach hat₂ ha hn
  obtain ⟨-, hcount, -, -, -⟩ := hcut₃.reach hat₃ ha hn
  obtain ⟨harena₄, -, -, -, hblocks⟩ := hcut₄.reach hat₄ ha hn
  have hstore' : Paging.storeWord (wordAt n 0 + 4#32) (BitVec.ofNat 32 (perArena i)) h₃ = .ok ((), h₄) := by
    rw [show wordAt n 0 + 4#32 = wordAt n 4 from wordAt_add _ 0 4, hstore]
  have happend' : Paging.listAppend (freeListOf (o.desc i)) (blockAddr n i 0) h₂ = .ok ((), h₃) := happend
  rw [Paging.sysFree, bind_eq (assertHeap_eq hnonzero h₂), bind_eq hget, bind_eq (assertHeap_eq hpool h₂), block2arena_eq,
    blockAddr_page (ha.bound hn) hpos]
  rw [bind_eq hlarge, bind_eq (assertHeap_eq (Or.inl rfl) h₂), bind_eq harena, if_neg (by simp)]
  rw [Paging.freeSmall, bind_eq harena, bind_eq happend', bind_eq hcount, hcnt, bind_eq hstore', bind_eq harena₄, bind_eq hblocks,
    if_pos rfl, toNat_perArena]
  exact bind_error hremove _

end

/-- A block of a process is alone in its arena, and the links of the first free block, which is the one behind it in a new arena, are
overwritten with zeros: `sys_free` of the block looks for it in the free list and faults. -/
theorem sysFree_faults {ram : PhysMem} {beyond : ByteMemory.Memory} {allMem : ℕ} {start h : Heap} {L : Use → Prop}
    {live : List (Word × ℕ)} {p b q : Word} {size i : ℕ} {s : List Word}
    (hboot : MemRun MemCall.Clean (memInit ram beyond allMem) start.machine L) (hrun : HeapRun MallocUnstale start h live)
    (huser : h.pool = .user) (htlb : h.machine.tlb 0 = none) (hi : i < 7) (hp : (p, size) ∈ live) (hsize : size ≤ 1024)
    (hfirst : p.toNat % 4096 = 12) (hdesc : loadWord (block2arena p) h = .ok (descAddr h.descs i, h))
    (hcnt : loadWord (block2arena p + 4#32) h = .ok (BitVec.ofNat 32 (perArena i - 1), h))
    (hfree : freeBlocks i h = .ok (b :: s ++ [q], h)) :
    ∃ h₁ h₂, storeWord b 0 h = .ok ((), h₁) ∧ storeWord (b + 4#32) 0 h₁ = .ok ((), h₂) ∧
      sysFree p h₂ = .error (.page .wild) := by
  obtain ⟨H, hmem⟩ := runInv_clean hboot
  obtain ⟨A, F, W, inv⟩ := heapInv_run hmem hrun
  have hl := inv.layout
  have ha := hl.arenas
  rw [freeBlocks_words inv.words hl hi, Except.ok.injEq, Prod.mk.injEq] at hfree
  have hheld : Held A F p size := inv.held _ hp
  rcases hheld with ⟨-, j, hj, -, hblock, hnot⟩ | ⟨hlarge, -⟩
  · have hn := (block_place ha hblock).1
    -- the class of the block is that of its arena
    have hload := inv.words.loadWord (hl.reach_header hn (c := 0) (by omega))
    rw [block2arena_eq, hload, (hl.small _ j hn).1, inv.words.descs, Except.ok.injEq, Prod.mk.injEq] at hdesc
    have hnat : ((ownerOf start).desc j).toNat = ((ownerOf start).desc i).toNat := congrArg BitVec.toNat hdesc.1
    rw [toNat_desc _ hj, toNat_desc _ hi] at hnat
    obtain rfl : j = i := by omega
    obtain ⟨n, k, hk, hlt, hpn⟩ := hblock
    have hpos := blockSize_pos j
    have hfit := blocks_fit j hlt
    have hplace := toNat_blockAddr (ha.bound hk) hlt
    obtain rfl : k = 0 := by
      rw [hpn, hplace] at hfirst
      rcases Nat.eq_zero_or_pos k with hzero | hk0
      · exact hzero
      · have := Nat.mul_pos hk0 hpos
        omega
    subst hpn
    have hused := inv.used n j hk
    have hper := perArena_bound j
    have hcount := inv.words.loadWord (hl.reach_header hk (c := 4) (by omega))
    rw [block2arena_eq, blockAddr_page (ha.bound hk) hlt, show wordAt n 0 + 4#32 = wordAt n 4 from wordAt_add _ 0 4, hcount,
      inv.count n j hk, Except.ok.injEq, Prod.mk.injEq, ← BitVec.toNat_inj, BitVec.toNat_ofNat, BitVec.toNat_ofNat] at hcnt
    exact inv.free_null (inv.words.pool.symm.trans huser) htlb hk hfree.1 hnot (by omega)
  · omega

end ElephantOS.Paging
