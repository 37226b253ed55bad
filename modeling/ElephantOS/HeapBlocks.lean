import ElephantOS.HeapLayout

namespace ElephantOS.Paging

open HaltingState LinkedList

theorem blockSize_le {i : ℕ} (hi : i < 7) : blockSize i ≤ 1024 := by
  have := Nat.pow_le_pow_right (n := 2) (by omega) (show i ≤ 6 by omega)
  unfold blockSize
  omega

theorem toNat_blockSize {i : ℕ} (hi : i < 7) : (BitVec.ofNat 32 (blockSize i)).toNat = blockSize i := by
  have := blockSize_le hi
  rw [BitVec.toNat_ofNat]
  exact Nat.mod_eq_of_lt (by omega)

theorem perArena_bound (i : ℕ) : perArena i < 256 := by
  have hle : (4096 - 12) / blockSize i ≤ (4096 - 12) / 16 := Nat.div_le_div_left (sixteen_le_blockSize i) (by omega)
  unfold perArena
  omega

theorem perArena_pos {i : ℕ} (hi : i < 7) : 0 < perArena i :=
  Nat.div_pos (by have := blockSize_le hi; omega) (blockSize_pos i)

theorem toNat_perArena (i : ℕ) : (BitVec.ofNat 32 (perArena i)).toNat = perArena i := by
  have := perArena_bound i
  rw [BitVec.toNat_ofNat]
  exact Nat.mod_eq_of_lt (by omega)

theorem wordAt_add (n c d : ℕ) : wordAt n c + BitVec.ofNat 32 d = wordAt n (c + d) := by
  rw [wordAt, wordAt, ← add_assoc, BitVec.ofNat_add (n * 4096 + c)]

theorem wordAt_block (n i idx : ℕ) :
    wordAt n 0 + 12#32 + BitVec.ofNat 32 idx * BitVec.ofNat 32 (blockSize i) = blockAddr n i idx := by
  rw [← BitVec.ofNat_mul, wordAt_add, wordAt_add, zero_add, blockAddr]

theorem block2arena_eq (b : Word) : block2arena b = wordAt (b.toNat / 4096) 0 := by
  have hb := b.isLt
  apply BitVec.eq_of_toNat_eq
  have hframe : (block2arena b).toNat = _ := toNat_frame b
  rw [hframe, wordAt, BitVec.toNat_ofNat]
  omega

theorem blockAddr_inj {n i k l : ℕ} (hn : n < 0xffc00) (hk : k < perArena i) (hl : l < perArena i)
    (h : blockAddr n i k = blockAddr n i l) : k = l := by
  have hnat := congrArg BitVec.toNat h
  rw [toNat_blockAddr hn hk, toNat_blockAddr hn hl] at hnat
  exact Nat.eq_of_mul_eq_mul_right (blockSize_pos i) (by omega)

theorem blockAddr_page {n i k : ℕ} (hn : n < 0xffc00) (hk : k < perArena i) : (blockAddr n i k).toNat / 4096 = n := by
  have := blocks_fit i hk
  have := blockSize_pos i
  rw [toNat_blockAddr hn hk]
  omega

section

variable {o : Owner} {P : ℕ → Prop} {A : ℕ → Option Kind} {F : ℕ → List Word} {W : Word → Word} {h : Heap} {i n : ℕ}
  {b : Word} {r : List Word}

theorem At.clearWords (words : ℕ) {a : Word} {W : Word → Word} {h : Heap} (hat : At o P W h)
    (ha : ∀ k, k < words → o.Reach P (a + BitVec.ofNat 32 (4 * k))) :
    ∃ W' h', clearWords words a h = .ok ((), h') ∧ At o P W' h' ∧
      (∀ k, k < words → W' (a + BitVec.ofNat 32 (4 * k)) = 0) ∧
      ∀ x, (∀ k, k < words → x ≠ a + BitVec.ofNat 32 (4 * k)) → W' x = W x := by
  induction words generalizing a W h with
  | zero => exact ⟨W, h, rfl, hat, fun k hk => by omega, fun x _ => rfl⟩
  | succ words ih =>
    have hshift : ∀ k, a + 4#32 + BitVec.ofNat 32 (4 * k) = a + BitVec.ofNat 32 (4 * (k + 1)) := by
      intro k
      rw [BitVec.add_assoc, show (4#32 : Word) = BitVec.ofNat 32 4 from rfl, ← BitVec.ofNat_add,
        show 4 + 4 * k = 4 * (k + 1) by omega]
    have hfirst : o.Reach P a := by simpa using ha 0 (by omega)
    obtain ⟨h₁, hs₁, hat₁⟩ := hat.storeWord hfirst 0
    obtain ⟨W', h', hrun, hat', hzero, hsame⟩ := ih hat₁ (a := a + 4#32) (by
      intro k hk
      rw [hshift]
      exact ha (k + 1) (by omega))
    refine ⟨W', h', ?_, hat', ?_, ?_⟩
    · rw [Paging.clearWords, bind_eq hs₁, hrun]
    · intro k hk
      cases k with
      | zero =>
        by_cases hagain : ∃ l, l < words ∧ a = a + 4#32 + BitVec.ofNat 32 (4 * l)
        · obtain ⟨l, hl, heq⟩ := hagain
          rw [Nat.mul_zero, BitVec.add_zero, heq]
          exact hzero l hl
        · rw [Nat.mul_zero, BitVec.add_zero, hsame a fun l hl heq => hagain ⟨l, hl, heq⟩, Function.update_self]
      | succ k =>
        rw [← hshift]
        exact hzero k (by omega)
    · intro x hx
      rw [hsame x, Function.update_of_ne]
      · simpa using hx 0 (by omega)
      · intro k hk
        rw [hshift]
        exact hx (k + 1) (by omega)

theorem Layout.reach_desc (o : Owner) (P : ℕ → Prop) (hi : i < 7) :
    o.Reach P (o.desc i) ∧ o.Reach P (o.desc i + 4#32) :=
  ⟨Or.inl (desc_place o hi).1, Or.inl (desc_place o hi).2.1⟩

theorem Layout.reach_header (hl : Layout o A F W) {kind : Kind} (hn : A n = some kind) {c : ℕ} (hc : c < 4096) :
    o.Reach (pagesOf A) (wordAt n c) :=
  Or.inr (header_place hl.arenas hn hc).2.2

theorem At.descFor (hat : At o (pagesOf A) W h) (hl : Layout o A F W) (size more idx : ℕ) (hidx : idx + more = 7)
    (hs : ∃ k, idx ≤ k ∧ k < 7 ∧ size ≤ blockSize k) :
    ∃ i, descFor o.descs size more idx h = .ok (i, h) ∧ i < 7 ∧ size ≤ blockSize i := by
  induction more generalizing idx with
  | zero =>
    obtain ⟨k, hk, hk', -⟩ := hs
    omega
  | succ more ih =>
    have hi : idx < 7 := by omega
    have hload := hat.loadWord (Layout.reach_desc o (pagesOf A) hi).1
    rw [(hl.sizes idx hi).1] at hload
    have hload' : Paging.loadWord (descAddr o.descs idx) h = _ := hload
    rw [Paging.descFor, bind_eq hload', toNat_blockSize hi]
    by_cases hfit : size ≤ blockSize idx
    · rw [if_pos hfit]
      exact ⟨idx, rfl, hi, hfit⟩
    · rw [if_neg hfit]
      apply ih (idx + 1) (by omega)
      obtain ⟨k, hk, hk', hle⟩ := hs
      have hne : k ≠ idx := by
        rintro rfl
        exact hfit hle
      exact ⟨k, by omega, hk', hle⟩

theorem At.arena2block (hat : At o (pagesOf A) W h) (hl : Layout o A F W) (hn : A n = some (.small i)) (idx : ℕ) :
    arena2block (wordAt n 0) idx h = .ok (blockAddr n i idx, h) := by
  have hi := hl.arenas.size n i hn
  have hload := hat.loadWord (hl.reach_header hn (c := 0) (by omega))
  have hload' := hat.loadWord (Layout.reach_desc o (pagesOf A) hi).1
  rw [(hl.small n i hn).1] at hload
  rw [(hl.sizes i hi).1] at hload'
  rw [Paging.arena2block, bind_eq hload, bind_eq hload', wordAt_block]
  rfl

theorem assertHeap_eq {p : Prop} [Decidable p] (hp : p) (h : Heap) : assertHeap p h = .ok ((), h) := by
  rw [assertHeap, if_pos hp]
  rfl

theorem isBlock_blockAddr (hn : A n = some (.small i)) {k : ℕ} (hk : k < perArena i) : IsBlock A i (blockAddr n i k) :=
  ⟨n, k, hn, hk, rfl⟩

theorem At.addBlocks (more : ℕ) {idx : ℕ} {F : ℕ → List Word} {W : Word → Word} {h : Heap} (hat : At o (pagesOf A) W h)
    (hl : Layout o A F W) (hn : A n = some (.small i)) (hidx : idx + more ≤ perArena i)
    (hnew : ∀ k, idx ≤ k → k < idx + more → blockAddr n i k ∉ F i) :
    ∃ W' h', addBlocks (wordAt n 0) more idx h = .ok ((), h') ∧ At o (pagesOf A) W' h' ∧
      Layout o A (Function.update F i (F i ++ (List.range' idx more).map (blockAddr n i))) W' ∧ SameHeaders A W W' := by
  induction more generalizing idx F W h with
  | zero =>
    refine ⟨W, h, rfl, hat, ?_, fun _ _ _ _ _ => rfl⟩
    simpa using hl
  | succ more ih =>
    have hi := hl.arenas.size n i hn
    have hbound := hl.arenas.bound hn
    have hload := hat.loadWord (hl.reach_header hn (c := 0) (by omega))
    rw [(hl.small n i hn).1] at hload
    have hnot := hnew idx (le_refl _) (by omega)
    have hfind := hat.elemFind hl.arenas hi (hl.lists i hi) (e := blockAddr n i idx)
    rw [decide_eq_false hnot] at hfind
    obtain ⟨W₁, h₁, happend, hat₁, hlist₁, hlinks₁⟩ := hat.listAppend hl.arenas hi (hl.lists i hi)
      (isBlock_blockAddr hn (k := idx) (by omega)) hnot
    have hl₁ := hl.relink hi hlinks₁ hlist₁
    obtain ⟨W', h', hrun, hat', hl', hsame⟩ := ih hat₁ hl₁ (show idx + 1 + more ≤ perArena i by omega) (by
      intro k hk hk'
      rw [Function.update_self, List.mem_append, List.mem_singleton, not_or]
      refine ⟨hnew k (by omega) (by omega), ?_⟩
      intro heq
      have := blockAddr_inj hbound (by omega) (by omega) heq
      omega)
    refine ⟨W', h', ?_, hat', ?_, (hlinks₁.headers hl.arenas hi).trans hsame⟩
    · rw [Paging.addBlocks, bind_eq (hat.arena2block hl hn idx), bind_eq hload]
      rw [show freeListOf (o.desc i) = o.head i from rfl, bind_eq hfind, bind_eq (assertHeap_eq rfl h), bind_eq happend, hrun]
    · rw [Function.update_self, Function.update_idem, List.append_assoc] at hl'
      rw [List.range'_succ, List.map_cons]
      exact hl'

theorem filter_removed {l r : List Word} {e : Word} {bs : List Word} (hnodup : (l ++ e :: r).Nodup) :
    (l ++ r).filter (fun b => b ∉ bs) = (l ++ e :: r).filter (fun b => b ∉ e :: bs) := by
  have hout : ∀ x ∈ l ++ r, x ≠ e := by
    intro x hx
    rw [List.nodup_middle, List.nodup_cons] at hnodup
    rintro rfl
    exact hnodup.1 hx
  rw [List.filter_append, List.filter_append, List.filter_cons_of_neg (by simp)]
  congr 1
  · apply List.filter_congr
    intro x hx
    have := hout x (List.mem_append_left _ hx)
    simp [this]
  · apply List.filter_congr
    intro x hx
    have := hout x (List.mem_append_right _ hx)
    simp [this]

theorem At.removeBlocks (more : ℕ) {idx : ℕ} {F : ℕ → List Word} {W : Word → Word} {h : Heap} (hat : At o (pagesOf A) W h)
    (hl : Layout o A F W) (hn : A n = some (.small i)) (hidx : idx + more ≤ perArena i)
    (hall : ∀ k, idx ≤ k → k < idx + more → blockAddr n i k ∈ F i) :
    ∃ W' h', removeBlocks (wordAt n 0) more idx h = .ok ((), h') ∧ At o (pagesOf A) W' h' ∧
      Layout o A (Function.update F i ((F i).filter fun b => b ∉ (List.range' idx more).map (blockAddr n i))) W' ∧
      SameHeaders A W W' := by
  induction more generalizing idx F W h with
  | zero =>
    refine ⟨W, h, rfl, hat, ?_, fun _ _ _ _ _ => rfl⟩
    simpa using hl
  | succ more ih =>
    have hi := hl.arenas.size n i hn
    have hbound := hl.arenas.bound hn
    have hload := hat.loadWord (hl.reach_header hn (c := 0) (by omega))
    rw [(hl.small n i hn).1] at hload
    have hmem := hall idx (le_refl _) (by omega)
    have hfind := hat.elemFind hl.arenas hi (hl.lists i hi) (e := blockAddr n i idx)
    rw [decide_eq_true hmem] at hfind
    obtain ⟨l, r, hsplit⟩ := List.append_of_mem hmem
    have hlist := hl.lists i hi
    rw [hsplit] at hlist
    obtain ⟨W₁, h₁, hremove, hat₁, hlist₁, hlinks₁⟩ := hat.listRemove_block hl.arenas hi hlist
    have hl₁ := hl.relink hi hlinks₁ hlist₁
    obtain ⟨W', h', hrun, hat', hl', hsame⟩ := ih hat₁ hl₁ (show idx + 1 + more ≤ perArena i by omega) (by
      intro k hk hk'
      have hin := hall k (by omega) (by omega)
      rw [hsplit] at hin
      rw [Function.update_self]
      have hne : blockAddr n i k ≠ blockAddr n i idx := by
        intro heq
        have := blockAddr_inj hbound (by omega) (by omega) heq
        omega
      simpa [hne] using hin)
    refine ⟨W', h', ?_, hat', ?_, (hlinks₁.headers hl.arenas hi).trans hsame⟩
    · rw [Paging.removeBlocks, bind_eq (hat.arena2block hl hn idx), bind_eq hload]
      rw [show freeListOf (o.desc i) = o.head i from rfl, bind_eq hfind, bind_eq (assertHeap_eq rfl h), bind_eq hremove, hrun]
    · rw [Function.update_self, Function.update_idem, filter_removed hlist.nodup, ← hsplit] at hl'
      rw [List.range'_succ, List.map_cons]
      exact hl'

theorem At.takeBlock (hat : At o (pagesOf A) W h) (hl : Layout o A F W) (hi : i < 7) (hF : F i = b :: r) :
    ∃ W' h', takeBlock (o.desc i) h = .ok (b, h') ∧ At o (pagesOf A) W' h' ∧ Layout o A (Function.update F i r) W' ∧
      (∀ k, 4 * k < blockSize i → W' (b + BitVec.ofNat 32 (4 * k)) = 0) ∧
      W' (wordAt (b.toNat / 4096) 4) = W (wordAt (b.toNat / 4096) 4) - 1 ∧
      ∀ n kind, A n = some kind → n ≠ b.toNat / 4096 → W' (wordAt n 4) = W (wordAt n 4) := by
  have ha := hl.arenas
  have hlist := hl.lists i hi
  rw [hF] at hlist
  have hblock := hlist.blocks b (by simp)
  obtain ⟨hn, hlo, hhi, -⟩ := block_place ha hblock
  obtain ⟨W₁, h₁, hpop, hat₁, hlist₁, hlinks₁⟩ := hat.listPop ha hi hlist
  have hl₁ := hl.relink hi hlinks₁ hlist₁
  have hload := hat₁.loadWord (Layout.reach_desc o (pagesOf A) hi).1
  rw [(hl₁.sizes i hi).1] at hload
  have hword : ∀ k, k < blockSize i / 4 → (b + BitVec.ofNat 32 (4 * k)).toNat = b.toNat + 4 * k := by
    intro k hk
    have := b.isLt
    have := blockSize_le hi
    rw [BitVec.toNat_add, BitVec.toNat_ofNat]
    omega
  obtain ⟨W₂, h₂, hclear, hat₂, hzero, hsame₂⟩ := hat₁.clearWords (blockSize i / 4) (a := b) (by
    intro k hk
    right
    rw [hword k hk, show (b.toNat + 4 * k) / 4096 = b.toNat / 4096 by omega]
    exact block_page ha hblock)
  obtain ⟨hl₂, hhead₂⟩ := hl₁.fillBlock hblock (by
    rw [Function.update_self]
    exact (List.nodup_cons.mp hlist.nodup).1)
    (show ∀ a : Word, ¬ (b.toNat ≤ a.toNat ∧ a.toNat < b.toNat + blockSize i) → W₂ a = W₁ a by
    intro a hout
    apply hsame₂
    rintro k hk rfl
    apply hout
    rw [hword k hk]
    omega)
  have hhead := (hlinks₁.headers ha hi).trans hhead₂
  have hcnt := hat₂.loadWord (hl₂.reach_header hn (c := 4) (by omega))
  rw [hhead _ _ 4 hn (by omega)] at hcnt
  obtain ⟨h₃, hstore, hat₃⟩ := hat₂.storeWord (hl₂.reach_header hn (c := 4) (by omega)) (W (wordAt (b.toNat / 4096) 4) - 1)
  refine ⟨_, h₃, ?_, hat₃, hl₂.setCount hn _, ?_, Function.update_self _ _ _, ?_⟩
  · rw [Paging.takeBlock, show freeListOf (o.desc i) = o.head i from rfl, bind_eq hpop, bind_eq hload, toNat_blockSize hi,
      bind_eq hclear]
    have hfour : block2arena b + 4#32 = wordAt (b.toNat / 4096) 4 := by
      rw [block2arena_eq]
      exact wordAt_add _ 0 4
    rw [hfour, bind_eq hcnt, bind_eq hstore]
    rfl
  · intro k hk
    have hk' : k < blockSize i / 4 := by
      have := blockSize_mod i 1
      omega
    rw [Function.update_of_ne]
    · exact hzero k hk'
    · intro heq
      have hnat := congrArg BitVec.toNat heq
      rw [hword k hk', toNat_wordAt (ha.bound hn) (by omega)] at hnat
      omega
  · intro n kind hk hne
    rw [Function.update_of_ne, hhead n kind 4 hk (by omega)]
    intro heq
    have hnat := congrArg BitVec.toNat heq
    rw [toNat_wordAt (ha.bound hk) (by omega), toNat_wordAt (ha.bound hn) (by omega)] at hnat
    omega

end

end ElephantOS.Paging
