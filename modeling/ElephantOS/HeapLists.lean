import ElephantOS.HeapMemory

namespace ElephantOS.Paging

open HaltingState LinkedList

def blockSize (i : ℕ) : ℕ := 16 * 2 ^ i

def perArena (i : ℕ) : ℕ := (4096 - 12) / blockSize i

inductive Kind
  | small (i : ℕ)
  | large (cnt : ℕ)

def Kind.pages : Kind → ℕ
  | .small _ => 1
  | .large cnt => cnt

def pagesOf (A : ℕ → Option Kind) (k : ℕ) : Prop := ∃ n kind, A n = some kind ∧ n ≤ k ∧ k < n + kind.pages

def wordAt (n c : ℕ) : Word := BitVec.ofNat 32 (n * 4096 + c)

def blockAddr (n i idx : ℕ) : Word := wordAt n (12 + idx * blockSize i)

structure Arenas (o : Owner) (A : ℕ → Option Kind) : Prop where
  pages : ∀ n kind, A n = some kind → 0 < kind.pages ∧ 0 < n ∧ n + kind.pages ≤ 0xffc00
  disjoint : ∀ n n' kind kind', A n = some kind → A n' = some kind' → n ≠ n' →
    n + kind.pages ≤ n' ∨ n' + kind'.pages ≤ n
  size : ∀ n i, A n = some (.small i) → i < 7
  apart : ∀ a : Word, pagesOf A (a.toNat / 4096) → ¬ o.Desc a

def IsBlock (A : ℕ → Option Kind) (i : ℕ) (b : Word) : Prop :=
  ∃ n idx, A n = some (.small i) ∧ idx < perArena i ∧ b = blockAddr n i idx

def links : Fields Word := ⟨fun x => x + 4#32, fun x => x⟩

namespace Owner

def desc (o : Owner) (i : ℕ) : Word := descAddr o.descs i

def head (o : Owner) (i : ℕ) : Word := freeListOf (o.desc i)

def tail (o : Owner) (i : ℕ) : Word := freeListOf (o.desc i) + 8#32

def Node (o : Owner) (A : ℕ → Option Kind) (i : ℕ) (x : Word) : Prop := x = o.head i ∨ x = o.tail i ∨ IsBlock A i x

def nodes (o : Owner) (i : ℕ) (bs : List Word) : List Word := o.head i :: bs ++ [o.tail i]

end Owner

theorem blockSize_pos (i : ℕ) : 0 < blockSize i := by
  unfold blockSize
  positivity

theorem blocks_fit (i : ℕ) {idx : ℕ} (h : idx < perArena i) : 12 + idx * blockSize i + blockSize i ≤ 4096 := by
  have hle := Nat.div_mul_le_self (4096 - 12) (blockSize i)
  have hmul : (idx + 1) * blockSize i ≤ perArena i * blockSize i := Nat.mul_le_mul_right _ h
  rw [add_mul, one_mul] at hmul
  unfold perArena at hmul
  omega

theorem blockSize_mod (i k : ℕ) : k * blockSize i % 16 = 0 := by
  unfold blockSize
  rw [mul_comm k, mul_assoc, Nat.mul_mod_right]

theorem toNat_wordAt {n c : ℕ} (hn : n < 0xffc00) (hc : c < 4096) : (wordAt n c).toNat = n * 4096 + c := by
  rw [wordAt, BitVec.toNat_ofNat]
  omega

section

variable {o : Owner} {A : ℕ → Option Kind} {i j : ℕ} {b x y : Word}

theorem Arenas.bound (ha : Arenas o A) {n : ℕ} {kind : Kind} (h : A n = some kind) : n < 0xffc00 := by
  have := ha.pages n kind h
  omega

theorem toNat_blockAddr {n i idx : ℕ} (hn : n < 0xffc00) (hidx : idx < perArena i) :
    (blockAddr n i idx).toNat = n * 4096 + (12 + idx * blockSize i) := by
  have hfit := blocks_fit i hidx
  have hpos := blockSize_pos i
  exact toNat_wordAt hn (by omega)

theorem block_place (ha : Arenas o A) (hb : IsBlock A i b) : A (b.toNat / 4096) = some (.small i) ∧
    12 ≤ b.toNat % 4096 ∧ b.toNat % 4096 + blockSize i ≤ 4096 ∧ b.toNat % 16 = 12 := by
  obtain ⟨n, idx, hn, hidx, rfl⟩ := hb
  have hfit := blocks_fit i hidx
  have hpos := blockSize_pos i
  have hmod := blockSize_mod i idx
  rw [toNat_blockAddr (ha.bound hn) hidx]
  rw [show (n * 4096 + (12 + idx * blockSize i)) / 4096 = n by omega]
  exact ⟨hn, by omega, by omega, by omega⟩

theorem block_page (ha : Arenas o A) (hb : IsBlock A i b) : pagesOf A (b.toNat / 4096) := by
  have hn := (block_place ha hb).1
  exact ⟨_, _, hn, le_refl _, by simp [Kind.pages]⟩

theorem sixteen_le_blockSize (i : ℕ) : 16 ≤ blockSize i := by
  have : 0 < 2 ^ i := by positivity
  unfold blockSize
  omega

theorem toNat_desc (o : Owner) (hi : i < 7) : (o.desc i).toNat = o.descs.toNat + 24 * i := by
  have hfits := o.fits
  simp only [descBytes] at hfits
  rw [Owner.desc, descAddr, BitVec.toNat_add, BitVec.toNat_ofNat]
  omega

theorem toNat_head (o : Owner) (hi : i < 7) : (o.head i).toNat = o.descs.toNat + 24 * i + 8 := by
  have hfits := o.fits
  simp only [descBytes] at hfits
  rw [Owner.head, freeListOf, BitVec.toNat_add, toNat_desc o hi, BitVec.toNat_ofNat]
  omega

theorem toNat_tail (o : Owner) (hi : i < 7) : (o.tail i).toNat = o.descs.toNat + 24 * i + 16 := by
  have hfits := o.fits
  simp only [descBytes] at hfits
  have hhead := toNat_head o hi
  rw [Owner.tail, BitVec.toNat_add, ← Owner.head, hhead, BitVec.toNat_ofNat]
  omega

theorem node_place (ha : Arenas o A) (hi : i < 7) (hx : o.Node A i x) :
    (x.toNat = o.descs.toNat + 24 * i + 8 ∨ x.toNat = o.descs.toNat + 24 * i + 16) ∧ o.Desc x ∧ o.Desc (x + 4#32) ∧
        (x + 4#32).toNat = x.toNat + 4 ∨
      A (x.toNat / 4096) = some (.small i) ∧ 12 ≤ x.toNat % 4096 ∧ x.toNat % 4096 + 16 ≤ 4096 ∧ x.toNat % 16 = 12 ∧
        (x + 4#32).toNat = x.toNat + 4 := by
  have hfits := o.fits
  simp only [descBytes] at hfits
  have hnext : x.toNat + 4 < 2 ^ 32 → (x + 4#32).toNat = x.toNat + 4 := by
    intro hlt
    rw [BitVec.toNat_add, BitVec.toNat_ofNat]
    exact Nat.mod_eq_of_lt hlt
  rcases hx with rfl | rfl | hb
  · left
    have hnat := toNat_head o hi
    have hnext := hnext (by omega)
    rw [Owner.Desc, Owner.Desc, hnext, hnat, descBytes]
    omega
  · left
    have hnat := toNat_tail o hi
    have hnext := hnext (by omega)
    rw [Owner.Desc, Owner.Desc, hnext, hnat, descBytes]
    omega
  · right
    obtain ⟨hn, hlo, hhi, hmod⟩ := block_place ha hb
    have hsize := sixteen_le_blockSize i
    have hlt := x.isLt
    exact ⟨hn, hlo, by omega, hmod, hnext (by omega)⟩

theorem node_reach (ha : Arenas o A) (hi : i < 7) (hx : o.Node A i x) :
    o.Reach (pagesOf A) x ∧ o.Reach (pagesOf A) (x + 4#32) := by
  rcases node_place ha hi hx with ⟨-, hd, hd', -⟩ | ⟨hn, hlo, hhi, -, hnext⟩
  · exact ⟨Or.inl hd, Or.inl hd'⟩
  · refine ⟨Or.inr ⟨_, _, hn, le_refl _, by simp [Kind.pages]⟩, Or.inr ⟨_, _, hn, ?_, ?_⟩⟩
    · omega
    · simp only [Kind.pages]
      omega

theorem node_cross (ha : Arenas o A) (hi : i < 7) (hj : j < 7) (hx : o.Node A i x) (hy : o.Node A j y) : x + 4#32 ≠ y := by
  rintro rfl
  rcases node_place ha hi hx with ⟨hpos, -, hd', hnext⟩ | ⟨hn, hlo, hhi, hmod, hnext⟩
  · rcases node_place ha hj hy with ⟨hpos', -⟩ | ⟨hn', -⟩
    · omega
    · exact ha.apart _ ⟨_, _, hn', le_refl _, by simp [Kind.pages]⟩ hd'
  · rcases node_place ha hj hy with ⟨-, hd, -⟩ | ⟨-, -, -, hmod', -⟩
    · refine ha.apart _ ⟨_, _, hn, ?_, ?_⟩ hd
      · omega
      · simp only [Kind.pages]
        omega
    · omega

theorem node_ne (ha : Arenas o A) (hi : i < 7) (hj : j < 7) (hij : i ≠ j) (hx : o.Node A i x) (hy : o.Node A j y) : x ≠ y := by
  rintro rfl
  rcases node_place ha hi hx with ⟨hpos, hd, -⟩ | ⟨hn, -⟩
  · rcases node_place ha hj hy with ⟨hpos', -⟩ | ⟨hn', -⟩
    · omega
    · exact ha.apart _ ⟨_, _, hn', le_refl _, by simp [Kind.pages]⟩ hd
  · rcases node_place ha hj hy with ⟨-, hd, -⟩ | ⟨hn', -⟩
    · exact ha.apart _ ⟨_, _, hn, le_refl _, by simp [Kind.pages]⟩ hd
    · rw [hn, Option.some.injEq, Kind.small.injEq] at hn'
      exact hij hn'

theorem separate_nodes (ha : Arenas o A) (hi : i < 7) {l : List Word} (hl : ∀ x ∈ l, o.Node A i x) : links.Separate l :=
  ⟨fun x _ y _ h => by simpa [links] using h, fun x _ y _ h => h,
    fun x hx y hy => node_cross ha hi hi (hl x hx) (hl y hy)⟩

theorem mem_nodes {bs : List Word} (hbs : ∀ b ∈ bs, IsBlock A i b) (hx : x ∈ o.nodes i bs) : o.Node A i x := by
  simp only [Owner.nodes, List.cons_append, List.mem_cons, List.mem_append, List.not_mem_nil, or_false] at hx
  rcases hx with h | h | h
  · exact Or.inl h
  · exact Or.inr (Or.inr (hbs x h))
  · exact Or.inr (Or.inl h)

theorem nodup_nodes (ha : Arenas o A) (hi : i < 7) {bs : List Word} (hbs : ∀ b ∈ bs, IsBlock A i b) (hnodup : bs.Nodup) :
    (o.nodes i bs).Nodup := by
  have hends : o.head i ≠ o.tail i := by
    intro heq
    have := congrArg BitVec.toNat heq
    rw [toNat_head o hi, toNat_tail o hi] at this
    omega
  have hout : ∀ b ∈ bs, b ≠ o.head i ∧ b ≠ o.tail i := by
    intro b hb
    have hpage := block_page ha (hbs b hb)
    constructor
    · rintro rfl
      refine ha.apart _ hpage ?_
      rw [Owner.Desc, toNat_head o hi, descBytes]
      omega
    · rintro rfl
      refine ha.apart _ hpage ?_
      rw [Owner.Desc, toNat_tail o hi, descBytes]
      omega
  simp only [Owner.nodes, List.cons_append, List.nodup_cons, List.mem_append, List.mem_singleton, not_or, List.nodup_append,
    List.nodup_nil, List.not_mem_nil, not_false_eq_true, and_true, true_and]
  refine ⟨⟨fun h => (hout _ h).1 rfl, hends⟩, hnodup, ?_⟩
  intro b hb c hc heq
  exact (hout b hb).2 (heq.trans hc)

end

structure FreeList (o : Owner) (A : ℕ → Option Kind) (W : Word → Word) (i : ℕ) (bs : List Word) : Prop where
  chain : links.Chain W (o.nodes i bs)
  nodup : bs.Nodup
  blocks : ∀ b ∈ bs, IsBlock A i b

def LinksOnly (o : Owner) (A : ℕ → Option Kind) (i : ℕ) (W W' : Word → Word) : Prop :=
  ∀ a, (∀ x, o.Node A i x → a ≠ x ∧ a ≠ x + 4#32) → W' a = W a

section

variable {o : Owner} {P : ℕ → Prop} {A : ℕ → Option Kind} {W : Word → Word} {h : Heap} {i : ℕ} {bs l r : List Word}
  {b e before : Word}

theorem At.listInsertBefore (hat : At o P W h) (hb : o.Reach P before) (hp : o.Reach P (W before + 4#32))
    (he : o.Reach P e) (he' : o.Reach P (e + 4#32)) :
    ∃ h', listInsertBefore before e h = .ok ((), h') ∧ At o P (links.insertBefore W before e) h' := by
  obtain ⟨h₁, hs₁, hat₁⟩ := hat.storeWord hp e
  obtain ⟨h₂, hs₂, hat₂⟩ := hat₁.storeWord he (Function.update W (W before + 4#32) e before)
  obtain ⟨h₃, hs₃, hat₃⟩ := hat₂.storeWord he' before
  obtain ⟨h₄, hs₄, hat₄⟩ := hat₃.storeWord hb e
  refine ⟨h₄, ?_, hat₄⟩
  rw [Paging.listInsertBefore, bind_eq (hat.loadWord hb), bind_eq hs₁, bind_eq (hat₁.loadWord hb), bind_eq hs₂, bind_eq hs₃,
    hs₄]

theorem At.listRemove (hat : At o P W h) (he : o.Reach P e) (he' : o.Reach P (e + 4#32)) (hp : o.Reach P (W e + 4#32))
    (hn : o.Reach P (Function.update W (W e + 4#32) (W (e + 4#32)) (e + 4#32))) :
    ∃ h', listRemove e h = .ok ((), h') ∧ At o P (links.remove W e) h' := by
  obtain ⟨h₁, hs₁, hat₁⟩ := hat.storeWord hp (W (e + 4#32))
  obtain ⟨h₂, hs₂, hat₂⟩ := hat₁.storeWord hn (Function.update W (W e + 4#32) (W (e + 4#32)) e)
  refine ⟨h₂, ?_, hat₂⟩
  rw [Paging.listRemove, bind_eq (hat.loadWord he), bind_eq (hat.loadWord he'), bind_eq hs₁, bind_eq (hat₁.loadWord he'),
    bind_eq (hat₁.loadWord he), hs₂]

theorem linksOnly_outside {l : List Word} {W' : Word → Word} (hl : ∀ x ∈ l, o.Node A i x)
    (h : ∀ a, links.Outside l a → W' a = W a) : LinksOnly o A i W W' := by
  intro a ha
  apply h
  intro x hx
  exact ⟨(ha x (hl x hx)).2, (ha x (hl x hx)).1⟩

theorem At.listAppend (hat : At o (pagesOf A) W h) (ha : Arenas o A) (hi : i < 7) (hl : FreeList o A W i bs)
    (he : IsBlock A i e) (hnew : e ∉ bs) :
    ∃ W' h', listAppend (o.head i) e h = .ok ((), h') ∧ At o (pagesOf A) W' h' ∧ FreeList o A W' i (bs ++ [e]) ∧
      LinksOnly o A i W W' := by
  have hblocks : ∀ b ∈ bs ++ [e], IsBlock A i b := by
    intro b hb
    rcases List.mem_append.mp hb with hb | hb
    · exact hl.blocks b hb
    · rw [List.mem_singleton.mp hb]
      exact he
  have hnodup : (bs ++ [e]).Nodup := by
    apply List.nodup_append.mpr
    refine ⟨hl.nodup, List.nodup_singleton e, ?_⟩
    rintro b hb c hc rfl
    rw [List.mem_singleton.mp hc] at hb
    exact hnew hb
  -- the predecessor of the tail is the last node before it
  obtain ⟨q, p, hq⟩ : ∃ q p, o.head i :: bs = q ++ [p] := ⟨_, _, (List.dropLast_append_getLast (by simp)).symm⟩
  have hnodes : o.nodes i bs = q ++ [p] ++ [o.tail i] := by rw [Owner.nodes, hq]
  have hnodes' : o.nodes i (bs ++ [e]) = q ++ [p] ++ [e, o.tail i] := by
    rw [Owner.nodes, ← List.cons_append, hq]
    simp
  have hmem : ∀ x ∈ q ++ [p] ++ [e, o.tail i], o.Node A i x := by
    rw [← hnodes']
    exact fun x hx => mem_nodes hblocks hx
  have hchain := hl.chain
  rw [hnodes] at hchain
  have htail : W (o.tail i) = p := hchain.cut.2.1.2
  have hsep := separate_nodes ha hi hmem
  have hp := node_reach ha hi (hmem p (by simp))
  have ht := node_reach ha hi (hmem (o.tail i) (by simp))
  have he' := node_reach ha hi (hmem e (by simp))
  obtain ⟨h', hrun, hat'⟩ := hat.listInsertBefore ht.1 (by rw [htail]; exact hp.2) he'.1 he'.2
  refine ⟨_, h', hrun, hat', ⟨?_, hnodup, hblocks⟩, linksOnly_outside hmem ?_⟩
  · rw [hnodes']
    apply hchain.insertBefore hsep
    rw [← hnodes']
    exact nodup_nodes ha hi hblocks hnodup
  · intro a hout
    exact Fields.insertBefore_outside htail (by simp) (by simp) (by simp) hout

theorem At.listRemove_block (hat : At o (pagesOf A) W h) (ha : Arenas o A) (hi : i < 7) (hl : FreeList o A W i (l ++ e :: r)) :
    ∃ W' h', Paging.listRemove e h = .ok ((), h') ∧ At o (pagesOf A) W' h' ∧ FreeList o A W' i (l ++ r) ∧
      LinksOnly o A i W W' := by
  obtain ⟨q, x, hq⟩ : ∃ q x, o.head i :: l = q ++ [x] := ⟨_, _, (List.dropLast_append_getLast (by simp)).symm⟩
  obtain ⟨y, s, hs⟩ : ∃ y s, r ++ [o.tail i] = y :: s := by
    cases r with
    | nil => exact ⟨_, _, rfl⟩
    | cons y r => exact ⟨y, r ++ [o.tail i], rfl⟩
  have hnodes : o.nodes i (l ++ e :: r) = q ++ [x] ++ e :: y :: s := by
    rw [Owner.nodes, ← List.cons_append, hq, List.append_assoc, List.cons_append, hs]
  have hnodes' : o.nodes i (l ++ r) = q ++ [x] ++ y :: s := by
    rw [Owner.nodes, ← List.cons_append, hq, List.append_assoc, hs]
  have hmem : ∀ z ∈ q ++ [x] ++ e :: y :: s, o.Node A i z := by
    rw [← hnodes]
    exact fun z hz => mem_nodes hl.blocks hz
  have hchain := hl.chain
  rw [hnodes] at hchain
  have hnodup := nodup_nodes ha hi hl.blocks hl.nodup
  rw [hnodes] at hnodup
  have hprev : W e = x := hchain.cut.2.1.2
  have hnext : W (e + 4#32) = y := (List.isChain_cons_cons.mp hchain.cut.2.2).1.1
  have hsep := separate_nodes ha hi hmem
  have hex : e ≠ x := ((List.nodup_append.mp hnodup).2.2 x (by simp) e (by simp)).symm
  have hne : e + 4#32 ≠ x + 4#32 := fun heq => hex (hsep.next e (by simp) x (by simp) heq)
  have hx := node_reach ha hi (hmem x (by simp))
  have hy := node_reach ha hi (hmem y (by simp))
  have he := node_reach ha hi (hmem e (by simp))
  obtain ⟨h', hrun, hat'⟩ := hat.listRemove he.1 he.2 (by rw [hprev]; exact hx.2) (by
    rw [hprev, Function.update_of_ne hne, hnext]
    exact hy.1)
  have hsub : ∀ b ∈ l ++ r, b ∈ l ++ e :: r := by
    intro b hb
    rcases List.mem_append.mp hb with hb | hb
    · exact List.mem_append_left _ hb
    · exact List.mem_append_right _ (List.mem_cons_of_mem _ hb)
  refine ⟨_, h', hrun, hat', ⟨?_, ?_, fun b hb => hl.blocks b (hsub b hb)⟩, linksOnly_outside hmem ?_⟩
  · rw [hnodes']
    exact hchain.remove hsep hnodup
  · exact hl.nodup.sublist (List.Sublist.append (List.Sublist.refl l) (List.sublist_cons_self e r))
  · intro a hout
    exact Fields.remove_outside hsep hprev hnext hex (by simp) (by simp) (by simp) hout

theorem FreeList.first (hl : FreeList o A W i bs) : W (o.head i + 4#32) = bs.headD (o.tail i) := Fields.Chain.first hl.chain

theorem At.listPop (hat : At o (pagesOf A) W h) (ha : Arenas o A) (hi : i < 7) (hl : FreeList o A W i (e :: r)) :
    ∃ W' h', listPop (o.head i) h = .ok (e, h') ∧ At o (pagesOf A) W' h' ∧ FreeList o A W' i r ∧ LinksOnly o A i W W' := by
  have hhead := node_reach ha hi (x := o.head i) (Or.inl rfl)
  have hfirst : W (o.head i + 4#32) = e := hl.first
  obtain ⟨W', h', hrun, hat', hl', hout⟩ := hat.listRemove_block ha hi (l := []) hl
  refine ⟨W', h', ?_, hat', hl', hout⟩
  rw [Paging.listPop, bind_eq (hat.loadWord hhead.2), hfirst, bind_eq hrun]
  rfl

theorem At.listEmpty (hat : At o (pagesOf A) W h) (ha : Arenas o A) (hi : i < 7) (hl : FreeList o A W i bs) :
    listEmpty (o.head i) h = .ok (decide (bs = []), h) := by
  have hhead := node_reach ha hi (x := o.head i) (Or.inl rfl)
  rw [Paging.listEmpty, bind_eq (hat.loadWord hhead.2), hl.first]
  have hiff : (bs.headD (o.tail i) = o.head i + 8#32) ↔ bs = [] := by
    cases bs with
    | nil => simp [Owner.tail, Owner.head]
    | cons b bs =>
      have hnodup := nodup_nodes ha hi hl.blocks hl.nodup
      simp only [Owner.nodes, List.cons_append, List.nodup_cons, List.mem_append, List.mem_singleton, not_or] at hnodup
      simp only [List.headD_cons, reduceCtorEq, iff_false]
      exact hnodup.2.1.2
  simp only [hiff]
  rfl

theorem words_length {l : List Word} (h : l.Nodup) : l.length ≤ 2 ^ 32 := by
  have hmap : (l.map BitVec.toNat).Nodup := h.map fun x y => BitVec.eq_of_toNat_eq
  have hsub : (l.map BitVec.toNat).toFinset ⊆ Finset.range (2 ^ 32) := by
    intro n hn
    obtain ⟨x, -, rfl⟩ := List.mem_map.mp (List.mem_toFinset.mp hn)
    exact Finset.mem_range.mpr x.isLt
  have hcard := Finset.card_le_card hsub
  rwa [List.toFinset_card_of_nodup hmap, List.length_map, Finset.card_range] at hcard

theorem At.elemFindFrom (hat : At o (pagesOf A) W h) (ha : Arenas o A) (hi : i < 7) (fuel : ℕ) {bs : List Word}
    (hbs : ∀ b ∈ bs, IsBlock A i b) (hchain : links.Chain W (bs ++ [o.tail i])) (hnot : o.tail i ∉ bs)
    (hfuel : bs.length < fuel) :
    elemFindFrom (o.tail i) e fuel (bs.headD (o.tail i)) h = .ok (decide (e ∈ bs), h) := by
  induction fuel generalizing bs with
  | zero => omega
  | succ fuel ih =>
    cases bs with
    | nil =>
      rw [Paging.elemFindFrom, List.headD_nil, if_pos rfl]
      simp
    | cons b bs =>
      have hb : b ≠ o.tail i := by
        rintro rfl
        exact hnot (by simp)
      rw [Paging.elemFindFrom, List.headD_cons, if_neg hb]
      by_cases hbe : b = e
      · simp only [hbe, if_true]
        simp
      · have hnode := node_reach ha hi (x := b) (Or.inr (Or.inr (hbs b (by simp))))
        have hnext : W (b + 4#32) = bs.headD (o.tail i) := Fields.Chain.first hchain
        simp only [hbe, if_false]
        rw [bind_eq (hat.loadWord hnode.2), hnext]
        rw [ih (fun c hc => hbs c (by simp [hc])) (List.IsChain.of_cons hchain)
          (fun hc => hnot (by simp [hc])) (by simpa using hfuel)]
        simp [Ne.symm hbe]

theorem At.elemFind (hat : At o (pagesOf A) W h) (ha : Arenas o A) (hi : i < 7) (hl : FreeList o A W i bs) :
    elemFind (o.head i) e h = .ok (decide (e ∈ bs), h) := by
  have hhead := node_reach ha hi (x := o.head i) (Or.inl rfl)
  have hnodup := nodup_nodes ha hi hl.blocks hl.nodup
  have hlen := words_length hnodup
  simp only [Owner.nodes, List.cons_append, List.length_cons, List.length_append, List.length_nil] at hlen
  simp only [Owner.nodes, List.cons_append, List.nodup_cons, List.nodup_append, List.mem_singleton] at hnodup
  rw [Paging.elemFind, bind_eq (hat.loadWord hhead.2), hl.first]
  apply hat.elemFindFrom ha hi _ hl.blocks (List.IsChain.of_cons hl.chain)
  · intro hmem
    exact hnodup.2.2.2 _ hmem _ rfl rfl
  · omega

end

end ElephantOS.Paging
