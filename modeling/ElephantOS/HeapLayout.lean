import ElephantOS.HeapLists

namespace ElephantOS.Paging

open HaltingState LinkedList

/-- The words `W` describe the arenas `A` and the free blocks `F i` of every size. -/
structure Layout (o : Owner) (A : ℕ → Option Kind) (F : ℕ → List Word) (W : Word → Word) : Prop where
  arenas : Arenas o A
  sizes : ∀ i, i < 7 → W (o.desc i) = BitVec.ofNat 32 (blockSize i) ∧ W (o.desc i + 4#32) = BitVec.ofNat 32 (perArena i)
  lists : ∀ i, i < 7 → FreeList o A W i (F i)
  small : ∀ n i, A n = some (.small i) → W (wordAt n 0) = o.desc i ∧ W (wordAt n 8) = 0
  large : ∀ n cnt, A n = some (.large cnt) →
    W (wordAt n 0) = 0 ∧ W (wordAt n 4) = BitVec.ofNat 32 cnt ∧ W (wordAt n 8) = 1

def SameHeaders (A : ℕ → Option Kind) (W W' : Word → Word) : Prop :=
  ∀ n kind c, A n = some kind → c < 12 → W' (wordAt n c) = W (wordAt n c)

section

variable {o : Owner} {A : ℕ → Option Kind} {F : ℕ → List Word} {W W' : Word → Word} {i j n c : ℕ} {kind : Kind} {b x y : Word}

theorem header_place (ha : Arenas o A) (hn : A n = some kind) (hc : c < 4096) :
    (wordAt n c).toNat / 4096 = n ∧ (wordAt n c).toNat % 4096 = c ∧ pagesOf A ((wordAt n c).toNat / 4096) := by
  have hnat := toNat_wordAt (ha.bound hn) hc
  have hpage : (wordAt n c).toNat / 4096 = n := by omega
  refine ⟨hpage, by omega, ?_⟩
  rw [hpage]
  exact ⟨n, kind, hn, le_refl n, by have := ha.pages n kind hn; omega⟩

theorem header_not_desc (ha : Arenas o A) (hn : A n = some kind) (hc : c < 4096) : ¬ o.Desc (wordAt n c) :=
  ha.apart _ (header_place ha hn hc).2.2

theorem header_outside (ha : Arenas o A) (hn : A n = some kind) (hc : c < 12) (hi : i < 7) (hx : o.Node A i x) :
    wordAt n c ≠ x ∧ wordAt n c ≠ x + 4#32 := by
  obtain ⟨-, hmod, -⟩ := header_place ha hn (c := c) (by omega)
  have hdesc := header_not_desc ha hn (c := c) (by omega)
  rcases node_place ha hi hx with ⟨-, hd, hd', -⟩ | ⟨-, hlo, hhi, -, hnext⟩
  · constructor
    · rintro rfl
      exact hdesc hd
    · intro heq
      rw [heq] at hdesc
      exact hdesc hd'
  · constructor
    · rintro rfl
      omega
    · intro heq
      rw [heq, hnext] at hmod
      omega

theorem desc_place (o : Owner) (hi : i < 7) : o.Desc (o.desc i) ∧ o.Desc (o.desc i + 4#32) ∧
    (o.desc i).toNat = o.descs.toNat + 24 * i ∧ (o.desc i + 4#32).toNat = o.descs.toNat + 24 * i + 4 := by
  have hfits := o.fits
  have hnat := toNat_desc o hi
  simp only [descBytes] at hfits
  have hnext : (o.desc i + 4#32).toNat = o.descs.toNat + 24 * i + 4 := by
    rw [BitVec.toNat_add, BitVec.toNat_ofNat, hnat]
    exact Nat.mod_eq_of_lt (by omega)
  rw [Owner.Desc, Owner.Desc, hnat, hnext, descBytes]
  omega

theorem desc_outside (ha : Arenas o A) (hi : i < 7) (hj : j < 7) (hx : o.Node A i x) :
    (o.desc j ≠ x ∧ o.desc j ≠ x + 4#32) ∧ o.desc j + 4#32 ≠ x ∧ o.desc j + 4#32 ≠ x + 4#32 := by
  obtain ⟨hd, hd', hnat, hnat'⟩ := desc_place o hj
  rcases node_place ha hi hx with ⟨hpos, -, -, hnext⟩ | ⟨hn, hlo, hhi, -, hnext⟩
  · refine ⟨⟨?_, ?_⟩, ?_, ?_⟩ <;>
    · intro heq
      have := congrArg BitVec.toNat heq
      omega
  · have hpage : pagesOf A (x.toNat / 4096) := ⟨_, _, hn, le_refl _, by simp [Kind.pages]⟩
    have hpage' : pagesOf A ((x + 4#32).toNat / 4096) := by
      rw [hnext, show (x.toNat + 4) / 4096 = x.toNat / 4096 by omega]
      exact hpage
    refine ⟨⟨?_, ?_⟩, ?_, ?_⟩
    · rintro rfl
      exact ha.apart _ hpage hd
    · intro heq
      rw [← heq] at hpage'
      exact ha.apart _ hpage' hd
    · rintro rfl
      exact ha.apart _ hpage hd'
    · intro heq
      rw [← heq] at hpage'
      exact ha.apart _ hpage' hd'

theorem LinksOnly.headers (ha : Arenas o A) (hi : i < 7) (h : LinksOnly o A i W W') : SameHeaders A W W' :=
  fun _ _ _ hn hc => h _ fun _ hx => header_outside ha hn hc hi hx

theorem SameHeaders.trans {W'' : Word → Word} (h : SameHeaders A W W') (h' : SameHeaders A W' W'') : SameHeaders A W W'' :=
  fun n kind c hn hc => (h' n kind c hn hc).trans (h n kind c hn hc)

theorem Layout.relink (hl : Layout o A F W) (hi : i < 7) (h : LinksOnly o A i W W') {bs : List Word}
    (hbs : FreeList o A W' i bs) : Layout o A (Function.update F i bs) W' := by
  have ha := hl.arenas
  have hhead := h.headers ha hi
  refine ⟨ha, ?_, ?_, ?_, ?_⟩
  · intro j hj
    have hout := fun x hx => desc_outside ha hi hj (x := x) hx
    rw [h _ fun x hx => (hout x hx).1, h _ fun x hx => (hout x hx).2]
    exact hl.sizes j hj
  · intro j hj
    by_cases hij : j = i
    · subst hij
      rw [Function.update_self]
      exact hbs
    · rw [Function.update_of_ne hij]
      have hlist := hl.lists j hj
      refine ⟨hlist.chain.outside ?_, hlist.nodup, hlist.blocks⟩
      intro a hnot
      apply h
      intro x hx
      -- a link of the other list is no link of this one
      simp only [Fields.Outside, not_forall] at hnot
      obtain ⟨y, hy, hlink⟩ := hnot
      have hnode := mem_nodes hlist.blocks hy
      have hne := node_ne ha hj hi hij hnode hx
      rw [not_and_or, not_ne_iff, not_ne_iff] at hlink
      rcases hlink with rfl | rfl
      · refine ⟨node_cross ha hj hi hnode hx, ?_⟩
        intro heq
        exact hne (by simpa [links] using heq)
      · exact ⟨hne, (node_cross ha hi hj hx hnode).symm⟩
  · intro n k hn
    rw [hhead n _ 0 hn (by omega), hhead n _ 8 hn (by omega)]
    exact hl.small n k hn
  · intro n cnt hn
    rw [hhead n _ 0 hn (by omega), hhead n _ 4 hn (by omega), hhead n _ 8 hn (by omega)]
    exact hl.large n cnt hn

theorem Layout.frame (hl : Layout o A F W) (hhead : ∀ n kind c, A n = some kind → c = 0 ∨ c = 8 ∨ (c = 4 ∧ ∃ cnt, kind = .large cnt) →
      W' (wordAt n c) = W (wordAt n c)) (hdesc : ∀ a, o.Desc a → W' a = W a)
    (hfree : ∀ i b, i < 7 → b ∈ F i → W' b = W b ∧ W' (b + 4#32) = W (b + 4#32)) : Layout o A F W' := by
  have ha := hl.arenas
  refine ⟨ha, ?_, ?_, ?_, ?_⟩
  · intro j hj
    obtain ⟨hd, hd', -, -⟩ := desc_place o hj
    rw [hdesc _ hd, hdesc _ hd']
    exact hl.sizes j hj
  · intro j hj
    have hlist := hl.lists j hj
    have hnode : ∀ x ∈ o.nodes j (F j), W' x = W x ∧ W' (x + 4#32) = W (x + 4#32) := by
      intro x hx
      simp only [Owner.nodes, List.cons_append, List.mem_cons, List.mem_append, List.not_mem_nil, or_false] at hx
      have hend : o.Node A j x → x = o.head j ∨ x = o.tail j → W' x = W x ∧ W' (x + 4#32) = W (x + 4#32) := by
        intro hn hx
        rcases node_place ha hj hn with ⟨-, hd, hd', -⟩ | ⟨hn', -⟩
        · exact ⟨hdesc _ hd, hdesc _ hd'⟩
        · refine (ha.apart x ⟨_, _, hn', le_refl _, by simp [Kind.pages]⟩ ?_).elim
          have hd := toNat_head o hj
          have ht := toNat_tail o hj
          rw [Owner.Desc, descBytes]
          rcases hx with rfl | rfl <;> omega
      rcases hx with h | h | h
      · exact hend (Or.inl h) (Or.inl h)
      · exact hfree j x hj h
      · exact hend (Or.inr (Or.inl h)) (Or.inr h)
    refine ⟨hlist.chain.outside ?_, hlist.nodup, hlist.blocks⟩
    intro a hnot
    simp only [Fields.Outside, not_forall] at hnot
    obtain ⟨y, hy, hlink⟩ := hnot
    rw [not_and_or, not_ne_iff, not_ne_iff] at hlink
    rcases hlink with rfl | rfl
    · exact (hnode y hy).2
    · exact (hnode _ hy).1
  · intro n k hn
    rw [hhead n _ 0 hn (by simp), hhead n _ 8 hn (by simp)]
    exact hl.small n k hn
  · intro n cnt hn
    rw [hhead n _ 0 hn (by simp), hhead n _ 4 hn (by simp), hhead n _ 8 hn (by simp)]
    exact hl.large n cnt hn

theorem block_apart (ha : Arenas o A) (hb : IsBlock A i b) (hx : IsBlock A j x) (hne : b ≠ x) :
    b.toNat + blockSize i ≤ x.toNat ∨ x.toNat + blockSize j ≤ b.toNat := by
  obtain ⟨hn, hlo, hhi, -⟩ := block_place ha hb
  obtain ⟨hn', hlo', hhi', -⟩ := block_place ha hx
  by_cases hpage : b.toNat / 4096 = x.toNat / 4096
  · rw [hpage, hn', Option.some.injEq, Kind.small.injEq] at hn
    subst hn
    obtain ⟨p, k, hp, hk, rfl⟩ := hb
    obtain ⟨q, l, hq, hl, rfl⟩ := hx
    have hfit := blocks_fit j hk
    have hfit' := blocks_fit j hl
    have hpos := blockSize_pos j
    rw [toNat_blockAddr (ha.bound hp) hk, toNat_blockAddr (ha.bound hq) hl] at hpage ⊢
    have hpq : p = q := by omega
    subst hpq
    have hkl : k ≠ l := by
      rintro rfl
      exact hne rfl
    rcases Nat.lt_or_gt_of_ne hkl with hlt | hlt
    · have hmul : (k + 1) * blockSize j ≤ l * blockSize j := Nat.mul_le_mul_right _ hlt
      rw [add_mul, one_mul] at hmul
      omega
    · have hmul : (l + 1) * blockSize j ≤ k * blockSize j := Nat.mul_le_mul_right _ hlt
      rw [add_mul, one_mul] at hmul
      omega
  · omega

theorem Layout.fillBlock (hl : Layout o A F W) (hb : IsBlock A i b) (hfree : b ∉ F i)
    (h : ∀ a : Word, ¬ (b.toNat ≤ a.toNat ∧ a.toNat < b.toNat + blockSize i) → W' a = W a) :
    Layout o A F W' ∧ SameHeaders A W W' := by
  have ha := hl.arenas
  obtain ⟨hn, hlo, hhi, -⟩ := block_place ha hb
  have hpos := blockSize_pos i
  have hsame : SameHeaders A W W' := by
    intro n kind c hk hc
    obtain ⟨hpage, hmod, -⟩ := header_place ha hk (c := c) (by omega)
    apply h
    omega
  refine ⟨hl.frame ?_ ?_ ?_, hsame⟩
  · intro n kind c hk hc
    exact hsame n kind c hk (by omega)
  · intro a hd
    apply h
    rintro ⟨hle, hlt⟩
    refine ha.apart a ⟨_, _, hn, ?_, ?_⟩ hd
    · omega
    · simp only [Kind.pages]
      omega
  · intro j x hj hx
    have hblock := (hl.lists j hj).blocks x hx
    have hne : b ≠ x := by
      rintro rfl
      have hn' := (block_place ha hblock).1
      rw [hn, Option.some.injEq, Kind.small.injEq] at hn'
      subst hn'
      exact hfree hx
    have hapart := block_apart ha hb hblock hne
    have hnext := (node_place ha hj (Or.inr (Or.inr hblock)))
    have hsize := sixteen_le_blockSize j
    have hnat : (x + 4#32).toNat = x.toNat + 4 := by
      rcases hnext with ⟨-, -, -, hnext⟩ | ⟨-, -, -, -, hnext⟩
      · exact hnext
      · exact hnext
    constructor
    · apply h
      omega
    · apply h
      omega

theorem Layout.fillLarge (hl : Layout o A F W) {cnt : ℕ} (hn : A n = some (.large cnt))
    (h : ∀ a : Word, ¬ (n * 4096 + 12 ≤ a.toNat ∧ a.toNat < (n + cnt) * 4096) → W' a = W a) :
    Layout o A F W' ∧ SameHeaders A W W' := by
  have ha := hl.arenas
  have hother : ∀ n' kind', A n' = some kind' → n' ≠ n → n + cnt ≤ n' ∨ n' + kind'.pages ≤ n := by
    intro n' kind' hn' hne
    have := ha.disjoint n n' _ _ hn hn' hne.symm
    simp only [Kind.pages] at this
    exact this
  have hsame : SameHeaders A W W' := by
    intro n' kind' c hk hc
    have hnat := toNat_wordAt (ha.bound hk) (c := c) (by omega)
    apply h
    by_cases hne : n' = n
    · omega
    · have := hother n' kind' hk hne
      have := ha.pages n' kind' hk
      omega
  refine ⟨hl.frame ?_ ?_ ?_, hsame⟩
  · intro n' kind' c hk hc
    exact hsame n' kind' c hk (by omega)
  · intro a hd
    apply h
    rintro ⟨hle, hlt⟩
    refine ha.apart a ⟨_, _, hn, ?_, ?_⟩ hd
    · omega
    · simp only [Kind.pages]
      omega
  · intro j x hj hx
    have hblock := (hl.lists j hj).blocks x hx
    obtain ⟨hn', hlo, hhi, -⟩ := block_place ha hblock
    have hsize := sixteen_le_blockSize j
    have hne : x.toNat / 4096 ≠ n := by
      rintro rfl
      rw [hn] at hn'
      cases hn'
    have hpages := hother _ _ hn' hne
    simp only [Kind.pages] at hpages
    have hlt := x.isLt
    have hnat : (x + 4#32).toNat = x.toNat + 4 := by
      rw [BitVec.toNat_add, BitVec.toNat_ofNat]
      exact Nat.mod_eq_of_lt (by omega)
    constructor
    · apply h
      omega
    · apply h
      omega

theorem Layout.setCount (hl : Layout o A F W) (hn : A n = some (.small i)) (w : Word) :
    Layout o A F (Function.update W (wordAt n 4) w) := by
  have ha := hl.arenas
  apply hl.frame
  · intro n' kind' c hk hc
    apply Function.update_of_ne
    intro heq
    have hnat := toNat_wordAt (ha.bound hk) (c := c) (by omega)
    have hnat' := toNat_wordAt (ha.bound hn) (c := 4) (by omega)
    rw [heq] at hnat
    have hpage : n' = n := by omega
    subst hpage
    rcases hc with hc | hc | ⟨-, cnt, rfl⟩
    · omega
    · omega
    · rw [hn] at hk
      cases hk
  · intro a hd
    apply Function.update_of_ne
    rintro rfl
    exact header_not_desc ha hn (by omega) hd
  · intro j x hj hx
    have hblock := (hl.lists j hj).blocks x hx
    have hout := header_outside ha hn (c := 4) (by omega) hj (Or.inr (Or.inr hblock))
    exact ⟨Function.update_of_ne hout.1.symm _ _, Function.update_of_ne hout.2.symm _ _⟩

end

section

variable {o : Owner} {A : ℕ → Option Kind} {F : ℕ → List Word} {W W' : Word → Word} {i n : ℕ} {kind : Kind} {b : Word}

theorem pagesOf_add (hnone : A n = none) : pagesOf (Function.update A n (some kind)) = addPages (pagesOf A) n kind.pages := by
  funext k
  apply propext
  constructor
  · rintro ⟨n', kind', hn', hlo, hhi⟩
    by_cases hne : n' = n
    · subst hne
      rw [Function.update_self, Option.some.injEq] at hn'
      subst hn'
      exact Or.inr ⟨hlo, hhi⟩
    · rw [Function.update_of_ne hne] at hn'
      exact Or.inl ⟨n', kind', hn', hlo, hhi⟩
  · rintro (⟨n', kind', hn', hlo, hhi⟩ | ⟨hlo, hhi⟩)
    · refine ⟨n', kind', ?_, hlo, hhi⟩
      rw [Function.update_of_ne]
      · exact hn'
      · rintro rfl
        rw [hnone] at hn'
        cases hn'
    · exact ⟨n, kind, Function.update_self _ _ _, hlo, hhi⟩

theorem pagesOf_drop (ha : Arenas o A) (hn : A n = some kind) :
    pagesOf (Function.update A n none) = dropPages (pagesOf A) n kind.pages := by
  funext k
  apply propext
  constructor
  · rintro ⟨n', kind', hn', hlo, hhi⟩
    have hne : n' ≠ n := by
      rintro rfl
      rw [Function.update_self] at hn'
      cases hn'
    rw [Function.update_of_ne hne] at hn'
    refine ⟨⟨n', kind', hn', hlo, hhi⟩, ?_⟩
    have := ha.disjoint n n' _ _ hn hn' hne.symm
    omega
  · rintro ⟨⟨n', kind', hn', hlo, hhi⟩, hout⟩
    have hne : n' ≠ n := by
      rintro rfl
      rw [hn, Option.some.injEq] at hn'
      subst hn'
      exact hout ⟨hlo, hhi⟩
    exact ⟨n', kind', (Function.update_of_ne hne _ _).trans hn', hlo, hhi⟩

theorem isBlock_add (hnone : A n = none) (hb : IsBlock A i b) : IsBlock (Function.update A n (some kind)) i b := by
  obtain ⟨p, k, hp, hk, rfl⟩ := hb
  refine ⟨p, k, ?_, hk, rfl⟩
  rw [Function.update_of_ne]
  · exact hp
  · rintro rfl
    rw [hnone] at hp
    cases hp

theorem Layout.addArena (hl : Layout o A F W) (hpos : 0 < kind.pages) (hn : 0 < n) (hend : n + kind.pages ≤ 0xffc00)
    (hnot : ∀ k, n ≤ k → k < n + kind.pages → ¬ pagesOf A k)
    (hdesc : ∀ a : Word, n ≤ a.toNat / 4096 → a.toNat / 4096 < n + kind.pages → ¬ o.Desc a)
    (h : ∀ a : Word, ¬ (n ≤ a.toNat / 4096 ∧ a.toNat / 4096 < n + kind.pages) → W' a = W a)
    (hsmall : ∀ i, kind = .small i → i < 7 ∧ W' (wordAt n 0) = o.desc i ∧ W' (wordAt n 8) = 0)
    (hlarge : ∀ cnt, kind = .large cnt →
      W' (wordAt n 0) = 0 ∧ W' (wordAt n 4) = BitVec.ofNat 32 cnt ∧ W' (wordAt n 8) = 1) :
    A n = none ∧ SameHeaders A W W' ∧ Layout o (Function.update A n (some kind)) F W' := by
  have ha := hl.arenas
  have hnone : A n = none := by
    cases hA : A n with
    | none => rfl
    | some kind' =>
      exact absurd ⟨n, kind', hA, le_refl n, by have := ha.pages n kind' hA; omega⟩ (hnot n (le_refl n) (by omega))
  have hapart : ∀ n' kind', A n' = some kind' → n' ≠ n ∧ (n + kind.pages ≤ n' ∨ n' + kind'.pages ≤ n) := by
    intro n' kind' hn'
    have hpages := ha.pages n' kind' hn'
    constructor
    · rintro rfl
      rw [hnone] at hn'
      cases hn'
    · by_contra hover
      exact hnot (max n n') (by omega) (by omega) ⟨n', kind', hn', by omega, by omega⟩
  have hsame : SameHeaders A W W' := by
    intro n' kind' c hn' hc
    obtain ⟨hpage, -, -⟩ := header_place ha hn' (c := c) (by omega)
    have := hapart n' kind' hn'
    have := ha.pages n' kind' hn'
    apply h
    omega
  have ha' : Arenas o (Function.update A n (some kind)) := by
    refine ⟨?_, ?_, ?_, ?_⟩
    · intro n' kind' hn'
      by_cases hne : n' = n
      · subst hne
        rw [Function.update_self, Option.some.injEq] at hn'
        subst hn'
        exact ⟨hpos, hn, hend⟩
      · rw [Function.update_of_ne hne] at hn'
        exact ha.pages n' kind' hn'
    · intro p q kp kq hp hq hpq
      by_cases hpn : p = n
      · subst hpn
        rw [Function.update_self, Option.some.injEq] at hp
        rw [Function.update_of_ne hpq.symm] at hq
        subst hp
        exact (hapart q kq hq).2
      · rw [Function.update_of_ne hpn] at hp
        by_cases hqn : q = n
        · subst hqn
          rw [Function.update_self, Option.some.injEq] at hq
          subst hq
          exact (hapart p kp hp).2.symm
        · rw [Function.update_of_ne hqn] at hq
          exact ha.disjoint p q kp kq hp hq hpq
    · intro n' i hn'
      by_cases hne : n' = n
      · subst hne
        rw [Function.update_self, Option.some.injEq] at hn'
        exact (hsmall i hn').1
      · rw [Function.update_of_ne hne] at hn'
        exact ha.size n' i hn'
    · intro a hp
      rw [pagesOf_add hnone] at hp
      rcases hp with hp | hp
      · exact ha.apart a hp
      · exact hdesc a hp.1 hp.2
  have hold : Layout o A F W' := by
    apply hl.frame
    · intro n' kind' c hn' hc
      exact hsame n' kind' c hn' (by omega)
    · intro a hd
      apply h
      rintro ⟨hlo, hhi⟩
      exact hdesc a hlo hhi hd
    · intro j x hj hx
      have hblock := (hl.lists j hj).blocks x hx
      obtain ⟨hn', hlo, hhi, -⟩ := block_place ha hblock
      have hsize := sixteen_le_blockSize j
      have hpages := hapart _ _ hn'
      rw [show (Kind.small j).pages = 1 from rfl] at hpages
      have hlt := x.isLt
      have hnat : (x + 4#32).toNat = x.toNat + 4 := by
        rw [BitVec.toNat_add, BitVec.toNat_ofNat]
        exact Nat.mod_eq_of_lt (by omega)
      constructor
      · apply h
        omega
      · apply h
        omega
  refine ⟨hnone, hsame, ha', hold.sizes, ?_, ?_, ?_⟩
  · intro j hj
    have hlist := hold.lists j hj
    exact ⟨hlist.chain, hlist.nodup, fun x hx => isBlock_add hnone (hlist.blocks x hx)⟩
  · intro n' i hn'
    by_cases hne : n' = n
    · subst hne
      rw [Function.update_self, Option.some.injEq] at hn'
      exact (hsmall i hn').2
    · rw [Function.update_of_ne hne] at hn'
      exact hold.small n' i hn'
  · intro n' cnt hn'
    by_cases hne : n' = n
    · subst hne
      rw [Function.update_self, Option.some.injEq] at hn'
      exact hlarge cnt hn'
    · rw [Function.update_of_ne hne] at hn'
      exact hold.large n' cnt hn'

theorem Layout.dropArena (hl : Layout o A F W) (hout : ∀ j x, j < 7 → x ∈ F j → x.toNat / 4096 ≠ n) :
    Layout o (Function.update A n none) F W := by
  have ha := hl.arenas
  have hold : ∀ n' kind', Function.update A n none n' = some kind' → A n' = some kind' := by
    intro n' kind' hn'
    by_cases hne : n' = n
    · subst hne
      rw [Function.update_self] at hn'
      cases hn'
    · rwa [Function.update_of_ne hne] at hn'
  refine ⟨⟨?_, ?_, ?_, ?_⟩, hl.sizes, ?_, ?_, ?_⟩
  · exact fun n' kind' hn' => ha.pages n' kind' (hold n' kind' hn')
  · exact fun p q kp kq hp hq hpq => ha.disjoint p q kp kq (hold p kp hp) (hold q kq hq) hpq
  · exact fun n' i hn' => ha.size n' i (hold n' _ hn')
  · rintro a ⟨n', kind', hn', hlo, hhi⟩
    exact ha.apart a ⟨n', kind', hold n' kind' hn', hlo, hhi⟩
  · intro j hj
    have hlist := hl.lists j hj
    refine ⟨hlist.chain, hlist.nodup, ?_⟩
    intro x hx
    have hpage := hout j x hj hx
    have hblock := hlist.blocks x hx
    have hn' := (block_place ha hblock).1
    obtain ⟨p, k, hp, hk, rfl⟩ := hblock
    refine ⟨p, k, ?_, hk, rfl⟩
    rw [Function.update_of_ne]
    · exact hp
    · rintro rfl
      apply hpage
      rw [toNat_blockAddr (ha.bound hp) hk]
      have := blocks_fit j hk
      have := blockSize_pos j
      omega
  · exact fun n' i hn' => hl.small n' i (hold n' _ hn')
  · exact fun n' cnt hn' => hl.large n' cnt (hold n' _ hn')

end

end ElephantOS.Paging
