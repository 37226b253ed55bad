import ElephantOS.HeapBlocks

namespace ElephantOS.Paging

open HaltingState LinkedList

def smallEmpty (descs : Word) (size : ℕ) : HeapM Bool := do
  let descIdx ← descFor descs size 7 0
  listEmpty (freeListOf (descAddr descs descIdx))

/-- The pages `sys_malloc` asks `malloc_page` for: none when it refuses the size or has a free block. -/
def pagesFor (size : ℕ) : HeapM (Option ℕ) := do
  let h ← get
  if 0 < size ∧ size < (poolOf h.pool h.machine).poolSize then
    if 1024 < size then return some ((size + 12 + 4095) / 4096)
    else
      let empty ← smallEmpty h.descs size
      return if empty then some 1 else none
  else return none

/-- No page that `sys_malloc` takes is still cached with another frame than the one it gets. -/
def MallocUnstale (size : ℕ) (h : Heap) : Prop :=
  ∀ cnt, pagesFor size h = .ok (some cnt, h) → Unstale h.machine h.pool (vaddrOf h.pool h.machine).vaddrBitmap 0 cnt

theorem wordAt_inj {n c d : ℕ} (hn : n < 0xffc00) (hc : c < 4096) (hd : d < 4096) (h : wordAt n c = wordAt n d) : c = d := by
  have hnat := congrArg BitVec.toNat h
  rw [toNat_wordAt hn hc, toNat_wordAt hn hd] at hnat
  omega

theorem eq_wordAt {v : Word} (hv : v.toNat % 4096 = 0) : v = wordAt (v.toNat / 4096) 0 := by
  have := v.isLt
  apply BitVec.eq_of_toNat_eq
  rw [wordAt, BitVec.toNat_ofNat]
  omega

section

variable {o : Owner} {A : ℕ → Option Kind} {F : ℕ → List Word} {W : Word → Word} {h : Heap} {i n : ℕ}

theorem At.newHeader (hl : Layout o A F W) {cnt : ℕ} {W' : Word → Word} {h' : Heap} {kind : Kind} (hcnt : kind.pages = cnt)
    (hpos : 0 < cnt) (hnot : ∀ k, n ≤ k → k < n + cnt → ¬ pagesOf A k) (hat : At o (addPages (pagesOf A) n cnt) W' h')
    (hout : ∀ a : Word, ¬ (n ≤ a.toNat / 4096 ∧ a.toNat / 4096 < n + cnt) → W' a = W a)
    (hsmall : ∀ i, kind = .small i → i < 7 ∧ W' (wordAt n 0) = o.desc i ∧ W' (wordAt n 8) = 0)
    (hlarge : ∀ cnt, kind = .large cnt →
      W' (wordAt n 0) = 0 ∧ W' (wordAt n 4) = BitVec.ofNat 32 cnt ∧ W' (wordAt n 8) = 1) :
    A n = none ∧ SameHeaders A W W' ∧ Layout o (Function.update A n (some kind)) F W' ∧
      At o (pagesOf (Function.update A n (some kind))) W' h' := by
  subst hcnt
  have hfirst := hat.space.range (k := n) (Or.inr ⟨le_refl n, by omega⟩)
  have hlast := hat.space.range (k := n + kind.pages - 1) (Or.inr ⟨by omega, by omega⟩)
  have hbase : 0 < basePage o.pool := by
    cases o.pool with
    | kernel => simp [basePage]
    | user => simp [basePage]
  obtain ⟨hnone, hsame, hl'⟩ := hl.addArena hpos (by omega) (by omega) hnot
    (fun a hlo hhi => hat.space.not_desc (Or.inr ⟨hlo, hhi⟩)) hout hsmall hlarge
  refine ⟨hnone, hsame, hl', ?_⟩
  rw [pagesOf_add hnone]
  exact hat

theorem At.newPages (hat : At o (pagesOf A) W h) {cnt : ℕ} {r : Option Word} {h₁ : Heap}
    (hcached : Unstale h.machine o.pool (vaddrOf o.pool h.machine).vaddrBitmap 0 cnt) (hm : page (mallocPage o.pool cnt) h = .ok (r, h₁)) :
    (r = none ∧ h₁ = h) ∨ ∃ n h₂, r = some (wordAt n 0) ∧ 0 < cnt ∧ n + cnt ≤ 0xffc00 ∧
      (∀ k, n ≤ k → k < n + cnt → ¬ pagesOf A k) ∧ page (clearPages cnt (wordAt n 0)) h₁ = .ok ((), h₂) ∧
      At o (addPages (pagesOf A) n cnt) (zeroPages W n cnt) h₂ ∧
      (∀ c, c < 12 → o.Reach (addPages (pagesOf A) n cnt) (wordAt n c)) ∧
      ∀ a c, ¬ (n ≤ a.toNat / 4096 ∧ a.toNat / 4096 < n + cnt) → c < 12 → a ≠ wordAt n c := by
  rcases hat.alloc hcached hm with hnone | ⟨v, h₂, rfl, hv, hpos, hnot, hclear, hat₂⟩
  · exact Or.inl hnone
  · right
    have hvn := eq_wordAt hv
    have hlast := (hat₂.space.range (k := v.toNat / 4096 + cnt - 1) (Or.inr ⟨by omega, by omega⟩)).2.1
    generalize v.toNat / 4096 = n at hvn hnot hat₂ hlast
    subst hvn
    have hplace : ∀ c, c < 12 → (wordAt n c).toNat / 4096 = n := by
      intro c hc
      rw [toNat_wordAt (by omega) (by omega)]
      omega
    refine ⟨n, h₂, rfl, hpos, by omega, hnot, hclear, hat₂, ?_, ?_⟩
    · intro c hc
      right
      rw [hplace c hc]
      exact Or.inr ⟨le_refl n, by omega⟩
    · rintro a c hout hc rfl
      rw [hplace c hc] at hout
      omega

theorem At.newArena (hat : At o (pagesOf A) W h) (hl : Layout o A F W) (hi : i < 7)
    (hcached : Unstale h.machine o.pool (vaddrOf o.pool h.machine).vaddrBitmap 0 1) :
    (∃ e, newArena o.pool (o.desc i) h = .error e ∧ page (mallocPage o.pool 1) h = .error e) ∨ newArena o.pool (o.desc i) h = .ok (false, h) ∨
      ∃ n W' h', newArena o.pool (o.desc i) h = .ok (true, h') ∧ A n = none ∧
        At o (pagesOf (Function.update A n (some (.small i)))) W' h' ∧
        Layout o (Function.update A n (some (.small i)))
          (Function.update F i (F i ++ (List.range' 0 (perArena i)).map (blockAddr n i))) W' ∧
        W' (wordAt n 4) = BitVec.ofNat 32 (perArena i) ∧ SameHeaders A W W' := by
  cases hm : page (mallocPage o.pool 1) h with
  | error e => exact Or.inl ⟨e, bind_error hm _, rfl⟩
  | ok p =>
    obtain ⟨r, h₁⟩ := p
    right
    rw [Paging.newArena, bind_eq hm]
    rcases hat.newPages hcached hm with ⟨rfl, rfl⟩ | ⟨n, h₂, rfl, -, hend, hnot, hclear, hat₂, hreach, hother⟩
    · exact Or.inl rfl
    · right
      have hbound : n < 0xffc00 := by omega
      have hdesc : ∀ a, o.Desc a → ¬ (n ≤ a.toNat / 4096 ∧ a.toNat / 4096 < n + 1) :=
        fun a hd hin => hat₂.space.not_desc (Or.inr hin) hd
      obtain ⟨h₃, hs₃, hat₃⟩ := hat₂.storeWord (hreach 0 (by omega)) (o.desc i)
      obtain ⟨h₄, hs₄, hat₄⟩ := hat₃.storeWord (hreach 8 (by omega)) 0
      have hload := hat₄.loadWord (Layout.reach_desc o (addPages (pagesOf A) n 1) hi).2
      have hper : Function.update (Function.update (zeroPages W n 1) (wordAt n 0) (o.desc i)) (wordAt n 8) 0 (o.desc i + 4#32) =
          BitVec.ofNat 32 (perArena i) := by
        have hout := hdesc _ (desc_place o hi).2.1
        rw [Function.update_of_ne (hother _ 8 hout (by omega)), Function.update_of_ne (hother _ 0 hout (by omega)), zeroPages,
          if_neg hout]
        exact (hl.sizes i hi).2
      rw [hper] at hload
      obtain ⟨h₅, hs₅, hat₅⟩ := hat₄.storeWord (hreach 4 (by omega)) (BitVec.ofNat 32 (perArena i))
      have hne : ∀ c d, c < 12 → d < 12 → c ≠ d → wordAt n c ≠ wordAt n d :=
        fun c d hc hd hcd heq => hcd (wordAt_inj hbound (by omega) (by omega) heq)
      have hone : (Kind.small i).pages = 1 := rfl
      obtain ⟨hnone, hsame, hl₅, hat₅'⟩ := At.newHeader hl hone (by omega) hnot hat₅ (by
        intro a hout
        rw [Function.update_of_ne (hother a 4 hout (by omega)), Function.update_of_ne (hother a 8 hout (by omega)),
          Function.update_of_ne (hother a 0 hout (by omega)), zeroPages, if_neg hout]) (by
        intro j hj
        rw [Kind.small.injEq] at hj
        subst hj
        refine ⟨hi, ?_, ?_⟩
        · rw [Function.update_of_ne (hne 0 4 (by omega) (by omega) (by omega)),
            Function.update_of_ne (hne 0 8 (by omega) (by omega) (by omega)), Function.update_self]
        · rw [Function.update_of_ne (hne 8 4 (by omega) (by omega) (by omega)), Function.update_self]) (by
        intro cnt hc
        cases hc)
      obtain ⟨W', h', hrun, hat', hl', hsame'⟩ := hat₅'.addBlocks (perArena i) hl₅ (Function.update_self n _ A)
        (show 0 + perArena i ≤ perArena i by omega) (by
        intro k _ hk hmem
        obtain ⟨hA, -⟩ := block_place hl.arenas ((hl.lists i hi).blocks _ hmem)
        rw [blockAddr_page hbound (by omega), hnone] at hA
        cases hA)
      refine ⟨n, W', h', ?_, hnone, hat', hl', ?_, ?_⟩
      · dsimp only
        rw [bind_eq hclear, bind_eq hs₃]
        rw [show wordAt n 0 + 8#32 = wordAt n 8 from wordAt_add n 0 8, bind_eq hs₄, bind_eq hload]
        rw [show wordAt n 0 + 4#32 = wordAt n 4 from wordAt_add n 0 4, bind_eq hs₅, toNat_perArena, bind_eq hrun]
        rfl
      · rw [hsame' n _ 4 (Function.update_self n _ A) (by omega), Function.update_self]
      · intro n' kind' c hn' hc
        have hne' : n' ≠ n := by
          rintro rfl
          rw [hnone] at hn'
          cases hn'
        rw [hsame' n' kind' c ((Function.update_of_ne hne' _ _).trans hn') hc]
        exact hsame n' kind' c hn' hc

theorem At.mallocLarge (hat : At o (pagesOf A) W h) (hl : Layout o A F W) (size : ℕ)
    (hcached : Unstale h.machine o.pool (vaddrOf o.pool h.machine).vaddrBitmap 0 ((size + 12 + 4095) / 4096)) :
    (∃ e, mallocLarge o.pool size h = .error e ∧ page (mallocPage o.pool ((size + 12 + 4095) / 4096)) h = .error e) ∨
      mallocLarge o.pool size h = .ok (none, h) ∨
      ∃ n W' h', mallocLarge o.pool size h = .ok (some (wordAt n 12), h') ∧ A n = none ∧
        At o (pagesOf (Function.update A n (some (.large ((size + 12 + 4095) / 4096))))) W' h' ∧
        Layout o (Function.update A n (some (.large ((size + 12 + 4095) / 4096)))) F W' ∧
        (∀ a : Word, n * 4096 + 12 ≤ a.toNat → a.toNat < n * 4096 + 12 + size → W' a = 0) ∧ SameHeaders A W W' := by
  generalize hcnt : (size + 12 + 4095) / 4096 = cnt at hcached
  cases hm : page (mallocPage o.pool cnt) h with
  | error e =>
    refine Or.inl ⟨e, ?_, rfl⟩
    rw [Paging.mallocLarge, hcnt]
    exact bind_error hm _
  | ok p =>
    obtain ⟨r, h₁⟩ := p
    right
    rw [Paging.mallocLarge, hcnt, bind_eq hm]
    rcases hat.newPages hcached hm with ⟨rfl, rfl⟩ | ⟨n, h₂, rfl, hpos, hend, hnot, hclear, hat₂, hreach, hother⟩
    · exact Or.inl rfl
    · right
      have hbound : n < 0xffc00 := by omega
      obtain ⟨h₃, hs₃, hat₃⟩ := hat₂.storeWord (hreach 0 (by omega)) 0
      obtain ⟨h₄, hs₄, hat₄⟩ := hat₃.storeWord (hreach 4 (by omega)) (BitVec.ofNat 32 cnt)
      obtain ⟨h₅, hs₅, hat₅⟩ := hat₄.storeWord (hreach 8 (by omega)) 1
      have hne : ∀ c d, c < 12 → d < 12 → c ≠ d → wordAt n c ≠ wordAt n d :=
        fun c d hc hd hcd heq => hcd (wordAt_inj hbound (by omega) (by omega) heq)
      have hpages : (Kind.large cnt).pages = cnt := rfl
      obtain ⟨hnone, hsame, hl₅, hat₅'⟩ := At.newHeader hl hpages hpos hnot hat₅ (by
        intro a hout
        rw [Function.update_of_ne (hother a 8 hout (by omega)), Function.update_of_ne (hother a 4 hout (by omega)),
          Function.update_of_ne (hother a 0 hout (by omega)), zeroPages, if_neg hout]) (by
        intro j hj
        cases hj) (by
        intro cnt' hc
        rw [Kind.large.injEq] at hc
        subst hc
        refine ⟨?_, ?_, Function.update_self _ _ _⟩
        · rw [Function.update_of_ne (hne 0 8 (by omega) (by omega) (by omega)),
            Function.update_of_ne (hne 0 4 (by omega) (by omega) (by omega)), Function.update_self]
        · rw [Function.update_of_ne (hne 4 8 (by omega) (by omega) (by omega)), Function.update_self])
      refine ⟨n, _, h₅, ?_, hnone, hat₅', hl₅, ?_, hsame⟩
      · dsimp only
        rw [bind_eq hclear, bind_eq hs₃]
        rw [show wordAt n 0 + 4#32 = wordAt n 4 from wordAt_add n 0 4, bind_eq hs₄]
        rw [show wordAt n 0 + 8#32 = wordAt n 8 from wordAt_add n 0 8, bind_eq hs₅]
        rw [show wordAt n 0 + 12#32 = wordAt n 12 from wordAt_add n 0 12]
        rfl
      · intro a hlo hhi
        have hneq : ∀ c, c < 12 → a ≠ wordAt n c := by
          rintro c hc rfl
          rw [toNat_wordAt hbound (by omega)] at hlo
          omega
        rw [Function.update_of_ne (hneq 8 (by omega)), Function.update_of_ne (hneq 4 (by omega)),
          Function.update_of_ne (hneq 0 (by omega)), zeroPages, if_pos (by omega)]

end

def freeIn (n : ℕ) (bs : List Word) : ℕ := bs.countP fun b => b.toNat / 4096 = n

def Held (A : ℕ → Option Kind) (F : ℕ → List Word) (p : Word) (size : ℕ) : Prop :=
  (size ≤ 1024 ∧ ∃ i, i < 7 ∧ size ≤ blockSize i ∧ IsBlock A i p ∧ p ∉ F i) ∨
    (1024 < size ∧ ∃ n, A n = some (.large ((size + 12 + 4095) / 4096)) ∧ p = wordAt n 12)

structure Books (o : Owner) (A : ℕ → Option Kind) (F : ℕ → List Word) (W : Word → Word) (live : List (Word × ℕ)) (h : Heap) :
    Prop where
  words : At o (pagesOf A) W h
  layout : Layout o A F W
  count : ∀ n i, A n = some (.small i) → W (wordAt n 4) = BitVec.ofNat 32 (freeIn n (F i))
  nodup : (live.map Prod.fst).Nodup
  held : ∀ p ∈ live, Held A F p.1 p.2
  blocks : ∀ n i k, A n = some (.small i) → k < perArena i → blockAddr n i k ∈ F i ∨ ∃ size, (blockAddr n i k, size) ∈ live
  pages : ∀ n cnt, A n = some (.large cnt) → ∃ size, (wordAt n 12, size) ∈ live

structure HeapInv (o : Owner) (A : ℕ → Option Kind) (F : ℕ → List Word) (W : Word → Word) (live : List (Word × ℕ)) (h : Heap) :
    Prop extends Books o A F W live h where
  used : ∀ n i, A n = some (.small i) → freeIn n (F i) < perArena i

theorem freeIn_cons (n : ℕ) (b : Word) (bs : List Word) :
    freeIn n (b :: bs) = freeIn n bs + if b.toNat / 4096 = n then 1 else 0 := by
  simp [freeIn, List.countP_cons]

theorem freeIn_append (n : ℕ) (bs cs : List Word) : freeIn n (bs ++ cs) = freeIn n bs + freeIn n cs := by
  simp [freeIn]

theorem freeIn_zero {n : ℕ} {bs : List Word} (h : ∀ b ∈ bs, b.toNat / 4096 ≠ n) : freeIn n bs = 0 := by
  rw [freeIn, List.countP_eq_zero]
  intro b hb
  simpa using h b hb

theorem freeIn_all {n : ℕ} {bs : List Word} (h : ∀ b ∈ bs, b.toNat / 4096 = n) : freeIn n bs = bs.length := by
  rw [freeIn, List.countP_eq_length]
  intro b hb
  simpa using h b hb

section

variable {o : Owner} {A : ℕ → Option Kind} {F : ℕ → List Word} {W W' : Word → Word} {live : List (Word × ℕ)} {h h' : Heap}
  {i n : ℕ} {b p : Word} {r : List Word}

theorem isBlock_class (ha : Arenas o A) {j : ℕ} (hb : IsBlock A i b) (hb' : IsBlock A j b) : i = j := by
  have h := (block_place ha hb).1
  rw [(block_place ha hb').1, Option.some.injEq, Kind.small.injEq] at h
  exact h.symm

theorem isBlock_ne_large (ha : Arenas o A) {cnt : ℕ} (hb : IsBlock A i b) (hn : A n = some (.large cnt)) : b ≠ wordAt n 12 := by
  rintro rfl
  have h := (block_place ha hb).1
  rw [(header_place ha hn (by omega)).1, hn] at h
  cases h

theorem Books.not_held (hb : Books o A F W live h) (hi : i < 7) (hfree : b ∈ F i) {size : ℕ} : (b, size) ∉ live := by
  intro hlive
  have ha := hb.layout.arenas
  have hblock := (hb.layout.lists i hi).blocks b hfree
  rcases hb.held _ hlive with ⟨-, j, hj, -, hblock', hnot⟩ | ⟨-, n, hn, heq⟩
  · have hij := isBlock_class ha hblock hblock'
    subst hij
    exact hnot hfree
  · exact isBlock_ne_large ha hblock hn heq

theorem Held.anti {F' : ℕ → List Word} {size : ℕ} (hp : Held A F p size) (h : ∀ j, p ∈ F' j → p ∈ F j) : Held A F' p size := by
  rcases hp with ⟨hs, i, hi, hfit, hblock, hnot⟩ | hlarge
  · exact Or.inl ⟨hs, i, hi, hfit, hblock, fun hmem => hnot (h i hmem)⟩
  · exact Or.inr hlarge

theorem ofNat_succ_sub_one (k : ℕ) : BitVec.ofNat 32 (k + 1) - 1#32 = BitVec.ofNat 32 k := by
  rw [BitVec.ofNat_add]
  exact BitVec.add_sub_cancel _ _

theorem Books.take (hb : Books o A F W live h) (hi : i < 7) (hF : F i = b :: r) {size : ℕ} (hsize : size ≤ blockSize i)
    (hused : ∀ n j, A n = some (.small j) → freeIn n (Function.update F i r j) < perArena j) :
    ∃ W' h', takeBlock (o.desc i) h = .ok (b, h') ∧
      HeapInv o A (Function.update F i r) W' ((b, size) :: live) h' ∧
      ∀ k, 4 * k < size → W' (b + BitVec.ofNat 32 (4 * k)) = 0 := by
  have ha := hb.layout.arenas
  have hlist := hb.layout.lists i hi
  rw [hF] at hlist
  have hblock := hlist.blocks b (by simp)
  obtain ⟨hn, -⟩ := block_place ha hblock
  have hle := blockSize_le hi
  obtain ⟨W', h', hrun, hat', hl', hzero, hcnt, hother⟩ := hb.words.takeBlock hb.layout hi hF
  have hsub : ∀ j x, x ∈ Function.update F i r j → x ∈ F j := by
    intro j x hx
    by_cases hj : j = i
    · subst hj
      rw [Function.update_self] at hx
      rw [hF]
      exact List.mem_cons_of_mem _ hx
    · rwa [Function.update_of_ne hj] at hx
  have hcount : ∀ n j, A n = some (.small j) → W' (wordAt n 4) = BitVec.ofNat 32 (freeIn n (Function.update F i r j)) := by
    intro n j hj
    have hold := hb.count n j hj
    by_cases hpage : n = b.toNat / 4096
    · have hij : j = i := by
        rw [hpage, hn, Option.some.injEq, Kind.small.injEq] at hj
        exact hj.symm
      subst hij
      rw [hF, freeIn_cons, if_pos hpage.symm] at hold
      rw [hpage] at hold ⊢
      rw [hcnt, hold, Function.update_self]
      exact ofNat_succ_sub_one _
    · rw [hother n _ hj hpage, hold]
      by_cases hij : j = i
      · subst hij
        rw [Function.update_self, hF, freeIn_cons, if_neg (Ne.symm hpage), Nat.add_zero]
      · rw [Function.update_of_ne hij]
  refine ⟨W', h', hrun, ⟨⟨hat', hl', hcount, ?_, ?_, ?_, ?_⟩, hused⟩, fun k hk => hzero k (by omega)⟩
  · rw [List.map_cons, List.nodup_cons]
    refine ⟨?_, hb.nodup⟩
    intro hmem
    obtain ⟨⟨q, s⟩, hq, rfl⟩ := List.mem_map.mp hmem
    exact hb.not_held hi (by rw [hF]; simp) hq
  · intro q hq
    rcases List.mem_cons.mp hq with rfl | hq
    · refine Or.inl ⟨by omega, i, hi, hsize, hblock, ?_⟩
      rw [Function.update_self]
      exact (List.nodup_cons.mp hlist.nodup).1
    · exact (hb.held q hq).anti fun j hj => hsub j _ hj
  · intro n j k hj hk
    rcases hb.blocks n j k hj hk with hmem | ⟨s, hs⟩
    · by_cases hij : j = i
      · subst hij
        rw [hF] at hmem
        rw [Function.update_self]
        rcases List.mem_cons.mp hmem with heq | hmem
        · right
          exact ⟨size, by rw [heq]; simp⟩
        · exact Or.inl hmem
      · rw [Function.update_of_ne hij]
        exact Or.inl hmem
    · exact Or.inr ⟨s, List.mem_cons_of_mem _ hs⟩
  · intro n cnt hcnt'
    obtain ⟨s, hs⟩ := hb.pages n cnt hcnt'
    exact ⟨s, List.mem_cons_of_mem _ hs⟩

theorem Held.grow {kind : Kind} {size : ℕ} (hnone : A n = none) (hp : Held A F p size) :
    Held (Function.update A n (some kind)) F p size := by
  rcases hp with ⟨hs, i, hi, hfit, hblock, hnot⟩ | ⟨hs, n', hn', heq⟩
  · exact Or.inl ⟨hs, i, hi, hfit, isBlock_add hnone hblock, hnot⟩
  · refine Or.inr ⟨hs, n', ?_, heq⟩
    rw [Function.update_of_ne]
    · exact hn'
    · rintro rfl
      rw [hnone] at hn'
      cases hn'

theorem Held.page (ha : Arenas o A) {size : ℕ} (hp : Held A F p size) : ∃ kind, A (p.toNat / 4096) = some kind := by
  rcases hp with ⟨-, i, hi, -, hblock, -⟩ | ⟨-, n, hn, rfl⟩
  · exact ⟨_, (block_place ha hblock).1⟩
  · rw [(header_place ha hn (by omega)).1]
    exact ⟨_, hn⟩

theorem arena_old {kind kind' : Kind} {n' : ℕ} (hne : n' ≠ n)
    (h : Function.update A n (some kind) n' = some kind') : A n' = some kind' := by
  rwa [Function.update_of_ne hne] at h

theorem Books.addArena (hb : Books o A F W live h) (hnone : A n = none)
    (hat : At o (pagesOf (Function.update A n (some (.small i)))) W' h')
    (hl : Layout o (Function.update A n (some (.small i)))
      (Function.update F i (F i ++ (List.range' 0 (perArena i)).map (blockAddr n i))) W')
    (hcnt : W' (wordAt n 4) = BitVec.ofNat 32 (perArena i)) (hsame : SameHeaders A W W') :
    Books o (Function.update A n (some (.small i)))
      (Function.update F i (F i ++ (List.range' 0 (perArena i)).map (blockAddr n i))) W' live h' := by
  have ha := hb.layout.arenas
  have hself : Function.update A n (some (Kind.small i)) n = some (.small i) := Function.update_self _ _ _
  have hi : i < 7 := hl.arenas.size n i hself
  have hbound := hl.arenas.bound hself
  have hnew : ∀ x ∈ (List.range' 0 (perArena i)).map (blockAddr n i), x.toNat / 4096 = n := by
    intro x hx
    obtain ⟨k, hk, rfl⟩ := List.mem_map.mp hx
    exact blockAddr_page hbound (by simpa using hk)
  have hold : ∀ j x, j < 7 → x ∈ F j → x.toNat / 4096 ≠ n := by
    intro j x hj hx heq
    have h := (block_place ha ((hb.layout.lists j hj).blocks x hx)).1
    rw [heq, hnone] at h
    cases h
  refine ⟨hat, hl, ?_, hb.nodup, ?_, ?_, ?_⟩
  · intro n' j hj
    by_cases hne : n' = n
    · subst hne
      rw [hself, Option.some.injEq, Kind.small.injEq] at hj
      subst hj
      rw [Function.update_self, freeIn_append, freeIn_zero (hold i · hi), freeIn_all hnew, hcnt]
      simp
    · have hj' := arena_old hne hj
      rw [hsame n' _ 4 hj' (by omega), hb.count n' j hj']
      by_cases hij : j = i
      · subst hij
        rw [Function.update_self, freeIn_append, freeIn_zero (fun x hx heq => hne (heq.symm.trans (hnew x hx))), Nat.add_zero]
      · rw [Function.update_of_ne hij]
  · intro q hq
    have hheld := hb.held q hq
    obtain ⟨kind, hkind⟩ := hheld.page ha
    apply (hheld.grow hnone).anti
    intro j hj
    by_cases hij : j = i
    · subst hij
      rw [Function.update_self, List.mem_append] at hj
      rcases hj with hj | hj
      · exact hj
      · rw [hnew _ hj, hnone] at hkind
        cases hkind
    · rwa [Function.update_of_ne hij] at hj
  · intro n' j k hj hk
    by_cases hne : n' = n
    · subst hne
      rw [hself, Option.some.injEq, Kind.small.injEq] at hj
      subst hj
      left
      rw [Function.update_self]
      apply List.mem_append_right
      exact List.mem_map.mpr ⟨k, by simpa using hk, rfl⟩
    · rcases hb.blocks n' j k (arena_old hne hj) hk with hmem | hlive
      · left
        by_cases hij : j = i
        · subst hij
          rw [Function.update_self]
          exact List.mem_append_left _ hmem
        · rw [Function.update_of_ne hij]
          exact hmem
      · exact Or.inr hlive
  · intro n' cnt hn'
    have hne : n' ≠ n := by
      rintro rfl
      rw [hself] at hn'
      cases hn'
    exact hb.pages n' cnt (arena_old hne hn')

theorem HeapInv.addLarge (inv : HeapInv o A F W live h) {size : ℕ} (hsize : 1024 < size) (hnone : A n = none)
    (hat : At o (pagesOf (Function.update A n (some (.large ((size + 12 + 4095) / 4096))))) W' h')
    (hl : Layout o (Function.update A n (some (.large ((size + 12 + 4095) / 4096)))) F W') (hsame : SameHeaders A W W') :
    HeapInv o (Function.update A n (some (.large ((size + 12 + 4095) / 4096)))) F W' ((wordAt n 12, size) :: live) h' := by
  have ha := inv.layout.arenas
  have hself : Function.update A n (some (Kind.large ((size + 12 + 4095) / 4096))) n = _ := Function.update_self _ _ _
  have hplace := (header_place hl.arenas hself (c := 12) (by omega)).1
  have hold : ∀ n' i, Function.update A n (some (.large ((size + 12 + 4095) / 4096))) n' = some (.small i) →
      A n' = some (.small i) := by
    intro n' i hn'
    by_cases hne : n' = n
    · subst hne
      rw [hself] at hn'
      cases hn'
    · exact arena_old hne hn'
  refine ⟨⟨hat, hl, ?_, ?_, ?_, ?_, ?_⟩, fun n' i hn' => inv.used n' i (hold n' i hn')⟩
  · intro n' i hn'
    rw [hsame n' _ 4 (hold n' i hn') (by omega)]
    exact inv.count n' i (hold n' i hn')
  · rw [List.map_cons, List.nodup_cons]
    refine ⟨?_, inv.nodup⟩
    intro hmem
    obtain ⟨q, hq, heq⟩ := List.mem_map.mp hmem
    obtain ⟨kind, hkind⟩ := (inv.held q hq).page ha
    have heq' : q.1 = wordAt n 12 := heq
    rw [heq', hplace, hnone] at hkind
    cases hkind
  · intro q hq
    rcases List.mem_cons.mp hq with rfl | hq
    · exact Or.inr ⟨hsize, n, hself, rfl⟩
    · exact (inv.held q hq).grow hnone
  · intro n' i k hn' hk
    rcases inv.blocks n' i k (hold n' i hn') hk with hmem | ⟨s, hs⟩
    · exact Or.inl hmem
    · exact Or.inr ⟨s, List.mem_cons_of_mem _ hs⟩
  · intro n' cnt hn'
    by_cases hne : n' = n
    · subst hne
      exact ⟨size, by simp⟩
    · obtain ⟨s, hs⟩ := inv.pages n' cnt (arena_old hne hn')
      exact ⟨s, List.mem_cons_of_mem _ hs⟩

theorem HeapInv.mallocSmall (inv : HeapInv o A F W live h) {size : ℕ} (hsize : size ≤ 1024)
    (hcached : smallEmpty o.descs size h = .ok (true, h) →
      Unstale h.machine o.pool (vaddrOf o.pool h.machine).vaddrBitmap 0 1) :
    (∃ e, mallocSmall o.pool o.descs size h = .error e ∧ smallEmpty o.descs size h = .ok (true, h) ∧
        page (mallocPage o.pool 1) h = .error e) ∨ mallocSmall o.pool o.descs size h = .ok (none, h) ∨
      ∃ p h' A' F' W', mallocSmall o.pool o.descs size h = .ok (some p, h') ∧ HeapInv o A' F' W' ((p, size) :: live) h' ∧
        ∀ k, 4 * k < size → W' (p + BitVec.ofNat 32 (4 * k)) = 0 := by
  have hl := inv.layout
  have hat := inv.words
  obtain ⟨i, hfor, hi, hfit⟩ := hat.descFor hl size 7 0 rfl ⟨6, by omega, by omega, hsize⟩
  have hempty := hat.listEmpty hl.arenas hi (hl.lists i hi)
  have hsmall : smallEmpty o.descs size h = .ok (decide (F i = []), h) := by
    rw [smallEmpty, bind_eq hfor]
    exact hempty
  rw [Paging.mallocSmall, bind_eq hfor]
  dsimp only
  rw [show freeListOf (descAddr o.descs i) = o.head i from rfl, bind_eq hempty, show descAddr o.descs i = o.desc i from rfl]
  cases hF : F i with
  | nil =>
    simp only [decide_true, if_true]
    have hnil : smallEmpty o.descs size h = .ok (true, h) := by simpa [hF] using hsmall
    rcases hat.newArena hl hi (hcached hnil) with ⟨e, hnew, hpage⟩ | hnew | ⟨n, W₁, h₁, hnew, hnone, hat₁, hl₁, hcnt, hsame⟩
    · exact Or.inl ⟨e, bind_error hnew _, hnil, hpage⟩
    · right
      left
      rw [bind_eq hnew]
      rfl
    · right
      right
      have hb₁ := inv.toBooks.addArena hnone hat₁ hl₁ hcnt hsame
      have hself : Function.update A n (some (Kind.small i)) n = some (.small i) := Function.update_self _ _ _
      have hpos := perArena_pos hi
      obtain ⟨more, hmore⟩ : ∃ more, perArena i = more + 1 := ⟨perArena i - 1, by omega⟩
      obtain ⟨W', h', htake, inv', hzero⟩ := hb₁.take hi (b := blockAddr n i 0)
        (r := (List.range' 1 more).map (blockAddr n i)) (by
        rw [Function.update_self, hF, hmore, List.nil_append, List.range'_succ, List.map_cons]) hfit (by
        intro n' j hj
        rw [Function.update_idem]
        by_cases hij : j = i
        · subst hij
          rw [Function.update_self]
          have hle : freeIn n' ((List.range' 1 more).map (blockAddr n j)) ≤ _ := List.countP_le_length
          rw [List.length_map, List.length_range'] at hle
          omega
        · rw [Function.update_of_ne hij]
          have hne : n' ≠ n := by
            rintro rfl
            rw [hself, Option.some.injEq, Kind.small.injEq] at hj
            exact hij hj.symm
          exact inv.used n' j (arena_old hne hj))
      refine ⟨_, h', _, _, W', ?_, inv', hzero⟩
      rw [bind_eq hnew]
      simp only [if_true]
      rw [bind_eq htake]
      rfl
  | cons b r =>
    right
    right
    obtain ⟨W', h', htake, inv', hzero⟩ := inv.toBooks.take hi hF hfit (by
      intro n j hj
      have hused := inv.used n j hj
      by_cases hij : j = i
      · subst hij
        rw [hF, freeIn_cons] at hused
        rw [Function.update_self]
        omega
      · rw [Function.update_of_ne hij]
        exact hused)
    refine ⟨_, h', _, _, W', ?_, inv', hzero⟩
    simp only [reduceCtorEq, decide_false, Bool.false_eq_true, if_false]
    simp only [pure_bind, if_true]
    rw [bind_eq htake]
    rfl

theorem HeapInv.sysMalloc (inv : HeapInv o A F W live h) (size : ℕ) (hcached : MallocUnstale size h) :
    (∃ e cnt, sysMalloc size h = .error e ∧ pagesFor size h = .ok (some cnt, h) ∧ page (mallocPage o.pool cnt) h = .error e) ∨
      sysMalloc size h = .ok (none, h) ∨
      ∃ p h' A' F' W', sysMalloc size h = .ok (some p, h') ∧ 0 < size ∧ HeapInv o A' F' W' ((p, size) :: live) h' ∧
        ∀ k, 4 * k < size → W' (p + BitVec.ofNat 32 (4 * k)) = 0 := by
  have hget : (get : HeapM Heap) h = .ok (h, h) := rfl
  rw [MallocUnstale, pagesFor, bind_eq hget, inv.words.pool, inv.words.descs] at hcached
  rw [Paging.sysMalloc, bind_eq hget, pagesFor, bind_eq hget, inv.words.pool, inv.words.descs]
  by_cases hsize : 0 < size ∧ size < (poolOf o.pool h.machine).poolSize
  · rw [if_pos hsize] at hcached
    rw [if_pos hsize, if_pos hsize]
    by_cases hlarge : 1024 < size
    · rw [if_pos hlarge] at hcached
      rw [if_pos hlarge, if_pos hlarge]
      rcases inv.words.mallocLarge inv.layout size (hcached _ rfl) with ⟨e, herr, hpage⟩ | hnone | ⟨n, W', h', hrun, hA, hat', hl', hzero, hsame⟩
      · exact Or.inl ⟨e, _, herr, rfl, hpage⟩
      · exact Or.inr (Or.inl hnone)
      · have hself := Function.update_self n (some (Kind.large ((size + 12 + 4095) / 4096))) A
        have hbound := hl'.arenas.pages n _ hself
        simp only [Kind.pages] at hbound
        refine Or.inr (Or.inr ⟨_, h', _, _, W', hrun, hsize.1, inv.addLarge hlarge hA hat' hl' hsame, ?_⟩)
        intro k hk
        have hnat : (wordAt n 12 + BitVec.ofNat 32 (4 * k)).toNat = n * 4096 + 12 + 4 * k := by
          rw [wordAt_add, wordAt, BitVec.toNat_ofNat]
          omega
        exact hzero _ (by omega) (by omega)
    · rw [if_neg hlarge] at hcached
      rw [if_neg hlarge, if_neg hlarge]
      have hone : smallEmpty o.descs size h = .ok (true, h) → Unstale h.machine o.pool (vaddrOf o.pool h.machine).vaddrBitmap 0 1 := by
        intro hempty
        apply hcached
        rw [bind_eq hempty]
        rfl
      rcases inv.mallocSmall (show size ≤ 1024 by omega) hone with ⟨e, herr, hempty, hpage⟩ | hnone | ⟨p, h', A', F', W', hrun, inv', hzero⟩
      · refine Or.inl ⟨e, 1, herr, ?_, hpage⟩
        rw [bind_eq hempty]
        rfl
      · exact Or.inr (Or.inl hnone)
      · exact Or.inr (Or.inr ⟨p, h', A', F', W', hrun, hsize.1, inv', hzero⟩)
  · rw [if_neg hsize]
    exact Or.inr (Or.inl rfl)

theorem full_arena (ha : Arenas o A) (hn : A n = some (.small i)) {bs : List Word} (hlist : FreeList o A W i bs)
    (hfull : freeIn n bs = perArena i) {k : ℕ} (hk : k < perArena i) : blockAddr n i k ∈ bs := by
  have hbound := ha.bound hn
  have hsub : (bs.filter fun b => b.toNat / 4096 = n).toFinset ⊆ (Finset.range (perArena i)).image (blockAddr n i) := by
    intro b hb
    obtain ⟨hmem, hpage⟩ := List.mem_filter.mp (List.mem_toFinset.mp hb)
    obtain ⟨n', l, hn', hl, rfl⟩ := hlist.blocks b hmem
    have hpage' : (blockAddr n' i l).toNat / 4096 = n := by simpa using hpage
    rw [blockAddr_page (ha.bound hn') hl] at hpage'
    subst hpage'
    exact Finset.mem_image.mpr ⟨l, Finset.mem_range.mpr hl, rfl⟩
  have hcard : (bs.filter fun b => b.toNat / 4096 = n).toFinset.card = perArena i := by
    rw [List.toFinset_card_of_nodup (hlist.nodup.filter _), ← List.countP_eq_length_filter]
    exact hfull
  have heq := Finset.eq_of_subset_of_card_le hsub (by
    rw [hcard]
    exact Finset.card_image_le.trans (by simp))
  have hmem : blockAddr n i k ∈ (Finset.range (perArena i)).image (blockAddr n i) :=
    Finset.mem_image.mpr ⟨k, Finset.mem_range.mpr hk, rfl⟩
  rw [← heq] at hmem
  exact (List.mem_filter.mp (List.mem_toFinset.mp hmem)).1

def dropLive (live : List (Word × ℕ)) (p : Word) : List (Word × ℕ) := live.filter fun q => q.1 ≠ p

theorem mem_dropLive {q : Word × ℕ} : q ∈ dropLive live p ↔ q ∈ live ∧ q.1 ≠ p := by
  simp [dropLive]

theorem nodup_dropLive (h : (live.map Prod.fst).Nodup) : ((dropLive live p).map Prod.fst).Nodup :=
  h.sublist (List.Sublist.map _ List.filter_sublist)

theorem Books.giveBack (hb : Books o A F W live h) (hi : i < 7) (hblock : IsBlock A i p) (hnot : p ∉ F i)
    (hat : At o (pagesOf A) W' h') (hl : Layout o A (Function.update F i (F i ++ [p])) W')
    (hcnt : W' (wordAt (p.toNat / 4096) 4) = W (wordAt (p.toNat / 4096) 4) + 1)
    (hother : ∀ n kind, A n = some kind → n ≠ p.toNat / 4096 → W' (wordAt n 4) = W (wordAt n 4)) :
    Books o A (Function.update F i (F i ++ [p])) W' (dropLive live p) h' := by
  have ha := hb.layout.arenas
  have hn := (block_place ha hblock).1
  have hgrow : ∀ j x, x ∈ F j → x ∈ Function.update F i (F i ++ [p]) j := by
    intro j x hx
    by_cases hij : j = i
    · subst hij
      rw [Function.update_self]
      exact List.mem_append_left _ hx
    · rwa [Function.update_of_ne hij]
  refine ⟨hat, hl, ?_, nodup_dropLive hb.nodup, ?_, ?_, ?_⟩
  · intro n j hj
    have hold := hb.count n j hj
    by_cases hpage : n = p.toNat / 4096
    · have hij : j = i := by
        rw [hpage, hn, Option.some.injEq, Kind.small.injEq] at hj
        exact hj.symm
      subst hij
      rw [hpage] at hold ⊢
      rw [hcnt, hold, Function.update_self, freeIn_append, freeIn_cons, if_pos rfl, BitVec.ofNat_add]
      rfl
    · rw [hother n _ hj hpage, hold]
      by_cases hij : j = i
      · subst hij
        rw [Function.update_self, freeIn_append, freeIn_cons, if_neg (Ne.symm hpage)]
        rfl
      · rw [Function.update_of_ne hij]
  · intro q hq
    obtain ⟨hq, hne⟩ := mem_dropLive.mp hq
    apply (hb.held q hq).anti
    intro j hj
    by_cases hij : j = i
    · subst hij
      rw [Function.update_self, List.mem_append, List.mem_singleton] at hj
      exact hj.resolve_right hne
    · rwa [Function.update_of_ne hij] at hj
  · intro n j k hj hk
    rcases hb.blocks n j k hj hk with hmem | ⟨s, hs⟩
    · exact Or.inl (hgrow j _ hmem)
    · by_cases heq : blockAddr n j k = p
      · have hij := isBlock_class ha (isBlock_blockAddr hj hk) (by rw [heq]; exact hblock)
        subst hij
        left
        rw [Function.update_self, heq]
        simp
      · exact Or.inr ⟨s, mem_dropLive.mpr ⟨hs, heq⟩⟩
  · intro n cnt hn'
    obtain ⟨s, hs⟩ := hb.pages n cnt hn'
    exact ⟨s, mem_dropLive.mpr ⟨hs, (isBlock_ne_large ha hblock hn').symm⟩⟩

theorem arena_kept {n' : ℕ} {kind' : Kind} (h : Function.update A n none n' = some kind') : n' ≠ n ∧ A n' = some kind' := by
  by_cases hne : n' = n
  · subst hne
    rw [Function.update_self] at h
    cases h
  · rw [Function.update_of_ne hne] at h
    exact ⟨hne, h⟩

theorem Held.keep (ha : Arenas o A) {size : ℕ} (hp : Held A F p size) (hne : p.toNat / 4096 ≠ n) :
    Held (Function.update A n none) F p size := by
  rcases hp with ⟨hs, i, hi, hfit, ⟨n', k, hn', hk, rfl⟩, hnot⟩ | ⟨hs, n', hn', rfl⟩
  · rw [blockAddr_page (ha.bound hn') hk] at hne
    exact Or.inl ⟨hs, i, hi, hfit, ⟨n', k, (Function.update_of_ne hne _ _).trans hn', hk, rfl⟩, hnot⟩
  · rw [(header_place ha hn' (by omega)).1] at hne
    exact Or.inr ⟨hs, n', (Function.update_of_ne hne _ _).trans hn', rfl⟩

theorem Books.dropArena (hb : Books o A F W live h) {F' : ℕ → List Word}
    (hat : At o (pagesOf (Function.update A n none)) W' h') (hl : Layout o A F' W') (hsame : SameHeaders A W W')
    (hfree : ∀ j x, j < 7 → (x ∈ F' j ↔ x ∈ F j ∧ x.toNat / 4096 ≠ n))
    (hcount : ∀ n' j, n' ≠ n → A n' = some (.small j) → freeIn n' (F' j) = freeIn n' (F j))
    {live' : List (Word × ℕ)} (hnodup : (live'.map Prod.fst).Nodup)
    (hlive : ∀ q, q ∈ live' ↔ q ∈ live ∧ q.1.toNat / 4096 ≠ n) :
    Books o (Function.update A n none) F' W' live' h' := by
  have ha := hb.layout.arenas
  refine ⟨hat, hl.dropArena fun j x hj hx => ((hfree j x hj).mp hx).2, ?_, hnodup, ?_, ?_, ?_⟩
  · intro n' j hj
    obtain ⟨hne, hj'⟩ := arena_kept hj
    rw [hsame n' _ 4 hj' (by omega), hb.count n' j hj', hcount n' j hne hj']
  · intro q hq
    obtain ⟨hq, hne⟩ := (hlive q).mp hq
    have hheld := (hb.held q hq).keep ha hne
    rcases hheld with ⟨hs, i, hi, hfit, hblock, hnot⟩ | hlarge
    · exact Or.inl ⟨hs, i, hi, hfit, hblock, fun hmem => hnot ((hfree i _ hi).mp hmem).1⟩
    · exact Or.inr hlarge
  · intro n' j k hj hk
    obtain ⟨hne, hj'⟩ := arena_kept hj
    have hpage := blockAddr_page (ha.bound hj') hk
    rcases hb.blocks n' j k hj' hk with hmem | ⟨s, hs⟩
    · exact Or.inl ((hfree j _ (ha.size n' j hj')).mpr ⟨hmem, by rw [hpage]; exact hne⟩)
    · exact Or.inr ⟨s, (hlive _).mpr ⟨hs, by rw [hpage]; exact hne⟩⟩
  · intro n' cnt hn'
    obtain ⟨hne, hn''⟩ := arena_kept hn'
    obtain ⟨s, hs⟩ := hb.pages n' cnt hn''
    have hpage := (header_place ha hn'' (c := 12) (by omega)).1
    exact ⟨s, (hlive _).mpr ⟨hs, by rw [hpage]; exact hne⟩⟩

theorem Books.not_live (hb : Books o A F W live h) (hn : A n = some (.small i)) (hall : ∀ k, k < perArena i → blockAddr n i k ∈ F i)
    {q : Word × ℕ} (hq : q ∈ live) : q.1.toNat / 4096 ≠ n := by
  intro hpage
  have ha := hb.layout.arenas
  rcases hb.held q hq with ⟨-, j, hj, -, ⟨n', k, hn', hk, heq⟩, hnot⟩ | ⟨-, n', hn', heq⟩
  · rw [heq, blockAddr_page (ha.bound hn') hk] at hpage
    subst hpage
    rw [hn, Option.some.injEq, Kind.small.injEq] at hn'
    subst hn'
    rw [heq] at hnot
    exact hnot (hall k hk)
  · rw [heq, (header_place ha hn' (by omega)).1] at hpage
    subst hpage
    rw [hn] at hn'
    cases hn'

theorem mem_outside (ha : Arenas o A) (hn : A n = some (.small i)) (hlist : FreeList o A W i r) {x : Word} :
    x ∈ (r.filter fun b => b ∉ (List.range' 0 (perArena i)).map (blockAddr n i)) ↔ x ∈ r ∧ x.toNat / 4096 ≠ n := by
  rw [List.mem_filter]
  apply and_congr_right
  intro hx
  obtain ⟨n', k, hn', hk, rfl⟩ := hlist.blocks x hx
  rw [blockAddr_page (ha.bound hn') hk, decide_eq_true_iff]
  apply not_congr
  constructor
  · intro hmem
    obtain ⟨l, hl, heq⟩ := List.mem_map.mp hmem
    have hpage := congrArg (fun b : Word => b.toNat / 4096) heq
    simp only [blockAddr_page (ha.bound hn) (show l < perArena i by simpa using hl), blockAddr_page (ha.bound hn') hk] at hpage
    exact hpage.symm
  · rintro rfl
    exact List.mem_map.mpr ⟨k, by simpa using hk, rfl⟩

theorem freeIn_filter {n' : ℕ} {q : Word → Prop} [DecidablePred q] (h : ∀ x ∈ r, x.toNat / 4096 = n' → q x) :
    freeIn n' (r.filter fun b => q b) = freeIn n' r := by
  rw [freeIn, freeIn, List.countP_filter]
  apply List.countP_congr
  intro x hx
  simp only [Bool.and_eq_true, decide_eq_true_iff]
  exact ⟨fun hand => hand.1, fun hpage => ⟨hpage, h x hx hpage⟩⟩

theorem HeapInv.freeSmall (inv : HeapInv o A F W live h) (hi : i < 7) (hblock : IsBlock A i p) (hnot : p ∉ F i) :
    ∃ h' A' F' W', freeSmall o.pool (wordAt (p.toNat / 4096) 0) p h = .ok ((), h') ∧
      HeapInv o A' F' W' (dropLive live p) h' := by
  have hl := inv.layout
  have ha := hl.arenas
  have hn := (block_place ha hblock).1
  have hcount := inv.count _ i hn
  have hused := inv.used _ i hn
  have hper := perArena_bound i
  have hload := inv.words.loadWord (hl.reach_header hn (c := 0) (by omega))
  rw [(hl.small _ i hn).1] at hload
  obtain ⟨W₁, h₁, happend, hat₁, hlist₁, hlinks₁⟩ := inv.words.listAppend ha hi (hl.lists i hi) hblock hnot
  have hl₁ := hl.relink hi hlinks₁ hlist₁
  have hhead₁ := hlinks₁.headers ha hi
  have hcnt := hat₁.loadWord (hl₁.reach_header hn (c := 4) (by omega))
  rw [hhead₁ _ _ 4 hn (by omega)] at hcnt
  obtain ⟨h₂, hstore, hat₂⟩ := hat₁.storeWord (hl₁.reach_header hn (c := 4) (by omega)) (W (wordAt (p.toNat / 4096) 4) + 1)
  have hl₂ := hl₁.setCount hn (W (wordAt (p.toNat / 4096) 4) + 1)
  have hb₂ := inv.toBooks.giveBack hi hblock hnot hat₂ hl₂ (Function.update_self _ _ _) (by
    intro n kind hn' hne
    rw [Function.update_of_ne, hhead₁ n kind 4 hn' (by omega)]
    intro heq
    have hnat := congrArg BitVec.toNat heq
    rw [toNat_wordAt (ha.bound hn') (by omega), toNat_wordAt (ha.bound hn) (by omega)] at hnat
    omega)
  have hload₂ := hat₂.loadWord (hl₂.reach_header hn (c := 0) (by omega))
  rw [(hl₂.small _ i hn).1] at hload₂
  have hload₃ := hat₂.loadWord (Layout.reach_desc o (pagesOf A) hi).2
  rw [(hl₂.sizes i hi).2] at hload₃
  have hfree : freeIn (p.toNat / 4096) (F i ++ [p]) = freeIn (p.toNat / 4096) (F i) + 1 := by
    rw [freeIn_append, freeIn_cons, if_pos rfl]
    rfl
  have hother : ∀ n j, n ≠ p.toNat / 4096 → freeIn n (Function.update F i (F i ++ [p]) j) = freeIn n (F j) := by
    intro n j hne
    by_cases hij : j = i
    · subst hij
      rw [Function.update_self, freeIn_append, freeIn_cons, if_neg (Ne.symm hne)]
      rfl
    · rw [Function.update_of_ne hij]
  have htest : W (wordAt (p.toNat / 4096) 4) + 1 = BitVec.ofNat 32 (perArena i) ↔
      freeIn (p.toNat / 4096) (F i ++ [p]) = perArena i := by
    rw [hcount, hfree, ← BitVec.toNat_inj, BitVec.toNat_add, BitVec.toNat_ofNat, toNat_perArena, show (1 : Word).toNat = 1 from rfl]
    omega
  have hrun : Paging.freeSmall o.pool (wordAt (p.toNat / 4096) 0) p h =
      (if W (wordAt (p.toNat / 4096) 4) + 1 = BitVec.ofNat 32 (perArena i) then (do
        removeBlocks (wordAt (p.toNat / 4096) 0) (perArena i) 0
        page (mfreePage o.pool (wordAt (p.toNat / 4096) 0) 1)) else pure () : HeapM Unit) h₂ := by
    rw [Paging.freeSmall, bind_eq hload, show freeListOf (o.desc i) = o.head i from rfl, bind_eq happend]
    rw [show wordAt (p.toNat / 4096) 0 + 4#32 = wordAt (p.toNat / 4096) 4 from wordAt_add _ 0 4, bind_eq hcnt, bind_eq hstore,
      bind_eq hload₂, bind_eq hload₃, toNat_perArena]
  rw [hrun]
  by_cases hfull : freeIn (p.toNat / 4096) (F i ++ [p]) = perArena i
  · rw [if_pos (htest.mpr hfull)]
    have hlist₂ := hl₂.lists i hi
    rw [Function.update_self] at hlist₂
    have hall : ∀ k, k < perArena i → blockAddr (p.toNat / 4096) i k ∈ Function.update F i (F i ++ [p]) i := by
      intro k hk
      rw [Function.update_self]
      exact full_arena ha hn hlist₂ hfull hk
    obtain ⟨W₃, h₃, hremove, hat₃, hl₃, hsame₃⟩ := hat₂.removeBlocks (perArena i) hl₂ hn (show 0 + perArena i ≤ perArena i by omega)
      (fun k _ hk => hall k (by omega))
    have hpage₀ := header_place ha hn (c := 0) (by omega)
    have hown : ∀ k, (wordAt (p.toNat / 4096) 0).toNat / 4096 ≤ k → k < (wordAt (p.toNat / 4096) 0).toNat / 4096 + 1 →
        pagesOf A k := by
      intro k hk hk'
      rw [hpage₀.1] at hk hk'
      rw [show k = p.toNat / 4096 by omega]
      exact block_page ha hblock
    obtain ⟨h₄, hrelease, hat₄⟩ := hat₃.release hpage₀.2.1 Nat.one_pos hown
    rw [hpage₀.1] at hat₄
    have hat₄' : At o (pagesOf (Function.update A (p.toNat / 4096) none)) W₃ h₄ := by
      rw [pagesOf_drop ha hn]
      exact hat₄
    rw [Function.update_self, Function.update_idem] at hl₃
    have hkept : ∀ n j, n ≠ p.toNat / 4096 →
        freeIn n (Function.update F i ((F i ++ [p]).filter fun b =>
          b ∉ (List.range' 0 (perArena i)).map (blockAddr (p.toNat / 4096) i)) j) =
        freeIn n (Function.update F i (F i ++ [p]) j) := by
      intro n j hne
      by_cases hij : j = i
      · subst hij
        rw [Function.update_self, Function.update_self]
        apply freeIn_filter
        intro x hx hpage hmem
        obtain ⟨k, hk, rfl⟩ := List.mem_map.mp hmem
        rw [blockAddr_page (ha.bound hn) (by simpa using hk)] at hpage
        exact hne hpage.symm
      · rw [Function.update_of_ne hij, Function.update_of_ne hij]
    have hb₄ := hb₂.dropArena (n := p.toNat / 4096) hat₄' hl₃ hsame₃ (by
      intro j x hj
      by_cases hij : j = i
      · subst hij
        rw [Function.update_self, Function.update_self]
        exact mem_outside ha hn hlist₂
      · rw [Function.update_of_ne hij, Function.update_of_ne hij]
        constructor
        · intro hx
          refine ⟨hx, ?_⟩
          intro hpage
          have hx' := (block_place ha ((hl.lists j hj).blocks x hx)).1
          rw [hpage, hn, Option.some.injEq, Kind.small.injEq] at hx'
          exact hij hx'.symm
        · exact And.left) (fun n j hne _ => hkept n j hne) hb₂.nodup (by
      intro q
      exact ⟨fun hq => ⟨hq, hb₂.not_live hn hall hq⟩, And.left⟩)
    refine ⟨h₄, _, _, W₃, ?_, ⟨hb₄, ?_⟩⟩
    · rw [bind_eq hremove, hrelease]
    · intro n j hj
      obtain ⟨hne, hj'⟩ := arena_kept hj
      rw [hkept n j hne, hother n j hne]
      exact inv.used n j hj'
  · rw [if_neg (fun heq => hfull (htest.mp heq))]
    refine ⟨h₂, _, _, _, rfl, ⟨hb₂, ?_⟩⟩
    intro n j hj
    by_cases hne : n = p.toNat / 4096
    · subst hne
      rw [hn, Option.some.injEq, Kind.small.injEq] at hj
      subst hj
      rw [Function.update_self]
      omega
    · rw [hother n j hne]
      exact inv.used n j hj

theorem HeapInv.freeLarge (inv : HeapInv o A F W live h) {cnt : ℕ} (hn : A n = some (.large cnt)) :
    ∃ h', page (mfreePage o.pool (wordAt n 0) cnt) h = .ok ((), h') ∧
      HeapInv o (Function.update A n none) F W (dropLive live (wordAt n 12)) h' := by
  have ha := inv.layout.arenas
  have hpages := ha.pages n _ hn
  have hpage := header_place ha hn (c := 0) (by omega)
  have hpage' := header_place ha hn (c := 12) (by omega)
  have hown : ∀ k, (wordAt n 0).toNat / 4096 ≤ k → k < (wordAt n 0).toNat / 4096 + cnt → pagesOf A k := by
    intro k hk hk'
    rw [hpage.1] at hk hk'
    exact ⟨n, _, hn, hk, hk'⟩
  obtain ⟨h', hrun, hat'⟩ := inv.words.release hpage.2.1 hpages.1 hown
  rw [hpage.1] at hat'
  have hat₁ : At o (pagesOf (Function.update A n none)) W h' := by
    rw [pagesOf_drop ha hn]
    exact hat'
  have hb := inv.toBooks.dropArena hat₁ inv.layout (fun _ _ _ _ _ => rfl) (by
    intro j x hj
    constructor
    · intro hx
      refine ⟨hx, ?_⟩
      intro heq
      have hx' := (block_place ha ((inv.layout.lists j hj).blocks x hx)).1
      rw [heq, hn] at hx'
      cases hx'
    · exact And.left) (fun _ _ _ _ => rfl) (nodup_dropLive inv.nodup) (by
    intro q
    rw [mem_dropLive]
    apply and_congr_right
    intro hq
    apply not_congr
    constructor
    · intro heq
      rw [heq]
      exact hpage'.1
    · intro heq
      -- the only pointer into the pages of a large arena is the one behind its header
      rcases inv.held q hq with ⟨-, i, hi, -, hblock, -⟩ | ⟨-, n', hn', hqn⟩
      · have hx' := (block_place ha hblock).1
        rw [heq, hn] at hx'
        cases hx'
      · rw [hqn, (header_place ha hn' (by omega)).1] at heq
        rw [hqn, heq])
  exact ⟨h', hrun, hb, fun n' i hn' => inv.used n' i (arena_kept hn').2⟩

theorem HeapInv.sysFree (inv : HeapInv o A F W live h) {size : ℕ} (hp : (p, size) ∈ live) :
    ∃ h' A' F' W', sysFree p h = .ok ((), h') ∧ HeapInv o A' F' W' (dropLive live p) h' := by
  have hl := inv.layout
  have ha := hl.arenas
  have hheld : Held A F p size := inv.held _ hp
  have hget : (get : HeapM Heap) h = .ok (h, h) := rfl
  obtain ⟨kind, hkind⟩ := hheld.page ha
  have hpages := ha.pages _ kind hkind
  have hnull : p ≠ 0 := by
    rintro rfl
    have := hpages.2.1
    simp at this
  have hstart : h.pool = .kernel → kHeapStart ≤ p.toNat := by
    intro hpf
    have hrange := inv.words.space.range ⟨_, kind, hkind, le_refl _, by omega⟩
    rw [← inv.words.pool, hpf, basePage] at hrange
    simp only [kHeapStart]
    omega
  have hlarge := inv.words.loadWord (hl.reach_header hkind (c := 8) (by omega))
  have hdesc := inv.words.loadWord (hl.reach_header hkind (c := 0) (by omega))
  rw [Paging.sysFree, bind_eq (assertHeap_eq hnull h), bind_eq hget, bind_eq (assertHeap_eq hstart h), block2arena_eq,
    inv.words.pool]
  rw [show wordAt (p.toNat / 4096) 0 + 8#32 = wordAt (p.toNat / 4096) 8 from wordAt_add _ 0 8]
  rcases hheld with ⟨-, i, hi, -, hblock, hnot⟩ | ⟨-, n, hn, hpn⟩
  · have hn := (block_place ha hblock).1
    rw [(hl.small _ i hn).2] at hlarge
    obtain ⟨h', A', F', W', hrun, inv'⟩ := inv.freeSmall hi hblock hnot
    refine ⟨h', A', F', W', ?_, inv'⟩
    rw [bind_eq hlarge, bind_eq (assertHeap_eq (Or.inl rfl) h), bind_eq hdesc, if_neg (by simp), hrun]
  · have hplace := (header_place ha hn (c := 12) (by omega)).1
    have hpage : p.toNat / 4096 = n := by rw [hpn, hplace]
    have hbound := ha.pages n _ hn
    simp only [Kind.pages] at hbound
    rw [hpage] at hlarge hdesc ⊢
    obtain ⟨hzero, hcnt, hone⟩ := hl.large n _ hn
    rw [hone] at hlarge
    rw [hzero] at hdesc
    have hcount := inv.words.loadWord (hl.reach_header hn (c := 4) (by omega))
    rw [hcnt] at hcount
    obtain ⟨h', hrun, inv'⟩ := inv.freeLarge hn
    refine ⟨h', _, _, _, ?_, by rw [hpn]; exact inv'⟩
    rw [bind_eq hlarge, bind_eq (assertHeap_eq (Or.inr rfl) h), bind_eq hdesc, if_pos ⟨rfl, rfl⟩,
      show wordAt n 0 + 4#32 = wordAt n 4 from wordAt_add _ 0 4, bind_eq hcount, BitVec.toNat_ofNat,
      Nat.mod_eq_of_lt (by omega), hrun]

theorem HeapInv.write (inv : HeapInv o A F W live h) {size k : ℕ} (hp : (p, size) ∈ live) (hk : 4 * k < size) (w : Word) :
    ∃ h' W', storeWord (p + BitVec.ofNat 32 (4 * k)) w h = .ok ((), h') ∧ HeapInv o A F W' live h' := by
  have hl := inv.layout
  have ha := hl.arenas
  have hchange : o.Reach (pagesOf A) (p + BitVec.ofNat 32 (4 * k)) ∧
      Layout o A F (Function.update W (p + BitVec.ofNat 32 (4 * k)) w) ∧
      SameHeaders A W (Function.update W (p + BitVec.ofNat 32 (4 * k)) w) := by
    have hheld : Held A F p size := inv.held _ hp
    rcases hheld with ⟨-, i, hi, hfit, hblock, hnot⟩ | ⟨-, n, hn, hpn⟩
    · obtain ⟨hn, hlo, hhi, -⟩ := block_place ha hblock
      have hlt := p.isLt
      have hnat : (p + BitVec.ofNat 32 (4 * k)).toNat = p.toNat + 4 * k := by
        rw [BitVec.toNat_add, BitVec.toNat_ofNat]
        omega
      refine ⟨Or.inr ?_, hl.fillBlock hblock hnot ?_⟩
      · rw [hnat, show (p.toNat + 4 * k) / 4096 = p.toNat / 4096 by omega]
        exact block_page ha hblock
      · intro a hout
        apply Function.update_of_ne
        rintro rfl
        apply hout
        rw [hnat]
        omega
    · have hbound := ha.pages n _ hn
      simp only [Kind.pages] at hbound
      have hnat : (p + BitVec.ofNat 32 (4 * k)).toNat = n * 4096 + 12 + 4 * k := by
        rw [hpn, wordAt_add, wordAt, BitVec.toNat_ofNat]
        omega
      refine ⟨Or.inr ?_, hl.fillLarge hn ?_⟩
      · rw [hnat]
        refine ⟨n, _, hn, by omega, ?_⟩
        simp only [Kind.pages]
        omega
      · intro a hout
        apply Function.update_of_ne
        rintro rfl
        apply hout
        rw [hnat]
        omega
  obtain ⟨hreach, hl', hsame⟩ := hchange
  obtain ⟨h', hrun, hat'⟩ := inv.words.storeWord hreach w
  refine ⟨h', _, hrun, ⟨⟨hat', hl', ?_, inv.nodup, inv.held, inv.blocks, inv.pages⟩, inv.used⟩⟩
  intro n i hn
  rw [hsame n _ 4 hn (by omega)]
  exact inv.count n i hn

end

end ElephantOS.Paging
