import ElephantOS.HeapCalls
import ElephantOS.FramesApart

namespace ElephantOS.Paging

open HaltingState LinkedList

def Heap.cache (h : Heap) (v p : Word) : Heap := { h with machine := h.machine.cache v p }

def Heap.evict (h : Heap) (n : ℕ) : Heap := { h with machine := h.machine.evict n }

/-- The calls of the running task since `block_desc_init`, with what it holds; every call of `sys_malloc` satisfies `ok`. In between
the task writes into what it holds, and the processor caches and drops translations as it likes. -/
inductive HeapRun (ok : ℕ → Heap → Prop) (start : Heap) : Heap → List (Word × ℕ) → Prop
  | init {h : Heap} : blockDescInit start.descs start = .ok ((), h) → HeapRun ok start h []
  | malloc {h h' : Heap} {live : List (Word × ℕ)} {size : ℕ} {p : Word} :
      HeapRun ok start h live → ok size h → sysMalloc size h = .ok (some p, h') → HeapRun ok start h' ((p, size) :: live)
  | null {h h' : Heap} {live : List (Word × ℕ)} {size : ℕ} :
      HeapRun ok start h live → ok size h → sysMalloc size h = .ok (none, h') → HeapRun ok start h' live
  | free {h h' : Heap} {live : List (Word × ℕ)} {size : ℕ} {p : Word} :
      HeapRun ok start h live → (p, size) ∈ live → sysFree p h = .ok ((), h') → HeapRun ok start h' (dropLive live p)
  | write {h h' : Heap} {live : List (Word × ℕ)} {size k : ℕ} {p w : Word} :
      HeapRun ok start h live → (p, size) ∈ live → 4 * k < size → storeWord (p + BitVec.ofNat 32 (4 * k)) w h = .ok ((), h') →
        HeapRun ok start h' live
  | cache {h : Heap} {live : List (Word × ℕ)} {v p : Word} :
      HeapRun ok start h live → walk h.machine.mem h.machine.cr3 v = some p → HeapRun ok start (h.cache v p) live
  | evict {h : Heap} {live : List (Word × ℕ)} {n : ℕ} : HeapRun ok start h live → HeapRun ok start (h.evict n) live

section

variable {o : Owner} {P : ℕ → Prop} {W : Word → Word} {h : Heap} {i : ℕ}

theorem tail_eq (o : Owner) (i : ℕ) : o.head i + 8#32 = o.tail i := rfl

theorem initDesc_words (hat : At o P W h) (hi : i < 7) :
    ∃ W' h', (do
        storeWord (o.desc i) (BitVec.ofNat 32 (blockSize i))
        storeWord (o.desc i + 4#32) (BitVec.ofNat 32 (perArena i))
        listInit (o.head i) : HeapM Unit) h = .ok ((), h') ∧ At o P W' h' ∧
      W' (o.desc i) = BitVec.ofNat 32 (blockSize i) ∧ W' (o.desc i + 4#32) = BitVec.ofNat 32 (perArena i) ∧
      W' (o.head i + 4#32) = o.tail i ∧ W' (o.tail i) = o.head i ∧
      ∀ a : Word, ¬ (o.descs.toNat + 24 * i ≤ a.toNat ∧ a.toNat < o.descs.toNat + 24 * i + 24) → W' a = W a := by
  have hfits := o.fits
  simp only [descBytes] at hfits
  obtain ⟨hd, hd', hnat, hnat'⟩ := desc_place o hi
  have hhead := toNat_head o hi
  have htail := toNat_tail o hi
  have hadd : ∀ x : Word, x.toNat + 4 < 2 ^ 32 → (x + 4#32).toNat = x.toNat + 4 := by
    intro x hx
    rw [BitVec.toNat_add, BitVec.toNat_ofNat]
    exact Nat.mod_eq_of_lt hx
  have hheadNext := hadd (o.head i) (by omega)
  have htailNext := hadd (o.tail i) (by omega)
  have hreach : ∀ x : Word, o.descs.toNat + 24 * i ≤ x.toNat → x.toNat < o.descs.toNat + 24 * i + 24 → o.Reach P x := by
    intro x hlo hhi
    left
    rw [Owner.Desc, descBytes]
    omega
  have hne : ∀ x y : Word, x.toNat ≠ y.toNat → x ≠ y := by
    rintro x y hxy rfl
    exact hxy rfl
  obtain ⟨h₁, hs₁, hat₁⟩ := hat.storeWord (Or.inl hd) (BitVec.ofNat 32 (blockSize i))
  obtain ⟨h₂, hs₂, hat₂⟩ := hat₁.storeWord (Or.inl hd') (BitVec.ofNat 32 (perArena i))
  obtain ⟨h₃, hs₃, hat₃⟩ := hat₂.storeWord (hreach (o.head i) (by omega) (by omega)) 0
  obtain ⟨h₄, hs₄, hat₄⟩ := hat₃.storeWord (hreach (o.head i + 4#32) (by omega) (by omega)) (o.tail i)
  obtain ⟨h₅, hs₅, hat₅⟩ := hat₄.storeWord (hreach (o.tail i) (by omega) (by omega)) (o.head i)
  obtain ⟨h₆, hs₆, hat₆⟩ := hat₅.storeWord (hreach (o.tail i + 4#32) (by omega) (by omega)) 0
  refine ⟨_, h₆, ?_, hat₆, ?_, ?_, ?_, ?_, ?_⟩
  · have hlast : o.head i + 12#32 = o.tail i + 4#32 := by
      apply BitVec.eq_of_toNat_eq
      rw [htailNext, htail, BitVec.toNat_add, hhead, BitVec.toNat_ofNat]
      exact (Nat.mod_eq_of_lt (by omega)).trans (by omega)
    rw [bind_eq hs₁, bind_eq hs₂, listInit, bind_eq hs₃, tail_eq, bind_eq hs₄, bind_eq hs₅, hlast, hs₆]
  · rw [Function.update_of_ne (hne _ _ (by omega)), Function.update_of_ne (hne _ _ (by omega)),
      Function.update_of_ne (hne _ _ (by omega)), Function.update_of_ne (hne _ _ (by omega)),
      Function.update_of_ne (hne _ _ (by omega)), Function.update_self]
  · rw [Function.update_of_ne (hne _ _ (by omega)), Function.update_of_ne (hne _ _ (by omega)),
      Function.update_of_ne (hne _ _ (by omega)), Function.update_of_ne (hne _ _ (by omega)), Function.update_self]
  · rw [Function.update_of_ne (hne _ _ (by omega)), Function.update_of_ne (hne _ _ (by omega)), Function.update_self]
  · rw [Function.update_of_ne (hne _ _ (by omega)), Function.update_self]
  · intro a hout
    rw [Function.update_of_ne (hne _ _ (by omega)), Function.update_of_ne (hne _ _ (by omega)),
      Function.update_of_ne (hne _ _ (by omega)), Function.update_of_ne (hne _ _ (by omega)),
      Function.update_of_ne (hne _ _ (by omega)), Function.update_of_ne (hne _ _ (by omega))]

theorem blockSize_succ (i : ℕ) : blockSize i * 2 = blockSize (i + 1) := by
  rw [blockSize, blockSize, pow_succ]
  omega

theorem blockDescInit_words (hat : At o P W h) :
    ∃ W' h', blockDescInit o.descs h = .ok ((), h') ∧ At o P W' h' ∧ ∀ i, i < 7 →
      W' (o.desc i) = BitVec.ofNat 32 (blockSize i) ∧ W' (o.desc i + 4#32) = BitVec.ofNat 32 (perArena i) ∧
        W' (o.head i + 4#32) = o.tail i ∧ W' (o.tail i) = o.head i := by
  have hloop : ∀ more idx W h, At o P W h → idx + more = 7 →
      ∃ W' h', blockDescInitFrom o.descs more idx (blockSize idx) h = .ok ((), h') ∧ At o P W' h' ∧
        (∀ i, idx ≤ i → i < 7 →
          W' (o.desc i) = BitVec.ofNat 32 (blockSize i) ∧ W' (o.desc i + 4#32) = BitVec.ofNat 32 (perArena i) ∧
            W' (o.head i + 4#32) = o.tail i ∧ W' (o.tail i) = o.head i) ∧
        ∀ a : Word, a.toNat < o.descs.toNat + 24 * idx → W' a = W a := by
    intro more
    induction more with
    | zero =>
      intro idx W h hat hidx
      exact ⟨W, h, rfl, hat, fun i hi hi' => by omega, fun a _ => rfl⟩
    | succ more ih =>
      intro idx W h hat hidx
      have hi : idx < 7 := by omega
      obtain ⟨W₁, h₁, hrun₁, hat₁, hsize, hper, hnext, hprev, hout⟩ := initDesc_words hat hi
      obtain ⟨W', h', hrun, hat', hrest, hkeep⟩ := ih (idx + 1) W₁ h₁ hat₁ (by omega)
      obtain ⟨-, -, hnat, hnat'⟩ := desc_place o hi
      have hhead := toNat_head o hi
      have htail := toNat_tail o hi
      have hfits := o.fits
      simp only [descBytes] at hfits
      have hheadNext : (o.head idx + 4#32).toNat = (o.head idx).toNat + 4 := by
        rw [BitVec.toNat_add, BitVec.toNat_ofNat]
        exact Nat.mod_eq_of_lt (by omega)
      refine ⟨W', h', ?_, hat', ?_, ?_⟩
      · rw [blockDescInitFrom, blockSize_succ]
        change (storeWord (o.desc idx) (BitVec.ofNat 32 (blockSize idx)) >>= fun _ => _) h = _
        obtain ⟨_, k₁, hk₁, hrun₁⟩ := (bind_ok _ _ _ _).mp hrun₁
        obtain ⟨_, k₂, hk₂, hrun₁⟩ := (bind_ok _ _ _ _).mp hrun₁
        rw [bind_eq hk₁]
        change (storeWord (o.desc idx + 4#32) (BitVec.ofNat 32 (perArena idx)) >>= fun _ => _) k₁ = _
        rw [bind_eq hk₂]
        change (listInit (o.head idx) >>= fun _ => _) k₂ = _
        rw [bind_eq hrun₁, hrun]
      · intro i hle hlt
        by_cases heq : i = idx
        · subst heq
          rw [hkeep _ (by omega), hkeep _ (by omega), hkeep _ (by omega), hkeep _ (by omega)]
          exact ⟨hsize, hper, hnext, hprev⟩
        · exact hrest i (by omega) hlt
      · intro a ha
        rw [hkeep a (by omega), hout a (by omega)]
  obtain ⟨W', h', hrun, hat', hall, -⟩ := hloop 7 0 W h hat rfl
  exact ⟨W', h', hrun, hat', fun i hi => hall i (by omega) hi⟩

theorem heapInv_fresh (hat : At o (fun _ => False) W h) :
    ∃ W' h', blockDescInit o.descs h = .ok ((), h') ∧ HeapInv o (fun _ => none) (fun _ => []) W' [] h' := by
  obtain ⟨W', h', hrun, hat', hwords⟩ := blockDescInit_words hat
  have hpages : pagesOf (fun _ => none) = fun _ => False := by
    funext k
    apply propext
    constructor
    · rintro ⟨n, kind, hn, -⟩
      cases hn
    · exact False.elim
  have hno : ∀ a : Word, ¬ pagesOf (fun _ => none) (a.toNat / 4096) := by
    intro a
    rw [hpages]
    exact id
  refine ⟨W', h', hrun, ⟨⟨?_, ?_, nofun, List.nodup_nil, nofun, nofun, nofun⟩, nofun⟩⟩
  · rw [hpages]
    exact hat'
  · refine ⟨⟨nofun, nofun, nofun, fun a ha => absurd ha (hno a)⟩, fun i hi => ⟨(hwords i hi).1, (hwords i hi).2.1⟩, ?_, nofun,
      nofun⟩
    intro i hi
    refine ⟨?_, List.nodup_nil, nofun⟩
    apply List.isChain_cons_cons.mpr
    exact ⟨⟨(hwords i hi).2.2.1, (hwords i hi).2.2.2⟩, List.IsChain.singleton _⟩

end

theorem Heap.descs_high (h : Heap) : 0xc0000000 ≤ h.descs.toNat := by
  unfold Heap.descs
  cases h.pool with
  | kernel => exact h.kBlockDescs.2.2.1
  | user =>
    have := (h.uBlockDesc h.machine.cur).2.2.1
    simp only [kHeapStart] at this
    simp only
    omega

theorem Heap.descs_fits (h : Heap) : h.descs.toNat + descBytes ≤ 2 ^ 32 := by
  unfold Heap.descs
  cases h.pool with
  | kernel =>
    have := h.kBlockDescs.2.2.2
    simp only [kHeapStart] at this
    simp only
    omega
  | user => exact (h.uBlockDesc h.machine.cur).2.2.2

theorem Heap.descs_below (h : Heap) (hpf : h.pool = .kernel) : h.descs.toNat + descBytes ≤ kHeapStart := by
  unfold Heap.descs
  rw [hpf]
  exact h.kBlockDescs.2.2.2

def ownerOf (h : Heap) : Owner where
  start := h.machine
  pool := h.pool
  descs := h.descs
  high := h.descs_high
  fits := h.descs_fits
  below := h.descs_below

section

variable {start h : Heap} {live : List (Word × ℕ)} {stray : ℕ → Prop} {L H : Use → Prop}

theorem at_start (inv : RunInv stray 1 start.machine L H) : At (ownerOf start) (fun _ => False) start.descWords start := by
  refine ⟨⟨⟨stray, H, inv.frames, fun k hk => hk.elim⟩, fun k t v hk => hk.elim, ?_, inv.thread _, ?_, fun k hk => hk.elim⟩, rfl,
    fun a _ => rfl, fun a ha => ha.elim⟩
  · change _ ↔ start.pool = .kernel
    unfold Heap.pool
    split_ifs with hnone
    · simp [hnone]
    · simp [hnone]
  · intro _
    exact ⟨rfl, rfl, fun j => by simp [ownerOf], fun j hj => hj.elim, fun g => by simp [ownerOf], fun k g hk => hk.elim⟩

theorem At.retlb {o : Owner} {P : ℕ → Prop} {W : Word → Word} (hat : At o P W h) {m : Machine} {tlb : ℕ → Option Word}
    (hm : m = { h.machine with tlb := tlb }) (hspace : Space o P m) : At o P W { h with machine := m } := by
  subst hm
  exact ⟨hspace, (Heap.descs_machine rfl rfl).trans hat.descs, hat.descCells, hat.pageCells⟩

theorem HeapInv.retlb {o : Owner} {A : ℕ → Option Kind} {F : ℕ → List Word} {W : Word → Word} (hinv : HeapInv o A F W live h)
    {m : Machine} {tlb : ℕ → Option Word} (hm : m = { h.machine with tlb := tlb }) (hspace : Space o (pagesOf A) m) :
    HeapInv o A F W live { h with machine := m } :=
  ⟨⟨hinv.words.retlb hm hspace, hinv.layout, hinv.count, hinv.nodup, hinv.held, hinv.blocks, hinv.pages⟩, hinv.used⟩

theorem heapInv_run (inv : RunInv stray 1 start.machine L H) (hrun : HeapRun MallocUnstale start h live) :
    ∃ A F W, HeapInv (ownerOf start) A F W live h := by
  induction hrun with
  | init hinit =>
    obtain ⟨W', h', hrun, hinv⟩ := heapInv_fresh (at_start inv)
    have hrun' : blockDescInit start.descs start = .ok ((), h') := hrun
    rw [hinit, Except.ok.injEq, Prod.mk.injEq] at hrun'
    obtain ⟨-, rfl⟩ := hrun'
    exact ⟨_, _, W', hinv⟩
  | malloc _ hcached hcall ih =>
    obtain ⟨A, F, W, hinv⟩ := ih
    rcases hinv.sysMalloc _ hcached with ⟨e, -, herr, -⟩ | hnone | ⟨p, h', A', F', W', hok, -, hinv', -⟩
    · rw [hcall] at herr
      cases herr
    · rw [hcall] at hnone
      cases hnone
    · rw [hcall] at hok
      cases hok
      exact ⟨A', F', W', hinv'⟩
  | null _ hcached hcall ih =>
    obtain ⟨A, F, W, hinv⟩ := ih
    rcases hinv.sysMalloc _ hcached with ⟨e, -, herr, -⟩ | hnone | ⟨p, h', A', F', W', hok, -, hinv', -⟩
    · rw [hcall] at herr
      cases herr
    · rw [hcall] at hnone
      cases hnone
      exact ⟨A, F, W, hinv⟩
    · rw [hcall] at hok
      cases hok
  | free _ hp hcall ih =>
    obtain ⟨A, F, W, hinv⟩ := ih
    obtain ⟨h', A', F', W', hok, hinv'⟩ := hinv.sysFree hp
    rw [hcall] at hok
    cases hok
    exact ⟨A', F', W', hinv'⟩
  | write _ hp hk hcall ih =>
    obtain ⟨A, F, W, hinv⟩ := ih
    obtain ⟨h', W', hok, hinv'⟩ := hinv.write hp hk _
    rw [hcall] at hok
    cases hok
    exact ⟨A, F, W', hinv'⟩
  | cache _ hwalk ih =>
    obtain ⟨A, F, W, hinv⟩ := ih
    exact ⟨A, F, W, hinv.retlb rfl (hinv.words.space.cache hwalk)⟩
  | evict _ ih =>
    obtain ⟨A, F, W, hinv⟩ := ih
    exact ⟨A, F, W, hinv.retlb rfl (hinv.words.space.evict _)⟩

end

def listElemsFrom (tail : Word) : ℕ → Word → HeapM (List Word)
  | 0, _ => halt .hang
  | fuel + 1, elem => do
    if elem = tail then return []
    let next ← loadWord (elem + 4#32)
    let rest ← listElemsFrom tail fuel next
    return elem :: rest

def freeBlocks (i : ℕ) : HeapM (List Word) := do
  let h ← get
  let plist := freeListOf (descAddr h.descs i)
  let elem ← loadWord (plist + 4#32)
  listElemsFrom (plist + 8#32) (2 ^ 32) elem

def HeapPage (h : Heap) (n : ℕ) : Prop :=
  basePage h.pool ≤ n ∧ (vaddrOf h.pool h.machine).vaddrBitmap.scanTest (n - basePage h.pool) = true

def IsArena (h : Heap) (live : List (Word × ℕ)) (a : Word) : Prop :=
  (∃ b ∈ live, block2arena b.1 = a) ∨ ∃ i bs, i < 7 ∧ freeBlocks i h = .ok (bs, h) ∧ ∃ b ∈ bs, block2arena b = a

def BytesApart (a n b m : ℕ) : Prop := a + n ≤ b ∨ b + m ≤ a

def HeapByte (h : Heap) (live : List (Word × ℕ)) (a : Word) : Prop :=
  (∃ b ∈ live, ∃ k, k < b.2 ∧ a = b.1 + BitVec.ofNat 32 k) ∨ ∃ r k, IsArena h live r ∧ k < 12 ∧ a = r + BitVec.ofNat 32 k

structure BlocksApart (h : Heap) (live : List (Word × ℕ)) : Prop where
  mapped : ∀ b ∈ live, ∀ k, k < b.2 → b.1.toNat + k < 2 ^ 32 ∧ HeapPage h ((b.1.toNat + k) / 4096) ∧
    access h.machine (b.1 + BitVec.ofNat 32 k) ≠ none
  places : ∀ a c, HeapByte h live a → HeapByte h live c → access h.machine a = access h.machine c → a = c
  header : ∀ b ∈ live, (block2arena b.1).toNat + 12 ≤ b.1.toNat
  apart : live.Pairwise fun b c => BytesApart b.1.toNat b.2 c.1.toNat c.2
  headers : ∀ b ∈ live, ∀ a, IsArena h live a → BytesApart b.1.toNat b.2 a.toNat 12

section

variable {o : Owner} {A : ℕ → Option Kind} {F : ℕ → List Word} {W : Word → Word} {live : List (Word × ℕ)} {h : Heap}

theorem listElemsFrom_words (hat : At o (pagesOf A) W h) (ha : Arenas o A) {i : ℕ} (hi : i < 7) (fuel : ℕ) {bs : List Word}
    (hbs : ∀ b ∈ bs, IsBlock A i b) (hchain : links.Chain W (bs ++ [o.tail i])) (hnot : o.tail i ∉ bs)
    (hfuel : bs.length < fuel) : listElemsFrom (o.tail i) fuel (bs.headD (o.tail i)) h = .ok (bs, h) := by
  induction fuel generalizing bs with
  | zero => omega
  | succ fuel ih =>
    cases bs with
    | nil =>
      rw [listElemsFrom, List.headD_nil, if_pos rfl]
      rfl
    | cons b bs =>
      have hb : b ≠ o.tail i := by
        rintro rfl
        exact hnot (by simp)
      have hnode := node_reach ha hi (x := b) (Or.inr (Or.inr (hbs b (by simp))))
      have hnext : W (b + 4#32) = bs.headD (o.tail i) := by
        cases bs with
        | nil => exact (List.isChain_cons_cons.mp hchain).1.1
        | cons c bs => exact (List.isChain_cons_cons.mp hchain).1.1
      have hrest := ih (fun c hc => hbs c (by simp [hc])) (List.IsChain.of_cons hchain) (fun hc => hnot (by simp [hc]))
        (by simpa using hfuel)
      rw [listElemsFrom, List.headD_cons, if_neg hb]
      change (loadWord (b + 4#32) >>= fun next => _) h = _
      rw [bind_eq (hat.loadWord hnode.2), hnext, bind_eq hrest]
      rfl

theorem freeBlocks_words (hat : At o (pagesOf A) W h) (hl : Layout o A F W) {i : ℕ} (hi : i < 7) :
    freeBlocks i h = .ok (F i, h) := by
  have ha := hl.arenas
  have hlist := hl.lists i hi
  have hhead := node_reach ha hi (x := o.head i) (Or.inl rfl)
  have hnodup := nodup_nodes ha hi hlist.blocks hlist.nodup
  have hlen := words_length hnodup
  have hget : (get : HeapM Heap) h = .ok (h, h) := rfl
  simp only [Owner.nodes, List.cons_append, List.length_cons, List.length_append, List.length_nil] at hlen
  simp only [Owner.nodes, List.cons_append, List.nodup_cons, List.nodup_append, List.mem_singleton] at hnodup
  rw [freeBlocks, bind_eq hget, hat.descs]
  change (loadWord (o.head i + 4#32) >>= fun elem => listElemsFrom (o.tail i) (2 ^ 32) elem) h = _
  rw [bind_eq (hat.loadWord hhead.2), hlist.first]
  apply listElemsFrom_words hat ha hi _ hlist.blocks (List.IsChain.of_cons hlist.chain)
  · intro hmem
    exact hnodup.2.2.2 _ hmem _ rfl rfl
  · omega

theorem held_place (ha : Arenas o A) {p : Word} {size : ℕ} (hp : Held A F p size) :
    ∃ kind, A (p.toNat / 4096) = some kind ∧ 12 ≤ p.toNat % 4096 ∧
      p.toNat + size ≤ (p.toNat / 4096 + kind.pages) * 4096 := by
  rcases hp with ⟨-, i, hi, hfit, hblock, -⟩ | ⟨-, n, hn, rfl⟩
  · obtain ⟨hn, hlo, hhi, -⟩ := block_place ha hblock
    refine ⟨_, hn, hlo, ?_⟩
    simp only [Kind.pages]
    omega
  · obtain ⟨hpage, hmod, -⟩ := header_place ha hn (c := 12) (by omega)
    rw [hpage]
    refine ⟨_, hn, by omega, ?_⟩
    simp only [Kind.pages]
    omega

theorem held_apart (ha : Arenas o A) {p q : Word} {size size' : ℕ} (hp : Held A F p size) (hq : Held A F q size')
    (hne : p ≠ q) : BytesApart p.toNat size q.toNat size' := by
  obtain ⟨kind, hkind, hlo, hhi⟩ := held_place ha hp
  obtain ⟨kind', hkind', hlo', hhi'⟩ := held_place ha hq
  unfold BytesApart
  by_cases hpage : p.toNat / 4096 = q.toNat / 4096
  · rcases hp with ⟨-, i, hi, hfit, hblock, -⟩ | ⟨-, n, hn, rfl⟩
    · rcases hq with ⟨-, j, hj, hfit', hblock', -⟩ | ⟨-, n', hn', rfl⟩
      · have := block_apart ha hblock hblock' hne
        omega
      · have hA := (block_place ha hblock).1
        rw [hpage, (header_place ha hn' (by omega)).1, hn'] at hA
        cases hA
    · rcases hq with ⟨-, j, hj, hfit', hblock', -⟩ | ⟨-, n', hn', rfl⟩
      · have hA := (block_place ha hblock').1
        rw [← hpage, (header_place ha hn (by omega)).1, hn] at hA
        cases hA
      · rw [(header_place ha hn (by omega)).1, (header_place ha hn' (by omega)).1] at hpage
        rw [hpage] at hne
        exact absurd rfl hne
  · have := ha.disjoint _ _ _ _ hkind hkind' hpage
    omega

theorem toNat_block2arena (b : Word) : (block2arena b).toNat = b.toNat / 4096 * 4096 := toNat_frame b

theorem isArena_page (inv : HeapInv o A F W live h) {a : Word} (harena : IsArena h live a) :
    ∃ n kind, A n = some kind ∧ a.toNat = n * 4096 := by
  have ha := inv.layout.arenas
  rcases harena with ⟨b, hb, rfl⟩ | ⟨i, bs, hi, hlist, b, hb, rfl⟩
  · obtain ⟨kind, hkind⟩ := (inv.held b hb).page ha
    exact ⟨_, kind, hkind, toNat_block2arena _⟩
  · rw [freeBlocks_words inv.words inv.layout hi, Except.ok.injEq, Prod.mk.injEq] at hlist
    obtain ⟨rfl, -⟩ := hlist
    exact ⟨_, _, (block_place ha ((inv.layout.lists i hi).blocks b hb)).1, toNat_block2arena _⟩

theorem Space.marked {P : ℕ → Prop} {m : Machine} (hs : Space o P m) {k : ℕ} (hk : P k) :
    (vaddrOf o.pool m).vaddrBitmap.scanTest (k - basePage o.pool) = true := by
  obtain ⟨stray, H, inv, hH⟩ := hs.frames
  have hHk := hH k hk
  cases hpf : o.pool with
  | kernel =>
    rw [hpf] at hHk
    exact (inv.heap k hHk).2.2
  | user =>
    rw [hpf] at hHk
    obtain ⟨f, hf⟩ := inv.mapped _ hHk
    exact (inv.user m.cur k f (inv.page _ hHk).1 hf).2

theorem heapByte_page (inv : HeapInv o A F W live h) {a : Word} (hbyte : HeapByte h live a) : pagesOf A (a.toNat / 4096) := by
  have ha := inv.layout.arenas
  rcases hbyte with ⟨b, hb, k, hk, rfl⟩ | ⟨r, k, harena, hk, rfl⟩
  · obtain ⟨kind, hkind, hlo, hhi⟩ := held_place ha (inv.held b hb)
    have hpages := ha.pages _ kind hkind
    have hnat : (b.1 + BitVec.ofNat 32 k).toNat = b.1.toNat + k := by
      rw [BitVec.toNat_add, BitVec.toNat_ofNat]
      omega
    rw [hnat]
    exact ⟨_, kind, hkind, by omega, by omega⟩
  · obtain ⟨n, kind, hn, hr⟩ := isArena_page inv harena
    have hpages := ha.pages n kind hn
    have hnat : (r + BitVec.ofNat 32 k).toNat = r.toNat + k := by
      rw [BitVec.toNat_add, BitVec.toNat_ofNat]
      omega
    rw [hnat, hr]
    exact ⟨n, kind, hn, by omega, by omega⟩

theorem HeapInv.blocksApart (inv : HeapInv o A F W live h) : BlocksApart h live := by
  have ha := inv.layout.arenas
  have hs := inv.words.space
  refine ⟨?_, ?_, ?_, ?_, ?_⟩
  · intro b hb k hk
    obtain ⟨kind, hkind, hlo, hhi⟩ := held_place ha (inv.held b hb)
    have hpages := ha.pages _ kind hkind
    have hsum : b.1.toNat + k < 2 ^ 32 := by omega
    have hpage : pagesOf A ((b.1.toNat + k) / 4096) := ⟨_, kind, hkind, by omega, by omega⟩
    refine ⟨hsum, ⟨?_, ?_⟩, ?_⟩
    · rw [inv.words.pool]
      exact (hs.range hpage).1
    · rw [inv.words.pool]
      exact hs.marked hpage
    · have hnat : (b.1 + BitVec.ofNat 32 k).toNat = b.1.toNat + k := by
        rw [BitVec.toNat_add, BitVec.toNat_ofNat]
        omega
      rw [← hnat] at hpage
      obtain ⟨f, hf⟩ := hs.mapped hpage
      rw [hs.access hpage hf]
      simp
  · intro a c ha' hc' heq
    have hpage := heapByte_page inv ha'
    have hpage' := heapByte_page inv hc'
    obtain ⟨f, hf⟩ := hs.mapped hpage
    obtain ⟨g, hg⟩ := hs.mapped hpage'
    rw [hs.access hpage hf, hs.access hpage' hg, Option.some.injEq] at heq
    exact hs.phys_inj hpage hpage' hf hg heq
  · intro b hb
    obtain ⟨kind, hkind, hlo, hhi⟩ := held_place ha (inv.held b hb)
    rw [toNat_block2arena]
    omega
  · have hnodup := List.pairwise_map.mp inv.nodup
    refine hnodup.imp_of_mem ?_
    intro b c hb hc hne
    exact held_apart ha (inv.held b hb) (inv.held c hc) hne
  · intro b hb a harena
    obtain ⟨n, kind', hn, hnat⟩ := isArena_page inv harena
    obtain ⟨kind, hkind, hlo, hhi⟩ := held_place ha (inv.held b hb)
    rw [BytesApart, hnat]
    by_cases hpage : b.1.toNat / 4096 = n
    · omega
    · have := ha.disjoint _ _ _ _ hkind hn hpage
      have := ha.pages n kind' hn
      omega

end

/-- The block at `p` holds zeros. -/
def Zeroed (h : Heap) (p : Word) (size : ℕ) : Prop :=
  ∀ k, 4 * k < size → (access h.machine (p + BitVec.ofNat 32 (4 * k))).map h.machine.mem = some 0

theorem HeapInv.returned {o : Owner} {A : ℕ → Option Kind} {F : ℕ → List Word} {W : Word → Word} {live : List (Word × ℕ)} {h h' : Heap}
    (hinv : HeapInv o A F W live h) {size : ℕ} {p : Word} (hcached : MallocUnstale size h)
    (hcall : Paging.sysMalloc size h = .ok (some p, h')) : Zeroed h' p size ∧ BlocksApart h' ((p, size) :: live) := by
  rcases hinv.sysMalloc size hcached with ⟨e, -, herr, -⟩ | hnone | ⟨q, k, A', F', W', hok, hpos, hinv', hzero⟩
  · rw [hcall] at herr
    cases herr
  · rw [hcall] at hnone
    cases hnone
  · rw [hcall] at hok
    cases hok
    refine ⟨?_, hinv'.blocksApart⟩
    intro j hj
    obtain ⟨kind, hkind, hlo, hhi⟩ := held_place hinv'.layout.arenas (hinv'.held _ (List.mem_cons_self))
    have hpages := hinv'.layout.arenas.pages _ kind hkind
    have hnat : (p + BitVec.ofNat 32 (4 * j)).toNat = p.toNat + 4 * j := by
      simp only at hhi hpages
      rw [BitVec.toNat_add, BitVec.toNat_ofNat]
      omega
    have hpage : pagesOf A' ((p + BitVec.ofNat 32 (4 * j)).toNat / 4096) := by
      rw [hnat]
      simp only at hhi hkind
      exact ⟨_, kind, hkind, by omega, by omega⟩
    have hspace := hinv'.words.space
    obtain ⟨f, hf⟩ := hspace.mapped hpage
    rw [hspace.access hpage hf, ← (hspace.walk hpage hf).1]
    exact (hinv'.words.pageCells _ hpage).trans (congrArg some (hzero j hj))

/-- In every run of a task's heap without stale translations what it holds is mapped and apart from everything else, and what
`sys_malloc` returns is clear. -/
theorem heap_blocks_apart (ram : PhysMem) (beyond : ByteMemory.Memory) (allMem : ℕ) (start h : Heap) (L : Use → Prop)
    (live : List (Word × ℕ)) (hboot : MemRun MemCall.Clean (memInit ram beyond allMem) start.machine L)
    (hrun : HeapRun MallocUnstale start h live) :
    BlocksApart h live ∧ ∀ size p h', MallocUnstale size h → sysMalloc size h = .ok (some p, h') →
      Zeroed h' p size ∧ BlocksApart h' ((p, size) :: live) := by
  obtain ⟨H, inv⟩ := runInv_clean hboot
  obtain ⟨A, F, W, hinv⟩ := heapInv_run inv hrun
  exact ⟨hinv.blocksApart, fun size p h' hcached hcall => hinv.returned hcached hcall⟩

def heapAfter {α : Type} (x : HeapM α) (h : Heap) : Heap :=
  match x h with
  | .ok (_, h') => h'
  | .error _ => h

theorem heapAfter_eq {α : Type} [DecidableEq α] {x : HeapM α} {h : Heap} {a : α}
    (hx : runsTo x h (fun b _ => decide (b = a)) = true) : x h = .ok (a, heapAfter x h) := by
  obtain ⟨b, h', hrun, hb⟩ := runs_of_runsTo hx
  rw [decide_eq_true_iff] at hb
  subst hb
  rw [heapAfter, hrun]

def firstPageDescs : TaskDescs := ⟨0xc0100000#32, by decide⟩

/-- The first kernel thread of a machine with eight pages in each pool. -/
def bootHeap : Heap :=
  ⟨cleanBoot 16, imageDescs, fun _ => firstPageDescs, fun _ => 0⟩

def freshHeap : Heap := heapAfter (blockDescInit bootHeap.descs) bootHeap

theorem mallocUnstale_of_runsTo {size : ℕ} {h : Heap} (ht : runsTo (pagesFor size) h (fun r _ =>
    decide (∀ cnt ∈ r, Unstale h.machine h.pool (vaddrOf h.pool h.machine).vaddrBitmap 0 cnt)) = true) : MallocUnstale size h := by
  intro cnt hcall
  obtain ⟨r, h', hrun, hr⟩ := runs_of_runsTo ht
  rw [hcall, Except.ok.injEq, Prod.mk.injEq] at hrun
  obtain ⟨rfl, -⟩ := hrun
  exact of_decide_eq_true hr cnt rfl

def heldHeap : Heap := heapAfter (sysMalloc 2000) freshHeap

def cachedHeap : Heap := heldHeap.cache 0xc0100000#32 0x200000#32

theorem cachedHeap_run (ok : ℕ → Heap → Prop) (hok : ok 2000 freshHeap) : HeapRun ok bootHeap cachedHeap [(0xc010000c#32, 2000)] := by
  have hinit : blockDescInit bootHeap.descs bootHeap = .ok ((), freshHeap) := heapAfter_eq (by decide +kernel)
  have hmalloc : sysMalloc 2000 freshHeap = .ok (some 0xc010000c#32, heldHeap) := heapAfter_eq (by decide +kernel)
  have hwalk : walk heldHeap.machine.mem heldHeap.machine.cr3 0xc0100000#32 = some 0x200000#32 := by decide +kernel
  exact HeapRun.cache (HeapRun.malloc (HeapRun.init hinit) hok hmalloc) hwalk

def pairHeap : Heap := heapAfter (sysMalloc 2000) cachedHeap

def holeHeap : Heap := heapAfter (sysFree 0xc010000c#32) pairHeap

theorem holeHeap_run (ok : ℕ → Heap → Prop) (hok : ok 2000 freshHeap) (hok' : ok 2000 cachedHeap) :
    HeapRun ok bootHeap holeHeap [(0xc010100c#32, 2000)] := by
  have hmalloc : sysMalloc 2000 cachedHeap = .ok (some 0xc010100c#32, pairHeap) := heapAfter_eq (by decide +kernel)
  have hfree : sysFree 0xc010000c#32 pairHeap = .ok ((), holeHeap) := heapAfter_eq (by decide +kernel)
  have hpair := HeapRun.malloc (cachedHeap_run ok hok) hok' hmalloc
  exact HeapRun.free hpair (show (0xc010000c#32, 2000) ∈ _ by simp) hfree

def reusedHeap : Heap := heapAfter (sysMalloc 3000) holeHeap

def mixedHeap : Heap := heapAfter (sysMalloc 500) reusedHeap

theorem mixedHeap_run :
    HeapRun MallocUnstale bootHeap mixedHeap [(0xc010200c#32, 500), (0xc010000c#32, 3000), (0xc010100c#32, 2000)] := by
  have hhole := holeHeap_run MallocUnstale (mallocUnstale_of_runsTo (by decide +kernel)) (mallocUnstale_of_runsTo (by decide +kernel))
  have hlarge : sysMalloc 3000 holeHeap = .ok (some 0xc010000c#32, reusedHeap) := heapAfter_eq (by decide +kernel)
  have hsmall : sysMalloc 500 reusedHeap = .ok (some 0xc010200c#32, mixedHeap) := heapAfter_eq (by decide +kernel)
  have hreused := HeapRun.malloc hhole (mallocUnstale_of_runsTo (by decide +kernel)) hlarge
  exact HeapRun.malloc hreused (mallocUnstale_of_runsTo (by decide +kernel)) hsmall

theorem heap_blocks_apart_mixed : BlocksApart mixedHeap [(0xc010200c#32, 500), (0xc010000c#32, 3000), (0xc010100c#32, 2000)] :=
  (heap_blocks_apart (fun _ => 0) ByteMemory.zeros _ bootHeap mixedHeap _ _ MemRun.boot mixedHeap_run).1

def largerHeap : Heap := heapAfter (sysMalloc 5000) holeHeap

def lastHeap : Heap := heapAfter (sysFree 0xc010100c#32) largerHeap

def staleHeap : Heap := heapAfter (sysMalloc 2000) lastHeap

theorem staleHeap_run : HeapRun (fun _ _ => True) bootHeap staleHeap [(0xc010000c#32, 2000), (0xc010200c#32, 5000)] := by
  have hlarger : sysMalloc 5000 holeHeap = .ok (some 0xc010200c#32, largerHeap) := heapAfter_eq (by decide +kernel)
  have hfree : sysFree 0xc010100c#32 largerHeap = .ok ((), lastHeap) := heapAfter_eq (by decide +kernel)
  have hagain : sysMalloc 2000 lastHeap = .ok (some 0xc010000c#32, staleHeap) := heapAfter_eq (by decide +kernel)
  have hrun := HeapRun.malloc (holeHeap_run (fun _ _ => True) trivial trivial) trivial hlarger
  have hlast := HeapRun.free hrun (show (0xc010100c#32, 2000) ∈ _ by simp) hfree
  exact HeapRun.malloc hlast trivial hagain

/-- Through the translation that `mfree_page` left cached two blocks lie in one frame. -/
theorem heap_blocks_apart_stale : ∃ h live, HeapRun (fun _ _ => True) bootHeap h live ∧ ¬ BlocksApart h live := by
  refine ⟨_, _, staleHeap_run, ?_⟩
  intro hblocks
  have hplace : access staleHeap.machine 0xc010000c#32 = access staleHeap.machine 0xc010200c#32 := by decide +kernel
  have heq := hblocks.places _ _ (Or.inl ⟨(0xc010000c#32, 2000), by simp, 0, by simp, by simp⟩)
    (Or.inl ⟨(0xc010200c#32, 5000), by simp, 0, by simp, by simp⟩) hplace
  simp at heq

def SameBits (b b' : Bitmap) : Prop :=
  b.btmpBytesLen = b'.btmpBytesLen ∧ ∀ i, i < 8 * b.btmpBytesLen → b.scanTest i = b'.scanTest i

def SmallArena (h : Heap) (live : List (Word × ℕ)) (i : ℕ) (bs : List Word) (a : Word) : Prop :=
  (∃ b ∈ bs, block2arena b = a) ∨
    ∃ b ∈ live, b.2 ≤ 1024 ∧ block2arena b.1 = a ∧ loadWord a h = .ok (descAddr h.descs i, h)

structure Accounted (h : Heap) (live : List (Word × ℕ)) : Prop where
  desc : ∀ b ∈ live, b.2 ≤ 1024 → ∃ i, i < 7 ∧ loadWord (block2arena b.1) h = .ok (descAddr h.descs i, h)
  lists : ∀ i, i < 7 → ∃ bs, freeBlocks i h = .ok (bs, h) ∧ bs.Nodup ∧ ∀ a, SmallArena h live i bs a →
    ∃ cnt blocksPerArena, loadWord (a + 4#32) h = .ok (cnt, h) ∧
      loadWord (descAddr h.descs i + 4#32) h = .ok (blocksPerArena, h) ∧
      cnt.toNat = (bs.filter fun b => block2arena b = a).length ∧ cnt.toNat < blocksPerArena.toNat

section

variable {o : Owner} {A : ℕ → Option Kind} {F : ℕ → List Word} {W : Word → Word} {live : List (Word × ℕ)} {h : Heap}

theorem block2arena_iff {n : ℕ} (hn : n < 0xffc00) (b : Word) : block2arena b = wordAt n 0 ↔ b.toNat / 4096 = n := by
  rw [block2arena_eq]
  constructor
  · intro heq
    have hnat := congrArg BitVec.toNat heq
    rw [toNat_wordAt hn (by omega), wordAt, BitVec.toNat_ofNat] at hnat
    have := b.isLt
    omega
  · rintro rfl
    rfl

theorem held_small (ha : Arenas o A) {p : Word} {size : ℕ} (hp : Held A F p size) (hsize : size ≤ 1024) :
    ∃ i, i < 7 ∧ A (p.toNat / 4096) = some (.small i) := by
  rcases hp with ⟨-, i, hi, -, hblock, -⟩ | ⟨hlt, -⟩
  · exact ⟨i, hi, (block_place ha hblock).1⟩
  · omega

theorem HeapInv.accounted (inv : HeapInv o A F W live h) : Accounted h live := by
  have hl := inv.layout
  have ha := hl.arenas
  have hdesc : ∀ n i, A n = some (.small i) → loadWord (wordAt n 0) h = .ok (o.desc i, h) := by
    intro n i hn
    rw [← (hl.small n i hn).1]
    exact inv.words.loadWord (hl.reach_header hn (by omega))
  refine ⟨?_, ?_⟩
  · intro b hb hsize
    obtain ⟨i, hi, hn⟩ := held_small ha (inv.held b hb) hsize
    refine ⟨i, hi, ?_⟩
    rw [block2arena_eq, hdesc _ i hn, inv.words.descs]
    rfl
  · intro i hi
    refine ⟨F i, freeBlocks_words inv.words hl hi, (hl.lists i hi).nodup, ?_⟩
    intro a harena
    -- either way the arena is a page that holds blocks of size `i`
    obtain ⟨n, hn, rfl⟩ : ∃ n, A n = some (.small i) ∧ a = wordAt n 0 := by
      rcases harena with ⟨b, hb, rfl⟩ | ⟨b, hb, hsize, rfl, hload⟩
      · exact ⟨_, (block_place ha ((hl.lists i hi).blocks b hb)).1, block2arena_eq b⟩
      · obtain ⟨j, hj, hn⟩ := held_small ha (inv.held b hb) hsize
        rw [block2arena_eq, hdesc _ j hn, inv.words.descs, Except.ok.injEq, Prod.mk.injEq] at hload
        have hnat : (o.desc j).toNat = (o.desc i).toNat := congrArg BitVec.toNat hload.1
        rw [toNat_desc o hj, toNat_desc o hi] at hnat
        obtain rfl : j = i := by omega
        exact ⟨_, hn, block2arena_eq b.1⟩
    have hper := perArena_bound i
    have hused := inv.used n i hn
    refine ⟨BitVec.ofNat 32 (freeIn n (F i)), BitVec.ofNat 32 (perArena i), ?_, ?_, ?_, ?_⟩
    · rw [show wordAt n 0 + 4#32 = wordAt n 4 from wordAt_add n 0 4, ← inv.count n i hn]
      exact inv.words.loadWord (hl.reach_header hn (by omega))
    · rw [inv.words.descs, ← (hl.sizes i hi).2]
      exact inv.words.loadWord (Layout.reach_desc o _ hi).2
    · rw [BitVec.toNat_ofNat, Nat.mod_eq_of_lt (by omega), freeIn, List.countP_eq_length_filter]
      congr 1
      apply List.filter_congr
      intro b _
      simp only [block2arena_iff (ha.bound hn)]
    · rw [toNat_perArena, BitVec.toNat_ofNat, Nat.mod_eq_of_lt (by omega)]
      exact hused

theorem HeapInv.no_arena (inv : HeapInv o A F W [] h) (n : ℕ) : A n = none := by
  cases hn : A n with
  | none => rfl
  | some kind =>
    exfalso
    cases kind with
    | small i =>
      have ha := inv.layout.arenas
      have hbound := ha.bound hn
      have hused := inv.used n i hn
      have hall : ((Finset.range (perArena i)).image (blockAddr n i)) ⊆ ((F i).filter fun b => b.toNat / 4096 = n).toFinset := by
        intro b hb
        obtain ⟨k, hk, rfl⟩ := Finset.mem_image.mp hb
        have hk' := Finset.mem_range.mp hk
        rcases inv.blocks n i k hn hk' with hmem | ⟨size, hlive⟩
        · rw [List.mem_toFinset, List.mem_filter]
          exact ⟨hmem, by simpa using blockAddr_page hbound hk'⟩
        · cases hlive
      have hcard := Finset.card_le_card hall
      rw [Finset.card_image_of_injOn, Finset.card_range] at hcard
      · have hle := List.toFinset_card_le ((F i).filter fun b => b.toNat / 4096 = n)
        rw [← List.countP_eq_length_filter] at hle
        unfold freeIn at hused
        omega
      · intro k hk l hlt heq
        exact blockAddr_inj hbound (by simpa using hk) (by simpa using hlt) heq
    | large cnt =>
      obtain ⟨size, hlive⟩ := inv.pages n cnt hn
      cases hlive

theorem taken_frame {m : Machine} (hs : Shape m) {b : ℕ} (hb : b < 8 * m.kernelPool.poolBitmap.btmpBytesLen) :
    Taken m .kernel (BitVec.ofNat 32 (b * 4096 + m.kernelPool.phyAddrStart)) ↔ m.kernelPool.poolBitmap.scanTest b = true := by
  constructor
  · rintro ⟨c, hc, heq, hbit⟩
    have := frameAddr_inj hs .kernel hb hc heq
    rw [this]
    exact hbit
  · intro hbit
    exact ⟨b, hb, rfl, hbit⟩

theorem sameBits_of_account {start m : Machine} (hs : Shape start) (hs' : Shape m) (hacc : Account start (fun _ => False) m) :
    SameBits m.kernelVaddr.vaddrBitmap start.kernelVaddr.vaddrBitmap ∧
      SameBits m.kernelPool.poolBitmap start.kernelPool.poolBitmap := by
  refine ⟨⟨hacc.vaddrLen, ?_⟩, hacc.poolLen, ?_⟩
  · intro i _
    rw [Bool.eq_iff_iff, hacc.vaddr]
    simp
  · intro b hb
    have hb' : b < 8 * start.kernelPool.poolBitmap.btmpBytesLen := by
      rw [← hacc.poolLen]
      exact hb
    rw [Bool.eq_iff_iff, ← taken_frame hs' hb, ← taken_frame hs hb', hs.kernelStart, hs'.kernelStart, hacc.pool]
    simp

end

/-- The books of a kernel thread's heap, and its pages when all is given back. -/
theorem heap_accounting (ram : PhysMem) (beyond : ByteMemory.Memory) (allMem : ℕ) (start h : Heap) (L : Use → Prop)
    (live : List (Word × ℕ)) (hboot : MemRun MemCall.Clean (memInit ram beyond allMem) start.machine L)
    (hthread : start.machine.pgdir start.machine.cur = none) (hrun : HeapRun MallocUnstale start h live) :
    Accounted h live ∧
      (∀ size e, MallocUnstale size h → sysMalloc size h = .error e → ∃ cnt e', e = .page e' ∧ mallocPage .kernel cnt h.machine = .error e') ∧
      (∀ p size, (p, size) ∈ live → ∃ h', sysFree p h = .ok ((), h')) ∧
      (live = [] → SameBits h.machine.kernelVaddr.vaddrBitmap start.machine.kernelVaddr.vaddrBitmap ∧
        SameBits h.machine.kernelPool.poolBitmap start.machine.kernelPool.poolBitmap) := by
  obtain ⟨H, inv⟩ := runInv_clean hboot
  obtain ⟨A, F, W, hinv⟩ := heapInv_run inv hrun
  have hpf : (ownerOf start).pool = .kernel := by
    change start.pool = .kernel
    rw [Heap.pool, if_pos hthread]
  refine ⟨hinv.accounted, ?_, ?_, ?_⟩
  · intro size e hcached hcall
    rcases hinv.sysMalloc size hcached with ⟨e', cnt, herr, -, hpage⟩ | hnone | ⟨q, k, A', F', W', hok, -⟩
    · rw [hcall, Except.error.injEq] at herr
      subst herr
      rw [hpf, page] at hpage
      cases hm : mallocPage .kernel cnt h.machine with
      | error e' =>
        rw [hm, Except.error.injEq] at hpage
        exact ⟨cnt, e', hpage.symm, hm⟩
      | ok r =>
        rw [hm] at hpage
        cases hpage
    · rw [hcall] at hnone
      cases hnone
    · rw [hcall] at hok
      cases hok
  · intro p size hp
    obtain ⟨h', -, -, -, hok, -⟩ := hinv.sysFree hp
    exact ⟨h', hok⟩
  · rintro rfl
    have hpages : pagesOf A = fun _ => False := by
      funext k
      apply propext
      constructor
      · rintro ⟨n, kind, hn, -⟩
        rw [hinv.no_arena n] at hn
        cases hn
      · exact False.elim
    have hspace := hinv.words.space
    have hacc := hspace.account hpf
    rw [hpages] at hacc
    obtain ⟨stray, H', inv', -⟩ := hspace.frames
    exact sameBits_of_account inv.frames.shape inv'.shape hacc

theorem heap_accounting_emptied : ∃ h₁ h₂ h₃, sysFree 0xc010200c#32 mixedHeap = .ok ((), h₁) ∧ sysFree 0xc010000c#32 h₁ = .ok ((), h₂) ∧
    sysFree 0xc010100c#32 h₂ = .ok ((), h₃) ∧
    SameBits h₃.machine.kernelVaddr.vaddrBitmap bootHeap.machine.kernelVaddr.vaddrBitmap ∧
    SameBits h₃.machine.kernelPool.poolBitmap bootHeap.machine.kernelPool.poolBitmap := by
  have hall {h : Heap} {live : List (Word × ℕ)} (hrun : HeapRun MallocUnstale bootHeap h live) :=
    heap_accounting (fun _ => 0) ByteMemory.zeros _ bootHeap h _ live MemRun.boot rfl hrun
  obtain ⟨h₁, hsmall⟩ := (hall mixedHeap_run).2.2.1 0xc010200c#32 500 (by simp)
  have hrun₁ := HeapRun.free mixedHeap_run (show (0xc010200c#32, 500) ∈ _ by simp) hsmall
  obtain ⟨h₂, hlarge⟩ := (hall hrun₁).2.2.1 0xc010000c#32 3000 (by simp [dropLive])
  have hrun₂ := HeapRun.free hrun₁ (show (0xc010000c#32, 3000) ∈ _ by simp [dropLive]) hlarge
  obtain ⟨h₃, hlast⟩ := (hall hrun₂).2.2.1 0xc010100c#32 2000 (by simp [dropLive])
  have hrun₃ := HeapRun.free hrun₂ (show (0xc010100c#32, 2000) ∈ _ by simp [dropLive]) hlast
  exact ⟨h₁, h₂, h₃, hsmall, hlarge, hlast, (hall hrun₃).2.2.2 (by simp [dropLive])⟩

def brokenHeap : Heap := heapAfter (sysFree 0xc010200c#32) staleHeap

def lostHeap : Heap := heapAfter (sysFree 0xc010000c#32) brokenHeap

/-- The header of the new block has overwritten that of the larger one: of its two pages only the first is given back. -/
theorem heap_accounting_stale : ∃ h, HeapRun (fun _ _ => True) bootHeap h [] ∧
    ¬ SameBits h.machine.kernelPool.poolBitmap bootHeap.machine.kernelPool.poolBitmap := by
  have hfirst : sysFree 0xc010200c#32 staleHeap = .ok ((), brokenHeap) := heapAfter_eq (by decide +kernel)
  have hsecond : sysFree 0xc010000c#32 brokenHeap = .ok ((), lostHeap) := heapAfter_eq (by decide +kernel)
  have h₁ := HeapRun.free staleHeap_run (show (0xc010200c#32, 5000) ∈ _ by simp) hfirst
  have h₂ := HeapRun.free h₁ (show (0xc010000c#32, 2000) ∈ _ by simp [dropLive]) hsecond
  refine ⟨lostHeap, by simpa [dropLive] using h₂, ?_⟩
  intro hsame
  have hset : lostHeap.machine.kernelPool.poolBitmap.scanTest 2 = true := by decide +kernel
  have hclear : bootHeap.machine.kernelPool.poolBitmap.scanTest 2 = false := by decide +kernel
  have hlen : lostHeap.machine.kernelPool.poolBitmap.btmpBytesLen = 1 := by decide +kernel
  have hbit := hsame.2 2 (by omega)
  rw [hset, hclear] at hbit
  cases hbit

end ElephantOS.Paging
