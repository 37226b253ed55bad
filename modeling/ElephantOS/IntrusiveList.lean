import ElephantOS.HeapLists

/-! `lib/kernel/list.c`: any number of lists whose elements lie inside other objects, against the sequences they stand for. -/

namespace ElephantOS.IntrusiveList

open LinkedList
open Paging (links words_length)

/-- The words of memory. An element keeps `prev` in its first word and `next` in its second, a list its `head` and then its `tail`. -/
abbrev Memory := Word → Word

def tailOf (plist : Word) : Word := plist + 8#32

def listInit (list : Word) (M : Memory) : Memory :=
  let M₁ := Function.update M (links.prev list) 0
  let M₂ := Function.update M₁ (links.next list) (tailOf list)
  let M₃ := Function.update M₂ (links.prev (tailOf list)) list
  Function.update M₃ (links.next (tailOf list)) 0

def listInsertBefore (before elem : Word) (M : Memory) : Memory := links.insertBefore M before elem

def listPush (plist elem : Word) (M : Memory) : Memory := listInsertBefore (M (links.next plist)) elem M

def listAppend (plist elem : Word) (M : Memory) : Memory := listInsertBefore (tailOf plist) elem M

def listRemove (pelem : Word) (M : Memory) : Memory := links.remove M pelem

def listPop (plist : Word) (M : Memory) : Word × Memory :=
  let elem := M (links.next plist)
  (elem, listRemove elem M)

/-- The loop of `elem_find`; a search over more elements than there are addresses does not end. -/
def elemFindFrom (M : Memory) (tail objElem : Word) : ℕ → Word → Option Bool
  | 0, _ => none
  | fuel + 1, elem =>
    if elem = tail then some false
    else if elem = objElem then some true
    else elemFindFrom M tail objElem fuel (M (links.next elem))

def elemFind (plist objElem : Word) (M : Memory) : Option Bool :=
  elemFindFrom M (tailOf plist) objElem (2 ^ 32) (M (links.next plist))

def listLenFrom (M : Memory) (tail : Word) : ℕ → Word → Word → Option Word
  | 0, _, _ => none
  | fuel + 1, elem, length =>
    if elem = tail then some length else listLenFrom M tail fuel (M (links.next elem)) (length + 1)

def listLen (plist : Word) (M : Memory) : Option Word := listLenFrom M (tailOf plist) (2 ^ 32) (M (links.next plist)) 0

def listEmpty (plist : Word) (M : Memory) : Bool := M (links.next plist) = tailOf plist

inductive Call
  | listInit (list : Word)
  | listPush (plist elem : Word)
  | listAppend (plist elem : Word)
  | listRemove (pelem : Word)
  | listPop (plist : Word)
  | elemFind (plist objElem : Word)
  | listLen (plist : Word)
  | listEmpty (plist : Word)

inductive Answer
  | done
  | elem (e : Word)
  | truth (b : Bool)
  | len (n : ℕ)
  deriving DecidableEq

def Call.run : Call → Memory → Option (Answer × Memory)
  | .listInit list, M => some (.done, IntrusiveList.listInit list M)
  | .listPush plist elem, M => some (.done, IntrusiveList.listPush plist elem M)
  | .listAppend plist elem, M => some (.done, IntrusiveList.listAppend plist elem M)
  | .listRemove pelem, M => some (.done, IntrusiveList.listRemove pelem M)
  | .listPop plist, M => some (.elem (IntrusiveList.listPop plist M).1, (IntrusiveList.listPop plist M).2)
  | .elemFind plist objElem, M => (IntrusiveList.elemFind plist objElem M).map fun b => (.truth b, M)
  | .listLen plist, M => (IntrusiveList.listLen plist M).map fun n => (.len n.toNat, M)
  | .listEmpty plist, M => some (.truth (IntrusiveList.listEmpty plist M), M)

def runAll : List Call → Memory → Option (List Answer × Memory)
  | [], M => some ([], M)
  | c :: cs, M => do
    let (answer, M') ← c.run M
    let (answers, M'') ← runAll cs M'
    return (answer :: answers, M'')

/-- The lists and the elements of a system, each in bytes of its own. -/
structure Objects where
  lists : List Word
  elems : List Word
  lists_fit : ∀ L ∈ lists, L.toNat + 16 ≤ 2 ^ 32
  elems_fit : ∀ e ∈ elems, e.toNat + 8 ≤ 2 ^ 32
  lists_apart : ∀ L ∈ lists, ∀ L' ∈ lists, L ≠ L' → L.toNat + 16 ≤ L'.toNat ∨ L'.toNat + 16 ≤ L.toNat
  elems_apart : ∀ e ∈ elems, ∀ e' ∈ elems, e ≠ e' → e.toNat + 8 ≤ e'.toNat ∨ e'.toNat + 8 ≤ e.toNat
  apart : ∀ L ∈ lists, ∀ e ∈ elems, L.toNat + 16 ≤ e.toNat ∨ e.toNat + 8 ≤ L.toNat

abbrev Sequences := Word → Option (List Word)

namespace Call

def apply : Call → Sequences → Sequences
  | .listInit list, S => Function.update S list (some [])
  | .listPush plist elem, S => Function.update S plist ((S plist).map (elem :: ·))
  | .listAppend plist elem, S => Function.update S plist ((S plist).map (· ++ [elem]))
  | .listRemove pelem, S => fun L => (S L).map (·.erase pelem)
  | .listPop plist, S => Function.update S plist ((S plist).map List.tail)
  | _, S => S

def answer : Call → Sequences → Answer
  | .listPop plist, S => .elem (((S plist).getD []).headD 0)
  | .elemFind plist objElem, S => .truth (objElem ∈ (S plist).getD [])
  | .listLen plist, S => .len ((S plist).getD []).length
  | .listEmpty plist, S => .truth ((S plist).getD [] = [])
  | _, _ => .done

/-- An element is inserted only while it is on no list, and removed from the list it is on. -/
def Allowed (O : Objects) (S : Sequences) : Call → Prop
  | .listInit list => list ∈ O.lists
  | .listPush plist elem | .listAppend plist elem =>
    (S plist).isSome ∧ elem ∈ O.elems ∧ ∀ L ∈ O.lists, elem ∉ (S L).getD []
  | .listRemove pelem => ∃ L ∈ O.lists, pelem ∈ (S L).getD []
  | .listPop plist => (S plist).getD [] ≠ []
  | .elemFind plist _ | .listLen plist | .listEmpty plist => (S plist).isSome

/-- The list that a call changes. -/
def Changes (S : Sequences) (L : Word) : Call → Prop
  | .listInit list => L = list
  | .listPush plist _ | .listAppend plist _ | .listPop plist => L = plist
  | .listRemove pelem => pelem ∈ (S L).getD []
  | _ => False

end Call

def applyAll : List Call → Sequences → Sequences
  | [], S => S
  | c :: cs, S => applyAll cs (c.apply S)

def answers : List Call → Sequences → List Answer
  | [], _ => []
  | c :: cs, S => c.answer S :: answers cs (c.apply S)

def AllAllowed (O : Objects) : List Call → Sequences → Prop
  | [], _ => True
  | c :: cs, S => c.Allowed O S ∧ AllAllowed O cs (c.apply S)

def chainOf (L : Word) (l : List Word) : List Word := L :: l ++ [tailOf L]

structure Represents (O : Objects) (S : Sequences) (M : Memory) : Prop where
  list : ∀ L l, S L = some l → L ∈ O.lists
  elems : ∀ L l, S L = some l → ∀ e ∈ l, e ∈ O.elems
  nodup : ∀ L l, S L = some l → l.Nodup
  once : ∀ L l L' l', S L = some l → S L' = some l' → ∀ e ∈ l, e ∈ l' → L = L'
  chain : ∀ L l, S L = some l → links.Chain M (chainOf L l)

/-- The nodes of a list hold the same links. -/
def SameNodes (M M' : Memory) (L : Word) (l : List Word) : Prop :=
  ∀ x ∈ chainOf L l, M' (links.next x) = M (links.next x) ∧ M' (links.prev x) = M (links.prev x)

namespace Objects

def Node (O : Objects) (x : Word) : Prop := x ∈ O.elems ∨ ∃ L ∈ O.lists, x = L ∨ x = tailOf L

variable {O : Objects} {L x y : Word} {l : List Word}

theorem toNat_tailOf (hL : L ∈ O.lists) : (tailOf L).toNat = L.toNat + 8 := by
  have hfit := O.lists_fit L hL
  rw [tailOf, BitVec.toNat_add]
  change (L.toNat + 8) % 2 ^ 32 = L.toNat + 8
  omega

theorem node_fits (hx : O.Node x) : x.toNat + 8 ≤ 2 ^ 32 := by
  rcases hx with hx | ⟨L, hL, rfl | rfl⟩
  · exact O.elems_fit x hx
  · have := O.lists_fit x hL
    omega
  · have := O.lists_fit L hL
    rw [toNat_tailOf hL]
    omega

theorem list_elem_apart {e : Word} (hL : L ∈ O.lists) (he : e ∈ O.elems) (hx : x = L ∨ x = tailOf L) :
    x.toNat + 8 ≤ e.toNat ∨ e.toNat + 8 ≤ x.toNat := by
  have hapart := O.apart L hL e he
  rcases hx with rfl | rfl
  · omega
  · rw [toNat_tailOf hL]
    omega

theorem ends_apart {L' : Word} (hL : L ∈ O.lists) (hL' : L' ∈ O.lists) (hx : x = L ∨ x = tailOf L)
    (hy : y = L' ∨ y = tailOf L') (hxy : x ≠ y) : x.toNat + 8 ≤ y.toNat ∨ y.toNat + 8 ≤ x.toNat := by
  have htail := toNat_tailOf hL
  have htail' := toNat_tailOf hL'
  by_cases heq : L = L'
  · subst heq
    rcases hx with rfl | rfl <;> rcases hy with rfl | rfl
    · exact absurd rfl hxy
    · omega
    · omega
    · exact absurd rfl hxy
  · have hapart := O.lists_apart L hL L' hL' heq
    rcases hx with rfl | rfl <;> rcases hy with rfl | rfl <;> omega

theorem nodes_apart (hx : O.Node x) (hy : O.Node y) (hxy : x ≠ y) : x.toNat + 8 ≤ y.toNat ∨ y.toNat + 8 ≤ x.toNat := by
  rcases hx with hx | ⟨L, hL, hx⟩ <;> rcases hy with hy | ⟨L', hL', hy⟩
  · exact O.elems_apart x hx y hy hxy
  · exact (list_elem_apart hL' hx hy).symm
  · exact list_elem_apart hL hy hx
  · exact ends_apart hL hL' hx hy hxy

theorem next_ne_prev (hx : O.Node x) (hy : O.Node y) : links.next x ≠ links.prev y := by
  intro h
  have hfit := node_fits hx
  have hnat : (x + 4#32).toNat = y.toNat := congrArg BitVec.toNat h
  rw [BitVec.toNat_add] at hnat
  change (x.toNat + 4) % 2 ^ 32 = y.toNat at hnat
  by_cases hxy : x = y
  · subst hxy
    omega
  · have := nodes_apart hx hy hxy
    omega

theorem separate (hl : ∀ x ∈ l, O.Node x) : links.Separate l :=
  ⟨fun _ _ _ _ h => (BitVec.add_left_inj 4#32).mp h, fun _ _ _ _ h => h, fun x hx y hy => next_ne_prev (hl x hx) (hl y hy)⟩

theorem outside (hl : ∀ x ∈ l, O.Node x) (hy : O.Node y) (hnot : y ∉ l) :
    links.Outside l (links.next y) ∧ links.Outside l (links.prev y) := by
  constructor
  · intro x hx
    constructor
    · intro h
      exact hnot ((BitVec.add_left_inj 4#32).mp h ▸ hx)
    · exact next_ne_prev hy (hl x hx)
  · intro x hx
    constructor
    · exact (next_ne_prev (hl x hx) hy).symm
    · rintro rfl
      exact hnot hx

theorem head_ne_tail {L' : Word} (hL : L ∈ O.lists) (hL' : L' ∈ O.lists) : L ≠ tailOf L' := by
  intro h
  have hnat := congrArg BitVec.toNat h
  have htail := toNat_tailOf hL'
  by_cases heq : L = L'
  · subst heq
    omega
  · have := O.lists_apart L hL L' hL' heq
    omega

theorem elem_ne_end {e : Word} (hL : L ∈ O.lists) (he : e ∈ O.elems) (hx : x = L ∨ x = tailOf L) : e ≠ x := by
  rintro rfl
  have := list_elem_apart hL he hx
  omega

theorem mem_chainOf (hx : x ∈ chainOf L l) : x ∈ l ∨ x = L ∨ x = tailOf L := by
  simp only [chainOf, List.cons_append, List.mem_cons, List.mem_append, List.mem_nil_iff, or_false] at hx
  tauto

theorem chainOf_nodes (hL : L ∈ O.lists) (hl : ∀ e ∈ l, e ∈ O.elems) (hx : x ∈ chainOf L l) : O.Node x := by
  rcases mem_chainOf hx with hx | hx
  · exact Or.inl (hl x hx)
  · exact Or.inr ⟨L, hL, hx⟩

theorem chainOf_nodup (hL : L ∈ O.lists) (hl : ∀ e ∈ l, e ∈ O.elems) (hnodup : l.Nodup) : (chainOf L l).Nodup := by
  have hhead : L ∉ l := fun h => elem_ne_end hL (hl L h) (Or.inl rfl) rfl
  have htail : tailOf L ∉ l := fun h => elem_ne_end hL (hl _ h) (Or.inr rfl) rfl
  simp only [chainOf, List.cons_append, List.nodup_cons, List.mem_append, List.mem_singleton, List.nodup_append]
  refine ⟨?_, hnodup, by simp, ?_⟩
  · rintro (h | h)
    · exact hhead h
    · exact head_ne_tail hL hL h
  · rintro e he t rfl rfl
    exact htail he

theorem chainOf_disjoint {L' : Word} {l' : List Word} (hL : L ∈ O.lists) (hL' : L' ∈ O.lists) (hne : L ≠ L')
    (hl : ∀ e ∈ l, e ∈ O.elems) (hl' : ∀ e ∈ l', e ∈ O.elems) (hdis : ∀ e ∈ l, e ∉ l') (hx : x ∈ chainOf L l) :
    x ∉ chainOf L' l' := by
  intro hx'
  rcases mem_chainOf hx with h | h <;> rcases mem_chainOf hx' with h' | h'
  · exact hdis x h h'
  · exact elem_ne_end hL' (hl x h) h' rfl
  · exact elem_ne_end hL (hl' x h') h rfl
  · rcases h with rfl | rfl <;> rcases h' with h' | h'
    · exact hne h'
    · exact head_ne_tail hL hL' h'
    · exact head_ne_tail hL' hL h'.symm
    · exact hne ((BitVec.add_left_inj 8#32).mp h')

end Objects

variable {O : Objects} {S : Sequences} {M M' : Memory} {L e : Word} {l n : List Word}

namespace Represents

theorem change (hr : Represents O S M) (hL : L ∈ O.lists) (hn : ∀ e ∈ n, e ∈ O.elems)
    (hfree : ∀ L' l', S L' = some l' → L' ≠ L → ∀ e ∈ n, e ∉ l') (hsub : ∀ e ∈ l, e ∈ n) (hnodup : l.Nodup)
    (hchain : links.Chain M' (chainOf L l)) (hout : ∀ a, links.Outside (chainOf L n) a → M' a = M a) :
    Represents O (Function.update S L (some l)) M' ∧ ∀ L' l', S L' = some l' → L' ≠ L → SameNodes M M' L' l' := by
  have hsame : ∀ L' l', S L' = some l' → L' ≠ L → SameNodes M M' L' l' := by
    intro L' l' hl' hne x hx
    have hL' := hr.list L' l' hl'
    have hx' := Objects.chainOf_disjoint hL' hL hne (hr.elems L' l' hl') hn
      (fun e he he' => hfree L' l' hl' hne e he' he) hx
    obtain ⟨hnext, hprev⟩ := Objects.outside (fun y hy => Objects.chainOf_nodes hL hn hy)
      (Objects.chainOf_nodes hL' (hr.elems L' l' hl') hx) hx'
    exact ⟨hout _ hnext, hout _ hprev⟩
  have hcases : ∀ L' l', Function.update S L (some l) L' = some l' → L' = L ∧ l' = l ∨ L' ≠ L ∧ S L' = some l' := by
    intro L' l' h
    by_cases hne : L' = L
    · subst hne
      rw [Function.update_self] at h
      exact Or.inl ⟨rfl, (Option.some.inj h).symm⟩
    · rw [Function.update_of_ne hne] at h
      exact Or.inr ⟨hne, h⟩
  refine ⟨⟨?_, ?_, ?_, ?_, ?_⟩, hsame⟩
  · intro L' l' h
    rcases hcases L' l' h with ⟨rfl, rfl⟩ | ⟨-, h⟩
    · exact hL
    · exact hr.list L' l' h
  · intro L' l' h e he
    rcases hcases L' l' h with ⟨rfl, rfl⟩ | ⟨-, h⟩
    · exact hn e (hsub e he)
    · exact hr.elems L' l' h e he
  · intro L' l' h
    rcases hcases L' l' h with ⟨rfl, rfl⟩ | ⟨-, h⟩
    · exact hnodup
    · exact hr.nodup L' l' h
  · intro L₁ l₁ L₂ l₂ h₁ h₂ e he₁ he₂
    rcases hcases L₁ l₁ h₁ with ⟨heq₁, rfl⟩ | ⟨hne₁, hold₁⟩ <;>
      rcases hcases L₂ l₂ h₂ with ⟨heq₂, rfl⟩ | ⟨hne₂, hold₂⟩
    · exact heq₁.trans heq₂.symm
    · exact absurd he₂ (hfree L₂ l₂ hold₂ hne₂ e (hsub e he₁))
    · exact absurd he₁ (hfree L₁ l₁ hold₁ hne₁ e (hsub e he₂))
    · exact hr.once L₁ l₁ L₂ l₂ hold₁ hold₂ e he₁ he₂
  · intro L' l' h
    rcases hcases L' l' h with ⟨rfl, rfl⟩ | ⟨hne, h⟩
    · exact hchain
    · apply (hr.chain L' l' h).congr
      · intro x hx
        exact (hsame L' l' h hne x (List.mem_of_mem_dropLast hx)).1
      · intro x hx
        exact (hsame L' l' h hne x (List.mem_of_mem_tail hx)).2

theorem listInit (hr : Represents O S M) (hL : L ∈ O.lists) :
    Represents O (Function.update S L (some [])) (listInit L M) ∧
      ∀ L' l', S L' = some l' → L' ≠ L → SameNodes M (IntrusiveList.listInit L M) L' l' := by
  apply hr.change hL (n := []) (by simp) (by simp) (by simp) List.nodup_nil
  · have hnode : ∀ x ∈ chainOf L [], O.Node x := fun x hx => Objects.chainOf_nodes hL (by simp) hx
    have hhead := hnode L (by simp [chainOf])
    have htail := hnode (tailOf L) (by simp [chainOf])
    apply List.isChain_cons_cons.mpr
    refine ⟨⟨?_, ?_⟩, List.isChain_singleton _⟩
    · have hne : links.next L ≠ links.next (tailOf L) :=
        fun h => Objects.head_ne_tail hL hL ((BitVec.add_left_inj 4#32).mp h)
      rw [IntrusiveList.listInit, Function.update_of_ne hne, Function.update_of_ne (Objects.next_ne_prev hhead htail),
        Function.update_self]
    · rw [IntrusiveList.listInit, Function.update_of_ne (Objects.next_ne_prev htail htail).symm, Function.update_self]
  · intro a ha
    have hhead := ha L (by simp [chainOf])
    have htail := ha (tailOf L) (by simp [chainOf])
    rw [IntrusiveList.listInit, Function.update_of_ne htail.1, Function.update_of_ne htail.2, Function.update_of_ne hhead.1,
      Function.update_of_ne hhead.2]

theorem chainOf_split (L : Word) (l₁ l₂ : List Word) : ∃ p x r, chainOf L (l₁ ++ l₂) = p ++ [x] ++ l₂.headD (tailOf L) :: r ∧
    ∀ e, chainOf L (l₁ ++ e :: l₂) = p ++ [x] ++ e :: l₂.headD (tailOf L) :: r := by
  have hp : (L :: l₁).dropLast ++ [(L :: l₁).getLast (by simp)] = L :: l₁ := List.dropLast_append_getLast _
  have hr : l₂.headD (tailOf L) :: (l₂ ++ [tailOf L]).tail = l₂ ++ [tailOf L] := by
    cases l₂ <;> rfl
  refine ⟨(L :: l₁).dropLast, (L :: l₁).getLast (by simp), (l₂ ++ [tailOf L]).tail, ?_, ?_⟩
  · rw [hp, hr]
    simp [chainOf]
  · intro e
    rw [hp, hr]
    simp [chainOf]

theorem insert {l₁ l₂ : List Word} (hr : Represents O S M) (hl : S L = some (l₁ ++ l₂)) (he : e ∈ O.elems)
    (hfree : ∀ L' l', S L' = some l' → e ∉ l') :
    Represents O (Function.update S L (some (l₁ ++ e :: l₂))) (listInsertBefore (l₂.headD (tailOf L)) e M) ∧
      ∀ L' l', S L' = some l' → L' ≠ L → SameNodes M (listInsertBefore (l₂.headD (tailOf L)) e M) L' l' := by
  have hL := hr.list L _ hl
  have hmem : ∀ y ∈ l₁ ++ e :: l₂, y = e ∨ y ∈ l₁ ++ l₂ := by
    intro y hy
    simp only [List.mem_append, List.mem_cons] at hy ⊢
    tauto
  have helems : ∀ y ∈ l₁ ++ e :: l₂, y ∈ O.elems := by
    intro y hy
    rcases hmem y hy with rfl | h
    · exact he
    · exact hr.elems L _ hl y h
  have hnodup : (l₁ ++ e :: l₂).Nodup := by
    rw [List.nodup_middle, List.nodup_cons]
    exact ⟨hfree L _ hl, hr.nodup L _ hl⟩
  have hnode : ∀ x ∈ chainOf L (l₁ ++ e :: l₂), O.Node x := fun x hx => Objects.chainOf_nodes hL helems hx
  have hchain := hr.chain L _ hl
  have hchainup := Objects.chainOf_nodup hL helems hnodup
  obtain ⟨p, x, r, hold, hnew⟩ := chainOf_split L l₁ l₂
  rw [hold] at hchain
  rw [hnew] at hchainup
  apply hr.change hL helems _ (fun y hy => hy) hnodup
  · rw [hnew]
    apply hchain.insertBefore _ hchainup
    rw [← hnew]
    exact Objects.separate hnode
  · intro a ha
    rw [hnew] at ha
    exact Fields.insertBefore_outside hchain.cut.2.1.2 (by simp) (by simp) (by simp) ha
  · intro L' l' hl' hne y hy hy'
    rcases hmem y hy with rfl | h
    · exact hfree L' l' hl' hy'
    · exact hne (hr.once L' l' L _ hl' hl y hy' h)

theorem remove {l₁ l₂ : List Word} (hr : Represents O S M) (hl : S L = some (l₁ ++ e :: l₂)) :
    Represents O (Function.update S L (some (l₁ ++ l₂))) (listRemove e M) ∧
      ∀ L' l', S L' = some l' → L' ≠ L → SameNodes M (listRemove e M) L' l' := by
  have hL := hr.list L _ hl
  have helems := hr.elems L _ hl
  have hnodup := hr.nodup L _ hl
  have hsub : ∀ y ∈ l₁ ++ l₂, y ∈ l₁ ++ e :: l₂ := by
    intro y hy
    simp only [List.mem_append, List.mem_cons] at hy ⊢
    tauto
  have hnode : ∀ x ∈ chainOf L (l₁ ++ e :: l₂), O.Node x := fun x hx => Objects.chainOf_nodes hL helems hx
  have hsep := Objects.separate hnode
  have hchain := hr.chain L _ hl
  have hchainup := Objects.chainOf_nodup hL helems hnodup
  obtain ⟨p, x, r, hold, hnew⟩ := chainOf_split L l₁ l₂
  rw [hnew] at hchain hchainup hsep
  apply hr.change hL helems _ hsub (List.nodup_cons.mp (List.nodup_middle.mp hnodup)).2
  · rw [hold]
    exact hchain.remove hsep hchainup
  · intro a ha
    rw [hnew] at ha
    obtain ⟨-, hlink, hrest⟩ := hchain.cut
    have hne : e ≠ x := by
      rintro rfl
      exact (List.nodup_append.mp hchainup).2.2 e (by simp) e (by simp) rfl
    exact Fields.remove_outside hsep hlink.2 (List.isChain_cons_cons.mp hrest).1.1 hne (by simp) (by simp) (by simp) ha
  · intro L' l' hl' hne y hy hy'
    exact hne (hr.once L' l' L _ hl' hl y hy' hy)

theorem length_lt (hr : Represents O S M) (hl : S L = some l) : l.length < 2 ^ 32 := by
  have hlen := words_length (Objects.chainOf_nodup (hr.list L l hl) (hr.elems L l hl) (hr.nodup L l hl))
  simp only [chainOf, List.cons_append, List.length_cons, List.length_append, List.length_nil] at hlen
  omega

theorem forward (hr : Represents O S M) (hl : S L = some l) :
    visited (fun x => M (links.next x)) (tailOf L) (2 ^ 32) (M (links.next L)) = some l := by
  apply (hr.chain L l hl).visited
  · intro h
    exact Objects.elem_ne_end (hr.list L l hl) (hr.elems L l hl _ h) (Or.inr rfl) rfl
  · exact hr.length_lt hl

theorem backward (hr : Represents O S M) (hl : S L = some l) :
    visited (fun x => M (links.prev x)) L (2 ^ 32) (M (links.prev (tailOf L))) = some l.reverse := by
  apply (hr.chain L l hl).visited_back
  · intro h
    exact Objects.elem_ne_end (hr.list L l hl) (hr.elems L l hl _ h) (Or.inl rfl) rfl
  · exact hr.length_lt hl

end Represents

theorem elemFindFrom_visited {t x : Word} {fuel : ℕ} (h : visited (fun x => M (links.next x)) t fuel x = some l) :
    elemFindFrom M t e fuel x = some (decide (e ∈ l)) := by
  induction fuel generalizing x l with
  | zero => simp [visited] at h
  | succ fuel ih =>
    rw [visited] at h
    rw [elemFindFrom]
    by_cases hxt : x = t
    · rw [if_pos hxt] at h ⊢
      rw [← Option.some.inj h]
      simp
    · rw [if_neg hxt] at h ⊢
      obtain ⟨r, hr, rfl⟩ := Option.map_eq_some_iff.mp h
      by_cases hxe : x = e
      · rw [if_pos hxe]
        simp [hxe]
      · rw [if_neg hxe, ih hr]
        simp [Ne.symm hxe]

theorem listLenFrom_visited {t x k : Word} {fuel : ℕ} (h : visited (fun x => M (links.next x)) t fuel x = some l) :
    listLenFrom M t fuel x k = some (k + BitVec.ofNat 32 l.length) := by
  induction fuel generalizing x l k with
  | zero => simp [visited] at h
  | succ fuel ih =>
    rw [visited] at h
    rw [listLenFrom]
    by_cases hxt : x = t
    · rw [if_pos hxt] at h ⊢
      rw [← Option.some.inj h]
      simp
    · rw [if_neg hxt] at h ⊢
      obtain ⟨r, hr, rfl⟩ := Option.map_eq_some_iff.mp h
      rw [ih hr, List.length_cons, Nat.add_comm, BitVec.ofNat_add, ← BitVec.add_assoc]
      rfl

namespace Represents

theorem elemFind (hr : Represents O S M) (hl : S L = some l) : elemFind L e M = some (decide (e ∈ l)) :=
  elemFindFrom_visited (hr.forward hl)

theorem listLen (hr : Represents O S M) (hl : S L = some l) : (listLen L M).map BitVec.toNat = some l.length := by
  have hlen := hr.length_lt hl
  rw [IntrusiveList.listLen, listLenFrom_visited (hr.forward hl)]
  simpa using hlen

theorem listEmpty (hr : Represents O S M) (hl : S L = some l) : listEmpty L M = decide (l = []) := by
  rw [IntrusiveList.listEmpty, (hr.chain L l hl).first]
  cases l with
  | nil => simp
  | cons x l =>
    have hne : x ≠ tailOf L := Objects.elem_ne_end (hr.list L _ hl) (hr.elems L _ hl x (by simp)) (Or.inr rfl)
    simp [hne]

theorem apply_listRemove (hr : Represents O S M) (hl : S L = some l) (he : e ∈ l) :
    Call.apply (.listRemove e) S = Function.update S L (some (l.erase e)) := by
  funext L'
  change (S L').map (·.erase e) = _
  by_cases hne : L' = L
  · rw [hne, hl, Function.update_self, Option.map_some]
  · rw [Function.update_of_ne hne]
    cases hl' : S L' with
    | none => rfl
    | some l' =>
      have he' : e ∉ l' := fun he' => hne (hr.once L' l' L l hl' hl e he' he)
      rw [Option.map_some, List.erase_of_not_mem he']

theorem call {c : Call} (hr : Represents O S M) (hc : c.Allowed O S) : ∃ M', c.run M = some (c.answer S, M') ∧
    Represents O (c.apply S) M' ∧ ∀ L l, S L = some l → ¬ c.Changes S L → c.apply S L = some l ∧ SameNodes M M' L l := by
  have hquiet : ∀ L l, S L = some l → S L = some l ∧ SameNodes M M L l := fun L l hl => ⟨hl, fun _ _ => ⟨rfl, rfl⟩⟩
  have hother : ∀ {S' : Sequences} {M' : Memory} {L v}, S' = Function.update S L v →
      (Represents O (Function.update S L v) M' ∧ ∀ L' l', S L' = some l' → L' ≠ L → SameNodes M M' L' l') →
      Represents O S' M' ∧ ∀ L' l', S L' = some l' → L' ≠ L → S' L' = some l' ∧ SameNodes M M' L' l' := by
    rintro S' M' L v rfl ⟨hrep, hsame⟩
    refine ⟨hrep, ?_⟩
    intro L' l' hl' hne
    rw [Function.update_of_ne hne]
    exact ⟨hl', hsame L' l' hl' hne⟩
  have hnone : ∀ {e}, (∀ L ∈ O.lists, e ∉ (S L).getD []) → ∀ L' l', S L' = some l' → e ∉ l' := by
    intro e h L' l' hl'
    have := h L' (hr.list L' l' hl')
    rwa [hl'] at this
  cases c with
  | listInit L => exact ⟨_, rfl, hother rfl (hr.listInit hc)⟩
  | listPush L e =>
    obtain ⟨hsome, he, hfree⟩ := hc
    obtain ⟨l, hl⟩ := Option.isSome_iff_exists.mp hsome
    have hins := @insert O S M L e [] l hr hl he (hnone hfree)
    rw [List.nil_append, ← (hr.chain L l hl).first] at hins
    exact ⟨_, rfl, hother (by rw [Call.apply, hl]; rfl) hins⟩
  | listAppend L e =>
    obtain ⟨hsome, he, hfree⟩ := hc
    obtain ⟨l, hl⟩ := Option.isSome_iff_exists.mp hsome
    have hwhole : S L = some (l ++ []) := by
      rw [List.append_nil]
      exact hl
    have hins := hr.insert hwhole he (hnone hfree)
    exact ⟨_, rfl, hother (by rw [Call.apply, hl]; rfl) hins⟩
  | listRemove e =>
    obtain ⟨L, hL, he⟩ := hc
    obtain ⟨l, hl⟩ : ∃ l, S L = some l := by
      cases hS : S L with
      | none => simp [hS] at he
      | some l => exact ⟨l, rfl⟩
    rw [hl, Option.getD_some] at he
    obtain ⟨l₁, l₂, hnot, rfl, herase⟩ := List.exists_erase_eq he
    have hrem := hr.remove hl
    have happly := hr.apply_listRemove hl he
    rw [herase] at happly
    obtain ⟨hrep, hsame⟩ := hother happly hrem
    refine ⟨_, rfl, hrep, ?_⟩
    intro L' l' hl' hchange
    apply hsame L' l' hl'
    rintro rfl
    exact hchange (by rw [Call.Changes, hl]; exact he)
  | listPop L =>
    obtain ⟨e, l, hl⟩ : ∃ e l, S L = some (e :: l) := by
      cases hS : S L with
      | none => simp [Call.Allowed, hS] at hc
      | some l =>
        cases l with
        | nil => simp [Call.Allowed, hS] at hc
        | cons e l => exact ⟨e, l, rfl⟩
    have hfirst : M (links.next L) = e := (hr.chain L _ hl).first
    have hrem := @remove O S M L e [] l hr hl
    refine ⟨listRemove e M, ?_, hother (by rw [Call.apply, hl]; rfl) hrem⟩
    rw [Call.run, listPop, hfirst, Call.answer, hl]
    rfl
  | elemFind L e =>
    obtain ⟨l, hl⟩ := Option.isSome_iff_exists.mp hc
    refine ⟨M, ?_, hr, fun L l hl _ => hquiet L l hl⟩
    rw [Call.run, hr.elemFind hl, Call.answer, hl]
    rfl
  | listLen L =>
    obtain ⟨l, hl⟩ := Option.isSome_iff_exists.mp hc
    obtain ⟨n, hn, hlen⟩ := Option.map_eq_some_iff.mp (hr.listLen hl)
    refine ⟨M, ?_, hr, fun L l hl _ => hquiet L l hl⟩
    rw [Call.run, hn, Call.answer, hl, Option.map_some, hlen]
    rfl
  | listEmpty L =>
    obtain ⟨l, hl⟩ := Option.isSome_iff_exists.mp hc
    refine ⟨M, ?_, hr, fun L l hl _ => hquiet L l hl⟩
    rw [Call.run, hr.listEmpty hl, Call.answer, hl]
    rfl

theorem calls {cs : List Call} (hr : Represents O S M) (hcs : AllAllowed O cs S) :
    ∃ M', runAll cs M = some (answers cs S, M') ∧ Represents O (applyAll cs S) M' := by
  induction cs generalizing S M with
  | nil => exact ⟨M, rfl, hr⟩
  | cons c cs ih =>
    obtain ⟨M', hrun, hrep, -⟩ := hr.call hcs.1
    obtain ⟨M'', hruns, hreps⟩ := ih hrep hcs.2
    refine ⟨M'', ?_, hreps⟩
    simp only [runAll, hrun, Option.bind_eq_bind, Option.bind_some, hruns]
    rfl

end Represents

theorem represents_none (O : Objects) (M : Memory) : Represents O (fun _ => none) M :=
  ⟨by simp, by simp, by simp, by simp, by simp⟩

/-- After any calls, whatever memory held before, the links in both directions give the sequences, the calls have
answered what the sequences answer, and a further call touches no node of the lists it does not change. -/
theorem list_refines_sequence (O : Objects) (M : Memory) (cs : List Call) (hcs : AllAllowed O cs fun _ => none) :
    ∃ M', runAll cs M = some (answers cs fun _ => none, M') ∧
      (∀ L l, applyAll cs (fun _ => none) L = some l →
        visited (fun x => M' (links.next x)) (tailOf L) (2 ^ 32) (M' (links.next L)) = some l ∧
        visited (fun x => M' (links.prev x)) L (2 ^ 32) (M' (links.prev (tailOf L))) = some l.reverse) ∧
      ∀ c : Call, c.Allowed O (applyAll cs fun _ => none) → ∃ M'', c.run M' = some (c.answer (applyAll cs fun _ => none), M'') ∧
        ∀ L l, applyAll cs (fun _ => none) L = some l → ¬ c.Changes (applyAll cs fun _ => none) L →
          c.apply (applyAll cs fun _ => none) L = some l ∧ SameNodes M' M'' L l := by
  obtain ⟨M', hruns, hrep⟩ := (represents_none O M).calls hcs
  refine ⟨M', hruns, fun L l hl => ⟨hrep.forward hl, hrep.backward hl⟩, ?_⟩
  intro c hc
  obtain ⟨M'', hrun, -, hsame⟩ := hrep.call hc
  exact ⟨M'', hrun, hsame⟩

def twoLists : Objects where
  lists := [0x1000#32, 0x1010#32]
  elems := [0x2000#32, 0x2008#32, 0x3000#32]
  lists_fit := by simp
  elems_fit := by simp
  lists_apart := by simp
  elems_apart := by simp
  apart := by simp

theorem list_refines_sequence_two : ∃ M', runAll [.listInit 0x1000#32, .listInit 0x1010#32, .listAppend 0x1000#32 0x2000#32,
    .listAppend 0x1000#32 0x2008#32, .listPush 0x1010#32 0x3000#32, .listRemove 0x2008#32, .listPush 0x1010#32 0x2008#32,
    .listLen 0x1010#32] (fun _ => 0) =
      some ([.done, .done, .done, .done, .done, .done, .done, .len 2], M') ∧
    visited (fun x => M' (links.next x)) 0x1018#32 (2 ^ 32) (M' 0x1014#32) = some [0x2008#32, 0x3000#32] := by
  obtain ⟨M', hrun, hlinks, -⟩ := list_refines_sequence twoLists (fun _ => 0) [.listInit 0x1000#32, .listInit 0x1010#32,
    .listAppend 0x1000#32 0x2000#32, .listAppend 0x1000#32 0x2008#32, .listPush 0x1010#32 0x3000#32, .listRemove 0x2008#32,
    .listPush 0x1010#32 0x2008#32, .listLen 0x1010#32] (by simp [AllAllowed, Call.Allowed, Call.apply, twoLists])
  exact ⟨M', hrun, (hlinks 0x1010#32 [0x2008#32, 0x3000#32] rfl).1⟩

end ElephantOS.IntrusiveList
