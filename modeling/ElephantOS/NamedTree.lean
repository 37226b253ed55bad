import Mathlib.Data.List.Basic
import Mathlib.Data.List.Induction
import Mathlib.Data.Set.Insert

/-! Trees whose inner nodes list their children by name and whose leaves have contents, and the map from paths to contents that they
are. -/

universe u v w

/-- Nodes with named children, and leaves with contents. -/
@[ext] structure NamedTree (Node : Type u) (Name : Type v) (Content : Type w) where
  inner : Set Node
  leaves : Set Node
  children : Node → Set (Name × Node)
  content : Node → Content

namespace NamedTree

variable {Node : Type u} {Name : Type v} {Content : Type w} {t : NamedTree Node Name Content} {r d m n : Node} {name : Name}
  {names p q : List Name} {c : Content}

/-- The names lead from one node to another. -/
inductive Path (t : NamedTree Node Name Content) : Node → List Name → Node → Prop
  | nil (n : Node) : Path t n [] n
  | cons {n m k : Node} {name : Name} {names : List Name} : (name, m) ∈ t.children n → Path t m names k → Path t n (name :: names) k

/-- A tree with the root `r`. -/
structure WellFormed (t : NamedTree Node Name Content) (r : Node) : Prop where
  disjoint : ∀ n ∈ t.inner, n ∉ t.leaves
  root : r ∈ t.inner
  edge : ∀ d name n, (name, n) ∈ t.children d → d ∈ t.inner ∧ (n ∈ t.inner ∨ n ∈ t.leaves) ∧ n ≠ r
  names : ∀ d name n m, (name, n) ∈ t.children d → (name, m) ∈ t.children d → n = m
  once : ∀ d d' name name' n, (name, n) ∈ t.children d → (name', n) ∈ t.children d' → d = d' ∧ name = name'
  named : ∀ n, n ∈ t.inner ∨ n ∈ t.leaves → n ≠ r → ∃ d name, (name, n) ∈ t.children d
  ranked : ∃ rank : Node → ℕ, ∀ d name n, (name, n) ∈ t.children d → rank d < rank n

theorem Path.mono {t' : NamedTree Node Name Content} (h : ∀ k, t.children k ⊆ t'.children k) (hp : t.Path n names m) : t'.Path n names m := by
  induction hp with
  | nil n => exact .nil n
  | cons hk _ ih => exact .cons (h _ hk) ih

theorem path_nil : t.Path n [] m ↔ m = n := by
  constructor
  · rintro ⟨⟩
    rfl
  · rintro rfl
    exact .nil m

theorem path_append : t.Path n (p ++ q) m ↔ ∃ k, t.Path n p k ∧ t.Path k q m := by
  induction p generalizing n with
  | nil => simp [path_nil]
  | cons name p ih =>
    rw [List.cons_append]
    constructor
    · rintro ⟨⟩
      rename_i k hk hrest
      obtain ⟨k', h1, h2⟩ := ih.mp hrest
      exact ⟨k', .cons hk h1, h2⟩
    · rintro ⟨k', h1, h2⟩
      cases h1 with
      | cons hk hrest => exact .cons hk (ih.mpr ⟨k', hrest, h2⟩)

theorem path_single : t.Path n [name] m ↔ (name, m) ∈ t.children n := by
  constructor
  · intro h
    cases h with
    | cons hk hrest =>
      obtain rfl := path_nil.mp hrest
      exact hk
  · exact fun h => .cons h (.nil m)

theorem path_snoc : t.Path n (names ++ [name]) m ↔ ∃ k, t.Path n names k ∧ (name, m) ∈ t.children k := by
  simp only [path_append, path_single]

section

variable (h : t.WellFormed r)

include h

theorem WellFormed.nodes (hp : t.Path r names n) : n ∈ t.inner ∨ n ∈ t.leaves := by
  rcases names.eq_nil_or_concat' with rfl | ⟨names, name, rfl⟩
  · rw [path_nil.mp hp]
    exact .inl h.root
  · obtain ⟨k, -, hk⟩ := path_snoc.mp hp
    exact (h.edge k name n hk).2.1

theorem WellFormed.path_root (hp : t.Path r names r) : names = [] := by
  rcases names.eq_nil_or_concat' with hnil | ⟨names, name, rfl⟩
  · exact hnil
  · obtain ⟨k, -, hk⟩ := path_snoc.mp hp
    exact absurd rfl (h.edge k name r hk).2.2

theorem WellFormed.path_end {k : Node} (hp : t.Path k names n) (hp' : t.Path k names m) : n = m := by
  induction hp with
  | nil n => exact (path_nil.mp hp').symm
  | cons hk _ ih =>
    cases hp' with
    | cons hk' hrest =>
      rw [h.names _ _ _ _ hk' hk] at hrest
      exact ih hrest

theorem WellFormed.path_unique (hp : t.Path r p n) (hq : t.Path r q n) : p = q := by
  induction p using List.reverseRecOn generalizing q n with
  | nil =>
    rw [path_nil.mp hp] at hq
    exact (h.path_root hq).symm
  | append_singleton p name ih =>
    obtain ⟨k, hpk, hk⟩ := path_snoc.mp hp
    rcases q.eq_nil_or_concat' with rfl | ⟨q, name', rfl⟩
    · exact absurd (path_nil.mp hq) (h.edge k name n hk).2.2
    · obtain ⟨k', hqk, hk'⟩ := path_snoc.mp hq
      obtain ⟨rfl, rfl⟩ := h.once k k' name name' n hk hk'
      rw [ih hpk hqk]

theorem WellFormed.path_exists (hn : n ∈ t.inner ∨ n ∈ t.leaves) : ∃ names, t.Path r names n := by
  obtain ⟨rank, hrank⟩ := h.ranked
  induction hk : rank n using Nat.strong_induction_on generalizing n with
  | _ k ih =>
    by_cases hroot : n = r
    · exact ⟨[], path_nil.mpr hroot⟩
    · obtain ⟨d, name, hd⟩ := h.named n hn hroot
      obtain ⟨names, hp⟩ := ih (rank d) (hk ▸ hrank d name n hd) (.inl (h.edge d name n hd).1) rfl
      exact ⟨names ++ [name], path_snoc.mpr ⟨d, hp, hd⟩⟩

end

theorem WellFormed.path_extend {t' : NamedTree Node Name Content} (h : t.WellFormed r) (h' : t'.WellFormed r)
    (hsub : ∀ k, t.children k ⊆ t'.children k) (hn : n ∈ t.inner ∨ n ∈ t.leaves) : t'.Path r p n ↔ t.Path r p n := by
  obtain ⟨q, hq⟩ := h.path_exists hn
  constructor
  · intro hp
    rw [h'.path_unique hp (hq.mono hsub)]
    exact hq
  · exact fun hp => hp.mono hsub

/-- The tree as a map from paths: `none` at an inner node, the contents at a leaf. -/
def view (t : NamedTree Node Name Content) (r : Node) : Set (List Name × Option Content) :=
  {x | ∃ n, t.Path r x.1 n ∧ (n ∈ t.inner ∧ x.2 = none ∨ n ∈ t.leaves ∧ x.2 = some (t.content n))}

theorem view_inner : (p, none) ∈ t.view r ↔ ∃ n ∈ t.inner, t.Path r p n := by
  constructor
  · rintro ⟨n, hp, ⟨hn, -⟩ | ⟨-, hx⟩⟩
    · exact ⟨n, hn, hp⟩
    · cases hx
  · rintro ⟨n, hn, hp⟩
    exact ⟨n, hp, .inl ⟨hn, rfl⟩⟩

theorem view_leaf : (p, some c) ∈ t.view r ↔ ∃ n ∈ t.leaves, t.Path r p n ∧ t.content n = c := by
  constructor
  · rintro ⟨n, hp, ⟨-, hx⟩ | ⟨hn, hx⟩⟩
    · cases hx
    · exact ⟨n, hn, hp, (Option.some.inj hx).symm⟩
  · rintro ⟨n, hn, hp, rfl⟩
    exact ⟨n, hp, .inr ⟨hn, rfl⟩⟩

theorem path_graft {t' : NamedTree Node Name Content} (hc : ∀ k x, x ∈ t'.children k ↔ x ∈ t.children k ∨ k = d ∧ x = (name, n))
    (hn : ∀ x, x ∉ t'.children n) : t'.Path r p m ↔ t.Path r p m ∨ m = n ∧ ∃ q, t.Path r q d ∧ p = q ++ [name] := by
  induction p using List.reverseRecOn generalizing m with
  | nil =>
    rw [path_nil, path_nil]
    refine ⟨.inl, ?_⟩
    rintro (hm | ⟨-, q, -, hq⟩)
    · exact hm
    · simp at hq
  | append_singleton p a ih =>
    rw [path_snoc, path_snoc]
    constructor
    · rintro ⟨k, hk, ha⟩
      rcases ih.mp hk with hk | ⟨rfl, -⟩
      · rcases (hc k _).mp ha with ha | ⟨rfl, heq⟩
        · exact .inl ⟨k, hk, ha⟩
        · obtain ⟨rfl, rfl⟩ := Prod.mk.inj heq
          exact .inr ⟨rfl, p, hk, rfl⟩
      · exact absurd ha (hn _)
    · rintro (⟨k, hk, ha⟩ | ⟨rfl, q, hq, heq⟩)
      · exact ⟨k, ih.mpr (.inl hk), (hc k _).mpr (.inl ha)⟩
      · obtain ⟨rfl, hname⟩ := List.append_inj' heq rfl
        obtain rfl := List.singleton_inj.mp hname
        exact ⟨d, ih.mpr (.inl hq), (hc d _).mpr (.inr ⟨rfl, rfl⟩)⟩

theorem WellFormed.path_prune (h : t.WellFormed r) {t' : NamedTree Node Name Content}
    (hc : ∀ k x, x ∈ t'.children k ↔ x ∈ t.children k ∧ ¬ (k = d ∧ x = (name, n))) (hd : (name, n) ∈ t.children d)
    (hn : ∀ x, x ∉ t.children n) : t'.Path r p m ↔ t.Path r p m ∧ m ≠ n := by
  induction p using List.reverseRecOn generalizing m with
  | nil =>
    rw [path_nil, path_nil]
    refine ⟨fun hm => ⟨hm, ?_⟩, fun hm => hm.1⟩
    rw [hm]
    exact (h.edge d name n hd).2.2.symm
  | append_singleton p a ih =>
    rw [path_snoc, path_snoc]
    constructor
    · rintro ⟨k, hk, ha⟩
      obtain ⟨ha, hne⟩ := (hc k _).mp ha
      refine ⟨⟨k, (ih.mp hk).1, ha⟩, ?_⟩
      rintro rfl
      obtain ⟨rfl, rfl⟩ := h.once k d a name m ha hd
      exact hne ⟨rfl, rfl⟩
    · rintro ⟨⟨k, hk, ha⟩, hne⟩
      refine ⟨k, ih.mpr ⟨hk, ?_⟩, (hc k _).mpr ⟨ha, ?_⟩⟩
      · rintro rfl
        exact hn _ ha
      · rintro ⟨-, heq⟩
        exact hne (Prod.mk.inj heq).2

section

variable [DecidableEq Node]

/-- Node `n` becomes a leaf below `d`. -/
def addLeaf (t : NamedTree Node Name Content) (d : Node) (name : Name) (n : Node) (c : Content) : NamedTree Node Name Content :=
  { t with
    leaves := insert n t.leaves
    children := Function.update t.children d (insert (name, n) (t.children d))
    content := Function.update t.content n c }

/-- Node `n` becomes an inner node below `d`, without children. -/
def addInner (t : NamedTree Node Name Content) (d : Node) (name : Name) (n : Node) : NamedTree Node Name Content :=
  { t with
    inner := insert n t.inner
    children := Function.update t.children d (insert (name, n) (t.children d)) }

/-- Node `n` goes from below `d`. -/
def remove [Inhabited Content] (t : NamedTree Node Name Content) (d : Node) (name : Name) (n : Node) : NamedTree Node Name Content where
  inner := t.inner \ {n}
  leaves := t.leaves \ {n}
  children := Function.update t.children d (t.children d \ {(name, n)})
  content := Function.update t.content n default

/-- Leaf `n` gets other contents. -/
def setContent (t : NamedTree Node Name Content) (n : Node) (c : Content) : NamedTree Node Name Content :=
  { t with content := Function.update t.content n c }

theorem mem_update_insert {f : Node → Set (Name × Node)} {k : Node} {x y : Name × Node} :
    x ∈ Function.update f d (insert y (f d)) k ↔ x ∈ f k ∨ k = d ∧ x = y := by
  by_cases hk : k = d
  · subst hk
    simp [or_comm]
  · simp [hk]

theorem addLeaf_path (hq : t.Path r q d) : (t.addLeaf d name n c).Path r (q ++ [name]) n := by
  refine path_snoc.mpr ⟨d, hq.mono fun k x hx => ?_, ?_⟩
  · exact mem_update_insert.mpr (.inl hx)
  · exact mem_update_insert.mpr (.inr ⟨rfl, rfl⟩)

theorem addLeaf_children (t : NamedTree Node Name Content) (k : Node) : t.children k ⊆ (t.addLeaf d name n c).children k :=
  fun _ hx => mem_update_insert.mpr (.inl hx)

theorem addInner_children (t : NamedTree Node Name Content) (k : Node) : t.children k ⊆ (t.addInner d name n).children k :=
  fun _ hx => mem_update_insert.mpr (.inl hx)

theorem remove_children [Inhabited Content] (t : NamedTree Node Name Content) (k : Node) : (t.remove d name n).children k ⊆ t.children k := by
  intro x hx
  by_cases hk : k = d
  · subst hk
    simp only [remove, Function.update_self] at hx
    exact hx.1
  · simp only [remove, Function.update_of_ne hk] at hx
    exact hx

theorem WellFormed.view_addLeaf (h : t.WellFormed r) (hq : t.Path r q d) (hi : n ∉ t.inner) (hl : n ∉ t.leaves) (hd : d ≠ n) :
    (t.addLeaf d name n c).view r = insert (q ++ [name], some c) (t.view r) := by
  have hnone : ∀ x, x ∉ (t.addLeaf d name n c).children n := by
    intro x hx
    rcases mem_update_insert.mp hx with hx | ⟨heq, -⟩
    · exact hi (h.edge n x.1 x.2 hx).1
    · exact hd heq.symm
  have hpath : ∀ p m, (t.addLeaf d name n c).Path r p m ↔ t.Path r p m ∨ m = n ∧ ∃ q, t.Path r q d ∧ p = q ++ [name] :=
    fun p m => path_graft (fun _ _ => mem_update_insert) hnone
  have hold : ∀ p m, t.Path r p m → m ≠ n := by
    rintro p m hp rfl
    exact (h.nodes hp).elim hi hl
  ext ⟨p, x⟩
  rw [Set.mem_insert_iff, Prod.mk.injEq]
  constructor
  · rintro ⟨m, hm, hx⟩
    rcases (hpath p m).mp hm with hm | ⟨rfl, q', hq', rfl⟩
    · right
      refine ⟨m, hm, hx.imp_right ?_⟩
      rintro ⟨hmem, hx⟩
      have hne := hold p m hm
      refine ⟨hmem.resolve_left hne, ?_⟩
      rw [hx]
      simp only [addLeaf, Function.update_of_ne hne]
    · left
      rw [h.path_unique hq' hq]
      rcases hx with ⟨hmem, -⟩ | ⟨-, hx⟩
      · exact absurd hmem hi
      · dsimp only at hx
        rw [hx]
        simp [addLeaf]
  · rintro (⟨rfl, rfl⟩ | ⟨m, hm, hx⟩)
    · exact ⟨n, (hpath _ n).mpr (.inr ⟨rfl, q, hq, rfl⟩), .inr ⟨Set.mem_insert _ _, by simp [addLeaf]⟩⟩
    · refine ⟨m, (hpath p m).mpr (.inl hm), hx.imp_right ?_⟩
      rintro ⟨hmem, hx⟩
      refine ⟨Set.mem_insert_of_mem _ hmem, ?_⟩
      rw [hx]
      simp only [addLeaf, Function.update_of_ne (hold p m hm)]

theorem WellFormed.view_addInner (h : t.WellFormed r) (hq : t.Path r q d) (hi : n ∉ t.inner) (hl : n ∉ t.leaves) (hd : d ≠ n) :
    (t.addInner d name n).view r = insert (q ++ [name], none) (t.view r) := by
  have hnone : ∀ x, x ∉ (t.addInner d name n).children n := by
    intro x hx
    rcases mem_update_insert.mp hx with hx | ⟨heq, -⟩
    · exact hi (h.edge n x.1 x.2 hx).1
    · exact hd heq.symm
  have hpath : ∀ p m, (t.addInner d name n).Path r p m ↔ t.Path r p m ∨ m = n ∧ ∃ q, t.Path r q d ∧ p = q ++ [name] :=
    fun p m => path_graft (fun _ _ => mem_update_insert) hnone
  have hold : ∀ p m, t.Path r p m → m ≠ n := by
    rintro p m hp rfl
    exact (h.nodes hp).elim hi hl
  ext ⟨p, x⟩
  rw [Set.mem_insert_iff, Prod.mk.injEq]
  constructor
  · rintro ⟨m, hm, hx⟩
    rcases (hpath p m).mp hm with hm | ⟨rfl, q', hq', rfl⟩
    · right
      refine ⟨m, hm, hx.imp_left ?_⟩
      rintro ⟨hmem, hx⟩
      exact ⟨hmem.resolve_left (hold p m hm), hx⟩
    · left
      rw [h.path_unique hq' hq]
      rcases hx with ⟨-, hx⟩ | ⟨hmem, -⟩
      · exact ⟨rfl, hx⟩
      · exact absurd hmem hl
  · rintro (⟨rfl, rfl⟩ | ⟨m, hm, hx⟩)
    · exact ⟨n, (hpath _ n).mpr (.inr ⟨rfl, q, hq, rfl⟩), .inl ⟨Set.mem_insert _ _, rfl⟩⟩
    · refine ⟨m, (hpath p m).mpr (.inl hm), hx.imp_left ?_⟩
      rintro ⟨hmem, hx⟩
      exact ⟨Set.mem_insert_of_mem _ hmem, hx⟩

theorem WellFormed.view_remove [Inhabited Content] (h : t.WellFormed r) (hq : t.Path r q d) (hd : (name, n) ∈ t.children d)
    (hn : ∀ x, x ∉ t.children n) : (t.remove d name n).view r = {x ∈ t.view r | x.1 ≠ q ++ [name]} := by
  have hpath : ∀ p m, (t.remove d name n).Path r p m ↔ t.Path r p m ∧ m ≠ n := by
    intro p m
    refine h.path_prune (fun k x => ?_) hd hn
    by_cases hk : k = d
    · subst hk
      simp [remove]
    · simp [remove, hk]
  have hat : ∀ p m, t.Path r p m → (m ≠ n ↔ p ≠ q ++ [name]) := by
    intro p m hm
    have hown : t.Path r (q ++ [name]) n := path_snoc.mpr ⟨d, hq, hd⟩
    refine ⟨?_, ?_⟩
    · rintro hne rfl
      exact hne (h.path_end hm hown)
    · rintro hne rfl
      exact hne (h.path_unique hm hown)
  ext ⟨p, x⟩
  constructor
  · rintro ⟨m, hm, hx⟩
    obtain ⟨hm, hne⟩ := (hpath p m).mp hm
    refine ⟨⟨m, hm, hx.imp (fun hx => ⟨hx.1.1, hx.2⟩) fun hx => ⟨hx.1.1, ?_⟩⟩, (hat p m hm).mp hne⟩
    rw [hx.2]
    simp only [remove, Function.update_of_ne hne]
  · rintro ⟨⟨m, hm, hx⟩, hp⟩
    have hne := (hat p m hm).mpr hp
    refine ⟨m, (hpath p m).mpr ⟨hm, hne⟩, hx.imp (fun hx => ⟨⟨hx.1, hne⟩, hx.2⟩) fun hx => ⟨⟨hx.1, hne⟩, ?_⟩⟩
    rw [hx.2]
    simp only [remove, Function.update_of_ne hne]

theorem setContent_path : (t.setContent n c).Path r p m ↔ t.Path r p m :=
  ⟨Path.mono fun _ => subset_refl _, Path.mono fun _ => subset_refl _⟩

theorem WellFormed.view_setContent (h : t.WellFormed r) (hp : t.Path r p n) (hn : n ∈ t.leaves) :
    (t.setContent n c).view r = insert (p, some c) {x ∈ t.view r | x.1 ≠ p} := by
  have hat : ∀ q m, t.Path r q m → (m ≠ n ↔ q ≠ p) := by
    intro q m hm
    refine ⟨?_, ?_⟩
    · rintro hne rfl
      exact hne (h.path_end hm hp)
    · rintro hne rfl
      exact hne (h.path_unique hm hp)
  ext ⟨q, x⟩
  rw [Set.mem_insert_iff, Prod.mk.injEq]
  constructor
  · rintro ⟨m, hm', hx⟩
    have hm := setContent_path.mp hm'
    by_cases hne : m = n
    · subst hne
      left
      refine ⟨h.path_unique hm hp, ?_⟩
      rcases hx with ⟨hi, -⟩ | ⟨-, hx⟩
      · exact absurd hn (h.disjoint _ hi)
      · dsimp only at hx
        rw [hx]
        simp [setContent]
    · right
      refine ⟨⟨m, hm, hx.imp_right fun hx => ⟨hx.1, ?_⟩⟩, (hat q m hm).mp hne⟩
      rw [hx.2]
      simp only [setContent, Function.update_of_ne hne]
  · rintro (⟨rfl, rfl⟩ | ⟨⟨m, hm, hx⟩, hq⟩)
    · exact ⟨n, setContent_path.mpr hp, .inr ⟨hn, by simp [setContent]⟩⟩
    · refine ⟨m, setContent_path.mpr hm, hx.imp_right fun hx => ⟨hx.1, ?_⟩⟩
      rw [hx.2]
      simp only [setContent, Function.update_of_ne ((hat q m hm).mpr hq)]

end

end NamedTree
