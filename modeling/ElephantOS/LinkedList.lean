import Mathlib.Tactic

/-! Doubly linked lists whose links are cells of a memory. -/

namespace ElephantOS.LinkedList

variable {A : Type} [DecidableEq A]

/-- Where a node keeps its links. -/
structure Fields (A : Type) where
  next : A → A
  prev : A → A

namespace Fields

variable (F : Fields A) {M M' : A → A} {l r : List A} {x y e t : A}

/-- No two links of the nodes in `l` are kept in the same cell. -/
structure Separate (l : List A) : Prop where
  next : ∀ x ∈ l, ∀ y ∈ l, F.next x = F.next y → x = y
  prev : ∀ x ∈ l, ∀ y ∈ l, F.prev x = F.prev y → x = y
  cross : ∀ x ∈ l, ∀ y ∈ l, F.next x ≠ F.prev y

def Linked (M : A → A) (x y : A) : Prop := M (F.next x) = y ∧ M (F.prev y) = x

def Chain (M : A → A) (l : List A) : Prop := l.IsChain (F.Linked M)

/-- The cell holds no link of a node in `l`. -/
def Outside (l : List A) (a : A) : Prop := ∀ x ∈ l, a ≠ F.next x ∧ a ≠ F.prev x

def insertBefore (M : A → A) (before elem : A) : A → A :=
  let M₁ := Function.update M (F.next (M (F.prev before))) elem
  let M₂ := Function.update M₁ (F.prev elem) (M₁ (F.prev before))
  let M₃ := Function.update M₂ (F.next elem) before
  Function.update M₃ (F.prev before) elem

def remove (M : A → A) (elem : A) : A → A :=
  let M₁ := Function.update M (F.next (M (F.prev elem))) (M (F.next elem))
  Function.update M₁ (F.prev (M₁ (F.next elem))) (M₁ (F.prev elem))

/-- The same nodes with the links in the other direction. -/
def flip : Fields A := ⟨F.prev, F.next⟩

variable {F}

omit [DecidableEq A] in
theorem Chain.congr (hc : F.Chain M l) (hnext : ∀ x ∈ l.dropLast, M' (F.next x) = M (F.next x))
    (hprev : ∀ y ∈ l.tail, M' (F.prev y) = M (F.prev y)) : F.Chain M' l := by
  induction l with
  | nil => exact List.IsChain.nil
  | cons x l ih =>
    cases l with
    | nil => exact List.IsChain.singleton x
    | cons y l =>
      obtain ⟨hlink, hrest⟩ := List.isChain_cons_cons.mp hc
      apply List.isChain_cons_cons.mpr
      constructor
      · constructor
        · rw [hnext x (by simp)]
          exact hlink.1
        · rw [hprev y (by simp)]
          exact hlink.2
      · apply ih hrest
        · intro z hz
          exact hnext z (by simp [hz])
        · intro z hz
          exact hprev z (by simp [List.mem_of_mem_tail hz])

omit [DecidableEq A] in
theorem Chain.outside (hc : F.Chain M l) (h : ∀ a, ¬ F.Outside l a → M' a = M a) : F.Chain M' l := by
  apply hc.congr
  · intro x hx
    exact h _ fun ho => (ho x (List.mem_of_mem_dropLast hx)).1 rfl
  · intro y hy
    exact h _ fun ho => (ho y (List.mem_of_mem_tail hy)).2 rfl

omit [DecidableEq A] in
theorem Chain.cut (hc : F.Chain M (l ++ [x] ++ y :: r)) : F.Chain M (l ++ [x]) ∧ F.Linked M x y ∧ F.Chain M (y :: r) := by
  obtain ⟨hl, hr, hlink⟩ := List.isChain_append.mp hc
  exact ⟨hl, hlink x (by simp) y (by simp), hr⟩

omit [DecidableEq A] in
theorem Chain.join (hl : F.Chain M (l ++ [x])) (hlink : F.Linked M x y) (hr : F.Chain M (y :: r)) :
    F.Chain M (l ++ [x] ++ y :: r) := by
  apply List.isChain_append.mpr
  refine ⟨hl, hr, ?_⟩
  intro x' hx' y' hy'
  simp only [List.getLast?_append, List.getLast?_singleton, Option.some_or, Option.mem_some_iff, List.head?_cons] at hx' hy'
  rw [← hx', ← hy']
  exact hlink

theorem Chain.insertBefore (hc : F.Chain M (l ++ [x] ++ t :: r)) (hs : F.Separate (l ++ [x] ++ e :: t :: r))
    (hnodup : (l ++ [x] ++ e :: t :: r).Nodup) : F.Chain (F.insertBefore M t e) (l ++ [x] ++ e :: t :: r) := by
  obtain ⟨hl, ⟨hxt, htx⟩, hr⟩ := hc.cut
  have hmem : ∀ y ∈ l ++ [x], y ∈ l ++ [x] ++ e :: t :: r := fun y hy => List.mem_append_left _ hy
  have hright : ∀ y ∈ t :: r, y ∈ l ++ [x] ++ e :: t :: r := fun y hy => List.mem_append_right _ (List.mem_cons_of_mem _ hy)
  have hx : x ∈ l ++ [x] ++ e :: t :: r := by simp
  have he : e ∈ l ++ [x] ++ e :: t :: r := by simp
  have ht : t ∈ l ++ [x] ++ e :: t :: r := by simp
  have hdis := (List.nodup_append.mp hnodup).2.2
  have hnodupr := (List.nodup_append.mp hnodup).2.1
  have her : ∀ y ∈ t :: r, y ≠ e := by
    rintro y hy rfl
    exact (List.nodup_cons.mp hnodupr).1 hy
  have het : e ≠ t := (her t (by simp)).symm
  have hxl : x ∉ l := by
    have := (List.nodup_append.mp (List.nodup_append.mp hnodup).1).2.2
    intro hxl
    exact this x hxl x (by simp) rfl
  have hcell : ∀ a, Fields.insertBefore F M t e a = if a = F.prev t then e else if a = F.next e then t else
      if a = F.prev e then x else if a = F.next x then e else M a := by
    intro a
    have hne : F.prev t ≠ F.next x := (hs.cross x hx t ht).symm
    simp only [Fields.insertBefore, htx, Function.update_apply, hne, if_false]
  have hleft : F.Chain (Fields.insertBefore F M t e) (l ++ [x]) := by
    apply hl.congr
    · intro y hy
      rw [List.dropLast_concat] at hy
      have hy' := hmem y (List.mem_append_left _ hy)
      have hye : y ≠ e := hdis y (List.mem_append_left _ hy) e (by simp)
      have hyx : y ≠ x := by
        rintro rfl
        exact hxl hy
      rw [hcell, if_neg (hs.cross y hy' t ht), if_neg (fun h => hye (hs.next y hy' e he h)), if_neg (hs.cross y hy' e he),
        if_neg (fun h => hyx (hs.next y hy' x hx h))]
    · intro y hy
      have hyl := List.mem_of_mem_tail hy
      have hy' := hmem y hyl
      have hye : y ≠ e := hdis y hyl e (by simp)
      have hyt : y ≠ t := hdis y hyl t (by simp)
      rw [hcell, if_neg (fun h => hyt (hs.prev y hy' t ht h)), if_neg (hs.cross e he y hy').symm,
        if_neg (fun h => hye (hs.prev y hy' e he h)), if_neg (hs.cross x hx y hy').symm]
  have hrest : F.Chain (Fields.insertBefore F M t e) (t :: r) := by
    apply Chain.congr hr
    · intro y hy
      have hyr := List.mem_of_mem_dropLast hy
      have hy' := hright y hyr
      have hyx : y ≠ x := (hdis x (by simp) y (List.mem_cons_of_mem _ hyr)).symm
      rw [hcell, if_neg (hs.cross y hy' t ht), if_neg (fun h => her y hyr (hs.next y hy' e he h)), if_neg (hs.cross y hy' e he),
        if_neg (fun h => hyx (hs.next y hy' x hx h))]
    · intro y hy
      have hyr : y ∈ r := by simpa using hy
      have hyr' : y ∈ t :: r := List.mem_cons_of_mem _ hyr
      have hy' := hright y hyr'
      have hyt : y ≠ t := by
        rintro rfl
        exact (List.nodup_cons.mp hnodupr.of_cons).1 hyr
      rw [hcell, if_neg (fun h => hyt (hs.prev y hy' t ht h)), if_neg (hs.cross e he y hy').symm,
        if_neg (fun h => her y hyr' (hs.prev y hy' e he h)), if_neg (hs.cross x hx y hy').symm]
  apply hleft.join (y := e)
  · have hxe : x ≠ e := hdis x (by simp) e (by simp)
    constructor
    · rw [hcell, if_neg (hs.cross x hx t ht), if_neg (fun h => hxe (hs.next x hx e he h)), if_neg (hs.cross x hx e he),
        if_pos rfl]
    · rw [hcell, if_neg (fun h => het (hs.prev e he t ht h)), if_neg (hs.cross e he e he).symm, if_pos rfl]
  · apply List.isChain_cons_cons.mpr
    refine ⟨?_, hrest⟩
    constructor
    · rw [hcell, if_neg (hs.cross e he t ht), if_pos rfl]
    · rw [hcell, if_pos rfl]

theorem Chain.remove (hc : F.Chain M (l ++ [x] ++ e :: y :: r)) (hs : F.Separate (l ++ [x] ++ e :: y :: r))
    (hnodup : (l ++ [x] ++ e :: y :: r).Nodup) : F.Chain (F.remove M e) (l ++ [x] ++ y :: r) := by
  obtain ⟨hl, ⟨-, hex⟩, her⟩ := hc.cut
  obtain ⟨⟨hey, -⟩, hr⟩ := List.isChain_cons_cons.mp her
  have hleft : ∀ z ∈ l ++ [x], z ∈ l ++ [x] ++ e :: y :: r := fun z hz => List.mem_append_left _ hz
  have hright : ∀ z ∈ y :: r, z ∈ l ++ [x] ++ e :: y :: r :=
    fun z hz => List.mem_append_right _ (List.mem_cons_of_mem _ hz)
  have hx := hleft x (by simp)
  have hy := hright y (by simp)
  have he : e ∈ l ++ [x] ++ e :: y :: r := by simp
  have hdis := (List.nodup_append.mp hnodup).2.2
  have hnodupl := (List.nodup_append.mp hnodup).1
  have hnodupr := (List.nodup_append.mp hnodup).2.1.of_cons
  have hcell : ∀ a, Fields.remove F M e a = if a = F.prev y then x else if a = F.next x then y else M a := by
    intro a
    have hne : F.prev e ≠ F.next x := (hs.cross x hx e he).symm
    have hxe : x ≠ e := hdis x (by simp) e (by simp)
    have hne' : F.next e ≠ F.next x := fun h => hxe (hs.next e he x hx h).symm
    simp only [Fields.remove, hex, hey, Function.update_apply, hne, hne', if_false]
  have hfront : F.Chain (Fields.remove F M e) (l ++ [x]) := by
    apply hl.congr
    · intro z hz
      rw [List.dropLast_concat] at hz
      have hz' := hleft z (List.mem_append_left _ hz)
      have hzx : z ≠ x := (List.nodup_append.mp hnodupl).2.2 z hz x (by simp)
      rw [hcell, if_neg (hs.cross z hz' y hy), if_neg (fun h => hzx (hs.next z hz' x hx h))]
    · intro z hz
      have hzl := List.mem_of_mem_tail hz
      have hz' := hleft z hzl
      have hzy : z ≠ y := hdis z hzl y (by simp)
      rw [hcell, if_neg (fun h => hzy (hs.prev z hz' y hy h)), if_neg (hs.cross x hx z hz').symm]
  apply hfront.join (y := y)
  · constructor
    · rw [hcell, if_neg (hs.cross x hx y hy), if_pos rfl]
    · rw [hcell, if_pos rfl]
  · apply Chain.congr hr
    · intro z hz
      have hzr := List.mem_of_mem_dropLast hz
      have hz' := hright z hzr
      have hzx : z ≠ x := (hdis x (by simp) z (List.mem_cons_of_mem _ hzr)).symm
      rw [hcell, if_neg (hs.cross z hz' y hy), if_neg (fun h => hzx (hs.next z hz' x hx h))]
    · intro z hz
      have hzr : z ∈ r := by simpa using hz
      have hz' := hright z (List.mem_cons_of_mem _ hzr)
      have hzy : z ≠ y := by
        rintro rfl
        exact (List.nodup_cons.mp hnodupr).1 hzr
      rw [hcell, if_neg (fun h => hzy (hs.prev z hz' y hy h)), if_neg (hs.cross x hx z hz').symm]

theorem insertBefore_outside (htx : M (F.prev t) = x) (hx : x ∈ l) (he : e ∈ l) (ht : t ∈ l) {a : A} (ha : F.Outside l a) :
    F.insertBefore M t e a = M a := by
  rw [Fields.insertBefore, Function.update_of_ne (ha t ht).2, Function.update_of_ne (ha e he).1,
    Function.update_of_ne (ha e he).2, htx, Function.update_of_ne (ha x hx).1]

theorem remove_outside (hs : F.Separate l) (hex : M (F.prev e) = x) (hey : M (F.next e) = y) (hne : e ≠ x) (hx : x ∈ l)
    (he : e ∈ l) (hy : y ∈ l) {a : A} (ha : F.Outside l a) : F.remove M e a = M a := by
  have hnext : F.next e ≠ F.next x := fun h => hne (hs.next e he x hx h)
  simp only [Fields.remove, hex, hey, Function.update_of_ne hnext]
  rw [Function.update_of_ne (ha y hy).2, Function.update_of_ne (ha x hx).1]

omit [DecidableEq A] in
theorem Chain.flip (hc : F.Chain M l) : F.flip.Chain M l.reverse := by
  apply List.isChain_reverse.mpr
  exact hc.imp fun x y h => And.symm h

end Fields

/-- The nodes met from `x` on before `stop`. -/
def visited (step : A → A) (stop : A) : ℕ → A → Option (List A)
  | 0, _ => none
  | fuel + 1, x => if x = stop then some [] else (visited step stop fuel (step x)).map (x :: ·)

variable {F : Fields A} {M : A → A} {l : List A} {h t : A}

omit [DecidableEq A] in
theorem Fields.Chain.first (hc : F.Chain M (h :: l ++ [t])) : M (F.next h) = l.headD t := by
  cases l with
  | nil => exact (List.isChain_cons_cons.mp hc).1.1
  | cons x l => exact (List.isChain_cons_cons.mp hc).1.1

theorem Fields.Chain.visited (hc : F.Chain M (h :: l ++ [t])) (ht : t ∉ l) {fuel : ℕ} (hfuel : l.length < fuel) :
    visited (fun x => M (F.next x)) t fuel (M (F.next h)) = some l := by
  rw [hc.first]
  induction l generalizing h fuel with
  | nil =>
    obtain ⟨fuel, rfl⟩ : ∃ n, fuel = n + 1 := ⟨fuel - 1, by omega⟩
    simp [LinkedList.visited]
  | cons x l ih =>
    obtain ⟨fuel, rfl⟩ : ∃ n, fuel = n + 1 := ⟨fuel - 1, by omega⟩
    have hrest : F.Chain M (x :: l ++ [t]) := (List.isChain_cons_cons.mp hc).2
    have hxt : x ≠ t := fun h => ht (by simp [h])
    rw [List.length_cons] at hfuel
    rw [List.headD_cons, LinkedList.visited, if_neg hxt, hrest.first, ih hrest (fun h => ht (by simp [h])) (by omega)]
    rfl

theorem Fields.Chain.visited_back (hc : F.Chain M (h :: l ++ [t])) (hh : h ∉ l) {fuel : ℕ} (hfuel : l.length < fuel) :
    LinkedList.visited (fun x => M (F.prev x)) h fuel (M (F.prev t)) = some l.reverse := by
  have hback : F.flip.Chain M (t :: l.reverse ++ [h]) := by simpa using hc.flip
  apply hback.visited
  · rw [List.mem_reverse]
    exact hh
  · rw [List.length_reverse]
    exact hfuel

end ElephantOS.LinkedList
