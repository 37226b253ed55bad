import ElephantOS.Transitions
import Mathlib.Data.Set.Insert
import Mathlib.Logic.Function.Basic

/-! A file system as a map from paths, with the files that are open: what its operations do to the map. -/

universe u v w

structure OpenFile (Name : Type v) where
  path : List Name
  pos : ℕ
  writable : Bool

/-- Each path has `none` at a directory and the contents at a file. -/
@[ext] structure FileSpace (Owner : Type u) (Name : Type v) (Byte : Type w) where
  map : Set (List Name × Option (List Byte))
  opened : Owner → Option (OpenFile Name)

namespace FileSpace

inductive Origin
  | start
  | current
  | last

/-- What is done to a file system. A read or a write has the path of its file. -/
inductive Event (Owner : Type u) (Name : Type v) (Byte : Type w)
  | create (path : List Name)
  | makeDirectory (path : List Name)
  | removeFile (path : List Name)
  | removeDirectory (path : List Name)
  | openFile (owner : Owner) (path : List Name) (writable : Bool)
  | closeFile (owner : Owner)
  | append (owner : Owner) (path : List Name) (bytes : List Byte)
  | read (owner : Owner) (path : List Name) (count : ℕ) (bytes : List Byte)
  | seek (owner : Owner) (origin : Origin) (offset : ℤ) (pos : ℕ)
  | look (path : List Name) (size : Option ℕ)
  | restart

def Origin.base (origin : Origin) (pos size : ℕ) : ℕ :=
  match origin with
  | .start => 0
  | .current => pos
  | .last => size

variable {Owner : Type u} {Name : Type v} {Byte : Type w}

/-- There is a directory for `path` to be made in, and nothing at `path`. -/
structure Vacant (M : Set (List Name × Option (List Byte))) (path : List Name) : Prop where
  named : path ≠ []
  parent : (path.dropLast, none) ∈ M
  absent : ∀ x, (path, x) ∉ M

/-- A write leaves the position on the last byte. -/
inductive Step [DecidableEq Owner] : FileSpace Owner Name Byte → Event Owner Name Byte → FileSpace Owner Name Byte → Prop
  | create {A : FileSpace Owner Name Byte} {path : List Name} : Vacant A.map path →
      Step A (.create path) { A with map := insert (path, some []) A.map }
  | makeDirectory {A : FileSpace Owner Name Byte} {path : List Name} : Vacant A.map path →
      Step A (.makeDirectory path) { A with map := insert (path, none) A.map }
  | removeFile {A : FileSpace Owner Name Byte} {path : List Name} {bytes : List Byte} : (path, some bytes) ∈ A.map →
      (∀ o f, A.opened o = some f → f.path ≠ path) → Step A (.removeFile path) { A with map := {x ∈ A.map | x.1 ≠ path} }
  | removeDirectory {A : FileSpace Owner Name Byte} {path : List Name} : path ≠ [] → (path, none) ∈ A.map →
      (∀ name x, (path ++ [name], x) ∉ A.map) → Step A (.removeDirectory path) { A with map := {x ∈ A.map | x.1 ≠ path} }
  | openFile {A : FileSpace Owner Name Byte} {o : Owner} {path : List Name} {bytes : List Byte} {writable : Bool} :
      (path, some bytes) ∈ A.map → A.opened o = none →
      Step A (.openFile o path writable) { A with opened := Function.update A.opened o (some ⟨path, 0, writable⟩) }
  | closeFile {A : FileSpace Owner Name Byte} {o : Owner} {f : OpenFile Name} : A.opened o = some f →
      Step A (.closeFile o) { A with opened := Function.update A.opened o none }
  | append {A : FileSpace Owner Name Byte} {o : Owner} {f : OpenFile Name} {old bytes : List Byte} : A.opened o = some f →
      f.writable = true → (f.path, some old) ∈ A.map → bytes ≠ [] → Step A (.append o f.path bytes)
        { map := insert (f.path, some (old ++ bytes)) {x ∈ A.map | x.1 ≠ f.path}
          opened := Function.update A.opened o (some { f with pos := old.length + bytes.length - 1 }) }
  | read {A : FileSpace Owner Name Byte} {o : Owner} {f : OpenFile Name} {old bytes : List Byte} {count : ℕ} : A.opened o = some f →
      (f.path, some old) ∈ A.map → bytes = (old.drop f.pos).take count → Step A (.read o f.path count bytes)
        { A with opened := Function.update A.opened o (some { f with pos := f.pos + bytes.length }) }
  | seek {A : FileSpace Owner Name Byte} {o : Owner} {f : OpenFile Name} {old : List Byte} {origin : Origin} {offset : ℤ} {pos : ℕ} :
      A.opened o = some f → (f.path, some old) ∈ A.map → (pos : ℤ) = origin.base f.pos old.length + offset → pos < old.length →
      Step A (.seek o origin offset pos) { A with opened := Function.update A.opened o (some { f with pos := pos }) }
  | look {A : FileSpace Owner Name Byte} {path : List Name} {x : Option (List Byte)} : (path, x) ∈ A.map →
      Step A (.look path (x.map List.length)) A
  | restart {A : FileSpace Owner Name Byte} : Step A .restart { A with opened := fun _ => none }

/-- The paths are those of a tree with a root directory, and what is open is there and read at a position inside it or at its end. -/
structure WellFormed (A : FileSpace Owner Name Byte) : Prop where
  root : ([], none) ∈ A.map
  parent : ∀ path name x, (path ++ [name], x) ∈ A.map → (path, none) ∈ A.map
  unique : ∀ path x y, (path, x) ∈ A.map → (path, y) ∈ A.map → x = y
  opened : ∀ o f, A.opened o = some f → ∃ bytes, (f.path, some bytes) ∈ A.map ∧ f.pos ≤ bytes.length

section

variable {A A' : FileSpace Owner Name Byte} {e : Event Owner Name Byte} {path : List Name} {x : Option (List Byte)}

theorem WellFormed.insert (h : A.WellFormed) (hv : Vacant A.map path) : ({ A with map := insert (path, x) A.map } : FileSpace _ _ _).WellFormed where
  root := .inr h.root
  parent p name y hy := by
    rcases hy with hy | hy
    · obtain ⟨hpath, -⟩ := Prod.mk.inj hy
      have hdir := hv.parent
      rw [← hpath, List.dropLast_concat] at hdir
      exact .inr hdir
    · exact .inr (h.parent p name y hy)
  unique p y z hy hz := by
    rcases hy with hy | hy <;> rcases hz with hz | hz
    · exact (Prod.mk.inj hy).2.trans (Prod.mk.inj hz).2.symm
    · obtain ⟨rfl, -⟩ := Prod.mk.inj hy
      exact absurd hz (hv.absent z)
    · obtain ⟨rfl, -⟩ := Prod.mk.inj hz
      exact absurd hy (hv.absent y)
    · exact h.unique p y z hy hz
  opened o f hf := by
    obtain ⟨bytes, hmem, hpos⟩ := h.opened o f hf
    exact ⟨bytes, .inr hmem, hpos⟩

theorem WellFormed.remove (h : A.WellFormed) (hne : path ≠ []) (hempty : ∀ name y, (path ++ [name], y) ∉ A.map)
    (hfree : ∀ o f, A.opened o = some f → f.path ≠ path) : ({ A with map := {x ∈ A.map | x.1 ≠ path} } : FileSpace _ _ _).WellFormed where
  root := ⟨h.root, hne.symm⟩
  parent p name y hy := by
    refine ⟨h.parent p name y hy.1, ?_⟩
    rintro rfl
    exact hempty name y hy.1
  unique p y z hy hz := h.unique p y z hy.1 hz.1
  opened o f hf := by
    obtain ⟨bytes, hmem, hpos⟩ := h.opened o f hf
    exact ⟨bytes, ⟨hmem, hfree o f hf⟩, hpos⟩

theorem WellFormed.leaf (h : A.WellFormed) {bytes : List Byte} (hfile : (path, some bytes) ∈ A.map) (name : Name) (y : Option (List Byte)) :
    (path ++ [name], y) ∉ A.map := by
  intro hy
  cases h.unique path _ _ hfile (h.parent path name y hy)

theorem WellFormed.rewrite (h : A.WellFormed) {old new : List Byte} (hfile : (path, some old) ∈ A.map) (hle : old.length ≤ new.length) :
    ({ A with map := Insert.insert (path, some new) {x ∈ A.map | x.1 ≠ path} } : FileSpace _ _ _).WellFormed where
  root := by
    refine .inr ⟨h.root, ?_⟩
    rintro rfl
    cases h.unique [] _ _ hfile h.root
  parent p name y hy := by
    have hdir : (p, none) ∈ A.map := by
      rcases hy with hy | hy
      · obtain ⟨rfl, -⟩ := Prod.mk.inj hy
        exact h.parent p name _ hfile
      · exact h.parent p name y hy.1
    refine .inr ⟨hdir, ?_⟩
    rintro rfl
    cases h.unique p _ _ hfile hdir
  unique p y z hy hz := by
    rcases hy with hy | hy <;> rcases hz with hz | hz
    · exact (Prod.mk.inj hy).2.trans (Prod.mk.inj hz).2.symm
    · exact absurd (Prod.mk.inj hy).1 hz.2
    · exact absurd (Prod.mk.inj hz).1 hy.2
    · exact h.unique p y z hy.1 hz.1
  opened o f hf := by
    obtain ⟨bytes, hmem, hpos⟩ := h.opened o f hf
    by_cases hpath : f.path = path
    · obtain rfl := Option.some.inj (h.unique path _ _ (hpath ▸ hmem) hfile)
      exact ⟨new, .inl (by rw [hpath]), hpos.trans hle⟩
    · exact ⟨bytes, .inr ⟨hmem, hpath⟩, hpos⟩

variable [DecidableEq Owner]

theorem WellFormed.position (h : A.WellFormed) {o : Owner} {f : OpenFile Name} {bytes : List Byte} (hf : (f.path, some bytes) ∈ A.map)
    (hpos : f.pos ≤ bytes.length) : ({ A with opened := Function.update A.opened o (some f) } : FileSpace _ _ _).WellFormed where
  root := h.root
  parent := h.parent
  unique := h.unique
  opened o' f' hf' := by
    by_cases ho : o' = o
    · subst ho
      dsimp only at hf'
      rw [Function.update_self] at hf'
      obtain rfl := Option.some.inj hf'
      exact ⟨bytes, hf, hpos⟩
    · dsimp only at hf'
      rw [Function.update_of_ne ho] at hf'
      exact h.opened o' f' hf'

theorem Step.wellFormed (h : A.WellFormed) (hs : Step A e A') : A'.WellFormed := by
  cases hs with
  | create hv => exact h.insert hv
  | makeDirectory hv => exact h.insert hv
  | @removeFile path bytes hfile hfree =>
    refine h.remove ?_ (h.leaf hfile) hfree
    rintro rfl
    cases h.unique [] _ _ hfile h.root
  | @removeDirectory path hne hdir hempty =>
    refine h.remove hne hempty fun o f hf => ?_
    rintro rfl
    obtain ⟨bytes, hmem, -⟩ := h.opened o f hf
    cases h.unique _ _ _ hmem hdir
  | openFile hfile _ => exact @WellFormed.position _ _ _ _ _ h _ ⟨_, 0, _⟩ _ hfile (Nat.zero_le _)
  | @closeFile o f _ =>
    refine ⟨h.root, h.parent, h.unique, fun o' f' hf' => ?_⟩
    by_cases ho : o' = o
    · subst ho
      dsimp only at hf'
      rw [Function.update_self] at hf'
      cases hf'
    · dsimp only at hf'
      rw [Function.update_of_ne ho] at hf'
      exact h.opened o' f' hf'
  | @append o f old bytes hf _ hfile _ =>
    have hle : old.length ≤ (old ++ bytes).length := by simp
    refine @WellFormed.position _ _ _ _ _ (h.rewrite hfile hle) o { f with pos := old.length + bytes.length - 1 } (old ++ bytes) (.inl rfl) ?_
    rw [List.length_append]
    exact Nat.sub_le _ _
  | @read o f old bytes count hf hfile hbytes =>
    obtain ⟨bytes', hmem, hpos⟩ := h.opened o f hf
    obtain rfl := Option.some.inj (h.unique _ _ _ hmem hfile)
    refine @WellFormed.position _ _ _ _ _ h o { f with pos := f.pos + bytes.length } bytes' hfile ?_
    rw [hbytes, List.length_take, List.length_drop]
    dsimp only
    omega
  | @seek o f old origin offset pos hf hfile _ hlt =>
    exact @WellFormed.position _ _ _ _ _ h o { f with pos := pos } old hfile hlt.le
  | look _ => exact h
  | restart => exact ⟨h.root, h.parent, h.unique, fun _ _ hf => by cases hf⟩

def machine (Owner : Type u) (Name : Type v) (Byte : Type w) [DecidableEq Owner] : Machine (FileSpace Owner Name Byte) (Event Owner Name Byte) :=
  ⟨Step⟩

theorem Run.wellFormed {es : List (Event Owner Name Byte)} (h : A.WellFormed) (hrun : (machine Owner Name Byte).Run A es A') : A'.WellFormed :=
  hrun.invariant (fun _ _ _ hw hs => Step.wellFormed hw hs) h

/-- The paths whose entry in the map an event changes. -/
def Event.Changes (path : List Name) : Event Owner Name Byte → Prop
  | .create p => p = path
  | .makeDirectory p => p = path
  | .removeFile p => p = path
  | .removeDirectory p => p = path
  | .append _ p _ => p = path
  | _ => False

theorem Step.elsewhere (hs : Step A e A') (hpath : ¬ e.Changes path) : (path, x) ∈ A'.map ↔ (path, x) ∈ A.map := by
  have hinsert : ∀ {p : List Name} {y : Option (List Byte)} {M : Set (List Name × Option (List Byte))}, ¬ p = path →
      ((path, x) ∈ Insert.insert (p, y) M ↔ (path, x) ∈ M) := by
    intro p y M hne
    rw [Set.mem_insert_iff, Prod.mk.injEq]
    exact or_iff_right fun hx => hne hx.1.symm
  have hremove : ∀ {p : List Name} {M : Set (List Name × Option (List Byte))}, ¬ p = path →
      ((path, x) ∈ {x ∈ M | x.1 ≠ p} ↔ (path, x) ∈ M) := fun hne => and_iff_left fun hx => hne hx.symm
  cases hs with
  | create _ => exact hinsert hpath
  | makeDirectory _ => exact hinsert hpath
  | removeFile _ _ => exact hremove hpath
  | removeDirectory _ _ _ => exact hremove hpath
  | append _ _ _ _ => exact (hinsert hpath).trans (hremove hpath)
  | openFile _ _ => exact Iff.rfl
  | closeFile _ => exact Iff.rfl
  | read _ _ _ => exact Iff.rfl
  | seek _ _ _ _ => exact Iff.rfl
  | look _ => exact Iff.rfl
  | restart => exact Iff.rfl

theorem Run.elsewhere {es : List (Event Owner Name Byte)} (hrun : (machine Owner Name Byte).Run A es A') (hpath : ∀ e ∈ es, ¬ e.Changes path) :
    (path, x) ∈ A'.map ↔ (path, x) ∈ A.map := by
  induction hrun with
  | nil => exact Iff.rfl
  | snoc _ hstep ih =>
    rw [List.forall_mem_append] at hpath
    exact (Step.elsewhere hstep (hpath.2 _ (List.mem_singleton_self _))).trans (ih hpath.1)

def Event.Makes (path : List Name) : Event Owner Name Byte → Prop
  | .create p => p = path
  | .makeDirectory p => p = path
  | _ => False

theorem Step.makes (hs : Step A e A') (hmakes : e.Makes path) : Vacant A.map path ∧ ∃ x, (path, x) ∈ A'.map := by
  cases hs with
  | create hv =>
    obtain rfl : _ = path := hmakes
    exact ⟨hv, _, .inl rfl⟩
  | makeDirectory hv =>
    obtain rfl : _ = path := hmakes
    exact ⟨hv, _, .inl rfl⟩
  | _ => exact hmakes.elim

def Event.Removes (path : List Name) : Event Owner Name Byte → Prop
  | .removeFile p => p = path
  | .removeDirectory p => p = path
  | _ => False

theorem Step.stays (h : A.WellFormed) (hs : Step A e A') (hx : (path, x) ∈ A.map) (hkeep : ¬ e.Removes path) :
    ∃ y, (path, y) ∈ A'.map ∧ y.isSome = x.isSome := by
  by_cases hchanges : e.Changes path
  · cases hs with
    | create hv =>
      obtain rfl : _ = path := hchanges
      exact absurd hx (hv.absent x)
    | makeDirectory hv =>
      obtain rfl : _ = path := hchanges
      exact absurd hx (hv.absent x)
    | removeFile _ _ => exact absurd hchanges hkeep
    | removeDirectory _ _ _ => exact absurd hchanges hkeep
    | append _ _ hold _ =>
      obtain rfl : _ = path := hchanges
      obtain rfl := h.unique _ _ _ hx hold
      exact ⟨_, .inl rfl, rfl⟩
    | openFile _ _ => exact hchanges.elim
    | closeFile _ => exact hchanges.elim
    | read _ _ _ => exact hchanges.elim
    | seek _ _ _ _ => exact hchanges.elim
    | look _ => exact hchanges.elim
    | restart => exact hchanges.elim
  · exact ⟨x, (hs.elsewhere hchanges).mpr hx, rfl⟩

theorem Run.stays {es : List (Event Owner Name Byte)} (h : A.WellFormed) (hrun : (machine Owner Name Byte).Run A es A')
    (hx : (path, x) ∈ A.map) (hkeep : ∀ e ∈ es, ¬ e.Removes path) : ∃ y, (path, y) ∈ A'.map ∧ y.isSome = x.isSome := by
  induction hrun with
  | nil => exact ⟨x, hx, rfl⟩
  | snoc hrun hstep ih =>
    rw [List.forall_mem_append] at hkeep
    obtain ⟨y, hy, hsome⟩ := ih hkeep.1
    have hwell := Run.wellFormed h hrun
    obtain ⟨z, hz, hsome'⟩ := Step.stays hwell hstep hy (hkeep.2 _ (List.mem_singleton_self _))
    exact ⟨z, hz, hsome'.trans hsome⟩

section

variable [DecidableEq Name]

def Event.appended (path : List Name) : Event Owner Name Byte → List Byte
  | .append _ p bytes => if p = path then bytes else []
  | _ => []

/-- The bytes that the events append to the file at `path`, in their order. -/
def appendedTo (path : List Name) (es : List (Event Owner Name Byte)) : List Byte := es.flatMap (Event.appended path)

omit [DecidableEq Owner] in
theorem Event.appended_self {o : Owner} {bytes : List Byte} : Event.appended path (.append o path bytes) = bytes := if_pos rfl

omit [DecidableEq Owner] in
theorem Event.appended_elsewhere (h : ¬ e.Changes path) : e.appended path = [] := by
  cases e with
  | append => exact if_neg h
  | _ => rfl

theorem Run.contents {es : List (Event Owner Name Byte)} {bytes : List Byte} (h : A.WellFormed) (hrun : (machine Owner Name Byte).Run A es A')
    (hfile : (path, some bytes) ∈ A.map) (hkeep : .removeFile path ∉ es) : (path, some (bytes ++ appendedTo path es)) ∈ A'.map := by
  induction hrun with
  | nil =>
    rw [appendedTo, List.flatMap_nil, List.append_nil]
    exact hfile
  | @snoc A₁ A₂ es e hrun hstep ih =>
    rw [List.mem_append, not_or] at hkeep
    have hat := ih hkeep.1
    have hwell := Run.wellFormed h hrun
    change Step A₁ e A₂ at hstep
    have hsnoc : appendedTo path (es ++ [e]) = appendedTo path es ++ e.appended path := by
      rw [appendedTo, List.flatMap_append, List.flatMap_singleton, appendedTo]
    rw [hsnoc, ← List.append_assoc]
    by_cases hchanges : e.Changes path
    · cases hstep with
      | create hv =>
        obtain rfl : _ = path := hchanges
        exact absurd hat (hv.absent _)
      | makeDirectory hv =>
        obtain rfl : _ = path := hchanges
        exact absurd hat (hv.absent _)
      | removeFile _ _ =>
        obtain rfl : _ = path := hchanges
        exact absurd (List.mem_singleton_self _) hkeep.2
      | removeDirectory _ hdir _ =>
        obtain rfl : _ = path := hchanges
        cases hwell.unique _ _ _ hat hdir
      | append _ _ hold _ =>
        obtain rfl : _ = path := hchanges
        obtain rfl := Option.some.inj (hwell.unique _ _ _ hat hold)
        rw [Event.appended_self]
        exact .inl rfl
      | openFile _ _ => exact hchanges.elim
      | closeFile _ => exact hchanges.elim
      | read _ _ _ => exact hchanges.elim
      | seek _ _ _ _ => exact hchanges.elim
      | look _ => exact hchanges.elim
      | restart => exact hchanges.elim
    · rw [Event.appended_elsewhere hchanges, List.append_nil]
      exact (hstep.elsewhere hchanges).mpr hat

end

end

end FileSpace
