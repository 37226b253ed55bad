import ElephantOS.VolumeSearch

namespace ElephantOS

open ByteMemory HaltingState

section

variable {s s' : Fs} {path : Path} {r : ℕ}

theorem depthFrom_remaining {fuel depth : ℕ} {name : Name} {p : Option Path} (hs : depthFrom fuel depth name p s = .ok (r, s')) :
    r = depth + (remaining name p).length := by
  induction fuel generalizing depth name p with
  | zero => simp [depthFrom] at hs
  | succ fuel ih =>
    unfold depthFrom at hs
    unfold remaining
    split_ifs at hs ⊢ with hnil
    · exact ((pure_ok _ _ _ _).mp hs).1.symm
    · cases p with
      | none => exact ((pure_ok _ _ _ _).mp hs).1.symm
      | some p =>
        simp only [bind_ok] at hs
        obtain ⟨_, s1, h1, h2⟩ := hs
        obtain ⟨rfl, rfl⟩ := parseName_ok h1
        have hrest : remaining (pathParse p).1 (pathParse p).2 = components p := (components_eq p).symm
        have := ih h2
        rw [hrest] at this
        rw [this, Option.getD_some, List.length_cons]
        omega

theorem pathDepthCnt_components {junk : Junk} (hne : components path ≠ []) (hs : pathDepthCnt junk path s = .ok (r, s')) :
    r = (components path).length := by
  unfold pathDepthCnt at hs
  simp only [bind_ok] at hs
  obtain ⟨_, s1, h1, h2⟩ := hs
  obtain ⟨rfl, rfl⟩ := parseName_ok h1
  have hcomp := components_eq path
  split_ifs at h2 with hnil
  · rw [if_pos hnil] at hcomp
    exact absurd hcomp hne
  · rw [if_pos hnil] at hcomp
    exact absurd hcomp hne
  · have hrest : remaining (pathParse path).1 (pathParse path).2 = components path := hcomp.symm
    rw [depthFrom_remaining h2, hrest, Nat.zero_add]

theorem components_append (front rest : Path) : components (front ++ slash :: rest) = components front ++ components rest := by
  induction hn : front.length using Nat.strong_induction_on generalizing front with
  | _ n ih =>
    by_cases hmem : slash ∈ front
    · obtain ⟨name, front', rfl, hname⟩ := List.eq_append_cons_of_mem hmem
      rw [List.append_assoc, List.cons_append, components_append_slash _ _ hname, components_append_slash _ _ hname, List.append_assoc]
      congr 1
      refine ih front'.length ?_ front' rfl
      rw [← hn, List.length_append, List.length_cons]
      omega
    · rw [components_append_slash _ _ hmem, components_single hmem]

theorem lastName_components {names : List Name} {name : Name} (hend : path.getLast? ≠ some slash) (habs : slash ∈ path)
    (hcomp : components path = names ++ [name]) : lastName path = some name := by
  obtain ⟨tail, front, hrev, htail⟩ := List.eq_append_cons_of_mem (List.mem_reverse.mpr habs)
  obtain rfl : path = front.reverse ++ slash :: tail.reverse := by
    rw [← List.reverse_inj, hrev]
    simp
  have hslash : slash ∉ tail.reverse := by simpa using htail
  rw [lastName_append hslash]
  rw [components_append, components_single hslash] at hcomp
  split_ifs at hcomp with hnil
  · rw [hnil] at hend
    exact absurd (by simp) hend
  · exact congrArg some (List.append_inj_right' hcomp rfl |> List.singleton_inj.mp)

theorem searched_whole {name : Name} {pre rest : List Name} {depth : ℕ} {junk : Junk} {s₁ s₂ s₃ s₄ : Fs} (h0 : 0 ∉ path)
    (hnames : components path = pre ++ name :: rest) (hd : pathDepthCnt junk path s₁ = .ok (depth, s₂))
    (hd' : pathDepthCnt junk (slashed (pre ++ [name])) s₃ = .ok (depth, s₄)) : rest = [] ∧ slash ∉ name := by
  have hpn := components_name h0
  have hpre : ∀ c ∈ pre ++ [name], c ≠ [] ∧ slash ∉ c := by
    intro c hc
    have hmem : c ∈ components path := by
      rw [hnames, List.mem_append, List.mem_cons]
      rw [List.mem_append, List.mem_singleton] at hc
      exact hc.imp_right .inl
    exact ⟨(hpn c hmem).named, (hpn c hmem).noSlash⟩
  have hcount := pathDepthCnt_components (by simp [hnames]) hd
  have hcomp : components (slashed (pre ++ [name])) = pre ++ [name] := components_slashed hpre
  have hcount' := pathDepthCnt_components (by rw [hcomp]; simp) hd'
  rw [hcomp, hcount, hnames] at hcount'
  simp only [List.length_append, List.length_cons, List.length_nil] at hcount'
  exact ⟨List.length_eq_zero_iff.mp (by omega), (hpre name (by simp)).2⟩

theorem SearchEnd.last {M : ℕ → ℕ × ℕ → Option Entry} {prev : Name} {n d depth : ℕ} {junk : Junk} {t : FileType} {searched : Path} {s₁ s₂ s₃ s₄ : Fs}
    (h : SearchEnd M prev n d (components path) [] none t searched) (h0 : 0 ∉ path)
    (hd : pathDepthCnt junk path s₁ = .ok (depth, s₂)) (hd' : pathDepthCnt junk searched s₃ = .ok (depth, s₄)) :
    ∃ names name, components path = names ++ [name] ∧ Walks M n names d ∧ (∀ pos e, M d pos = some e → e.name ≠ name) ∧
      lastName searched = some name := by
  cases h with
  | @missing name pre rest _ hnames hw hmiss ht =>
    rw [List.nil_append] at hd' ⊢
    obtain ⟨rfl, hslash⟩ := searched_whole h0 hnames hd hd'
    refine ⟨pre, name, hnames, hw, hmiss, ?_⟩
    rw [slashed_append, slashed_single]
    exact lastName_append hslash

end

end ElephantOS
