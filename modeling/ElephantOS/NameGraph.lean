import ElephantOS.DirectoryMap
import ElephantOS.PathResolution

namespace ElephantOS

structure Names (M : ℕ → ℕ × ℕ → Option Entry) (dirs files : Set ℕ) : Prop where
  disjoint : ∀ n ∈ dirs, n ∉ files
  root : 0 ∈ dirs
  kinds : ∀ d ∈ dirs, ∀ pos e, M d pos = some e → e.fType = .directory ∧ e.iNo ∈ dirs ∨ e.fType = .regular ∧ e.iNo ∈ files
  unique : ∀ d ∈ dirs, NamesUnique (M d)
  self : ∀ d ∈ dirs, ∃ pos e, M d pos = some e ∧ e.name = dot ∧ e.iNo = d ∧ e.fType = .directory
  up : ∀ d ∈ dirs, ∃ pos e, M d pos = some e ∧ e.name = dotDot ∧ e.fType = .directory ∧
    (d = 0 ∧ e.iNo = 0 ∨ ∃ pos' e', M e.iNo pos' = some e' ∧ e'.Ordinary ∧ e'.iNo = d)
  notRoot : ∀ d ∈ dirs, ∀ pos e, M d pos = some e → e.Ordinary → e.iNo ≠ 0
  once : ∀ c ∈ dirs, ∀ d ∈ dirs, ∀ pos pos' e e', M c pos = some e → M d pos' = some e' → e.Ordinary → e'.Ordinary → e.iNo = e'.iNo →
    c = d ∧ pos = pos'
  named : ∀ n, n ∈ dirs ∨ n ∈ files → n ≠ 0 → ∃ d ∈ dirs, ∃ pos e, M d pos = some e ∧ e.Ordinary ∧ e.iNo = n
  ranked : ∃ rank : ℕ → ℕ, ∀ d ∈ dirs, ∀ pos e, M d pos = some e → e.Ordinary → rank d < rank e.iNo

theorem dot_ne_dotDot : dot ≠ dotDot := by decide

def place (M : ℕ → ℕ × ℕ → Option Entry) (d : ℕ) (pos : ℕ × ℕ) (o : Option Entry) : ℕ → ℕ × ℕ → Option Entry :=
  Function.update M d (Function.update (M d) pos o)

section

variable {M : ℕ → ℕ × ℕ → Option Entry} {dirs files : Set ℕ} {d n : ℕ} {pos : ℕ × ℕ} {e : Entry}

theorem place_self (M : ℕ → ℕ × ℕ → Option Entry) (d : ℕ) (pos : ℕ × ℕ) (o : Option Entry) : place M d pos o d pos = o := by
  simp [place]

theorem place_other {c : ℕ} {q : ℕ × ℕ} {o : Option Entry} (h : ¬ (c = d ∧ q = pos)) : place M d pos o c q = M c q := by
  unfold place
  by_cases hc : c = d
  · subst hc
    rw [Function.update_self, Function.update_of_ne fun hq => h ⟨rfl, hq⟩]
  · rw [Function.update_of_ne hc]

theorem place_some {c : ℕ} {q : ℕ × ℕ} {e' : Entry} :
    place M d pos (some e) c q = some e' ↔ c = d ∧ q = pos ∧ e' = e ∨ ¬ (c = d ∧ q = pos) ∧ M c q = some e' := by
  by_cases h : c = d ∧ q = pos
  · obtain ⟨rfl, rfl⟩ := h
    rw [place_self, Option.some.injEq]
    simp [eq_comm]
  · rw [place_other h]
    constructor
    · intro hq
      exact .inr ⟨h, hq⟩
    · rintro (⟨hc, hq, -⟩ | ⟨-, hq⟩)
      · exact absurd ⟨hc, hq⟩ h
      · exact hq

theorem place_none {c : ℕ} {q : ℕ × ℕ} {e' : Entry} : place M d pos none c q = some e' ↔ ¬ (c = d ∧ q = pos) ∧ M c q = some e' := by
  by_cases h : c = d ∧ q = pos
  · obtain ⟨rfl, rfl⟩ := h
    rw [place_self]
    simp
  · rw [place_other h]
    exact ⟨fun hq => ⟨h, hq⟩, fun hq => hq.2⟩

theorem Names.file_ne_zero (h : Names M dirs files) (hn : n ∉ dirs) : n ≠ 0 := by
  rintro rfl
  exact hn h.root

theorem NamesUnique.place (h : NamesUnique (M d)) (hname : ∀ q e', M d q = some e' → e'.name ≠ e.name) :
    NamesUnique (ElephantOS.place M d pos (some e) d) := by
  intro q q' a b ha hb hab
  rcases place_some.mp ha with ⟨-, -, hae⟩ | ⟨-, ha'⟩ <;> rcases place_some.mp hb with ⟨-, -, hbe⟩ | ⟨-, hb'⟩
  · exact hae.trans hbe.symm
  · exact absurd (hab.symm.trans (congrArg Entry.name hae)) (hname q' b hb')
  · exact absurd (hab.trans (congrArg Entry.name hbe)) (hname q a ha')
  · exact h q q' a b ha' hb' hab

theorem place_kept (hfree : M d pos = none) {c : ℕ} {q : ℕ × ℕ} {e' : Entry} (hq : M c q = some e') :
    ElephantOS.place M d pos (some e) c q = some e' := by
  rw [place_other]
  · exact hq
  · rintro ⟨rfl, rfl⟩
    rw [hfree] at hq
    cases hq

theorem Names.addFile (h : Names M dirs files) (hd : d ∈ dirs) (hfree : M d pos = none)
    (hname : ∀ q e', M d q = some e' → e'.name ≠ e.name) (hord : e.Ordinary) (htype : e.fType = .regular)
    (hdirs : e.iNo ∉ dirs) (hfiles : e.iNo ∉ files) : Names (place M d pos (some e)) dirs (insert e.iNo files) := by
  have hnew : ∀ c ∈ dirs, ∀ q e', M c q = some e' → e'.iNo ≠ e.iNo := by
    intro c hc q e' hq heq
    rcases h.kinds c hc q e' hq with ⟨-, hm⟩ | ⟨-, hm⟩
    · exact hdirs (heq ▸ hm)
    · exact hfiles (heq ▸ hm)
  refine ⟨?_, h.root, ?_, ?_, ?_, ?_, ?_, ?_, ?_, ?_⟩
  · rintro m hm (rfl | hf)
    · exact hdirs hm
    · exact h.disjoint m hm hf
  · intro c hc q e' hq
    rcases place_some.mp hq with ⟨-, -, rfl⟩ | ⟨-, hq⟩
    · exact .inr ⟨htype, Set.mem_insert _ _⟩
    · exact (h.kinds c hc q e' hq).imp_right fun hk => ⟨hk.1, Set.mem_insert_of_mem _ hk.2⟩
  · intro c hc
    by_cases hcd : c = d
    · subst hcd
      exact (h.unique c hc).place hname
    · intro q q' a b ha hb hab
      rw [place_other fun hx => hcd hx.1] at ha hb
      exact h.unique c hc q q' a b ha hb hab
  · intro c hc
    obtain ⟨q, e', hq, hrest⟩ := h.self c hc
    exact ⟨q, e', place_kept hfree hq, hrest⟩
  · intro c hc
    obtain ⟨q, e', hq, hdd, ht, hup⟩ := h.up c hc
    refine ⟨q, e', place_kept hfree hq, hdd, ht, hup.imp_right ?_⟩
    rintro ⟨q', e'', hq', hrest⟩
    exact ⟨q', e'', place_kept hfree hq', hrest⟩
  · intro c hc q e' hq hord'
    rcases place_some.mp hq with ⟨-, -, rfl⟩ | ⟨-, hq⟩
    · exact h.file_ne_zero hdirs
    · exact h.notRoot c hc q e' hq hord'
  · intro c hc c' hc' q q' a b ha hb hoa hob hab
    rcases place_some.mp ha with ⟨hcd, hq, hae⟩ | ⟨-, ha'⟩ <;> rcases place_some.mp hb with ⟨hcd', hq', hbe⟩ | ⟨-, hb'⟩
    · exact ⟨hcd.trans hcd'.symm, hq.trans hq'.symm⟩
    · exact absurd (hab.symm.trans (congrArg Entry.iNo hae)) (hnew c' hc' q' b hb')
    · exact absurd (hab.trans (congrArg Entry.iNo hbe)) (hnew c hc q a ha')
    · exact h.once c hc c' hc' q q' a b ha' hb' hoa hob hab
  · rintro m hm hm0
    by_cases hme : m = e.iNo
    · exact ⟨d, hd, pos, e, place_self _ _ _ _, hord, hme.symm⟩
    · have hm' : m ∈ dirs ∨ m ∈ files := hm.imp_right fun hf => hf.resolve_left hme
      obtain ⟨c, hc, q, e', hq, hrest⟩ := h.named m hm' hm0
      exact ⟨c, hc, q, e', place_kept hfree hq, hrest⟩
  · obtain ⟨rank, hrank⟩ := h.ranked
    refine ⟨Function.update rank e.iNo (rank d + 1), ?_⟩
    intro c hc q e' hq hord'
    have hce : c ≠ e.iNo := fun heq => hdirs (heq ▸ hc)
    rw [Function.update_of_ne hce]
    rcases place_some.mp hq with ⟨rfl, -, rfl⟩ | ⟨-, hq⟩
    · rw [Function.update_self]
      exact Nat.lt_succ_self _
    · rw [Function.update_of_ne (hnew c hc q e' hq)]
      exact hrank c hc q e' hq hord'

theorem Names.addDir (h : Names M dirs files) (hd : d ∈ dirs) (hfree : M d pos = none)
    (hname : ∀ q e', M d q = some e' → e'.name ≠ e.name) (hord : e.Ordinary) (htype : e.fType = .directory)
    (hdirs : e.iNo ∉ dirs) (hfiles : e.iNo ∉ files) {D : ℕ × ℕ → Option Entry} {q₀ q₁ : ℕ × ℕ}
    (hD : ∀ q e', D q = some e' ↔ q = q₀ ∧ e' = ⟨dot, e.iNo, .directory⟩ ∨ q = q₁ ∧ e' = ⟨dotDot, d, .directory⟩) :
    Names (Function.update (place M d pos (some e)) e.iNo D) (insert e.iNo dirs) files := by
  have hne : d ≠ e.iNo := fun heq => hdirs (heq ▸ hd)
  have hnew : ∀ c ∈ dirs, ∀ q e', M c q = some e' → e'.iNo ≠ e.iNo := by
    intro c hc q e' hq heq
    rcases h.kinds c hc q e' hq with ⟨-, hm⟩ | ⟨-, hm⟩
    · exact hdirs (heq ▸ hm)
    · exact hfiles (heq ▸ hm)
  -- the entries of the new directory
  have hown : ∀ q, Function.update (place M d pos (some e)) e.iNo D e.iNo q = D q := fun q => by rw [Function.update_self]
  have hdots : ∀ q e', D q = some e' → ¬ e'.Ordinary ∧ e'.fType = .directory ∧ (e'.iNo = e.iNo ∨ e'.iNo = d) := by
    intro q e' hq
    rcases (hD q e').mp hq with ⟨-, rfl⟩ | ⟨-, rfl⟩
    · exact ⟨fun ho => ho.1 rfl, rfl, .inl rfl⟩
    · exact ⟨fun ho => ho.2 rfl, rfl, .inr rfl⟩
  have hother : ∀ c ∈ dirs, ∀ q, Function.update (place M d pos (some e)) e.iNo D c q = place M d pos (some e) c q := by
    intro c hc q
    rw [Function.update_of_ne]
    rintro rfl
    exact hdirs hc
  have hkept : ∀ c ∈ dirs, ∀ q e', M c q = some e' → Function.update (place M d pos (some e)) e.iNo D c q = some e' := by
    intro c hc q e' hq
    rw [hother c hc]
    exact place_kept hfree hq
  refine ⟨?_, Set.mem_insert_of_mem _ h.root, ?_, ?_, ?_, ?_, ?_, ?_, ?_, ?_⟩
  · rintro m (rfl | hm) hf
    · exact hfiles hf
    · exact h.disjoint m hm hf
  · rintro c (rfl | hc) q e' hq
    · rw [hown] at hq
      obtain ⟨-, ht, hn | hn⟩ := hdots q e' hq
      · exact .inl ⟨ht, hn ▸ Set.mem_insert _ _⟩
      · exact .inl ⟨ht, hn ▸ Set.mem_insert_of_mem _ hd⟩
    · rw [hother c hc] at hq
      rcases place_some.mp hq with ⟨-, -, rfl⟩ | ⟨-, hq⟩
      · exact .inl ⟨htype, Set.mem_insert _ _⟩
      · exact (h.kinds c hc q e' hq).imp_left fun hk => ⟨hk.1, Set.mem_insert_of_mem _ hk.2⟩
  · rintro c (rfl | hc)
    · intro q q' a b ha hb hab
      rw [hown] at ha hb
      rcases (hD q a).mp ha with ⟨-, rfl⟩ | ⟨-, rfl⟩ <;> rcases (hD q' b).mp hb with ⟨-, rfl⟩ | ⟨-, rfl⟩
      · rfl
      · exact absurd hab dot_ne_dotDot
      · exact absurd hab.symm dot_ne_dotDot
      · rfl
    · intro q q' a b ha hb hab
      rw [hother c hc] at ha hb
      by_cases hcd : c = d
      · subst hcd
        exact (h.unique c hc).place hname q q' a b ha hb hab
      · rw [place_other fun hx => hcd hx.1] at ha hb
        exact h.unique c hc q q' a b ha hb hab
  · rintro c (rfl | hc)
    · exact ⟨q₀, _, (hown q₀).trans ((hD q₀ _).mpr (.inl ⟨rfl, rfl⟩)), rfl, rfl, rfl⟩
    · obtain ⟨q, e', hq, hrest⟩ := h.self c hc
      exact ⟨q, e', hkept c hc q e' hq, hrest⟩
  · rintro c (rfl | hc)
    · refine ⟨q₁, _, (hown q₁).trans ((hD q₁ _).mpr (.inr ⟨rfl, rfl⟩)), rfl, rfl, .inr ⟨pos, e, ?_, hord, rfl⟩⟩
      rw [hother d hd]
      exact place_self _ _ _ _
    · obtain ⟨q, e', hq, hdd, ht, hup⟩ := h.up c hc
      refine ⟨q, e', hkept c hc q e' hq, hdd, ht, hup.imp_right ?_⟩
      rintro ⟨q', e'', hq', hrest⟩
      rcases h.kinds c hc q e' hq with ⟨-, hm⟩ | ⟨hr, -⟩
      · exact ⟨q', e'', hkept _ hm q' e'' hq', hrest⟩
      · rw [ht] at hr
        cases hr
  · rintro c (rfl | hc) q e' hq hord'
    · rw [hown] at hq
      exact absurd hord' (hdots q e' hq).1
    · rw [hother c hc] at hq
      rcases place_some.mp hq with ⟨-, -, rfl⟩ | ⟨-, hq⟩
      · exact h.file_ne_zero hdirs
      · exact h.notRoot c hc q e' hq hord'
  · intro c hc c' hc' q q' a b ha hb hoa hob hab
    rcases hc with rfl | hc
    · rw [hown] at ha
      exact absurd hoa (hdots q a ha).1
    rcases hc' with rfl | hc'
    · rw [hown] at hb
      exact absurd hob (hdots q' b hb).1
    rw [hother c hc] at ha
    rw [hother c' hc'] at hb
    rcases place_some.mp ha with ⟨hcd, hq, hae⟩ | ⟨-, ha'⟩ <;> rcases place_some.mp hb with ⟨hcd', hq', hbe⟩ | ⟨-, hb'⟩
    · exact ⟨hcd.trans hcd'.symm, hq.trans hq'.symm⟩
    · exact absurd (hab.symm.trans (congrArg Entry.iNo hae)) (hnew c' hc' q' b hb')
    · exact absurd (hab.trans (congrArg Entry.iNo hbe)) (hnew c hc q a ha')
    · exact h.once c hc c' hc' q q' a b ha' hb' hoa hob hab
  · rintro m hm hm0
    by_cases hme : m = e.iNo
    · exact ⟨d, Set.mem_insert_of_mem _ hd, pos, e, (hother d hd pos).trans (place_self _ _ _ _), hord, hme.symm⟩
    · have hm' : m ∈ dirs ∨ m ∈ files := hm.imp_left fun hf => hf.resolve_left hme
      obtain ⟨c, hc, q, e', hq, hrest⟩ := h.named m hm' hm0
      exact ⟨c, Set.mem_insert_of_mem _ hc, q, e', hkept c hc q e' hq, hrest⟩
  · obtain ⟨rank, hrank⟩ := h.ranked
    refine ⟨Function.update rank e.iNo (rank d + 1), ?_⟩
    rintro c (rfl | hc) q e' hq hord'
    · rw [hown] at hq
      exact absurd hord' (hdots q e' hq).1
    · rw [hother c hc] at hq
      have hce : c ≠ e.iNo := fun heq => hdirs (heq ▸ hc)
      rw [Function.update_of_ne hce]
      rcases place_some.mp hq with ⟨rfl, -, rfl⟩ | ⟨-, hq⟩
      · rw [Function.update_self]
        exact Nat.lt_succ_self _
      · rw [Function.update_of_ne (hnew c hc q e' hq)]
        exact hrank c hc q e' hq hord'

theorem Names.remove (h : Names M dirs files) (hd : d ∈ dirs) (hpos : M d pos = some e) (hord : e.Ordinary)
    (hempty : e.iNo ∈ dirs → ∀ q e', M e.iNo q = some e' → ¬ e'.Ordinary) :
    Names (place M d pos none) (dirs \ {e.iNo}) (files \ {e.iNo}) := by
  have honly : ∀ c ∈ dirs, ∀ q e', M c q = some e' → e'.Ordinary → ¬ (c = d ∧ q = pos) → e'.iNo ≠ e.iNo := by
    intro c hc q e' hq hord' hne heq
    exact hne (h.once c hc d hd q pos e' e hq hpos hord' hord heq)
  -- the removed directory named no other one
  have hparent : ∀ c ∈ dirs, ∀ q e', M c q = some e' → e'.Ordinary → c ≠ e.iNo := by
    rintro c hc q e' hq hord' rfl
    exact hempty hc q e' hq hord'
  have hstay : ∀ c, ∀ q e', M c q = some e' → ¬ e'.Ordinary → place M d pos none c q = some e' := by
    intro c q e' hq hord'
    apply place_none.mpr
    refine ⟨?_, hq⟩
    rintro ⟨rfl, rfl⟩
    rw [hpos, Option.some.injEq] at hq
    exact hord' (hq ▸ hord)
  -- nor do the entries `.` and `..` of another one lead to it
  have hdots : ∀ c ∈ dirs, c ≠ e.iNo → ∀ q e', M c q = some e' → ¬ e'.Ordinary → e'.iNo ≠ e.iNo := by
    intro c hc hce q e' hq hord' heq
    by_cases hdot : e'.name = dot
    · obtain ⟨q₀, e₀, h₀, hn₀, hno₀, -⟩ := h.self c hc
      obtain rfl := h.unique c hc q q₀ e' e₀ hq h₀ (hdot.trans hn₀.symm)
      exact hce (hno₀.symm.trans heq)
    · have hdd : e'.name = dotDot := by
        by_contra hdd
        exact hord' ⟨hdot, hdd⟩
      obtain ⟨q₁, e₁, h₁, hn₁, ht₁, hup⟩ := h.up c hc
      obtain rfl := h.unique c hc q q₁ e' e₁ hq h₁ (hdd.trans hn₁.symm)
      rcases hup with ⟨-, h0⟩ | ⟨q', e'', hq', hord'', -⟩
      · exact h.notRoot d hd pos e hpos hord (heq.symm.trans h0)
      · rw [heq] at hq'
        rcases h.kinds c hc q e' hq with ⟨-, hm⟩ | ⟨hr, -⟩
        · exact hempty (heq ▸ hm) q' e'' hq' hord''
        · rw [ht₁] at hr
          cases hr
  refine ⟨?_, ⟨h.root, ?_⟩, ?_, ?_, ?_, ?_, ?_, ?_, ?_, ?_⟩
  · rintro m ⟨hm, -⟩ ⟨hf, -⟩
    exact h.disjoint m hm hf
  · intro heq
    exact h.notRoot d hd pos e hpos hord heq.symm
  · rintro c ⟨hc, hce⟩ q e' hq
    obtain ⟨hne, hq⟩ := place_none.mp hq
    have hno : e'.iNo ≠ e.iNo := by
      by_cases hord' : e'.Ordinary
      · exact honly c hc q e' hq hord' hne
      · exact hdots c hc hce q e' hq hord'
    exact (h.kinds c hc q e' hq).imp (fun hk => ⟨hk.1, hk.2, hno⟩) fun hk => ⟨hk.1, hk.2, hno⟩
  · rintro c ⟨hc, -⟩ q q' a b ha hb hab
    exact h.unique c hc q q' a b (place_none.mp ha).2 (place_none.mp hb).2 hab
  · rintro c ⟨hc, -⟩
    obtain ⟨q, e', hq, hdot, hrest⟩ := h.self c hc
    exact ⟨q, e', hstay c q e' hq fun ho => ho.1 hdot, hdot, hrest⟩
  · rintro c ⟨hc, hce⟩
    obtain ⟨q, e', hq, hdd, ht, hup⟩ := h.up c hc
    refine ⟨q, e', hstay c q e' hq fun ho => ho.2 hdd, hdd, ht, hup.imp_right ?_⟩
    rintro ⟨q', e'', hq', hord'', hno⟩
    refine ⟨q', e'', place_none.mpr ⟨?_, hq'⟩, hord'', hno⟩
    rintro ⟨hcd, rfl⟩
    rw [hcd, hpos, Option.some.injEq] at hq'
    subst hq'
    exact hce hno.symm
  · rintro c ⟨hc, -⟩ q e' hq hord'
    exact h.notRoot c hc q e' (place_none.mp hq).2 hord'
  · rintro c ⟨hc, -⟩ c' ⟨hc', -⟩ q q' a b ha hb hoa hob hab
    exact h.once c hc c' hc' q q' a b (place_none.mp ha).2 (place_none.mp hb).2 hoa hob hab
  · rintro m hm hm0
    have hme : m ≠ e.iNo := by
      rcases hm with hm | hm
      · exact hm.2
      · exact hm.2
    have hm' : m ∈ dirs ∨ m ∈ files := hm.imp (fun hx => hx.1) fun hx => hx.1
    obtain ⟨c, hc, q, e', hq, hord', hno⟩ := h.named m hm' hm0
    refine ⟨c, ⟨hc, hparent c hc q e' hq hord'⟩, q, e', place_none.mpr ⟨?_, hq⟩, hord', hno⟩
    rintro ⟨rfl, rfl⟩
    rw [hpos, Option.some.injEq] at hq
    exact hme (hno ▸ hq ▸ rfl)
  · obtain ⟨rank, hrank⟩ := h.ranked
    refine ⟨rank, ?_⟩
    rintro c ⟨hc, -⟩ q e' hq hord'
    exact hrank c hc q e' (place_none.mp hq).2 hord'

theorem Names.congr {M M' : ℕ → ℕ × ℕ → Option Entry} (h : Names M dirs files) (heq : ∀ d ∈ dirs, M' d = M d) : Names M' dirs files := by
  have hup : ∀ d ∈ dirs, ∀ pos e, M d pos = some e → e.fType = .directory → M' e.iNo = M e.iNo := by
    intro d hd pos e he ht
    rcases h.kinds d hd pos e he with ⟨-, hm⟩ | ⟨hr, -⟩
    · exact heq _ hm
    · rw [ht] at hr
      cases hr
  refine ⟨h.disjoint, h.root, ?_, ?_, ?_, ?_, ?_, ?_, ?_, ?_⟩
  · intro d hd pos e he
    rw [heq d hd] at he
    exact h.kinds d hd pos e he
  · intro d hd
    rw [heq d hd]
    exact h.unique d hd
  · intro d hd
    rw [heq d hd]
    exact h.self d hd
  · intro d hd
    obtain ⟨pos, e, he, hname, ht, hcase⟩ := h.up d hd
    refine ⟨pos, e, ?_, hname, ht, ?_⟩
    · rw [heq d hd]
      exact he
    · rw [hup d hd pos e he ht]
      exact hcase
  · intro d hd pos e he
    rw [heq d hd] at he
    exact h.notRoot d hd pos e he
  · intro c hc d hd pos pos' e e' he he'
    rw [heq c hc] at he
    rw [heq d hd] at he'
    exact h.once c hc d hd pos pos' e e' he he'
  · intro a ha ha0
    obtain ⟨d, hd, pos, e, he, hrest⟩ := h.named a ha ha0
    refine ⟨d, hd, pos, e, ?_, hrest⟩
    rw [heq d hd]
    exact he
  · obtain ⟨rank, hrank⟩ := h.ranked
    refine ⟨rank, ?_⟩
    intro d hd pos e he
    rw [heq d hd] at he
    exact hrank d hd pos e he

end

end ElephantOS
