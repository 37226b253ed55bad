import ElephantOS.DescriptorRuns

namespace ElephantOS

open ByteMemory HaltingState

def Writes (s : Fs) (d : ℕ × ℕ) (p : Ptr) : Prop :=
  ∃ k, Refers s d k ∧ (s.fileTable k).fdInode = some p ∧ oWrite (s.fileTable k).fdFlag = true

def SingleWriter (s : Fs) : Prop := ∀ d d' p, Writes s d p → Writes s d' p → d = d'

/-- The calls after which `write_deny` still tells whether there is a writer: no file is created for writing, and
no descriptor that only reads is closed while another one writes to the same inode. -/
def WriterMarked (s : Fs) : FileCall → Prop
  | .sysOpen _ _ _ flags => ¬ (oCreat flags = true ∧ oWrite flags = true)
  | .sysClose task fd => ∀ j k p, fd = (j : ℕ) → Refers s (task, j) k → (s.fileTable k).fdInode = some p →
      oWrite (s.fileTable k).fdFlag = false → ∀ d, ¬ Writes s d p

structure WriterInv (s : Fs) : Prop where
  deny : ∀ d p, Writes s d p → (s.inodes p).writeDeny = true
  single : SingleWriter s

section

variable {K : Kernel} {held : Multiset Ptr} {s s' : Fs} {task : ℕ} {junk : Junk} {pathname : Path} {flags : ℕ} {r : ℤ}

theorem Writes.mem {d : ℕ × ℕ} {p : Ptr} (hw : Writes s d p) (h : FdInv s) (lost : Multiset Ptr) : p ∈ lost + slotRefs s.fileTable := by
  obtain ⟨k, hd, hp, -⟩ := hw
  rw [slotRefs_freed s.fileTable (h.refers hd).2.1 hp, Multiset.add_cons]
  exact Multiset.mem_cons_self _ _

theorem Writes.of_same {d : ℕ × ℕ} {p : Ptr} (hfiles : SameFiles s.fileTable s'.fileTable) (hfd : s'.fdTable = s.fdTable)
    (hw : Writes s' d p) : Writes s d p := by
  obtain ⟨k, hd, hp, hf⟩ := hw
  unfold Refers at hd
  rw [hfd] at hd
  rcases hfiles k with he | ⟨-, he⟩
  · rw [he] at hp hf
    exact ⟨k, hd, hp, hf⟩
  · rw [he] at hp
    cases hp

theorem Opened.writes {k : ℕ} {p : Ptr} (o : Opened K held task junk pathname flags r k p s s') (h : FdInv s) {d : ℕ × ℕ} {q : Ptr}
    (hw : Writes s' d q) : Writes s d q ∨ r ≠ -1 ∧ q = p ∧ oWrite flags = true ∧ Refers s' d k := by
  obtain ⟨k', hd, hq, hf⟩ := hw
  -- a descriptor that was there before refers to an older file
  have hold : Refers s d k' → Writes s d q := by
    intro hd'
    have hne : k' ≠ k := by
      rintro rfl
      exact (h.refers hd').2.2 o.free.2.2
    rcases o.fileTable k' with he | ⟨-, he⟩
    · rw [he, Function.update_of_ne hne] at hq hf
      exact ⟨k', hd', hq, hf⟩
    · rw [he] at hq
      cases hq
  rcases o.fdTable with ⟨j, hj, hr, hfd⟩ | ⟨-, hfd⟩
  · have hd' : Refers (setFd task j k s) d k' := by
      unfold Refers at hd ⊢
      rwa [hfd] at hd
    rw [setFd_refers] at hd'
    split_ifs at hd' with he
    · obtain rfl : k = k' := by exact_mod_cast hd'.2.2
      rcases o.fileTable k with hk | ⟨hk, -⟩
      · rw [hk, Function.update_self] at hq hf
        exact .inr ⟨by omega, (Option.some.inj hq).symm, hf, hd⟩
      · rw [Function.update_self] at hk
        cases hk
    · exact .inl (hold hd')
  · unfold Refers at hd
    rw [hfd] at hd
    exact .inl (hold hd)

theorem WriterInv.opened (h : WriterInv s) (ht : FdInv s) {k : ℕ} {p : Ptr} {lost : Multiset Ptr}
    (o : Opened K (lost + slotRefs s.fileTable) task junk pathname flags r k p s s')
    (hm : WriterMarked s (.sysOpen task junk pathname flags)) : WriterInv s' := by
  have hold : ∀ {d q}, Writes s d q → (s'.inodes q).writeDeny = true := by
    intro d q hw
    have hq := hw.mem ht lost
    by_cases he : q = p
    · subst he
      cases hwr : oWrite flags with
      | true =>
        refine o.writer hwr ?_
        cases hc : oCreat flags with
        | false => rfl
        | true => exact absurd ⟨hc, hwr⟩ hm
      | false =>
        rw [o.reader hwr hq]
        exact h.deny d q hw
    · rw [o.writeDeny q hq he]
      exact h.deny d q hw
  have hcreat : oWrite flags = true → oCreat flags = false := by
    intro hwr
    cases hc : oCreat flags with
    | false => rfl
    | true => exact absurd ⟨hc, hwr⟩ hm
  -- a new writer found write_deny clear, so nobody else was writing
  have hnew : ∀ {d}, r ≠ -1 → oWrite flags = true → ¬ Writes s d p := by
    intro d hr hwr hw
    have h1 := h.deny d p hw
    rw [o.clear hr hwr (hcreat hwr) (hw.mem ht lost)] at h1
    cases h1
  refine ⟨fun d q hw => ?_, fun d d' q hw hw' => ?_⟩
  · rcases o.writes ht hw with hw | ⟨-, rfl, hwr, -⟩
    · exact hold hw
    · exact o.writer hwr (hcreat hwr)
  · rcases o.writes ht hw with hw | ⟨hr, rfl, hwr, hd⟩ <;> rcases o.writes ht hw' with hw' | ⟨hr', he, hwr', hd'⟩
    · exact h.single d d' q hw hw'
    · exact absurd (he ▸ hw) (hnew hr' hwr')
    · exact absurd hw' (hnew hr hwr)
    · exact (o.fdInv ht).inj d d' k hd hd'

theorem WriterInv.closed (h : WriterInv s) (ht : TableInv s) {fd : ℤ} (hm : WriterMarked s (.sysClose task fd))
    (hs : sysClose task fd s = .ok (r, s')) : WriterInv s' := by
  rcases ht.closed hs with rfl | ⟨j, k, p, lost, s1, hfd, hd, hp, -, hf, rfl⟩
  · exact h
  · have hold : ∀ {d q}, Writes (setFd task j (-1) s1) d q → Writes s d q ∧ d ≠ (task, j) := by
      rintro d q ⟨k', hd', hq, hwr⟩
      rw [setFd_refers] at hd'
      split_ifs at hd' with he
      · exact hd'.2.2.elim
      · unfold Refers at hd'
        rw [hf.fdTable] at hd'
        change (s1.fileTable k').fdInode = some q at hq
        change oWrite (s1.fileTable k').fdFlag = true at hwr
        rcases hf.fileTable k' with hk | ⟨-, hk⟩
        · by_cases hne : k' = k
          · rw [hk, hne, Function.update_self] at hq
            cases hq
          · rw [hk, Function.update_of_ne hne] at hq hwr
            exact ⟨⟨k', hd', hq, hwr⟩, he⟩
        · rw [hk] at hq
          cases hq
    refine ⟨fun d q hw => ?_, fun d d' q hw hw' => h.single d d' q (hold hw).1 (hold hw').1⟩
    obtain ⟨hw, hne⟩ := hold hw
    have hq : q ≠ p := by
      rintro rfl
      cases hwr : oWrite (s.fileTable k).fdFlag with
      | true => exact hne (h.single d (task, j) q hw ⟨k, hd, hp, hwr⟩)
      | false => exact hm j k q hfd hd hp hwr d hw
    have hmem : q ∈ lost + slotRefs (Function.update s.fileTable k { s.fileTable k with fdInode := none }) := by
      have := hw.mem ht.fd lost
      rw [slotRefs_freed s.fileTable (ht.fd.refers hd).2.1 hp, Multiset.add_cons, Multiset.mem_cons] at this
      exact this.resolve_left hq
    change (s1.inodes q).writeDeny = true
    rw [hf.writeDeny q hmem hq]
    exact h.deny d q hw

end

instance (s : Fs) (d : ℕ × ℕ) (k : ℕ) : Decidable (Refers s d k) := inferInstanceAs (Decidable (_ ∧ _ ∧ _))

end ElephantOS
