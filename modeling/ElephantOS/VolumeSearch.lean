import ElephantOS.MountedVolume
import ElephantOS.WorkingPath

namespace ElephantOS

open ByteMemory HaltingState

inductive SearchEnd (M : ℕ → ℕ × ℕ → Option Entry) (prev : Name) (n d : ℕ) (names : List Name) (searched : Path) :
    Option ℕ → FileType → Path → Prop
  | directory {pos : ℕ × ℕ} {e : Entry} {path : Path} : Walks M n names e.iNo → M d pos = some e → e.fType = .directory →
      e.name = names.getLast?.getD prev → SearchEnd M prev n d names searched (some e.iNo) .directory path
  | file {pos : ℕ × ℕ} {e : Entry} {pre rest : List Name} : names = pre ++ e.name :: rest → Walks M n pre d → M d pos = some e →
      e.fType = .regular → SearchEnd M prev n d names searched (some e.iNo) .regular (searched ++ slashed (pre ++ [e.name]))
  | missing {name : Name} {pre rest : List Name} {t : FileType} : names = pre ++ name :: rest → Walks M n pre d →
      (∀ pos e, M d pos = some e → e.name ≠ name) → t ≠ .directory →
      SearchEnd M prev n d names searched none t (searched ++ slashed (pre ++ [name]))

structure PathName (name : Name) : Prop where
  named : name ≠ []
  noNul : 0 ∉ name
  noSlash : slash ∉ name

theorem pathParse_name {path : Path} (h0 : 0 ∉ path) : ((pathParse path).1 ≠ [] → PathName (pathParse path).1) ∧
    ∀ p, (pathParse path).2 = some p → 0 ∉ p := by
  obtain ⟨slashes, name, hpath, -, hname, hslash, -⟩ := pathParse_split path
  rw [hpath, List.mem_append, List.mem_append, not_or, not_or] at h0
  rw [hname] at hslash h0
  refine ⟨fun hne => ⟨hne, h0.2.1, hslash⟩, ?_⟩
  intro p hp
  have hrest := h0.2.2
  rwa [hp, Option.getD_some] at hrest

theorem components_name {path : Path} (h0 : 0 ∉ path) : ∀ c ∈ components path, PathName c := by
  induction hn : path.length using Nat.strong_induction_on generalizing path with
  | _ n ih =>
    intro c hc
    rw [components_eq] at hc
    split_ifs at hc with hname
    · cases hc
    · obtain ⟨hfirst, hrest⟩ := pathParse_name h0
      rcases List.mem_cons.mp hc with rfl | hc
      · exact hfirst hname
      · cases hp : (pathParse path).2 with
        | none =>
          rw [hp] at hc
          cases hc
        | some p =>
          rw [hp, Option.getD_some] at hc
          refine ih p.length ?_ (hrest p hp) rfl c hc
          obtain ⟨slashes, name, hpath, -, hname', -⟩ := pathParse_split path
          have hlen := congrArg List.length hpath
          have hpos := List.length_pos_iff.mpr hname
          rw [hp, Option.getD_some, List.length_append, List.length_append, hname'] at hlen
          omega

theorem SearchEnd.down {M : ℕ → ℕ × ℕ → Option Entry} {prev : Name} {n d : ℕ} {names : List Name} {searched path : Path} {r : Option ℕ}
    {t : FileType} {pos : ℕ × ℕ} {e : Entry} (he : M n pos = some e) (hd : e.fType = .directory)
    (h : SearchEnd M e.name e.iNo d names (searched ++ slash :: e.name) r t path) :
    SearchEnd M prev n d (e.name :: names) searched r t path := by
  have hpath : ∀ rest : List Name, searched ++ slash :: e.name ++ slashed rest = searched ++ slashed (e.name :: rest) := by
    intro rest
    rw [slashed_cons, List.append_assoc]
  cases h with
  | directory hw he' hd' hlast =>
    refine .directory (.down he hd hw) he' hd' ?_
    rw [hlast, List.getLast?_cons]
    rfl
  | @file pos' e' pre rest hnames hw he' hf =>
    rw [hpath]
    exact .file (by rw [hnames]; rfl) (.down he hd hw) he' hf
  | @missing name pre rest t hnames hw hmiss ht =>
    rw [hpath]
    exact .missing (by rw [hnames]; rfl) (.down he hd hw) hmiss ht

structure Ended (K : Kernel) (rest : Multiset Ptr) (dirs files : Set ℕ) (s₀ : Fs) (prev : Name) (n : ℕ) (names : List Name)
    (searched : Path) (r : Option ℕ × PathSearchRecord) (s : Fs) : Prop where
  mounted : Mounted K (dirRefs r.2.parentDir + rest) dirs files s
  calm : Calm (s₀.rootDir ::ₘ rest) s₀ s
  parent : (s.inodes (r.2.parentDir.inode s)).iNo ∈ dirs
  ends : SearchEnd (entriesOn K.toPartition s₀.kern.disk) prev n (s.inodes (r.2.parentDir.inode s)).iNo names searched r.1 r.2.fileType
    r.2.searchedPath

section

variable {K : Kernel} {rest : Multiset Ptr} {dirs files : Set ℕ} {s s' : Fs} {r : Option ℕ × PathSearchRecord}

theorem Mounted.dirMem {d : Dir} (h : Mounted K (dirRefs d + rest) dirs files s) : d.inode s ∈ s.openInodes := by
  cases d with
  | root => exact h.rootMem
  | heap ptr inode => exact h.mem (by simp [dirRefs, Dir.inode])

theorem Mounted.dirStored {d : Dir} (h : Mounted K (dirRefs d + rest) dirs files s) (hd : (s.inodes (d.inode s)).iNo ∈ dirs) :
    DirOk K s.kern (s.inodes (d.inode s)) ∧
      slotMap s.kern.disk (s.inodes (d.inode s)) = entriesOn K.toPartition s.kern.disk (s.inodes (d.inode s)).iNo := by
  have hst := h.stored _ h.dirMem
  exact ⟨h.volume.toInodes.dirAt hd hst, (SameBlocks.of_stored hst).map.symm⟩

theorem nextName_remaining {subPath : Option Path} {q : Name × Option Path} (hs : nextName subPath s = .ok (q, s'))
    (h0 : ∀ p, subPath = some p → 0 ∉ p) : s' = s ∧ remaining q.1 q.2 = components (subPath.getD []) ∧
      (q.1 ≠ [] → PathName q.1) ∧ ∀ p, q.2 = some p → 0 ∉ p := by
  obtain ⟨rfl, rfl⟩ := nextName_ok hs
  cases subPath with
  | none => exact ⟨rfl, rfl, fun hne => absurd rfl hne, fun p hp => by cases hp⟩
  | some path =>
    obtain ⟨hname, hrest⟩ := pathParse_name (h0 path rfl)
    exact ⟨rfl, (components_eq path).symm, hname, hrest⟩

theorem searchLoop_ended {fuel : ℕ} {subPath : Option Path} {name prev : Name} {record : PathSearchRecord} {pNo iNo n : ℕ}
    (hm : Mounted K (dirRefs record.parentDir + rest) dirs files s) (hn : (s.inodes (record.parentDir.inode s)).iNo = n) (hd : n ∈ dirs)
    (hend : name = [] → n = iNo ∧ pNo ∈ dirs ∧ ∃ pos e, entriesOn K.toPartition s.kern.disk pNo pos = some e ∧ e.iNo = iNo ∧
      e.fType = .directory ∧ e.name = prev)
    (hname : name ≠ [] → PathName name) (hsub : ∀ p, subPath = some p → 0 ∉ p) (hkind : record.fileType ≠ .directory)
    (hs : searchLoop K fuel subPath name record pNo iNo s = .ok (r, s')) :
    Ended K rest dirs files s prev n (remaining name subPath) record.searchedPath r s' := by
  induction fuel generalizing s subPath name prev record pNo iNo n with
  | zero => simp [searchLoop] at hs
  | succ fuel ih =>
    unfold searchLoop at hs
    by_cases hnil : name = []
    · rw [if_pos hnil] at hs
      simp only [bind_ok] at hs
      obtain ⟨_, s1, h1, d, s2, h2, hs⟩ := hs
      obtain ⟨rfl, rfl⟩ := (pure_ok _ _ _ _).mp hs
      obtain ⟨rfl, hpNo, pos, e, he, hiNo, ht, hprev⟩ := hend hnil
      obtain ⟨hm1, hc1⟩ := hm.dirClose h1
      obtain ⟨hm2, hc2, hno⟩ := hm1.dirOpen hpNo h2
      have hroot := hc1.kept.rootDir
      rw [hroot] at hc2
      have hsmall : e.iNo < 4096 := by
        rcases hm.volume.names.kinds pNo hpNo pos e he with ⟨-, hx⟩ | ⟨-, hx⟩
        · exact (hm.volume.slot _ (.inl hx)).1
        · exact (hm.volume.slot _ (.inr hx)).1
      refine ⟨hm2, hc1.trans hc2, ?_, ?_⟩
      · dsimp only
        rw [hno]
        exact hpNo
      · dsimp only
        unfold remaining
        rw [hno, if_pos hnil, ← hiNo, foundNo_small hsmall]
        exact .directory (.here e.iNo) he ht hprev
    · rw [if_neg hnil] at hs
      simp only [bind_ok, assert_ok, bound_ok, get_ok] at hs
      obtain ⟨_, _, ⟨-, rfl⟩, _, _, ⟨-, rfl⟩, _, _, ⟨rfl, rfl⟩, found, s1, h1, hs⟩ := hs
      have hrem : remaining name subPath = name :: components (subPath.getD []) := if_neg hnil
      rw [hrem]
      have hpn := hname hnil
      obtain ⟨hdir, hmap⟩ := hm.dirStored (hn.symm ▸ hd)
      obtain ⟨k1, hk1, rfl⟩ := (liftKern_ok _ _ _ _).mp h1
      obtain ⟨hheap, hlook⟩ := searchDirEntry_ok hdir.entrySize hm.plenty hdir.slots hpn.noNul hnil hk1
      rw [hmap, hn] at hlook
      have hm1 := hm.heap hheap
      have hc1 : Calm (s.rootDir ::ₘ rest) s { s with kern := k1 } := ⟨hheap, Kept.kern _ _ _⟩
      have hinode : ∀ d : Dir, d.inode { s with kern := k1 } = d.inode s := by
        intro d
        cases d <;> rfl
      have hn1 : (({ s with kern := k1 } : Fs).inodes (record.parentDir.inode { s with kern := k1 })).iNo = n := by
        rw [hinode]
        exact hn
      cases found with
      | none =>
        obtain ⟨rfl, rfl⟩ := (pure_ok _ _ _ _).mp hs
        refine ⟨hm1, hc1, hn1.symm ▸ hd, ?_⟩
        dsimp only
        rw [hn1]
        have hmiss := @SearchEnd.missing (entriesOn K.toPartition s.kern.disk) prev n n _ record.searchedPath _ [] (components (subPath.getD [])) _ rfl
          (.here n) hlook hkind
        simp only [List.nil_append, slashed_single] at hmiss
        exact hmiss
      | some dirE =>
        obtain ⟨pos, e, hat, hino, htype⟩ := hlook
        simp only [bind_ok] at hs
        obtain ⟨next, s2, h2, hs⟩ := hs
        obtain ⟨rfl, hrem', hname', hsub'⟩ := nextName_remaining h2 hsub
        rcases hm.volume.names.kinds n hd pos e hat.here with ⟨hdt, hmem⟩ | ⟨hft, hmem⟩
        · rw [hdt] at htype
          simp only [htype, bind_ok] at hs
          obtain ⟨_, s3, h3, d, s4, h4, hs⟩ := hs
          rw [hn, hino] at hs
          rw [hino] at h4
          obtain ⟨hm3, hc3⟩ := hm1.dirClose h3
          obtain ⟨hm4, hc4, hno4⟩ := hm3.dirOpen hmem h4
          have hc04 : Calm (s.rootDir ::ₘ rest) s s4 := by
            have hr3 : s3.rootDir = s.rootDir := hc3.kept.rootDir
            rw [hr3] at hc4
            exact (hc1.trans hc3).trans hc4
          have hdisk : s4.kern.disk = s.kern.disk := hc04.kern.disk
          have hnext := @ih s4 next.2 next.1 name ⟨d, record.fileType, record.searchedPath ++ slash :: name⟩ n e.iNo e.iNo hm4 hno4 hmem
            (fun _ => ⟨rfl, hd, pos, e, by rw [hdisk]; exact hat.here, rfl, hdt, hat.named⟩) hname' hsub' hkind hs
          rw [hrem'] at hnext
          have hends := hnext.ends
          rw [hdisk] at hends
          have hcalm := hnext.calm
          rw [hc04.kept.rootDir] at hcalm
          refine ⟨hnext.mounted, hc04.trans hcalm, hnext.parent, ?_⟩
          rw [← hat.named] at hends ⊢
          exact hends.down hat.here hdt
        · rw [hft] at htype
          simp only [htype] at hs
          obtain ⟨rfl, rfl⟩ := (pure_ok _ _ _ _).mp hs
          refine ⟨hm1, hc1, hn1.symm ▸ hd, ?_⟩
          dsimp only
          rw [hn1, hino, foundNo_small (hm.volume.slot _ (.inr hmem)).1]
          have hfile := @SearchEnd.file (entriesOn K.toPartition s.kern.disk) prev n n _ record.searchedPath _ _ [] (components (subPath.getD [])) rfl
            (.here n) hat.here hft
          simp only [List.nil_append, slashed_single, hat.named] at hfile
          exact hfile

structure PathOk (pathname : Path) : Prop where
  noNul : 0 ∉ pathname
  short : ∀ name ∈ components pathname, name.length < 16
  named : components pathname = [] → pathname = [slash]

theorem searchFile_ended {junk : Junk} {pathname : Path} (hm : Mounted K rest dirs files s) (hpath : PathOk pathname)
    (hs : searchFile K junk pathname s = .ok (r, s')) : Ended K rest dirs files s dot 0 (components pathname) [] r s' := by
  have hroot : 0 ∈ dirs := hm.volume.names.root
  unfold searchFile at hs
  split_ifs at hs with hspecial
  · obtain ⟨rfl, rfl⟩ := (pure_ok _ _ _ _).mp hs
    have hno : (s.inodes (Dir.root.inode s)).iNo = 0 := hm.root
    refine ⟨?_, Calm.refl _ _, ?_, ?_⟩
    · rw [dirRefs, zero_add]
      exact hm
    · dsimp only
      rw [hno]
      exact hroot
    · -- the entries `.` and `..` of the root directory name it
      obtain ⟨pos, e, he, hdot, hino, ht⟩ := hm.volume.names.self 0 hroot
      obtain ⟨pos', e', he', hdd, ht', hup⟩ := hm.volume.names.up 0 hroot
      have hself : Walks (entriesOn K.toPartition s.kern.disk) 0 [dot] 0 := by
        have hw : Walks (entriesOn K.toPartition s.kern.disk) 0 [e.name] e.iNo := .down he ht (.here _)
        rwa [hdot, hino] at hw
      have hino' : e'.iNo = 0 := by
        rcases hup with ⟨-, hino'⟩ | ⟨q, e'', he'', hord, hno⟩
        · exact hino'
        · rcases hm.volume.names.kinds 0 hroot pos' e' he' with ⟨-, hmem⟩ | ⟨hreg, -⟩
          · exact absurd hno (hm.volume.names.notRoot _ hmem q e'' he'' hord)
          · rw [ht'] at hreg
            cases hreg
      have hparent : Walks (entriesOn K.toPartition s.kern.disk) 0 [dotDot] 0 := by
        have hw : Walks (entriesOn K.toPartition s.kern.disk) 0 [e'.name] e'.iNo := .down he' ht' (.here _)
        rwa [hdd, hino'] at hw
      dsimp only
      rw [hno]
      rcases hspecial with rfl | rfl | rfl
      · have hend := @SearchEnd.directory _ dot _ _ [] [] _ _ [] (by rw [hino]; exact .here 0) he ht hdot
        rwa [hino] at hend
      · have hend := @SearchEnd.directory _ dot _ _ [dot] [] _ _ [] (by rwa [hino]) he ht hdot
        rwa [hino] at hend
      · have hend := @SearchEnd.directory _ dot _ _ [dotDot] [] _ _ [] (by rwa [hino']) he' ht' hdd
        rwa [hino'] at hend
  · simp only [bind_ok, assert_ok] at hs
    obtain ⟨_, _, ⟨-, rfl⟩, _, s1, h1, hs⟩ := hs
    obtain ⟨rfl, rfl⟩ := parseName_ok h1
    obtain ⟨hname, hrest⟩ := pathParse_name hpath.noNul
    have hcomp := components_eq pathname
    have hfirst : (pathParse pathname).1 ≠ [] := by
      intro hnil
      rw [if_pos hnil] at hcomp
      exact hspecial (.inl (hpath.named hcomp))
    have hm' : Mounted K (dirRefs .root + rest) dirs files s1 := by
      rw [dirRefs, zero_add]
      exact hm
    have hend := @searchLoop_ended _ _ _ _ _ _ _ _ _ _ dot _ _ _ _ hm' hm.root hroot (fun hnil => absurd hnil hfirst) hname hrest (by simp) hs
    have hrem : remaining (pathParse pathname).1 (pathParse pathname).2 = components pathname := hcomp.symm
    rw [hrem] at hend
    exact hend

end

end ElephantOS
