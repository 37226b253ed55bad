import ElephantOS.VolumeRmdir

namespace ElephantOS

open ByteMemory HaltingState

/-- From the root directory, entry by entry, the names lead to an inode of this type. -/
inductive NamedAt (part : Partition) (d : Memory) : List Name → ℕ → FileType → Prop
  | root : NamedAt part d [] 0 .directory
  | entry {path : List Name} {c : ℕ} {pos : ℕ × ℕ} {e : Entry} : NamedAt part d path c .directory → entriesOn part d c pos = some e →
      e.Ordinary → NamedAt part d (path ++ [e.name]) e.iNo e.fType

/-- What the disk has at each path: `none` at a directory, the bytes at a file. -/
def pathMap (part : Partition) (d : Memory) : Set (List Name × Option (List UInt8)) :=
  {x | ∃ n, NamedAt part d x.1 n .directory ∧ x.2 = none ∨
    NamedAt part d x.1 n .regular ∧ x.2 = some (contentsOf d (storedInode part d n))}

section

variable {K : Kernel} {part : Partition} {d : Memory} {dirs files : Set ℕ} {path : List Name} {n : ℕ} {t : FileType} {s : Fs}

theorem Names.named_path (h : Names (entriesOn part d) dirs files) (hn : NamedAt part d path n t) :
    (volumeTree part dirs files d).Path 0 path n ∧ (t = .directory ∧ n ∈ dirs ∨ t = .regular ∧ n ∈ files) := by
  induction hn with
  | root => exact ⟨.nil 0, .inl ⟨rfl, h.root⟩⟩
  | @entry path c pos e _ he hord ih =>
    obtain ⟨hpath, hc⟩ := ih
    have hmem : c ∈ dirs := by
      rcases hc with ⟨-, hc⟩ | ⟨hc, -⟩
      · exact hc
      · cases hc
    exact ⟨NamedTree.path_snoc.mpr ⟨c, hpath, hmem, pos, e, he, hord, rfl⟩, h.kinds c hmem pos e he⟩

theorem Names.path_named (h : Names (entriesOn part d) dirs files) (hp : (volumeTree part dirs files d).Path 0 path n) :
    (n ∈ dirs → NamedAt part d path n .directory) ∧ (n ∈ files → NamedAt part d path n .regular) := by
  induction path using List.reverseRecOn generalizing n with
  | nil =>
    obtain rfl := NamedTree.path_nil.mp hp
    exact ⟨fun _ => .root, fun hf => absurd hf (h.disjoint 0 h.root)⟩
  | append_singleton path name ih =>
    obtain ⟨c, hc, hmem, pos, e, he, hord, hx⟩ := NamedTree.path_snoc.mp hp
    obtain ⟨rfl, rfl⟩ := Prod.mk.inj hx
    have hnamed := NamedAt.entry ((ih hc).1 hmem) he hord
    rcases h.kinds c hmem pos e he with ⟨ht, hd⟩ | ⟨ht, hf⟩ <;> rw [ht] at hnamed
    · exact ⟨fun _ => hnamed, fun hf => absurd hf (h.disjoint _ hd)⟩
    · exact ⟨fun hd => absurd hf (h.disjoint _ hd), fun _ => hnamed⟩

theorem Names.named_file (h : Names (entriesOn part d) dirs files) :
    NamedAt part d path n .regular ↔ n ∈ files ∧ (volumeTree part dirs files d).Path 0 path n := by
  constructor
  · intro hn
    obtain ⟨hp, ⟨ht, -⟩ | ⟨-, hf⟩⟩ := h.named_path hn
    · cases ht
    · exact ⟨hf, hp⟩
  · exact fun hn => (h.path_named hn.2).2 hn.1

theorem Names.named_dir (h : Names (entriesOn part d) dirs files) :
    NamedAt part d path n .directory ↔ n ∈ dirs ∧ (volumeTree part dirs files d).Path 0 path n := by
  constructor
  · intro hn
    obtain ⟨hp, ⟨-, hd⟩ | ⟨ht, -⟩⟩ := h.named_path hn
    · exact ⟨hd, hp⟩
    · cases ht
  · exact fun hn => (h.path_named hn.2).1 hn.1

theorem Names.pathMap (h : Names (entriesOn part d) dirs files) : pathMap part d = (volumeTree part dirs files d).view 0 := by
  ext ⟨path, x⟩
  constructor
  · rintro ⟨n, ⟨hn, hx⟩ | ⟨hn, hx⟩⟩
    · obtain ⟨hd, hp⟩ := h.named_dir.mp hn
      exact ⟨n, hp, .inl ⟨hd, hx⟩⟩
    · obtain ⟨hf, hp⟩ := h.named_file.mp hn
      refine ⟨n, hp, .inr ⟨hf, ?_⟩⟩
      rw [volumeTree_file hf]
      exact hx
  · rintro ⟨n, hp, ⟨hd, hx⟩ | ⟨hf, hx⟩⟩
    · exact ⟨n, .inl ⟨h.named_dir.mpr ⟨hd, hp⟩, hx⟩⟩
    · have hfile : n ∈ files := hf
      rw [volumeTree_file hfile] at hx
      exact ⟨n, .inr ⟨h.named_file.mpr ⟨hfile, hp⟩, hx⟩⟩

theorem Volume.map_eq (hv : Volume K dirs files s.kern) : s.map K dirs files = ElephantOS.pathMap K.toPartition s.kern.disk :=
  hv.names.pathMap.symm

end

end ElephantOS
