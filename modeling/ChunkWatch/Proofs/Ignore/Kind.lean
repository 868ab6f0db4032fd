import ChunkWatch.Proofs.Ignore.Cache

namespace ChunkWatch.Ignore

theorem exists_dirOnly {rules : List Rule} {p : Bytes}
    (h : verdict? rules p true ≠ verdict? rules p false) :
    ∃ r ∈ rules, r.dirOnly ∧ r.glob.matches p := by
  by_contra hnone
  apply h
  rw [verdict?, verdict?, ← List.head?_filter, ← List.head?_filter]
  congr 2
  refine List.filter_congr fun r hr => ?_
  cases hdirOnly : r.dirOnly with
  | false => rfl
  | true =>
    have hmatches : r.glob.matches p = false := by
      rw [← Bool.not_eq_true]
      exact fun hmatches => hnone ⟨r, List.mem_reverse.mp hr, hdirOnly, hmatches⟩
    rw [hmatches, Bool.and_false, Bool.and_false]

namespace Layers

variable {l : Layers} {fs fs' : FileSystem} {names : List Bytes}

def AgreeAbove (l : Layers) (names : List Bytes) (fs fs' : FileSystem) : Prop :=
  ∀ dir, dir ≠ [] → dir <+: names → dir ≠ names →
    loadNested fs (l.root.pushAll dir) = loadNested fs' (l.root.pushAll dir)

theorem AgreeAbove.toward {dir : List Bytes} (h : l.AgreeAbove names fs fs') (k : dir <+: names) :
    l.AgreeAbove dir fs fs' := by
  intro top hne htop hproper
  refine h top hne (htop.trans k) ?_
  rintro rfl
  exact hproper (htop.eq_of_length (Nat.le_antisymm htop.length_le k.length_le))

theorem filesAbove_congr (h : ∀ dir, dir ≠ [] → dir <+: names →
    loadNested fs (l.root.pushAll dir) = loadNested fs' (l.root.pushAll dir)) :
    l.filesAbove fs names = l.filesAbove fs' names := by
  induction names using List.reverseRecOn with
  | nil => rfl
  | append_singleton names n ih =>
    rw [filesAbove_concat, filesAbove_concat, h _ (by simp) List.prefix_rfl,
      ih fun dir hne hdir => h dir hne (hdir.trans (List.prefix_append names [n]))]

theorem AgreeAbove.verdictAt?_eq (h : l.AgreeAbove names fs fs') (isDir : Bool) :
    l.verdictAt? fs names isDir = l.verdictAt? fs' names isDir := by
  rw [verdictAt?, verdictAt?, filesAbove_congr fun dir hne hdir => ?_]
  exact h dir hne (hdir.trans names.dropLast_prefix) (ne_of_prefix_dropLast hne hdir)

/-- The directory at some names is ignored itself, and would not be if it were none. -/
structure OnlyAsDir (l : Layers) (fs : FileSystem) (names : List Bytes) : Prop where
  above : ∀ dir, dir ≠ [] → dir <+: names → dir ≠ names →
    l.verdictAt? fs dir true ≠ some .ignored
  dir : l.verdictAt? fs names true = some .ignored
  other : l.verdictAt? fs names false ≠ some .ignored

theorem OnlyAsDir.exists_dirOnly (h : l.OnlyAsDir fs names) :
    ∃ m ∈ l.filesAbove fs names.dropLast, ∃ r ∈ m.rules, r.dirOnly ∧
      r.glob.matches (m.relative (l.root.pushAll names)) := by
  by_contra hnone
  refine h.other (h.dir ▸ ?_)
  rw [verdictAt?, verdictAt?, layeredVerdict?, layeredVerdict?, ← List.head?_filterMap,
    ← List.head?_filterMap]
  refine congrArg List.head? (List.filterMap_congr fun m hm => ?_)
  by_contra hne
  exact hnone ⟨m, hm, Ignore.exists_dirOnly (Ne.symm hne)⟩

theorem ignores_iff_above (hne : names ≠ []) : l.Ignores fs names ↔
    (∃ dir, dir ≠ [] ∧ dir <+: names ∧ dir ≠ names ∧ l.verdictAt? fs dir true = some .ignored) ∨
      l.verdictAt? fs names (fs.isDir (l.root.pushAll names)) = some .ignored := by
  constructor
  · rintro ⟨dir, hdir, htoward, hverdict⟩
    by_cases heq : dir = names
    · subst heq
      rw [decide_eq_false (not_not_intro rfl), Bool.false_or] at hverdict
      exact .inr hverdict
    · rw [decide_eq_true heq, Bool.true_or] at hverdict
      exact .inl ⟨dir, hdir, htoward, heq, hverdict⟩
  · rintro (⟨dir, hdir, htoward, hproper, hverdict⟩ | hverdict)
    · refine ⟨dir, hdir, htoward, ?_⟩
      rw [decide_eq_true hproper, Bool.true_or]
      exact hverdict
    · refine ⟨names, hne, List.prefix_rfl, ?_⟩
      rw [decide_eq_false (not_not_intro rfl), Bool.false_or]
      exact hverdict

/-- An ignored directory is not ignored any more when it is gone if only rules for directories
ignored it, and otherwise it still is. -/
theorem ignores_gone_iff (hne : names ≠ []) (hagree : l.AgreeAbove names fs fs')
    (hdir : fs.isDir (l.root.pushAll names)) (hgone : fs'.isDir (l.root.pushAll names) = false)
    (hignores : l.Ignores fs names) : l.Ignores fs' names ↔ ¬l.OnlyAsDir fs names := by
  rw [ignores_iff_above hne, hdir] at hignores
  rw [ignores_iff_above hne, hgone, ← hagree.verdictAt?_eq]
  constructor
  · rintro (⟨dir, hdir, htoward, hproper, hverdict⟩ | hverdict) honly
    · rw [← (hagree.toward htoward).verdictAt?_eq] at hverdict
      exact honly.above dir hdir htoward hproper hverdict
    · exact honly.other hverdict
  · intro hnot
    by_contra hkept
    rw [not_or, not_exists] at hkept
    have habove (dir : List Bytes) (hne : dir ≠ []) (htoward : dir <+: names)
        (hproper : dir ≠ names) : l.verdictAt? fs dir true ≠ some .ignored := by
      intro hverdict
      rw [(hagree.toward htoward).verdictAt?_eq] at hverdict
      exact hkept.1 dir ⟨hne, htoward, hproper, hverdict⟩
    refine hnot ⟨habove, ?_, hkept.2⟩
    rcases hignores with ⟨dir, hne, htoward, hproper, hverdict⟩ | hverdict
    · exact absurd hverdict (habove dir hne htoward hproper)
    · exact hverdict

end Layers

end ChunkWatch.Ignore
