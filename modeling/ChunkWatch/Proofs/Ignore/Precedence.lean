import ChunkWatch.Proofs.Ignore.Current

namespace ChunkWatch.Ignore

variable {fs : FileSystem} {root p q : Path} {n : Bytes}

theorem verdict?_append (rules later : List Rule) (p : Bytes) (isDir : Bool) :
    verdict? (rules ++ later) p isDir = (verdict? later p isDir).or (verdict? rules p isDir) := by
  rw [verdict?, verdict?, verdict?, List.reverse_append, List.find?_append, Option.map_or]

def rulesIn (fs : FileSystem) (file : Path) : List Rule :=
  ((fs.read file).toOption.map fun content => (readFile content).1).getD []

namespace Layers

variable {l : Layers} {c : Cache}

theorem rules_of_readFiles {files : List Path} {rules : List Rule}
    (h : readFiles fs files = .ok rules) : rules = files.flatMap (rulesIn fs) := by
  induction files generalizing rules with
  | nil =>
    cases h
    rfl
  | cons file files ih =>
    rw [readFiles, isFile_eq_read] at h
    rw [List.flatMap_cons, rulesIn]
    cases hread : fs.read file with
    | error e =>
      rw [hread] at h
      exact ih h
    | ok content =>
      simp only [hread, Except.toOption, Option.isSome_some, if_true] at h
      split at h
      next own hown =>
        cases hrest : readFiles fs files with
        | error e =>
          rw [hrest] at h
          cases h
        | ok rest =>
          rw [hrest] at h
          cases h
          rw [ih hrest]
          simp [Except.toOption, hown]
      · cases h

/-- What the last matching line of a file of the root says of a name below the root. -/
def fileVerdict? (fs : FileSystem) (root : Path) (file n : Bytes) (isDir : Bool) :
    Option Verdict :=
  (Matcher.ofRules root (rulesIn fs (root.push file))).verdict? (root.push n) isDir

theorem verdict?_of_ofWorkspace (h : ofWorkspace fs root = .ok l) (isDir : Bool) :
    l.top.verdict? (root.push n) isDir = (fileVerdict? fs root excludePath n isDir).or
      (fileVerdict? fs root ignoreFileName n isDir) := by
  obtain ⟨rules, hread, rfl⟩ := exists_rules_of_ofWorkspace h
  have hrules := rules_of_readFiles hread
  rw [List.flatMap_cons, List.flatMap_singleton] at hrules
  rw [hrules]
  exact verdict?_append _ _ _ _

theorem isIgnored_name (hq : l.relative? p = some q) (hn : q.components = [.name n])
    (fs : FileSystem) (c : Cache) : (l.isIgnored fs p c).1 = true ↔
      l.top.verdict? (l.root.push n) (fs.isDir (l.root.push n)) = some .ignored := by
  have hne : q.bytes ≠ [] := by
    intro hempty
    have hnone : Path.components ⟨[]⟩ = [] := by decide
    rw [show q = ⟨[]⟩ from congrArg Path.mk hempty, hnone] at hn
    cases hn
  rw [isIgnored, hq]
  dsimp only
  rw [if_neg hne, hn, descend]
  simp only [List.isEmpty_nil, Bool.not_true, Bool.false_or, componentPath, layeredVerdict?,
    List.findSome?_singleton, if_true]
  split <;> simp_all

/-- The ignore file of the root decides on a name that one of its lines matches if and only if no
exclude matches it or the last one that does says the same. -/
theorem ignoreFile_decides_iff {now : FileSystem} {v : Verdict} (h : ofWorkspace fs root = .ok l)
    (hq : l.relative? p = some q) (hn : q.components = [.name n])
    (hv : fileVerdict? fs root ignoreFileName n (now.isDir (root.push n)) = some v) :
    ((l.isIgnored now p c).1 = true ↔ v = .ignored) ↔
      ∀ u, fileVerdict? fs root excludePath n (now.isDir (root.push n)) = some u → u = v := by
  rw [isIgnored_name hq hn, root_of_ofWorkspace h, verdict?_of_ofWorkspace h, hv]
  cases fileVerdict? fs root excludePath n (now.isDir (root.push n)) with
  | none => simp
  | some u => cases u <;> cases v <;> simp

-- In `/w` the ignore file takes `f` back in and the repository excludes it.
def excludedFile : FileSystem :=
  let info : Entries := .cons (Bytes.ofString "exclude") (.file (Bytes.ofString "f\n")) .nil
  let repository : Entries := .cons (Bytes.ofString "info") (.dir info) .nil
  ⟨.cons (.ofString "w") (.dir (.cons (Bytes.ofString ".git") (.dir repository)
    (.cons ignoreFileName (.file (Bytes.ofString "!f\n")) .nil))) .nil, []⟩

theorem exists_excludedFile : ∃ l, ofWorkspace excludedFile (.ofString "/w") = .ok l ∧
    l.relative? (.ofString "/w/f") = some (.ofString "f") ∧
    (l.isIgnored excludedFile (.ofString "/w/f") []).1 = true := by
  have hanswers : (ofWorkspace excludedFile (.ofString "/w")).toOption.map (fun l =>
      (l.relative? (.ofString "/w/f"), (l.isIgnored excludedFile (.ofString "/w/f") []).1)) =
      some (some (.ofString "f"), true) := by decide +kernel
  cases hlayers : ofWorkspace excludedFile (.ofString "/w") with
  | error e =>
    rw [hlayers] at hanswers
    cases hanswers
  | ok l =>
    rw [hlayers] at hanswers
    obtain ⟨hq, hignored⟩ := Prod.mk.inj (Option.some.inj hanswers)
    exact ⟨l, rfl, hq, hignored⟩

theorem exclude_decides_excludedFile : ∃ l q, ofWorkspace excludedFile (.ofString "/w") = .ok l ∧
    l.relative? (.ofString "/w/f") = some q ∧ q.components = [.name (.ofString "f")] ∧
    fileVerdict? excludedFile (.ofString "/w") ignoreFileName (.ofString "f") false =
      some .included ∧
    fileVerdict? excludedFile (.ofString "/w") excludePath (.ofString "f") false = some .ignored ∧
    ¬((l.isIgnored excludedFile (.ofString "/w/f") []).1 = true ↔
      Verdict.included = .ignored) := by
  obtain ⟨l, hl, hq, -⟩ := exists_excludedFile
  have hn : Path.components (.ofString "f") = [.name (.ofString "f")] := by decide
  have hown : fileVerdict? excludedFile (.ofString "/w") ignoreFileName (.ofString "f") false =
      some .included := by decide +kernel
  have hexclude : fileVerdict? excludedFile (.ofString "/w") excludePath (.ofString "f") false =
      some .ignored := by decide +kernel
  have hdecides : ((l.isIgnored excludedFile (.ofString "/w/f") []).1 = true ↔
      Verdict.included = .ignored) ↔ ∀ u,
        fileVerdict? excludedFile (.ofString "/w") excludePath (.ofString "f") false = some u →
          u = .included :=
    ignoreFile_decides_iff hl hq hn hown
  refine ⟨l, _, hl, hq, hn, hown, hexclude, hdecides.not.mpr fun hsame => ?_⟩
  cases hsame _ hexclude

theorem not_ignoreFile_decides : ¬∀ (fs now : FileSystem) (root p q : Path) (l : Layers) (n : Bytes)
    (v : Verdict) (c : Cache), ofWorkspace fs root = .ok l → l.relative? p = some q →
      q.components = [.name n] →
      fileVerdict? fs root ignoreFileName n (now.isDir (root.push n)) = some v →
      ((l.isIgnored now p c).1 = true ↔ v = .ignored) := by
  intro h
  obtain ⟨l, hl, hq, hignored⟩ := exists_excludedFile
  have hown : fileVerdict? excludedFile (.ofString "/w") ignoreFileName (.ofString "f") false =
      some .included := by decide +kernel
  cases (h excludedFile excludedFile _ _ _ l (.ofString "f") .included [] hl hq (by decide)
    hown).mp hignored

end Layers

end ChunkWatch.Ignore
