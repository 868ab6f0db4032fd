import ChunkWatch.Proofs.Walk.Visiting
import ChunkWatch.Proofs.Watch.Scanning

namespace ChunkWatch

variable {σ : Type}

namespace Walk

variable {root : Path} {found : List SourceEntry} {dirs : List Path}

def holdersOf (root : Path) : List SourceEntry → List Path
  | [] => []
  | e :: es =>
    if e.isDir then holdersOf root es
    else ((root.join e.path).parent?.elim id Path.insertInto) (holdersOf root es)

theorem relevantDirs_eq (c : Classifier σ) (fs : FileSystem) (root : Path) (memory : σ) :
    relevantDirs c fs root memory = (run c fs collect root [] memory).map fun q =>
      (holdersOf root q.made, q.memory) := by
  have hrun (visit : Visitor Error (List Path))
      (h : ∀ e es, visit e (holdersOf root es) = (collect e es).map (holdersOf root)) :
      run c fs visit root [] memory =
        (run c fs collect root [] memory).map (Progress.map (holdersOf root)) := run_map h [] memory
  rw [relevantDirs, hrun]
  · cases run c fs collect root [] memory <;> rfl
  · intro e es
    rw [collect, Except.map, holdersOf]
    split <;> rfl

structure Holders (root : Path) (found : List SourceEntry) (dirs : List Path) : Prop where
  ascending : Path.Ascending dirs
  holds : ∀ d ∈ dirs, d = root ∨ ∃ e ∈ found, e.isDir = false ∧
    (root.join e.path).parent? = some d
  all : ∀ d : Path, d.isIn dirs ↔ d.same root ∨ ∃ e ∈ found, e.isDir = false ∧
    ∃ parent, (root.join e.path).parent? = some parent ∧ d.same parent

theorem ascending_holdersOf (root : Path) (found : List SourceEntry) :
    Path.Ascending (holdersOf root found) := by
  induction found with
  | nil => exact List.Pairwise.nil
  | cons e found ih =>
    rw [holdersOf]
    split
    · exact ih
    · cases (root.join e.path).parent? with
      | none => exact ih
      | some parent => exact ih.insertInto

theorem mem_holdersOf {d : Path} (h : d ∈ holdersOf root found) :
    ∃ e ∈ found, e.isDir = false ∧ (root.join e.path).parent? = some d := by
  induction found with
  | nil => cases h
  | cons e found ih =>
    rw [holdersOf] at h
    split at h
    · obtain ⟨f, hf, hd⟩ := ih h
      exact ⟨f, List.mem_cons_of_mem e hf, hd⟩
    next hfile =>
      have hrest (h : d ∈ holdersOf root found) : ∃ f ∈ e :: found, f.isDir = false ∧
          (root.join f.path).parent? = some d := by
        obtain ⟨f, hf, hd⟩ := ih h
        exact ⟨f, List.mem_cons_of_mem e hf, hd⟩
      cases hparent : (root.join e.path).parent? with
      | none =>
        rw [hparent] at h
        exact hrest h
      | some parent =>
        rw [hparent] at h
        rcases Path.mem_of_mem_insertInto h with rfl | h
        · exact ⟨e, List.mem_cons_self, Bool.eq_false_iff.mpr hfile, hparent⟩
        · exact hrest h

theorem isIn_holdersOf {d : Path} : d.isIn (holdersOf root found) ↔ ∃ e ∈ found,
    e.isDir = false ∧ ∃ parent, (root.join e.path).parent? = some parent ∧ d.same parent := by
  induction found with
  | nil => simp [holdersOf]
  | cons e found ih =>
    rw [holdersOf]
    simp only [List.exists_mem_cons_iff, ← ih]
    cases hdir : e.isDir with
    | true => simp
    | false => cases hparent : (root.join e.path).parent? <;> simp

theorem holders_insertInto (root : Path) (found : List SourceEntry) :
    Holders root found (root.insertInto (holdersOf root found)) where
  ascending := (ascending_holdersOf root found).insertInto
  holds _ hd := (Path.mem_of_mem_insertInto hd).imp_right mem_holdersOf
  all _ := by rw [Path.isIn_insertInto, isIn_holdersOf]

end Walk

namespace Watch

structure State.Begun (source : Source) (dirs : List Path) (s : State σ) : Prop where
  calls : s.source.calls = source.calls ++ dirs
  registered : s.source.registered = source.registered ++ dirs
  dirs : s.dirs = dirs
  watched : s.stats.dirs = s.dirs.length
  status : s.status = .idle

/-- A start that was given up at the first directory that the source does not take.  The source is
closed, and nothing is left registered. -/
structure StartFailure.Refused (fs : FileSystem) (source : Source) (dirs : List Path)
    (f : StartFailure) : Prop where
  first : ∃ before d after e, dirs = before ++ d :: after ∧ (∀ p ∈ before, source.takes fs p) ∧
    (source.watch fs d).2 = some e ∧ f.error = .watch e ∧
    f.source.calls = source.calls ++ (before ++ [d])
  registered : f.source.registered = []
  closes : f.source.closes = source.closes + 1

variable {w : Settings σ} {fs : FileSystem} {source : Source} {memory : σ}
  {q : Walk.Progress σ (List SourceEntry)} {dirs : List Path}

theorem start_of_walk
    (h : Walk.run w.classifier fs Walk.collect w.classifier.root [] memory = .ok q)
    (hdirs : w.classifier.root.insertInto (Walk.holdersOf w.classifier.root q.made) = dirs) :
    start w fs source memory = match source.watchAll fs dirs with
      | (source, some e) => .error ⟨.watch e, source.close⟩
      | (source, none) => .ok {
          memory := q.memory, pending := [], timer := none, generation := 0, closed := false,
          cancelled := false, source, dirs,
          stats := { Stats.zero with dirs := dirs.length }, waiting := [] } := by
  subst hdirs
  rw [start]
  dsimp only
  rw [Walk.relevantDirs_eq, h]
  rfl

theorem begun_or_refused (source : Source)
    (h : Walk.run w.classifier fs Walk.collect w.classifier.root [] memory = .ok q)
    (hdirs : w.classifier.root.insertInto (Walk.holdersOf w.classifier.root q.made) = dirs) :
    ((∀ d ∈ dirs, source.takes fs d) ∧
      ∃ s, start w fs source memory = .ok s ∧ s.Begun source dirs) ∨
    ((∃ d ∈ dirs, source.takes fs d = false) ∧
      ∃ f, start w fs source memory = .error f ∧ f.Refused fs source dirs) := by
  rw [start_of_walk h hdirs]
  rcases source.all_taken_or_refused fs dirs with htaken | ⟨before, d, after, e, rfl, htaken, hd⟩
  · rw [Source.watchAll_of_takes htaken]
    exact .inl ⟨htaken, _, rfl, rfl, rfl, rfl, rfl, rfl⟩
  · have hrefuses : source.takes fs d = false := by
      rw [← Bool.not_eq_true]
      intro htakes
      rw [Source.watch_of_takes htakes] at hd
      cases hd
    rw [Source.watchAll_of_refused htaken hd]
    exact .inr ⟨⟨d, by simp, hrefuses⟩, _, rfl,
      ⟨before, d, after, e, rfl, htaken, hd, rfl, rfl⟩, rfl, rfl⟩

/-- Whatever the source refuses, a start registers all directories that hold a file or none. -/
theorem start_all_or_nothing (w : Settings σ) (fs : FileSystem) (source : Source) (memory : σ) :
    (∀ e, Walk.run w.classifier fs Walk.collect w.classifier.root [] memory = .error e →
      start w fs source memory = .error ⟨e, source.close⟩) ∧
    ∀ q, Walk.run w.classifier fs Walk.collect w.classifier.root [] memory = .ok q →
      ∃ dirs, Walk.Holders w.classifier.root q.made dirs ∧
        ((∃ s, start w fs source memory = .ok s) ↔ ∀ d ∈ dirs, source.takes fs d) ∧
        (∀ s, start w fs source memory = .ok s → s.Begun source dirs) ∧
        ∀ f, start w fs source memory = .error f → f.Refused fs source dirs := by
  refine ⟨fun e he => ?_, fun q hq => ?_⟩
  · rw [start]
    dsimp only
    rw [Walk.relevantDirs_eq, he]
    rfl
  · refine ⟨_, Walk.holders_insertInto _ _, ?_⟩
    rcases begun_or_refused source hq rfl with
      ⟨htaken, s, hs, hbegun⟩ | ⟨⟨d, hd, hrefuses⟩, f, hf, hrefused⟩
    · rw [hs]
      refine ⟨⟨fun _ => htaken, fun _ => ⟨s, rfl⟩⟩, fun s' hs' => ?_, fun f hf => ?_⟩
      · cases hs'
        exact hbegun
      · cases hf
    · rw [hf]
      refine ⟨⟨fun hstarts => ?_, fun htaken => ?_⟩, fun s hs => ?_, fun f' hf' => ?_⟩
      · obtain ⟨s, hs⟩ := hstarts
        cases hs
      · rw [htaken d hd] at hrefuses
        cases hrefuses
      · cases hs
      · cases hf'
        exact hrefused

theorem refused_in_between : ∃ q dirs f,
    Walk.run (Settings.takingAll (.ofString "/w") 5).classifier nestedDirectories Walk.collect
        (.ofString "/w") [] () = .ok q ∧
      Walk.Holders (.ofString "/w") q.made dirs ∧ Path.isIn (.ofString "/w/d/e") dirs ∧
      start (.takingAll (.ofString "/w") 5) nestedDirectories (.refusing [.ofString "/w/d"]) () =
        .error f ∧
      f.Refused nestedDirectories (.refusing [.ofString "/w/d"]) dirs ∧
      f.source.calls = [.ofString "/w", .ofString "/w/d"] := by
  obtain ⟨-, hwalked⟩ := start_all_or_nothing (.takingAll (.ofString "/w") 5) nestedDirectories
    (.refusing [.ofString "/w/d"]) ()
  obtain ⟨dirs, hholders, -, -, hrefused⟩ := hwalked _ rfl
  have hthird : Path.isIn (.ofString "/w/d/e") dirs := by
    refine (hholders.all _).mpr (.inr ⟨⟨.ofString "d/e/b", false⟩, ?_, rfl, _, rfl, rfl⟩)
    decide +kernel
  exact ⟨_, dirs, _, rfl, hholders, hthird, rfl, hrefused _ rfl, by decide +kernel⟩

end Watch

end ChunkWatch
