import ChunkWatch.Proofs.Watch.Memory

namespace ChunkWatch.Watch

variable {σ : Type}

namespace State

variable {w : Settings σ} {fs : FileSystem} {s t : State σ} {d p q : Path} {kind : ChangeKind}
  {ps : List Path}

theorem dirs_of_classified (k : Classified w fs s p kind ps t) (hq : w.Concerns p kind q)
    (hdir : fs.isDir (w.classifier.root.join q) = false) : t.dirs =
      if (w.classifier.root.join q).isIn s.dirs ∧ ¬fs.exists? (w.classifier.root.join q) then
        s.dirs.filter fun d => !d.startsWith (w.classifier.root.join q)
      else s.dirs := by
  cases k with
  | unconcerned hno => exact absurd hq (hno q)
  | forgotten hr hgone ht =>
    rw [hq.unique hr]
    obtain ⟨hin, rfl⟩ := forget?_eq_some_iff.mp ht
    rw [if_pos ⟨hin, hgone⟩]
    rfl
  | ignored hr hkept =>
    rw [hq.unique hr, if_neg fun ⟨hin, hgone⟩ => hkept.elim hgone (absurd hin)]
    rfl
  | file hr hkept =>
    rw [hq.unique hr, if_neg fun ⟨hin, hgone⟩ => hkept.elim hgone (absurd hin)]
  | arrived hr hisDir =>
    rw [← hq.unique hr, hdir] at hisDir
    cases hisDir
  | touched hr hisDir =>
    rw [← hq.unique hr, hdir] at hisDir
    cases hisDir

theorem isIn_dirs_without_dir (hq : w.Concerns p kind q)
    (hdir : fs.isDir (w.classifier.root.join q) = false) :
    d.isIn (s.classify w fs (.change p kind)).2.dirs ↔
      d.isIn s.dirs ∧ ¬w.Forgets fs s p kind d := by
  rw [dirs_of_classified (classified_change w fs s p kind) hq hdir, hq.forgets_iff]
  split
  next hforgets =>
    obtain ⟨hin, hgone⟩ := hforgets
    have hin' : (w.classifier.root.join q).isIn s.dirs := hin
    rw [and_iff_right hin', and_iff_right hgone]
    exact isIn_filter_startsWith
  next hkept =>
    rw [and_iff_left]
    · exact Iff.rfl
    · rintro ⟨hin, hgone, -⟩
      exact hkept ⟨hin, hgone⟩

end State

namespace Session

variable {w : Settings σ} {h : Handler} {m : Move σ} {p q : Path} {kind : ChangeKind}

/-- After a change at a path without a directory nothing is registered at it or below it, if and
only if nothing was before, or the path was registered itself and there is nothing at it. -/
theorem cleared_iff (hx : m.before.step? w h m.step = some m.after) (hm : m.Classifies p kind)
    (hq : w.Concerns p kind q) (hdir : m.before.fs.isDir (w.classifier.root.join q) = false) :
    (∀ d : Path, d.isIn m.after.state.dirs → ¬d.startsWith (w.classifier.root.join q)) ↔
      (w.classifier.root.join q).isIn m.before.state.dirs ∧
        ¬m.before.fs.exists? (w.classifier.root.join q) ∨
      ∀ d : Path, d.isIn m.before.state.dirs → ¬d.startsWith (w.classifier.root.join q) := by
  rw [state_of_classifies hx hm]
  simp only [State.isIn_dirs_without_dir hq hdir, hq.forgets_iff]
  constructor
  · intro hcleared
    rw [or_iff_not_imp_left]
    intro hkept d hin
    exact hcleared d ⟨hin, fun ⟨hreg, hgone, _⟩ => hkept ⟨hreg, hgone⟩⟩
  · rintro (⟨hreg, hgone⟩ | hnone) d ⟨hin, hkept⟩ hstarts
    · exact hkept ⟨hreg, hgone, hstarts⟩
    · exact hnone d hin hstarts

-- Two runs to see it by.  The watched `/w/d` gives way to a file; `/w/a`, which was not
-- registered as there is no file in it, is removed with the watched `/w/a/b`.
def replacedByFile : List Step :=
  [.change (.ofString "/w") (.remove (.ofString "d")),
    .change (.ofString "/w") (.write (.ofString "d") []),
    .send (.change (.ofString "/w/d") .remove), .drain, .classify]

def replacedByFileRun : List (Move Unit) × Session Unit :=
  follow (.takingAll (.ofString "/w") 5) .channel replacedByFile
    (ofState nestedFile (.watching [.ofString "/w", .ofString "/w/d"]))

theorem not_cleared_behind_file :
    start (.takingAll (.ofString "/w") 5) nestedFile .ofDirectories () =
        .ok (.watching [.ofString "/w", .ofString "/w/d"]) ∧
      ∃ m ∈ replacedByFileRun.1, m.Classifies (.ofString "/w/d") .remove ∧
        m.before.fs.isDir (.ofString "/w/d") = false ∧
        ¬∀ d : Path, d.isIn m.after.state.dirs → ¬d.startsWith (.ofString "/w/d") := by
  obtain ⟨m, hm, hclassifies, hdir, hthere, hin⟩ : ∃ m ∈ replacedByFileRun.1,
      m.Classifies (.ofString "/w/d") .remove ∧
        m.before.fs.isDir (.ofString "/w/d") = false ∧
        m.before.fs.exists? (.ofString "/w/d") ∧
        Path.isIn (.ofString "/w/d") m.before.state.dirs :=
    ⟨_, List.mem_of_getLast? rfl, ⟨_, _, rfl, rfl⟩, by decide +kernel⟩
  have hrun : Run (.takingAll (.ofString "/w") 5) .channel
      (ofState nestedFile (.watching [.ofString "/w", .ofString "/w/d"])) replacedByFileRun.1
      replacedByFileRun.2 := run_follow ..
  refine ⟨rfl, m, hm, hclassifies, hdir, fun hcleared => ?_⟩
  rcases (cleared_iff (q := .ofString "d") (hrun.step_of_mem hm) hclassifies
    ⟨rfl, by decide, by decide⟩ hdir).mp hcleared with ⟨-, hgone⟩ | hnone
  · exact hgone hthere
  · exact hnone _ hin (by decide)

def buriedFile : FileSystem :=
  ⟨.cons (.ofString "w") (.dir (.cons (.ofString "a") (.dir (.cons (.ofString "b")
    (.dir (.cons (.ofString "c") (.file []) .nil)) .nil)) .nil)) .nil, []⟩

def removedAbove : List Step :=
  [.change (.ofString "/w") (.remove (.ofString "a")), .send (.change (.ofString "/w/a") .remove),
    .drain, .classify]

def removedAboveRun : List (Move Unit) × Session Unit :=
  follow (.takingAll (.ofString "/w") 5) .channel removedAbove
    (ofState buriedFile (.watching [.ofString "/w", .ofString "/w/a/b"]))

theorem not_always_cleared : ¬∀ (w : Settings Unit) (h : Handler) (fs : FileSystem)
    (source : Source) (state : State Unit) (ms : List (Move Unit)) (t : Session Unit)
    (m : Move Unit) (p q d : Path) (kind : ChangeKind), start w fs source () = .ok state →
    Run w h (ofState fs state) ms t → m ∈ ms → m.before.state.closed = false →
    m.Classifies p kind → w.Concerns p kind q →
    m.before.fs.isDir (w.classifier.root.join q) = false → d.isIn m.after.state.dirs →
    ¬d.startsWith (w.classifier.root.join q) := by
  intro h
  refine h (.takingAll (.ofString "/w") 5) .channel buriedFile .ofDirectories _ removedAboveRun.1
    removedAboveRun.2 _ (.ofString "/w/a") (.ofString "a") (.ofString "/w/a/b") .remove rfl
    (run_follow ..) (List.mem_of_getLast? rfl) rfl ⟨_, _, rfl, rfl⟩ ⟨rfl, by decide, by decide⟩
    ?_ ?_ ?_
  all_goals decide +kernel

end Session

end ChunkWatch.Watch
