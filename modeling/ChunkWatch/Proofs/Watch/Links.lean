import ChunkWatch.Proofs.Watch.Arrival

namespace ChunkWatch

theorem SourceEntry.IsAt.linksToDir {fs : FileSystem} {start : Path} {e : SourceEntry}
    (h : e.IsAt fs start) (hleaf : e.isDir = false) (hdir : fs.isDir (start.join e.path)) :
    fs.LinksToDir (start.join e.path) := by
  obtain ⟨f, hf, hkind⟩ := h.entry
  rw [hleaf] at hkind
  cases f with
  | dir es => cases hkind
  | link target => exact ⟨⟨target, hf⟩, hdir⟩
  | file content =>
    obtain ⟨es, hes⟩ := FileSystem.isDir_iff.mp hdir
    cases hes.symm.trans (FileSystem.entry?_following hf nofun)

namespace Watch

variable {σ : Type}

/-- At an open session a change tells of the arrival of a directory at `q` below the root, and the
scan of it comes to `e`. -/
structure Settings.Finds (w : Settings σ) (fs : FileSystem) (s : State σ) (p : Path)
    (kind : ChangeKind) (q : Path) (e : SourceEntry) : Prop where
  concerns : w.Concerns p kind q
  arrives : kind.isArrival
  watches : w.watchNewDirs
  attends : s.cancelled = false
  isDir : fs.isDir (w.classifier.root.join q)
  found : ∃ memory r,
    (w.classifier.shouldIgnoreEntry fs (w.classifier.root.join q) true).run s.memory
      = (false, memory) ∧
    Walk.run w.classifier fs Walk.collect (w.classifier.root.join q) [] memory = .ok r ∧ e ∈ r.made

namespace State

variable {w : Settings σ} {fs : FileSystem} {s t : State σ} {p q r : Path} {kind : ChangeKind}
  {ps : List Path}

theorem mem_scan_iff {dir : Path} {e : SourceEntry} : e ∈ (s.scan w fs dir).1 ↔
    ∃ r, Walk.run w.classifier fs Walk.collect dir [] s.memory = .ok r ∧ e ∈ r.made := by
  rw [scan]
  split
  next r hr => simp [hr]
  next hr => simp [hr]

theorem contributes_dir_of_classified (hs : fs.Sound) (k : Classified w fs s p kind ps t) :
    r ∈ ps ∧ fs.isDir (w.classifier.root.join r) ↔
      ∃ q e, w.Finds fs s p kind q e ∧ e.isDir = false ∧ r = q.join e.path ∧
        fs.LinksToDir (w.classifier.root.join r) := by
  constructor
  · rintro ⟨hr, hdir⟩
    cases k with
    | file _ _ hfile =>
      rw [List.mem_singleton.mp hr, hfile] at hdir
      cases hdir
    | @arrived q memory hq hisDir hasked hkind hw =>
      obtain ⟨hopen, e, he, hleaf, rfl⟩ := mem_arrive_iff.mp hr
      have hat := (isAt_of_scan hs hisDir).1 e he
      rw [Path.join_join _ hq.below hat.bare] at hdir ⊢
      obtain ⟨found, hfound, he⟩ := mem_scan_iff.mp he
      exact ⟨q, e, ⟨hq, hkind, hw, hopen, hisDir, memory, found, hasked, hfound, he⟩, hleaf, rfl,
        hat.linksToDir hleaf hdir⟩
    | _ => cases hr
  · rintro ⟨q, e, hfinds, hleaf, rfl, hlink⟩
    obtain ⟨memory, found, hasked, hfound, he⟩ := hfinds.found
    obtain ⟨hps, -⟩ := arrived_of_classified k hfinds.concerns hfinds.isDir hfinds.arrives
      hfinds.watches hasked
    rw [hps, mem_arrive_iff]
    exact ⟨⟨hfinds.attends, e, mem_scan_iff.mpr ⟨found, hfound, he⟩, hleaf, rfl⟩, hlink.2⟩

theorem finds_countStats {f : Stats → Stats} {e : SourceEntry} :
    w.Finds fs (s.countStats f) p kind q e ↔ w.Finds fs s p kind q e := by
  constructor <;> exact fun ⟨hq, hkind, hw, hopen, hdir, hfound⟩ =>
    ⟨hq, hkind, hw, hopen, hdir, hfound⟩

theorem contributes_dir_classify (hs : fs.Sound) :
    r ∈ (s.classify w fs (.change p kind)).1 ∧ fs.isDir (w.classifier.root.join r) ↔
      ∃ q e, w.Finds fs s p kind q e ∧ e.isDir = false ∧ r = q.join e.path ∧
        fs.LinksToDir (w.classifier.root.join r) := by
  rw [contributes_dir_of_classified hs (classified_change w fs s p kind)]
  simp only [receiving, finds_countStats]

end State

def Move.Finds (w : Settings σ) (m : Move σ) (q : Path) (e : SourceEntry) : Prop :=
  ∃ p kind, m.Classifies p kind ∧ w.Finds m.before.fs m.before.state p kind q e

theorem Move.finds_iff {w : Settings σ} {m : Move σ} {p q : Path} {kind : ChangeKind}
    {e : SourceEntry} (h : m.Classifies p kind) :
    m.Finds w q e ↔ w.Finds m.before.fs m.before.state p kind q e := by
  refine ⟨?_, fun hfinds => ⟨p, kind, h, hfinds⟩⟩
  rintro ⟨r, kind', hr, hfinds⟩
  obtain ⟨rfl, rfl⟩ := h.unique hr
  exact hfinds

namespace Session

variable {w : Settings σ} {h : Handler} {s t : Session σ} {ms : List (Move σ)} {m : Move σ}
  {r : Path}

/-- In a run of a session a path that is a directory is contributed if and only if it is a link to
one, and the scan of an arrived directory comes to the link. -/
theorem contributes_dir_iff (hs : s.fs.Sound) (hrun : Run w h s ms t) (hm : m ∈ ms) :
    r ∈ m.contributed w ∧ m.before.fs.isDir (w.classifier.root.join r) ↔
      ∃ q e, m.Finds w q e ∧ e.isDir = false ∧ r = q.join e.path ∧
        m.before.fs.LinksToDir (w.classifier.root.join r) := by
  obtain ⟨before, after, rfl⟩ := List.append_of_mem hm
  have hsound : m.before.fs.Sound := hrun.split.1.sound hs
  by_cases hclass : ∃ p kind, m.Classifies p kind
  · obtain ⟨p, kind, hclass⟩ := hclass
    simp only [Move.finds_iff hclass, Move.contributed_of_classifies hclass]
    exact State.contributes_dir_classify hsound
  · rw [Move.contributed_of_not_classifies fun p kind hc => hclass ⟨p, kind, hc⟩]
    constructor
    · rintro ⟨hr, -⟩
      cases hr
    · rintro ⟨q, e, ⟨p, kind, hc, -⟩, -⟩
      exact absurd ⟨p, kind, hc⟩ hclass

-- A run to see it by: the new `/w/a` has a link to the directory `/w/d` in it.
def linkArrives : List Step :=
  [.change (.ofString "/w") (.mkdir (.ofString "a")),
    .change (.ofString "/w") (.link (.ofString "a/l") (Bytes.ofString "../d")),
    .send (.change (.ofString "/w/a") .create), .drain, .classify]

def linkArrivesRun : List (Move Unit) × Session Unit :=
  follow (.takingAll (.ofString "/w") 5) .channel linkArrives
    (ofState nestedFile (.watching [.ofString "/w", .ofString "/w/d"]))

theorem contributes_link_in_arrived :
    start (.takingAll (.ofString "/w") 5) nestedFile .ofDirectories () =
        .ok (.watching [.ofString "/w", .ofString "/w/d"]) ∧
      ∃ m ∈ linkArrivesRun.1,
        m.contributed (.takingAll (.ofString "/w") 5) = [.ofString "a/l"] ∧
        ∃ q e, m.Finds (.takingAll (.ofString "/w") 5) q e ∧ e.isDir = false ∧
          .ofString "a/l" = q.join e.path ∧ m.before.fs.LinksToDir (.ofString "/w/a/l") := by
  obtain ⟨m, hm, hcontributed, hdir⟩ : ∃ m ∈ linkArrivesRun.1,
      m.contributed (.takingAll (.ofString "/w") 5) = [.ofString "a/l"] ∧
        m.before.fs.isDir (.ofString "/w/a/l") :=
    ⟨_, List.mem_of_getLast? rfl, by decide +kernel⟩
  have hrun : Run (.takingAll (.ofString "/w") 5) .channel
      (ofState nestedFile (.watching [.ofString "/w", .ofString "/w/d"])) linkArrivesRun.1
      linkArrivesRun.2 := run_follow ..
  have hmem : .ofString "a/l" ∈ m.contributed (.takingAll (.ofString "/w") 5) := by
    rw [hcontributed]
    exact List.mem_singleton_self _
  exact ⟨rfl, m, hm, hcontributed,
    (contributes_dir_iff sound_nestedFile hrun hm).mp ⟨hmem, hdir⟩⟩

theorem not_never_contributes_dir : ¬∀ (w : Settings Unit) (h : Handler) (fs : FileSystem)
    (source : Source) (state : State Unit) (ms : List (Move Unit)) (t : Session Unit)
    (m : Move Unit) (r : Path), fs.Sound → start w fs source () = .ok state →
    Run w h (ofState fs state) ms t → m ∈ ms → r ∈ m.contributed w →
    m.before.fs.isDir (w.classifier.root.join r) = false := by
  intro h
  have hfile := h (.takingAll (.ofString "/w") 5) .channel nestedFile .ofDirectories
    (.watching [.ofString "/w", .ofString "/w/d"]) linkArrivesRun.1 linkArrivesRun.2 _
    (.ofString "a/l") sound_nestedFile rfl (run_follow ..) (List.mem_of_getLast? rfl)
    (by decide +kernel)
  revert hfile
  decide +kernel

end Session

end Watch

end ChunkWatch
