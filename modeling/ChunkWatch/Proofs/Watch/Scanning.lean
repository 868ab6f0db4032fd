import ChunkWatch.Proofs.Walk.Scanning
import ChunkWatch.Proofs.Watch.Arrival
import ChunkWatch.Proofs.Watch.Return
import ChunkWatch.Proofs.Watch.Source

namespace ChunkWatch.Watch

variable {σ : Type}

/-- From `s` to `t` the source is called for some directories, and those that it takes are
registered. -/
structure State.Offers (fs : FileSystem) (called : List Path) (s t : State σ) : Prop where
  calls : t.source.calls = s.source.calls ++ called
  registered : t.source.registered = s.source.registered ++ called.filter (s.source.takes fs)
  dirs : ∀ d : Path, d.isIn t.dirs ↔ d.isIn s.dirs ∨ d.isIn (called.filter (s.source.takes fs))
  takes : t.source.takes fs = s.source.takes fs

namespace State

variable {fs : FileSystem} {s t u : State σ} {called : List Path} {dir : Path}

theorem Offers.of_registered (h : Registered s t) : Offers fs [] s t where
  calls := by rw [h.source, List.append_nil]
  registered := by rw [h.source, List.filter_nil, List.append_nil]
  dirs d := by rw [h.dirs, List.filter_nil, or_iff_left (Path.not_isIn_nil d)]
  takes := by rw [h.source]

theorem Offers.trans {later : List Path} (h : Offers fs called s t) (k : Offers fs later t u) :
    Offers fs (called ++ later) s u where
  calls := by rw [k.calls, h.calls, List.append_assoc]
  registered := by
    rw [k.registered, h.registered, h.takes, List.filter_append, List.append_assoc]
  dirs d := by rw [k.dirs, h.dirs, h.takes, List.filter_append, Path.isIn_append, or_assoc]
  takes := k.takes.trans h.takes

theorem offers_register (fs : FileSystem) (h : ¬dir.isIn s.dirs) :
    Offers fs [dir] s (s.register fs dir) := by
  rw [register, if_neg h]
  cases htakes : s.source.takes fs dir with
  | true =>
    rw [Source.watch_of_takes htakes]
    refine ⟨rfl, ?_, fun d => ?_, rfl⟩
    · rw [List.filter_cons_of_pos htakes]
      rfl
    · rw [List.filter_cons_of_pos htakes]
      simp [countStats, or_comm]
  | false =>
    obtain ⟨e, hw⟩ := Source.watch_of_not_takes htakes
    rw [hw]
    have hnone : [dir].filter (s.source.takes fs) = [] :=
      List.filter_cons_of_neg (Bool.eq_false_iff.mp htakes)
    refine ⟨rfl, ?_, fun d => ?_, rfl⟩
    · rw [hnone, List.append_nil]
    · rw [hnone, or_iff_left (Path.not_isIn_nil d)]

theorem offers_registerAll (fs : FileSystem) (s : State σ) {dirs : List Path}
    (h : dirs.Pairwise fun d e => ¬d.same e) :
    Offers fs (dirs.filter (!·.isIn s.dirs)) s (dirs.foldl (register fs) s) := by
  induction dirs generalizing s with
  | nil => exact .of_registered (.refl s)
  | cons dir dirs ih =>
    obtain ⟨hdir, hdirs⟩ := List.pairwise_cons.mp h
    rw [List.foldl_cons]
    by_cases hin : dir.isIn s.dirs
    · rw [register, if_pos hin, List.filter_cons_of_neg (by simp [hin])]
      exact ih s hdirs
    · have hfirst := offers_register fs hin
      have hrest := ih (s.register fs dir) hdirs
      rw [List.filter_cons_of_pos (by simp [hin])]
      -- The other directories are registered now if and only if they were.
      have hsame : dirs.filter (!·.isIn (s.register fs dir).dirs) =
          dirs.filter (!·.isIn s.dirs) := by
        refine List.filter_congr fun d hd => ?_
        have hother : ¬d.isIn ([dir].filter (s.source.takes fs)) := by
          intro hgranted
          obtain ⟨e, he, hde⟩ := Path.isIn_iff.mp hgranted
          rw [List.mem_singleton.mp (List.mem_of_mem_filter he)] at hde
          exact hdir d hd (Path.same_symm hde)
        have hiff := hfirst.dirs d
        rw [or_iff_left hother] at hiff
        rw [Bool.eq_iff_iff.mpr hiff]
      rw [hsame] at hrest
      exact hfirst.trans hrest

/-- A change contributes the files and registers the directories that were found below one that it
tells of, and that directory itself. -/
structure Brings (w : Settings σ) (fs : FileSystem) (s : State σ) (d : SourceEntry)
    (below : List SourceEntry) (r : List Path × State σ) : Prop where
  files : r.1.map Path.components = (below.filter (!·.isDir)).map (·.path.components)
  dirs : ∃ called, Offers fs called s r.2 ∧ (called.Pairwise fun a b => ¬a.same b) ∧
    called.map Path.components =
      (((d :: below.filter (·.isDir)).map fun e => w.classifier.root.join e.path).filter
        (!·.isIn s.dirs)).map Path.components

theorem components_filter_isIn (dirs : List Path) {xs ys : List Path}
    (h : xs.map Path.components = ys.map Path.components) :
    (xs.filter (!·.isIn dirs)).map Path.components =
      (ys.filter (!·.isIn dirs)).map Path.components := by
  have hfilter (zs : List Path) : (zs.filter (!·.isIn dirs)).map Path.components =
      (zs.map Path.components).filter fun cs => !dirs.any fun d => decide (cs = d.components) := by
    rw [List.filter_map]
    rfl
  rw [hfilter, hfilter, h]

variable {w : Settings σ} {ignored : Path → Bool} {d : SourceEntry} {q : Path}
  {found part : List SourceEntry}

theorem components_below (hpart : Walk.Listed part) (hsame : q.same d.path)
    (hne : d.path.bytes ≠ [])
    (hbelow : found.filter (·.isBelow d) = part.map fun e => ⟨d.path.join e.path, e.isDir⟩) :
    (((part.filter (!·.isDir)).map fun e => q.join e.path).map Path.components =
      ((found.filter (·.isBelow d)).filter (!·.isDir)).map (·.path.components)) ∧
    ∀ root : Path, (root.join q :: (part.filter (·.isDir)).map fun e =>
        (root.join q).join e.path).map Path.components =
      ((d :: (found.filter (·.isBelow d)).filter (·.isDir)).map fun e =>
        root.join e.path).map Path.components := by
  rw [hbelow]
  constructor
  · rw [List.filter_map, List.map_map, List.map_map]
    refine List.map_congr_left fun e he => ?_
    have he := List.mem_of_mem_filter he
    simp only [Function.comp_apply]
    rw [hpart.components_join he, hpart.components_join he, Path.same_iff.mp hsame]
  · intro root
    have hroot := Path.components_join_congr (p := root) (Path.same_iff.mp hsame)
    rw [List.map_cons, List.map_cons, List.map_cons, hroot, List.filter_map, List.map_map,
      List.map_map, List.map_map]
    refine congrArg _ (List.map_congr_left fun e he => ?_)
    have he := List.mem_of_mem_filter he
    have habs := (Path.lead_eq_none_iff.mp (hpart.bare e he)).1
    simp only [Function.comp_apply]
    rw [Path.join_join root hne habs, hpart.components_join he, hpart.components_join he, hroot]

theorem brings_of_resumes {p : Path} {kind : ChangeKind}
    (hd : Walk.Resumes w.classifier fs ignored found d q)
    (hanswers : w.classifier.Answers fs ignored) (hsame : q.same d.path)
    (hq : w.Concerns p kind q) (hkind : kind.isArrival) (hw : w.watchNewDirs)
    (hopen : s.cancelled = false) :
    Brings w fs s d (found.filter (·.isBelow d)) (s.classify w fs (.change p kind)) := by
  obtain ⟨asked, hasked⟩ : ∃ asked, (w.classifier.shouldIgnoreEntry fs (w.classifier.root.join q)
      true).run s.receiving.memory = (false, asked) :=
    ⟨_, Prod.ext ((hanswers.verdict _ true _).trans hd.kept) rfl⟩
  obtain ⟨part, hpart, hlisted, hbelow⟩ := hd.walk asked
  obtain ⟨hfiles, hstate⟩ := arrived_of_classified (classified_change w fs s p kind) hq hd.isDir
    hkind hw hasked
  have hbrought := arrive_of_run (s := { s.receiving with memory := asked }) w hopen hpart
  rw [hbrought] at hfiles hstate
  have hne : d.path.bytes ≠ [] := by
    intro hnil
    have hempty : d.path = ⟨[]⟩ := congrArg Path.mk hnil
    apply Path.components_ne_nil hq.below
    rw [Path.same_iff.mp hsame, hempty]
    rfl
  obtain ⟨hleaves, hdirs⟩ := components_below hlisted hsame hne hbelow
  have hpairwise := (hlisted.filter (·.isDir)).pairwise_join (w.classifier.root.join q)
  constructor
  · rw [hfiles]
    exact hleaves
  · rw [hstate]
    have hscanned : Registered s { s.receiving with memory := part.memory } := ⟨rfl, rfl, rfl⟩
    have hoffers := (Offers.of_registered hscanned).trans (offers_registerAll fs _ hpairwise)
    rw [List.nil_append] at hoffers
    exact ⟨_, hoffers, hpairwise.filter _,
      components_filter_isIn s.dirs (hdirs w.classifier.root)⟩

end State

/-- When the oracle's answers go by the path alone, the arrival of a directory that a walk of the
workspace finds brings what that walk finds below it. -/
theorem arrival_brings_walked {w : Settings σ} {fs : FileSystem} {ignored : Path → Bool}
    {s : State σ} (hs : fs.Sound) (hroot : fs.isDir w.classifier.root)
    (hanswers : w.classifier.Answers fs ignored) (hw : w.watchNewDirs)
    (hopen : s.cancelled = false) (memory : σ) :
    ∃ full, Walk.run w.classifier fs Walk.collect w.classifier.root [] memory = .ok full ∧
      ∀ d ∈ full.made, d.isDir → ∀ p kind q, w.Concerns p kind q → kind.isArrival →
        q.Spells ignored d.path → State.Brings w fs s d (full.made.reverse.filter (·.isBelow d))
          (s.classify w fs (.change p kind)) := by
  obtain ⟨full, hfull, hresumes⟩ := Walk.run_resumes hs hroot hanswers memory
  refine ⟨full, hfull, fun d hd hisDir p kind q hq hkind hspells => ?_⟩
  exact State.brings_of_resumes (hresumes d hd hisDir q hspells) hanswers hspells.same hq hkind hw
    hopen

-- The directory `/w/d`, with a file and a directory in it, arrives at a source that refuses it.
def nestedDirectories : FileSystem :=
  ⟨.cons (.ofString "w") (.dir (.cons (.ofString "d") (.dir (.cons (.ofString "a") (.file [])
    (.cons (.ofString "e") (.dir (.cons (.ofString "b") (.file []) .nil)) .nil))) .nil)) .nil, []⟩

theorem sound_nestedDirectories : nestedDirectories.Sound := by
  constructor
  · refine ⟨by decide, nofun, ⟨by decide, nofun, ⟨by decide, by decide, trivial, ?_⟩, trivial⟩,
      trivial⟩
    exact ⟨by decide, nofun, ⟨by decide, nofun, trivial, trivial⟩, trivial⟩
  · exact nofun

def State.refusing : State Unit :=
  { State.watching [.ofString "/w"] with source := .refusing [.ofString "/w/d"] }

theorem refused_directory_brings :
    nestedDirectories.Sound ∧ nestedDirectories.isDir (.ofString "/w") ∧
      (Settings.takingAll (.ofString "/w") 5).classifier.Answers nestedDirectories
        (fun _ => false) ∧
      ∃ full, Walk.run (Settings.takingAll (.ofString "/w") 5).classifier nestedDirectories
          Walk.collect (.ofString "/w") [] () = .ok full ∧
        ⟨.ofString "d", true⟩ ∈ full.made ∧
        full.made.reverse.filter (·.isBelow ⟨.ofString "d", true⟩) =
          [⟨.ofString "d/a", false⟩, ⟨.ofString "d/e", true⟩, ⟨.ofString "d/e/b", false⟩] ∧
        State.Brings (.takingAll (.ofString "/w") 5) nestedDirectories .refusing
          ⟨.ofString "d", true⟩ (full.made.reverse.filter (·.isBelow ⟨.ofString "d", true⟩))
          (State.classify (.takingAll (.ofString "/w") 5) nestedDirectories .refusing
            (.change (.ofString "/w/d") .create)) := by
  have hroot : nestedDirectories.isDir (.ofString "/w") := by decide +kernel
  have hanswers : (Settings.takingAll (.ofString "/w") 5).classifier.Answers nestedDirectories
      (fun _ => false) := fun _ _ => rfl
  obtain ⟨full, hfull, hbrings⟩ := arrival_brings_walked (s := State.refusing)
    sound_nestedDirectories hroot hanswers rfl rfl ()
  have hwalk : ((Walk.run (Settings.takingAll (.ofString "/w") 5).classifier nestedDirectories
      Walk.collect (.ofString "/w") [] ()).toOption.map Walk.Progress.made) =
      some [⟨.ofString "d/e/b", false⟩, ⟨.ofString "d/e", true⟩,
        ⟨.ofString "d/a", false⟩, ⟨.ofString "d", true⟩] := by decide +kernel
  obtain ⟨found, hfound, hmade⟩ := Session.exists_found hwalk
  rw [← Except.ok.inj (hfull.symm.trans hfound)] at hmade
  have hd : (⟨.ofString "d", true⟩ : SourceEntry) ∈ full.made := by simp [hmade]
  refine ⟨sound_nestedDirectories, hroot, hanswers, full, hfull, hd, ?_, ?_⟩
  · rw [hmade]
    decide +kernel
  · exact hbrings _ hd rfl (.ofString "/w/d") .create (.ofString "d")
      ⟨rfl, by decide +kernel, by decide⟩ rfl (.inl rfl)

end ChunkWatch.Watch
