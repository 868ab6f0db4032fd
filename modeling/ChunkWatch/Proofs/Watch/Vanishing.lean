import ChunkWatch.Proofs.Ignore.Kind
import ChunkWatch.Proofs.Watch.Arrival
import ChunkWatch.Proofs.Watch.Gone

namespace ChunkWatch

open Component (IsName)
open Classifier (repositoryDir)
open Ignore (Cache Layers)

theorem Classifier.IsLayered.rejects_iff_of_above {c : Classifier Cache} {l : Layers}
    {fs : FileSystem} {memory : Cache} {names : List Bytes} {p : Path} {isDir : Bool}
    (h : c.IsLayered l) (hnames : ∀ n ∈ names, IsName n)
    (hp : (c.absolute p).same (c.root.pushAll names))
    (habove : ∀ dir, dir ≠ [] → dir <+: names → dir ≠ names →
      memory.Current fs (c.root.pushAll dir)) :
    ((c.shouldIgnoreEntry fs p isDir).run memory).1 = true ↔ c.Rejects l fs names isDir := by
  have hcomponents : (c.absolute p).components = c.root.components ++ names.map .name := by
    rw [Path.same_iff.mp hp, Path.components_pushAll hnames]
  have hsees : l.Sees fs (names.map .name) memory := by
    refine Layers.sees_of_above fun ds hne hds hproper => ?_
    rw [List.prefix_iff_eq_take, ← List.map_take] at hds
    rw [hds] at hne hproper ⊢
    rw [Layers.along_names, h.root]
    exact habove _ (mt (congrArg (List.map Component.name)) hne) (names.take_prefix _)
      (mt (congrArg (List.map Component.name)) hproper)
  rw [h.verdict_eq hcomponents hsees]
  exact h.shouldIgnoreEntry_iff Layers.known_nil hp hnames

namespace Watch

variable {σ : Type}

theorem State.contributes_of_gone {w : Settings σ} {fs : FileSystem} {s t : State σ} {p q d : Path}
    {kind : ChangeKind} {ps : List Path} (k : Classified w fs s p kind ps t)
    (hq : w.Concerns p kind q) (hgone : fs.Gone d) (hsame : (w.classifier.root.join q).same d) :
    (¬(w.classifier.root.join q).isIn s.dirs ∧
      ((w.classifier.shouldIgnoreEntry fs (w.classifier.root.join q) false).run s.memory).1
        = false → ps = [q]) ∧
    (¬(¬(w.classifier.root.join q).isIn s.dirs ∧
      ((w.classifier.shouldIgnoreEntry fs (w.classifier.root.join q) false).run s.memory).1
        = false) → ps = []) := by
  have hnotDir := hgone.isDir hsame
  cases k with
  | unconcerned hno => exact absurd hq (hno q)
  | forgotten hr _ ht =>
    rw [hq.unique hr]
    exact ⟨fun hnew => absurd (forget?_eq_some_iff.mp ht).1 hnew.1, fun _ => rfl⟩
  | ignored hr _ hignored =>
    rw [← hq.unique hr, hnotDir] at hignored
    rw [hignored]
    exact ⟨fun hkept => Bool.noConfusion hkept.2, fun _ => rfl⟩
  | file hr hkept _ hkeeps =>
    rw [← hq.unique hr] at hkept hkeeps ⊢
    rw [hgone.exists? hsame, or_iff_right Bool.false_ne_true] at hkept
    exact ⟨fun _ => rfl, fun hno => absurd ⟨hkept, congrArg Prod.fst hkeeps⟩ hno⟩
  | arrived hr hdir =>
    rw [← hq.unique hr, hnotDir] at hdir
    cases hdir
  | touched hr hdir =>
    rw [← hq.unique hr, hnotDir] at hdir
    cases hdir

/-- From `u` on a directory that is ignored is removed, with the ignore files around it left as
they are, and an event about it is classified. -/
structure Move.TellsRemoved (w : Settings Cache) (l : Layers) (names : List Bytes)
    (u : Session Cache) (later : List (Move Cache)) (m : Move Cache) (q : Path) : Prop where
  proper : names ≠ []
  isName : ∀ n ∈ names, IsName n
  isDir : u.fs.isDir (w.classifier.root.pushAll names)
  ignored : ((w.classifier.shouldIgnore u.fs (w.classifier.root.pushAll names)).run
    u.state.memory).1 = true
  agree : ∀ n ∈ later, l.AgreeAbove names n.before.fs n.after.fs
  gone : m.before.fs.Gone (w.classifier.root.pushAll names)
  event : ∃ p kind, m.Classifies p kind ∧ w.Concerns p kind q
  same : (w.classifier.root.join q).same (w.classifier.root.pushAll names)

/-- What was a directory is taken for a file that matters, when it is gone: it is not registered,
and nothing ignores it but rules for directories. -/
structure Settings.TakesForFile (w : Settings Cache) (l : Layers) (fs : FileSystem)
    (dirs : List Path) (names : List Bytes) : Prop where
  unregistered : ¬(w.classifier.root.pushAll names).isIn dirs
  outside : repositoryDir ∉ names
  supported : w.classifier.isSupported (w.classifier.root.pushAll names)
  onlyAsDir : l.OnlyAsDir fs names

theorem Settings.followsUp_of_agree {w : Settings Cache} {dir : Path} {ms : List (Move Cache)}
    (h : ∀ m ∈ ms, Ignore.loadNested m.before.fs dir = Ignore.loadNested m.after.fs dir) :
    w.FollowsUp dir ms := by
  rintro before m after rfl ⟨-, houtdated⟩
  exact absurd (h m (by simp)) houtdated

variable {w : Settings Cache} {l : Layers} {u : Session Cache} {later : List (Move Cache)}
  {m : Move Cache} {names : List Bytes} {q : Path}

theorem Move.TellsRemoved.ignored_iff (hl : w.classifier.IsLayered l)
    (hm : m.TellsRemoved w l names u later q) (houtside : repositoryDir ∉ names)
    (hu : ∀ dir, dir ≠ [] → dir <+: names → dir ≠ names →
      u.state.memory.Current u.fs (w.classifier.root.pushAll dir))
    (hv : ∀ dir, dir ≠ [] → dir <+: names → dir ≠ names →
      m.before.state.memory.Current m.before.fs (w.classifier.root.pushAll dir))
    (hagree : l.AgreeAbove names u.fs m.before.fs) :
    ((w.classifier.shouldIgnoreEntry m.before.fs (w.classifier.root.join q) false).run
      m.before.state.memory).1 = true ↔
      w.classifier.isSupported (w.classifier.root.pushAll names) = false ∨
        ¬l.OnlyAsDir u.fs names := by
  have habsolute : w.classifier.absolute (w.classifier.root.pushAll names) =
      w.classifier.root.pushAll names := hl.absolute_pushAll hm.isName
  have hignored := hm.ignored
  rw [Classifier.shouldIgnore, habsolute, hm.isDir, hl.rejects_iff_of_above hm.isName
    (by rw [habsolute]; exact Path.same_refl _) hu] at hignored
  have hignores : l.Ignores u.fs names := by
    rcases hignored with hmem | hignores | ⟨hfile, -⟩
    · exact absurd hmem houtside
    · exact hignores
    · cases hfile
  have hgone := Layers.ignores_gone_iff hm.proper hagree (hl.root ▸ hm.isDir)
    (hl.root ▸ hm.gone.isDir (Path.same_refl _)) hignores
  rw [hl.rejects_iff_of_above hm.isName (by rw [hl.absolute_join]; exact hm.same) hv,
    Classifier.Rejects, or_iff_right houtside, hgone, and_iff_right rfl, or_comm]

theorem Move.TellsRemoved.takesForFile_iff (hl : w.classifier.IsLayered l)
    (hm : m.TellsRemoved w l names u later q)
    (hcurrent : repositoryDir ∉ names → ∀ dir, dir ≠ [] → dir <+: names → dir ≠ names →
      u.state.memory.Current u.fs (w.classifier.root.pushAll dir) ∧
        m.before.state.memory.Current m.before.fs (w.classifier.root.pushAll dir))
    (hagree : l.AgreeAbove names u.fs m.before.fs) :
    w.TakesForFile l u.fs m.before.state.dirs names ↔
      ¬(w.classifier.root.join q).isIn m.before.state.dirs ∧
        ((w.classifier.shouldIgnoreEntry m.before.fs (w.classifier.root.join q) false).run
          m.before.state.memory).1 = false := by
  have hregistered : (w.classifier.root.join q).isIn m.before.state.dirs ↔
      (w.classifier.root.pushAll names).isIn m.before.state.dirs :=
    ⟨Path.isIn_of_same (Path.same_symm hm.same), Path.isIn_of_same hm.same⟩
  rw [hregistered, ← Bool.not_eq_true]
  by_cases houtside : repositoryDir ∉ names
  · rw [hm.ignored_iff hl houtside (fun dir hne hdir k => (hcurrent houtside dir hne hdir k).1)
      (fun dir hne hdir k => (hcurrent houtside dir hne hdir k).2) hagree, not_or, not_not,
      Bool.not_eq_false]
    exact ⟨fun hfile => ⟨hfile.unregistered, hfile.supported, hfile.onlyAsDir⟩,
      fun ⟨hnew, hsupported, honly⟩ => ⟨hnew, houtside, hsupported, honly⟩⟩
  · have hcomponents : (w.classifier.absolute (w.classifier.root.join q)).components =
        w.classifier.root.components ++ names.map .name := by
      rw [hl.absolute_join, Path.same_iff.mp hm.same, Path.components_pushAll hm.isName]
    have hinside := (hl.inRepositoryDir_iff hcomponents).mpr
      (List.mem_map_of_mem (not_not.mp houtside))
    rw [Classifier.run_shouldIgnoreEntry, if_pos hinside]
    exact ⟨fun hfile => absurd hfile.outside houtside, fun ⟨_, hkept⟩ => absurd rfl hkept⟩

namespace Session

variable {h : Handler} {fs : FileSystem} {source : Source} {memory : Cache} {state : State Cache}
  {t : Session Cache} {earlier after : List (Move Cache)}

theorem Run.agreeAbove (hrun : Run w h u later t)
    (hagree : ∀ n ∈ later, l.AgreeAbove names n.before.fs n.after.fs) :
    l.AgreeAbove names u.fs t.fs :=
  hrun.invariant (P := fun s => l.AgreeAbove names u.fs s.fs) (fun _ _ _ _ => rfl)
    fun n hn hbefore _ dir hne hdir hproper =>
      (hbefore dir hne hdir hproper).trans (hagree n hn dir hne hdir hproper)

/-- An event about an ignored directory that was removed contributes it if it is taken for a file
that matters, and contributes nothing otherwise, so never if no rule for directories matches it. -/
theorem contributed_of_removed_ignored (hl : w.classifier.IsLayered l) (hfs : fs.Sound)
    (hmemory : Layers.CurrentBelow fs w.classifier.root memory)
    (hstart : start w fs source memory = .ok state)
    (hearlier : Run w h (ofState fs state) earlier u)
    (hfollows : ∀ dir, dir ≠ [] → dir <+: names → dir ≠ names →
      w.FollowsUp (w.classifier.root.pushAll dir) earlier)
    (hlater : Run w h u (later ++ m :: after) t) (hm : m.TellsRemoved w l names u later q) :
    (w.TakesForFile l u.fs m.before.state.dirs names → m.contributed w = [q]) ∧
      (¬w.TakesForFile l u.fs m.before.state.dirs names → m.contributed w = []) ∧
      (m.contributed w ≠ [] → ∃ rules ∈ l.filesAbove u.fs names.dropLast, ∃ r ∈ rules.rules,
        r.dirOnly ∧ r.glob.matches (rules.relative (l.root.pushAll names))) := by
  obtain ⟨p, kind, hclass, hq⟩ := hm.event
  have hrun := hlater.split.1
  have hcurrent (houtside : repositoryDir ∉ names) (dir : List Bytes) (hne : dir ≠ [])
      (hdir : dir <+: names) (hproper : dir ≠ names) :
      u.state.memory.Current u.fs (w.classifier.root.pushAll dir) ∧
        m.before.state.memory.Current m.before.fs (w.classifier.root.pushAll dir) := by
    have hbelow := Layers.below_names fun n hn => hm.isName n (hdir.subset hn)
    have hmem : Component.name repositoryDir ∉ dir.map .name := by
      simpa using fun hmem => houtside (hdir.subset hmem)
    have hu := hearlier.current_of_start hl hfs hmemory hstart hbelow hmem
      (Layers.along_names _ dir ▸ hfollows dir hne hdir hproper)
    refine ⟨?_, ?_⟩
    · rwa [Layers.along_names, hl.root] at hu
    · have hv := hrun.current hl (hearlier.sound hfs) hbelow hmem
        (Settings.followsUp_of_agree fun n hn => ?_) (.inl hu)
      · rwa [Layers.along_names, hl.root] at hv
      · rw [Layers.along_names]
        exact hm.agree n hn dir hne hdir hproper
  have hcontributes : (w.TakesForFile l u.fs m.before.state.dirs names → m.contributed w = [q]) ∧
      (¬w.TakesForFile l u.fs m.before.state.dirs names → m.contributed w = []) := by
    rw [Move.contributed_of_classifies hclass,
      hm.takesForFile_iff hl hcurrent (hrun.agreeAbove hm.agree)]
    -- Receiving the event has counted it, and has left the directories and the memory.
    have hgone := State.contributes_of_gone
      (State.classified_change w m.before.fs m.before.state p kind) hq hm.gone hm.same
    exact hgone
  refine ⟨hcontributes.1, hcontributes.2, fun hreported => ?_⟩
  have hfile := not_imp_comm.mp hcontributes.2 hreported
  exact hfile.onlyAsDir.exists_dirOnly

end Session

-- A run to see it by: in `/w` a rule ignores the directory `d`, which is removed with the file
-- in it.
def ignoredDirectory : FileSystem :=
  ⟨.cons (.ofString "w") (.dir (.cons Ignore.ignoreFileName (.file (Bytes.ofString "d/\n"))
    (.cons (.ofString "d") (.dir (.cons (.ofString "a") (.file []) .nil)) .nil))) .nil, []⟩

theorem sound_ignoredDirectory : ignoredDirectory.Sound := by
  constructor
  · refine ⟨by decide, nofun, ⟨Layers.isName_ignoreFileName, by decide, trivial, by decide, nofun,
      ?_, trivial⟩, trivial⟩
    exact ⟨by decide, nofun, trivial, trivial⟩
  · exact nofun

def directoryRule : Layers :=
  (Layers.ofWorkspace ignoredDirectory (.ofString "/w")).toOption.getD .ofNone

theorem ofWorkspace_ignoredDirectory :
    Layers.ofWorkspace ignoredDirectory (.ofString "/w") = .ok directoryRule :=
  eq_ok_getD (by decide +kernel) _

def Settings.ignoringDirectory : Settings Cache :=
  ⟨⟨.ofString "/w", [], .ofLayers directoryRule⟩, 5, true⟩

theorem renewed_ignoringDirectory : Settings.ignoringDirectory.renewed? ignoredDirectory =
    .ok Settings.ignoringDirectory.classifier := by
  rw [Settings.renewed?, show Settings.ignoringDirectory.classifier.root = .ofString "/w" from rfl,
    ofWorkspace_ignoredDirectory]
  rfl

theorem isLayered_ignoringDirectory :
    Settings.ignoringDirectory.classifier.IsLayered directoryRule where
  oracle := rfl
  root := Layers.root_of_ofWorkspace ofWorkspace_ignoredDirectory
  isAbsolute := by decide

def State.ignoringDirectory : State Cache :=
  (start .ignoringDirectory ignoredDirectory .ofDirectories []).toOption.getD
    { State.watching [] with memory := [] }

theorem start_ignoringDirectory :
    start .ignoringDirectory ignoredDirectory .ofDirectories [] = .ok .ignoringDirectory :=
  eq_ok_getD (by decide +kernel) _

namespace Session

def removal : List Step :=
  [.change (.ofString "/w") (.remove (.ofString "d")), .send (.change (.ofString "/w/d") .remove),
    .drain]

def removalRun : List (Move Cache) × Session Cache :=
  follow .ignoringDirectory .channel removal (ofState ignoredDirectory .ignoringDirectory)

def removalMove : Move Cache where
  before := removalRun.2
  step := .classify
  after := (removalRun.2.step? .ignoringDirectory .channel .classify).getD removalRun.2

theorem run_removal : Run .ignoringDirectory .channel
    (ofState ignoredDirectory .ignoringDirectory) (removalRun.1 ++ removalMove :: [])
      removalMove.after :=
  run_follow_step (by decide +kernel)

theorem classifies_removalMove : removalMove.Classifies (.ofString "/w/d") .remove := by
  decide +kernel

theorem not_between_name {n : Bytes} {dir : List Bytes} (hne : dir ≠ []) (hdir : dir <+: [n]) :
    dir = [n] := by
  obtain ⟨m, rest, rfl⟩ := List.exists_cons_of_ne_nil hne
  obtain ⟨rfl, hrest⟩ := List.cons_prefix_cons.mp hdir
  rw [List.prefix_nil.mp hrest]

theorem tellsRemoved_removalMove : removalMove.TellsRemoved .ignoringDirectory directoryRule
    [.ofString "d"] (ofState ignoredDirectory .ignoringDirectory) removalRun.1 (.ofString "d") where
  proper := by decide
  isName := by decide
  isDir := by decide +kernel
  ignored := by decide +kernel
  agree _ _ dir hne hdir hproper := absurd (not_between_name hne hdir) hproper
  gone := FileSystem.gone_of_dotless (by decide) (by decide) (by decide +kernel)
  event := ⟨_, _, classifies_removalMove, rfl, by decide +kernel, by decide⟩
  same := by decide +kernel

theorem takesForFile_removalMove : Settings.ignoringDirectory.TakesForFile directoryRule
    ignoredDirectory removalMove.before.state.dirs [.ofString "d"] where
  unregistered := by decide +kernel
  outside := by decide
  supported := by decide +kernel
  onlyAsDir :=
    { above := fun dir hne hdir hproper => absurd (not_between_name hne hdir) hproper
      dir := by decide +kernel
      other := by decide +kernel }

theorem contributed_ignored_directory :
    start .ignoringDirectory ignoredDirectory .ofDirectories [] = .ok .ignoringDirectory ∧
      Run .ignoringDirectory .channel (ofState ignoredDirectory .ignoringDirectory)
        (removalRun.1 ++ removalMove :: []) removalMove.after ∧
      removalMove.TellsRemoved .ignoringDirectory directoryRule [.ofString "d"]
        (ofState ignoredDirectory .ignoringDirectory) removalRun.1 (.ofString "d") ∧
      removalMove.contributed .ignoringDirectory = [.ofString "d"] := by
  refine ⟨start_ignoringDirectory, run_removal, tellsRemoved_removalMove, ?_⟩
  refine (contributed_of_removed_ignored isLayered_ignoringDirectory sound_ignoredDirectory
    (fun ds _ => Ignore.Cache.current_nil _ _) start_ignoringDirectory .nil ?_ run_removal
    tellsRemoved_removalMove).1 takesForFile_removalMove
  exact fun dir hne hdir hproper => absurd (not_between_name hne hdir) hproper

theorem not_always_silent_about_ignored : ¬∀ (w : Settings Cache) (h : Handler) (l : Layers)
    (fs : FileSystem) (source : Source) (state : State Cache)
    (earlier later after : List (Move Cache)) (m : Move Cache) (u t : Session Cache)
    (names : List Bytes) (p q : Path),
    w.classifier.root.isAbsolute → w.renewed? fs = .ok w.classifier → w.classifier.IsLayered l →
    fs.Sound → start w fs source [] = .ok state → Run w h (ofState fs state) earlier u →
    Run w h u (later ++ m :: after) t →
    (∀ n ∈ earlier ++ later ++ [m], Layers.SameTop w.classifier.root fs n.before.fs) →
    (∀ n ∈ earlier ++ later, l.AgreeAbove names n.before.fs n.after.fs) →
    m.TellsRemoved w l names u later q → m.Classifies p .remove → m.contributed w = [] := by
  intro h
  have htop : ∀ n ∈ [] ++ removalRun.1 ++ [removalMove],
      Layers.SameTop (.ofString "/w") ignoredDirectory n.before.fs := by decide +kernel
  have hsilent := h .ignoringDirectory .channel directoryRule ignoredDirectory .ofDirectories
    .ignoringDirectory [] removalRun.1 [] removalMove _ _ [.ofString "d"] _ (.ofString "d") rfl
    renewed_ignoringDirectory isLayered_ignoringDirectory sound_ignoredDirectory
    start_ignoringDirectory .nil run_removal htop tellsRemoved_removalMove.agree
    tellsRemoved_removalMove classifies_removalMove
  revert hsilent
  decide +kernel

end Session

end Watch

end ChunkWatch
