import ChunkWatch.Proofs.Walk.Agreement
import ChunkWatch.Proofs.Watch.Memory

namespace ChunkWatch

open Classifier (repositoryDir)
open Ignore (Cache Layers ignoreFileName)
open Ignore.Layers (Below along)

theorem Classifier.IsLayered.components_join {c : Classifier Cache} {l : Layers} {p q : Path}
    (h : c.IsLayered l) (hq : c.relativePath? p = some q) :
    (c.root.join q).components = c.root.components ++ Path.segmentComponents q.bytes := by
  have hbare : q.isAbsolute = false := by
    rw [relativePath?] at hq
    split at hq
    · have hlead := Path.lead_of_stripPrefix? hq (Path.components_ne_nil h.bytes_ne_nil)
      exact (Path.lead_eq_none_iff.mp hlead).1
    next habs =>
      cases hq
      simpa using habs
  exact Path.components_join_segments hbare h.bytes_ne_nil

namespace Watch

variable {σ : Type}

def Settings.renewed? (w : Settings σ) (fs : FileSystem) :
    Except Ignore.Fault (Classifier Cache) :=
  (Layers.ofWorkspace fs w.classifier.root).map fun l =>
    ⟨w.classifier.root, w.classifier.extensions, .ofLayers l⟩

theorem Settings.renewed?_congr {w : Settings σ} {fs fs' : FileSystem}
    (h : Layers.SameTop w.classifier.root fs fs') : w.renewed? fs = w.renewed? fs' := by
  rw [renewed?, renewed?, Layers.ofWorkspace_congr h]

theorem Settings.isLayered_of_renewed? {w : Settings Cache} {fs : FileSystem}
    (hroot : w.classifier.root.isAbsolute) (h : w.renewed? fs = .ok w.classifier) :
    ∃ l, w.classifier.IsLayered l := by
  rw [renewed?] at h
  cases hbuilt : Layers.ofWorkspace fs w.classifier.root with
  | error e =>
    rw [hbuilt] at h
    cases h
  | ok l =>
    rw [hbuilt, Except.map] at h
    have horacle := congrArg Classifier.oracle (Except.ok.inj h)
    exact ⟨l, horacle.symm, Layers.root_of_ofWorkspace hbuilt, hroot⟩

structure Move.Announces (w : Settings σ) (m : Move σ) (q : Path) : Prop where
  classifies : ∃ p kind, m.Classifies p kind ∧ w.Concerns p kind q ∧ kind.isArrival
  isDir : m.before.fs.isDir (w.classifier.root.join q)

def Move.classified? (m : Move σ) : Option (Path × ChangeKind) :=
  match m.step, m.before.intake with
  | .classify, .classifying (.change p kind :: _) _ => some (p, kind)
  | _, _ => none

theorem Move.classified?_eq_some_iff {m : Move σ} {p : Path} {kind : ChangeKind} :
    m.classified? = some (p, kind) ↔ m.Classifies p kind := by
  rw [classified?]
  constructor
  · intro h
    split at h
    next hstep hin =>
      cases h
      exact ⟨_, _, hstep, hin⟩
    · cases h
  · rintro ⟨es, paths, hstep, hin⟩
    rw [hstep, hin]

instance {m : Move σ} {p : Path} {kind : ChangeKind} : Decidable (m.Classifies p kind) :=
  decidable_of_iff _ Move.classified?_eq_some_iff

/-- Changes to the rules of the directories around `q` below the root were followed up, and so were
those of `q` and of the directories found in it, or else these begin with their ignore files. -/
structure Settings.FollowsUpAround (w : Settings Cache) (ms : List (Move Cache)) (fs : FileSystem)
    (q : Path) (found : List SourceEntry) : Prop where
  above : ∀ ds, ds ≠ [] → ds <+: Path.segmentComponents q.bytes →
    ds ≠ Path.segmentComponents q.bytes → w.FollowsUp (along w.classifier.root ds) ms
  found : ∀ ns, ns = [] ∨ ⟨.pushAll ⟨[]⟩ ns, true⟩ ∈ found →
    w.FollowsUp ((along w.classifier.root (Path.segmentComponents q.bytes)).pushAll ns) ms ∨
      fs.firstName? ((w.classifier.root.join q).pushAll ns) = some ignoreFileName

namespace State

variable {w : Settings σ} {fs : FileSystem} {s t : State σ} {p q : Path} {kind : ChangeKind}
  {ps : List Path}

theorem arrive_of_run (w : Settings σ) {q : Path} (h : s.cancelled = false)
    {r : Walk.Progress σ (List SourceEntry)}
    (hr : Walk.run w.classifier fs Walk.collect (w.classifier.root.join q) [] s.memory = .ok r) :
    s.arrive w fs q = ((r.made.reverse.filter (!·.isDir)).map fun e => q.join e.path,
      (w.classifier.root.join q :: (r.made.reverse.filter (·.isDir)).map fun e =>
        (w.classifier.root.join q).join e.path).foldl (register fs)
        { s with memory := r.memory }) := by
  have hscan : s.scan w fs (w.classifier.root.join q)
      = (r.made.reverse, { s with memory := r.memory }) := by rw [scan, hr]
  rw [arrive, hscan]
  dsimp only
  rw [h, if_neg Bool.false_ne_true]

theorem arrived_of_classified (k : Classified w fs s p kind ps t) (hq : w.Concerns p kind q)
    (hdir : fs.isDir (w.classifier.root.join q)) (hkind : kind.isArrival) (hw : w.watchNewDirs)
    {memory : σ}
    (hasked : (w.classifier.shouldIgnoreEntry fs (w.classifier.root.join q) true).run s.memory
      = (false, memory)) :
    ps = ({ s with memory }.arrive w fs q).1 ∧ t = ({ s with memory }.arrive w fs q).2 := by
  cases k with
  | unconcerned hno => exact absurd hq (hno q)
  | forgotten hr hgone =>
    rw [hq.unique hr] at hdir
    exact absurd (FileSystem.exists_of_isDir hdir) hgone
  | ignored hr _ hignored =>
    rw [← hq.unique hr, hdir, hasked] at hignored
    cases hignored
  | file hr _ hfile =>
    rw [← hq.unique hr, hdir] at hfile
    cases hfile
  | arrived hr _ hasked' =>
    rw [← hq.unique hr, hasked] at hasked'
    cases hasked'
    rw [hq.unique hr]
    exact ⟨rfl, rfl⟩
  | touched _ _ _ hno => exact absurd ⟨hkind, hw⟩ hno

end State

namespace Session

variable {w : Settings Cache} {h : Handler} {l : Layers} {fs : FileSystem} {source : Source}
  {memory : Cache} {state : State Cache} {t : Session Cache} {before after : List (Move Cache)}
  {m : Move Cache} {q : Path}

theorem contributed_of_announces (hm : m.Announces w q) (hw : w.watchNewDirs)
    (hopen : m.before.state.cancelled = false) {r : Walk.Progress Cache (List SourceEntry)}
    (hasked : (w.classifier.shouldIgnoreEntry m.before.fs (w.classifier.root.join q) true).run
      m.before.state.memory = (false, memory))
    (hr : Walk.run w.classifier m.before.fs Walk.collect (w.classifier.root.join q) [] memory
      = .ok r) :
    m.contributed w = (r.made.reverse.filter (!·.isDir)).map fun e => q.join e.path := by
  obtain ⟨p, kind, hclass, hq, hkind⟩ := hm.classifies
  have k := State.classified_change w m.before.fs m.before.state p kind
  rw [Move.contributed_of_classifies hclass,
    (State.arrived_of_classified k hq hm.isDir hkind hw hasked).1]
  exact congrArg Prod.fst
    (State.arrive_of_run (s := { m.before.state.receiving with memory }) w hopen hr)

theorem Run.current_of_start (hlayered : w.classifier.IsLayered l) (hfs : fs.Sound)
    (hmemory : Layers.CurrentBelow fs w.classifier.root memory)
    (hstart : start w fs source memory = .ok state) (hrun : Run w h (ofState fs state) before t)
    {cs : List Component} (hcs : Below cs) (houtside : .name repositoryDir ∉ cs)
    (hfollows : w.FollowsUp (along w.classifier.root cs) before) :
    t.state.memory.Current t.fs (along l.root cs) := by
  rw [← hlayered.root] at hmemory hfollows
  exact hrun.current hlayered hfs hcs houtside hfollows
    (.inl (renews_start hlayered hfs hstart cs hcs (hmemory cs hcs)))

theorem isLayeredAt_of_kept (hlayered : w.classifier.IsLayered l) {p : Path}
    (hq : w.classifier.relativePath? p = some q)
    (hkept : ((w.classifier.shouldIgnoreEntry fs (w.classifier.root.join q) true).run []).1
      = false) :
    w.classifier.IsLayeredAt l (w.classifier.root.join q) (Path.segmentComponents q.bytes) := by
  have hcomponents := hlayered.components_join hq
  refine ⟨hlayered, hcomponents, hlayered.isAbsolute_join q, fun hmem => ?_⟩
  rw [← hlayered.absolute_join q] at hcomponents
  have hinside := (hlayered.inRepositoryDir_iff hcomponents).mpr hmem
  rw [Classifier.run_shouldIgnoreEntry, if_pos hinside] at hkept
  cases hkept

/-- When the arrival of a directory is classified, and the workspace's own ignore files read as at
the start, what it contributes are the files that a new classifier with a new oracle finds in the
directory, if it does not ignore it and the changed ignore files around were followed up. -/
theorem contributed_as_fresh (hroot : w.classifier.root.isAbsolute)
    (hbuilt : w.renewed? fs = .ok w.classifier) (hfs : fs.Sound)
    (hmemory : Layers.CurrentBelow fs w.classifier.root memory)
    (hstart : start w fs source memory = .ok state)
    (hrun : Run w h (ofState fs state) (before ++ m :: after) t)
    (htop : Layers.SameTop w.classifier.root fs m.before.fs) (hm : m.Announces w q)
    (hw : w.watchNewDirs) (hopen : m.before.state.cancelled = false) :
    ∃ c, w.renewed? m.before.fs = .ok c ∧
      (((c.shouldIgnoreEntry m.before.fs (c.root.join q) true).run []).1 = false →
        ∃ found, Walk.run c m.before.fs Walk.collect (c.root.join q) [] [] = .ok found ∧
          (w.FollowsUpAround before m.before.fs q found.made → m.contributed w =
            (found.made.reverse.filter (!·.isDir)).map fun e => q.join e.path)) := by
  obtain ⟨l, hlayered⟩ := Settings.isLayered_of_renewed? hroot hbuilt
  rw [Settings.renewed?_congr htop] at hbuilt
  refine ⟨w.classifier, hbuilt, fun hkept => ?_⟩
  obtain ⟨hbefore, -, -⟩ := hrun.split
  have hs : m.before.fs.Sound := hbefore.sound hfs
  obtain ⟨p, kind, -, hq, -⟩ := hm.classifies
  have hat := isLayeredAt_of_kept hlayered hq.relative hkept
  obtain ⟨es, hes⟩ := FileSystem.isDir_iff.mp hm.isDir
  obtain ⟨place, -, hplace⟩ := FileSystem.entry?_iff.mp hes
  obtain ⟨asked, hasked⟩ : ∃ asked,
      ((w.classifier.shouldIgnoreEntry m.before.fs (w.classifier.root.join q) true).run
        m.before.state.memory).2 = asked := ⟨_, rfl⟩
  have hrenews := hlayered.renews m.before.fs (w.classifier.root.join q) true
    m.before.state.memory
  rw [hasked] at hrenews
  obtain ⟨found, hfound, hcollects⟩ := Walk.collects_as_fresh asked hat hes
    (hs.entries hplace) hkept
  refine ⟨found, hfound, fun hfollows => ?_⟩
  have habove (ds : List Component) (hne : ds ≠ []) (hds : ds <+: Path.segmentComponents q.bytes)
      (hproper : ds ≠ Path.segmentComponents q.bytes) :
      m.before.state.memory.Current m.before.fs (along l.root ds) :=
    hbefore.current_of_start hlayered hfs hmemory hstart (hat.below.toward hds)
      (fun hmem => hat.outside (hds.subset hmem)) (hfollows.above ds hne hds hproper)
  have hverdict : (w.classifier.shouldIgnoreEntry m.before.fs (w.classifier.root.join q) true).run
      m.before.state.memory = (false, asked) := by
    have hcomponents := hat.components
    rw [← hlayered.absolute_join q] at hcomponents
    refine Prod.ext ?_ hasked
    exact (hlayered.verdict_eq hcomponents (Layers.sees_of_above habove)).trans hkept
  have hinside (ns : Place) (ds : Entries) (hds : (Entry.dir es).at? ns = some (.dir ds))
      (houtside : repositoryDir ∉ ns) (hns : ns = [] ∨ ⟨.pushAll ⟨[]⟩ ns, true⟩ ∈ found.made) :
      Walk.InOrder l m.before.fs (Path.segmentComponents q.bytes) asked ns ds := by
    refine (hfollows.found ns hns).imp (fun hns => ?_) (FileSystem.eq_cons_of_firstName? hs hes hds)
    have hsound : (Entry.dir es).Sound := hs.entries hplace
    have hbelow := hat.below_names (FileSystem.isName_of_at? hsound hds)
    rw [← Layers.along_names, ← Layers.along_append] at hns
    exact hrenews _ hbelow (hbefore.current_of_start hlayered hfs hmemory hstart hbelow
      (mt hat.name_mem_iff.mp houtside) hns)
  obtain ⟨r, hr, hmade⟩ := hcollects
    (fun ds hne hds hproper => hrenews ds (hat.below.toward hds) (habove ds hne hds hproper))
    hinside
  rw [contributed_of_announces hm hw hopen hverdict hr, hmade]

end Session

-- Two runs to see it by.  The watched `/w/a`, whose rules ignore the file `f`, is removed and
-- comes back with other rules, or without any.
def Settings.layered : Settings Cache := ⟨.ofNone, 5, true⟩

def State.watchingRules : State Cache :=
  (start .layered Layers.withRules .ofDirectories []).toOption.getD
    { State.watching [] with memory := [] }

theorem eq_ok_getD {ε α : Type} {x : Except ε α} (h : x.toOption.isSome) (a : α) :
    x = .ok (x.toOption.getD a) := by
  cases x with
  | error e => cases h
  | ok b => rfl

theorem start_layered :
    start .layered Layers.withRules .ofDirectories [] = .ok State.watchingRules :=
  eq_ok_getD (by decide +kernel) _

theorem renewed_layered : Settings.layered.renewed? Layers.withRules = .ok .ofNone := rfl

namespace Session

def returning (changes : List Change) : List Step :=
  [.change (.ofString "/w") (.remove (.ofString "a")), .send (.change (.ofString "/w/a") .remove),
    .drain, .classify, .accept] ++ changes.map (.change (.ofString "/w")) ++
    [.send (.change (.ofString "/w/a") .create), .drain]

def returningRun (changes : List Change) : List (Move Cache) × Session Cache :=
  follow .layered .channel (returning changes) (ofState Layers.withRules .watchingRules)

def returnMove (changes : List Change) : Move Cache where
  before := (returningRun changes).2
  step := .classify
  after :=
    ((returningRun changes).2.step? .layered .channel .classify).getD (returningRun changes).2

theorem run_returning (changes : List Change)
    (h : ((returningRun changes).2.step? .layered .channel .classify).isSome) :
    Run .layered .channel (ofState Layers.withRules .watchingRules)
      ((returningRun changes).1 ++ [returnMove changes]) (returnMove changes).after :=
  run_follow_step h

theorem announces_return (changes : List Change)
    (hclassifies : (returnMove changes).Classifies (.ofString "/w/a") .create)
    (hdir : (returnMove changes).before.fs.isDir (.ofString "/w/a")) :
    (returnMove changes).Announces .layered (.ofString "a") where
  classifies := ⟨_, _, hclassifies, ⟨rfl, by decide +kernel, by decide⟩, rfl⟩
  isDir := hdir

theorem exists_found {r : Except Error (Walk.Progress σ (List SourceEntry))}
    {made : List SourceEntry} (h : r.toOption.map Walk.Progress.made = some made) :
    ∃ found, r = .ok found ∧ found.made = made := by
  cases r with
  | error e => cases h
  | ok found => exact ⟨found, rfl, Option.some.inj h⟩

theorem followsUpAround_of_first {w : Settings Cache} {ms : List (Move Cache)} {fs : FileSystem}
    {q : Path} {n : Bytes} {found : List SourceEntry}
    (hq : Path.segmentComponents q.bytes = [.name n]) (hfound : ∀ e ∈ found, e.isDir = false)
    (hfirst : fs.firstName? (w.classifier.root.join q) = some ignoreFileName) :
    w.FollowsUpAround ms fs q found where
  above ds hne hds hproper := by
    rw [hq] at hds hproper
    obtain ⟨s, rest, rfl⟩ := List.exists_cons_of_ne_nil hne
    obtain ⟨rfl, hrest⟩ := List.cons_prefix_cons.mp hds
    rw [List.prefix_nil.mp hrest] at hproper
    exact absurd rfl hproper
  found ns hns := by
    rcases hns with rfl | hns
    · exact .inr hfirst
    · cases hfound _ hns

def otherRules : List Change :=
  [.write (.ofString "a/.gitignore") (Bytes.ofString "/g\n"), .write (.ofString "a/f") [],
    .write (.ofString "a/g") []]

theorem contributed_with_other_rules :
    Settings.layered.renewed? Layers.withRules = .ok .ofNone ∧
      start .layered Layers.withRules .ofDirectories [] = .ok .watchingRules ∧
      Run .layered .channel (ofState Layers.withRules .watchingRules)
        ((returningRun otherRules).1 ++ [returnMove otherRules]) (returnMove otherRules).after ∧
      (returnMove otherRules).Announces .layered (.ofString "a") ∧
      (returnMove otherRules).contributed .layered
        = [.ofString "a/.gitignore", .ofString "a/f"] := by
  have hrun := run_returning otherRules (by decide +kernel)
  have hannounces := announces_return otherRules (by decide +kernel) (by decide +kernel)
  have htop : Layers.SameTop (.ofString "/w") Layers.withRules
      (returnMove otherRules).before.fs := by
    decide +kernel
  refine ⟨renewed_layered, start_layered, hrun, hannounces, ?_⟩
  obtain ⟨c, hc, hkept⟩ := contributed_as_fresh (w := .layered) rfl renewed_layered
    Classifier.isLayeredOver_ofNone.sound (fun ds _ => Ignore.Cache.current_nil _ _) start_layered
    hrun htop hannounces rfl (by decide +kernel)
  cases (renewed_layered.symm.trans (Settings.renewed?_congr htop)).trans hc
  obtain ⟨found, hfound, hcontributed⟩ := hkept (by decide +kernel)
  have hmade : (Walk.run Classifier.ofNone (returnMove otherRules).before.fs Walk.collect
      (Classifier.ofNone.root.join (.ofString "a")) [] []).toOption.map Walk.Progress.made
      = some [⟨.ofString "f", false⟩, ⟨.ofString ".gitignore", false⟩] := by
    decide +kernel
  obtain ⟨found', hfound', hmade⟩ := exists_found hmade
  cases hfound.symm.trans hfound'
  have hfiles : ∀ e ∈ found.made, e.isDir = false := by
    rw [hmade]
    decide
  have hfirst : (returnMove otherRules).before.fs.firstName?
      (Classifier.ofNone.root.join (.ofString "a")) = some ignoreFileName := by
    decide +kernel
  rw [hcontributed (followsUpAround_of_first (n := .ofString "a") (by decide +kernel) hfiles
    hfirst), hmade]
  decide +kernel

def bareFile : List Change := [.write (.ofString "a/f") []]

theorem not_always_contributed_as_fresh : ¬∀ (w : Settings Cache) (h : Handler) (fs : FileSystem)
    (source : Source) (state : State Cache) (before after : List (Move Cache)) (m : Move Cache)
    (t : Session Cache) (q : Path) (c : Classifier Cache)
    (found : Walk.Progress Cache (List SourceEntry)), w.classifier.root.isAbsolute →
    w.renewed? fs = .ok w.classifier → fs.Sound → start w fs source [] = .ok state →
    Run w h (ofState fs state) (before ++ m :: after) t →
    (∀ n ∈ before ++ m :: after, Layers.SameTop w.classifier.root fs n.before.fs) →
    m.Announces w q → w.watchNewDirs → m.before.state.cancelled = false →
    w.renewed? m.before.fs = .ok c →
    ((c.shouldIgnoreEntry m.before.fs (c.root.join q) true).run []).1 = false →
    Walk.run c m.before.fs Walk.collect (c.root.join q) [] [] = .ok found →
    m.contributed w = (found.made.reverse.filter (!·.isDir)).map fun e => q.join e.path := by
  intro h
  have hrun := run_returning bareFile (by decide +kernel)
  have hannounces := announces_return bareFile (by decide +kernel) (by decide +kernel)
  have htop : ∀ n ∈ (returningRun bareFile).1 ++ [returnMove bareFile],
      Layers.SameTop (.ofString "/w") Layers.withRules n.before.fs := by
    decide +kernel
  have hrenewed : Settings.layered.renewed? (returnMove bareFile).before.fs = .ok .ofNone :=
    (Settings.renewed?_congr (htop _ (by simp))).symm.trans renewed_layered
  have hmade : (Walk.run Classifier.ofNone (returnMove bareFile).before.fs Walk.collect
      (Classifier.ofNone.root.join (.ofString "a")) [] []).toOption.map Walk.Progress.made
      = some [⟨.ofString "f", false⟩] := by
    decide +kernel
  obtain ⟨found, hfound, hmade⟩ := exists_found hmade
  have hcontributed := h .layered _ _ _ _ _ _ _ _ _ _ found rfl renewed_layered
    Classifier.isLayeredOver_ofNone.sound start_layered hrun htop hannounces rfl
    (by decide +kernel) hrenewed (by decide +kernel) hfound
  rw [hmade] at hcontributed
  revert hcontributed
  decide +kernel

end Session

end Watch

end ChunkWatch
