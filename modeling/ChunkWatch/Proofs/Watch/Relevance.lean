import ChunkWatch.Proofs.Watch.Likeness
import ChunkWatch.Proofs.Watch.Memory

namespace ChunkWatch

open Component (IsName)
open ChunkWatch.Path (segmentComponents)

variable {σ : Type}

/-- Keeps a record of the questions, each with what was remembered when it was asked. -/
def Oracle.recorded (o : Oracle σ) : Oracle (σ × List (Path × σ)) := fun fs p m =>
  let r := (o fs p).run m.1
  (r.1, r.2, m.2 ++ [(p, m.1)])

namespace Classifier

def recorded (c : Classifier σ) : Classifier (σ × List (Path × σ)) :=
  ⟨c.root, c.extensions, c.oracle.recorded⟩

theorem alike_recorded (c : Classifier σ) : c.Alike (fun m n => m = n.1) c.recorded :=
  ⟨rfl, rfl, fun _ _ _ _ h => by rw [h]; exact ⟨rfl, rfl⟩⟩

variable {c : Classifier σ} {fs : FileSystem} {p q : Path} {isDir : Bool}

/-- The oracle was asked about a path, and the path passed as a file. -/
def Passes (c : Classifier σ) (fs : FileSystem) (p : Path) (record : List (Path × σ)) : Prop :=
  ∃ memory, (c.absolute p, memory) ∈ record ∧
    ((c.shouldIgnoreEntry fs p false).run memory).1 = false

theorem Passes.mono {record record' : List (Path × σ)} (h : c.Passes fs p record)
    (k : record ⊆ record') : c.Passes fs p record' := by
  obtain ⟨memory, hmem, hpass⟩ := h
  exact ⟨memory, k hmem, hpass⟩

theorem record_subset (c : Classifier σ) (fs : FileSystem) (p : Path) (isDir : Bool)
    (m : σ × List (Path × σ)) :
    m.2 ⊆ ((c.recorded.shouldIgnoreEntry fs p isDir).run m).2.2 := by
  rw [run_shouldIgnoreEntry]
  split
  · exact List.Subset.refl _
  · exact List.subset_append_left _ _

theorem passes_of_asked {m m' : σ × List (Path × σ)}
    (h : (c.recorded.shouldIgnoreEntry fs p false).run m = (false, m')) : c.Passes fs p m'.2 := by
  have hplain := (c.alike_recorded.asked fs p false (rfl : m.1 = m.1)).1
  rw [h] at hplain
  refine ⟨m.1, ?_, hplain⟩
  rw [run_shouldIgnoreEntry] at h
  split at h
  · cases h
  · rw [← show _ = m' from congrArg Prod.snd h]
    exact List.mem_append_right _ (List.mem_singleton_self _)

theorem components_absolute_join (hroot : c.root.bytes ≠ []) (hq : q.isAbsolute = false) :
    ∃ cs, (c.absolute (c.root.join q)).components = cs ++ segmentComponents q.bytes := by
  rw [absolute]
  split
  · exact ⟨_, Path.components_join_segments hq hroot⟩
  · rw [Path.join_assoc hroot]
    exact ⟨_, Path.components_join_segments hq (Path.join_ne_nil _ hroot)⟩

theorem relativePath?_absolute_join (hroot : c.root.bytes ≠ []) (hq : q.isAbsolute = false) :
    ∃ r cs, c.relativePath? (c.absolute (c.root.join q)) = some r ∧
      r.components = cs ++ segmentComponents q.bytes := by
  cases hrooted : c.root.isAbsolute with
  | true =>
    have habs : (c.root.join q).isAbsolute := (Path.isAbsolute_join hq hroot).trans hrooted
    obtain ⟨r, hr, hcomponents⟩ := Path.stripPrefix?_of_components
      (Path.components_ne_nil hroot) (Path.components_join_segments hq hroot)
    exact ⟨r, [], by rw [absolute, if_pos habs, relativePath?, if_pos habs, hr], hcomponents⟩
  | false =>
    have hjoin : (c.root.join q).isAbsolute = false :=
      (Path.isAbsolute_join hq hroot).trans hrooted
    have habs : (c.absolute (c.root.join q)).isAbsolute = false := by
      rw [absolute, hjoin, if_neg Bool.false_ne_true, Path.isAbsolute_join hjoin hroot, hrooted]
    obtain ⟨cs, hcomponents⟩ := components_absolute_join hroot hq
    exact ⟨_, cs, by rw [relativePath?, habs, if_neg Bool.false_ne_true], hcomponents⟩

theorem inRepositoryDir_of_join (hroot : c.root.bytes ≠ []) (hq : q.isAbsolute = false)
    (h : inRepositoryDir q) : inRepositoryDir
      ((c.relativePath? (c.absolute (c.root.join q))).getD (c.absolute (c.root.join q))) := by
  obtain ⟨r, cs, hr, hcomponents⟩ := relativePath?_absolute_join hroot hq
  rw [inRepositoryDir, List.contains_iff_mem, Path.components_eq, List.mem_append,
    Option.mem_toList] at h
  rw [hr, Option.getD_some, inRepositoryDir, List.contains_iff_mem, hcomponents]
  refine List.mem_append_right _ (h.resolve_left fun hlead => ?_)
  rcases Path.lead_eq_some hlead with heq | heq <;> cases heq

theorem isSupported_of_join (hroot : c.root.bytes ≠ []) (hq : q.isAbsolute = false)
    (h : c.isSupported (c.absolute (c.root.join q))) : c.isSupported q := by
  obtain ⟨cs, hcomponents⟩ := components_absolute_join hroot hq
  by_cases hnil : segmentComponents q.bytes = []
  · -- Such a path is made of dots and has no name.
    have hname : q.fileName? = none := by
      rw [Path.fileName?, Path.components_eq, hnil, List.append_nil]
      cases hlead : q.lead with
      | none => rfl
      | some d => rcases Path.lead_eq_some hlead with rfl | rfl <;> rfl
    rw [isSupported, Path.extension?, hname]
    rfl
  · have hname : (c.absolute (c.root.join q)).fileName? = q.fileName? := by
      rw [Path.fileName?, Path.fileName?, hcomponents, Path.components_eq q,
        List.getLast?_append_of_ne_nil _ hnil, List.getLast?_append_of_ne_nil _ hnil]
    rwa [isSupported, Path.extension?, hname] at h

theorem kept_of_join (hroot : c.root.bytes ≠ []) (hq : q.isAbsolute = false) {memory : σ}
    (h : ((c.shouldIgnoreEntry fs (c.root.join q) false).run memory).1 = false) :
    .name repositoryDir ∉ q.components ∧
      ((c.oracle fs (c.absolute (c.root.join q))).run memory).1 = false ∧ c.isSupported q := by
  rw [run_shouldIgnoreEntry] at h
  split at h
  · cases h
  next houtside =>
    simp only [Bool.or_eq_false_iff, Bool.not_false, Bool.true_and, Bool.not_eq_false'] at h
    refine ⟨fun hmem => houtside (inRepositoryDir_of_join hroot hq ?_), h.1,
      isSupported_of_join hroot hq h.2⟩
    rwa [inRepositoryDir, List.contains_iff_mem]

end Classifier

namespace Walk

variable {c : Classifier σ} {fs : FileSystem} {start : Path}

def Vouched (c : Classifier σ) (fs : FileSystem) (start : Path) (record : List (Path × σ))
    (e : SourceEntry) : Prop :=
  e.isDir = false → ∃ names, names ≠ [] ∧ (∀ n ∈ names, IsName n) ∧ e.path = .pushAll ⟨[]⟩ names ∧
    c.Passes fs (start.pushAll names) record

theorem Vouched.mono {record record' : List (Path × σ)} {e : SourceEntry}
    (h : Vouched c fs start record e) (k : record ⊆ record') : Vouched c fs start record' e := by
  intro hleaf
  obtain ⟨names, hne, hnames, hpath, hpasses⟩ := h hleaf
  exact ⟨names, hne, hnames, hpath, hpasses.mono k⟩

theorem tracks_vouched (c : Classifier σ) (fs : FileSystem) (start : Path) :
    Tracks c.recorded fs start collect fun memory made =>
      ∀ e ∈ made, Vouched c fs start memory.2 e where
  asked isDir _ h e he := (h e he).mono (c.record_subset ..)
  visited isDir hne hnames h hkept hmade := by
    cases hmade
    refine List.forall_mem_cons.mpr
      ⟨fun hleaf => ?_, fun e he => (h e he).mono (c.record_subset ..)⟩
    cases hleaf
    exact ⟨_, hne, hnames, rfl, Classifier.passes_of_asked (Prod.ext hkept rfl)⟩

theorem root_ne_nil_of_run {τ : Type} {visit : Visitor Error τ} {root : Path} {made : τ} {m : σ}
    {p : Progress σ τ} (h : run c fs visit root made m = .ok p) : root.bytes ≠ [] := by
  intro hnil
  have hentries : entriesAt fs root = .error .notFound := by
    rw [entriesAt, FileSystem.entry?, FileSystem.resolve, if_pos hnil]
    rfl
  rw [run, hentries] at h
  cases h

end Walk

namespace Watch

variable {w : Settings σ} {fs : FileSystem} {s t : State σ} {p q r : Path} {kind : ChangeKind}

theorem root_ne_nil_of_start {source : Source} {memory : σ}
    (h : start w fs source memory = .ok s) : w.classifier.root.bytes ≠ [] := by
  rw [start] at h
  dsimp only at h
  split at h
  · cases h
  next hdirs =>
    rw [Walk.relevantDirs] at hdirs
    generalize hfound : Walk.run w.classifier fs _ _ _ _ = found at hdirs
    cases found with
    | error e => cases hdirs
    | ok p => exact Walk.root_ne_nil_of_run hfound

theorem Settings.Concerns.isAbsolute_eq (h : w.Concerns p kind q)
    (hroot : w.classifier.root.bytes ≠ []) : q.isAbsolute = false := by
  have hq := h.relative
  rw [Classifier.relativePath?] at hq
  split at hq
  · have hlead := Path.lead_of_stripPrefix? hq (Path.components_ne_nil hroot)
    exact (Path.lead_eq_none_iff.mp hlead).1
  next habs =>
    cases hq
    simpa using habs

def Settings.recorded (w : Settings σ) : Settings (σ × List (Path × σ)) :=
  ⟨w.classifier.recorded, w.debounce, w.watchNewDirs⟩

namespace State

def recording (s : State σ) : State (σ × List (Path × σ)) where
  memory := (s.memory, [])
  pending := s.pending
  timer := s.timer
  generation := s.generation
  closed := s.closed
  cancelled := s.cancelled
  source := s.source
  dirs := s.dirs
  stats := s.stats
  waiting := s.waiting

def questions (w : Settings σ) (fs : FileSystem) (s : State σ) (e : Event) : List (Path × σ) :=
  (s.recording.classify w.recorded fs e).2.memory.2

theorem alike_classify_recorded (w : Settings σ) (fs : FileSystem) (s : State σ) (e : Event) :
    (s.classify w fs e).1 = (s.recording.classify w.recorded fs e).1 ∧
      (s.classify w fs e).2.Alike (fun m n => m = n.1)
        (s.recording.classify w.recorded fs e).2 :=
  Alike.classify (v := w.recorded) w.classifier.alike_recorded rfl
    ⟨rfl, rfl, rfl, rfl, rfl, rfl, rfl, rfl, rfl, rfl, rfl, rfl⟩ fs e

theorem vouched_of_scan (hs : fs.Sound) (s : State (σ × List (Path × σ))) (dir : Path) :
    ∀ e ∈ (s.scan w.recorded fs dir).1,
      Walk.Vouched w.classifier fs dir (s.scan w.recorded fs dir).2.memory.2 e := by
  rw [scan]
  split
  next p hp =>
    have hmade := (Walk.tracks_vouched w.classifier fs dir).run hs hp (List.forall_mem_nil _)
    exact fun e he => hmade e (List.mem_reverse.mp he)
  · exact List.forall_mem_nil _

theorem passes_of_classified (hs : fs.Sound) (hroot : w.classifier.root.bytes ≠ [])
    {s t : State (σ × List (Path × σ))} {ps : List Path}
    (k : Classified w.recorded fs s p kind ps t) (hr : r ∈ ps) : r.bytes ≠ [] ∧
      r.isAbsolute = false ∧ w.classifier.Passes fs (w.classifier.root.join r) t.memory.2 := by
  cases k with
  | @file q memory hq _ _ hasked =>
    cases List.mem_singleton.mp hr
    exact ⟨hq.below, hq.isAbsolute_eq hroot, Classifier.passes_of_asked hasked⟩
  | @arrived q memory hq =>
    obtain ⟨-, e, he, hleaf, rfl⟩ := mem_arrive_iff.mp hr
    obtain ⟨names, hne, hnames, hpath, hpasses⟩ := vouched_of_scan hs _ _ e he hleaf
    have hbare : e.path.isAbsolute = false := by
      rw [hpath, Path.isAbsolute_pushAll hnames]
      rfl
    refine ⟨?_, (Path.isAbsolute_join hbare hq.below).trans (hq.isAbsolute_eq hroot), ?_⟩
    · rw [Path.join, hbare, if_neg Bool.false_ne_true]
      split <;> simp [hq.below]
    · rw [arrive_memory, Path.join_join _ hq.below hbare, hpath,
        Path.join_pushAll_empty _ hne hnames]
      exact hpasses
  | _ => cases hr

theorem classify_eq_nil_of_unconcerned {e : Event} (h : ∀ p kind q, e = .change p kind →
    ¬w.Concerns p kind q) : (s.classify w fs e).1 = [] := by
  cases e with
  | error reason => rfl
  | change p kind =>
    have k := s.classified_change w fs p kind
    generalize (s.classify w fs (.change p kind)).1 = ps at k ⊢
    generalize (s.classify w fs (.change p kind)).2 = t at k
    cases k with
    | unconcerned => rfl
    | forgotten => rfl
    | ignored => rfl
    | file hq => exact absurd hq (h p kind _ rfl)
    | arrived hq => exact absurd hq (h p kind _ rfl)
    | touched => rfl

end State

structure Relevant (w : Settings σ) (fs : FileSystem) (s : State σ) (e : Event) (q : Path) :
    Prop where
  below : q.bytes ≠ []
  relative : q.isAbsolute = false
  outside : .name Classifier.repositoryDir ∉ q.components
  supported : w.classifier.isSupported q
  asked : ∃ memory,
    (w.classifier.absolute (w.classifier.root.join q), memory) ∈ s.questions w fs e ∧
    ((w.classifier.oracle fs (w.classifier.absolute (w.classifier.root.join q))).run memory).1
      = false ∧
    ((w.classifier.shouldIgnoreEntry fs (w.classifier.root.join q) false).run memory).1 = false

/-- Every path that an event contributes to a watcher is relevant; other kinds of changes, and those
at absolute paths that do not begin with the root, contribute nothing. -/
theorem relevant_of_classify {fs₀ : FileSystem} {source : Source} {memory₀ : σ} {s₀ : State σ}
    (hstart : start w fs₀ source memory₀ = .ok s₀) (hs : fs.Sound) (s : State σ) (e : Event) :
    (∀ q ∈ (s.classify w fs e).1, Relevant w fs s e q) ∧
      ∀ p kind, e = .change p kind →
        kind = .metadata ∨ kind = .other ∨ p.isAbsolute ∧ ¬p.startsWith w.classifier.root →
        (s.classify w fs e).1 = [] := by
  have hroot := root_ne_nil_of_start hstart
  constructor
  · intro q hq
    rw [(s.alike_classify_recorded w fs e).1] at hq
    cases e with
    | error reason => cases hq
    | change p kind =>
      obtain ⟨hbelow, hbare, memory, hasked, hpasses⟩ :=
        State.passes_of_classified hs hroot (State.classified_change ..) hq
      obtain ⟨houtside, hanswer, hsupported⟩ := Classifier.kept_of_join hroot hbare hpasses
      exact ⟨hbelow, hbare, houtside, hsupported, memory, hasked, hanswer, hpasses⟩
  · rintro p kind rfl h
    apply State.classify_eq_nil_of_unconcerned
    rintro p' kind' q ⟨⟩ hq
    rcases h with rfl | rfl | ⟨habs, hno⟩
    · cases hq.content
    · cases hq.content
    · have hrelative := hq.relative
      rw [Classifier.relativePath?, if_pos habs] at hrelative
      exact hno ((Path.stripPrefix?_isSome_iff (Path.components_ne_nil hroot)).mp
        (Option.isSome_of_eq_some hrelative))

theorem relevant_in_arrived :
    start (.takingAll (.ofString "/w") 5) nestedFile .ofDirectories () =
        .ok (.watching [.ofString "/w", .ofString "/w/d"]) ∧
      ((State.watching [.ofString "/w", .ofString "/w/d"]).classify (.takingAll (.ofString "/w") 5)
        nestedFile (.change (.ofString "d") .create)).1 = [.ofString "d/a"] ∧
      Relevant (.takingAll (.ofString "/w") 5) nestedFile
        (.watching [.ofString "/w", .ofString "/w/d"]) (.change (.ofString "d") .create)
        (.ofString "d/a") := by
  have hfound : ((State.watching [.ofString "/w", .ofString "/w/d"]).classify
      (.takingAll (.ofString "/w") 5) nestedFile (.change (.ofString "d") .create)).1 =
        [.ofString "d/a"] := by decide +kernel
  have hstart : start (.takingAll (.ofString "/w") 5) nestedFile .ofDirectories () =
      .ok (.watching [.ofString "/w", .ofString "/w/d"]) := rfl
  refine ⟨hstart, hfound, (relevant_of_classify hstart sound_nestedFile _ _).1 _ ?_⟩
  rw [hfound]
  exact List.mem_singleton_self _

end Watch

end ChunkWatch
