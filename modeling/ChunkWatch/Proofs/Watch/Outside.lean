import ChunkWatch.Proofs.Watch.Relevance
import ChunkWatch.Proofs.Path.Lexical

/-! Events outside the workspace.  Where a path leads is found by following its `..` without a look
at the file system.  One that leads nowhere below the root has no effect, unless what is left of it
behind the root is spelled with `..` or is a dot: the test of the root looks at the spelling only,
and a relative path is not tested at all. -/

namespace ChunkWatch

namespace Watch

variable {σ : Type} {w : Settings σ} {fs : FileSystem} {s t : State σ} {p q : Path}
  {kind : ChangeKind} {ps : List Path}

theorem Settings.Concerns.mayLeave (h : w.Concerns p kind q)
    (hroot : w.classifier.root.bytes ≠ [])
    (hout : ¬(w.classifier.absolute p).IsBelow w.classifier.root) : q.MayLeave := by
  by_contra hstays
  rw [Path.MayLeave, not_or] at hstays
  obtain ⟨hparent, hdot⟩ := hstays
  have hsegments : .parent ∉ Path.segmentComponents q.bytes := fun hc =>
    hparent (by rw [Path.components_eq]; exact List.mem_append_right _ hc)
  obtain ⟨names, hnames⟩ := Path.exists_names_of_segments hsegments
  have hcomponents : (w.classifier.absolute p).components =
      w.classifier.root.components ++ names.map .name := by
    have hq := h.relative
    rw [Classifier.relativePath?] at hq
    rw [Classifier.absolute, ← hnames]
    split at hq
    next habs =>
      have hbase := Path.components_ne_nil hroot
      rw [if_pos habs, Path.components_of_stripPrefix? hq hbase, Path.components_eq q,
        Path.lead_of_stripPrefix? hq hbase]
      rfl
    next habs =>
      cases hq
      rw [if_neg habs, Path.components_join_segments (by simpa using habs) hroot]
  refine hout (Path.isBelow_of_components ?_ hcomponents)
  rintro rfl
  have hlead := Path.components_eq q
  rw [hnames, List.map_nil, List.append_nil] at hlead
  cases hq : q.lead with
  | none => exact Path.components_ne_nil h.below (by rw [hlead, hq]; rfl)
  | some c =>
    rcases Path.lead_eq_some hq with rfl | rfl
    · have habs := Path.isAbsolute_iff_lead.mpr hq
      rw [h.isAbsolute_eq hroot] at habs
      cases habs
    · exact hdot (by rw [hlead, hq]; rfl)

structure State.Dropped (s : State σ) (r : List Path × State σ) : Prop where
  contributed : r.1 = []
  registered : r.2.dirs ⊆ s.dirs
  source : r.2.source = s.source
  discarded : r.2.stats.discarded = s.stats.discarded + 1

/-- A change is let through at `q` below the root: it is neither of a registered directory that is
gone nor ignored, and if there is a directory, it arrives and arrivals are watched. -/
structure Settings.Admits (w : Settings σ) (fs : FileSystem) (s : State σ) (p : Path)
    (kind : ChangeKind) (q : Path) : Prop where
  concerns : w.Concerns p kind q
  kept : fs.exists? (w.classifier.root.join q) ∨ ¬(w.classifier.root.join q).isIn s.dirs
  passed : ((w.classifier.shouldIgnoreEntry fs (w.classifier.root.join q)
    (fs.isDir (w.classifier.root.join q))).run s.memory).1 = false
  arrived : fs.isDir (w.classifier.root.join q) → kind.isArrival ∧ w.watchNewDirs

namespace State

theorem registerAll_discarded (fs : FileSystem) (dirs : List Path) (s : State σ) :
    (dirs.foldl (register fs) s).stats.discarded = s.stats.discarded := by
  induction dirs generalizing s with
  | nil => rfl
  | cons d ds ih =>
    rw [List.foldl_cons, ih, register]
    split
    · rfl
    · split <;> rfl

theorem arrive_discarded (w : Settings σ) (fs : FileSystem) (q : Path) (s : State σ) :
    (s.arrive w fs q).2.stats.discarded = s.stats.discarded := by
  have hscan : (s.scan w fs (w.classifier.root.join q)).2.stats = s.stats := by
    rw [scan]
    split <;> rfl
  rw [arrive]
  split
  · exact congrArg Stats.discarded hscan
  · rw [registerAll_discarded, hscan]

theorem dropped_iff_of_classified (k : Classified w fs s p kind ps t) :
    s.Dropped (ps, t) ↔ ¬∃ q, w.Admits fs s p kind q := by
  cases k with
  | unconcerned hno =>
    exact ⟨fun _ ⟨q, hq⟩ => hno q hq.concerns, fun _ => ⟨rfl, List.Subset.refl _, rfl, rfl⟩⟩
  | @forgotten q t hq hgone ht =>
    obtain ⟨hin, rfl⟩ := forget?_eq_some_iff.mp ht
    refine ⟨?_, fun _ => ⟨rfl, List.filter_subset_self _, rfl, rfl⟩⟩
    rintro - ⟨r, hr⟩
    cases hq.unique hr.concerns
    exact hr.kept.elim hgone fun hnot => hnot hin
  | @ignored q memory hq hkept hasked =>
    refine ⟨?_, fun _ => ⟨rfl, List.Subset.refl _, rfl, rfl⟩⟩
    rintro - ⟨r, hr⟩
    cases hq.unique hr.concerns
    have hpassed := hr.passed
    rw [hasked] at hpassed
    cases hpassed
  | @file q memory hq hkept hfile hasked =>
    refine ⟨fun h => absurd h.contributed (List.cons_ne_nil _ _), fun h => absurd ⟨q, ?_⟩ h⟩
    refine ⟨hq, hkept, ?_, fun hdir => ?_⟩
    · rw [hfile, hasked]
    · rw [hfile] at hdir
      cases hdir
  | @arrived q memory hq hdir hasked hkind hw =>
    refine ⟨fun h => ?_, fun h => absurd ⟨q, ?_⟩ h⟩
    · have hcount := h.discarded
      rw [arrive_discarded] at hcount
      exact absurd hcount (Nat.ne_of_lt (Nat.lt_succ_self _))
    · refine ⟨hq, .inl (FileSystem.exists_of_isDir hdir), ?_, fun _ => ⟨hkind, hw⟩⟩
      rw [hdir, hasked]
  | @touched q memory hq hdir hasked hno =>
    refine ⟨?_, fun _ => ⟨rfl, List.Subset.refl _, rfl, rfl⟩⟩
    rintro - ⟨r, hr⟩
    cases hq.unique hr.concerns
    exact hno (hr.arrived hdir)

theorem dropped_receiving {r : List Path × State σ} : s.receiving.Dropped r ↔ s.Dropped r := by
  constructor <;> exact fun ⟨hps, hdirs, hsource, hcount⟩ => ⟨hps, hdirs, hsource, hcount⟩

theorem admits_receiving : w.Admits fs s.receiving p kind q ↔ w.Admits fs s p kind q := by
  constructor <;> exact fun ⟨hq, hkept, hpassed, harrived⟩ => ⟨hq, hkept, hpassed, harrived⟩

end State

/-- An event that tells of a place outside the workspace is dropped if and only if it is not let
through as one at a path that is spelled with `..` or is a dot. -/
theorem dropped_outside_iff {fs₀ : FileSystem} {source : Source} {memory₀ : σ} {s₀ : State σ}
    (hstart : start w fs₀ source memory₀ = .ok s₀)
    (hout : ¬(w.classifier.absolute p).IsBelow w.classifier.root) :
    s.Dropped (s.classify w fs (.change p kind)) ↔
      ¬∃ q, w.Admits fs s p kind q ∧ q.MayLeave := by
  rw [← State.dropped_receiving,
    State.dropped_iff_of_classified (s.classified_change w fs p kind)]
  simp only [State.admits_receiving]
  refine not_congr (exists_congr fun q => ⟨fun hq => ⟨hq, ?_⟩, And.left⟩)
  exact hq.concerns.mayLeave (root_ne_nil_of_start hstart) hout

-- A case to see it by: `..` is outside `/w`, and arrives with all that is in it.
theorem not_isBelow_parent :
    ¬((Settings.takingAll (.ofString "/w") 5).classifier.absolute (.ofString "..")).IsBelow
      (.ofString "/w") := by
  rintro ⟨names, -, h⟩
  have hlength := congrArg List.length h
  rw [List.length_append, show (Path.lexical (.ofString "/w")).length = 2 by decide +kernel,
    show (Path.lexical ((Settings.takingAll (.ofString "/w") 5).classifier.absolute
      (.ofString ".."))).length = 1 by decide +kernel] at hlength
  omega

theorem contributes_parent :
    ((State.watching [.ofString "/w", .ofString "/w/d"]).classify (.takingAll (.ofString "/w") 5)
      nestedFile (.change (.ofString "..") .create)).1 = [.ofString "../w/d/a"] := by
  decide +kernel

theorem admits_parent :
    start (.takingAll (.ofString "/w") 5) nestedFile .ofDirectories () =
        .ok (.watching [.ofString "/w", .ofString "/w/d"]) ∧
      ¬((Settings.takingAll (.ofString "/w") 5).classifier.absolute (.ofString "..")).IsBelow
        (.ofString "/w") ∧
      ∃ q, (Settings.takingAll (.ofString "/w") 5).Admits nestedFile
        (.watching [.ofString "/w", .ofString "/w/d"]) (.ofString "..") .create q ∧ q.MayLeave := by
  have hstart : start (.takingAll (.ofString "/w") 5) nestedFile .ofDirectories () =
      .ok (.watching [.ofString "/w", .ofString "/w/d"]) := rfl
  refine ⟨hstart, not_isBelow_parent, ?_⟩
  by_contra hno
  have hdropped := (dropped_outside_iff hstart not_isBelow_parent).mpr hno
  exact absurd (contributes_parent.symm.trans hdropped.contributed) (List.cons_ne_nil _ _)

theorem not_always_dropped_outside : ¬∀ (w : Settings Unit) (fs : FileSystem) (source : Source)
    (state : State Unit) (p : Path) (kind : ChangeKind), fs.Sound →
    start w fs source () = .ok state → ¬(w.classifier.absolute p).IsBelow w.classifier.root →
    state.Dropped (state.classify w fs (.change p kind)) := by
  intro h
  have hdropped := h (.takingAll (.ofString "/w") 5) nestedFile .ofDirectories
    (.watching [.ofString "/w", .ofString "/w/d"]) (.ofString "..") .create sound_nestedFile rfl
    not_isBelow_parent
  exact absurd (contributes_parent.symm.trans hdropped.contributed) (List.cons_ne_nil _ _)

end Watch

end ChunkWatch
