import ChunkWatch.Proofs.FileSystem.Above
import ChunkWatch.Proofs.Walk
import ChunkWatch.Proofs.Watch.Classify

namespace ChunkWatch

namespace Watch

variable {σ : Type}

def Settings.Lists (w : Settings σ) (d : Path) (ps : List Path) : Prop :=
  ∃ q ∈ ps, (w.classifier.root.join q).same d

theorem Settings.lists_singleton {w : Settings σ} {d q : Path} :
    w.Lists d [q] ↔ (w.classifier.root.join q).same d := by
  simp [Lists]

@[simp] theorem Settings.not_lists_nil (w : Settings σ) (d : Path) : ¬w.Lists d [] := by
  simp [Lists]

theorem Settings.Lists.mono {w : Settings σ} {d : Path} {ps qs : List Path} (h : w.Lists d ps)
    (k : ps ⊆ qs) : w.Lists d qs := by
  obtain ⟨q, hq, hsame⟩ := h
  exact ⟨q, k hq, hsame⟩

theorem Settings.lists_append {w : Settings σ} {d : Path} {ps qs : List Path} :
    w.Lists d (ps ++ qs) ↔ w.Lists d ps ∨ w.Lists d qs := by
  simp [Lists, or_and_right, exists_or]

namespace State

variable {w : Settings σ} {fs : FileSystem} {s : State σ} {d : Path}

theorem isIn_register (h : fs.Gone d) {dir : Path} (k : fs.isDir dir) :
    d.isIn (s.register fs dir).dirs ↔ d.isIn s.dirs := by
  have hne : ¬d.same dir := by
    intro hsame
    rw [h.isDir (Path.same_symm hsame)] at k
    cases k
  rw [register]
  split
  · exact Iff.rfl
  · split
    · exact Iff.rfl
    · simp [countStats, hne]

theorem isIn_registerAll (h : fs.Gone d) {dirs : List Path} (k : ∀ dir ∈ dirs, fs.isDir dir) :
    d.isIn (dirs.foldl (register fs) s).dirs ↔ d.isIn s.dirs := by
  induction dirs generalizing s with
  | nil => exact Iff.rfl
  | cons dir dirs ih =>
    rw [List.foldl_cons, ih fun e he => k e (List.mem_cons_of_mem dir he),
      isIn_register h (k dir List.mem_cons_self)]

theorem isAt_of_scan (hs : fs.Sound) {dir : Path} (hdir : fs.isDir dir) :
    (∀ e ∈ (s.scan w fs dir).1, e.IsAt fs dir) ∧ (s.scan w fs dir).2.dirs = s.dirs := by
  rw [scan]
  split
  next p hp =>
    have hvisit : Walk.Holds Walk.collect fs dir fun es => ∀ e ∈ es, e.IsAt fs dir := by
      intro e made made' he hmade hI
      cases hmade
      exact List.forall_mem_cons.mpr ⟨he, hI⟩
    have hmade := Walk.run_keeps hs hvisit hdir hp (List.forall_mem_nil _)
    exact ⟨fun e he => hmade e (List.mem_reverse.mp he), rfl⟩
  · exact ⟨List.forall_mem_nil _, rfl⟩

theorem arrive_of_gone (hs : fs.Sound) (h : fs.Gone d) {q : Path} (hq : q.bytes ≠ [])
    (hdir : fs.isDir (w.classifier.root.join q)) :
    (d.isIn (s.arrive w fs q).2.dirs ↔ d.isIn s.dirs) ∧ ¬w.Lists d (s.arrive w fs q).1 := by
  obtain ⟨hfound, hdirs⟩ := isAt_of_scan (w := w) (s := s) hs hdir
  rw [arrive]
  dsimp only
  split
  · rw [hdirs]
    exact ⟨Iff.rfl, w.not_lists_nil d⟩
  · constructor
    · rw [isIn_registerAll h, hdirs]
      intro dir hdir'
      rcases List.mem_cons.mp hdir' with rfl | hdir'
      · exact hdir
      · obtain ⟨e, he, rfl⟩ := List.mem_map.mp hdir'
        obtain ⟨he, hisDir⟩ := List.mem_filter.mp he
        exact (hfound e he).dir hisDir
    · rintro ⟨p, hp, hsame⟩
      obtain ⟨e, he, rfl⟩ := List.mem_map.mp hp
      have hat := hfound e (List.mem_filter.mp he).1
      obtain ⟨f, hf, -⟩ := hat.entry
      rw [Path.join_join _ hq hat.bare] at hsame
      exact h _ hsame f hf

end State

/-- A change is about a registered directory that is gone, which is `d` or above it. -/
def Settings.Forgets (w : Settings σ) (fs : FileSystem) (s : State σ) (p : Path)
    (kind : ChangeKind) (d : Path) : Prop :=
  ∃ q, w.Concerns p kind q ∧ (w.classifier.root.join q).isIn s.dirs ∧
    ¬fs.exists? (w.classifier.root.join q) ∧ d.startsWith (w.classifier.root.join q)

/-- A change is about `d`, and the classifier does not ignore it as a file. -/
def Settings.Reports (w : Settings σ) (fs : FileSystem) (s : State σ) (p : Path)
    (kind : ChangeKind) (d : Path) : Prop :=
  ∃ q, w.Concerns p kind q ∧ (w.classifier.root.join q).same d ∧
    ((w.classifier.shouldIgnoreEntry fs (w.classifier.root.join q) false).run s.memory).1 = false

theorem Settings.Concerns.unique {w : Settings σ} {p q r : Path} {kind : ChangeKind}
    (h : w.Concerns p kind q) (k : w.Concerns p kind r) : q = r :=
  Option.some.inj (h.relative.symm.trans k.relative)

namespace Settings.Concerns

variable {w : Settings σ} {fs : FileSystem} {s : State σ} {d p q : Path} {kind : ChangeKind}

theorem forgets_iff (hq : w.Concerns p kind q) : w.Forgets fs s p kind d ↔
    (w.classifier.root.join q).isIn s.dirs ∧ ¬fs.exists? (w.classifier.root.join q) ∧
      d.startsWith (w.classifier.root.join q) := by
  constructor
  · rintro ⟨r, hr, hforgets⟩
    rwa [hq.unique hr]
  · exact fun hforgets => ⟨q, hq, hforgets⟩

theorem reports_iff (hq : w.Concerns p kind q) : w.Reports fs s p kind d ↔
    (w.classifier.root.join q).same d ∧
      ((w.classifier.shouldIgnoreEntry fs (w.classifier.root.join q) false).run s.memory).1
        = false := by
  constructor
  · rintro ⟨r, hr, hreports⟩
    rwa [hq.unique hr]
  · exact fun hreports => ⟨q, hq, hreports⟩

end Settings.Concerns

namespace State

variable {w : Settings σ} {fs : FileSystem} {s t : State σ} {d p : Path} {kind : ChangeKind}
  {ps : List Path}

theorem isIn_filter_startsWith {e : Path} {dirs : List Path} :
    d.isIn (dirs.filter fun x => !x.startsWith e) ↔ d.isIn dirs ∧ ¬d.startsWith e := by
  simp only [Path.isIn_iff, List.mem_filter]
  constructor
  · rintro ⟨x, ⟨hx, hstarts⟩, hsame⟩
    refine ⟨⟨x, hx, hsame⟩, ?_⟩
    rw [Path.startsWith_congr hsame]
    simpa using hstarts
  · rintro ⟨⟨x, hx, hsame⟩, hstarts⟩
    refine ⟨x, ⟨hx, ?_⟩, hsame⟩
    rw [Path.startsWith_congr hsame] at hstarts
    simpa using hstarts

theorem isIn_dirs_of_classified (hs : fs.Sound) (h : fs.Gone d)
    (k : Classified w fs s p kind ps t) :
    d.isIn t.dirs ↔ d.isIn s.dirs ∧ ¬w.Forgets fs s p kind d := by
  have still (hnot : ¬w.Forgets fs s p kind d) :
      d.isIn s.dirs ↔ d.isIn s.dirs ∧ ¬w.Forgets fs s p kind d := by
    rw [and_iff_left hnot]
  cases k with
  | unconcerned hno => exact still fun ⟨q, hq, _⟩ => hno q hq
  | @forgotten q t hq hgone ht =>
    obtain ⟨hin, rfl⟩ := forget?_eq_some_iff.mp ht
    rw [hq.forgets_iff, and_iff_right hin, and_iff_right hgone]
    exact isIn_filter_startsWith
  | ignored hq hkept =>
    apply still
    rw [hq.forgets_iff]
    rintro ⟨hin, hgone, -⟩
    exact hkept.elim hgone (absurd hin)
  | file hq hkept =>
    apply still
    rw [hq.forgets_iff]
    rintro ⟨hin, hgone, -⟩
    exact hkept.elim hgone (absurd hin)
  | arrived hq hdir =>
    rw [(arrive_of_gone hs h hq.below hdir).1]
    apply still
    rw [hq.forgets_iff]
    rintro ⟨-, hgone, -⟩
    exact hgone (FileSystem.exists_of_isDir hdir)
  | touched hq hdir =>
    apply still
    rw [hq.forgets_iff]
    rintro ⟨-, hgone, -⟩
    exact hgone (FileSystem.exists_of_isDir hdir)

theorem lists_of_classified (hs : fs.Sound) (h : fs.Gone d)
    (k : Classified w fs s p kind ps t) :
    w.Lists d ps ↔ w.Reports fs s p kind d ∧ ¬d.isIn s.dirs := by
  have none (hnot : w.Reports fs s p kind d → d.isIn s.dirs) :
      w.Lists d [] ↔ w.Reports fs s p kind d ∧ ¬d.isIn s.dirs := by
    rw [iff_false_left (w.not_lists_nil d), not_and_not_right]
    exact hnot
  cases k with
  | unconcerned hno => exact none fun ⟨q, hq, _⟩ => absurd hq (hno q)
  | forgotten hq hgone ht =>
    apply none
    rw [hq.reports_iff]
    rintro ⟨hsame, -⟩
    exact Path.isIn_of_same (Path.same_symm hsame) (forget?_eq_some_iff.mp ht).1
  | ignored hq hkept hignored =>
    apply none
    rw [hq.reports_iff]
    rintro ⟨hsame, hkeeps⟩
    rw [h.isDir hsame] at hignored
    rw [hignored] at hkeeps
    cases hkeeps
  | @file q memory hq hkept _ hkeeps =>
    rw [hq.reports_iff, hkeeps, and_iff_left rfl, Settings.lists_singleton, iff_self_and]
    intro hsame hin
    rcases hkept with hexists | hkept
    · rw [h.exists? hsame] at hexists
      cases hexists
    · exact hkept (Path.isIn_of_same hsame hin)
  | arrived hq hdir =>
    rw [hq.reports_iff, iff_false_left (arrive_of_gone hs h hq.below hdir).2]
    rintro ⟨⟨hsame, -⟩, -⟩
    rw [h.isDir hsame] at hdir
    cases hdir
  | touched hq hdir =>
    apply none
    rw [hq.reports_iff]
    rintro ⟨hsame, -⟩
    rw [h.isDir hsame] at hdir
    cases hdir

theorem isIn_dirs_classify (hs : fs.Sound) (h : fs.Gone d) :
    d.isIn (s.classify w fs (.change p kind)).2.dirs ↔
      d.isIn s.dirs ∧ ¬w.Forgets fs s p kind d := by
  have hdirs := isIn_dirs_of_classified hs h (classified_change w fs s p kind)
  exact hdirs

theorem lists_classify (hs : fs.Sound) (h : fs.Gone d) :
    w.Lists d (s.classify w fs (.change p kind)).1 ↔
      w.Reports fs s p kind d ∧ ¬d.isIn s.dirs := by
  have hlists := lists_of_classified hs h (classified_change w fs s p kind)
  exact hlists

end State

end Watch

end ChunkWatch
