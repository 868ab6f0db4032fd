import ChunkWatch.Proofs.Classifier
import ChunkWatch.Proofs.Walk
import ChunkWatch.Proofs.Watch.Classify

namespace ChunkWatch

variable {σ τ α ε : Type}

/-- Two classifiers of one workspace whose oracles give the same answers as long as what they
remember is related. -/
structure Classifier.Alike (R : σ → τ → Prop) (c : Classifier σ) (d : Classifier τ) : Prop where
  root : c.root = d.root
  extensions : c.extensions = d.extensions
  answers : ∀ fs p {m n}, R m n → ((c.oracle fs p).run m).1 = ((d.oracle fs p).run n).1 ∧
    R ((c.oracle fs p).run m).2 ((d.oracle fs p).run n).2

theorem Classifier.Alike.refl (c : Classifier σ) : c.Alike Eq c :=
  ⟨rfl, rfl, fun _ _ _ _ h => by rw [h]; exact ⟨rfl, rfl⟩⟩

variable {R : σ → τ → Prop} {c : Classifier σ} {d : Classifier τ} {fs : FileSystem}

namespace Classifier.Alike

theorem relativePath? (h : c.Alike R d) (p : Path) : c.relativePath? p = d.relativePath? p := by
  rw [Classifier.relativePath?, Classifier.relativePath?, h.root]

theorem absolute (h : c.Alike R d) (p : Path) : c.absolute p = d.absolute p := by
  rw [Classifier.absolute, Classifier.absolute, h.root]

theorem isSupported (h : c.Alike R d) (p : Path) : c.isSupported p = d.isSupported p := by
  rw [Classifier.isSupported, Classifier.isSupported, h.extensions]

theorem asked (h : c.Alike R d) (fs : FileSystem) (p : Path) (isDir : Bool) {m : σ} {n : τ}
    (hmemory : R m n) :
    ((c.shouldIgnoreEntry fs p isDir).run m).1 = ((d.shouldIgnoreEntry fs p isDir).run n).1 ∧
      R ((c.shouldIgnoreEntry fs p isDir).run m).2 ((d.shouldIgnoreEntry fs p isDir).run n).2 := by
  rw [run_shouldIgnoreEntry, run_shouldIgnoreEntry, h.absolute, h.relativePath?, h.isSupported]
  split
  · exact ⟨rfl, hmemory⟩
  · obtain ⟨hanswer, hafter⟩ := h.answers fs (d.absolute p) hmemory
    dsimp only
    exact ⟨by rw [hanswer], hafter⟩

end Classifier.Alike

namespace Walk

inductive Alike (R : σ → τ → Prop) : Except ε (Progress σ α) → Except ε (Progress τ α) → Prop
  | error (e) : Alike R (.error e) (.error e)
  | ok {m n} (tally made) : R m n → Alike R (.ok ⟨m, tally, made⟩) (.ok ⟨n, tally, made⟩)

theorem Alike.bind {x : Except ε (Progress σ α)} {y : Except ε (Progress τ α)}
    {f : Progress σ α → Except ε (Progress σ α)} {g : Progress τ α → Except ε (Progress τ α)}
    (h : Alike R x y)
    (k : ∀ m n tally made, R m n → Alike R (f ⟨m, tally, made⟩) (g ⟨n, tally, made⟩)) :
    Alike R (x >>= f) (y >>= g) := by
  cases h with
  | error e => exact .error e
  | ok tally made hmemory => exact k _ _ tally made hmemory

variable {visit : Visitor ε α} {here relative : Path} {name : Bytes} {m : σ} {n : τ}

theorem alike_leaf (h : c.Alike R d) {e : Entry} (hleaf : e.isDir = false) (tally : Tally)
    (made : α) (hmemory : R m n) :
    Alike R (entry c fs visit here relative name e ⟨m, tally, made⟩)
      (entry d fs visit here relative name e ⟨n, tally, made⟩) := by
  obtain ⟨hanswer, hafter⟩ := h.asked fs (here.push name) false hmemory
  rw [entry_leaf hleaf, entry_leaf hleaf]
  dsimp only
  rw [hanswer]
  split
  · exact .ok _ _ hafter
  · cases visit ⟨relative.push name, false⟩ made with
    | error e => exact .error e
    | ok made => exact .ok _ _ hafter

theorem alike_entry_and_entries (h : c.Alike R d) (fs : FileSystem) (visit : Visitor ε α) :
    (∀ e : Entry, ∀ here relative name {m : σ} {n : τ} tally made, R m n →
      Alike R (entry c fs visit here relative name e ⟨m, tally, made⟩)
        (entry d fs visit here relative name e ⟨n, tally, made⟩)) ∧
    ∀ es : Entries, ∀ here relative {m : σ} {n : τ} tally made, R m n →
      Alike R (entries c fs visit here relative es ⟨m, tally, made⟩)
        (entries d fs visit here relative es ⟨n, tally, made⟩) := by
  apply Entry.induction_with_entries
  case file => exact fun s here relative name m n => alike_leaf h rfl
  case link => exact fun s here relative name m n => alike_leaf h rfl
  case dir =>
    intro es ih here relative name m n tally made hmemory
    obtain ⟨hanswer, hafter⟩ := h.asked fs (here.push name) true hmemory
    rw [entry_dir, entry_dir]
    dsimp only
    rw [hanswer]
    split
    · exact .ok _ _ hafter
    · cases visit ⟨relative.push name, true⟩ made with
      | error e => exact .error e
      | ok made => exact ih _ _ _ _ hafter
  case nil => exact fun here relative m n tally made hmemory => .ok _ _ hmemory
  case cons =>
    intro name e es ihe ihes here relative m n tally made hmemory
    rw [entries_cons, entries_cons]
    exact (ihe here relative name tally made hmemory).bind fun _ _ => ihes here relative

theorem alike_run (h : c.Alike R d) (fs : FileSystem) (visit : Visitor Error α) (root : Path)
    (made : α) (hmemory : R m n) :
    Alike R (run c fs visit root made m) (run d fs visit root made n) := by
  rw [run, run]
  split
  · exact .error _
  next es _ => exact (alike_entry_and_entries h fs visit).2 es root ⟨[]⟩ .zero made hmemory

end Walk

namespace Watch

structure Stats.Alike (a b : Stats) : Prop where
  received : a.received = b.received
  discarded : a.discarded = b.discarded
  errors : a.errors = b.errors
  dirs : a.dirs = b.dirs

structure State.Alike (R : σ → τ → Prop) (s : State σ) (t : State τ) : Prop where
  memory : R s.memory t.memory
  pending : s.pending = t.pending
  timer : s.timer = t.timer
  generation : s.generation = t.generation
  closed : s.closed = t.closed
  cancelled : s.cancelled = t.cancelled
  source : s.source = t.source
  dirs : s.dirs = t.dirs
  stats : s.stats.Alike t.stats

namespace State.Alike

variable {s : State σ} {t : State τ} {w : Settings σ} {v : Settings τ}

theorem remember (h : s.Alike R t) {m : σ} {n : τ} (hmemory : R m n) :
    State.Alike R { s with memory := m } { t with memory := n } :=
  { h with memory := hmemory }

theorem received (h : s.Alike R t) : s.receiving.Alike R t.receiving :=
  { h with stats := { h.stats with received := congrArg (· + 1) h.stats.received } }

theorem discard (h : s.Alike R t) : s.discard.Alike R t.discard :=
  { h with stats := { h.stats with discarded := congrArg (· + 1) h.stats.discarded } }

theorem countError (h : s.Alike R t) :
    (s.countStats fun a => { a with errors := a.errors + 1 }).Alike R
      (t.countStats fun a => { a with errors := a.errors + 1 }) :=
  { h with stats := { h.stats with errors := congrArg (· + 1) h.stats.errors } }

theorem forget? (h : s.Alike R t) (dir : Path) :
    Option.Rel (State.Alike R) (s.forget? dir) (t.forget? dir) := by
  simp only [State.forget?, h.dirs]
  split
  · refine .some { h with dirs := rfl, stats := { h.stats with dirs := ?_ } }
    exact congrArg (· - _) h.stats.dirs
  · exact .none

theorem register (h : s.Alike R t) (fs : FileSystem) (dir : Path) :
    (s.register fs dir).Alike R (t.register fs dir) := by
  simp only [State.register, h.dirs, h.source]
  split
  · exact h
  · split
    · exact { h with source := rfl, dirs := rfl }
    · refine { h with source := rfl, dirs := rfl, stats := { h.stats with dirs := ?_ } }
      exact congrArg (· + 1) h.stats.dirs

theorem registerAll (h : s.Alike R t) (fs : FileSystem) (dirs : List Path) :
    (dirs.foldl (State.register fs) s).Alike R (dirs.foldl (State.register fs) t) := by
  induction dirs generalizing s t with
  | nil => exact h
  | cons d ds ih => exact ih (h.register fs d)

theorem scan (hw : w.classifier.Alike R v.classifier) (h : s.Alike R t) (fs : FileSystem)
    (dir : Path) : (s.scan w fs dir).1 = (t.scan v fs dir).1 ∧
      (s.scan w fs dir).2.Alike R (t.scan v fs dir).2 := by
  have hrun := Walk.alike_run hw fs Walk.collect dir [] h.memory
  rw [State.scan, State.scan]
  generalize Walk.run w.classifier fs Walk.collect dir [] s.memory = x at hrun
  generalize Walk.run v.classifier fs Walk.collect dir [] t.memory = y at hrun
  cases hrun with
  | error => exact ⟨rfl, h⟩
  | ok _ _ hmemory => exact ⟨rfl, h.remember hmemory⟩

theorem arrive (hw : w.classifier.Alike R v.classifier) (h : s.Alike R t) (fs : FileSystem)
    (relative : Path) : (s.arrive w fs relative).1 = (t.arrive v fs relative).1 ∧
      (s.arrive w fs relative).2.Alike R (t.arrive v fs relative).2 := by
  rw [State.arrive, State.arrive, hw.root]
  obtain ⟨hfound, hscanned⟩ := scan hw h fs (v.classifier.root.join relative)
  simp only [hfound, hscanned.cancelled]
  split
  · exact ⟨rfl, hscanned⟩
  · exact ⟨rfl, hscanned.registerAll fs _⟩

theorem classifyChange (hw : w.classifier.Alike R v.classifier)
    (hdirs : w.watchNewDirs = v.watchNewDirs) (h : s.Alike R t) (fs : FileSystem) (p : Path)
    (kind : ChangeKind) :
    (s.classifyChange w fs p kind).1 = (t.classifyChange v fs p kind).1 ∧
      (s.classifyChange w fs p kind).2.Alike R (t.classifyChange v fs p kind).2 := by
  simp only [State.classifyChange, hw.relativePath?, hw.root, hdirs]
  split
  · exact ⟨rfl, h.discard⟩
  · split
    · exact ⟨rfl, h.discard⟩
    next q _ =>
      split
      · exact ⟨rfl, h.discard⟩
      · have hforget : Option.Rel (State.Alike R)
            (if fs.exists? (v.classifier.root.join q) then none
              else s.forget? (v.classifier.root.join q))
            (if fs.exists? (v.classifier.root.join q) then none
              else t.forget? (v.classifier.root.join q)) := by
          split
          · exact .none
          · exact h.forget? _
        generalize (if fs.exists? (v.classifier.root.join q) then none
          else s.forget? (v.classifier.root.join q)) = x at hforget ⊢
        generalize (if fs.exists? (v.classifier.root.join q) then none
          else t.forget? (v.classifier.root.join q)) = y at hforget ⊢
        cases hforget with
        | some hforgot => exact ⟨rfl, hforgot.discard⟩
        | none =>
          obtain ⟨hanswer, hmemory⟩ := hw.asked fs (v.classifier.root.join q)
            (fs.isDir (v.classifier.root.join q)) h.memory
          cases hs : (w.classifier.shouldIgnoreEntry fs (v.classifier.root.join q)
              (fs.isDir (v.classifier.root.join q))).run s.memory with
          | mk verdict m =>
            cases ht : (v.classifier.shouldIgnoreEntry fs (v.classifier.root.join q)
                (fs.isDir (v.classifier.root.join q))).run t.memory with
            | mk verdict' n =>
              rw [hs, ht] at hanswer hmemory
              cases hanswer
              have hasked := h.remember hmemory
              simp only [State.asking_eq hs, State.asking_eq ht]
              split
              · exact ⟨rfl, hasked.discard⟩
              · split
                · exact ⟨rfl, hasked⟩
                · split
                  · exact arrive hw hasked fs q
                  · exact ⟨rfl, hasked.discard⟩

theorem classify (hw : w.classifier.Alike R v.classifier)
    (hdirs : w.watchNewDirs = v.watchNewDirs) (h : s.Alike R t) (fs : FileSystem) (e : Event) :
    (s.classify w fs e).1 = (t.classify v fs e).1 ∧
      (s.classify w fs e).2.Alike R (t.classify v fs e).2 := by
  cases e with
  | error reason => exact ⟨rfl, h.countError⟩
  | change p kind => exact classifyChange hw hdirs h.received fs p kind

end State.Alike

end Watch

end ChunkWatch
