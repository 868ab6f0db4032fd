import ChunkWatch.Watch.State

namespace ChunkWatch.Watch

variable {σ : Type}

/-- All that two states may differ in is the oracle's memory, the registrations and the counts. -/
structure State.Keeps (s t : State σ) : Prop where
  pending : t.pending = s.pending
  timer : t.timer = s.timer
  generation : t.generation = s.generation
  closed : t.closed = s.closed
  cancelled : t.cancelled = s.cancelled
  waiting : t.waiting = s.waiting

namespace State

structure Registered (s t : State σ) : Prop where
  dirs : t.dirs = s.dirs
  source : t.source = s.source
  watched : t.stats.dirs = s.stats.dirs

theorem Keeps.refl (s : State σ) : s.Keeps s := ⟨rfl, rfl, rfl, rfl, rfl, rfl⟩

theorem Keeps.trans {s t u : State σ} (h : s.Keeps t) (k : t.Keeps u) : s.Keeps u :=
  ⟨k.pending.trans h.pending, k.timer.trans h.timer, k.generation.trans h.generation,
    k.closed.trans h.closed, k.cancelled.trans h.cancelled, k.waiting.trans h.waiting⟩

theorem Registered.refl (s : State σ) : Registered s s := ⟨rfl, rfl, rfl⟩

theorem Registered.trans {s t u : State σ} (h : Registered s t) (k : Registered t u) :
    Registered s u :=
  ⟨k.dirs.trans h.dirs, k.source.trans h.source, k.watched.trans h.watched⟩

theorem keeps_countStats (f : Stats → Stats) (s : State σ) : s.Keeps (s.countStats f) :=
  ⟨rfl, rfl, rfl, rfl, rfl, rfl⟩

theorem keeps_discard (s : State σ) : s.Keeps s.discard := keeps_countStats _ s

theorem keeps_memory (s : State σ) (memory : σ) : s.Keeps { s with memory := memory } :=
  ⟨rfl, rfl, rfl, rfl, rfl, rfl⟩

theorem forget?_eq_some_iff {dir : Path} {s t : State σ} :
    s.forget? dir = some t ↔ dir.isIn s.dirs ∧
      t = { s with
        dirs := s.dirs.filter fun d => !d.startsWith dir
        stats.dirs := s.stats.dirs -
          (s.dirs.length - (s.dirs.filter fun d => !d.startsWith dir).length) } := by
  simp only [forget?, countStats]
  split
  next h => simp only [h, true_and, Option.some.injEq, eq_comm]
  next h => simp [h]

theorem forget?_eq_none_iff {dir : Path} {s : State σ} :
    s.forget? dir = none ↔ ¬dir.isIn s.dirs := by
  simp [forget?]

theorem forget?_keeps {dir : Path} {s t : State σ} (h : s.forget? dir = some t) : s.Keeps t := by
  obtain ⟨-, rfl⟩ := forget?_eq_some_iff.mp h
  exact ⟨rfl, rfl, rfl, rfl, rfl, rfl⟩

theorem asking_eq {α : Type} {ask : StateM σ α} {s : State σ} {a : α} {memory : σ}
    (h : ask.run s.memory = (a, memory)) : s.asking ask = (a, { s with memory := memory }) := by
  simp only [asking, h]

theorem keeps_register (fs : FileSystem) (s : State σ) (dir : Path) :
    s.Keeps (s.register fs dir) := by
  simp only [register]
  split
  · exact .refl s
  · split <;> exact ⟨rfl, rfl, rfl, rfl, rfl, rfl⟩

theorem keeps_registerAll (fs : FileSystem) (dirs : List Path) (s : State σ) :
    s.Keeps (dirs.foldl (register fs) s) := by
  induction dirs generalizing s with
  | nil => exact .refl s
  | cons d ds ih => exact (keeps_register fs s d).trans (ih _)

theorem keeps_scan (w : Settings σ) (fs : FileSystem) (dir : Path) (s : State σ) :
    s.Keeps (s.scan w fs dir).2 := by
  simp only [scan]
  split
  · exact keeps_memory s _
  · exact .refl s

theorem keeps_arrive (w : Settings σ) (fs : FileSystem) (relative : Path) (s : State σ) :
    s.Keeps (s.arrive w fs relative).2 := by
  simp only [arrive]
  split
  · exact keeps_scan ..
  · exact (keeps_scan ..).trans (keeps_registerAll ..)

end State

structure Settings.Concerns (w : Settings σ) (p : Path) (kind : ChangeKind) (q : Path) : Prop where
  content : kind.isContent
  relative : w.classifier.relativePath? p = some q
  below : q.bytes ≠ []

inductive Classified (w : Settings σ) (fs : FileSystem) (s : State σ) (p : Path)
    (kind : ChangeKind) : List Path → State σ → Prop
  | unconcerned : (∀ q, ¬w.Concerns p kind q) → Classified w fs s p kind [] s.discard
  | forgotten {q t} : w.Concerns p kind q → ¬fs.exists? (w.classifier.root.join q) →
      s.forget? (w.classifier.root.join q) = some t → Classified w fs s p kind [] t.discard
  | ignored {q memory} : w.Concerns p kind q →
      (fs.exists? (w.classifier.root.join q) ∨ ¬(w.classifier.root.join q).isIn s.dirs) →
      (w.classifier.shouldIgnoreEntry fs (w.classifier.root.join q)
        (fs.isDir (w.classifier.root.join q))).run s.memory = (true, memory) →
      Classified w fs s p kind [] { s with memory := memory }.discard
  | file {q memory} : w.Concerns p kind q →
      (fs.exists? (w.classifier.root.join q) ∨ ¬(w.classifier.root.join q).isIn s.dirs) →
      fs.isDir (w.classifier.root.join q) = false →
      (w.classifier.shouldIgnoreEntry fs (w.classifier.root.join q) false).run s.memory =
        (false, memory) →
      Classified w fs s p kind [q] { s with memory := memory }
  | arrived {q memory} : w.Concerns p kind q → fs.isDir (w.classifier.root.join q) →
      (w.classifier.shouldIgnoreEntry fs (w.classifier.root.join q) true).run s.memory =
        (false, memory) →
      kind.isArrival → w.watchNewDirs →
      Classified w fs s p kind ({ s with memory := memory }.arrive w fs q).1
        ({ s with memory := memory }.arrive w fs q).2
  | touched {q memory} : w.Concerns p kind q → fs.isDir (w.classifier.root.join q) →
      (w.classifier.shouldIgnoreEntry fs (w.classifier.root.join q) true).run s.memory =
        (false, memory) →
      ¬(kind.isArrival ∧ w.watchNewDirs) →
      Classified w fs s p kind [] { s with memory := memory }.discard

theorem FileSystem.exists_of_isDir {fs : FileSystem} {p : Path} (h : fs.isDir p) :
    fs.exists? p := by
  simp only [FileSystem.isDir] at h
  split at h
  next e he => simp [FileSystem.exists?, he, Except.toBool]
  · simp at h

namespace State

theorem classified (w : Settings σ) (fs : FileSystem) (s : State σ) (p : Path)
    (kind : ChangeKind) :
    Classified w fs s p kind (s.classifyChange w fs p kind).1 (s.classifyChange w fs p kind).2 := by
  simp only [classifyChange]
  split
  next hkind =>
    exact .unconcerned fun q c => by simp [c.content] at hkind
  next hkind =>
    split
    next hq => exact .unconcerned fun q c => by simp [c.relative] at hq
    next q hq =>
      split
      next hbytes =>
        refine .unconcerned fun r c => c.below ?_
        rw [← Option.some.inj (hq.symm.trans c.relative), hbytes]
      next hbytes =>
        have c : w.Concerns p kind q := ⟨by simpa using hkind, hq, hbytes⟩
        split
        next t ht =>
          split at ht
          · simp at ht
          next hgone => exact .forgotten c hgone ht
        next hkept =>
          have kept : fs.exists? (w.classifier.root.join q) ∨
              ¬(w.classifier.root.join q).isIn s.dirs := by
            split at hkept
            next h => exact .inl h
            · exact .inr (forget?_eq_none_iff.mp hkept)
          obtain ⟨verdict, memory, hask⟩ : ∃ verdict memory,
              (w.classifier.shouldIgnoreEntry fs (w.classifier.root.join q)
                (fs.isDir (w.classifier.root.join q))).run s.memory = (verdict, memory) :=
            ⟨_, _, rfl⟩
          simp only [asking_eq hask]
          cases verdict with
          | true => exact .ignored c kept hask
          | false =>
            cases hdir : fs.isDir (w.classifier.root.join q) with
            | false => exact .file c kept hdir (hdir ▸ hask)
            | true =>
              simp only [Bool.not_true, Bool.false_eq_true, ↓reduceIte]
              split
              next harrived =>
                rw [Bool.and_eq_true] at harrived
                exact .arrived c hdir (hdir ▸ hask) harrived.1 harrived.2
              next harrived =>
                rw [Bool.and_eq_true] at harrived
                exact .touched c hdir (hdir ▸ hask) harrived

def receiving (s : State σ) : State σ :=
  s.countStats fun t => { t with received := t.received + 1 }

theorem classified_change (w : Settings σ) (fs : FileSystem) (s : State σ) (p : Path)
    (kind : ChangeKind) : Classified w fs s.receiving p kind (s.classify w fs (.change p kind)).1
      (s.classify w fs (.change p kind)).2 :=
  classified ..

end State

theorem Classified.keeps {w : Settings σ} {fs : FileSystem} {s t : State σ} {p : Path}
    {kind : ChangeKind} {ps : List Path} (h : Classified w fs s p kind ps t) : s.Keeps t := by
  cases h with
  | unconcerned => exact s.keeps_discard
  | forgotten _ _ ht => exact (State.forget?_keeps ht).trans (State.keeps_discard _)
  | ignored => exact (s.keeps_memory _).trans (State.keeps_discard _)
  | file => exact s.keeps_memory _
  | arrived => exact (s.keeps_memory _).trans (State.keeps_arrive ..)
  | touched => exact (s.keeps_memory _).trans (State.keeps_discard _)

theorem State.keeps_classify (w : Settings σ) (fs : FileSystem) (s : State σ) (e : Event) :
    s.Keeps (s.classify w fs e).2 := by
  cases e with
  | error reason =>
    simp only [classify]
    exact s.keeps_countStats _
  | change p kind => exact (s.keeps_countStats _).trans (s.classified_change ..).keeps

end ChunkWatch.Watch
