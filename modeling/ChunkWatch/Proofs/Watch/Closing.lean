import ChunkWatch.Proofs.Watch.Handling
import ChunkWatch.Proofs.Watch.Removal
import ChunkWatch.Proofs.Watch.Source

namespace ChunkWatch.Watch

variable {σ : Type}

structure State.Shut (closes : Nat) (s : State σ) : Prop where
  status : s.status = .closed
  cancelled : s.cancelled = true
  pending : s.pending = []
  timer : s.timer = none
  dirs : s.dirs = []
  watched : s.stats.dirs = 0
  registered : s.source.registered = []
  closes : s.source.closes = closes

namespace State

variable {w : Settings σ} {fs : FileSystem} {s t : State σ} {closes : Nat}

theorem status_eq_closed_iff : s.status = .closed ↔ s.closed = true := by
  rw [status]
  split
  next h => simp [h]
  next h =>
    simp only [Bool.not_eq_true] at h
    rw [h]
    split <;> simp

theorem Shut.closed (h : s.Shut closes) : s.closed = true := status_eq_closed_iff.mp h.status

theorem Shut.of_keeps (h : s.Shut closes) (k : s.Keeps t) (r : Registered s t) :
    t.Shut closes where
  status := status_eq_closed_iff.mpr (k.closed.trans h.closed)
  cancelled := k.cancelled.trans h.cancelled
  pending := k.pending.trans h.pending
  timer := k.timer.trans h.timer
  dirs := r.dirs.trans h.dirs
  watched := r.watched.trans h.watched
  registered := (congrArg Source.registered r.source).trans h.registered
  closes := (congrArg Source.closes r.source).trans h.closes

theorem registered_discard (s : State σ) : Registered s s.discard := ⟨rfl, rfl, rfl⟩

theorem registered_scan (w : Settings σ) (fs : FileSystem) (dir : Path) (s : State σ) :
    Registered s (s.scan w fs dir).2 := by
  rw [scan]
  split
  · exact ⟨rfl, rfl, rfl⟩
  · exact .refl s

theorem registered_arrive (h : s.cancelled = true) (w : Settings σ) (fs : FileSystem) (q : Path) :
    Registered s (s.arrive w fs q).2 := by
  have hscan := (keeps_scan w fs (w.classifier.root.join q) s).cancelled
  rw [arrive]
  dsimp only
  rw [if_pos (hscan.trans h)]
  exact registered_scan ..

theorem registered_of_classified {p : Path} {kind : ChangeKind} {ps : List Path}
    (k : Classified w fs s p kind ps t) (hcancelled : s.cancelled = true) (hdirs : s.dirs = []) :
    Registered s t := by
  cases k with
  | unconcerned => exact registered_discard s
  | forgotten _ _ ht =>
    have hin := (forget?_eq_some_iff.mp ht).1
    rw [hdirs] at hin
    exact absurd hin (Path.not_isIn_nil _)
  | ignored => exact ⟨rfl, rfl, rfl⟩
  | file => exact ⟨rfl, rfl, rfl⟩
  | @arrived q memory =>
    have hasked : Registered s { s with memory } := ⟨rfl, rfl, rfl⟩
    exact hasked.trans (registered_arrive (s := { s with memory }) hcancelled w fs q)
  | touched => exact ⟨rfl, rfl, rfl⟩

theorem Shut.classify (h : s.Shut closes) (w : Settings σ) (fs : FileSystem) (e : Event) :
    Registered s (s.classify w fs e).2 := by
  cases e with
  | error reason => exact ⟨rfl, rfl, rfl⟩
  | change p kind =>
    have hcount : Registered s s.receiving := ⟨rfl, rfl, rfl⟩
    exact hcount.trans
      (registered_of_classified (classified_change w fs s p kind) h.cancelled h.dirs)

theorem takeBatch_of_cancelled (h : s.cancelled = true) :
    s.takeBatch.2 = { s with waiting := s.waiting.tail } := by
  rw [takeBatch]
  split
  next hw =>
    have htail : s.waiting.tail = s.waiting := by rw [hw, List.tail_nil]
    rw [htail]
  next hw => simp [h, hw]

theorem shut_shutdown (h : s.closed = false) (k : s.cancelled = true) :
    s.shutdown.Shut (s.source.closes + 1) := by
  rw [shutdown, h, if_neg Bool.false_ne_true]
  exact ⟨rfl, k, rfl, rfl, rfl, rfl, rfl, rfl⟩

theorem closes_register (fs : FileSystem) (s : State σ) (dir : Path) :
    (s.register fs dir).source.closes = s.source.closes := by
  have hwatch : (s.source.watch fs dir).1.closes = s.source.closes := by
    rw [Source.watch]
    dsimp only
    split <;> rfl
  rw [register]
  split
  · rfl
  · split
    next hw => rw [← hwatch, hw]
    next hw =>
      rw [← hwatch, hw]
      rfl

theorem closes_registerAll (fs : FileSystem) (dirs : List Path) (s : State σ) :
    (dirs.foldl (register fs) s).source.closes = s.source.closes := by
  induction dirs generalizing s with
  | nil => rfl
  | cons d ds ih => exact (ih _).trans (closes_register fs s d)

theorem closes_of_classified {p : Path} {kind : ChangeKind} {ps : List Path}
    (k : Classified w fs s p kind ps t) : t.source.closes = s.source.closes := by
  cases k with
  | forgotten _ _ ht =>
    obtain ⟨-, rfl⟩ := forget?_eq_some_iff.mp ht
    rfl
  | @arrived q memory =>
    have hscan := (registered_scan w fs (w.classifier.root.join q) { s with memory }).source
    rw [arrive]
    dsimp only
    split
    · rw [hscan]
    · rw [closes_registerAll, hscan]
  | _ => rfl

theorem closes_classify (e : Event) :
    (s.classify w fs e).2.source.closes = s.source.closes := by
  cases e with
  | error reason => rfl
  | change p kind =>
    have hcloses := closes_of_classified (classified_change w fs s p kind)
    exact hcloses

/-- An open session has not closed its source; a closed one has done so once. -/
def Tidy (closes : Nat) (s : State σ) : Prop :=
  s.closed = false ∧ s.source.closes = closes ∨ s.Shut (closes + 1)

theorem Tidy.shutdown (h : s.Tidy closes) (k : s.cancelled = true) :
    s.shutdown.Shut (closes + 1) := by
  rcases h with ⟨hopen, hcloses⟩ | hshut
  · rw [← hcloses]
    exact shut_shutdown hopen k
  · rw [State.shutdown, if_pos hshut.closed]
    exact hshut

theorem Tidy.close (h : s.Tidy closes) : s.close.Shut (closes + 1) := by
  refine Tidy.shutdown (s := { s with cancelled := true }) ?_ rfl
  rcases h with hopen | hshut
  · exact .inl hopen
  · exact .inr ⟨status_eq_closed_iff.mpr hshut.closed, rfl, hshut.pending, hshut.timer, hshut.dirs,
      hshut.watched, hshut.registered, hshut.closes⟩

end State

theorem tidy_of_start {w : Settings σ} {fs : FileSystem} {source : Source} {memory : σ}
    {s : State σ} (hs : start w fs source memory = .ok s) : s.Tidy source.closes := by
  refine .inl ⟨(isFresh_of_start hs).closed, ?_⟩
  rw [start] at hs
  dsimp only at hs
  split at hs
  · cases hs
  · split at hs
    · cases hs
    next hw =>
      cases hs
      rw [Source.eq_of_watchAll hw]

namespace Session

variable {w : Settings σ} {h : Handler} {s t : Session σ} {x : Step} {closes : Nat}

theorem shut_step (hx : s.step? w h x = some t) (hs : s.state.Shut closes) :
    t.state.Shut closes := by
  have still (heq : t.state = s.state) : t.state.Shut closes := by
    rw [heq]
    exact hs
  cases takes_of_step? hx with
  | classify =>
    exact hs.of_keeps (s.state.keeps_classify ..) (hs.classify w s.fs _)
  | accept =>
    apply still
    simp [State.accept, hs.closed]
  | noticeCancel =>
    apply still
    simp [State.shutdown, hs.closed]
  | fire =>
    apply still
    simp [State.fire, hs.closed]
  | handOver =>
    rw [handOver_state, State.takeBatch_of_cancelled hs.cancelled]
    exact ⟨hs.status, hs.cancelled, hs.pending, hs.timer, hs.dirs, hs.watched, hs.registered,
      hs.closes⟩
  | finishHandler => exact still (by rw [finishHandler_state])
  | close =>
    have hclosed : ({ s.state with cancelled := true } : State σ).closed = true := hs.closed
    rw [State.close, State.shutdown, if_pos hclosed]
    exact ⟨hs.status, rfl, hs.pending, hs.timer, hs.dirs, hs.watched, hs.registered, hs.closes⟩
  | cancel =>
    exact ⟨hs.status, rfl, hs.pending, hs.timer, hs.dirs, hs.watched, hs.registered, hs.closes⟩
  | _ => exact hs

theorem tidy_step (hx : s.step? w h x = some t) (hs : s.state.Tidy closes) :
    t.state.Tidy closes := by
  rcases hs with ⟨hopen, hcloses⟩ | hshut
  · cases takes_of_step? hx with
    | classify =>
      exact .inl ⟨(s.state.keeps_classify ..).closed.trans hopen,
        (State.closes_classify _).trans hcloses⟩
    | accept =>
      rw [State.Tidy, State.accept]
      split <;> exact .inl ⟨hopen, hcloses⟩
    | noticeCancel _ hc => exact .inr (State.Tidy.shutdown (.inl ⟨hopen, hcloses⟩) hc)
    | fire =>
      rw [State.Tidy, State.fire]
      split <;> exact .inl ⟨hopen, hcloses⟩
    | handOver =>
      obtain ⟨stats, heq⟩ := s.state.takeBatch_eq
      rw [handOver_state, heq]
      exact .inl ⟨hopen, hcloses⟩
    | finishHandler =>
      rw [finishHandler_state]
      exact .inl ⟨hopen, hcloses⟩
    | close => exact .inr (State.Tidy.close (.inl ⟨hopen, hcloses⟩))
    | _ => exact .inl ⟨hopen, hcloses⟩
  · exact .inr (shut_step hx hshut)

end Session

end ChunkWatch.Watch
