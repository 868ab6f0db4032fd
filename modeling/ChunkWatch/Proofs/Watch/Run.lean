import ChunkWatch.Proofs.Path.Order
import ChunkWatch.Proofs.Watch.Classify
import ChunkWatch.Watch.Session

namespace ChunkWatch.Watch

variable {σ : Type}

namespace State

theorem accept_pending {s : State σ} (hs : s.closed = false) (w : Settings σ) (now : Nat)
    (ps : List Path) : (s.accept w now ps).pending = Path.insertAll ps s.pending := by
  simp only [accept, hs, Bool.or_false]
  split
  next h => simp [List.isEmpty_iff.mp h, Path.insertAll]
  · rfl

theorem accept_waiting (s : State σ) (w : Settings σ) (now : Nat) (ps : List Path) :
    (s.accept w now ps).waiting = s.waiting := by
  simp only [accept]
  split <;> rfl

theorem takeBatch_eq (s : State σ) : ∃ stats, s.takeBatch.2 =
    { s with waiting := s.waiting.tail, stats := stats } := by
  obtain ⟨_, _, _, _, _, cancelled, _, _, _, waiting⟩ := s
  cases waiting with
  | nil => exact ⟨_, rfl⟩
  | cons => cases cancelled <;> exact ⟨_, rfl⟩

structure IsFresh (s : State σ) : Prop where
  pending : s.pending = []
  timer : s.timer = none
  closed : s.closed = false
  cancelled : s.cancelled = false
  waiting : s.waiting = []

end State

theorem isFresh_of_start {w : Settings σ} {fs : FileSystem} {source : Source} {memory : σ}
    {s : State σ} (hs : start w fs source memory = .ok s) : s.IsFresh := by
  simp only [start] at hs
  split at hs
  · simp at hs
  · split at hs
    · simp at hs
    · cases hs
      exact ⟨rfl, rfl, rfl, rfl, rfl⟩

namespace Session

theorem handOver_eq (h : Handler) (s : Session σ) : ∃ running reports, s.handOver h =
    { s with state := s.state.takeBatch.2, running := running, reports := reports } := by
  rw [handOver]
  split
  next heq =>
    rw [heq]
    exact ⟨_, _, rfl⟩
  next heq =>
    rw [heq]
    cases h with
    | working =>
      dsimp only
      split <;> exact ⟨_, _, rfl⟩
    | channel => exact ⟨_, _, rfl⟩
    | gone => exact ⟨_, _, rfl⟩

@[simp] theorem handOver_state (h : Handler) (s : Session σ) :
    (s.handOver h).state = s.state.takeBatch.2 := by
  obtain ⟨running, reports, heq⟩ := s.handOver_eq h
  rw [heq]

@[simp] theorem handOver_intake (h : Handler) (s : Session σ) :
    (s.handOver h).intake = s.intake := by
  obtain ⟨running, reports, heq⟩ := s.handOver_eq h
  rw [heq]

@[simp] theorem handOver_fs (h : Handler) (s : Session σ) : (s.handOver h).fs = s.fs := by
  obtain ⟨running, reports, heq⟩ := s.handOver_eq h
  rw [heq]

@[simp] theorem finishHandler_fs (h : Handler) (r : Running) (s : Session σ) :
    (s.finishHandler h r).fs = s.fs := by
  cases h <;> rfl

@[simp] theorem finishHandler_state (h : Handler) (r : Running) (s : Session σ) :
    (s.finishHandler h r).state = s.state := by
  cases h <;> rfl

@[simp] theorem finishHandler_intake (h : Handler) (r : Running) (s : Session σ) :
    (s.finishHandler h r).intake = s.intake := by
  cases h <;> rfl

/-- Each step with what has to hold for it to be possible and what it makes of the session. -/
inductive Takes (w : Settings σ) (h : Handler) (s : Session σ) : Step → Session σ → Prop
  | send {e} : s.hungUp = false → s.intake ≠ .stopped →
      Takes w h s (.send e) { s with queue := s.queue ++ [e] }
  | hangUp : Takes w h s .hangUp { s with hungUp := true }
  | drain {e es} : s.intake = .waiting → s.state.cancelled = false → s.queue = e :: es →
      Takes w h s .drain { s with
        intake := .classifying ((e :: es).take chunkSize) [], queue := (e :: es).drop chunkSize }
  | classify {e es paths} : s.intake = .classifying (e :: es) paths →
      Takes w h s .classify { s with
        intake := .classifying es (paths ++ (s.state.classify w s.fs e).1)
        state := (s.state.classify w s.fs e).2 }
  | accept {paths} : s.intake = .classifying [] paths →
      Takes w h s .accept { s with
        intake := .waiting, state := s.state.accept w s.now paths }
  | finishIntake : s.intake = .waiting → s.state.cancelled = false → s.queue = [] →
      s.hungUp = true → Takes w h s .finishIntake { s with intake := .stopped }
  | noticeCancel : s.intake = .waiting → s.state.cancelled = true →
      Takes w h s .noticeCancel { s with
        intake := .stopped, queue := [], state := s.state.shutdown }
  | fire {g} : g ≤ s.state.generation →
      s.state.timer.all (fun t => t.generation != g || s.isDue t.deadline) →
      Takes w h s (.fire g) { s with state := s.state.fire g }
  | handOver : s.running = none → s.state.waiting ≠ [] → Takes w h s .handOver (s.handOver h)
  | finishHandler {r} : s.running = some r → s.isDue r.stop →
      Takes w h s .finishHandler (s.finishHandler h r)
  | close : Takes w h s .close { s with state := s.state.close }
  | cancel : Takes w h s .cancel { s with
      parentCancelled := true, state := { s.state with cancelled := true } }
  | change {base c} : Takes w h s (.change base c) { s with fs := s.fs.apply base c }
  | pass {ms} : s.isQuiet → s.alarms.all (s.now + ms ≤ ·) →
      Takes w h s (.pass ms) { s with now := s.now + ms }

theorem takes_of_step? {w : Settings σ} {h : Handler} {s t : Session σ} {x : Step}
    (hx : s.step? w h x = some t) : Takes w h s x t := by
  cases x with
  | send e =>
    simp only [step?] at hx
    split at hx
    · simp at hx
    · simp at hx
    next hup hin =>
      cases hx
      exact .send (by simpa using hup) hin
  | hangUp => cases hx; exact .hangUp
  | drain =>
    simp only [step?] at hx
    split at hx
    next hin hc hq => cases hx; exact .drain hin hc hq
    · simp at hx
  | classify =>
    simp only [step?] at hx
    split at hx
    next hin => cases hx; exact .classify hin
    · simp at hx
  | accept =>
    simp only [step?] at hx
    split at hx
    next hin => cases hx; exact .accept hin
    · simp at hx
  | finishIntake =>
    simp only [step?] at hx
    split at hx
    next hin hc hq hup => cases hx; exact .finishIntake hin hc hq hup
    · simp at hx
  | noticeCancel =>
    simp only [step?] at hx
    split at hx
    next hin hc => cases hx; exact .noticeCancel hin hc
    · simp at hx
  | fire g =>
    simp only [step?] at hx
    split at hx
    next hg => cases hx; exact .fire hg.1 hg.2
    · simp at hx
  | handOver =>
    simp only [step?] at hx
    split at hx
    next hr => cases hx; exact .handOver (by simpa using hr.1) (by simpa using hr.2)
    · simp at hx
  | finishHandler =>
    simp only [step?] at hx
    split at hx
    next r hr =>
      split at hx
      next hdue => cases hx; exact .finishHandler hr hdue
      · simp at hx
    · simp at hx
  | close => cases hx; exact .close
  | cancel => cases hx; exact .cancel
  | change base c => cases hx; exact .change
  | pass ms =>
    simp only [step?] at hx
    split at hx
    next hq => cases hx; exact .pass hq.1 hq.2
    · simp at hx

end Session

structure Move (σ : Type) where
  before : Session σ
  step : Step
  after : Session σ

namespace Session

inductive Run (w : Settings σ) (h : Handler) : Session σ → List (Move σ) → Session σ → Prop
  | nil {s} : Run w h s [] s
  | cons {s x t moves u} : s.step? w h x = some t → Run w h t moves u →
      Run w h s (⟨s, x, t⟩ :: moves) u

variable {w : Settings σ} {h : Handler}

theorem Run.split {s u : Session σ} {ms ns : List (Move σ)} {m : Move σ}
    (hs : Run w h s (ms ++ m :: ns) u) : Run w h s ms m.before ∧
      m.before.step? w h m.step = some m.after ∧ Run w h m.after ns u := by
  induction ms generalizing s with
  | nil => cases hs with | cons hx ht => exact ⟨.nil, hx, ht⟩
  | cons _ ms ih =>
    cases hs with
    | cons hx ht =>
      obtain ⟨hms, hm, hns⟩ := ih ht
      exact ⟨.cons hx hms, hm, hns⟩

theorem Run.of_append {s u : Session σ} {ms ns : List (Move σ)} (hs : Run w h s (ms ++ ns) u) :
    ∃ t, Run w h s ms t ∧ Run w h t ns u := by
  induction ms generalizing s with
  | nil => exact ⟨s, .nil, hs⟩
  | cons _ ms ih =>
    cases hs with
    | cons hx ht =>
      obtain ⟨t, hms, hns⟩ := ih ht
      exact ⟨t, .cons hx hms, hns⟩

theorem Run.append {s t u : Session σ} {ms ns : List (Move σ)} (hs : Run w h s ms t)
    (ht : Run w h t ns u) : Run w h s (ms ++ ns) u := by
  induction hs with
  | nil => exact ht
  | cons hx _ ih => exact .cons hx (ih ht)

def follow (w : Settings σ) (h : Handler) : List Step → Session σ → List (Move σ) × Session σ
  | [], s => ([], s)
  | x :: xs, s =>
    match s.step? w h x with
    | some t => (⟨s, x, t⟩ :: (follow w h xs t).1, (follow w h xs t).2)
    | none => ([], s)

theorem run_follow (xs : List Step) (s : Session σ) :
    Run w h s (follow w h xs s).1 (follow w h xs s).2 := by
  induction xs generalizing s with
  | nil => exact .nil
  | cons x xs ih =>
    simp only [follow]
    split
    next hx => exact .cons hx (ih _)
    · exact .nil

theorem run_follow_step {xs : List Step} {x : Step} {s : Session σ}
    (hx : ((follow w h xs s).2.step? w h x).isSome) :
    Run w h s ((follow w h xs s).1 ++
        [⟨(follow w h xs s).2, x, ((follow w h xs s).2.step? w h x).getD (follow w h xs s).2⟩])
      (((follow w h xs s).2.step? w h x).getD (follow w h xs s).2) := by
  obtain ⟨t, ht⟩ := Option.isSome_iff_exists.mp hx
  rw [ht]
  exact (run_follow xs s).append (.cons ht .nil)

theorem Run.invariant {P : Session σ → Prop} {s t : Session σ} {ms : List (Move σ)}
    (hs : Run w h s ms t) (hP : P s)
    (hstep : ∀ m ∈ ms, P m.before → m.before.step? w h m.step = some m.after → P m.after) :
    P t := by
  induction hs with
  | nil => exact hP
  | cons hx _ ih =>
    exact ih (hstep _ List.mem_cons_self hP hx) fun m hm => hstep m (List.mem_cons_of_mem _ hm)

end Session

end ChunkWatch.Watch
