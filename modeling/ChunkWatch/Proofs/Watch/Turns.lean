import ChunkWatch.Proofs.Watch.Likeness
import ChunkWatch.Proofs.Watch.Quiet

/-! The turns of a run: all steps but those of the handler, the passing of time, and the timers that
go off in vain.  What these leave alone is all that a turn depends on, besides the time, and all
that it changes. -/

namespace ChunkWatch.Watch

variable {σ : Type}

namespace Step

def isInput : Step → Bool
  | send _ | hangUp | close | cancel | change .. => true
  | _ => false

def isAside : Step → Bool
  | handOver | finishHandler | pass _ => true
  | _ => false

end Step

def Move.isTurn (m : Move σ) : Bool :=
  !m.step.isAside && match m.step with
    | .fire g => m.before.state.timer.any fun a => a.generation = g
    | _ => true

theorem Move.not_isAside_of_isTurn {m : Move σ} (h : m.isTurn) : m.step.isAside = false := by
  rw [isTurn, Bool.and_eq_true, Bool.not_eq_true'] at h
  exact h.1

namespace State

theorem Alike.refl (s : State σ) : s.Alike Eq s :=
  ⟨rfl, rfl, rfl, rfl, rfl, rfl, rfl, rfl, rfl, rfl, rfl, rfl⟩

variable {s t u : State σ}

theorem Alike.symm (h : s.Alike Eq t) : t.Alike Eq s :=
  ⟨h.memory.symm, h.pending.symm, h.timer.symm, h.generation.symm, h.closed.symm,
    h.cancelled.symm, h.source.symm, h.dirs.symm, h.stats.received.symm, h.stats.discarded.symm,
    h.stats.errors.symm, h.stats.dirs.symm⟩

theorem Alike.trans (h : s.Alike Eq t) (k : t.Alike Eq u) : s.Alike Eq u :=
  ⟨h.memory.trans k.memory, h.pending.trans k.pending, h.timer.trans k.timer,
    h.generation.trans k.generation, h.closed.trans k.closed, h.cancelled.trans k.cancelled,
    h.source.trans k.source, h.dirs.trans k.dirs, h.stats.received.trans k.stats.received,
    h.stats.discarded.trans k.stats.discarded, h.stats.errors.trans k.stats.errors,
    h.stats.dirs.trans k.stats.dirs⟩

theorem Alike.status (h : s.Alike Eq t) : s.status = t.status := by
  rw [State.status, State.status, h.closed, h.pending, h.timer]

theorem Alike.accept (h : s.Alike Eq t) (w : Settings σ) (now : Nat) (ps : List Path) :
    (s.accept w now ps).Alike Eq (t.accept w now ps) := by
  rw [State.accept, State.accept, h.closed]
  split
  · exact h
  · exact { h with
      pending := by rw [h.pending]
      timer := by rw [h.generation]
      generation := by rw [h.generation]
      closed := rfl }

theorem Alike.fire (h : s.Alike Eq t) (g : Nat) : (s.fire g).Alike Eq (t.fire g) := by
  rw [State.fire, State.fire, h.closed, h.generation]
  split
  · exact h
  · exact { h with pending := rfl, timer := rfl, generation := rfl, closed := rfl }

theorem Alike.shutdown (h : s.Alike Eq t) : s.shutdown.Alike Eq t.shutdown := by
  rw [State.shutdown, State.shutdown, h.closed]
  split
  · exact h
  · exact { h with
      closed := rfl
      pending := rfl
      timer := rfl
      dirs := rfl
      source := congrArg Source.close h.source
      stats := { h.stats with dirs := rfl } }

theorem Alike.cancel (h : s.Alike Eq t) :
    State.Alike Eq { s with cancelled := true } { t with cancelled := true } :=
  { h with cancelled := rfl }

theorem alike_takeBatch (s : State σ) : s.Alike Eq s.takeBatch.2 := by
  rw [takeBatch]
  split
  · exact .refl s
  · dsimp only
    split <;> exact ⟨rfl, rfl, rfl, rfl, rfl, rfl, rfl, rfl, rfl, rfl, rfl, rfl⟩

def takenBy (g : Nat) (s : State σ) : List (List Path) :=
  if s.closed || s.generation != g || s.pending.isEmpty then [] else [s.pending]

theorem waiting_fire (g : Nat) (s : State σ) : (s.fire g).waiting = s.waiting ++ s.takenBy g := by
  rw [fire, takenBy]
  cases s.closed || s.generation != g with
  | true => simp
  | false => cases s.pending <;> simp

theorem Alike.takenBy (h : s.Alike Eq t) (g : Nat) : s.takenBy g = t.takenBy g := by
  rw [State.takenBy, State.takenBy, h.closed, h.generation, h.pending]

end State

namespace Session

/-- Two sessions that differ at most in the time and in what the handler is at. -/
structure Alike (s t : Session σ) : Prop where
  fs : s.fs = t.fs
  state : s.state.Alike Eq t.state
  queue : s.queue = t.queue
  hungUp : s.hungUp = t.hungUp
  intake : s.intake = t.intake
  parentCancelled : s.parentCancelled = t.parentCancelled

structure Level (s t : Session σ) : Prop extends s.Alike t where
  now : s.now = t.now

def isResting (s : Session σ) : Bool :=
  match s.intake with
  | .waiting => !s.state.cancelled && s.queue.isEmpty && !s.hungUp
  | .classifying .. => false
  | .stopped => true

variable {w : Settings σ} {h : Handler} {s t u : Session σ} {x : Step} {ms : List (Move σ)}

theorem Alike.refl (s : Session σ) : s.Alike s := ⟨rfl, .refl _, rfl, rfl, rfl, rfl⟩

theorem Alike.symm (k : s.Alike t) : t.Alike s :=
  ⟨k.fs.symm, k.state.symm, k.queue.symm, k.hungUp.symm, k.intake.symm, k.parentCancelled.symm⟩

theorem Alike.trans (k : s.Alike t) (l : t.Alike u) : s.Alike u :=
  ⟨k.fs.trans l.fs, k.state.trans l.state, k.queue.trans l.queue, k.hungUp.trans l.hungUp,
    k.intake.trans l.intake, k.parentCancelled.trans l.parentCancelled⟩

theorem Alike.isResting (k : s.Alike t) : s.isResting = t.isResting := by
  rw [Session.isResting, Session.isResting, k.intake, k.state.cancelled, k.queue, k.hungUp]

theorem isResting_of_isQuiet (hquiet : s.isQuiet) : s.isResting := by
  rw [isQuiet, Bool.and_eq_true, Bool.and_eq_true] at hquiet
  exact hquiet.1.1

theorem Takes.step? (k : Takes w h s x t) : s.step? w h x = some t := by
  cases k with
  | send hup hin =>
    rw [Session.step?, hup]
    cases hi : s.intake with
    | stopped => exact absurd hi hin
    | _ => rfl
  | drain hin hc hq => simp only [Session.step?, hin, hc, hq]
  | classify hin => simp only [Session.step?, hin]
  | accept hin => simp only [Session.step?, hin]
  | finishIntake hin hc hq hup => simp only [Session.step?, hin, hc, hq, hup]
  | noticeCancel hin hc => simp only [Session.step?, hin, hc]
  | fire hg hdue => rw [Session.step?, if_pos ⟨hg, hdue⟩]
  | handOver hr hne => rw [Session.step?, if_pos ⟨by rw [hr]; rfl, by simpa using hne⟩]
  | finishHandler hr hdue => simp only [Session.step?, hr, hdue, if_true]
  | pass hquiet halarms => rw [Session.step?, if_pos ⟨hquiet, halarms⟩]
  | _ => rfl

theorem alike_handOver (h : Handler) (s : Session σ) : s.Alike (s.handOver h) := by
  obtain ⟨running, reports, heq⟩ := s.handOver_eq h
  rw [heq]
  exact ⟨rfl, s.state.alike_takeBatch, rfl, rfl, rfl, rfl⟩

theorem alike_finishHandler (h : Handler) (r : Running) (s : Session σ) :
    s.Alike (s.finishHandler h r) := by
  cases h <;> exact ⟨rfl, .refl _, rfl, rfl, rfl, rfl⟩

theorem alike_of_isAside (hx : s.step? w h x = some t) (haside : x.isAside) : s.Alike t := by
  cases takes_of_step? hx with
  | handOver => exact alike_handOver h s
  | finishHandler => exact alike_finishHandler h _ s
  | pass => exact ⟨rfl, .refl _, rfl, rfl, rfl, rfl⟩
  | _ => cases haside

theorem fire_in_vain (hs : s.Timed) {g : Nat}
    (hvain : ¬s.state.timer.any fun a => a.generation = g) : s.state.fire g = s.state := by
  by_cases hg : g = s.state.generation
  · have hnone : s.state.timer = none := by
      rw [Option.eq_none_iff_forall_ne_some]
      intro a ha
      rw [ha, hg, Option.any_some, (hs.set a ha).1] at hvain
      exact hvain (decide_eq_true rfl)
    have hnil := hs.timer_eq_none_iff.mp hnone
    rw [State.fire, hnil, ← hnone]
    split <;> simp [← hnil]
  · exact State.fire_eq_self hg

theorem alike_of_not_isTurn (hx : s.step? w h x = some t) (hs : s.Timed)
    (hturn : (Move.mk s x t).isTurn = false) : s.Alike t := by
  cases haside : x.isAside with
  | true => exact alike_of_isAside hx haside
  | false =>
    rw [Move.isTurn, haside] at hturn
    cases takes_of_step? hx with
    | fire =>
      rw [fire_in_vain hs (by simpa using hturn)]
      exact .refl s
    | _ => cases hturn

theorem now_of_not_pass (hx : s.step? w h x = some t) (hno : ∀ ms, x ≠ .pass ms) :
    t.now = s.now := by
  cases takes_of_step? hx with
  | handOver => exact handOver_now h s
  | finishHandler => exact finishHandler_now h _ s
  | pass => exact absurd rfl (hno _)
  | _ => rfl

theorem now_le (hx : s.step? w h x = some t) : s.now ≤ t.now := by
  cases takes_of_step? hx with
  | handOver => exact (handOver_now h s).ge
  | finishHandler => exact (finishHandler_now h _ s).ge
  | pass => exact Nat.le_add_right ..
  | _ => exact le_rfl

theorem Run.now_le (hrun : Run w h s ms t) : ∀ m ∈ ms, s.now ≤ m.after.now := by
  induction hrun with
  | nil => exact List.forall_mem_nil _
  | cons hx _ ih =>
    have hfirst := Session.now_le hx
    exact List.forall_mem_cons.mpr ⟨hfirst, fun m hm => hfirst.trans (ih m hm)⟩

theorem taken_eq (hx : s.step? w h x = some t) : (Move.mk s x t).taken = match x with
    | .fire g => s.state.takenBy g
    | _ => [] := by
  have still {t : Session σ} (hw : t.state.waiting = s.state.waiting) :
      (Move.mk s x t).taken = [] := by
    rw [Move.taken, hw, List.drop_length]
  cases takes_of_step? hx with
  | classify => exact still (s.state.keeps_classify ..).waiting
  | accept => exact still (State.accept_waiting ..)
  | noticeCancel => exact still (shutdown_waiting _)
  | close => exact still (shutdown_waiting _)
  | fire => rw [Move.taken, State.waiting_fire, List.drop_left]
  | handOver =>
    obtain ⟨stats, heq⟩ := s.state.takeBatch_eq
    rw [Move.taken, handOver_state, heq]
    exact List.drop_eq_nil_of_le (by simp)
  | finishHandler => exact still (by rw [finishHandler_state])
  | _ => exact still rfl

theorem taken_of_not_isTurn (hx : s.step? w h x = some t) (hs : s.Timed)
    (hturn : (Move.mk s x t).isTurn = false) : (Move.mk s x t).taken = [] := by
  rw [taken_eq hx]
  cases takes_of_step? hx with
  | @fire g =>
    -- Whatever is taken is pending no longer.
    rw [Move.isTurn] at hturn
    have hwaiting := congrArg State.waiting (fire_in_vain hs (by simpa [Step.isAside] using hturn))
    rw [State.waiting_fire, List.append_right_eq_self] at hwaiting
    exact hwaiting
  | _ => rfl

theorem Level.step (k : s.Level t) (hx : s.step? w h x = some u) (haside : x.isAside = false)
    (h' : Handler) : ∃ v, t.step? w h' x = some v ∧ u.Level v := by
  have hkeep := k.toAlike
  cases takes_of_step? hx with
  | send hup hin =>
    exact ⟨_, (Takes.send (k.hungUp ▸ hup) (k.intake ▸ hin)).step?,
      { hkeep with queue := by rw [k.queue] }, k.now⟩
  | hangUp => exact ⟨_, Takes.hangUp.step?, { hkeep with hungUp := rfl }, k.now⟩
  | drain hin hc hq =>
    exact ⟨_, (Takes.drain (k.intake ▸ hin) (k.state.cancelled ▸ hc) (k.queue ▸ hq)).step?,
      { hkeep with queue := rfl, intake := rfl }, k.now⟩
  | classify hin =>
    obtain ⟨hsame, hafter⟩ := k.state.classify (w := w) (.refl _) rfl s.fs _
    rw [k.fs] at hsame hafter
    exact ⟨_, (Takes.classify (k.intake ▸ hin)).step?,
      { hkeep with intake := by rw [k.fs, hsame], state := by rw [k.fs]; exact hafter }, k.now⟩
  | accept hin =>
    refine ⟨_, (Takes.accept (k.intake ▸ hin)).step?,
      { hkeep with intake := rfl, state := ?_ }, k.now⟩
    rw [k.now]
    exact k.state.accept ..
  | finishIntake hin hc hq hup =>
    exact ⟨_, (Takes.finishIntake (k.intake ▸ hin) (k.state.cancelled ▸ hc) (k.queue ▸ hq)
      (k.hungUp ▸ hup)).step?, { hkeep with intake := rfl }, k.now⟩
  | noticeCancel hin hc =>
    exact ⟨_, (Takes.noticeCancel (k.intake ▸ hin) (k.state.cancelled ▸ hc)).step?,
      { hkeep with intake := rfl, queue := rfl, state := k.state.shutdown }, k.now⟩
  | fire hg hdue =>
    refine ⟨_, (Takes.fire (k.state.generation ▸ hg) ?_).step?,
      { hkeep with state := k.state.fire _ }, k.now⟩
    rw [← k.state.timer]
    simpa only [isDue, ← k.now] using hdue
  | close => exact ⟨_, Takes.close.step?, { hkeep with state := k.state.cancel.shutdown }, k.now⟩
  | cancel =>
    exact ⟨_, Takes.cancel.step?,
      { hkeep with parentCancelled := rfl, state := k.state.cancel }, k.now⟩
  | change => exact ⟨_, Takes.change.step?, { hkeep with fs := by rw [k.fs] }, k.now⟩
  | _ => cases haside

end Session

end ChunkWatch.Watch
