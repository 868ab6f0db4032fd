import ChunkWatch.Proofs.Watch.Closing

/-! Cancelling a session.  It is the intake that notices and closes the session, so one whose intake
has come to the end of the events before stays open until it is closed by hand. -/

namespace ChunkWatch.Watch

variable {σ : Type}

namespace Session

variable {w : Settings σ} {h : Handler} {s t : Session σ} {x : Step} {ms : List (Move σ)}

@[simp] theorem handOver_parentCancelled (h : Handler) (s : Session σ) :
    (s.handOver h).parentCancelled = s.parentCancelled := by
  obtain ⟨running, reports, heq⟩ := s.handOver_eq h
  rw [heq]

@[simp] theorem finishHandler_parentCancelled (h : Handler) (r : Running) (s : Session σ) :
    (s.finishHandler h r).parentCancelled = s.parentCancelled := by
  cases h <;> rfl

def Heeds (s : Session σ) : Prop := s.parentCancelled = true → s.state.cancelled = true

theorem heeds_step (hx : s.step? w h x = some t) (hs : s.Heeds) : t.Heeds := by
  intro hparent
  by_cases hcancel : x = .cancel
  · subst hcancel
    exact cancelled_of_isEnding hx rfl
  · apply cancelled_step hx
    apply hs
    cases takes_of_step? hx with
    | handOver => rwa [handOver_parentCancelled] at hparent
    | finishHandler => rwa [finishHandler_parentCancelled] at hparent
    | cancel => exact absurd rfl hcancel
    | _ => exact hparent

theorem stopped_of_next?_eq_none (hquiet : s.next? = none) (hc : s.state.cancelled = true) :
    s.intake = .stopped := by
  rw [next?, hc] at hquiet
  cases hin : s.intake with
  | waiting =>
    rw [hin] at hquiet
    cases hquiet
  | classifying es paths =>
    rw [hin] at hquiet
    cases es <;> cases hquiet
  | stopped => rfl

theorem closed_step_iff (hx : s.step? w h x = some t) : t.state.closed = true ↔
    s.state.closed = true ∨ x = .close ∨ x = .noticeCancel := by
  constructor
  · intro ht
    cases takes_of_step? hx with
    | classify => exact .inl ((s.state.keeps_classify ..).closed.symm.trans ht)
    | accept =>
      rw [State.accept] at ht
      split at ht <;> exact .inl ht
    | noticeCancel => exact .inr (.inr rfl)
    | fire =>
      rw [State.fire] at ht
      split at ht <;> exact .inl ht
    | handOver =>
      obtain ⟨stats, heq⟩ := s.state.takeBatch_eq
      rw [handOver_state, heq] at ht
      exact .inl ht
    | finishHandler =>
      rw [finishHandler_state] at ht
      exact .inl ht
    | close => exact .inr (.inl rfl)
    | _ => exact .inl ht
  · rintro (hs | rfl | rfl)
    · rw [← Bool.not_eq_false]
      exact fun ht => Bool.false_ne_true ((closed_step hx ht).symm.trans hs)
    · cases takes_of_step? hx
      exact shutdown_closed _
    · cases takes_of_step? hx
      exact shutdown_closed _

theorem stopped_step (hx : s.step? w h x = some t) (hs : s.intake = .stopped) :
    t.intake = .stopped ∧ x ≠ .finishIntake ∧ x ≠ .noticeCancel := by
  cases takes_of_step? hx with
  | drain hin => cases hin.symm.trans hs
  | classify hin => cases hin.symm.trans hs
  | accept hin => cases hin.symm.trans hs
  | finishIntake hin => cases hin.symm.trans hs
  | noticeCancel hin => cases hin.symm.trans hs
  | handOver => simp [hs]
  | finishHandler => simp [hs]
  | _ => exact ⟨hs, by simp, by simp⟩

theorem stopped_of_stopped_after (hx : s.step? w h x = some t) (ht : t.intake = .stopped) :
    s.intake = .stopped ∨ x = .finishIntake ∨ x = .noticeCancel := by
  cases takes_of_step? hx with
  | drain => cases ht
  | classify => cases ht
  | accept => cases ht
  | finishIntake => exact .inr (.inl rfl)
  | noticeCancel => exact .inr (.inr rfl)
  | handOver => exact .inl (by rwa [handOver_intake] at ht)
  | finishHandler => exact .inl (by rwa [finishHandler_intake] at ht)
  | _ => exact .inl ht

theorem Run.closed_iff (hrun : Run w h s ms t) : t.state.closed = true ↔
    s.state.closed = true ∨ ∃ m ∈ ms, m.step = .close ∨ m.step = .noticeCancel := by
  induction hrun with
  | nil => simp
  | cons hx _ ih => simp [ih, closed_step_iff hx, or_assoc]

theorem Run.stopped (hrun : Run w h s ms t) (ht : t.intake = .stopped) : s.intake = .stopped ∨
    ∃ m ∈ ms, m.step = .finishIntake ∨ m.step = .noticeCancel := by
  induction hrun with
  | nil => exact .inl ht
  | cons hx _ ih =>
    rcases ih ht with ht | ⟨m, hm, hstops⟩
    · exact (stopped_of_stopped_after hx ht).imp_right fun hstops => ⟨_, List.mem_cons_self, hstops⟩
    · exact .inr ⟨m, List.mem_cons_of_mem _ hm, hstops⟩

theorem Run.not_stops (hrun : Run w h s ms t) (hs : s.intake = .stopped) :
    ∀ m ∈ ms, m.step ≠ .finishIntake ∧ m.step ≠ .noticeCancel := by
  induction hrun with
  | nil => exact List.forall_mem_nil _
  | cons hx _ ih =>
    obtain ⟨ht, hstops⟩ := stopped_step hx hs
    exact List.forall_mem_cons.mpr ⟨hstops, ih ht⟩

theorem stopped_of_stops (hx : s.step? w h x = some t)
    (hstops : x = .finishIntake ∨ x = .noticeCancel) : t.intake = .stopped := by
  rcases hstops with rfl | rfl <;> cases takes_of_step? hx <;> rfl

theorem Run.not_noticed (hrun : Run w h s ms t) (hfinish : ∃ m ∈ ms, m.step = .finishIntake) :
    ∀ m ∈ ms, m.step ≠ .noticeCancel := by
  induction hrun with
  | nil => exact List.forall_mem_nil _
  | cons hx hrest ih =>
    obtain ⟨m, hm, hfinish⟩ := hfinish
    rcases List.mem_cons.mp hm with rfl | hm
    · have hbehind := hrest.not_stops (stopped_of_stops hx (.inl hfinish))
      have hfirst : Step.finishIntake ≠ .noticeCancel := nofun
      exact List.forall_mem_cons.mpr ⟨hfinish ▸ hfirst, fun m hm => (hbehind m hm).2⟩
    · refine List.forall_mem_cons.mpr ⟨fun hnotice => ?_, ih ⟨m, hm, hfinish⟩⟩
      exact (hrest.not_stops (stopped_of_stops hx (.inr hnotice)) m hm).1 hfinish

/-- A session that is cancelled and has come to rest is closed, unless its intake had come to the
end of the events before: then only closing it does so. -/
theorem shut_at_rest_iff {fs : FileSystem} {source : Source} {memory : σ} {state : State σ}
    (hstart : start w fs source memory = .ok state) (hrun : Run w h (ofState fs state) ms t)
    (hrest : t.next? = none) (hcancelled : t.parentCancelled = true) :
    (t.state.Shut (source.closes + 1) ↔
      ((∃ m ∈ ms, m.step = .finishIntake) → ∃ m ∈ ms, m.step = .close)) ∧
    (¬t.state.Shut (source.closes + 1) →
      t.state.status ≠ .closed ∧ t.state.source.closes = source.closes) := by
  have hfresh := isFresh_of_start hstart
  have htidy : t.state.Tidy source.closes :=
    hrun.invariant (P := fun s => s.state.Tidy source.closes) (tidy_of_start hstart)
      fun _ _ hb hx => tidy_step hx hb
  have hheeds : t.Heeds := hrun.invariant (P := Heeds) nofun fun _ _ hb hx => heeds_step hx hb
  have hstopped : ∃ m ∈ ms, m.step = .finishIntake ∨ m.step = .noticeCancel :=
    (hrun.stopped (stopped_of_next?_eq_none hrest (hheeds hcancelled))).resolve_left nofun
  have hshut : t.state.Shut (source.closes + 1) ↔ t.state.closed = true :=
    ⟨State.Shut.closed, fun hclosed => htidy.resolve_left fun hopen => by simp [hopen.1] at hclosed⟩
  refine ⟨?_, fun hnot => ?_⟩
  · rw [hshut, hrun.closed_iff]
    constructor
    · rintro (hclosed | ⟨m, hm, hclose | hnotice⟩) hfinish
      · exact absurd (hfresh.closed.symm.trans hclosed) Bool.false_ne_true
      · exact ⟨m, hm, hclose⟩
      · exact absurd hnotice (hrun.not_noticed hfinish m hm)
    · intro hclose
      obtain ⟨m, hm, hfinish | hnotice⟩ := hstopped
      · obtain ⟨m, hm, hclose⟩ := hclose ⟨m, hm, hfinish⟩
        exact .inr ⟨m, hm, .inl hclose⟩
      · exact .inr ⟨m, hm, .inr hnotice⟩
  · obtain ⟨hopen, hcloses⟩ := htidy.resolve_right hnot
    exact ⟨fun hclosed => by simp [State.status_eq_closed_iff.mp hclosed] at hopen, hcloses⟩

-- A run to see it by: the events end while a path is pending, and then the session is cancelled.
def endedPending : List Step :=
  [.send (.change (.ofString "/w/a") .write), .drain, .classify, .accept, .hangUp, .finishIntake,
    .cancel]

def endedPendingRun : List (Move Unit) × Session Unit :=
  follow (.takingAll (.ofString "/w") 5) .channel endedPending
    (ofState twoFiles (.watching [.ofString "/w"]))

theorem open_after_ended_pending :
    start (.takingAll (.ofString "/w") 5) twoFiles .ofDirectories () =
        .ok (.watching [.ofString "/w"]) ∧
      endedPendingRun.1.map Move.step = endedPending ∧ endedPendingRun.2.next? = none ∧
      endedPendingRun.2.parentCancelled = true ∧
      endedPendingRun.2.state.status ≠ .closed ∧ endedPendingRun.2.state.source.closes = 0 := by
  have hstart : start (.takingAll (.ofString "/w") 5) twoFiles .ofDirectories () =
      .ok (.watching [.ofString "/w"]) := rfl
  have hsteps : endedPendingRun.1.map Move.step = endedPending := by rfl
  have hrest : endedPendingRun.2.next? = none := by decide +kernel
  obtain ⟨hshut, hopen⟩ := shut_at_rest_iff hstart (run_follow ..) hrest rfl
  refine ⟨hstart, hsteps, hrest, rfl, hopen fun h => ?_⟩
  have hmem : ∀ x, (∃ m ∈ endedPendingRun.1, m.step = x) ↔ x ∈ endedPending := by
    simp [← hsteps]
  have hclose := (hmem _).mp (hshut.mp h ((hmem _).mpr (by simp [endedPending])))
  simp [endedPending] at hclose

theorem not_always_shut_at_rest : ¬∀ (w : Settings Unit) (h : Handler) (fs : FileSystem)
    (source : Source) (state : State Unit) (ms : List (Move Unit)) (t : Session Unit),
    start w fs source () = .ok state → Run w h (ofState fs state) ms t → t.next? = none →
    t.parentCancelled = true → t.state.status = .closed ∧ source.closes < t.state.source.closes ∧
      t.state.timer = none ∧ t.state.pending = [] := by
  intro h
  have hpending : endedPendingRun.2.state.pending = [.ofString "a"] := by decide +kernel
  obtain ⟨-, -, -, hnone⟩ := h (.takingAll (.ofString "/w") 5) .channel twoFiles .ofDirectories _ _
    endedPendingRun.2 rfl (run_follow ..) (by decide +kernel) rfl
  cases hpending.symm.trans hnone

end Session

end ChunkWatch.Watch
