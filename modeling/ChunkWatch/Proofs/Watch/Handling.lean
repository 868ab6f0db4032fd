import ChunkWatch.Proofs.Watch.Delivery

namespace ChunkWatch.Watch

variable {σ : Type}

def Report.done? : Report → Option (List Path)
  | done _ batch _ => some batch
  | _ => none

def Session.inWork (s : Session σ) : List (List Path) := (s.running.map Running.batch).toList

namespace Move

def begun (m : Move σ) : List (List Path) :=
  if m.before.running.isNone then m.after.inWork else []

def finished (m : Move σ) : List (List Path) :=
  if m.after.running.isNone then m.before.inWork else []

theorem begun_of_same {m : Move σ} (h : m.after.running = m.before.running) : m.begun = [] := by
  rw [begun, Session.inWork, h]
  cases m.before.running <;> rfl

theorem finished_of_same {m : Move σ} (h : m.after.running = m.before.running) :
    m.finished = [] := by
  rw [finished, Session.inWork, h]
  cases m.before.running <;> rfl

inductive Handles (h : Handler) (m : Move σ) : Prop
  | passes {bs} : m.after.running = m.before.running →
      m.after.state.waiting = m.before.state.waiting ++ bs → Handles h m
  | begins {b bs} : m.step = .handOver → m.before.running = none →
      m.before.state.cancelled = false → m.before.state.waiting = b :: bs →
      m.after.state.waiting = bs →
      m.after.running = some ⟨b, m.before.now + h.duration m.after.state.stats.batches⟩ →
      Handles h m
  | drops {b bs} : m.before.running = none → m.before.state.cancelled = true →
      m.before.state.waiting = b :: bs → m.after.state.waiting = bs → m.after.running = none →
      Handles h m
  | finishes {r} : m.step = .finishHandler → m.before.running = some r → m.before.isDue r.stop →
      m.after.running = none → m.after.state.waiting = m.before.state.waiting → Handles h m

end Move

namespace Session

variable {w : Settings σ} {h : Handler} {s t : Session σ} {x : Step}

theorem handOver_of_cancelled (hs : s.state.cancelled = true) :
    s.handOver h = { s with state := s.state.takeBatch.2 } := by
  have hnone : s.state.takeBatch.1 = none := by
    rw [State.takeBatch]
    split
    · rfl
    · simp [hs]
  rw [handOver]
  split
  next htaken => rw [htaken]
  next htaken =>
    rw [htaken] at hnone
    cases hnone

theorem handOver_of_open (hs : s.state.cancelled = false) {b : List Path} {bs : List (List Path)}
    (hwaiting : s.state.waiting = b :: bs) : (s.handOver h).running
      = some ⟨b, s.now + h.duration (s.handOver h).state.stats.batches⟩ := by
  have hbatch : s.state.takeBatch.1 = some b := by
    rw [State.takeBatch, hwaiting]
    simp [hs]
  rw [handOver_state, handOver]
  split
  next htaken =>
    rw [htaken] at hbatch
    cases hbatch
  next htaken =>
    rw [htaken] at hbatch
    cases hbatch
    cases h with
    | working ms =>
      dsimp only
      split <;> simp [report, htaken]
    | channel => simp [report, htaken]
    | gone => simp [htaken]

theorem fire_waiting (g : Nat) (s : State σ) : ∃ bs, (s.fire g).waiting = s.waiting ++ bs := by
  rw [State.fire]
  split
  · exact ⟨[], by simp⟩
  · dsimp only
    split
    · exact ⟨[], by simp⟩
    · exact ⟨_, rfl⟩

theorem shutdown_waiting (s : State σ) : s.shutdown.waiting = s.waiting := by
  rw [State.shutdown]
  split <;> rfl

theorem handles (hx : s.step? w h x = some t) : (Move.mk s x t).Handles h := by
  -- Most steps leave both the handler and the waiting batches alone.
  have still {t : Session σ} (hr : t.running = s.running)
      (hw : t.state.waiting = s.state.waiting) : (Move.mk s x t).Handles h :=
    .passes hr (hw.trans (List.append_nil _).symm)
  cases takes_of_step? hx with
  | classify => exact still rfl (s.state.keeps_classify ..).waiting
  | accept => exact still rfl (State.accept_waiting ..)
  | noticeCancel => exact still rfl (shutdown_waiting _)
  | fire =>
    obtain ⟨bs, hbs⟩ := fire_waiting _ s.state
    exact .passes rfl hbs
  | handOver hnone hne =>
    obtain ⟨b, bs, hwaiting⟩ := List.exists_cons_of_ne_nil hne
    obtain ⟨stats, heq⟩ := s.state.takeBatch_eq
    have hrest : (s.handOver h).state.waiting = bs := by
      rw [handOver_state, heq]
      simp [hwaiting]
    cases hc : s.state.cancelled with
    | true => exact .drops hnone hc hwaiting hrest (by rw [handOver_of_cancelled hc]; exact hnone)
    | false => exact .begins rfl hnone hc hwaiting hrest (handOver_of_open hc hwaiting)
  | finishHandler hr hdue =>
    refine .finishes rfl hr hdue ?_ (by rw [finishHandler_state])
    cases h <;> rfl
  | close => exact still rfl (shutdown_waiting _)
  | _ => exact still rfl rfl

end Session

namespace Move.Handles

variable {h : Handler} {m : Move σ}

theorem inWork (hm : m.Handles h) : m.before.inWork ++ m.begun = m.finished ++ m.after.inWork := by
  cases hm with
  | passes hr _ => simp [begun_of_same hr, finished_of_same hr, Session.inWork, hr]
  | begins _ hnone _ _ _ hr => simp [begun, finished, Session.inWork, hnone, hr]
  | drops hnone _ _ _ hr => simp [begun, finished, Session.inWork, hnone, hr]
  | finishes _ hr _ hnone _ => simp [begun, finished, Session.inWork, hnone, hr]

theorem not_begun (hm : m.Handles h) (hc : m.before.state.cancelled = true) : m.begun = [] := by
  cases hm with
  | passes hr _ => exact begun_of_same hr
  | begins _ _ hopen _ _ _ =>
    rw [hc] at hopen
    cases hopen
  | drops _ _ _ _ hr => simp [begun, Session.inWork, hr]
  | finishes _ hr _ _ _ => simp [begun, hr]

theorem waiting (hm : m.Handles h) (hopen : m.before.state.cancelled = false) :
    m.before.state.waiting ++ m.taken = m.begun ++ m.after.state.waiting := by
  have shrinks {b bs} (hb : m.before.state.waiting = b :: bs) (ha : m.after.state.waiting = bs) :
      m.taken = [] := by
    rw [taken, hb, ha]
    exact List.drop_eq_nil_of_le (by simp)
  cases hm with
  | passes hr hw => rw [begun_of_same hr, taken, hw, List.drop_left, List.nil_append]
  | begins _ hnone _ hb ha hr =>
    rw [shrinks hb ha, ha, hb]
    simp [begun, Session.inWork, hnone, hr]
  | drops _ hc _ _ _ =>
    rw [hc] at hopen
    cases hopen
  | finishes _ hr _ hnone hw => simp [begun, taken, hr, hw]

end Move.Handles

namespace Session

variable {w : Settings σ} {h : Handler} {s t : Session σ} {x : Step} {ms : List (Move σ)}

theorem cancelled_step (hx : s.step? w h x = some t) (hs : s.state.cancelled = true) :
    t.state.cancelled = true := by
  have shut {s : State σ} (hs : s.cancelled = true) : s.shutdown.cancelled = true := by
    rw [State.shutdown]
    split <;> exact hs
  cases takes_of_step? hx with
  | classify => exact (s.state.keeps_classify ..).cancelled.trans hs
  | accept =>
    simp only [State.accept]
    split <;> exact hs
  | noticeCancel => exact shut hs
  | fire =>
    simp only [State.fire]
    split <;> exact hs
  | handOver =>
    obtain ⟨stats, heq⟩ := s.state.takeBatch_eq
    rw [handOver_state, heq]
    exact hs
  | finishHandler =>
    rw [finishHandler_state]
    exact hs
  | close => exact shut rfl
  | cancel => rfl
  | _ => exact hs

theorem cancelled_of_isEnding (hx : s.step? w h x = some t) (hend : x.isEnding) :
    t.state.cancelled = true := by
  cases takes_of_step? hx with
  | close =>
    rw [State.close, State.shutdown]
    split <;> rfl
  | cancel => rfl
  | _ => cases hend

theorem delivered_step (hx : s.step? w .channel x = some t) :
    t.reports = s.reports ++ (Move.mk s x t).begun.map .delivered := by
  have still {t : Session σ} (hreports : t.reports = s.reports) (hr : t.running = s.running) :
      t.reports = s.reports ++ (Move.mk s x t).begun.map .delivered := by
    rw [hreports, Move.begun_of_same hr, List.map_nil, List.append_nil]
  cases takes_of_step? hx with
  | handOver hnone hne =>
    cases hc : s.state.cancelled with
    | true =>
      rw [handOver_of_cancelled hc]
      exact still rfl rfl
    | false =>
      obtain ⟨b, bs, hwaiting⟩ := List.exists_cons_of_ne_nil hne
      have hreports : (s.handOver .channel).reports = s.reports ++ [.delivered b] := by
        simp [handOver, State.takeBatch, hwaiting, hc, report]
      simp [Move.begun, inWork, hnone, handOver_of_open hc hwaiting, hreports]
  | @finishHandler r hr =>
    have hbegun : (Move.mk s .finishHandler (s.finishHandler .channel r)).begun = [] := by
      simp [Move.begun, hr]
    rw [hbegun, List.map_nil, List.append_nil]
    rfl
  | _ => exact still rfl rfl

theorem done_step {ms : Nat → Nat} (hx : s.step? w (.working ms) x = some t) :
    t.reports.filterMap Report.done? =
      s.reports.filterMap Report.done? ++ (Move.mk s x t).finished := by
  have still {t : Session σ} (hreports : t.reports = s.reports) (hr : t.running = s.running) :
      t.reports.filterMap Report.done? =
        s.reports.filterMap Report.done? ++ (Move.mk s x t).finished := by
    rw [hreports, Move.finished_of_same hr, List.append_nil]
  cases takes_of_step? hx with
  | handOver hnone hne =>
    cases hc : s.state.cancelled with
    | true =>
      rw [handOver_of_cancelled hc]
      exact still rfl rfl
    | false =>
      obtain ⟨b, bs, hwaiting⟩ := List.exists_cons_of_ne_nil hne
      have hfinished : (Move.mk s .handOver (s.handOver (.working ms))).finished = [] := by
        simp [Move.finished, handOver_of_open hc hwaiting]
      rw [hfinished, List.append_nil, handOver, State.takeBatch, hwaiting]
      simp only [hc, Bool.false_eq_true, ↓reduceIte]
      split
      · rfl
      · simp [report, Report.done?]
  | finishHandler hr =>
    simp [finishHandler, report, Move.finished, inWork, hr, Report.done?]
  | _ => exact still rfl rfl

theorem Run.inWork (hrun : Run w h s ms t) :
    s.inWork ++ ms.flatMap Move.begun = ms.flatMap Move.finished ++ t.inWork := by
  induction hrun with
  | nil => simp
  | @cons s x t ms u hx _ ih =>
    simp only [List.flatMap_cons]
    rw [← List.append_assoc, (handles hx).inWork, List.append_assoc, ih, List.append_assoc]

theorem Run.delivered (hrun : Run w .channel s ms t) :
    t.reports = s.reports ++ (ms.flatMap Move.begun).map .delivered := by
  induction hrun with
  | nil => simp
  | cons hx _ ih =>
    rw [ih, delivered_step hx, List.flatMap_cons, List.map_append, List.append_assoc]

theorem Run.done {f : Nat → Nat} (hrun : Run w (.working f) s ms t) :
    t.reports.filterMap Report.done? =
      s.reports.filterMap Report.done? ++ ms.flatMap Move.finished := by
  induction hrun with
  | nil => simp
  | cons hx _ ih =>
    rw [ih, done_step hx, List.flatMap_cons, List.append_assoc]

theorem Run.not_begun (hrun : Run w h s ms t) (hs : s.state.cancelled = true) :
    ∀ m ∈ ms, m.begun = [] := by
  induction hrun with
  | nil => simp
  | cons hx _ ih =>
    exact List.forall_mem_cons.mpr ⟨(handles hx).not_begun hs, ih (cancelled_step hx hs)⟩

theorem Run.begun (hrun : Run w h s ms t) :
    ∃ rest, s.state.waiting ++ ms.flatMap Move.taken = ms.flatMap Move.begun ++ rest ∧
      (t.state.cancelled = false → rest = t.state.waiting) := by
  induction hrun with
  | @nil s => exact ⟨s.state.waiting, by simp⟩
  | @cons s x t ms u hx hrest ih =>
    obtain ⟨rest, htaken, hlast⟩ := ih
    cases hc : s.state.cancelled with
    | false =>
      refine ⟨rest, ?_, hlast⟩
      simp only [List.flatMap_cons]
      rw [← List.append_assoc, (handles hx).waiting hc, List.append_assoc, htaken,
        List.append_assoc]
    | true =>
      have hcancelled := hrest.invariant (P := fun s => s.state.cancelled = true)
        (cancelled_step hx hc) fun _ _ hb hm => cancelled_step hm hb
      have hnone : (Move.mk s x t :: ms).flatMap Move.begun = [] :=
        List.flatMap_eq_nil_iff.mpr ((Run.cons hx hrest).not_begun hc)
      refine ⟨_, by rw [hnone, List.nil_append], fun hopen => ?_⟩
      rw [hcancelled] at hopen
      cases hopen

end Session

namespace Session

variable {w : Settings σ} {h : Handler}

theorem begins {s t : Session σ} {x : Step} (hx : s.step? w h x = some t) {r : Running}
    (hs : s.running = none) (hr : t.running = some r) :
    x = .handOver ∧ r.stop = s.now + h.duration t.state.stats.batches := by
  cases handles hx with
  | passes hsame _ => cases hr.symm.trans (hsame.trans hs)
  | begins hstep _ _ _ _ hsome =>
    cases hr.symm.trans hsome
    exact ⟨hstep, rfl⟩
  | drops _ _ _ _ hnone => cases hr.symm.trans hnone
  | finishes _ hsome _ _ _ => cases hs.symm.trans hsome

-- A run to see it by: the second batch waits for the first one, and the third one waits when the
-- session is closed.
def threeBatches : List Step :=
  let a := Event.change (.ofString "/w/a") .write
  let b := Event.change (.ofString "/w/b") .write
  [.send a, .drain, .classify, .accept, .pass 5, .fire 1, .handOver,
    .send b, .drain, .classify, .accept, .pass 5, .fire 2, .pass 10, .finishHandler, .handOver,
    .send a, .drain, .classify, .accept, .pass 5, .fire 3, .close, .noticeCancel, .pass 10,
    .finishHandler, .handOver]

def threeBatchesRun : List (Move Unit) × Session Unit :=
  follow (.takingAll (.ofString "/w") 5) (.working fun _ => 15) threeBatches
    (ofState twoFiles (.watching [.ofString "/w"]))

end Session

end ChunkWatch.Watch
