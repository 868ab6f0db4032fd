import ChunkWatch.Proofs.Watch.Run

namespace ChunkWatch.Watch

variable {σ : Type}

def Step.isEnding : Step → Bool
  | close | cancel => true
  | _ => false

def Session.inHand (s : Session σ) : List Path :=
  match s.intake with
  | .classifying _ paths => paths
  | _ => []

namespace Move

def contributed (w : Settings σ) (m : Move σ) : List Path :=
  match m.step, m.before.intake with
  | .classify, .classifying (e :: _) _ => (m.before.state.classify w m.before.fs e).1
  | _, _ => []

def handedIn (m : Move σ) : List Path :=
  match m.step with
  | .accept => m.before.inHand
  | _ => []

def accepted (m : Move σ) : List Path :=
  match m.step with
  | .accept => if m.before.state.closed then [] else m.before.inHand
  | _ => []

theorem handedIn_of_ne {m : Move σ} (h : m.step ≠ .accept) : m.handedIn = [] := by
  rw [handedIn]
  split
  next hstep => exact absurd hstep h
  · rfl

theorem accepted_eq_handedIn {m : Move σ} (h : m.before.state.closed = false) :
    m.accepted = m.handedIn := by
  rw [accepted, handedIn]
  split
  · rw [h, if_neg Bool.false_ne_true]
  · rfl

def taken (m : Move σ) : List (List Path) :=
  m.after.state.waiting.drop m.before.state.waiting.length

/-- All that a step does to the paths of an open session: it adds accepted paths to the pending
ones, or it takes all pending ones as a batch. -/
inductive Flows (m : Move σ) : Prop
  | adds : m.taken = [] →
      m.after.state.pending = Path.insertAll m.accepted m.before.state.pending → Flows m
  | takes : m.accepted = [] → m.before.state.pending ≠ [] →
      m.taken = [m.before.state.pending] → m.after.state.pending = [] → Flows m

end Move

structure Session.IsOpen (s : Session σ) : Prop where
  closed : s.state.closed = false
  cancelled : s.state.cancelled = false

namespace Session

variable {w : Settings σ} {h : Handler}

theorem IsOpen.step {s t : Session σ} {x : Step} (hs : s.IsOpen) (hx : s.step? w h x = some t)
    (hx' : ¬x.isEnding) : t.IsOpen := by
  cases takes_of_step? hx with
  | classify =>
    have k := s.state.keeps_classify
    exact ⟨(k ..).closed.trans hs.closed, (k ..).cancelled.trans hs.cancelled⟩
  | accept =>
    simp only [State.accept]
    split <;> exact ⟨hs.closed, hs.cancelled⟩
  | noticeCancel _ hc => simp [hs.cancelled] at hc
  | fire =>
    simp only [State.fire]
    split <;> exact ⟨hs.closed, hs.cancelled⟩
  | handOver =>
    obtain ⟨stats, heq⟩ := s.state.takeBatch_eq
    constructor <;> rw [handOver_state, heq]
    · exact hs.closed
    · exact hs.cancelled
  | finishHandler =>
    constructor <;> rw [finishHandler_state]
    · exact hs.closed
    · exact hs.cancelled
  | close => simp [Step.isEnding] at hx'
  | cancel => simp [Step.isEnding] at hx'
  | _ => exact ⟨hs.closed, hs.cancelled⟩

theorem flows {s t : Session σ} {x : Step} (hs : s.IsOpen) (hx : s.step? w h x = some t)
    (hx' : ¬x.isEnding) : (Move.mk s x t).Flows := by
  -- A step that leaves the pending and the waiting paths alone adds nothing to either.
  have still {t : Session σ} (hacc : (Move.mk s x t).accepted = [])
      (hp : t.state.pending = s.state.pending) (hw : t.state.waiting = s.state.waiting) :
      (Move.mk s x t).Flows :=
    .adds (by simp [Move.taken, hw]) (by rw [hacc]; exact hp)
  cases takes_of_step? hx with
  | classify =>
    have k := s.state.keeps_classify
    exact still rfl (k ..).pending (k ..).waiting
  | accept hin =>
    refine .adds (by simp [Move.taken, State.accept_waiting]) ?_
    simp only [Move.accepted, hs.closed, Bool.false_eq_true, ↓reduceIte, inHand, hin]
    exact State.accept_pending hs.closed ..
  | noticeCancel _ hc => simp [hs.cancelled] at hc
  | fire =>
    simp only [State.fire]
    split
    · exact still rfl rfl rfl
    next =>
      cases hp : s.state.pending with
      | nil => exact still rfl (by simp [hp]) (by simp)
      | cons p ps => exact .takes rfl (by simp [hp]) (by simp [Move.taken, hp]) rfl
  | handOver =>
    obtain ⟨stats, heq⟩ := s.state.takeBatch_eq
    refine .adds ?_ ?_
    · simp only [Move.taken, handOver_state, heq]
      exact List.drop_eq_nil_of_le (by simp)
    · simp only [handOver_state, heq]
      rfl
  | finishHandler => exact still rfl (by simp) (by simp)
  | close => simp [Step.isEnding] at hx'
  | cancel => simp [Step.isEnding] at hx'
  | _ => exact still rfl rfl rfl

theorem inHand_step {s t : Session σ} {x : Step} (hx : s.step? w h x = some t) :
    s.inHand ++ (Move.mk s x t).contributed w = (Move.mk s x t).handedIn ++ t.inHand := by
  cases takes_of_step? hx with
  | drain hin => simp [Move.contributed, Move.handedIn, inHand, hin]
  | classify hin => simp [Move.contributed, Move.handedIn, inHand, hin]
  | accept hin => simp [Move.contributed, Move.handedIn, inHand, hin]
  | finishIntake hin => simp [Move.contributed, Move.handedIn, inHand, hin]
  | noticeCancel hin => simp [Move.contributed, Move.handedIn, inHand, hin]
  | handOver => simp [Move.contributed, Move.handedIn, inHand]
  | finishHandler => simp [Move.contributed, Move.handedIn, inHand]
  | _ => simp [Move.contributed, Move.handedIn, inHand]

theorem Run.isOpen {s t : Session σ} {ms : List (Move σ)} (hs : s.IsOpen) (hrun : Run w h s ms t)
    (hms : ∀ m ∈ ms, ¬m.step.isEnding) : t.IsOpen :=
  hrun.invariant hs fun m hm hb hx => hb.step hx (hms m hm)

theorem Run.inHand {s t : Session σ} {ms : List (Move σ)} (hrun : Run w h s ms t)
    (hs : s.IsOpen) (hms : ∀ m ∈ ms, ¬m.step.isEnding) :
    s.inHand ++ ms.flatMap (Move.contributed w) = ms.flatMap Move.accepted ++ t.inHand := by
  induction hrun with
  | nil => simp
  | @cons s x t ms u hx _ ih =>
    simp only [List.forall_mem_cons] at hms
    have hrest := ih (hs.step hx hms.1) hms.2
    have haccepted : (Move.mk s x t).accepted = (Move.mk s x t).handedIn :=
      Move.accepted_eq_handedIn hs.closed
    simp only [List.flatMap_cons]
    rw [← List.append_assoc, inHand_step hx, haccepted, List.append_assoc, hrest,
      List.append_assoc]

theorem Run.isIn_pending {s t : Session σ} {ms : List (Move σ)} (hrun : Run w h s ms t)
    (hs : s.IsOpen) (hms : ∀ m ∈ ms, ¬m.step.isEnding) (p : Path) :
    p.isIn (ms.flatMap Move.accepted) ∨ p.isIn s.state.pending ↔
      (∃ b ∈ ms.flatMap Move.taken, p.isIn b) ∨ p.isIn t.state.pending := by
  induction hrun with
  | nil => simp
  | @cons s x t ms u hx _ ih =>
    simp only [List.forall_mem_cons] at hms
    have hrest := ih (hs.step hx hms.1) hms.2
    simp only [List.flatMap_cons, Path.isIn_append, List.mem_append, or_and_right, exists_or]
    cases flows hs hx hms.1 with
    | adds htaken hpending =>
      rw [show t.state.pending = _ from hpending, Path.isIn_insertAll] at hrest
      simp only [htaken, List.not_mem_nil, false_and, exists_false, false_or]
      rw [← hrest]
      simp only [or_assoc, or_left_comm]
    | takes hacc _ htaken hpending =>
      rw [show t.state.pending = _ from hpending] at hrest
      simp only [Path.not_isIn_nil, Bool.false_eq_true, or_false] at hrest
      simp only [hacc, htaken, List.mem_singleton, exists_eq_left, Path.not_isIn_nil,
        Bool.false_eq_true, false_or]
      rw [hrest]
      simp only [or_comm, or_left_comm]

theorem Run.isIn_next {s t : Session σ} {ms : List (Move σ)} (hrun : Run w h s ms t)
    (hs : s.IsOpen) (hms : ∀ m ∈ ms, ¬m.step.isEnding) {p : Path} (hp : p.isIn s.state.pending) :
    p.isIn ((ms.flatMap Move.taken).head?.getD t.state.pending) := by
  induction hrun with
  | nil => exact hp
  | @cons s x t ms u hx _ ih =>
    simp only [List.forall_mem_cons] at hms
    rw [List.flatMap_cons]
    cases flows hs hx hms.1 with
    | adds htaken hpending =>
      rw [htaken]
      refine ih (hs.step hx hms.1) hms.2 ?_
      rw [show t.state.pending = _ from hpending, Path.isIn_insertAll]
      exact .inr hp
    | takes _ _ htaken _ =>
      rw [htaken]
      exact hp

theorem Run.ascending {s t : Session σ} {ms : List (Move σ)} (hrun : Run w h s ms t)
    (hs : s.IsOpen) (hms : ∀ m ∈ ms, ¬m.step.isEnding) (hp : Path.Ascending s.state.pending) :
    (∀ b ∈ ms.flatMap Move.taken, b ≠ [] ∧ Path.Ascending b) ∧
      Path.Ascending t.state.pending := by
  induction hrun with
  | nil => exact ⟨by simp, hp⟩
  | @cons s x t ms u hx _ ih =>
    simp only [List.forall_mem_cons] at hms
    rw [List.flatMap_cons]
    have hrest := ih (hs.step hx hms.1) hms.2
    cases flows hs hx hms.1 with
    | adds htaken hpending =>
      rw [htaken]
      exact hrest (hpending ▸ hp.insertAll)
    | takes _ hne htaken hpending =>
      obtain ⟨hbatches, hlast⟩ := hrest (hpending ▸ .nil)
      refine ⟨?_, hlast⟩
      rw [htaken]
      simp only [List.singleton_append, List.forall_mem_cons]
      exact ⟨⟨hne, hp⟩, hbatches⟩

def IsArmed (s : Session σ) : Prop :=
  s.state.pending ≠ [] → ∃ d, s.state.timer = some ⟨s.state.generation, d⟩

theorem IsArmed.of_keeps {s t : Session σ} (hs : s.IsArmed) (h : s.state.Keeps t.state) :
    t.IsArmed := by
  rw [IsArmed, h.pending, h.timer, h.generation]
  exact hs

theorem IsArmed.step {s t : Session σ} {x : Step} (hs : s.IsArmed)
    (hx : s.step? w h x = some t) : t.IsArmed := by
  cases takes_of_step? hx with
  | classify => exact hs.of_keeps (s.state.keeps_classify ..)
  | accept =>
    simp only [State.accept]
    split
    · exact hs
    · exact fun _ => ⟨_, rfl⟩
  | noticeCancel =>
    simp only [State.shutdown]
    split
    · exact hs
    · exact fun hne => absurd rfl hne
  | fire =>
    simp only [State.fire]
    split
    · exact hs
    · exact fun hne => absurd rfl hne
  | handOver =>
    obtain ⟨stats, heq⟩ := s.state.takeBatch_eq
    rw [IsArmed, handOver_state, heq]
    exact hs
  | finishHandler =>
    rw [IsArmed, finishHandler_state]
    exact hs
  | close =>
    simp only [State.close, State.shutdown]
    split
    · exact hs
    · exact fun hne => absurd rfl hne
  | _ => exact hs

theorem fire_takes_pending {s : Session σ} (hs : s.state.closed = false) {d : Nat}
    (hne : s.state.pending ≠ []) (htimer : s.state.timer = some ⟨s.state.generation, d⟩)
    (hdue : s.isDue d) :
    ∃ t, s.step? w h (.fire s.state.generation) = some t ∧
      t.state.waiting = s.state.waiting ++ [s.state.pending] := by
  refine ⟨{ s with state := s.state.fire s.state.generation }, ?_, ?_⟩
  · simp [step?, htimer, hdue]
  · simp [State.fire, hs, hne]

end Session

structure Delivered (w : Settings σ) (h : Handler) (ms : List (Move σ)) (t : Session σ) :
    Prop where
  contributed : ms.flatMap (Move.contributed w) = ms.flatMap Move.accepted ++ t.inHand
  kept : ∀ p : Path, p.isIn (ms.flatMap Move.accepted) ↔
    (∃ b ∈ ms.flatMap Move.taken, p.isIn b) ∨ p.isIn t.state.pending
  /-- A path is in the first batch after each time that it is accepted. -/
  next : ∀ before m after, ms = before ++ m :: after → ∀ p ∈ m.accepted,
    p.isIn ((after.flatMap Move.taken).head?.getD t.state.pending)
  batches : ∀ b ∈ ms.flatMap Move.taken,
    b ≠ [] ∧ Path.Ascending b ∧ b.Pairwise fun p q => ¬p.same q
  ended : ∀ m ∈ ms, m.step = .hangUp ∨ m.step = .finishIntake → m.after.state = m.before.state
  armed : t.state.pending ≠ [] → ∃ d, t.state.timer = some ⟨t.state.generation, d⟩ ∧
    (t.isDue d → ∃ u, t.step? w h (.fire t.state.generation) = some u ∧
      u.state.waiting = t.state.waiting ++ [t.state.pending])

namespace Session

theorem Run.step_of_mem {s t : Session σ} {ms : List (Move σ)} (hrun : Run w h s ms t)
    {m : Move σ} (hm : m ∈ ms) : m.before.step? w h m.step = some m.after := by
  obtain ⟨before, after, rfl⟩ := List.append_of_mem hm
  exact hrun.split.2.1

/-- No accepted path is lost or taken in a later batch than the next one. -/
theorem delivered_of_run {fs : FileSystem} {source : Source} {memory : σ} {s : State σ}
    (hstart : start w fs source memory = .ok s) {ms : List (Move σ)} {t : Session σ}
    (hrun : Run w h (ofState fs s) ms t) (hms : ∀ m ∈ ms, ¬m.step.isEnding) :
    Delivered w h ms t := by
  have hfresh := isFresh_of_start hstart
  have hopen : (ofState fs s).IsOpen := ⟨hfresh.closed, hfresh.cancelled⟩
  have hpending : (ofState fs s).state.pending = [] := hfresh.pending
  have hlast := hrun.isOpen hopen hms
  obtain ⟨hbatches, -⟩ := hrun.ascending hopen hms (hpending ▸ .nil)
  have harmed : t.IsArmed :=
    hrun.invariant (fun hne => absurd hpending hne) fun m _ hb hx => hb.step hx
  constructor
  case contributed => simpa [inHand, ofState] using hrun.inHand hopen hms
  case kept =>
    intro p
    simpa [hpending] using hrun.isIn_pending hopen hms p
  case next =>
    rintro before m after rfl p hp
    obtain ⟨hbefore, hm, hafter⟩ := hrun.split
    simp only [List.mem_append, List.mem_cons] at hms
    have hb := hbefore.isOpen hopen fun n hn => hms n (.inl hn)
    have hm' := hms m (.inr (.inl rfl))
    refine hafter.isIn_next (hb.step hm hm') (fun n hn => hms n (.inr (.inr hn))) ?_
    cases flows hb hm hm' with
    | adds _ hadds => exact hadds ▸ Path.isIn_insertAll.mpr (.inl (Path.isIn_of_mem hp))
    | takes hacc => exact absurd hp (by rw [hacc]; exact List.not_mem_nil)
  case batches =>
    intro b hb
    obtain ⟨hne, hasc⟩ := hbatches b hb
    exact ⟨hne, hasc, hasc.pairwise_not_same⟩
  case ended =>
    rintro ⟨b, x, a⟩ hm hx
    have hstep : Takes w h b x a := takes_of_step? (hrun.step_of_mem hm)
    obtain rfl | rfl : x = .hangUp ∨ x = .finishIntake := hx
    · cases hstep; rfl
    · cases hstep; rfl
  case armed =>
    intro hne
    obtain ⟨d, hd⟩ := harmed hne
    exact ⟨d, hd, fire_takes_pending hlast.closed hne hd⟩

end Session

-- A run to see it by: of `/w/a` and `/w/b` both change, one of them once more before the timer
-- goes off, and then the events end.
def Settings.takingAll (root : Path) (debounce : Nat) : Settings Unit :=
  ⟨⟨root, [], .ofPaths fun _ => false⟩, debounce, true⟩

def twoFiles : FileSystem :=
  ⟨.cons (.ofString "w")
    (.dir (.cons (.ofString "a") (.file []) (.cons (.ofString "b") (.file []) .nil))) .nil, []⟩

def State.watching (dirs : List Path) : State Unit where
  memory := ()
  pending := []
  timer := none
  generation := 0
  closed := false
  cancelled := false
  source := { Source.ofDirectories with registered := dirs, calls := dirs }
  dirs := dirs
  stats := { Stats.zero with dirs := dirs.length }
  waiting := []

namespace Session

def twoRounds : List Step :=
  let a := Event.change (.ofString "/w/a") .write
  let b := Event.change (.ofString "/w/b") .write
  [.send b, .send a, .drain, .classify, .classify, .accept, .pass 3, .send b, .drain, .classify,
    .accept, .fire 1, .pass 5, .hangUp, .finishIntake, .fire 2]

def twoRoundsRun : List (Move Unit) × Session Unit :=
  follow (.takingAll (.ofString "/w") 5) .channel twoRounds
    (ofState twoFiles (.watching [.ofString "/w"]))

theorem delivered_of_two_rounds :
    start (.takingAll (.ofString "/w") 5) twoFiles .ofDirectories () =
        .ok (.watching [.ofString "/w"]) ∧
      (∀ m ∈ twoRoundsRun.1, ¬m.step.isEnding) ∧ twoRoundsRun.1.length = twoRounds.length ∧
      twoRoundsRun.1.flatMap Move.accepted = [.ofString "b", .ofString "a", .ofString "b"] ∧
      twoRoundsRun.1.flatMap Move.taken = [[.ofString "a", .ofString "b"]] ∧
      Delivered (.takingAll (.ofString "/w") 5) .channel twoRoundsRun.1 twoRoundsRun.2 := by
  have hstart : start (.takingAll (.ofString "/w") 5) twoFiles .ofDirectories () =
      .ok (.watching [.ofString "/w"]) := rfl
  have hms : ∀ m ∈ twoRoundsRun.1, ¬m.step.isEnding := by decide +kernel
  refine ⟨hstart, hms, ?_, ?_, ?_, delivered_of_run hstart (run_follow ..) hms⟩
  all_goals decide +kernel

end Session

end ChunkWatch.Watch
