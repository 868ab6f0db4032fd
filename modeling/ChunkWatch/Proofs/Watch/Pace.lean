import ChunkWatch.Proofs.Watch.Turns

/-! The pace of the handler.  Runs with different handlers have the same turns at the same times,
if what comes from outside does: an event is taken up at once, the timer goes off when it is due,
and neither waits for a batch to be finished.  So the same batches are taken at the same times, and
at any time the same is pending and registered. -/

namespace ChunkWatch.Watch

variable {σ : Type}

namespace Session

variable {w : Settings σ} {h h' : Handler} {s s' t t' : Session σ} {x : Step}
  {ms ns : List (Move σ)}

theorem timed_of_start {fs : FileSystem} {source : Source} {memory : σ} {state : State σ}
    (hstart : start w fs source memory = .ok state) : (ofState fs state).Timed := by
  have hfresh := isFresh_of_start hstart
  refine ⟨fun hne => absurd hfresh.pending hne, fun a ha => ?_⟩
  cases (show state.timer = none from hfresh.timer).symm.trans ha

/-- Two sessions that go through the same turns, of which one may be ahead of the other in time
when there is nothing to do but to wait. -/
structure Abreast (s t : Session σ) : Prop where
  alike : s.Alike t
  timed : s.Timed
  timed' : t.Timed
  now : s.now = t.now ∨ s.isResting

theorem Abreast.symm (k : Abreast s t) : Abreast t s :=
  ⟨k.alike.symm, k.timed', k.timed, k.now.imp Eq.symm fun hrest => k.alike.isResting ▸ hrest⟩

theorem Abreast.aside (k : Abreast s t) (hx : s.step? w h x = some s')
    (hturn : (Move.mk s x s').isTurn = false) : Abreast s' t := by
  have hsame := alike_of_not_isTurn hx k.timed hturn
  refine ⟨hsame.symm.trans k.alike, k.timed.step hx, k.timed', ?_⟩
  rw [← hsame.isResting]
  by_cases hpass : ∃ ms, x = .pass ms
  · obtain ⟨ms, rfl⟩ := hpass
    cases takes_of_step? hx with
    | pass hquiet => exact .inr (isResting_of_isQuiet hquiet)
  · rw [now_of_not_pass hx fun ms hms => hpass ⟨ms, hms⟩]
    exact k.now

theorem isInput_or_fire_of_isResting (hx : s.step? w h x = some s') (haside : x.isAside = false)
    (hrest : s.isResting) : x.isInput ∨ ∃ g, x = .fire g := by
  rw [isResting] at hrest
  cases takes_of_step? hx with
  | drain hin hc hq => simp [hin, hq] at hrest
  | classify hin => simp [hin] at hrest
  | accept hin => simp [hin] at hrest
  | finishIntake hin _ _ hup => simp [hin, hup] at hrest
  | noticeCancel hin hc => simp [hin, hc] at hrest
  | fire => exact .inr ⟨_, rfl⟩
  | handOver => cases haside
  | finishHandler => cases haside
  | pass => cases haside
  | _ => exact .inl rfl

theorem now_of_fire (hs : s.Timed) {g : Nat} (hx : s.step? w h (.fire g) = some s')
    (hturn : (Move.mk s (.fire g) s').isTurn) :
    ∃ a, s.state.timer = some a ∧ s.now = a.deadline := by
  obtain ⟨a, ha, hg⟩ : ∃ a, s.state.timer = some a ∧ a.generation = g := by
    simpa [Move.isTurn, Step.isAside, Option.any_eq_true] using hturn
  cases takes_of_step? hx with
  | fire _ hdue =>
    rw [ha] at hdue
    simp only [Option.all_some, hg, bne_self_eq_false, Bool.false_or, isDue,
      decide_eq_true_eq] at hdue
    exact ⟨a, ha, le_antisymm (hs.set a ha).2.1 hdue⟩

theorem Abreast.now_of_turn (k : Abreast s t) (hx : s.step? w h x = some s')
    (hy : t.step? w h' x = some t') (hturn : (Move.mk s x s').isTurn)
    (hinput : x.isInput → s.now = t.now) : s.now = t.now := by
  refine k.now.elim id fun hrest => ?_
  have hnot := Move.not_isAside_of_isTurn hturn
  rcases isInput_or_fire_of_isResting hx hnot hrest with hin | ⟨g, rfl⟩
  · exact hinput hin
  · obtain ⟨a, ha, hnow⟩ := now_of_fire k.timed hx hturn
    have hturn' : (Move.mk t (.fire g) t').isTurn := by
      rw [Move.isTurn, ← k.alike.state.timer]
      exact hturn
    obtain ⟨b, hb, hnow'⟩ := now_of_fire k.timed' hy hturn'
    cases (k.alike.state.timer.symm.trans ha).symm.trans hb
    rw [hnow, hnow']

end Session

namespace Move

variable {m n : Move σ}

structure Paired (m n : Move σ) : Prop where
  step : m.step = n.step
  before : m.before.Level n.before
  after : m.after.Level n.after
  taken : m.taken = n.taken

def label (m : Move σ) : Step × Option Nat :=
  (m.step, if m.step.isInput then some m.before.now else none)

theorem Paired.label (k : Paired m n) : m.label = n.label := by
  rw [Move.label, Move.label, k.step, k.before.now]

end Move

namespace Session

variable {w : Settings σ} {h h' : Handler} {s s' t t' u v : Session σ} {x : Step}
  {ms ns : List (Move σ)}

theorem paired_of_step (hx : s.step? w h x = some s') (hy : t.step? w h' x = some t')
    (hbefore : s.Level t) (hafter : s'.Level t') :
    Move.Paired (Move.mk s x s') (Move.mk t x t') := by
  refine ⟨rfl, hbefore, hafter, ?_⟩
  rw [taken_eq hx, taken_eq hy]
  cases x with
  | fire g => exact hbefore.state.takenBy g
  | _ => rfl

theorem Run.nextTurn (hrun : Run w h s ms u) (k : Abreast s t) {m : Move σ} {rest : List (Move σ)}
    (hms : ms.filter Move.isTurn = m :: rest) : Abreast m.before t ∧ m.isTurn ∧
      m.before.step? w h m.step = some m.after ∧
      ∃ later, Run w h m.after later u ∧ later.filter Move.isTurn = rest := by
  induction hrun with
  | nil => cases hms
  | @cons s x s' ms u hx hrest ih =>
    cases hturn : (Move.mk s x s').isTurn with
    | true =>
      rw [List.filter_cons_of_pos hturn] at hms
      cases hms
      exact ⟨k, hturn, hx, ms, hrest, rfl⟩
    | false =>
      rw [List.filter_cons_of_neg (by simp [hturn])] at hms
      exact ih (k.aside hx hturn) hms

theorem Run.paired (hrun : Run w h s ms u) (hrun' : Run w h' t ns v) (k : Abreast s t)
    (hlabels : (ms.filter Move.isTurn).map Move.label = (ns.filter Move.isTurn).map Move.label) :
    List.Forall₂ Move.Paired (ms.filter Move.isTurn) (ns.filter Move.isTurn) := by
  generalize hms : ms.filter Move.isTurn = turns at hlabels ⊢
  induction turns generalizing s t ms ns with
  | nil =>
    rw [List.map_nil, eq_comm, List.map_eq_nil_iff] at hlabels
    rw [hlabels]
    exact .nil
  | cons m rest ih =>
    cases hns : ns.filter Move.isTurn with
    | nil =>
      rw [hns] at hlabels
      cases hlabels
    | cons n rest' =>
      rw [hns, List.map_cons, List.map_cons, List.cons.injEq] at hlabels
      obtain ⟨hlabel, hlabels⟩ := hlabels
      obtain ⟨hm, hturn, hx, later, hrest, rfl⟩ := hrun.nextTurn k hms
      obtain ⟨hn, -, hy, later', hrest', rfl⟩ := hrun'.nextTurn hm.symm hns
      obtain ⟨before, x, after⟩ := m
      obtain ⟨before', y, after'⟩ := n
      obtain ⟨rfl, htime⟩ := Prod.mk.inj hlabel
      dsimp only at *
      have hbefore : before.Level before' :=
        ⟨hn.symm.alike, hn.symm.now_of_turn hx hy hturn fun hin => by simpa [hin] using htime⟩
      obtain ⟨_, hy', hafter⟩ :=
        hbefore.step hx (Move.not_isAside_of_isTurn hturn) h'
      cases hy.symm.trans hy'
      refine .cons (paired_of_step hx hy hbefore hafter) (ih hrest hrest' ?_ rfl hlabels)
      exact ⟨hafter.toAlike, hm.timed.step hx, hn.timed.step hy, .inl hafter.now⟩

/-- What the handler has left to do: to begin and to finish each waiting batch, and to finish the
one in work. -/
def backlog (s : Session σ) : Nat := 2 * s.state.waiting.length + s.inWork.length

theorem backlog_handOver (hne : s.state.waiting ≠ []) :
    (s.handOver h).backlog < s.backlog := by
  obtain ⟨stats, heq⟩ := s.state.takeBatch_eq
  obtain ⟨b, bs, hwaiting⟩ := List.exists_cons_of_ne_nil hne
  have hone : (s.handOver h).inWork.length ≤ 1 := by
    rw [inWork]
    cases (s.handOver h).running <;> simp
  rw [backlog, backlog, handOver_state, heq, hwaiting]
  simp only [List.tail_cons, List.length_cons]
  omega

theorem backlog_finishHandler {r : Running} (hr : s.running = some r) :
    (s.finishHandler h r).backlog < s.backlog := by
  have hnone : (s.finishHandler h r).running = none := by cases h <;> rfl
  rw [backlog, backlog, finishHandler_state, inWork, inWork, hnone, hr]
  simp

structure IdleUntil (time : Nat) (s : Session σ) : Prop where
  resting : s.isResting
  now : s.now ≤ time
  timer : ∀ a, s.state.timer = some a → s.now < a.deadline ∧ time ≤ a.deadline

namespace IdleUntil

variable {time : Nat}

theorem alike (k : s.IdleUntil time) (hsame : s.Alike t) (hnow : t.now = s.now) :
    t.IdleUntil time := by
  refine ⟨hsame.isResting ▸ k.resting, hnow ▸ k.now, fun a ha => ?_⟩
  rw [hnow]
  exact k.timer a (hsame.state.timer.trans ha)

theorem pass (k : s.IdleUntil time) {ms : Nat} (hms : s.now + ms < time) :
    IdleUntil time { s with now := s.now + ms } where
  resting := k.resting
  now := Nat.le_of_lt hms
  timer a ha := ⟨Nat.lt_of_lt_of_le hms (k.timer a ha).2, (k.timer a ha).2⟩

theorem step?_pass (k : s.IdleUntil time) {ms : Nat} (hms : s.now + ms ≤ time)
    (hrunning : ∀ r, s.running = some r → s.now < r.stop ∧ s.now + ms ≤ r.stop)
    (hwaiting : s.running = none → s.state.waiting = []) :
    s.step? w h (.pass ms) = some { s with now := s.now + ms } := by
  have htimer (a : Timer) (ha : s.state.timer = some a) : s.now + ms ≤ a.deadline :=
    Nat.le_trans hms (k.timer a ha).2
  refine (Takes.pass ?_ ?_).step?
  · rw [isQuiet, Bool.and_eq_true, Bool.and_eq_true]
    refine ⟨⟨k.resting, ?_⟩, ?_⟩
    · cases hr : s.running with
      | none => simp [hwaiting hr]
      | some r => simpa [isDue] using (hrunning r hr).1
    · cases ha : s.state.timer with
      | none => rfl
      | some a => simpa [isDue] using (k.timer a ha).1
  · cases hr : s.running with
    | none =>
      cases ha : s.state.timer with
      | none => simp [alarms, hr, ha]
      | some a => simpa [alarms, hr, ha] using htimer a ha
    | some r =>
      cases ha : s.state.timer with
      | none => simpa [alarms, hr, ha] using (hrunning r hr).2
      | some a => simpa [alarms, hr, ha] using ⟨htimer a ha, (hrunning r hr).2⟩

end IdleUntil

def WaitsUntil (w : Settings σ) (h : Handler) (time : Nat) (s : Session σ) : Prop :=
  ∃ ms t, Run w h s ms t ∧ (∀ m ∈ ms, m.step.isAside) ∧ s.Alike t ∧ t.now = time

theorem WaitsUntil.cons {time : Nat} (hx : s.step? w h x = some t) (haside : x.isAside)
    (k : WaitsUntil w h time t) : WaitsUntil w h time s := by
  obtain ⟨ms, u, hrun, hms, hsame, hnow⟩ := k
  exact ⟨_, u, .cons hx hrun, List.forall_mem_cons.mpr ⟨haside, hms⟩,
    (alike_of_isAside hx haside).trans hsame, hnow⟩

theorem IdleUntil.waitsUntil_pass {time : Nat} (k : s.IdleUntil time)
    (hrunning : ∀ r, s.running = some r → s.now < r.stop ∧ time ≤ r.stop)
    (hwaiting : s.running = none → s.state.waiting = []) : WaitsUntil w h time s := by
  have hnow : s.now + (time - s.now) = time := Nat.add_sub_cancel' k.now
  have hx : s.step? w h (.pass (time - s.now)) = some { s with now := s.now + (time - s.now) } :=
    k.step?_pass hnow.le (by rwa [hnow]) hwaiting
  exact .cons hx rfl ⟨[], _, .nil, List.forall_mem_nil _, .refl _, hnow⟩

/-- Before the timer is due nothing keeps time from passing, no matter how much the handler has left
to do. -/
theorem IdleUntil.waitsUntil {time : Nat} (k : s.IdleUntil time) : WaitsUntil w h time s := by
  -- By what the handler has left to do: it finishes, begins, or works through all that time.
  induction hn : s.backlog using Nat.strong_induction_on generalizing s with
  | _ n ih =>
  subst hn
  have finishing {u : Session σ} {r : Running} (hu : u.IdleUntil time)
      (hbacklog : u.backlog = s.backlog) (hr : u.running = some r) (hdue : r.stop ≤ u.now) :
      WaitsUntil w h time u := by
    have hx : u.step? w h .finishHandler = some (u.finishHandler h r) :=
      (Takes.finishHandler hr (decide_eq_true hdue)).step?
    have hidle := hu.alike (alike_finishHandler h r u) (finishHandler_now h r u)
    exact .cons hx rfl (ih _ (hbacklog ▸ backlog_finishHandler hr) hidle rfl)
  cases hr : s.running with
  | none =>
    by_cases hwaiting : s.state.waiting = []
    · exact k.waitsUntil_pass (by simp [hr]) fun _ => hwaiting
    · have hx : s.step? w h .handOver = some (s.handOver h) := (Takes.handOver hr hwaiting).step?
      have hidle := k.alike (alike_handOver h s) (handOver_now h s)
      exact .cons hx rfl (ih _ (backlog_handOver hwaiting) hidle rfl)
  | some r =>
    by_cases hdue : r.stop ≤ s.now
    · exact finishing k rfl hr hdue
    · have hlater : s.now < r.stop := Nat.lt_of_not_le hdue
      by_cases hlate : time ≤ r.stop
      · refine k.waitsUntil_pass (fun r' hr' => ?_) (by simp [hr])
        cases hr.symm.trans hr'
        exact ⟨hlater, hlate⟩
      · have hstop : s.now + (r.stop - s.now) = r.stop := Nat.add_sub_cancel' hlater.le
        have hbefore : s.now + (r.stop - s.now) < time := by rwa [hstop, ← Nat.not_le]
        have hx : s.step? w h (.pass (r.stop - s.now)) =
            some { s with now := s.now + (r.stop - s.now) } := by
          refine k.step?_pass hbefore.le (fun r' hr' => ?_) (by simp [hr])
          cases hr.symm.trans hr'
          exact ⟨hlater, hstop.le⟩
        exact .cons hx rfl (finishing (k.pass hbefore) rfl hr hstop.ge)

theorem Level.waitsUntil (k : s.Level t) {ms : Nat} (hx : s.step? w h (.pass ms) = some s')
    (h' : Handler) : WaitsUntil w h' s'.now t := by
  cases takes_of_step? hx with
  | pass hquiet halarms =>
    refine IdleUntil.waitsUntil ⟨k.isResting ▸ isResting_of_isQuiet hquiet, ?_, fun a ha => ?_⟩
    · rw [← k.now]
      exact Nat.le_add_right ..
    · rw [← k.state.timer] at ha
      rw [isQuiet, ha, Bool.and_eq_true, Option.all_some, isDue, Bool.not_eq_true',
        decide_eq_false_iff_not, Nat.not_le] at hquiet
      have hmem : a.deadline ∈ s.alarms := by simp [alarms, ha]
      rw [← k.now]
      exact ⟨hquiet.2, of_decide_eq_true (List.all_eq_true.mp halarms _ hmem)⟩

theorem Run.exists_paired (hrun : Run w h s ms u) (k : s.Level t) (hs : s.Timed) (h' : Handler) :
    ∃ ns v, Run w h' t ns v ∧ u.Level v ∧
      List.Forall₂ Move.Paired (ms.filter Move.isTurn) (ns.filter Move.isTurn) := by
  induction hrun generalizing t with
  | nil => exact ⟨[], t, .nil, k, .nil⟩
  | @cons s x s' ms u hx _ ih =>
    cases hturn : (Move.mk s x s').isTurn with
    | true =>
      obtain ⟨t', hy, hafter⟩ := k.step hx (Move.not_isAside_of_isTurn hturn) h'
      obtain ⟨ns, v, hrest, hend, hpaired⟩ := ih hafter (hs.step hx)
      have hturn' : (Move.mk t x t').isTurn := by
        rw [Move.isTurn, ← k.state.timer]
        exact hturn
      refine ⟨_, v, .cons hy hrest, hend, ?_⟩
      rw [List.filter_cons_of_pos hturn, List.filter_cons_of_pos hturn']
      exact .cons (paired_of_step hx hy k hafter) hpaired
    | false =>
      rw [List.filter_cons_of_neg (by simp [hturn])]
      have hsame := (alike_of_not_isTurn hx hs hturn).symm.trans k.toAlike
      by_cases hpass : ∃ ms, x = .pass ms
      · obtain ⟨ms, rfl⟩ := hpass
        obtain ⟨waits, t', hwait, haside, halike, hnow⟩ := k.waitsUntil hx h'
        obtain ⟨ns, v, hrest, hend, hpaired⟩ := ih ⟨hsame.trans halike, hnow.symm⟩ (hs.step hx)
        have hnone : waits.filter Move.isTurn = [] := by
          refine List.filter_eq_nil_iff.mpr fun m hm hturn => ?_
          exact absurd (Move.not_isAside_of_isTurn hturn) (by simp [haside m hm])
        refine ⟨_, v, hwait.append hrest, hend, ?_⟩
        rwa [List.filter_append, hnone]
      · exact ih ⟨hsame, (now_of_not_pass hx fun ms hms => hpass ⟨ms, hms⟩).trans k.now⟩
          (hs.step hx)

def asOf (time : Nat) (s : Session σ) : List (Move σ) → Session σ
  | [] => s
  | m :: ms => if m.after.now ≤ time then m.after.asOf time ms else s

theorem asOf_of_later {time : Nat} (hms : ∀ m ∈ ms, time < m.after.now) : s.asOf time ms = s := by
  cases ms with
  | nil => rfl
  | cons m ms => exact if_neg (Nat.not_le.mpr (hms m List.mem_cons_self))

theorem Alike.asOf (k : s.Alike t) (time : Nat) (ms : List (Move σ)) :
    (s.asOf time ms).Alike (t.asOf time ms) := by
  cases ms with
  | nil => exact k
  | cons m ms =>
    rw [Session.asOf, Session.asOf]
    split
    · exact .refl _
    · exact k

theorem Run.alike_asOf_turns (hrun : Run w h s ms u) (hs : s.Timed) (time : Nat) :
    (s.asOf time ms).Alike (s.asOf time (ms.filter Move.isTurn)) := by
  induction hrun with
  | nil => exact .refl _
  | @cons s x s' ms u hx hrest ih =>
    cases hturn : (Move.mk s x s').isTurn with
    | true =>
      rw [List.filter_cons_of_pos hturn, asOf, asOf]
      split
      · exact ih (hs.step hx)
      · exact .refl _
    | false =>
      rw [List.filter_cons_of_neg (by simp [hturn]), asOf]
      have hsame := alike_of_not_isTurn hx hs hturn
      split
      · exact (ih (hs.step hx)).trans (hsame.symm.asOf time _)
      next hlater =>
        rw [asOf_of_later fun m hm => (Nat.not_le.mp hlater).trans_le
          (hrest.now_le m (List.mem_filter.mp hm).1)]
        exact .refl _

theorem alike_asOf_of_paired (k : s.Alike t) (time : Nat)
    (hpaired : List.Forall₂ Move.Paired ms ns) :
    (s.asOf time ms).Alike (t.asOf time ns) := by
  induction hpaired generalizing s t with
  | nil => exact k
  | cons hmn _ ih =>
    rw [asOf, asOf, hmn.after.now]
    split
    · exact ih hmn.after.toAlike
    · exact k

end Session

def Move.timesTaken (ms : List (Move σ)) : List (Nat × List Path) :=
  ms.flatMap fun m => m.taken.map (m.before.now, ·)

structure InStep (s : Session σ) (ms ns : List (Move σ)) : Prop where
  turns : (ms.filter Move.isTurn).map (fun m => (m.step, m.before.now)) =
    (ns.filter Move.isTurn).map fun m => (m.step, m.before.now)
  taken : Move.timesTaken ms = Move.timesTaken ns
  after : (ms.filter Move.isTurn).map
      (fun m => (m.after.state.pending, m.after.state.status, m.after.state.dirs)) =
    (ns.filter Move.isTurn).map
      fun m => (m.after.state.pending, m.after.state.status, m.after.state.dirs)
  pending : ∀ time, (s.asOf time ms).state.pending = (s.asOf time ns).state.pending
  status : ∀ time, (s.asOf time ms).state.status = (s.asOf time ns).state.status
  dirs : ∀ time, (s.asOf time ms).state.dirs = (s.asOf time ns).state.dirs
  source : ∀ time, (s.asOf time ms).state.source = (s.asOf time ns).state.source

namespace Session

variable {w : Settings σ} {h h' : Handler} {s t u v : Session σ} {ms ns : List (Move σ)}

theorem Run.timesTaken_turns (hrun : Run w h s ms u) (hs : s.Timed) :
    Move.timesTaken (ms.filter Move.isTurn) = Move.timesTaken ms := by
  induction hrun with
  | nil => rfl
  | @cons s x s' ms u hx _ ih =>
    have hrest := ih (hs.step hx)
    simp only [Move.timesTaken] at hrest ⊢
    cases hturn : (Move.mk s x s').isTurn with
    | true => rw [List.filter_cons_of_pos hturn, List.flatMap_cons, List.flatMap_cons, hrest]
    | false =>
      rw [List.filter_cons_of_neg (by simp [hturn]), List.flatMap_cons, hrest,
        taken_of_not_isTurn hx hs hturn]
      rfl

theorem map_eq_of_paired {α : Type} {f : Move σ → α} (hf : ∀ {m n}, Move.Paired m n → f m = f n)
    (hpaired : List.Forall₂ Move.Paired ms ns) : ms.map f = ns.map f := by
  induction hpaired with
  | nil => rfl
  | cons hmn _ ih => rw [List.map_cons, List.map_cons, hf hmn, ih]

theorem inStep_of_paired (hrun : Run w h s ms t) (hrun' : Run w h' s ns u) (hs : s.Timed)
    (hpaired : List.Forall₂ Move.Paired (ms.filter Move.isTurn) (ns.filter Move.isTurn)) :
    InStep s ms ns := by
  have hsame (time : Nat) : (s.asOf time ms).Alike (s.asOf time ns) :=
    (hrun.alike_asOf_turns hs time).trans ((alike_asOf_of_paired (.refl s) time hpaired).trans
      (hrun'.alike_asOf_turns hs time).symm)
  constructor
  case turns => exact map_eq_of_paired (fun k => by rw [k.step, k.before.now]) hpaired
  case taken =>
    rw [← hrun.timesTaken_turns hs, ← hrun'.timesTaken_turns hs]
    exact congrArg List.flatten
      (map_eq_of_paired (fun k => by rw [k.taken, k.before.now]) hpaired)
  case after =>
    refine map_eq_of_paired (fun k => ?_) hpaired
    rw [k.after.state.pending, k.after.state.status, k.after.state.dirs]
  case pending => exact fun time => (hsame time).state.pending
  case status => exact fun time => (hsame time).state.status
  case dirs => exact fun time => (hsame time).state.dirs
  case source => exact fun time => (hsame time).state.source

/-- The handler's pace matters to nothing but the handling.  Any other handler leaves room for the
same turns, with those from outside at the same times; and however long it takes, in each run with
these turns all is as it was. -/
theorem inStep_of_run {fs : FileSystem} {source : Source} {memory : σ} {state : State σ}
    (hstart : start w fs source memory = .ok state)
    (hrun : Run w h (ofState fs state) ms t) (h' : Handler) :
    (∃ ns u, Run w h' (ofState fs state) ns u ∧ u.now = t.now ∧
      (ms.filter Move.isTurn).map Move.label = (ns.filter Move.isTurn).map Move.label) ∧
    ∀ ns u, Run w h' (ofState fs state) ns u →
      (ms.filter Move.isTurn).map Move.label = (ns.filter Move.isTurn).map Move.label →
      InStep (ofState fs state) ms ns := by
  have hfirst : (ofState fs state).Timed := timed_of_start hstart
  constructor
  · obtain ⟨ns, u, hrun', hend, hpaired⟩ := hrun.exists_paired ⟨.refl _, rfl⟩ hfirst h'
    exact ⟨ns, u, hrun', hend.now.symm, map_eq_of_paired Move.Paired.label hpaired⟩
  · intro ns u hrun' hlabels
    exact inStep_of_paired hrun hrun' hfirst
      (hrun.paired hrun' ⟨.refl _, hfirst, hfirst, .inl rfl⟩ hlabels)

-- The run to see it by, in which batches wait for a slow handler, beside one with a channel,
-- which is done with each of them at once.
def threeBatchesAtOnce : List Step :=
  let a := Event.change (.ofString "/w/a") .write
  let b := Event.change (.ofString "/w/b") .write
  [.send a, .drain, .classify, .accept, .pass 5, .fire 1, .handOver, .finishHandler,
    .send b, .drain, .classify, .accept, .pass 5, .fire 2, .handOver, .finishHandler, .pass 10,
    .send a, .drain, .classify, .accept, .pass 5, .fire 3, .close, .noticeCancel]

def threeBatchesAtOnceRun : List (Move Unit) × Session Unit :=
  follow (.takingAll (.ofString "/w") 5) .channel threeBatchesAtOnce
    (ofState twoFiles (.watching [.ofString "/w"]))

theorem inStep_of_three_batches :
    start (.takingAll (.ofString "/w") 5) twoFiles .ofDirectories () =
        .ok (.watching [.ofString "/w"]) ∧
      threeBatchesAtOnceRun.1.length = threeBatchesAtOnce.length ∧
      Move.timesTaken threeBatchesRun.1 =
        [(5, [.ofString "a"]), (10, [.ofString "b"]), (25, [.ofString "a"])] ∧
      (threeBatchesRun.1.filter (·.finished ≠ [])).map (·.before.now) = [20, 35] ∧
      (threeBatchesAtOnceRun.1.filter (·.finished ≠ [])).map (·.before.now) = [5, 10] ∧
      InStep (ofState twoFiles (.watching [.ofString "/w"])) threeBatchesRun.1
        threeBatchesAtOnceRun.1 := by
  have hstart : start (.takingAll (.ofString "/w") 5) twoFiles .ofDirectories () =
      .ok (.watching [.ofString "/w"]) := rfl
  have hslow : Run (.takingAll (.ofString "/w") 5) (.working fun _ => 15)
      (ofState twoFiles (.watching [.ofString "/w"])) threeBatchesRun.1 threeBatchesRun.2 :=
    run_follow ..
  refine ⟨hstart, ?_, ?_, ?_, ?_, (inStep_of_run hstart hslow .channel).2 _ _ (run_follow ..) rfl⟩
  all_goals decide +kernel

end Session

end ChunkWatch.Watch
