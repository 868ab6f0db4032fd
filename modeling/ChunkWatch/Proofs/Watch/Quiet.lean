import ChunkWatch.Proofs.Watch.Handling
import ChunkWatch.Proofs.Watch.Removal

namespace ChunkWatch

namespace Watch

variable {σ : Type}

namespace Move

inductive Times (w : Settings σ) (m : Move σ) : Prop
  | leaves : m.accepted = [] → m.taken = [] → m.after.state.pending = m.before.state.pending →
      m.after.state.timer = m.before.state.timer →
      m.after.state.generation = m.before.state.generation →
      (∀ a, m.before.state.timer = some a → m.before.now ≤ a.deadline →
        m.after.now ≤ a.deadline) → Times w m
  | sets : m.accepted ≠ [] → m.taken = [] → m.after.state.pending ≠ [] →
      m.after.state.timer = some ⟨m.after.state.generation, m.before.now + w.debounce⟩ →
      m.after.now = m.before.now → Times w m
  | goesOff : m.accepted = [] →
      m.taken = (if m.before.state.pending = [] then [] else [m.before.state.pending]) →
      (∀ d, m.before.state.timer = some ⟨m.before.state.generation, d⟩ → d ≤ m.before.now) →
      m.after.state.timer = none → Times w m
  | ends : m.accepted = [] → m.taken = [] → m.after.state.closed = true →
      m.after.state.timer = none → Times w m

/-- Of some steps, `m` is the last one that accepts any paths. -/
def LastToAccept (ms : List (Move σ)) (m : Move σ) : Prop :=
  ∃ before after, ms = before ++ m :: after ∧ m.accepted ≠ [] ∧ ∀ n ∈ after, n.accepted = []

theorem Times.of_same {w : Settings σ} {m : Move σ} (haccepted : m.accepted = [])
    (hpending : m.after.state.pending = m.before.state.pending)
    (htimer : m.after.state.timer = m.before.state.timer)
    (hgeneration : m.after.state.generation = m.before.state.generation)
    (hwaiting : m.after.state.waiting.length ≤ m.before.state.waiting.length)
    (hnow : m.after.now = m.before.now) : m.Times w :=
  .leaves haccepted (List.drop_eq_nil_of_le hwaiting) hpending htimer hgeneration
    fun _ _ hdue => hnow ▸ hdue

theorem Times.of_shutdown {w : Settings σ} {m : Move σ} {s : State σ}
    (hpending : s.pending = m.before.state.pending) (htimer : s.timer = m.before.state.timer)
    (hgeneration : s.generation = m.before.state.generation)
    (hwaiting : s.waiting = m.before.state.waiting) (haccepted : m.accepted = [])
    (hnow : m.after.now = m.before.now) (h : m.after.state = s.shutdown) : m.Times w := by
  have htaken : m.taken = [] := by
    rw [taken, h, Session.shutdown_waiting, hwaiting, List.drop_length]
  rw [State.shutdown] at h
  split at h
  · exact .leaves haccepted htaken (h ▸ hpending) (h ▸ htimer) (h ▸ hgeneration)
      fun _ _ hdue => hnow ▸ hdue
  · exact .ends haccepted htaken (by rw [h]; rfl) (by rw [h]; rfl)

end Move

namespace State

variable {s : State σ}

theorem accept_of_open (hs : s.closed = false) (w : Settings σ) (now : Nat) {ps : List Path}
    (hne : ps ≠ []) : s.accept w now ps =
      { s with
        pending := Path.insertAll ps s.pending
        timer := some ⟨s.generation + 1, now + w.debounce⟩
        generation := s.generation + 1 } := by
  rw [accept, hs, Bool.or_false, if_neg (by simpa using hne)]
  rfl

theorem fire_eq_self {g : Nat} (h : g ≠ s.generation) : s.fire g = s := by
  rw [fire, if_pos]
  simp [h.symm]

end State

namespace Session

variable {w : Settings σ} {h : Handler} {s t : Session σ} {x : Step} {ms : List (Move σ)}

@[simp] theorem handOver_now (h : Handler) (s : Session σ) : (s.handOver h).now = s.now := by
  obtain ⟨running, reports, heq⟩ := s.handOver_eq h
  rw [heq]

@[simp] theorem finishHandler_now (h : Handler) (r : Running) (s : Session σ) :
    (s.finishHandler h r).now = s.now := by
  cases h <;> rfl

theorem times_accept {paths : List Path} (hin : s.intake = .classifying [] paths) :
    (Move.mk s .accept { s with
      intake := .waiting, state := s.state.accept w s.now paths }).Times w := by
  have hwaiting := State.accept_waiting s.state w s.now paths
  by_cases hsets : s.state.closed = false ∧ paths ≠ []
  · obtain ⟨hopen, hne⟩ := hsets
    have haccept := State.accept_of_open hopen w s.now hne
    refine .sets ?_ (List.drop_eq_nil_of_le (congrArg List.length hwaiting).le) ?_ ?_ rfl
    · simpa [Move.accepted, hopen, inHand, hin] using hne
    · rw [haccept]
      exact Path.insertAll_ne_nil hne
    · rw [haccept]
  · have hno : paths = [] ∨ s.state.closed = true := by
      rw [or_iff_not_imp_right, Bool.not_eq_true]
      exact fun hopen => by_contra fun hne => hsets ⟨hopen, hne⟩
    have hsame : s.state.accept w s.now paths = s.state := by simp [State.accept, hno]
    rw [hsame]
    refine .of_same ?_ rfl rfl rfl le_rfl rfl
    simp only [Move.accepted, inHand, hin]
    rcases hno with rfl | hclosed
    · exact ite_self []
    · exact if_pos hclosed

theorem times_fire {g : Nat}
    (hdue : s.state.timer.all fun a => a.generation != g || s.isDue a.deadline) :
    (Move.mk s (.fire g) { s with state := s.state.fire g }).Times w := by
  by_cases hfires : s.state.closed = false ∧ g = s.state.generation
  · obtain ⟨hopen, rfl⟩ := hfires
    have hfire : s.state.fire s.state.generation = { s.state with
        pending := [], timer := none
        waiting := if s.state.pending.isEmpty then s.state.waiting
          else s.state.waiting ++ [s.state.pending] } := by
      simp [State.fire, hopen]
    rw [hfire]
    refine .goesOff rfl ?_ (fun d hd => ?_) rfl
    · cases hp : s.state.pending <;> simp [Move.taken]
    · rw [show s.state.timer = _ from hd] at hdue
      simpa [isDue] using hdue
  · have hsame : s.state.fire g = s.state := by
      rw [State.fire, if_pos]
      by_contra hno
      simp only [Bool.or_eq_true, not_or, bne_iff_ne, not_not, Bool.not_eq_true] at hno
      exact hfires ⟨hno.1, hno.2.symm⟩
    rw [hsame]
    exact .of_same rfl rfl rfl rfl le_rfl rfl

theorem times (hx : s.step? w h x = some t) : (Move.mk s x t).Times w := by
  cases takes_of_step? hx with
  | classify =>
    have k := s.state.keeps_classify
    exact .of_same rfl (k ..).pending (k ..).timer (k ..).generation
      (congrArg List.length (k ..).waiting).le rfl
  | accept hin => exact times_accept hin
  | noticeCancel => exact .of_shutdown (s := s.state) rfl rfl rfl rfl rfl rfl rfl
  | fire _ hdue => exact times_fire hdue
  | handOver =>
    obtain ⟨stats, heq⟩ := s.state.takeBatch_eq
    refine .of_same rfl ?_ ?_ ?_ ?_ (handOver_now h s) <;> rw [handOver_state, heq]
    simp
  | finishHandler =>
    refine .of_same rfl ?_ ?_ ?_ ?_ (finishHandler_now h _ s) <;> rw [finishHandler_state]
  | close =>
    exact .of_shutdown (s := { s.state with cancelled := true }) rfl rfl rfl rfl rfl rfl rfl
  | pass _ halarms =>
    refine .leaves rfl (by simp [Move.taken]) rfl rfl rfl fun a ha _ => ?_
    have hmem : a.deadline ∈ s.alarms := by simp [alarms, show s.state.timer = some a from ha]
    simpa using List.all_eq_true.mp halarms _ hmem
  | _ => exact .of_same rfl rfl rfl rfl le_rfl rfl

structure Timed (s : Session σ) : Prop where
  armed : s.IsArmed
  set : ∀ a, s.state.timer = some a →
    a.generation = s.state.generation ∧ s.now ≤ a.deadline ∧ s.state.pending ≠ []

theorem Timed.timer_eq_none_iff (hs : s.Timed) :
    s.state.timer = none ↔ s.state.pending = [] := by
  rw [Option.eq_none_iff_forall_ne_some]
  constructor
  · intro hnone
    by_contra hne
    obtain ⟨d, hd⟩ := hs.armed hne
    exact hnone _ hd
  · exact fun hnil a ha => (hs.set a ha).2.2 hnil

theorem Timed.step (hs : s.Timed) (hx : s.step? w h x = some t) : t.Timed := by
  refine ⟨hs.armed.step hx, fun a ha => ?_⟩
  cases times hx with
  | leaves _ _ hpending htimer hgeneration hnow =>
    dsimp only at hpending htimer hgeneration hnow
    rw [htimer] at ha
    obtain ⟨hcurrent, hdue, hne⟩ := hs.set a ha
    rw [hpending, hgeneration]
    exact ⟨hcurrent, hnow a ha hdue, hne⟩
  | sets _ _ hne htimer hnow =>
    dsimp only at htimer hnow
    cases htimer.symm.trans ha
    exact ⟨rfl, hnow ▸ Nat.le_add_right .., hne⟩
  | goesOff _ _ _ hnone => cases hnone.symm.trans ha
  | ends _ _ _ hnone => cases hnone.symm.trans ha

theorem Run.timed (hrun : Run w h s ms t) (hs : s.Timed) : t.Timed :=
  hrun.invariant hs fun _ _ hb hx => hb.step hx

theorem timer_step (hx : s.step? w h x = some t) {a : Timer} (ha : t.state.timer = some a) :
    (s.state.timer = some a ∧ (Move.mk s x t).accepted = []) ∨
      (Move.mk s x t).accepted ≠ [] ∧ a.deadline = s.now + w.debounce := by
  cases times hx with
  | leaves haccepted _ _ htimer => exact .inl ⟨htimer.symm.trans ha, haccepted⟩
  | sets haccepted _ _ htimer =>
    cases htimer.symm.trans ha
    exact .inr ⟨haccepted, rfl⟩
  | goesOff _ _ _ hnone => cases hnone.symm.trans ha
  | ends _ _ _ hnone => cases hnone.symm.trans ha

theorem Run.timer (hrun : Run w h s ms t) {a : Timer} (ha : t.state.timer = some a) :
    (s.state.timer = some a ∧ ∀ n ∈ ms, n.accepted = []) ∨
      ∃ m, Move.LastToAccept ms m ∧ a.deadline = m.before.now + w.debounce := by
  induction hrun with
  | nil => exact .inl ⟨ha, List.forall_mem_nil _⟩
  | cons hx _ ih =>
    rcases ih ha with ⟨ht, hnone⟩ | ⟨m, ⟨before, after, rfl, hm, hnone⟩, hdeadline⟩
    · rcases timer_step hx ht with ⟨hs, hfirst⟩ | ⟨haccepted, hdeadline⟩
      · exact .inl ⟨hs, List.forall_mem_cons.mpr ⟨hfirst, hnone⟩⟩
      · exact .inr ⟨_, ⟨[], _, rfl, haccepted, hnone⟩, hdeadline⟩
    · exact .inr ⟨m, ⟨_ :: before, after, rfl, hm, hnone⟩, hdeadline⟩

theorem pending_step (hx : s.step? w h x = some t) (hs : s.state.pending ≠ [])
    (htaken : (Move.mk s x t).taken = []) (hopen : t.state.closed = false) :
    t.state.pending ≠ [] := by
  cases times hx with
  | leaves _ _ hpending => exact fun hnil => hs (hpending.symm.trans hnil)
  | sets _ _ hne => exact hne
  | goesOff _ hall =>
    rw [if_neg hs, htaken] at hall
    cases hall
  | ends _ _ hclosed => cases hopen.symm.trans hclosed

theorem Run.pending (hrun : Run w h s ms t) (hs : s.state.pending ≠ [])
    (htaken : ∀ n ∈ ms, n.taken = []) (hopen : t.state.closed = false) :
    t.state.pending ≠ [] := by
  induction hrun with
  | nil => exact hs
  | cons hx hrest ih =>
    obtain ⟨hfirst, hlater⟩ := List.forall_mem_cons.mp htaken
    exact ih (pending_step hx hs hfirst (hrest.closed hopen)) hlater hopen

theorem due_of_taken (hx : s.step? w h x = some t) (hs : s.IsArmed)
    (htaken : (Move.mk s x t).taken ≠ []) : (Move.mk s x t).taken = [s.state.pending] ∧
      ∃ a, s.state.timer = some a ∧ a.deadline ≤ s.now := by
  cases times hx with
  | leaves _ hnil => exact absurd hnil htaken
  | sets _ hnil => exact absurd hnil htaken
  | goesOff _ hall hdue =>
    by_cases hne : s.state.pending = []
    · rw [if_pos hne] at hall
      exact absurd hall htaken
    · rw [if_neg hne] at hall
      obtain ⟨d, hd⟩ := hs hne
      exact ⟨hall, _, hd, hdue d hd⟩
  | ends _ hnil => exact absurd hnil htaken

theorem fire_ne_self_iff (hs : s.Timed) (hopen : s.state.closed = false) {g : Nat} :
    s.state.fire g ≠ s.state ↔ g = s.state.generation ∧ s.state.pending ≠ [] := by
  constructor
  · intro hfires
    refine ⟨by_contra fun hne => hfires (State.fire_eq_self hne), fun hnil => hfires ?_⟩
    rw [State.fire, hnil, ← hs.timer_eq_none_iff.mpr hnil]
    split <;> simp [← hnil]
  · rintro ⟨rfl, hne⟩ hsame
    apply hne
    rw [← hsame, State.fire, hopen]
    simp

theorem fire_stale (hs : s.Timed) {g : Nat} (hne : g ≠ s.state.generation) :
    s.step? w h (.fire g) = if g < s.state.generation then some s else none := by
  have hall : s.state.timer.all fun a => a.generation != g || s.isDue a.deadline := by
    cases ha : s.state.timer with
    | none => rfl
    | some a => simp [(hs.set a ha).1, hne.symm]
  rw [step?, State.fire_eq_self hne, hall]
  simp [Nat.le_iff_lt_or_eq, hne]

end Session

structure TimerKept (w : Settings σ) (h : Handler) (ms : List (Move σ)) (t : Session σ) :
    Prop where
  armed : t.state.pending ≠ [] ↔ ∃ d, t.state.timer = some ⟨t.state.generation, d⟩
  idle : t.state.pending = [] ↔ t.state.timer = none
  status : t.state.closed = false → (t.state.status = .accumulating ↔ t.state.pending ≠ [])
  alone : t.state.closed = false → ∀ g,
    t.state.fire g ≠ t.state ↔ g = t.state.generation ∧ t.state.pending ≠ []
  stale : ∀ g, g ≠ t.state.generation →
    t.step? w h (.fire g) = if g < t.state.generation then some t else none
  /-- It is set for the last time that any paths were accepted, and time waits for it. -/
  deadline : ∀ a, t.state.timer = some a → ∃ m, Move.LastToAccept ms m ∧
    a.deadline = m.before.now + w.debounce ∧ t.now ≤ a.deadline
  due : t.state.closed = false → ∀ a, t.state.timer = some a → a.deadline = t.now →
    ∃ u, t.step? w h (.fire a.generation) = some u ∧
      u.state.waiting = t.state.waiting ++ [t.state.pending]
  taken : ∀ before m after, ms = before ++ m :: after → m.taken ≠ [] →
    m.taken = [m.before.state.pending] ∧
      ∃ a, Move.LastToAccept before a ∧ m.before.now = a.before.now + w.debounce
  /-- What comes into one batch is accepted at intervals no longer than the timer is set for. -/
  merged : ∀ before a between b after, ms = before ++ a :: (between ++ b :: after) →
    a.accepted ≠ [] → b.accepted ≠ [] → (∀ n ∈ between, n.accepted = [] ∧ n.taken = []) →
    b.before.now ≤ a.before.now + w.debounce

namespace Session

variable {w : Settings σ} {h : Handler} {s t : Session σ} {ms : List (Move σ)}

theorem closed_of_accepted {m : Move σ} (h : m.accepted ≠ []) : m.before.state.closed = false := by
  rw [← Bool.not_eq_true]
  intro hclosed
  apply h
  rw [Move.accepted]
  split
  · exact if_pos hclosed
  · rfl

theorem sets_of_accepted {x : Step} (hx : s.step? w h x = some t)
    (haccepted : (Move.mk s x t).accepted ≠ []) : t.state.pending ≠ [] ∧
      t.state.timer = some ⟨t.state.generation, s.now + w.debounce⟩ := by
  cases times hx with
  | leaves hnil => exact absurd hnil haccepted
  | sets _ _ hne htimer => exact ⟨hne, htimer⟩
  | goesOff hnil => exact absurd hnil haccepted
  | ends hnil => exact absurd hnil haccepted

theorem Run.merged {a b : Move σ} {between after : List (Move σ)}
    (hrun : Run w h s (a :: (between ++ b :: after)) t) (hs : s.Timed) (ha : a.accepted ≠ [])
    (hb : b.accepted ≠ []) (hbetween : ∀ n ∈ between, n.accepted = [] ∧ n.taken = []) :
    b.before.now ≤ a.before.now + w.debounce := by
  cases hrun with
  | cons hx hrest =>
    obtain ⟨hmiddle, -, -⟩ := hrest.split
    obtain ⟨hne, htimer⟩ := sets_of_accepted hx ha
    have htimed := hmiddle.timed (hs.step hx)
    have hpending := hmiddle.pending hne (fun n hn => (hbetween n hn).2) (closed_of_accepted hb)
    obtain ⟨d, hd⟩ := htimed.armed hpending
    rcases hmiddle.timer hd with ⟨hkept, -⟩ | ⟨m, ⟨before, later, rfl, hm, -⟩, -⟩
    · obtain ⟨-, rfl⟩ := Timer.mk.inj (Option.some.inj (htimer.symm.trans hkept))
      exact (htimed.set _ hd).2.1
    · exact absurd (hbetween m (by simp)).1 hm

/-- A batch is taken when, and only when, nothing has been accepted for as long as the timer is set
for. -/
theorem timerKept_of_run {fs : FileSystem} {source : Source} {memory : σ} {s : State σ}
    (hstart : start w fs source memory = .ok s) (hrun : Run w h (ofState fs s) ms t) :
    TimerKept w h ms t := by
  have hfresh := isFresh_of_start hstart
  have hnone : (ofState fs s).state.timer = none := hfresh.timer
  have hfirst : (ofState fs s).Timed := by
    refine ⟨fun hne => absurd hfresh.pending hne, fun a ha => ?_⟩
    cases hnone.symm.trans ha
  have htimed := hrun.timed hfirst
  -- From the start on, a timer that is set has been set by what was accepted last.
  have hlast {ns : List (Move σ)} {u : Session σ} (hu : Run w h (ofState fs s) ns u) {a : Timer}
      (ha : u.state.timer = some a) :
      ∃ m, Move.LastToAccept ns m ∧ a.deadline = m.before.now + w.debounce := by
    refine (hu.timer ha).resolve_left fun hs => ?_
    cases hnone.symm.trans hs.1
  constructor
  case armed => exact ⟨htimed.armed, fun ⟨d, hd⟩ => (htimed.set _ hd).2.2⟩
  case idle => exact htimed.timer_eq_none_iff.symm
  case status =>
    intro hopen
    simp [State.status, hopen, htimed.timer_eq_none_iff]
  case alone => exact fun hopen g => fire_ne_self_iff htimed hopen
  case stale => exact fun g => fire_stale htimed
  case deadline =>
    intro a ha
    obtain ⟨m, hm, hdeadline⟩ := hlast hrun ha
    exact ⟨m, hm, hdeadline, (htimed.set a ha).2.1⟩
  case due =>
    intro hopen a ha hdue
    obtain ⟨hcurrent, -, hne⟩ := htimed.set a ha
    rw [hcurrent]
    refine fire_takes_pending hopen hne (d := a.deadline) ?_ (decide_eq_true hdue.le)
    rw [ha, ← hcurrent]
  case taken =>
    rintro before m after rfl htaken
    obtain ⟨hbefore, hm, -⟩ := hrun.split
    have hb := hbefore.timed hfirst
    obtain ⟨hall, a, ha, hdue⟩ := due_of_taken hm hb.armed htaken
    obtain ⟨n, hn, hdeadline⟩ := hlast hbefore ha
    refine ⟨hall, n, hn, ?_⟩
    rw [← hdeadline]
    exact le_antisymm (hb.set a ha).2.1 hdue
  case merged =>
    rintro before a between b after rfl ha hb hbetween
    obtain ⟨u, hbefore, hrest⟩ := hrun.of_append
    exact hrest.merged (hbefore.timed hfirst) ha hb hbetween

-- The same run to see it by: paths are accepted at 0 and at 3, after which the first timer goes
-- off in vain, and the batch is taken at 8.
theorem timerKept_of_two_rounds :
    start (.takingAll (.ofString "/w") 5) twoFiles .ofDirectories () =
        .ok (.watching [.ofString "/w"]) ∧
      twoRoundsRun.1.map Move.step = twoRounds ∧
      (twoRoundsRun.1.filter (·.accepted ≠ [])).map (·.before.now) = [0, 3] ∧
      (twoRoundsRun.1.filter (·.taken ≠ [])).map (·.before.now) = [8] ∧
      TimerKept (.takingAll (.ofString "/w") 5) .channel twoRoundsRun.1 twoRoundsRun.2 := by
  have hstart : start (.takingAll (.ofString "/w") 5) twoFiles .ofDirectories () =
      .ok (.watching [.ofString "/w"]) := rfl
  refine ⟨hstart, rfl, ?_, ?_, timerKept_of_run hstart (run_follow ..)⟩
  all_goals decide +kernel

end Session

end Watch

end ChunkWatch
