import ChunkWatch.Proofs.Watch.Turns

namespace ChunkWatch.Watch

variable {σ : Type}

namespace State

def classifyAll (w : Settings σ) (fs : FileSystem) : List Event → State σ → List Path × State σ
  | [], s => ([], s)
  | e :: es, s =>
    let first := s.classify w fs e
    let rest := classifyAll w fs es first.2
    (first.1 ++ rest.1, rest.2)

def takeIn (w : Settings σ) (fs : FileSystem) (now : Nat) (es : List Event) (s : State σ) :
    State σ :=
  let r := s.classifyAll w fs es
  r.2.accept w now r.1

def takeInAll (w : Settings σ) (fs : FileSystem) (now : Nat) (chunks : List (List Event))
    (s : State σ) : State σ :=
  chunks.foldl (fun s es => s.takeIn w fs now es) s

/-- All that two states may differ in is how many times the timer was set. -/
structure Agrees (s t : State σ) : Prop where
  memory : s.memory = t.memory
  pending : s.pending = t.pending
  deadline : s.timer.map Timer.deadline = t.timer.map Timer.deadline
  closed : s.closed = t.closed
  cancelled : s.cancelled = t.cancelled
  source : s.source = t.source
  dirs : s.dirs = t.dirs
  stats : s.stats = t.stats
  waiting : s.waiting = t.waiting

variable {w : Settings σ} {fs : FileSystem} {s t u : State σ} {now : Nat} {ps qs : List Path}
  {es : List Event}

theorem Agrees.refl (s : State σ) : s.Agrees s := ⟨rfl, rfl, rfl, rfl, rfl, rfl, rfl, rfl, rfl⟩

theorem Agrees.symm (h : s.Agrees t) : t.Agrees s :=
  ⟨h.memory.symm, h.pending.symm, h.deadline.symm, h.closed.symm, h.cancelled.symm,
    h.source.symm, h.dirs.symm, h.stats.symm, h.waiting.symm⟩

theorem Agrees.trans (h : s.Agrees t) (k : t.Agrees u) : s.Agrees u :=
  ⟨h.memory.trans k.memory, h.pending.trans k.pending, h.deadline.trans k.deadline,
    h.closed.trans k.closed, h.cancelled.trans k.cancelled, h.source.trans k.source,
    h.dirs.trans k.dirs, h.stats.trans k.stats, h.waiting.trans k.waiting⟩

def withBatch (pending : List Path) (timer : Option Timer) (generation : Nat) (s : State σ) :
    State σ :=
  { s with pending, timer, generation }

section Batch

variable {pending : List Path} {timer : Option Timer} {generation : Nat}

theorem forget?_withBatch (dir : Path) : (s.withBatch pending timer generation).forget? dir =
    (s.forget? dir).map (withBatch pending timer generation) := by
  unfold forget? withBatch
  split <;> rfl

theorem register_withBatch (fs : FileSystem) (s : State σ) (dir : Path) :
    (s.withBatch pending timer generation).register fs dir =
      (s.register fs dir).withBatch pending timer generation := by
  unfold register withBatch
  dsimp only
  split
  · rfl
  · split <;> rfl

theorem registerAll_withBatch (fs : FileSystem) (dirs : List Path) (s : State σ) :
    dirs.foldl (register fs) (s.withBatch pending timer generation) =
      (dirs.foldl (register fs) s).withBatch pending timer generation := by
  induction dirs generalizing s with
  | nil => rfl
  | cons dir dirs ih => rw [List.foldl_cons, register_withBatch, ih, List.foldl_cons]

theorem scan_withBatch (dir : Path) : (s.withBatch pending timer generation).scan w fs dir =
    ((s.scan w fs dir).1, (s.scan w fs dir).2.withBatch pending timer generation) := by
  unfold scan withBatch
  dsimp only
  split <;> rfl

theorem arrive_withBatch (relative : Path) :
    (s.withBatch pending timer generation).arrive w fs relative =
      ((s.arrive w fs relative).1,
        (s.arrive w fs relative).2.withBatch pending timer generation) := by
  have hcancelled (t : State σ) : (t.withBatch pending timer generation).cancelled = t.cancelled :=
    rfl
  simp only [arrive, scan_withBatch, hcancelled]
  split
  · rfl
  · rw [registerAll_withBatch]

theorem classifyChange_withBatch (p : Path) (kind : ChangeKind) :
    (s.withBatch pending timer generation).classifyChange w fs p kind =
      ((s.classifyChange w fs p kind).1,
        (s.classifyChange w fs p kind).2.withBatch pending timer generation) := by
  simp only [classifyChange]
  split
  · rfl
  · split
    · rfl
    next q _ =>
      split
      · rfl
      · have hforget : (if fs.exists? (w.classifier.root.join q) then none
              else (s.withBatch pending timer generation).forget? (w.classifier.root.join q)) =
            (if fs.exists? (w.classifier.root.join q) then none
              else s.forget? (w.classifier.root.join q)).map
                (withBatch pending timer generation) := by
          split
          · rfl
          · exact forget?_withBatch _
        rw [hforget]
        cases (if fs.exists? (w.classifier.root.join q) then none
            else s.forget? (w.classifier.root.join q)) with
        | some t => rfl
        | none =>
          obtain ⟨verdict, memory, hask⟩ : ∃ verdict memory,
              (w.classifier.shouldIgnoreEntry fs (w.classifier.root.join q)
                (fs.isDir (w.classifier.root.join q))).run s.memory = (verdict, memory) :=
            ⟨_, _, rfl⟩
          have hask' : (s.withBatch pending timer generation).asking
              (w.classifier.shouldIgnoreEntry fs (w.classifier.root.join q)
                (fs.isDir (w.classifier.root.join q))) =
              (verdict, withBatch pending timer generation { s with memory }) := asking_eq hask
          simp only [Option.map_none, hask', asking_eq hask]
          split
          · rfl
          · split
            · rfl
            · split
              · exact arrive_withBatch q
              · rfl

theorem classify_withBatch (e : Event) : (s.withBatch pending timer generation).classify w fs e =
    ((s.classify w fs e).1, (s.classify w fs e).2.withBatch pending timer generation) := by
  cases e with
  | error reason => rfl
  | change p kind => exact classifyChange_withBatch (s := s.receiving) p kind

end Batch

theorem accept_of_no_paths (w : Settings σ) (now : Nat) (s : State σ) : s.accept w now [] = s :=
  rfl

theorem accept_of_closed (h : s.closed = true) (w : Settings σ) (now : Nat) (ps : List Path) :
    s.accept w now ps = s := by
  rw [accept, h, Bool.or_true, if_pos rfl]

theorem classify_accept (e : Event) : (s.accept w now ps).classify w fs e =
    ((s.classify w fs e).1, (s.classify w fs e).2.accept w now ps) := by
  have hkeeps := s.keeps_classify w fs e
  cases hclosed : s.closed with
  | true => rw [accept_of_closed hclosed, accept_of_closed (hkeeps.closed.trans hclosed)]
  | false =>
    by_cases hnil : ps = []
    · rw [hnil, accept_of_no_paths, accept_of_no_paths]
    · rw [accept_of_open hclosed w now hnil,
        accept_of_open (hkeeps.closed.trans hclosed) w now hnil, hkeeps.pending,
        hkeeps.generation]
      exact classify_withBatch e

theorem classifyAll_accept (es : List Event) (s : State σ) :
    (s.accept w now ps).classifyAll w fs es =
      ((s.classifyAll w fs es).1, (s.classifyAll w fs es).2.accept w now ps) := by
  induction es generalizing s with
  | nil => rfl
  | cons e es ih => simp only [classifyAll, classify_accept, ih]

theorem classifyAll_append (es ds : List Event) (s : State σ) :
    s.classifyAll w fs (es ++ ds) =
      ((s.classifyAll w fs es).1 ++ ((s.classifyAll w fs es).2.classifyAll w fs ds).1,
        ((s.classifyAll w fs es).2.classifyAll w fs ds).2) := by
  induction es generalizing s with
  | nil => rfl
  | cons e es ih => simp only [List.cons_append, classifyAll, ih, List.append_assoc]

theorem accept_accept (w : Settings σ) (now : Nat) (ps qs : List Path) (s : State σ) :
    ((s.accept w now ps).accept w now qs).Agrees (s.accept w now (ps ++ qs)) := by
  cases hclosed : s.closed with
  | true =>
    rw [accept_of_closed hclosed, accept_of_closed hclosed, accept_of_closed hclosed]
    exact .refl s
  | false =>
    by_cases hps : ps = []
    · rw [hps, accept_of_no_paths, List.nil_append]
      exact .refl _
    · by_cases hqs : qs = []
      · rw [hqs, accept_of_no_paths, List.append_nil]
        exact .refl _
      · have hboth : ps ++ qs ≠ [] := List.append_ne_nil_of_left_ne_nil hps qs
        have haccept := accept_of_open hclosed w now hps
        have hopen : (s.accept w now ps).closed = false := by
          rw [haccept]
          exact hclosed
        rw [accept_of_open hopen w now hqs, haccept, accept_of_open hclosed w now hboth]
        exact ⟨rfl, (List.foldl_append ..).symm, rfl, rfl, rfl, rfl, rfl, rfl, rfl⟩

theorem takeIn_append (es ds : List Event) (s : State σ) :
    ((s.takeIn w fs now es).takeIn w fs now ds).Agrees (s.takeIn w fs now (es ++ ds)) := by
  simp only [takeIn, classifyAll_accept, classifyAll_append]
  exact accept_accept ..

theorem takeInAll_agrees (chunks : List (List Event)) (s : State σ) :
    (s.takeInAll w fs now chunks).Agrees (s.takeIn w fs now chunks.flatten) := by
  induction chunks generalizing s with
  | nil => exact .refl s
  | cons es chunks ih =>
    rw [List.flatten_cons]
    exact (ih (s.takeIn w fs now es)).trans (takeIn_append ..)

end State

namespace Step

def isIntake : Step → Bool
  | drain | classify | accept => true
  | _ => false

def sent? : Step → Option Event
  | send e => some e
  | _ => none

end Step

namespace Session

def unclassified (s : Session σ) : List Event :=
  match s.intake with
  | .classifying es _ => es
  | _ => []

def outlook (w : Settings σ) (more : List Event) (s : Session σ) : State σ :=
  let r := s.state.classifyAll w s.fs (s.unclassified ++ (s.queue ++ more))
  r.2.accept w s.now (s.inHand ++ r.1)

variable {w : Settings σ} {h : Handler} {s t : Session σ} {x : Step} {ms : List (Move σ)}
  {more : List Event}

theorem outlook_of_waiting (hin : s.intake = .waiting) :
    s.outlook w more = s.state.takeIn w s.fs s.now (s.queue ++ more) := by
  rw [outlook, unclassified, inHand, hin]
  rfl

theorem outlook_step (hx : s.step? w h x = some t) (hstep : x.isIntake ∨ x.sent?.isSome) :
    (t.outlook w more).Agrees (s.outlook w (x.sent?.toList ++ more)) := by
  cases takes_of_step? hx with
  | @send e =>
    have hqueue : s.queue ++ [e] ++ more = s.queue ++ ([e] ++ more) := List.append_assoc ..
    simp only [outlook, hqueue]
    exact .refl _
  | @drain e es hin _ hq =>
    have htaken : (e :: es).take chunkSize ++ ((e :: es).drop chunkSize ++ more) =
        s.queue ++ more := by
      rw [← List.append_assoc, List.take_append_drop, hq]
    rw [outlook_of_waiting hin]
    simp only [outlook, unclassified, inHand, htaken]
    exact .refl _
  | @classify e es paths hin =>
    simp only [outlook, unclassified, inHand, hin, List.append_assoc]
    exact .refl _
  | @accept paths hin =>
    rw [outlook_of_waiting rfl, outlook, unclassified, inHand, hin]
    simp only [State.takeIn, State.classifyAll_accept]
    exact State.accept_accept ..
  | _ => simp [Step.isIntake, Step.sent?] at hstep

theorem Run.outlook (hrun : Run w h s ms t)
    (hms : ∀ m ∈ ms, m.step.isIntake ∨ m.step.sent?.isSome) :
    (t.outlook w more).Agrees (s.outlook w (ms.filterMap (·.step.sent?) ++ more)) := by
  induction hrun with
  | nil => exact .refl _
  | @cons s x t ms u hx _ ih =>
    obtain ⟨hfirst, hrest⟩ := List.forall_mem_cons.mp hms
    have hmoves : (Move.mk s x t :: ms).filterMap (·.step.sent?) =
        x.sent?.toList ++ ms.filterMap (·.step.sent?) := by
      rw [List.filterMap_cons]
      cases x.sent? <;> rfl
    rw [hmoves, List.append_assoc]
    exact (ih hrest).trans (outlook_step hx hfirst)

theorem not_isEnding_of_isIntake (hstep : x.isIntake) : ¬x.isEnding := by
  cases x <;> simp_all [Step.isIntake, Step.isEnding]

theorem sent?_of_isIntake (hstep : x.isIntake) : x.sent? = none := by
  cases x <;> simp_all [Step.isIntake, Step.sent?]

theorem exists_run_classifying {es : List Event} {paths : List Path}
    (hin : s.intake = .classifying es paths) : ∃ ms t, Run w h s ms t ∧
      (∀ m ∈ ms, m.step.isIntake) ∧ t.intake = .waiting ∧ t.queue = s.queue := by
  induction es generalizing s paths with
  | nil => exact ⟨_, _, .cons (Takes.accept hin).step? .nil, by simp [Step.isIntake], rfl, rfl⟩
  | cons e es ih =>
    obtain ⟨ms, t, hrun, hms, hwaiting, hqueue⟩ := ih (s := { s with
      intake := .classifying es (paths ++ (s.state.classify w s.fs e).1)
      state := (s.state.classify w s.fs e).2 }) rfl
    exact ⟨_, t, .cons (Takes.classify hin).step? hrun, List.forall_mem_cons.mpr ⟨rfl, hms⟩,
      hwaiting, hqueue⟩

theorem exists_run_draining (hs : s.IsOpen) (hin : s.intake = .waiting) : ∃ ms t, Run w h s ms t ∧
    (∀ m ∈ ms, m.step.isIntake) ∧ t.intake = .waiting ∧ t.queue = [] := by
  induction hn : s.queue.length using Nat.strong_induction_on generalizing s with
  | _ n ih =>
  subst hn
  cases hq : s.queue with
  | nil => exact ⟨[], s, .nil, List.forall_mem_nil _, hin, hq⟩
  | cons e es =>
    obtain ⟨taken, hdrain, ⟨chunk, hchunk⟩, hshorter⟩ : ∃ u, s.step? w h .drain = some u ∧
        (∃ chunk, u.intake = .classifying chunk []) ∧ u.queue.length < s.queue.length := by
      refine ⟨_, (Takes.drain hin hs.cancelled hq).step?, ⟨_, rfl⟩, ?_⟩
      rw [hq, List.length_drop]
      exact Nat.sub_lt (Nat.succ_pos _) (by decide)
    obtain ⟨ms, t, hrun, hms, hwaiting, hqueue⟩ := exists_run_classifying (w := w) (h := h) hchunk
    have hfirst := Run.cons hdrain hrun
    have hall : ∀ m ∈ Move.mk s .drain taken :: ms, m.step.isIntake :=
      List.forall_mem_cons.mpr ⟨rfl, hms⟩
    have hopen := hfirst.isOpen hs fun m hm => not_isEnding_of_isIntake (hall m hm)
    obtain ⟨ns, u, hrest, hns, hlast, hempty⟩ := ih _ (hqueue ▸ hshorter) hopen hwaiting rfl
    exact ⟨_, u, hfirst.append hrest, List.forall_mem_append.mpr ⟨hall, hns⟩, hlast, hempty⟩

/-- It does not matter in which chunks events are taken up.  The intake comes to the end of its
queue by itself; and when it has, with all events that were sent meanwhile, everything is as if the
same events had come in any other chunks, one by one or all at once, but for how many times the
timer was set for the same time. -/
theorem agrees_however_divided (hs : s.IsOpen) (hin : s.intake = .waiting) :
    (∃ ms t, Run w h s ms t ∧ (∀ m ∈ ms, m.step.isIntake) ∧ t.intake = .waiting ∧ t.queue = []) ∧
    ∀ ms t, Run w h s ms t → (∀ m ∈ ms, m.step.isIntake ∨ m.step.sent?.isSome) →
      t.intake = .waiting → t.queue = [] → ∀ chunks : List (List Event),
        chunks.flatten = s.queue ++ ms.filterMap (·.step.sent?) →
          t.state.Agrees (s.state.takeInAll w s.fs s.now chunks) := by
  refine ⟨exists_run_draining hs hin, fun ms t hrun hms hwaiting hempty chunks hchunks => ?_⟩
  have hlast : t.outlook w [] = t.state := by
    rw [outlook_of_waiting hwaiting, hempty]
    rfl
  have hfirst : (t.outlook w []).Agrees _ := hrun.outlook hms
  rw [hlast, outlook_of_waiting hin, List.append_nil, ← hchunks] at hfirst
  exact hfirst.trans (State.takeInAll_agrees chunks s.state).symm

-- A queue to see it by.  `/w/d` was watched and is gone, which two events tell; the first of
-- them is the last of a chunk, and the second one takes it for a file.
def overlong : Session Unit :=
  let a := Event.change (.ofString "/w/a") .write
  let d := Event.change (.ofString "/w/d") .remove
  { ofState twoFiles (.watching [.ofString "/w", .ofString "/w/d"]) with
    queue := a :: List.replicate (chunkSize - 2) (.error "") ++ [d, d] }

theorem agrees_in_overlong : overlong.IsOpen ∧ overlong.intake = .waiting ∧
    ∃ ms t, Run (.takingAll (.ofString "/w") 5) .channel overlong ms t ∧ t.intake = .waiting ∧
      t.queue = [] ∧ t.state.pending = [.ofString "a", .ofString "d"] ∧
      t.state.Agrees (overlong.state.takeInAll (.takingAll (.ofString "/w") 5) twoFiles 0
        (overlong.queue.map fun e => [e])) ∧
      t.state.Agrees (overlong.state.takeInAll (.takingAll (.ofString "/w") 5) twoFiles 0
        [overlong.queue]) := by
  have hopen : overlong.IsOpen := ⟨rfl, rfl⟩
  obtain ⟨⟨ms, t, hrun, hms, hwaiting, hempty⟩, hall⟩ :=
    agrees_however_divided (w := .takingAll (.ofString "/w") 5) (h := .channel) hopen rfl
  have hsent : ms.filterMap (·.step.sent?) = [] :=
    List.filterMap_eq_nil_iff.mpr fun m hm => sent?_of_isIntake (hms m hm)
  have hagrees := hall ms t hrun (fun m hm => .inl (hms m hm)) hwaiting hempty
  rw [hsent, List.append_nil] at hagrees
  have hbyOne := hagrees (overlong.queue.map fun e => [e]) (by
    rw [← List.flatMap_def, List.flatMap_singleton'])
  refine ⟨hopen, rfl, ms, t, hrun, hwaiting, hempty, ?_, hbyOne,
    hagrees [overlong.queue] List.flatten_singleton⟩
  rw [hbyOne.pending]
  decide +kernel

end Session

end ChunkWatch.Watch
