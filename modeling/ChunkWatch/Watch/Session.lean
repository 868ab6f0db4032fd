import ChunkWatch.FileSystem.Change
import ChunkWatch.Watch.State

/-! Sessions of a watcher in small steps, which may come in any order in which they are possible:
events are sent, the intake takes up some of them, classifies one after another and accepts the
paths; the timer goes off; a batch goes to the handler, which finishes some time later; the session
is closed or cancelled; the file system changes; time passes while nothing else can happen.

The classification of one event is one step, and so is closing: what two threads do to the counter
of directories when one closes while the other is inside a classification is not modelled. -/

namespace ChunkWatch.Watch

inductive Handler : Type
  | working : (Nat → Nat) → Handler
  | channel : Handler
  | gone : Handler

inductive Report : Type
  | started : (time : Nat) → List Path → Report
  | done : (time : Nat) → List Path → (cancelled : Bool) → Report
  | delivered : List Path → Report

inductive Intake : Type
  | waiting : Intake
  /-- The events taken up and not yet classified, and the paths of the others. -/
  | classifying : List Event → List Path → Intake
  | stopped : Intake

structure Running where
  batch : List Path
  stop : Nat

structure Session (σ : Type) where
  fs : FileSystem
  now : Nat
  state : State σ
  queue : List Event
  hungUp : Bool
  intake : Intake
  running : Option Running
  parentCancelled : Bool
  reports : List Report

inductive Step : Type
  | send : Event → Step
  | hangUp : Step
  | drain : Step
  | classify : Step
  | accept : Step
  | finishIntake : Step
  | noticeCancel : Step
  | fire : (generation : Nat) → Step
  | handOver : Step
  | finishHandler : Step
  | close : Step
  | cancel : Step
  | change : (base : Path) → Change → Step
  | pass : (ms : Nat) → Step

def chunkSize : Nat := 256

def Handler.duration (number : Nat) : Handler → Nat
  | working ms => ms number
  | _ => 0

namespace Session

variable {σ : Type}

def ofState (fs : FileSystem) (s : State σ) : Session σ :=
  ⟨fs, 0, s, [], false, .waiting, none, false, []⟩

def report (r : Report) (s : Session σ) : Session σ := { s with reports := s.reports ++ [r] }

def isDue (time : Nat) (s : Session σ) : Bool := time ≤ s.now

def isQuiet (s : Session σ) : Bool :=
  (match s.intake with
    | .waiting => !s.state.cancelled && s.queue.isEmpty && !s.hungUp
    | .classifying .. => false
    | .stopped => true) &&
  (match s.running with
    | none => s.state.waiting.isEmpty
    | some r => !s.isDue r.stop) &&
  s.state.timer.all fun t => !s.isDue t.deadline

def alarms (s : Session σ) : List Nat :=
  (s.state.timer.map Timer.deadline).toList ++ (s.running.map Running.stop).toList

def handOver (h : Handler) (s : Session σ) : Session σ :=
  match s.state.takeBatch with
  | (none, state) => { s with state := state }
  | (some batch, state) =>
    let ms := h.duration state.stats.batches
    let s := { s with state := state, running := some ⟨batch, s.now + ms⟩ }
    match h with
    | .working _ => if ms = 0 then s else s.report (.started s.now batch)
    | .channel => s.report (.delivered batch)
    | .gone => s

def finishHandler (h : Handler) (r : Running) (s : Session σ) : Session σ :=
  let s := { s with running := none }
  match h with
  | .working _ => s.report (.done s.now r.batch s.state.cancelled)
  | _ => s

def step? (w : Settings σ) (h : Handler) (s : Session σ) : Step → Option (Session σ)
  | .send e =>
    match s.hungUp, s.intake with
    | true, _ => none
    | _, .stopped => none
    | _, _ => some { s with queue := s.queue ++ [e] }
  | .hangUp => some { s with hungUp := true }
  | .drain =>
    match s.intake, s.state.cancelled, s.queue with
    | .waiting, false, e :: es =>
      some { s with
        intake := .classifying ((e :: es).take chunkSize) [], queue := (e :: es).drop chunkSize }
    | _, _, _ => none
  | .classify =>
    match s.intake with
    | .classifying (e :: es) paths =>
      let r := s.state.classify w s.fs e
      some { s with intake := .classifying es (paths ++ r.1), state := r.2 }
    | _ => none
  | .accept =>
    match s.intake with
    | .classifying [] paths =>
      some { s with intake := .waiting, state := s.state.accept w s.now paths }
    | _ => none
  | .finishIntake =>
    match s.intake, s.state.cancelled, s.queue, s.hungUp with
    | .waiting, false, [], true => some { s with intake := .stopped }
    | _, _, _, _ => none
  | .noticeCancel =>
    match s.intake, s.state.cancelled with
    | .waiting, true => some { s with intake := .stopped, queue := [], state := s.state.shutdown }
    | _, _ => none
  | .fire g =>
    if g ≤ s.state.generation ∧ s.state.timer.all (fun t => t.generation != g || s.isDue t.deadline)
    then some { s with state := s.state.fire g }
    else none
  | .handOver =>
    if s.running.isNone ∧ ¬s.state.waiting.isEmpty then some (s.handOver h) else none
  | .finishHandler =>
    match s.running with
    | some r => if s.isDue r.stop then some (s.finishHandler h r) else none
    | none => none
  | .close => some { s with state := s.state.close }
  | .cancel =>
    some { s with parentCancelled := true, state := { s.state with cancelled := true } }
  | .change base c => some { s with fs := s.fs.apply base c }
  | .pass ms =>
    if s.isQuiet ∧ s.alarms.all (s.now + ms ≤ ·) then some { s with now := s.now + ms } else none

/-- The step that happens by itself next, the intake's before the others'. -/
def next? (s : Session σ) : Option Step :=
  match s.intake, s.state.cancelled, s.queue, s.hungUp with
  | .classifying (_ :: _) _, _, _, _ => some .classify
  | .classifying [] _, _, _, _ => some .accept
  | .waiting, true, _, _ => some .noticeCancel
  | .waiting, false, _ :: _, _ => some .drain
  | .waiting, false, [], true => some .finishIntake
  | _, _, _, _ =>
    match s.running.filter fun r => s.isDue r.stop with
    | some _ => some .finishHandler
    | none =>
      match s.state.timer.filter fun t => s.isDue t.deadline with
      | some t => some (.fire t.generation)
      | none => if s.running.isNone && !s.state.waiting.isEmpty then some .handOver else none

def settleFor (w : Settings σ) (h : Handler) : Nat → Session σ → Session σ
  | 0, s => s
  | n + 1, s =>
    match s.next?.bind (s.step? w h) with
    | some s => settleFor w h n s
    | none => s

/-- Every event is taken up, classified and accepted once, and every batch handed over and finished
once. -/
def settle (w : Settings σ) (h : Handler) (s : Session σ) : Session σ :=
  let left := match s.intake with
    | .classifying es _ => es.length
    | _ => 0
  s.settleFor w h (3 * (s.queue.length + left) + 2 * s.state.waiting.length + 8)

def passTo (w : Settings σ) (h : Handler) (time : Nat) : Nat → Session σ → Session σ
  | 0, s => s
  | n + 1, s =>
    let s := s.settle w h
    match (s.alarms.filter (· ≤ time)).min? with
    | some alarm =>
      match s.step? w h (.pass (alarm - s.now)) with
      | some s => passTo w h time n s
      | none => s
    | none => (s.step? w h (.pass (time - s.now))).getD s

def sleep (w : Settings σ) (h : Handler) (ms : Nat) (s : Session σ) : Session σ :=
  passTo w h (s.now + ms) (2 * s.state.waiting.length + 3 * s.queue.length + 16) s

def sendAll (w : Settings σ) (h : Handler) : List Event → Session σ → Session σ × Nat
  | [], s => (s, 0)
  | e :: es, s =>
    match s.step? w h (.send e) with
    | some s => sendAll w h es s
    | none =>
      let r := sendAll w h es s
      (r.1, r.2 + 1)

end Session

end ChunkWatch.Watch
