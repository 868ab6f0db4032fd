import ChunkWatch.Walk
import ChunkWatch.Watch.Event
import ChunkWatch.Watch.Source

namespace ChunkWatch.Watch

structure Settings (σ : Type) where
  classifier : Classifier σ
  debounce : Nat
  watchNewDirs : Bool

structure Stats where
  received : Nat
  discarded : Nat
  batches : Nat
  paths : Nat
  errors : Nat
  dirs : Nat
  deriving DecidableEq

def Stats.zero : Stats := ⟨0, 0, 0, 0, 0, 0⟩

structure Timer where
  generation : Nat
  deadline : Nat
  deriving DecidableEq

inductive Status : Type
  | idle : Status
  | accumulating : Status
  | closed : Status
  deriving DecidableEq

structure State (σ : Type) where
  memory : σ
  pending : List Path
  timer : Option Timer
  generation : Nat
  closed : Bool
  /-- Set before a shutdown; nothing is registered or handed over any more. -/
  cancelled : Bool
  source : Source
  dirs : List Path
  stats : Stats
  waiting : List (List Path)

namespace State

variable {σ : Type}

def status (s : State σ) : Status :=
  if s.closed then .closed
  else if s.pending.isEmpty && s.timer.isNone then .idle
  else .accumulating

def countStats (f : Stats → Stats) (s : State σ) : State σ := { s with stats := f s.stats }

def discard (s : State σ) : State σ :=
  s.countStats fun t => { t with discarded := t.discarded + 1 }

def asking {α : Type} (ask : StateM σ α) (s : State σ) : α × State σ :=
  let r := ask.run s.memory
  (r.1, { s with memory := r.2 })

def forget? (dir : Path) (s : State σ) : Option (State σ) :=
  if dir.isIn s.dirs then
    let kept := s.dirs.filter fun d => !d.startsWith dir
    let gone := s.dirs.length - kept.length
    some ({ s with dirs := kept }.countStats fun t => { t with dirs := t.dirs - gone })
  else none

def register (fs : FileSystem) (s : State σ) (dir : Path) : State σ :=
  if dir.isIn s.dirs then s
  else
    match s.source.watch fs dir with
    | (source, some _) => { s with source := source }
    | (source, none) =>
      { s with source := source, dirs := dir.insertInto s.dirs }.countStats fun t =>
        { t with dirs := t.dirs + 1 }

def scan (w : Settings σ) (fs : FileSystem) (dir : Path) (s : State σ) :
    List SourceEntry × State σ :=
  match Walk.run w.classifier fs Walk.collect dir [] s.memory with
  | .ok p => (p.made.reverse, { s with memory := p.memory })
  | .error _ => ([], s)

def arrive (w : Settings σ) (fs : FileSystem) (relative : Path) (s : State σ) :
    List Path × State σ :=
  let dir := w.classifier.root.join relative
  let r := s.scan w fs dir
  if r.2.cancelled then ([], r.2)
  else
    let dirs := dir :: (r.1.filter (·.isDir)).map fun e => dir.join e.path
    ((r.1.filter (!·.isDir)).map fun e => relative.join e.path, dirs.foldl (register fs) r.2)

def classifyChange (w : Settings σ) (fs : FileSystem) (p : Path) (kind : ChangeKind)
    (s : State σ) : List Path × State σ :=
  if !kind.isContent then ([], s.discard)
  else
    match w.classifier.relativePath? p with
    | none => ([], s.discard)
    | some relative =>
      if relative.bytes = [] then ([], s.discard)
      else
        let absolute := w.classifier.root.join relative
        match if fs.exists? absolute then none else s.forget? absolute with
        | some s => ([], s.discard)
        | none =>
          let isDir := fs.isDir absolute
          let r := s.asking (w.classifier.shouldIgnoreEntry fs absolute isDir)
          if r.1 then ([], r.2.discard)
          else if !isDir then ([relative], r.2)
          else if kind.isArrival && w.watchNewDirs then r.2.arrive w fs relative
          else ([], r.2.discard)

def classify (w : Settings σ) (fs : FileSystem) (s : State σ) : Event → List Path × State σ
  | .error _ => ([], s.countStats fun t => { t with errors := t.errors + 1 })
  | .change p kind =>
    (s.countStats fun t => { t with received := t.received + 1 }).classifyChange w fs p kind

def accept (w : Settings σ) (now : Nat) (paths : List Path) (s : State σ) : State σ :=
  if paths.isEmpty || s.closed then s
  else
    { s with
      pending := paths.foldl (fun acc p => p.insertInto acc) s.pending
      timer := some ⟨s.generation + 1, now + w.debounce⟩
      generation := s.generation + 1 }

/-- The timer of a generation goes off.  One that was set anew since changes nothing. -/
def fire (generation : Nat) (s : State σ) : State σ :=
  if s.closed || s.generation != generation then s
  else
    { s with
      pending := []
      timer := none
      waiting := if s.pending.isEmpty then s.waiting else s.waiting ++ [s.pending] }

/-- Takes the oldest waiting batch to the handler; once cancelled, drops it. -/
def takeBatch (s : State σ) : Option (List Path) × State σ :=
  match s.waiting with
  | [] => (none, s)
  | batch :: waiting =>
    let s := { s with waiting := waiting }
    if s.cancelled then (none, s)
    else
      (some batch, s.countStats fun t =>
        { t with batches := t.batches + 1, paths := t.paths + batch.length })

def shutdown (s : State σ) : State σ :=
  if s.closed then s
  else
    { s with closed := true, pending := [], timer := none, source := s.source.close,
             dirs := [] }.countStats fun t => { t with dirs := 0 }

def close (s : State σ) : State σ := { s with cancelled := true }.shutdown

end State

structure StartFailure where
  error : Error
  source : Source

/-- Starts to watch: registers the root and every directory that holds a file that matters, in path
order.  If a directory is refused, the source is closed again. -/
def start {σ : Type} (w : Settings σ) (fs : FileSystem) (source : Source) (memory : σ) :
    Except StartFailure (State σ) :=
  let root := w.classifier.root
  match Walk.relevantDirs w.classifier fs root memory with
  | .error e => .error ⟨e, source.close⟩
  | .ok (dirs, memory) =>
    let dirs := root.insertInto dirs
    match source.watchAll fs dirs with
    | (source, some e) => .error ⟨.watch e, source.close⟩
    | (source, none) =>
      .ok {
        memory, pending := [], timer := none, generation := 0, closed := false,
        cancelled := false, source, dirs,
        stats := { Stats.zero with dirs := dirs.length }, waiting := [] }

end ChunkWatch.Watch
