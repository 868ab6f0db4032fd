import ChunkWatch.Classifier

/-! Walking a source tree, a directory before what is in it.  Ignored directories are not entered
and ignored files are passed over; links are not followed, but for one at the very start. -/

namespace ChunkWatch

structure SourceEntry where
  path : Path
  isDir : Bool
  deriving DecidableEq

structure Tally where
  seen : Nat
  yielded : Nat
  pruned : Nat
  skipped : Nat
  deriving DecidableEq

namespace Tally

def zero : Tally := ⟨0, 0, 0, 0⟩

def see (t : Tally) : Tally := { t with seen := t.seen + 1 }

def yield (t : Tally) : Tally := { t with yielded := t.yielded + 1 }

def ignore (t : Tally) (isDir : Bool) : Tally :=
  if isDir then { t with pruned := t.pruned + 1 } else { t with skipped := t.skipped + 1 }

end Tally

namespace Walk

variable {σ τ ε : Type}

structure Progress (σ τ : Type) where
  memory : σ
  tally : Tally
  made : τ

abbrev Visitor (ε τ : Type) := SourceEntry → τ → Except ε τ

mutual

def entry (c : Classifier σ) (fs : FileSystem) (visit : Visitor ε τ) (here relative : Path)
    (name : Bytes) : Entry → Progress σ τ → Except ε (Progress σ τ)
  | .dir es, p => do
    let r := (c.shouldIgnoreEntry fs (here.push name) true).run p.memory
    if r.1 then return ⟨r.2, p.tally.see.ignore true, p.made⟩
    let made ← visit ⟨relative.push name, true⟩ p.made
    entries c fs visit (here.push name) (relative.push name) es ⟨r.2, p.tally.see.yield, made⟩
  | _, p => do
    let r := (c.shouldIgnoreEntry fs (here.push name) false).run p.memory
    if r.1 then return ⟨r.2, p.tally.see.ignore false, p.made⟩
    let made ← visit ⟨relative.push name, false⟩ p.made
    return ⟨r.2, p.tally.see.yield, made⟩

def entries (c : Classifier σ) (fs : FileSystem) (visit : Visitor ε τ) (here relative : Path) :
    Entries → Progress σ τ → Except ε (Progress σ τ)
  | .nil, p => return p
  | .cons name e es, p => do
    entries c fs visit here relative es (← entry c fs visit here relative name e p)

end

/-- What a walk that starts at `root` goes through; a file has no entries. -/
def entriesAt (fs : FileSystem) (root : Path) : Except IoError Entries := do
  match ← fs.entry? false root with
  | .dir es => return es
  | .file _ => return .nil
  | .link _ =>
    match ← fs.entry? true root with
    | .dir es => return es
    | _ => return .nil

def run (c : Classifier σ) (fs : FileSystem) (visit : Visitor Error τ) (root : Path) (made : τ)
    (memory : σ) : Except Error (Progress σ τ) :=
  match entriesAt fs root with
  | .error e => .error (.watch (.walkAt root e))
  | .ok es => entries c fs visit root ⟨[]⟩ es ⟨memory, .zero, made⟩

def collect : Visitor Error (List SourceEntry) := fun e es => .ok (e :: es)

def relevantDirs (c : Classifier σ) (fs : FileSystem) (root : Path) (memory : σ) :
    Except Error (List Path × σ) :=
  let keep : Visitor Error (List Path) := fun e dirs =>
    if e.isDir then .ok dirs
    else .ok (((root.join e.path).parent?.elim id Path.insertInto) dirs)
  (run c fs keep root [] memory).map fun p => (p.made, p.memory)

end Walk

end ChunkWatch
