import ChunkWatch.Query.Pattern

/-! Patterns as step programs.  A pattern becomes a row of steps in the order of its text; a step
stands for one node at its depth below the pattern's start.  Alternatives and repetition are jumps:
a step may name another one to be tried in its place. -/

namespace ChunkWatch.Query

structure Step where
  selector : Selector
  depth : Nat
  field : Option String := none
  absent : List String := []
  captures : List String := []
  alternative : Option Nat := none
  adjoining : Bool := false
  immediate : Bool := false
  last : Bool := false
  /-- Stands for no node: goes on to the next step and to the alternative. -/
  passThrough : Bool := false
  /-- Stands for no node: goes on to the alternative. -/
  deadEnd : Bool := false

abbrev Program := List Step

namespace Program

def chain (start : Nat) (steps : Program) : Nat → Nat → List Nat
  | 0, _ => []
  | fuel + 1, i =>
    match (steps[i - start]?).bind Step.alternative with
    | some a => if i < a ∧ a < start + steps.length then i :: chain start steps fuel a else [i]
    | none => [i]

def mapChain (start i : Nat) (f : Step → Step) (steps : Program) : Program :=
  let marked := chain start steps steps.length i
  steps.mapIdx fun j s => if start + j ∈ marked then f s else s

def mapChainEnd (start : Nat) (f : Step → Step) (steps : Program) : Program :=
  let marked := (chain start steps steps.length start).getLast?
  steps.mapIdx fun j s => if marked = some (start + j) then f s else s

def again (start depth : Nat) : Step :=
  { selector := .any, depth, alternative := some start, adjoining := true, passThrough := true }

/-- At most three captures are kept at a step. -/
def addCapture (name : String) (s : Step) : Step :=
  { s with captures := (s.captures ++ [name]).take 3 }

end Program

mutual

def Pattern.width : Pattern → Nat
  | .node _ _ kids _ => kids.width + 1
  | .leaf _ => 1
  | .group items => items.width
  | .choice branches => branches.width + (branches.count - 1)
  | .nothing => 0
  | .field _ p => p.width
  | .some p => p.width + 1
  | .many p => p.width + 1
  | .optional p => p.width
  | .capture _ p => p.width

def Sequence.width : Sequence → Nat
  | .nil => 0
  | .cons _ p ps => p.width + ps.width

def Sequence.count : Sequence → Nat
  | .nil => 0
  | .cons _ _ ps => ps.count + 1

end

mutual

open Program

def Pattern.steps (start depth : Nat) (immediate : Bool) : Pattern → Program
  | .node selector absent kids anchored =>
    let steps := { selector, depth, immediate, absent } :: kids.steps (start + 1) (depth + 1) false
    if anchored then
      mapChain start (kids.lastStart (start + 1)) (fun s => { s with last := true }) steps
    else steps
  | .leaf selector => [{ selector, depth, immediate }]
  | .group items => items.steps start depth immediate
  | .choice branches =>
    branches.branchSteps start depth immediate (start + branches.width + (branches.count - 1))
  | .nothing => []
  | .field f p => mapChain start start (fun s => { s with field := some f })
      (p.steps start depth immediate)
  | .some p => p.steps start depth immediate ++ [again start depth]
  | .many p =>
    mapChainEnd start (fun s => { s with alternative := some (start + p.width + 1) })
      (p.steps start depth immediate) ++ [again start depth]
  | .optional p =>
    mapChainEnd start (fun s => { s with alternative := some (start + p.width) })
      (p.steps start depth immediate)
  | .capture name p => mapChain start start (addCapture name) (p.steps start depth immediate)

def Sequence.steps (start depth : Nat) (immediate : Bool) : Sequence → Program
  | .nil => []
  | .cons anchored p ps =>
    p.steps start depth (anchored || immediate) ++ ps.steps (start + p.width) depth false

/-- The number of the last pattern's first step; a predicate has none and counts as the step before
it. -/
def Sequence.lastStart (start : Nat) : Sequence → Nat
  | .nil => start
  | .cons _ p .nil => if p.width = 0 then start - 1 else start
  | .cons _ p ps => ps.lastStart (start + p.width)

/-- The steps of alternatives that all go on at `stop`: each but the last names the next one and
ends in a jump. -/
def Sequence.branchSteps (start depth : Nat) (immediate : Bool) (stop : Nat) : Sequence → Program
  | .nil => []
  | .cons _ p .nil => p.steps start depth immediate
  | .cons _ p ps =>
    let next := start + p.width + 1
    (p.steps start depth immediate).modify 0 (fun s => { s with alternative := some next }) ++
      { selector := .any, depth, alternative := some stop, deadEnd := true } ::
      ps.branchSteps next depth immediate stop

end

namespace Program

def ofPattern (p : Pattern) : Program := p.steps 0 0 false

def step? (q : Program) (i : Nat) : Option Step := q[i]?

def captures (q : Program) (i : Nat) : Bool :=
  match q.drop i with
  | [] => false
  | s :: below => !s.captures.isEmpty ||
      (below.takeWhile fun t => s.depth < t.depth).any fun t => !t.captures.isEmpty

def fallible (q : Program) (i : Nat) : Bool :=
  match q.drop i with
  | s :: t :: _ => s.depth < t.depth
  | _ => false

/-- A state may begin below a wildcard at the start, if the step there is no wildcard itself. -/
def skipsRoot (q : Program) (i : Nat) : Bool :=
  match q.drop i with
  | s :: t :: _ => s.selector.isWildcard && s.depth == 0 && s.field.isNone &&
      !t.selector.isWildcard && t.depth == 1 && !t.immediate
  | _ => false

def entriesFrom (q : Program) : Nat → Nat → Option Nat → List Nat
  | 0, _, _ => []
  | fuel + 1, i, pending =>
    let skip := q.skipsRoot i
    let pending := if skip then (q.step? i).bind Step.alternative else pending
    let i := if skip then i + 1 else i
    match (q.step? i).bind Step.alternative, pending with
    | some a, pending => i :: entriesFrom q fuel a pending
    | none, some a => i :: entriesFrom q fuel a none
    | none, none => [i]

def entries (q : Program) : List Nat :=
  (q.entriesFrom (2 * q.length + 1) 0 none).filter (· < q.length)

end Program

end ChunkWatch.Query
