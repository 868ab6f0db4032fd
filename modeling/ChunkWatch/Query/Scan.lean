import ChunkWatch.Query.Program

/-! Running step programs over a subtree.  The nodes are met in preorder; every state waits for a
node at the depth of its step, and is copied where it could go on in two ways.  Of two states of one
pattern at the same step, one that captures all that the other one captures drops it; a match is
held back while a state that captures more is still running. -/

namespace ChunkWatch.Query

open Syntax (Node)

abbrev Captures := List (String × Node)

structure State where
  pattern : Nat
  step : Nat
  start : Nat
  captures : Captures
  adjoining : Bool
  outdone : Bool
  rootless : Bool

structure Match where
  pattern : Nat
  captures : Captures

structure Place where
  depth : Nat
  parent : Option Node
  field : Option String
  later : List Node

structure Scan where
  states : List State
  found : List Match

namespace State

def step? (qs : List Program) (s : State) : Option Step := (qs[s.pattern]?).bind (·.step? s.step)

def isDone (qs : List Program) (s : State) : Bool := (s.step? qs).isNone

def toMatch (s : State) : Match := ⟨s.pattern, s.captures⟩

end State

namespace Step

def accepts (t : Step) (p : Place) (n : Node) : Bool :=
  t.selector.selects n &&
    !(t.last && if t.selector.isToken then !p.later.isEmpty else p.later.any Node.isNamed) &&
    t.field.all (p.field == some ·) &&
    t.absent.all fun f => n.children.all (·.label.field != some f)

def mayMatchLater (t : Step) (p : Place) (n : Node) : Bool :=
  !p.later.isEmpty && !(t.immediate && (n.isNamed || t.selector.isToken)) &&
    t.field.all fun f => p.field != some f || p.later.any (·.label.field == some f)

def adjoins (t next : Step) : Bool :=
  next.immediate && (t.selector == .any || t.selector.isToken)

end Step

namespace State

def capturesWith (q : Program) (s : State) (t : Step) (p : Place) (n : Node) : Captures :=
  let skipped := match s.rootless, p.parent with
    | true, some parent =>
      let root := (q.take s.step).reverse.find? fun t =>
        t.depth == 0 && !t.deadEnd && !t.passThrough
      (root.map Step.captures).getD [] |>.map (·, parent)
    | _, _ => []
  s.captures ++ skipped ++ t.captures.map (·, n)

def advance (q : Program) (s : State) (t : Step) (p : Place) (n : Node) : State :=
  { s with
    step := s.step + 1
    captures := s.capturesWith q t p n
    adjoining := (q.step? (s.step + 1)).any t.adjoins
    rootless := false }

def split (q : Program) : Nat → State → List State
  | 0, s => [s]
  | fuel + 1, s =>
    match q.step? s.step with
    | none => [s]
    | some t =>
      match t.alternative with
      | none => [s]
      | some a =>
        let other (s : State) := { s with step := a, adjoining := t.adjoining || s.adjoining }
        if t.deadEnd then split q fuel { s with step := a }
        else if t.passThrough then
          let s := { s with step := s.step + 1 }
          split q fuel s ++ split q fuel (other s)
        else s :: split q fuel (other s)

/-- What becomes of a state at a node.  A state that matches there stays behind as well if it could
capture or go on otherwise at a later sibling. -/
def meet (qs : List Program) (p : Place) (n : Node) (s : State) : List State :=
  let s := { s with outdone := false }
  match qs[s.pattern]?, s.step? qs with
  | some q, some t =>
    if s.start + t.depth ≠ p.depth then [s]
    else
      let later := !s.adjoining && t.mayMatchLater p n
      if t.accepts p n then
        split q (q.length + 1) (s.advance q t p n) ++
          if later && (q.captures s.step || q.fallible s.step) then [s] else []
      else if later then [s] else []
  | _, _ => [s]

end State

def precedes (m n : Node) : Bool :=
  m.label.start < n.label.start || (m.label.start == n.label.start && n.label.stop < m.label.stop)

def contain : Captures → Captures → Bool × Bool
  | [], [] => (true, true)
  | [], _ :: _ => (false, true)
  | _ :: _, [] => (true, false)
  | (c, m) :: ls, (d, n) :: rs =>
    if m.id = n.id ∧ c = d then contain ls rs
    else if m.id ≠ n.id ∧ precedes m n then ((contain ls ((d, n) :: rs)).1, false)
    else if m.id ≠ n.id ∧ precedes n m then (false, (contain ((c, m) :: ls) rs).2)
    else (false, false)
termination_by ls rs => ls.length + rs.length
decreasing_by all_goals simp only [List.length_cons]; omega

def State.against (s : State) : List State → Option State × List State
  | [] => (some s, [])
  | t :: ts =>
    if s.start ≠ t.start ∨ s.pattern ≠ t.pattern then (some s, t :: ts)
    else
      let c := contain s.captures t.captures
      if s.step = t.step ∧ c.1 then s.against ts
      else if s.step = t.step ∧ c.2 then (none, t :: ts)
      else
        let r := State.against { s with outdone := s.outdone || c.2 } ts
        (r.1, { t with outdone := t.outdone || c.1 } :: r.2)

theorem State.against_length (s : State) (ts : List State) :
    (s.against ts).2.length ≤ ts.length := by
  induction ts generalizing s with
  | nil => simp [against]
  | cons t ts ih =>
    simp only [against]
    split
    · simp
    · split
      · exact Nat.le_succ_of_le (ih s)
      · split
        · simp
        · exact Nat.succ_le_succ (ih _)

def settle (qs : List Program) : List State → List State × List Match
  | [] => ([], [])
  | s :: ss =>
    let r := settle qs (s.against ss).2
    match (s.against ss).1 with
    | none => r
    | some s =>
      if s.isDone qs ∧ ¬s.outdone then (r.1, s.toMatch :: r.2) else (s :: r.1, r.2)
termination_by ss => ss.length
decreasing_by exact Nat.lt_succ_of_le (s.against_length ss)

namespace Scan

def start : Scan := ⟨[], []⟩

/-- Puts a new state behind those of its own pattern and of earlier ones, unless the last of them is
at the same step. -/
def insert (new : State) (ss : List State) : List State :=
  let behind (s : State) : Bool :=
    new.start < s.start || (s.start == new.start && new.pattern < s.pattern)
  let front := ss.reverse.dropWhile behind
  match front with
  | s :: _ =>
    if s.start = new.start ∧ s.pattern = new.pattern ∧ s.step = new.step then ss
    else front.reverse ++ new :: (ss.reverse.takeWhile behind).reverse
  | [] => new :: ss

/-- The states that begin at a node: wildcards first, then the patterns in order, the alternatives
of one pattern from the last to the first. -/
def beginnings (qs : List Program) (p : Place) (n : Node) : List State :=
  let starts (wild : Bool) (q : Program × Nat) : List State :=
    let at? (i : Nat) : Option State := do
      let t ← q.1.step? i
      if t.selector.isWildcard = wild ∧ t.depth = p.depth ∧ t.selector.selects n ∧
          t.field.all (p.field == some ·) then
        some ⟨q.2, i, 0, [], true, false, t.depth == 1⟩
      else none
    let found := q.1.entries.filterMap at?
    if wild then found else found.reverse
  qs.zipIdx.flatMap (starts true) ++ qs.zipIdx.flatMap (starts false)

def enter (qs : List Program) (p : Place) (n : Node) (s : Scan) : Scan :=
  let states := (beginnings qs p n).foldl (fun ss new => insert new ss) s.states
  let r := settle qs (states.flatMap (·.meet qs p n))
  ⟨r.1, s.found ++ r.2⟩

def wantsBelow (qs : List Program) (depth : Nat) (s : Scan) : Bool :=
  s.states.any fun t => (t.step? qs).any fun u => depth < t.start + u.depth

/-- Drops the states that needed a node at `depth` or below; at the root, the matches that were held
back are taken. -/
def leave (qs : List Program) (depth : Nat) (s : Scan) : Scan :=
  let done := s.states.filter fun t => t.isDone qs && (depth < t.start || depth == 0)
  let kept := s.states.filter fun t =>
    match t.step? qs with
    | none => t.start ≤ depth && depth != 0
    | some u => t.start + u.depth ≤ depth
  ⟨kept, s.found ++ done.map State.toMatch⟩

mutual

def node (qs : List Program) (p : Place) : Node → Scan → Scan
  | .node l ns, s =>
    let s := s.enter qs p (.node l ns)
    let s := if s.wantsBelow qs p.depth then forest qs (p.depth + 1) (.node l ns) ns s else s
    s.leave qs p.depth

def forest (qs : List Program) (depth : Nat) (parent : Node) : List Node → Scan → Scan
  | [], s => s
  | n :: ns, s => forest qs depth parent ns (node qs ⟨depth, some parent, n.label.field, ns⟩ n s)

end

end Scan

def matchesAt (qs : List Program) (n : Node) : List Match :=
  (Scan.node qs ⟨0, none, none, []⟩ n .start).found

end ChunkWatch.Query
