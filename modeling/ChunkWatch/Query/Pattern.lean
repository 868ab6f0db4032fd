import ChunkWatch.Syntax.Node

namespace ChunkWatch.Query

inductive Selector : Type
  | any : Selector
  | anyNamed : Selector
  | kind : String → Selector
  | token : String → Selector
  | member : String → Option String → Selector
  | missing : Selector → Selector
  deriving DecidableEq

namespace Selector

/-- An error node counts as a node only where its kind is named. -/
def isError (l : Syntax.Label) : Bool := l.named && l.kind == "ERROR"

def selects : Selector → Syntax.Node → Bool
  | any, n => !isError n.label
  | anyNamed, n => !isError n.label && n.isNamed
  | kind k, n => n.isNamed && n.kind == k
  | token t, n => !n.isNamed && n.kind == t
  | member .., _ => false
  | missing s, .node l ns =>
    ns.isEmpty && l.start == l.stop &&
      match s with
      | any | anyNamed => true
      | s => s.selects (.node l ns)

def isWildcard : Selector → Bool
  | any | anyNamed => true
  | member _ none => true
  | missing s => s.isWildcard
  | _ => false

def isToken : Selector → Bool
  | token _ => true
  | _ => false

end Selector

mutual

inductive Pattern : Type
  | node : Selector → (absent : List String) → Sequence → (anchored : Bool) → Pattern
  | leaf : Selector → Pattern
  | group : Sequence → Pattern
  /-- The alternatives; their anchors are not used. -/
  | choice : Sequence → Pattern
  | nothing : Pattern
  | field : String → Pattern → Pattern
  | some : Pattern → Pattern
  | many : Pattern → Pattern
  | optional : Pattern → Pattern
  | capture : String → Pattern → Pattern

inductive Sequence : Type
  | nil : Sequence
  | cons : (anchored : Bool) → Pattern → Sequence → Sequence

end

inductive Argument : Type
  | capture : String → Argument
  | text : String → Argument

structure Call where
  function : String
  arguments : List Argument

structure Clause where
  pattern : Pattern
  calls : List Call
  offset : Nat

end ChunkWatch.Query
