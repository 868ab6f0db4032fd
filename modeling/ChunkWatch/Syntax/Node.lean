import ChunkWatch.Text.Bytes

namespace ChunkWatch.Syntax

structure Label where
  id : Nat
  kind : String
  named : Bool
  field : Option String
  start : Nat
  stop : Nat
  deriving DecidableEq

inductive Node : Type
  | node : Label → List Node → Node

namespace Node

def label : Node → Label
  | node l _ => l

def children : Node → List Node
  | node _ ns => ns

def id (n : Node) : Nat := n.label.id

def kind (n : Node) : String := n.label.kind

def isNamed (n : Node) : Bool := n.label.named

mutual

def preorder : Node → List Node
  | node l ns => node l ns :: forest ns

def forest : List Node → List Node
  | [] => []
  | n :: ns => n.preorder ++ forest ns

end

mutual

def size : Node → Nat
  | node _ ns => sizeForest ns + 1

def sizeForest : List Node → Nat
  | [] => 0
  | n :: ns => n.size + sizeForest ns

end

theorem size_eq (n : Node) : n.size = sizeForest n.children + 1 := by
  cases n with
  | node label ns => rw [size, children]

end Node

structure Row where
  depth : Nat
  kind : String
  named : Bool
  field : Option String
  start : Nat
  stop : Nat

def Row.attach (r : Row × Nat) (trees : List (Nat × Node)) : List (Nat × Node) :=
  let label := ⟨r.2, r.1.kind, r.1.named, r.1.field, r.1.start, r.1.stop⟩
  let below := trees.takeWhile fun t => r.1.depth < t.1
  (r.1.depth, .node label (below.map Prod.snd)) :: trees.dropWhile fun t => r.1.depth < t.1

structure Tree where
  root : Node
  text : Bytes

def Tree.ofRows? (text : Bytes) (rows : List Row) : Option Tree :=
  match rows.zipIdx.foldr Row.attach [] with
  | [(_, root)] => some ⟨root, text⟩
  | _ => none

end ChunkWatch.Syntax
