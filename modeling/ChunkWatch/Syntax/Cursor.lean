import ChunkWatch.Syntax.Node

namespace ChunkWatch.Syntax

structure Cursor where
  node : Node
  later : List Node
  above : List (Node × List Node)

namespace Cursor

def ofRoot (n : Node) : Cursor := ⟨n, [], []⟩

def firstChild? (c : Cursor) : Option Cursor :=
  match c.node.children with
  | [] => none
  | n :: ns => some ⟨n, ns, (c.node, c.later) :: c.above⟩

def nextSibling? (c : Cursor) : Option Cursor :=
  match c.later with
  | [] => none
  | n :: ns => some ⟨n, ns, c.above⟩

def parent? (c : Cursor) : Option Cursor :=
  match c.above with
  | [] => none
  | (n, ns) :: above => some ⟨n, ns, above⟩

theorem firstChild?_eq_some_iff {c d : Cursor} : c.firstChild? = some d ↔
    c.node.children = d.node :: d.later ∧ d.above = (c.node, c.later) :: c.above := by
  obtain ⟨n, ns, above⟩ := d
  rw [firstChild?]
  split
  next h => simp [h]
  next h => simp [h, eq_comm, and_assoc]

theorem firstChild?_eq_none_iff {c : Cursor} : c.firstChild? = none ↔ c.node.children = [] := by
  rw [firstChild?]
  split <;> simp [*]

theorem nextSibling?_eq_some_iff {c d : Cursor} : c.nextSibling? = some d ↔
    c.later = d.node :: d.later ∧ d.above = c.above := by
  obtain ⟨n, ns, above⟩ := d
  rw [nextSibling?]
  split
  next h => simp [h]
  next h => simp [h, eq_comm, and_assoc]

theorem nextSibling?_eq_none_iff {c : Cursor} : c.nextSibling? = none ↔ c.later = [] := by
  rw [nextSibling?]
  split <;> simp [*]

theorem parent?_eq_some_iff {c d : Cursor} : c.parent? = some d ↔
    c.above = (d.node, d.later) :: d.above := by
  obtain ⟨n, ns, above⟩ := d
  rw [parent?]
  split
  next h => simp [h]
  next h => simp [h, and_assoc]

theorem parent?_eq_none_iff {c : Cursor} : c.parent? = none ↔ c.above = [] := by
  rw [parent?]
  split <;> simp [*]

def behind (c : Cursor) : Nat :=
  Node.sizeForest c.later + c.above.foldr (fun a n => Node.sizeForest a.2 + n) 0

def remaining (c : Cursor) : Nat := c.node.size + c.behind

theorem behind_lt_remaining (c : Cursor) : c.behind < c.remaining := by
  rw [remaining, Node.size_eq]
  omega

theorem firstChild?_remaining {c d : Cursor} (h : c.firstChild? = some d) :
    d.remaining < c.remaining := by
  obtain ⟨hchildren, habove⟩ := firstChild?_eq_some_iff.mp h
  simp only [remaining, behind, Node.size_eq c.node, hchildren, habove, Node.sizeForest,
    List.foldr_cons]
  omega

theorem nextSibling?_remaining {c d : Cursor} (h : c.nextSibling? = some d) :
    d.remaining = c.behind := by
  obtain ⟨hlater, habove⟩ := nextSibling?_eq_some_iff.mp h
  simp only [remaining, behind, hlater, habove, Node.sizeForest]
  omega

theorem parent?_behind {c d : Cursor} (h : c.parent? = some d) : d.behind ≤ c.behind := by
  have habove := parent?_eq_some_iff.mp h
  simp only [behind, habove, List.foldr_cons]
  omega

end Cursor

end ChunkWatch.Syntax
