import ChunkWatch.Chunk
import ChunkWatch.Language
import ChunkWatch.Syntax.Cursor

/-! Chunks of a syntax tree.  The walk moves one cursor and keeps, for each level that it is on, the
folded nodes that wait for a chunk.  A node that already stands for a chunk, as its name or its
summary, is no chunk of its own. -/

namespace ChunkWatch

open Syntax (Cursor Node Tree)

namespace Language

def nodeText (text : Bytes) (n : Node) : String := (Query.Predicate.textOf text n).toStringLossy

def chunkOf? (r : ChunkRule.Compiled) (t : Tree) (text : Bytes) (n : Node)
    (annotations : List Annotation) (represented : List Nat) : Option (Chunk × List Nat) := do
  let name ← r.name.firstCapture? text n
  if n.id ∈ represented ∨ name.id ∈ represented then none
  let parent := r.parent.bind (·.firstCapture? text n)
  let summary := r.summary.bind (·.firstCapture? text n)
  let chunk := ⟨n.kind, nodeText text name, parent.map (nodeText text), .of t.text n.label,
    summary.map fun m => .of t.text m.label, annotations⟩
  return (chunk, (summary.map Node.id).toList ++ name.id :: represented)

def annotationOf (t : Tree) (text : Bytes) (n : Node) : Annotation :=
  ⟨n.kind, .of t.text n.label, nodeText text n⟩

structure Found where
  represented : List Nat
  chunks : List Chunk

def addChunk (l : Language) (t : Tree) (text : Bytes) (n : Node) (annotations : List Annotation)
    (f : Found) : Found :=
  match (l.rule? n.kind).bind (chunkOf? · t text n annotations f.represented) with
  | some (chunk, represented) => ⟨represented, chunk :: f.chunks⟩
  | none => f

def visit (l : Language) (t : Tree) (text : Bytes) (n : Node) (folded : List Annotation)
    (f : Found) : Bool × List Annotation × Found :=
  if n.kind ∈ l.spec.skip then (false, [], f)
  else if n.kind ∈ l.spec.fold then (false, folded ++ [annotationOf t text n], f)
  else (true, [], l.addChunk t text n folded f)

structure Walk where
  cursor : Option Cursor
  /-- The folded nodes that wait for a chunk on each level, innermost first. -/
  folded : List (List Annotation)
  found : Found

namespace Walk

def start (root : Node) : Walk := ⟨(Cursor.ofRoot root).firstChild?, [[]], ⟨[], []⟩⟩

def leave (c : Cursor) : List (List Annotation) → Option (Cursor × List (List Annotation))
  | [] => c.nextSibling?.map (·, [])
  | folded :: outer =>
    match c.nextSibling? with
    | some d => some (d, folded :: outer)
    | none =>
      if outer.isEmpty then none
      else
        match c.parent? with
        | some d => leave d outer
        | none => none

def visitNode (l : Language) (t : Tree) (text : Bytes) (n : Node) (w : Walk) :
    Bool × List (List Annotation) × Found :=
  match w.folded with
  | folded :: outer =>
    if n.isNamed then
      let r := l.visit t text n folded w.found
      (r.1, r.2.1 :: outer, r.2.2)
    else (false, w.folded, w.found)
  | [] => (false, w.folded, w.found)

def goOn (c : Cursor) (folded : List (List Annotation)) (f : Found) : Walk :=
  match leave c folded with
  | some (d, rest) => ⟨some d, rest, f⟩
  | none => ⟨none, [], f⟩

def step? (l : Language) (t : Tree) (text : Bytes) (w : Walk) : Option Walk :=
  w.cursor.map fun c =>
    let r := visitNode l t text c.node w
    match if r.1 then c.firstChild? else none with
    | some d => ⟨some d, [] :: r.2.1, r.2.2⟩
    | none => goOn c r.2.1 r.2.2

def remaining (w : Walk) : Nat := w.cursor.elim 0 Cursor.remaining

theorem leave_remaining {c d : Cursor} {folded rest : List (List Annotation)}
    (h : leave c folded = some (d, rest)) : d.remaining ≤ c.behind := by
  induction folded generalizing c with
  | nil =>
    simp only [leave, Option.map_eq_some_iff, Prod.mk.injEq] at h
    obtain ⟨e, he, rfl, -⟩ := h
    exact Nat.le_of_eq (Cursor.nextSibling?_remaining he)
  | cons buffer outer ih =>
    simp only [leave] at h
    split at h
    next e he =>
      cases h
      exact Nat.le_of_eq (Cursor.nextSibling?_remaining he)
    · split at h
      · simp at h
      · split at h
        next e he => exact Nat.le_trans (ih h) (Cursor.parent?_behind he)
        · simp at h

theorem goOn_remaining (c : Cursor) (folded : List (List Annotation)) (f : Found) :
    (goOn c folded f).remaining < c.remaining := by
  rw [goOn]
  split
  next d rest h => exact Nat.lt_of_le_of_lt (leave_remaining h) c.behind_lt_remaining
  · exact Nat.zero_lt_of_lt c.behind_lt_remaining

theorem remaining_step {l : Language} {t : Tree} {text : Bytes} {w v : Walk}
    (h : step? l t text w = some v) : v.remaining < w.remaining := by
  obtain ⟨cursor, folded, found⟩ := w
  cases cursor with
  | none => simp [step?] at h
  | some c =>
    simp only [step?, Option.map_some, Option.some.injEq] at h
    subst h
    split
    next d hd =>
      split at hd
      · exact Cursor.firstChild?_remaining hd
      · simp at hd
    · exact goOn_remaining c _ _

def run (l : Language) (t : Tree) (text : Bytes) (w : Walk) : Walk :=
  match _h : step? l t text w with
  | none => w
  | some v => run l t text v
termination_by w.remaining
decreasing_by exact remaining_step _h

end Walk

/-- The chunks of a tree in document order, a container before what is in it.  Names and comments
are read from `text`, lines are counted in the text of the tree. -/
def extract (l : Language) (t : Tree) (text : Bytes) : List Chunk :=
  (Walk.run l t text (.start t.root)).found.chunks.reverse

end Language

end ChunkWatch
