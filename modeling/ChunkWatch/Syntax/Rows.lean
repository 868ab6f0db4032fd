import ChunkWatch.Syntax.Node

/-! Syntax trees written down in lines, one for each node in preorder.  Tabs stand between the
depth, `1` for a named node or `0`, the first and the last byte, the field, which may be empty, and
the type, in which a line break is written as a backslash and an `n`. -/

namespace ChunkWatch.Syntax

def Row.readKind : List Char → List Char
  | '\\' :: 'n' :: cs => '\n' :: readKind cs
  | c :: cs => c :: readKind cs
  | [] => []

def Row.ofLine? (line : String) : Option Row :=
  match line.splitOn "\t" with
  | [depth, named, start, stop, field, kind] => do
    let field := if field = "" then none else some field
    return ⟨← depth.toNat?, String.ofList (readKind kind.toList), named = "1", field,
      ← start.toNat?, ← stop.toNat?⟩
  | _ => none

def Tree.ofLines? (text : Bytes) (lines : String) : Option Tree := do
  let rows ← ((lines.splitOn "\n").filter (· ≠ "")).mapM Row.ofLine?
  Tree.ofRows? text rows

end ChunkWatch.Syntax
