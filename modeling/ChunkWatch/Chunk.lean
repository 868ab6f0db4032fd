import ChunkWatch.Syntax.Node
import ChunkWatch.Text.Json

namespace ChunkWatch

open Syntax (Label Node)

structure Span where
  startByte : Nat
  endByte : Nat
  startLine : Nat
  endLine : Nat
  deriving DecidableEq

namespace Span

def lineAt (text : Bytes) (offset : Nat) : Nat := (text.take offset).count 10 + 1

def of (text : Bytes) (l : Label) : Span :=
  ⟨l.start, l.stop, lineAt text l.start, lineAt text l.stop⟩

/-- The text of the span, or nothing unless both ends stand between characters of the source. -/
def slice (s : Span) (source : Bytes) : Bytes :=
  if source.isBoundary s.startByte && source.isBoundary s.endByte then
    (source.slice? s.startByte s.endByte).getD []
  else []

def toJson (s : Span) : Json :=
  .obj [("start_byte", .num s.startByte), ("end_byte", .num s.endByte),
    ("start_line", .num s.startLine), ("end_line", .num s.endLine)]

end Span

structure Annotation where
  kind : String
  span : Span
  text : String
  deriving DecidableEq

def Annotation.toJson (a : Annotation) : Json :=
  .obj [("node_type", .str a.kind), ("span", a.span.toJson), ("text", .str a.text)]

structure Chunk where
  kind : String
  name : String
  parentName : Option String
  span : Span
  summary : Option Span
  annotations : List Annotation
  deriving DecidableEq

namespace Chunk

def represented (c : Chunk) : Span := c.summary.getD c.span

def text (c : Chunk) (source : Bytes) : Bytes := c.represented.slice source

def toJson (c : Chunk) : Json :=
  .obj <|
    [("node_type", .str c.kind), ("name", .str c.name)] ++
    (c.parentName.map fun p => ("parent_name", .str p)).toList ++
    [("span", c.span.toJson)] ++
    (c.summary.map fun s => ("summary", s.toJson)).toList ++
    [("annotations", .arr (c.annotations.map Annotation.toJson))]

end Chunk

end ChunkWatch
