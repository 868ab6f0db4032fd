import ChunkWatch.Extract
import ChunkWatch.FileSystem.Resolve

namespace ChunkWatch

structure SourceFile where
  path : Path
  role : Role
  chunks : List Chunk

abbrev TreeSource := Syntax.Grammar → Bytes → Option Syntax.Tree

namespace SourceFile

def chunksOf (l : Language) (trees : TreeSource) (text : Bytes) : Except Error (List Chunk) :=
  match trees l.spec.grammar text with
  | some t => .ok (l.extract t text)
  | none => .error (.language (.parse l.name "parser returned no tree"))

/-- Reads the file at a path below `root`.  A file whose role is `ignore` need not even exist. -/
def read (l : Language) (trees : TreeSource) (fs : FileSystem) (root relative : Path) :
    Except Error SourceFile := do
  let role := l.classifyRole relative
  if role = .ignore then return ⟨relative, role, []⟩
  let text ← (fs.readText (root.join relative)).mapError .io
  return ⟨relative, role, ← chunksOf l trees text⟩

inductive EncodeError : Type
  | pathNotText : EncodeError
  deriving DecidableEq

def EncodeError.message : EncodeError → String
  | pathNotText => "path contains invalid UTF-8 characters"

def toJson (f : SourceFile) : Except EncodeError Json :=
  match f.path.bytes.toString? with
  | some path =>
    .ok <| .obj [("path", .str path), ("role", .str f.role.name),
      ("chunks", .arr (f.chunks.map Chunk.toJson))]
  | none => .error .pathNotText

end SourceFile

end ChunkWatch
