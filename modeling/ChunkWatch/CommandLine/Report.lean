import ChunkWatch.SourceFile
import ChunkWatch.Language.Registry

namespace ChunkWatch.CommandLine

def reportChange (r : Registry) (trees : TreeSource) (fs : FileSystem) (root relative : Path)
    (pathsOnly : Bool) : String :=
  if pathsOnly then s!"Changed {relative.display}"
  else
    match r.forPath? relative with
    | none => s!"Changed (no language) {relative.display}"
    | some l =>
      if fs.isFile (root.join relative) then
        match SourceFile.read l trees fs root relative with
        | .ok f => s!"Changed {relative.display}: {f.role.name}, {f.chunks.length} chunks"
        | .error e => s!"Failed to extract {relative.display}: {e.message}"
      else s!"Removed {relative.display}"

end ChunkWatch.CommandLine
