import ChunkWatch.CommandLine.Failure
import ChunkWatch.CommandLine.Help
import ChunkWatch.CommandLine.Request
import ChunkWatch.SourceFile
import ChunkWatch.Watch.Launch

namespace ChunkWatch.CommandLine

structure World where
  fs : FileSystem
  env : List (String × String)
  trees : TreeSource
  run : Path → Outcome

structure Ending where
  exitCode : Nat
  output : String
  errors : String

inductive Result : Type
  | ended : Ending → Result
  | watching : Watch.Launched → (pathsOnly : Bool) → Result

/-- The directory that a file is read relative to, and the relative path: that of the workspace if
the file is in it, and otherwise its own. -/
def locate (root absolute file : Path) : Except Error (Path × Path) :=
  match absolute.stripPrefix? root with
  | some relative => .ok (root, relative)
  | none =>
    match absolute.parent?, absolute.fileName? with
    | some parent, some name => .ok (parent, ⟨name⟩)
    | _, _ => .error (.config s!"'{file.display}' is not a file")

def chunks (w : World) (r : Registry) (c : Config) (file : Path) : Except Error String := do
  c.validate
  let root ← c.workspaceRoot w.fs
  let absolute ← (w.fs.canonicalize file).mapError .io
  let (base, relative) ← locate root absolute file
  match r.forPath? relative with
  | none => throw (.language (.unknown relative.display))
  | some l =>
    let f ← SourceFile.read l w.trees w.fs base relative
    match f.toJson with
    | .ok json => return json.pretty ++ "\n"
    | .error e => throw (.internal s!"failed to encode chunks: {e.message}")

def handle (w : World) : Request → Except Error Result
  | .chunks c file => do
    let r ← Registry.withDefaults.mapError .language
    return .ended ⟨0, ← chunks w r c file, ""⟩
  | .watch c pathsOnly => do
    let r ← Registry.withDefaults.mapError .language
    return .watching (← Watch.launch c r w.fs w.run) pathsOnly

def Stop.ending (env : List (String × String)) : Stop → Ending
  | .fault f => ⟨2, "", f.report⟩
  | .help l => ⟨0, l.help env, ""⟩
  | .version => ⟨0, s!"{programName} {programVersion}\n", ""⟩
  | .nothing => ⟨2, "", Level.top.help env⟩

def run (w : World) (words : List String) : Result :=
  match Request.read w.env words with
  | .error s => .ended (s.ending w.env)
  | .ok request =>
    match handle w request with
    | .error e => .ended ⟨1, "", s!"Error: {e.dump}\n"⟩
    | .ok r => r

end ChunkWatch.CommandLine
