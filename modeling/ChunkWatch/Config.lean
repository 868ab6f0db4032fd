import ChunkWatch.Classifier
import ChunkWatch.Language.Registry

namespace ChunkWatch

inductive Backend : Type
  | files : Backend
  | command : Backend
  deriving DecidableEq

def Backend.parse (s : String) : Except Error Backend :=
  match String.ofList (Text.lower s.toList) with
  | "gitignore" => .ok .files
  | "git" => .ok .command
  | other => .error <| .config
      s!"invalid ignore backend '{other}', must be 'gitignore' or 'git'"

def OnFailure.parse (s : String) : Except Error OnFailure :=
  match String.ofList (Text.lower s.toList) with
  | "ignore" | "closed" => .ok .ignore
  | "include" | "open" => .ok .take
  | other => .error <| .config
      s!"invalid oracle failure policy '{other}', must be 'ignore' or 'include'"

structure Config where
  workspace : Path
  /-- The extensions to watch; those of all languages if there are none. -/
  extensions : List String
  debounceMs : Nat
  backend : Backend
  onFailure : OnFailure
  logLevel : String

namespace Config

def default : Config := ⟨⟨[dot]⟩, [], 60000, .files, .ignore, "info"⟩

def logLevels : List String := ["trace", "debug", "info", "warn", "error"]

def isInvalidExtension (e : String) : Bool := e.toList.all (· == '.') || e.toList.contains '/'

def validate (c : Config) : Except Error Unit :=
  if c.workspace.bytes = [] then .error (.config "workspace cannot be empty")
  else if c.debounceMs = 0 then .error (.config "debounce cannot be 0")
  else if String.ofList (Text.lower c.logLevel.toList) ∉ logLevels then
    let levels := ", ".intercalate logLevels
    .error (.config s!"invalid log level '{c.logLevel}', must be one of: {levels}")
  else
    match c.extensions.find? isInvalidExtension with
    | some e => .error (.config s!"invalid extension '{e}'")
    | none => .ok ()

def workspaceRoot (c : Config) (fs : FileSystem) : Except Error Path :=
  (fs.canonicalize c.workspace).mapError .io

def classifier (c : Config) (r : Registry) (fs : FileSystem) (run : Path → Outcome) :
    Except Error (Classifier Ignore.Cache) := do
  let root ← c.workspaceRoot fs
  let oracle ← match c.backend with
    | .files =>
      match Ignore.Layers.ofWorkspace fs root with
      | .ok layers => .ok (Oracle.ofLayers layers)
      | .error f => .error (.config f.message)
    | .command => .ok (IgnoreCommand.oracle ⟨root, c.onFailure⟩ run)
  let extensions := if c.extensions.isEmpty then r.extensions else c.extensions
  return .ofExtensions root extensions oracle

end Config

end ChunkWatch
