import ChunkWatch.Config

namespace ChunkWatch.CommandLine

inductive Level : Type
  | top : Level
  | watch : Level
  | chunks : Level
  deriving DecidableEq

inductive Argument : Type
  | workspace : Argument
  | logLevel : Argument
  | logJson : Argument
  | debounceSecs : Argument
  | extensions : Argument
  | ignoreBackend : Argument
  | oracleFailure : Argument
  | pathsOnly : Argument
  | file : Argument
  | help : Argument
  | version : Argument
  deriving DecidableEq

def programName : String := "sourcewatch"

def programVersion : String := "0.1.0"

namespace Level

def command? : String → Option Level
  | "watch" => some watch
  | "chunks" => some chunks
  | _ => none

def about : Level → String
  | top => "Workspace change watcher and declarative tree-sitter chunk extraction"
  | watch => "Watch the workspace and report batches of changed files"
  | chunks => "Print the chunks of one file as JSON"

def call : Level → String
  | top => programName
  | watch => programName ++ " watch"
  | chunks => programName ++ " chunks"

def arguments : Level → List Argument
  | top => [.workspace, .logLevel, .logJson, .help, .version]
  | watch => [.debounceSecs, .extensions, .ignoreBackend, .oracleFailure, .pathsOnly, .help]
  | chunks => [.file, .help]

end Level

structure Form where
  long : Option String
  short : Option Char
  valueName : Option String
  environment? : Option String
  default? : Option String
  about : String

namespace Argument

def form : Argument → Form
  | workspace => ⟨some "workspace", some 'w', some "WORKSPACE", some "SOURCEWATCH_WORKSPACE",
      some ".", "Workspace root"⟩
  | logLevel => ⟨some "log-level", none, some "LOG_LEVEL", some "SOURCEWATCH_LOG_LEVEL",
      some "info", "Log level (trace, debug, info, warn, error)"⟩
  | logJson => ⟨some "log-json", none, none, some "SOURCEWATCH_LOG_JSON", none,
      "Enable JSON logging output"⟩
  | debounceSecs => ⟨some "debounce-secs", none, some "DEBOUNCE_SECS",
      some "SOURCEWATCH_DEBOUNCE_SECS", some "60",
      "Quiet period in seconds before a batch is flushed"⟩
  | extensions => ⟨some "extensions", some 'e', some "EXTENSIONS", some "SOURCEWATCH_EXTENSIONS",
      none, "File extensions to watch (defaults to all registered languages)"⟩
  | ignoreBackend => ⟨some "ignore-backend", none, some "IGNORE_BACKEND",
      some "SOURCEWATCH_IGNORE_BACKEND", some "gitignore", "Ignore backend (gitignore, git)"⟩
  | oracleFailure => ⟨some "oracle-failure", none, some "ORACLE_FAILURE",
      some "SOURCEWATCH_ORACLE_FAILURE", some "ignore",
      "Result of a failed ignore check (ignore, include)"⟩
  | pathsOnly => ⟨some "paths-only", none, none, none, none,
      "Only list changed paths, without extracting chunks"⟩
  | file => ⟨none, none, some "FILE", none, none, "File to extract"⟩
  | help => ⟨some "help", some 'h', none, none, none, "Print help"⟩
  | version => ⟨some "version", some 'V', none, none, none, "Print version"⟩

def takesValue (a : Argument) : Bool := a.form.valueName.isSome

def label (a : Argument) : String :=
  " ".intercalate ((a.form.long.map ("--" ++ ·)).toList ++
    (a.form.valueName.map fun v => s!"<{v}>").toList)

end Argument

def Level.usage (l : Level) : List Argument → String
  | [] =>
    match l with
    | top => l.call ++ " [OPTIONS] <COMMAND>"
    | watch => l.call ++ " [OPTIONS]"
    | chunks => l.call ++ " <FILE>"
  | used =>
    " ".intercalate (l.call :: used.map Argument.label ++ if l = top then ["<COMMAND>"] else [])

end ChunkWatch.CommandLine
