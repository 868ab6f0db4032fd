import ChunkWatch.Path

namespace ChunkWatch

inductive IoError : Type
  | notFound : IoError
  | notADirectory : IoError
  | isADirectory : IoError
  | tooManyLinks : IoError
  | notText : IoError
  | other : String → IoError
  deriving DecidableEq

namespace IoError

def system? : IoError → Option (Nat × String)
  | notFound => some (2, "No such file or directory")
  | notADirectory => some (20, "Not a directory")
  | isADirectory => some (21, "Is a directory")
  | tooManyLinks => some (40, "Too many levels of symbolic links")
  | _ => none

def message (e : IoError) : String :=
  match e, e.system? with
  | _, some (code, text) => s!"{text} (os error {code})"
  | other text, none => text
  | _, none => "stream did not contain valid UTF-8"

end IoError

inductive WatchError : Type
  | refused : (path reason : String) → WatchError
  | walk : (path reason : String) → WatchError
  deriving DecidableEq

namespace WatchError

def message : WatchError → String
  | refused path reason => s!"failed to watch path '{path}': {reason}"
  | walk path reason => s!"failed to walk '{path}': {reason}"

def walkAt (p : Path) (e : IoError) : WatchError :=
  walk p.display s!"IO error for operation on {p.display}: {e.message}"

end WatchError

inductive QueryPart : Type
  | name : QueryPart
  | parentName : QueryPart
  | summary : QueryPart
  deriving DecidableEq

def QueryPart.text : QueryPart → String
  | name => "name"
  | parentName => "parent name"
  | summary => "summary"

inductive LanguageError : Type
  | query : (language kind : String) → QueryPart → (reason : String) → LanguageError
  | glob : (language pattern reason : String) → LanguageError
  | parse : (language reason : String) → LanguageError
  | duplicate : (language : String) → LanguageError
  | unknown : (language : String) → LanguageError
  deriving DecidableEq

def LanguageError.message : LanguageError → String
  | query language kind part reason =>
    s!"invalid {part.text} query for '{language}/{kind}': {reason}"
  | glob language pattern reason =>
    s!"invalid role pattern '{pattern}' for '{language}': {reason}"
  | parse language reason => s!"failed to parse with '{language}': {reason}"
  | duplicate language => s!"language '{language}' is already registered"
  | unknown language => s!"no language registered for '{language}'"

inductive Error : Type
  | config : String → Error
  | watch : WatchError → Error
  | language : LanguageError → Error
  | io : IoError → Error
  | internal : String → Error
  deriving DecidableEq

def Error.message : Error → String
  | config text => s!"configuration error: {text}"
  | watch e => s!"watcher error: {e.message}"
  | language e => s!"extract error: {e.message}"
  | io e => s!"I/O error: {e.message}"
  | internal text => s!"internal error: {text}"

end ChunkWatch
