import ChunkWatch.Error
import ChunkWatch.Text.Quoted

namespace ChunkWatch

def withFields (kind : String) (fields : List (String × String)) : String :=
  let told := ", ".intercalate (fields.map fun (k, v) => s!"{k}: {v}")
  s!"{kind} \x7b {told} \x7d"

def IoError.kind : IoError → String
  | notFound => "NotFound"
  | notADirectory => "NotADirectory"
  | isADirectory => "IsADirectory"
  | tooManyLinks => "FilesystemLoop"
  | notText => "InvalidData"
  | other _ => "Other"

def IoError.dump (e : IoError) : String :=
  match e.system? with
  | some (code, text) =>
    withFields "Os"
      [("code", toString code), ("kind", e.kind), ("message", Text.quoted text)]
  | none => withFields "Error" [("kind", e.kind), ("message", Text.quoted e.message)]

def WatchError.dump : WatchError → String
  | refused path reason =>
    withFields "WatchFailed" [("path", Text.quoted path), ("reason", Text.quoted reason)]
  | walk path reason =>
    withFields "Walk" [("path", Text.quoted path), ("reason", Text.quoted reason)]

def LanguageError.dump : LanguageError → String
  | query language kind part reason =>
    withFields "Query"
      [("language", Text.quoted language), ("node_type", Text.quoted kind),
        ("kind", Text.quoted part.text), ("reason", Text.quoted reason)]
  | glob language pattern reason =>
    withFields "Glob"
      [("language", Text.quoted language), ("pattern", Text.quoted pattern),
        ("reason", Text.quoted reason)]
  | parse language reason =>
    withFields "Parse"
      [("language", Text.quoted language), ("reason", Text.quoted reason)]
  | duplicate language => s!"DuplicateLanguage({Text.quoted language})"
  | unknown language => s!"UnknownLanguage({Text.quoted language})"

def Error.dump : Error → String
  | config text => s!"Config({Text.quoted text})"
  | watch e => s!"Watcher({e.dump})"
  | language e => s!"Extract({e.dump})"
  | io e => s!"Io({e.dump})"
  | internal text => s!"Internal({Text.quoted text})"

end ChunkWatch
