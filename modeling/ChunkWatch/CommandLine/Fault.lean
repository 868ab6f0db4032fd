import ChunkWatch.CommandLine.Argument

namespace ChunkWatch.CommandLine

inductive Fault : Type
  | invalidValue : Argument → (value reason : String) → Fault
  | notOneOf : Argument → (value : String) → List String → Fault
  | noValue : Argument → Fault
  | unneededValue : Argument → (value : String) → (usage : String) → Fault
  | unexpected : (word : String) → (tip : Option String) → (usage : String) → Fault
  | unknownCommand : (word : String) → Level → Fault
  | noCommand : Fault
  | repeated : Argument → Level → Fault
  | missing : Argument → Level → Fault

namespace Fault

def message : Fault → String
  | invalidValue a value reason => s!"invalid value '{value}' for '{a.label}': {reason}"
  | notOneOf a value values =>
    let told :=
      if value = "" then s!"a value is required for '{a.label}' but none was supplied"
      else s!"invalid value '{value}' for '{a.label}'"
    let list := ", ".intercalate values
    s!"{told}\n  [possible values: {list}]"
  | noValue a => s!"a value is required for '{a.label}' but none was supplied"
  | unneededValue a value _ =>
    s!"unexpected value '{value}' for '{a.label}' found; no more were expected"
  | unexpected word _ _ => s!"unexpected argument '{word}' found"
  | unknownCommand word _ => s!"unrecognized subcommand '{word}'"
  | noCommand =>
    s!"'{programName}' requires a subcommand but one was not provided\n  " ++
      "[subcommands: watch, chunks, help]"
  | repeated a _ => s!"the argument '{a.label}' cannot be used multiple times"
  | missing a _ => s!"the following required arguments were not provided:\n  {a.label}"

def tip? : Fault → Option String
  | unexpected _ tip _ => tip
  | _ => none

def usage? : Fault → Option String
  | unneededValue _ _ usage | unexpected _ _ usage => some usage
  | noCommand => some (Level.top.usage [])
  | unknownCommand _ l | repeated _ l | missing _ l => some (l.usage [])
  | _ => none

def report (f : Fault) : String :=
  "\n\n".intercalate <|
    [s!"error: {f.message}"] ++
    (f.tip?.map fun t => s!"  tip: {t}").toList ++
    (f.usage?.map fun u => s!"Usage: {u}").toList ++
    ["For more information, try '--help'.\n"]

end Fault

end ChunkWatch.CommandLine
