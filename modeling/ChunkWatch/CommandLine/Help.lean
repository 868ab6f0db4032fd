import ChunkWatch.CommandLine.Argument

namespace ChunkWatch.CommandLine

def columns (rows : List (String × String)) : String :=
  let width := (rows.map (·.1.length)).foldl max 0
  String.join (rows.map fun (left, right) =>
    let gap := String.ofList (List.replicate (width - left.length + 2) ' ')
    s!"  {left}{gap}{right}\n")

namespace Argument

def describe (env : List (String × String)) (a : Argument) : String :=
  let environment? := a.form.environment?.map fun v =>
    let value := (env.lookup v).getD ""
    s!"[env: {v}={value}]"
  let default? := a.form.default?.map fun d => s!"[default: {d}]"
  " ".intercalate (a.form.about :: environment?.toList ++ default?.toList)

def row (env : List (String × String)) (a : Argument) : String × String :=
  match a.form.long, a.form.short with
  | none, _ => (a.label, a.describe env)
  | _, some c => (s!"-{c}, {a.label}", a.describe env)
  | _, none => (s!"    {a.label}", a.describe env)

end Argument

def commandRows : List (String × String) :=
  [("watch", Level.watch.about), ("chunks", Level.chunks.about),
    ("help", "Print this message or the help of the given subcommand(s)")]

namespace Level

def block (title : String) (rows : List (String × String)) : List String :=
  if rows.isEmpty then [] else [s!"{title}:\n{columns rows}"]

def help (env : List (String × String)) (l : Level) : String :=
  let named := l.arguments.filter (·.form.long.isSome)
  let placed := l.arguments.filter (·.form.long.isNone)
  "\n".intercalate <|
    [s!"{l.about}\n", s!"Usage: {l.usage []}\n"] ++
    block "Commands" (if l = top then commandRows else []) ++
    block "Arguments" (placed.map (Argument.row env)) ++
    block "Options" (named.map (Argument.row env))

end Level

end ChunkWatch.CommandLine
