import ChunkWatch.CommandLine.Fault

namespace ChunkWatch.CommandLine

inductive NumberFault : Type
  | empty : NumberFault
  | notADigit : NumberFault
  | tooLarge : NumberFault
  deriving DecidableEq

def NumberFault.message : NumberFault → String
  | empty => "cannot parse integer from empty string"
  | notADigit => "invalid digit found in string"
  | tooLarge => "number too large to fit in target type"

/-- Reads digits after the number `n`; the first one that is wrong or too many is reported. -/
def readDigits (n : Nat) : List Char → Except NumberFault Nat
  | [] => .ok n
  | c :: cs =>
    if ¬c.isDigit then .error .notADigit
    else if 2 ^ 64 ≤ 10 * n + (c.toNat - 48) then .error .tooLarge
    else readDigits (10 * n + (c.toNat - 48)) cs

def readNumber (s : String) : Except NumberFault Nat :=
  match s.toList with
  | [] => .error .empty
  | ['+'] => .error .notADigit
  | '+' :: cs => readDigits 0 cs
  | cs => readDigits 0 cs

structure Given where
  workspace : Option Path
  logLevel : Option String
  logJson : Option Bool
  debounceSecs : Option Nat
  extensions : Option (List String)
  ignoreBackend : Option Backend
  oracleFailure : Option OnFailure
  pathsOnly : Option Bool
  file : Option Path

namespace Given

def nothing : Given := ⟨none, none, none, none, none, none, none, none, none⟩

def has (g : Given) : Argument → Bool
  | .workspace => g.workspace.isSome
  | .logLevel => g.logLevel.isSome
  | .logJson => g.logJson.isSome
  | .debounceSecs => g.debounceSecs.isSome
  | .extensions => g.extensions.isSome
  | .ignoreBackend => g.ignoreBackend.isSome
  | .oracleFailure => g.oracleFailure.isSome
  | .pathsOnly => g.pathsOnly.isSome
  | .file => g.file.isSome
  | .help | .version => false

def used (g : Given) (l : Level) : List Argument :=
  l.arguments.filter fun a => g.has a && a.form.long.isSome

def readPath (a : Argument) (value : String) : Except Fault Path :=
  if value = "" then .error (.noValue a) else .ok (.ofString value)

def readFlag (a : Argument) : String → Except Fault Bool
  | "true" => .ok true
  | "false" => .ok false
  | value => .error (.notOneOf a value ["true", "false"])

def put (g : Given) (a : Argument) (value : String) : Except Fault Given :=
  let invalid {α : Type} (r : Except Error α) : Except Fault α :=
    r.mapError fun e => .invalidValue a value e.message
  match a with
  | .workspace => return { g with workspace := ← readPath a value }
  | .logLevel => return { g with logLevel := value }
  | .logJson => return { g with logJson := ← readFlag a value }
  | .debounceSecs =>
    match readNumber value with
    | .ok n => return { g with debounceSecs := n }
    | .error e => throw (.invalidValue a value e.message)
  | .extensions => return { g with extensions := g.extensions.getD [] ++ value.splitOn "," }
  | .ignoreBackend => return { g with ignoreBackend := ← invalid (Backend.parse value) }
  | .oracleFailure => return { g with oracleFailure := ← invalid (OnFailure.parse value) }
  | .pathsOnly => return { g with pathsOnly := ← readFlag a value }
  | .file => return { g with file := ← readPath a value }
  | .help | .version => return g

def set (g : Given) (l : Level) (a : Argument) (value : String) : Except Fault Given :=
  if g.has a && a != .extensions then .error (.repeated a l) else g.put a value

def complete (l : Level) (env : List (String × String)) (g : Given) : Except Fault Given :=
  l.arguments.foldlM (fun g a =>
    match if g.has a then none else a.form.environment?.bind (List.lookup · env) with
    | some value => g.put a value
    | none => .ok g) g

end Given

end ChunkWatch.CommandLine
