import ChunkWatch.CommandLine.Given

/-! Requests, read from the words of a call.  A value that follows its option is looked at only when
the next argument has been understood, so what is wrong with a later word may be told first; the
arguments of a command are done with before those in front of it. -/

namespace ChunkWatch.CommandLine

inductive Request : Type
  | watch : Config → (pathsOnly : Bool) → Request
  | chunks : Config → (file : Path) → Request

def Request.places : Request → List Path
  | watch c _ => [c.workspace]
  | chunks c file => [c.workspace, file]

inductive Stop : Type
  | fault : Fault → Stop
  | help : Level → Stop
  | version : Stop
  | nothing : Stop

inductive Word : Type
  | separator : Word
  | long : (name : String) → (value : Option String) → Word
  | short : List Char → Word
  | plain : Word

def Word.ofString (s : String) : Word :=
  match s.toList with
  | ['-', '-'] => separator
  | '-' :: '-' :: cs =>
    let value := match cs.dropWhile (· != '=') with
      | _ :: v => some (String.ofList v)
      | [] => none
    long (String.ofList (cs.takeWhile (· != '='))) value
  | ['-'] => plain
  | '-' :: cs => short cs
  | _ => plain

structure Reading where
  given : Given
  pending : Option (Argument × Option String)
  isOver : Bool

namespace Reading

def start : Reading := ⟨.nothing, none, false⟩

def settle (l : Level) (r : Reading) : Except Stop Reading :=
  match r.pending with
  | none => .ok r
  | some (a, none) => .error (.fault (.noValue a))
  | some (a, some value) =>
    match r.given.set l a value with
    | .ok given => .ok { r with given, pending := none }
    | .error f => .error (.fault f)

def give (l : Level) (a : Argument) (value : String) (r : Reading) : Except Stop Reading :=
  { r with pending := some (a, some value) }.settle l

def option (l : Level) (a : Argument) (value : Option String) (r : Reading) :
    Except Stop Reading := do
  let r ← r.settle l
  match value with
  | some v => r.give l a v
  | none => return { r with pending := some (a, none) }

def flag (l : Level) (a : Argument) (r : Reading) : Except Stop Reading := do
  let r ← r.settle l
  match a with
  | .help => throw (.help l)
  | .version => throw .version
  | a => r.give l a "true"

def tip? (l : Level) (word : String) : Option String :=
  if l = .chunks then some s!"to pass '{word}' as a value, use '-- {word}'" else none

def used (l : Level) (r : Reading) : List Argument :=
  match r.settle l with
  | .ok r => r.given.used l
  | .error _ => r.given.used l

def long (l : Level) (name : String) (value : Option String) (r : Reading) :
    Except Stop Reading :=
  match l.arguments.find? (·.form.long = some name) with
  | none =>
    let word := "--" ++ name
    .error (.fault (.unexpected word (tip? l word) (l.usage (r.used l))))
  | some a =>
    if a.takesValue then r.option l a value
    else
      match value with
      | none => r.flag l a
      | some v => .error (.fault (.unneededValue a v (l.usage (r.given.used l ++ [a]))))

/-- Letters of options in one word; the first one that takes a value takes the rest. -/
def short (l : Level) : List Char → Reading → Except Stop Reading
  | [], r => .ok r
  | c :: cs, r =>
    match l.arguments.find? (·.form.short = some c) with
    | none =>
      let word := String.ofList ['-', c]
      .error (.fault (.unexpected word (tip? l word) (l.usage [])))
    | some a =>
      if a.takesValue then
        match cs with
        | [] => r.option l a none
        | '=' :: v => r.option l a (some (String.ofList v))
        | v => r.option l a (some (String.ofList v))
      else (r.flag l a).bind (short l cs)

def place (l : Level) (word : String) (r : Reading) : Except Stop Reading :=
  match l with
  | .chunks =>
    if r.pending.isNone && !r.given.has .file then
      .ok { r with pending := some (.file, some word) }
    else .error (.fault (.unexpected word none (l.usage [])))
  | .watch => .error (.fault (.unexpected word none (l.usage [])))
  | .top =>
    if r.isOver && (word = "help" || (Level.command? word).isSome) then
      let tip := s!"subcommand '{word}' exists; to use it, remove the '--' before it"
      .error (.fault (.unexpected word (some tip) (l.usage [])))
    else .error (.fault (.unknownCommand word l))

def word (l : Level) (r : Reading) (w : String) : Except Stop Reading :=
  if r.isOver then r.place l w
  else
    match Word.ofString w, r.pending with
    | .separator, _ => .ok { r with isOver := true }
    | .long name value, _ => r.long l name value
    | .short cs, _ => r.short l cs
    | .plain, some (a, none) => .ok { r with pending := some (a, some w) }
    | .plain, _ => r.place l w

def finish (l : Level) (env : List (String × String)) (r : Reading) : Except Stop Given := do
  let r ← r.settle l
  match r.given.complete l env with
  | .ok g => return g
  | .error f => throw (.fault f)

def wantsValue (r : Reading) : Bool :=
  match r.pending with
  | some (_, none) => true
  | _ => false

end Reading

namespace Request

def readCommand (l : Level) (env : List (String × String)) (words : List String) :
    Except Stop Given := do
  let r ← words.foldlM (Reading.word l) .start
  let g ← r.finish l env
  if l = .chunks ∧ g.file.isNone then throw (.fault (.missing .file l))
  return g

def readHelp : List String → Stop
  | [] => .help .top
  | w :: ws =>
    match Level.command? w, ws with
    | some l, [] => .help l
    | some l, w :: _ => .fault (.unknownCommand w l)
    | none, _ => .fault (.unknownCommand w .top)

def of (l : Level) (outer inner : Given) : Request :=
  let d := Config.default
  let base := { d with
    workspace := outer.workspace.getD d.workspace, logLevel := outer.logLevel.getD d.logLevel }
  match l with
  | .chunks => chunks base (inner.file.getD ⟨[]⟩)
  | _ =>
    let debounceMs := (inner.debounceSecs.map (1000 * ·)).getD d.debounceMs
    watch { base with
      debounceMs, extensions := inner.extensions.getD d.extensions
      backend := inner.ignoreBackend.getD d.backend
      onFailure := inner.oracleFailure.getD d.onFailure } (inner.pathsOnly.getD false)

def readFrom (env : List (String × String)) : Reading → List String → Except Stop Request
  | r, [] => do
    let g ← r.finish .top env
    throw (if g.used .top = [] then .nothing else .fault .noCommand)
  | r, w :: ws =>
    if r.isOver || r.wantsValue then (r.word .top w).bind (readFrom env · ws)
    else if w = "help" then .error (readHelp ws)
    else
      match Level.command? w with
      | none => (r.word .top w).bind (readFrom env · ws)
      | some l => do
        let inner ← readCommand l env ws
        return of l (← r.finish .top env) inner

def read (env : List (String × String)) (words : List String) : Except Stop Request :=
  readFrom env .start words

end Request

end ChunkWatch.CommandLine
