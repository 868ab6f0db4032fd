import ChunkWatch.Query.Pattern
import ChunkWatch.Syntax.Grammar

namespace ChunkWatch.Query

open Syntax (Grammar)

inductive Fault : Type
  | unexpected : Fault
  | unknownKind : Fault
  | unknownField : Fault
  | unknownCapture : Fault
  | impossible : Fault
  deriving DecidableEq

/-- The text that is left, its offset, and what has been read so far: the captures in the order of
their first use and the predicates of the present pattern, last one first. -/
structure Reader where
  rest : List Char
  offset : Nat
  captures : List String
  calls : List Call

def Reader.next (r : Reader) : Reader :=
  match r.rest with
  | c :: s => { r with rest := s, offset := r.offset + c.utf8Size }
  | [] => r

structure Failure where
  fault : Fault
  offset : Nat

abbrev Read := StateT Reader (Except Failure)

def byteLength (s : List Char) : Nat := s.foldl (fun n c => n + c.utf8Size) 0

namespace Read

def failAt {α : Type} (fault : Fault) (offset : Nat) : Read α :=
  fun _ => .error ⟨fault, offset⟩

def offset : Read Nat := fun r => .ok (r.offset, r)

def fail {α : Type} (fault : Fault) : Read α := do failAt fault (← offset)

def peek : Read (Option Char) := fun r => .ok (r.rest.head?, r)

def advance : Read Unit := fun r => .ok ((), r.next)

def takeWhile (p : Char → Bool) : Read (List Char) := fun r =>
  let word := r.rest.takeWhile p
  .ok (word, { r with
    rest := r.rest.dropWhile p
    offset := r.offset + byteLength word })

def isSpace (c : Char) : Bool := c == ' ' || (9 ≤ c.toNat && c.toNat ≤ 13)

def skipBlank : List Char → (comment : Bool) → List Char × Nat
  | [], _ => ([], 0)
  | c :: s, true =>
    let r := skipBlank s (c != '\n')
    (r.1, r.2 + c.utf8Size)
  | c :: s, false =>
    if isSpace c ∨ c = ';' then
      let r := skipBlank s (c == ';')
      (r.1, r.2 + c.utf8Size)
    else (c :: s, 0)

def blanks : Read Unit := fun r =>
  let p := skipBlank r.rest false
  .ok ((), { r with rest := p.1, offset := r.offset + p.2 })

def startsWord (c : Char) : Bool := c.isAlphanum || c == '_' || c == '-'

def continuesWord (c : Char) : Bool := startsWord c || c == '.' || c == '?' || c == '!'

def atWord : Read Bool := do return (← peek).any startsWord

def word : Read String := do return String.ofList (← takeWhile continuesWord)

def stringBody : List Char → (escaped : Bool) → Option (List Char × List Char)
  | [], _ => none
  | c :: s, true =>
    let d := match c with
      | 'n' => '\n'
      | 'r' => '\r'
      | 't' => '\t'
      | '0' => Char.ofNat 0
      | c => c
    (stringBody s false).map fun r => (d :: r.1, r.2)
  | c :: s, false =>
    if c = '\\' then stringBody s true
    else if c = '"' then some ([], s)
    else if c = '\n' then none
    else (stringBody s false).map fun r => (c :: r.1, r.2)

def quoted : Read String := do
  let start ← offset
  advance
  let r ← get
  match stringBody r.rest false with
  | none => failAt .unexpected start
  | some (body, rest) =>
    let used := r.rest.take (r.rest.length - rest.length)
    set { r with rest := rest, offset := r.offset + byteLength used }
    return String.ofList body

def declare (name : String) : Read Unit := fun r =>
  .ok ((), if name ∈ r.captures then r else { r with captures := r.captures ++ [name] })

def namedKind? (g : Grammar) (name : String) : Option Selector :=
  if name.isPrefixOf "ERROR" then some (.kind "ERROR")
  else if name ∈ g.supertypes then some (.member name none)
  else if name ∈ g.kinds then some (.kind name)
  else none

def token? (g : Grammar) (text : String) : Option Selector :=
  if text ∈ g.tokens then some (.token text) else none

def namedKind (g : Grammar) (start : Nat) (name : String) : Read Selector :=
  match namedKind? g name with
  | some s => return s
  | none => failAt .unknownKind start

def token (g : Grammar) : Read Selector := do
  let start ← offset
  match token? g (← quoted) with
  | some s => return s
  | none => failAt .unknownKind (start + 1)

def selector (g : Grammar) : Read Selector := do
  let start ← offset
  if ¬(← atWord) then fail .unexpected
  let name ← word
  if name = "_" then return .anyNamed
  if name.isPrefixOf "MISSING" then
    blanks
    if ← atWord then
      let start ← offset
      return .missing (← namedKind g start (← word))
    match ← peek with
    | some '"' => return .missing (← token g)
    | some ')' => return .missing .anyNamed
    | _ => fail .unexpected
  let s ← namedKind g start name
  if (← peek) = some '/' then
    match s with
    | .member m _ =>
      advance
      if ¬(← atWord) then fail .unexpected
      match ← namedKind g start (← word) with
      | .kind k => return .member m (some k)
      | s => return s
    | _ => failAt .impossible (start - 1)
  return s

def arguments : Nat → Read (List Argument)
  | 0 => fail .unexpected
  | fuel + 1 => do
    match ← peek with
    | some ')' =>
      advance
      blanks
      return []
    | some '@' =>
      advance
      if ¬(← atWord) then fail .unexpected
      let start ← offset
      let name ← word
      if name ∉ (← get).captures then failAt .unknownCapture start
      blanks
      return .capture name :: (← arguments fuel)
    | some '"' =>
      let text ← quoted
      blanks
      return .text text :: (← arguments fuel)
    | _ =>
      if ¬(← atWord) then fail .unexpected
      let text ← word
      blanks
      return .text text :: (← arguments fuel)

def call (fuel : Nat) : Read Pattern := do
  if ¬(← atWord) then fail .unexpected
  let function ← word
  blanks
  let arguments ← arguments fuel
  modify fun r => { r with calls := ⟨function, arguments⟩ :: r.calls }
  return .nothing

def absentFields (g : Grammar) : Nat → Read (List String)
  | 0 => return []
  | fuel + 1 => do
    if (← peek) ≠ some '!' then return []
    advance
    blanks
    if ¬(← atWord) then fail .unexpected
    let start ← offset
    let name ← word
    blanks
    if name ∉ g.fields then failAt .unknownField start
    return name :: (← absentFields g fuel)

def anchor : Read Bool := do
  if (← peek) ≠ some '.' then return false
  advance
  blanks
  return true

def suffixes : Nat → Pattern → Read Pattern
  | 0, p => return p
  | fuel + 1, p => do
    match ← peek with
    | some '+' =>
      advance
      blanks
      suffixes fuel (.some p)
    | some '*' =>
      advance
      blanks
      suffixes fuel (.many p)
    | some '?' =>
      advance
      blanks
      suffixes fuel (.optional p)
    | some '@' =>
      advance
      if ¬(← atWord) then fail .unexpected
      let name ← word
      blanks
      declare name
      suffixes fuel (.capture name p)
    | _ => return p

mutual

/-- One pattern.  It fails at a closing bracket; those who may meet one look first. -/
def pattern (g : Grammar) : Nat → Read Pattern
  | 0 => fail .unexpected
  | fuel + 1 => do
    match ← peek with
    | some '[' =>
      advance
      blanks
      let branches ← branches g fuel
      blanks
      suffixes fuel (.choice branches)
    | some '(' =>
      advance
      blanks
      match ← peek with
      | some '(' | some '"' | some '[' =>
        let items ← items g fuel
        blanks
        suffixes fuel (.group items)
      | some '.' | some '#' =>
        advance
        call fuel
      | _ =>
        let s ← selector g
        blanks
        let children ← children g true fuel
        blanks
        suffixes fuel (.node s children.1 children.2.1 children.2.2)
    | some '_' =>
      advance
      blanks
      suffixes fuel (.leaf .any)
    | some '"' =>
      let s ← token g
      blanks
      suffixes fuel (.leaf s)
    | _ =>
      if ¬(← atWord) then fail .unexpected
      let start ← offset
      let name ← word
      blanks
      if (← peek) ≠ some ':' then failAt .unexpected start
      advance
      blanks
      let p ← pattern g fuel
      if name ∉ g.fields then failAt .unknownField start
      blanks
      suffixes fuel (.field name p)

def branches (g : Grammar) : Nat → Read Sequence
  | 0 => fail .unexpected
  | fuel + 1 => do
    let p ← pattern g fuel
    if (← peek) = some ']' then
      advance
      return .cons false p .nil
    return .cons false p (← branches g fuel)

def items (g : Grammar) : Nat → Read Sequence
  | 0 => fail .unexpected
  | fuel + 1 => do
    let anchored ← anchor
    if (← peek) = some ')' then
      advance
      return .nil
    let p ← pattern g fuel
    return .cons anchored p (← items g fuel)

def children (g : Grammar) (first : Bool) : Nat → Read (List String × Sequence × Bool)
  | 0 => fail .unexpected
  | fuel + 1 => do
    let absent ← absentFields g fuel
    let anchored ← anchor
    if (← peek) = some ')' then
      if anchored ∧ first then fail .unexpected
      advance
      return (absent, .nil, anchored)
    let p ← pattern g fuel
    let rest ← children g false fuel
    return (absent ++ rest.1, .cons anchored p rest.2.1, rest.2.2)

end

def clauses (g : Grammar) : Nat → Read (List Clause)
  | 0 => fail .unexpected
  | fuel + 1 => do
    if (← get).rest.isEmpty then return []
    let start ← offset
    let p ← pattern g fuel
    let calls := (← get).calls.reverse
    modify fun r => { r with calls := [] }
    return ⟨p, calls, start⟩ :: (← clauses g fuel)

end Read

/-- Reads the clauses of a query and the captures that it names.  Every call of a reader uses up a
character or stands in front of one, so the fuel suffices. -/
def parse (g : Grammar) (source : String) : Except Failure (List Clause × List String) :=
  let fuel := 4 * source.length + 8
  let r := (do Read.blanks; Read.clauses g fuel : Read (List Clause)).run ⟨source.toList, 0, [], []⟩
  r.map fun (clauses, r) => (clauses, r.captures)

end ChunkWatch.Query
