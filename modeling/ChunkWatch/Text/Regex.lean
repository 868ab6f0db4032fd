import ChunkWatch.Text.LowerCase
import ChunkWatch.Text.Blank
import ChunkWatch.Text.Regex.Table

namespace ChunkWatch.Text

inductive CharSet : Type
  | range : Char → Char → CharSet
  | digit : CharSet
  | space : CharSet
  | word : CharSet
  | union : List CharSet → CharSet
  | complement : CharSet → CharSet
  | both : CharSet → CharSet → CharSet

inductive Regex : Type
  | empty : Regex
  | oneOf : (ignoreCase : Bool) → CharSet → Regex
  | textStart : Regex
  | textEnd : Regex
  | lineStart : Regex
  | lineEnd : Regex
  | boundary : Bool → Regex
  | seq : Regex → Regex → Regex
  | either : Regex → Regex → Regex
  | repeated : Regex → Nat → Option Nat → Regex

def isWord (c : Char) : Bool :=
  c.isAlphanum || c == '_' || (0x80 ≤ c.toNat && inTable wordTable c)

mutual

def CharSet.contains : CharSet → Char → Bool
  | .range a b, c => a ≤ c && c ≤ b
  | .digit, c => c.isDigit || inTable digitTable c
  | .space, c => isBlank c
  | .word, c => isWord c
  | .union ss, c => anyContains ss c
  | .complement s, c => !s.contains c
  | .both s t, c => s.contains c && t.contains c

def anyContains : List CharSet → Char → Bool
  | [], _ => false
  | s :: ss, c => s.contains c || anyContains ss c

end

def otherCases (c : Char) : List Char :=
  let low := lowerChar c
  let high := (lowerTable.find? fun e =>
      e.2.2.2 ≤ c.toNat && c.toNat - e.2.2.2 ≤ e.2.1 - e.1 &&
        (c.toNat - e.2.2.2) % e.2.2.1 == 0).map fun e => Char.ofNat (e.1 + (c.toNat - e.2.2.2))
  low :: high.toList

namespace Regex

/-- A text as characters; what is no character matches nothing. -/
abbrev Subject := Array (Option Char)

def wordAt (t : Subject) (i : Nat) : Bool := ((t[i]?).getD none).any isWord

def newlineAt (t : Subject) (i : Nat) : Bool := t[i]? == some (some '\n')

def merge (is js : List Nat) : List Nat :=
  js.foldl (fun acc j => if j ∈ acc then acc else acc ++ [j]) is

def closure (f : Nat → List Nat) : Nat → List Nat → List Nat
  | 0, is => is
  | fuel + 1, is =>
    let js := merge is (is.flatMap f)
    if js.length = is.length then is else closure f fuel js

def steps (f : Nat → List Nat) : Nat → List Nat → List Nat
  | 0, is => is
  | n + 1, is => steps f n (merge [] (is.flatMap f))

def atMost (f : Nat → List Nat) : Nat → List Nat → List Nat
  | 0, is => is
  | n + 1, is => atMost f n (merge is (is.flatMap f))

def ends (t : Subject) : Regex → Nat → List Nat
  | empty, i => [i]
  | oneOf ignoreCase s, i =>
    match t[i]? with
    | some (some c) =>
      if s.contains c || (ignoreCase && (otherCases c).any s.contains) then [i + 1] else []
    | _ => []
  | textStart, i => if i = 0 then [i] else []
  | textEnd, i => if i = t.size then [i] else []
  | lineStart, i => if i = 0 ∨ newlineAt t (i - 1) then [i] else []
  | lineEnd, i => if i = t.size ∨ newlineAt t i then [i] else []
  | boundary is, i =>
    if ((0 < i && wordAt t (i - 1)) != wordAt t i) == is then [i] else []
  | seq r s, i => merge [] ((r.ends t i).flatMap (s.ends t))
  | either r s, i => merge (r.ends t i) (s.ends t i)
  | repeated r least more, i =>
    let first := steps (r.ends t) least [i]
    match more with
    | some n => atMost (r.ends t) n first
    | none => closure (r.ends t) (t.size + 1) first

def occursIn (r : Regex) (t : Subject) : Bool :=
  (List.range (t.size + 1)).any fun i => !(r.ends t i).isEmpty

end Regex

end ChunkWatch.Text
