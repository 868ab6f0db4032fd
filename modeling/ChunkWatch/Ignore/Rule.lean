import ChunkWatch.Glob.Parser
import ChunkWatch.Text.Blank

namespace ChunkWatch.Ignore

structure Rule where
  glob : Glob
  includes : Bool
  dirOnly : Bool

structure BadLine where
  line : String
  fault : Glob.Fault

def BadLine.message (b : BadLine) : String := b.fault.message b.line

def isPrefix (p s : List Char) : Bool := p.isPrefixOf s

/-- The sign of a line, whether it is anchored, and the pattern behind the sign.  A bang or a hash
after a backslash is part of the pattern. -/
def sign : List Char → Bool × Bool × List Char
  | '\\' :: '!' :: s => (false, false, '!' :: s)
  | '\\' :: '#' :: s => (false, false, '#' :: s)
  | '!' :: '/' :: s => (true, true, s)
  | '!' :: s => (true, false, s)
  | '/' :: s => (false, true, s)
  | s => (false, false, s)

def dirMark (s : List Char) : Bool × List Char :=
  if s.getLast? = some '/' then
    let s := s.dropLast
    (true, if s.getLast? = some '\\' then s.dropLast else s)
  else (false, s)

/-- A pattern that is not anchored and has no slash matches at any depth; one that ends in two stars
matches what is inside, but not the directory itself. -/
def widen (anchored : Bool) (s : List Char) : List Char :=
  let s :=
    if anchored ∨ '/' ∈ s ∨ isPrefix ['*', '*', '/'] s ∨ s = ['*', '*'] then s
    else '*' :: '*' :: '/' :: s
  if isPrefix ['*', '*', '/'] s.reverse then s ++ ['/', '*'] else s

def trimLine (s : List Char) : List Char :=
  if isPrefix [' ', '\\'] s.reverse then s else Text.trimEnd s

def parseLine (line : List Char) : Except BadLine (Option Rule) :=
  let s := trimLine line
  if line.head? = some '#' ∨ s = [] then .ok none
  else
    let (includes, anchored, rest) := sign s
    let (dirOnly, rest) := dirMark rest
    match Glob.parse true (widen anchored rest) with
    | .ok g => .ok (some ⟨g, includes, dirOnly⟩)
    | .error f => .error ⟨String.ofList s, f⟩

inductive Verdict : Type
  | ignored : Verdict
  | included : Verdict
  deriving DecidableEq

def verdict? (rules : List Rule) (p : Bytes) (isDir : Bool) : Option Verdict :=
  (rules.reverse.find? fun r => (isDir || !r.dirOnly) && r.glob.matches p).map fun r =>
    if r.includes then .included else .ignored

end ChunkWatch.Ignore
