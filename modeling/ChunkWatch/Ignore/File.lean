import ChunkWatch.Ignore.Rule
import ChunkWatch.FileSystem.Resolve

namespace ChunkWatch.Ignore

inductive LineFault : Type
  | badLine : BadLine → LineFault
  | notText : LineFault

def LineFault.message : LineFault → String
  | badLine b => b.message
  | notText => IoError.notText.message

/-- The lines of a file without their ends; a last line without one counts if it is not empty. -/
def fileLines (s : Bytes) : List Bytes :=
  let parts := s.splitOn 10
  let ended := parts.dropLast.map fun l => if l.getLast? = some 13 then l.dropLast else l
  ended ++ if parts.getLast? = some [] then [] else parts.getLast?.toList

def readLines : Nat → List Bytes → List Rule × List (Nat × LineFault)
  | _, [] => ([], [])
  | n, l :: ls =>
    match l.toString? with
    | none => ([], [(n, .notText)])
    | some text =>
      let cs := if n = 1 then text.toList.dropWhile (· == '\uFEFF') else text.toList
      let r := readLines (n + 1) ls
      match parseLine cs with
      | .ok rule => (rule.toList ++ r.1, r.2)
      | .error b => (r.1, (n, .badLine b) :: r.2)

def readFile (content : Bytes) : List Rule × List (Nat × LineFault) :=
  readLines 1 (fileLines content)

structure Matcher where
  root : Bytes
  rules : List Rule

namespace Matcher

/-- A leading dot and slash are no part of a root or a path. -/
def dropDot (s : Bytes) : Bytes := (Bytes.dropPrefix? [dot, slash] s).getD s

def ofRules (root : Path) (rules : List Rule) : Matcher := ⟨dropDot root.bytes, rules⟩

def relative (m : Matcher) (p : Path) : Bytes :=
  let s := dropDot p.bytes
  if Path.same ⟨m.root⟩ ⟨[dot]⟩ ∨ slash ∉ s then s
  else
    match Bytes.dropPrefix? m.root s with
    | some rest => (Bytes.dropPrefix? [slash] rest).getD rest
    | none => s

def verdict? (m : Matcher) (p : Path) (isDir : Bool) : Option Verdict :=
  Ignore.verdict? m.rules (m.relative p) isDir

end Matcher

def ignoreFileName : Bytes := Bytes.ofString ".gitignore"

def loadNested (fs : FileSystem) (dir : Path) : Option Matcher :=
  let file := dir.push ignoreFileName
  if fs.isFile file then
    match fs.read file with
    | .ok content =>
      let rules := (readFile content).1
      if rules.isEmpty then none else some (.ofRules dir rules)
    | .error _ => none
  else none

end ChunkWatch.Ignore
