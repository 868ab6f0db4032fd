import ChunkWatch.FileSystem.Basic
import ChunkWatch.Error

namespace ChunkWatch.FileSystem

/-- The segments to follow; a slash at the end asks for a directory. -/
def segments (p : Bytes) : List Bytes :=
  (p.splitOn slash).filter (· ≠ []) ++ if p.getLast? = some slash then [[dot]] else []

/-- Follows segments from a place.  `follow` says whether a link at the very end is followed, and
`onLink` goes on behind a link. -/
def walk (fs : FileSystem) (follow : Bool) (onLink : Place → List Bytes → Except IoError Place) :
    Place → List Bytes → Except IoError Place
  | here, [] => .ok here
  | here, s :: ss =>
    match fs.at? here with
    | some (.dir es) =>
      if s = [dot] then walk fs follow onLink here ss
      else if s = [dot, dot] then walk fs follow onLink here.dropLast ss
      else
        match es.get? s with
        | none => .error .notFound
        | some (.link target) =>
          if ss = [] ∧ ¬follow then .ok (here ++ [s])
          else onLink (if target.head? = some slash then [] else here) (segments target ++ ss)
        | some _ => walk fs follow onLink (here ++ [s]) ss
    | some _ => .error .notADirectory
    | none => .error .notFound

def walkLinks (fs : FileSystem) (follow : Bool) : Nat → Place → List Bytes → Except IoError Place
  | 0, _, _ => .error .tooManyLinks
  | links + 1, here, ss => fs.walk follow (walkLinks fs follow links) here ss

def resolve (fs : FileSystem) (follow : Bool) (p : Path) : Except IoError Place :=
  if p.bytes = [] then .error .notFound
  else fs.walkLinks follow 41 (if p.isAbsolute then [] else fs.cwd) (segments p.bytes)

def entry? (fs : FileSystem) (follow : Bool) (p : Path) : Except IoError Entry := do
  match fs.at? (← fs.resolve follow p) with
  | some e => return e
  | none => throw .notFound

def exists? (fs : FileSystem) (p : Path) : Bool := (fs.entry? true p).toBool

def isDir (fs : FileSystem) (p : Path) : Bool :=
  match fs.entry? true p with
  | .ok e => e.isDir
  | .error _ => false

def isFile (fs : FileSystem) (p : Path) : Bool :=
  match fs.entry? true p with
  | .ok (.file _) => true
  | _ => false

def pathOf (place : Place) : Path := ⟨slash :: Bytes.join slash place⟩

def canonicalize (fs : FileSystem) (p : Path) : Except IoError Path :=
  (fs.resolve true p).map pathOf

def read (fs : FileSystem) (p : Path) : Except IoError Bytes := do
  match ← fs.entry? true p with
  | .file s => return s
  | _ => throw .isADirectory

def readText (fs : FileSystem) (p : Path) : Except IoError Bytes := do
  let s ← fs.read p
  if s.isText then return s else throw .notText

end ChunkWatch.FileSystem
