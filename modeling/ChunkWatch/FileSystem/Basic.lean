import ChunkWatch.Path

namespace ChunkWatch

mutual

inductive Entry : Type
  | file : Bytes → Entry
  | link : Bytes → Entry
  | dir : Entries → Entry

inductive Entries : Type
  | nil : Entries
  | cons : Bytes → Entry → Entries → Entries

end

/-- The names that lead from the root to an entry. -/
abbrev Place := List Bytes

def Entry.isDir : Entry → Bool
  | dir _ => true
  | _ => false

namespace Entries

def get? (name : Bytes) : Entries → Option Entry
  | nil => none
  | cons n e es => if n = name then some e else get? name es

def put (name : Bytes) (e : Entry) : Entries → Entries
  | nil => cons name e nil
  | cons n f es =>
    if n = name then cons n e es
    else if name.map UInt8.toNat < n.map UInt8.toNat then cons name e (cons n f es)
    else cons n f (put name e es)

def erase (name : Bytes) : Entries → Entries
  | nil => nil
  | cons n e es => if n = name then es else cons n e (erase name es)

end Entries

namespace Entry

def at? : Place → Entry → Option Entry
  | [], e => some e
  | n :: ns, dir es => (es.get? n).bind (at? ns)
  | _ :: _, _ => none

def changeAt (f : Entries → Entries) : Place → Entry → Entry
  | [], dir es => dir (f es)
  | n :: ns, dir es =>
    match es.get? n with
    | some e => dir (es.put n (changeAt f ns e))
    | none => dir es
  | _, e => e

end Entry

mutual

def Entry.filesAt (here : Place) : Entry → List (Place × Bytes)
  | .file s => [(here, s)]
  | .link _ => []
  | .dir es => es.filesAt here

def Entries.filesAt (here : Place) : Entries → List (Place × Bytes)
  | .nil => []
  | .cons name e es => e.filesAt (here ++ [name]) ++ es.filesAt here

end

structure FileSystem where
  top : Entries
  cwd : Place

namespace FileSystem

def at? (fs : FileSystem) (p : Place) : Option Entry := (Entry.dir fs.top).at? p

def changeAt (fs : FileSystem) (f : Entries → Entries) (p : Place) : FileSystem :=
  match (Entry.dir fs.top).changeAt f p with
  | .dir es => { fs with top := es }
  | _ => fs

def files (fs : FileSystem) : List (Place × Bytes) := fs.top.filesAt []

end FileSystem

end ChunkWatch
