import ChunkWatch.CommandLine
import ChunkWatch.CommandLine.Report
import ChunkWatch.Syntax.Rows
import ChunkWatch.Watch.Session

/-! The program.  It takes a copy of the files that a call is about, and the tree of a source file
from the file of the same name with `.tree` after it.  While it watches, events come from standard
input, one in a line. -/

open ChunkWatch ChunkWatch.CommandLine

namespace ChunkWatch.Main

partial def entryAt (path : String) : IO Entry := do
  let real ← IO.FS.realPath path
  if real.toString != path then return .link (Bytes.ofString real.toString)
  if ← real.isDir then
    let mut es := Entries.nil
    for e in ← real.readDir do
      es := es.put (Bytes.ofString e.fileName) (← entryAt (path ++ "/" ++ e.fileName))
    return .dir es
  return .file (← IO.FS.readBinFile path).toList

def addPlace (fs : FileSystem) (path : Path) : IO FileSystem := do
  try
    let real := (← IO.FS.realPath path.display).toString
    let fs := fs.putAt (.ofString real) (← entryAt real)
    return if fs.exists? path then fs else fs.putAt path (.link (Bytes.ofString real))
  catch _ => return fs

def files (places : List Path) : IO FileSystem := do
  let here := Path.ofString (← IO.FS.realPath ".").toString
  let empty : FileSystem := ⟨.nil, (here.bytes.splitOn slash).drop 1⟩
  places.foldlM addPlace (empty.makeDir here)

def treeBeside? (fs : FileSystem) (place : Place) (text : Bytes) : Option Syntax.Tree := do
  let name := (← place.getLast?) ++ Bytes.ofString ".tree"
  match ← fs.at? (place.dropLast ++ [name]) with
  | .file lines => Syntax.Tree.ofLines? text lines.toStringLossy
  | _ => none

def treeSource (fs : FileSystem) : TreeSource := fun _ text =>
  fs.files.findSome? fun f => if f.2 = text then treeBeside? fs f.1 text else none

def environment : IO (List (String × String)) := do
  let arguments := [Level.top, .watch, .chunks].flatMap Level.arguments
  let found ← (arguments.filterMap (·.form.environment?)).mapM fun name => do
    return (← IO.getEnv name).map (name, ·)
  return found.filterMap id

def worldOf (env : List (String × String)) (places : List Path) : IO World := do
  let fs ← files places
  return ⟨fs, env, treeSource fs, fun _ => .missing⟩

partial def follow (load : IO World) (r : Registry) (w : Watch.Settings Ignore.Cache)
    (pathsOnly : Bool) (s : Watch.Session Ignore.Cache) (last : Nat) : IO Unit := do
  let line ← (← IO.getStdin).getLine
  let now ← IO.monoMsNow
  let world ← load
  let h := Watch.Handler.channel
  let waited := if line.isEmpty then w.debounce else now - last
  let s := { s with fs := world.fs }.sleep w h waited
  for report in s.reports do
    if let .delivered paths := report then
      for p in paths do
        IO.println (reportChange r world.trees world.fs w.classifier.root p pathsOnly)
  let s := { s with reports := [] }
  if line.isEmpty then return
  let (s, _) := s.sendAll w h [Watch.Event.ofLine line.trimAsciiEnd.toString]
  follow load r w pathsOnly (s.settle w h) now

end ChunkWatch.Main

def main (words : List String) : IO UInt32 := do
  let env ← Main.environment
  let places := match Request.read env words with
    | .ok request => request.places
    | .error _ => []
  let load := Main.worldOf env places
  let world ← load
  match CommandLine.run world words with
  | .ended e =>
    IO.print e.output
    IO.eprint e.errors
    return e.exitCode.toUInt32
  | .watching l pathsOnly =>
    match Registry.withDefaults with
    | .error _ => return 1
    | .ok r =>
      let now ← IO.monoMsNow
      Main.follow load r l.settings pathsOnly (.ofState world.fs l.state) now
      return 0
