import ChunkWatch.FileSystem.Resolve

namespace ChunkWatch.Watch

structure Source where
  refusal? : FileSystem → Path → Option String
  registered : List Path
  calls : List Path
  closes : Nat

namespace Source

def ofRefusal (refusal? : FileSystem → Path → Option String) : Source := ⟨refusal?, [], [], 0⟩

def refusing (dirs : List Path) : Source :=
  .ofRefusal fun _ dir => if dir.isIn dirs then some "refused" else none

def ofDirectories : Source :=
  .ofRefusal fun fs dir => if fs.isDir dir then none else some "directory does not exist"

def watch (s : Source) (fs : FileSystem) (dir : Path) : Source × Option WatchError :=
  let s := { s with calls := s.calls ++ [dir] }
  let refusal? := if s.closes = 0 then s.refusal? fs dir else some "source is closed"
  match refusal? with
  | some reason => (s, some (.refused dir.display reason))
  | none => ({ s with registered := s.registered ++ [dir] }, none)

def close (s : Source) : Source := { s with registered := [], closes := s.closes + 1 }

def watchAll (fs : FileSystem) : List Path → Source → Source × Option WatchError
  | [], s => (s, none)
  | d :: ds, s =>
    match s.watch fs d with
    | (s, some e) => (s, some e)
    | (s, none) => watchAll fs ds s

end Source

end ChunkWatch.Watch
