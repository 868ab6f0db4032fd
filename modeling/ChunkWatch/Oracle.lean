import ChunkWatch.Ignore.Layers

namespace ChunkWatch

abbrev Oracle (σ : Type) := FileSystem → Path → StateM σ Bool

namespace Oracle

def ofPaths {σ : Type} (ignored : Path → Bool) : Oracle σ := fun _ p => pure (ignored p)

def ofLayers (l : Ignore.Layers) : Oracle Ignore.Cache := fun fs p c => l.isIgnored fs p c

end Oracle

inductive Outcome : Type
  | exit : Nat → Outcome
  | killed : Outcome
  | missing : Outcome
  deriving DecidableEq

inductive OnFailure : Type
  | ignore : OnFailure
  | take : OnFailure
  deriving DecidableEq

structure IgnoreCommand where
  root : Path
  onFailure : OnFailure

namespace IgnoreCommand

def arguments (p : Path) : List Bytes :=
  ["check-ignore", "-q", "--"].map Bytes.ofString ++ [p.bytes]

/-- Exit code zero means ignored, one means not ignored; anything else is a failure. -/
def isIgnored (g : IgnoreCommand) : Outcome → Bool
  | .exit 0 => true
  | .exit 1 => false
  | _ => g.onFailure = .ignore

def oracle {σ : Type} (g : IgnoreCommand) (run : Path → Outcome) : Oracle σ :=
  .ofPaths fun p => g.isIgnored (run p)

end IgnoreCommand

end ChunkWatch
