import ChunkWatch.Config
import ChunkWatch.Watch.State

namespace ChunkWatch.Watch

structure Launched where
  settings : Settings Ignore.Cache
  state : State Ignore.Cache

def launch (c : Config) (r : Registry) (fs : FileSystem) (run : Path → Outcome) :
    Except Error Launched := do
  c.validate
  let classifier ← c.classifier r fs run
  let settings := ⟨classifier, c.debounceMs, true⟩
  let state ← (start settings fs .ofDirectories []).mapError StartFailure.error
  return ⟨settings, state⟩

end ChunkWatch.Watch
