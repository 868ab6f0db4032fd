import ChunkWatch.FileSystem.Resolve

namespace ChunkWatch

inductive Change : Type
  | write : Path → Bytes → Change
  | mkdir : Path → Change
  | link : Path → (target : Bytes) → Change
  | remove : Path → Change
  | rename : (source target : Path) → Change

namespace FileSystem

def makeDirs (fs : FileSystem) (here : Path) : List Bytes → FileSystem
  | [] => fs
  | s :: ss =>
    let next := here.push s
    match Component.ofSegment? s, fs.resolve true next, fs.resolve true here with
    | some (.name name), .error .notFound, .ok place =>
      (fs.changeAt (·.put name (.dir .nil)) place).makeDirs next ss
    | _, _, _ => fs.makeDirs next ss

def makeDir (fs : FileSystem) (p : Path) : FileSystem :=
  fs.makeDirs (if p.isAbsolute then ⟨[slash]⟩ else ⟨[dot]⟩) (segments p.bytes)

def around (fs : FileSystem) (p : Path) : FileSystem × Option (Place × Bytes) :=
  match p.parent?, p.fileName? with
  | some parent, some name =>
    let parent := if parent.bytes = [] then ⟨[dot]⟩ else parent
    let fs := fs.makeDir parent
    (fs, (fs.resolve true parent).toOption.map (·, name))
  | _, _ => (fs, none)

def putAt (fs : FileSystem) (p : Path) (e : Entry) : FileSystem :=
  match fs.around p with
  | (fs, some (place, name)) => fs.changeAt (·.put name e) place
  | (fs, none) => fs

/-- Writes a file; through a link, the file that it leads to. -/
def write (fs : FileSystem) (p : Path) (content : Bytes) : FileSystem :=
  match fs.resolve true p with
  | .ok place =>
    match place.getLast? with
    | some name => fs.changeAt (·.put name (.file content)) place.dropLast
    | none => fs
  | .error _ =>
    match fs.entry? false p, p.parent? with
    | .ok (.link target), some parent => fs.putAt (parent.join ⟨target⟩) (.file content)
    | _, _ => fs.putAt p (.file content)

def remove (fs : FileSystem) (p : Path) : FileSystem :=
  match fs.resolve false p with
  | .ok place =>
    match place.getLast? with
    | some name => fs.changeAt (·.erase name) place.dropLast
    | none => fs
  | .error _ => fs

def rename (fs : FileSystem) (source target : Path) : FileSystem :=
  match fs.entry? false source with
  | .ok e => (fs.remove source).putAt target e
  | .error _ => fs

def apply (fs : FileSystem) (base : Path) : Change → FileSystem
  | .write p content => fs.write (base.join p) content
  | .mkdir p => fs.makeDir (base.join p)
  | .link p target => fs.putAt (base.join p) (.link target)
  | .remove p => fs.remove (base.join p)
  | .rename p q => fs.rename (base.join p) (base.join q)

end FileSystem

end ChunkWatch
