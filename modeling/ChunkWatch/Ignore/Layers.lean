import ChunkWatch.Ignore.File

/-! Layered ignore rules.  The rules of the workspace root and of every directory on the way down
apply, the deepest file with a matching line first; nothing below an ignored directory can be taken
back in.  The rules of directories are remembered until their file is asked about. -/

namespace ChunkWatch.Ignore

structure Layers where
  root : Path
  top : Matcher

/-- The directories whose rules are known; `none` where there are none. -/
abbrev Cache := List (Path × Option Matcher)

namespace Cache

def get? (c : Cache) (dir : Path) : Option (Option Matcher) :=
  (c.find? fun e => e.1.same dir).map Prod.snd

def forget (c : Cache) (dir : Path) : Cache := c.filter fun e => !e.1.same dir

end Cache

inductive Fault : Type
  | file : Path → List (Nat × LineFault) → Fault
  | pattern : BadLine → Fault

def Fault.message : Fault → String
  | file p faults =>
    let told := "\n".intercalate (faults.map fun f => s!"{p.display}: line {f.1}: {f.2.message}")
    s!"invalid ignore file {p.display}: {told}"
  | pattern b => s!"invalid pattern: {b.message}"

namespace Layers

def excludePath : Bytes := Bytes.ofString ".git/info/exclude"

def readFiles (fs : FileSystem) : List Path → Except Fault (List Rule)
  | [] => .ok []
  | p :: ps =>
    if fs.isFile p then
      match fs.read p with
      | .ok content =>
        match readFile content with
        | (rules, []) => (readFiles fs ps).map (rules ++ ·)
        | (_, faults) => .error (.file p faults)
      | .error _ => readFiles fs ps
    else readFiles fs ps

/-- The rules of a workspace: those of its own ignore file and then the excludes of its repository,
of which the last matching one decides. -/
def ofWorkspace (fs : FileSystem) (root : Path) : Except Fault Layers :=
  (readFiles fs [root.push ignoreFileName, root.push excludePath]).map fun rules =>
    ⟨root, .ofRules root rules⟩

def ofPatterns (root : Path) : List String → Except Fault Layers
  | [] => .ok ⟨root, .ofRules root []⟩
  | line :: lines =>
    match parseLine line.toList with
    | .error b => .error (.pattern b)
    | .ok rule =>
      (ofPatterns root lines).map fun l => { l with top.rules := rule.toList ++ l.top.rules }

def layeredVerdict? (matchers : List Matcher) (p : Path) (isDir : Bool) : Option Verdict :=
  matchers.findSome? (·.verdict? p isDir)

def nested (fs : FileSystem) (dir : Path) (c : Cache) : Option Matcher × Cache :=
  match c.get? dir with
  | some m => (m, c)
  | none =>
    let m := loadNested fs dir
    (m, (dir, m) :: c)

def componentPath : Component → Bytes
  | .root => [slash]
  | .current => [dot]
  | .parent => [dot, dot]
  | .name s => s

def descend (fs : FileSystem) : Path → List Matcher → List Component → Cache → Bool × Cache
  | _, _, [], c => (false, c)
  | here, matchers, s :: ss, c =>
    let here := here.push (componentPath s)
    if layeredVerdict? matchers here (!ss.isEmpty || fs.isDir here) = some .ignored then (true, c)
    else if ss.isEmpty then (false, c)
    else
      let r := nested fs here c
      descend fs here (r.1.toList ++ matchers) ss r.2

def relative? (l : Layers) (p : Path) : Option Path :=
  match p.stripPrefix? l.root with
  | some q => some q
  | none => if p.isAbsolute then none else some p

/-- Asking about an ignore file forgets the rules that were read from it. -/
def refresh (l : Layers) (q : Path) (c : Cache) : Cache :=
  if q.fileName? = some ignoreFileName then
    match q.parent? with
    | some parent => c.forget (l.root.join parent)
    | none => c
  else c

def isIgnored (l : Layers) (fs : FileSystem) (p : Path) (c : Cache) : Bool × Cache :=
  match l.relative? p with
  | none => (false, c)
  | some q =>
    if q.bytes = [] then (false, c)
    else descend fs l.root [l.top] q.components (l.refresh q c)

end Layers

end ChunkWatch.Ignore
