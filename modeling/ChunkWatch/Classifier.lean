import ChunkWatch.Oracle
import ChunkWatch.Extension
import ChunkWatch.Role
import ChunkWatch.Text.Order

namespace ChunkWatch

structure Classifier (σ : Type) where
  root : Path
  extensions : List Extension
  oracle : Oracle σ

namespace Classifier

variable {σ : Type}

def ofExtensions (root : Path) (es : List String) (oracle : Oracle σ) : Classifier σ :=
  ⟨root, Text.sorted (es.map Extension.normalize), oracle⟩

def repositoryDir : Bytes := Bytes.ofString ".git"

def inRepositoryDir (p : Path) : Bool := p.components.contains (.name repositoryDir)

/-- A path without an extension, or whose extension is no text, is supported. -/
def isSupported (c : Classifier σ) (p : Path) : Bool :=
  match p.extension?.bind Bytes.toString? with
  | some e => c.extensions.contains (Extension.normalize e)
  | none => true

def relativePath? (c : Classifier σ) (p : Path) : Option Path :=
  if p.isAbsolute then p.stripPrefix? c.root else some p

def absolute (c : Classifier σ) (p : Path) : Path := if p.isAbsolute then p else c.root.join p

def shouldIgnoreEntry (c : Classifier σ) (fs : FileSystem) (p : Path) (isDir : Bool) :
    StateM σ Bool := do
  let absolute := c.absolute p
  if inRepositoryDir ((c.relativePath? absolute).getD absolute) then return true
  if ← c.oracle fs absolute then return true
  return !isDir && !c.isSupported absolute

def shouldIgnore (c : Classifier σ) (fs : FileSystem) (p : Path) : StateM σ Bool :=
  c.shouldIgnoreEntry fs (c.absolute p) (fs.isDir (c.absolute p))

def classifyRole (c : Classifier σ) (p : Path) (roles : RoleTable) : Role :=
  roles.classify ((c.relativePath? p).getD p)

end Classifier

end ChunkWatch
