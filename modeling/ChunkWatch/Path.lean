import ChunkWatch.Text.Bytes

/-! Paths.  A path keeps the spelling it was built with; it is compared, ordered and taken apart by
its components, so repeated and trailing slashes and inner dots do not count. -/

namespace ChunkWatch

def slash : UInt8 := 47

def dot : UInt8 := 46

structure Path where
  bytes : Bytes
  deriving DecidableEq, Inhabited

inductive Component : Type
  | root : Component
  | current : Component
  | parent : Component
  | name : Bytes → Component
  deriving DecidableEq

namespace Component

def key : Component → List Nat
  | root => [0]
  | current => [1]
  | parent => [2]
  | name s => 3 :: s.map UInt8.toNat

def ofSegment? (s : Bytes) : Option Component :=
  if s = [] ∨ s = [dot] then none
  else if s = [dot, dot] then some parent
  else some (name s)

end Component

namespace Path

def ofString (s : String) : Path := ⟨Bytes.ofString s⟩

def display (p : Path) : String := p.bytes.toStringLossy

def isAbsolute (p : Path) : Bool := p.bytes.head? == some slash

/-- A path is a lead (the root, a first `.`, or nothing) and the segments after it. -/
def lead (p : Path) : Option Component :=
  if p.isAbsolute then some .root
  else if (p.bytes.splitOn slash).head? = some [dot] then some .current
  else none

def body (p : Path) : List Bytes :=
  match p.lead with
  | some _ => (p.bytes.splitOn slash).tail
  | none => p.bytes.splitOn slash

def components (p : Path) : List Component :=
  p.lead.toList ++ p.body.filterMap Component.ofSegment?

def key (p : Path) : List (List Nat) := p.components.map Component.key

def same (p q : Path) : Bool := p.components = q.components

def before (p q : Path) : Bool := p.key < q.key

def startsWith (p base : Path) : Bool := base.components.isPrefixOf p.components

def isBlankSegment (s : Bytes) : Bool := (Component.ofSegment? s).isNone

def trimStart (ss : List Bytes) : List Bytes := ss.dropWhile isBlankSegment

def trimEnd (ss : List Bytes) : List Bytes := (ss.reverse.dropWhile isBlankSegment).reverse

def respell : Option Component → List Bytes → Path
  | none, ss => ⟨Bytes.join slash ss⟩
  | some .root, ss => ⟨slash :: Bytes.join slash ss⟩
  | some _, [] => ⟨[dot]⟩
  | some _, ss => ⟨dot :: slash :: Bytes.join slash ss⟩

def parent? (p : Path) : Option Path :=
  match p.lead, trimEnd p.body with
  | some .root, [] => none
  | some _, [] => some ⟨[]⟩
  | none, [] => none
  | lead, ss => some (respell lead (trimEnd ss.dropLast))

def fileName? (p : Path) : Option Bytes :=
  match p.components.getLast? with
  | some (.name s) => some s
  | _ => none

/-- What follows the last dot of a name.  A name without a dot, or whose only dot comes first, has
no extension. -/
def extensionOf? (name : Bytes) : Option Bytes :=
  match (name.splitOn dot).reverse with
  | [] => none
  | [_] => none
  | [_, []] => none
  | last :: _ => some last

def extension? (p : Path) : Option Bytes := p.fileName?.bind extensionOf?

/-- An absolute `q` replaces `p`; an empty one leaves a trailing slash. -/
def join (p q : Path) : Path :=
  if q.isAbsolute then q
  else if p.bytes = [] ∨ p.bytes.getLast? = some slash then ⟨p.bytes ++ q.bytes⟩
  else ⟨p.bytes ++ slash :: q.bytes⟩

def push (p : Path) (name : Bytes) : Path := p.join ⟨name⟩

def dropNames : Nat → List Bytes → List Bytes
  | 0, ss => ss
  | _ + 1, [] => []
  | n + 1, s :: ss => if isBlankSegment s then dropNames (n + 1) ss else dropNames n ss

def stripPrefix? (p base : Path) : Option Path :=
  if base.components = [] then some (respell p.lead (trimEnd p.body))
  else if p.startsWith base then
    let names := base.components.length - p.lead.toList.length
    some ⟨Bytes.join slash (trimEnd (trimStart (dropNames names p.body)))⟩
  else none

/-- Adds `p` to a list in path order; a path that is there already keeps its spelling. -/
def insertInto (p : Path) : List Path → List Path
  | [] => [p]
  | q :: ps =>
    if p.before q then p :: q :: ps
    else if p.same q then q :: ps
    else q :: insertInto p ps

def isIn (p : Path) (ps : List Path) : Bool := ps.any p.same

end Path

end ChunkWatch
