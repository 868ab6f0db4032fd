import ChunkWatch.Query.Parser
import ChunkWatch.Query.Predicate

namespace ChunkWatch

open Syntax (Grammar Node)

structure Query where
  clauses : List (Query.Program × List Query.Predicate)
  wanted : String

namespace Query

inductive Error : Type
  | unreadable : Failure → String → Error
  | predicate : Predicate.Fault → Nat → Error
  | missing : (wanted : String) → Error

def lines (s : List Char) : List (List Char) :=
  let parts := s.foldr (fun c acc =>
    match acc with
    | l :: ls => if c = '\n' then [] :: l :: ls else (c :: l) :: ls
    | [] => if c = '\n' then [[], []] else [[c]]) [[]]
  let ended := if parts.getLast? = some [] then parts.dropLast else parts
  ended.map fun l => if l.getLast? = some '\r' then l.dropLast else l

def locate (offset : Nat) : List (List Char) → Nat × Nat × Option (List Char)
  | [] => (0, offset, none)
  | l :: ls =>
    let next := byteLength l + 1
    if offset < next then (0, offset, some l)
    else
      let r := locate (offset - next) ls
      (r.1 + 1, r.2)

def fromOffset : Nat → List Char → List Char
  | 0, s => s
  | _ + 1, [] => []
  | n + 1, c :: s => fromOffset (n + 1 - c.utf8Size) s

def nameAt (source : List Char) (offset : Nat) : String :=
  let here := fromOffset offset source
  let quoted := 0 < offset ∧ (fromOffset (offset - 1) source).head? = some '"'
  let rec upToQuote (escaped : Bool) : List Char → List Char
    | [] => []
    | c :: s => if c = '"' ∧ ¬escaped then [] else c :: upToQuote (c == '\\' && !escaped) s
  String.ofList <|
    if quoted then upToQuote false here
    else here.takeWhile fun c => Text.isWord c && c != '\u200c' && c != '\u200d' || c == '-'

def Error.message : Error → String
  | unreadable ⟨fault, offset⟩ source =>
    let (row, column, line) := locate offset (lines source.toList)
    let place := s!"Query error at {row + 1}:{column + 1}. "
    let pointed := match line with
      | some l => String.ofList (l ++ '\n' :: List.replicate column ' ' ++ ['^'])
      | none => "Unexpected EOF"
    let name := nameAt source.toList offset
    match fault with
    | .unexpected => place ++ "Invalid syntax:\n" ++ pointed
    | .impossible => place ++ "Impossible pattern:\n" ++ pointed
    | .unknownKind => place ++ "Invalid node type " ++ name
    | .unknownField => place ++ "Invalid field name " ++ name
    | .unknownCapture => place ++ "Invalid capture name " ++ name
  | predicate fault row => s!"Query error at {row + 1}:1. Invalid predicate: {fault.message}"
  | missing wanted => s!"missing @{wanted} capture"

def compileCalls (row : Nat) : List Call → Except Error (List Predicate)
  | [] => .ok []
  | c :: cs =>
    match Predicate.ofCall c with
    | .error f => .error (.predicate f row)
    | .ok p => (compileCalls row cs).map (p.toList ++ ·)

def compileClauses (source : String) :
    List Clause → Except Error (List (Program × List Predicate))
  | [] => .ok []
  | c :: cs => do
    let row := ((Bytes.ofString source).take c.offset).count 10
    let ps ← compileCalls row c.calls
    return (.ofPattern c.pattern, ps) :: (← compileClauses source cs)

/-- Where a query that can be read asks for what no tree of a grammar has.  Only the tables that
the grammar's parser runs on can tell. -/
class Analysis where
  impossible? : Grammar → String → Option Nat

/-- Without the tables, every query counts as possible. -/
instance Analysis.withoutTables : Analysis := ⟨fun _ _ => none⟩

def compile [Analysis] (g : Grammar) (source wanted : String) : Except Error Query :=
  match parse g source with
  | .error f => .error (.unreadable f source)
  | .ok (clauses, captures) =>
    match Analysis.impossible? g source with
    | some offset => .error (.unreadable ⟨.impossible, offset⟩ source)
    | none => do
      let clauses ← compileClauses source clauses
      if wanted ∈ captures then return ⟨clauses, wanted⟩ else throw (.missing wanted)

def admits (q : Query) (text : Bytes) (m : Match) : Bool :=
  match q.clauses[m.pattern]? with
  | some c => c.2.all (·.holds text m.captures)
  | none => false

def firstCapture? (q : Query) (text : Bytes) (n : Node) : Option Node :=
  ((matchesAt (q.clauses.map Prod.fst) n).filter (q.admits text)).findSome? fun m =>
    (Predicate.nodesOf q.wanted m.captures).head?

end Query

end ChunkWatch
