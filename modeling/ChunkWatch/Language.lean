import ChunkWatch.Language.Spec
import ChunkWatch.Query
import ChunkWatch.Error

namespace ChunkWatch

structure ChunkRule.Compiled where
  name : Query
  parent : Option Query
  summary : Option Query

structure Language where
  spec : Spec
  rules : List (String × ChunkRule.Compiled)
  roles : RoleTable

namespace Language

variable [Query.Analysis]

def name (l : Language) : String := l.spec.name

def compileQuery (s : Spec) (kind : String) (part : QueryPart) (wanted source : String) :
    Except LanguageError Query :=
  (Query.compile s.grammar source wanted).mapError fun e => .query s.name kind part e.message

def compileOptional (s : Spec) (kind : String) (part : QueryPart) (wanted : String) :
    Option String → Except LanguageError (Option Query)
  | none => .ok none
  | some source => (compileQuery s kind part wanted source).map some

def compileRule (s : Spec) (kind : String) (r : ChunkRule) :
    Except LanguageError ChunkRule.Compiled := do
  let name ← compileQuery s kind .name "name" r.name
  let parent ← compileOptional s kind .parentName "name" r.parent
  let summary ← compileOptional s kind .summary "summary" r.summary
  return ⟨name, parent, summary⟩

def compileRules (s : Spec) :
    List (String × ChunkRule) → Except LanguageError (List (String × ChunkRule.Compiled))
  | [] => .ok []
  | (kind, r) :: rs => do
    let r ← compileRule s kind r
    return (kind, r) :: (← compileRules s rs)

def compileRoles (language : String) (rules : List RoleRule) :
    Except LanguageError RoleTable :=
  (RoleTable.compile rules).mapError fun (pattern, fault) =>
    .glob language pattern (fault.message pattern)

/-- Reads the queries of a spec, in the order of their node types, and then its role patterns; the
first fault is the one reported. -/
def compile (s : Spec) : Except LanguageError Language := do
  let rules ← compileRules s s.chunks
  let roles ← compileRoles s.name s.roles
  return ⟨s, rules, roles⟩

def classifyRole (l : Language) (p : Path) : Role := l.roles.classify p

def rule? (l : Language) (kind : String) : Option ChunkRule.Compiled := l.rules.lookup kind

end Language

end ChunkWatch
