import ChunkWatch.Glob.Parser

namespace ChunkWatch

inductive Role : Type
  | source : Role
  | tests : Role
  | ignore : Role
  deriving DecidableEq

def Role.name : Role → String
  | source => "source"
  | tests => "tests"
  | ignore => "ignore"

structure RoleRule where
  pattern : String
  role : Role

structure RoleRule.Compiled where
  glob : Glob
  role : Role

abbrev RoleTable := List RoleRule.Compiled

namespace RoleTable

def compile : List RoleRule → Except (String × Glob.Fault) RoleTable
  | [] => .ok []
  | r :: rs =>
    match Glob.parse false r.pattern.toList with
    | .error f => .error (r.pattern, f)
    | .ok g => (compile rs).map (⟨g, r.role⟩ :: ·)

def classify (t : RoleTable) (p : Path) : Role :=
  ((t.find? fun r => r.glob.matches p.bytes).map RoleRule.Compiled.role).getD .source

end RoleTable

end ChunkWatch
