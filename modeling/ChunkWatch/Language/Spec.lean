import ChunkWatch.Extension
import ChunkWatch.Role
import ChunkWatch.Text.Order
import ChunkWatch.Syntax.Grammar

namespace ChunkWatch

open Syntax (Grammar)

structure ChunkRule where
  name : String
  parent : Option String
  summary : Option String

def ChunkRule.named (query : String) : ChunkRule := ⟨query, none, none⟩

structure Spec where
  name : String
  extensions : List Extension
  grammar : Grammar
  /-- The rules in the order of their node types, each type once. -/
  chunks : List (String × ChunkRule)
  fold : List String
  skip : List String
  roles : List RoleRule

namespace Spec

def empty (name : String) (grammar : Grammar) : Spec := ⟨name, [], grammar, [], [], [], []⟩

def withExtensions (s : Spec) (es : List String) : Spec :=
  { s with extensions := s.extensions ++ es.map Extension.normalize }

def insertRule (kind : String) (r : ChunkRule) : List (String × ChunkRule) →
    List (String × ChunkRule)
  | [] => [(kind, r)]
  | (k, q) :: rs =>
    if k = kind then (kind, r) :: rs
    else if Text.before kind k then (kind, r) :: (k, q) :: rs
    else (k, q) :: insertRule kind r rs

def withChunk (s : Spec) (kind : String) (r : ChunkRule) : Spec :=
  { s with chunks := insertRule kind r s.chunks }

def withFold (s : Spec) (kinds : List String) : Spec := { s with fold := s.fold ++ kinds }

def withSkip (s : Spec) (kinds : List String) : Spec := { s with skip := s.skip ++ kinds }

def withRole (s : Spec) (pattern : String) (role : Role) : Spec :=
  { s with roles := s.roles ++ [⟨pattern, role⟩] }

end Spec

end ChunkWatch
