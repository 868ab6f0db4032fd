import ChunkWatch.Syntax.Grammar.Go
import ChunkWatch.Syntax.Grammar.Python
import ChunkWatch.Syntax.Grammar.JavaScript

namespace ChunkWatch.Syntax

inductive Grammar : Type
  | go : Grammar
  | python : Grammar
  | javascript : Grammar
  deriving DecidableEq

namespace Grammar

def kinds : Grammar → List String
  | go => Go.kinds
  | python => Python.kinds
  | javascript => JavaScript.kinds

def fields : Grammar → List String
  | go => Go.fields
  | python => Python.fields
  | javascript => JavaScript.fields

def tokens : Grammar → List String
  | go => Go.tokens
  | python => Python.tokens
  | javascript => JavaScript.tokens

/-- The kinds that stand for groups of others and never occur in a tree. -/
def supertypes : Grammar → List String
  | go => ["_expression", "_simple_statement", "_simple_type", "_statement", "_type"]
  | python =>
    ["_compound_statement", "_simple_statement", "expression", "parameter", "pattern",
     "primary_expression"]
  | javascript => ["declaration", "expression", "pattern", "primary_expression", "statement"]

end Grammar

end ChunkWatch.Syntax
