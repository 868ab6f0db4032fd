import ChunkWatch.Language.Spec

namespace ChunkWatch.Spec

def methodReceiver : String := "
(method_declaration
  receiver: (parameter_list
    (parameter_declaration
      type: [
        (type_identifier) @name
        (pointer_type (type_identifier) @name)
        (generic_type (type_identifier) @name)
        (pointer_type (generic_type (type_identifier) @name))])))"

def declaredType : String := "
(type_declaration [
  (type_spec name: (type_identifier) @name)
  (type_alias name: (type_identifier) @name)])"

def go : Spec :=
  empty "go" .go
    |>.withExtensions [".go"]
    |>.withChunk "function_declaration" (.named "(function_declaration name: (identifier) @name)")
    |>.withChunk "method_declaration"
      ⟨"(method_declaration name: (field_identifier) @name)", some methodReceiver, none⟩
    |>.withChunk "type_declaration" (.named declaredType)
    |>.withChunk "var_declaration"
      (.named "(var_declaration (var_spec name: (identifier) @name))")
    |>.withChunk "const_declaration"
      (.named "(const_declaration (const_spec name: (identifier) @name))")
    |>.withFold ["comment"]
    |>.withSkip ["package_clause", "import_declaration"]
    |>.withRole "**/*_test.go" .tests
    |>.withRole "vendor/**" .ignore
    |>.withRole "third_party/**" .ignore

def decoratedName : String := "
(decorated_definition definition: [
  (function_definition name: (identifier) @name)
  (class_definition name: (identifier) @name)])"

def decoratedSummary : String := "
(decorated_definition definition: [
  (function_definition) @summary
  (class_definition) @summary])"

def python : Spec :=
  empty "python" .python
    |>.withExtensions [".py", ".pyi"]
    |>.withChunk "function_definition" (.named "(function_definition name: (identifier) @name)")
    |>.withChunk "class_definition" (.named "(class_definition name: (identifier) @name)")
    |>.withChunk "decorated_definition" ⟨decoratedName, none, some decoratedSummary⟩
    |>.withFold ["comment"]
    |>.withSkip ["import_statement", "import_from_statement"]
    |>.withRole "**/test*.py" .tests
    |>.withRole "**/*_test.py" .tests
    |>.withRole "**/__pycache__/**" .ignore
    |>.withRole "**/venv/**" .ignore
    |>.withRole "**/.venv/**" .ignore
    |>.withRole "**/env/**" .ignore
    |>.withRole "**/.env/**" .ignore
    |>.withRole "**/site-packages/**" .ignore

def exportedName : String := "
(export_statement declaration: [
  (function_declaration name: (identifier) @name)
  (generator_function_declaration name: (identifier) @name)
  (class_declaration name: (identifier) @name)
  (lexical_declaration (variable_declarator name: (identifier) @name))
  (variable_declaration (variable_declarator name: (identifier) @name))])"

def javascript : Spec :=
  empty "javascript" .javascript
    |>.withExtensions [".js", ".jsx", ".mjs", ".cjs"]
    |>.withChunk "function_declaration" (.named "(function_declaration name: (identifier) @name)")
    |>.withChunk "generator_function_declaration"
      (.named "(generator_function_declaration name: (identifier) @name)")
    |>.withChunk "class_declaration" (.named "(class_declaration name: (identifier) @name)")
    |>.withChunk "lexical_declaration"
      (.named "(lexical_declaration (variable_declarator name: (identifier) @name))")
    |>.withChunk "variable_declaration"
      (.named "(variable_declaration (variable_declarator name: (identifier) @name))")
    |>.withChunk "export_statement" (.named exportedName)
    |>.withFold ["comment"]
    |>.withSkip ["import_statement"]
    |>.withRole "**/*.test.js" .tests
    |>.withRole "**/*.test.jsx" .tests
    |>.withRole "**/*.spec.js" .tests
    |>.withRole "**/*.spec.jsx" .tests
    |>.withRole "**/node_modules/**" .ignore
    |>.withRole "**/dist/**" .ignore
    |>.withRole "**/build/**" .ignore

def builtin : List Spec := [go, python, javascript]

end ChunkWatch.Spec
