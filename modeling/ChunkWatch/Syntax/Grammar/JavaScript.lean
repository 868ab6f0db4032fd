namespace ChunkWatch.Syntax.JavaScript

def kinds : List String :=
  ["declaration", "expression", "pattern", "primary_expression", "statement", "arguments",
   "array", "array_pattern", "arrow_function", "assignment_expression", "assignment_pattern",
   "augmented_assignment_expression", "await_expression", "binary_expression",
   "break_statement", "call_expression", "catch_clause", "class", "class_body",
   "class_declaration", "class_heritage", "class_static_block", "computed_property_name",
   "continue_statement", "debugger_statement", "decorator", "do_statement", "else_clause",
   "empty_statement", "export_clause", "export_specifier", "export_statement",
   "expression_statement", "field_definition", "finally_clause", "for_in_statement",
   "for_statement", "formal_parameters", "function_declaration", "function_expression",
   "generator_function", "generator_function_declaration", "if_statement", "import",
   "import_attribute", "import_clause", "import_specifier", "import_statement", "jsx_attribute",
   "jsx_closing_element", "jsx_element", "jsx_expression", "jsx_namespace_name",
   "jsx_opening_element", "jsx_self_closing_element", "labeled_statement",
   "lexical_declaration", "member_expression", "meta_property", "method_definition",
   "named_imports", "namespace_export", "namespace_import", "new_expression", "object",
   "object_assignment_pattern", "object_pattern", "pair", "pair_pattern",
   "parenthesized_expression", "program", "regex", "rest_pattern", "return_statement",
   "sequence_expression", "spread_element", "statement_block", "string", "subscript_expression",
   "switch_body", "switch_case", "switch_default", "switch_statement", "template_string",
   "template_substitution", "ternary_expression", "throw_statement", "try_statement",
   "unary_expression", "update_expression", "variable_declaration", "variable_declarator",
   "while_statement", "with_statement", "yield_expression", "comment", "escape_sequence",
   "false", "hash_bang_line", "html_character_reference", "html_comment", "identifier",
   "jsx_text", "null", "number", "optional_chain", "private_property_identifier",
   "property_identifier", "regex_flags", "regex_pattern", "shorthand_property_identifier",
   "shorthand_property_identifier_pattern", "statement_identifier", "string_fragment", "super",
   "this", "true", "undefined"]

def fields : List String :=
  ["alias", "alternative", "argument", "arguments", "attribute", "body", "close_tag",
   "condition", "consequence", "constructor", "declaration", "decorator", "finalizer", "flags",
   "function", "handler", "increment", "index", "initializer", "key", "kind", "label", "left",
   "member", "name", "object", "open_tag", "operator", "optional_chain", "parameter",
   "parameters", "pattern", "property", "right", "source", "value"]

def tokens : List String :=
  ["export", "*", "default", "as", "\x7b", "\x7d", ",", "import", "from", "with", "var", "let",
   "const", "else", "if", "switch", "for", "(", ")", ";", "await", "in", "of", "while", "do",
   "try", "break", "continue", "debugger", "return", "throw", ":", "case", "catch", "finally",
   "yield", "=", "[", "]", "<", ">", "</", "/>", ".", "class", "extends", "async", "function",
   "=>", "?.", "new", "+=", "-=", "*=", "/=", "%=", "^=", "&=", "|=", ">>=", ">>>=", "<<=",
   "**=", "&&=", "||=", "??=", "...", "&&", "||", ">>", ">>>", "<<", "&", "^", "|", "+", "-",
   "/", "%", "**", "<=", "==", "===", "!=", "!==", ">=", "??", "instanceof", "!", "~", "typeof",
   "void", "delete", "++", "--", "\"", "'", "`", "$\x7b", "?", "target", "meta", "static",
   "get", "set", "@", "static get"]

end ChunkWatch.Syntax.JavaScript
