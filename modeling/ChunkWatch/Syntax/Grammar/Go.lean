namespace ChunkWatch.Syntax.Go

def kinds : List String :=
  ["_expression", "_simple_statement", "_simple_type", "_statement", "_type", "argument_list",
   "array_type", "assignment_statement", "binary_expression", "block", "break_statement",
   "call_expression", "channel_type", "communication_case", "composite_literal",
   "const_declaration", "const_spec", "continue_statement", "dec_statement", "default_case",
   "defer_statement", "dot", "empty_statement", "expression_case", "expression_list",
   "expression_statement", "expression_switch_statement", "fallthrough_statement",
   "field_declaration", "field_declaration_list", "for_clause", "for_statement", "func_literal",
   "function_declaration", "function_type", "generic_type", "go_statement", "goto_statement",
   "if_statement", "implicit_length_array_type", "import_declaration", "import_spec",
   "import_spec_list", "inc_statement", "index_expression", "interface_type",
   "interpreted_string_literal", "keyed_element", "labeled_statement", "literal_element",
   "literal_value", "map_type", "method_declaration", "method_elem", "negated_type",
   "package_clause", "parameter_declaration", "parameter_list", "parenthesized_expression",
   "parenthesized_type", "pointer_type", "qualified_type", "range_clause", "raw_string_literal",
   "receive_statement", "return_statement", "select_statement", "selector_expression",
   "send_statement", "short_var_declaration", "slice_expression", "slice_type", "source_file",
   "struct_type", "type_alias", "type_arguments", "type_assertion_expression", "type_case",
   "type_constraint", "type_conversion_expression", "type_declaration", "type_elem",
   "type_instantiation_expression", "type_parameter_declaration", "type_parameter_list",
   "type_spec", "type_switch_statement", "unary_expression", "var_declaration", "var_spec",
   "var_spec_list", "variadic_argument", "variadic_parameter_declaration", "blank_identifier",
   "comment", "escape_sequence", "false", "field_identifier", "float_literal", "identifier",
   "imaginary_literal", "int_literal", "interpreted_string_literal_content", "iota",
   "label_name", "nil", "package_identifier", "raw_string_literal_content", "rune_literal",
   "true", "type_identifier"]

def fields : List String :=
  ["alias", "alternative", "arguments", "body", "capacity", "channel", "communication",
   "condition", "consequence", "element", "end", "field", "function", "index", "initializer",
   "key", "label", "left", "length", "name", "operand", "operator", "package", "parameters",
   "path", "receiver", "result", "right", "start", "tag", "type", "type_arguments",
   "type_parameters", "update", "value"]

def tokens : List String :=
  ["\n", ";", "package", "import", ".", "(", ")", "const", "=", ",", "var", "func", "...",
   "type", "*", "struct", "\x7b", "\x7d", "interface", "|", "~", "[", "]", "map", "chan", "<-",
   ":=", "++", "--", "*=", "/=", "%=", "<<=", ">>=", "&=", "&^=", "+=", "-=", "|=", "^=", ":",
   "fallthrough", "break", "continue", "goto", "return", "go", "defer", "if", "else", "for",
   "range", "switch", "case", "default", "select", "new", "make", "+", "-", "!", "^", "&", "/",
   "%", "<<", ">>", "&^", "==", "!=", "<", "<=", ">", ">=", "&&", "||", "`", "\"", ""]

end ChunkWatch.Syntax.Go
