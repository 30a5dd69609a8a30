/-! # Kinds — the node kinds of each language, by role

    Plain lists of grammar words.  Which role a list plays for a language
    is said in the taxonomy that uses it. -/

namespace CodeBlocks.Kinds

/-- Blocks of JavaScript. -/
def javascriptBlocks : List String :=
  ["function", "function_declaration", "function_expression", "generator_function",
   "generator_function_declaration", "arrow_function", "class_declaration",
   "method_definition", "if_statement", "switch_case", "while_statement",
   "do_statement", "for_statement", "for_in_statement", "try_statement", "catch_clause",
   "block", "export_statement", "lexical_declaration"]

/-- Functions of the JavaScript family. -/
def javascriptFunctions : List String :=
  ["function", "function_declaration", "function_expression", "generator_function",
   "generator_function_declaration", "arrow_function", "method_definition"]

/-- Function literals of the JavaScript family. -/
def javascriptLiterals : List String :=
  ["function", "function_expression", "generator_function", "arrow_function"]

/-- Blocks of TypeScript. -/
def typescriptBlocks : List String :=
  ["function", "function_declaration", "function_expression", "generator_function",
   "generator_function_declaration", "arrow_function", "class_declaration",
   "abstract_class_declaration", "interface_declaration", "method_definition",
   "method_signature", "enum_declaration", "type_alias_declaration",
   "lexical_declaration", "if_statement", "switch_case", "while_statement",
   "do_statement", "for_statement", "for_in_statement", "for_of_statement",
   "try_statement", "catch_clause", "block", "module", "public_field_definition",
   "private_field_definition", "export_statement"]

/-- Class-like declarations of TypeScript. -/
def typescriptClasses : List String :=
  ["class_declaration", "abstract_class_declaration", "interface_declaration"]

/-- Kinds that only markup dialects have. -/
def markup : List String :=
  ["jsx_element", "jsx_self_closing_element", "jsx_expression", "jsx_fragment"]

/-- Blocks of Python. -/
def pythonBlocks : List String :=
  ["function_definition", "class_definition", "compound_statement", "if_statement",
   "elif_clause", "else_clause", "for_statement", "while_statement", "try_statement",
   "except_clause", "with_statement", "decorated_definition"]

/-- Blocks of Rust. -/
def rustBlocks : List String :=
  ["function_item", "function_signature_item", "closure_expression", "impl_item",
   "trait_item", "struct_item", "enum_item", "union_item", "mod_item",
   "macro_definition", "const_item", "static_item", "if_expression", "match_expression",
   "match_arm", "for_expression", "while_expression", "loop_expression", "unsafe_block",
   "async_block"]

/-- Class-like items of Rust. -/
def rustClasses : List String :=
  ["struct_item", "enum_item", "union_item", "trait_item"]

/-- Blocks of Go. -/
def goBlocks : List String :=
  ["function_declaration", "method_declaration", "func_literal", "type_declaration",
   "type_spec", "if_statement", "for_statement", "expression_switch_statement",
   "type_switch_statement", "select_statement", "expression_case", "type_case",
   "communication_case", "default_case"]

/-- Blocks of Java. -/
def javaBlocks : List String :=
  ["class_declaration", "interface_declaration", "enum_declaration",
   "record_declaration", "annotation_type_declaration", "method_declaration",
   "constructor_declaration", "lambda_expression", "static_initializer", "if_statement",
   "for_statement", "enhanced_for_statement", "while_statement", "do_statement",
   "try_statement", "try_with_resources_statement", "catch_clause", "finally_clause",
   "switch_expression", "switch_block_statement_group", "synchronized_statement"]

/-- Class-like declarations of Java. -/
def javaClasses : List String :=
  ["class_declaration", "interface_declaration", "enum_declaration",
   "record_declaration"]

end CodeBlocks.Kinds
