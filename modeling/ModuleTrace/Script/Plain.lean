import ModuleTrace.Grammar.Rule

/-!
# The plain script grammar

JavaScript with JSX markup. The order of the rules and of the words in them numbers the
tokens, and among several tokens that could repair a text the parser supplies the one with
the lowest number.
-/

namespace ModuleTrace.Script.Plain

open ModuleTrace.Grammar ModuleTrace.Grammar.Rule

def modules : List (String × Grammar.Rule) := [
  ("program", sequence [opt (ref "hash_bang_line"), many (ref "statement")]),
  ("hash_bang_line", lexeme "hash_bang_line"),
  ("export_statement",
    oneOf [
      sequence [
        "export",
        oneOf [
          sequence ["*", ref "_from_clause"],
          sequence [ref "namespace_export", ref "_from_clause"],
          sequence [ref "export_clause", ref "_from_clause"], ref "export_clause"],
        ref "_semicolon"],
      sequence [
        many (field "decorator" (ref "decorator")), "export",
        oneOf [
          field "declaration" (ref "declaration"),
          sequence [
            "default",
            oneOf [
              field "declaration" (ref "declaration"),
              sequence [field "value" (ref "expression"), ref "_semicolon"]]]]]]),
  ("namespace_export", sequence ["*", "as", ref "_module_export_name"]),
  ("export_clause", sequence ["\x7b", commas (ref "export_specifier"), opt ",", "\x7d"]),
  ("export_specifier",
    sequence [
      field "name" (ref "_module_export_name"),
      opt (sequence ["as", field "alias" (ref "_module_export_name")])]),
  ("_module_export_name", oneOf [ref "identifier", ref "string", "default"]),
  ("declaration",
    oneOf [
      ref "function_declaration", ref "generator_function_declaration", ref "class_declaration",
      ref "lexical_declaration", ref "variable_declaration"]),
  ("import", "import"),
  ("import_statement",
    sequence [
      "import",
      oneOf [sequence [ref "import_clause", ref "_from_clause"], field "source" (ref "string")],
      opt (ref "import_attribute"), ref "_semicolon"]),
  ("import_clause",
    oneOf [
      ref "namespace_import", ref "named_imports",
      sequence [
        ref "identifier",
        opt (sequence [",", oneOf [ref "namespace_import", ref "named_imports"]])]]),
  ("_from_clause", sequence ["from", field "source" (ref "string")]),
  ("namespace_import", sequence ["*", "as", ref "identifier"]),
  ("named_imports", sequence ["\x7b", commas (ref "import_specifier"), opt ",", "\x7d"]),
  ("import_specifier",
    oneOf [
      field "name" (ref "identifier"),
      sequence [
        field "name" (ref "_module_export_name"), "as", field "alias" (ref "identifier")]]),
  ("import_attribute", sequence ["with", ref "object"])]

def statements : List (String × Grammar.Rule) := [
  ("statement",
    oneOf [
      ref "export_statement", ref "import_statement", ref "debugger_statement",
      ref "expression_statement", ref "declaration", ref "statement_block", ref "if_statement",
      ref "switch_statement", ref "for_statement", ref "for_in_statement",
      ref "while_statement", ref "do_statement", ref "try_statement", ref "with_statement",
      ref "break_statement", ref "continue_statement", ref "return_statement",
      ref "throw_statement", ref "empty_statement", ref "labeled_statement"]),
  ("expression_statement", sequence [ref "_expressions", ref "_semicolon"]),
  ("variable_declaration",
    sequence ["var", commas1 (ref "variable_declarator"), ref "_semicolon"]),
  ("lexical_declaration",
    sequence [
      field "kind" (oneOf ["let", "const"]), commas1 (ref "variable_declarator"),
      ref "_semicolon"]),
  ("variable_declarator",
    sequence [
      field "name" (oneOf [ref "identifier", ref "_destructuring_pattern"]),
      opt (ref "_initializer")]),
  ("statement_block",
    right (sequence ["\x7b", many (ref "statement"), "\x7d", opt (ref "_automatic_semicolon")])),
  ("else_clause", sequence ["else", ref "statement"]),
  ("if_statement",
    right (sequence [
      "if", field "condition" (ref "parenthesized_expression"),
      field "consequence" (ref "statement"), opt (field "alternative" (ref "else_clause"))])),
  ("switch_statement",
    sequence [
      "switch", field "value" (ref "parenthesized_expression"),
      field "body" (ref "switch_body")]),
  ("for_statement",
    sequence [
      "for", "(",
      oneOf [
        field "initializer" (oneOf [ref "lexical_declaration", ref "variable_declaration"]),
        sequence [field "initializer" (ref "_expressions"), ";"],
        field "initializer" (ref "empty_statement")],
      field "condition" (oneOf [sequence [ref "_expressions", ";"], ref "empty_statement"]),
      field "increment" (opt (ref "_expressions")), ")", field "body" (ref "statement")]),
  ("for_in_statement",
    sequence ["for", opt "await", ref "_for_header", field "body" (ref "statement")]),
  ("_for_header",
    sequence [
      "(",
      oneOf [
        field "left" (oneOf [ref "_lhs_expression", ref "parenthesized_expression"]),
        sequence [
          field "kind" "var",
          field "left" (oneOf [ref "identifier", ref "_destructuring_pattern"]),
          opt (ref "_initializer")],
        sequence [
          field "kind" (oneOf ["let", "const"]),
          field "left" (oneOf [ref "identifier", ref "_destructuring_pattern"]),
          opt (ref "_automatic_semicolon")]],
      field "operator" (oneOf ["in", "of"]), field "right" (ref "_expressions"), ")"]),
  ("while_statement",
    sequence [
      "while", field "condition" (ref "parenthesized_expression"),
      field "body" (ref "statement")]),
  ("do_statement",
    right (sequence [
      "do", field "body" (ref "statement"), "while",
      field "condition" (ref "parenthesized_expression"), opt (ref "_semicolon")])),
  ("try_statement",
    sequence [
      "try", field "body" (ref "statement_block"), opt (field "handler" (ref "catch_clause")),
      opt (field "finalizer" (ref "finally_clause"))]),
  ("with_statement",
    sequence [
      "with", field "object" (ref "parenthesized_expression"), field "body" (ref "statement")]),
  ("break_statement",
    sequence [
      "break", field "label" (opt (renamed "statement_identifier" (ref "identifier"))),
      ref "_semicolon"]),
  ("continue_statement",
    sequence [
      "continue", field "label" (opt (renamed "statement_identifier" (ref "identifier"))),
      ref "_semicolon"]),
  ("debugger_statement", sequence ["debugger", ref "_semicolon"]),
  ("return_statement", sequence ["return", opt (ref "_expressions"), ref "_semicolon"]),
  ("throw_statement", sequence ["throw", ref "_expressions", ref "_semicolon"]),
  ("empty_statement", ";"),
  ("labeled_statement",
    weighted (-1) (sequence [
      field "label" (renamed "statement_identifier" (oneOf [
        ref "identifier", ref "_reserved_identifier"])),
      ":", field "body" (ref "statement")])),
  ("switch_body",
    sequence ["\x7b", many (oneOf [ref "switch_case", ref "switch_default"]), "\x7d"]),
  ("switch_case",
    sequence [
      "case", field "value" (ref "_expressions"), ":", field "body" (many (ref "statement"))]),
  ("switch_default", sequence ["default", ":", field "body" (many (ref "statement"))]),
  ("catch_clause",
    sequence [
      "catch",
      opt (sequence [
        "(", field "parameter" (oneOf [ref "identifier", ref "_destructuring_pattern"]), ")"]),
      field "body" (ref "statement_block")]),
  ("finally_clause", sequence ["finally", field "body" (ref "statement_block")]),
  ("parenthesized_expression", sequence ["(", ref "_expressions", ")"])]

def expressionForms : List Grammar.Rule := [
  ref "primary_expression", ref "_jsx_element", ref "assignment_expression",
  ref "augmented_assignment_expression", ref "await_expression", ref "unary_expression",
  ref "binary_expression", ref "ternary_expression", ref "update_expression",
  ref "new_expression", ref "yield_expression"]

def expressions : List (String × Grammar.Rule) := [
  ("_expressions", oneOf [ref "expression", ref "sequence_expression"]),
  ("expression", oneOf expressionForms),
  ("primary_expression",
    oneOf [
      ref "subscript_expression", ref "member_expression", ref "parenthesized_expression",
      ref "_identifier", renamed "identifier" (ref "_reserved_identifier"), ref "this",
      ref "super", ref "number", ref "string", ref "template_string", ref "regex", ref "true",
      ref "false", ref "null", ref "object", ref "array", ref "function_expression",
      ref "arrow_function", ref "generator_function", ref "class", ref "meta_property",
      ref "call_expression"]),
  ("yield_expression",
    right (sequence ["yield", oneOf [sequence ["*", ref "expression"], opt (ref "expression")]])),
  ("object",
    rank "object" (sequence [
      "\x7b",
      commas (opt (oneOf [
        ref "pair", ref "spread_element", ref "method_definition",
        renamed "shorthand_property_identifier" (oneOf [
          ref "identifier", ref "_reserved_identifier"])])),
      "\x7d"])),
  ("object_pattern",
    rank "object" (sequence [
      "\x7b",
      commas (opt (oneOf [
        ref "pair_pattern", ref "rest_pattern", ref "object_assignment_pattern",
        renamed "shorthand_property_identifier_pattern" (oneOf [
          ref "identifier", ref "_reserved_identifier"])])),
      "\x7d"])),
  ("assignment_pattern",
    sequence [field "left" (ref "pattern"), "=", field "right" (ref "expression")]),
  ("object_assignment_pattern",
    sequence [
      field "left" (oneOf [
        renamed "shorthand_property_identifier_pattern" (oneOf [
          ref "_reserved_identifier", ref "identifier"]),
        ref "_destructuring_pattern"]),
      "=", field "right" (ref "expression")]),
  ("array", sequence ["[", commas (opt (oneOf [ref "expression", ref "spread_element"])), "]"]),
  ("array_pattern",
    sequence ["[", commas (opt (oneOf [ref "pattern", ref "assignment_pattern"])), "]"])]

def markup : List (String × Grammar.Rule) := [
  ("_jsx_element", oneOf [ref "jsx_element", ref "jsx_self_closing_element"]),
  ("jsx_element",
    sequence [
      field "open_tag" (ref "jsx_opening_element"), many (ref "_jsx_child"),
      field "close_tag" (ref "jsx_closing_element")]),
  ("html_character_reference", lexeme "html_character_reference"),
  ("jsx_expression",
    sequence [
      "\x7b", opt (oneOf [ref "expression", ref "sequence_expression", ref "spread_element"]),
      "\x7d"]),
  ("_jsx_child",
    oneOf [
      ref "jsx_text", ref "html_character_reference", ref "_jsx_element", ref "jsx_expression"]),
  ("jsx_opening_element",
    weighted (-1) (sequence [
      "<",
      opt (sequence [
        field "name" (ref "_jsx_element_name"), many (field "attribute" (ref "_jsx_attribute"))]),
      ">"])),
  ("jsx_identifier", lexeme "jsx_identifier"),
  ("_jsx_identifier", oneOf [renamed "identifier" (ref "jsx_identifier"), ref "identifier"]),
  ("nested_identifier",
    rank "member" (sequence [
      field "object" (oneOf [
        ref "identifier", renamed "member_expression" (ref "nested_identifier")]),
      ".", field "property" (renamed "property_identifier" (ref "identifier"))])),
  ("jsx_namespace_name", sequence [ref "_jsx_identifier", ":", ref "_jsx_identifier"]),
  ("_jsx_element_name",
    oneOf [
      ref "_jsx_identifier", renamed "member_expression" (ref "nested_identifier"),
      ref "jsx_namespace_name"]),
  ("jsx_closing_element", sequence ["</", opt (field "name" (ref "_jsx_element_name")), ">"]),
  ("jsx_self_closing_element",
    sequence [
      "<", field "name" (ref "_jsx_element_name"),
      many (field "attribute" (ref "_jsx_attribute")), "/>"]),
  ("_jsx_attribute", oneOf [ref "jsx_attribute", ref "jsx_expression"]),
  ("_jsx_attribute_name",
    oneOf [renamed "property_identifier" (ref "_jsx_identifier"), ref "jsx_namespace_name"]),
  ("jsx_attribute",
    sequence [ref "_jsx_attribute_name", opt (sequence ["=", ref "_jsx_attribute_value"])]),
  ("_jsx_string",
    oneOf [
      sequence [
        "\"",
        many (oneOf [
          renamed "string_fragment" (ref "unescaped_double_jsx_string_fragment"),
          ref "html_character_reference"]),
        "\""],
      sequence [
        "'",
        many (oneOf [
          renamed "string_fragment" (ref "unescaped_single_jsx_string_fragment"),
          ref "html_character_reference"]),
        "'"]]),
  ("unescaped_double_jsx_string_fragment", lexeme "unescaped_double_jsx_string_fragment"),
  ("unescaped_single_jsx_string_fragment", lexeme "unescaped_single_jsx_string_fragment"),
  ("_jsx_attribute_value",
    oneOf [renamed "string" (ref "_jsx_string"), ref "jsx_expression", ref "_jsx_element"])]

def definitions : List (String × Grammar.Rule) := [
  ("class",
    rank "literal" (sequence [
      many (field "decorator" (ref "decorator")), "class",
      field "name" (opt (ref "identifier")), opt (ref "class_heritage"),
      field "body" (ref "class_body")])),
  ("class_declaration",
    rank "declare" (sequence [
      many (field "decorator" (ref "decorator")), "class", field "name" (ref "identifier"),
      opt (ref "class_heritage"), field "body" (ref "class_body"),
      opt (ref "_automatic_semicolon")])),
  ("class_heritage", sequence ["extends", ref "expression"]),
  ("function_expression",
    rank "literal" (sequence [
      opt "async", "function", field "name" (opt (ref "identifier")), ref "_call_signature",
      field "body" (ref "statement_block")])),
  ("function_declaration",
    rightRank "declare" (sequence [
      opt "async", "function", field "name" (ref "identifier"), ref "_call_signature",
      field "body" (ref "statement_block"), opt (ref "_automatic_semicolon")])),
  ("generator_function",
    rank "literal" (sequence [
      opt "async", "function", "*", field "name" (opt (ref "identifier")),
      ref "_call_signature", field "body" (ref "statement_block")])),
  ("generator_function_declaration",
    rightRank "declare" (sequence [
      opt "async", "function", "*", field "name" (ref "identifier"), ref "_call_signature",
      field "body" (ref "statement_block"), opt (ref "_automatic_semicolon")])),
  ("arrow_function",
    sequence [
      opt "async",
      oneOf [
        field "parameter" (oneOf [
          renamed "identifier" (ref "_reserved_identifier"), ref "identifier"]),
        ref "_call_signature"],
      "=>", field "body" (oneOf [ref "expression", ref "statement_block"])]),
  ("_call_signature", field "parameters" (ref "formal_parameters")),
  ("_formal_parameter", oneOf [ref "pattern", ref "assignment_pattern"])]

def operations : List (String × Grammar.Rule) := [
  ("optional_chain", "?."),
  ("call_expression",
    oneOf [
      rank "call" (sequence [
        field "function" (oneOf [ref "expression", ref "import"]),
        field "arguments" (ref "arguments")]),
      rank "template_call" (sequence [
        field "function" (oneOf [ref "primary_expression", ref "new_expression"]),
        field "arguments" (ref "template_string")]),
      rank "member" (sequence [
        field "function" (ref "primary_expression"),
        field "optional_chain" (ref "optional_chain"), field "arguments" (ref "arguments")])]),
  ("new_expression",
    rightRank "new" (sequence [
      "new", field "constructor" (oneOf [ref "primary_expression", ref "new_expression"]),
      field "arguments" (opt (weighted 1 (ref "arguments")))])),
  ("await_expression", rank "unary_void" (sequence ["await", ref "expression"])),
  ("member_expression",
    rank "member" (sequence [
      field "object" (oneOf [ref "expression", ref "primary_expression", ref "import"]),
      oneOf [".", field "optional_chain" (ref "optional_chain")],
      field "property" (oneOf [
        ref "private_property_identifier", renamed "property_identifier" (ref "identifier")])])),
  ("subscript_expression",
    rightRank "member" (sequence [
      field "object" (oneOf [ref "expression", ref "primary_expression"]),
      opt (field "optional_chain" (ref "optional_chain")), "[",
      field "index" (ref "_expressions"), "]"])),
  ("_lhs_expression",
    oneOf [
      ref "member_expression", ref "subscript_expression", ref "_identifier",
      renamed "identifier" (ref "_reserved_identifier"), ref "_destructuring_pattern"]),
  ("assignment_expression",
    rightRank "assign" (sequence [
      opt "using", field "left" (oneOf [ref "parenthesized_expression", ref "_lhs_expression"]),
      "=", field "right" (ref "expression")])),
  ("_augmented_assignment_lhs",
    oneOf [
      ref "member_expression", ref "subscript_expression",
      renamed "identifier" (ref "_reserved_identifier"), ref "identifier",
      ref "parenthesized_expression"]),
  ("augmented_assignment_expression",
    rightRank "assign" (sequence [
      field "left" (ref "_augmented_assignment_lhs"),
      field "operator" (oneOf [
        "+=", "-=", "*=", "/=", "%=", "^=", "&=", "|=", ">>=", ">>>=", "<<=", "**=", "&&=",
        "||=", "??="]),
      field "right" (ref "expression")])),
  ("_initializer", sequence ["=", field "value" (ref "expression")]),
  ("_destructuring_pattern", oneOf [ref "object_pattern", ref "array_pattern"]),
  ("spread_element", sequence ["...", ref "expression"]),
  ("ternary_expression",
    rightRank "ternary" (sequence [
      field "condition" (ref "expression"), naming (ref "_ternary_qmark") ⟨"?", false⟩,
      field "consequence" (ref "expression"), ":", field "alternative" (ref "expression")])),
  ("binary_expression",
    oneOf [
      leftRank "logical_and" (sequence [
        field "left" (ref "expression"), field "operator" "&&",
        field "right" (ref "expression")]),
      leftRank "logical_or" (sequence [
        field "left" (ref "expression"), field "operator" "||",
        field "right" (ref "expression")]),
      leftRank "binary_shift" (sequence [
        field "left" (ref "expression"), field "operator" ">>",
        field "right" (ref "expression")]),
      leftRank "binary_shift" (sequence [
        field "left" (ref "expression"), field "operator" ">>>",
        field "right" (ref "expression")]),
      leftRank "binary_shift" (sequence [
        field "left" (ref "expression"), field "operator" "<<",
        field "right" (ref "expression")]),
      leftRank "bitwise_and" (sequence [
        field "left" (ref "expression"), field "operator" "&", field "right" (ref "expression")]),
      leftRank "bitwise_xor" (sequence [
        field "left" (ref "expression"), field "operator" "^", field "right" (ref "expression")]),
      leftRank "bitwise_or" (sequence [
        field "left" (ref "expression"), field "operator" "|", field "right" (ref "expression")]),
      leftRank "binary_plus" (sequence [
        field "left" (ref "expression"), field "operator" "+", field "right" (ref "expression")]),
      leftRank "binary_plus" (sequence [
        field "left" (ref "expression"), field "operator" "-", field "right" (ref "expression")]),
      leftRank "binary_times" (sequence [
        field "left" (ref "expression"), field "operator" "*", field "right" (ref "expression")]),
      leftRank "binary_times" (sequence [
        field "left" (ref "expression"), field "operator" "/", field "right" (ref "expression")]),
      leftRank "binary_times" (sequence [
        field "left" (ref "expression"), field "operator" "%", field "right" (ref "expression")]),
      rightRank "binary_exp" (sequence [
        field "left" (ref "expression"), field "operator" "**",
        field "right" (ref "expression")]),
      leftRank "binary_relation" (sequence [
        field "left" (ref "expression"), field "operator" "<", field "right" (ref "expression")]),
      leftRank "binary_relation" (sequence [
        field "left" (ref "expression"), field "operator" "<=",
        field "right" (ref "expression")]),
      leftRank "binary_equality" (sequence [
        field "left" (ref "expression"), field "operator" "==",
        field "right" (ref "expression")]),
      leftRank "binary_equality" (sequence [
        field "left" (ref "expression"), field "operator" "===",
        field "right" (ref "expression")]),
      leftRank "binary_equality" (sequence [
        field "left" (ref "expression"), field "operator" "!=",
        field "right" (ref "expression")]),
      leftRank "binary_equality" (sequence [
        field "left" (ref "expression"), field "operator" "!==",
        field "right" (ref "expression")]),
      leftRank "binary_relation" (sequence [
        field "left" (ref "expression"), field "operator" ">=",
        field "right" (ref "expression")]),
      leftRank "binary_relation" (sequence [
        field "left" (ref "expression"), field "operator" ">", field "right" (ref "expression")]),
      leftRank "ternary" (sequence [
        field "left" (ref "expression"), field "operator" "??",
        field "right" (ref "expression")]),
      leftRank "binary_relation" (sequence [
        field "left" (ref "expression"), field "operator" "instanceof",
        field "right" (ref "expression")]),
      leftRank "binary_relation" (sequence [
        field "left" (oneOf [ref "expression", ref "private_property_identifier"]),
        field "operator" "in", field "right" (ref "expression")])]),
  ("unary_expression",
    leftRank "unary_void" (sequence [
      field "operator" (oneOf ["!", "~", "-", "+", "typeof", "void", "delete"]),
      field "argument" (ref "expression")])),
  ("update_expression",
    left (oneOf [
      sequence [field "argument" (ref "expression"), field "operator" (oneOf ["++", "--"])],
      sequence [field "operator" (oneOf ["++", "--"]), field "argument" (ref "expression")]])),
  ("sequence_expression", right (commas1 (ref "expression")))]

def primitives : List (String × Grammar.Rule) := [
  ("string",
    oneOf [
      sequence [
        "\"",
        many (oneOf [
          renamed "string_fragment" (ref "unescaped_double_string_fragment"),
          ref "escape_sequence"]),
        "\""],
      sequence [
        "'",
        many (oneOf [
          renamed "string_fragment" (ref "unescaped_single_string_fragment"),
          ref "escape_sequence"]),
        "'"]]),
  ("unescaped_double_string_fragment", lexeme "unescaped_double_string_fragment"),
  ("unescaped_single_string_fragment", lexeme "unescaped_single_string_fragment"),
  ("escape_sequence", lexeme "escape_sequence"),
  ("comment", lexeme "comment"),
  ("template_string",
    sequence [
      "`",
      many (oneOf [
        renamed "string_fragment" (ref "_template_chars"), ref "escape_sequence",
        ref "template_substitution"]),
      "`"]),
  ("template_substitution", sequence ["$\x7b", ref "_expressions", "\x7d"]),
  ("regex",
    sequence [
      "/", field "pattern" (ref "regex_pattern"), lexeme "regex_end",
      opt (field "flags" (ref "regex_flags"))]),
  ("regex_pattern", lexeme "regex_pattern"),
  ("regex_flags", lexeme "regex_flags"),
  ("number", lexeme "number"),
  ("identifier", lexeme "identifier"),
  ("private_property_identifier", lexeme "private_property_identifier"),
  ("meta_property", oneOf [sequence ["new", ".", "target"], sequence ["import", ".", "meta"]]),
  ("this", "this"),
  ("super", "super"),
  ("true", "true"),
  ("false", "false"),
  ("null", "null"),
  ("undefined", "undefined")]

def members : List (String × Grammar.Rule) := [
  ("arguments",
    sequence ["(", commas (opt (oneOf [ref "expression", ref "spread_element"])), ")"]),
  ("decorator",
    sequence [
      "@",
      oneOf [
        ref "identifier", renamed "member_expression" (ref "decorator_member_expression"),
        renamed "call_expression" (ref "decorator_call_expression")]]),
  ("decorator_member_expression",
    rank "member" (sequence [
      field "object" (oneOf [
        ref "identifier", renamed "member_expression" (ref "decorator_member_expression")]),
      ".", field "property" (renamed "property_identifier" (ref "identifier"))])),
  ("decorator_call_expression",
    rank "call" (sequence [
      field "function" (oneOf [
        ref "identifier", renamed "member_expression" (ref "decorator_member_expression")]),
      field "arguments" (ref "arguments")])),
  ("class_body",
    sequence [
      "\x7b",
      many (oneOf [
        sequence [field "member" (ref "method_definition"), opt ";"],
        sequence [field "member" (ref "field_definition"), ref "_semicolon"],
        field "member" (ref "class_static_block"), ";"]),
      "\x7d"]),
  ("field_definition",
    sequence [
      many (field "decorator" (ref "decorator")), opt "static",
      field "property" (ref "_property_name"), opt (ref "_initializer")]),
  ("formal_parameters",
    sequence ["(", opt (sequence [commas1 (ref "_formal_parameter"), opt ","]), ")"]),
  ("class_static_block",
    sequence [
      "static", opt (ref "_automatic_semicolon"), field "body" (ref "statement_block")]),
  ("pattern", weighted (-1) (oneOf [ref "_lhs_expression", ref "rest_pattern"])),
  ("rest_pattern", right (sequence ["...", ref "_lhs_expression"])),
  ("method_definition",
    sequence [
      many (field "decorator" (ref "decorator")),
      opt (oneOf ["static", naming (lexeme "static_get") ⟨"static get", false⟩]), opt "async",
      opt (oneOf ["get", "set", "*"]), field "name" (ref "_property_name"),
      field "parameters" (ref "formal_parameters"), field "body" (ref "statement_block")]),
  ("pair", sequence [field "key" (ref "_property_name"), ":", field "value" (ref "expression")]),
  ("pair_pattern",
    sequence [
      field "key" (ref "_property_name"), ":",
      field "value" (oneOf [ref "pattern", ref "assignment_pattern"])]),
  ("_property_name",
    oneOf [
      renamed "property_identifier" (oneOf [ref "identifier", ref "_reserved_identifier"]),
      ref "private_property_identifier", ref "string", ref "number",
      ref "computed_property_name"]),
  ("computed_property_name", sequence ["[", ref "expression", "]"]),
  ("_identifier", oneOf [ref "undefined", ref "identifier"]),
  ("_reserved_identifier", oneOf ["get", "set", "async", "static", "export", "let"]),
  ("_semicolon", oneOf [ref "_automatic_semicolon", ";"])]

def rules : List (String × Grammar.Rule) :=
  modules ++ statements ++ expressions ++ markup ++ definitions ++ operations ++ primitives
    ++ members

def layout : List Grammar.Rule := [
  .ref "_automatic_semicolon", .ref "_template_chars", .ref "_ternary_qmark",
  .ref "html_comment", .word "||", .ref "escape_sequence", .ref "regex_pattern",
  .ref "jsx_text"]

def extras : List String := ["comment", "html_comment"]

def families : List String := [
  "statement", "declaration", "expression", "primary_expression", "pattern"]

def inlined : List String := [
  "_call_signature", "_formal_parameter", "_expressions", "_semicolon", "_identifier",
  "_reserved_identifier", "_jsx_attribute", "_jsx_element_name", "_jsx_child", "_jsx_element",
  "_jsx_attribute_name", "_jsx_attribute_value", "_jsx_identifier", "_lhs_expression"]

def ranks : List (List RankEntry) := [
  [.label "member", .label "template_call", .label "call", .rule "update_expression",
   .label "unary_void", .label "binary_exp", .label "binary_times", .label "binary_plus",
   .label "binary_shift", .label "binary_compare", .label "binary_relation",
   .label "binary_equality", .label "bitwise_and", .label "bitwise_xor", .label "bitwise_or",
   .label "logical_and", .label "logical_or", .label "ternary", .rule "sequence_expression",
   .rule "arrow_function"],
  [.label "assign", .rule "primary_expression"],
  [.label "member", .label "template_call", .label "new", .label "call", .rule "expression"],
  [.label "declare", .label "literal"],
  [.rule "primary_expression", .rule "statement_block", .label "object"],
  [.rule "meta_property", .rule "import"],
  [.rule "import_statement", .rule "import"],
  [.rule "export_statement", .rule "primary_expression"],
  [.rule "lexical_declaration", .rule "primary_expression"]]

def grammar : Grammar :=
  { start := "program", rules, layout, extras, families, inlined, ranks, wordClass := "identifier" }

end ModuleTrace.Script.Plain
