import ModuleTrace.Script.Plain

/-!
# The typed script grammars

TypeScript, in two dialects: with markup, or with type assertions written in angle brackets.
Each is the plain grammar with some rules replaced and the type rules appended.
-/

namespace ModuleTrace.Script.Typed

open ModuleTrace.Grammar ModuleTrace.Grammar.Rule

def previous (name : String) : Grammar.Rule :=
  (Plain.rules.lookup name).getD .empty

def expression (markup : Bool) : Grammar.Rule :=
  let forms := Plain.expressionForms.filter fun form => markup || form ≠ ref "_jsx_element"
  let typed := [ref "as_expression", ref "satisfies_expression", ref "instantiation_expression",
    ref "internal_module"]
  oneOf (typed ++ (if markup then [] else [ref "type_assertion"]) ++ forms)

def replaced : List (String × Grammar.Rule) := [
  ("export_statement",
    oneOf [
      previous "export_statement",
      sequence [
        "export", "type", ref "export_clause", opt (ref "_from_clause"), ref "_semicolon"],
      sequence ["export", "import", ref "import_alias"],
      sequence ["export", "=", ref "expression", ref "_semicolon"],
      sequence ["export", "as", "namespace", ref "identifier", ref "_semicolon"]]),
  ("export_specifier", sequence [opt (oneOf ["type", "typeof"]), previous "export_specifier"]),
  ("declaration",
    oneOf [
      previous "declaration", ref "function_signature", ref "abstract_class_declaration",
      ref "module", rank "declare" (ref "internal_module"), ref "type_alias_declaration",
      ref "enum_declaration", ref "interface_declaration", ref "import_alias",
      ref "ambient_declaration"]),
  ("import_statement",
    sequence [
      "import", opt (oneOf ["type", "typeof"]),
      oneOf [
        sequence [ref "import_clause", ref "_from_clause"], ref "import_require_clause",
        field "source" (ref "string")],
      opt (ref "import_attribute"), ref "_semicolon"]),
  ("import_clause",
    oneOf [
      ref "namespace_import", ref "named_imports",
      sequence [
        ref "_import_identifier",
        opt (sequence [",", oneOf [ref "namespace_import", ref "named_imports"]])]]),
  ("import_specifier",
    sequence [
      opt (oneOf ["type", "typeof"]),
      oneOf [
        field "name" (ref "_import_identifier"),
        sequence [
          field "name" (oneOf [ref "_module_export_name", renamed "identifier" "type"]), "as",
          field "alias" (ref "_import_identifier")]]]),
  ("variable_declarator",
    oneOf [
      sequence [
        field "name" (oneOf [ref "identifier", ref "_destructuring_pattern"]),
        field "type" (opt (ref "type_annotation")), opt (ref "_initializer")],
      rank "declare" (sequence [
        field "name" (ref "identifier"), "!", field "type" (ref "type_annotation")])]),
  ("catch_clause",
    sequence [
      "catch",
      opt (sequence [
        "(", field "parameter" (oneOf [ref "identifier", ref "_destructuring_pattern"]),
        opt (field "type" (ref "type_annotation")), ")"]),
      field "body" (ref "statement_block")]),
  ("parenthesized_expression",
    sequence [
      "(",
      oneOf [
        sequence [ref "expression", field "type" (opt (ref "type_annotation"))],
        ref "sequence_expression"],
      ")"]),
  ("primary_expression", oneOf [previous "primary_expression", ref "non_null_expression"]),
  ("jsx_opening_element", weighted (-1) (sequence [ref "_jsx_start_opening_element", ">"])),
  ("jsx_self_closing_element", weighted (-1) (sequence [ref "_jsx_start_opening_element", "/>"])),
  ("class",
    rank "literal" (sequence [
      many (field "decorator" (ref "decorator")), "class",
      field "name" (opt (ref "_type_identifier")),
      field "type_parameters" (opt (ref "type_parameters")), opt (ref "class_heritage"),
      field "body" (ref "class_body")])),
  ("class_declaration",
    leftRank "declare" (sequence [
      many (field "decorator" (ref "decorator")), "class",
      field "name" (ref "_type_identifier"),
      field "type_parameters" (opt (ref "type_parameters")), opt (ref "class_heritage"),
      field "body" (ref "class_body"), opt (ref "_automatic_semicolon")])),
  ("class_heritage",
    oneOf [
      sequence [ref "extends_clause", opt (ref "implements_clause")], ref "implements_clause"]),
  ("_call_signature",
    sequence [
      field "type_parameters" (opt (ref "type_parameters")),
      field "parameters" (ref "formal_parameters"),
      field "return_type" (opt (oneOf [
        ref "type_annotation", ref "asserts_annotation", ref "type_predicate_annotation"]))]),
  ("_formal_parameter", oneOf [ref "required_parameter", ref "optional_parameter"]),
  ("call_expression",
    oneOf [
      rank "call" (sequence [
        field "function" (oneOf [ref "expression", ref "import"]),
        field "type_arguments" (opt (ref "type_arguments")),
        field "arguments" (ref "arguments")]),
      rank "template_call" (sequence [
        field "function" (oneOf [ref "primary_expression", ref "new_expression"]),
        field "arguments" (ref "template_string")]),
      rank "member" (sequence [
        field "function" (ref "primary_expression"), "?.",
        field "type_arguments" (opt (ref "type_arguments")),
        field "arguments" (ref "arguments")])]),
  ("new_expression",
    rightRank "new" (sequence [
      "new", field "constructor" (ref "primary_expression"),
      field "type_arguments" (opt (ref "type_arguments")),
      field "arguments" (opt (ref "arguments"))])),
  ("_lhs_expression", oneOf [previous "_lhs_expression", ref "non_null_expression"]),
  ("_augmented_assignment_lhs",
    oneOf [previous "_augmented_assignment_lhs", ref "non_null_expression"]),
  ("decorator",
    sequence [
      "@",
      oneOf [
        ref "identifier", renamed "member_expression" (ref "decorator_member_expression"),
        renamed "call_expression" (ref "decorator_call_expression"),
        renamed "parenthesized_expression" (ref "decorator_parenthesized_expression")]]),
  ("decorator_call_expression",
    rank "call" (sequence [
      field "function" (oneOf [
        ref "identifier", renamed "member_expression" (ref "decorator_member_expression")]),
      opt (field "type_arguments" (ref "type_arguments")), field "arguments" (ref "arguments")])),
  ("class_body",
    sequence [
      "\x7b",
      many (oneOf [
        sequence [
          many (field "decorator" (ref "decorator")), ref "method_definition",
          opt (ref "_semicolon")],
        sequence [
          ref "method_signature", oneOf [ref "_function_signature_automatic_semicolon", ","]],
        ref "class_static_block",
        sequence [
          oneOf [
            ref "abstract_method_signature", ref "index_signature", ref "method_signature",
            ref "public_field_definition"],
          oneOf [ref "_semicolon", ","]],
        ";"]),
      "\x7d"]),
  ("method_definition",
    left (sequence [
      opt (ref "accessibility_modifier"), opt "static", opt (ref "override_modifier"),
      opt "readonly", opt "async", opt (oneOf ["get", "set", "*"]),
      field "name" (ref "_property_name"), opt "?", ref "_call_signature",
      field "body" (ref "statement_block")])),
  ("_reserved_identifier",
    oneOf [
      "declare", "namespace", "type", "public", "private", "protected", "override", "readonly",
      "module", "any", "number", "boolean", "string", "symbol", "export", "object", "new",
      "readonly", previous "_reserved_identifier"])]

def declarations : List (String × Grammar.Rule) := [
  ("public_field_definition",
    sequence [
      many (field "decorator" (ref "decorator")),
      opt (oneOf [
        sequence ["declare", opt (ref "accessibility_modifier")],
        sequence [ref "accessibility_modifier", opt "declare"]]),
      oneOf [
        sequence [opt "static", opt (ref "override_modifier"), opt "readonly"],
        sequence [opt "abstract", opt "readonly"], sequence [opt "readonly", opt "abstract"],
        opt "accessor"],
      field "name" (ref "_property_name"), opt (oneOf ["?", "!"]),
      field "type" (opt (ref "type_annotation")), opt (ref "_initializer")]),
  ("_jsx_start_opening_element",
    sequence [
      "<",
      opt (sequence [
        oneOf [
          field "name" (oneOf [ref "_jsx_identifier", ref "jsx_namespace_name"]),
          sequence [
            field "name" (oneOf [
              ref "identifier", renamed "member_expression" (ref "nested_identifier")]),
            field "type_arguments" (opt (ref "type_arguments"))]],
        many (field "attribute" (ref "_jsx_attribute"))])]),
  ("_import_identifier", oneOf [ref "identifier", renamed "identifier" "type"]),
  ("non_null_expression", leftRank "unary" (sequence [ref "expression", "!"])),
  ("method_signature",
    sequence [
      opt (ref "accessibility_modifier"), opt "static", opt (ref "override_modifier"),
      opt "readonly", opt "async", opt (oneOf ["get", "set", "*"]),
      field "name" (ref "_property_name"), opt "?", ref "_call_signature"]),
  ("abstract_method_signature",
    sequence [
      opt (ref "accessibility_modifier"), "abstract", opt (ref "override_modifier"),
      opt (oneOf ["get", "set", "*"]), field "name" (ref "_property_name"), opt "?",
      ref "_call_signature"]),
  ("function_signature",
    left (sequence [
      opt "async", "function", field "name" (ref "identifier"), ref "_call_signature",
      oneOf [ref "_semicolon", ref "_function_signature_automatic_semicolon"]])),
  ("decorator_parenthesized_expression",
    sequence [
      "(",
      oneOf [
        ref "identifier", renamed "member_expression" (ref "decorator_member_expression"),
        renamed "call_expression" (ref "decorator_call_expression")],
      ")"]),
  ("type_assertion", leftRank "unary" (sequence [ref "type_arguments", ref "expression"])),
  ("as_expression",
    leftRank "binary" (sequence [ref "expression", "as", oneOf ["const", ref "type"]])),
  ("satisfies_expression",
    leftRank "binary" (sequence [ref "expression", "satisfies", ref "type"])),
  ("instantiation_expression",
    rank "instantiation" (sequence [
      ref "expression", field "type_arguments" (ref "type_arguments")])),
  ("import_require_clause",
    sequence [ref "identifier", "=", "require", "(", field "source" (ref "string"), ")"]),
  ("extends_clause", sequence ["extends", commas1 (ref "_extends_clause_single")]),
  ("_extends_clause_single",
    rank "extends" (sequence [
      field "value" (ref "expression"), field "type_arguments" (opt (ref "type_arguments"))])),
  ("implements_clause", sequence ["implements", commas1 (ref "type")]),
  ("ambient_declaration",
    sequence [
      "declare",
      oneOf [
        ref "declaration", sequence ["global", ref "statement_block"],
        sequence [
          "module", ".", renamed "property_identifier" (ref "identifier"), ":", ref "type",
          ref "_semicolon"]]]),
  ("abstract_class_declaration",
    rank "declare" (sequence [
      many (field "decorator" (ref "decorator")), "abstract", "class",
      field "name" (ref "_type_identifier"),
      field "type_parameters" (opt (ref "type_parameters")), opt (ref "class_heritage"),
      field "body" (ref "class_body")])),
  ("module", sequence ["module", ref "_module"]),
  ("internal_module", sequence ["namespace", ref "_module"]),
  ("_module",
    right (sequence [
      field "name" (oneOf [ref "string", ref "identifier", ref "nested_identifier"]),
      field "body" (opt (ref "statement_block"))])),
  ("import_alias",
    sequence [
      "import", ref "identifier", "=", oneOf [ref "identifier", ref "nested_identifier"],
      ref "_semicolon"]),
  ("nested_type_identifier",
    rank "member" (sequence [
      field "module" (oneOf [ref "identifier", ref "nested_identifier"]), ".",
      field "name" (ref "_type_identifier")])),
  ("interface_declaration",
    sequence [
      "interface", field "name" (ref "_type_identifier"),
      field "type_parameters" (opt (ref "type_parameters")), opt (ref "extends_type_clause"),
      field "body" (renamed "interface_body" (ref "object_type"))]),
  ("extends_type_clause",
    sequence [
      "extends",
      commas1 (field "type" (oneOf [
        ref "_type_identifier", ref "nested_type_identifier", ref "generic_type"]))]),
  ("enum_declaration",
    sequence [
      opt "const", "enum", field "name" (ref "identifier"), field "body" (ref "enum_body")]),
  ("enum_body",
    sequence [
      "\x7b",
      opt (sequence [
        commas1 (oneOf [field "name" (ref "_property_name"), ref "enum_assignment"]), opt ","]),
      "\x7d"]),
  ("enum_assignment", sequence [field "name" (ref "_property_name"), ref "_initializer"]),
  ("type_alias_declaration",
    sequence [
      "type", field "name" (ref "_type_identifier"),
      field "type_parameters" (opt (ref "type_parameters")), "=", field "value" (ref "type"),
      ref "_semicolon"])]

def annotations : List (String × Grammar.Rule) := [
  ("accessibility_modifier", oneOf ["public", "private", "protected"]),
  ("override_modifier", "override"),
  ("required_parameter",
    sequence [
      ref "_parameter_name", field "type" (opt (ref "type_annotation")),
      opt (ref "_initializer")]),
  ("optional_parameter",
    sequence [
      ref "_parameter_name", "?", field "type" (opt (ref "type_annotation")),
      opt (ref "_initializer")]),
  ("_parameter_name",
    sequence [
      many (field "decorator" (ref "decorator")), opt (ref "accessibility_modifier"),
      opt (ref "override_modifier"), opt "readonly",
      field "pattern" (oneOf [ref "pattern", ref "this"])]),
  ("omitting_type_annotation", sequence ["-?:", ref "type"]),
  ("adding_type_annotation", sequence ["+?:", ref "type"]),
  ("opting_type_annotation", sequence ["?:", ref "type"]),
  ("type_annotation",
    sequence [
      ":",
      oneOf [
        ref "type",
        renamed "type_query" (ref "_type_query_member_expression_in_type_annotation"),
        renamed "type_query" (ref "_type_query_call_expression_in_type_annotation")]]),
  ("_type_query_member_expression_in_type_annotation",
    sequence [
      field "object" (oneOf [
        ref "import",
        renamed "member_expression" (ref "_type_query_member_expression_in_type_annotation"),
        renamed "call_expression" (ref "_type_query_call_expression_in_type_annotation")]),
      ".",
      field "property" (oneOf [
        ref "private_property_identifier", renamed "property_identifier" (ref "identifier")])]),
  ("_type_query_call_expression_in_type_annotation",
    sequence [
      field "function" (oneOf [
        ref "import",
        renamed "member_expression" (ref "_type_query_member_expression_in_type_annotation")]),
      field "arguments" (ref "arguments")]),
  ("asserts", sequence ["asserts", oneOf [ref "type_predicate", ref "identifier", ref "this"]]),
  ("asserts_annotation", sequence [":", ref "asserts"])]

def types : List (String × Grammar.Rule) := [
  ("type",
    oneOf [
      ref "primary_type", ref "function_type", ref "readonly_type", ref "constructor_type",
      ref "infer_type",
      ranked (.level (-1)) none
        (renamed "member_expression" (ref "_type_query_member_expression_in_type_annotation")),
      ranked (.level (-1)) none
        (renamed "call_expression" (ref "_type_query_call_expression_in_type_annotation"))]),
  ("tuple_parameter",
    sequence [
      field "name" (oneOf [ref "identifier", ref "rest_pattern"]),
      field "type" (ref "type_annotation")]),
  ("optional_tuple_parameter",
    sequence [field "name" (ref "identifier"), "?", field "type" (ref "type_annotation")]),
  ("optional_type", sequence [ref "type", "?"]),
  ("rest_type", sequence ["...", ref "type"]),
  ("_tuple_type_member",
    oneOf [
      renamed "required_parameter" (ref "tuple_parameter"),
      renamed "optional_parameter" (ref "optional_tuple_parameter"), ref "optional_type",
      ref "rest_type", ref "type"]),
  ("constructor_type",
    left (sequence [
      opt "abstract", "new", field "type_parameters" (opt (ref "type_parameters")),
      field "parameters" (ref "formal_parameters"), "=>", field "type" (ref "type")])),
  ("primary_type",
    oneOf [
      ref "parenthesized_type", ref "predefined_type", ref "_type_identifier",
      ref "nested_type_identifier", ref "generic_type", ref "object_type", ref "array_type",
      ref "tuple_type", ref "flow_maybe_type", ref "type_query", ref "index_type_query",
      renamed "this_type" (ref "this"), ref "existential_type", ref "literal_type",
      ref "lookup_type", ref "conditional_type", ref "template_literal_type",
      ref "intersection_type", ref "union_type", "const"]),
  ("template_type", sequence ["$\x7b", oneOf [ref "primary_type", ref "infer_type"], "\x7d"]),
  ("template_literal_type",
    sequence [
      "`",
      many (oneOf [renamed "string_fragment" (ref "_template_chars"), ref "template_type"]),
      "`"]),
  ("infer_type",
    right (sequence ["infer", ref "_type_identifier", opt (sequence ["extends", ref "type"])])),
  ("conditional_type",
    right (sequence [
      field "left" (ref "type"), "extends", field "right" (ref "type"), "?",
      field "consequence" (ref "type"), ":", field "alternative" (ref "type")])),
  ("generic_type",
    rank "call" (sequence [
      field "name" (oneOf [ref "_type_identifier", ref "nested_type_identifier"]),
      field "type_arguments" (ref "type_arguments")])),
  ("type_predicate",
    sequence [
      field "name" (oneOf [
        ref "identifier", ref "this", renamed "identifier" (ref "predefined_type")]),
      "is", field "type" (ref "type")]),
  ("type_predicate_annotation", sequence [":", ref "type_predicate"]),
  ("_type_query_member_expression",
    sequence [
      field "object" (oneOf [
        ref "identifier", ref "this",
        renamed "subscript_expression" (ref "_type_query_subscript_expression"),
        renamed "member_expression" (ref "_type_query_member_expression"),
        renamed "call_expression" (ref "_type_query_call_expression")]),
      oneOf [".", "?."],
      field "property" (oneOf [
        ref "private_property_identifier", renamed "property_identifier" (ref "identifier")])]),
  ("_type_query_subscript_expression",
    sequence [
      field "object" (oneOf [
        ref "identifier", ref "this",
        renamed "subscript_expression" (ref "_type_query_subscript_expression"),
        renamed "member_expression" (ref "_type_query_member_expression"),
        renamed "call_expression" (ref "_type_query_call_expression")]),
      opt "?.", "[", field "index" (oneOf [ref "predefined_type", ref "string", ref "number"]),
      "]"]),
  ("_type_query_call_expression",
    sequence [
      field "function" (oneOf [
        ref "import", ref "identifier",
        renamed "member_expression" (ref "_type_query_member_expression"),
        renamed "subscript_expression" (ref "_type_query_subscript_expression")]),
      field "arguments" (ref "arguments")]),
  ("_type_query_instantiation_expression",
    sequence [
      field "function" (oneOf [
        ref "import", ref "identifier",
        renamed "member_expression" (ref "_type_query_member_expression"),
        renamed "subscript_expression" (ref "_type_query_subscript_expression")]),
      field "type_arguments" (ref "type_arguments")]),
  ("type_query",
    right (sequence [
      "typeof",
      oneOf [
        renamed "subscript_expression" (ref "_type_query_subscript_expression"),
        renamed "member_expression" (ref "_type_query_member_expression"),
        renamed "call_expression" (ref "_type_query_call_expression"),
        renamed "instantiation_expression" (ref "_type_query_instantiation_expression"),
        ref "identifier", ref "this"]])),
  ("index_type_query", sequence ["keyof", ref "primary_type"]),
  ("lookup_type", sequence [ref "primary_type", "[", ref "type", "]"]),
  ("mapped_type_clause",
    sequence [
      field "name" (ref "_type_identifier"), "in", field "type" (ref "type"),
      opt (sequence ["as", field "alias" (ref "type")])]),
  ("literal_type",
    oneOf [
      renamed "unary_expression" (ref "_number"), ref "number", ref "string", ref "true",
      ref "false", ref "null", ref "undefined"]),
  ("_number",
    ranked (.level 1) (some .left) (sequence [
      field "operator" (oneOf ["-", "+"]), field "argument" (ref "number")])),
  ("existential_type", "*"),
  ("flow_maybe_type", right (sequence ["?", ref "primary_type"])),
  ("parenthesized_type", sequence ["(", ref "type", ")"]),
  ("predefined_type",
    oneOf [
      "any", "number", "boolean", "string", "symbol",
      naming (sequence ["unique", "symbol"]) ⟨"unique symbol", false⟩, "void", "unknown",
      "never", "object"])]

def typeParts : List (String × Grammar.Rule) := [
  ("type_arguments", sequence ["<", commas1 (ref "type"), opt ",", ">"]),
  ("object_type",
    sequence [
      oneOf ["\x7b", "\x7b|"],
      opt (sequence [
        opt (oneOf [",", ";"]),
        separated1 (oneOf [",", ref "_semicolon"]) (oneOf [
          ref "export_statement", ref "property_signature", ref "call_signature",
          ref "construct_signature", ref "index_signature", ref "method_signature"]),
        opt (oneOf [",", ref "_semicolon"])]),
      oneOf ["\x7d", "|\x7d"]]),
  ("call_signature", ref "_call_signature"),
  ("property_signature",
    sequence [
      opt (ref "accessibility_modifier"), opt "static", opt (ref "override_modifier"),
      opt "readonly", field "name" (ref "_property_name"), opt "?",
      field "type" (opt (ref "type_annotation"))]),
  ("type_parameters", sequence ["<", commas1 (ref "type_parameter"), opt ",", ">"]),
  ("type_parameter",
    sequence [
      opt "const", field "name" (ref "_type_identifier"),
      field "constraint" (opt (ref "constraint")), field "value" (opt (ref "default_type"))]),
  ("default_type", sequence ["=", ref "type"]),
  ("constraint", sequence [oneOf ["extends", ":"], ref "type"]),
  ("construct_signature",
    sequence [
      opt "abstract", "new", field "type_parameters" (opt (ref "type_parameters")),
      field "parameters" (ref "formal_parameters"), field "type" (opt (ref "type_annotation"))]),
  ("index_signature",
    sequence [
      opt (sequence [field "sign" (opt (oneOf ["-", "+"])), "readonly"]), "[",
      oneOf [
        sequence [
          field "name" (oneOf [
            ref "identifier", renamed "identifier" (ref "_reserved_identifier")]),
          ":", field "index_type" (ref "type")],
        ref "mapped_type_clause"],
      "]",
      field "type" (oneOf [
        ref "type_annotation", ref "omitting_type_annotation", ref "adding_type_annotation",
        ref "opting_type_annotation"])]),
  ("array_type", sequence [ref "primary_type", "[", "]"]),
  ("tuple_type", sequence ["[", commas (ref "_tuple_type_member"), opt ",", "]"]),
  ("readonly_type", sequence ["readonly", ref "type"]),
  ("union_type", left (sequence [opt (ref "type"), "|", ref "type"])),
  ("intersection_type", left (sequence [opt (ref "type"), "&", ref "type"])),
  ("function_type",
    left (sequence [
      field "type_parameters" (opt (ref "type_parameters")),
      field "parameters" (ref "formal_parameters"), "=>",
      field "return_type" (oneOf [ref "type", ref "asserts", ref "type_predicate"])])),
  ("_type_identifier", renamed "type_identifier" (ref "identifier"))]

def changes (markup : Bool) : List (String × Grammar.Rule) :=
  replaced ++ [("expression", expression markup)] ++ declarations ++ annotations ++ types
    ++ typeParts

def layout : List Grammar.Rule :=
  Plain.layout ++ [.ref "_function_signature_automatic_semicolon", .ref "__error_recovery"]

def families : List String := Plain.families ++ ["type", "primary_type"]

def inlined : List String :=
  Plain.inlined.filter (fun name => name ≠ "_formal_parameter" && name ≠ "_call_signature")
    ++ ["_type_identifier", "_jsx_start_opening_element"]

def ranks : List (List RankEntry) := Plain.ranks ++ [
  [.label "call", .label "instantiation", .label "unary", .label "binary",
   .rule "await_expression", .rule "arrow_function"],
  [.label "extends", .label "instantiation"],
  [.rule "intersection_type", .rule "union_type", .rule "conditional_type",
   .rule "function_type", .label "binary", .rule "type_predicate", .rule "readonly_type"],
  [.rule "mapped_type_clause", .rule "primary_expression"],
  [.rule "accessibility_modifier", .rule "primary_expression"],
  [.label "unary_void", .rule "expression"],
  [.rule "extends_clause", .rule "primary_expression"],
  [.label "unary", .label "assign"],
  [.label "declare", .rule "expression"],
  [.rule "predefined_type", .rule "unary_expression"],
  [.rule "type", .rule "flow_maybe_type"],
  [.rule "tuple_type", .rule "array_type", .rule "pattern", .rule "type"],
  [.rule "readonly_type", .rule "pattern"],
  [.rule "readonly_type", .rule "primary_expression"],
  [.rule "type_query", .rule "subscript_expression", .rule "expression"],
  [.rule "type_query", .rule "_type_query_subscript_expression"],
  [.rule "nested_type_identifier", .rule "generic_type", .rule "primary_type",
   .rule "lookup_type", .rule "index_type_query", .rule "type"],
  [.rule "as_expression", .rule "satisfies_expression", .rule "primary_type"],
  [.rule "_type_query_member_expression", .rule "member_expression"],
  [.rule "member_expression", .rule "_type_query_member_expression_in_type_annotation"],
  [.rule "_type_query_member_expression", .rule "primary_expression"],
  [.rule "_type_query_subscript_expression", .rule "subscript_expression"],
  [.rule "_type_query_subscript_expression", .rule "primary_expression"],
  [.rule "_type_query_call_expression", .rule "primary_expression"],
  [.rule "_type_query_instantiation_expression", .rule "primary_expression"],
  [.rule "type_query", .rule "primary_expression"],
  [.rule "override_modifier", .rule "primary_expression"],
  [.rule "decorator_call_expression", .rule "decorator"],
  [.rule "literal_type", .rule "pattern"],
  [.rule "predefined_type", .rule "pattern"],
  [.rule "call_expression", .rule "_type_query_call_expression"],
  [.rule "call_expression", .rule "_type_query_call_expression_in_type_annotation"],
  [.rule "new_expression", .rule "primary_expression"],
  [.rule "meta_property", .rule "primary_expression"],
  [.rule "construct_signature", .rule "_property_name"]]

def grammar (markup : Bool) : Grammar :=
  { Plain.grammar with
    rules := Grammar.override Plain.rules (changes markup), layout, families, inlined, ranks }

end ModuleTrace.Script.Typed
