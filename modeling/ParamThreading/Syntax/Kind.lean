/-!
# Kinds of nodes and roles of children

The kinds of nodes in the syntax tree of a Go source file, and the roles that children play in their
parents.

* `Kind`  what a node is, with `Kind.token` for punctuation and keywords;
* `Kind.name`  the name under which a kind is reported;
* `Kind.describe`  the phrase that messages use for a kind;
* `Role`  the part that a child plays in its parent.
-/

namespace ParamThreading

/-- What a node of the syntax tree is. -/
inductive Kind where
  | token
  | sourceFile
  | packageClause
  | importDeclaration
  | importSpec
  | dot
  | blankIdentifier
  | importSpecList
  | constDeclaration
  | constSpec
  | varDeclaration
  | varSpec
  | varSpecList
  | functionDeclaration
  | methodDeclaration
  | typeParameterList
  | typeParameterDeclaration
  | parameterList
  | parameterDeclaration
  | variadicParameterDeclaration
  | typeAlias
  | typeDeclaration
  | typeSpec
  | expressionList
  | parenthesizedType
  | genericType
  | typeArguments
  | pointerType
  | arrayType
  | implicitLengthArrayType
  | sliceType
  | structType
  | negatedType
  | fieldDeclarationList
  | fieldDeclaration
  | interfaceType
  | methodElem
  | typeElem
  | typeConstraint
  | mapType
  | channelType
  | functionType
  | block
  | emptyStatement
  | expressionStatement
  | sendStatement
  | receiveStatement
  | incStatement
  | decStatement
  | assignmentStatement
  | shortVarDeclaration
  | labeledStatement
  | fallthroughStatement
  | breakStatement
  | continueStatement
  | gotoStatement
  | returnStatement
  | goStatement
  | deferStatement
  | ifStatement
  | forStatement
  | forClause
  | rangeClause
  | expressionSwitchStatement
  | expressionCase
  | defaultCase
  | typeSwitchStatement
  | typeCase
  | selectStatement
  | communicationCase
  | parenthesizedExpression
  | callExpression
  | variadicArgument
  | argumentList
  | selectorExpression
  | indexExpression
  | sliceExpression
  | typeAssertionExpression
  | typeConversionExpression
  | typeInstantiationExpression
  | compositeLiteral
  | literalValue
  | literalElement
  | keyedElement
  | funcLiteral
  | unaryExpression
  | binaryExpression
  | qualifiedType
  | identifier
  | typeIdentifier
  | fieldIdentifier
  | packageIdentifier
  | labelName
  | rawStringLiteral
  | rawStringLiteralContent
  | interpretedStringLiteral
  | interpretedStringLiteralContent
  | escapeSequence
  | intLiteral
  | floatLiteral
  | imaginaryLiteral
  | runeLiteral
  | nilLiteral
  | trueLiteral
  | falseLiteral
  | iotaLiteral
deriving DecidableEq, Repr, Inhabited

namespace Kind

/-- The name under which a kind is reported. -/
def name : Kind → String
  | .token => ""
  | .sourceFile => "source_file"
  | .packageClause => "package_clause"
  | .importDeclaration => "import_declaration"
  | .importSpec => "import_spec"
  | .dot => "dot"
  | .blankIdentifier => "blank_identifier"
  | .importSpecList => "import_spec_list"
  | .constDeclaration => "const_declaration"
  | .constSpec => "const_spec"
  | .varDeclaration => "var_declaration"
  | .varSpec => "var_spec"
  | .varSpecList => "var_spec_list"
  | .functionDeclaration => "function_declaration"
  | .methodDeclaration => "method_declaration"
  | .typeParameterList => "type_parameter_list"
  | .typeParameterDeclaration => "type_parameter_declaration"
  | .parameterList => "parameter_list"
  | .parameterDeclaration => "parameter_declaration"
  | .variadicParameterDeclaration => "variadic_parameter_declaration"
  | .typeAlias => "type_alias"
  | .typeDeclaration => "type_declaration"
  | .typeSpec => "type_spec"
  | .expressionList => "expression_list"
  | .parenthesizedType => "parenthesized_type"
  | .genericType => "generic_type"
  | .typeArguments => "type_arguments"
  | .pointerType => "pointer_type"
  | .arrayType => "array_type"
  | .implicitLengthArrayType => "implicit_length_array_type"
  | .sliceType => "slice_type"
  | .structType => "struct_type"
  | .negatedType => "negated_type"
  | .fieldDeclarationList => "field_declaration_list"
  | .fieldDeclaration => "field_declaration"
  | .interfaceType => "interface_type"
  | .methodElem => "method_elem"
  | .typeElem => "type_elem"
  | .typeConstraint => "type_constraint"
  | .mapType => "map_type"
  | .channelType => "channel_type"
  | .functionType => "function_type"
  | .block => "block"
  | .emptyStatement => "empty_statement"
  | .expressionStatement => "expression_statement"
  | .sendStatement => "send_statement"
  | .receiveStatement => "receive_statement"
  | .incStatement => "inc_statement"
  | .decStatement => "dec_statement"
  | .assignmentStatement => "assignment_statement"
  | .shortVarDeclaration => "short_var_declaration"
  | .labeledStatement => "labeled_statement"
  | .fallthroughStatement => "fallthrough_statement"
  | .breakStatement => "break_statement"
  | .continueStatement => "continue_statement"
  | .gotoStatement => "goto_statement"
  | .returnStatement => "return_statement"
  | .goStatement => "go_statement"
  | .deferStatement => "defer_statement"
  | .ifStatement => "if_statement"
  | .forStatement => "for_statement"
  | .forClause => "for_clause"
  | .rangeClause => "range_clause"
  | .expressionSwitchStatement => "expression_switch_statement"
  | .expressionCase => "expression_case"
  | .defaultCase => "default_case"
  | .typeSwitchStatement => "type_switch_statement"
  | .typeCase => "type_case"
  | .selectStatement => "select_statement"
  | .communicationCase => "communication_case"
  | .parenthesizedExpression => "parenthesized_expression"
  | .callExpression => "call_expression"
  | .variadicArgument => "variadic_argument"
  | .argumentList => "argument_list"
  | .selectorExpression => "selector_expression"
  | .indexExpression => "index_expression"
  | .sliceExpression => "slice_expression"
  | .typeAssertionExpression => "type_assertion_expression"
  | .typeConversionExpression => "type_conversion_expression"
  | .typeInstantiationExpression => "type_instantiation_expression"
  | .compositeLiteral => "composite_literal"
  | .literalValue => "literal_value"
  | .literalElement => "literal_element"
  | .keyedElement => "keyed_element"
  | .funcLiteral => "func_literal"
  | .unaryExpression => "unary_expression"
  | .binaryExpression => "binary_expression"
  | .qualifiedType => "qualified_type"
  | .identifier => "identifier"
  | .typeIdentifier => "type_identifier"
  | .fieldIdentifier => "field_identifier"
  | .packageIdentifier => "package_identifier"
  | .labelName => "label_name"
  | .rawStringLiteral => "raw_string_literal"
  | .rawStringLiteralContent => "raw_string_literal_content"
  | .interpretedStringLiteral => "interpreted_string_literal"
  | .interpretedStringLiteralContent => "interpreted_string_literal_content"
  | .escapeSequence => "escape_sequence"
  | .intLiteral => "int_literal"
  | .floatLiteral => "float_literal"
  | .imaginaryLiteral => "imaginary_literal"
  | .runeLiteral => "rune_literal"
  | .nilLiteral => "nil"
  | .trueLiteral => "true"
  | .falseLiteral => "false"
  | .iotaLiteral => "iota"

/-- Punctuation and keywords make unnamed nodes, everything else makes named ones. -/
def isNamed (k : Kind) : Bool :=
  k != .token

/-- The phrase for a kind in a message: the usual word for the common ones, else its name with
blanks for underscores. -/
def describe (k : Kind) : String :=
  match k with
  | .funcLiteral => "function literal"
  | .parameterDeclaration => "parameter"
  | .callExpression => "function call"
  | .identifier | .fieldIdentifier | .typeIdentifier | .packageIdentifier => "identifier"
  | k => String.ofList (k.name.toList.map fun c => if c == '_' then ' ' else c)

end Kind

/-- The part that a child plays in its parent. -/
inductive Role where
  | name
  | typeParameters
  | parameters
  | result
  | body
  | receiver
  | type
  | typeArguments
  | length
  | element
  | tag
  | key
  | value
  | channel
  | left
  | right
  | operator
  | label
  | initializer
  | condition
  | consequence
  | alternative
  | update
  | alias
  | communication
  | function
  | arguments
  | operand
  | field
  | index
  | lower
  | upper
  | capacity
  | package
  | path
deriving DecidableEq, Repr, Inhabited

end ParamThreading
