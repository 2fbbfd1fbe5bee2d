import ParamThreading.Syntax.Rule

/-!
# The grammar of Go source files

What may follow a construct decides how its tokens are read, and is carried along as a `Follow`.

* Where a statement may end, a line break ends it; everywhere else it is white space.
* Where the block of a statement may follow, `T {` is not the beginning of a composite literal.
* Where a statement may go on with `<-`, `++` or `--`, these are read as one token.
* In the head of a switch, `.(type)` belongs to the switch.

A name with an index in brackets can be read as an indexed expression or as an instantiated type.
Followed by an argument list it is an instantiation whenever the index reads as a list of types;
with exactly one argument it is a conversion to the instantiated type, else a call.

* `Symbol`, `rule`  the symbols of the grammar and their rules;
* `parse`  the syntax tree of a text, if it has one.
-/

namespace ParamThreading

namespace Grammar

/-- What may follow a construct. -/
structure Follow where
  /-- A line break ends the construct. -/
  line : Bool
  /-- The block of a statement may come next. -/
  block : Bool
  /-- The statement may go on with `<-`, `++` or `--`. -/
  send : Bool
  /-- The `.(type)` of a switch may come next. -/
  guard : Bool
deriving DecidableEq, Repr

namespace Follow

/-- Inside brackets nothing but the closing one follows. -/
def inside : Follow := ⟨false, false, false, false⟩

def ending : Follow := ⟨true, false, false, false⟩

def beforeBlock : Follow := ⟨false, true, false, false⟩

end Follow

/-- The symbols of the grammar. A Boolean parameter of a type says whether a line break ends it. -/
inductive Symbol where
  | item
  | importSpec
  | constSpec
  | varSpec
  | typeSpec
  | typeAlias
  | typeParameters
  | parameters
  | parameter
  | result (line : Bool)
  | type (line : Bool)
  | simpleType (line : Bool)
  | typeName (line : Bool)
  | typeLiteral (line : Bool)
  | strongType
  | typeArguments
  | typeElem (line : Bool)
  | typeConstraint
  | channelType (line : Bool)
  | receiveOnly (line : Bool)
  | arrayType (line : Bool)
  | sliceType (line : Bool)
  | mapType (line : Bool)
  | functionType (line : Bool)
  | structType
  | interfaceType
  | fieldDeclaration
  | interfaceElem
  | block
  | statements
  | statement
  | declaration
  | simple (line block restBlock guard : Bool)
  | simpleTail (line restBlock guard : Bool)
  | assignTail (line : Bool) (right : Follow)
  | ifStatement
  | forStatement
  | typeSwitch
  | typeSwitchGuard
  | expressionSwitch
  | selectStatement
  | defaultCase
  | expressions (f : Follow)
  | expression (f : Follow) (level : Nat)
  | unary (f : Follow)
  | primary (f : Follow)
  | suffix (f : Follow)
  | operand (f : Follow)
  | named (f : Follow)
  | conversionTail
  | arguments
  | typedArguments
  | literalValue
  | literalElement
  | stringLiteral
deriving DecidableEq, Repr

open Rule

abbrev Production := Rule Symbol

def typeWords : List String :=
  ["func", "map", "chan", "struct", "interface"]

def operandWords : List String :=
  typeWords ++ ["new", "make", "nil", "true", "false", "iota"]

def statementWords : List String :=
  ["break", "case", "const", "continue", "default", "defer", "fallthrough", "for", "go", "goto",
    "if", "return", "select", "switch", "type", "var"]

/-- Operators that make a statement of an expression. -/
def statementMarks : List String :=
  ["<-", "++", "--"]

/-- Binary operators by how tightly they bind. -/
def binaryMarks : Nat → List String
  | 1 => ["||"]
  | 2 => ["&&"]
  | 3 => ["==", "!=", "<", "<=", ">", ">="]
  | 4 => ["+", "-", "|", "^"]
  | 5 => ["*", "/", "%", "<<", ">>", "&", "&^"]
  | _ => []

def assignMarks : List String :=
  ["*=", "/=", "%=", "<<=", ">>=", "&=", "&^=", "+=", "-=", "|=", "^="]

/-- The operators that go on where a binary operator ends. -/
def longerMarks (send : Bool) (s : String) : List String :=
  let all :=
    [1, 2, 3, 4, 5].flatMap binaryMarks ++ assignMarks ++ (if send then statementMarks else [])
  all.filter fun o => s.toList.isPrefixOf o.toList && o != s

def form (k : Kind) (rs : List Production) : Production :=
  .node k (seqs rs)

def key (w : String) : Production :=
  .token (.keyword w)

def mark (s : String) : Production :=
  .token (.mark s [])

def dot : Production := .token (.mark "." ["..."])

def colon : Production := .token (.mark ":" [":="])

def equals : Production := .token (.mark "=" ["=="])

/-- A rule that stays on the line where a line break would end what stands before it. -/
def kept (line : Bool) (r : Production) : Production :=
  if line then .seq .onLine r else r

def terminator : Production :=
  alts [.lineEnd, mark ";", mark "\x00"]

def list (r : Production) : Production :=
  .seq r (.many (.seq (mark ",") r))

/-- One or more of a rule with terminators between, and an optional one at the end. -/
def lines (r : Production) : Production :=
  seqs [r, .many (.seq terminator r), opt terminator]

/-- Where a terminator may be left out: what follows is more than one short token. -/
def unterminated : Production :=
  let single := alts [.token (.word []), .token (.cls .int), .token (.cls .float),
    .token (.cls .imaginary), .token (.cls .rune)]
  .notAhead (.seq single terminator)

/-- Any number of a rule, each with a terminator. The terminator may be left out, after the first
one only if that covers more than ten bytes. -/
def terminated (r : Production) : Production :=
  opt (.seq
    (.alt (.seq r terminator) (.seq (.wide 10 r) unterminated))
    (.many (.seq r (.alt terminator unterminated))))

def binaryMark (send line : Bool) (level : Nat) : Production :=
  kept line (alts ((binaryMarks level).map fun s => .token (.mark s (longerMarks send s))))

/-- An expression of the loosest level. -/
def expr (f : Follow) : Production :=
  .ref (.expression f 1)

def inner : Production := expr .inside

/-- A comparison with what may follow the literal of a type in the head of a statement: it is a
literal there only if the head goes on after it. -/
def headGoesOn : Production :=
  .ahead
    (.seq .onLine (alts (["\x7b", ".", "(", "[", ",", "=", "!", "<", ">", "+", "-", "*", "/", "%",
    "&", "|", "^", ":"].map mark)))

def functionDeclarationRule : Production :=
  form .functionDeclaration [key "func", .label .name (.leaf .identifier (.word [])),
    opt (.label .typeParameters (.ref .typeParameters)),
    .label .parameters (.ref .parameters),
    opt (.seq .onLine (.label .result (.ref (.result true)))),
    opt (.seq .onLine (.label .body (.ref .block)))]

def methodDeclarationRule : Production :=
  form .methodDeclaration [key "func", .label .receiver (.ref .parameters),
    .label .name (.leaf .fieldIdentifier (.word typeWords)),
    .label .parameters (.ref .parameters),
    opt (.seq .onLine (.label .result (.ref (.result true)))),
    opt (.seq .onLine (.label .body (.ref .block)))]

def itemRule : Production :=
  alts [
    form .packageClause [key "package", .leaf .packageIdentifier (.word [])],
    form .importDeclaration [key "import", alts [
      .ref .importSpec,
      form .importSpecList [mark "(", opt (lines (.ref .importSpec)), mark ")"]]],
    functionDeclarationRule,
    methodDeclarationRule,
    seqs [.notAhead (alts [key "package", key "import"]), .ref .statement]]

def importSpecRule : Production :=
  form .importSpec [
    opt (.label .name (alts [.leaf .dot (.mark "." []), .leaf .blankIdentifier (.keyword "_"),
      .leaf .packageIdentifier (.word [])])),
    .label .path (.ref .stringLiteral)]

def constSpecRule : Production :=
  let value := seqs [equals, .label .value (.ref (.expressions .ending))]
  let name := Rule.label .name (.leaf .identifier (.word []))
  form .constSpec [name, .many (seqs [.onLine, mark ",", name]),
    opt (.seq .onLine (alts [value, .seq (.label .type (.ref (.type false))) value]))]

def varSpecRule : Production :=
  let value := seqs [equals, .label .value (.ref (.expressions .ending))]
  form .varSpec [list (.label .name (.leaf .identifier (.word []))),
    alts [value, .seq (.label .type (.ref (.type true))) (opt (.seq .onLine value))]]

def typeSpecRule : Production :=
  let name := Rule.label .name (.leaf .typeIdentifier (.word []))
  alts [
    form .typeSpec [name, .label .type (.ref (.type true))],
    form .typeSpec [name, .label .typeParameters (.ref .typeParameters),
      .label .type (.ref (.type true))]]

def typeAliasRule : Production :=
  form .typeAlias [.label .name (.leaf .typeIdentifier (.word [])), equals,
    .label .type (.ref (.type true))]

def typeParametersRule : Production :=
  form .typeParameterList [mark "[",
    list (form .typeParameterDeclaration [list (.label .name (.leaf .identifier (.word []))),
      .label .type (.ref .typeConstraint)]),
    opt (mark ","), mark "]"]

def parametersRule : Production :=
  form .parameterList [mark "(", opt (list (.ref .parameter)), opt (mark ","), mark ")"]

def parameterRule : Production :=
  let name := Rule.label .name (.leaf .identifier (.word typeWords))
  let type := Rule.label .type (.ref (.type false))
  alts [
    form .variadicParameterDeclaration [opt name, mark "...", type],
    form .parameterDeclaration [list name, type],
    form .parameterDeclaration [type]]

def simpleTypeRule (line : Bool) : Production :=
  alts [
    .hold (.ref (.typeName line)) (alts [
      form .genericType [.label .type .held,
        .label .typeArguments (kept line (.ref .typeArguments))],
      .held]),
    form .pointerType [mark "*", .ref (.type line)],
    .ref (.typeLiteral line),
    .ref (.receiveOnly line),
    form .negatedType [mark "~", .ref (.type line)]]

def typeNameRule (line : Bool) : Production :=
  alts [
    form .qualifiedType [.label .package (.leaf .packageIdentifier (.word typeWords)),
      kept line dot, .label .name (.leaf .typeIdentifier (.word []))],
    .leaf .typeIdentifier (.word typeWords)]

/-- Types that cannot be read as an expression, the channels that only receive apart. -/
def typeLiteralRule (line : Bool) : Production :=
  alts [.ref (.sliceType line), .ref (.arrayType line), .ref (.mapType line), .ref .structType,
    .ref .interfaceType, .ref (.channelType line), .ref (.functionType line)]

/-- Types that win over the expression they can be read as, if any: literals and instantiations,
also behind stars and in parentheses. -/
def strongTypeRule : Production :=
  alts [
    form .parenthesizedType [mark "(", .ref .strongType, mark ")"],
    form .pointerType [mark "*", .ref .strongType],
    .ref (.typeLiteral false),
    .ref (.receiveOnly false),
    form .genericType [.label .type (.ref (.typeName false)),
      .label .typeArguments (.ref .typeArguments)]]

def typeArgumentsRule : Production :=
  form .typeArguments [mark "[", list (.ref (.typeElem false)), opt (mark ","), mark "]"]

def typeElemRule (k : Kind) (line : Bool) : Production :=
  let type := Rule.ref (Symbol.type line)
  form k [type, .many (.seq (kept line (.token (.mark "|" ["||", "|="]))) type)]

def channelTypeRule (line : Bool) : Production :=
  let value := Rule.label .value (.ref (.type line))
  alts [
    form .channelType [key "chan", value],
    form .channelType [key "chan", mark "<-", value]]

def functionTypeRule (line : Bool) : Production :=
  form .functionType [key "func", .label .parameters (.ref .parameters),
    opt (kept line (.label .result (.ref (.result line))))]

def structTypeRule : Production :=
  form .structType [key "struct", form .fieldDeclarationList [mark "\x7b",
    opt (lines (.ref .fieldDeclaration)), mark "\x7d"]]

def fieldDeclarationRule : Production :=
  let tag := opt (.seq .onLine (.label .tag (.ref .stringLiteral)))
  let finished := Rule.ahead (alts [terminator, mark "\x7d"])
  let embedded := Rule.hold (.ref (.typeName true)) (alts [
    form .genericType [.label .type .held,
      .label .typeArguments (.seq .onLine (.ref .typeArguments))],
    .held])
  alts [
    .seq (form .fieldDeclaration [opt (mark "*"), .label .type embedded, tag]) finished,
    form .fieldDeclaration [list (.label .name (.leaf .fieldIdentifier (.word []))),
      .label .type (.ref (.type true)), tag]]

def interfaceTypeRule : Production :=
  form .interfaceType [key "interface", mark "\x7b", opt (lines (.ref .interfaceElem)), mark "\x7d"]

def interfaceElemRule : Production :=
  alts [
    form .methodElem [.label .name (.leaf .fieldIdentifier (.word typeWords)), .onLine,
      .label .parameters (.ref .parameters),
      opt (.seq .onLine (.label .result (.ref (.result true))))],
    .ref (.typeElem true)]

def labelName : Production :=
  .label .label (.leaf .labelName (.word ["case", "default"]))

def statementsRule : Production :=
  let emptyLabeled := form .labeledStatement [labelName, colon]
  alts [
    seqs [.ref .statement, .many (.seq terminator (.ref .statement)),
      opt (.seq terminator (opt emptyLabeled))],
    emptyLabeled]

def declarationRule : Production :=
  alts [
    form .constDeclaration [key "const", alts [
      seqs [mark "(", terminated (.ref .constSpec), mark ")"],
      .ref .constSpec]],
    form .varDeclaration [key "var", alts [
      form .varSpecList [mark "(", terminated (.ref .varSpec), mark ")"],
      .ref .varSpec]],
    form .typeDeclaration [key "type", alts [
      seqs [mark "(", terminated (.alt (.ref .typeAlias) (.ref .typeSpec)), mark ")"],
      .ref .typeAlias,
      .ref .typeSpec]]]

def statementRule : Production :=
  let jump (k : Kind) (w : String) : Production :=
    form k [key w, opt (.seq .onLine (.leaf .labelName (.word ["case", "default"])))]
  alts [
    .ref .declaration,
    form .returnStatement [key "return",
      opt (seqs [.onLine, .notAhead (alts [key "case", key "default"]),
        .ref (.expressions .ending)])],
    form .goStatement [key "go", expr .ending],
    form .deferStatement [key "defer", expr .ending],
    .ref .ifStatement,
    .ref .forStatement,
    .ref .typeSwitch,
    .ref .expressionSwitch,
    .ref .selectStatement,
    form .fallthroughStatement [key "fallthrough"],
    jump .breakStatement "break",
    jump .continueStatement "continue",
    form .gotoStatement [key "goto", .leaf .labelName (.word [])],
    .ref .block,
    .leaf .emptyStatement (.mark ";" []),
    seqs [.notAhead (alts (statementWords.map key)), alts [
      form .labeledStatement [labelName, colon, .ref .statement],
      seqs [.notAhead (.seq (.token (.word [])) colon), .ref (.simple true false false false)]]]]

/-- The rest of a simple statement whose first expression is held. -/
def simpleTailRule (line restBlock guard : Bool) : Production :=
  let right : Follow := ⟨line, restBlock, false, guard⟩
  alts [
    .hold (form .expressionList [.held, kept line (mark ","), list inner])
      (.ref (.assignTail false right)),
    .hold (form .expressionList [.held]) (.ref (.assignTail line right)),
    form .incStatement [.held, kept line (mark "++")],
    form .decStatement [.held, kept line (mark "--")],
    form .sendStatement [.label .channel .held, kept line (mark "<-"), .label .value (expr right)],
    form .expressionStatement [.held]]

/-- An assignment or a short declaration whose left side is held. -/
def assignTailRule (line : Bool) (right : Follow) : Production :=
  let values := Rule.label .right (.ref (.expressions right))
  alts [
    form .shortVarDeclaration [.label .left .held, kept line (mark ":="), values],
    form .assignmentStatement [.label .left .held,
      .label .operator (kept line (alts (equals :: assignMarks.map mark))), values]]

def ifStatementRule : Production :=
  form .ifStatement [key "if",
    .hold (expr ⟨false, true, true, false⟩) (alts [
      seqs [.label .initializer (.ref (.simpleTail false false false)), mark ";",
        .label .condition (expr .beforeBlock)],
      .label .condition .held]),
    .label .consequence (.ref .block),
    opt (seqs [.onLine, key "else", .label .alternative (alts [.ref .block, .ref .ifStatement])])]

def forStatementRule : Production :=
  let ranged := seqs [key "range", .label .right (expr .beforeBlock)]
  let rest := seqs [mark ";", opt (.label .condition inner), mark ";",
    opt (.label .update (.ref (.simple false true true false)))]
  form .forStatement [key "for",
    alts [
      form .rangeClause [ranged],
      form .forClause [rest],
      .hold (expr ⟨false, true, true, false⟩) (alts [
        form .rangeClause [
          .label .left (form .expressionList [.held, .many (.seq (mark ",") inner)]),
          alts [mark ":=", equals], ranged],
        form .forClause [.label .initializer (.ref (.simpleTail false false false)), rest],
        .held]),
      .empty],
    .label .body (.ref .block)]

def typeSwitchRule : Production :=
  form .typeSwitchStatement [key "switch",
    alts [
      seqs [.label .initializer (.ref (.simple false true false true)), mark ";",
        .ref .typeSwitchGuard],
      .ref .typeSwitchGuard],
    mark "\x7b",
    .many (alts [
      form .typeCase [key "case", .label .type (list (.ref (.type false))), colon,
        opt (.ref .statements)],
      .ref .defaultCase]),
    mark "\x7d"]

def typeSwitchGuardRule : Production :=
  let ofType := seqs [dot, mark "(", key "type", mark ")"]
  .hold (expr ⟨false, true, true, true⟩) (alts [
    seqs [.label .alias (form .expressionList [.held, .many (.seq (mark ",") inner)]),
      mark ":=", .label .value (expr ⟨false, false, false, true⟩), ofType],
    seqs [.label .value .held, ofType]])

def expressionSwitchRule : Production :=
  form .expressionSwitchStatement [key "switch",
    opt (.hold (expr ⟨false, true, true, true⟩) (alts [
      seqs [.label .initializer (.ref (.simpleTail false false true)), mark ";",
        opt (.label .value (expr ⟨false, true, false, true⟩))],
      .label .value .held])),
    mark "\x7b",
    .many (alts [
      form .expressionCase [key "case", .label .value (.ref (.expressions .inside)), colon,
        opt (.ref .statements)],
      .ref .defaultCase]),
    mark "\x7d"]

def selectStatementRule : Production :=
  let communication := Rule.hold (expr ⟨false, false, true, false⟩) (alts [
    form .sendStatement [.label .channel .held, mark "<-", .label .value inner],
    .hold (form .expressionList [.held, .many (.seq (mark ",") inner)])
      (form .receiveStatement [.label .left .held, alts [mark ":=", equals], .label .right inner]),
    form .receiveStatement [.label .right .held]])
  form .selectStatement [key "select", mark "\x7b",
    .many (alts [
      form .communicationCase [key "case", .label .communication communication, colon,
        opt (.ref .statements)],
      .ref .defaultCase]),
    mark "\x7d"]

def unaryRule (f : Follow) : Production :=
  alts [
    .ref (.primary f),
    form .unaryExpression [
      .label .operator (alts (["+", "-", "!", "^", "*", "&", "<-"].map mark)),
      .label .operand (.ref (.unary f))]]

def expressionRule (f : Follow) (level : Nat) : Production :=
  grow (.ref (.unary f)) (alts (([1, 2, 3, 4, 5].filter (level ≤ ·)).map fun l =>
    form .binaryExpression [.label .left .held, .label .operator (binaryMark f.send f.line l),
      .label .right (.ref (.expression f (l + 1)))]))

def suffixRule (f : Follow) : Production :=
  let guarded : Production := if f.guard then .notAhead (key "type") else .empty
  let literalIndex := alts (["nil", "true", "false", "iota", "new", "make"].map key)
  alts [
    form .selectorExpression [.label .operand .held, kept f.line dot,
      .label .field (.leaf .fieldIdentifier (.word []))],
    form .typeAssertionExpression [.label .operand .held, kept f.line dot, mark "(", guarded,
      .label .type (.ref (.type false)), mark ")"],
    form .callExpression [.label .function .held, kept f.line .empty,
      .label .arguments (.ref .arguments)],
    form .callExpression [.label .function .held, kept f.line .empty,
      .notAhead (.seq (mark "[") literalIndex),
      .label .typeArguments (.ref .typeArguments), .label .arguments (.ref .arguments)],
    form .indexExpression [.label .operand .held, kept f.line (mark "["), .label .index inner,
      mark "]"],
    form .sliceExpression [.label .operand .held, kept f.line (mark "["),
      opt (.label .lower inner), colon,
      opt (.seq (.label .upper inner) (opt (.seq colon (.label .capacity inner)))), mark "]"]]

def conversionTailRule : Production :=
  form .typeConversionExpression [.label .type .held, mark "(", .label .operand inner,
    opt (mark ","), mark ")"]

def literalTail (block : Bool) : Production :=
  .seq (form .compositeLiteral [.label .type .held, .label .body (.ref .literalValue)])
    (if block then headGoesOn else .empty)

def operandRule (f : Follow) : Production :=
  let literal := Rule.ref Symbol.conversionTail
  alts [
    .leaf .intLiteral (.cls .int),
    .leaf .floatLiteral (.cls .float),
    .leaf .imaginaryLiteral (.cls .imaginary),
    .leaf .runeLiteral (.cls .rune),
    .ref .stringLiteral,
    .leaf .nilLiteral (.keyword "nil"),
    .leaf .trueLiteral (.keyword "true"),
    .leaf .falseLiteral (.keyword "false"),
    .leaf .iotaLiteral (.keyword "iota"),
    alts (["new", "make"].map fun w =>
      let name := Rule.leaf .identifier (.keyword w)
      let listed := kept f.line (.ahead (mark "("))
      alts [
        form .callExpression [.label .function name, listed,
          .label .arguments (.ref .typedArguments)],
        .seq name (.notAhead listed)]),
    form .funcLiteral [key "func", .label .parameters (.ref .parameters),
      opt (.label .result (.ref (.result false))), .label .body (.ref .block)],
    .hold (form .parenthesizedType [mark "(", .ref .strongType, mark ")"]) literal,
    form .parenthesizedExpression [mark "(", inner, mark ")"],
    .hold (form .pointerType [mark "*", .ref .strongType]) literal,
    .hold (.ref (.receiveOnly false)) literal,
    .hold (alts [.ref (.sliceType false), .ref (.arrayType false), .ref (.mapType false),
        .ref .structType])
      (alts [literalTail false, literal]),
    .hold (form .implicitLengthArrayType [mark "[", mark "...", mark "]",
      .label .element (.ref (.type false))]) (literalTail false),
    .hold (alts [.ref .interfaceType, .ref (.channelType false), .ref (.functionType false)])
      literal,
    .ref (.named f)]

/-- Operands that begin with a name: conversions, literals and instantiations of named types, and
the name itself. -/
def namedRule (f : Follow) : Production :=
  let first := Rule.token (.word operandWords)
  let several := alts [
    seqs [.ref (.type false), mark ",", opt (list (.ref (.type false))), opt (mark ",")],
    .seq (.ref (.typeLiteral false)) (opt (mark ","))]
  .seq (.ahead first) (alts [
    .hold (.ref (.typeName f.line)) (alts [
      .hold (form .genericType [.label .type .held,
          .label .typeArguments (kept f.line (.ref .typeArguments))])
        (alts [.ref .conversionTail, literalTail f.block]),
      form .typeInstantiationExpression [.label .type .held, kept f.line (mark "["), several,
        mark "]", .notAhead (mark "(")]]),
    .hold (form .qualifiedType [.label .package (.leaf .packageIdentifier (.word operandWords)),
        kept f.line dot, .label .name (.leaf .typeIdentifier (.word []))])
      (kept f.line (literalTail f.block)),
    .hold (.leaf .typeIdentifier (.word operandWords))
      (if f.block then .fail else kept f.line (literalTail false)),
    .leaf .identifier (.word operandWords)])

def argumentsRule : Production :=
  let argument := Rule.hold inner (alts [form .variadicArgument [.held, mark "..."], .held])
  form .argumentList [mark "(", opt (.seq (list argument) (opt (mark ","))), mark ")"]

def typedArgumentsRule : Production :=
  form .argumentList [mark "(",
    opt (seqs [.ref (.type false), .many (.seq (mark ",") inner), opt (mark ",")]), mark ")"]

def literalValueRule : Production :=
  let element := Rule.hold (.ref .literalElement) (alts [
    form .keyedElement [.label .key .held, colon, .label .value (.ref .literalElement)],
    .held])
  form .literalValue [mark "\x7b", opt (list element), opt (mark ","), mark "\x7d"]

def stringLiteralRule : Production :=
  alts [
    form .rawStringLiteral [.token (.cls .quote), .leaf .rawStringLiteralContent (.cls .raw),
      .token (.cls .quote)],
    form .interpretedStringLiteral [.token (.cls .quote),
      .many (alts [.leaf .interpretedStringLiteralContent (.cls .piece),
        .leaf .escapeSequence (.cls .escape)]),
      .token (.cls .quote)]]

def rule : Symbol → Production
  | .item => itemRule
  | .importSpec => importSpecRule
  | .constSpec => constSpecRule
  | .varSpec => varSpecRule
  | .typeSpec => typeSpecRule
  | .typeAlias => typeAliasRule
  | .typeParameters => typeParametersRule
  | .parameters => parametersRule
  | .parameter => parameterRule
  | .result line => alts [.ref .parameters, .ref (.simpleType line)]
  | .type line =>
    alts [form .parenthesizedType [mark "(", .ref (.type false), mark ")"], .ref (.simpleType line)]
  | .simpleType line => simpleTypeRule line
  | .typeName line => typeNameRule line
  | .typeLiteral line => typeLiteralRule line
  | .strongType => strongTypeRule
  | .typeArguments => typeArgumentsRule
  | .typeElem line => typeElemRule .typeElem line
  | .typeConstraint => typeElemRule .typeConstraint false
  | .channelType line => channelTypeRule line
  | .receiveOnly line =>
    form .channelType [mark "<-", key "chan", .label .value (.ref (.type line))]
  | .arrayType line =>
    form .arrayType [mark "[", .label .length inner, mark "]", .label .element (.ref (.type line))]
  | .sliceType line => form .sliceType [mark "[", mark "]", .label .element (.ref (.type line))]
  | .mapType line =>
    form .mapType [key "map", mark "[", .label .key (.ref (.type false)), mark "]",
      .label .value (.ref (.type line))]
  | .functionType line => functionTypeRule line
  | .structType => structTypeRule
  | .interfaceType => interfaceTypeRule
  | .fieldDeclaration => fieldDeclarationRule
  | .interfaceElem => interfaceElemRule
  | .block => form .block [mark "\x7b", opt (.ref .statements), mark "\x7d"]
  | .statements => statementsRule
  | .statement => statementRule
  | .declaration => declarationRule
  | .simple line block restBlock guard =>
    .hold (expr ⟨line, block, true, guard⟩) (.ref (.simpleTail line restBlock guard))
  | .simpleTail line restBlock guard => simpleTailRule line restBlock guard
  | .assignTail line right => assignTailRule line right
  | .ifStatement => ifStatementRule
  | .forStatement => forStatementRule
  | .typeSwitch => typeSwitchRule
  | .typeSwitchGuard => typeSwitchGuardRule
  | .expressionSwitch => expressionSwitchRule
  | .selectStatement => selectStatementRule
  | .defaultCase => form .defaultCase [key "default", colon, opt (.ref .statements)]
  | .expressions f =>
    form .expressionList [expr f, .many (.seq (kept f.line (mark ",")) (expr f))]
  | .expression f level => expressionRule f level
  | .unary f => unaryRule f
  | .primary f => grow (.ref (.operand f)) (.ref (.suffix f))
  | .suffix f => suffixRule f
  | .operand f => operandRule f
  | .named f => namedRule f
  | .conversionTail => conversionTailRule
  | .arguments => argumentsRule
  | .typedArguments => typedArgumentsRule
  | .literalValue => literalValueRule
  | .literalElement => form .literalElement [alts [.ref .literalValue, inner]]
  | .stringLiteral => stringLiteralRule

def sourceFile : Production :=
  terminated (.ref .item)

/-- The syntax tree of a text with the given tokens, if they are a sequence of items. The root
covers the text from its first token or comment to its end. -/
def treeOf (text : String) (tokens : List Token) : Option Node :=
  match sourceFile.run rule (100 * (tokens.length + 2)) none tokens with
  | some (items, [last]) =>
    if last.cls == .finish then
      some (.mk .sourceFile none (Token.width (text.toList.takeWhile Token.isSpace))
        text.utf8ByteSize items)
    else none
  | _ => none

def parse (text : String) : Option Node :=
  treeOf text (Token.scan text)

end Grammar

end ParamThreading
