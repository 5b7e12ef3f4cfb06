/-!
Kinds of tokens and tree nodes. Terminals come first, in the order of the columns of a parse
table, and end with the end-of-input marker; the kinds of tree nodes follow.
-/
namespace ShaderTree

inductive Kind where
  | whitespace | lineComment | blockComment | preprocessor
  | ident | intNumber | floatNumber | string | char | primitiveType
  | lBrace | rBrace | lBracket | rBracket | lAttr | lParen | rParen | semicolon | colon
  | colonColon | comma | dot | arrow | question | eq | plusEq | minusEq | starEq | slashEq
  | percentEq | ampEq | pipeEq | caretEq | shlEq | shrEq | eqEq | bangEq | lt | gt | gtJoint
  | ltEq | gtEq | plus | minus | star | slash | percent | plusPlus | minusMinus | bang | tilde
  | amp | pipe | caret | ampAmp | pipePipe | shl
  | asTypeKw | breakKw | caseKw | classKw | constKw | constantKw | constexprKw | continueKw
  | defaultKw | deviceKw | doKw | elseKw | enumKw | externKw | falseKw | forKw | fragmentKw
  | ifKw | inlineKw | kernelKw | namespaceKw | reinterpretCastKw | returnKw | sizeofKw
  | staticKw | staticCastKw | structKw | switchKw | threadKw | threadgroupKw
  | threadgroupImageblockKw | trueKw | typedefKw | usingKw | vertexKw | volatileKw | whileKw
  | error | eof
  | sourceFile | functionDefinition | declaration | usingDeclaration | aliasDeclaration
  | namespaceDefinition
  | builtinType | namedType | structSpecifier | enumSpecifier | templateArgList | fieldList
  | fieldDeclaration | enumeratorList | enumerator
  | name | initDeclarator | functionDeclarator | arrayDeclarator | pointerDeclarator
  | referenceDeclarator | parameterList | parameter | attrSpecifier | attr | initializerList
  | compoundStatement | expressionStatement | ifStatement | whileStatement | doStatement
  | forStatement | switchStatement | caseLabel | breakStatement | continueStatement
  | returnStatement
  | assignmentExpr | conditionalExpr | binaryExpr | unaryExpr | postfixExpr | castExpr
  | callExpr | constructorExpr | indexExpr | fieldExpr | parenExpr | sizeofExpr | literal
  | nameRef | argList
  | missing
  deriving DecidableEq, Inhabited

namespace Kind

def index (k : Kind) : Nat := k.ctorIdx

def count : Nat := missing.index + 1

/-- How many terminals there are, the end of input included. -/
def terminalCount : Nat := eof.index + 1

def ofIndex? (n : Nat) : Option Kind := if n < count then some (Kind.ofNat n) else none

def all : List Kind := (List.range count).filterMap ofIndex?

def terminals : List Kind := (List.range terminalCount).filterMap ofIndex?

def isTrivia : Kind → Bool
  | whitespace | lineComment | blockComment | preprocessor => true
  | _ => false

def isTerminal (k : Kind) : Bool := k.index < terminalCount

def isKeyword (k : Kind) : Bool := asTypeKw.index ≤ k.index && k.index ≤ whileKw.index

def isPunctuation (k : Kind) : Bool := lBrace.index ≤ k.index && k.index ≤ shl.index

def isLiteral : Kind → Bool
  | intNumber | floatNumber | string | char => true
  | _ => false

def isError : Kind → Bool
  | error | missing => true
  | _ => false

def label : Kind → String
  | whitespace => "WHITESPACE"
  | lineComment => "LINE_COMMENT"
  | blockComment => "BLOCK_COMMENT"
  | preprocessor => "PREPROCESSOR"
  | ident => "IDENT"
  | intNumber => "INT_NUMBER"
  | floatNumber => "FLOAT_NUMBER"
  | string => "STRING"
  | char => "CHAR"
  | primitiveType => "PRIMITIVE_TYPE"
  | lBrace => "L_BRACE"
  | rBrace => "R_BRACE"
  | lBracket => "L_BRACKET"
  | rBracket => "R_BRACKET"
  | lAttr => "L_ATTR"
  | lParen => "L_PAREN"
  | rParen => "R_PAREN"
  | semicolon => "SEMICOLON"
  | colon => "COLON"
  | colonColon => "COLON_COLON"
  | comma => "COMMA"
  | dot => "DOT"
  | arrow => "ARROW"
  | question => "QUESTION"
  | eq => "EQ"
  | plusEq => "PLUS_EQ"
  | minusEq => "MINUS_EQ"
  | starEq => "STAR_EQ"
  | slashEq => "SLASH_EQ"
  | percentEq => "PERCENT_EQ"
  | ampEq => "AMP_EQ"
  | pipeEq => "PIPE_EQ"
  | caretEq => "CARET_EQ"
  | shlEq => "SHL_EQ"
  | shrEq => "SHR_EQ"
  | eqEq => "EQ_EQ"
  | bangEq => "BANG_EQ"
  | lt => "LT"
  | gt => "GT"
  | gtJoint => "GT_JOINT"
  | ltEq => "LT_EQ"
  | gtEq => "GT_EQ"
  | plus => "PLUS"
  | minus => "MINUS"
  | star => "STAR"
  | slash => "SLASH"
  | percent => "PERCENT"
  | plusPlus => "PLUS_PLUS"
  | minusMinus => "MINUS_MINUS"
  | bang => "BANG"
  | tilde => "TILDE"
  | amp => "AMP"
  | pipe => "PIPE"
  | caret => "CARET"
  | ampAmp => "AMP_AMP"
  | pipePipe => "PIPE_PIPE"
  | shl => "SHL"
  | asTypeKw => "AS_TYPE_KW"
  | breakKw => "BREAK_KW"
  | caseKw => "CASE_KW"
  | classKw => "CLASS_KW"
  | constKw => "CONST_KW"
  | constantKw => "CONSTANT_KW"
  | constexprKw => "CONSTEXPR_KW"
  | continueKw => "CONTINUE_KW"
  | defaultKw => "DEFAULT_KW"
  | deviceKw => "DEVICE_KW"
  | doKw => "DO_KW"
  | elseKw => "ELSE_KW"
  | enumKw => "ENUM_KW"
  | externKw => "EXTERN_KW"
  | falseKw => "FALSE_KW"
  | forKw => "FOR_KW"
  | fragmentKw => "FRAGMENT_KW"
  | ifKw => "IF_KW"
  | inlineKw => "INLINE_KW"
  | kernelKw => "KERNEL_KW"
  | namespaceKw => "NAMESPACE_KW"
  | reinterpretCastKw => "REINTERPRET_CAST_KW"
  | returnKw => "RETURN_KW"
  | sizeofKw => "SIZEOF_KW"
  | staticKw => "STATIC_KW"
  | staticCastKw => "STATIC_CAST_KW"
  | structKw => "STRUCT_KW"
  | switchKw => "SWITCH_KW"
  | threadKw => "THREAD_KW"
  | threadgroupKw => "THREADGROUP_KW"
  | threadgroupImageblockKw => "THREADGROUP_IMAGEBLOCK_KW"
  | trueKw => "TRUE_KW"
  | typedefKw => "TYPEDEF_KW"
  | usingKw => "USING_KW"
  | vertexKw => "VERTEX_KW"
  | volatileKw => "VOLATILE_KW"
  | whileKw => "WHILE_KW"
  | error => "ERROR"
  | eof => "EOF"
  | sourceFile => "SOURCE_FILE"
  | functionDefinition => "FUNCTION_DEFINITION"
  | declaration => "DECLARATION"
  | usingDeclaration => "USING_DECLARATION"
  | aliasDeclaration => "ALIAS_DECLARATION"
  | namespaceDefinition => "NAMESPACE_DEFINITION"
  | builtinType => "BUILTIN_TYPE"
  | namedType => "NAMED_TYPE"
  | structSpecifier => "STRUCT_SPECIFIER"
  | enumSpecifier => "ENUM_SPECIFIER"
  | templateArgList => "TEMPLATE_ARG_LIST"
  | fieldList => "FIELD_LIST"
  | fieldDeclaration => "FIELD_DECLARATION"
  | enumeratorList => "ENUMERATOR_LIST"
  | enumerator => "ENUMERATOR"
  | name => "NAME"
  | initDeclarator => "INIT_DECLARATOR"
  | functionDeclarator => "FUNCTION_DECLARATOR"
  | arrayDeclarator => "ARRAY_DECLARATOR"
  | pointerDeclarator => "POINTER_DECLARATOR"
  | referenceDeclarator => "REFERENCE_DECLARATOR"
  | parameterList => "PARAMETER_LIST"
  | parameter => "PARAMETER"
  | attrSpecifier => "ATTRIBUTE_SPECIFIER"
  | attr => "ATTRIBUTE"
  | initializerList => "INITIALIZER_LIST"
  | compoundStatement => "COMPOUND_STATEMENT"
  | expressionStatement => "EXPRESSION_STATEMENT"
  | ifStatement => "IF_STATEMENT"
  | whileStatement => "WHILE_STATEMENT"
  | doStatement => "DO_STATEMENT"
  | forStatement => "FOR_STATEMENT"
  | switchStatement => "SWITCH_STATEMENT"
  | caseLabel => "CASE_LABEL"
  | breakStatement => "BREAK_STATEMENT"
  | continueStatement => "CONTINUE_STATEMENT"
  | returnStatement => "RETURN_STATEMENT"
  | assignmentExpr => "ASSIGNMENT_EXPR"
  | conditionalExpr => "CONDITIONAL_EXPR"
  | binaryExpr => "BINARY_EXPR"
  | unaryExpr => "UNARY_EXPR"
  | postfixExpr => "POSTFIX_EXPR"
  | castExpr => "CAST_EXPR"
  | callExpr => "CALL_EXPR"
  | constructorExpr => "CONSTRUCTOR_EXPR"
  | indexExpr => "INDEX_EXPR"
  | fieldExpr => "FIELD_EXPR"
  | parenExpr => "PAREN_EXPR"
  | sizeofExpr => "SIZEOF_EXPR"
  | literal => "LITERAL"
  | nameRef => "NAME_REF"
  | argList => "ARG_LIST"
  | missing => "MISSING"

def ofLabel? (s : String) : Option Kind := all.find? fun k => k.label = s

def displayText? : Kind → Option String
  | lBrace => some "\x7b"
  | rBrace => some "\x7d"
  | lBracket => some "["
  | rBracket => some "]"
  | lAttr => some "[["
  | lParen => some "("
  | rParen => some ")"
  | semicolon => some ";"
  | colon => some ":"
  | colonColon => some "::"
  | comma => some ","
  | dot => some "."
  | arrow => some "->"
  | question => some "?"
  | eq => some "="
  | lt => some "<"
  | gt | gtJoint => some ">"
  | _ => none

def word? : Kind → Option String
  | asTypeKw => some "as_type"
  | breakKw => some "break"
  | caseKw => some "case"
  | classKw => some "class"
  | constKw => some "const"
  | constantKw => some "constant"
  | constexprKw => some "constexpr"
  | continueKw => some "continue"
  | defaultKw => some "default"
  | deviceKw => some "device"
  | doKw => some "do"
  | elseKw => some "else"
  | enumKw => some "enum"
  | externKw => some "extern"
  | falseKw => some "false"
  | forKw => some "for"
  | fragmentKw => some "fragment"
  | ifKw => some "if"
  | inlineKw => some "inline"
  | kernelKw => some "kernel"
  | namespaceKw => some "namespace"
  | reinterpretCastKw => some "reinterpret_cast"
  | returnKw => some "return"
  | sizeofKw => some "sizeof"
  | staticKw => some "static"
  | staticCastKw => some "static_cast"
  | structKw => some "struct"
  | switchKw => some "switch"
  | threadKw => some "thread"
  | threadgroupKw => some "threadgroup"
  | threadgroupImageblockKw => some "threadgroup_imageblock"
  | trueKw => some "true"
  | typedefKw => some "typedef"
  | usingKw => some "using"
  | vertexKw => some "vertex"
  | volatileKw => some "volatile"
  | whileKw => some "while"
  | _ => none

/-- How a message speaks of a kind: fixed text is quoted, classes of tokens are named. -/
def describe (k : Kind) : String :=
  match k.displayText?, k.word? with
  | some text, _ => "`" ++ text ++ "`"
  | none, some word => "`" ++ word ++ "`"
  | none, none =>
    match k with
    | eof => "end of input"
    | ident => "identifier"
    | primitiveType => "type"
    | intNumber | floatNumber | string | char => "literal"
    | _ => k.label.toLower

end Kind

end ShaderTree
