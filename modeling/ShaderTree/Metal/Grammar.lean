import ShaderTree.Grammar.Basic

/-!
The grammar of the shading language: declarations, statements and expressions of C++14 with address
spaces, shader stages and double-bracket attributes. Templates are the builtin generic types only.
Two ambiguities are settled by precedence: `a * b;` is an expression and not the declaration of a
pointer, and `else` belongs to the nearest `if`.
-/
namespace ShaderTree.Metal

inductive Phrase where
  | program | items | item | functionDefinition | declaration | usingDeclaration
  | aliasDeclaration | namespaceDefinition
  | specifiers | qualifiers | qualifier | typeSpecifier | builtinType | namedType | path
  | templateArgList | templateArgs | templateArg | structSpecifier | fieldList | fields
  | fieldDeclaration | fieldDeclarators | fieldDeclarator | enumSpecifier | enumBase
  | enumeratorList | enumerators | enumerator
  | initDeclarators | initDeclarator | initializer | initializerList | initializerItems
  | declarator | directDeclarator | name | functionDeclarator | arrayDeclarator
  | pointerDeclarator | referenceDeclarator | parameterList | parameters | parameter
  | attrSpecifiers | attrSpecifier | attrs | attr | attrName
  | compoundStatement | statements | statement | expressionStatement | ifStatement
  | whileStatement | doStatement | forStatement | forInit | switchStatement | caseLabel
  | breakStatement | continueStatement | returnStatement
  | expression | assignmentExpr | conditionalExpr | binaryExpr | unaryExpr | postfixExpr
  | castExpr | callExpr | constructorExpr | indexExpr | fieldExpr | parenExpr | sizeofExpr
  | literal | nameRef | argList | arguments

namespace Phrase

def index (p : Phrase) : Nat := p.ctorIdx

def nonterminal : Phrase → Nonterminal
  | program => .hidden "program"
  | items => .hidden "items"
  | item => .hidden "item"
  | functionDefinition => .node .functionDefinition
  | declaration => .node .declaration
  | usingDeclaration => .node .usingDeclaration
  | aliasDeclaration => .node .aliasDeclaration
  | namespaceDefinition => .node .namespaceDefinition
  | specifiers => .hidden "specifiers"
  | qualifiers => .hidden "prefixes"
  | qualifier => .hidden "prefix"
  | typeSpecifier => .hidden "type_specifier"
  | builtinType => .node .builtinType
  | namedType => .node .namedType
  | path => .hidden "path"
  | templateArgList => .node .templateArgList
  | templateArgs => .hidden "template_arguments"
  | templateArg => .hidden "template_argument"
  | structSpecifier => .node .structSpecifier
  | fieldList => .node .fieldList
  | fields => .hidden "fields"
  | fieldDeclaration => .node .fieldDeclaration
  | fieldDeclarators => .hidden "field_declarators"
  | fieldDeclarator => .hidden "field_declarator"
  | enumSpecifier => .node .enumSpecifier
  | enumBase => .hidden "enum_base"
  | enumeratorList => .node .enumeratorList
  | enumerators => .hidden "enumerators"
  | enumerator => .node .enumerator
  | initDeclarators => .hidden "init_declarators"
  | initDeclarator => .node .initDeclarator
  | initializer => .hidden "initializer"
  | initializerList => .node .initializerList
  | initializerItems => .hidden "initializer_items"
  | declarator => .hidden "declarator"
  | directDeclarator => .hidden "direct_declarator"
  | name => .node .name
  | functionDeclarator => .node .functionDeclarator
  | arrayDeclarator => .node .arrayDeclarator
  | pointerDeclarator => .node .pointerDeclarator
  | referenceDeclarator => .node .referenceDeclarator
  | parameterList => .node .parameterList
  | parameters => .hidden "parameters"
  | parameter => .node .parameter
  | attrSpecifiers => .hidden "attribute_specifiers"
  | attrSpecifier => .node .attrSpecifier
  | attrs => .hidden "attributes"
  | attr => .node .attr
  | attrName => .hidden "attribute_name"
  | compoundStatement => .node .compoundStatement
  | statements => .hidden "statements"
  | statement => .hidden "statement"
  | expressionStatement => .node .expressionStatement
  | ifStatement => .node .ifStatement
  | whileStatement => .node .whileStatement
  | doStatement => .node .doStatement
  | forStatement => .node .forStatement
  | forInit => .hidden "for_init"
  | switchStatement => .node .switchStatement
  | caseLabel => .node .caseLabel
  | breakStatement => .node .breakStatement
  | continueStatement => .node .continueStatement
  | returnStatement => .node .returnStatement
  | expression => .hidden "expression"
  | assignmentExpr => .node .assignmentExpr
  | conditionalExpr => .node .conditionalExpr
  | binaryExpr => .node .binaryExpr
  | unaryExpr => .node .unaryExpr
  | postfixExpr => .node .postfixExpr
  | castExpr => .node .castExpr
  | callExpr => .node .callExpr
  | constructorExpr => .node .constructorExpr
  | indexExpr => .node .indexExpr
  | fieldExpr => .node .fieldExpr
  | parenExpr => .node .parenExpr
  | sizeofExpr => .node .sizeofExpr
  | literal => .node .literal
  | nameRef => .node .nameRef
  | argList => .node .argList
  | arguments => .hidden "arguments"

def all : List Phrase :=
  [.program, .items, .item, .functionDefinition, .declaration, .usingDeclaration,
    .aliasDeclaration, .namespaceDefinition, .specifiers, .qualifiers, .qualifier, .typeSpecifier,
    .builtinType, .namedType, .path, .templateArgList, .templateArgs, .templateArg,
    .structSpecifier, .fieldList, .fields, .fieldDeclaration, .fieldDeclarators, .fieldDeclarator,
    .enumSpecifier, .enumBase, .enumeratorList, .enumerators, .enumerator, .initDeclarators,
    .initDeclarator, .initializer, .initializerList, .initializerItems, .declarator,
    .directDeclarator, .name, .functionDeclarator, .arrayDeclarator, .pointerDeclarator,
    .referenceDeclarator, .parameterList, .parameters, .parameter, .attrSpecifiers,
    .attrSpecifier, .attrs, .attr, .attrName, .compoundStatement, .statements, .statement,
    .expressionStatement, .ifStatement, .whileStatement, .doStatement, .forStatement, .forInit,
    .switchStatement, .caseLabel, .breakStatement, .continueStatement, .returnStatement,
    .expression, .assignmentExpr, .conditionalExpr, .binaryExpr, .unaryExpr, .postfixExpr,
    .castExpr, .callExpr, .constructorExpr, .indexExpr, .fieldExpr, .parenExpr, .sizeofExpr,
    .literal, .nameRef, .argList, .arguments]

end Phrase

/-- The precedence levels, loosest first. -/
inductive Binding where
  | typeRef | valueRef | ifWithoutElse | elseBranch | assignment | ternary | logicalOr
  | logicalAnd | bitOr | bitXor | bitAnd | equality | relational | shift | additive
  | multiplicative | unary | suffix

namespace Binding

def index (b : Binding) : Nat := b.ctorIdx

def all : List Binding :=
  [typeRef, valueRef, ifWithoutElse, elseBranch, assignment, ternary, logicalOr, logicalAnd, bitOr,
    bitXor, bitAnd, equality, relational, shift, additive, multiplicative, unary, suffix]

def level : Binding → Level
  | typeRef => ⟨.nonassoc, []⟩
  | valueRef => ⟨.nonassoc, []⟩
  | ifWithoutElse => ⟨.nonassoc, [.ifKw]⟩
  | elseBranch => ⟨.nonassoc, [.elseKw]⟩
  | assignment => ⟨.right, [.eq, .plusEq, .minusEq, .starEq, .slashEq, .percentEq, .ampEq,
      .pipeEq, .caretEq, .shlEq, .shrEq]⟩
  | ternary => ⟨.right, [.question]⟩
  | logicalOr => ⟨.left, [.pipePipe]⟩
  | logicalAnd => ⟨.left, [.ampAmp]⟩
  | bitOr => ⟨.left, [.pipe]⟩
  | bitXor => ⟨.left, [.caret]⟩
  | bitAnd => ⟨.left, [.amp]⟩
  | equality => ⟨.left, [.eqEq, .bangEq]⟩
  | relational => ⟨.left, [.lt, .gt, .ltEq, .gtEq]⟩
  | shift => ⟨.left, [.shl, .gtJoint]⟩
  | additive => ⟨.left, [.plus, .minus]⟩
  | multiplicative => ⟨.left, [.star, .slash, .percent]⟩
  | unary => ⟨.right, [.bang, .tilde]⟩
  | suffix => ⟨.left, [.lParen, .lBracket, .dot, .arrow, .plusPlus, .minusMinus]⟩

end Binding

def t (k : Kind) : Symbol := .terminal k

def n (p : Phrase) : Symbol := .nonterminal p.index

def rule (lhs : Phrase) (rhs : List Symbol) : Production := ⟨lhs.index, rhs, none⟩

/-- A production with a level of its own. -/
def ruleAt (level : Binding) (lhs : Phrase) (rhs : List Symbol) : Production :=
  ⟨lhs.index, rhs, some level.index⟩

def itemRules : List Production := [
  rule .program [],
  rule .program [n .items],
  rule .items [n .item],
  rule .items [n .items, n .item],
  rule .item [n .functionDefinition],
  rule .item [n .declaration],
  rule .item [n .usingDeclaration],
  rule .item [n .aliasDeclaration],
  rule .item [n .namespaceDefinition],
  rule .functionDefinition [n .specifiers, n .declarator, n .compoundStatement],
  rule .functionDefinition [n .attrSpecifiers, n .specifiers, n .declarator,
    n .compoundStatement],
  rule .declaration [n .specifiers, t .semicolon],
  rule .declaration [n .specifiers, n .initDeclarators, t .semicolon],
  rule .declaration [n .attrSpecifiers, n .specifiers, t .semicolon],
  rule .declaration [n .attrSpecifiers, n .specifiers, n .initDeclarators, t .semicolon],
  rule .usingDeclaration [t .usingKw, t .namespaceKw, n .path, t .semicolon],
  rule .aliasDeclaration [t .usingKw, t .ident, t .eq, n .specifiers, t .semicolon],
  rule .namespaceDefinition [t .namespaceKw, t .ident, t .lBrace, t .rBrace],
  rule .namespaceDefinition [t .namespaceKw, t .ident, t .lBrace, n .items, t .rBrace]]

def typeRules : List Production := [
  rule .specifiers [n .typeSpecifier],
  rule .specifiers [n .qualifiers, n .typeSpecifier],
  rule .qualifiers [n .qualifier],
  rule .qualifiers [n .qualifiers, n .qualifier],
  rule .qualifier [t .constKw],
  rule .qualifier [t .constexprKw],
  rule .qualifier [t .constantKw],
  rule .qualifier [t .deviceKw],
  rule .qualifier [t .threadgroupKw],
  rule .qualifier [t .threadgroupImageblockKw],
  rule .qualifier [t .threadKw],
  rule .qualifier [t .staticKw],
  rule .qualifier [t .inlineKw],
  rule .qualifier [t .volatileKw],
  rule .qualifier [t .externKw],
  rule .qualifier [t .typedefKw],
  rule .qualifier [t .vertexKw],
  rule .qualifier [t .fragmentKw],
  rule .qualifier [t .kernelKw],
  rule .typeSpecifier [n .builtinType],
  rule .typeSpecifier [n .namedType],
  rule .typeSpecifier [n .structSpecifier],
  rule .typeSpecifier [n .enumSpecifier],
  rule .builtinType [t .primitiveType],
  rule .builtinType [t .primitiveType, n .templateArgList],
  ruleAt .typeRef .namedType [n .path],
  rule .path [t .ident],
  rule .path [n .path, t .colonColon, t .ident],
  rule .templateArgList [t .lt, n .templateArgs, t .gt],
  rule .templateArgList [t .lt, n .templateArgs, t .gtJoint],
  rule .templateArgs [n .templateArg],
  rule .templateArgs [n .templateArgs, t .comma, n .templateArg],
  rule .templateArg [n .specifiers],
  rule .templateArg [t .intNumber],
  rule .structSpecifier [t .structKw, t .ident],
  rule .structSpecifier [t .structKw, t .ident, n .fieldList],
  rule .structSpecifier [t .structKw, n .fieldList],
  rule .fieldList [t .lBrace, t .rBrace],
  rule .fieldList [t .lBrace, n .fields, t .rBrace],
  rule .fields [n .fieldDeclaration],
  rule .fields [n .fields, n .fieldDeclaration],
  rule .fieldDeclaration [n .specifiers, n .fieldDeclarators, t .semicolon],
  rule .fieldDeclarators [n .fieldDeclarator],
  rule .fieldDeclarators [n .fieldDeclarators, t .comma, n .fieldDeclarator],
  rule .fieldDeclarator [n .declarator],
  rule .fieldDeclarator [n .declarator, n .attrSpecifier],
  rule .enumSpecifier [t .enumKw, t .ident],
  rule .enumSpecifier [t .enumKw, n .enumeratorList],
  rule .enumSpecifier [t .enumKw, t .ident, n .enumeratorList],
  rule .enumSpecifier [t .enumKw, t .ident, t .colon, n .enumBase, n .enumeratorList],
  rule .enumSpecifier [t .enumKw, t .classKw, t .ident, n .enumeratorList],
  rule .enumSpecifier [t .enumKw, t .classKw, t .ident, t .colon, n .enumBase, n .enumeratorList],
  rule .enumBase [n .builtinType],
  rule .enumBase [n .namedType],
  rule .enumeratorList [t .lBrace, t .rBrace],
  rule .enumeratorList [t .lBrace, n .enumerators, t .rBrace],
  rule .enumeratorList [t .lBrace, n .enumerators, t .comma, t .rBrace],
  rule .enumerators [n .enumerator],
  rule .enumerators [n .enumerators, t .comma, n .enumerator],
  rule .enumerator [t .ident],
  rule .enumerator [t .ident, t .eq, n .expression]]

def declaratorRules : List Production := [
  rule .initDeclarators [n .initDeclarator],
  rule .initDeclarators [n .initDeclarators, t .comma, n .initDeclarator],
  rule .initDeclarator [n .declarator],
  rule .initDeclarator [n .declarator, n .attrSpecifier],
  rule .initDeclarator [n .declarator, t .eq, n .initializer],
  rule .initDeclarator [n .declarator, n .attrSpecifier, t .eq, n .initializer],
  rule .initializer [n .expression],
  rule .initializer [n .initializerList],
  rule .initializerList [t .lBrace, t .rBrace],
  rule .initializerList [t .lBrace, n .initializerItems, t .rBrace],
  rule .initializerList [t .lBrace, n .initializerItems, t .comma, t .rBrace],
  rule .initializerItems [n .initializer],
  rule .initializerItems [n .initializerItems, t .comma, n .initializer],
  rule .declarator [n .directDeclarator],
  rule .declarator [n .pointerDeclarator],
  rule .declarator [n .referenceDeclarator],
  rule .pointerDeclarator [t .star, n .declarator],
  rule .pointerDeclarator [t .star, n .qualifiers, n .declarator],
  rule .referenceDeclarator [t .amp, n .declarator],
  rule .directDeclarator [n .name],
  rule .directDeclarator [n .functionDeclarator],
  rule .directDeclarator [n .arrayDeclarator],
  rule .name [t .ident],
  rule .functionDeclarator [n .name, n .parameterList],
  rule .arrayDeclarator [n .directDeclarator, t .lBracket, t .rBracket],
  rule .arrayDeclarator [n .directDeclarator, t .lBracket, n .expression, t .rBracket],
  rule .parameterList [t .lParen, t .rParen],
  rule .parameterList [t .lParen, n .parameters, t .rParen],
  rule .parameters [n .parameter],
  rule .parameters [n .parameters, t .comma, n .parameter],
  rule .parameter [n .specifiers],
  rule .parameter [n .specifiers, n .attrSpecifier],
  rule .parameter [n .specifiers, n .declarator],
  rule .parameter [n .specifiers, n .declarator, n .attrSpecifier],
  rule .attrSpecifiers [n .attrSpecifier],
  rule .attrSpecifiers [n .attrSpecifiers, n .attrSpecifier],
  rule .attrSpecifier [t .lAttr, n .attrs, t .rBracket, t .rBracket],
  rule .attrs [n .attr],
  rule .attrs [n .attrs, t .comma, n .attr],
  rule .attr [n .attrName],
  rule .attr [n .attrName, n .argList],
  rule .attrName [t .ident],
  rule .attrName [t .primitiveType],
  rule .attrName [t .threadgroupKw],
  rule .attrName [t .vertexKw],
  rule .attrName [t .fragmentKw],
  rule .attrName [t .kernelKw]]

def statementRules : List Production := [
  rule .compoundStatement [t .lBrace, t .rBrace],
  rule .compoundStatement [t .lBrace, n .statements, t .rBrace],
  rule .statements [n .statement],
  rule .statements [n .statements, n .statement],
  rule .statement [n .compoundStatement],
  rule .statement [n .declaration],
  rule .statement [n .expressionStatement],
  rule .statement [n .ifStatement],
  rule .statement [n .whileStatement],
  rule .statement [n .doStatement],
  rule .statement [n .forStatement],
  rule .statement [n .switchStatement],
  rule .statement [n .caseLabel],
  rule .statement [n .breakStatement],
  rule .statement [n .continueStatement],
  rule .statement [n .returnStatement],
  rule .expressionStatement [t .semicolon],
  rule .expressionStatement [n .expression, t .semicolon],
  ruleAt .ifWithoutElse .ifStatement [t .ifKw, t .lParen, n .expression, t .rParen, n .statement],
  rule .ifStatement [t .ifKw, t .lParen, n .expression, t .rParen, n .statement, t .elseKw,
    n .statement],
  rule .whileStatement [t .whileKw, t .lParen, n .expression, t .rParen, n .statement],
  rule .doStatement [t .doKw, n .statement, t .whileKw, t .lParen, n .expression, t .rParen,
    t .semicolon],
  rule .forStatement [t .forKw, t .lParen, n .forInit, t .semicolon, t .rParen, n .statement],
  rule .forStatement [t .forKw, t .lParen, n .forInit, n .expression, t .semicolon, t .rParen,
    n .statement],
  rule .forStatement [t .forKw, t .lParen, n .forInit, t .semicolon, n .expression, t .rParen,
    n .statement],
  rule .forStatement [t .forKw, t .lParen, n .forInit, n .expression, t .semicolon,
    n .expression, t .rParen, n .statement],
  rule .forInit [n .declaration],
  rule .forInit [n .expressionStatement],
  rule .switchStatement [t .switchKw, t .lParen, n .expression, t .rParen, n .compoundStatement],
  rule .caseLabel [t .caseKw, n .expression, t .colon],
  rule .caseLabel [t .defaultKw, t .colon],
  rule .breakStatement [t .breakKw, t .semicolon],
  rule .continueStatement [t .continueKw, t .semicolon],
  rule .returnStatement [t .returnKw, t .semicolon],
  rule .returnStatement [t .returnKw, n .expression, t .semicolon]]

def expressionRules : List Production := [
  rule .expression [n .assignmentExpr],
  rule .expression [n .conditionalExpr],
  rule .expression [n .binaryExpr],
  rule .expression [n .unaryExpr],
  rule .expression [n .postfixExpr],
  rule .expression [n .castExpr],
  rule .expression [n .callExpr],
  rule .expression [n .constructorExpr],
  rule .expression [n .indexExpr],
  rule .expression [n .fieldExpr],
  rule .expression [n .parenExpr],
  rule .expression [n .sizeofExpr],
  rule .expression [n .literal],
  rule .expression [n .nameRef],
  rule .assignmentExpr [n .expression, t .eq, n .expression],
  rule .assignmentExpr [n .expression, t .plusEq, n .expression],
  rule .assignmentExpr [n .expression, t .minusEq, n .expression],
  rule .assignmentExpr [n .expression, t .starEq, n .expression],
  rule .assignmentExpr [n .expression, t .slashEq, n .expression],
  rule .assignmentExpr [n .expression, t .percentEq, n .expression],
  rule .assignmentExpr [n .expression, t .ampEq, n .expression],
  rule .assignmentExpr [n .expression, t .pipeEq, n .expression],
  rule .assignmentExpr [n .expression, t .caretEq, n .expression],
  rule .assignmentExpr [n .expression, t .shlEq, n .expression],
  rule .assignmentExpr [n .expression, t .shrEq, n .expression],
  ruleAt .ternary .conditionalExpr [n .expression, t .question, n .expression, t .colon,
    n .expression],
  rule .binaryExpr [n .expression, t .pipePipe, n .expression],
  rule .binaryExpr [n .expression, t .ampAmp, n .expression],
  rule .binaryExpr [n .expression, t .pipe, n .expression],
  rule .binaryExpr [n .expression, t .caret, n .expression],
  rule .binaryExpr [n .expression, t .amp, n .expression],
  rule .binaryExpr [n .expression, t .eqEq, n .expression],
  rule .binaryExpr [n .expression, t .bangEq, n .expression],
  rule .binaryExpr [n .expression, t .lt, n .expression],
  rule .binaryExpr [n .expression, t .gt, n .expression],
  rule .binaryExpr [n .expression, t .ltEq, n .expression],
  rule .binaryExpr [n .expression, t .gtEq, n .expression],
  rule .binaryExpr [n .expression, t .shl, n .expression],
  ruleAt .shift .binaryExpr [n .expression, t .gtJoint, t .gt, n .expression],
  rule .binaryExpr [n .expression, t .plus, n .expression],
  rule .binaryExpr [n .expression, t .minus, n .expression],
  rule .binaryExpr [n .expression, t .star, n .expression],
  rule .binaryExpr [n .expression, t .slash, n .expression],
  rule .binaryExpr [n .expression, t .percent, n .expression],
  ruleAt .unary .unaryExpr [t .minus, n .expression],
  ruleAt .unary .unaryExpr [t .plus, n .expression],
  ruleAt .unary .unaryExpr [t .bang, n .expression],
  ruleAt .unary .unaryExpr [t .tilde, n .expression],
  ruleAt .unary .unaryExpr [t .star, n .expression],
  ruleAt .unary .unaryExpr [t .amp, n .expression],
  ruleAt .unary .unaryExpr [t .plusPlus, n .expression],
  ruleAt .unary .unaryExpr [t .minusMinus, n .expression],
  rule .postfixExpr [n .expression, t .plusPlus],
  rule .postfixExpr [n .expression, t .minusMinus],
  ruleAt .unary .castExpr [t .lParen, n .builtinType, t .rParen, n .expression],
  rule .castExpr [t .staticCastKw, t .lt, n .specifiers, t .gt, t .lParen, n .expression,
    t .rParen],
  rule .castExpr [t .reinterpretCastKw, t .lt, n .specifiers, t .gt, t .lParen, n .expression,
    t .rParen],
  rule .castExpr [t .asTypeKw, t .lt, n .specifiers, t .gt, t .lParen, n .expression, t .rParen],
  rule .callExpr [n .expression, n .argList],
  rule .constructorExpr [n .builtinType, n .argList],
  rule .indexExpr [n .expression, t .lBracket, n .expression, t .rBracket],
  rule .fieldExpr [n .expression, t .dot, t .ident],
  rule .fieldExpr [n .expression, t .arrow, t .ident],
  rule .parenExpr [t .lParen, n .expression, t .rParen],
  rule .sizeofExpr [t .sizeofKw, t .lParen, n .specifiers, t .rParen],
  rule .literal [t .intNumber],
  rule .literal [t .floatNumber],
  rule .literal [t .string],
  rule .literal [t .char],
  rule .literal [t .trueKw],
  rule .literal [t .falseKw],
  ruleAt .valueRef .nameRef [n .path],
  rule .argList [t .lParen, t .rParen],
  rule .argList [t .lParen, n .arguments, t .rParen],
  rule .arguments [n .expression],
  rule .arguments [n .arguments, t .comma, n .expression]]

def grammar : Grammar where
  nonterminals := (Phrase.all.map Phrase.nonterminal).toArray
  levels := (Binding.all.map Binding.level).toArray
  productions :=
    (itemRules ++ typeRules ++ declaratorRules ++ statementRules ++ expressionRules).toArray
  start := Phrase.program.index

end ShaderTree.Metal
