import ShaderTree.Proofs.Metal.Table
import ShaderTree.Proofs.Parser.Plans

/-! Plans for texts of the built-in language, and what they are parsed to. -/
namespace ShaderTree.Metal

open Token (label)

/-- A token, with blanks in front of it or without. -/
def word (k : Kind) (text : String) : Plan := .token [] (k, text) .nil

def spaced (k : Kind) (text : String) : Plan := .token [(.whitespace, " ")] (k, text) .nil

/-- What a phrase is derived to through others, each of them alone in the one before it. -/
def through (phrases : List Phrase) (own : Plan) : Plan :=
  phrases.foldr (fun phrase own => .rule phrase.index own .nil) own

def parensPlan : Plan := word .lParen "(" ++ word .rParen ")"

/-- A type with a word for its name. -/
def typePlan (name : Plan) : Plan := through [.typeSpecifier, .builtinType] name

/-- A name with a list of parameters. -/
def functionPlan (name parameters : Plan) : Plan :=
  through [.declarator, .directDeclarator, .functionDeclarator]
    (through [.name] name ++ through [.parameterList] parameters)

theorem exists_node_of_plain {u v w : Tree} (plain : u.plain = v) (inside : w ∈ v.nodes) :
    ∃ x ∈ u.nodes, x.plain = w := by
  rw [← plain, Tree.nodes_plain] at inside
  exact List.mem_map.1 inside

/-- A text of a settled plan has a document, without reports and of the shape that was planned. -/
theorem exists_parse_of_plan {p : Parser} (built : table = .ok p.language.table) {plan : Plan}
    (settled : plan.settled meetings (.ofGrammar grammar) grammar = true) {text : String}
    (tokens : (Token.readAll text).map label = plan.labels) :
    ∃ d, p.parse text = .ok d ∧ d.diagnostics = [] ∧
      d.root.plain = .node .sourceFile {} (plan.forest grammar) := by
  obtain ⟨d, parsed⟩ := exists_parseTokens (p := p) built (fun _ => Token.isLexical_of_mem_readAll) text
  obtain ⟨quiet, root⟩ := Parser.root_of_plan covers_ahead checks_meetings built settled tokens parsed
  exact ⟨d, parsed, quiet, root⟩

/-! Namespaces without items -/

def namespaceLabels (name : String) : List Token.Label :=
  [(.namespaceKw, "namespace"), (.whitespace, " "), (.ident, name), (.lBrace, "\x7b"), (.rBrace, "\x7d")]

def namespaceTree (name : String) : Tree :=
  .node .namespaceDefinition {} ((namespaceLabels name).map fun l => .leaf l.1 l.2)

def namespacePlan (name : String) : Plan :=
  through [.namespaceDefinition]
    (word .namespaceKw "namespace" ++ spaced .ident name ++ word .lBrace "\x7b" ++ word .rBrace "\x7d")

/-- One namespace behind another. -/
def namespacesPlan (a b : String) : Plan :=
  through [.program, .items]
    (through [.items, .item] (namespacePlan a) ++ through [.item] (namespacePlan b))

theorem settled_namespaces (a b : String) :
    (namespacesPlan a b).settled meetings (.ofGrammar grammar) grammar = true := by
  have silent : (namespacesPlan "" "").silent.settled meetings (.ofGrammar grammar) grammar = true := by
    decide +kernel
  rw [← Plan.settled_silent]
  exact silent

/-- A text of two namespaces is parsed to them, whatever their names are. -/
theorem parse_namespaces {p : Parser} (built : table = .ok p.language.table) {text a b : String}
    (labels : (Token.readAll text).map label = namespaceLabels a ++ namespaceLabels b) :
    ∃ d, p.parse text = .ok d ∧ d.diagnostics = [] ∧
      d.root.plain = .node .sourceFile {} [namespaceTree a, namespaceTree b] :=
  exists_parse_of_plan built (settled_namespaces a b) labels

end ShaderTree.Metal
