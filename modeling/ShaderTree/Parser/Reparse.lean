import ShaderTree.Parser.Relex
import ShaderTree.Parser.Run

/-!
Parsing an edited text with the help of the old tree. Edits that cannot lead from the old text to
the new one are left out of account, and the text is parsed afresh.
-/
namespace ShaderTree.Parser

def lengthAfter (length : Int) (edits : List Edit) : Except Fault Int :=
  edits.foldlM (fun n e => do Word.checkSigned (n + (← e.delta))) length

/-- The map of the edits, if their lengths lead from the old text to the new one. -/
def editMap? (old : Document) (edits : List Edit) (newText : String) :
    Except Fault (Option EditMap) := do
  let length ← lengthAfter old.text.utf8ByteSize edits
  let map? ← EditMap.ofEdits? edits old.text.utf8ByteSize
  return if length = newText.utf8ByteSize then map? else none

def reparse (p : Parser) (old : Document) (edits : List Edit) (newText : String) :
    Except Fault Document :=
  if !p.options.reuse || old.table ≠ p.language.identity then p.parse newText
  else do
    match ← editMap? old edits newText with
    | none => p.parse newText
    | some map =>
      let tokens ← Relex.tokens old map newText
      p.runOn newText tokens (some (.ofDocument old map))

/-- A reparse is a parse, or a run over tokens of which some are the old ones. -/
theorem runOn_of_reparse {p : Parser} {old d : Document} {edits : List Edit} {newText : String}
    (parsed : p.reparse old edits newText = .ok d) :
    p.parse newText = .ok d ∨ ∃ map tokens, p.options.reuse = true ∧
      old.table = p.language.identity ∧ editMap? old edits newText = .ok (some map) ∧
      Relex.tokens old map newText = .ok tokens ∧
      p.runOn newText tokens (some (.ofDocument old map)) = .ok d := by
  unfold reparse at parsed
  split at parsed
  · exact .inl parsed
  · rename_i used
    obtain ⟨map?, mapped, parsed⟩ := bind_eq_ok.1 parsed
    cases map? with
    | none => exact .inl parsed
    | some map =>
      obtain ⟨tokens, relexed, parsed⟩ := bind_eq_ok.1 parsed
      have both : p.options.reuse = true ∧ old.table = p.language.identity := by simpa using used
      exact .inr ⟨map, tokens, both.1, both.2, mapped, relexed, parsed⟩

end ShaderTree.Parser
