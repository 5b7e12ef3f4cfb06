import ShaderTree.Session

/-! Which documents there are: what parsers give for a text, what they give for a changed text with
the help of such a document, and these documents with their nodes numbered. -/
namespace ShaderTree

/-- Numbers the nodes that are new. -/
def Document.numbered (d : Document) (next : Nat) : Document :=
  { d with root := (d.root.numberFrom next).1 }

/-- Documents of a text that parsers lead to, whose languages are of a certain sort. Languages and
options may change from one parse to the next. -/
inductive Parsed (speaks : Language → Prop) : String → Document → Prop
  | parse {p : Parser} {text : String} {d : Document} (known : speaks p.language)
      (parsed : p.parse text = .ok d) : Parsed speaks text d
  | reparse {p : Parser} {text newText : String} {old d : Document} {changes : List Change}
      {edits : List Edit} (known : speaks p.language) (before : Parsed speaks text old)
      (changed : Change.applyAll text changes = .ok (edits, newText))
      (parsed : p.reparse old edits newText = .ok d) : Parsed speaks newText d
  | number {text : String} {d : Document} (next : Nat) (before : Parsed speaks text d) :
      Parsed speaks text (d.numbered next)

/-- What languages of one sort lead to, those of a wider sort lead to as well. -/
theorem Parsed.mono {narrow wide : Language → Prop} (wider : ∀ l, narrow l → wide l) {text : String}
    {d : Document} (h : Parsed narrow text d) : Parsed wide text d := by
  induction h with
  | parse known parsed => exact .parse (wider _ known) parsed
  | reparse known _ changed parsed ih => exact .reparse (wider _ known) ih changed parsed
  | number next _ ih => exact .number next ih

/-- Documents that parsers lead to without a report on the way. -/
inductive ParsedQuietly (speaks : Language → Prop) : String → Document → Prop
  | parse {p : Parser} {text : String} {d : Document} (known : speaks p.language)
      (parsed : p.parse text = .ok d) (quiet : d.diagnostics = []) : ParsedQuietly speaks text d
  | reparse {p : Parser} {text newText : String} {old d : Document} {changes : List Change}
      {edits : List Edit} (known : speaks p.language) (before : ParsedQuietly speaks text old)
      (changed : Change.applyAll text changes = .ok (edits, newText))
      (parsed : p.reparse old edits newText = .ok d) (quiet : d.diagnostics = []) :
      ParsedQuietly speaks newText d
  | number {text : String} {d : Document} (next : Nat) (before : ParsedQuietly speaks text d) :
      ParsedQuietly speaks text (d.numbered next)

theorem ParsedQuietly.parsed {speaks : Language → Prop} {text : String} {d : Document}
    (h : ParsedQuietly speaks text d) : Parsed speaks text d := by
  induction h with
  | parse known parsed _ => exact .parse known parsed
  | reparse known _ changed parsed _ ih => exact .reparse known ih changed parsed
  | number next _ ih => exact .number next ih

namespace Tree

mutual

@[simp] theorem leaves_numberFrom (next : Nat) (t : Tree) :
    (numberFrom next t).1.leaves = t.leaves := by
  cases t with
  | leaf k text => rfl
  | node k m cs =>
    have below := leavesAll_numberAllFrom (next + 1) cs
    rw [numberFrom]
    split
    · rfl
    · rw [leaves, leaves, ← below]

@[simp] theorem leavesAll_numberAllFrom (next : Nat) (ts : List Tree) :
    leavesAll (numberAllFrom next ts).1 = leavesAll ts := by
  cases ts with
  | nil => rfl
  | cons t ts =>
    have first := leaves_numberFrom next t
    have others := leavesAll_numberAllFrom (numberFrom next t).2 ts
    rw [numberAllFrom]
    dsimp only
    rw [leavesAll, first, others, leavesAll]

end

end Tree

end ShaderTree
