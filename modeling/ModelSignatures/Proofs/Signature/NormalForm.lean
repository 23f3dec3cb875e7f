import ModelSignatures.Proofs.Signature.Annotations

/-!
# Normal forms

A tree that reading answers with is in normal form at every depth. Whatever parentheses, marks and
comments a text has, each of them is kept in one place of the tree or in none.
-/

namespace ModelSignatures

/-- A text that some delimiters of an annotation can stand around: the closing one does not occur in
it. -/
def IsDelimitable (text : String) : Prop :=
  ∃ pair ∈ annotationDelimiters, pair.2 ∉ text.toList

/-- The text of an annotation that was read stood between delimiters. -/
theorem isDelimitable_of_mem_annotTexts {ks : List TokenKind} (h : ∀ kind ∈ ks, kind.Lexed)
    {text : String} (htext : text ∈ annotTexts ks) : IsDelimitable text :=
  h (.annot text) (mem_annotTexts.1 htext)

namespace Signature

/-- A signature that some text is read as. It is well shaped: all names are words and told apart by
their kind, a union has members and an optional type is optional once, a method can be called, each
comment fits on its line, no empty line is kept before a first member, and a declaration inside
another leaves its comments and its annotations to the member that it is. Its annotations can be
delimited, but perhaps not by the delimiters that they would be written with. -/
structure IsNormal (s : Signature) : Prop extends s.WellShaped where
  annotations : ∀ text ∈ s.annotations, IsDelimitable text

/-- Reading only builds trees in normal form. -/
theorem isNormal_of_parse {source : String} {s : Signature} (h : parse source = .ok s) :
    s.IsNormal := by
  obtain ⟨tokens, htokens, hs⟩ := Except.bind_eq_ok_iff.1 h
  refine ⟨wellShaped_of_parse h, ?_⟩
  rw [annotations_of_ofTokens hs]
  intro text htext
  refine isDelimitable_of_mem_annotTexts (List.forall_mem_map.2 fun t ht ↦ ?_) htext
  exact ((Token.wellPlaced_of_tokenize htokens).1 t ht).1

theorem isNormal_of_parse_nested :
    let source := "class A\n\n  # c\n  module M end # e\n  %a(x\x7d) attr_reader a?: ((B?)?)?\nend"
    let text := "class A\n  # c\n  module M\n  end # e\n  %a(x\x7d)\n  attr_reader a?: B?\nend\n"
    ∃ s, parse source = .ok s ∧ s.IsNormal ∧ s.annotations = ["x\x7d"] ∧ s.text = text := by
  intro source text
  have hread : ((parse source).toOption.any fun s ↦ s.annotations = ["x\x7d"] ∧ s.text = text) =
      true := by
    decide +kernel
  cases h : parse source with
  | error e =>
    rw [h] at hread
    cases hread
  | ok s =>
    rw [h] at hread
    exact ⟨s, rfl, isNormal_of_parse h, of_decide_eq_true hread⟩

end Signature

end ModelSignatures
