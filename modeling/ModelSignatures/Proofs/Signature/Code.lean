import ModelSignatures.Proofs.Signature.Legible

/-!
# The code of methods and members

The code of a well-formed member, from its keyword to the last token before a comment, spells the
member. The same holds of the header of a declaration.
-/

namespace ModelSignatures

open Layout (tokens word symbol pieces EndsWord IsCodeBefore)

namespace Layout

/-- Whether the first token behind a layout touches it. -/
def touches (touching : Bool) : Layout → Bool
  | [] => touching
  | .token _ :: layout => touches true layout
  | _ :: layout => touches false layout

/-- The pieces of two layouts one behind the other are those of both, and at the seam it counts how
the first ends. -/
theorem pieces_append (touching : Bool) (first second : Layout) :
    pieces touching (first ++ second) =
      pieces touching first ++ pieces (touches touching first) second := by
  induction first generalizing touching with
  | nil => rfl
  | cons item first ih =>
    cases item with
    | token kind => exact congrArg (⟨kind, touching⟩ :: ·) (ih true)
    | _ => exact ih false

/-! ### Names of methods -/

/-- The name of a method is spelled as it is written, whatever stands in front. -/
theorem nameSpells_methodName {name : String} (h : IsMethodName name) (touching : Bool) :
    Method.NameSpells name (pieces touching (methodName name)) := by
  rcases h with hword | ⟨stem, c, hword, hc, rfl⟩
  · rw [methodName_of_isWord hword]
    exact .plain name touching
  · obtain ⟨s, hs, -⟩ := exists_suffixChar? hc
    rw [methodName_push hs]
    exact .suffixed stem touching hs

end Layout

open Layout (methodName nameSpells_methodName pieces_append
  map_kind_pieces)

/-! ### Parameters -/

/-- The mark of a parameter is written as its tokens. -/
theorem ParamKind.tokens_layout (kind : ParamKind) : tokens kind.layout = kind.kinds := by
  cases kind <;> rfl

namespace Param

/-- A parameter is spelled by what it is written as. -/
theorem WellFormed.spells {p : Param} (h : p.WellFormed) : p.Spells (tokens p.layout) := by
  obtain ⟨kind, type, name⟩ := p
  have hall : Param.Spells ⟨kind, type, name⟩
      (kind.kinds ++ (tokens (type.layout 0) ++ (name.map .word).toList)) :=
    .mk h.type.spells.2.2
  rw [Param.layout, Layout.tokens_append, Layout.tokens_append, ParamKind.tokens_layout,
    List.append_assoc]
  cases name <;> exact hall

end Param

/-! ### Overloads -/

namespace Overload

/-- Parameters between commas are listed by what they are written as. -/
theorem listed_commaSeparated {ps : List Param} (h : ∀ p ∈ ps, p.WellFormed) :
    Listed .comma Param.Spells ps (tokens (Layout.commaSeparated (ps.map Param.layout))) := by
  cases ps with
  | nil => exact .nil
  | cons p ps =>
    rw [List.map_cons, Layout.commaSeparated, Layout.intercalate_cons, Layout.tokens_append]
    refine .cons (h p List.mem_cons_self).spells ?_
    replace h := fun q hq ↦ h q (List.mem_cons_of_mem p hq)
    induction ps with
    | nil => exact .nil
    | cons q ps ih =>
      rw [List.map_cons, List.flatMap_cons, Layout.tokens_append]
      exact .cons (h q List.mem_cons_self).spells (ih fun q hq ↦ h q (List.mem_cons_of_mem _ hq))

/-- An overload is spelled by what it is written as. -/
theorem WellFormed.spells {o : Overload} (h : o.WellFormed) : o.Spells (tokens o.layout) := by
  have hall := Overload.Spells.mk (listed_commaSeparated h.params) h.result.spells.2.1
  simpa [Overload.layout, symbol] using hall

end Overload

/-! ### Methods -/

namespace Method

/-- The overloads below the first are each spelled behind a bar. -/
theorem repeated_flatMap {os : List Overload} (h : ∀ o ∈ os, o.WellFormed) (indent : Nat) :
    Repeated .pipe Overload.Spells os (tokens (os.flatMap fun o ↦
      .line indent :: symbol .pipe ++ [.space] ++ o.layout)) := by
  induction os with
  | nil => exact .nil
  | cons o os ih =>
    rw [List.flatMap_cons, Layout.tokens_append]
    exact .cons (h o List.mem_cons_self).spells (ih fun o ho ↦ h o (List.mem_cons_of_mem _ ho))

/-- A method is spelled behind its keyword by what it is written as. -/
theorem WellFormed.spells {m : Method} (h : m.WellFormed) (indent : Nat) :
    ∃ more, m.code indent = .token (.word "def") :: more ∧
      ∀ touching, m.Spells (pieces touching more) := by
  obtain ⟨name, singleton, overloads⟩ := m
  obtain ⟨hname, hne, hall⟩ := h
  rcases overloads with - | ⟨first, others⟩
  · exact absurd rfl hne
  · refine ⟨.space :: ((if singleton then word "self" ++ symbol .dot else []) ++
      (methodName name ++ (symbol .colon ++ ([.space] ++ (first.layout ++ others.flatMap fun o ↦
        .line (indent + barIndent ⟨name, singleton, first :: others⟩) :: symbol .pipe ++
          [.space] ++ o.layout))))), by simp [code, header, word], fun touching ↦ ?_⟩
    show Spells _ (pieces false _)
    rw [pieces_append, pieces_append]
    refine .mk ?_ (nameSpells_methodName hname _) (hall first List.mem_cons_self).spells
      (repeated_flatMap (fun o ho ↦ hall o (List.mem_cons_of_mem first ho))
        (indent + barIndent ⟨name, singleton, first :: others⟩)) ?_
    · rw [map_kind_pieces]
      cases singleton <;> rfl
    · rw [map_kind_pieces]
      simp [symbol]

end Method

/-! ### Members and headers -/

/-- A class with arguments is spelled by what it is written as. -/
theorem ClassType.WellFormed.spells {c : ClassType} (h : c.WellFormed) :
    c.Spells (tokens c.layout) := by
  obtain ⟨ks, hks, hspells⟩ := h.tokens_layout
  rw [hks]
  exact .mk h.named.nonempty hspells

namespace MemberContent

/-- The code of a well-formed member can be read back. -/
theorem WellFormed.isCodeBefore {content : MemberContent} (h : content.WellFormed) (indent : Nat)
    {after : List Char} (hafter : EndsWord after) : IsCodeBefore (content.code indent) after :=
  h.legible.isCodeBefore indent hafter

/-- The code of a well-formed member begins with its keyword and spells the member. -/
theorem WellFormed.spells {content : MemberContent} (h : content.WellFormed)
    (hline : content.isDeclaration = false) (indent : Nat) :
    ∃ text more, content.code indent = .token (.word text) :: more ∧
      content.Spells (pieces false (content.code indent)) := by
  cases content with
  | including mixin =>
    rw [WellFormed] at h
    refine ⟨_, _, rfl, .including rfl ?_⟩
    rw [map_kind_pieces]
    exact h.spells
  | extending mixin =>
    rw [WellFormed] at h
    refine ⟨_, _, rfl, .extending rfl ?_⟩
    rw [map_kind_pieces]
    exact h.spells
  | attr kind name type =>
    rw [WellFormed] at h
    have hcode : (attr kind name type).code indent =
        .token (.word kind.keyword) :: .space ::
          (methodName name ++ (symbol .colon ++ ([.space] ++ type.layout 0))) := by
      simp [code, word]
    refine ⟨_, _, hcode, ?_⟩
    rw [hcode]
    show Spells _ (_ :: pieces false _)
    rw [pieces_append]
    refine .attr rfl (nameSpells_methodName h.1 _) h.2.spells.2.2 ?_
    rw [map_kind_pieces]
    simp [symbol]
  | method m =>
    rw [WellFormed] at h
    obtain ⟨more, hcode, hspells⟩ := h.spells indent
    have hcode' : (method m).code indent = .token (.word "def") :: more := hcode
    refine ⟨_, _, hcode', ?_⟩
    rw [hcode']
    exact .method rfl (hspells true)
  | aliasing newName oldName =>
    rw [WellFormed] at h
    have hcode : (aliasing newName oldName).code indent =
        .token (.word "alias") :: .space ::
          (methodName newName ++ .space :: methodName oldName) := by
      simp [code, word]
    refine ⟨_, _, hcode, ?_⟩
    rw [hcode]
    show Spells _ (_ :: pieces false _)
    rw [pieces_append]
    exact .aliasing rfl (nameSpells_methodName h.1 _) (nameSpells_methodName h.2 _)
  | nested d => cases hline

end MemberContent

namespace DeclarationKind

/-- A header is code in front of all that ends a word. -/
theorem WellFormed.isCodeBefore {kind : DeclarationKind} (h : kind.WellFormed) {name : TypeName}
    (hname : name.WellFormed) {after : List Char} (hafter : EndsWord after) :
    IsCodeBefore (kind.header name) after :=
  h.legible.isCodeBefore hname.legible hafter

/-- A header is spelled by what it is written as, its keyword first. -/
theorem WellFormed.spells {kind : DeclarationKind} (h : kind.WellFormed) {name : TypeName}
    (hname : name.WellFormed) :
    ∃ text more, kind.header name = .token (.word text) :: more ∧
      kind.Spells name (tokens (kind.header name)) := by
  rcases kind with (- | superclass) | -
  · refine ⟨_, _, rfl, ?_⟩
    have hall := Spells.plainClass hname.nonempty
    rw [← name.tokens_layout] at hall
    exact hall
  · refine ⟨_, _, rfl, ?_⟩
    have hall := Spells.subclass hname.nonempty (h superclass rfl).spells
    rw [← name.tokens_layout] at hall
    simpa [header, word, symbol] using hall
  · refine ⟨_, _, rfl, ?_⟩
    have hall := Spells.ofModule hname.nonempty
    rw [← name.tokens_layout] at hall
    exact hall

end DeclarationKind

end ModelSignatures
