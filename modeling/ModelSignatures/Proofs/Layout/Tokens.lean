import ModelSignatures.Layout
import ModelSignatures.Proofs.Token.Tokenized

/-!
# The tokens of a laid out text

A layout whose tokens are legible and do not run into each other is *readable*: if its annotations
are well formed, then its text is read as the tokens of the layout, each at the place where it was
written (`tokenize_text`). Readability is a property of a layout and the characters behind it, so
that it can be checked piece by piece (`readable_append`).
-/

namespace ModelSignatures

namespace Layout

@[simp] theorem tokens_nil : tokens [] = [] := rfl

@[simp] theorem tokens_line (indent : Nat) (layout : Layout) :
    tokens (.line indent :: layout) = tokens layout := rfl

@[simp] theorem tokens_blank (layout : Layout) : tokens (.blank :: layout) = tokens layout := rfl

@[simp] theorem tokens_space (layout : Layout) : tokens (.space :: layout) = tokens layout := rfl

@[simp] theorem tokens_token (kind : TokenKind) (layout : Layout) :
    tokens (.token kind :: layout) = kind :: tokens layout := rfl

/-- The tokens of two layouts one behind the other are those of both. -/
@[simp] theorem tokens_append (first second : Layout) :
    tokens (first ++ second) = tokens first ++ tokens second :=
  List.filterMap_append

theorem chars_token (kind : TokenKind) : (Item.token kind).chars = kind.spelling := rfl

/-! ### Readable layouts -/

/-- Whether each token of the layout is legible and ends before what follows it, where the
characters `after` follow the layout. -/
def Readable : Layout → (after : List Char) → Prop
  | [], _ => True
  | .token kind :: layout, after =>
    kind.Legible ∧ kind.EndsBefore (chars layout ++ after) ∧ Readable layout after
  | _ :: layout, after => Readable layout after

@[simp] theorem readable_nil (after : List Char) : Readable [] after := trivial

/-- A token that stands first is readable if it is legible and what follows does not go on with it.
-/
@[simp] theorem readable_token (kind : TokenKind) (layout : Layout) (after : List Char) :
    Readable (.token kind :: layout) after ↔
      kind.Legible ∧ kind.EndsBefore (chars layout ++ after) ∧ Readable layout after :=
  Iff.rfl

@[simp] theorem readable_line (indent : Nat) (layout : Layout) (after : List Char) :
    Readable (.line indent :: layout) after ↔ Readable layout after :=
  Iff.rfl

@[simp] theorem readable_blank (layout : Layout) (after : List Char) :
    Readable (.blank :: layout) after ↔ Readable layout after :=
  Iff.rfl

@[simp] theorem readable_space (layout : Layout) (after : List Char) :
    Readable (.space :: layout) after ↔ Readable layout after :=
  Iff.rfl

/-- Layouts one behind the other are readable if the first is in front of the second. -/
theorem readable_append (first second : Layout) (after : List Char) :
    Readable (first ++ second) after ↔
      Readable first (chars second ++ after) ∧ Readable second after := by
  induction first with
  | nil => simp
  | cons item first ih =>
    cases item with
    | token kind =>
      rw [List.cons_append, readable_token, readable_token, ih, chars_append, List.append_assoc,
        and_assoc, and_assoc]
    | _ => exact ih

/-- The tokens of a readable layout are legible. -/
theorem legible_of_readable {layout : Layout} {after : List Char} (h : layout.Readable after)
    {kind : TokenKind} (hmem : kind ∈ tokens layout) : kind.Legible := by
  induction layout with
  | nil => cases hmem
  | cons item layout ih =>
    cases item with
    | token kind' =>
      rcases List.mem_cons.1 hmem with rfl | hmem
      · exact h.1
      · exact ih h.2.2 hmem
    | _ => exact ih h hmem

/-- Whether the annotations of the layout are well formed. -/
def AnnotsFit (layout : Layout) : Prop :=
  ∀ text, .annot text ∈ tokens layout → IsAnnotText text

/-- The annotations of what follows an item are well formed where those of both are. -/
theorem AnnotsFit.of_cons {item : Item} {layout : Layout} (h : AnnotsFit (item :: layout)) :
    AnnotsFit layout := by
  intro text hmem
  refine h text ?_
  cases item with
  | token kind => exact List.mem_cons_of_mem _ hmem
  | _ => exact hmem

/-! ### Places of tokens -/

/-- The tokens of a layout that is written from `place` on. -/
def tokensAt (place : Location) : Layout → List Token
  | [] => []
  | .token kind :: layout =>
    ⟨kind, place, place.walk kind.spelling⟩ :: tokensAt (place.walk kind.spelling) layout
  | item :: layout => tokensAt (place.walk item.chars) layout

/-- The tokens of a layout are the same wherever it is written. -/
theorem map_kind_tokensAt (place : Location) (layout : Layout) :
    (layout.tokensAt place).map (·.kind) = layout.tokens := by
  induction layout generalizing place with
  | nil => rfl
  | cons item layout ih =>
    cases item with
    | token kind => simp [tokensAt, tokens, ih]
    | _ => exact ih _

end Layout

/-! ### Reading a layout back -/

namespace Lexer

/-- What is no token is written in blanks. -/
theorem isBlank_of_mem_chars {item : Layout.Item} (h : ∀ kind, item ≠ .token kind) :
    ∀ c ∈ item.chars, isBlank c = true := by
  intro c hc
  cases item with
  | line indent =>
    rw [Layout.Item.chars, List.mem_cons, List.mem_replicate] at hc
    rcases hc with rfl | ⟨-, rfl⟩ <;> decide
  | blank =>
    rw [Layout.Item.chars, List.mem_singleton] at hc
    subst hc
    decide
  | space =>
    rw [Layout.Item.chars, List.mem_singleton] at hc
    subst hc
    decide
  | token kind => exact absurd rfl (h kind)

/-- A readable layout is read as its tokens, whatever is read behind it. -/
theorem tokenized_chars_append_iff {layout : Layout} {after : List Char}
    (hlayout : layout.Readable after) (hannots : layout.AnnotsFit) {place : Location}
    {tokens : List Token} :
    Tokenized place (layout.chars ++ after) tokens ↔
      ∃ others, tokens = layout.tokensAt place ++ others ∧
        Tokenized (place.walk layout.chars) after others := by
  induction layout generalizing place tokens with
  | nil => exact ⟨fun h ↦ ⟨tokens, rfl, h⟩, fun ⟨_, htokens, h⟩ ↦ htokens ▸ h⟩
  | cons item layout ih =>
    rw [Layout.chars_cons, List.append_assoc, Location.walk_append]
    cases item with
    | token kind =>
      obtain ⟨hkind, hends, hrest⟩ := hlayout
      obtain ⟨c, cs, hcs, hblank, hscan⟩ := scan_spelling
        (hkind.wellFormed fun text htext ↦ hannots text (htext ▸ List.mem_cons_self)) hends
      rw [Layout.chars_token, hcs, tokenized_cons_iff hblank hscan]
      constructor
      · rintro ⟨behind, rfl, h⟩
        obtain ⟨others, rfl, hothers⟩ := (ih hrest hannots.of_cons).1 h
        exact ⟨others, rfl, hothers⟩
      · rintro ⟨others, rfl, hothers⟩
        exact ⟨_, rfl, (ih hrest hannots.of_cons).2 ⟨others, rfl, hothers⟩⟩
    | _ =>
      rw [tokenized_append_iff (isBlank_of_mem_chars (by simp))]
      exact ih hlayout hannots.of_cons

end Lexer

namespace Layout

/-- The characters of a text without the spaces in front. -/
theorem toList_text (indent : Nat) (layout : Layout) :
    (text (.line indent :: layout)).toList =
      List.replicate indent ' ' ++ (chars layout ++ ['\n']) := by
  simp [text, Item.chars]

/-- The spaces in front of the first line of a text put its tokens in their columns. -/
theorem tokenize_text_eq_ok_iff {indent : Nat} {layout : Layout} {found : List Token} :
    Token.tokenize (text (.line indent :: layout)) = .ok found ↔
      Lexer.Tokenized (Location.origin.walk (List.replicate indent ' '))
        (chars layout ++ ['\n']) found := by
  rw [Token.tokenize_eq_ok_iff, toList_text, Lexer.tokenized_append_iff fun c hc ↦ ?_]
  rw [(List.mem_replicate.1 hc).2]
  decide

/-- The text of a layout of lines is read as the tokens of its first line, from the first column on,
and of the lines below. -/
theorem tokenize_text (indent : Nat) {layout : Layout} (h : layout.Readable ['\n'])
    (hannots : layout.AnnotsFit) :
    Token.tokenize (text (.line indent :: layout)) =
      .ok (tokensAt (Location.origin.walk (List.replicate indent ' ')) layout) := by
  rw [tokenize_text_eq_ok_iff, Lexer.tokenized_chars_append_iff h hannots]
  exact ⟨[], (List.append_nil _).symm, .blanks (List.forall_mem_singleton.2 rfl)⟩

theorem tokenize_text_nil : Token.tokenize (text []) = .ok [] := rfl

end Layout

end ModelSignatures
