import Mathlib.Data.List.Chain
import Mathlib.Data.List.Nodup
import ModelSignatures.Proofs.Token.Lexed

/-!
# What the places of tokens tell

Tokens that were read touch each other exactly if one begins at the line and the column at which the
other ends, and where a token ends is told by its kind and by where it begins. Whether tokens touch
is therefore seen from their kinds, lines and columns alone (`Token.seenBefore_of_tokenize`): how
many bytes stand before them does not matter.
-/

namespace ModelSignatures

namespace Location

theorem toPosition_walk_congr {p q : Location} (h : p.toPosition = q.toPosition) (cs : List Char) :
    (p.walk cs).toPosition = (q.walk cs).toPosition := by
  induction cs generalizing p q with
  | nil => exact h
  | cons c cs ih =>
    refine ih ?_
    unfold step
    split
    · rw [h]
    · rw [h]

theorem column_walk_of_not_mem {place : Location} {cs : List Char} (h : '\n' ∉ cs) :
    (place.walk cs).column = place.column + cs.length := by
  induction cs generalizing place with
  | nil => rfl
  | cons c cs ih =>
    rw [List.mem_cons, not_or] at h
    rw [walk_cons, ih h.2, step, if_neg (Ne.symm h.1), List.length_cons]
    dsimp only
    omega

theorem line_lt_walk_of_mem {place : Location} {cs : List Char} (h : '\n' ∈ cs) :
    place.line < (place.walk cs).line := by
  obtain ⟨before, behind, rfl⟩ := List.append_of_mem h
  rw [walk_append, walk_cons, step, if_pos rfl]
  have hbefore := place.line_le_walk before
  have hbehind := line_le_walk
    { line := (place.walk before).line + 1, column := 1,
      offset := (place.walk before).offset + '\n'.utf8Size } behind
  exact Nat.lt_of_lt_of_le (Nat.lt_succ_of_le hbefore) hbehind

/-- Walking over characters leads to another line or column. -/
theorem toPosition_walk_eq_iff {place : Location} {cs : List Char} :
    (place.walk cs).toPosition = place.toPosition ↔ cs = [] := by
  constructor
  · intro h
    by_cases hmem : '\n' ∈ cs
    · have hline : place.line < (place.walk cs).line := line_lt_walk_of_mem hmem
      rw [h] at hline
      exact absurd hline (Nat.lt_irrefl _)
    · have hcolumn : (place.walk cs).column = place.column + cs.length :=
        column_walk_of_not_mem hmem
      rw [h] at hcolumn
      exact List.length_eq_zero_iff.1 (by omega)
  · rintro rfl
    rfl

theorem offset_walk_eq_iff {place : Location} {cs : List Char} :
    (place.walk cs).offset = place.offset ↔ cs = [] := by
  constructor
  · intro h
    by_contra hne
    have hlt : place.offset < (place.walk cs).offset := offset_lt_walk hne
    omega
  · rintro rfl
    rfl

end Location

/-- The position behind a token that begins at `p`. -/
def Position.behind (p : Position) (kind : TokenKind) : Position :=
  (Location.walk ⟨p, 0⟩ kind.spelling).toPosition

theorem newline_not_mem_delimiters {pair : Char × Char} (h : pair ∈ annotationDelimiters) :
    pair.1 ≠ '\n' ∧ pair.2 ≠ '\n' := by
  revert pair
  decide

namespace Location

/-- All characters but the line feed lead one column on. -/
theorem toPosition_step_congr {p q : Location} (h : p.toPosition = q.toPosition) {c d : Char}
    (hc : c ≠ '\n') (hd : d ≠ '\n') : (p.step c).toPosition = (q.step d).toPosition := by
  rw [step, step, if_neg hc, if_neg hd]
  dsimp only
  rw [h]

/-- Behind an annotation the position does not depend on the delimiters. -/
theorem toPosition_walk_annot {p q : Location} (h : p.toPosition = q.toPosition)
    {pair pair' : Char × Char} (hpair : pair ∈ annotationDelimiters)
    (hpair' : pair' ∈ annotationDelimiters) (text : List Char) :
    (p.walk ('%' :: 'a' :: pair.1 :: text ++ [pair.2])).toPosition =
      (q.walk ('%' :: 'a' :: pair'.1 :: text ++ [pair'.2])).toPosition := by
  obtain ⟨hopening, hclosing⟩ := newline_not_mem_delimiters hpair
  obtain ⟨hopening', hclosing'⟩ := newline_not_mem_delimiters hpair'
  rw [walk_append, walk_append]
  refine toPosition_step_congr ?_ hclosing hclosing'
  refine toPosition_walk_congr (toPosition_step_congr ?_ hopening hopening') text
  exact toPosition_walk_congr h ['%', 'a']

end Location

/-- Where a token ends is told by its kind and by where it begins. -/
theorem Lexer.toPosition_walk_taken {c : Char} {cs : List Char} {s : Scanned}
    (h : scan c cs = .ok s) (hcode : s.kind.isComment = false) (place : Location) :
    (place.walk s.taken).toPosition = place.toPosition.behind s.kind := by
  have hplace : place.toPosition = (⟨place.toPosition, 0⟩ : Location).toPosition := rfl
  cases scan_eq_ok_iff.1 h with
  | word begins goesOn =>
    rw [Position.behind, TokenKind.spelling, String.toList_ofList]
    exact Location.toPosition_walk_congr hplace _
  | symbol spelled =>
    rw [Position.behind, TokenKind.spelling, spelled]
    exact Location.toPosition_walk_congr hplace _
  | @annot pair text _ delimited =>
    rw [Position.behind, TokenKind.spelling, String.toList_ofList]
    exact Location.toPosition_walk_annot hplace delimited (delimitersFor_mem text) text
  | comment => cases hcode

/-- What is seen of a token: its kind, and the line and the column at which it begins. -/
def Token.sight (t : Token) : TokenKind × Position := (t.kind, t.start.toPosition)

/-- Whether it is seen where the first token ends, and if the second touches it. -/
structure Token.SeenBefore (t u : Token) : Prop where
  stop : t.stop.toPosition = t.start.toPosition.behind t.kind
  touch : t.isAdjacentTo u = true ↔ t.start.toPosition.behind t.kind = u.start.toPosition

theorem Token.SeenBefore.congr {t u t' u' : Token} (h : t.SeenBefore u) (h' : t'.SeenBefore u')
    (ht : t.sight = t'.sight) (hu : u.sight = u'.sight) :
    t.isAdjacentTo u = t'.isAdjacentTo u' ∧ t.stop.line = t'.stop.line := by
  obtain ⟨hkind, hstart⟩ := Prod.mk.inj ht
  have hnext := congrArg Prod.snd hu
  refine ⟨?_, ?_⟩
  · rw [Bool.eq_iff_iff, h.touch, h'.touch, hkind, hstart]
    exact Eq.congr_right hnext
  · exact congrArg Position.line (h.stop.trans (by rw [h'.stop, hkind, hstart]))

namespace Lexer.Tokenized

variable {place : Location} {cs : List Char} {tokens : List Token}

/-- Whether the first token begins where the text does is seen from their lines and columns. -/
theorem offset_eq_iff (h : Tokenized place cs tokens) :
    ∀ t ∈ tokens, place.offset = t.start.offset ↔ place.toPosition = t.start.toPosition := by
  intro t ht
  obtain ⟨before, -, -, -, hstart, -⟩ := h.exists_places t ht
  rw [hstart]
  exact eq_comm.trans (Location.offset_walk_eq_iff.trans
    (Location.toPosition_walk_eq_iff.symm.trans eq_comm))

theorem isChain_seenBefore (h : Tokenized place cs tokens) :
    tokens.IsChain fun t u ↦ t.kind.isComment = false → t.SeenBefore u := by
  induction h with
  | blanks => exact .nil
  | @token place blanks cs c s tokens blank first scanned behind ih =>
    refine List.isChain_cons.2 ⟨fun u hu hcode ↦ ?_, ih⟩
    have hstop := toPosition_walk_taken scanned hcode (place.walk blanks)
    refine ⟨hstop, ?_⟩
    rw [Token.isAdjacentTo, beq_iff_eq, ← hstop]
    exact behind.offset_eq_iff u (List.mem_of_mem_head? hu)

/-- No two tokens begin at the same line and column. -/
theorem nodup_positions (h : Tokenized place cs tokens) :
    (tokens.map fun t ↦ t.start.toPosition).Nodup := by
  induction h with
  | blanks => exact .nil
  | @token place blanks cs c s tokens blank first scanned behind ih =>
    refine List.nodup_cons.2 ⟨fun hmem ↦ ?_, ih⟩
    obtain ⟨t, ht, hposition⟩ := List.mem_map.1 hmem
    obtain ⟨before, -, -, -, hstart, -⟩ := behind.exists_places t ht
    rw [hstart, ← Location.walk_append, Location.toPosition_walk_eq_iff] at hposition
    exact taken_ne_nil_of_scan scanned (List.append_eq_nil_iff.1 hposition).1

end Lexer.Tokenized

theorem Token.nodup_positions {source : String} {tokens : List Token}
    (h : Token.tokenize source = .ok tokens) :
    (tokens.map fun t ↦ t.start.toPosition).Nodup :=
  (tokenize_eq_ok_iff.1 h).nodup_positions

/-- No two tokens are seen at the same place. -/
theorem Token.before_eq_of_sight {before before' after after' : List Token} {k k' : Token}
    (hnodup : ((before ++ k :: after).map fun t ↦ t.start.toPosition).Nodup)
    (h : before ++ k :: after = before' ++ k' :: after') (hk : k.sight = k'.sight) :
    before = before' ∧ k = k' ∧ after = after' := by
  have hmap := congrArg (List.map fun t : Token ↦ t.start.toPosition) h
  have hstart : k.start.toPosition = k'.start.toPosition := congrArg Prod.snd hk
  rw [List.map_append, List.map_cons] at hnodup
  rw [List.map_append, List.map_append, List.map_cons, List.map_cons, ← hstart] at hmap
  have hnotMem := (List.nodup_cons.1 (List.nodup_middle.1 hnodup)).1
  rw [List.mem_append, not_or] at hnotMem
  have hlength := congrArg List.length
    ((List.append_cons_inj_of_notMem hnotMem.1 hnotMem.2).1 hmap).1
  rw [List.length_map, List.length_map] at hlength
  obtain ⟨hbefore, hbehind⟩ := List.append_inj h hlength
  exact ⟨hbefore, List.cons.inj hbehind⟩

theorem Token.seenBefore_of_tokenize {source : String} {tokens : List Token}
    (h : Token.tokenize source = .ok tokens) :
    tokens.IsChain fun t u ↦ t.kind.isComment = false → t.SeenBefore u :=
  (tokenize_eq_ok_iff.1 h).isChain_seenBefore

end ModelSignatures
