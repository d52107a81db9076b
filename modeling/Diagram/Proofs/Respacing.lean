import Diagram.Proofs.Reading

/-!
# Texts of the same tokens

The tokens of a text, written down one behind the other with a space in between, make up a text that
is read as the same tokens, and without a message.  So nothing depends on what stands between the
tokens of a text: white space, comments and stray characters.

No token goes on behind a space, and all tokens but colours are read alike wherever they stand.  A
colour stands behind a colon, and it still does when everything else between them is gone.
-/

namespace Diagram

/-! ## Words -/

/-- The class and the text of a piece that is a token. -/
def Piece.word? (p : Piece) : Option (TokenKind × String) :=
  match p.kind with
  | .token k => some (k, String.ofList p.text)
  | _ => none

/-- Classes and texts that tokens can have one behind the other: each text is one of its class, and
a colour stands behind a colon. -/
def AreReadable (afterColon : Bool) : List (TokenKind × String) → Prop
  | [] => True
  | (k, w) :: ws =>
    k.Fits w.toList ∧ (k = .color → afterColon = true) ∧ AreReadable (k = .colon) ws

/-- **The tokens of every text are readable.** -/
theorem areReadable_pieces (afterColon : Bool) (s : List Char) :
    AreReadable afterColon ((pieces afterColon s).filterMap Piece.word?) := by
  fun_induction pieces afterColon s with
  | case1 => trivial
  | case2 afterColon c cs kind n hfirst ih =>
    rw [List.filterMap_cons]
    cases kind with
    | token k =>
      refine ⟨?_, ?_, ih⟩
      · rw [String.toList_ofList]
        exact fits_of_cons hfirst
      · rintro rfl
        exact (firstPiece_eq_color hfirst).1
    | blank | comment | stray => exact ih

/-- The classes and the texts of the tokens of a text are those of its pieces. -/
theorem words_tokenize (text : String) :
    (tokenize text).1.map (fun t => (t.kind, t.text)) =
      (pieces false text.toList).filterMap Piece.word? := by
  have hpieces := map_fst_locate .start (pieces false text.toList)
  rw [tokens_eq]
  generalize locate .start (pieces false text.toList) = xs at hpieces ⊢
  rw [← hpieces, List.map_filterMap, List.filterMap_map]
  refine congrArg (List.filterMap · xs) (funext fun x => ?_)
  unfold Piece.token? Function.comp Piece.word?
  cases x.1.kind <;> rfl

/-! ## Spaces between words -/

/-- Texts with a space in between. -/
def spaced (ws : List (TokenKind × String)) : List Char :=
  [' '].intercalate (ws.map fun w => w.2.toList)

@[simp] theorem spaced_singleton (x : TokenKind × String) : spaced [x] = x.2.toList := by
  simp [spaced, List.intercalate]

@[simp] theorem spaced_cons_cons (x y : TokenKind × String) (ws : List (TokenKind × String)) :
    spaced (x :: y :: ws) = x.2.toList ++ ' ' :: spaced (y :: ws) := by
  simp [spaced, List.intercalate]

/-- What is written begins with a token, and so not with white space. -/
theorem stopsAt_spaced {k : TokenKind} {w : String} (h : k.Fits w.toList)
    (ws : List (TokenKind × String)) : StopsAt isBlank (spaced ((k, w) :: ws)) := by
  obtain ⟨c, cs, hw, hblank, -⟩ := head_of_fits h
  cases ws with
  | nil =>
    rw [spaced_singleton, hw]
    exact hblank
  | cons y ws =>
    rw [spaced_cons_cons, hw]
    exact hblank

/-- No token goes on behind a space. -/
theorem TokenKind.endsBefore_space (k : TokenKind) (s : List Char) : k.EndsBefore (' ' :: s) := by
  have hname : isNameChar ' ' = false := by decide
  cases k <;> simp [EndsBefore, hname]

/-- A space in front of a text that does not begin with white space is a piece of its own. -/
theorem pieces_space {afterColon : Bool} {s : List Char} (hs : StopsAt isBlank s) :
    pieces afterColon (' ' :: s) = ⟨.blank, [' ']⟩ :: pieces afterColon s := by
  have hspace : isBlank ' ' = true := by decide
  have hrun : ([' '] ++ s).takeWhile isBlank = [' '] := takeWhile_append_stop (by decide) hs
  have hfirst : firstPiece afterColon ([' '] ++ s) = (.blank, [' '].length) := by
    rw [firstPiece, hrun]
    simp [hspace]
  exact pieces_append (List.cons_ne_nil ' ' []) hfirst

/-- **Readable tokens are read back from their texts with spaces in between**, and nothing else is
read. -/
theorem words_pieces_spaced {afterColon : Bool} {ws : List (TokenKind × String)}
    (h : AreReadable afterColon ws) :
    (pieces afterColon (spaced ws)).filterMap Piece.word? = ws ∧
      IsClean afterColon (spaced ws) := by
  induction ws generalizing afterColon with
  | nil =>
    have hnil : spaced [] = [] := rfl
    rw [IsClean, hnil, pieces_nil]
    exact ⟨rfl, List.forall_mem_nil _⟩
  | cons x ws ih =>
    obtain ⟨k, w⟩ := x
    obtain ⟨hfits, hcolor, hws⟩ := h
    obtain ⟨ihwords, ihclean⟩ := ih hws
    have hword : Piece.word? ⟨.token k, w.toList⟩ = some (k, w) := by
      simp [Piece.word?, String.ofList_toList]
    -- what ends a token is the end of the text behind the last one, and a space behind any other
    cases ws with
    | nil =>
      have hpieces := pieces_append (ne_nil_of_fits hfits)
        (firstPiece_of_fits hfits k.endsBefore_nil hcolor)
      rw [List.append_nil, pieces_nil] at hpieces
      rw [IsClean, spaced_singleton, hpieces]
      exact ⟨by simp [hword], by simp⟩
    | cons y ws =>
      have hpieces := pieces_append (ne_nil_of_fits hfits)
        (firstPiece_of_fits hfits (k.endsBefore_space (spaced (y :: ws))) hcolor)
      have hstart := stopsAt_spaced hws.1 ws
      rw [pieces_space hstart] at hpieces
      rw [IsClean, spaced_cons_cons, hpieces]
      refine ⟨?_, ?_⟩
      · rw [List.filterMap_cons_some hword, List.filterMap_cons_none rfl]
        exact congrArg _ ihwords
      · exact List.forall_mem_cons.mpr ⟨by simp, List.forall_mem_cons.mpr ⟨by simp, ihclean⟩⟩

/-- **Lexing depends on the tokens only.**  The tokens of a text, with single spaces in between, are
read without a message, as tokens of the same classes and with the same texts. -/
theorem tokenize_spaced (text : String) :
    let tokens := (tokenize text).1
    let respaced := " ".intercalate (tokens.map Token.text)
    (tokenize respaced).2 = [] ∧
      (tokenize respaced).1.map (fun t => (t.kind, t.text)) =
        tokens.map fun t => (t.kind, t.text) := by
  intro tokens respaced
  have hwords : tokens.map (fun t => (t.kind, t.text)) =
      (pieces false text.toList).filterMap Piece.word? := words_tokenize text
  have hspaced : respaced.toList = spaced ((pieces false text.toList).filterMap Piece.word?) := by
    rw [← hwords, spaced, List.map_map, String.toList_intercalate, List.map_map]
    rfl
  obtain ⟨hread, hclean⟩ := words_pieces_spaced (areReadable_pieces false text.toList)
  rw [← hspaced] at hread hclean
  exact ⟨issues_eq_nil_of_clean hclean, by rw [words_tokenize, hread, hwords]⟩

end Diagram
