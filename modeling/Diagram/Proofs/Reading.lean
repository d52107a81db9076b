import Diagram.Proofs.Lexing

/-!
# Reading whole texts

`Reads` builds a text from its end to its start, by white space, comment lines and
tokens.  Such a text is read without an error, and as the tokens it was built from.
It is the printer's side of the lexer: a printer shows what it writes to be of this
form and never looks at the lexer again.
-/

namespace Diagram

/-- The text is white space, comments and tokens with the given lexemes, in order.  The
flag says whether the last token in front of the text is a colon. -/
inductive Reads : Bool → List Char → List Lexeme → Prop where
  | nil {afterColon : Bool} : Reads afterColon [] []
  | blank {afterColon : Bool} {c : Char} {s : List Char} {ls : List Lexeme} :
      isBlank c → Reads afterColon s ls → Reads afterColon (c :: s) ls
  | comment {line s : List Char} {ls : List Lexeme} :
      '\n' ∉ line → StopsAt (· ≠ '\n') s → Reads false s ls → Reads false ('#' :: line ++ s) ls
  | token {afterColon : Bool} {k : TokenKind} {w s : List Char} {ls : List Lexeme} :
      k.Fits w → k.EndsBefore s → (k = .color → afterColon = true) →
      Reads (k = .colon) s ls → Reads afterColon (w ++ s) (.of k (String.ofList w) :: ls)

/-! ## Pieces -/

/-- The lexeme of a piece that is a token. -/
def Piece.lexeme? (p : Piece) : Option Lexeme :=
  match p.kind with
  | .token k => some (.of k (String.ofList p.text))
  | _ => none

/-- The lexemes of the tokens of a text. -/
def lexemesIn (afterColon : Bool) (s : List Char) : List Lexeme :=
  (pieces afterColon s).filterMap Piece.lexeme?

/-- No character of the text is a stray one. -/
def IsClean (afterColon : Bool) (s : List Char) : Prop :=
  ∀ p ∈ pieces afterColon s, p.kind ≠ .stray

@[simp] theorem pieces_nil (afterColon : Bool) : pieces afterColon [] = [] := by
  rw [pieces.eq_def]

/-- The first piece of a text, and the pieces behind it. -/
theorem pieces_append {afterColon : Bool} {kind : PieceKind} {w s : List Char} (hw : w ≠ [])
    (h : firstPiece afterColon (w ++ s) = (kind, w.length)) :
    pieces afterColon (w ++ s) = ⟨kind, w⟩ :: pieces (kind.colonAfter afterColon) s := by
  obtain ⟨c, cs, rfl⟩ := List.exists_cons_of_ne_nil hw
  rw [List.cons_append] at h
  rw [List.cons_append, pieces.eq_def]
  simp only [h, List.length_cons, Nat.add_sub_cancel, List.take_left, List.drop_left]

/-- The first piece of a text adds its lexeme, if it has one, and is stray or not. -/
theorem lexemesIn_append {afterColon : Bool} {kind : PieceKind} {w s : List Char} (hw : w ≠ [])
    (h : firstPiece afterColon (w ++ s) = (kind, w.length)) :
    lexemesIn afterColon (w ++ s) =
        (Piece.lexeme? ⟨kind, w⟩).toList ++ lexemesIn (kind.colonAfter afterColon) s ∧
      (IsClean afterColon (w ++ s) ↔ kind ≠ .stray ∧ IsClean (kind.colonAfter afterColon) s) := by
  constructor
  · rw [lexemesIn, pieces_append hw h, List.filterMap_cons]
    cases Piece.lexeme? ⟨kind, w⟩ <;> rfl
  · rw [IsClean, pieces_append hw h]
    exact List.forall_mem_cons

/-- White space in front of a text changes neither its tokens nor its stray characters. -/
theorem lexemesIn_dropWhile (afterColon : Bool) (s : List Char) :
    lexemesIn afterColon s = lexemesIn afterColon (s.dropWhile isBlank) ∧
      (IsClean afterColon s ↔ IsClean afterColon (s.dropWhile isBlank)) := by
  cases s with
  | nil => exact ⟨rfl, Iff.rfl⟩
  | cons c s =>
    by_cases hc : isBlank c
    · have happ : c :: s = (c :: s.takeWhile isBlank) ++ s.dropWhile isBlank := by
        rw [List.cons_append, List.takeWhile_append_dropWhile]
      have hfirst : firstPiece afterColon ((c :: s.takeWhile isBlank) ++ s.dropWhile isBlank) =
          (.blank, (c :: s.takeWhile isBlank).length) := by
        rw [← happ]
        simp [firstPiece, hc]
      rw [List.dropWhile_cons_of_pos hc, happ]
      obtain ⟨hl, hclean⟩ := lexemesIn_append (List.cons_ne_nil _ _) hfirst
      exact ⟨hl, hclean.trans (and_iff_right (by simp))⟩
    · rw [List.dropWhile_cons_of_neg hc]
      exact ⟨rfl, Iff.rfl⟩

theorem lexemesIn_blank {afterColon : Bool} {c : Char} {s : List Char} (hc : isBlank c) :
    lexemesIn afterColon (c :: s) = lexemesIn afterColon s ∧
      (IsClean afterColon (c :: s) ↔ IsClean afterColon s) := by
  have h := lexemesIn_dropWhile afterColon (c :: s)
  have h' := lexemesIn_dropWhile afterColon s
  rw [List.dropWhile_cons_of_pos hc] at h
  exact ⟨h.1.trans h'.1.symm, h.2.trans h'.2.symm⟩

/-- **A text that reads as some lexemes has these tokens and no stray characters.** -/
theorem Reads.lexemesIn {afterColon : Bool} {s : List Char} {ls : List Lexeme}
    (h : Reads afterColon s ls) : lexemesIn afterColon s = ls ∧ IsClean afterColon s := by
  induction h with
  | nil => simp [Diagram.lexemesIn, IsClean]
  | blank hc _ ih => exact ⟨(lexemesIn_blank hc).1.trans ih.1, (lexemesIn_blank hc).2.mpr ih.2⟩
  | @comment line s ls hline hstop _ ih =>
    have hall : (('#' :: line).all (· ≠ '\n')) := by
      refine List.all_eq_true.mpr fun c hc => ?_
      rcases List.mem_cons.mp hc with rfl | hc
      · decide
      · have hne : c ≠ '\n' := by
          rintro rfl
          exact hline hc
        simpa using hne
    have hfirst : firstPiece false ('#' :: line ++ s) = (.comment, ('#' :: line).length) := by
      have hrun := takeWhile_append_stop hall hstop
      have hblank : isBlank '#' = false := by decide
      rw [List.cons_append] at hrun ⊢
      simp only [firstPiece, List.head?_cons, Option.any_some, hblank, Bool.false_eq_true, if_false,
        if_true, hrun]
    obtain ⟨hl, hclean⟩ := lexemesIn_append (List.cons_ne_nil '#' line) hfirst
    exact ⟨hl.trans ih.1, hclean.mpr ⟨by simp, ih.2⟩⟩
  | token hw hs hcolor _ ih =>
    obtain ⟨hl, hclean⟩ := lexemesIn_append (ne_nil_of_fits hw) (firstPiece_of_fits hw hs hcolor)
    refine ⟨hl.trans ?_, hclean.mpr ⟨by simp, ih.2⟩⟩
    exact congrArg (_ :: ·) ih.1

/-! ## Tokens -/

/-- Pieces that are not stray are not joined. -/
theorem joinStray_of_clean {ps : List Piece} (h : ∀ p ∈ ps, p.kind ≠ .stray) :
    joinStray ps = ps := by
  induction ps with
  | nil => rfl
  | cons p ps ih =>
    rw [joinStray, ih fun q hq => h q (by simp [hq])]
    cases ps with
    | nil => rfl
    | cons q qs => simp [h p (by simp)]

/-- Joining makes no piece but stray ones. -/
theorem mem_of_mem_joinStray {ps : List Piece} {p : Piece} (h : p ∈ joinStray ps)
    (hp : p.kind ≠ .stray) : p ∈ ps := by
  induction ps with
  | nil => exact h
  | cons q qs ih =>
    rw [joinStray] at h
    split at h
    · next hnil =>
      exact List.mem_cons.mpr (.inl (List.mem_singleton.mp h))
    · next r rs hcons =>
      rw [hcons] at ih
      split at h
      · rcases List.mem_cons.mp h with rfl | h
        · exact absurd rfl hp
        · exact List.mem_cons_of_mem _ (ih (List.mem_cons_of_mem _ h))
      · rcases List.mem_cons.mp h with rfl | h
        · exact List.mem_cons_self
        · exact List.mem_cons_of_mem _ (ih h)

theorem map_fst_locate (cur : Cursor) (ps : List Piece) : (locate cur ps).map Prod.fst = ps := by
  induction ps generalizing cur with
  | nil => rfl
  | cons p ps ih => simp [locate, ih]

/-- What stands at a place of the located pieces: a piece, and its span behind the pieces in
front. -/
theorem of_locate_eq_append {cur : Cursor} {ps : List Piece} {x : Piece × Span}
    {front back : List (Piece × Span)} (h : locate cur ps = front ++ x :: back) :
    ps = front.map Prod.fst ++ x.1 :: back.map Prod.fst ∧
      x.2 = (cur.skip ((front.map Prod.fst).flatMap Piece.text)).cover x.1.text := by
  induction front generalizing cur ps with
  | nil =>
    cases ps with
    | nil => cases h
    | cons p ps =>
      obtain ⟨rfl, rfl⟩ := List.cons.inj h
      exact ⟨by simp [map_fst_locate], rfl⟩
  | cons y front ih =>
    cases ps with
    | nil => cases h
    | cons p ps =>
      obtain ⟨rfl, htail⟩ := List.cons.inj h
      obtain ⟨rfl, hspan⟩ := ih htail
      refine ⟨rfl, ?_⟩
      rw [hspan, List.map_cons, List.flatMap_cons, Cursor.skip_append]

/-- Joining stray characters leaves every token where it is. -/
theorem filterMap_token?_joinStray (cur : Cursor) (ps : List Piece) :
    (locate cur (joinStray ps)).filterMap Piece.token? =
      (locate cur ps).filterMap Piece.token? := by
  have hstray : ∀ text span, Piece.token? (⟨.stray, text⟩, span) = none := fun _ _ => rfl
  induction ps generalizing cur with
  | nil => rfl
  | cons p ps ih =>
    have hcons : (locate cur (p :: ps)).filterMap Piece.token? =
        (locate cur (p :: joinStray ps)).filterMap Piece.token? := by
      simp only [locate, List.filterMap_cons, ih]
    rw [hcons, joinStray]
    cases joinStray ps with
    | nil => rfl
    | cons q qs =>
      simp only
      split
      · next hboth =>
        obtain ⟨kind, text⟩ := p
        obtain ⟨kind', text'⟩ := q
        obtain ⟨rfl, rfl⟩ := hboth
        simp [locate, hstray]
      · rfl

/-- The tokens of a text are those of its pieces. -/
theorem tokens_eq (text : String) : (tokenize text).1 =
    (locate .start (pieces false text.toList)).filterMap Piece.token? :=
  filterMap_token?_joinStray .start (pieces false text.toList)

/-- The lexeme of the token that a located piece is. -/
theorem lexeme_token? (p : Piece × Span) : (Piece.token? p).map Token.lexeme = p.1.lexeme? := by
  unfold Piece.token? Piece.lexeme?
  cases p.1.kind <;> rfl

/-- The first piece of a text that is a token has a text of its class. -/
theorem fits_of_cons {afterColon : Bool} {c : Char} {cs : List Char} {k : TokenKind} {n : Nat}
    (h : firstPiece afterColon (c :: cs) = (.token k, n)) : k.Fits (c :: cs.take (n - 1)) := by
  obtain ⟨m, rfl⟩ := Nat.exists_eq_add_one.mpr (pos_of_firstPiece h)
  exact fits_of_firstPiece h

/-- Every piece of a text that is a token has a text of its class. -/
theorem fits_of_mem_pieces {afterColon : Bool} {s : List Char} {p : Piece}
    (h : p ∈ pieces afterColon s) {k : TokenKind} (hk : p.kind = .token k) : k.Fits p.text := by
  fun_induction pieces afterColon s with
  | case1 => simp at h
  | case2 afterColon c cs kind n hfirst ih =>
    rcases List.mem_cons.mp h with rfl | h
    · obtain rfl : kind = .token k := hk
      exact fits_of_cons hfirst
    · exact ih h

/-- **Every token of a text has a text of its class.** -/
theorem fits_of_mem_tokenize {text : String} {t : Token} (h : t ∈ (tokenize text).1) : t.Fits := by
  rw [tokens_eq] at h
  obtain ⟨⟨p, span⟩, hmem, htoken⟩ := List.mem_filterMap.mp h
  have hp : p ∈ pieces false text.toList := by
    rw [← map_fst_locate .start (pieces false text.toList)]
    exact List.mem_map_of_mem hmem
  unfold Piece.token? at htoken
  split at htoken
  · next k hk =>
    obtain rfl := Option.some.inj htoken
    simpa [Token.Fits, String.toList_ofList] using fits_of_mem_pieces hp hk
  · cases htoken

/-- **A text that reads as some lexemes has tokens with these lexemes.** -/
theorem Reads.lexemes_tokenize {text : String} {ls : List Lexeme}
    (h : Reads false text.toList ls) : (tokenize text).1.map Token.lexeme = ls := by
  rw [tokens_eq]
  have hmap := map_fst_locate .start (pieces false text.toList)
  generalize locate .start (pieces false text.toList) = ps at hmap ⊢
  rw [← h.lexemesIn.1, Diagram.lexemesIn, ← hmap, List.map_filterMap, List.filterMap_map]
  exact congrArg (List.filterMap · _) (funext lexeme_token?)

/-- A text without stray characters is read without an error. -/
theorem issues_eq_nil_of_clean {text : String} (hclean : IsClean false text.toList) :
    (tokenize text).2 = [] := by
  simp only [tokenize, located, joinStray_of_clean hclean]
  refine List.filterMap_eq_nil_iff.mpr fun ps hps => ?_
  have hp : ps.1 ∈ pieces false text.toList := by
    rw [← map_fst_locate .start (pieces false text.toList)]
    exact List.mem_map_of_mem hps
  have hne := hclean _ hp
  unfold Piece.issue?
  split
  · next hk => exact absurd hk hne
  · rfl

/-- **A text that reads as some lexemes is read without an error.** -/
theorem Reads.issues_tokenize {text : String} {ls : List Lexeme}
    (h : Reads false text.toList ls) : (tokenize text).2 = [] :=
  issues_eq_nil_of_clean h.lexemesIn.2

end Diagram
