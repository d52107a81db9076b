import Mathlib.Data.List.Pairwise
import Diagram.Proofs.Partition

/-!
# The longest lexeme

The classes of tokens are tried one behind the other, and the first that fits is taken, whatever its
length.  The order is chosen so that no class is taken where a longer token of another one begins:
the edge operators come with the longer ones first, a minus sign begins a number only where no
operator does, and a word is read whole before it is compared with the keywords.  So every token is
the longest lexeme of the token grammar at its start, and where no token is read there is none.

The grammar looks behind a lexeme in two cases, and in front of it in one: a colour and the layout
keyword do not run into a name, and a colour stands behind a colon.
-/

namespace Diagram

/-! ## Lexemes of the token grammar -/

/-- A lexeme of the token grammar at the start of a text.  The flag says whether the last token in
front of the text is a colon. -/
structure IsLexemeAt (afterColon : Bool) (s : List Char) (k : TokenKind) (w : List Char) :
    Prop where
  fits : k.Fits w
  starts : w <+: s
  color : k = .color → afterColon ∧ StopsAt isNameChar (s.drop w.length)
  layout : k = .layout → StopsAt isNameChar (s.drop w.length)

/-- A lexeme that is longer than all others at the start of a text. -/
def IsLongestAt (afterColon : Bool) (s : List Char) (k : TokenKind) (w : List Char) : Prop :=
  IsLexemeAt afterColon s k w ∧
    ∀ k' w', IsLexemeAt afterColon s k' w' → (k', w') = (k, w) ∨ w'.length < w.length

/-- Three to six hexadecimal digits that do not run into a name, and any text behind them. -/
def StartsColor (s : List Char) : Prop :=
  ∃ ds rest, s = ds ++ rest ∧ 3 ≤ ds.length ∧ ds.length ≤ 6 ∧ ds.all isHexDigit ∧
    StopsAt isNameChar rest

/-- A text belongs to one class of tokens only. -/
theorem TokenKind.Fits.unique {k k' : TokenKind} {w : List Char} (h : k.Fits w)
    (h' : k'.Fits w) : k = k' := by
  have hfirst : firstPiece true (w ++ []) = (.token k, w.length) :=
    firstPiece_of_fits h k.endsBefore_nil fun _ => rfl
  have hfirst' : firstPiece true (w ++ []) = (.token k', w.length) :=
    firstPiece_of_fits h' k'.endsBefore_nil fun _ => rfl
  rw [hfirst] at hfirst'
  exact PieceKind.token.inj (Prod.mk.inj hfirst').1

/-- **A `#` starts a lexeme only behind a colon and in front of the digits of a colour.** -/
theorem exists_isLexemeAt_hash_iff {afterColon : Bool} {s : List Char} :
    (∃ k w, IsLexemeAt afterColon ('#' :: s) k w) ↔ afterColon ∧ StartsColor s := by
  constructor
  · rintro ⟨k, w, hfits, ⟨rest, hrest⟩, hcolor, -⟩
    obtain ⟨c, cs, rfl, -, hhash⟩ := head_of_fits hfits
    obtain ⟨rfl, rfl⟩ := List.cons.inj hrest
    obtain rfl := hhash.mp rfl
    obtain ⟨hcolon, hstop⟩ := hcolor rfl
    obtain ⟨ds, h₃, h₆, hall, hds⟩ := hfits
    obtain ⟨-, rfl⟩ := List.cons.inj hds
    refine ⟨hcolon, cs, rest, rfl, h₃, h₆, hall, ?_⟩
    have hdrop : ('#' :: (cs ++ rest)).drop ('#' :: cs).length = rest := List.drop_left
    rwa [← hdrop]
  · rintro ⟨hcolon, ds, rest, rfl, h₃, h₆, hall, hstop⟩
    refine ⟨.color, '#' :: ds, ⟨ds, h₃, h₆, hall, rfl⟩, ⟨rest, rfl⟩, fun _ => ?_, nofun⟩
    rw [List.length_cons, List.drop_succ_cons, List.drop_left]
    exact ⟨hcolon, hstop⟩

/-! ## Where a lexeme stands, a token is read -/

/-- The operators are tried with the longer ones first. -/
theorem pairwise_arrows :
    Arrow.all.Pairwise fun a b => b.symbol.toList.length ≤ a.symbol.toList.length := by
  decide

theorem Arrow.mem_all (a : Arrow) : a ∈ Arrow.all := by
  cases a <;> decide

/-- Where an operator stands, one is read that is not shorter. -/
theorem lexeme?_of_arrow {a : Arrow} {s : List Char} (h : a.symbol.toList <+: s) :
    ∃ b, lexeme? s = some (.arrow b, b.symbol.toList.length) ∧
      a.symbol.toList.length ≤ b.symbol.toList.length := by
  have hbegins : a.symbol.toList.isPrefixOf s := List.isPrefixOf_iff_prefix.mpr h
  have hsome : (Arrow.all.find? fun b => b.symbol.toList.isPrefixOf s).isSome :=
    List.find?_isSome.mpr ⟨a, a.mem_all, hbegins⟩
  obtain ⟨b, hb⟩ := Option.isSome_iff_exists.mp hsome
  obtain ⟨-, before, after, hall, hnone⟩ := List.find?_eq_some_iff_append.mp hb
  refine ⟨b, ?_, ?_⟩
  · rw [lexeme?, arrowLexeme?, hb, String.length_toList]
    rfl
  · have hmem : a ∈ before ++ b :: after := hall ▸ a.mem_all
    have hsorted := pairwise_arrows
    rw [hall] at hsorted
    rcases List.mem_append.mp hmem with hbefore | hafter
    · have := hnone a hbefore
      rw [hbegins] at this
      exact Bool.noConfusion this
    · rcases List.mem_cons.mp hafter with rfl | hafter
      · exact le_rfl
      · exact List.rel_of_pairwise_cons (List.pairwise_append.mp hsorted).2.1 hafter

/-- A name goes on as long as there are characters of names. -/
theorem isName_append {w u : List Char} (hw : isName w) (hu : u.all isNameChar) :
    isName (w ++ u) := by
  cases w with
  | nil => cases hw
  | cons c cs =>
    simp only [isName, Bool.and_eq_true] at hw
    simp only [List.cons_append, isName, List.all_append, hw.1, hw.2, hu, Bool.and_self]

theorem isWord_wordKind (word : String) : (wordKind word).isWord := by
  unfold wordKind
  split
  · rfl
  split
  · rfl
  split <;> rfl

/-- Where a word stands, the whole run of name characters is read. -/
theorem lexeme?_of_word {k : TokenKind} (hk : k.isWord) {w s : List Char} (h : k.Fits w) :
    ∃ k' n, lexeme? (w ++ s) = some (k', n) ∧ w.length ≤ n := by
  have hname := isName_append (isName_of_fits hk h).1
    (List.all_takeWhile (p := isNameChar) (l := s))
  have hread := lexeme?_word (isWord_wordKind _) (fits_wordKind hname)
    (stopsAt_dropWhile isNameChar s)
  rw [List.append_assoc, List.takeWhile_append_dropWhile] at hread
  refine ⟨_, _, hread, ?_⟩
  rw [List.length_append]
  exact Nat.le_add_right _ _

/-- Where a number stands, the whole run of digits is read. -/
theorem lexeme?_of_number {w s : List Char} (h : TokenKind.number.Fits w) :
    ∃ n, lexeme? (w ++ s) = some (.number, n) ∧ w.length ≤ n := by
  have hnumber : TokenKind.number.Fits (w ++ s.takeWhile Char.isDigit) := by
    obtain ⟨ds, hds, hall, hw⟩ := h
    refine ⟨ds ++ s.takeWhile Char.isDigit, List.append_ne_nil_of_left_ne_nil hds _, ?_, ?_⟩
    · rw [List.all_append, hall, List.all_takeWhile, Bool.and_self]
    · rcases hw with rfl | rfl
      · exact .inl rfl
      · exact .inr rfl
  have hread := lexeme?_number hnumber (stopsAt_dropWhile Char.isDigit s)
  rw [List.append_assoc, List.takeWhile_append_dropWhile] at hread
  refine ⟨_, hread, ?_⟩
  rw [List.length_append]
  exact Nat.le_add_right _ _

/-- **Where a lexeme stands, a token is cut off that is not shorter.** -/
theorem firstPiece_of_isLexemeAt {afterColon : Bool} {s : List Char} {k : TokenKind}
    {w : List Char} (h : IsLexemeAt afterColon s k w) :
    ∃ k' n, firstPiece afterColon s = (.token k', n) ∧ w.length ≤ n := by
  obtain ⟨hfits, ⟨rest, rfl⟩, hcolor, hlayout⟩ := h
  rw [List.drop_left] at hcolor hlayout
  -- A lexeme that ends where it has to is read as it is; the others may go on.
  have hends : k.EndsBefore rest → (k = .color → afterColon = true) →
      ∃ k' n, firstPiece afterColon (w ++ rest) = (.token k', n) ∧ w.length ≤ n :=
    fun hs hc => ⟨k, w.length, firstPiece_of_fits hfits hs hc, le_rfl⟩
  have hword : k.isWord →
      ∃ k' n, firstPiece afterColon (w ++ rest) = (.token k', n) ∧ w.length ≤ n := by
    intro hk
    obtain ⟨k', n, hl, hle⟩ := lexeme?_of_word hk (s := rest) hfits
    have hne : k ≠ .color := by rintro rfl; cases hk
    exact ⟨k', n, firstPiece_of_lexeme? afterColon hfits hne hl, hle⟩
  cases k
  case group | freeArrow | shapeName | identifier => exact hword rfl
  case arrow a =>
    obtain rfl : w = a.symbol.toList := hfits
    obtain ⟨b, hl, hle⟩ := lexeme?_of_arrow (List.prefix_append a.symbol.toList rest)
    exact ⟨_, _, firstPiece_of_lexeme? (k := .arrow a) afterColon rfl nofun hl, hle⟩
  case number =>
    obtain ⟨n, hl, hle⟩ := lexeme?_of_number (s := rest) hfits
    exact ⟨_, n, firstPiece_of_lexeme? afterColon hfits nofun hl, hle⟩
  case color => exact hends (hcolor rfl).2 fun _ => (hcolor rfl).1
  case layout => exact hends (hlayout rfl) nofun
  all_goals exact hends trivial nofun

/-! ## What is read as a token is a lexeme -/

theorem stopsAt_of_layoutLexeme? {s : List Char} {k : TokenKind} {n : Nat}
    (h : layoutLexeme? s = some (k, n)) : StopsAt isNameChar (s.drop n) := by
  obtain ⟨-, rfl, rest, rfl, hstop⟩ := exists_of_layoutLexeme? h
  exact hstop

theorem stopsAt_of_colorLength? {s : List Char} {n : Nat} (h : colorLength? s = some n) :
    StopsAt isNameChar (s.drop n) := by
  obtain ⟨w, rest, rfl, rfl, -, hstop⟩ := exists_of_colorLength? h
  rwa [List.drop_left]

/-- Behind the layout keyword no character of a name follows. -/
theorem stopsAt_of_lexeme?_layout {s : List Char} {n : Nat}
    (h : lexeme? s = some (.layout, n)) : StopsAt isNameChar (s.drop n) := by
  have hw : s.take n = '@' :: "layout".toList := fits_of_lexeme? h
  obtain ⟨rest, hrest⟩ := List.take_prefix n s
  rw [hw] at hrest
  rw [← hrest] at h ⊢
  exact stopsAt_of_layoutLexeme? ((lexeme?_of_at _).symm.trans h)

/-- **What is cut off as a token is a lexeme.** -/
theorem isLexemeAt_of_firstPiece {afterColon : Bool} {s : List Char} {k : TokenKind} {n : Nat}
    (h : firstPiece afterColon s = (.token k, n)) : IsLexemeAt afterColon s k (s.take n) := by
  have hfits := fits_of_firstPiece h
  have hdrop : s.drop (s.take n).length = s.drop n := by
    rw [List.length_take]
    rcases Nat.le_total n s.length with hn | hn
    · rw [Nat.min_eq_left hn]
    · rw [Nat.min_eq_right hn, List.drop_length, List.drop_of_length_le hn]
  refine ⟨hfits, List.take_prefix n s, ?_, ?_⟩ <;> rintro rfl <;> rw [hdrop]
  · obtain ⟨hcolon, hcolor⟩ := firstPiece_eq_color h
    exact ⟨hcolon, stopsAt_of_colorLength? hcolor⟩
  · rcases firstPiece_eq_token h with ⟨hk, -⟩ | ⟨-, hl⟩
    · cases hk
    · exact stopsAt_of_lexeme?_layout hl

/-- **A token is longer than all other lexemes at its start.** -/
theorem isLongestAt_of_firstPiece {afterColon : Bool} {s : List Char} {k : TokenKind} {n : Nat}
    (h : firstPiece afterColon s = (.token k, n)) : IsLongestAt afterColon s k (s.take n) := by
  have hlexeme := isLexemeAt_of_firstPiece h
  refine ⟨hlexeme, fun k' w' h' => ?_⟩
  obtain ⟨k'', n', hfirst, hle⟩ := firstPiece_of_isLexemeAt h'
  rw [h] at hfirst
  obtain ⟨-, rfl⟩ := Prod.mk.inj hfirst
  have hlength : w'.length ≤ (s.take n).length := by
    rw [List.length_take]
    exact Nat.le_min.mpr ⟨hle, h'.starts.length_le⟩
  rcases Nat.lt_or_eq_of_le hlength with hlt | heq
  · exact .inr hlt
  · have hsame : w' = s.take n :=
      (List.prefix_of_prefix_length_le h'.starts hlexeme.starts hlength).eq_of_length heq
    subst hsame
    exact .inl (by rw [h'.fits.unique hlexeme.fits])

/-- **Behind the longest lexeme no name goes on**, when it is a word or the layout keyword. -/
theorem IsLongestAt.stopsAt {afterColon : Bool} {k : TokenKind} {w s : List Char}
    (h : IsLongestAt afterColon (w ++ s) k w) (hk : k.isWord ∨ k = .layout) :
    StopsAt isNameChar s := by
  rcases hk with hk | hk
  · cases s with
    | nil => rfl
    | cons c s =>
      by_contra hc
      have hc : isNameChar c := by simpa using hc
      -- The word could be read on by one character.
      have hname := isName_append (isName_of_fits hk h.1.fits).1
        (show [c].all isNameChar by simp [hc])
      have hkind := isWord_wordKind (String.ofList (w ++ [c]))
      have hlonger : IsLexemeAt afterColon (w ++ c :: s) (wordKind (String.ofList (w ++ [c])))
          (w ++ [c]) := by
        refine ⟨fits_wordKind hname, ⟨s, List.append_assoc w [c] s⟩, ?_, ?_⟩ <;>
        · intro hbad
          rw [hbad] at hkind
          cases hkind
      rcases h.2 _ _ hlonger with hsame | hlt
      · exact absurd (Prod.mk.inj hsame).2 (by simp)
      · rw [List.length_append] at hlt
        omega
  · have hstop := h.1.layout hk
    rwa [List.drop_left] at hstop

/-- Where a token is cut off there is a lexeme, and the other way round. -/
theorem exists_isLexemeAt_iff {afterColon : Bool} {s : List Char} :
    (∃ k w, IsLexemeAt afterColon s k w) ↔ ∃ k n, firstPiece afterColon s = (.token k, n) := by
  constructor
  · rintro ⟨k, w, h⟩
    obtain ⟨k', n, hfirst, -⟩ := firstPiece_of_isLexemeAt h
    exact ⟨k', n, hfirst⟩
  · rintro ⟨k, n, h⟩
    exact ⟨k, _, isLexemeAt_of_firstPiece h⟩

/-! ## Reading on -/

/-- The class of the token that a piece is. -/
def Piece.tokenKind? (p : Piece) : Option TokenKind :=
  match p.kind with
  | .token k => some k
  | _ => none

/-- Whether the last of some tokens is a colon. -/
def endsInColon (ks : List TokenKind) : Bool := ks.getLast? = some .colon

/-- Whether the last token is a colon, once tokens of some classes have been read. -/
def colonBehind (afterColon : Bool) : List TokenKind → Bool
  | [] => afterColon
  | k :: ks => colonBehind (k = .colon) ks

theorem colonBehind_concat (afterColon : Bool) (ks : List TokenKind) (k : TokenKind) :
    colonBehind afterColon (ks ++ [k]) = decide (k = .colon) := by
  induction ks generalizing afterColon with
  | nil => rfl
  | cons k' ks ih => exact ih (k' = .colon)

theorem colonBehind_false (ks : List TokenKind) : colonBehind false ks = endsInColon ks := by
  rcases List.eq_nil_or_concat ks with rfl | ⟨ks, k, rfl⟩
  · rfl
  · rw [List.concat_eq_append, colonBehind_concat, endsInColon, List.getLast?_concat]
    simp

/-- What has been read before a piece decides how the piece is read. -/
theorem firstPiece_of_pieces {afterColon : Bool} {s : List Char} {before after : List Piece}
    {p : Piece} (h : pieces afterColon s = before ++ p :: after) :
    ∃ n, firstPiece (colonBehind afterColon (before.filterMap Piece.tokenKind?))
        (p.text ++ after.flatMap Piece.text) = (p.kind, n) ∧
      (0 < n → p.text = (p.text ++ after.flatMap Piece.text).take n) := by
  fun_induction pieces afterColon s generalizing before with
  | case1 => simp at h
  | case2 afterColon c cs kind n hfirst ih =>
    -- The piece is the first one here, or it is read behind one more, which may be a colon.
    cases before with
    | nil =>
      obtain ⟨rfl, rfl⟩ := List.cons.inj h
      have htext : c :: cs.take (n - 1) ++ (pieces (kind.colonAfter afterColon)
          (cs.drop (n - 1))).flatMap Piece.text = c :: cs := by
        rw [text_pieces, List.cons_append, List.take_append_drop]
      refine ⟨n, ?_, fun hn => ?_⟩
      · rw [htext]
        exact hfirst
      · rw [htext]
        obtain ⟨m, rfl⟩ := Nat.exists_eq_add_one.mpr hn
        rfl
    | cons q before =>
      obtain ⟨rfl, htail⟩ := List.cons.inj h
      have hcolon : colonBehind afterColon
          (((⟨kind, c :: cs.take (n - 1)⟩ : Piece) :: before).filterMap Piece.tokenKind?) =
            colonBehind (kind.colonAfter afterColon) (before.filterMap Piece.tokenKind?) := by
        cases kind <;> rfl
      rw [hcolon]
      exact ih htail

/-- The classes of the tokens that pieces are. -/
theorem map_kind_filterMap (xs : List (Piece × Span)) :
    (xs.filterMap Piece.token?).map Token.kind =
      (xs.map Prod.fst).filterMap Piece.tokenKind? := by
  rw [List.map_filterMap, List.filterMap_map]
  refine congrArg (List.filterMap · xs) (funext fun x => ?_)
  unfold Piece.token? Function.comp Piece.tokenKind?
  cases x.1.kind <;> rfl

/-- Every token of a text is a piece of it, behind the pieces that are the tokens in front. -/
theorem exists_pieces_of_tokenize {text : String} {before after : List Token} {t : Token}
    (h : (tokenize text).1 = before ++ t :: after) :
    ∃ front p back, pieces false text.toList = front ++ p :: back ∧ p.kind = .token t.kind ∧
      p.text = t.text.toList ∧ t.span.start = byteSize (front.flatMap Piece.text) ∧
      before.map Token.kind = front.filterMap Piece.tokenKind? := by
  rw [tokens_eq] at h
  obtain ⟨xs, ys, hsplit, hxs, hys⟩ := List.filterMap_eq_append_iff.mp h
  obtain ⟨zs, x, ys, rfl, hzs, hx, -⟩ := List.filterMap_eq_cons_iff.mp hys
  rw [← List.append_assoc] at hsplit
  obtain ⟨hpieces, hspan⟩ := of_locate_eq_append hsplit
  obtain ⟨htext, htoken, -⟩ := token?_eq_some hx
  refine ⟨_, x.1, _, hpieces, ?_, ?_, ?_, ?_⟩
  · unfold Piece.token? at hx
    split at hx
    · next k hk =>
      obtain rfl := Option.some.inj hx
      exact hk
    · cases hx
  · rw [htext, String.toList_ofList]
  · rw [htoken, hspan, Cursor.start_cover, Cursor.offset_start_skip]
  · have hnone : zs.filterMap Piece.token? = [] := List.filterMap_eq_nil_iff.mpr hzs
    rw [← map_kind_filterMap, List.filterMap_append, hxs, hnone, List.append_nil]

/-- **Every token is the longest lexeme at its start**, words and the layout keyword are not
followed by a character of a name, and a word has the class of its whole run of such characters.
Where anything else is read, no lexeme starts; and a `#` starts one exactly behind a colon, in front
of three to six hexadecimal digits that do not run into a name. -/
theorem isLongest_tokenize (text : String) :
    (∀ before t after, (tokenize text).1 = before ++ t :: after →
        ∃ a b, text.toList = a ++ t.text.toList ++ b ∧ t.span.start = byteSize a ∧
          IsLongestAt (endsInColon (before.map Token.kind)) (t.text.toList ++ b) t.kind
            t.text.toList ∧
          (t.kind.isWord ∨ t.kind = .layout → StopsAt isNameChar b) ∧
          (t.kind.isWord → (t.text.toList ++ b).takeWhile isNameChar = t.text.toList ∧
            wordKind t.text = t.kind)) ∧
      (∀ front p back, pieces false text.toList = front ++ p :: back →
        ((∃ k, p.kind = .token k) ↔
          ∃ k w, IsLexemeAt (endsInColon (front.filterMap Piece.tokenKind?))
            (p.text ++ back.flatMap Piece.text) k w)) ∧
      ∀ afterColon s,
        (∃ k w, IsLexemeAt afterColon ('#' :: s) k w) ↔ afterColon ∧ StartsColor s := by
  refine ⟨?_, ?_, fun afterColon s => exists_isLexemeAt_hash_iff⟩
  · intro before t after h
    obtain ⟨front, p, back, hpieces, hkind, hword, hstart, hkinds⟩ := exists_pieces_of_tokenize h
    obtain ⟨n, hfirst, htake⟩ := firstPiece_of_pieces hpieces
    rw [colonBehind_false, hkind, hword, ← hkinds] at hfirst
    rw [hword] at htake
    have hlongest := isLongestAt_of_firstPiece hfirst
    rw [← htake (pos_of_firstPiece hfirst)] at hlongest
    -- a longer word would be a longer lexeme
    have hstop := fun hk => hlongest.stopsAt hk
    refine ⟨_, _, ?_, hstart, hlongest, hstop, fun hk => ?_⟩
    · have htext := text_pieces false text.toList
      rw [hpieces, List.flatMap_append, List.flatMap_cons, hword, ← List.append_assoc] at htext
      exact htext.symm
    · obtain ⟨hname, hclass⟩ := isName_of_fits hk hlongest.1.fits
      refine ⟨takeWhile_append_stop (all_of_isName hname) (hstop (.inl hk)), ?_⟩
      rwa [String.ofList_toList] at hclass
  · intro front p back hpieces
    obtain ⟨n, hfirst, -⟩ := firstPiece_of_pieces hpieces
    rw [← colonBehind_false, exists_isLexemeAt_iff, hfirst]
    constructor
    · rintro ⟨k, hk⟩
      exact ⟨k, n, by rw [hk]⟩
    · rintro ⟨k, m, hk⟩
      exact ⟨k, (Prod.mk.inj hk).1⟩

/-- A colour behind a colon is read as one, and a word that begins like a keyword, behind an
operator that begins like another, is an identifier. -/
theorem isLongest_tokenize_groups :
    let text := "a: #ff0<->groups"
    let tokens := (tokenize text).1
    let t : Token := ⟨.identifier, "groups", ⟨10, 16, ⟨1, 11⟩, ⟨1, 16⟩⟩⟩
    let ps := pieces false text.toList
    let p : Piece := ⟨.token .color, "#ff0".toList⟩
    (tokens = tokens.take 4 ++ t :: tokens.drop 5 ∧
        ∃ a b, text.toList = a ++ "groups".toList ++ b ∧ 10 = byteSize a ∧
          IsLongestAt false ("groups".toList ++ b) .identifier "groups".toList ∧
          StopsAt isNameChar b ∧ ("groups".toList ++ b).takeWhile isNameChar = "groups".toList) ∧
      ps = ps.take 3 ++ p :: ps.drop 4 ∧
        ∃ k w, IsLexemeAt true (p.text ++ (ps.drop 4).flatMap Piece.text) k w := by
  intro text tokens t ps p
  obtain ⟨htokens, hpieces, -⟩ := isLongest_tokenize text
  have htoken : tokens = tokens.take 4 ++ t :: tokens.drop 5 := by decide +kernel
  have hpiece : ps = ps.take 3 ++ p :: ps.drop 4 := by decide +kernel
  refine ⟨⟨htoken, ?_⟩, hpiece, ?_⟩
  · have hcolon : endsInColon ((tokens.take 4).map Token.kind) = false := by decide +kernel
    obtain ⟨a, b, htext, hstart, hlongest, hstop, hrun⟩ := htokens _ t _ htoken
    rw [hcolon] at hlongest
    exact ⟨a, b, htext, hstart, hlongest, hstop (.inl rfl), (hrun rfl).1⟩
  · have hcolon : endsInColon ((ps.take 3).filterMap Piece.tokenKind?) = true := by decide +kernel
    have hiff := hpieces _ p _ hpiece
    rw [hcolon] at hiff
    exact hiff.mp ⟨.color, rfl⟩

end Diagram
