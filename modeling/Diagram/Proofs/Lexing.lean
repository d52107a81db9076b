import Diagram.Proofs.Characters
import Diagram.Proofs.Lexeme

/-!
# Lexing

A text that fits a class of tokens is read as a token of that class, provided that
what stands behind it cannot continue it; and whatever is read as a token fits its
class.  A text put together from such tokens, white space and comment lines is read
back as its tokens.

## Main statements

* `firstPiece_of_fits` — a token is cut off a text in one piece.
* `fits_of_firstPiece` — what is cut off as a token has a text of its class.
-/

namespace Diagram

/-! ## Runs of characters -/

/-- A text that does not start with a character of the class. -/
def StopsAt (p : Char → Bool) (s : List Char) : Prop := s.head?.any p = false

@[simp] theorem stopsAt_nil (p : Char → Bool) : StopsAt p [] := rfl

@[simp] theorem stopsAt_cons (p : Char → Bool) (c : Char) (s : List Char) :
    StopsAt p (c :: s) ↔ p c = false := Iff.rfl

/-- A text that stops at a class stops at every smaller one. -/
theorem StopsAt.mono {p q : Char → Bool} {s : List Char} (h : StopsAt p s)
    (hqp : ∀ c, q c → p c) : StopsAt q s := by
  cases s with
  | nil => rfl
  | cons c s =>
    simp only [stopsAt_cons, Bool.eq_false_iff] at h ⊢
    exact fun hq => h (hqp c hq)

/-- A run of characters of a class ends where the text stops at the class. -/
theorem takeWhile_append_stop {p : Char → Bool} {w s : List Char} (hw : w.all p)
    (hs : StopsAt p s) : (w ++ s).takeWhile p = w := by
  rw [List.takeWhile_append_of_pos (List.all_eq_true.mp hw)]
  cases s with
  | nil => simp
  | cons c s => rw [List.takeWhile_cons_of_neg (by simpa using hs), List.append_nil]

/-- Where a text stops at a class nothing of the class is dropped. -/
theorem dropWhile_of_stopsAt {p : Char → Bool} {s : List Char} (h : StopsAt p s) :
    s.dropWhile p = s := by
  cases s with
  | nil => rfl
  | cons c s => exact List.dropWhile_cons_of_neg (by simpa using h)

/-- A run is as long as the part of the text it takes. -/
theorem take_length_takeWhile (p : Char → Bool) (s : List Char) :
    s.take (s.takeWhile p).length = s.takeWhile p :=
  (List.prefix_iff_eq_take.mp (List.takeWhile_prefix p)).symm

/-- Behind a run stands what is left when it is dropped. -/
theorem drop_length_takeWhile (p : Char → Bool) (s : List Char) :
    s.drop (s.takeWhile p).length = s.dropWhile p := by
  have hsplit := (List.takeWhile_append_dropWhile (p := p) (l := s)).symm
  calc s.drop (s.takeWhile p).length
      = (s.takeWhile p ++ s.dropWhile p).drop (s.takeWhile p).length := by rw [← hsplit]
    _ = s.dropWhile p := List.drop_left

/-- Behind a run of characters of a class the text stops at the class. -/
theorem stopsAt_dropWhile (p : Char → Bool) (s : List Char) : StopsAt p (s.dropWhile p) := by
  induction s with
  | nil => rfl
  | cons c s ih =>
    rw [List.dropWhile_cons]
    split
    · exact ih
    · next h => simpa using h

/-! ## One token -/

/-- What can stand behind a token of a class without continuing it. -/
def TokenKind.EndsBefore (k : TokenKind) (s : List Char) : Prop :=
  match k with
  | .arrow _ => s.head? ≠ some '>'
  | .group | .freeArrow | .layout | .shapeName | .color | .number | .identifier =>
    StopsAt isNameChar s
  | _ => True

@[simp] theorem TokenKind.endsBefore_nil (k : TokenKind) : k.EndsBefore [] := by
  cases k <;> simp [EndsBefore]

/-- Only three characters start an edge operator. -/
theorem arrowLexeme?_eq_none {c : Char} {s : List Char} (h : c ≠ '<' ∧ c ≠ '-' ∧ c ≠ '=') :
    arrowLexeme? (c :: s) = none := by
  obtain ⟨h₁, h₂, h₃⟩ := h
  simp [arrowLexeme?, Arrow.all, Arrow.symbol, List.isPrefixOf, Ne.symm h₁, Ne.symm h₂, Ne.symm h₃]

/-- Only a quote starts a string. -/
theorem stringLexeme?_eq_none {c : Char} {s : List Char} (h : c ≠ '"') :
    stringLexeme? (c :: s) = none := by
  unfold stringLexeme?
  split
  · next hc => exact absurd (List.cons.inj hc).1 h
  · rfl

/-- Only a digit or a minus sign starts a number. -/
theorem numberLexeme?_eq_none {c : Char} {s : List Char} (h : c ≠ '-') (hd : c.isDigit = false) :
    numberLexeme? (c :: s) = none := by
  simp [numberLexeme?, h, hd]

/-- Only one character starts the layout keyword. -/
theorem layoutLexeme?_eq_none {c : Char} {s : List Char} (h : c ≠ '@') :
    layoutLexeme? (c :: s) = none := by
  unfold layoutLexeme?
  split
  · next hc => exact absurd (List.cons.inj hc).1 h
  · rfl

/-- The first characters of the classes before words are no characters of names. -/
theorem lexeme?_of_isNameStart {c : Char} {s : List Char} (h : isNameStart c) :
    lexeme? (c :: s) = wordLexeme? (c :: s) := by
  have hc := isNameChar_of_isNameStart h
  have ha : arrowLexeme? (c :: s) = none := arrowLexeme?_eq_none
    ⟨ne_of_isNameChar hc (by decide), ne_of_isNameChar hc (by decide),
      ne_of_isNameChar hc (by decide)⟩
  have hs : stringLexeme? (c :: s) = none :=
    stringLexeme?_eq_none (ne_of_isNameChar hc (by decide))
  have hn : numberLexeme? (c :: s) = none :=
    numberLexeme?_eq_none (ne_of_isNameChar hc (by decide)) (not_isDigit_of_isNameStart h)
  have hl : layoutLexeme? (c :: s) = none :=
    layoutLexeme?_eq_none (ne_of_isNameChar hc (by decide))
  have hw : ∃ r, wordLexeme? (c :: s) = some r := by simp [wordLexeme?, h]
  obtain ⟨r, hr⟩ := hw
  simp [lexeme?, ha, hs, hn, hl, hr]

/-- A name consists of characters of names. -/
theorem all_of_isName {w : List Char} (h : isName w) : w.all isNameChar := by
  cases w with
  | nil => rfl
  | cons c cs =>
    simp only [isName, Bool.and_eq_true] at h
    rw [List.all_cons, isNameChar_of_isNameStart h.1, h.2]
    rfl

/-- A word is read up to its last character. -/
theorem lexeme?_word {k : TokenKind} (hk : k.isWord) {w s : List Char} (h : k.Fits w)
    (hs : StopsAt isNameChar s) : lexeme? (w ++ s) = some (k, w.length) := by
  obtain ⟨hn, hw⟩ := isName_of_fits hk h
  obtain ⟨c, cs, rfl⟩ : ∃ c cs, w = c :: cs := by
    cases w with
    | nil => exact Bool.noConfusion hn
    | cons c cs => exact ⟨c, cs, rfl⟩
  have hrun : (c :: cs ++ s).takeWhile isNameChar = c :: cs :=
    takeWhile_append_stop (all_of_isName hn) hs
  simp only [isName, Bool.and_eq_true] at hn
  rw [List.cons_append, lexeme?_of_isNameStart hn.1, ← List.cons_append]
  simp only [wordLexeme?, nameLength, hrun, hw]
  simp [hn.1]

/-- A number is read up to its last digit. -/
theorem lexeme?_number {w s : List Char} (h : TokenKind.number.Fits w)
    (hs : StopsAt Char.isDigit s) : lexeme? (w ++ s) = some (.number, w.length) := by
  obtain ⟨ds, hds, hall, hw⟩ := h
  obtain ⟨d, ds, rfl⟩ := List.exists_cons_of_ne_nil hds
  have hd : d.isDigit := List.all_eq_true.mp hall d (by simp)
  have hnd := isNameChar_of_isDigit hd
  have hrun : (d :: ds ++ s).takeWhile Char.isDigit = d :: ds :=
    takeWhile_append_stop hall hs
  have hminus : d ≠ '-' := ne_of_isNameChar hnd (by decide)
  rcases hw with rfl | rfl
  · have ha : arrowLexeme? (d :: ds ++ s) = none := arrowLexeme?_eq_none
      ⟨ne_of_isNameChar hnd (by decide), hminus, ne_of_isNameChar hnd (by decide)⟩
    have hq : stringLexeme? (d :: ds ++ s) = none :=
      stringLexeme?_eq_none (ne_of_isNameChar hnd (by decide))
    have hn : numberLexeme? (d :: ds ++ s) = some (.number, (d :: ds).length) := by
      simp only [numberLexeme?, List.cons_append, List.head?_cons, Option.some.injEq, hminus,
        if_false, List.drop_zero]
      rw [← List.cons_append, hrun]
      simp
    rw [lexeme?, ha, hq, hn]
    rfl
  -- an arrow starts with a minus sign too, but no digit follows there
  · have ha : arrowLexeme? ('-' :: (d :: ds ++ s)) = none := by
      have hgt : d ≠ '>' := ne_of_isNameChar hnd (by decide)
      simp [arrowLexeme?, Arrow.all, Arrow.symbol, List.isPrefixOf, Ne.symm hminus, Ne.symm hgt]
    have hq : stringLexeme? ('-' :: (d :: ds ++ s)) = none := stringLexeme?_eq_none (by decide)
    have hn : numberLexeme? ('-' :: (d :: ds ++ s)) = some (.number, ('-' :: d :: ds).length) := by
      simp only [numberLexeme?, List.head?_cons, if_true, List.drop_succ_cons, List.drop_zero, hrun]
      simp [Nat.add_comm]
    rw [List.cons_append, lexeme?, ha, hq, hn]
    rfl

/-- A string is read up to its second quote. -/
theorem lexeme?_string {w s : List Char} (h : TokenKind.string.Fits w) :
    lexeme? (w ++ s) = some (.string, w.length) := by
  obtain ⟨body, hb, rfl⟩ := h
  have hrun : (body ++ '"' :: s).takeWhile (· ≠ '"') = body := by
    refine takeWhile_append_stop (List.all_eq_true.mpr fun c hc => ?_) (by simp)
    have hne : c ≠ '"' := by
      rintro rfl
      exact hb hc
    simpa using hne
  have ha : arrowLexeme? ('"' :: (body ++ '"' :: s)) = none := arrowLexeme?_eq_none (by decide)
  have hq : stringLexeme? ('"' :: (body ++ '"' :: s)) = some (.string, body.length + 2) := by
    simp only [stringLexeme?, hrun]
    simp
  have hw : '"' :: (body ++ ['"']) ++ s = '"' :: (body ++ '"' :: s) := by simp
  rw [hw, lexeme?, ha, hq]
  simp

/-- An edge operator is read whole, unless a head follows that makes it longer. -/
theorem lexeme?_arrow {a : Arrow} {s : List Char} (hs : s.head? ≠ some '>') :
    lexeme? (a.symbol.toList ++ s) = some (.arrow a, a.symbol.toList.length) := by
  have ha : arrowLexeme? (a.symbol.toList ++ s) = some (.arrow a, a.symbol.toList.length) := by
    cases s with
    | nil => cases a <;> decide
    | cons c s =>
      have hc : ('>' == c) = false := by
        refine beq_eq_false_iff_ne.mpr ?_
        rintro rfl
        exact hs rfl
      cases a <;> simp [arrowLexeme?, Arrow.all, Arrow.symbol, List.isPrefixOf, hc] <;> rfl
  rw [lexeme?, ha]
  rfl

/-- The first character of the layout keyword starts no other class. -/
theorem lexeme?_of_at (s : List Char) : lexeme? ('@' :: s) = layoutLexeme? ('@' :: s) := by
  have ha : arrowLexeme? ('@' :: s) = none := arrowLexeme?_eq_none (by decide)
  have hq : stringLexeme? ('@' :: s) = none := stringLexeme?_eq_none (by decide)
  have hn : numberLexeme? ('@' :: s) = none := numberLexeme?_eq_none (by decide) (by decide)
  have hw : wordLexeme? ('@' :: s) = none := rfl
  have hp : punctuationLexeme? ('@' :: s) = none := rfl
  simp [lexeme?, ha, hq, hn, hw, hp]

/-- The layout keyword is read whole. -/
theorem lexeme?_layout {s : List Char} (hs : StopsAt isNameChar s) :
    lexeme? ("@layout".toList ++ s) = some (.layout, 7) := by
  have hrun : ("layout".toList ++ s).takeWhile isNameChar = "layout".toList :=
    takeWhile_append_stop (by decide) hs
  have hw : "@layout".toList ++ s = '@' :: ("layout".toList ++ s) := rfl
  rw [hw, lexeme?_of_at]
  unfold layoutLexeme?
  simp only [hrun, if_true]

/-- Punctuation is read one character at a time. -/
theorem lexeme?_punctuation {k : TokenKind} {c : Char} (h : punctuation? c = some k)
    (s : List Char) : lexeme? (c :: s) = some (k, 1) := by
  have hc : c ∈ ['\x7b', '\x7d', '(', ')', ':', ',', '.'] := by
    revert h
    unfold punctuation?
    split <;> simp
  have hcases : (c ≠ '<' ∧ c ≠ '-' ∧ c ≠ '=') ∧ c ≠ '"' ∧ c ≠ '-' ∧ c.isDigit = false ∧ c ≠ '@' ∧
      isNameStart c = false := by
    simp only [List.mem_cons, List.not_mem_nil, or_false] at hc
    rcases hc with rfl | rfl | rfl | rfl | rfl | rfl | rfl <;> decide
  obtain ⟨ha, hq, hm, hd, hat, hn⟩ := hcases
  simp [lexeme?, arrowLexeme?_eq_none ha, stringLexeme?_eq_none hq, numberLexeme?_eq_none hm hd,
    layoutLexeme?_eq_none hat, wordLexeme?, hn, punctuationLexeme?, h]

/-- A colour is read up to its last digit. -/
theorem colorLength?_of_fits {w s : List Char} (h : TokenKind.color.Fits w)
    (hs : StopsAt isNameChar s) : colorLength? (w ++ s) = some w.length := by
  obtain ⟨ds, h₃, h₆, hall, rfl⟩ := h
  have hrun : (ds ++ s).takeWhile isHexDigit = ds :=
    takeWhile_append_stop hall (hs.mono fun _ => isNameChar_of_isHexDigit)
  have htake : ds.take 6 = ds := List.take_of_length_le h₆
  have hstop : s.head?.any isNameChar = false := hs
  simp [colorLength?, hrun, htake, h₃, hstop]

/-- The first character of a token is not white space, and a `#` in a colour only. -/
theorem head_of_fits {k : TokenKind} {w : List Char} (h : k.Fits w) :
    ∃ c cs, w = c :: cs ∧ isBlank c = false ∧ (c = '#' ↔ k = .color) := by
  have hword : k.isWord → ∃ c cs, w = c :: cs ∧ isBlank c = false ∧ (c = '#' ↔ k = .color) := by
    intro hk
    have hn := (isName_of_fits hk h).1
    cases w with
    | nil => exact Bool.noConfusion hn
    | cons c cs =>
      simp only [isName, Bool.and_eq_true] at hn
      have hc := isNameChar_of_isNameStart hn.1
      refine ⟨c, cs, rfl, not_isBlank_of_isNameChar hc, ?_⟩
      have hne : c ≠ '#' := ne_of_isNameChar hc (by decide)
      cases k <;> simp_all [TokenKind.isWord]
  cases k
  case group | freeArrow | shapeName | identifier => exact hword rfl
  case color =>
    obtain ⟨ds, -, -, -, rfl⟩ := h
    exact ⟨'#', ds, rfl, by decide, by simp⟩
  case string =>
    obtain ⟨body, -, rfl⟩ := h
    exact ⟨'"', _, rfl, by decide, by simp⟩
  case number =>
    obtain ⟨ds, hds, hall, hw⟩ := h
    obtain ⟨d, ds, rfl⟩ := List.exists_cons_of_ne_nil hds
    have hd := isNameChar_of_isDigit (List.all_eq_true.mp hall d (by simp))
    have hne : d ≠ '#' := ne_of_isNameChar hd (by decide)
    rcases hw with rfl | rfl
    · exact ⟨d, ds, rfl, not_isBlank_of_isNameChar hd, by simp [hne]⟩
    · exact ⟨'-', d :: ds, rfl, by decide, by simp⟩
  case arrow a => subst h; cases a <;> exact ⟨_, _, rfl, by decide, by decide⟩
  all_goals subst h; exact ⟨_, _, rfl, by decide, by decide⟩

/-- A token is no empty text. -/
theorem ne_nil_of_fits {k : TokenKind} {w : List Char} (h : k.Fits w) : w ≠ [] := by
  obtain ⟨c, cs, rfl, -⟩ := head_of_fits h
  simp

/-- A text of a class, with an end behind it, is read as a token of the class. -/
theorem lexeme?_of_fits {k : TokenKind} (hk : k ≠ .color) {w s : List Char} (h : k.Fits w)
    (hs : k.EndsBefore s) : lexeme? (w ++ s) = some (k, w.length) := by
  cases k
  case group | freeArrow | shapeName | identifier => exact lexeme?_word rfl h hs
  case layout => subst h; exact lexeme?_layout hs
  case arrow a => subst h; exact lexeme?_arrow hs
  case string => exact lexeme?_string h
  case number => exact lexeme?_number h (hs.mono fun _ => isNameChar_of_isDigit)
  case color => exact absurd rfl hk
  all_goals subst h; exact lexeme?_punctuation rfl s

/-- Where a text of a class stands, a piece is cut off by the class that is read there. -/
theorem firstPiece_of_lexeme? {k k' : TokenKind} {w s : List Char} {n : Nat} (afterColon : Bool)
    (h : k.Fits w) (hk : k ≠ .color) (hl : lexeme? (w ++ s) = some (k', n)) :
    firstPiece afterColon (w ++ s) = (.token k', n) := by
  obtain ⟨c, cs, hw, hblank, hhash⟩ := head_of_fits h
  have hhead : (w ++ s).head? = some c := by rw [hw]; rfl
  simp only [firstPiece, hhead, Option.any_some, hblank, Bool.false_eq_true, if_false,
    Option.some.injEq]
  rw [if_neg (mt hhash.mp hk), hl]

/-- **A text of a class is cut off as one token.**  A colour has to follow a colon. -/
theorem firstPiece_of_fits {k : TokenKind} {w s : List Char} {afterColon : Bool} (h : k.Fits w)
    (hs : k.EndsBefore s) (hc : k = .color → afterColon = true) :
    firstPiece afterColon (w ++ s) = (.token k, w.length) := by
  by_cases hk : k = .color
  · obtain ⟨c, cs, hw, hblank, hhash⟩ := head_of_fits h
    have hhead : (w ++ s).head? = some c := by rw [hw]; rfl
    subst hk
    simp only [firstPiece, hhead, Option.any_some, hblank, Bool.false_eq_true, if_false,
      Option.some.injEq]
    rw [if_pos (hhash.mpr rfl), if_pos (hc rfl), colorLength?_of_fits h hs]
  · exact firstPiece_of_lexeme? afterColon h hk (lexeme?_of_fits hk h hs)

/-! ## What is read as a token fits its class -/

theorem fits_of_arrowLexeme? {s : List Char} {k : TokenKind} {n : Nat}
    (h : arrowLexeme? s = some (k, n)) : k.Fits (s.take n) := by
  obtain ⟨a, ha, heq⟩ := Option.map_eq_some_iff.mp h
  obtain ⟨rfl, rfl⟩ := Prod.mk.inj heq
  have hpre := List.find?_some ha
  obtain ⟨t, rfl⟩ := List.isPrefixOf_iff_prefix.mp hpre
  have hlen : a.symbol.length = a.symbol.toList.length := String.length_toList.symm
  rw [hlen, List.take_left]
  rfl

theorem fits_of_stringLexeme? {s : List Char} {k : TokenKind} {n : Nat}
    (h : stringLexeme? s = some (k, n)) : k.Fits (s.take n) := by
  unfold stringLexeme? at h
  split at h
  · next rest =>
    simp only at h
    split at h
    · next hlt =>
      obtain ⟨rfl, rfl⟩ := Prod.mk.inj (Option.some.inj h)
      have happ := List.takeWhile_append_dropWhile (p := (· ≠ '"')) (l := rest)
      have hall := List.all_takeWhile (p := (· ≠ '"')) (l := rest)
      have hstop := stopsAt_dropWhile (· ≠ '"') rest
      generalize rest.takeWhile (· ≠ '"') = body at happ hlt hall ⊢
      generalize rest.dropWhile (· ≠ '"') = tail at happ hstop
      -- the string is closed, for otherwise its body would be all that is left
      cases tail with
      | nil =>
        rw [List.append_nil] at happ
        rw [happ] at hlt
        exact absurd hlt (Nat.lt_irrefl _)
      | cons c tail =>
        obtain rfl : c = '"' := by simpa using hstop
        refine ⟨body, ?_, ?_⟩
        · intro hq
          simpa using List.all_eq_true.mp hall _ hq
        · have htake : (body ++ '"' :: tail).take (body.length + 1) = body ++ ['"'] := by
            rw [List.take_append, List.take_of_length_le (Nat.le_succ _)]
            simp
          rw [← happ, List.take_succ_cons, htake]
    · cases h
  · cases h

theorem fits_of_numberLexeme? {s : List Char} {k : TokenKind} {n : Nat}
    (h : numberLexeme? s = some (k, n)) : k.Fits (s.take n) := by
  have hrun : ∀ r : List Char, 0 < (r.takeWhile Char.isDigit).length →
      r.takeWhile Char.isDigit ≠ [] ∧ (r.takeWhile Char.isDigit).all Char.isDigit :=
    fun r hr => ⟨List.ne_nil_of_length_pos hr, List.all_takeWhile⟩
  cases s with
  | nil => cases h
  | cons c s =>
    by_cases hc : c = '-'
    · subst hc
      simp only [numberLexeme?, List.head?_cons, if_true, List.drop_succ_cons, List.drop_zero] at h
      split at h
      · next hlt =>
        obtain ⟨rfl, rfl⟩ := Prod.mk.inj (Option.some.inj h)
        refine ⟨s.takeWhile Char.isDigit, (hrun s hlt).1, (hrun s hlt).2, .inr ?_⟩
        rw [Nat.add_comm, List.take_succ_cons, take_length_takeWhile]
      · cases h
    · simp only [numberLexeme?, List.head?_cons, Option.some.injEq, hc, if_false, List.drop_zero,
        Nat.zero_add] at h
      split at h
      · next hlt =>
        obtain ⟨rfl, rfl⟩ := Prod.mk.inj (Option.some.inj h)
        exact ⟨_, (hrun _ hlt).1, (hrun _ hlt).2, .inl (take_length_takeWhile _ _)⟩
      · cases h

/-- The layout keyword is read where it stands with no name going on behind it. -/
theorem exists_of_layoutLexeme? {s : List Char} {k : TokenKind} {n : Nat}
    (h : layoutLexeme? s = some (k, n)) :
    k = .layout ∧ n = 7 ∧ ∃ rest, s = "@layout".toList ++ rest ∧ StopsAt isNameChar rest := by
  unfold layoutLexeme? at h
  split at h
  · next rest =>
    split at h
    · next hrun =>
      obtain ⟨rfl, rfl⟩ := Prod.mk.inj (Option.some.inj h)
      have happ := List.takeWhile_append_dropWhile (p := isNameChar) (l := rest)
      rw [hrun] at happ
      exact ⟨rfl, rfl, rest.dropWhile isNameChar, congrArg (List.cons '@') happ.symm,
        stopsAt_dropWhile _ _⟩
    · cases h
  · cases h

theorem fits_of_layoutLexeme? {s : List Char} {k : TokenKind} {n : Nat}
    (h : layoutLexeme? s = some (k, n)) : k.Fits (s.take n) := by
  obtain ⟨rfl, rfl, rest, rfl, -⟩ := exists_of_layoutLexeme? h
  rfl

theorem fits_of_wordLexeme? {s : List Char} {k : TokenKind} {n : Nat}
    (h : wordLexeme? s = some (k, n)) : k.Fits (s.take n) := by
  unfold wordLexeme? at h
  split at h
  · next hc =>
    obtain ⟨rfl, rfl⟩ := Prod.mk.inj (Option.some.inj h)
    rw [nameLength, take_length_takeWhile]
    refine fits_wordKind ?_
    cases s with
    | nil => exact Bool.noConfusion hc
    | cons c s =>
      have hc : isNameStart c := hc
      rw [List.takeWhile_cons_of_pos (isNameChar_of_isNameStart hc)]
      simp only [isName, hc, Bool.true_and]
      exact List.all_takeWhile
  · cases h

theorem fits_of_punctuationLexeme? {s : List Char} {k : TokenKind} {n : Nat}
    (h : punctuationLexeme? s = some (k, n)) : k.Fits (s.take n) := by
  obtain ⟨k', hk, heq⟩ := Option.map_eq_some_iff.mp h
  obtain ⟨rfl, rfl⟩ := Prod.mk.inj heq
  obtain ⟨c, hc, hp⟩ := Option.bind_eq_some_iff.mp hk
  obtain ⟨s, rfl⟩ := List.head?_eq_some_iff.mp hc
  clear hk h
  unfold punctuation? at hp
  split at hp <;> cases hp <;> rfl

/-- Whatever is read as a token has a text of its class. -/
theorem fits_of_lexeme? {s : List Char} {k : TokenKind} {n : Nat} (h : lexeme? s = some (k, n)) :
    k.Fits (s.take n) := by
  simp only [lexeme?, Option.orElse_eq_orElse, Option.orElse_eq_or, Option.or_eq_some_iff] at h
  rcases h with h | ⟨-, h | ⟨-, h | ⟨-, h | ⟨-, h | ⟨-, h⟩⟩⟩⟩⟩
  · exact fits_of_arrowLexeme? h
  · exact fits_of_stringLexeme? h
  · exact fits_of_numberLexeme? h
  · exact fits_of_layoutLexeme? h
  · exact fits_of_wordLexeme? h
  · exact fits_of_punctuationLexeme? h

/-- A colour is read where one stands with no name going on behind it. -/
theorem exists_of_colorLength? {s : List Char} {n : Nat} (h : colorLength? s = some n) :
    ∃ w rest, s = w ++ rest ∧ n = w.length ∧ TokenKind.color.Fits w ∧ StopsAt isNameChar rest := by
  unfold colorLength? at h
  split at h
  · next rest =>
    simp only at h
    split at h
    · next hrun =>
      obtain rfl := Option.some.inj h
      have hpre : (rest.takeWhile isHexDigit).take 6 <+: rest :=
        (List.take_prefix _ _).trans (List.takeWhile_prefix _)
      refine ⟨_, _, congrArg (List.cons '#') (List.prefix_iff_eq_append.mp hpre).symm, rfl,
        ⟨_, hrun.1, List.length_take_le _ _, ?_, rfl⟩, Bool.eq_false_iff.mpr hrun.2⟩
      exact List.all_eq_true.mpr fun c hc =>
        List.all_eq_true.mp List.all_takeWhile c (List.mem_of_mem_take hc)
    · cases h
  · cases h

theorem fits_of_colorLength? {s : List Char} {n : Nat} (h : colorLength? s = some n) :
    TokenKind.color.Fits (s.take n) := by
  obtain ⟨w, rest, rfl, rfl, hfits, -⟩ := exists_of_colorLength? h
  rwa [List.take_left]

/-- **What is cut off as a token** is a colour behind a colon, or what is read at a place without a
`#`. -/
theorem firstPiece_eq_token {afterColon : Bool} {s : List Char} {k : TokenKind} {n : Nat}
    (h : firstPiece afterColon s = (.token k, n)) :
    (k = .color ∧ afterColon = true ∧ colorLength? s = some n) ∨
      (s.head? ≠ some '#' ∧ lexeme? s = some (k, n)) := by
  unfold firstPiece at h
  split at h
  · simp at h
  split at h
  · split at h
    · next hcolor =>
      obtain ⟨hk, rfl⟩ := Prod.mk.inj h
      obtain rfl := PieceKind.token.inj hk
      cases afterColon with
      | true => exact .inl ⟨rfl, rfl, hcolor⟩
      | false => cases hcolor
    · simp at h
  · next hhash =>
    split at h
    · next hl =>
      obtain ⟨hk, rfl⟩ := Prod.mk.inj h
      obtain rfl := PieceKind.token.inj hk
      exact .inr ⟨hhash, hl⟩
    · simp at h

/-- **Whatever is cut off as a token has a text of its class.** -/
theorem fits_of_firstPiece {afterColon : Bool} {s : List Char} {k : TokenKind} {n : Nat}
    (h : firstPiece afterColon s = (.token k, n)) : k.Fits (s.take n) := by
  rcases firstPiece_eq_token h with ⟨rfl, -, hcolor⟩ | ⟨-, hl⟩
  · exact fits_of_colorLength? hcolor
  · exact fits_of_lexeme? hl

/-- A token is cut off with at least one character. -/
theorem pos_of_firstPiece {afterColon : Bool} {s : List Char} {k : TokenKind} {n : Nat}
    (h : firstPiece afterColon s = (.token k, n)) : 0 < n := by
  refine Nat.pos_of_ne_zero ?_
  rintro rfl
  exact ne_nil_of_fits (fits_of_firstPiece h) rfl

/-- A colour is cut off behind a colon only. -/
theorem firstPiece_eq_color {afterColon : Bool} {s : List Char} {n : Nat}
    (h : firstPiece afterColon s = (.token .color, n)) :
    afterColon = true ∧ colorLength? s = some n := by
  rcases firstPiece_eq_token h with ⟨-, hcolor⟩ | ⟨hhash, -⟩
  · exact hcolor
  · obtain ⟨c, cs, hw, -, hc⟩ := head_of_fits (fits_of_firstPiece h)
    obtain ⟨rest, hrest⟩ := List.take_prefix n s
    refine absurd ?_ hhash
    rw [← hrest, hw, hc.mpr rfl]
    rfl

end Diagram
