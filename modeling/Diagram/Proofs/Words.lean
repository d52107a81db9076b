import Diagram.Editor.Hover
import Diagram.Proofs.Names

/-!
# Words and the tokens of a text

The word at a place is found by looking at characters, and the tokens of a text are found by reading
it from the start.  A text in which nothing is stray is laid out as its tokens with white space and
comments between them, and this tells where a word can end: a character of a word that stands next
to a token is part of the token there, and only few tokens have such a character at their ends.
-/

namespace Diagram.Editor

open Syntax (runsOn)

/-! ## Characters of words -/

theorem isAlphanumeric_of_lt {c : Char} (h : c.toNat < 0x80) : isAlphanumeric c = c.isAlphanum :=
  if_pos h

theorem lt_of_isNameChar {c : Char} (h : isNameChar c) : c.toNat < 0x80 := by
  rw [isNameChar_iff, isNameStart_iff, isDigit_iff] at h
  omega

/-- Below the other alphabets a word consists of names, dots and at signs. -/
theorem isWordChar_iff {c : Char} (h : c.toNat < 0x80) :
    isWordChar c ↔ isNameChar c ∨ c = '.' ∨ c = '@' := by
  simp [isWordChar, isNameChar, isAlphanumeric_of_lt h, or_assoc]

theorem isWordChar_of_isNameChar {c : Char} (h : isNameChar c) : isWordChar c :=
  (isWordChar_iff (lt_of_isNameChar h)).mpr (.inl h)

/-- No white space is a letter or a number of another alphabet. -/
theorem any_alphanumericRanges_blank :
    ∀ n ∈ [0x85, 0xA0, 0x1680, 0x2028, 0x2029, 0x202F, 0x205F, 0x3000] ++
        (List.range 11).map (0x2000 + ·),
      (alphanumericRanges.any fun r => r.1 ≤ n && n ≤ r.2) = false := by
  decide +kernel

theorem not_isWordChar_of_isBlank {c : Char} (h : isBlank c) : isWordChar c = false := by
  by_cases hlt : c.toNat < 0x80
  · rw [Bool.eq_false_iff, ne_eq, isWordChar_iff hlt]
    rintro (hname | rfl | rfl)
    · rw [not_isBlank_of_isNameChar hname] at h
      cases h
    · cases h
    · cases h
  · have hmem : c.toNat ∈ [0x85, 0xA0, 0x1680, 0x2028, 0x2029, 0x202F, 0x205F, 0x3000] ++
        (List.range 11).map (0x2000 + ·) := by
      rw [isBlank_iff] at h
      simp only [List.mem_append, List.mem_map, List.mem_range]
      rcases h with h | h | h
      · simp only [List.mem_cons, List.not_mem_nil, or_false] at h ⊢
        omega
      · omega
      · exact .inr ⟨c.toNat - 0x2000, by omega, by omega⟩
    have hne : ∀ d : Char, d.toNat < 0x80 → c ≠ d := by
      rintro d hd rfl
      exact hlt hd
    simp [isWordChar, isAlphanumeric, hlt, any_alphanumericRanges_blank _ hmem,
      hne '_' (by decide), hne '.' (by decide), hne '@' (by decide)]

/-! ## The ends of tokens -/

/-- The classes of tokens behind which no character of a name follows. -/
def isSticky (k : TokenKind) : Bool := k.isWord || k = .layout || k = .color

/-- **What a word can run into behind it**: a name or a number, the layout keyword, or a dot. -/
theorem head_of_isWordChar {k : TokenKind} {c : Char} {cs : List Char} (h : k.Fits (c :: cs))
    (hc : isWordChar c) : isNameChar c ∨ c = '@' ∨ k = .dot := by
  have hword : k.isWord → isNameChar c := by
    intro hk
    exact List.all_eq_true.mp (all_of_isName (isName_of_fits hk h).1) c List.mem_cons_self
  -- The other tokens start with a character that is part of no word.
  have hother : ∀ w : List Char, c :: cs = w → w.head?.any isWordChar = false → False := by
    rintro _ rfl hw
    exact Bool.false_ne_true (hw.symm.trans hc)
  cases k with
  | group | freeArrow | shapeName | identifier => exact .inl (hword rfl)
  | layout => exact .inr (.inl (List.cons.inj h).1)
  | dot => exact .inr (.inr rfl)
  | number =>
    obtain ⟨ds, hne, hds, rfl | hminus⟩ := h
    · exact .inl (isNameChar_of_isDigit (List.all_eq_true.mp hds c List.mem_cons_self))
    · exact (hother _ hminus rfl).elim
  | string =>
    obtain ⟨body, -, hbody⟩ := h
    exact (hother _ hbody rfl).elim
  | color =>
    obtain ⟨ds, -, -, -, hds⟩ := h
    exact (hother _ hds rfl).elim
  | arrow a => exact (hother _ h (by cases a <;> rfl)).elim
  | leftBrace | rightBrace | leftParen | rightParen | colon | comma => exact (hother _ h rfl).elim

/-- **What a word can run into in front of it**: a token that no name can follow directly, a number,
or a dot. -/
theorem last_of_isWordChar {k : TokenKind} {c : Char} {cs : List Char} (h : k.Fits (cs ++ [c]))
    (hc : isWordChar c) : isSticky k ∨ runsOn k := by
  have hother : ∀ w : List Char, cs ++ [c] = w → w.getLast?.any isWordChar = false → False := by
    rintro _ rfl hw
    rw [List.getLast?_concat] at hw
    exact Bool.false_ne_true (hw.symm.trans hc)
  cases k with
  | group | freeArrow | shapeName | identifier | layout | color => exact .inl rfl
  | number | dot => exact .inr rfl
  | string =>
    obtain ⟨body, -, hbody⟩ := h
    rw [← List.cons_append] at hbody
    exact (hother _ hbody (by rw [List.getLast?_concat]; rfl)).elim
  | arrow a => exact (hother _ h (by cases a <;> rfl)).elim
  | leftBrace | rightBrace | leftParen | rightParen | colon | comma => exact (hother _ h rfl).elim

/-! ## The layout of a text -/

/-- A text that neither starts nor ends with a character of a word. -/
structure IsLoose (g : List Char) : Prop where
  head : ∀ c ∈ g.head?, isWordChar c = false
  last : ∀ c ∈ g.getLast?, isWordChar c = false

@[simp] theorem isLoose_nil : IsLoose [] := ⟨by simp, by simp⟩

/-- A text laid out as some tokens, `n` bytes behind the start: what is in front of each of them
and behind the last touches no word, and where no name can follow none does. -/
inductive IsLaidOut : Nat → List Char → List Token → Prop
  | done {n : Nat} {s : List Char} (hs : StopsAt isWordChar s) : IsLaidOut n s []
  | token {n : Nat} {g s : List Char} {t : Token} {ts : List Token} (hg : IsLoose g)
      (hfits : t.Fits) (hstart : t.span.start = n + byteSize g)
      (hstop : t.span.stop = n + byteSize (g ++ t.text.toList))
      (hsticky : isSticky t.kind → StopsAt isNameChar s)
      (h : IsLaidOut (n + byteSize (g ++ t.text.toList)) s ts) :
      IsLaidOut n (g ++ (t.text.toList ++ s)) (t :: ts)

/-- White space, and a comment up to the end of its line, may stand in front of a layout. -/
theorem IsLaidOut.skip {n : Nat} {c : Char} {w s : List Char} {ts : List Token}
    (hc : isWordChar c = false)
    (hlast : (∀ d ∈ (c :: w).getLast?, isWordChar d = false) ∨ StopsAt (· ≠ '\n') s)
    (h : IsLaidOut (n + byteSize (c :: w)) s ts) : IsLaidOut n (c :: w ++ s) ts := by
  cases h with
  | done hs => exact .done hc
  | @token _ g s t ts hg hfits hstart hstop hsticky h =>
    have hloose : IsLoose (c :: w ++ g) := by
      refine ⟨by simpa using hc, fun d hd => ?_⟩
      rw [List.getLast?_append] at hd
      cases hgl : g.getLast? with
      | some e => exact hg.last d (by simpa [hgl] using hd)
      | none =>
        obtain rfl : g = [] := List.getLast?_eq_none_iff.mp hgl
        rcases hlast with hlast | hbreak
        · exact hlast d (by simpa using hd)
        · -- Behind a comment there is a line break, and no token starts with one.
          obtain ⟨x, xs, hx, hblank, -⟩ := head_of_fits hfits
          rw [List.nil_append, hx, List.cons_append, stopsAt_cons] at hbreak
          obtain rfl : x = '\n' := by simpa using hbreak
          cases hblank
    rw [← List.append_assoc]
    refine .token hloose hfits ?_ ?_ hsticky ?_
    · rw [hstart, byteSize_append, Nat.add_assoc]
    · rw [hstop, List.append_assoc, byteSize_append (c :: w), Nat.add_assoc]
    · rw [List.append_assoc, byteSize_append, ← Nat.add_assoc]
      exact h

/-- No name goes on behind a token that is cut off. -/
theorem stopsAt_of_firstPiece {afterColon : Bool} {s : List Char} {k : TokenKind} {n : Nat}
    (h : firstPiece afterColon s = (.token k, n)) (hk : isSticky k) :
    StopsAt isNameChar (s.drop n) := by
  by_cases hcolor : k = .color
  · subst hcolor
    exact stopsAt_of_colorLength? (firstPiece_eq_color h).2
  · have hlongest : IsLongestAt afterColon (s.take n ++ s.drop n) k (s.take n) := by
      rw [List.take_append_drop]
      exact isLongestAt_of_firstPiece h
    refine hlongest.stopsAt ?_
    simpa [isSticky, hcolor] using hk

theorem isLaidOut_pieces {afterColon : Bool} {s : List Char} (h : IsClean afterColon s)
    (cur : Cursor) :
    IsLaidOut cur.offset s ((locate cur (pieces afterColon s)).filterMap Piece.token?) := by
  fun_induction pieces afterColon s generalizing cur with
  | case1 => exact .done rfl
  | case2 afterColon c cs kind n hfirst ih =>
    rw [IsClean, pieces, hfirst] at h
    obtain ⟨hstray, hclean⟩ := List.forall_mem_cons.mp h
    have ih := ih hclean (cur.skip (c :: cs.take (n - 1)))
    have hsplit : c :: cs.take (n - 1) ++ cs.drop (n - 1) = c :: cs := by
      rw [List.cons_append, List.take_append_drop]
    rw [Cursor.offset_skip] at ih
    rw [locate, ← hsplit]
    -- White space and comments join the gap in front of the next token; a stray there is none.
    rcases firstPiece_cases hfirst with ⟨hc, rfl, rfl⟩ | ⟨rfl, rfl, rfl⟩ | ⟨k, rfl⟩ | ⟨rfl, -⟩
    · refine ih.skip (not_isWordChar_of_isBlank hc) (.inl fun d hd => ?_)
      rw [(cut_takeWhile hc cs).1] at hd
      exact not_isWordChar_of_isBlank
        (List.all_eq_true.mp List.all_takeWhile d (List.mem_of_getLast? hd))
    · refine ih.skip (by decide) (.inr ?_)
      rw [(cut_takeWhile (p := (· ≠ '\n')) (c := '#') rfl cs).2]
      exact stopsAt_dropWhile _ _
    · have hfits := fits_of_cons hfirst
      have hsticky := stopsAt_of_firstPiece hfirst
      have hdrop : (c :: cs).drop n = cs.drop (n - 1) := by
        obtain ⟨m, rfl⟩ := Nat.exists_eq_add_one.mpr (pos_of_firstPiece hfirst)
        rfl
      rw [hdrop] at hsticky
      have htext : (String.ofList (c :: cs.take (n - 1))).toList = c :: cs.take (n - 1) :=
        String.toList_ofList
      have htoken := IsLaidOut.token (n := cur.offset) (g := []) (s := cs.drop (n - 1))
        (t := ⟨k, String.ofList (c :: cs.take (n - 1)), cur.cover (c :: cs.take (n - 1))⟩)
        isLoose_nil (by rwa [Token.Fits, htext]) rfl
        (by rw [Cursor.stop_cover, htext, List.nil_append]) hsticky
        (by rw [htext, List.nil_append]; exact ih)
      rw [htext, List.nil_append] at htoken
      exact htoken
    · exact absurd rfl hstray

/-- Joining keeps a stray piece stray. -/
theorem exists_stray_joinStray {ps : List Piece} {p : Piece} (hp : p ∈ ps)
    (hstray : p.kind = .stray) : ∃ q ∈ joinStray ps, q.kind = .stray := by
  induction ps with
  | nil => cases hp
  | cons r ps ih =>
    rw [joinStray]
    rcases List.mem_cons.mp hp with rfl | hp
    · split
      · exact ⟨p, List.mem_singleton_self p, hstray⟩
      · split
        · exact ⟨_, List.mem_cons_self, rfl⟩
        · exact ⟨p, List.mem_cons_self, hstray⟩
    · obtain ⟨q, hq, hkind⟩ := ih hp
      split
      · next hnil =>
        rw [hnil] at hq
        cases hq
      · next q' qs hcons =>
        rw [hcons] at hq
        split
        · exact ⟨_, List.mem_cons_self, rfl⟩
        · exact ⟨q, List.mem_cons_of_mem r hq, hkind⟩

/-- Where nothing is reported no character is stray. -/
theorem isClean_of_issues {text : String} (h : (tokenize text).2 = []) :
    IsClean false text.toList := by
  intro p hp hstray
  obtain ⟨q, hq, hkind⟩ := exists_stray_joinStray hp hstray
  rw [← map_fst_locate .start (joinStray (pieces false text.toList))] at hq
  obtain ⟨x, hx, rfl⟩ := List.mem_map.mp hq
  have hnone := List.filterMap_eq_nil_iff.mp h x hx
  simp [Piece.issue?, hkind] at hnone

/-- **A text in which nothing is stray is laid out as its tokens.** -/
theorem isLaidOut_tokenize {text : String} (h : (tokenize text).2 = []) :
    IsLaidOut 0 text.toList (tokenize text).1 := by
  rw [tokens_eq]
  exact isLaidOut_pieces (isClean_of_issues h) .start

/-- **What stands in front of some tokens**: nothing, or the last of those in front of them, behind
which no name goes on where none can. -/
theorem IsLaidOut.append {n : Nat} {s : List Char} {us ts : List Token}
    (h : IsLaidOut n s (us ++ ts)) :
    ∃ a b, s = a ++ b ∧ IsLaidOut (n + byteSize a) b ts ∧
      ((us = [] ∧ a = []) ∨ ∃ u, us.getLast? = some u ∧ u.Fits ∧ u.text.toList <:+ a ∧
        (isSticky u.kind → StopsAt isNameChar b)) := by
  induction us generalizing n s with
  | nil => exact ⟨[], s, rfl, by simpa using h, .inl ⟨rfl, rfl⟩⟩
  | cons u us ih =>
    cases h with
    | @token _ g s _ _ hg hfits hstart hstop hsticky h =>
      obtain ⟨a, b, rfl, hb, hfront⟩ := ih h
      refine ⟨g ++ (u.text.toList ++ a), b, by simp, ?_, .inr ?_⟩
      · simpa [Nat.add_assoc] using hb
      rcases hfront with ⟨rfl, rfl⟩ | ⟨v, hv, hvfits, hsuffix, hvsticky⟩
      · exact ⟨u, rfl, hfits, ⟨g, by simp⟩, by simpa using hsticky⟩
      · refine ⟨v, ?_, hvfits, ?_, hvsticky⟩
        · rw [List.getLast?_cons, hv]
          rfl
        · exact hsuffix.trans ⟨g ++ u.text.toList, by simp⟩

end Diagram.Editor
