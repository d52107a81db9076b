import Mathlib.Data.List.DropRight
import Diagram.Proofs.Words

/-!
# Names in one piece

A name is read from tokens, which may have white space and comments between them and other tokens
behind them; the word at a place is what stands there without a gap.  In a text without messages
both are the same for a name that stands in one piece, with nothing around its dot and no directive
joined to its end, and for no other.

## Main definitions

* `IsAt`, `StandsIn` — where the parts of a name stand, and what stands next to them.
* `StandsInOnePiece` — a name that stands in a text as it is called.

## Main statements

* `standsIn_of_hasName` — the names of a text stand in it.
* `IsAt.wordAt` — the word at a character of a part.
* `StandsIn.wordAt_iff` — it is the name exactly where this stands in one piece.
-/

namespace Diagram.Editor

open Syntax

variable {text : List Char} {tokens : List Token} {n : NodeName} {a b g s w : List Char}

/-! ## Where a name stands -/

/-- A part of a name that stands in a text between `a` and `b`. -/
structure IsAt (text : List Char) (part : Located String) (a b : List Char) : Prop where
  text_eq : text = a ++ (part.value.toList ++ b)
  isName : isName part.value.toList
  start : part.span.start = byteSize a
  stop : part.span.stop = byteSize (a ++ part.value.toList)

/-- A name of one word, between `a` and `b`.  In front of it no word ends, and behind it a word goes
on with an at sign only. -/
structure IsSingle (text : List Char) (head : Located String) (a b : List Char) : Prop where
  first : IsAt text head a b
  front : a.rtakeWhile isWordChar = []
  behind : ∀ c ∈ b.head?, isWordChar c → c = '@'

/-- A name with a dot, between `a` and `b`, with `g` in front of the dot and `k` behind it.  These
touch no word. -/
structure IsDotted (text : List Char) (head member : Located String) (a g k b : List Char) :
    Prop where
  first : IsAt text head a (g ++ '.' :: (k ++ (member.value.toList ++ b)))
  second : IsAt text member (a ++ (head.value.toList ++ (g ++ '.' :: k))) b
  front : a.rtakeWhile isWordChar = []
  behind : ∀ c ∈ b.head?, isWordChar c → c = '@'
  loose_left : IsLoose g
  loose_right : IsLoose k

/-- A name in a text, and what stands next to its parts. -/
inductive StandsIn (text : List Char) : NodeName → Prop
  | single {head : Located String} {a b : List Char} (h : IsSingle text head a b) :
    StandsIn text ⟨head, none⟩
  | dotted {head member : Located String} {a g k b : List Char}
    (h : IsDotted text head member a g k b) : StandsIn text ⟨head, some member⟩

/-- In front of a name no word ends. -/
theorem rtakeWhile_front {us : List Token} {x : Char} {xs : List Char}
    (hg : IsLoose g) (hx : isNameChar x) (hus : EndsApart (us.map Token.lexeme))
    (hfront : (us = [] ∧ a = []) ∨ ∃ u, us.getLast? = some u ∧ u.Fits ∧ u.text.toList <:+ a ∧
      (isSticky u.kind → StopsAt isNameChar (g ++ x :: xs))) :
    (a ++ g).rtakeWhile isWordChar = [] := by
  rw [List.rtakeWhile_eq_nil_iff]
  intro hne hword
  have hlast := List.getLast?_eq_some_getLast hne
  generalize (a ++ g).getLast hne = c at hword hlast
  rw [List.getLast?_append] at hlast
  -- The character in front is in the gap, or the last of the token before it when there is no gap.
  cases hgl : g.getLast? with
  | some d =>
    obtain rfl : d = c := by simpa [hgl] using hlast
    exact Bool.false_ne_true ((hg.last d hgl).symm.trans hword)
  | none =>
    obtain rfl : g = [] := List.getLast?_eq_none_iff.mp hgl
    have hlast : a.getLast? = some c := by simpa using hlast
    rcases hfront with ⟨-, rfl⟩ | ⟨u, hu, hfits, hsuffix, hsticky⟩
    · cases hlast
    · obtain ⟨cs, d, hd, -⟩ := last_of_fits hfits
      obtain ⟨before, rfl⟩ := hsuffix
      obtain rfl : d = c := by
        rw [hd, ← List.append_assoc, List.getLast?_concat] at hlast
        exact Option.some.inj hlast
      have hfits : u.kind.Fits (cs ++ [d]) := hd ▸ hfits
      -- a token that ends in a word either sticks to the name or may not stand in front of one
      rcases last_of_isWordChar hfits hword with hstick | hruns
      · have hstop := hsticky hstick
        rw [List.nil_append, stopsAt_cons, hx] at hstop
        cases hstop
      · have hapart := hus u.lexeme (by rw [List.getLast?_map, hu]; rfl)
        rw [kind_lexeme, hruns] at hapart
        cases hapart

/-- Behind a name a word goes on with an at sign only. -/
theorem eq_at_of_isLaidOut {m : Nat} {ts : List Token} (h : IsLaidOut m s ts)
    (hstop : StopsAt isNameChar s) (hdot : startsWith .dot ts = false) :
    ∀ c ∈ s.head?, isWordChar c → c = '@' := by
  intro c hc hword
  cases h with
  | done hs =>
    obtain ⟨s, rfl⟩ := List.head?_eq_some_iff.mp hc
    rw [stopsAt_cons, hword] at hs
    cases hs
  | @token _ g s t ts hg hfits _ _ _ _ =>
    cases g with
    | cons d g =>
      obtain rfl : d = c := Option.some.inj hc
      exact absurd hword (by rw [hg.head d rfl]; exact Bool.false_ne_true)
    | nil =>
      obtain ⟨x, xs, hx, -⟩ := head_of_fits hfits
      rw [List.nil_append, hx, List.cons_append] at hc hstop
      obtain rfl : x = c := Option.some.inj hc
      have hfits : t.kind.Fits (x :: xs) := hx ▸ hfits
      -- a character of a name would have been read with the name, and a dot does not follow
      rcases head_of_isWordChar hfits hword with hname | hat | hkind
      · rw [stopsAt_cons, hname] at hstop
        cases hstop
      · exact hat
      · rw [startsWith, hkind] at hdot
        cases hdot

/-- What a name is read from. -/
theorem exists_tokens_of_nodeName {s rest : List Token} (h : nodeName s = .ok (n, rest)) :
    (∃ t, s = t :: rest ∧ t.kind = .identifier ∧ n = ⟨Token.located t, none⟩) ∨
      ∃ t d u, s = t :: d :: u :: rest ∧ t.kind = .identifier ∧ d.kind = .dot ∧
        u.kind = .identifier ∧ n = ⟨Token.located t, some (Token.located u)⟩ := by
  obtain ⟨head, member⟩ := n
  rcases nodeName_eq_ok.mp h with ⟨h₁, -, rfl⟩ | ⟨d, s₁, m, h₁, hdot, h₂, rfl⟩
  · obtain ⟨t, rfl, ht, rfl⟩ := identifier_eq_ok.mp h₁
    exact .inl ⟨t, rfl, ht, rfl⟩
  · obtain ⟨t, rfl, ht, rfl⟩ := identifier_eq_ok.mp h₁
    obtain ⟨u, rfl, hu, rfl⟩ := identifier_eq_ok.mp h₂
    exact .inr ⟨t, d, u, rfl, ht, hdot, hu, rfl⟩

theorem isName_of_identifier {t : Token} (ht : t.kind = .identifier) (h : t.Fits) :
    isName t.text.toList := by
  rw [Token.Fits, ht] at h
  exact h.1

theorem exists_cons_of_isName (h : isName w) : ∃ x xs, w = x :: xs ∧ isNameChar x := by
  cases w with
  | nil => cases h
  | cons x xs => exact ⟨x, xs, rfl, List.all_eq_true.mp (all_of_isName h) x List.mem_cons_self⟩

theorem isSticky_identifier {t : Token} (ht : t.kind = .identifier) : isSticky t.kind := by
  rw [ht]
  rfl

/-- **Where the parts of a name stand**, and what stands next to them. -/
theorem standsIn_of_hasName (hlaid : IsLaidOut 0 text tokens) (h : HasName tokens n) :
    StandsIn text n := by
  obtain ⟨before, s', rest, rfl, hbefore, hname, hdot⟩ := h
  obtain ⟨a, b, rfl, hb, hfront⟩ := hlaid.append
  rw [Nat.zero_add] at hb
  rcases exists_tokens_of_nodeName hname with ⟨t, rfl, ht, rfl⟩ | ⟨t, d, u, rfl, ht, hd, hu, rfl⟩
  · -- A name is one word, or two with a dot; the layout is taken apart token by token.
    cases hb with
    | @token _ g s _ _ hg hfits hstart hstop hsticky hrest =>
      have hisName := isName_of_identifier ht hfits
      obtain ⟨x, xs, hx, hchar⟩ := exists_cons_of_isName hisName
      rw [hx, List.cons_append] at hfront
      refine .single (a := a ++ g) (b := s) ⟨⟨(List.append_assoc a g _).symm, hisName, ?_, ?_⟩,
        rtakeWhile_front hg hchar hbefore hfront,
        eq_at_of_isLaidOut hrest (hsticky (isSticky_identifier ht)) hdot⟩
      · simpa [Token.located] using hstart
      · simpa [Token.located, Nat.add_assoc] using hstop
  · cases hb with
    | @token _ g₀ s _ _ hg₀ hfits hstart hstop _ hrest =>
      cases hrest with
      | @token _ g s _ _ hg hdfits _ _ _ hrest =>
        cases hrest with
        | @token _ k s _ _ hk hufits hstart' hstop' hsticky hrest =>
          have hdtext : d.text.toList = ['.'] := by
            rw [Token.Fits, hd] at hdfits
            exact hdfits
          have hhead := isName_of_identifier ht hfits
          obtain ⟨x, xs, hx, hchar⟩ := exists_cons_of_isName hhead
          rw [hx, List.cons_append] at hfront
          rw [hdtext] at hstart' hstop' ⊢
          refine .dotted (a := a ++ g₀) (g := g) (k := k) (b := s)
            ⟨⟨?_, hhead, ?_, ?_⟩, ⟨?_, isName_of_identifier hu hufits, ?_, ?_⟩,
            rtakeWhile_front hg₀ hchar hbefore hfront,
            eq_at_of_isLaidOut hrest (hsticky (isSticky_identifier hu)) hdot, hg, hk⟩
          · simp [Token.located]
          · simpa [Token.located] using hstart
          · simpa [Token.located, Nat.add_assoc] using hstop
          · simp [Token.located]
          · simpa [Token.located, Nat.add_assoc] using hstart'
          · simpa [Token.located, Nat.add_assoc] using hstop'

/-! ## The word at a place -/

/-- A run of characters of a class at the end of a text is taken from the end. -/
theorem rtakeWhile_append_of_all {p : Char → Bool} (hw : w.all p) (a : List Char) :
    (a ++ w).rtakeWhile p = a.rtakeWhile p ++ w := by
  have hreverse : ∀ c ∈ w.reverse, p c := fun c hc =>
    List.all_eq_true.mp hw c (List.mem_reverse.mp hc)
  rw [List.rtakeWhile, List.reverse_append, List.takeWhile_append_of_pos hreverse,
    List.reverse_append, List.reverse_reverse]
  rfl

/-- **The word at a place inside some characters of words**: these, and those that are joined to
them on both sides. -/
theorem wordAt_inside {u v : List Char} (hw : (u ++ v).all isWordChar) (a b : List Char) :
    wordAt (a ++ (u ++ v ++ b)) (a ++ u).length =
      String.ofList (a.rtakeWhile isWordChar ++ (u ++ v ++ b.takeWhile isWordChar)) := by
  obtain ⟨hu, hv⟩ : u.all isWordChar ∧ v.all isWordChar := by simpa using hw
  have htake : (a ++ (u ++ v ++ b)).take (a ++ u).length = a ++ u := by
    rw [List.append_assoc u, ← List.append_assoc a, List.take_left]
  have hdrop : (a ++ (u ++ v ++ b)).drop (a ++ u).length = v ++ b := by
    rw [List.append_assoc u, ← List.append_assoc a, List.drop_left]
  have hbefore : (a ++ u).rtakeWhile isWordChar = a.rtakeWhile isWordChar ++ u :=
    rtakeWhile_append_of_all hu a
  have hbehind : (v ++ b).takeWhile isWordChar = v ++ b.takeWhile isWordChar :=
    List.takeWhile_append_of_pos (List.all_eq_true.mp hv)
  calc wordAt (a ++ (u ++ v ++ b)) (a ++ u).length
      = String.ofList ((a ++ u).rtakeWhile isWordChar ++ (v ++ b).takeWhile isWordChar) := by
        rw [wordAt, htake, hdrop]
        rfl
    _ = String.ofList (a.rtakeWhile isWordChar ++ (u ++ v ++ b.takeWhile isWordChar)) := by
        rw [hbefore, hbehind]
        simp

theorem all_isWordChar_of_isName (h : isName w) : w.all isWordChar :=
  List.all_eq_true.mpr fun c hc =>
    isWordChar_of_isNameChar (List.all_eq_true.mp (all_of_isName h) c hc)

/-- Of two texts in front of the same place, told by their bytes, both are the same. -/
theorem append_inj_of_byteSize {a a' s s' : List Char} (h : a ++ s = a' ++ s')
    (hsize : byteSize a = byteSize a') : a = a' ∧ s = s' := by
  have ha : a <+: a' ++ s' := ⟨s, h⟩
  have hprefix := prefix_of_byteSize_le ha (List.prefix_append a' s') hsize.le
  have hprefix' := prefix_of_byteSize_le (List.prefix_append a' s') ha hsize.ge
  obtain rfl := hprefix.eq_of_length_le hprefix'.length_le
  exact ⟨rfl, List.append_cancel_left h⟩

/-- A place inside a stretch splits it. -/
theorem exists_split {u s : List Char} (h : a ++ (w ++ b) = u ++ s) (hle : byteSize a ≤ byteSize u)
    (hlt : byteSize u < byteSize (a ++ w)) : ∃ x y, u = a ++ x ∧ w = x ++ y ∧ s = y ++ b := by
  have hu : u <+: a ++ (w ++ b) := ⟨s, h.symm⟩
  have hw : a ++ w <+: a ++ (w ++ b) := ⟨b, List.append_assoc a w b⟩
  obtain ⟨x, rfl⟩ := prefix_of_byteSize_le (List.prefix_append a _) hu hle
  obtain ⟨y, hy⟩ := prefix_of_byteSize_le hu hw hlt.le
  rw [List.append_assoc] at hy
  obtain rfl := List.append_cancel_left hy
  refine ⟨x, y, rfl, rfl, ?_⟩
  simpa using h.symm

section Part

variable {part : Located String} {u : List Char}

/-- **The word at a character of a part** is the part with all that is joined to it. -/
theorem IsAt.wordAt (h : IsAt text part a b) (hsplit : text = u ++ s)
    (hle : part.span.start ≤ byteSize u) (hlt : byteSize u < part.span.stop) :
    wordAt text u.length = String.ofList
      (a.rtakeWhile isWordChar ++ (part.value.toList ++ b.takeWhile isWordChar)) := by
  rw [h.start] at hle
  rw [h.stop] at hlt
  obtain ⟨x, y, rfl, hxy, -⟩ := exists_split (h.text_eq.symm.trans hsplit) hle hlt
  have hall := all_isWordChar_of_isName h.isName
  rw [hxy] at hall
  rw [h.text_eq, hxy, wordAt_inside hall]

/-- A part consists of characters of names. -/
theorem IsAt.isNameChar {c : Char} (h : IsAt text part a b) (hsplit : text = u ++ c :: s)
    (hle : part.span.start ≤ byteSize u) (hlt : byteSize u < part.span.stop) : isNameChar c := by
  rw [h.start] at hle
  rw [h.stop] at hlt
  obtain ⟨x, y, rfl, hxy, hs⟩ := exists_split (h.text_eq.symm.trans hsplit) hle hlt
  have hchars := List.all_eq_true.mp (all_of_isName h.isName)
  cases y with
  | nil =>
    rw [List.append_nil] at hxy
    rw [hxy] at hlt
    exact absurd hlt (Nat.lt_irrefl _)
  | cons d y =>
    obtain rfl : c = d := (List.cons.inj hs).1
    exact hchars c (by simp [hxy])

end Part

/-! ## Names in one piece -/

/-- A name that stands in a text as it is called, in one piece, with no directive joined to it. -/
def StandsInOnePiece (text : List Char) (n : NodeName) : Prop :=
  ∃ a b, text = a ++ (n.text.toList ++ b) ∧ byteSize a = n.head.span.start ∧ b.head? ≠ some '@'

/-- Behind a name the word goes on exactly where a directive is joined to it. -/
theorem takeWhile_eq_nil_iff_of_behind (hbehind : ∀ c ∈ b.head?, isWordChar c → c = '@') :
    b.takeWhile isWordChar = [] ↔ b.head? ≠ some '@' := by
  cases b with
  | nil => simp
  | cons c b =>
    by_cases hc : isWordChar c
    · simp [hbehind c rfl hc]
      decide
    · have hne : c ≠ '@' := by
        rintro rfl
        exact hc (by decide)
      simp [hc, hne]

/-- A name of one word is found as it is called unless a directive is joined to it. -/
theorem IsSingle.wordAt_iff {head : Located String} {u s : List Char}
    (h : IsSingle text head a b) (hsplit : text = u ++ s) (hle : head.span.start ≤ byteSize u)
    (hlt : byteSize u < head.span.stop) :
    wordAt text u.length = head.value ↔ StandsInOnePiece text ⟨head, none⟩ := by
  have hpiece : StandsInOnePiece text ⟨head, none⟩ ↔ b.head? ≠ some '@' := by
    constructor
    · rintro ⟨a', b', htext', hsize, hb'⟩
      obtain ⟨rfl, hrest⟩ := append_inj_of_byteSize (h.first.text_eq.symm.trans htext')
        (h.first.start.symm.trans hsize.symm)
      rwa [List.append_cancel_left hrest]
    · intro hb
      exact ⟨a, b, h.first.text_eq, h.first.start.symm, hb⟩
  rw [hpiece, ← takeWhile_eq_nil_iff_of_behind h.behind, h.first.wordAt hsplit hle hlt, h.front,
    ← String.toList_inj, String.toList_ofList]
  simp

section Dotted

variable {head member : Located String} {k u : List Char}

theorem toList_text_dotted (head member : Located String) :
    (NodeName.text ⟨head, some member⟩).toList =
      head.value.toList ++ '.' :: member.value.toList := by
  simp [NodeName.text]

/-- A loose text that a word begins in is empty. -/
theorem IsLoose.eq_nil_of_takeWhile (hg : IsLoose g) (h : (g ++ s).takeWhile isWordChar ≠ []) :
    g = [] := by
  cases g with
  | nil => rfl
  | cons c g =>
    refine absurd ?_ h
    rw [List.cons_append, List.takeWhile_cons, hg.head c rfl]
    rfl

/-- A loose text that a word ends in is empty. -/
theorem IsLoose.eq_nil_of_rtakeWhile (hg : IsLoose g) (h : (s ++ g).rtakeWhile isWordChar ≠ []) :
    g = [] := by
  rcases List.eq_nil_or_concat g with rfl | ⟨g, c, rfl⟩
  · rfl
  · refine absurd ?_ h
    rw [List.concat_eq_append, ← List.append_assoc]
    refine List.rtakeWhile_concat_neg _ _ _ ?_
    rw [hg.last c (by simp)]
    exact Bool.false_ne_true

/-- Behind the first part of a name the word goes on to the end of the second when nothing stands
around the dot. -/
theorem IsDotted.takeWhile_eq_iff {b' : List Char} (h : IsDotted text head member a g k b) :
    (g ++ '.' :: (k ++ (member.value.toList ++ b))).takeWhile isWordChar =
        '.' :: (member.value.toList ++ b') ↔
      g = [] ∧ k = [] ∧ b.takeWhile isWordChar = b' := by
  have hdot : ∀ r, ('.' :: r).takeWhile isWordChar = '.' :: r.takeWhile isWordChar :=
    fun r => List.takeWhile_cons_of_pos (by decide)
  have hmember : (member.value.toList ++ b).takeWhile isWordChar =
      member.value.toList ++ b.takeWhile isWordChar :=
    List.takeWhile_append_of_pos (List.all_eq_true.mp (all_isWordChar_of_isName h.second.isName))
  obtain ⟨c, cs, hc, -⟩ := exists_cons_of_isName h.second.isName
  constructor
  · intro heq
    obtain rfl : g = [] := by
      refine h.loose_left.eq_nil_of_takeWhile (s := '.' :: (k ++ (member.value.toList ++ b))) ?_
      rw [heq]
      exact List.cons_ne_nil _ _
    rw [List.nil_append, hdot] at heq
    have hrest := (List.cons.inj heq).2
    obtain rfl : k = [] := by
      refine h.loose_right.eq_nil_of_takeWhile (s := member.value.toList ++ b) ?_
      rw [hrest, hc]
      exact List.cons_ne_nil _ _
    rw [List.nil_append, hmember] at hrest
    exact ⟨rfl, rfl, List.append_cancel_left hrest⟩
  · rintro ⟨rfl, rfl, rfl⟩
    rw [List.nil_append, hdot, List.nil_append, hmember]

/-- In front of the second part it goes on to the start of the first. -/
theorem IsDotted.rtakeWhile_eq_iff (h : IsDotted text head member a g k b) :
    (a ++ (head.value.toList ++ (g ++ '.' :: k))).rtakeWhile isWordChar =
      head.value.toList ++ ['.'] ↔ g = [] ∧ k = [] := by
  have hhead := all_isWordChar_of_isName h.first.isName
  have hdot : ['.'].all isWordChar := by decide
  obtain ⟨c, cs, hc, -⟩ := exists_cons_of_isName h.first.isName
  have happend : a ++ (head.value.toList ++ (g ++ '.' :: k)) =
      (a ++ head.value.toList ++ g ++ ['.']) ++ k := by simp
  rw [happend]
  constructor
  · intro heq
    obtain rfl : k = [] := by
      refine h.loose_right.eq_nil_of_rtakeWhile (s := a ++ head.value.toList ++ g ++ ['.']) ?_
      rw [heq]
      exact List.append_ne_nil_of_right_ne_nil _ (List.cons_ne_nil _ _)
    rw [List.append_nil, rtakeWhile_append_of_all hdot] at heq
    obtain rfl : g = [] := by
      refine h.loose_left.eq_nil_of_rtakeWhile (s := a ++ head.value.toList) ?_
      rw [List.append_cancel_right heq, hc]
      exact List.cons_ne_nil _ _
    exact ⟨rfl, rfl⟩
  · rintro ⟨rfl, rfl⟩
    rw [List.append_nil, List.append_nil, rtakeWhile_append_of_all hdot,
      rtakeWhile_append_of_all hhead, h.front, List.nil_append]

/-- A name with a dot stands in one piece when nothing stands around the dot. -/
theorem IsDotted.standsInOnePiece_iff (h : IsDotted text head member a g k b) :
    StandsInOnePiece text ⟨head, some member⟩ ↔ g = [] ∧ k = [] ∧ b.head? ≠ some '@' := by
  constructor
  · rintro ⟨a', b', htext', hsize, hb'⟩
    rw [toList_text_dotted] at htext'
    obtain ⟨rfl, hrest⟩ := append_inj_of_byteSize (h.first.text_eq.symm.trans htext')
      (h.first.start.symm.trans hsize.symm)
    have hdot : g ++ '.' :: (k ++ (member.value.toList ++ b)) =
        '.' :: (member.value.toList ++ b') := by simpa using hrest
    have hall := List.all_eq_true.mp (all_isWordChar_of_isName h.second.isName)
    obtain ⟨rfl, rfl, -⟩ := h.takeWhile_eq_iff.mp (by
      rw [hdot, List.takeWhile_cons_of_pos (by decide), List.takeWhile_append_of_pos hall])
    obtain rfl : b = b' := by simpa using hdot
    exact ⟨rfl, rfl, hb'⟩
  · rintro ⟨rfl, rfl, hb⟩
    refine ⟨a, b, ?_, h.first.start.symm, hb⟩
    rw [h.first.text_eq, toList_text_dotted]
    simp

/-- In its first part a name with a dot is found as it is called when it stands in one piece. -/
theorem IsDotted.wordAt_head_iff (h : IsDotted text head member a g k b) (hsplit : text = u ++ s)
    (hle : head.span.start ≤ byteSize u) (hlt : byteSize u < head.span.stop) :
    wordAt text u.length = NodeName.text ⟨head, some member⟩ ↔
      StandsInOnePiece text ⟨head, some member⟩ := by
  rw [h.standsInOnePiece_iff, h.first.wordAt hsplit hle hlt, h.front, ← String.toList_inj,
    String.toList_ofList, toList_text_dotted, List.nil_append, List.append_cancel_left_eq,
    ← takeWhile_eq_nil_iff_of_behind h.behind, ← h.takeWhile_eq_iff, List.append_nil]

/-- No name has an at sign. -/
theorem not_mem_of_isName (h : isName w) : '@' ∉ w := fun hat =>
  absurd (List.all_eq_true.mp (all_of_isName h) '@' hat) (by decide)

/-- In its second part, too. -/
theorem IsDotted.wordAt_member_iff (h : IsDotted text head member a g k b) (hsplit : text = u ++ s)
    (hle : member.span.start ≤ byteSize u) (hlt : byteSize u < member.span.stop) :
    wordAt text u.length = NodeName.text ⟨head, some member⟩ ↔
      StandsInOnePiece text ⟨head, some member⟩ := by
  rw [h.standsInOnePiece_iff, ← and_assoc, ← h.rtakeWhile_eq_iff, h.second.wordAt hsplit hle hlt,
    ← String.toList_inj, String.toList_ofList, toList_text_dotted,
    List.append_cons head.value.toList '.' member.value.toList]
  constructor
  · intro heq
    have hb : b.head? ≠ some '@' := by
      intro hat
      obtain ⟨b, rfl⟩ := List.head?_eq_some_iff.mp hat
      rw [List.takeWhile_cons_of_pos (by decide)] at heq
      have hmem : '@' ∈ head.value.toList ++ ['.'] ++ member.value.toList := by
        rw [← heq]
        simp
      simp [not_mem_of_isName h.first.isName, not_mem_of_isName h.second.isName] at hmem
    rw [(takeWhile_eq_nil_iff_of_behind h.behind).mpr hb, List.append_nil] at heq
    exact ⟨List.append_cancel_right heq, hb⟩
  · rintro ⟨heq, hb⟩
    rw [heq, (takeWhile_eq_nil_iff_of_behind h.behind).mpr hb, List.append_nil]

end Dotted

section Name

variable {part : Located String} {u : List Char}

/-- **The word at a character of a name is the name exactly where this stands in one piece.** -/
theorem StandsIn.wordAt_iff (h : StandsIn text n) (hpart : part ∈ n.parts) (hsplit : text = u ++ s)
    (hle : part.span.start ≤ byteSize u) (hlt : byteSize u < part.span.stop) :
    wordAt text u.length = n.text ↔ StandsInOnePiece text n := by
  cases h with
  | single h =>
    obtain rfl := List.mem_singleton.mp hpart
    exact h.wordAt_iff hsplit hle hlt
  | dotted h =>
    rcases List.mem_pair.mp hpart with rfl | rfl
    · exact h.wordAt_head_iff hsplit hle hlt
    · exact h.wordAt_member_iff hsplit hle hlt

theorem StandsIn.exists_isAt (h : StandsIn text n) (hpart : part ∈ n.parts) :
    ∃ a b, IsAt text part a b := by
  cases h with
  | single h =>
    obtain rfl := List.mem_singleton.mp hpart
    exact ⟨_, _, h.first⟩
  | dotted h =>
    rcases List.mem_pair.mp hpart with rfl | rfl
    · exact ⟨_, _, h.first⟩
    · exact ⟨_, _, h.second⟩

/-- A name is not empty and consists of characters of words. -/
theorem StandsIn.all_isWordChar (h : StandsIn text n) :
    n.text.toList ≠ [] ∧ n.text.toList.all isWordChar := by
  cases h with
  | single h =>
    obtain ⟨c, cs, hc, -⟩ := exists_cons_of_isName h.first.isName
    refine ⟨?_, all_isWordChar_of_isName h.first.isName⟩
    rw [NodeName.text, hc]
    exact List.cons_ne_nil c cs
  | dotted h =>
    have hdot : isWordChar '.' := by decide
    have hfirst := all_isWordChar_of_isName h.first.isName
    have hsecond := all_isWordChar_of_isName h.second.isName
    rw [toList_text_dotted]
    constructor
    · simp
    · rw [List.all_append, List.all_cons, hfirst, hdot, hsecond]
      rfl

end Name

end Diagram.Editor
