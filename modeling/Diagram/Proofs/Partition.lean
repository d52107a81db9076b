import Mathlib.Data.List.Chain
import Mathlib.Data.List.Pairwise
import Diagram.Proofs.Offsets
import Diagram.Proofs.Reading

/-!
# The parts of a text

A text is cut without a gap and without an overlap: every byte belongs to exactly one token, one
run of stray characters, or white space and comments between them.  A run of stray characters goes
on for as long as it can, so that there is one message about it and not one for each character.
-/

namespace Diagram

/-! ## Stretches -/

/-- Two stretches of bytes without a byte in common: one ends before the other begins. -/
def Apart (a b : Nat × Nat) : Prop := a.2 ≤ b.1 ∨ b.2 ≤ a.1

theorem Apart.symm {a b : Nat × Nat} (h : Apart a b) : Apart b a := Or.symm h

/-- The bytes of a span. -/
def Span.bounds (s : Span) : Nat × Nat := (s.start, s.stop)

/-- A text that stands between tokens, in front of `rest`: one character of white space, or a
comment, which goes on up to the next line feed or the end. -/
inductive IsGap (rest : List Char) : List Char → Prop
  | blank {c : Char} (h : isBlank c) : IsGap rest [c]
  | comment {body : List Char} (hbody : '\n' ∉ body) (hrest : StopsAt (· ≠ '\n') rest) :
    IsGap rest ('#' :: body)

/-- A stretch of a text that is a gap. -/
def HasGap (text : List Char) (g : Nat × Nat) : Prop :=
  ∃ a gap b, text = a ++ gap ++ b ∧ IsGap b gap ∧ g = (byteSize a, byteSize (a ++ gap))

/-! ## Sound pieces -/

/-- A piece that is what its kind says, in front of `rest`. -/
structure Piece.IsSound (p : Piece) (rest : List Char) : Prop where
  ne_nil : p.text ≠ []
  blank : p.kind = .blank → p.text.all isBlank
  comment : p.kind = .comment → IsGap rest p.text

/-- Pieces that are what their kinds say, each in front of the others. -/
def AreSound : List Piece → Prop
  | [] => True
  | p :: ps => p.IsSound (ps.flatMap Piece.text) ∧ AreSound ps

theorem AreSound.isSound {before after : List Piece} {p : Piece}
    (h : AreSound (before ++ p :: after)) : p.IsSound (after.flatMap Piece.text) := by
  induction before with
  | nil => exact h.1
  | cons q before ih => exact ih h.2

/-- A run of a class at the start of a text is cut off whole. -/
theorem cut_takeWhile {p : Char → Bool} {c : Char} (hc : p c) (cs : List Char) :
    let n := ((c :: cs).takeWhile p).length
    c :: cs.take (n - 1) = (c :: cs).takeWhile p ∧ cs.drop (n - 1) = (c :: cs).dropWhile p := by
  simp only [List.takeWhile_cons_of_pos hc, List.dropWhile_cons_of_pos hc, List.length_cons,
    Nat.add_sub_cancel, take_length_takeWhile, drop_length_takeWhile, and_self]

/-- What stands at the start of a text: white space, a comment, a token or a stray character. -/
theorem firstPiece_cases {afterColon : Bool} {c : Char} {cs : List Char} {kind : PieceKind}
    {n : Nat} (h : firstPiece afterColon (c :: cs) = (kind, n)) :
    (isBlank c ∧ kind = .blank ∧ n = ((c :: cs).takeWhile isBlank).length) ∨
      (c = '#' ∧ kind = .comment ∧ n = ((c :: cs).takeWhile (· ≠ '\n')).length) ∨
        (∃ k, kind = .token k) ∨ (kind = .stray ∧ n = 1) := by
  unfold firstPiece at h
  split at h
  · next hblank =>
    obtain ⟨rfl, rfl⟩ := Prod.mk.inj h
    exact .inl ⟨hblank, rfl, rfl⟩
  split at h
  · next hhash =>
    split at h
    · obtain ⟨rfl, -⟩ := Prod.mk.inj h
      exact .inr (.inr (.inl ⟨_, rfl⟩))
    · obtain ⟨rfl, rfl⟩ := Prod.mk.inj h
      exact .inr (.inl ⟨Option.some.inj hhash, rfl, rfl⟩)
  · split at h
    · obtain ⟨rfl, -⟩ := Prod.mk.inj h
      exact .inr (.inr (.inl ⟨_, rfl⟩))
    · obtain ⟨rfl, rfl⟩ := Prod.mk.inj h
      exact .inr (.inr (.inr ⟨rfl, rfl⟩))

/-- What is cut off a text is what its kind says. -/
theorem isSound_firstPiece {afterColon : Bool} {c : Char} {cs : List Char} {kind : PieceKind}
    {n : Nat} (h : firstPiece afterColon (c :: cs) = (kind, n)) :
    (⟨kind, c :: cs.take (n - 1)⟩ : Piece).IsSound (cs.drop (n - 1)) := by
  rcases firstPiece_cases h with
    ⟨hc, rfl, rfl⟩ | ⟨rfl, rfl, rfl⟩ | ⟨k, rfl⟩ | ⟨rfl, rfl⟩
  · refine ⟨List.cons_ne_nil _ _, fun _ => ?_, nofun⟩
    rw [(cut_takeWhile hc cs).1]
    exact List.all_takeWhile
  · refine ⟨List.cons_ne_nil _ _, nofun, fun _ => ?_⟩
    obtain ⟨htake, hdrop⟩ := cut_takeWhile (p := (· ≠ '\n')) (c := '#') rfl cs
    rw [hdrop]
    refine .comment (fun hmem => ?_) (stopsAt_dropWhile _ _)
    have hrun : '\n' ∈ ('#' :: cs).takeWhile (· ≠ '\n') :=
      htake ▸ List.mem_cons_of_mem '#' hmem
    simpa using List.all_eq_true.mp List.all_takeWhile _ hrun
  · exact ⟨List.cons_ne_nil _ _, nofun, nofun⟩
  · exact ⟨List.cons_ne_nil _ _, nofun, nofun⟩

theorem areSound_pieces (afterColon : Bool) (s : List Char) : AreSound (pieces afterColon s) := by
  fun_induction pieces afterColon s with
  | case1 => trivial
  | case2 afterColon c cs kind n hfirst ih =>
    refine ⟨?_, ih⟩
    rw [text_pieces]
    exact isSound_firstPiece hfirst

theorem areSound_joinStray {ps : List Piece} (h : AreSound ps) : AreSound (joinStray ps) := by
  induction ps with
  | nil => trivial
  | cons p ps ih =>
    have ih := ih h.2
    have hp := h.1
    rw [← text_joinStray] at hp
    rw [joinStray]
    cases hps : joinStray ps with
    | nil =>
      rw [hps] at hp
      exact ⟨hp, trivial⟩
    | cons q qs =>
      rw [hps] at hp ih
      simp only
      split
      · exact ⟨⟨by simp [hp.ne_nil], by simp, by simp⟩, ih.2⟩
      · exact ⟨hp, ih⟩

/-- **No two runs of stray characters are neighbours.** -/
theorem isChain_joinStray (ps : List Piece) :
    (joinStray ps).IsChain fun p q => ¬ (p.kind = .stray ∧ q.kind = .stray) := by
  induction ps with
  | nil => exact .nil
  | cons p ps ih =>
    rw [joinStray]
    cases hps : joinStray ps with
    | nil => exact .singleton p
    | cons q qs =>
      rw [hps] at ih
      simp only
      split
      · next hstray =>
        cases qs with
        | nil => exact .singleton _
        | cons r rs =>
          obtain ⟨hne, htail⟩ := List.isChain_cons_cons.mp ih
          exact .cons_cons (fun hboth => hne ⟨hstray.2, hboth.2⟩) htail
      · next hne => exact .cons_cons hne ih

/-! ## Located pieces -/

/-- A located piece has the span of its own text, behind that of the pieces before it. -/
theorem mem_locate {cur : Cursor} {ps : List Piece} {x : Piece × Span} (h : x ∈ locate cur ps) :
    ∃ before after, ps = before ++ x.1 :: after ∧
      x.2 = (cur.skip (before.flatMap Piece.text)).cover x.1.text := by
  obtain ⟨front, back, hsplit⟩ := List.append_of_mem h
  exact ⟨_, _, of_locate_eq_append hsplit⟩

theorem start_le_of_mem_locate {cur : Cursor} {ps : List Piece} {x : Piece × Span}
    (h : x ∈ locate cur ps) : cur.offset ≤ x.2.start := by
  obtain ⟨before, after, -, hspan⟩ := mem_locate h
  rw [hspan, Cursor.start_cover, Cursor.offset_skip]
  exact Nat.le_add_right _ _

/-- Located pieces follow each other. -/
theorem pairwise_locate (cur : Cursor) (ps : List Piece) :
    (locate cur ps).Pairwise fun x y => x.2.stop ≤ y.2.start := by
  induction ps generalizing cur with
  | nil => exact .nil
  | cons p ps ih => exact .cons (fun y hy => start_le_of_mem_locate hy) (ih _)

/-- Located pieces leave no byte out. -/
theorem exists_mem_locate {cur : Cursor} {ps : List Piece} {offset : Nat}
    (hle : cur.offset ≤ offset)
    (hlt : offset < cur.offset + byteSize (ps.flatMap Piece.text)) :
    ∃ x ∈ locate cur ps, x.2.start ≤ offset ∧ offset < x.2.stop := by
  induction ps generalizing cur with
  | nil => exact absurd hlt (Nat.not_lt.mpr hle)
  | cons p ps ih =>
    by_cases hp : offset < cur.offset + byteSize p.text
    · exact ⟨_, List.mem_cons_self, hle, by rwa [Cursor.stop_cover]⟩
    · rw [List.flatMap_cons, byteSize_append] at hlt
      obtain ⟨x, hx, hin⟩ := @ih (cur.skip p.text)
        (by rw [Cursor.offset_skip]; omega) (by rw [Cursor.offset_skip]; omega)
      exact ⟨x, List.mem_cons_of_mem _ hx, hin⟩

/-- A piece of a text between two others. -/
theorem mem_located {text : String} {x : Piece × Span} (h : x ∈ located text) :
    ∃ a b, text.toList = a ++ x.1.text ++ b ∧ x.1.IsSound b ∧
      x.2 = (Cursor.start.skip a).cover x.1.text := by
  obtain ⟨before, after, hps, hspan⟩ := mem_locate h
  have hsound := areSound_joinStray (areSound_pieces false text.toList)
  have htext := text_joinStray (pieces false text.toList)
  rw [hps] at hsound htext
  rw [text_pieces, List.flatMap_append, List.flatMap_cons, ← List.append_assoc] at htext
  exact ⟨_, _, htext.symm, hsound.isSound, hspan⟩

/-! ## Shared out texts -/

/-- Tokens and messages that share out a text.  Each has some bytes of its own and quotes them;
what is left over is white space and comments; and between two messages there is always something
that is not stray. -/
structure IsPartition (text : List Char) (tokens : List Token) (issues : List Issue) : Prop where
  nonempty : ∀ s ∈ tokens.map Token.span ++ issues.map Issue.span, s.start < s.stop
  tokens_sorted : tokens.Pairwise fun t u => t.span.stop ≤ u.span.start
  issues_sorted : issues.Pairwise fun i j => i.span.stop ≤ j.span.start
  apart : ∀ t ∈ tokens, ∀ i ∈ issues, Apart t.span.bounds i.span.bounds
  token_text : ∀ t ∈ tokens, slice? text t.span.start t.span.stop = some t.text.toList
  issue_text : ∀ i ∈ issues, ∃ w, slice? text i.span.start i.span.stop = some w ∧
    i.message = "unexpected character sequence \x60" ++ String.ofList w ++ "\x60"
  covered : ∀ offset < byteSize text,
    (∃ s ∈ tokens.map Token.span ++ issues.map Issue.span, s.start ≤ offset ∧ offset < s.stop) ∨
      ∃ g, HasGap text g ∧ g.1 ≤ offset ∧ offset < g.2 ∧
        ∀ s ∈ tokens.map Token.span ++ issues.map Issue.span, Apart s.bounds g
  separated : issues.Pairwise fun i j =>
    (∃ t ∈ tokens, i.span.stop ≤ t.span.start ∧ t.span.stop ≤ j.span.start) ∨
      ∃ g, HasGap text g ∧ i.span.stop ≤ g.1 ∧ g.2 ≤ j.span.start

/-- The span of a token or of a message is that of a located piece, which is no gap. -/
def isMark (x : Piece × Span) : Bool := (Piece.token? x).isSome || (Piece.issue? x).isSome

theorem token?_eq_some {x : Piece × Span} {t : Token} (h : Piece.token? x = some t) :
    t.text = String.ofList x.1.text ∧ t.span = x.2 ∧ isMark x := by
  have hmark : isMark x := by rw [isMark, h]; rfl
  unfold Piece.token? at h
  split at h
  · cases h
    exact ⟨rfl, rfl, hmark⟩
  · cases h

theorem issue?_eq_some {x : Piece × Span} {i : Issue} (h : Piece.issue? x = some i) :
    x.1.kind = .stray ∧ i.span = x.2 ∧ isMark x ∧
      i.message = "unexpected character sequence \x60" ++ String.ofList x.1.text ++ "\x60" := by
  have hmark : isMark x := by rw [isMark, h, Option.isSome_some, Bool.or_true]
  unfold Piece.issue? at h
  split at h
  · next hkind =>
    cases h
    exact ⟨hkind, rfl, hmark, rfl⟩
  · cases h

/-- The spans of tokens and messages are those of the marks. -/
theorem mem_spans_iff {text : String} {s : Span} :
    s ∈ (tokenize text).1.map Token.span ++ (tokenize text).2.map Issue.span ↔
      ∃ x ∈ located text, isMark x ∧ x.2 = s := by
  simp only [tokenize, List.mem_append, List.mem_map, List.mem_filterMap]
  constructor
  · rintro (⟨t, ⟨x, hx, ht⟩, rfl⟩ | ⟨i, ⟨x, hx, hi⟩, rfl⟩)
    · obtain ⟨-, hspan, hmark⟩ := token?_eq_some ht
      exact ⟨x, hx, hmark, hspan.symm⟩
    · obtain ⟨-, hspan, hmark, -⟩ := issue?_eq_some hi
      exact ⟨x, hx, hmark, hspan.symm⟩
  · rintro ⟨x, hx, hmark, rfl⟩
    rcases Bool.or_eq_true_iff.mp hmark with hsome | hsome
    · obtain ⟨t, ht⟩ := Option.isSome_iff_exists.mp hsome
      exact .inl ⟨t, ⟨x, hx, ht⟩, (token?_eq_some ht).2.1⟩
    · obtain ⟨i, hi⟩ := Option.isSome_iff_exists.mp hsome
      exact .inr ⟨i, ⟨x, hx, hi⟩, (issue?_eq_some hi).2.1⟩

/-- A byte of a located piece that is no mark belongs to a gap in the piece. -/
theorem exists_gap_of_not_isMark {text : String} {x : Piece × Span} (hx : x ∈ located text)
    (hmark : isMark x = false) {offset : Nat} (hle : x.2.start ≤ offset) (hlt : offset < x.2.stop) :
    ∃ g, HasGap text.toList g ∧ x.2.start ≤ g.1 ∧ g.1 ≤ offset ∧ offset < g.2 ∧ g.2 ≤ x.2.stop := by
  obtain ⟨a, b, htext, hsound, hspan⟩ := mem_located hx
  rw [hspan, Cursor.start_cover, Cursor.offset_start_skip] at hle
  rw [hspan, Cursor.stop_cover, Cursor.offset_start_skip] at hlt
  rw [hspan, Cursor.start_cover, Cursor.stop_cover, Cursor.offset_start_skip]
  cases hkind : x.1.kind with
  | token k => simp [isMark, Piece.token?, hkind] at hmark
  | stray => simp [isMark, Piece.issue?, hkind] at hmark
  | comment =>
    rw [← byteSize_append] at hlt ⊢
    exact ⟨_, ⟨a, x.1.text, b, htext, hsound.comment hkind, rfl⟩, le_rfl, hle, hlt, le_rfl⟩
  | blank =>
    obtain ⟨u, c, v, hpiece, hu, hc⟩ := exists_char_at
      (show offset - byteSize a < byteSize x.1.text by omega)
    have hblank : isBlank c := List.all_eq_true.mp (hsound.blank hkind) c (by simp [hpiece])
    have hgap : text.toList = (a ++ u) ++ [c] ++ (v ++ b) := by simp [htext, hpiece]
    refine ⟨_, ⟨a ++ u, [c], v ++ b, hgap, .blank hblank, rfl⟩, ?_⟩
    simp only [hpiece, byteSize_append, byteSize_cons, byteSize_nil]
    omega

/-- Two located pieces have no byte in common. -/
theorem apart_of_mem_located {text : String} {x y : Piece × Span} (hx : x ∈ located text)
    (hy : y ∈ located text) (hne : x ≠ y) : Apart x.2.bounds y.2.bounds := by
  have : Std.Symm fun x y : Piece × Span => Apart x.2.bounds y.2.bounds :=
    ⟨fun _ _ h => h.symm⟩
  have hapart : (located text).Pairwise fun x y => Apart x.2.bounds y.2.bounds :=
    (pairwise_locate .start _).imp fun h => .inl h
  exact hapart.forall hx hy hne

theorem start_lt_stop_of_mem_located {text : String} {x : Piece × Span} (hx : x ∈ located text) :
    x.2.start < x.2.stop := by
  obtain ⟨a, b, -, hsound, hspan⟩ := mem_located hx
  have := byteSize_pos hsound.ne_nil
  rw [hspan, Cursor.start_cover, Cursor.stop_cover]
  omega

/-- A located piece stands where its span says. -/
theorem slice?_of_mem_located {text : String} {x : Piece × Span} (hx : x ∈ located text) :
    slice? text.toList x.2.start x.2.stop = some x.1.text := by
  obtain ⟨a, b, htext, -, hspan⟩ := mem_located hx
  rw [hspan, Cursor.start_cover, Cursor.stop_cover, Cursor.offset_start_skip, ← byteSize_append,
    htext, slice?_append]

/-- Every byte of a text lies in a located piece. -/
theorem exists_located {text : String} {offset : Nat} (h : offset < byteSize text.toList) :
    ∃ x ∈ located text, x.2.start ≤ offset ∧ offset < x.2.stop := by
  have htext : (joinStray (pieces false text.toList)).flatMap Piece.text = text.toList := by
    rw [text_joinStray, text_pieces]
  refine exists_mem_locate (Nat.zero_le offset) ?_
  rwa [htext, Cursor.start, Nat.zero_add]

/-- A located piece that is not stray is a token, or a gap is found in it. -/
theorem token_or_gap {text : String} {x : Piece × Span} (hx : x ∈ located text)
    (hstray : x.1.kind ≠ .stray) : (∃ t ∈ (tokenize text).1, t.span = x.2) ∨
      ∃ g, HasGap text.toList g ∧ x.2.start ≤ g.1 ∧ g.2 ≤ x.2.stop := by
  cases hmark : isMark x with
  | true =>
    have hissue : Piece.issue? x = none := by
      cases h : Piece.issue? x with
      | none => rfl
      | some i => exact absurd (issue?_eq_some h).1 hstray
    rw [isMark, hissue, Option.isSome_none, Bool.or_false] at hmark
    obtain ⟨t, ht⟩ := Option.isSome_iff_exists.mp hmark
    exact .inl ⟨t, List.mem_filterMap.mpr ⟨x, hx, ht⟩, (token?_eq_some ht).2.1⟩
  | false =>
    obtain ⟨g, hg, hstart, -, -, hstop⟩ :=
      exists_gap_of_not_isMark hx hmark le_rfl (start_lt_stop_of_mem_located hx)
    exact .inr ⟨g, hg, hstart, hstop⟩

/-- Where no two bad members of a list are neighbours, there is a good one between any two. -/
theorem pairwise_exists_between {β : Type} {R : β → β → Prop} {bad : β → Prop} {l : List β}
    (hR : l.Pairwise R) (hchain : l.IsChain fun x y => ¬ (bad x ∧ bad y)) :
    l.Pairwise fun x y => bad x → bad y → ∃ z ∈ l, ¬ bad z ∧ R x z ∧ R z y := by
  induction l with
  | nil => exact .nil
  | cons x l ih =>
    obtain ⟨hx, hl⟩ := List.pairwise_cons.mp hR
    refine .cons (fun y hy hbx hby => ?_) ((ih hl hchain.tail).imp ?_)
    · cases l with
      | nil => cases hy
      | cons z l =>
        have hz : ¬ bad z := fun hbz => (List.isChain_cons_cons.mp hchain).1 ⟨hbx, hbz⟩
        have hyl : y ∈ l := (List.mem_cons.mp hy).resolve_left fun h => hz (h ▸ hby)
        exact ⟨z, by simp, hz, hx z (by simp), List.rel_of_pairwise_cons hl hyl⟩
    · intro y w hbetween hby hbw
      obtain ⟨z, hz, hrest⟩ := hbetween hby hbw
      exact ⟨z, List.mem_cons_of_mem x hz, hrest⟩

/-- **Every text is shared out between its tokens, the messages about it, white space and
comments.** -/
theorem isPartition_tokenize (text : String) :
    IsPartition text.toList (tokenize text).1 (tokenize text).2 where
  nonempty s hs := by
    obtain ⟨x, hx, -, rfl⟩ := mem_spans_iff.mp hs
    exact start_lt_stop_of_mem_located hx
  tokens_sorted := by
    refine List.pairwise_filterMap.mpr ((pairwise_locate .start _).imp ?_)
    intro x y hle t ht u hu
    rwa [(token?_eq_some ht).2.1, (token?_eq_some hu).2.1]
  issues_sorted := by
    refine List.pairwise_filterMap.mpr ((pairwise_locate .start _).imp ?_)
    intro x y hle i hi j hj
    rwa [(issue?_eq_some hi).2.1, (issue?_eq_some hj).2.1]
  apart t ht i hi := by
    obtain ⟨x, hx, htoken⟩ := List.mem_filterMap.mp ht
    obtain ⟨y, hy, hissue⟩ := List.mem_filterMap.mp hi
    rw [(token?_eq_some htoken).2.1, (issue?_eq_some hissue).2.1]
    refine apart_of_mem_located hx hy ?_
    rintro rfl
    simp [Piece.token?, (issue?_eq_some hissue).1] at htoken
  token_text t ht := by
    obtain ⟨x, hx, htoken⟩ := List.mem_filterMap.mp ht
    obtain ⟨hword, hspan, -⟩ := token?_eq_some htoken
    rw [hspan, hword, slice?_of_mem_located hx, String.toList_ofList]
  issue_text i hi := by
    obtain ⟨x, hx, hissue⟩ := List.mem_filterMap.mp hi
    obtain ⟨-, hspan, -, hmessage⟩ := issue?_eq_some hissue
    exact ⟨x.1.text, by rw [hspan, slice?_of_mem_located hx], hmessage⟩
  covered offset hlt := by
    obtain ⟨x, hx, hle, hlt⟩ := exists_located hlt
    -- a piece that gives no token and no message is white space or a comment, and may be split up
    by_cases hmark : isMark x
    · exact .inl ⟨x.2, mem_spans_iff.mpr ⟨x, hx, hmark, rfl⟩, hle, hlt⟩
    · rw [Bool.not_eq_true] at hmark
      obtain ⟨g, hg, hstart, hle, hlt, hstop⟩ := exists_gap_of_not_isMark hx hmark hle hlt
      refine .inr ⟨g, hg, hle, hlt, fun s hs => ?_⟩
      obtain ⟨y, hy, hmark', rfl⟩ := mem_spans_iff.mp hs
      have hne : y ≠ x := by
        rintro rfl
        simp [hmark] at hmark'
      exact (apart_of_mem_located hy hx hne).imp hstart.trans' hstop.trans
  separated := by
    -- next to each other strays are joined to one piece, so a piece of another kind is in between
    have hchain : (located text).IsChain fun x y => ¬ (x.1.kind = .stray ∧ y.1.kind = .stray) := by
      have h := isChain_joinStray (pieces false text.toList)
      rwa [← map_fst_locate .start (joinStray _), List.isChain_map] at h
    refine List.pairwise_filterMap.mpr
      ((pairwise_exists_between (pairwise_locate .start _) hchain).imp ?_)
    intro x y hbetween i hi j hj
    obtain ⟨hx, hspan, -, -⟩ := issue?_eq_some hi
    obtain ⟨hy, hspan', -, -⟩ := issue?_eq_some hj
    obtain ⟨z, hz, hstray, hxz, hzy⟩ := hbetween hx hy
    rw [hspan, hspan']
    exact (token_or_gap hz hstray).imp
      (fun ⟨t, ht, htz⟩ => ⟨t, ht, htz ▸ hxz, htz ▸ hzy⟩)
      (fun ⟨g, hg, hstart, hstop⟩ => ⟨g, hg, hxz.trans hstart, hstop.trans hzy⟩)

end Diagram
