import Diagram.Proofs.Blame
import Diagram.Proofs.Hulls
import Diagram.Proofs.Succession

/-!
# Where statements stand

Whatever is wrong with some tokens, each statement of their tree is read by its own production from
a stretch of them, one statement behind the other, and the body of a group is read from the tokens
between two braces: the one that its header ends with and the one that the group ends with.  When
the tokens follow each other in a text, so do the statements of each block, and the statements of a
body are strictly between the two braces.
-/

namespace Diagram

/-! ## Spans that follow each other -/

/-- Spans that are not empty, none of which begins before the one in front of it has ended. -/
structure AreConsecutive (xs : List Span) : Prop where
  start_lt_stop : ∀ x ∈ xs, x.start < x.stop
  sorted : xs.Pairwise fun x y => x.stop ≤ y.start

theorem AreConsecutive.sublist {xs ys : List Span} (h : AreConsecutive ys) (hsub : xs.Sublist ys) :
    AreConsecutive xs :=
  ⟨fun x hx => h.start_lt_stop x (hsub.subset hx), h.sorted.sublist hsub⟩

theorem AreConsecutive.pairwise_start {xs : List Span} (h : AreConsecutive xs) :
    xs.Pairwise fun x y => x.start < y.start := by
  refine h.sorted.imp_of_mem fun {x y} hx _ hxy => ?_
  exact (h.start_lt_stop x hx).trans_le hxy

/-- Of spans that follow each other, none stands behind itself. -/
theorem AreConsecutive.not_mem {xs ys : List Span} (h : AreConsecutive (xs ++ ys)) {x : Span}
    (hx : x ∈ xs) : x ∉ ys := by
  intro hy
  have hlt := h.start_lt_stop x (List.mem_append_left _ hx)
  have hle := (List.pairwise_append.mp h.sorted).2.2 x hx x hy
  omega

/-- The tokens of a text follow each other. -/
theorem areConsecutive_tokenize (text : String) :
    AreConsecutive ((tokenize text).1.map Token.span) where
  start_lt_stop _ hx := (isStretch_of_mem_tokenize (List.mem_append_left _ hx)).start_lt_stop
  sorted := List.pairwise_map.mpr (pairwise_tokenize text)

/-- And none of them goes on behind the end. -/
theorem stop_le_endSpan {text : String} {t : Token} (ht : t ∈ (tokenize text).1) :
    t.span.stop ≤ (endSpan text.toList).start := by
  have hmem : t.span ∈ (tokenize text).1.map Token.span := List.mem_map_of_mem ht
  obtain ⟨a, w, b, htext, -, hspan⟩ := isStretch_of_mem_tokenize (List.mem_append_left _ hmem)
  rw [hspan, Cursor.stop_cover, Cursor.offset_start_skip, endSpan, htext]
  simp only [Cursor.offset_start_skip, byteSize_append]
  exact Nat.le_add_right _ _

namespace Syntax

variable {eof : Span} {tokens s rest : List Token} {header : GroupHeader} {st st' : Statement}

/-! ## Statements that follow each other -/

theorem start_lt_stop_span (h : ∀ x ∈ st.leaves, x.start < x.stop) :
    st.span.start < st.span.stop := by
  refine Statement.span_of_leaves (P := fun x => x.start < x.stop) (fun {x y} hx hy => ?_) h
  rw [Span.start_merge, Span.stop_merge]
  omega

/-- A statement ends where its last leaf does, at the latest. -/
theorem stop_span_le {n : Nat} (h : ∀ x ∈ st.leaves, x.stop ≤ n) : st.span.stop ≤ n := by
  refine Statement.span_of_leaves (P := fun x => x.stop ≤ n) (fun {x y} hx hy => ?_) h
  rw [Span.stop_merge]
  exact Nat.max_le.mpr ⟨hx, hy⟩

/-- A statement begins where its first leaf does, at the earliest. -/
theorem le_start_span {n : Nat} (h : ∀ x ∈ st.leaves, n ≤ x.start) : n ≤ st.span.start := by
  refine Statement.span_of_leaves (P := fun x => n ≤ x.start) (fun {x y} hx hy => ?_) h
  rw [Span.start_merge]
  exact Nat.le_min.mpr ⟨hx, hy⟩

theorem mem_flattenAll_of_mem {tree : List Statement} (hst : st ∈ tree)
    (hst' : st' ∈ st.flatten) : st' ∈ Statement.flattenAll tree := by
  induction tree with
  | nil => cases hst
  | cons head tree ih =>
    rw [Statement.flattenAll, List.mem_append]
    rcases List.mem_cons.mp hst with rfl | hst
    · exact .inl hst'
    · exact .inr (ih hst)

theorem mem_flatten_self (st : Statement) : st ∈ st.flatten := by
  cases st <;> simp [Statement.flatten]

theorem mem_leavesAll_of_mem {tree : List Statement} (hst : st ∈ tree) {x : Span}
    (hx : x ∈ st.leaves) : x ∈ leavesAll tree :=
  mem_leavesAll_of_mem_flattenAll hx tree (mem_flattenAll_of_mem hst (mem_flatten_self st))

/-- **Statements whose leaves follow each other do so themselves.** -/
theorem areConsecutive_statements {tree : List Statement} (h : AreConsecutive (leavesAll tree)) :
    AreConsecutive (tree.map Statement.span) := by
  induction tree with
  | nil => exact ⟨fun x hx => (List.not_mem_nil hx).elim, .nil⟩
  | cons st tree ih =>
    rw [leavesAll] at h
    have htree := ih (h.sublist (List.sublist_append_right _ _))
    have hst := start_lt_stop_span fun x hx => h.start_lt_stop x (List.mem_append_left _ hx)
    have hcross := (List.pairwise_append.mp h.sorted).2.2
    constructor
    · rw [List.map_cons, List.forall_mem_cons]
      exact ⟨hst, htree.start_lt_stop⟩
    · rw [List.map_cons, List.pairwise_cons]
      refine ⟨fun y hy => ?_, htree.sorted⟩
      obtain ⟨later, hlater, rfl⟩ := List.mem_map.mp hy
      refine stop_span_le fun x hx => le_start_span fun y hy => ?_
      exact hcross x hx y (mem_leavesAll_of_mem hlater hy)

mutual

theorem leaves_sublist_flatten : ∀ (s : Statement), st ∈ s.flatten → st.leaves.Sublist s.leaves
  | .group keyword id style body close, hst => by
    rw [Statement.flatten] at hst
    rcases List.mem_cons.mp hst with rfl | hst
    · exact .refl _
    · exact (leaves_sublist_flattenAll body hst).trans (leavesAll_sublist_group ..)
  | .layout .., hst | .freeArrow .., hst | .chain _, hst => by
    simp only [Statement.flatten, List.mem_singleton] at hst
    exact hst ▸ .refl _

/-- A statement of a tree has its leaves among those of the tree, in order. -/
theorem leaves_sublist_flattenAll : ∀ (tree : List Statement),
    st ∈ Statement.flattenAll tree → st.leaves.Sublist (leavesAll tree)
  | [], hst => by cases hst
  | s :: tree, hst => by
    rw [Statement.flattenAll] at hst
    rw [leavesAll]
    rcases List.mem_append.mp hst with hst | hst
    · exact (leaves_sublist_flatten s hst).trans (List.sublist_append_left _ _)
    · exact (leaves_sublist_flattenAll tree hst).trans (List.sublist_append_right _ _)

end

/-! ## The tokens of a statement -/

/-- The tokens of a group in front of `rest`: its header ends with the brace `left`, and it ends
with the brace `right` behind the tokens `inner`. -/
structure HasBraces (s rest : List Token) (header : GroupHeader) (close : Span) (left : Token)
    (inner : List Token) (right : Token) : Prop where
  header_eq : groupHeader s = .ok (header, inner ++ right :: rest)
  left_mem : ∃ front, s = front ++ left :: (inner ++ right :: rest)
  left_kind : left.kind = .leftBrace
  right_kind : right.kind = .rightBrace
  right_span : right.span = close

mutual

/-- The statement is read from the tokens in front of `rest`, by its own production. -/
def Statement.ReadFrom : Statement → List Token → List Token → Prop
  | .group keyword id style body close, s, rest =>
    ∃ left inner right, HasBraces s rest ⟨keyword, id, style⟩ close left inner right ∧
      AreReadFrom body (inner ++ right :: rest) (right :: rest)
  | st, s, rest => plainStatement s = .ok (st, rest)

/-- The statements are read from the tokens in front of `rest`, one behind the other.  Some of the
tokens may be passed over. -/
def AreReadFrom : List Statement → List Token → List Token → Prop
  | [], s, rest => rest <:+ s
  | st :: tree, s, rest =>
    ∃ s₁ s₂, s₁ <:+ s ∧ st.ReadFrom s₁ s₂ ∧ AreReadFrom tree s₂ rest

end

/-- A statement may begin further on. -/
theorem AreReadFrom.earlier : ∀ {tree : List Statement} {r : List Token},
    AreReadFrom tree r rest → r <:+ s → AreReadFrom tree s rest
  | [], _, h, hsuffix => List.IsSuffix.trans h hsuffix
  | _ :: _, _, ⟨s₁, s₂, hs₁, hst, htree⟩, hsuffix => ⟨s₁, s₂, hs₁.trans hsuffix, hst, htree⟩

/-- A header ends with a brace. -/
theorem exists_leftBrace (h : groupHeader s = .ok (header, rest)) :
    ∃ front left, s = front ++ left :: rest ∧ left.kind = .leftBrace := by
  obtain ⟨keyword, s₁, s₂, s₃, left, h₁, h₂, h₃, h₄, -⟩ := groupHeader_eq_ok.mp h
  obtain ⟨rfl, hkind⟩ := expect_eq_ok.mp h₄
  have hstyle := (yields_optional yields_propertyList.inProduction).keeps h₃
  have hid := yields_identifier.keeps h₂
  have hkeyword := (yields_expect .group).keeps h₁
  obtain ⟨front, hfront⟩ := hstyle.suffix.trans (hid.suffix.trans hkeyword.suffix)
  exact ⟨front, left, hfront.symm, hkind⟩

/-- Groups are not read as plain statements. -/
theorem not_plainStatement_group {keyword close : Span} {id : Located String}
    {style : Option PropertyList} {body : List Statement} :
    plainStatement s ≠ .ok (.group keyword id style body close, rest) := by
  intro h
  rcases plainStatement_cases h with hlayout | harrow | ⟨c, -, hst⟩
  · obtain ⟨_, _, _, _, _, -, -, -, hst⟩ := layout_eq_ok.mp hlayout
    cases hst
  · obtain ⟨_, _, _, -, -, hst⟩ := freeArrow_eq_ok.mp harrow
    cases hst
  · cases hst

theorem readFrom_of_plainStatement (h : plainStatement s = .ok (st, rest)) :
    st.ReadFrom s rest := by
  cases st with
  | group keyword id style body close => exact absurd h not_plainStatement_group
  | layout keyword name => exact h
  | freeArrow keyword ps => exact h
  | chain c => exact h

mutual

theorem Statement.ReadFrom.keeps : ∀ {st : Statement} {s rest : List Token},
    st.ReadFrom s rest → Keeps s rest st.leaves
  | .group keyword id style body close, s, rest, ⟨left, inner, right, hbraces, hbody⟩ => by
    have hheader := keeps_of_groupHeader hbraces.header_eq
    have hkeeps := hheader.trans (hbody.keeps.trans (.single right rest))
    rw [hbraces.right_span] at hkeeps
    simpa [Statement.leaves, GroupHeader.leaves] using hkeeps
  | .layout .., _, _, h | .freeArrow .., _, _, h | .chain _, _, _, h =>
    yields_plainStatement.keeps h

/-- The leaves of statements are spans of their tokens, in order. -/
theorem AreReadFrom.keeps : ∀ {tree : List Statement} {s rest : List Token},
    AreReadFrom tree s rest → Keeps s rest (leavesAll tree)
  | [], _, _, h => .of_suffix h
  | _ :: _, _, _, ⟨_, _, hs₁, hst, htree⟩ =>
    (Keeps.of_suffix hs₁).trans (hst.keeps.trans htree.keeps)

end

/-- **Every statement has its tokens**, from one step to the next. -/
theorem areReadFrom_block (eof : Span) : ∀ nested issues s,
    AreReadFrom (block eof nested issues s).statements s (block eof nested issues s).rest := by
  refine (block_induction
    (P := fun _ s r => ∀ st rest, r.1 = .ok (st, rest) → st.ReadFrom s rest)
    (Q := fun _ _ s o => AreReadFrom o.statements s o.rest)
    ?plain ?noHeader ?unclosed ?closed ?stop ?next ?retry).2
  case plain =>
    intro issues s hstart st rest hplain
    exact readFrom_of_plainStatement hplain
  case noHeader =>
    intro issues s f hstart hheader st rest h
    cases h
  case unclosed =>
    intro issues s header rest hheader hrest hbody st rest' h
    cases h
  case closed =>
    intro issues s header rest t s' hheader hrest hkind hbody st rest' h
    cases h
    -- the body is read up to its closing brace, so what it took stands between the two braces
    rw [hrest] at hbody
    obtain ⟨inner, rfl⟩ := hbody.keeps.suffix
    obtain ⟨front, left, hs, hleft⟩ := exists_leftBrace hheader
    exact ⟨left, inner, t, ⟨hheader, ⟨front, hs⟩, hleft, hkind, rfl⟩, hbody⟩
  case stop =>
    exact fun _ _ _ _ => List.suffix_rfl
  case next =>
    intro nested issues s st rest issues' hgo _ hfirst hmore
    exact ⟨s, rest, List.suffix_rfl, hfirst st rest rfl, hmore⟩
  case retry =>
    intro nested issues s f issues' hgo hone hfirst hmore
    exact hmore.earlier (resume_suffix (suffix_of_statement hone))

mutual

theorem Statement.ReadFrom.of_mem_flatten : ∀ {st : Statement} {s rest : List Token},
    st.ReadFrom s rest → st' ∈ st.flatten → ∃ s' rest', s' <:+ s ∧ st'.ReadFrom s' rest'
  | .group keyword id style body close, s, rest, h, hst => by
    rw [Statement.flatten] at hst
    rcases List.mem_cons.mp hst with rfl | hst
    · exact ⟨s, rest, List.suffix_rfl, h⟩
    · obtain ⟨left, inner, right, hbraces, hbody⟩ := h
      obtain ⟨s', rest', hs', hread⟩ := hbody.of_mem_flattenAll hst
      exact ⟨s', rest', hs'.trans (keeps_of_groupHeader hbraces.header_eq).suffix, hread⟩
  | .layout .., s, rest, h, hst | .freeArrow .., s, rest, h, hst | .chain _, s, rest, h, hst => by
    simp only [Statement.flatten, List.mem_singleton] at hst
    exact ⟨s, rest, List.suffix_rfl, hst ▸ h⟩

/-- Also the statements inside groups have their tokens. -/
theorem AreReadFrom.of_mem_flattenAll : ∀ {tree : List Statement} {s rest : List Token},
    AreReadFrom tree s rest → st' ∈ Statement.flattenAll tree →
      ∃ s' rest', s' <:+ s ∧ st'.ReadFrom s' rest'
  | [], _, _, _, hst => by cases hst
  | _ :: _, _, _, ⟨s₁, s₂, hs₁, hhead, htree⟩, hst => by
    rw [Statement.flattenAll] at hst
    rcases List.mem_append.mp hst with hst | hst
    · obtain ⟨s', rest', hs', hread⟩ := hhead.of_mem_flatten hst
      exact ⟨s', rest', hs'.trans hs₁, hread⟩
    · obtain ⟨s', rest', hs', hread⟩ := htree.of_mem_flattenAll hst
      exact ⟨s', rest', hs'.trans (hhead.keeps.suffix.trans hs₁), hread⟩

end

/-! ## Between the braces -/

/-- **What is read between two braces stands strictly between them.** -/
theorem between_braces {close : Span} {left right : Token} {inner : List Token}
    {body : List Statement} (hs : AreConsecutive (s.map Token.span))
    (hbraces : HasBraces s rest header close left inner right)
    (hbody : AreReadFrom body (inner ++ right :: rest) (right :: rest)) (hst : st ∈ body) :
    left.span.stop ≤ st.span.start ∧ st.span.stop ≤ right.span.start := by
  obtain ⟨front, rfl⟩ := hbraces.left_mem
  obtain ⟨ts, hts, hkept⟩ := hbody.keeps
  obtain rfl : inner = ts := List.append_cancel_right hts
  have hinner : ∀ x ∈ st.leaves, x ∈ inner.map Token.span := fun x hx =>
    hkept.subset (mem_leavesAll_of_mem hst hx)
  have hsorted : (left.span :: (inner.map Token.span ++ [right.span])).Pairwise
      fun x y => x.stop ≤ y.start := by
    refine hs.sorted.sublist ?_
    simp
  obtain ⟨hleft, hright⟩ := List.pairwise_cons.mp hsorted
  constructor
  · exact le_start_span fun x hx => hleft x (List.mem_append_left _ (hinner x hx))
  · refine stop_span_le fun x hx => ?_
    exact (List.pairwise_append.mp hright).2.2 x (hinner x hx) _ (List.mem_singleton_self _)

/-! ## Whole texts -/

/-- **Recovery makes progress and keeps order.**  With enough fuel all tokens are taken.  The
messages are about different places in order, each of them a token or the end, and every statement
is read from tokens of its own, inside its group.  Where the tokens follow each other, the messages
begin one behind the other, the statements of each block follow each other, and those in a group
are strictly between its braces. -/
theorem parseTokens_inOrder {tree : List Statement} {issues : List Issue}
    (h : parseTokens eof tokens = (tree, issues)) :
    (∀ fuel, 2 * tokens.length + 1 ≤ fuel →
        statements eof fuel false [] tokens = ⟨tree, issues.reverse, []⟩) ∧
      (issues.map Issue.span).Sublist (tokens.map Token.span ++ [eof]) ∧
      AreReadFrom tree tokens [] ∧
      (AreConsecutive (tokens.map Token.span) → (∀ t ∈ tokens, t.span.stop ≤ eof.start) →
        (issues.map Issue.span).Pairwise (fun x y => x.start < y.start) ∧
          AreConsecutive (tree.map Statement.span) ∧
          ∀ keyword id style body close,
            .group keyword id style body close ∈ Statement.flattenAll tree →
            AreConsecutive (body.map Statement.span) ∧
              ∃ s rest left inner right, s <:+ tokens ∧
                HasBraces s rest ⟨keyword, id, style⟩ close left inner right ∧
                AreReadFrom body (inner ++ right :: rest) (right :: rest) ∧
                ∀ st ∈ body, left.span.stop ≤ st.span.start ∧
                  st.span.stop ≤ right.span.start) := by
  obtain ⟨rfl, rfl⟩ := Prod.mk.inj (h.symm.trans (parseTokens_eq eof tokens))
  have hread := areReadFrom_block eof false [] tokens
  rw [rest_block] at hread
  have hblamed := blamed_parseTokens eof tokens
  rw [h] at hblamed
  refine ⟨fun fuel hfuel => ?_, hblamed, hread, fun htokens heof => ⟨?_, ?_, ?_⟩⟩
  · rw [statements_eq_block hfuel, List.reverse_reverse]
    exact congrArg (Outcome.mk _ _) (rest_block eof [] tokens)
  · -- the messages are a sublist of the places of all tokens and the end, which are in order
    have hplaces : (tokens.map Token.span ++ [eof]).Pairwise fun x y => x.start < y.start := by
      refine List.pairwise_append.mpr ⟨htokens.pairwise_start, List.pairwise_singleton _ _, ?_⟩
      intro x hx y hy
      obtain ⟨t, ht, rfl⟩ := List.mem_map.mp hx
      rw [List.mem_singleton.mp hy]
      exact (htokens.start_lt_stop _ hx).trans_le (heof t ht)
    exact hplaces.sublist hblamed
  · have hkept := keeps_parseTokens eof tokens
    rw [h] at hkept
    exact areConsecutive_statements (htokens.sublist hkept)
  · intro keyword id style body close hgroup
    have hkept := keeps_parseTokens eof tokens
    rw [h] at hkept
    have hbody := (leavesAll_sublist_group keyword id style body close).trans
      ((leaves_sublist_flattenAll _ hgroup).trans hkept)
    refine ⟨areConsecutive_statements (htokens.sublist hbody), ?_⟩
    obtain ⟨s, rest, hs, left, inner, right, hbraces, hinner⟩ := hread.of_mem_flattenAll hgroup
    have hconsecutive := htokens.sublist (hs.sublist.map Token.span)
    exact ⟨s, rest, left, inner, right, hs, hbraces, hinner,
      fun st hst => between_braces hconsecutive hbraces hinner hst⟩

/-- A text that is broken inside a group and behind it. -/
theorem parseTokens_inOrder_broken :
    let text := "group g \x7b\n  a -> :\n  b\n\x7d\n-> c\nd"
    let parsed := parseTokens (endSpan text.toList) (tokenize text).1
    AreConsecutive ((tokenize text).1.map Token.span) ∧
      (∀ t ∈ (tokenize text).1, t.span.stop ≤ (endSpan text.toList).start) ∧
      parsed.2.map (fun i => i.span.start) = [17, 25] ∧
      parsed.1.map (fun st => (st.span.start, st.span.stop)) = [(0, 24), (30, 31)] ∧
      AreConsecutive (parsed.1.map Statement.span) := by
  intro text parsed
  have htokens := areConsecutive_tokenize text
  have hend : ∀ t ∈ (tokenize text).1, t.span.stop ≤ (endSpan text.toList).start :=
    fun t ht => stop_le_endSpan ht
  obtain ⟨-, -, -, hconsecutive⟩ := parseTokens_inOrder (rfl : parsed = (parsed.1, parsed.2))
  exact ⟨htokens, hend, by decide +kernel, by decide +kernel, (hconsecutive htokens hend).2.1⟩

end Syntax

end Diagram
