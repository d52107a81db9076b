import Diagram.Proofs.Ranges

/-!
# Leaves that follow each other

The leaves of a tree are stretches of the text, and each of them ends before the next one begins.
Whatever is made of leaves can therefore be put in order by where it begins, and what stands
between two leaves lies within their hull.
-/

namespace Diagram

/-! ## Spans in order -/

/-- A span that neither begins before another nor ends behind it. -/
structure Span.IsWithin (s t : Span) : Prop where
  start_le : t.start ≤ s.start
  le_stop : s.stop ≤ t.stop

namespace Span

variable {r s t : Span}

@[simp] theorem start_merge (s t : Span) : (s.merge t).start = min s.start t.start := by
  by_cases h : s.start ≤ t.start
  · simp [merge, h]
  · simp [merge, h, Nat.min_eq_right (Nat.le_of_not_le h)]

@[simp] theorem stop_merge (s t : Span) : (s.merge t).stop = max s.stop t.stop := by
  by_cases h : s.start ≤ t.start
  · simp [merge, h]
  · simp [merge, h, Nat.max_comm]

theorem IsWithin.refl (s : Span) : s.IsWithin s := ⟨Nat.le_refl _, Nat.le_refl _⟩

theorem IsWithin.trans (hst : s.IsWithin t) (htr : t.IsWithin r) : s.IsWithin r :=
  ⟨htr.start_le.trans hst.start_le, hst.le_stop.trans htr.le_stop⟩

/-- The hull of two spans within another is within it. -/
theorem IsWithin.merge (hs : s.IsWithin r) (ht : t.IsWithin r) : (s.merge t).IsWithin r where
  start_le := by
    rw [start_merge]
    exact Nat.le_min.mpr ⟨hs.start_le, ht.start_le⟩
  le_stop := by
    rw [stop_merge]
    exact Nat.max_le.mpr ⟨hs.le_stop, ht.le_stop⟩

theorem isWithin_merge_left (s t : Span) : s.IsWithin (s.merge t) where
  start_le := start_merge s t ▸ Nat.min_le_left _ _
  le_stop := stop_merge s t ▸ Nat.le_max_left _ _

theorem isWithin_merge_right (s t : Span) : t.IsWithin (s.merge t) where
  start_le := start_merge s t ▸ Nat.min_le_right _ _
  le_stop := stop_merge s t ▸ Nat.le_max_right _ _

end Span

/-- Stretches of a text that follow each other. -/
structure InOrder (text : List Char) (xs : List Span) : Prop where
  isStretch : ∀ x ∈ xs, IsStretch text x
  sorted : xs.Pairwise fun x y => x.stop ≤ y.start

theorem IsStretch.start_lt_stop {text : List Char} {s : Span} (h : IsStretch text s) :
    s.start < s.stop := by
  obtain ⟨a, w, b, -, hw, rfl⟩ := h
  have := byteSize_pos hw.ne_nil
  rw [Cursor.start_cover, Cursor.stop_cover]
  omega

theorem InOrder.sublist {text : List Char} {xs ys : List Span} (h : InOrder text ys)
    (hsub : xs.Sublist ys) : InOrder text xs :=
  ⟨fun x hx => h.isStretch x (hsub.subset hx), h.sorted.sublist hsub⟩

/-- Stretches that follow each other begin one behind the other. -/
theorem InOrder.pairwise_start {text : List Char} {xs : List Span} (h : InOrder text xs) :
    xs.Pairwise fun x y => x.start < y.start := by
  refine h.sorted.imp_of_mem fun {x y} hx _ hxy => ?_
  exact (h.isStretch x hx).start_lt_stop.trans_le hxy

/-- None of the stretches begins before the first. -/
theorem InOrder.start_le {text : List Char} {s : Span} {xs : List Span}
    (h : InOrder text (s :: xs)) : ∀ x ∈ s :: xs, s.start ≤ x.start := by
  intro x hx
  rcases List.mem_cons.mp hx with rfl | hx
  · exact Nat.le_refl _
  · exact ((List.pairwise_cons.mp h.pairwise_start).1 x hx).le

/-- What stands between two of the stretches is within their hull. -/
theorem InOrder.isWithin_merge {text : List Char} {s t : Span} {xs : List Span}
    (h : InOrder text (s :: (xs ++ [t]))) : ∀ x ∈ xs, x.IsWithin (s.merge t) := by
  intro x hx
  obtain ⟨hs, hxs⟩ := List.pairwise_cons.mp h.sorted
  have hstart : s.stop ≤ x.start := hs x (List.mem_append_left _ hx)
  have hstop : x.stop ≤ t.start :=
    (List.pairwise_append.mp hxs).2.2 x hx t (List.mem_singleton_self t)
  have hs := (h.isStretch s (by simp)).start_lt_stop
  have ht := (h.isStretch t (by simp)).start_lt_stop
  constructor
  · rw [Span.start_merge]
    omega
  · rw [Span.stop_merge]
    omega

/-- Tokens follow each other. -/
theorem pairwise_tokenize (text : String) :
    (tokenize text).1.Pairwise fun t u => t.span.stop ≤ u.span.start := by
  refine List.pairwise_filterMap.mpr ((pairwise_locate .start _).imp ?_)
  intro x y hle t ht u hu
  rwa [(token?_eq_some ht).2.1, (token?_eq_some hu).2.1]

/-- **The leaves of a tree are stretches of the text that follow each other.** -/
theorem inOrder_leavesAll (text : String) :
    InOrder text.toList (Syntax.leavesAll (Syntax.parse text).1) := by
  have htokens : InOrder text.toList ((tokenize text).1.map Token.span) := by
    constructor
    · exact fun x hx => isStretch_of_mem_tokenize (List.mem_append_left _ hx)
    · exact List.pairwise_map.mpr (pairwise_tokenize text)
  exact htokens.sublist (Syntax.keeps_parseTokens (endSpan text.toList) (tokenize text).1)

/-! ## Parts of a tree -/

namespace Syntax

theorem NodeName.isWithin_head (n : NodeName) : n.head.span.IsWithin n.span := by
  obtain ⟨head, member⟩ := n
  cases member with
  | none => exact .refl _
  | some m => exact Span.isWithin_merge_left _ _

section

variable {text : List Char}

/-- An operator stands between the names that it joins. -/
theorem isWithin_arrow {source : NodeRef} {l : Link}
    (h : InOrder text (source.leaves ++ l.leaves)) :
    l.arrow.span.IsWithin (source.name.span.merge l.target.name.span) := by
  have hsource : [source.name.head.span].Sublist source.leaves :=
    List.singleton_sublist.mpr (by simp [NodeRef.leaves, NodeName.leaves])
  have hl : ([l.arrow.span] ++ [l.target.name.head.span]).Sublist l.leaves :=
    .cons_cons _ (List.singleton_sublist.mpr (by simp [NodeRef.leaves, NodeName.leaves]))
  have hbetween : l.arrow.span.IsWithin (source.name.head.span.merge l.target.name.head.span) :=
    (h.sublist (hsource.append hl)).isWithin_merge _ (List.mem_singleton_self _)
  refine hbetween.trans (.merge ?_ ?_)
  · exact source.name.isWithin_head.trans (Span.isWithin_merge_left _ _)
  · exact l.target.name.isWithin_head.trans (Span.isWithin_merge_right _ _)

theorem leavesAll_sublist_group (keyword : Span) (id : Located String)
    (style : Option PropertyList) (body : List Statement) (close : Span) :
    (leavesAll body).Sublist (Statement.group keyword id style body close).leaves := by
  rw [Statement.leaves]
  refine .cons _ (.cons _ (.trans ?_ (List.sublist_append_right _ _)))
  exact List.sublist_append_left _ _

/-- What is in a group stands between its keyword and its closing brace. -/
theorem isWithin_group {keyword close : Span} {id : Located String}
    {style : Option PropertyList} {body : List Statement}
    (h : InOrder text (Statement.group keyword id style body close).leaves) :
    ∀ x ∈ id.span :: (style.elim [] PropertyList.leaves ++ leavesAll body),
      x.IsWithin (keyword.merge close) := by
  have hgroup : InOrder text (keyword ::
      (id.span :: (style.elim [] PropertyList.leaves ++ leavesAll body) ++ [close])) := by
    simpa [Statement.leaves] using h
  exact hgroup.isWithin_merge

/-- A name begins where its first part does. -/
theorem start_name {n : NodeName} (h : InOrder text n.leaves) :
    n.span.start = n.head.span.start := by
  obtain ⟨head, member⟩ := n
  cases member with
  | none => rfl
  | some m =>
    rw [NodeName.span, Span.start_merge, Nat.min_eq_left]
    exact h.start_le m.span (by simp)

/-- The hull of two names begins where the first one does. -/
theorem start_merge_names {m n : NodeName} (h : InOrder text (m.leaves ++ n.leaves)) :
    (m.span.merge n.span).start = m.head.span.start := by
  rw [Span.start_merge, start_name (h.sublist (List.sublist_append_left _ _)),
    start_name (h.sublist (List.sublist_append_right _ _)), Nat.min_eq_left]
  exact h.start_le n.head.span (by simp [NodeName.leaves])

end

/-- The leaves of a statement up to the statements inside it. -/
def Statement.ownLeaves : Statement → List Span
  | .group keyword id style _ _ => keyword :: id.span :: style.elim [] PropertyList.leaves
  | st => st.leaves

mutual

theorem ownLeaves_sublist_leaves : ∀ (st : Statement),
    (st.flatten.flatMap Statement.ownLeaves).Sublist st.leaves
  | .group keyword id style body close => by
    have hbody : (Statement.flattenAll body).flatMap Statement.ownLeaves |>.Sublist
        (leavesAll body ++ [close]) :=
      (ownLeaves_sublist body).trans (List.sublist_append_left _ _)
    simpa [Statement.flatten, Statement.leaves, Statement.ownLeaves] using hbody
  | .layout .. | .freeArrow .. | .chain _ => by
    simp [Statement.flatten, Statement.ownLeaves]

/-- **The statements of a tree have their own leaves in order**, groups before what is inside
them. -/
theorem ownLeaves_sublist : ∀ (tree : List Statement),
    ((Statement.flattenAll tree).flatMap Statement.ownLeaves).Sublist (leavesAll tree)
  | [] => .slnil
  | st :: tree => by
    rw [Statement.flattenAll, List.flatMap_append, leavesAll]
    exact (ownLeaves_sublist_leaves st).append (ownLeaves_sublist tree)

end

end Syntax

end Diagram
