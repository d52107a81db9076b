import Diagram.Editor.Outline
import Diagram.Proofs.Succession

/-!
# Ranges inside ranges

The editor looks up positions in lines of its own, so the range of a symbol may be the wrong one.
Yet a place further on in the text is never taken for one further back, and so ranges lie in each
other as the spans do that they were made from.  The symbols of an outline mark spans made of the
leaves of a tree, which follow each other.
-/

namespace Diagram

/-! ## Places in order -/

/-- A position not behind another. -/
def Position.le (p q : Position) : Prop := p.line < q.line ∨ p.line = q.line ∧ p.column ≤ q.column

instance : LE Position := ⟨Position.le⟩

namespace Position

theorem le_refl (p : Position) : p ≤ p := .inr ⟨rfl, Nat.le_refl _⟩

theorem le_trans {p q r : Position} (hpq : p ≤ q) (hqr : q ≤ r) : p ≤ r := by
  rcases hpq with hpq | ⟨hpq, hcolumn⟩ <;> rcases hqr with hqr | ⟨hqr, hcolumn'⟩
  · exact .inl (hpq.trans hqr)
  · exact .inl (hqr ▸ hpq)
  · exact .inl (hpq ▸ hqr)
  · exact .inr ⟨hpq.trans hqr, hcolumn.trans hcolumn'⟩

theorem le_next (p : Position) (c : Char) : p ≤ p.next c := by
  rw [next]
  split
  · exact .inl (Nat.lt_succ_self _)
  · exact .inr ⟨rfl, Nat.le_succ _⟩

end Position

/-- Reading leads on. -/
theorem Cursor.position_le_skip (cur : Cursor) (a : List Char) :
    cur.position ≤ (cur.skip a).position := by
  induction a generalizing cur with
  | nil => exact Position.le_refl _
  | cons c cs ih => exact Position.le_trans (Position.le_next cur.position c) (ih (cur.next c))

namespace Editor

/-- A place not behind another. -/
def Place.le (p q : Place) : Prop := p.line < q.line ∨ p.line = q.line ∧ p.unit ≤ q.unit

instance : LE Place := ⟨Place.le⟩

/-- A range that neither begins before another nor ends behind it. -/
structure Range.IsInside (r s : Range) : Prop where
  start_le : s.start ≤ r.start
  le_stop : r.stop ≤ s.stop

theorem units_take_le (text : List Char) {k n : Nat} (h : k ≤ n) :
    units (text.take k) ≤ units (text.take n) := total_take_le unitSize text h

/-- **A position further on is not placed further back**, whatever lines the editor has, as long as
there are enough of them. -/
theorem LineMap.place_le {m : LineMap} {p q : Position} (hpq : p ≤ q) (hp : 0 < p.line)
    (hq : q.line ≤ m.lines.length) : m.place p ≤ m.place q := by
  rcases hpq with hline | ⟨hline, hcolumn⟩
  · refine .inl ?_
    simp only [place, clampLine, lastLine]
    omega
  · refine .inr ⟨by simp only [place, hline], ?_⟩
    simp only [place, hline]
    exact units_take_le _ (Nat.sub_le_sub_right hcolumn 1)

/-- The place behind the text `a`. -/
def LineMap.placeBehind (m : LineMap) (a : List Char) : Place :=
  m.place (Cursor.start.skip a).position

/-- **What stands further on in a text is not placed further back.** -/
theorem place_skip_le {a b text : List Char} (hab : a <+: b) (hb : b <+: text) :
    (LineMap.mk (breakLines text)).placeBehind a ≤
      (LineMap.mk (breakLines text)).placeBehind b := by
  refine LineMap.place_le ?_ ?_ ?_
  · obtain ⟨c, rfl⟩ := hab
    rw [Cursor.skip_append]
    exact Cursor.position_le_skip _ c
  · rw [line_skip]
    exact Nat.lt_of_lt_of_le Nat.one_pos (Nat.le_add_right _ _)
  · have hcount := count_lt_length_breakLines text
    have hle := hb.sublist.count_le '\n'
    rw [line_skip]
    show 1 + b.count '\n' ≤ (breakLines text).length
    omega

/-- The range of a stretch leads from the place in front of it to the place behind it. -/
theorem exists_range_of_isStretch {text : List Char} {s : Span} (hs : IsStretch text s) :
    ∃ a b, a <+: text ∧ b <+: text ∧ s.start = byteSize a ∧ s.stop = byteSize b ∧
      (LineMap.mk (breakLines text)).range s =
        ⟨(LineMap.mk (breakLines text)).placeBehind a,
          (LineMap.mk (breakLines text)).placeBehind b⟩ := by
  obtain ⟨a, w, b, rfl, hw, rfl⟩ := hs
  obtain ⟨cs, c, rfl, hc⟩ := hw.last
  refine ⟨a, a ++ (cs ++ [c]), ⟨cs ++ [c] ++ b, by simp⟩, ⟨b, rfl⟩, ?_, ?_, ?_⟩
  · rw [Cursor.start_cover, Cursor.offset_start_skip]
  · rw [Cursor.stop_cover, Cursor.offset_start_skip, ← byteSize_append]
  · have hstop := range_stop_cover ⟨breakLines (a ++ (cs ++ [c]) ++ b)⟩ a cs (ne_feed hc)
    rw [List.append_assoc a cs [c]] at hstop
    rw [LineMap.placeBehind, LineMap.placeBehind, ← hstop]
    rfl

/-- A stretch within another has its range inside that of the other. -/
theorem isInside_range {text : List Char} {s t : Span} (hs : IsStretch text s)
    (ht : IsStretch text t) (h : t.IsWithin s) :
    ((LineMap.mk (breakLines text)).range t).IsInside
      ((LineMap.mk (breakLines text)).range s) := by
  obtain ⟨a, b, ha, hb, hstart, hstop, hrange⟩ := exists_range_of_isStretch hs
  obtain ⟨c, d, hc, hd, hstart', hstop', hrange'⟩ := exists_range_of_isStretch ht
  rw [hrange, hrange']
  constructor
  · refine place_skip_le (prefix_of_byteSize_le ha hc ?_) hc
    rw [← hstart, ← hstart']
    exact h.start_le
  · refine place_skip_le (prefix_of_byteSize_le hd hb ?_) hb
    rw [← hstop, ← hstop']
    exact h.le_stop

/-- The range of a stretch does not end before it begins. -/
theorem start_le_stop_range {text : List Char} {s : Span} (hs : IsStretch text s) :
    ((LineMap.mk (breakLines text)).range s).start ≤
      ((LineMap.mk (breakLines text)).range s).stop := by
  obtain ⟨a, b, ha, hb, hstart, hstop, hrange⟩ := exists_range_of_isStretch hs
  rw [hrange]
  refine place_skip_le (prefix_of_byteSize_le ha hb ?_) hb
  rw [← hstart, ← hstop]
  exact hs.start_lt_stop.le

/-! ## Entries of an outline -/

namespace OutlineItem

/-- The entries right inside an entry. -/
def children : OutlineItem → List OutlineItem
  | leaf _ => []
  | group _ children => children

mutual

/-- An entry, followed by the entries inside it. -/
def flatten : OutlineItem → List OutlineItem
  | leaf i => [leaf i]
  | group i children => group i children :: flattenAll children

/-- The entries of a list, each followed by the entries inside it. -/
def flattenAll : List OutlineItem → List OutlineItem
  | [] => []
  | s :: ss => flatten s ++ flattenAll ss

end

@[simp] theorem flattenAll_append (ss ts : List OutlineItem) :
    flattenAll (ss ++ ts) = flattenAll ss ++ flattenAll ts := by
  induction ss with
  | nil => rfl
  | cons s ss ih => simp [flattenAll, ih]

/-- Entries without others inside them. -/
theorem flattenAll_of_children_eq_nil {ss : List OutlineItem} (h : ∀ s ∈ ss, s.children = []) :
    flattenAll ss = ss := by
  induction ss with
  | nil => rfl
  | cons s ss ih =>
    obtain ⟨hs, hss⟩ := List.forall_mem_cons.mp h
    have hflatten : s.flatten = [s] := by
      cases s with
      | leaf i => rfl
      | group i children => rw [flatten, show children = [] from hs, flattenAll]
    rw [flattenAll, hflatten, ih hss]
    rfl

/-- An entry whose range runs forwards and holds its selection and the ranges of the entries right
inside it. -/
structure IsNested (item : OutlineItem) : Prop where
  start_le_stop : item.info.range.start ≤ item.info.range.stop
  selection_start_le_stop : item.info.selection.start ≤ item.info.selection.stop
  selection_isInside : item.info.selection.IsInside item.info.range
  children_isInside : ∀ child ∈ item.children, child.info.range.IsInside item.info.range

/-- Entries that are nested at every depth. -/
def AreNested (items : List OutlineItem) : Prop := ∀ item ∈ flattenAll items, item.IsNested

/-- An entry that marks and selects spans with a property, and selects within what it marks. -/
def Marks (m : LineMap) (P : Span → Prop) (item : OutlineItem) : Prop :=
  ∃ s t, P s ∧ P t ∧ t.IsWithin s ∧ item.info.range = m.range s ∧ item.info.selection = m.range t

end OutlineItem

open Syntax (NodeName NodeRef Link Chain leavesAll isWithin_arrow isWithin_group
  leavesAll_sublist_group)

/-- Whatever is listed of some references is the entry of one of them. -/
theorem exists_of_mem_nodeSymbols {m : LineMap} {seen : List String} {ns : List NodeRef} :
    ∀ item ∈ (nodeSymbols m seen ns).1, ∃ n ∈ ns, ∃ detail,
      item = .leaf ⟨n.id, .node, detail, m.range n.name.span, m.range n.name.span⟩ := by
  fun_induction nodeSymbols m seen ns with
  | case1 => exact nofun
  | case2 seen n ns hseen ih =>
    intro item hitem
    obtain ⟨k, hk, hentry⟩ := ih item hitem
    exact ⟨k, List.mem_cons_of_mem _ hk, hentry⟩
  | case3 seen n ns hseen range detail more seen' hmore ih =>
    rw [hmore] at ih
    refine List.forall_mem_cons.mpr ⟨⟨n, List.mem_cons_self, detail, rfl⟩, fun item hitem => ?_⟩
    obtain ⟨k, hk, hentry⟩ := ih item hitem
    exact ⟨k, List.mem_cons_of_mem _ hk, hentry⟩

theorem children_nodeSymbols (m : LineMap) (seen : List String) (ns : List NodeRef) :
    ∀ item ∈ (nodeSymbols m seen ns).1, item.children = [] := by
  intro item hitem
  obtain ⟨n, -, detail, rfl⟩ := exists_of_mem_nodeSymbols item hitem
  rfl

theorem children_linkSymbols (m : LineMap) (source : NodeRef) (ls : List Link) :
    ∀ item ∈ linkSymbols m source ls, item.children = [] := by
  induction ls generalizing source with
  | nil => exact nofun
  | cons l ls ih => exact List.forall_mem_cons.mpr ⟨rfl, ih l.target⟩

section

variable {m : LineMap} {P : Span → Prop} {text : List Char}

theorem marks_nodeSymbols {ns : List NodeRef} (h : ∀ n ∈ ns, P n.name.span) (seen : List String) :
    ∀ item ∈ (nodeSymbols m seen ns).1, item.Marks m P := by
  intro item hitem
  obtain ⟨n, hn, detail, rfl⟩ := exists_of_mem_nodeSymbols item hitem
  exact ⟨_, _, h n hn, h n hn, .refl _, rfl, rfl⟩

variable (hmerge : ∀ {s t}, P s → P t → P (s.merge t))

include hmerge

theorem name_span_of_leaves {n : NodeRef} (h : ∀ x ∈ n.leaves, P x) : P n.name.span :=
  NodeName.span_of_leaves hmerge fun x hx => h x (by simp [NodeRef.leaves, hx])

theorem marks_linkSymbols {source : NodeRef} {ls : List Link}
    (hsorted : InOrder text (source.leaves ++ ls.flatMap Link.leaves))
    (h : ∀ x ∈ source.leaves ++ ls.flatMap Link.leaves, P x) :
    ∀ item ∈ linkSymbols m source ls, item.Marks m P := by
  induction ls generalizing source with
  | nil => exact nofun
  | cons l ls ih =>
    rw [List.flatMap_cons, ← List.append_assoc] at hsorted h
    have htarget : l.target.leaves.Sublist (source.leaves ++ l.leaves) := by
      refine .trans ?_ (List.sublist_append_right _ _)
      exact .cons _ (List.sublist_append_left _ _)
    have hrest : (l.target.leaves ++ ls.flatMap Link.leaves).Sublist
        (source.leaves ++ l.leaves ++ ls.flatMap Link.leaves) := htarget.append_right _
    obtain ⟨hfirst, hls⟩ := List.forall_mem_append.mp h
    obtain ⟨hsource, hl⟩ := List.forall_mem_append.mp hfirst
    have hspan : P (source.name.span.merge l.target.name.span) :=
      hmerge (name_span_of_leaves hmerge hsource)
        (name_span_of_leaves hmerge fun x hx => hfirst x (htarget.subset hx))
    have harrow : P l.arrow.span := hl _ List.mem_cons_self
    have hwithin : l.arrow.span.IsWithin (source.name.span.merge l.target.name.span) :=
      isWithin_arrow (hsorted.sublist (List.sublist_append_left _ _))
    refine List.forall_mem_cons.mpr ⟨⟨_, _, hspan, harrow, hwithin, rfl, rfl⟩, ?_⟩
    exact ih (hsorted.sublist hrest) fun x hx => h x (hrest.subset hx)

/-- The entries of a statement mark spans made of its leaves. -/
theorem marks_statementSymbols {st : Syntax.Statement} (hsorted : InOrder text st.leaves)
    (h : ∀ x ∈ st.leaves, P x) (seen : List String) :
    ∀ item ∈ (statementSymbols m seen st).1, item.Marks m P := by
  cases st with
  | group keyword id style body close =>
    have hkeyword : P keyword := h _ (by simp [Syntax.Statement.leaves])
    have hid : P id.span := h _ (by simp [Syntax.Statement.leaves])
    have hclose : P close := h _ (by simp [Syntax.Statement.leaves])
    have hwithin : id.span.IsWithin (keyword.merge close) :=
      isWithin_group hsorted _ List.mem_cons_self
    intro item hitem
    rw [statementSymbols, List.mem_singleton] at hitem
    subst hitem
    exact ⟨_, _, hmerge hkeyword hclose, hid, hwithin, rfl, rfl⟩
  | layout keyword name =>
    have hkeyword : P keyword := h _ (by simp [Syntax.Statement.leaves])
    have hname : P name.span := h _ (by simp [Syntax.Statement.leaves])
    intro item hitem
    rw [statementSymbols, List.mem_singleton] at hitem
    subst hitem
    exact ⟨_, _, hmerge hkeyword hname, hname, Span.isWithin_merge_right _ _, rfl, rfl⟩
  | freeArrow keyword ps =>
    have hkeyword : P keyword := h _ (by simp [Syntax.Statement.leaves])
    have hclose : P ps.close := h _ (by simp [Syntax.Statement.leaves, Syntax.PropertyList.leaves])
    intro item hitem
    rw [statementSymbols, List.mem_singleton] at hitem
    subst hitem
    exact ⟨_, _, hmerge hkeyword hclose, hmerge hkeyword hclose, .refl _, rfl, rfl⟩
  | chain c =>
    rw [Syntax.Statement.leaves] at hsorted h
    intro item hitem
    rw [statementSymbols] at hitem
    rcases List.mem_append.mp hitem with hitem | hitem
    · refine marks_nodeSymbols (fun n hn => ?_) seen item hitem
      exact name_span_of_leaves hmerge fun x hx => h x (Syntax.mem_leaves_of_mem_refs hn hx)
    · exact marks_linkSymbols hmerge hsorted h item hitem

theorem marks_outlineItems {tree : List Syntax.Statement}
    (hsorted : InOrder text (leavesAll tree)) (h : ∀ x ∈ leavesAll tree, P x)
    (seen : List String) : ∀ item ∈ (outlineItems m seen tree).1, item.Marks m P := by
  induction tree generalizing seen with
  | nil => exact nofun
  | cons st tree ih =>
    rw [leavesAll] at hsorted h
    obtain ⟨hst, htree⟩ := List.forall_mem_append.mp h
    intro item hitem
    rw [outlineItems] at hitem
    rcases List.mem_append.mp hitem with hitem | hitem
    · exact marks_statementSymbols hmerge (hsorted.sublist (List.sublist_append_left _ _)) hst
        seen item hitem
    · exact ih (hsorted.sublist (List.sublist_append_right _ _)) htree _ item hitem

end

/-! ## Nesting -/

theorem isNested_of_marks {text : List Char} {item : OutlineItem}
    (h : item.Marks ⟨breakLines text⟩ (IsStretch text))
    (hchildren : ∀ child ∈ item.children, child.info.range.IsInside item.info.range) :
    item.IsNested := by
  obtain ⟨s, t, hs, ht, hwithin, hrange, hselection⟩ := h
  refine ⟨?_, ?_, ?_, hchildren⟩
  · rw [hrange]
    exact start_le_stop_range hs
  · rw [hselection]
    exact start_le_stop_range ht
  · rw [hrange, hselection]
    exact isInside_range hs ht hwithin

/-- The entries inside a group lie inside its range. -/
theorem isInside_group {text : List Char} {keyword close : Span} {id : Syntax.Located String}
    {style : Option Syntax.PropertyList} {body : List Syntax.Statement}
    (h : InOrder text (Syntax.Statement.group keyword id style body close).leaves)
    (seen : List String) :
    ∀ child ∈ (outlineItems ⟨breakLines text⟩ seen body).1, child.info.range.IsInside
      ((LineMap.mk (breakLines text)).range (keyword.merge close)) := by
  intro child hchild
  have hbody := leavesAll_sublist_group keyword id style body close
  have hgroup : IsStretch text (keyword.merge close) :=
    (h.isStretch _ (by simp [Syntax.Statement.leaves])).merge
      (h.isStretch _ (by simp [Syntax.Statement.leaves]))
  obtain ⟨s, t, ⟨hs, hwithin⟩, -, -, hrange, -⟩ :=
    marks_outlineItems (P := fun s => IsStretch text s ∧ s.IsWithin (keyword.merge close))
      (fun hs ht => ⟨hs.1.merge ht.1, hs.2.merge ht.2⟩) (h.sublist hbody)
      (fun x hx => ⟨h.isStretch x (hbody.subset hx), isWithin_group h x (by simp [hx])⟩)
      seen child hchild
  rw [hrange]
  exact isInside_range hgroup hs hwithin

/-- Entries without others inside them are nested. -/
theorem areNested_of_marks {text : List Char} {items : List OutlineItem}
    (hchildren : ∀ item ∈ items, item.children = [])
    (h : ∀ item ∈ items, item.Marks ⟨breakLines text⟩ (IsStretch text)) :
    OutlineItem.AreNested items := by
  intro item hitem
  rw [OutlineItem.flattenAll_of_children_eq_nil hchildren] at hitem
  refine isNested_of_marks (h item hitem) ?_
  rw [hchildren item hitem]
  exact nofun

mutual

theorem areNested_statementSymbols {text : List Char} (seen : List String) :
    ∀ (st : Syntax.Statement), InOrder text st.leaves →
      OutlineItem.AreNested (statementSymbols ⟨breakLines text⟩ seen st).1
  | .group keyword id style body close, h => by
    have hbody : InOrder text (leavesAll body) :=
      h.sublist (leavesAll_sublist_group keyword id style body close)
    have hmarks :=
      marks_statementSymbols (m := ⟨breakLines text⟩) IsStretch.merge h h.isStretch seen
    intro item hitem
    rw [statementSymbols] at hitem hmarks
    simp only [OutlineItem.flattenAll, OutlineItem.flatten, List.append_nil,
      List.mem_cons] at hitem
    rcases hitem with rfl | hitem
    · exact isNested_of_marks (hmarks _ (List.mem_singleton_self _)) (isInside_group h seen)
    · exact areNested_outlineItems seen body hbody item hitem
  | .layout keyword name, h =>
    areNested_of_marks (List.forall_mem_singleton.mpr rfl)
      (marks_statementSymbols IsStretch.merge h h.isStretch seen)
  | .freeArrow keyword ps, h =>
    areNested_of_marks (List.forall_mem_singleton.mpr rfl)
      (marks_statementSymbols IsStretch.merge h h.isStretch seen)
  | .chain c, h => by
    refine areNested_of_marks (fun item hitem => ?_)
      (marks_statementSymbols IsStretch.merge h h.isStretch seen)
    rw [statementSymbols] at hitem
    rcases List.mem_append.mp hitem with hitem | hitem
    · exact children_nodeSymbols _ _ _ item hitem
    · exact children_linkSymbols _ _ _ item hitem

/-- Statements have nested entries when their leaves are in order. -/
theorem areNested_outlineItems {text : List Char} (seen : List String) :
    ∀ (tree : List Syntax.Statement), InOrder text (leavesAll tree) →
      OutlineItem.AreNested (outlineItems ⟨breakLines text⟩ seen tree).1
  | [], _ => nofun
  | st :: tree, h => by
    rw [leavesAll] at h
    intro item hitem
    rw [outlineItems, OutlineItem.flattenAll_append] at hitem
    rcases List.mem_append.mp hitem with hitem | hitem
    · exact areNested_statementSymbols seen st (h.sublist (List.sublist_append_left _ _)) item hitem
    · exact areNested_outlineItems _ tree (h.sublist (List.sublist_append_right _ _)) item hitem

end

/-- **Every entry of every outline is nested**: its range runs forwards, its selection lies inside
its range, and so do the ranges of the entries inside it.  The text may have errors and line breaks
of any kind. -/
theorem areNested_outline (text : String) : OutlineItem.AreNested (outline text) :=
  areNested_outlineItems [] (Syntax.parse text).1 (inOrder_leavesAll text)

/-- Behind a carriage return the ranges are the wrong ones, and nested all the same. -/
theorem areNested_outline_return :
    let text := "\ngroup g \x7b\r  group h \x7b a -> b \x7d\n\x7d"
    (OutlineItem.flattenAll (outline text)).map (fun item => (item.info.name, item.info.range)) =
      [("group g", ⟨⟨1, 0⟩, ⟨2, 1⟩⟩), ("group h", ⟨⟨1, 9⟩, ⟨1, 9⟩⟩), ("a", ⟨⟨1, 9⟩, ⟨1, 9⟩⟩),
        ("b", ⟨⟨1, 9⟩, ⟨1, 9⟩⟩), ("a -> b", ⟨⟨1, 9⟩, ⟨1, 9⟩⟩)] ∧
      OutlineItem.AreNested (outline text) := by
  intro text
  exact ⟨by decide +kernel, areNested_outline text⟩

end Editor

end Diagram
