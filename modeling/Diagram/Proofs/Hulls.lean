import Diagram.Lint
import Diagram.Proofs.Leaves

/-!
# Spans made of leaves

A larger part of a tree has no span of its own.  It is computed from those of its first and its last
token, and the span of a finding is a leaf or is computed from two names.  So whatever is true of
every leaf, and of the hull of two spans when it is true of both, is true of all spans.
-/

namespace Diagram

/-! ## Trees -/

namespace Syntax

section

variable {P : Span → Prop} (hmerge : ∀ {s t}, P s → P t → P (s.merge t))

include hmerge

theorem NodeName.span_of_leaves {n : NodeName} (h : ∀ x ∈ n.leaves, P x) : P n.span := by
  obtain ⟨head, member⟩ := n
  cases member with
  | none => exact h head.span (by simp [NodeName.leaves])
  | some m => exact hmerge (h _ (by simp [NodeName.leaves])) (h _ (by simp [NodeName.leaves]))

theorem NodeRef.lastSpan_of_leaves {r : NodeRef} (h : ∀ x ∈ r.leaves, P x) : P r.lastSpan := by
  obtain ⟨name, shape, label⟩ := r
  cases label with
  | some l => exact h _ (by simp [NodeRef.leaves, labelLeaves, NodeRef.lastSpan])
  | none =>
    cases shape with
    | some s => exact h _ (by simp [NodeRef.leaves, ShapeSpec.leaves, NodeRef.lastSpan])
    | none => exact NodeName.span_of_leaves hmerge fun x hx => h x (by simp [NodeRef.leaves, hx])

theorem Link.lastSpan_of_leaves {l : Link} (h : ∀ x ∈ l.leaves, P x) : P l.lastSpan := by
  obtain ⟨arrow, target, anchor, label⟩ := l
  cases label with
  | some t => exact h _ (by simp [Link.leaves, labelLeaves, Link.lastSpan])
  | none =>
    cases anchor with
    | some a => exact h _ (by simp [Link.leaves, PropertyList.leaves, Link.lastSpan])
    | none => exact NodeRef.lastSpan_of_leaves hmerge fun x hx => h x (by simp [Link.leaves, hx])

theorem Chain.span_of_leaves {c : Chain} (h : ∀ x ∈ c.leaves, P x) : P c.span := by
  have hhead : ∀ x ∈ c.head.leaves, P x := fun x hx => h x (by simp [Chain.leaves, hx])
  refine hmerge (hhead _ (by simp [NodeRef.leaves, NodeName.leaves])) ?_
  cases hlast : c.links.getLast? with
  | none => exact NodeRef.lastSpan_of_leaves hmerge hhead
  | some l =>
    refine Link.lastSpan_of_leaves hmerge fun x hx => h x ?_
    rw [Chain.leaves, List.mem_append, List.mem_flatMap]
    exact .inr ⟨l, List.mem_of_getLast? hlast, hx⟩

/-- The span of a statement is made of its leaves. -/
theorem Statement.span_of_leaves {st : Statement} (h : ∀ x ∈ st.leaves, P x) : P st.span := by
  cases st with
  | group keyword id style body close =>
    exact hmerge (h _ (by simp [Statement.leaves])) (h _ (by simp [Statement.leaves]))
  | layout keyword name =>
    exact hmerge (h _ (by simp [Statement.leaves])) (h _ (by simp [Statement.leaves]))
  | freeArrow keyword ps =>
    exact hmerge (h _ (by simp [Statement.leaves]))
      (h _ (by simp [Statement.leaves, PropertyList.leaves]))
  | chain c => exact Chain.span_of_leaves hmerge (by simpa only [Statement.leaves] using h)

end

/-- The spans in a tree: its leaves, its statements and the names of its nodes. -/
def treeSpans (tree : List Statement) : List Span :=
  leavesAll tree ++ (Statement.flattenAll tree).map Statement.span ++
    (nodeRefs tree).map fun r => r.name.span

theorem mem_leavesAll_of_mem_chains {tree : List Statement} {c : Chain} (hc : c ∈ chains tree)
    {x : Span} (hx : x ∈ c.leaves) : x ∈ leavesAll tree := by
  obtain ⟨st, hst, hchain⟩ := List.mem_filterMap.mp hc
  cases st <;> cases hchain
  exact mem_leavesAll_of_mem_flattenAll (by rwa [Statement.leaves]) tree hst

theorem mem_leaves_of_mem_refs {c : Chain} {r : NodeRef} (hr : r ∈ c.refs) {x : Span}
    (hx : x ∈ r.leaves) : x ∈ c.leaves := by
  rw [Chain.leaves, List.mem_append, List.mem_flatMap]
  rcases List.mem_cons.mp hr with rfl | hr
  · exact .inl hx
  · obtain ⟨l, hl, rfl⟩ := List.mem_map.mp hr
    exact .inr ⟨l, hl, by simp [Link.leaves, hx]⟩

/-- **The spans in a tree are made of its leaves.** -/
theorem treeSpans_of_leaves {P : Span → Prop} (hmerge : ∀ {s t}, P s → P t → P (s.merge t))
    {tree : List Statement} (h : ∀ x ∈ leavesAll tree, P x) : ∀ x ∈ treeSpans tree, P x := by
  intro x hx
  rcases List.mem_append.mp hx with hx | hx
  · rcases List.mem_append.mp hx with hx | hx
    · exact h x hx
    · obtain ⟨st, hst, rfl⟩ := List.mem_map.mp hx
      exact Statement.span_of_leaves hmerge fun y hy =>
        h y (mem_leavesAll_of_mem_flattenAll hy tree hst)
  · obtain ⟨r, hr, rfl⟩ := List.mem_map.mp hx
    obtain ⟨c, hc, hr⟩ := List.mem_flatMap.mp hr
    refine NodeName.span_of_leaves hmerge fun y hy => h y (mem_leavesAll_of_mem_chains hc ?_)
    exact mem_leaves_of_mem_refs hr (by simp [NodeRef.leaves, hy])

end Syntax

/-! ## Findings -/

namespace Lint

open Syntax

section

variable {P : Span → Prop}

theorem properties_of_leaves {ps : List Property}
    (h : ∀ x ∈ ps.flatMap Property.leaves, P x) : ∀ d ∈ properties ps, P d.span := by
  intro d hd
  obtain ⟨p, hp, hd⟩ := List.mem_filterMap.mp hd
  have hkey : P p.key.span := h _ (List.mem_flatMap.mpr ⟨p, hp, by simp [Property.leaves]⟩)
  have hvalue : P p.value.span := h _ (List.mem_flatMap.mpr ⟨p, hp, by simp [Property.leaves]⟩)
  unfold property? at hd
  split at hd
  · cases hd
    exact hkey
  · dsimp only at hd
    split at hd <;> split at hd <;> cases hd <;> exact hvalue

theorem propertyList_of_leaves {ps : Option PropertyList}
    (h : ∀ x ∈ ps.elim [] PropertyList.leaves, P x) : ∀ d ∈ propertyList ps, P d.span := by
  cases ps with
  | none => exact nofun
  | some ps => exact properties_of_leaves fun x hx => h x (by simp [PropertyList.leaves, hx])

theorem nodeRef_of_leaves {shapes : Shapes} {n : NodeRef} (h : ∀ x ∈ n.leaves, P x) :
    ∀ d ∈ (nodeRef shapes n).1, P d.span := by
  unfold nodeRef
  cases hshape : n.shape with
  | none => exact nofun
  | some spec =>
    have hspec : ∀ x ∈ spec.leaves, P x := fun x hx => h x (by simp [NodeRef.leaves, hshape, hx])
    have hfound : ∀ d ∈ properties spec.properties, P d.span :=
      properties_of_leaves fun x hx => hspec x (by simp [ShapeSpec.leaves, hx])
    have hkeyword : P spec.keyword.span := hspec _ (by simp [ShapeSpec.leaves])
    dsimp only
    split
    · exact hfound
    · split
      · exact hfound
      · intro d hd
        rcases List.mem_append.mp hd with hd | hd
        · exact hfound d hd
        · rw [List.mem_singleton.mp hd]
          exact hkeyword

theorem nodeRefs_of_leaves {ns : List NodeRef} (h : ∀ n ∈ ns, ∀ x ∈ n.leaves, P x)
    (shapes : Shapes) : ∀ d ∈ (nodeRefs shapes ns).1, P d.span := by
  induction ns generalizing shapes with
  | nil => exact nofun
  | cons n ns ih =>
    obtain ⟨hn, hns⟩ := List.forall_mem_cons.mp h
    intro d hd
    rcases List.mem_append.mp hd with hd | hd
    · exact nodeRef_of_leaves hn d hd
    · exact ih hns _ d hd

variable (hmerge : ∀ {s t}, P s → P t → P (s.merge t))

include hmerge

theorem links_of_leaves {source : NodeRef} (hsource : ∀ x ∈ source.leaves, P x) {ls : List Link}
    (h : ∀ l ∈ ls, ∀ x ∈ l.leaves, P x) : ∀ d ∈ links source ls, P d.span := by
  induction ls generalizing source with
  | nil => exact nofun
  | cons l ls ih =>
    obtain ⟨hl, hls⟩ := List.forall_mem_cons.mp h
    have htarget : ∀ x ∈ l.target.leaves, P x := fun x hx => hl x (by simp [Link.leaves, hx])
    have hname : ∀ {r : NodeRef}, (∀ x ∈ r.leaves, P x) → P r.name.span := fun hr =>
      NodeName.span_of_leaves hmerge fun x hx => hr x (by simp [NodeRef.leaves, hx])
    intro d hd
    rcases List.mem_append.mp hd with hd | hd
    · rcases List.mem_append.mp hd with hd | hd
      · split at hd
        · rw [List.mem_singleton.mp hd]
          exact hmerge (hname hsource) (hname htarget)
        · cases hd
      · exact propertyList_of_leaves (fun x hx => hl x (by simp [Link.leaves, hx])) d hd
    · exact ih htarget hls d hd

theorem statement_of_leaves {shapes : Shapes} {st : Syntax.Statement} (h : ∀ x ∈ st.leaves, P x) :
    ∀ d ∈ (statement shapes st).1, P d.span := by
  cases st with
  | group keyword id style body close =>
    exact propertyList_of_leaves fun x hx => h x (by simp [Syntax.Statement.leaves, hx])
  | layout keyword name =>
    intro d hd
    simp only [statement] at hd
    split at hd
    · rw [List.mem_singleton.mp hd]
      exact h _ (by simp [Syntax.Statement.leaves])
    · cases hd
  | freeArrow keyword ps =>
    exact properties_of_leaves fun x hx =>
      h x (by simp [Syntax.Statement.leaves, PropertyList.leaves, hx])
  | chain c =>
    rw [Syntax.Statement.leaves] at h
    intro d hd
    rcases List.mem_append.mp hd with hd | hd
    · exact nodeRefs_of_leaves (fun n hn x hx => h x (mem_leaves_of_mem_refs hn hx)) _ d hd
    · refine links_of_leaves hmerge (fun x hx => h x ?_) (fun l hl x hx => h x ?_) d hd
      · exact List.mem_append_left _ hx
      · exact List.mem_append_right _ (List.mem_flatMap.mpr ⟨l, hl, hx⟩)

theorem statements_of_leaves {ss : List Syntax.Statement} (h : ∀ st ∈ ss, ∀ x ∈ st.leaves, P x)
    (shapes : Shapes) : ∀ d ∈ statements shapes ss, P d.span := by
  induction ss generalizing shapes with
  | nil => exact nofun
  | cons st ss ih =>
    obtain ⟨hst, hss⟩ := List.forall_mem_cons.mp h
    intro d hd
    rcases List.mem_append.mp hd with hd | hd
    · exact statement_of_leaves hmerge hst d hd
    · exact ih hss _ d hd

/-- **The spans of findings are made of the leaves of the tree.** -/
theorem ofTree_of_leaves {tree : List Syntax.Statement} (h : ∀ x ∈ leavesAll tree, P x) :
    ∀ d ∈ ofTree tree, P d.span := by
  intro d hd
  refine statements_of_leaves hmerge (fun st hst x hx => ?_) [] d (List.mem_mergeSort.mp hd)
  exact h x (mem_leavesAll_of_mem_flattenAll hx tree hst)

end

end Lint

end Diagram
