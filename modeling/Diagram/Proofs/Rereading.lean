import Diagram.Proofs.Merging
import Diagram.Proofs.Styles

/-!
# Reading back what was printed

Statements that are printed and read again are the same statements, with every number
replaced by what its text is read as, quotes in labels replaced, and free arrows that
nothing is written for left out.  The walk merges nothing on the way: a node is named by
its own statement and by the ends of edges, which say nothing about it.
-/

namespace Diagram

open Syntax

variable {α : Type} [Scalar α]

/-! ## Places do not matter -/

@[simp] theorem ofProperties_map_bare (ps : List Property) :
    (Style.ofProperties (ps.map Property.bare) : Style α) = Style.ofProperties ps := by
  rw [Style.ofProperties, List.foldl_map]
  rfl

@[simp] theorem ofList?_map_bare (ps : Option PropertyList) :
    (Style.ofList? (ps.map PropertyList.bare) : Style α) = Style.ofList? ps := by
  cases ps with
  | none => rfl
  | some ps => exact ofProperties_map_bare ps.items

@[simp] theorem id_bare (r : NodeRef) : r.bare.id = r.id := by
  simp only [NodeRef.id, NodeName.text, NodeRef.bare, NodeName.bare]
  cases r.name.member <;> rfl

@[simp] theorem ofRef_bare (r : NodeRef) : (Node.ofRef r.bare : Node α) = Node.ofRef r := by
  obtain ⟨name, shape, label⟩ := r
  have hid := id_bare ⟨name, shape, label⟩
  cases shape with
  | none => cases label <;> simp [Node.ofRef, NodeRef.bare] at hid ⊢ <;> exact hid
  | some s =>
    have hstyle := ofProperties_map_bare (α := α) s.properties
    cases label <;> simp [Node.ofRef, NodeRef.bare, ShapeSpec.bare, hstyle] at hid ⊢ <;> exact hid

theorem addAll_map_bare (r : Registry α) (refs : List NodeRef) :
    r.addAll (refs.map NodeRef.bare) = r.addAll refs := by
  simp only [Registry.addAll, List.foldl_map, ofRef_bare]

theorem edgesOf_map_bare (source : String) (ls : List Link) :
    (edgesOf source (ls.map Link.bare) : List (Edge α)) = edgesOf source ls := by
  induction ls generalizing source with
  | nil => rfl
  | cons l ls ih =>
    have hid : l.bare.target.id = l.target.id := id_bare l.target
    have hedge : (Edge.ofLink source l.bare : Edge α) = Edge.ofLink source l := by
      have hstyle := ofList?_map_bare (α := α) l.anchor
      simp only [Edge.ofLink, hid]
      cases hl : l.label <;> simp [Link.bare, hl, hstyle]
    rw [List.map_cons, edgesOf, edgesOf, hedge, hid, ih]

theorem refs_bare (c : Chain) : c.bare.refs = c.refs.map NodeRef.bare := by
  simp [Chain.refs, Chain.bare, Function.comp_def, Link.bare]

theorem chain_bare (w : Walk α) (c : Chain) : w.chain c.bare = w.chain c := by
  have hhead : c.bare.head.id = c.head.id := id_bare c.head
  have hlinks : c.bare.links = c.links.map Link.bare := rfl
  simp only [Walk.chain, refs_bare, addAll_map_bare, hhead, hlinks, List.isEmpty_map,
    edgesOf_map_bare]

mutual

theorem collectOne_bare (w : Walk α) : ∀ (st : Syntax.Statement),
    collectOne w st.bare = collectOne w st
  | .group k id style body close => by
    rw [Syntax.Statement.bare, collectOne, collectOne, collect_bareAll w body, ofList?_map_bare]
    rfl
  | .layout .. => rfl
  | .freeArrow k ps => by
    rw [Syntax.Statement.bare, collectOne, collectOne, PropertyList.bare, ofProperties_map_bare]
  | .chain c => chain_bare w c

theorem collect_bareAll (w : Walk α) : ∀ (tree : List Syntax.Statement),
    collect w (bareAll tree) = collect w tree
  | [] => rfl
  | st :: tree => by
    rw [bareAll, collect_cons, collect_cons, collectOne_bare w st, collect_bareAll _ tree]

end

/-- **The statements of a tree do not depend on places.** -/
theorem statementsOf_bareAll (tree : List Syntax.Statement) :
    (statementsOf (bareAll tree) : List (Statement α)) = statementsOf tree := by
  simp only [statementsOf, collect_bareAll]

/-! ## What statements are read back as -/

/-- A node, read back. -/
def Node.reread (n : Node α) : Node α where
  id := n.id
  label := n.label.map labelText
  shape := n.writtenShape
  style := n.style.reread

/-- An edge, read back. -/
def Edge.reread (e : Edge α) : Edge α :=
  { e with label := e.label.map labelText, style := e.style.reread }

mutual

/-- A statement, read back.  Of a free arrow without properties that can be written nothing
is left. -/
def Statement.reread : Statement α → List (Statement α)
  | .node n => [.node n.reread]
  | .edge e => [.edge e.reread]
  | .group id style children => [.group id style.reread (rereadAll children)]
  | .layout name => [.layout name]
  | .freeArrow style => if style.literals.isEmpty then [] else [.freeArrow style.reread]

/-- Statements, read back. -/
def Statement.rereadAll : List (Statement α) → List (Statement α)
  | [] => []
  | s :: ss => Statement.reread s ++ rereadAll ss

end

/-- Without properties that can be written nothing is read back. -/
theorem reread_of_nil {s : Style α} (h : s.literals = []) : s.reread = {} := by
  rw [Style.reread, properties_eq_nil.mpr h]
  rfl

theorem ofList?_propertyList? (s : Style α) : Style.ofList? s.propertyList? = s.reread := by
  rw [Style.propertyList?]
  split
  · next hempty =>
    rw [reread_of_nil (properties_eq_nil.mp (List.isEmpty_iff.mp hempty))]
    rfl
  · rfl

@[simp] theorem id_ref (n : Node α) : n.ref.id = n.id := text_ofId n.id

/-- What a written reference says about its node is the node, read back. -/
theorem ofRef_ref (n : Node α) : Node.ofRef n.ref = n.reread := by
  cases hw : n.writtenShape with
  | some s =>
    simp [Node.ofRef, Node.reread, NodeRef.id, hw, Node.ref, Style.reread, Function.comp_def]
  | none =>
    have hnil : n.style.literals = [] := by
      rw [Node.writtenShape] at hw
      split at hw
      · cases hw
      · simpa using hw
    simp [Node.ofRef, Node.reread, NodeRef.id, hw, Node.ref, reread_of_nil hnil, Function.comp_def]

theorem edgesOf_chain (e : Edge α) : edgesOf e.chain.head.id e.chain.links = [e.reread] := by
  have hsource : e.chain.head.id = e.source := text_ofId e.source
  have htarget (shape label) : NodeRef.id ⟨.ofId e.target, shape, label⟩ = e.target :=
    text_ofId e.target
  rw [hsource]
  simp only [Edge.chain, edgesOf, Edge.ofLink, htarget, ofList?_propertyList?, Option.map_map]
  rfl

mutual

theorem nodeIds_reread : ∀ (st : Statement α),
    Statement.nodeIds st.reread = Statement.nodeIds [st]
  | .node n => rfl
  | .edge e => rfl
  | .group id style children => by
    simp [Statement.reread, nodeIds_rereadAll children]
  | .layout name => rfl
  | .freeArrow style => by
    rw [Statement.reread]
    split <;> rfl

/-- Reading back keeps the names of the nodes. -/
theorem nodeIds_rereadAll : ∀ (ss : List (Statement α)),
    Statement.nodeIds (Statement.rereadAll ss) = Statement.nodeIds ss
  | [] => rfl
  | s :: ss => by
    rw [Statement.rereadAll, Statement.nodeIds_append, Statement.nodeIds_cons, nodeIds_reread s,
      nodeIds_rereadAll ss]

end

/-! ## Statements with their records -/

mutual

theorem fillAll_collect_tree (r : Registry α) : ∀ (w : Walk α) (st : Statement α),
    (∀ n, .node n ∈ st.flatten → r.find? n.id = some n.reread) →
    (∀ id ∈ Statement.nodeIds [st], id ∉ w.declared) → (Statement.nodeIds [st]).Nodup →
    Statement.fillAll r (collect w st.tree).1 = st.reread
  | w, .node n, hr, hnew, _ => by
    have hrecord := hr n (by simp [Statement.flatten])
    have hfresh : w.declared.contains n.id = false := by
      simpa using hnew n.id (by simp)
    have hid : NodeRef.id (Chain.mk n.ref []).head = n.id := id_ref n
    rw [Statement.tree, collect_singleton, collectOne, Walk.chain, hid, hfresh]
    simp [Statement.fillAll, Statement.fill, hrecord, Statement.reread]
  | w, .edge e, _, _, _ => by
    have hedges := edgesOf_chain e
    have hlinks : e.chain.links.isEmpty = false := rfl
    rw [Statement.tree, collect_singleton, collectOne, Walk.chain, hlinks, hedges]
    rfl
  | w, .group id style children, hr, hnew, hnodup => by
    rw [Statement.nodeIds_group, Statement.nodeIds_nil, List.append_nil] at hnew hnodup
    have hchildren := fillAll_collect_treeAll r w children
      (fun n hn => hr n (by simp [Statement.flatten, hn])) hnew hnodup
    rw [Statement.tree, collect_singleton, collectOne, Statement.reread, ← hchildren,
      ofList?_propertyList?]
    rfl
  | w, .layout name, _, _, _ => rfl
  | w, .freeArrow style, _, _, _ => by
    rw [Statement.tree, Statement.reread, Style.propertyList?]
    -- a style without values is written without brackets, and read back as no list at all
    by_cases hnil : style.literals = []
    · simp [properties_eq_nil.mpr hnil, hnil, collect, Statement.fillAll]
    · have hne : style.properties ≠ [] := fun h => hnil (properties_eq_nil.mp h)
      simp [hne, hnil, collectOne, Statement.fillAll, Statement.fill, Style.reread]

/-- The walk over the tree of statements, with records that are those of the nodes. -/
theorem fillAll_collect_treeAll (r : Registry α) : ∀ (w : Walk α) (ss : List (Statement α)),
    (∀ n, .node n ∈ Statement.flattenAll ss → r.find? n.id = some n.reread) →
    (∀ id ∈ Statement.nodeIds ss, id ∉ w.declared) → (Statement.nodeIds ss).Nodup →
    Statement.fillAll r (collect w (Statement.treeAll ss)).1 = Statement.rereadAll ss
  | w, [], _, _, _ => rfl
  | w, st :: ss, hr, hnew, hnodup => by
    rw [Statement.nodeIds_cons] at hnew hnodup
    obtain ⟨hnodup₁, hnodup₂, hdisjoint⟩ := List.nodup_append.mp hnodup
    have hfirst := fillAll_collect_tree r w st
      (fun n hn => hr n (by simp [Statement.flattenAll, hn]))
      (fun id hid => hnew id (List.mem_append_left _ hid)) hnodup₁
    -- the names that the first statement declares are its own
    have hdeclared : (collect w st.tree).2.declared = w.declared ++ Statement.nodeIds [st] := by
      rw [declared_collect, ← nodeIds_fillAll r, hfirst, nodeIds_reread]
    have hmore := fillAll_collect_treeAll r (collect w st.tree).2 ss
      (fun n hn => hr n (by simp [Statement.flattenAll, hn]))
      (by
        intro id hid hmem
        rw [hdeclared] at hmem
        rcases List.mem_append.mp hmem with hold | hown
        · exact hnew id (List.mem_append_right _ hid) hold
        · exact hdisjoint id hown id hid rfl)
      hnodup₂
    rw [Statement.treeAll, collect_append, fillAll_append, hfirst, hmore, Statement.rereadAll]

end

/-! ## Records of the nodes -/

section Merge

omit [Scalar α]

/-- A record of which nothing is known yet. -/
theorem merge_unknown_left (n : Node α) : Node.merge { id := n.id } n = n := by
  obtain ⟨id, label, shape, style⟩ := n
  have hstyle : Style.merge {} style = style := by
    refine Style.ext_keys (fun k => ?_) (fun k => ?_)
    · rw [Style.number_merge, Style.number_default]
      cases style.number k <;> rfl
    · rw [Style.text_merge, Style.text_default]
      cases style.text k <;> rfl
  simp [Node.merge, hstyle]

/-- A reference that says nothing. -/
theorem merge_unknown_right (n : Node α) : n.merge { id := n.id } = n := by
  obtain ⟨id, label, shape, style⟩ := n
  have hstyle : style.merge {} = style := Style.merge_empty style
  simp [Node.merge, hstyle]

theorem merge_self (n : Node α) : n.merge n = n := by
  obtain ⟨id, label, shape, style⟩ := n
  have hstyle : style.merge style = style := by
    refine Style.ext_keys (fun k => ?_) (fun k => ?_)
    · rw [Style.number_merge]
      cases style.number k <;> rfl
    · rw [Style.text_merge]
      cases style.text k <;> rfl
  simp [Node.merge, hstyle]

/-- What is known about a node is nothing but its name, or all of it. -/
def Registry.IsPartial (r : Registry α) (n : Node α) : Prop :=
  ∀ m ∈ r.find? n.id, m = { id := n.id } ∨ m = n

/-- What is said of a node, if anything, is all of it. -/
def Node.IsSaidBy (n x : Node α) : Prop := x.id = n.id → x = { id := n.id } ∨ x = n

namespace Registry

variable {r : Registry α} {n x : Node α}

theorem IsPartial.add (h : r.IsPartial n) (hx : n.IsSaidBy x) : (r.add x).IsPartial n := by
  intro m hm
  rw [find?_add] at hm
  split at hm
  · next hid =>
    obtain rfl := Option.some.inj hm
    cases hfind : r.find? n.id with
    | none => exact hx hid
    | some k =>
      rcases h k hfind with rfl | rfl <;> rcases hx hid with rfl | rfl
      · exact .inl (merge_self _)
      · exact .inr (merge_unknown_left _)
      · exact .inr (merge_unknown_right _)
      · exact .inr (merge_self _)
  · exact h m hm

/-- A reference that says all of a node completes its record. -/
theorem IsPartial.find?_add (h : r.IsPartial n) : (r.add n).find? n.id = some n := by
  rw [Registry.find?_add, if_pos rfl]
  cases hfind : r.find? n.id with
  | none => rfl
  | some k =>
    rcases h k hfind with rfl | rfl
    · exact congrArg some (merge_unknown_left n)
    · exact congrArg some (merge_self _)

/-- A complete record stays as it is. -/
theorem find?_add_of_eq (h : r.find? n.id = some n) (hx : n.IsSaidBy x) :
    (r.add x).find? n.id = some n := by
  rw [Registry.find?_add]
  split
  · next hid =>
    rw [h]
    rcases hx hid with rfl | rfl
    · exact congrArg some (merge_unknown_right n)
    · exact congrArg some (merge_self _)
  · exact h

end Registry

end Merge

/-- When all references to a node say nothing or all of it, and one of them says all of it,
this is the record. -/
theorem find?_addAll_of_isSaidBy {n : Node α} {refs : List NodeRef}
    (hrefs : ∀ x ∈ refs, n.IsSaidBy (Node.ofRef x)) {x : NodeRef} (hx : x ∈ refs)
    (hfull : Node.ofRef x = n) {r : Registry α} (hr : r.IsPartial n) :
    (r.addAll refs).find? n.id = some n := by
  obtain ⟨before, after, rfl⟩ := List.append_of_mem hx
  have hbefore : (r.addAll before).IsPartial n :=
    Registry.addAll_induction (P := fun r => r.IsPartial n)
      (fun r y hy h => h.add (hrefs y (List.mem_append_left _ hy))) hr
  rw [Registry.addAll_append, Registry.addAll_cons, hfull]
  refine Registry.addAll_induction (P := fun r => r.find? n.id = some n) (fun r y hy h => ?_)
    hbefore.find?_add
  exact Registry.find?_add_of_eq h
    (hrefs y (List.mem_append_right _ (List.mem_cons_of_mem x hy)))

/-! ## References of the tree -/

mutual

theorem mem_nodeRefs_tree {x : NodeRef} : ∀ (st : Statement α), x ∈ nodeRefs st.tree ↔
    (∃ n, .node n ∈ st.flatten ∧ x = n.ref) ∨ ∃ e, .edge e ∈ st.flatten ∧ x ∈ e.chain.refs
  | .node n => by
    simp [Statement.tree, Statement.flatten, Chain.refs]
  | .edge e => by
    simp [Statement.tree, Statement.flatten]
  | .group id style children => by
    have hchildren := mem_nodeRefs_treeAll (x := x) children
    simp [Statement.tree, Statement.flatten, hchildren]
  | .layout name => by
    simp [Statement.tree, Statement.flatten]
  | .freeArrow style => by
    rw [Statement.tree]
    cases style.propertyList? <;> simp [Statement.flatten]

/-- The references of the tree are those of the nodes and of the ends of the edges. -/
theorem mem_nodeRefs_treeAll {x : NodeRef} : ∀ (ss : List (Statement α)),
    x ∈ nodeRefs (Statement.treeAll ss) ↔
      (∃ n, .node n ∈ Statement.flattenAll ss ∧ x = n.ref) ∨
        ∃ e, .edge e ∈ Statement.flattenAll ss ∧ x ∈ e.chain.refs
  | [] => by simp [Statement.treeAll, Statement.flattenAll]
  | s :: ss => by
    have hfirst := mem_nodeRefs_tree (x := x) s
    have hmore := mem_nodeRefs_treeAll (x := x) ss
    rw [Statement.treeAll, nodeRefs_append, List.mem_append, hfirst, hmore, Statement.flattenAll]
    simp only [List.mem_append, or_and_right, exists_or]
    exact or_or_or_comm

end

/-- The ends of a written edge say nothing about their nodes. -/
theorem ofRef_of_mem_refs {e : Edge α} {x : NodeRef} (h : x ∈ e.chain.refs) :
    (x.id = e.source ∨ x.id = e.target) ∧ (Node.ofRef x : Node α) = { id := x.id } := by
  have hid (id : String) : NodeRef.id ⟨.ofId id, none, none⟩ = id := text_ofId id
  simp only [Chain.refs, Edge.chain, List.map_cons, List.map_nil, List.mem_cons,
    List.not_mem_nil, or_false] at h
  rcases h with rfl | rfl
  · exact ⟨.inl (hid _), rfl⟩
  · exact ⟨.inr (hid _), rfl⟩

/-! ## Writable statements -/

/-- The names are words, no two nodes have the same name, and edges join nodes. -/
structure Statement.AreWritable (ss : List (Statement α)) : Prop where
  words : ∀ s ∈ flattenAll ss, s.HasWords
  nodup : (nodeIds ss).Nodup
  ends : ∀ e, .edge e ∈ flattenAll ss → e.source ∈ nodeIds ss ∧ e.target ∈ nodeIds ss

/-- The record of a node is the node, read back. -/
theorem find?_recordsOf_treeAll {ss : List (Statement α)} (h : Statement.AreWritable ss)
    {n : Node α} (hn : .node n ∈ Statement.flattenAll ss) :
    (recordsOf (Statement.treeAll ss)).find? n.id = some n.reread := by
  have hsaid : ∀ x ∈ nodeRefs (Statement.treeAll ss), n.reread.IsSaidBy (Node.ofRef x) := by
    intro x hx hid
    rcases (mem_nodeRefs_treeAll ss).mp hx with ⟨m, hm, rfl⟩ | ⟨e, -, hend⟩
    · rw [ofRef_ref] at hid ⊢
      obtain rfl := Statement.node_eq_of_nodup h.nodup hm hn hid
      exact .inr rfl
    · left
      rw [← hid, (ofRef_of_mem_refs hend).2]
  exact find?_addAll_of_isSaidBy (n := n.reread) hsaid
    ((mem_nodeRefs_treeAll ss).mpr (.inl ⟨n, hn, rfl⟩)) (ofRef_ref n) (fun m hm => by cases hm)

/-- Every reference is to a node. -/
theorem mem_nodeIds_of_mem_nodeRefs {ss : List (Statement α)} (h : Statement.AreWritable ss)
    {x : NodeRef} (hx : x ∈ nodeRefs (Statement.treeAll ss)) : x.id ∈ Statement.nodeIds ss := by
  rcases (mem_nodeRefs_treeAll ss).mp hx with ⟨n, hn, rfl⟩ | ⟨e, he, hend⟩
  · exact Statement.mem_nodeIds.mpr ⟨n, hn, (id_ref n).symm⟩
  · obtain ⟨hsource, htarget⟩ := h.ends e he
    rcases (ofRef_of_mem_refs hend).1 with hid | hid <;> rw [hid]
    · exact hsource
    · exact htarget

/-- **The statements of the tree that is written for statements.** -/
theorem statementsOf_treeAll {ss : List (Statement α)} (h : Statement.AreWritable ss) :
    statementsOf (Statement.treeAll ss) = Statement.rereadAll ss := by
  have hskeleton : Statement.fillAll (recordsOf (Statement.treeAll ss))
      (skeletonOf (Statement.treeAll ss)) = Statement.rereadAll ss :=
    fillAll_collect_treeAll _ {} ss (fun n hn => find?_recordsOf_treeAll h hn)
      (fun id _ => List.not_mem_nil) h.nodup
  have hstated : Statement.nodeIds (skeletonOf (Statement.treeAll ss) : List (Statement α)) =
      Statement.nodeIds ss := by
    rw [← nodeIds_fillAll (recordsOf (Statement.treeAll ss)), hskeleton, nodeIds_rereadAll]
  have himplied : (impliedOf (Statement.treeAll ss) : Registry α) = [] := by
    refine List.filter_eq_nil_iff.mpr fun n hn => ?_
    obtain ⟨x, hx, hid⟩ := mem_ids_recordsOf.mp (List.mem_map_of_mem hn)
    rw [hstated, ← hid]
    simpa using mem_nodeIds_of_mem_nodeRefs h hx
  rw [statementsOf_eq, himplied, hskeleton]
  rfl

/-- **A text that reads as the tree of writable statements is read as these statements.** -/
theorem Document.ofText_eq_rereadAll {text : String} {ss : List (Statement α)}
    (h : Statement.AreWritable ss)
    (hreads : Reads false text.toList (lexemesAll (Statement.treeAll ss))) :
    Document.ofText text = ⟨Statement.rereadAll ss, []⟩ := by
  obtain ⟨hissues, htree⟩ := hreads.parse (areProper_treeAll ss h.words)
  have hstatements : statementsOf (Syntax.parse text).1 = Statement.rereadAll ss := by
    rw [← statementsOf_bareAll, htree, statementsOf_bareAll, statementsOf_treeAll h]
  simp only [Document.ofText, hissues, List.isEmpty_nil, if_true, hstatements]

end Diagram
