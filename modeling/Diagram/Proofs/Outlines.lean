import Diagram.Editor.Completion
import Diagram.Proofs.Nesting
import Diagram.Proofs.Structure

/-!
# Outlines, completions and documents

The outline of a text, the names that are completed and the document are made in three walks over
the tree, each with a memory of its own of the names that it has met.  They agree: an outline has
one entry for each node of the document, and apart from nodes it is the document, entry by entry and
group by group; and a statement is completed with the names of the nodes, sorted.

Nodes stand in other places in the two: an outline has a node where it is first mentioned, a
document where it first stands alone or else in front.

## Main definitions

* `Topic` — what an entry says and what stands inside it, whatever its ranges.
* `OutlineItem.topics`, `Statement.topics` — the topics of an outline and of a document, nodes
  apart.
* `IsOutlineOf` — an outline that agrees with a document.
* `Offers` — completions that agree with a document.

## Main statements

* `adds_outlineItems` — each name that a tree mentions has one entry.
* `topicsAll_outlineItems` — apart from nodes, an outline says what the tree states.
* `isOutlineOf_outline` — outline and completions of a text without errors agree with its document.
-/

namespace Diagram

open Syntax (Located NodeRef Link Chain chains nodeRefs)

variable {α : Type}

/-- An edge as it is listed. -/
def Edge.title (e : Edge α) : String := e.source ++ " " ++ e.arrow.symbol ++ " " ++ e.target

namespace Editor

/-! ## What entries say -/

/-- What an entry says and what stands inside it, whatever its ranges. -/
structure Topic where
  kind : SymbolKind
  name : String
  detail : Option String
  inside : List Topic

mutual

/-- What an entry says, unless it is that of a node. -/
def OutlineItem.topics : OutlineItem → List Topic
  | leaf i => if i.kind = .node then [] else [⟨i.kind, i.name, i.detail, []⟩]
  | group i children => [⟨i.kind, i.name, i.detail, topicsAll children⟩]

/-- What some entries say, those of nodes apart. -/
def OutlineItem.topicsAll : List OutlineItem → List Topic
  | [] => []
  | s :: ss => OutlineItem.topics s ++ topicsAll ss

end

namespace OutlineItem

theorem topicsAll_eq_flatMap (ss : List OutlineItem) : topicsAll ss = ss.flatMap topics := by
  induction ss with
  | nil => rfl
  | cons s ss ih => rw [topicsAll, ih, List.flatMap_cons]

@[simp] theorem topicsAll_append (ss ts : List OutlineItem) :
    topicsAll (ss ++ ts) = topicsAll ss ++ topicsAll ts := by
  simp only [topicsAll_eq_flatMap, List.flatMap_append]

/-- The names of the entries of nodes. -/
def nodeNames (items : List OutlineItem) : List String :=
  ((flattenAll items).filter fun item => item.info.kind = .node).map fun item => item.info.name

/-- What is listed of an edge; the entries of free arrows are of the same kind. -/
def edge? (item : OutlineItem) : Option (String × Option String) :=
  if item.info.kind = .arrow ∧ item.info.name ≠ "arrow" then
    some (item.info.name, item.info.detail)
  else none

/-- The names and labels of the entries of edges. -/
def edges (items : List OutlineItem) : List (String × Option String) :=
  (flattenAll items).filterMap edge?

@[simp] theorem nodeNames_append (ss ts : List OutlineItem) :
    nodeNames (ss ++ ts) = nodeNames ss ++ nodeNames ts := by
  simp [nodeNames]

@[simp] theorem edges_append (ss ts : List OutlineItem) :
    edges (ss ++ ts) = edges ss ++ edges ts := by
  simp [edges]

end OutlineItem

end Editor

namespace Statement

mutual

/-- How a statement is listed, unless it is a node. -/
def topics : Statement α → List Editor.Topic
  | .node _ => []
  | .edge e => [⟨.arrow, e.title, e.label, []⟩]
  | .group id _ children => [⟨.group, "group " ++ id, none, topicsAll children⟩]
  | .layout name => [⟨.layout, "@layout", some name, []⟩]
  | .freeArrow _ => [⟨.arrow, "arrow", none, []⟩]

/-- How some statements are listed, nodes apart. -/
def topicsAll : List (Statement α) → List Editor.Topic
  | [] => []
  | s :: ss => topics s ++ topicsAll ss

end

@[simp] theorem topicsAll_append (ss ts : List (Statement α)) :
    topicsAll (ss ++ ts) = topicsAll ss ++ topicsAll ts := by
  induction ss with
  | nil => rfl
  | cons s ss ih => simp [topicsAll, ih]

end Statement

namespace Editor

/-! ## Nodes -/

/-- What listing some references adds to the names that were met: each new name, once. -/
structure Adds (seen : List String) (refs : List NodeRef)
    (listed : List OutlineItem × List String) : Prop where
  names_eq : listed.2 = seen ++ OutlineItem.nodeNames listed.1
  mem_iff : ∀ id, id ∈ listed.2 ↔ id ∈ seen ∨ ∃ r ∈ refs, r.id = id
  nodup : seen.Nodup → listed.2.Nodup

namespace Adds

variable {seen : List String} {refs : List NodeRef} {items : List OutlineItem}

/-- Nothing is added without references. -/
theorem of_nodeNames_eq_nil (h : OutlineItem.nodeNames items = []) :
    Adds seen [] (items, seen) where
  names_eq := by rw [h, List.append_nil]
  mem_iff id := by simp
  nodup h := h

/-- Some references are listed, and then others. -/
theorem append {refs' : List NodeRef} {listed listed' : List OutlineItem × List String}
    (h : Adds seen refs listed) (h' : Adds listed.2 refs' listed') :
    Adds seen (refs ++ refs') (listed.1 ++ listed'.1, listed'.2) where
  names_eq := by
    rw [h'.names_eq, OutlineItem.nodeNames_append, ← List.append_assoc, ← h.names_eq]
  mem_iff id := by
    rw [h'.mem_iff, h.mem_iff, or_assoc]
    simp only [List.mem_append, or_and_right, exists_or]
  nodup hseen := h'.nodup (h.nodup hseen)

end Adds

/-- A reference whose name was met adds nothing. -/
theorem adds_nil_of_mem {seen : List String} {n : NodeRef} (h : n.id ∈ seen) :
    Adds seen [n] ([], seen) where
  names_eq := (List.append_nil seen).symm
  mem_iff id := by
    simp only [List.mem_singleton, exists_eq_left]
    refine (or_iff_left_of_imp ?_).symm
    rintro rfl
    exact h
  nodup h := h

/-- A reference whose name is new adds an entry with its name. -/
theorem adds_leaf_of_notMem {seen : List String} {n : NodeRef} (h : n.id ∉ seen) (info : SymbolInfo)
    (hkind : info.kind = .node) (hname : info.name = n.id) :
    Adds seen [n] ([.leaf info], seen ++ [n.id]) where
  names_eq := by
    simp [OutlineItem.nodeNames, OutlineItem.flattenAll, OutlineItem.flatten, OutlineItem.info,
      hkind, hname]
  mem_iff id := by simp [eq_comm]
  nodup hseen := List.nodup_append.mpr ⟨hseen, by simp, fun a ha b hb hab =>
    h (by rwa [← List.mem_singleton.mp hb, ← hab])⟩

theorem adds_nodeSymbols (m : LineMap) (seen : List String) (ns : List NodeRef) :
    Adds seen ns (nodeSymbols m seen ns) := by
  fun_induction nodeSymbols m seen ns with
  | case1 => exact .of_nodeNames_eq_nil rfl
  | case2 seen n ns hseen ih => exact (adds_nil_of_mem (by simpa using hseen)).append ih
  | case3 seen n ns hseen range detail more seen' hmore ih =>
    rw [hmore] at ih
    have hnew : n.id ∉ seen := by simpa using hseen
    exact (adds_leaf_of_notMem hnew ⟨n.id, .node, detail, range, range⟩ rfl rfl).append ih

theorem flattenAll_linkSymbols (m : LineMap) (source : NodeRef) (ls : List Link) :
    OutlineItem.flattenAll (linkSymbols m source ls) = linkSymbols m source ls :=
  OutlineItem.flattenAll_of_children_eq_nil (children_linkSymbols m source ls)

theorem nodeNames_linkSymbols (m : LineMap) (source : NodeRef) (ls : List Link) :
    OutlineItem.nodeNames (linkSymbols m source ls) = [] := by
  rw [OutlineItem.nodeNames, flattenAll_linkSymbols]
  induction ls generalizing source with
  | nil => rfl
  | cons l ls ih => rw [linkSymbols, List.filter_cons_of_neg (by simp [OutlineItem.info]), ih]

theorem nodeNames_group {info : SymbolInfo} (h : info.kind ≠ .node) (children : List OutlineItem) :
    OutlineItem.nodeNames [.group info children] = OutlineItem.nodeNames children := by
  simp [OutlineItem.nodeNames, OutlineItem.flattenAll, OutlineItem.flatten, OutlineItem.info, h]

mutual

theorem adds_statementSymbols (m : LineMap) (seen : List String) : ∀ (st : Syntax.Statement),
    Adds seen (nodeRefs [st]) (statementSymbols m seen st)
  | .group keyword id style body close => by
    have hbody := adds_outlineItems m seen body
    rw [Syntax.nodeRefs_group, Syntax.nodeRefs_nil, List.append_nil, statementSymbols]
    refine ⟨?_, hbody.mem_iff, hbody.nodup⟩
    rw [nodeNames_group (by simp)]
    exact hbody.names_eq
  | .layout keyword name => .of_nodeNames_eq_nil rfl
  | .freeArrow keyword ps => .of_nodeNames_eq_nil rfl
  | .chain c => by
    have hlinks : Adds (nodeSymbols m seen c.refs).2 []
        (linkSymbols m c.head c.links, (nodeSymbols m seen c.refs).2) :=
      .of_nodeNames_eq_nil (nodeNames_linkSymbols m c.head c.links)
    have hchain := (adds_nodeSymbols m seen c.refs).append hlinks
    rw [List.append_nil] at hchain
    rwa [Syntax.nodeRefs_chain, Syntax.nodeRefs_nil, List.append_nil]

/-- **Each name that a tree mentions has one entry.** -/
theorem adds_outlineItems (m : LineMap) (seen : List String) : ∀ (tree : List Syntax.Statement),
    Adds seen (nodeRefs tree) (outlineItems m seen tree)
  | [] => .of_nodeNames_eq_nil rfl
  | st :: tree => by
    rw [Syntax.nodeRefs_cons]
    exact (adds_statementSymbols m seen st).append (adds_outlineItems m _ tree)

end

/-! ## Edges -/

/-- A title has blanks, so it is not that of a free arrow. -/
theorem title_ne_arrow (e : Edge α) : e.title ≠ "arrow" := by
  intro h
  have hblank : ' ' ∈ e.title.toList := by simp [Edge.title]
  rw [h] at hblank
  exact absurd hblank (by decide)

theorem edges_nodeSymbols (m : LineMap) (seen : List String) (ns : List NodeRef) :
    OutlineItem.edges (nodeSymbols m seen ns).1 = [] := by
  rw [OutlineItem.edges, OutlineItem.flattenAll_of_children_eq_nil (children_nodeSymbols m seen ns)]
  refine List.filterMap_eq_nil_iff.mpr fun item hitem => ?_
  obtain ⟨n, -, detail, rfl⟩ := exists_of_mem_nodeSymbols item hitem
  rfl

variable [Scalar α]

theorem edges_linkSymbols (m : LineMap) (source : NodeRef) (ls : List Link) :
    OutlineItem.edges (linkSymbols m source ls) =
      (edgesOf source.id ls : List (Edge α)).map fun e => (e.title, e.label) := by
  rw [OutlineItem.edges, flattenAll_linkSymbols]
  induction ls generalizing source with
  | nil => rfl
  | cons l ls ih =>
    have htitle := title_ne_arrow (Edge.ofLink source.id l : Edge α)
    rw [linkSymbols, List.filterMap_cons, ih, edgesOf, List.map_cons, OutlineItem.edge?,
      if_pos ⟨rfl, htitle⟩]
    rfl

theorem chains_cons (st : Syntax.Statement) (tree : List Syntax.Statement) :
    chains (st :: tree) = chains [st] ++ chains tree := by
  simp [chains, Syntax.Statement.flattenAll]

mutual

theorem edges_statementSymbols (m : LineMap) (seen : List String) : ∀ (st : Syntax.Statement),
    OutlineItem.edges (statementSymbols m seen st).1 =
      (chains [st]).flatMap fun c =>
        (edgesOf c.head.id c.links : List (Edge α)).map fun e => (e.title, e.label)
  | .group keyword id style body close => by
    have hbody := edges_outlineItems m seen body
    have hchains : chains [.group keyword id style body close] = chains body := by
      simp only [chains, Syntax.Statement.flattenAll, Syntax.Statement.flatten, List.append_nil]
      rfl
    rw [hchains, ← hbody, statementSymbols]
    simp [OutlineItem.edges, OutlineItem.flattenAll, OutlineItem.flatten, OutlineItem.edge?,
      OutlineItem.info]
  | .layout keyword name => rfl
  | .freeArrow keyword ps => rfl
  | .chain c => by
    have hchains : chains [.chain c] = [c] := rfl
    rw [hchains, statementSymbols, OutlineItem.edges_append, edges_nodeSymbols,
      edges_linkSymbols (α := α), List.flatMap_singleton]
    rfl

/-- The entries of edges are those of the links of a tree, in order. -/
theorem edges_outlineItems (m : LineMap) (seen : List String) : ∀ (tree : List Syntax.Statement),
    OutlineItem.edges (outlineItems m seen tree).1 =
      (chains tree).flatMap fun c =>
        (edgesOf c.head.id c.links : List (Edge α)).map fun e => (e.title, e.label)
  | [] => rfl
  | st :: tree => by
    rw [chains_cons, List.flatMap_append, ← edges_statementSymbols m seen st,
      ← edges_outlineItems m (statementSymbols m seen st).2 tree, ← OutlineItem.edges_append]
    rfl

end

/-! ## Apart from nodes -/

section

omit [Scalar α]

mutual

theorem topicsAll_withoutNodes : ∀ (s : Statement α),
    Statement.topicsAll s.withoutNodes = Statement.topics s
  | .group id style children => by
    have hchildren := topicsAll_withoutNodesAll children
    simp [Statement.withoutNodes, Statement.topicsAll, Statement.topics, hchildren]
  | .node _ | .edge _ | .layout _ | .freeArrow _ => by
    simp [Statement.withoutNodes, Statement.topicsAll, Statement.topics]

/-- Nodes do not matter to how the other statements are listed. -/
theorem topicsAll_withoutNodesAll : ∀ (ss : List (Statement α)),
    Statement.topicsAll (Statement.withoutNodesAll ss) = Statement.topicsAll ss
  | [] => rfl
  | s :: ss => by
    rw [Statement.withoutNodesAll, Statement.topicsAll_append, topicsAll_withoutNodes s,
      topicsAll_withoutNodesAll ss, Statement.topicsAll]

end

end

theorem topicsAll_nodeSymbols (m : LineMap) (seen : List String) (ns : List NodeRef) :
    OutlineItem.topicsAll (nodeSymbols m seen ns).1 = [] := by
  rw [OutlineItem.topicsAll_eq_flatMap, List.flatMap_eq_nil_iff]
  intro item hitem
  obtain ⟨n, -, detail, rfl⟩ := exists_of_mem_nodeSymbols item hitem
  rfl

theorem topicsAll_linkSymbols (m : LineMap) (source : NodeRef) (ls : List Link) :
    OutlineItem.topicsAll (linkSymbols m source ls) =
      Statement.topicsAll ((edgesOf source.id ls : List (Edge α)).map .edge) := by
  induction ls generalizing source with
  | nil => rfl
  | cons l ls ih =>
    rw [linkSymbols, OutlineItem.topicsAll, ih, edgesOf, List.map_cons, Statement.topicsAll]
    rfl

mutual

theorem topicsAll_statementSymbols (m : LineMap) (seen : List String) : ∀ (st : Syntax.Statement),
    OutlineItem.topicsAll (statementSymbols m seen st).1 =
      Statement.topicsAll (Statement.ofPart st : List (Statement α))
  | .group keyword id style body close => by
    have hbody := topicsAll_outlineItems m seen body
    rw [statementSymbols, Statement.ofPart]
    simp [OutlineItem.topicsAll, OutlineItem.topics, Statement.topicsAll, Statement.topics, hbody]
  | .layout keyword name => rfl
  | .freeArrow keyword ps => rfl
  | .chain c => by
    rw [statementSymbols, OutlineItem.topicsAll_append, topicsAll_nodeSymbols, List.nil_append,
      topicsAll_linkSymbols (α := α), Statement.ofPart]

/-- **Apart from nodes, an outline says what the tree states**, group by group. -/
theorem topicsAll_outlineItems (m : LineMap) (seen : List String) :
    ∀ (tree : List Syntax.Statement), OutlineItem.topicsAll (outlineItems m seen tree).1 =
      Statement.topicsAll (Statement.ofParts tree : List (Statement α))
  | [] => rfl
  | st :: tree => by
    rw [Statement.ofParts, Statement.topicsAll_append, ← topicsAll_statementSymbols m seen st,
      ← topicsAll_outlineItems m (statementSymbols m seen st).2 tree,
      ← OutlineItem.topicsAll_append]
    rfl

end

/-! ## Completions -/

theorem mem_insertSorted {x y : String} {ys : List String} :
    y ∈ insertSorted x ys ↔ y = x ∨ y ∈ ys := by
  induction ys with
  | nil => simp [insertSorted]
  | cons z zs ih =>
    rw [insertSorted]
    split
    · simp
    · split
      · next hxz => simp [hxz]
      · rw [List.mem_cons, ih, List.mem_cons]
        exact or_left_comm

theorem pairwise_insertSorted {x : String} {ys : List String} (h : ys.Pairwise (· < ·)) :
    (insertSorted x ys).Pairwise (· < ·) := by
  induction ys with
  | nil => exact List.pairwise_singleton _ _
  | cons z zs ih =>
    obtain ⟨hz, hzs⟩ := List.pairwise_cons.mp h
    rw [insertSorted]
    split
    · next hxz =>
      refine List.pairwise_cons.mpr ⟨fun y hy => ?_, h⟩
      rcases List.mem_cons.mp hy with rfl | hy
      · exact hxz
      · exact String.lt_trans hxz (hz y hy)
    · next hxz =>
      split
      · exact h
      · next hne =>
        have hzx : z < x := ((Std.lt_trichotomy x z).resolve_left hxz).resolve_left hne
        refine List.pairwise_cons.mpr ⟨fun y hy => ?_, ih hzs⟩
        rcases mem_insertSorted.mp hy with rfl | hy
        · exact hzx
        · exact hz y hy

/-- The names that are completed are those that a tree mentions, sorted and each once. -/
theorem mentionedNodes_spec (tree : List Syntax.Statement) :
    (mentionedNodes tree).Pairwise (· < ·) ∧
      ∀ id, id ∈ mentionedNodes tree ↔ ∃ r ∈ nodeRefs tree, r.id = id := by
  rw [mentionedNodes]
  induction nodeRefs tree with
  | nil => simp
  | cons r rs ih =>
    rw [List.map_cons, List.foldr_cons]
    refine ⟨pairwise_insertSorted ih.1, fun id => ?_⟩
    rw [mem_insertSorted, ih.2, List.exists_mem_cons_iff, eq_comm]

/-- The names of the nodes that are offered. -/
def offeredNodes (items : List Item) : List String :=
  (items.filter fun item => item.kind = .node).map Item.label

/-- A statement is completed with the names of the nodes. -/
theorem offeredNodes_completions {text : String} {p : Place}
    (h : classify ((LineMap.ofText text).linePrefix p) = .statement) :
    offeredNodes (completions text p) = mentionedNodes (Syntax.parse text).1 := by
  have hkeywords : keywordItems.filter (fun item => item.kind = .node) = [] := by decide
  rw [completions, h, offeredNodes, List.filter_append, hkeywords, List.nil_append, nodeItems]
  simp [List.filter_map, Function.comp_def]

/-! ## Agreement with documents -/

/-- An outline that agrees with a document. -/
structure IsOutlineOf (d : Document α) (items : List OutlineItem) : Prop where
  /-- No node is listed twice. -/
  nodup : (OutlineItem.nodeNames items).Nodup
  /-- The nodes that are listed are those of the document. -/
  mem_nodeIds : ∀ id, id ∈ OutlineItem.nodeNames items ↔ id ∈ d.nodeIds
  /-- The edges are listed in order, each with its ends, its operator and its label. -/
  edges_eq : OutlineItem.edges items = d.edges.map fun e => (e.title, e.label)
  /-- Groups, and what is in them apart from nodes, are listed as they are nested. -/
  topics_eq : OutlineItem.topicsAll items = Statement.topicsAll d.statements

/-- Completions that offer the nodes of a document, sorted and each once. -/
structure OffersNodesOf (d : Document α) (items : List Item) : Prop where
  sorted : (offeredNodes items).Pairwise (· < ·)
  mem_nodeIds : ∀ id, id ∈ offeredNodes items ↔ id ∈ d.nodeIds

/-- **The outline of a text without errors agrees with its document**, and wherever a statement is
completed, the nodes of the document are offered. -/
theorem isOutlineOf_outline {text : String}
    (h : (Document.ofText text : Document α).errors = []) :
    IsOutlineOf (Document.ofText text : Document α) (outline text) ∧
      ∀ p, classify ((LineMap.ofText text).linePrefix p) = .statement →
        OffersNodesOf (Document.ofText text : Document α) (completions text p) := by
  have hstatements := (ofText_of_ok h).2
  have hids : ∀ id, id ∈ (Document.ofText text : Document α).nodeIds ↔
      ∃ r ∈ nodeRefs (Syntax.parse text).1, r.id = id := by
    intro id
    rw [Document.nodeIds_eq, hstatements, mem_nodeIds_statementsOf]
  constructor
  · -- the items are related to the statements they stand for, one observation at a time
    have hadds := adds_outlineItems (LineMap.ofText text) [] (Syntax.parse text).1
    have hnames := hadds.names_eq
    rw [List.nil_append] at hnames
    refine ⟨?_, fun id => ?_, ?_, ?_⟩
    · rw [outline, ← hnames]
      exact hadds.nodup List.nodup_nil
    · rw [outline, ← hnames, hadds.mem_iff, hids]
      simp
    · rw [outline, edges_outlineItems (α := α), Document.edges, Document.flatten, hstatements,
        edges_statementsOf, List.map_flatMap]
    · rw [outline, topicsAll_outlineItems (α := α), ← withoutNodesAll_statementsOf,
        topicsAll_withoutNodesAll, hstatements]
  · intro p hp
    obtain ⟨hsorted, hmem⟩ := mentionedNodes_spec (Syntax.parse text).1
    rw [← offeredNodes_completions hp] at hsorted hmem
    exact ⟨hsorted, fun id => (hmem id).trans (hids id).symm⟩

/-- Nodes in other places in the two, a chain in a group, and a completion in that group. -/
theorem isOutlineOf_outline_group :
    let text := "b -> c: \"x\"\ngroup g \x7b\n  group h \x7b a -> b -- c \x7d\n  d\n\x7d\na"
    let d : Document Float := Document.ofText text
    d.errors = [] ∧ OutlineItem.nodeNames (outline text) = ["b", "c", "a", "d"] ∧
      d.nodeIds = ["c", "b", "d", "a"] ∧
      OutlineItem.edges (outline text) =
        [("b -> c", some "x"), ("a -> b", none), ("b -- c", none)] ∧
      offeredNodes (completions text ⟨3, 2⟩) = ["a", "b", "c", "d"] ∧
      IsOutlineOf d (outline text) ∧ OffersNodesOf d (completions text ⟨3, 2⟩) := by
  intro text d
  have herrors : d.errors = [] := by decide +kernel
  have hcontext : classify ((LineMap.ofText text).linePrefix ⟨3, 2⟩) = .statement := by
    decide +kernel
  obtain ⟨houtline, hoffers⟩ := isOutlineOf_outline herrors
  exact ⟨herrors, by decide +kernel, by decide +kernel, by decide +kernel, by decide +kernel,
    houtline, hoffers _ hcontext⟩

end Editor

end Diagram
