import Diagram.Proofs.Ignored
import Diagram.Proofs.SourceOrder

/-!
# Findings and what they are about

The rules look at the tree and know nothing of documents, yet what they say is true of the document
of the same tree.  A property that they call ignored changes no style, and a layout that they call
unknown changes no options; an edge that they call a loop is an edge of the document with equal
ends; and the shapes of a name conflict when two of them differ, however many references lie
between.  Nothing of this kind is missed, and nothing is reported twice.

The findings are put in order by where their spans begin.  Since no two findings of one rule begin
at the same place, this is the order of the parts of the tree that they are about.

## Main definitions

* `Lint.byRule` — what is to be found in a tree, conflicts apart.
* `Lint.IsFaithful` — findings that are those about a document.

## Main statements

* `Lint.filter_ofTree` — the findings of a rule, in source order.
* `Lint.mem_conflicts_ofTree` — a conflict is found when two explicit shapes of a name differ.
* `Lint.isFaithful_ofText` — the findings about a text without errors are those about its document.
-/

namespace Diagram

open Syntax

variable {α : Type} [Scalar α]

/-! ## Findings about one part of a tree -/

namespace Lint

/-- What is found about a property that is ignored. -/
def aboutProperty (p : Property) : Diagnosis :=
  match StyleKey.ofName? p.key.value with
  | none => ⟨.unknownProperty p.key.value, p.key.span⟩
  | some key => ⟨.invalidValue p.key.value key.isNumeric p.value.value.kindName, p.value.span⟩

/-- Whether a link leads back to the reference in front of it. -/
def IsLoop (s : NodeRef × Link) : Prop := s.1.id = s.2.target.id

instance : DecidablePred IsLoop := fun s => inferInstanceAs (Decidable (s.1.id = s.2.target.id))

/-- What is found about a link that leads back to the reference in front of it. -/
def aboutStep (s : NodeRef × Link) : Diagnosis :=
  ⟨.selfLoop s.1.id, s.1.name.span.merge s.2.target.name.span⟩

/-- What is found about a layout name that is ignored. -/
def aboutLayout (name : Located String) : Diagnosis := ⟨.unknownLayout name.value, name.span⟩

/-- The finding about a property of the tree, by what a document makes of the property. -/
theorem property?_eq (p : Property) :
    property? p = if Style.Ignores α p then some (aboutProperty p) else none := by
  rw [property?, StyleKey.isNumeric?_eq, aboutProperty]
  simp only [Style.ignores_iff]
  cases hkey : StyleKey.ofName? p.key.value with
  | none => simp
  | some key => cases hvalue : p.value.value <;> cases key <;> simp

theorem properties_eq (ps : List Property) :
    Lint.properties ps = (ps.filter (Style.Ignores α ·)).map aboutProperty := by
  rw [Lint.properties]
  induction ps with
  | nil => rfl
  | cons p ps ih =>
    rw [List.filterMap_cons, property?_eq (α := α), List.filter_cons, ih]
    by_cases hp : Style.Ignores α p <;> simp [hp]

theorem propertyList_eq (ps : Option PropertyList) :
    propertyList ps = Lint.properties (ps.elim [] PropertyList.items) := by
  cases ps <;> rfl

@[simp] theorem properties_append (ps qs : List Property) :
    Lint.properties (ps ++ qs) = Lint.properties ps ++ Lint.properties qs := List.filterMap_append

theorem links_eq_flatMap (source : NodeRef) (ls : List Link) :
    links source ls = (stepsFrom source ls).flatMap fun s =>
      (if IsLoop s then [aboutStep s] else []) ++ propertyList s.2.anchor := by
  induction ls generalizing source with
  | nil => rfl
  | cons l ls ih =>
    rw [links, stepsFrom, List.flatMap_cons, ih]
    by_cases hloop : IsLoop (source, l)
    · rw [if_pos hloop, if_pos hloop.symm]
      rfl
    · rw [if_neg hloop, if_neg fun hid => hloop hid.symm]

theorem flatMap_anchors (source : NodeRef) (ls : List Link) :
    ((stepsFrom source ls).flatMap fun s => propertyList s.2.anchor) =
      Lint.properties (ls.flatMap fun l => l.anchor.elim [] PropertyList.items) := by
  induction ls generalizing source with
  | nil => rfl
  | cons l ls ih =>
    rw [stepsFrom, List.flatMap_cons, List.flatMap_cons, properties_append, ih l.target,
      propertyList_eq]

/-- What is found about the links of a chain: loops, and properties of their edges. -/
theorem links_perm (source : NodeRef) (ls : List Link) :
    (links source ls).Perm (((stepsFrom source ls).filter IsLoop).map aboutStep ++
      Lint.properties (ls.flatMap fun l => l.anchor.elim [] PropertyList.items)) := by
  have hloops : ((stepsFrom source ls).filter IsLoop).map aboutStep =
      (stepsFrom source ls).flatMap fun s => if IsLoop s then [aboutStep s] else [] := by
    induction stepsFrom source ls with
    | nil => rfl
    | cons s ss ih => by_cases hs : IsLoop s <;> simp [hs, ih]
  rw [links_eq_flatMap, hloops, ← flatMap_anchors source]
  exact (List.flatMap_append_perm _ _ _).symm

/-- What is found about one statement, conflicts apart. -/
def own (α : Type) [Scalar α] (st : Syntax.Statement) : List Diagnosis :=
  (st.properties.filter (Style.Ignores α ·)).map aboutProperty ++
    ((st.steps.filter IsLoop).map aboutStep ++
      (st.layouts.filter (Options.Ignores α ·.value)).map aboutLayout)

/-- What is found about a chain: the properties of its references and edges, and loops. -/
theorem own_chain (c : Chain) : own α (.chain c) =
    Lint.properties (Syntax.Statement.chain c).properties ++
      ((stepsFrom c.head c.links).filter IsLoop).map aboutStep := by
  rw [own, properties_eq (α := α)]
  simp [Statement.steps, Statement.layouts]

-- Only conflicts depend on the shapes that are remembered, so they are kept out by a filter.
section

variable {q : Diagnosis → Bool}
  (hq : ∀ id first shape span, q ⟨.conflictingShape id first shape, span⟩ = false)

include hq

theorem filter_nodeRef (shapes : Shapes) (n : NodeRef) :
    (nodeRef shapes n).1.filter q = (Lint.properties n.properties).filter q := by
  rw [nodeRef, NodeRef.properties]
  cases n.shape with
  | none => rfl
  | some spec =>
    dsimp only
    split
    · rfl
    · split <;> simp [hq]

theorem filter_nodeRefs (shapes : Shapes) (ns : List NodeRef) :
    (nodeRefs shapes ns).1.filter q =
      (Lint.properties (ns.flatMap NodeRef.properties)).filter q := by
  induction ns generalizing shapes with
  | nil => rfl
  | cons n ns ih =>
    rw [nodeRefs, List.filter_append, filter_nodeRef hq, ih, List.flatMap_cons, properties_append,
      List.filter_append]

/-- What is found about a statement, conflicts apart, whatever shapes are remembered. -/
theorem filter_statement (shapes : Shapes) (st : Syntax.Statement) :
    ((statement shapes st).1.filter q).Perm ((own α st).filter q) := by
  cases st with
  | group keyword id style body close =>
    simp [statement, own, propertyList_eq, properties_eq (α := α), Statement.properties,
      Statement.steps, Statement.layouts]
  | layout keyword name =>
    by_cases hname : Options.Ignores α name.value
    · have hnone := Options.ignores_iff.mp hname
      simp [statement, own, Statement.properties, Statement.steps, Statement.layouts, hname, hnone,
        aboutLayout]
    · have hsome := mt Options.ignores_iff.mpr hname
      simp [statement, own, Statement.properties, Statement.steps, Statement.layouts, hname, hsome]
  | freeArrow keyword ps =>
    simp [statement, own, properties_eq (α := α), Statement.properties, Statement.steps,
      Statement.layouts]
  | chain c =>
    let nodes := Lint.properties (c.refs.flatMap NodeRef.properties)
    let anchors := Lint.properties c.anchorProperties
    let loops := ((stepsFrom c.head c.links).filter IsLoop).map aboutStep
    -- In the tree references and edges take turns; all references are looked at first.
    have hproperties : (nodes ++ anchors).Perm
        (Lint.properties (Syntax.Statement.chain c).properties) := by
      rw [← properties_append]
      exact (properties_chain_perm c).filterMap _
    have hlinks : (links c.head c.links).Perm (anchors ++ loops) :=
      (links_perm c.head c.links).trans List.perm_append_comm
    calc (statement shapes (.chain c)).1.filter q
        = (nodes ++ links c.head c.links).filter q := by
          rw [statement, List.filter_append, filter_nodeRefs hq, List.filter_append]
      List.Perm _ ((nodes ++ (anchors ++ loops)).filter q) := (hlinks.append_left _).filter q
      _ = (nodes ++ anchors ++ loops).filter q := by rw [List.append_assoc]
      List.Perm _ ((own α (.chain c)).filter q) := by
          rw [own_chain]
          exact (hproperties.append_right _).filter q

theorem filter_statements (shapes : Shapes) (sts : List Syntax.Statement) :
    ((statements shapes sts).filter q).Perm ((sts.flatMap (own α)).filter q) := by
  induction sts generalizing shapes with
  | nil => exact .refl _
  | cons st sts ih =>
    rw [statements, List.flatMap_cons, List.filter_append, List.filter_append]
    exact (filter_statement hq shapes st).append (ih _)

end

/-! ## In source order -/

/-- What is found about a tree, conflicts apart, rule by rule. -/
def byRule (α : Type) [Scalar α] (tree : List Syntax.Statement) : List Diagnosis :=
  ((styleProperties tree).filter (Style.Ignores α ·)).map aboutProperty ++
    (((steps tree).filter IsLoop).map aboutStep ++
      ((layouts tree).filter (Options.Ignores α ·.value)).map aboutLayout)

theorem flatMap_own_perm (tree : List Syntax.Statement) :
    ((Syntax.Statement.flattenAll tree).flatMap (own α)).Perm (byRule α tree) := by
  have hproperties := List.flatMap_append_perm (Syntax.Statement.flattenAll tree)
    (fun st => (st.properties.filter (Style.Ignores α ·)).map aboutProperty) fun st =>
      (st.steps.filter IsLoop).map aboutStep ++
        (st.layouts.filter (Options.Ignores α ·.value)).map aboutLayout
  have hsteps := List.flatMap_append_perm (Syntax.Statement.flattenAll tree)
    (fun st => (st.steps.filter IsLoop).map aboutStep) fun st =>
      (st.layouts.filter (Options.Ignores α ·.value)).map aboutLayout
  rw [byRule, styleProperties, steps, layouts, List.filter_flatMap, List.filter_flatMap,
    List.filter_flatMap, List.map_flatMap, List.map_flatMap, List.map_flatMap]
  exact hproperties.symm.trans (hsteps.symm.append_left _)

/-- What is found about a tree is what is to be found, up to the order. -/
theorem filter_found_perm {q : Diagnosis → Bool}
    (hq : ∀ id first shape span, q ⟨.conflictingShape id first shape, span⟩ = false)
    (tree : List Syntax.Statement) :
    ((ofTree tree).filter q).Perm ((byRule α tree).filter q) :=
  ((List.mergeSort_perm _ _).filter q).trans
    ((filter_statements hq [] _).trans ((flatMap_own_perm tree).filter q))

/-- Findings are sorted by where they begin. -/
theorem pairwise_ofTree (tree : List Syntax.Statement) :
    (ofTree tree).Pairwise fun x y => x.span.start ≤ y.span.start := by
  refine (List.pairwise_mergeSort ?_ ?_ _).imp fun h => by simpa using h
  · simp only [decide_eq_true_eq]
    exact fun _ _ _ => Nat.le_trans
  · simp only [Bool.or_eq_true, decide_eq_true_eq]
    exact fun x y => Nat.le_total x.span.start y.span.start

/-- **The findings of a rule, in source order**, when no two of them begin at the same place. -/
theorem filter_ofTree {q : Diagnosis → Bool} {tree : List Syntax.Statement} {xs : List Diagnosis}
    (hperm : ((ofTree tree).filter q).Perm xs)
    (hxs : xs.Pairwise fun x y => x.span.start < y.span.start) : (ofTree tree).filter q = xs := by
  refine List.Perm.eq_of_pairwise (fun x y hx hy hxy hyx => ?_) ((pairwise_ofTree tree).filter q)
    (hxs.imp Nat.le_of_lt) hperm
  have hsame : xs.Pairwise fun x y => x.span.start = y.span.start → x = y :=
    hxs.imp fun hlt heq => absurd heq hlt.ne
  have hsymm : Std.Symm fun x y : Diagnosis => x.span.start = y.span.start → x = y :=
    ⟨fun _ _ h heq => (h heq.symm).symm⟩
  exact hsame.forall_of_forall (fun _ _ _ => rfl) (hperm.subset hx) hy (hxy.antisymm hyx)

/-- Findings begin one behind the other when the leaves do that they begin at. -/
theorem pairwise_about {β : Type} {text : List Char} {leaves : List Span} {items : List β}
    {first : β → Span} {about : β → Diagnosis} (h : InOrder text leaves)
    (hsub : (items.map first).Sublist leaves)
    (hfirst : ∀ x ∈ items, (about x).span.start = (first x).start) (keep : β → Bool) :
    ((items.filter keep).map about).Pairwise fun x y => x.span.start < y.span.start := by
  have hitems := (h.sublist hsub).pairwise_start
  rw [List.pairwise_map] at hitems
  refine List.pairwise_map.mpr ((hitems.imp_of_mem fun {x y} hx hy hxy => ?_).filter keep)
  rwa [hfirst x hx, hfirst y hy]

/-! ## Rule by rule -/

/-- Whether a finding is under one of some rules. -/
def Diagnosis.isUnder (rules : List String) (x : Diagnosis) : Bool := rules.contains x.finding.rule

@[simp] theorem isUnder_conflict (rules : List String) (id : String) (first shape : NodeShape)
    (span : Span) : Diagnosis.isUnder rules ⟨.conflictingShape id first shape, span⟩ =
      rules.contains "conflicting-shape" := rfl

@[simp] theorem isUnder_aboutStep (rules : List String) (s : NodeRef × Link) :
    (aboutStep s).isUnder rules = rules.contains "self-loop" := rfl

@[simp] theorem isUnder_aboutLayout (rules : List String) (name : Located String) :
    (aboutLayout name).isUnder rules = rules.contains "unknown-layout" := rfl

theorem isUnder_aboutProperty {rules : List String} {b : Bool}
    (hunknown : rules.contains "unknown-style-prop" = b)
    (hinvalid : rules.contains "invalid-style-value" = b) (p : Property) :
    (aboutProperty p).isUnder rules = b := by
  rw [aboutProperty]
  split
  · exact hunknown
  · exact hinvalid

/-- A finding about a property begins at its key or at its value. -/
theorem first_aboutProperty (st : Syntax.Statement) :
    (st.properties.map fun p => (aboutProperty p).span).Sublist st.ownLeaves := by
  rw [List.map_eq_flatMap]
  refine .trans (List.Sublist.flatMap_right _ fun p _ => ?_) (leaves_properties st)
  refine List.singleton_sublist.mpr ?_
  rw [aboutProperty]
  split <;> simp [Property.leaves]

section

variable {text : List Char} {tree : List Syntax.Statement} (h : InOrder text (leavesAll tree))

include h

/-- The findings about properties are those about the properties that are ignored. -/
theorem ignored_ofTree :
    (ofTree tree).filter (·.isUnder ["unknown-style-prop", "invalid-style-value"]) =
      ((styleProperties tree).filter (Style.Ignores α ·)).map aboutProperty := by
  refine filter_ofTree ((filter_found_perm (α := α) (by simp) tree).trans (.of_eq ?_)) ?_
  · have hall : ∀ p, (aboutProperty p).isUnder ["unknown-style-prop", "invalid-style-value"] :=
      isUnder_aboutProperty (by decide) (by decide)
    simp [byRule, List.filter_map, Function.comp_def, hall]
  · have hleaves : ((styleProperties tree).map fun p => (aboutProperty p).span).Sublist
        (leavesAll tree) := by
      rw [styleProperties, List.map_flatMap]
      exact sublist_leavesAll first_aboutProperty tree
    exact pairwise_about h hleaves (fun _ _ => rfl) _

/-- The findings about loops are those about the links that lead back. -/
theorem loops_ofTree :
    (ofTree tree).filter (·.isUnder ["self-loop"]) =
      ((steps tree).filter IsLoop).map aboutStep := by
  -- Any scalar will do: loops have nothing to do with numbers.
  refine filter_ofTree ((filter_found_perm (α := Float) (by simp) tree).trans (.of_eq ?_)) ?_
  · have hnone : ∀ p, (aboutProperty p).isUnder ["self-loop"] = false :=
      isUnder_aboutProperty (by decide) (by decide)
    simp [byRule, List.filter_map, Function.comp_def, hnone]
  · have hheads : ((steps tree).map fun s => s.1.name.head.span).Sublist (leavesAll tree) := by
      rw [steps, List.map_flatMap]
      exact sublist_leavesAll heads_steps tree
    refine pairwise_about h hheads (fun s hs => ?_) _
    exact start_merge_names (h.sublist (names_steps hs))

/-- The findings about layouts are those about the names that are ignored. -/
theorem layouts_ofTree :
    (ofTree tree).filter (·.isUnder ["unknown-layout"]) =
      ((layouts tree).filter (Options.Ignores α ·.value)).map aboutLayout := by
  refine filter_ofTree ((filter_found_perm (α := α) (by simp) tree).trans (.of_eq ?_)) ?_
  · have hnone : ∀ p, (aboutProperty p).isUnder ["unknown-layout"] = false :=
      isUnder_aboutProperty (by decide) (by decide)
    simp [byRule, List.filter_map, Function.comp_def, hnone]
  · have hnames : ((layouts tree).map Located.span).Sublist (leavesAll tree) := by
      rw [layouts, List.map_flatMap]
      exact sublist_leavesAll leaves_layouts tree
    exact pairwise_about h hnames (fun _ _ => rfl) _

end

/-! ## Conflicts -/

/-- The name that a finding reports two shapes for. -/
def Finding.conflict? : Finding → Option String
  | conflictingShape id _ _ => some id
  | _ => none

/-- The names that two shapes are reported for. -/
def conflicts (found : List Diagnosis) : List String := found.filterMap fun x => x.finding.conflict?

/-- Two of some shapes are different. -/
def Differ (shapes : List NodeShape) : Prop := ∃ s ∈ shapes, ∃ t ∈ shapes, s ≠ t

@[simp] theorem conflicts_nil : conflicts [] = [] := rfl

@[simp] theorem conflicts_conflict (id : String) (first shape : NodeShape) (span : Span) :
    conflicts [⟨.conflictingShape id first shape, span⟩] = [id] := rfl

@[simp] theorem conflicts_append (xs ys : List Diagnosis) :
    conflicts (xs ++ ys) = conflicts xs ++ conflicts ys := List.filterMap_append

@[simp] theorem conflicts_properties (ps : List Property) :
    conflicts (Lint.properties ps) = [] := by
  rw [properties_eq (α := Float), conflicts, List.filterMap_map, List.filterMap_eq_nil_iff]
  intro p _
  rw [Function.comp_apply, aboutProperty]
  split <;> rfl

@[simp] theorem conflicts_propertyList (ps : Option PropertyList) :
    conflicts (propertyList ps) = [] := by
  rw [propertyList_eq, conflicts_properties]

@[simp] theorem conflicts_links (source : NodeRef) (ls : List Link) :
    conflicts (links source ls) = [] := by
  induction ls generalizing source with
  | nil => rfl
  | cons l ls ih =>
    rw [links, conflicts_append, conflicts_append, ih, conflicts_propertyList]
    split <;> rfl

/-- One reference is reported if its shape differs from the first one, which is remembered. -/
theorem mem_conflicts_nodeRef (shapes : Shapes) (n : NodeRef) (id : String)
    (later : List NodeShape) :
    id ∈ conflicts (nodeRef shapes n).1 ∨
        Differ (((nodeRef shapes n).2.lookup id).toList ++ later) ↔
      Differ ((shapes.lookup id).toList ++ ((n.shapeOf? id).toList ++ later)) := by
  rw [nodeRef, NodeRef.shapeOf?]
  cases hshape : n.shape with
  | none => simp
  | some spec =>
    by_cases hid : n.id = id
    · subst hid
      cases hfirst : shapes.lookup n.id with
      | none => simp [List.lookup_append, hfirst]
      | some first =>
        by_cases hsame : first = spec.shape
        · simp [hsame, hfirst, Differ]
        · have hdiffer : Differ (first :: spec.shape :: later) :=
            ⟨first, by simp, spec.shape, by simp, hsame⟩
          simp [hsame, hdiffer]
    · have hkey : (id == n.id) = false := beq_eq_false_iff_ne.mpr (Ne.symm hid)
      cases hfirst : shapes.lookup n.id with
      | none => simp [List.lookup_append, List.lookup_cons, hid, hkey]
      | some first =>
        by_cases hsame : first = spec.shape <;> simp [hsame, hid, Ne.symm hid]

/-- **A conflict is reported for a name when two of its explicit shapes differ**, the one that is
remembered among them. -/
theorem mem_conflicts_nodeRefs (shapes : Shapes) (ns : List NodeRef) (id : String) :
    id ∈ conflicts (nodeRefs shapes ns).1 ↔
      Differ ((shapes.lookup id).toList ++ ns.filterMap (·.shapeOf? id)) := by
  induction ns generalizing shapes with
  | nil => cases shapes.lookup id <;> simp [nodeRefs, Differ]
  | cons n ns ih =>
    rw [nodeRefs, conflicts_append, List.mem_append, ih, mem_conflicts_nodeRef]
    cases h : n.shapeOf? id <;> simp [h]

theorem nodeRefs_cons (shapes : Shapes) (n : NodeRef) (ns : List NodeRef) :
    Lint.nodeRefs shapes (n :: ns) =
      ((nodeRef shapes n).1 ++ (Lint.nodeRefs (nodeRef shapes n).2 ns).1,
        (Lint.nodeRefs (nodeRef shapes n).2 ns).2) := rfl

theorem nodeRefs_append (shapes : Shapes) (ms ns : List NodeRef) :
    Lint.nodeRefs shapes (ms ++ ns) =
      ((Lint.nodeRefs shapes ms).1 ++ (Lint.nodeRefs (Lint.nodeRefs shapes ms).2 ns).1,
        (Lint.nodeRefs (Lint.nodeRefs shapes ms).2 ns).2) := by
  induction ms generalizing shapes with
  | nil => rfl
  | cons m ms ih => rw [List.cons_append, nodeRefs_cons, nodeRefs_cons, ih, List.append_assoc]

/-- Conflicts are found by reading the references of a tree in order. -/
theorem conflicts_statements (shapes : Shapes) (sts : List Syntax.Statement) :
    conflicts (statements shapes sts) =
      conflicts (Lint.nodeRefs shapes ((sts.filterMap Statement.chain?).flatMap Chain.refs)).1 := by
  induction sts generalizing shapes with
  | nil => rfl
  | cons st sts ih =>
    rw [statements, conflicts_append, ih, List.filterMap_cons]
    cases st with
    | group keyword id style body close => simp [statement, Statement.chain?]
    | layout keyword name =>
      rw [statement]
      dsimp only
      split <;> simp [Statement.chain?, conflicts, Finding.conflict?]
    | freeArrow keyword ps => simp [statement, Statement.chain?]
    | chain c => simp [statement, Statement.chain?, nodeRefs_append]

/-- **A conflict is found for a name when two of its explicit shapes differ**, wherever in the tree
they are given. -/
theorem mem_conflicts_ofTree (tree : List Syntax.Statement) (id : String) :
    id ∈ conflicts (ofTree tree) ↔ Differ ((Syntax.nodeRefs tree).filterMap (·.shapeOf? id)) := by
  have hmem : id ∈ conflicts (ofTree tree) ↔
      id ∈ conflicts (statements [] (Syntax.Statement.flattenAll tree)) :=
    ((List.mergeSort_perm _ _).filterMap _).mem_iff
  rw [hmem, conflicts_statements]
  exact mem_conflicts_nodeRefs [] _ id

/-! ## Findings and documents -/

/-- Findings about a tree that are true of a document, and miss nothing. -/
structure IsFaithful (tree : List Syntax.Statement) (d : Document α) (found : List Diagnosis) :
    Prop where
  /-- A property is reported when it changes no style. -/
  properties : found.filter (·.isUnder ["unknown-style-prop", "invalid-style-value"]) =
    ((styleProperties tree).filter (Style.Ignores α ·)).map aboutProperty
  /-- An edge is reported when its ends are equal. -/
  loops : (found.filter (·.isUnder ["self-loop"])).map Diagnosis.finding =
    (d.edges.filter fun e => e.source = e.target).map fun e => .selfLoop e.source
  /-- A layout directive is reported when its name changes no options. -/
  layouts : found.filter (·.isUnder ["unknown-layout"]) =
    ((Syntax.layouts tree).filter (Options.Ignores α ·.value)).map aboutLayout
  /-- The document has the layout directives of the tree. -/
  directives : d.flatten.filterMap Statement.layout? = (Syntax.layouts tree).map Located.value
  /-- A name is reported when two of its explicit shapes differ. -/
  conflicts : ∀ id, id ∈ Lint.conflicts found ↔
    Differ ((Syntax.nodeRefs tree).filterMap (·.shapeOf? id))

/-- **The findings about a text without errors are those about its document**: none is false, none
is missing and none is made twice. -/
theorem isFaithful_ofText {text : String}
    (h : (Document.ofText text : Document α).errors = []) :
    IsFaithful (parse text).1 (Document.ofText text : Document α) (Lint.ofText text) := by
  have horder : InOrder text.toList (leavesAll (parse text).1) := inOrder_leavesAll text
  have hstatements := (ofText_of_ok h).2
  have hedges : (Document.ofText text : Document α).edges =
      (steps (parse text).1).map fun s => Edge.ofLink s.1.id s.2 := by
    rw [Document.edges, Document.flatten, hstatements, edges_eq_map_steps]
  refine ⟨ignored_ofTree horder, ?_, layouts_ofTree horder, ?_, mem_conflicts_ofTree _⟩
  · rw [Lint.ofText, loops_ofTree horder, hedges, List.map_map, List.filter_map, List.map_map]
    rfl
  · rw [Document.flatten, hstatements, layouts_statementsOf]

/-- Findings of every rule: in a group, on a chain, in an anchor and on a free arrow. -/
theorem isFaithful_ofText_group :
    let text :=
      "@layout: odd\ngroup g(fill: 3) \x7b a(box, z: 5) -> a(oval) (x1: no) \x7d\narrow(z: 1)"
    let d : Document Float := Document.ofText text
    d.errors = [] ∧
      (statements [] (Syntax.Statement.flattenAll (parse text).1)).map (fun x => x.finding.rule) =
        ["unknown-layout", "invalid-style-value", "unknown-style-prop", "conflicting-shape",
          "self-loop", "invalid-style-value", "unknown-style-prop"] ∧
      IsFaithful (parse text).1 d (Lint.ofText text) := by
  intro text d
  have herrors : d.errors = [] := by decide +kernel
  exact ⟨herrors, by decide +kernel, isFaithful_ofText herrors⟩

end Lint

end Diagram
