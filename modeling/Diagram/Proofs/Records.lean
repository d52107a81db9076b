import Diagram.Proofs.Rereading

/-!
# What a tree says about its nodes

The walk over a tree changes its records as it goes and fills them in at the end.  What
comes out can be said without a walk: under a label, a shape or a key stands the last value
that any reference to the node supplies, wherever it stands in the tree, and a node is
stated where its name stands alone for the first time.
-/

namespace Diagram

open Syntax

variable {α : Type} [Scalar α]

/-! ## The last value under a key -/

/-- The number that a property sets under a key, if it sets one there. -/
def Syntax.Property.number? (k : NumberKey) (p : Property) : Option α :=
  match p.value.value with
  | .number n => if StyleKey.ofName? p.key.value = some (.number k) then some n.scalar else none
  | .color _ | .name _ => none

/-- The text that a property sets under a key, if it sets one there. -/
def Syntax.Property.text? (k : TextKey) (p : Property) : Option String :=
  match p.value.value with
  | .number _ => none
  | .color t | .name t => if StyleKey.ofName? p.key.value = some (.text k) then some t else none

/-- The style with given values under its keys. -/
def Style.ofKeys (number : NumberKey → Option α) (text : TextKey → Option String) : Style α where
  fill := text .fill
  stroke := text .stroke
  strokeWidth := number .strokeWidth
  x := number .x
  y := number .y
  width := number .width
  height := number .height
  x1 := number .x1
  y1 := number .y1
  x2 := number .x2
  y2 := number .y2

/-- Under each key the last value that some properties set there. -/
def Style.ofLast (ps : List Property) : Style α :=
  .ofKeys (fun k => (ps.filterMap (Property.number? k)).getLast?)
    (fun k => (ps.filterMap (Property.text? k)).getLast?)

section Keys

omit [Scalar α]

@[simp] theorem number_ofKeys (number : NumberKey → Option α) (text : TextKey → Option String)
    (k : NumberKey) : (Style.ofKeys number text).number k = number k := by
  cases k <;> rfl

@[simp] theorem text_ofKeys (number : NumberKey → Option α) (text : TextKey → Option String)
    (k : TextKey) : (Style.ofKeys number text).text k = text k := by
  cases k <;> rfl

end Keys

theorem number_add (s : Style α) (p : Property) (k : NumberKey) :
    (s.add p).number k = (p.number? k).or (s.number k) := by
  rw [Style.add, Property.number?]
  cases p.value.value with
  | number n =>
    simp only [Style.setNumber?]
    cases hkey : StyleKey.ofName? p.key.value with
    | none => simp
    | some key =>
      cases key with
      | text j => simp
      | number j => by_cases hjk : j = k <;> simp [hjk]
  | color t | name t =>
    simp only [Style.setText?]
    split <;> simp

theorem text_add (s : Style α) (p : Property) (k : TextKey) :
    (s.add p).text k = (p.text? k).or (s.text k) := by
  rw [Style.add, Property.text?]
  cases p.value.value with
  | number n =>
    simp only [Style.setNumber?]
    split <;> simp
  | color t | name t =>
    simp only [Style.setText?]
    cases hkey : StyleKey.ofName? p.key.value with
    | none => simp
    | some key =>
      cases key with
      | number j => simp
      | text j => by_cases hjk : j = k <;> simp [hjk]

/-- The style that properties set has the last of their values under each key. -/
theorem ofProperties_eq_ofLast (ps : List Property) :
    (Style.ofProperties ps : Style α) = .ofLast ps := by
  induction ps using List.reverseRecOn with
  | nil => rfl
  | append_singleton ps p ih =>
    have hadd : (Style.ofProperties (ps ++ [p]) : Style α) = (Style.ofLast ps).add p := by
      rw [← ih, Style.ofProperties, List.foldl_append]
      rfl
    rw [hadd]
    refine Style.ext_keys (fun k => ?_) (fun k => ?_)
    · rw [number_add]
      cases hp : (p.number? k : Option α) <;> simp [Style.ofLast, hp]
    · rw [text_add]
      cases hp : p.text? k <;> simp [Style.ofLast, hp]

theorem ofLast_append (ps qs : List Property) :
    (Style.ofLast (ps ++ qs) : Style α) = (Style.ofLast ps).merge (Style.ofLast qs) := by
  refine Style.ext_keys (fun k => ?_) (fun k => ?_)
  · simp [Style.ofLast, List.getLast?_append]
  · simp [Style.ofLast, List.getLast?_append]

/-! ## The last values that references supply -/

/-- The properties that stand in a reference. -/
def Syntax.NodeRef.properties (r : NodeRef) : List Property :=
  r.shape.elim [] ShapeSpec.properties

/-- What some references say of a name: the last label and the last shape that one of them
supplies, and under each key of the style the last value. -/
def Node.ofLast (refs : List NodeRef) (id : String) : Node α :=
  let said := refs.filter (fun r => r.id = id)
  { id
    label := (said.filterMap (fun r => r.label.map Located.value)).getLast?
    shape := (said.filterMap (fun r => r.shape.map ShapeSpec.shape)).getLast?
    style := .ofLast (said.flatMap NodeRef.properties) }

theorem ofLast_snoc_ne {x : NodeRef} {id : String} (h : x.id ≠ id) (refs : List NodeRef) :
    (Node.ofLast (refs ++ [x]) id : Node α) = Node.ofLast refs id := by
  simp [Node.ofLast, h]

theorem style_ofRef (x : NodeRef) : (Node.ofRef x : Node α).style = .ofLast x.properties := by
  rw [Node.ofRef, NodeRef.properties]
  cases x.shape with
  | none => rfl
  | some s => exact ofProperties_eq_ofLast s.properties

/-- One more reference is laid over what was said before. -/
theorem ofLast_snoc (refs : List NodeRef) (x : NodeRef) :
    (Node.ofLast (refs ++ [x]) x.id : Node α) = (Node.ofLast refs x.id).merge (Node.ofRef x) := by
  have hstyle := style_ofRef (α := α) x
  simp only [Node.ofLast, Node.merge, hstyle, List.filter_append, List.flatMap_append,
    ofLast_append]
  cases hlabel : x.label <;> cases hshape : x.shape <;> simp [Node.ofRef, hlabel, hshape]

/-- Of a name that nothing refers to nothing is said. -/
theorem ofLast_of_notMem {refs : List NodeRef} {id : String} (h : id ∉ refs.map NodeRef.id) :
    (Node.ofLast refs id : Node α) = { id } := by
  have hnone : refs.filter (fun r => r.id = id) = [] := by
    refine List.filter_eq_nil_iff.mpr fun r hr hid => h ?_
    exact List.mem_map.mpr ⟨r, hr, by simpa using hid⟩
  simp only [Node.ofLast, hnone]
  rfl

theorem addAll_snoc (r : Registry α) (refs : List NodeRef) (x : NodeRef) :
    r.addAll (refs ++ [x]) = (r.addAll refs).add (Node.ofRef x) := by
  rw [Registry.addAll_append]
  rfl

@[simp] theorem id_ofRef (x : NodeRef) : (Node.ofRef x : Node α).id = x.id := rfl

/-- **The record of a name holds the last values that references to it supply.** -/
theorem find?_addAll_nil (refs : List NodeRef) (id : String) :
    (Registry.addAll [] refs : Registry α).find? id =
      if id ∈ refs.map NodeRef.id then some (Node.ofLast refs id) else none := by
  induction refs using List.reverseRecOn with
  | nil => rfl
  | append_singleton refs x ih =>
    rw [addAll_snoc, Registry.find?_add, ih, id_ofRef]
    by_cases hx : x.id = id
    · subst hx
      have hmem : x.id ∈ (refs ++ [x]).map NodeRef.id := by simp
      rw [if_pos rfl, if_pos hmem, ofLast_snoc]
      by_cases hold : x.id ∈ refs.map NodeRef.id
      · rw [if_pos hold]
        rfl
      · have hblank := merge_unknown_left (Node.ofRef x : Node α)
        rw [if_neg hold, ofLast_of_notMem hold, ← id_ofRef (α := α), hblank]
        rfl
    · rw [if_neg hx, ofLast_snoc_ne hx]
      simp [Ne.symm hx]

/-- The names that have a record, in the order of their first references. -/
theorem ids_addAll_nil (refs : List NodeRef) :
    (Registry.addAll [] refs : Registry α).ids = (refs.map NodeRef.id).eraseDups := by
  induction refs using List.reverseRecOn with
  | nil => rfl
  | append_singleton refs x ih =>
    rw [addAll_snoc, Registry.ids_add, ih, id_ofRef, List.map_append, List.eraseDups_append]
    generalize refs.map NodeRef.id = ids
    by_cases hx : x.id ∈ ids
    · simp [hx, List.removeAll]
    · simp [hx, List.removeAll, List.eraseDups_cons]

omit [Scalar α] in
/-- Among records with different names a record is found by its name. -/
theorem Registry.find?_of_mem {r : Registry α} (hr : r.ids.Nodup) {n : Node α} (hn : n ∈ r) :
    r.find? n.id = some n := by
  induction r with
  | nil => cases hn
  | cons m ms ih =>
    obtain ⟨hnew, hms⟩ := List.nodup_cons.mp hr
    rw [find?_cons]
    rcases List.mem_cons.mp hn with rfl | hn
    · exact if_pos rfl
    · have hne : m.id ≠ n.id := fun h => hnew (h ▸ List.mem_map_of_mem hn)
      rw [if_neg hne, ih hms hn]

/-- The records, in the order of the first references. -/
theorem addAll_nil (refs : List NodeRef) : (Registry.addAll [] refs : Registry α) =
    (refs.map NodeRef.id).eraseDups.map (Node.ofLast refs) := by
  rw [← ids_addAll_nil (α := α), Registry.ids, List.map_map]
  refine (List.map_id _).symm.trans (List.map_congr_left fun n hn => ?_)
  have hnodup : (Registry.addAll [] refs : Registry α).ids.Nodup :=
    Registry.nodup_addAll List.nodup_nil
  have hfind := Registry.find?_of_mem hnodup hn
  have hid : n.id ∈ refs.map NodeRef.id := by
    have hmem := List.mem_map_of_mem (f := Node.id) hn
    rw [← Registry.ids, ids_addAll_nil] at hmem
    exact List.mem_eraseDups.mp hmem
  rw [find?_addAll_nil, if_pos hid] at hfind
  exact (Option.some.inj hfind).symm

/-! ## Edges of a chain -/

/-- The edge that a link makes, from the reference in front of it to its own. -/
def Edge.between (source : NodeRef) (l : Link) : Edge α where
  source := source.id
  target := l.target.id
  arrow := l.arrow.value
  label := l.label.map Located.value
  style := .ofLast (l.anchor.elim [] PropertyList.items)

/-- The edges of a chain: each link joins two neighbouring references. -/
def Edge.ofNeighbours (c : Chain) : List (Edge α) := List.zipWith Edge.between c.refs c.links

theorem ofList?_eq_ofLast (ps : Option PropertyList) :
    (Style.ofList? ps : Style α) = .ofLast (ps.elim [] PropertyList.items) := by
  cases ps with
  | none => rfl
  | some ps => exact ofProperties_eq_ofLast ps.items

theorem edgesOf_eq_zipWith (source : NodeRef) (ls : List Link) :
    (edgesOf source.id ls : List (Edge α)) =
      List.zipWith Edge.between (source :: ls.map Link.target) ls := by
  induction ls generalizing source with
  | nil => rfl
  | cons l ls ih =>
    rw [edgesOf, List.map_cons, List.zipWith_cons_cons, ih, Edge.ofLink, ofList?_eq_ofLast]
    rfl

/-! ## Names that stand alone -/

/-- The names that stand alone in a tree, in order. -/
def Syntax.standalone (tree : List Syntax.Statement) : List String :=
  ((chains tree).filter (fun c => c.links.isEmpty)).map (fun c => c.head.id)

theorem standalone_cons (st : Syntax.Statement) (tree : List Syntax.Statement) :
    standalone (st :: tree) = standalone [st] ++ standalone tree := by
  simp [standalone, chains, Syntax.Statement.flattenAll]

@[simp] theorem standalone_group (k : Span) (id : Located String) (style : Option PropertyList)
    (body : List Syntax.Statement) (close : Span) :
    standalone [.group k id style body close] = standalone body := by
  simp only [standalone, chains, Syntax.Statement.flattenAll, Syntax.Statement.flatten,
    List.append_nil]
  rfl

@[simp] theorem standalone_chain (c : Chain) :
    standalone [.chain c] = if c.links.isEmpty then [c.head.id] else [] := by
  simp [standalone, chains, Syntax.Statement.flattenAll, Syntax.Statement.flatten,
    Syntax.Statement.chain?, List.filter_cons]
  split <;> rfl

@[simp] theorem standalone_layout (k : Span) (name : Located String) :
    standalone [.layout k name] = [] := by
  simp [standalone, chains, Syntax.Statement.flattenAll, Syntax.Statement.flatten,
    Syntax.Statement.chain?]

@[simp] theorem standalone_freeArrow (k : Span) (ps : PropertyList) :
    standalone [.freeArrow k ps] = [] := by
  simp [standalone, chains, Syntax.Statement.flattenAll, Syntax.Statement.flatten,
    Syntax.Statement.chain?]

mutual

theorem mem_declared_collectOne {w : Walk α} {id : String} : ∀ (st : Syntax.Statement),
    id ∈ (collectOne w st).2.declared ↔ id ∈ w.declared ∨ id ∈ standalone [st]
  | .group k name style body close => by
    have hbody : id ∈ (collect w body).2.declared ↔ id ∈ w.declared ∨ id ∈ standalone body :=
      mem_declared_collect body
    simpa [collectOne] using hbody
  | .layout .. => by simp [collectOne]
  | .freeArrow .. => by simp [collectOne]
  | .chain c => by
    rw [collectOne, Walk.chain, standalone_chain]
    split
    · split
      · next hold =>
        have hhead : c.head.id ∈ w.declared := by simpa using hold
        simp only [List.mem_singleton]
        refine (or_iff_left_of_imp ?_).symm
        rintro rfl
        exact hhead
      · simp
    · simp

/-- The walk declares the names that stand alone. -/
theorem mem_declared_collect {w : Walk α} {id : String} : ∀ (tree : List Syntax.Statement),
    id ∈ (collect w tree).2.declared ↔ id ∈ w.declared ∨ id ∈ standalone tree
  | [] => by simp [collect, standalone, chains, Syntax.Statement.flattenAll]
  | st :: tree => by
    rw [collect_cons, mem_declared_collect tree, mem_declared_collectOne st,
      standalone_cons st tree, List.mem_append, or_assoc]

end

/-! ## Statements without a walk -/

mutual

/-- What a statement of a tree states, given all references of the tree and the names that
stand alone in front of it. -/
def Statement.placed (refs : List NodeRef) (before : List String) :
    Syntax.Statement → List (Statement α)
  | .group _ id style body _ =>
    [.group id.value (.ofLast (style.elim [] PropertyList.items)) (placedAll refs before body)]
  | .layout _ name => [.layout name.value]
  | .freeArrow _ ps => [.freeArrow (.ofLast ps.items)]
  | .chain c =>
    if c.links.isEmpty then
      if c.head.id ∈ before then [] else [.node (.ofLast refs c.head.id)]
    else (Edge.ofNeighbours c).map .edge

/-- What the statements of a tree state in order. -/
def Statement.placedAll (refs : List NodeRef) (before : List String) :
    List Syntax.Statement → List (Statement α)
  | [] => []
  | st :: tree =>
    Statement.placed refs before st ++ placedAll refs (before ++ standalone [st]) tree

end

/-- The statements of a tree: the nodes that never stand alone, the last to be referred to
first, and then what the tree states in order.  Every node has its final record. -/
def Statement.merged (tree : List Syntax.Statement) : List (Statement α) :=
  let refs := nodeRefs tree
  let implied := (refs.map NodeRef.id).eraseDups.filter (fun id => id ∉ standalone tree)
  (implied.reverse.map fun id => .node (.ofLast refs id)) ++ placedAll refs [] tree

-- The walk keeps the names declared so far; the rules are given the names in front.  The
-- induction needs only that the two agree, and that every reference has its final record.
mutual

theorem fillAll_collectOne {r : Registry α} {refs : List NodeRef} {before : List String}
    (hr : ∀ id ∈ refs.map NodeRef.id, r.find? id = some (.ofLast refs id)) {w : Walk α}
    (hw : ∀ id, id ∈ w.declared ↔ id ∈ before) : ∀ (st : Syntax.Statement),
    (∀ x ∈ nodeRefs [st], x ∈ refs) →
    Statement.fillAll r (collectOne w st).1 = Statement.placed refs before st
  | .group k id style body close, hst => by
    have hbody := fillAll_collect hr hw body (by simpa using hst)
    rw [Statement.placed, ← hbody, ← ofList?_eq_ofLast]
    rfl
  | .layout .., _ => rfl
  | .freeArrow k ps, _ => by
    rw [Statement.placed, ← ofProperties_eq_ofLast]
    rfl
  | .chain c, hst => by
    have hhead : c.head.id ∈ refs.map NodeRef.id :=
      List.mem_map_of_mem (hst c.head (by simp [Chain.refs]))
    rw [collectOne, Walk.chain, Statement.placed]
    -- A node alone is a statement the first time only, and a chain with links gives its edges.
    split
    · by_cases hold : c.head.id ∈ before
      · have hdeclared : w.declared.contains c.head.id = true := by
          simpa using (hw c.head.id).mpr hold
        rw [if_pos hdeclared, if_pos hold]
        rfl
      · have hdeclared : ¬ w.declared.contains c.head.id = true := by
          simpa using fun h => hold ((hw c.head.id).mp h)
        rw [if_neg hdeclared, if_neg hold, Statement.fillAll, Statement.fill, hr _ hhead]
        rfl
    · have hfilled : ∀ es : List (Edge α),
          Statement.fillAll r (es.map Statement.edge) = es.map Statement.edge := by
        intro es
        induction es with
        | nil => rfl
        | cons e es ih =>
          rw [List.map_cons, Statement.fillAll, ih]
          rfl
      rw [hfilled, edgesOf_eq_zipWith]
      rfl

/-- The statements that the walk makes, with their records filled in. -/
theorem fillAll_collect {r : Registry α} {refs : List NodeRef} {before : List String}
    (hr : ∀ id ∈ refs.map NodeRef.id, r.find? id = some (.ofLast refs id)) {w : Walk α}
    (hw : ∀ id, id ∈ w.declared ↔ id ∈ before) : ∀ (tree : List Syntax.Statement),
    (∀ x ∈ nodeRefs tree, x ∈ refs) →
    Statement.fillAll r (collect w tree).1 = Statement.placedAll refs before tree
  | [], _ => rfl
  | st :: tree, htree => by
    rw [nodeRefs_cons] at htree
    have hfirst := fillAll_collectOne hr hw st fun x hx => htree x (List.mem_append_left _ hx)
    have hnext : ∀ id, id ∈ (collectOne w st).2.declared ↔ id ∈ before ++ standalone [st] := by
      intro id
      rw [mem_declared_collectOne, List.mem_append, hw]
    have hmore := fillAll_collect hr hnext tree fun x hx => htree x (List.mem_append_right _ hx)
    rw [collect_cons, fillAll_append, hfirst, hmore, Statement.placedAll]

end

/-- **The walk over a tree states what the last values and the first places say.** -/
theorem statementsOf_eq_merged (tree : List Syntax.Statement) :
    (statementsOf tree : List (Statement α)) = Statement.merged tree := by
  have hrecords : ∀ id ∈ (nodeRefs tree).map NodeRef.id,
      (recordsOf tree : Registry α).find? id = some (.ofLast (nodeRefs tree) id) := by
    intro id hid
    rw [recordsOf, find?_addAll_nil, if_pos hid]
  -- The tree with its records filled in, and in front of it the nodes that no statement declares.
  have hplaced : Statement.fillAll (recordsOf tree) (skeletonOf tree) =
      Statement.placedAll (nodeRefs tree) [] tree :=
    fillAll_collect hrecords (fun _ => Iff.rfl) tree fun _ hx => hx
  have hstated : ∀ id, id ∈ Statement.nodeIds (skeletonOf tree : List (Statement α)) ↔
      id ∈ standalone tree := by
    intro id
    have hdeclared : id ∈ (collect ({} : Walk α) tree).2.declared ↔ _ :=
      mem_declared_collect tree
    rw [declared_collect] at hdeclared
    simpa [skeletonOf] using hdeclared
  have himplied : (impliedOf tree : Registry α) =
      (((nodeRefs tree).map NodeRef.id).eraseDups.filter (fun id => id ∉ standalone tree)).map
        (Node.ofLast (nodeRefs tree)) := by
    rw [impliedOf, recordsOf, addAll_nil, List.filter_map]
    congr 2
    funext id
    simp [hstated, Node.ofLast]
  rw [statementsOf_eq, hplaced, himplied, Statement.merged, ← List.map_reverse, List.map_map]
  rfl

end Diagram
