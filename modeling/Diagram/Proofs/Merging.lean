import Diagram.Document.Merge
import Mathlib.Data.List.Nodup

/-!
# Merging

What the walk over a tree keeps: the records are those of all references of the tree, each
name has one record, the names that were declared are those of the node statements, and
every other statement comes from the part of the tree that says the same.

## Main definitions

* `Registry.ids` — the names that have a record.
* `Statement.nodeIds` — the names of the nodes of some statements.
* `Statement.ComesFrom` — the part of a tree that a statement is made from.

## Main statements

* `nodup_nodeIds_statementsOf` — no two nodes have the same name.
* `mem_nodeIds_statementsOf` — the nodes are those that the tree refers to.
* `ends_mem_nodeIds` — an edge joins two nodes.
-/

namespace Diagram

variable {α : Type}

/-! ## Statements -/

namespace Statement

@[simp] theorem flattenAll_append (ss ts : List (Statement α)) :
    flattenAll (ss ++ ts) = flattenAll ss ++ flattenAll ts := by
  induction ss with
  | nil => rfl
  | cons s ss ih => simp [flattenAll, ih]

theorem mem_flattenAll {s : Statement α} {ss : List (Statement α)} :
    s ∈ flattenAll ss ↔ ∃ st ∈ ss, s ∈ st.flatten := by
  induction ss with
  | nil => simp [flattenAll]
  | cons st ss ih => simp [flattenAll, ih]

/-- Statements without others inside them. -/
theorem flattenAll_map {β : Type} {f : β → Statement α} (hf : ∀ x, (f x).flatten = [f x])
    (xs : List β) : flattenAll (xs.map f) = xs.map f := by
  induction xs with
  | nil => rfl
  | cons x xs ih => simp [flattenAll, hf, ih]

/-- The names of the nodes among some statements. -/
def nodeIds (ss : List (Statement α)) : List String :=
  ((flattenAll ss).filterMap node?).map Node.id

@[simp] theorem nodeIds_append (ss ts : List (Statement α)) :
    nodeIds (ss ++ ts) = nodeIds ss ++ nodeIds ts := by
  simp [nodeIds]

theorem nodeIds_cons (s : Statement α) (ss : List (Statement α)) :
    nodeIds (s :: ss) = nodeIds [s] ++ nodeIds ss := nodeIds_append [s] ss

@[simp] theorem nodeIds_nil : nodeIds ([] : List (Statement α)) = [] := rfl

@[simp] theorem nodeIds_node (n : Node α) (ss : List (Statement α)) :
    nodeIds (.node n :: ss) = n.id :: nodeIds ss := rfl

@[simp] theorem nodeIds_edge (e : Edge α) (ss : List (Statement α)) :
    nodeIds (.edge e :: ss) = nodeIds ss := rfl

@[simp] theorem nodeIds_layout (name : String) (ss : List (Statement α)) :
    nodeIds (.layout name :: ss) = nodeIds ss := rfl

@[simp] theorem nodeIds_freeArrow (style : Style α) (ss : List (Statement α)) :
    nodeIds (.freeArrow style :: ss) = nodeIds ss := rfl

@[simp] theorem nodeIds_group (id : String) (style : Style α) (children ss : List (Statement α)) :
    nodeIds (.group id style children :: ss) = nodeIds children ++ nodeIds ss := by
  simp [nodeIds, flattenAll, flatten, List.filterMap_cons, node?]

@[simp] theorem nodeIds_map_node (ns : List (Node α)) :
    nodeIds (ns.map .node) = ns.map Node.id := by
  rw [nodeIds, flattenAll_map fun _ => by simp [flatten]]
  simp [List.filterMap_map, Function.comp_def, node?]

@[simp] theorem nodeIds_map_edge (es : List (Edge α)) : nodeIds (es.map .edge) = [] := by
  rw [nodeIds, flattenAll_map fun _ => by simp [flatten]]
  simp [List.filterMap_map, Function.comp_def, node?]

theorem mem_nodeIds {ss : List (Statement α)} {id : String} :
    id ∈ nodeIds ss ↔ ∃ n, .node n ∈ flattenAll ss ∧ n.id = id := by
  simp only [nodeIds, List.mem_map, List.mem_filterMap]
  constructor
  · rintro ⟨n, ⟨s, hs, hnode⟩, rfl⟩
    cases s <;> cases hnode
    exact ⟨n, hs, rfl⟩
  · rintro ⟨n, hn, rfl⟩
    exact ⟨n, ⟨_, hn, rfl⟩, rfl⟩

/-- Two nodes with the same name are the same, where no two nodes have the same name. -/
theorem node_eq_of_nodup {ss : List (Statement α)} (h : (nodeIds ss).Nodup)
    {m n : Node α} (hm : .node m ∈ flattenAll ss)
    (hn : .node n ∈ flattenAll ss) (hid : m.id = n.id) : m = n := by
  have hmem : ∀ k, .node k ∈ flattenAll ss →
      k ∈ (flattenAll ss).filterMap node? :=
    fun k hk => List.mem_filterMap.mpr ⟨_, hk, rfl⟩
  exact List.inj_on_of_nodup_map h (hmem m hm) (hmem n hn) hid

end Statement

/-! ## References -/

namespace Syntax

namespace Statement

@[simp] theorem flattenAll_append (ss ts : List Statement) :
    flattenAll (ss ++ ts) = flattenAll ss ++ flattenAll ts := by
  induction ss with
  | nil => rfl
  | cons s ss ih => simp [flattenAll, ih]

end Statement

@[simp] theorem nodeRefs_append (ss ts : List Statement) :
    nodeRefs (ss ++ ts) = nodeRefs ss ++ nodeRefs ts := by
  simp [nodeRefs, chains]

theorem nodeRefs_cons (s : Statement) (ss : List Statement) :
    nodeRefs (s :: ss) = nodeRefs [s] ++ nodeRefs ss := nodeRefs_append [s] ss

@[simp] theorem nodeRefs_nil : nodeRefs [] = [] := rfl

@[simp] theorem nodeRefs_chain (c : Chain) (ss : List Statement) :
    nodeRefs (.chain c :: ss) = c.refs ++ nodeRefs ss := rfl

@[simp] theorem nodeRefs_layout (k : Span) (name : Located String) (ss : List Statement) :
    nodeRefs (.layout k name :: ss) = nodeRefs ss := rfl

@[simp] theorem nodeRefs_freeArrow (k : Span) (ps : PropertyList) (ss : List Statement) :
    nodeRefs (.freeArrow k ps :: ss) = nodeRefs ss := rfl

@[simp] theorem nodeRefs_group (k : Span) (id : Located String) (style : Option PropertyList)
    (body : List Statement) (close : Span) (ss : List Statement) :
    nodeRefs (.group k id style body close :: ss) = nodeRefs body ++ nodeRefs ss := by
  simp [nodeRefs, chains, Statement.flattenAll, Statement.flatten, List.filterMap_cons,
    Statement.chain?]

/-- The references of a chain that stands somewhere in a tree are references of the tree. -/
theorem mem_nodeRefs_of_mem_chains {tree : List Statement} {c : Chain} (hc : c ∈ chains tree)
    {r : NodeRef} (hr : r ∈ c.refs) : r ∈ nodeRefs tree :=
  List.mem_flatMap.mpr ⟨c, hc, hr⟩

end Syntax

open Syntax (NodeRef Chain Link PropertyList nodeRefs chains)

/-! ## Records -/

namespace Registry

/-- The names that have a record. -/
def ids (r : Registry α) : List String := r.map Node.id

@[simp] theorem ids_nil : ids ([] : Registry α) = [] := rfl

@[simp] theorem ids_cons (n : Node α) (r : Registry α) : ids (n :: r) = n.id :: ids r := rfl

theorem ids_add (r : Registry α) (n : Node α) :
    (r.add n).ids = if n.id ∈ r.ids then r.ids else r.ids ++ [n.id] := by
  induction r with
  | nil => simp [add]
  | cons m ms ih =>
    rw [add]
    by_cases h : m.id = n.id
    · simp [h]
    · rw [if_neg (by simpa using h), ids_cons, ids_cons, ih]
      by_cases hn : n.id ∈ ids ms <;> simp [hn, Ne.symm h]

theorem mem_ids_add {r : Registry α} {n : Node α} {id : String} :
    id ∈ (r.add n).ids ↔ id ∈ r.ids ∨ id = n.id := by
  rw [ids_add]
  split
  · next h =>
    refine (or_iff_left_of_imp ?_).symm
    rintro rfl
    exact h
  · simp

theorem nodup_add {r : Registry α} (n : Node α) (h : r.ids.Nodup) : (r.add n).ids.Nodup := by
  rw [ids_add]
  split
  · exact h
  · next hn =>
    refine List.nodup_append.mpr ⟨h, by simp, fun a ha b hb => ?_⟩
    rintro rfl
    exact hn (List.mem_singleton.mp hb ▸ ha)

@[simp] theorem find?_nil (id : String) : find? ([] : Registry α) id = none := rfl

theorem find?_cons (n : Node α) (r : Registry α) (id : String) :
    find? (n :: r) id = if n.id = id then some n else find? r id := by
  rw [find?, List.find?_cons]
  by_cases h : n.id = id
  · simp [h]
  · rw [if_neg h, beq_eq_false_iff_ne.mpr h]
    rfl

/-- The record of a name, after one more reference. -/
theorem find?_add (r : Registry α) (n : Node α) (id : String) :
    (r.add n).find? id =
      if n.id = id then some ((r.find? id).elim n (·.merge n)) else r.find? id := by
  induction r with
  | nil => simp [add, find?_cons]
  | cons m ms ih =>
    rw [add]
    by_cases hm : m.id = n.id
    · by_cases h : n.id = id <;> simp [hm, h, find?_cons]
    · rw [if_neg (by simpa using hm), find?_cons, find?_cons, ih]
      by_cases h : m.id = id
      · have hn : n.id ≠ id := fun hn => hm (h.trans hn.symm)
        simp [h, hn]
      · simp [h]

theorem id_of_find? {r : Registry α} {id : String} {n : Node α} (h : r.find? id = some n) :
    n.id = id := by
  induction r with
  | nil => cases h
  | cons m ms ih =>
    rw [find?_cons] at h
    split at h
    · next hm =>
      obtain rfl := Option.some.inj h
      exact hm
    · exact ih h

theorem find?_isSome {r : Registry α} {id : String} : (r.find? id).isSome ↔ id ∈ r.ids := by
  simp [find?, ids]

theorem forall_mem_add {P : Node α → Prop} (hmerge : ∀ m n, P m → P n → P (m.merge n))
    {r : Registry α} {n : Node α} (hr : ∀ m ∈ r, P m) (hn : P n) : ∀ m ∈ r.add n, P m := by
  induction r with
  | nil =>
    intro m hm
    rwa [List.mem_singleton.mp hm]
  | cons m ms ih =>
    rw [add]
    split
    · refine List.forall_mem_cons.mpr ⟨hmerge m n (hr m (by simp)) hn, fun k hk => ?_⟩
      exact hr k (List.mem_cons_of_mem m hk)
    · exact List.forall_mem_cons.mpr
        ⟨hr m (by simp), ih fun k hk => hr k (List.mem_cons_of_mem m hk)⟩

variable [Scalar α]

@[simp] theorem addAll_append (r : Registry α) (xs ys : List NodeRef) :
    r.addAll (xs ++ ys) = (r.addAll xs).addAll ys := List.foldl_append

@[simp] theorem addAll_cons (r : Registry α) (x : NodeRef) (xs : List NodeRef) :
    r.addAll (x :: xs) = (r.add (Node.ofRef x)).addAll xs := rfl

/-- The names that have a record are those that were referred to. -/
theorem mem_ids_addAll {refs : List NodeRef} {r : Registry α} {id : String} :
    id ∈ (r.addAll refs).ids ↔ id ∈ r.ids ∨ ∃ x ∈ refs, x.id = id := by
  induction refs generalizing r with
  | nil => simp [addAll]
  | cons x xs ih =>
    rw [addAll_cons, ih, mem_ids_add, or_assoc]
    refine or_congr_right ?_
    simp only [List.mem_cons, exists_eq_or_imp]
    exact or_congr_left eq_comm

/-- What one more reference leaves true, all references leave true. -/
theorem addAll_induction {P : Registry α → Prop} {refs : List NodeRef}
    (hadd : ∀ r, ∀ x ∈ refs, P r → P (r.add (Node.ofRef x))) {r : Registry α} (hr : P r) :
    P (r.addAll refs) :=
  List.foldlRecOn refs _ hr fun r h x hx => hadd r x hx h

theorem nodup_addAll {refs : List NodeRef} {r : Registry α} (h : r.ids.Nodup) :
    (r.addAll refs).ids.Nodup :=
  addAll_induction (P := fun r => r.ids.Nodup) (fun _ _ _ => nodup_add _) h

/-- What holds of every reference, and of two records merged, holds of every record. -/
theorem forall_mem_addAll {P : Node α → Prop} (hmerge : ∀ m n, P m → P n → P (m.merge n))
    {refs : List NodeRef} (hrefs : ∀ x ∈ refs, P (Node.ofRef x)) {r : Registry α}
    (hr : ∀ m ∈ r, P m) : ∀ m ∈ r.addAll refs, P m :=
  addAll_induction (P := fun r => ∀ m ∈ r, P m)
    (fun _ x hx h => forall_mem_add hmerge h (hrefs x hx)) hr

end Registry

/-! ## Filling in the records -/

mutual

theorem flatten_fill (r : Registry α) : ∀ (st : Statement α),
    (Statement.fill r st).flatten = st.flatten.map (Statement.fill r)
  | .group id style children => by
    have hchildren := flattenAll_fillAll r children
    simp [Statement.fill, Statement.flatten, hchildren]
  | .node _ | .edge _ | .layout _ | .freeArrow _ => by
    simp [Statement.fill, Statement.flatten]

theorem flattenAll_fillAll (r : Registry α) : ∀ (ss : List (Statement α)),
    Statement.flattenAll (Statement.fillAll r ss) =
      (Statement.flattenAll ss).map (Statement.fill r)
  | [] => rfl
  | st :: ss => by
    have hfirst := flatten_fill r st
    have hmore := flattenAll_fillAll r ss
    simp [Statement.fillAll, Statement.flattenAll, hfirst, hmore]

end

@[simp] theorem fillAll_append (r : Registry α) (ss ts : List (Statement α)) :
    Statement.fillAll r (ss ++ ts) = Statement.fillAll r ss ++ Statement.fillAll r ts := by
  induction ss with
  | nil => rfl
  | cons s ss ih =>
    rw [List.cons_append, Statement.fillAll, Statement.fillAll, ih, List.cons_append]

/-- A node that is filled in keeps its name. -/
theorem id_filled (r : Registry α) (n : Node α) : ((r.find? n.id).getD n).id = n.id := by
  cases h : r.find? n.id with
  | none => rfl
  | some m => exact Registry.id_of_find? h

theorem nodeIds_fillAll (r : Registry α) (ss : List (Statement α)) :
    Statement.nodeIds (Statement.fillAll r ss) = Statement.nodeIds ss := by
  simp only [Statement.nodeIds, flattenAll_fillAll, List.filterMap_map, List.map_filterMap]
  congr 1
  funext st
  cases st <;> simp [Statement.fill, Statement.node?, id_filled]

/-! ## The walk -/

variable [Scalar α]

theorem collect_cons (w : Walk α) (st : Syntax.Statement) (tree : List Syntax.Statement) :
    collect w (st :: tree) =
      ((collectOne w st).1 ++ (collect (collectOne w st).2 tree).1,
        (collect (collectOne w st).2 tree).2) := rfl

theorem collect_append (w : Walk α) (xs ys : List Syntax.Statement) :
    collect w (xs ++ ys) =
      ((collect w xs).1 ++ (collect (collect w xs).2 ys).1, (collect (collect w xs).2 ys).2) := by
  induction xs generalizing w with
  | nil => rfl
  | cons st xs ih => rw [List.cons_append, collect_cons, collect_cons, ih, List.append_assoc]

@[simp] theorem collect_singleton (w : Walk α) (st : Syntax.Statement) :
    collect w [st] = collectOne w st := by
  simp [collect]

mutual

theorem registry_collectOne (w : Walk α) : ∀ (st : Syntax.Statement),
    (collectOne w st).2.registry = w.registry.addAll (nodeRefs [st])
  | .group k id style body close => by
    rw [Syntax.nodeRefs_group, Syntax.nodeRefs_nil, List.append_nil, ← registry_collect w body]
    rfl
  | .layout .. => rfl
  | .freeArrow .. => rfl
  | .chain c => by
    rw [Syntax.nodeRefs_chain, Syntax.nodeRefs_nil, List.append_nil, collectOne, Walk.chain]
    split
    · split <;> rfl
    · rfl

/-- **The records are those of all references of the tree, in order.** -/
theorem registry_collect (w : Walk α) : ∀ (tree : List Syntax.Statement),
    (collect w tree).2.registry = w.registry.addAll (nodeRefs tree)
  | [] => rfl
  | st :: tree => by
    rw [collect_cons, registry_collect _ tree, registry_collectOne w st,
      ← Registry.addAll_append, ← Syntax.nodeRefs_cons]

end

mutual

theorem declared_collectOne (w : Walk α) : ∀ (st : Syntax.Statement),
    (collectOne w st).2.declared = w.declared ++ Statement.nodeIds (collectOne w st).1
  | .group k id style body close => by
    have hbody := declared_collect w body
    simpa [collectOne] using hbody
  | .layout .. => by simp [collectOne]
  | .freeArrow .. => by simp [collectOne]
  | .chain c => by
    rw [collectOne, Walk.chain]
    split
    · split <;> simp
    · simp

/-- **The names that were declared are those of the node statements.** -/
theorem declared_collect (w : Walk α) : ∀ (tree : List Syntax.Statement),
    (collect w tree).2.declared = w.declared ++ Statement.nodeIds (collect w tree).1
  | [] => by simp [collect]
  | st :: tree => by
    rw [collect_cons, declared_collect _ tree, declared_collectOne w st, List.append_assoc,
      ← Statement.nodeIds_append]

end

mutual

theorem nodup_collectOne {w : Walk α} (h : w.declared.Nodup) : ∀ (st : Syntax.Statement),
    (collectOne w st).2.declared.Nodup
  | .group k id style body close => nodup_collect h body
  | .layout .. => h
  | .freeArrow .. => h
  | .chain c => by
    rw [collectOne, Walk.chain]
    split
    · split
      · exact h
      · next hnew =>
        refine List.nodup_append.mpr ⟨h, by simp, fun a ha b hb hab => hnew ?_⟩
        rw [← List.mem_singleton.mp hb, ← hab]
        simpa using ha
    · exact h

theorem nodup_collect {w : Walk α} (h : w.declared.Nodup) : ∀ (tree : List Syntax.Statement),
    (collect w tree).2.declared.Nodup
  | [] => h
  | st :: tree => nodup_collect (nodup_collectOne h st) tree

end

/-! ## Where statements come from -/

/-- The part of a tree that a statement is made from. -/
def Statement.ComesFrom (tree : List Syntax.Statement) : Statement α → Prop
  | .node n => ∃ r ∈ nodeRefs tree, n.id = r.id
  | .edge e => ∃ c ∈ chains tree, e ∈ edgesOf c.head.id c.links
  | .group id style _ => ∃ k name ps body close,
      .group k name ps body close ∈ Syntax.Statement.flattenAll tree ∧
        id = name.value ∧ style = Style.ofList? ps
  | .layout algorithm => ∃ k name,
      .layout k name ∈ Syntax.Statement.flattenAll tree ∧ algorithm = name.value
  | .freeArrow style => ∃ k ps,
      .freeArrow k ps ∈ Syntax.Statement.flattenAll tree ∧ style = Style.ofProperties ps.items

/-- What comes from a part of a tree comes from the tree. -/
theorem Statement.ComesFrom.mono {part tree : List Syntax.Statement} {s : Statement α}
    (h : s.ComesFrom part)
    (hsub : ∀ st ∈ Syntax.Statement.flattenAll part, st ∈ Syntax.Statement.flattenAll tree) :
    s.ComesFrom tree := by
  have hchains : ∀ c ∈ chains part, c ∈ chains tree := by
    intro c hc
    obtain ⟨st, hst, hchain⟩ := List.mem_filterMap.mp hc
    exact List.mem_filterMap.mpr ⟨st, hsub st hst, hchain⟩
  cases s with
  | node n =>
    obtain ⟨r, hr, hid⟩ := h
    obtain ⟨c, hc, hr⟩ := List.mem_flatMap.mp hr
    exact ⟨r, List.mem_flatMap.mpr ⟨c, hchains c hc, hr⟩, hid⟩
  | edge e =>
    obtain ⟨c, hc, he⟩ := h
    exact ⟨c, hchains c hc, he⟩
  | group id style children =>
    obtain ⟨k, name, ps, body, close, hmem, hsame⟩ := h
    exact ⟨k, name, ps, body, close, hsub _ hmem, hsame⟩
  | layout name =>
    obtain ⟨k, x, hmem, hsame⟩ := h
    exact ⟨k, x, hsub _ hmem, hsame⟩
  | freeArrow style =>
    obtain ⟨k, ps, hmem, hsame⟩ := h
    exact ⟨k, ps, hsub _ hmem, hsame⟩

theorem comesFrom_chain (w : Walk α) (c : Chain) :
    ∀ s ∈ Statement.flattenAll (w.chain c).1, s.ComesFrom [.chain c] := by
  intro s hs
  have hc : c ∈ chains [.chain c] := by
    simp [chains, Syntax.Statement.flattenAll, Syntax.Statement.flatten, Syntax.Statement.chain?]
  rw [Walk.chain] at hs
  split at hs
  · split at hs
    · cases hs
    · simp only [Statement.flattenAll, Statement.flatten, List.append_nil,
        List.mem_singleton] at hs
      subst hs
      exact ⟨c.head, by simp [Chain.refs], rfl⟩
  · rw [Statement.flattenAll_map fun _ => by simp [Statement.flatten]] at hs
    obtain ⟨e, he, rfl⟩ := List.mem_map.mp hs
    exact ⟨c, hc, he⟩

mutual

theorem comesFrom_collectOne (w : Walk α) : ∀ (st : Syntax.Statement),
    ∀ s ∈ Statement.flattenAll (collectOne w st).1, s.ComesFrom [st]
  | .group k name ps body close, s, hs => by
    simp only [collectOne, Statement.flattenAll, Statement.flatten, List.append_nil,
      List.mem_cons] at hs
    rcases hs with rfl | hs
    · exact ⟨k, name, ps, body, close,
        by simp [Syntax.Statement.flattenAll, Syntax.Statement.flatten], rfl, rfl⟩
    · refine (comesFrom_collect w body s hs).mono fun st hst => ?_
      simp [Syntax.Statement.flattenAll, Syntax.Statement.flatten, hst]
  | .layout k name, s, hs => by
    simp only [collectOne, Statement.flattenAll, Statement.flatten, List.append_nil,
      List.mem_singleton] at hs
    subst hs
    exact ⟨k, name, by simp [Syntax.Statement.flattenAll, Syntax.Statement.flatten], rfl⟩
  | .freeArrow k ps, s, hs => by
    simp only [collectOne, Statement.flattenAll, Statement.flatten, List.append_nil,
      List.mem_singleton] at hs
    subst hs
    exact ⟨k, ps, by simp [Syntax.Statement.flattenAll, Syntax.Statement.flatten], rfl⟩
  | .chain c, s, hs => comesFrom_chain w c s hs

/-- **Every statement comes from a part of the tree.** -/
theorem comesFrom_collect (w : Walk α) : ∀ (tree : List Syntax.Statement),
    ∀ s ∈ Statement.flattenAll (collect w tree).1, s.ComesFrom tree
  | [], s, hs => by cases hs
  | st :: tree, s, hs => by
    rw [collect_cons, Statement.flattenAll_append, List.mem_append] at hs
    rcases hs with hs | hs
    · refine (comesFrom_collectOne w st s hs).mono fun r hr => ?_
      simp only [Syntax.Statement.flattenAll, List.append_nil] at hr
      simp [Syntax.Statement.flattenAll, hr]
    · refine (comesFrom_collect _ tree s hs).mono fun r hr => ?_
      simp [Syntax.Statement.flattenAll, hr]

end

/-- A statement that is filled in comes from the same part of the tree. -/
theorem comesFrom_fill (r : Registry α) {tree : List Syntax.Statement} {st : Statement α}
    (h : st.ComesFrom tree) : (Statement.fill r st).ComesFrom tree := by
  cases st with
  | node n =>
    obtain ⟨x, hx, hid⟩ := h
    exact ⟨x, hx, (id_filled r n).trans hid⟩
  | edge _ | group _ _ _ | layout _ | freeArrow _ => exact h

/-! ## The statements of a tree -/

/-- The records of all references of a tree. -/
def recordsOf (tree : List Syntax.Statement) : Registry α := Registry.addAll [] (nodeRefs tree)

/-- The statements of a tree, their nodes yet without their records. -/
def skeletonOf (tree : List Syntax.Statement) : List (Statement α) := (collect {} tree).1

/-- The records of the nodes that never stand alone. -/
def impliedOf (tree : List Syntax.Statement) : Registry α :=
  (recordsOf tree).filter fun n =>
    !(Statement.nodeIds (skeletonOf tree : List (Statement α))).contains n.id

theorem statementsOf_eq (tree : List Syntax.Statement) : (statementsOf tree : List (Statement α)) =
    (impliedOf tree).reverse.map .node ++
      Statement.fillAll (recordsOf tree) (skeletonOf tree) := by
  have hregistry := registry_collect ({} : Walk α) tree
  have hdeclared := declared_collect ({} : Walk α) tree
  simp only [List.nil_append] at hdeclared
  simp only [statementsOf, hregistry, hdeclared]
  rfl

theorem nodup_ids_recordsOf (tree : List Syntax.Statement) :
    (recordsOf tree : Registry α).ids.Nodup :=
  Registry.nodup_addAll List.nodup_nil

theorem mem_ids_recordsOf {tree : List Syntax.Statement} {id : String} :
    id ∈ (recordsOf tree : Registry α).ids ↔ ∃ x ∈ nodeRefs tree, x.id = id := by
  rw [recordsOf, Registry.mem_ids_addAll]
  simp

theorem nodup_nodeIds_skeletonOf (tree : List Syntax.Statement) :
    (Statement.nodeIds (skeletonOf tree : List (Statement α))).Nodup := by
  have hnodup : (collect ({} : Walk α) tree).2.declared.Nodup := nodup_collect List.nodup_nil tree
  rw [declared_collect] at hnodup
  exact hnodup

theorem nodeIds_statementsOf (tree : List Syntax.Statement) :
    Statement.nodeIds (statementsOf tree : List (Statement α)) =
      (impliedOf tree : Registry α).ids.reverse ++
        Statement.nodeIds (skeletonOf tree : List (Statement α)) := by
  rw [statementsOf_eq, Statement.nodeIds_append, nodeIds_fillAll, Statement.nodeIds_map_node,
    List.map_reverse]
  rfl

/-- **No two nodes have the same name.** -/
theorem nodup_nodeIds_statementsOf (tree : List Syntax.Statement) :
    (Statement.nodeIds (statementsOf tree : List (Statement α))).Nodup := by
  rw [nodeIds_statementsOf]
  have himplied : (impliedOf tree : Registry α).ids.Nodup :=
    (nodup_ids_recordsOf tree).sublist (List.filter_sublist.map Node.id)
  refine List.nodup_append.mpr
    ⟨List.nodup_reverse.mpr himplied, nodup_nodeIds_skeletonOf tree, fun a ha b hb hab => ?_⟩
  obtain ⟨n, hn, rfl⟩ := List.mem_map.mp (List.mem_reverse.mp ha)
  obtain ⟨-, hnew⟩ := List.mem_filter.mp hn
  simp only [List.contains_eq_mem, Bool.not_eq_true', decide_eq_false_iff_not] at hnew
  exact hnew (hab ▸ hb)

/-- **The nodes are those that the tree refers to.** -/
theorem mem_nodeIds_statementsOf {tree : List Syntax.Statement} {id : String} :
    id ∈ Statement.nodeIds (statementsOf tree : List (Statement α)) ↔
      ∃ x ∈ nodeRefs tree, x.id = id := by
  rw [nodeIds_statementsOf, List.mem_append, List.mem_reverse]
  constructor
  · rintro (himplied | hstated)
    · obtain ⟨n, hn, rfl⟩ := List.mem_map.mp himplied
      exact mem_ids_recordsOf.mp (List.mem_map_of_mem (List.mem_filter.mp hn).1)
    · obtain ⟨n, hn, rfl⟩ := Statement.mem_nodeIds.mp hstated
      obtain ⟨x, hx, hid⟩ := comesFrom_collect {} tree _ hn
      exact ⟨x, hx, hid.symm⟩
  · intro h
    have hid : id ∈ (recordsOf tree : Registry α).ids := mem_ids_recordsOf.mpr h
    obtain ⟨n, hn, rfl⟩ := List.mem_map.mp hid
    by_cases hstated : n.id ∈ Statement.nodeIds (skeletonOf tree : List (Statement α))
    · exact .inr hstated
    · refine .inl (List.mem_map_of_mem (List.mem_filter.mpr ⟨hn, ?_⟩))
      simpa using hstated

/-- **Every statement comes from a part of the tree.** -/
theorem comesFrom_statementsOf {tree : List Syntax.Statement} {s : Statement α}
    (h : s ∈ Statement.flattenAll (statementsOf tree)) : s.ComesFrom tree := by
  rw [statementsOf_eq, Statement.flattenAll_append, flattenAll_fillAll,
    Statement.flattenAll_map fun _ => by simp [Statement.flatten]] at h
  rcases List.mem_append.mp h with h | h
  · obtain ⟨n, hn, rfl⟩ := List.mem_map.mp h
    have hrecord : n ∈ recordsOf tree := (List.mem_filter.mp (List.mem_reverse.mp hn)).1
    obtain ⟨x, hx, hid⟩ := mem_ids_recordsOf.mp (List.mem_map_of_mem hrecord)
    exact ⟨x, hx, hid.symm⟩
  · obtain ⟨st, hst, rfl⟩ := List.mem_map.mp h
    exact comesFrom_fill _ (comesFrom_collect {} tree st hst)

/-- Every node is one of the records. -/
theorem mem_recordsOf {tree : List Syntax.Statement} {n : Node α}
    (h : .node n ∈ Statement.flattenAll (statementsOf tree)) : n ∈ recordsOf tree := by
  rw [statementsOf_eq, Statement.flattenAll_append, flattenAll_fillAll,
    Statement.flattenAll_map fun _ => by simp [Statement.flatten]] at h
  rcases List.mem_append.mp h with h | h
  · obtain ⟨m, hm, hsame⟩ := List.mem_map.mp h
    obtain rfl := Statement.node.inj hsame
    exact (List.mem_filter.mp (List.mem_reverse.mp hm)).1
  · obtain ⟨st, hst, hsame⟩ := List.mem_map.mp h
    cases st <;> simp only [Statement.fill, reduceCtorEq, Statement.node.injEq] at hsame
    next m =>
    obtain ⟨x, hx, hid⟩ := comesFrom_collect {} tree _ hst
    have hsome : ((recordsOf tree : Registry α).find? m.id).isSome :=
      Registry.find?_isSome.mpr (mem_ids_recordsOf.mpr ⟨x, hx, hid.symm⟩)
    obtain ⟨k, hk⟩ := Option.isSome_iff_exists.mp hsome
    rw [hk] at hsame
    obtain rfl : k = n := hsame
    exact List.mem_of_find?_eq_some hk

/-- An edge of a chain is made from one link, and starts where the chain or a link does. -/
theorem mem_edgesOf {source : String} {ls : List Link} {e : Edge α} (h : e ∈ edgesOf source ls) :
    (∃ l ∈ ls, e = Edge.ofLink e.source l) ∧
      (e.source = source ∨ ∃ l ∈ ls, e.source = l.target.id) := by
  induction ls generalizing source with
  | nil => cases h
  | cons l ls ih =>
    rcases List.mem_cons.mp h with rfl | h
    · exact ⟨⟨l, List.mem_cons_self, rfl⟩, .inl rfl⟩
    · obtain ⟨⟨k, hk, hedge⟩, hsource⟩ := ih h
      refine ⟨⟨k, List.mem_cons_of_mem l hk, hedge⟩, .inr ?_⟩
      rcases hsource with hs | ⟨j, hj, hs⟩
      · exact ⟨l, List.mem_cons_self, hs⟩
      · exact ⟨j, List.mem_cons_of_mem l hj, hs⟩

/-- The ends of the edges of a chain are references of the chain. -/
theorem ends_mem_refs {c : Chain} {e : Edge α} (h : e ∈ edgesOf c.head.id c.links) :
    (∃ r ∈ c.refs, e.source = r.id) ∧ ∃ r ∈ c.refs, e.target = r.id := by
  obtain ⟨⟨l, hl, hedge⟩, hsource⟩ := mem_edgesOf h
  have hlink : ∀ k ∈ c.links, k.target ∈ c.refs :=
    fun k hk => List.mem_cons_of_mem _ (List.mem_map_of_mem hk)
  have htarget : e.target = l.target.id := by
    rw [hedge]
    rfl
  refine ⟨?_, l.target, hlink l hl, htarget⟩
  rcases hsource with hs | ⟨k, hk, hs⟩
  · exact ⟨c.head, List.mem_cons_self, hs⟩
  · exact ⟨k.target, hlink k hk, hs⟩

/-- **An edge joins two nodes.** -/
theorem ends_mem_nodeIds {tree : List Syntax.Statement} {e : Edge α}
    (h : .edge e ∈ Statement.flattenAll (statementsOf tree)) :
    e.source ∈ Statement.nodeIds (statementsOf tree : List (Statement α)) ∧
      e.target ∈ Statement.nodeIds (statementsOf tree : List (Statement α)) := by
  obtain ⟨c, hc, he⟩ := comesFrom_statementsOf h
  obtain ⟨⟨r, hr, hsource⟩, x, hx, htarget⟩ := ends_mem_refs he
  constructor
  · exact mem_nodeIds_statementsOf.mpr
      ⟨r, Syntax.mem_nodeRefs_of_mem_chains hc hr, hsource.symm⟩
  · exact mem_nodeIds_statementsOf.mpr
      ⟨x, Syntax.mem_nodeRefs_of_mem_chains hc hx, htarget.symm⟩

/-! ## Texts -/

/-- The statements of a text about which there are no messages are those of its tree. -/
theorem ofText_of_ok {text : String} (h : (Document.ofText text : Document α).errors = []) :
    (Syntax.parse text).2 = [] ∧
      (Document.ofText text : Document α).statements = statementsOf (Syntax.parse text).1 := by
  cases hissues : (Syntax.parse text).2 with
  | nil => simp [Document.ofText, hissues]
  | cons issue issues => simp [Document.ofText, hissues] at h

end Diagram
