import Diagram.Drawing.Infer
import Diagram.Proofs.Graph
import Diagram.Proofs.Rereading

/-!
# The text behind some shapes

The names that nodes are given are words, and no two nodes are given the same one.  An edge
is only drawn between two of the nodes.  So the text behind any shapes is read without a
message, as the nodes and the edges behind the shapes, whatever labels and colours they
have.
-/

namespace Diagram

open Syntax

/-! ## Names -/

/-- The name of a node behind the 26th. -/
theorem toList_generatedId {i : Nat} (h : ¬ i < 26) :
    (generatedId i).toList = "node".toList ++ Decimal.digits (i + 1) := by
  rw [generatedId, if_neg h, String.toList_append]
  congr 1
  exact String.toList_ofList

theorem length_generatedId_of_lt {i : Nat} (h : i < 26) : (generatedId i).length = 1 := by
  rw [generatedId, if_pos h]
  exact String.length_singleton

theorem length_generatedId_of_le {i : Nat} (h : ¬ i < 26) : 4 ≤ (generatedId i).length := by
  rw [← String.length_toList, toList_generatedId h, List.length_append]
  exact Nat.le_add_right 4 _

/-- No keyword starts as the numbered names do. -/
theorem head_of_isKeyword {word : String} (h : isKeyword word) : word.toList.head? ≠ some 'n' := by
  rcases isKeyword_iff.mp h with rfl | rfl | hshape
  · decide
  · decide
  · obtain ⟨p, hp, hword⟩ := List.lookup_isSome_iff.mp hshape
    obtain rfl := beq_iff_eq.mp hword
    revert p
    decide

/-- **The name of every node is a word.** -/
theorem isWord_generatedId (i : Nat) : IsWord (generatedId i) := by
  by_cases h : i < 26
  · have hletters : ∀ j : Fin 26, IsWord (generatedId j) := by decide
    exact hletters ⟨i, h⟩
  · have hchars := toList_generatedId h
    have hdigits : (Decimal.digits (i + 1)).all isNameChar :=
      List.all_eq_true.mpr fun c hc => isNameChar_of_isDigit (isDigit_of_mem_digits hc)
    have hname : isName (generatedId i).toList := by
      rw [hchars]
      simp [isName, hdigits]
      decide
    have hkeyword : isKeyword (generatedId i) = false :=
      Bool.eq_false_iff.mpr fun hkey => head_of_isKeyword hkey (by rw [hchars]; rfl)
    exact isWord_iff.mpr ⟨hname, hkeyword⟩

/-- **No two nodes are given the same name.** -/
theorem generatedId_injective : Function.Injective generatedId := by
  intro i j hij
  have hlength := congrArg String.length hij
  by_cases hi : i < 26 <;> by_cases hj : j < 26
  · have hletters : ∀ a b : Fin 26, generatedId a = generatedId b → a = b := by decide
    exact Fin.mk.inj_iff.mp (hletters ⟨i, hi⟩ ⟨j, hj⟩ hij)
  · have hone := length_generatedId_of_lt hi
    have hmore := length_generatedId_of_le hj
    omega
  · have hone := length_generatedId_of_lt hj
    have hmore := length_generatedId_of_le hi
    omega
  · have hchars := congrArg String.toList hij
    rw [toList_generatedId hi, toList_generatedId hj] at hchars
    have hdigits := List.append_cancel_left hchars
    have hvalue := congrArg Decimal.natOfDigits hdigits
    rw [natOfDigits_digits, natOfDigits_digits] at hvalue
    exact Nat.succ.inj hvalue

/-! ## Candidates -/

section Candidates

variable {α : Type}

theorem ids_candidates (shapes : List (Shape α)) : (candidates shapes).map Candidate.id =
    (List.range (candidates shapes).length).map generatedId := by
  refine List.ext_getElem (by simp) fun i hi hj => ?_
  simp [candidates]

theorem nodup_ids_candidates (shapes : List (Shape α)) :
    ((candidates shapes).map Candidate.id).Nodup := by
  rw [ids_candidates]
  exact List.nodup_range.map generatedId_injective

theorem isWord_of_mem_candidates {shapes : List (Shape α)} {c : Candidate α}
    (h : c ∈ candidates shapes) : IsWord c.id := by
  have hid := List.mem_map_of_mem (f := Candidate.id) h
  rw [ids_candidates] at hid
  obtain ⟨i, -, hi⟩ := List.mem_map.mp hid
  rw [← hi]
  exact isWord_generatedId i

end Candidates

/-! ## Edges -/

section Edges

variable {α : Type} [Metric α]

theorem mem_of_mem_nearest {cs : List (Candidate α)} {p : Point α} {h : Candidate α × α}
    (hmem : h ∈ nearest cs p) : h.1 ∈ cs := by
  rw [nearest, List.mem_mergeSort] at hmem
  obtain ⟨c, hc, rfl⟩ := List.mem_map.mp (List.mem_filter.mp hmem).1
  exact hc

/-- A connector joins two of the nodes. -/
theorem mem_of_joined? {cs : List (Candidate α)} {start stop : Point α} {a b : String}
    (h : joined? cs start stop = some (a, b)) :
    a ∈ cs.map Candidate.id ∧ b ∈ cs.map Candidate.id := by
  have hnear : ∀ p, ∀ e ∈ nearest cs p, e.1.id ∈ cs.map Candidate.id :=
    fun p e he => List.mem_map_of_mem (mem_of_mem_nearest he)
  rw [joined?] at h
  split at h
  · next c _ cs' d _ ds hstart hstop =>
    have hstarts := hnear start
    have hstops := hnear stop
    rw [hstart, List.forall_mem_cons] at hstarts
    rw [hstop, List.forall_mem_cons] at hstops
    split at h
    · cases h
      exact ⟨hstarts.1, hstops.1⟩
    -- Both ends are nearest to one node, and one of them moves on to its second nearest.
    · split at h
      · cases h
        exact ⟨hstarts.1, hstops.2 _ List.mem_cons_self⟩
      · cases h
        exact ⟨hstarts.2 _ List.mem_cons_self, hstops.1⟩
      · cases h
  · cases h

/-- The ends of an edge behind some shapes are nodes behind them. -/
theorem ends_of_inferEdge? {cs : List (Candidate α)} {s : Shape α} {e : Edge α}
    (h : inferEdge? cs s = some e) :
    e.source ∈ cs.map Candidate.id ∧ e.target ∈ cs.map Candidate.id := by
  simp only [inferEdge?, Option.bind_eq_bind, Option.bind_eq_some_iff] at h
  obtain ⟨⟨start, stop⟩, -, ⟨source, target⟩, hjoined, he⟩ := h
  cases he
  exact mem_of_joined? hjoined

end Edges

/-! ## The document behind some shapes -/

section Graph

variable {α : Type}

/-- A graph whose nodes are named by words can be written. -/
theorem areWritable_ofGraph {ns : List (Node α)} {es : List (Edge α)}
    (h : (Document.ofGraph ns es).IsGraph) (hwords : ∀ n ∈ ns, IsWord n.id) :
    Statement.AreWritable (Document.ofGraph ns es).statements := by
  have hnodes : ∀ id ∈ (Document.ofGraph ns es).nodeIds, IsNodeId id := by
    simp only [Document.nodeIds, Document.nodes_ofGraph, List.forall_mem_map]
    exact fun n hn => .inl (hwords n hn)
  have hends : ∀ e ∈ es, e.source ∈ (Document.ofGraph ns es).nodeIds ∧
      e.target ∈ (Document.ofGraph ns es).nodeIds := by
    simpa only [Document.edges_ofGraph] using h.ends
  constructor
  · rw [← Document.flatten, Document.flatten_ofGraph, List.forall_mem_append,
      List.forall_mem_map, List.forall_mem_map]
    exact ⟨fun n hn => .inl (hwords n hn),
      fun e he => ⟨hnodes _ (hends e he).1, hnodes _ (hends e he).2⟩⟩
  · exact h.nodup
  · exact fun e he => h.ends e (Document.mem_edges.mpr he)

variable [Scalar α]

@[simp] theorem rereadAll_append (ss ts : List (Statement α)) :
    Statement.rereadAll (ss ++ ts) = Statement.rereadAll ss ++ Statement.rereadAll ts := by
  induction ss with
  | nil => rfl
  | cons s ss ih => simp [Statement.rereadAll, ih]

/-- Statements that are read back one by one. -/
theorem rereadAll_map {β : Type} {f g : β → Statement α} (h : ∀ x, (f x).reread = [g x])
    (xs : List β) : Statement.rereadAll (xs.map f) = xs.map g := by
  induction xs with
  | nil => rfl
  | cons x xs ih => simp [Statement.rereadAll, h, ih]

/-- Nodes and edges are read back as nodes and edges. -/
theorem rereadAll_ofGraph (ns : List (Node α)) (es : List (Edge α)) :
    (⟨Statement.rereadAll (Document.ofGraph ns es).statements, []⟩ : Document α) =
      .ofGraph (ns.map Node.reread) (es.map Edge.reread) := by
  have hnodes := rereadAll_map (f := .node) (g := fun n => .node n.reread) (fun _ => rfl) ns
  have hedges := rereadAll_map (f := .edge) (g := fun e => .edge e.reread) (fun _ => rfl) es
  simp [Document.ofGraph, hnodes, hedges, Function.comp_def]

end Graph

section Decompile

variable {α : Type} [Metric α] (positions : Bool) (shapes : List (Shape α))

theorem inferDocument_eq : inferDocument positions shapes =
    .ofGraph ((candidates shapes).map (Candidate.node positions))
      (shapes.filterMap (inferEdge? (candidates shapes))) := by
  simp [inferDocument, Document.ofGraph]

/-- **What is behind any shapes is a graph.** -/
theorem isGraph_inferDocument : (inferDocument positions shapes).IsGraph := by
  have hids : (inferDocument positions shapes).nodeIds =
      (candidates shapes).map Candidate.id := by
    rw [Document.nodeIds, inferDocument_eq, Document.nodes_ofGraph, List.map_map]
    rfl
  constructor
  · rw [hids]
    exact nodup_ids_candidates shapes
  · intro e he
    rw [inferDocument_eq, Document.edges_ofGraph] at he
    obtain ⟨s, -, hs⟩ := List.mem_filterMap.mp he
    rw [hids]
    exact ends_of_inferEdge? hs

/-- **The document behind any shapes can be written.** -/
theorem areWritable_inferDocument :
    Statement.AreWritable (inferDocument positions shapes).statements := by
  have hgraph := isGraph_inferDocument positions shapes
  rw [inferDocument_eq] at hgraph ⊢
  refine areWritable_ofGraph hgraph fun n hn => ?_
  obtain ⟨c, hc, rfl⟩ := List.mem_map.mp hn
  exact isWord_of_mem_candidates hc

/-- **The text behind some shapes is read as the nodes and the edges behind them.** -/
theorem ofText_decompile_eq : (Document.ofText (decompile positions shapes) : Document α) =
    .ofGraph ((candidates shapes).map fun c => (c.node positions).reread)
      ((shapes.filterMap (inferEdge? (candidates shapes))).map Edge.reread) := by
  have hwritable := areWritable_inferDocument positions shapes
  have hreads : Reads false (decompile positions shapes).toList
      (lexemesAll (Statement.treeAll (inferDocument positions shapes).statements)) := by
    simpa [decompile, Document.render] using reads_renderAll 0 none _ hwritable.words .nil
  rw [Document.ofText_eq_rereadAll hwritable hreads, inferDocument_eq, rereadAll_ofGraph,
    List.map_map]
  rfl

/-- **The text behind some shapes loses nothing of the graph.**  It is read without a message,
as nodes with the same names, shapes and labels in the same order, and as edges with the same
ends, operators and labels in the same order.  Only a quote in a label has become an
apostrophe. -/
theorem ofText_decompile :
    let drawn : Document α := inferDocument positions shapes
    let read : Document α := Document.ofText (decompile positions shapes)
    read.errors = [] ∧
      read.nodes.map (fun n => (n.id, n.shape, n.label)) =
        drawn.nodes.map (fun n => (n.id, n.shape, n.label.map labelText)) ∧
      read.edges.map (fun e => (e.source, e.target, e.arrow, e.label)) =
        drawn.edges.map (fun e => (e.source, e.target, e.arrow, e.label.map labelText)) := by
  intro drawn read
  have hread := ofText_decompile_eq positions shapes
  have hdrawn := inferDocument_eq positions shapes
  simp only [drawn, read, hread, hdrawn, Document.nodes_ofGraph, Document.edges_ofGraph,
    List.map_map]
  exact ⟨rfl, rfl, rfl⟩

end Decompile

end Diagram
