import Diagram.Proofs.Rereading

/-!
# Printing and reading a document

Where every value can be written as it is, printing and reading a document gives the
document back.  In general a free arrow without properties is lost, and every number is
what its text is read as.
-/

namespace Diagram

open Syntax

variable {α β : Type}

/-! ## Changing the numbers -/

/-- A node whose numbers are changed. -/
def Node.mapNumbers (f : α → β) (n : Node α) : Node β where
  id := n.id
  label := n.label
  shape := n.shape
  style := n.style.mapNumbers f

/-- An edge whose numbers are changed. -/
def Edge.mapNumbers (f : α → β) (e : Edge α) : Edge β where
  source := e.source
  target := e.target
  arrow := e.arrow
  label := e.label
  style := e.style.mapNumbers f

mutual

/-- A statement whose numbers are changed. -/
def Statement.mapNumbers (f : α → β) : Statement α → Statement β
  | .node n => .node (n.mapNumbers f)
  | .edge e => .edge (e.mapNumbers f)
  | .group id style children => .group id (style.mapNumbers f) (mapNumbersAll f children)
  | .layout name => .layout name
  | .freeArrow style => .freeArrow (style.mapNumbers f)

/-- Statements whose numbers are changed. -/
def Statement.mapNumbersAll (f : α → β) : List (Statement α) → List (Statement β)
  | [] => []
  | s :: ss => Statement.mapNumbers f s :: mapNumbersAll f ss

end

/-- The style of a statement; a layout directive has none. -/
def Statement.style : Statement α → Style α
  | .node n => n.style
  | .edge e => e.style
  | .group _ style _ => style
  | .layout _ => {}
  | .freeArrow style => style

/-- The numbers of some statements, through all groups, satisfy a property. -/
def Statement.AllNumbers (p : α → Prop) (ss : List (Statement α)) : Prop :=
  ∀ s ∈ flattenAll ss, ∀ k, ∀ v ∈ s.style.number k, p v

theorem allNumbers_cons {p : α → Prop} (s : Statement α) (ss : List (Statement α)) :
    Statement.AllNumbers p (s :: ss) ↔ Statement.AllNumbers p [s] ∧ Statement.AllNumbers p ss := by
  simp only [Statement.AllNumbers, Statement.flattenAll, List.append_nil, List.mem_append, or_imp,
    forall_and]

theorem Style.mapNumbers_eq_iff {f g : α → β} {s : Style α} :
    s.mapNumbers f = s.mapNumbers g ↔ ∀ k, ∀ v ∈ s.number k, f v = g v := by
  constructor
  · intro h k v hv
    have hk : (s.mapNumbers f).number k = (s.mapNumbers g).number k := by rw [h]
    rw [number_mapNumbers, number_mapNumbers, hv] at hk
    exact Option.some.inj hk
  · intro h
    refine ext_keys (fun k => ?_) (fun k => by simp)
    rw [number_mapNumbers, number_mapNumbers]
    exact Option.map_congr (h k)

mutual

theorem mapNumbers_eq_iff {f g : α → β} : ∀ (st : Statement α),
    st.mapNumbers f = st.mapNumbers g ↔
      ∀ s ∈ st.flatten, ∀ k, ∀ v ∈ s.style.number k, f v = g v
  | .node n => by
    simp [Statement.mapNumbers, Node.mapNumbers, Style.mapNumbers_eq_iff, Statement.flatten,
      Statement.style]
  | .edge e => by
    simp [Statement.mapNumbers, Edge.mapNumbers, Style.mapNumbers_eq_iff, Statement.flatten,
      Statement.style]
  | .group id style children => by
    have hchildren := mapNumbersAll_eq_iff (f := f) (g := g) children
    simp [Statement.mapNumbers, Style.mapNumbers_eq_iff, Statement.flatten, hchildren,
      Statement.AllNumbers, Statement.style]
  | .layout name => by
    simp [Statement.mapNumbers, Statement.flatten, Statement.style]
  | .freeArrow style => by
    simp [Statement.mapNumbers, Style.mapNumbers_eq_iff, Statement.flatten, Statement.style]

/-- Two changes have the same effect when they agree on every number. -/
theorem mapNumbersAll_eq_iff {f g : α → β} : ∀ (ss : List (Statement α)),
    Statement.mapNumbersAll f ss = Statement.mapNumbersAll g ss ↔
      Statement.AllNumbers (fun v => f v = g v) ss
  | [] => by simp [Statement.mapNumbersAll, Statement.AllNumbers, Statement.flattenAll]
  | st :: ss => by
    have hfirst := mapNumbers_eq_iff (f := f) (g := g) st
    have hmore := mapNumbersAll_eq_iff (f := f) (g := g) ss
    rw [Statement.mapNumbersAll, Statement.mapNumbersAll, List.cons.injEq, hfirst, hmore,
      Statement.AllNumbers, Statement.AllNumbers, Statement.flattenAll]
    simp only [List.mem_append, or_imp, forall_and]

end

/-! ## Free arrows that set nothing -/

/-- Whether a statement is a free arrow that sets nothing. -/
def Statement.isSilent : Statement α → Bool
  | .freeArrow style => style.isEmpty
  | _ => false

mutual

/-- A statement, without the free arrows inside it that set nothing. -/
def Statement.prune : Statement α → Statement α
  | .group id style children => .group id style (pruneAll children)
  | s => s

/-- Statements without the free arrows that set nothing. -/
def Statement.pruneAll : List (Statement α) → List (Statement α)
  | [] => []
  | s :: ss => if s.isSilent then pruneAll ss else Statement.prune s :: pruneAll ss

end

mutual

theorem prune_eq_self : ∀ (st : Statement α), (∀ s ∈ st.flatten, s.isSilent = false) →
    st.prune = st
  | .group id style children, h => by
    have hchildren := pruneAll_eq_self children fun s hs => h s (by simp [Statement.flatten, hs])
    rw [Statement.prune, hchildren]
  | .node _, _ | .edge _, _ | .layout _, _ | .freeArrow _, _ => by
    simp [Statement.prune]

/-- Where every free arrow sets something, none is left out. -/
theorem pruneAll_eq_self : ∀ (ss : List (Statement α)),
    (∀ s ∈ Statement.flattenAll ss, s.isSilent = false) → Statement.pruneAll ss = ss
  | [], _ => rfl
  | st :: ss, h => by
    have hself : st ∈ Statement.flattenAll (st :: ss) := by
      cases st <;> simp [Statement.flattenAll, Statement.flatten]
    have hst : st.isSilent = false := h st hself
    have hfirst := prune_eq_self st fun s hs => h s (by simp [Statement.flattenAll, hs])
    have hmore := pruneAll_eq_self ss fun s hs => h s (by simp [Statement.flattenAll, hs])
    rw [Statement.pruneAll, hst, hfirst, hmore]
    rfl

end

/-- A style is empty when nothing is set under any key. -/
theorem Style.isEmpty_iff {s : Style α} : s.isEmpty ↔ s = {} := by
  constructor
  · intro h
    simp only [isEmpty, Bool.and_eq_true, Option.isNone_iff_eq_none] at h
    obtain ⟨⟩ := s
    simp_all
  · rintro rfl
    rfl

@[simp] theorem isEmpty_mapNumbers (f : α → β) (s : Style α) :
    (s.mapNumbers f).isEmpty = s.isEmpty := by
  simp [Style.isEmpty, Style.mapNumbers]

theorem isSilent_mapNumbers_prune (f : α → β) (s : Statement α) :
    (s.prune.mapNumbers f).isSilent = s.isSilent := by
  cases s <;> simp [Statement.prune, Statement.mapNumbers, Statement.isSilent]

mutual

theorem prune_mapNumbers_prune (f : α → β) : ∀ (st : Statement α),
    (st.prune.mapNumbers f).prune = st.prune.mapNumbers f
  | .group id style children => by
    have hchildren := pruneAll_mapNumbersAll_pruneAll f children
    rw [Statement.prune, Statement.mapNumbers, Statement.prune, hchildren]
  | .node _ | .edge _ | .layout _ | .freeArrow _ => by
    simp [Statement.prune, Statement.mapNumbers]

/-- Nothing is left out a second time. -/
theorem pruneAll_mapNumbersAll_pruneAll (f : α → β) : ∀ (ss : List (Statement α)),
    Statement.pruneAll (Statement.mapNumbersAll f (Statement.pruneAll ss)) =
      Statement.mapNumbersAll f (Statement.pruneAll ss)
  | [] => rfl
  | s :: ss => by
    have hmore := pruneAll_mapNumbersAll_pruneAll f ss
    rw [Statement.pruneAll]
    split
    · exact hmore
    · next hs =>
      rw [Statement.mapNumbersAll, Statement.pruneAll, isSilent_mapNumbers_prune, if_neg hs,
        prune_mapNumbers_prune f s, hmore]

end

mutual

theorem allNumbers_prune {p : α → Prop} : ∀ (st : Statement α),
    Statement.AllNumbers p [st.prune] ↔ Statement.AllNumbers p [st]
  | .group id style children => by
    have hchildren := allNumbers_pruneAll (p := p) children
    simp only [Statement.AllNumbers, Statement.prune, Statement.flattenAll, Statement.flatten,
      List.append_nil, List.forall_mem_cons, Statement.style] at hchildren ⊢
    rw [hchildren]
  | .node _ | .edge _ | .layout _ | .freeArrow _ => by
    simp [Statement.prune]

/-- The free arrows that are left out have no numbers. -/
theorem allNumbers_pruneAll {p : α → Prop} : ∀ (ss : List (Statement α)),
    Statement.AllNumbers p (Statement.pruneAll ss) ↔ Statement.AllNumbers p ss
  | [] => Iff.rfl
  | s :: ss => by
    have hfirst := allNumbers_prune (p := p) s
    have hmore := allNumbers_pruneAll (p := p) ss
    rw [Statement.pruneAll, allNumbers_cons s ss, ← hfirst, ← hmore]
    split
    · next hs =>
      have hnone : Statement.AllNumbers p [s.prune] := by
        cases s with
        | freeArrow style =>
          obtain rfl := Style.isEmpty_iff.mp hs
          intro t ht k v hv
          simp only [Statement.prune, Statement.flattenAll, Statement.flatten, List.append_nil,
            List.mem_singleton] at ht
          subst ht
          rw [Statement.style, Style.number_default] at hv
          cases hv
        | _ => cases hs
      exact (and_iff_right hnone).symm
    · exact allNumbers_cons _ _

end

/-! ## Values that can be written -/

/-- The values of a statement can be written as they are, apart from its numbers: labels
have no quotes, texts are colours and words, and properties of a node have a shape to stand
behind. -/
def Statement.HasLiterals : Statement α → Prop
  | .node n => (∀ l ∈ n.label, '"' ∉ l.toList) ∧ n.style.HasTextValues ∧
      (n.style.isEmpty = false → n.shape.isSome)
  | .edge e => (∀ l ∈ e.label, '"' ∉ l.toList) ∧ e.style.HasTextValues
  | .group _ style _ => style.HasTextValues
  | .layout _ => True
  | .freeArrow style => style.HasTextValues

/-- A label without quotes is written as it is. -/
theorem labelText_eq_self {label : String} (h : '"' ∉ label.toList) : labelText label = label := by
  have hmap : label.toList.map (fun c => if c = '"' then '\'' else c) = label.toList := by
    refine (List.map_congr_left fun c hc => if_neg ?_).trans (List.map_id _)
    rintro rfl
    exact h hc
  rw [labelText, hmap, String.ofList_toList]

theorem map_labelText_eq_self {label : Option String} (h : ∀ l ∈ label, '"' ∉ l.toList) :
    label.map labelText = label := by
  cases label with
  | none => rfl
  | some l => exact congrArg some (labelText_eq_self (h l rfl))

/-- A merged style is empty when both styles are. -/
theorem isEmpty_merge {s t : Style α} (hs : s.isEmpty) (ht : t.isEmpty) :
    (s.merge t).isEmpty := by
  rw [Style.isEmpty_iff] at *
  rw [hs, ht]
  rfl

variable [Scalar α]

/-- Of a style with writable texts something is written unless it is empty. -/
theorem literals_eq_nil_iff {s : Style α} (h : s.HasTextValues) :
    s.literals = [] ↔ s.isEmpty := by
  rw [Style.isEmpty_iff]
  constructor
  · intro hnil
    have hreread : s.mapNumbers Scalar.reread = {} := by
      rw [← Style.reread_eq_mapNumbers h, reread_of_nil hnil]
    refine Style.ext_keys (fun k => ?_) (fun k => ?_)
    · have hk : (s.mapNumbers Scalar.reread).number k = none := by
        rw [hreread, Style.number_default]
      rw [Style.number_mapNumbers] at hk
      rw [Style.number_default]
      exact Option.map_eq_none_iff.mp hk
    · rw [← Style.text_mapNumbers Scalar.reread, hreread]
  · rintro rfl
    rfl

theorem writtenShape_eq {n : Node α} (htexts : n.style.HasTextValues)
    (hshape : n.style.isEmpty = false → n.shape.isSome) : n.writtenShape = n.shape := by
  rw [Node.writtenShape]
  cases hs : n.shape with
  | some s => rfl
  | none =>
    have hempty : n.style.isEmpty = true := by
      by_contra hne
      have hsome := hshape (Bool.eq_false_iff.mpr hne)
      rw [hs] at hsome
      cases hsome
    simp [(literals_eq_nil_iff htexts).mpr hempty]

mutual

theorem reread_eq : ∀ (st : Statement α), (∀ s ∈ st.flatten, s.HasLiterals) → st.reread =
    if st.isSilent then [] else [st.prune.mapNumbers Scalar.reread]
  | .node n, h => by
    obtain ⟨hlabel, htexts, hshape⟩ : Statement.HasLiterals (.node n) :=
      h _ (by simp [Statement.flatten])
    simp [Statement.reread, Node.reread, Statement.isSilent, Statement.prune, Statement.mapNumbers,
      Node.mapNumbers, map_labelText_eq_self hlabel, writtenShape_eq htexts hshape,
      Style.reread_eq_mapNumbers htexts]
  | .edge e, h => by
    obtain ⟨hlabel, htexts⟩ : Statement.HasLiterals (.edge e) := h _ (by simp [Statement.flatten])
    simp [Statement.reread, Edge.reread, Statement.isSilent, Statement.prune, Statement.mapNumbers,
      Edge.mapNumbers, map_labelText_eq_self hlabel, Style.reread_eq_mapNumbers htexts]
  | .group id style children, h => by
    have htexts : style.HasTextValues :=
      h (.group id style children) (by simp [Statement.flatten])
    have hchildren := rereadAll_eq children fun s hs => h s (by simp [Statement.flatten, hs])
    simp [Statement.reread, Statement.isSilent, Statement.prune, Statement.mapNumbers, hchildren,
      Style.reread_eq_mapNumbers htexts]
  | .layout name, _ => by
    simp [Statement.reread, Statement.isSilent, Statement.prune, Statement.mapNumbers]
  | .freeArrow style, h => by
    have htexts : style.HasTextValues := h (.freeArrow style) (by simp [Statement.flatten])
    -- a free arrow for which nothing is written is the one statement that gets lost
    have hempty := literals_eq_nil_iff htexts
    simp [Statement.reread, Statement.isSilent, Statement.prune, Statement.mapNumbers, hempty,
      Style.reread_eq_mapNumbers htexts]

/-- **Statements whose values can be written are read back pruned, with each number replaced
by what its text is read as.** -/
theorem rereadAll_eq : ∀ (ss : List (Statement α)),
    (∀ s ∈ Statement.flattenAll ss, s.HasLiterals) → Statement.rereadAll ss =
      Statement.mapNumbersAll Scalar.reread (Statement.pruneAll ss)
  | [], _ => rfl
  | st :: ss, h => by
    have hfirst := reread_eq st fun s hs => h s (by simp [Statement.flattenAll, hs])
    have hmore := rereadAll_eq ss fun s hs => h s (by simp [Statement.flattenAll, hs])
    rw [Statement.rereadAll, hfirst, hmore, Statement.pruneAll]
    split
    · rfl
    · rw [Statement.mapNumbersAll]
      rfl

end

/-! ## Documents that can be written -/

/-- A whole number of at most `2 ^ 53`, or the negative zero. -/
def IsWhole (v : Float) : Prop := ∃ n : Int, n.natAbs ≤ 2 ^ 53 ∧ Scalar.unsigned v = (n : Float)

theorem isWhole_intCast {n : Int} (h : n.natAbs ≤ 2 ^ 53) : IsWhole n :=
  ⟨n, h, unsigned_intCast n⟩

/-- A document that can be written as it is. -/
structure Document.IsWritable (d : Document Float) : Prop where
  noErrors : d.errors = []
  names : Statement.AreWritable d.statements
  literals : ∀ s ∈ d.flatten, s.HasLiterals
  whole : Statement.AllNumbers IsWhole d.statements
  arrows : ∀ style ∈ d.freeArrows, style.isEmpty = false

/-- A document whose numbers are changed. -/
def Document.mapNumbers (f : α → β) (d : Document α) : Document β where
  statements := Statement.mapNumbersAll f d.statements
  errors := d.errors

/-- **A writable document is read back from its text**, where a zero loses its sign. -/
theorem ofText_render {d : Document Float} (h : d.IsWritable) :
    Document.ofText d.render = d.mapNumbers Scalar.unsigned := by
  have htree : Reads false d.render.toList (lexemesAll (Statement.treeAll d.statements)) := by
    simpa [Document.render] using reads_renderAll 0 none d.statements h.names.words .nil
  have hpruned : Statement.pruneAll d.statements = d.statements := by
    refine pruneAll_eq_self d.statements fun s hs => ?_
    cases s with
    | freeArrow style => exact h.arrows style (List.mem_filterMap.mpr ⟨_, hs, rfl⟩)
    | _ => rfl
  have hnumbers : Statement.mapNumbersAll Scalar.reread d.statements =
      Statement.mapNumbersAll Scalar.unsigned d.statements := by
    refine (mapNumbersAll_eq_iff d.statements).mpr fun s hs k v hv => ?_
    obtain ⟨n, hn, hv⟩ := h.whole s hs k v hv
    exact reread_of_whole hn hv
  rw [Document.ofText_eq_rereadAll h.names htree, rereadAll_eq d.statements h.literals, hpruned,
    hnumbers, Document.mapNumbers, h.noErrors]

theorem ofText_render_group :
    let d : Document Float :=
      ⟨[.group "web" { fill := some "#ffcc00" }
          [.node ⟨"api", some "API", some .circle, { x := some (-10 : Int) }⟩,
            .group "inner" {} [.node ⟨"web.store", none, none, {}⟩, .layout "grid"]],
        .edge ⟨"api", "web.store", .dotted, some "asks", { stroke := some "red" }⟩,
        .freeArrow { x1 := some (7 : Int) }], []⟩
    d.IsWritable ∧ Document.ofText d.render = d.mapNumbers Scalar.unsigned := by
  intro d
  have hapi : IsNodeId "api" := .inl (by decide)
  have hstore : IsNodeId "web.store" := .inr ⟨"web", "store", by decide, by decide, by decide⟩
  have hfill : IsTextValue "#ffcc00" :=
    .inl ⟨['f', 'f', 'c', 'c', '0', '0'], by decide, by decide, by decide, by decide⟩
  have hstroke : IsTextValue "red" := .inr (by decide)
  have hten : IsWhole (-10 : Int) := isWhole_intCast (by decide)
  have hseven : IsWhole (7 : Int) := isWhole_intCast (by decide)
  have hnone : ({} : Style Float).HasTextValues := by
    rintro (_ | _) v hv <;> cases hv
  have hwritable : d.IsWritable := by
    refine ⟨rfl, ⟨?_, by decide, ?_⟩, ?_, ?_, by decide⟩
    · simp only [d, Statement.flattenAll, Statement.flatten, List.cons_append, List.nil_append,
        List.append_nil, List.forall_mem_cons, List.not_mem_nil, false_implies, implies_true,
        Statement.HasWords, and_true]
      exact ⟨by decide, hapi, by decide, hstore, by decide, hapi, hstore⟩
    · simp [d, Statement.flattenAll, Statement.flatten, Statement.nodeIds, Statement.node?]
    · simp only [d, Document.flatten, Statement.flattenAll, Statement.flatten, List.cons_append,
        List.nil_append, List.append_nil, List.forall_mem_cons, List.not_mem_nil, false_implies,
        implies_true, Statement.HasLiterals, and_true]
      refine ⟨?_, ⟨by decide, ?_, by decide⟩, hnone, ⟨by decide, hnone, by decide⟩, trivial,
        ⟨by decide, ?_⟩, ?_⟩
      · rintro (_ | _) v hv <;> cases hv
        exact hfill
      · rintro (_ | _) v hv <;> cases hv
      · rintro (_ | _) v hv <;> cases hv
        exact hstroke
      · rintro (_ | _) v hv <;> cases hv
    · simp only [d, Statement.AllNumbers, Statement.flattenAll, Statement.flatten,
        List.cons_append, List.nil_append, List.append_nil, List.forall_mem_cons,
        List.not_mem_nil, false_implies, implies_true, Statement.style, and_true]
      refine ⟨?_, ?_, ?_, ?_, ?_, ?_, ?_⟩ <;> rintro (_ | _ | _ | _ | _ | _ | _ | _ | _) v hv <;>
        cases hv
      · exact hten
      · exact hseven
  exact ⟨hwritable, ofText_render hwritable⟩

end Diagram
