import Diagram.Document.Codec
import Diagram.Proofs.JsonRecords
import Diagram.Proofs.RoundTrip

/-!
# Documents as JSON

A document that is written as JSON is read again as the same document, if its numbers are finite.
Each kind of record names its fields once, and from that list come all facts about it.  The places
of messages are counted in 32 bits, so it is asked of them that they fit.
-/

namespace Diagram

/-! ## Styles -/

namespace Style

/-- The fields of a style. -/
def fields (s : Style Float) : List (String × Option Json) :=
  [("fill", s.fill.map .string), ("stroke", s.stroke.map .string),
    ("strokeWidth", (s.number .strokeWidth).map .number), ("x", (s.number .x).map .number),
    ("y", (s.number .y).map .number), ("width", (s.number .width).map .number),
    ("height", (s.number .height).map .number), ("x1", (s.number .x1).map .number),
    ("y1", (s.number .y1).map .number), ("x2", (s.number .x2).map .number),
    ("y2", (s.number .y2).map .number)]

/-- The numbers of a style are finite. -/
def IsFinite (s : Style Float) : Prop := ∀ k, ∀ v ∈ s.number k, v.isFinite

theorem toJson_eq (s : Style Float) : s.toJson = .object (Record.ofFields s.fields) := by
  simp only [toJson, Record.fieldIfSet_eq, ← Record.ofFields_append]
  rfl

/-- A style is read as what it was written for. -/
theorem ofJson?_toJson {s : Style Float} (h : s.IsFinite) : Style.ofJson? s.toJson = some s := by
  have hnames : (s.fields.map Prod.fst).Nodup := by simp [fields]
  have number (k : NumberKey) := Record.optionalValue?_number (h k)
  rw [toJson_eq, ofJson?, Record.ofJson?_object]
  simp only [Option.bind_eq_bind, Option.bind_some, Record.optional_ofFields hnames]
  simp [fields, List.lookup_cons, number]
  rfl

theorem isReadable_toJson (s : Style Float) : s.toJson.isReadable := by
  rw [toJson_eq, Record.isReadable_ofFields]
  simp [fields, Json.isReadable]

/-- The field of a style that is left out when it is empty. -/
def field (s : Style Float) : Option Json := if s.isEmpty then none else some s.toJson

theorem styleField_eq (s : Style Float) : styleField s = Record.ofFields [("style", s.field)] := by
  rw [styleField, field]
  split <;> rfl

theorem elim_field {s : Style Float} (h : s.IsFinite) :
    s.field.elim (some {}) Style.ofJson? = some s := by
  rw [field]
  split
  · next hempty => rw [isEmpty_iff.mp hempty, Option.elim_none]
  · exact ofJson?_toJson h

theorem isReadable_field (s : Style Float) : ∀ v ∈ s.field, v.isReadable := by
  intro v hv
  rw [field] at hv
  split at hv
  · cases hv
  · cases hv
    exact s.isReadable_toJson

end Style

/-! ## Nodes and edges -/

/-- The fields of a node. -/
def Node.fields (n : Node Float) : List (String × Option Json) :=
  [("id", some (.string n.id)), ("label", n.label.map .string),
    ("shape", n.shape.map fun k => .string k.keyword), ("style", n.style.field)]

theorem Node.toRecord_eq (n : Node Float) : n.toRecord = Record.ofFields n.fields := by
  simp only [toRecord, Record.fieldIfSet_eq, Style.styleField_eq, List.append_assoc,
    ← Record.ofFields_append]
  rfl

@[simp] theorem NodeShape.ofName?_keyword (k : NodeShape) : ofName? k.keyword = some k := by
  cases k <;> rfl

@[simp] theorem Arrow.ofName?_name (a : Arrow) : ofName? a.name = some a := by
  cases a <;> rfl

theorem Node.ofJson?_fields (access : Json.Access) {n : Node Float} (h : n.style.IsFinite) :
    Node.ofJson? access (.object (Record.ofFields n.fields)) = some n := by
  have hnames : (n.fields.map Prod.fst).Nodup := by simp [fields]
  have hshape : Record.optionalValue? (fun v => (v.variant? access).bind NodeShape.ofName?)
      (n.shape.map fun k => .string k.keyword) = some n.shape :=
    Record.optionalValue?_map fun k _ => ⟨nofun, NodeShape.ofName?_keyword k⟩
  rw [ofJson?, Record.ofJson?_object]
  simp only [Option.bind_eq_bind, Option.bind_some, Record.optional_ofFields hnames,
    Record.required_ofFields hnames, Record.defaulted_ofFields hnames]
  simp [fields, List.lookup_cons, hshape, Style.elim_field h, Json.string?]

theorem Node.isReadable_fields (n : Node Float) : ∀ f ∈ n.fields, ∀ v ∈ f.2, v.isReadable := by
  have hstyle := n.style.isReadable_field
  simp_all [fields, Json.isReadable]

/-- The fields of an edge. -/
def Edge.fields (e : Edge Float) : List (String × Option Json) :=
  [("from", some (.string e.source)), ("to", some (.string e.target)),
    ("arrowType", some (.string e.arrow.name)), ("label", e.label.map .string),
    ("style", e.style.field)]

theorem Edge.toRecord_eq (e : Edge Float) : e.toRecord = Record.ofFields e.fields := by
  simp only [toRecord, Record.fieldIfSet_eq, Style.styleField_eq, List.append_assoc,
    ← Record.ofFields_append]
  rfl

theorem Edge.ofJson?_fields (access : Json.Access) {e : Edge Float} (h : e.style.IsFinite) :
    Edge.ofJson? access (.object (Record.ofFields e.fields)) = some e := by
  have hnames : (e.fields.map Prod.fst).Nodup := by simp [fields]
  rw [ofJson?, Record.ofJson?_object]
  simp only [Option.bind_eq_bind, Option.bind_some, Record.optional_ofFields hnames,
    Record.required_ofFields hnames, Record.defaulted_ofFields hnames]
  simp [fields, List.lookup_cons, Style.elim_field h, Json.string?, Json.variant?]

theorem Edge.isReadable_fields (e : Edge Float) : ∀ f ∈ e.fields, ∀ v ∈ f.2, v.isReadable := by
  have hstyle := e.style.isReadable_field
  simp_all [fields, Json.isReadable]

/-! ## Statements -/

namespace Statement

/-- The fields of a statement apart from its kind. -/
def fields : Statement Float → List (String × Option Json)
  | node n => n.fields
  | edge e => e.fields
  | group id style children =>
    [("id", some (.string id)), ("style", style.field),
      ("children", some (.array (allToJson children)))]
  | layout name => [("algorithm", some (.string name))]
  | freeArrow style => [("style", some style.toJson)]

/-- The kind of a statement. -/
def kind : Statement Float → String
  | node _ => "node"
  | edge _ => "edge"
  | group .. => "group"
  | layout _ => "layout"
  | freeArrow _ => "freeArrow"

theorem toJson_eq (st : Statement Float) :
    st.toJson = .object (Record.ofFields (("type", some (.string st.kind)) :: st.fields)) := by
  cases st with
  | node n =>
    rw [toJson, Node.toRecord_eq]
    rfl
  | edge e =>
    rw [toJson, Edge.toRecord_eq]
    rfl
  | group id style children =>
    rw [toJson, styleField, fields, Style.field]
    split <;> rfl
  | layout name => rfl
  | freeArrow style => rfl

theorem allToJson_eq (ss : List (Statement Float)) : allToJson ss = ss.map toJson := by
  induction ss with
  | nil => rfl
  | cons st ss ih => rw [allToJson, ih, List.map_cons]

theorem nodup_fields (st : Statement Float) :
    ((("type", some (Json.string st.kind)) :: st.fields).map Prod.fst).Nodup := by
  cases st <;> simp [fields, Node.fields, Edge.fields]

theorem kind_mem (st : Statement Float) : st.kind ∈ kinds := by
  cases st <;> simp [kind, kinds]

mutual

/-- All parts of a statement are readable. -/
theorem isReadable_toJson : ∀ st : Statement Float, st.toJson.isReadable
  | .node n => by
    rw [toJson_eq, Record.isReadable_ofFields, List.forall_mem_cons]
    exact ⟨by simp [Json.isReadable], n.isReadable_fields⟩
  | .edge e => by
    rw [toJson_eq, Record.isReadable_ofFields, List.forall_mem_cons]
    exact ⟨by simp [Json.isReadable], e.isReadable_fields⟩
  | .group id style children => by
    have hstyle := style.isReadable_field
    have hchildren := areItemsReadable_allToJson children
    rw [toJson_eq, Record.isReadable_ofFields]
    simp_all [fields, Json.isReadable]
  | .layout name => by
    rw [toJson_eq, Record.isReadable_ofFields]
    simp [fields, Json.isReadable]
  | .freeArrow style => by
    rw [toJson_eq, Record.isReadable_ofFields]
    simp [fields, Json.isReadable, style.isReadable_toJson]

theorem areItemsReadable_allToJson :
    ∀ ss : List (Statement Float), Json.areItemsReadable (allToJson ss)
  | [] => rfl
  | st :: ss => by
    rw [allToJson, Json.areItemsReadable, isReadable_toJson st, areItemsReadable_allToJson ss]
    rfl

end

/-- The kind of a statement is found. -/
theorem tagged?_toJson (access : Json.Access) (st : Statement Float) :
    Record.tagged? access "type" kinds st.toJson =
      some (st.kind, .object (Record.ofFields st.fields)) := by
  have hreadable := isReadable_toJson st
  rw [toJson_eq] at hreadable ⊢
  exact Record.tagged?_ofFields (nodup_fields st) (kind_mem st) hreadable

/-- **A statement is read as what it was written for**, however deep its groups nest. -/
theorem ofJsonWithin_toJson {fuel : Nat} {st : Statement Float} (access : Json.Access)
    (h : st.toJson.depth ≤ fuel) (hfinite : ∀ s ∈ st.flatten, s.style.IsFinite) :
    ofJsonWithin fuel access st.toJson = some st := by
  induction fuel generalizing st access with
  | zero =>
    rw [toJson_eq, Json.depth] at h
    omega
  | succ fuel ih =>
    have hnames := List.nodup_cons.mp (nodup_fields st) |>.2
    rw [ofJsonWithin, tagged?_toJson]
    cases st with
    | node n =>
      have hstyle : n.style.IsFinite := hfinite _ List.mem_cons_self
      simp [kind, fields, Node.ofJson?_fields _ hstyle]
    | edge e =>
      have hstyle : e.style.IsFinite := hfinite _ List.mem_cons_self
      simp [kind, fields, Edge.ofJson?_fields _ hstyle]
    | group id style children =>
      -- the members of the group are less deep than the group, so the fuel is enough for them
      have hchildren : ∀ st ∈ children, ofJsonWithin fuel .held st.toJson = some st := by
        intro st hst
        rw [toJson_eq, Record.depth_ofFields_le_iff] at h
        have hitems := h _ (List.mem_of_getElem? (i := 3) rfl) _ rfl
        rw [Json.depth, allToJson_eq] at hitems
        have hle := Json.depth_le_depthOfItems (List.mem_map_of_mem (f := toJson) hst)
        exact ih .held (by omega) fun s hs =>
          hfinite s (List.mem_cons_of_mem _ (mem_flattenAll.mpr ⟨st, hst, hs⟩))
      have hstyle : style.IsFinite := hfinite _ List.mem_cons_self
      have hlist := Json.list?_map hchildren
      rw [← allToJson_eq] at hlist
      simp only [kind, Option.bind_eq_bind, Option.bind_some, Record.ofJson?_object,
        Record.required_ofFields hnames, Record.defaulted_ofFields hnames]
      simp [fields, List.lookup_cons, Json.string?, Style.elim_field hstyle, hlist]
    | layout name =>
      simp only [kind, Option.bind_eq_bind, Option.bind_some, Record.ofJson?_object,
        Record.required_ofFields hnames]
      simp [fields, Json.string?]
    | freeArrow style =>
      simp only [kind, Option.bind_eq_bind, Option.bind_some, Record.ofJson?_object,
        Record.required_ofFields hnames]
      have hstyle : style.IsFinite := hfinite _ List.mem_cons_self
      simp [fields, Style.ofJson?_toJson hstyle]

end Statement

/-! ## Messages -/

/-- The places of a message can be counted in 32 bits. -/
structure Region.IsCounted (r : Region) : Prop where
  startLine : r.first.line < 2 ^ 32
  startColumn : r.first.column < 2 ^ 32
  endLine : r.last.line < 2 ^ 32
  endColumn : r.last.column < 2 ^ 32

theorem Json.count?_int {n : Nat} (h : n < 2 ^ 32) : Json.count? (.int n) = some n := by
  rw [count?, if_pos (by omega), Int.toNat_natCast]

/-- The fields of a place. -/
def Region.fields (r : Region) : List (String × Option Json) :=
  [("startLine", some (.int r.first.line)), ("startColumn", some (.int r.first.column)),
    ("endLine", some (.int r.last.line)), ("endColumn", some (.int r.last.column))]

theorem Region.toJson_eq (r : Region) : r.toJson = .object (Record.ofFields r.fields) := rfl

/-- The place of a message is read as what it was written for. -/
theorem Region.ofJson?_toJson {r : Region} (h : r.IsCounted) :
    Region.ofJson? r.toJson = some r := by
  have hnames : (r.fields.map Prod.fst).Nodup := by simp [fields]
  -- the bound is not to be unfolded, so it is rewritten away before anything is evaluated
  have count {name : String} {n : Nat} (hn : n < 2 ^ 32)
      (hname : r.fields.lookup name = some (some (.int n))) :
      (Record.ofFields r.fields).required name Json.count? = some n := by
    rw [Record.required_ofFields hnames, hname, Option.join_some, Option.bind_some,
      Json.count?_int hn]
  rw [toJson_eq, ofJson?, Record.ofJson?_object, Option.bind_eq_bind, Option.bind_some,
    count h.startLine rfl, count h.startColumn rfl, count h.endLine rfl, count h.endColumn rfl]
  rfl

/-- The fields of a message. -/
def ParseError.fields (e : ParseError) : List (String × Option Json) :=
  [("message", some (.string e.message)), ("location", e.location.map Region.toJson)]

theorem ParseError.toJson_eq (e : ParseError) :
    e.toJson = .object (Record.ofFields e.fields) := by
  simp only [toJson, Record.fieldIfSet_eq]
  rfl

/-- A message is read as what it was written for. -/
theorem ParseError.ofJson?_toJson {e : ParseError} (h : ∀ r ∈ e.location, r.IsCounted) :
    ParseError.ofJson? e.toJson = some e := by
  have hnames : (e.fields.map Prod.fst).Nodup := by simp [fields]
  have hlocation : Record.optionalValue? Region.ofJson? (e.location.map Region.toJson) =
      some e.location :=
    Record.optionalValue?_map fun r hr => ⟨nofun, Region.ofJson?_toJson (h r hr)⟩
  rw [toJson_eq, ofJson?, Record.ofJson?_object]
  simp only [Option.bind_eq_bind, Option.bind_some, Record.optional_ofFields hnames,
    Record.required_ofFields hnames]
  simp [fields, List.lookup_cons, Json.string?, hlocation]

/-! ## Documents -/

namespace Document

/-- The places of all messages can be counted in 32 bits. -/
def HasCountedPlaces (d : Document Float) : Prop :=
  ∀ e ∈ d.errors, ∀ r ∈ e.location, r.IsCounted

variable {d : Document Float}

/-- **A document is read as what it was written for.** -/
theorem ofJson?_toJson (h : d.HasCountedPlaces)
    (hfinite : Statement.AllNumbers (fun v => v.isFinite) d.statements) :
    Document.ofJson? d.toJson = some d := by
  have hstatements : Json.list? Statement.ofJson? (.array (d.statements.map Statement.toJson)) =
      some d.statements := by
    refine Json.list?_map fun st hst => ?_
    exact Statement.ofJsonWithin_toJson .direct (Nat.le_refl st.toJson.depth) fun s hs =>
      hfinite s (Statement.mem_flattenAll.mpr ⟨st, hst, hs⟩)
  have herrors := Json.list?_map fun e he => ParseError.ofJson?_toJson (h e he)
  rw [ofJson?, toJson, Record.ofJson?_object, Statement.allToJson_eq]
  simp [Record.required, Record.find, hstatements, herrors]

end Document

end Diagram
