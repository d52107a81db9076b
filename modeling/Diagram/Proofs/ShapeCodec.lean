import Diagram.Canvas.Codec
import Diagram.Proofs.JsonRecords

/-!
# Shapes as JSON

A shape that is written as JSON is read again as the same shape, if its numbers are finite: its
identity from its digits in five groups, and its figure from the fields that are not its own.  Each
kind of record names its fields once, and from that list come all facts about it.
-/

namespace Diagram

variable {α : Type}

/-! ## Identities -/

namespace ShapeId

/-- The digits of an identity, counted from the highest. -/
def digit (id : ShapeId) (i : Nat) : Char := Json.hexDigit (id.value.toNat >>> (4 * (31 - i)))

/-- The highest digits of a number of 32 digits, put together. -/
theorem foldl_digits {n : Nat} (hn : n < 2 ^ 128) {k : Nat} (hk : k ≤ 32) :
    ((List.range k).map fun i => (n >>> (4 * (31 - i))) % 16).foldl (fun m v => 16 * m + v) 0 =
      n >>> (4 * (32 - k)) := by
  induction k with
  | zero =>
    rw [Nat.shiftRight_eq_div_pow, Nat.div_eq_of_lt hn]
    rfl
  | succ k ih =>
    have hshift : 4 * (32 - k) = 4 * (31 - k) + 4 := by omega
    rw [List.range_succ, List.map_append, List.foldl_append, ih (by omega), hshift,
      Nat.shiftRight_add, show 32 - (k + 1) = 31 - k by omega]
    simp only [List.map_cons, List.map_nil, List.foldl_cons, List.foldl_nil]
    rw [Nat.shiftRight_eq_div_pow _ 4]
    omega

/-- The digits of an identity are read as the identity. -/
theorem ofDigits?_digit (id : ShapeId) : ofDigits? ((List.range 32).map id.digit) = some id := by
  have hvalues : ((List.range 32).map id.digit).mapM Json.hexValue? =
      some ((List.range 32).map fun i => (id.value.toNat >>> (4 * (31 - i))) % 16) := by
    rw [List.mapM_map]
    simp only [Function.comp_def, digit, Json.hexValue?_hexDigit]
    exact List.mapM_pure
  rw [ofDigits?, if_pos (by rw [List.length_map, List.length_range]), hvalues, Option.map_some,
    foldl_digits id.value.isLt (Nat.le_refl 32), Nat.sub_self, Nat.mul_zero, Nat.shiftRight_zero,
    BitVec.ofNat_toNat, BitVec.setWidth_eq]

/-- Thirty-two digits in five groups with hyphens between them. -/
def hyphenated (f : Nat → Char) : List Char :=
  let part (start count : Nat) := (((List.range 32).map f).drop start).take count
  part 0 8 ++ '-' :: part 8 4 ++ '-' :: part 12 4 ++ '-' :: part 16 4 ++ '-' :: part 20 12

theorem hyphenated?_hyphenated (f : Nat → Char) :
    hyphenated? (hyphenated f) = some ((List.range 32).map f) := rfl

theorem toList_text (id : ShapeId) : id.text.toList = hyphenated id.digit := by
  rw [text, String.toList_intercalate]
  simp only [List.map_cons, List.map_nil, String.toList_ofList]
  rfl

/-- **The text of an identity is read as the identity.** -/
@[simp] theorem ofText?_text (id : ShapeId) : ofText? id.text = some id := by
  have hlength : (hyphenated id.digit).length = 36 := rfl
  -- a digit is not the first letter of the scheme
  have hscheme :
      ((hyphenated id.digit).take identityScheme.length).map Char.toLower ≠ identityScheme := by
    have hall : ∀ m < 16, ((Nat.toDigits 16 m).headD '0').toLower ≠ 'u' := by decide
    intro heq
    exact hall _ (Nat.mod_lt _ (by norm_num)) (List.head_eq_of_cons_eq heq)
  rw [ofText?, toList_text]
  simp only [hlength]
  rw [if_neg (by decide), if_neg (by simp), if_neg hscheme, hyphenated?_hyphenated]
  exact ofDigits?_digit id

@[simp] theorem ofJson?_text (id : ShapeId) : ShapeId.ofJson? (.string id.text) = some id := by
  rw [ofJson?, Json.string?, Option.bind_some, ofText?_text]

end ShapeId

/-! ## Points and paint -/

/-- The coordinates of a point. -/
def Point.numbers (q : Point α) : List α := [q.x, q.y]

namespace Point

/-- The fields of a point. -/
def fields (q : Point Float) : List (String × Option Json) :=
  [("x", some (.number q.x)), ("y", some (.number q.y))]

theorem toJson_eq (q : Point Float) : q.toJson = .object (Record.ofFields q.fields) := rfl

/-- A point is read as what it was written for. -/
theorem ofJson?_toJson {q : Point Float} (h : ∀ v ∈ q.numbers, v.isFinite) :
    Point.ofJson? q.toJson = some q := by
  have hnames : (q.fields.map Prod.fst).Nodup := by simp [fields]
  simp only [numbers, List.forall_mem_cons] at h
  rw [toJson_eq, ofJson?, Record.ofJson?_object]
  simp only [Option.bind_eq_bind, Option.bind_some, Record.required_ofFields hnames]
  simp [fields, List.lookup_cons, Json.number?_number h.1, Json.number?_number h.2.1]

theorem isReadable_toJson (q : Point Float) : q.toJson.isReadable := by
  rw [toJson_eq, Record.isReadable_ofFields]
  simp [fields]

theorem list?_pointsToJson {qs : List (Point Float)}
    (h : ∀ v ∈ qs.flatMap numbers, v.isFinite) :
    Json.list? Point.ofJson? (pointsToJson qs) = some qs :=
  Json.list?_map fun _ hq => ofJson?_toJson fun v hv => h v (List.mem_flatMap.mpr ⟨_, hq, hv⟩)

@[simp] theorem isReadable_pointsToJson (qs : List (Point Float)) :
    (pointsToJson qs).isReadable := by
  rw [pointsToJson, Json.isReadable, Json.areItemsReadable_iff, List.forall_mem_map]
  exact fun q _ => q.isReadable_toJson

end Point

namespace Paint

/-- The fields of paint. -/
def fields (c : Paint Float) : List (String × Option Json) :=
  [("stroke", some (.string c.stroke)), ("fill", some (.string c.fill)),
    ("strokeWidth", some (.number c.strokeWidth)), ("opacity", some (.number c.opacity)),
    ("dashed", some (.bool c.dashed))]

theorem toJson_eq (c : Paint Float) : c.toJson = .object (Record.ofFields c.fields) := rfl

/-- Paint is read as what it was written for. -/
theorem ofJson?_toJson {c : Paint Float} (hwidth : c.strokeWidth.isFinite)
    (hopacity : c.opacity.isFinite) : Paint.ofJson? c.toJson = some c := by
  have hnames : (c.fields.map Prod.fst).Nodup := by simp [fields]
  rw [toJson_eq, ofJson?, Record.ofJson?_object]
  simp only [Option.bind_eq_bind, Option.bind_some, Record.defaulted_ofFields hnames]
  simp [fields, List.lookup_cons, Json.number?_number hwidth, Json.number?_number hopacity,
    Json.string?, Json.bool?]

end Paint

/-! ## Figures -/

/-- The numbers of a figure. -/
def Figure.numbers : Figure α → List α
  | .rectangle w h r _ => [w, h, r]
  | .ellipse w h _ => [w, h]
  | .line qs .. | .arrow qs .. | .freehand qs => qs.flatMap Point.numbers
  | .text _ size => [size]

namespace Figure

/-- The kind of a figure. -/
def kind : Figure Float → String
  | .rectangle .. => "rectangle"
  | .ellipse .. => "ellipse"
  | .line .. => "line"
  | .arrow .. => "arrow"
  | .freehand _ => "freehand"
  | .text .. => "text"

/-- The fields of the two connections of a connector. -/
def connections (a b : Option ShapeId) : List (String × Option Json) :=
  [("startConnection", a.map fun i => .string i.text),
    ("endConnection", b.map fun i => .string i.text)]

/-- The fields of a figure apart from its kind. -/
def fields : Figure Float → List (String × Option Json)
  | .rectangle w h r l =>
    [("width", some (.number w)), ("height", some (.number h)), ("cornerRadius", some (.number r)),
      ("label", l.map .string)]
  | .ellipse w h l =>
    [("width", some (.number w)), ("height", some (.number h)), ("label", l.map .string)]
  | .line qs a b l =>
    ("points", some (pointsToJson qs)) :: connections a b ++ [("label", l.map .string)]
  | .arrow qs s e a b l =>
    [("points", some (pointsToJson qs)), ("startArrow", some (.bool s)),
      ("endArrow", some (.bool e))] ++ connections a b ++ [("label", l.map .string)]
  | .freehand qs => [("points", some (pointsToJson qs))]
  | .text t size => [("text", some (.string t)), ("fontSize", some (.number size))]

theorem toRecord_eq (g : Figure Float) : g.toRecord ShapeId.text =
    Record.ofFields (("type", some (.string g.kind)) :: g.fields) := by
  cases g <;>
    simp only [toRecord, labelField, connectionFields, Record.fieldIfSet_eq, List.append_assoc,
      ← Record.ofFields_append] <;>
    rfl

theorem nodup_fields (g : Figure Float) :
    ((("type", some (Json.string g.kind)) :: g.fields).map Prod.fst).Nodup := by
  cases g <;> simp [fields, connections]

theorem kind_mem (g : Figure Float) : g.kind ∈ figureKinds := by
  cases g <;> simp [kind, figureKinds]

/-- All parts of a figure are readable. -/
theorem isReadable_fields (g : Figure Float) : ∀ f ∈ g.fields, ∀ v ∈ f.2, v.isReadable := by
  cases g <;> simp [fields, connections, Json.isReadable]

/-- **A figure is read as what it was written for.** -/
theorem ofJson?_fields (access : Json.Access) {g : Figure Float}
    (hg : ∀ v ∈ g.numbers, v.isFinite) : Figure.ofJson? access
      (.object (Record.ofFields (("type", some (.string g.kind)) :: g.fields))) = some g := by
  have hnames := List.nodup_cons.mp g.nodup_fields |>.2
  have hreadable : (Json.object (Record.ofFields (("type", some (.string g.kind)) ::
      g.fields))).isReadable := by
    rw [Record.isReadable_ofFields, List.forall_mem_cons]
    exact ⟨by simp [Json.isReadable], g.isReadable_fields⟩
  have hconnection (i : Option ShapeId) :
      Record.optionalValue? ShapeId.ofJson? (i.map fun j => .string j.text) = some i :=
    Record.optionalValue?_map fun j _ => ⟨by simp, j.ofJson?_text⟩
  have hnumber (v : Float) (hv : v ∈ g.numbers) : (Json.number v).number? = some v :=
    Json.number?_number (hg v hv)
  rw [ofJson?, Record.tagged?_ofFields g.nodup_fields g.kind_mem hreadable]
  cases g with
  | line qs | arrow qs | freehand qs =>
    have hpoints := Point.list?_pointsToJson hg
    simp only [kind, Option.bind_eq_bind, Option.bind_some, Record.ofJson?_object,
      Record.optional_ofFields hnames, Record.required_ofFields hnames,
      Record.defaulted_ofFields hnames]
    simp [fields, connections, List.lookup_cons, hconnection, Json.bool?, hpoints]
  | _ =>
    simp only [numbers, List.forall_mem_cons] at hnumber
    simp only [kind, Option.bind_eq_bind, Option.bind_some, Record.ofJson?_object,
      Record.optional_ofFields hnames, Record.required_ofFields hnames,
      Record.defaulted_ofFields hnames]
    simp [fields, List.lookup_cons, hnumber, Json.string?]

end Figure

/-! ## Shapes -/

/-- The numbers of a shape. -/
def Shape.numbers (s : Shape α) : List α :=
  [s.x, s.y, s.rotation, s.paint.strokeWidth, s.paint.opacity] ++ s.figure.numbers

namespace Shape

/-- The fields of a shape that are not its figure's. -/
def ownFields (s : Shape Float) : List (String × Option Json) :=
  [("id", some (.string s.id.text)), ("x", some (.number s.x)), ("y", some (.number s.y)),
    ("rotation", some (.number s.rotation)), ("style", some s.paint.toJson)]

/-- The fields of a shape. -/
def fields (s : Shape Float) : List (String × Option Json) :=
  s.ownFields ++ ("type", some (.string s.figure.kind)) :: s.figure.fields

theorem toJson_eq (s : Shape Float) : s.toJson = .object (Record.ofFields s.fields) := by
  rw [fields, Record.ofFields_append, ← Figure.toRecord_eq]
  rfl

theorem nodup_fields (s : Shape Float) : (s.fields.map Prod.fst).Nodup := by
  obtain ⟨id, x, y, rotation, paint, figure⟩ := s
  cases figure <;> simp [fields, ownFields, Figure.fields, Figure.connections]

/-- What is not a shape's own is its figure's. -/
theorem filter_fields (s : Shape Float) :
    (Record.ofFields s.fields).filter
        (fun e => !(["id", "x", "y", "rotation", "style"].contains e.1)) =
      Record.ofFields (("type", some (.string s.figure.kind)) :: s.figure.fields) := by
  rw [Record.filter_ofFields (fun n => !(["id", "x", "y", "rotation", "style"].contains n)), fields,
    List.filter_append]
  have hown : s.ownFields.filter (fun f => !(["id", "x", "y", "rotation", "style"].contains f.1)) =
      [] := by
    simp [ownFields]
  rw [hown, List.nil_append, List.filter_eq_self.mpr]
  cases s.figure <;> simp [Figure.fields, Figure.connections]

/-- **A shape is read as what it was written for.** -/
theorem ofJson?_toJson {s : Shape Float} (h : ∀ v ∈ s.numbers, v.isFinite) :
    Shape.ofJson? s.toJson = some s := by
  have hnames := s.nodup_fields
  simp only [numbers, List.cons_append, List.nil_append, List.forall_mem_cons] at h
  obtain ⟨hx, hy, hrotation, hwidth, hopacity, hfigure⟩ := h
  rw [toJson_eq, ofJson?]
  simp only [Option.bind_eq_bind, Record.required_ofFields hnames,
    Record.defaulted_ofFields hnames, filter_fields, Figure.ofJson?_fields _ hfigure]
  simp [fields, ownFields, List.lookup_cons, Json.number?_number hx, Json.number?_number hy,
    Json.number?_number hrotation, Paint.ofJson?_toJson hwidth hopacity]

/-- Shapes as one JSON value. -/
def listToJson (shapes : List (Shape Float)) : Json := .array (shapes.map toJson)

/-- Shapes are read as what they were written for. -/
theorem list?_listToJson {shapes : List (Shape Float)}
    (h : ∀ s ∈ shapes, ∀ v ∈ s.numbers, v.isFinite) :
    Json.list? Shape.ofJson? (listToJson shapes) = some shapes :=
  Json.list?_map fun s hs => ofJson?_toJson (h s hs)

end Shape

end Diagram
