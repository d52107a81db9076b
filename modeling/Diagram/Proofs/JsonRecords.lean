import Diagram.Json.Basic
import Mathlib

/-!
# Records that are written and read

A record is written field by field, and a field that is not set is left out.  So a record is the
list of its fields, each with the value that it may have, and where the names are all different
every field is found under its name, wherever it stands.  A record of several kinds is held as a
whole until its kind is known, for which every part of it has to be readable.
-/

namespace Diagram

/-! ## Parts of values -/

namespace Json

/-- A hexadecimal digit is read as its value. -/
theorem hexValue?_hexDigit (n : Nat) : hexValue? (hexDigit n) = some (n % 16) := by
  have hall : ∀ m < 16, hexValue? ((Nat.toDigits 16 m).headD '0') = some m := by decide
  exact hall (n % 16) (Nat.mod_lt n (by norm_num))

theorem number_of_isFinite {x : Float} (h : x.isFinite) : number x = float x := if_pos h

/-- A number that is finite is read as it is. -/
theorem number?_number {x : Float} (h : x.isFinite) : number? (number x) = some x := by
  rw [number_of_isFinite h, number?]

@[simp] theorem isReadable_number (x : Float) : (number x).isReadable = true := by
  rw [number]
  split <;> rfl

@[simp] theorem depth_number (x : Float) : (number x).depth = 0 := by
  rw [number]
  split <;> rfl

theorem areItemsReadable_iff {items : List Json} :
    areItemsReadable items ↔ ∀ v ∈ items, v.isReadable := by
  induction items with
  | nil => simp [areItemsReadable]
  | cons v vs ih => rw [areItemsReadable, Bool.and_eq_true, ih, List.forall_mem_cons]

theorem areEntriesReadable_iff {entries : List (String × Json)} :
    areEntriesReadable entries ↔ ∀ e ∈ entries, e.2.isReadable := by
  induction entries with
  | nil => simp [areEntriesReadable]
  | cons e es ih => rw [areEntriesReadable, Bool.and_eq_true, ih, List.forall_mem_cons]

theorem depth_le_depthOfItems {v : Json} {items : List Json} (h : v ∈ items) :
    v.depth ≤ depthOfItems items := by
  induction items with
  | nil => cases h
  | cons w vs ih =>
    rw [depthOfItems]
    rcases List.mem_cons.mp h with rfl | h
    · exact le_max_left _ _
    · exact (ih h).trans (le_max_right _ _)

theorem depthOfEntries_le_iff {entries : List (String × Json)} {n : Nat} :
    depthOfEntries entries ≤ n ↔ ∀ e ∈ entries, e.2.depth ≤ n := by
  induction entries with
  | nil => simp [depthOfEntries]
  | cons e es ih => rw [depthOfEntries, max_le_iff, ih, List.forall_mem_cons]

/-- Items that are read one by one. -/
theorem list?_map {β : Type} {read : Json → Option β} {write : β → Json} {xs : List β}
    (h : ∀ x ∈ xs, read (write x) = some x) : list? read (.array (xs.map write)) = some xs := by
  rw [list?]
  induction xs with
  | nil => rfl
  | cons x xs ih =>
    rw [List.forall_mem_cons] at h
    rw [List.map_cons, List.mapM_cons, h.1, ih h.2]
    rfl

end Json

/-! ## Fields -/

namespace Record

/-- The record of the fields that are set. -/
def ofFields (fields : List (String × Option Json)) : Record :=
  fields.filterMap fun f => f.2.map (f.1, ·)

variable {β : Type} {name : String} {fields : List (String × Option Json)}

@[simp] theorem ofFields_append (fields more : List (String × Option Json)) :
    ofFields (fields ++ more) = ofFields fields ++ ofFields more := List.filterMap_append

@[simp] theorem ofFields_some (name : String) (v : Json) :
    ofFields ((name, some v) :: fields) = (name, v) :: ofFields fields := rfl

theorem fieldIfSet_eq (write : β → Json) (v : Option β) :
    fieldIfSet name write v = ofFields [(name, v.map write)] := by
  cases v <;> rfl

theorem mem_ofFields {e : String × Json} :
    e ∈ ofFields fields ↔ (e.1, some e.2) ∈ fields := by
  simp only [ofFields, List.mem_filterMap, Option.map_eq_some_iff]
  constructor
  · rintro ⟨⟨k, v⟩, hf, w, rfl, rfl⟩
    exact hf
  · intro h
    exact ⟨_, h, e.2, rfl, rfl⟩

theorem forall_mem_ofFields {P : Json → Prop} :
    (∀ e ∈ ofFields fields, P e.2) ↔ ∀ f ∈ fields, ∀ v ∈ f.2, P v := by
  simp only [mem_ofFields, Prod.forall, Option.mem_def]
  constructor
  · rintro h k _ hf v rfl
    exact h k v hf
  · intro h k v hf
    exact h k _ hf v rfl

theorem filter_ofFields (keep : String → Bool) :
    (ofFields fields).filter (fun e => keep e.1) =
      ofFields (fields.filter (fun f => keep f.1)) := by
  induction fields with
  | nil => rfl
  | cons f fields ih =>
    obtain ⟨k, v⟩ := f
    cases v with
    | none =>
      have hskip : ofFields ((k, none) :: fields) = ofFields fields := rfl
      rw [hskip, ih, List.filter_cons]
      split <;> rfl
    | some v =>
      rw [ofFields_some, List.filter_cons, List.filter_cons, ih]
      dsimp only
      split <;> rfl

/-- **Every field is found under its name**, where the names are all different. -/
theorem find_ofFields (hnames : (fields.map Prod.fst).Nodup) (name : String) :
    (ofFields fields).find name = some (fields.lookup name).join := by
  have hfilter : fields.filter (fun f => f.1 == name) =
      (fields.lookup name).toList.map fun v => (name, v) := by
    induction fields with
    | nil => rfl
    | cons f fields ih =>
      obtain ⟨k, v⟩ := f
      rw [List.map_cons, List.nodup_cons] at hnames
      by_cases hk : k = name
      · subst hk
        have hrest : fields.filter (fun f => f.1 == k) = [] := by
          refine List.filter_eq_nil_iff.mpr fun g hg heq => hnames.1 ?_
          exact List.mem_map.mpr ⟨g, hg, beq_iff_eq.mp heq⟩
        simp [hrest]
      · have hne : (name == k) = false := by simpa using Ne.symm hk
        rw [List.filter_cons_of_neg (by simpa using hk), ih hnames.2, List.lookup_cons, hne]
  rw [find, filter_ofFields (· == name), hfilter]
  cases fields.lookup name with
  | none => rfl
  | some v => cases v <;> rfl

theorem ofJson?_object (names : List String) (least : Nat) (r : Record) :
    ofJson? names least (.object r) = some r := rfl

/-- A value that may be absent or null, read. -/
def optionalValue? (read : Json → Option β) : Option Json → Option (Option β)
  | none => some none
  | some .null => some none
  | some v => (read v).map some

theorem optional_ofFields (hnames : (fields.map Prod.fst).Nodup) (name : String)
    (read : Json → Option β) :
    (ofFields fields).optional name read = optionalValue? read (fields.lookup name).join := by
  rw [optional, find_ofFields hnames]
  cases (fields.lookup name).join with
  | none => rfl
  | some v => cases v <;> rfl

theorem required_ofFields (hnames : (fields.map Prod.fst).Nodup) (name : String)
    (read : Json → Option β) :
    (ofFields fields).required name read = (fields.lookup name).join.bind read := by
  rw [required, find_ofFields hnames]
  cases (fields.lookup name).join <;> rfl

theorem defaulted_ofFields (hnames : (fields.map Prod.fst).Nodup) (name : String) (value : β)
    (read : Json → Option β) : (ofFields fields).defaulted name value read =
      (fields.lookup name).join.elim (some value) read := by
  rw [defaulted, find_ofFields hnames]
  cases (fields.lookup name).join <;> rfl

theorem optionalValue?_map {read : Json → Option β} {write : β → Json} {x : Option β}
    (hread : ∀ b ∈ x, write b ≠ .null ∧ read (write b) = some b) :
    optionalValue? read (x.map write) = some x := by
  cases x with
  | none => rfl
  | some b =>
    obtain ⟨hnull, hread⟩ := hread b rfl
    rw [Option.map_some]
    cases hw : write b with
    | null => exact absurd hw hnull
    | _ => rw [optionalValue?, ← hw, hread, Option.map_some]; simp

@[simp] theorem optionalValue?_string (x : Option String) :
    optionalValue? Json.string? (x.map .string) = some x := by
  cases x <;> rfl

theorem optionalValue?_number {x : Option Float} (h : ∀ v ∈ x, v.isFinite) :
    optionalValue? Json.number? (x.map .number) = some x := by
  refine optionalValue?_map fun v hv => ⟨?_, Json.number?_number (h v hv)⟩
  rw [Json.number_of_isFinite (h v hv)]
  exact nofun

/-! ## Records as values -/

theorem isReadable_ofFields : (Json.object (ofFields fields)).isReadable ↔
    ∀ f ∈ fields, ∀ v ∈ f.2, v.isReadable := by
  rw [Json.isReadable, Json.areEntriesReadable_iff]
  exact forall_mem_ofFields (P := fun v => v.isReadable)

theorem depth_ofFields_le_iff {n : Nat} : (Json.object (ofFields fields)).depth ≤ n + 1 ↔
    ∀ f ∈ fields, ∀ v ∈ f.2, v.depth ≤ n := by
  rw [Json.depth, Nat.add_le_add_iff_right, Json.depthOfEntries_le_iff]
  exact forall_mem_ofFields (P := fun v => v.depth ≤ n)

/-- **The kind of a record is found under its tag**, and the other fields are left. -/
theorem tagged?_ofFields {access : Json.Access} {tag kind : String} {kinds : List String}
    (hnames : ((tag, some (Json.string kind)) :: fields).map Prod.fst |>.Nodup)
    (hkind : kind ∈ kinds)
    (hreadable : (Json.object (ofFields ((tag, some (.string kind)) :: fields))).isReadable) :
    tagged? access tag kinds (.object (ofFields ((tag, some (.string kind)) :: fields))) =
      some (kind, .object (ofFields fields)) := by
  have hrest : fields.filter (fun f => f.1 != tag) = fields := by
    rw [List.map_cons, List.nodup_cons] at hnames
    refine List.filter_eq_self.mpr fun f hf => bne_iff_ne.mpr fun heq => hnames.1 ?_
    exact List.mem_map.mpr ⟨f, hf, heq⟩
  rw [tagged?, if_pos hreadable]
  simp only [required_ofFields hnames, List.lookup_cons, beq_self_eq_true, Option.join_some,
    Option.bind_some]
  rw [Json.tag?, if_pos (List.contains_iff_mem.mpr hkind), filter_ofFields (· != tag),
    List.filter_cons_of_neg (by simp), hrest]
  rfl

end Record

end Diagram
