import Diagram.Proofs.RoundTrip

/-!
# Empty lines between statements

The empty line that stands where the kind of statement changes is written also around free
arrows for which nothing else is written.  So the text of statements changes when these are
left out, and it does exactly when one of them stands neither behind nor in front of another
free arrow.
-/

namespace Diagram

variable {α β : Type}

/-! ## Spaced statements -/

/-- The kind of the first statement for which something is written. -/
def Statement.nextKind? (ss : List (Statement α)) : Option String :=
  (pruneAll ss).head?.map kindName

/-- A free arrow for which nothing is written is next to one for which something is, or
stands alone in its block. -/
def Statement.JoinsArrow (previous : Option String) (ss : List (Statement α)) : Prop :=
  previous = some "arrow" ∨ nextKind? ss = some "arrow" ∨ (previous = none ∧ nextKind? ss = none)

mutual

/-- The statements inside a statement are spaced. -/
def Statement.IsSpaced : Statement α → Prop
  | .group _ _ children => AreSpaced none children
  | .node _ | .edge _ | .layout _ | .freeArrow _ => True

/-- Every free arrow for which nothing is written joins another one, in all groups.  The
kind of the statement in front is given. -/
def Statement.AreSpaced (previous : Option String) : List (Statement α) → Prop
  | [] => True
  | s :: ss => (s.isSilent → JoinsArrow previous ss) ∧ Statement.IsSpaced s ∧
      AreSpaced (some s.kindName) ss

end

/-! ## Comparing texts -/

/-- The new text is at most as long as the old one, and it is the old one exactly under the
given condition. -/
structure Shrinks (new old : String) (exact : Prop) : Prop where
  length_le : new.length ≤ old.length
  of_length : old.length ≤ new.length → exact
  eq_of : exact → new = old

namespace Shrinks

variable {a b c d : String} {P Q : Prop}

theorem refl (a : String) : Shrinks a a True := ⟨Nat.le_refl _, fun _ => trivial, fun _ => rfl⟩

/-- A shorter text is another one. -/
theorem of_lt (h : a.length < b.length) (hP : ¬P) : Shrinks a b P := by
  refine ⟨Nat.le_of_lt h, fun hlength => ?_, fun hexact => absurd hexact hP⟩
  omega

theorem append (h : Shrinks a b P) (h' : Shrinks c d Q) : Shrinks (a ++ c) (b ++ d) (P ∧ Q) := by
  have hle := h.length_le
  have hle' := h'.length_le
  refine ⟨?_, ?_, ?_⟩
  · simp only [String.length_append]
    omega
  · intro hlength
    simp only [String.length_append] at hlength
    exact ⟨h.of_length (by omega), h'.of_length (by omega)⟩
  · rintro ⟨hP, hQ⟩
    rw [h.eq_of hP, h'.eq_of hQ]

theorem trans (h : Shrinks a b P) (h' : Shrinks b c Q) : Shrinks a c (P ∧ Q) := by
  have hle := h.length_le
  have hle' := h'.length_le
  refine ⟨hle.trans hle', ?_, ?_⟩
  · intro hlength
    exact ⟨h.of_length (by omega), h'.of_length (by omega)⟩
  · rintro ⟨hP, hQ⟩
    rw [h.eq_of hP, h'.eq_of hQ]

theorem congr (h : Shrinks a b P) (hPQ : P ↔ Q) : Shrinks a b Q :=
  ⟨h.length_le, fun hlength => hPQ.mp (h.of_length hlength), fun hQ => h.eq_of (hPQ.mpr hQ)⟩

/-- The new text is the old one exactly under the condition. -/
theorem iff (h : Shrinks a b P) : a = b ↔ P := by
  constructor
  · rintro rfl
    exact h.of_length (Nat.le_refl _)
  · exact h.eq_of

end Shrinks

/-! ## Silent free arrows -/

/-- The empty line in front of a statement. -/
def gapText (previous : Option String) (kind : String) : String :=
  if needsGap previous kind then "\n" else ""

/-- Between statements of one kind there is no empty line. -/
@[simp] theorem gapText_self (kind : String) : gapText (some kind) kind = "" := by
  simp [gapText, needsGap]

theorem gapText_of_ne {p kind : String} (h : p ≠ kind) : gapText (some p) kind = "\n" := by
  simp [gapText, needsGap, h]

/-- The empty line behind a statement of another kind than the next one. -/
theorem length_gapText_le {previous : Option String} {other : String}
    (h : previous ≠ some other) (kind : String) :
    (gapText previous kind).length ≤ (gapText previous other).length := by
  cases previous with
  | none => exact Nat.le_refl _
  | some p =>
    have hne : p ≠ other := by
      rintro rfl
      exact h rfl
    rw [gapText_of_ne hne, gapText]
    split <;> decide

/-- A detour over a free arrow adds empty lines unless one of the ends is a free arrow. -/
theorem shrinks_gapText (previous : Option String) (kind : String) :
    Shrinks (gapText previous kind) (gapText previous "arrow" ++ gapText (some "arrow") kind)
      (previous = some "arrow" ∨ kind = "arrow") := by
  by_cases hkind : kind = "arrow"
  · subst hkind
    rw [gapText_self, String.append_empty]
    exact (Shrinks.refl _).congr (by simp)
  by_cases hprevious : previous = some "arrow"
  · subst hprevious
    rw [gapText_self, String.empty_append]
    exact (Shrinks.refl _).congr (by simp)
  · refine Shrinks.of_lt ?_ (by simp [hkind, hprevious])
    have hle := length_gapText_le hprevious kind
    have hbehind : (gapText (some "arrow") kind).length = 1 := by
      rw [gapText_of_ne (Ne.symm hkind)]
      rfl
    rw [String.length_append]
    omega

@[simp] theorem kindName_prune (s : Statement α) : s.prune.kindName = s.kindName := by
  cases s <;> simp [Statement.prune, Statement.kindName]

variable [Scalar α] [Scalar β]

theorem renderAll_cons (depth : Nat) (previous : Option String) (s : Statement α)
    (ss : List (Statement α)) : Statement.renderAll depth previous (s :: ss) =
      gapText previous s.kindName ++ Statement.render depth s ++
        Statement.renderAll depth (some s.kindName) ss := rfl

/-- The empty lines around a free arrow for which nothing else is written. -/
theorem shrinks_renderAll (depth : Nat) (previous : Option String) (ss : List (Statement α)) :
    Shrinks (Statement.renderAll depth previous (Statement.pruneAll ss))
      (gapText previous "arrow" ++
        Statement.renderAll depth (some "arrow") (Statement.pruneAll ss))
      (Statement.JoinsArrow previous ss) := by
  rw [Statement.JoinsArrow, Statement.nextKind?]
  -- The arrow leaves an empty line behind unless its neighbours are apart anyway.
  cases Statement.pruneAll ss with
  | nil =>
    have hempty (p : Option String) : Statement.renderAll depth p ([] : List (Statement α)) = "" :=
      rfl
    rw [hempty, hempty, String.append_empty]
    cases previous with
    | none => exact (Shrinks.refl "").congr (by simp)
    | some p =>
      by_cases hp : p = "arrow"
      · subst hp
        rw [gapText_self]
        exact (Shrinks.refl "").congr (by simp)
      · rw [gapText_of_ne hp]
        exact Shrinks.of_lt (by decide) (by simp [hp])
  | cons s ts =>
    have hgap := shrinks_gapText previous s.kindName
    have hall := hgap.append (Shrinks.refl (Statement.render depth s ++
      Statement.renderAll depth (some s.kindName) ts))
    simp only [renderAll_cons, String.append_assoc] at hall ⊢
    exact hall.congr (by simp)

/-- Nothing is written for a free arrow that sets nothing. -/
theorem render_of_isSilent (depth : Nat) {s : Statement α} (h : s.isSilent) :
    Statement.render depth s = "" ∧ s.kindName = "arrow" := by
  cases s with
  | freeArrow style =>
    obtain rfl := Style.isEmpty_iff.mp h
    exact ⟨rfl, rfl⟩
  | _ => cases h

mutual

theorem shrinks_prune (depth : Nat) : ∀ (st : Statement α),
    Shrinks (Statement.render depth st.prune) (Statement.render depth st) st.IsSpaced
  | .group id style children => by
    have hchildren := shrinks_pruneAll (depth + 1) none children
    rw [Statement.prune, Statement.render, Statement.render, Statement.IsSpaced]
    have hall := ((Shrinks.refl (indentation depth ++ "group " ++ id ++ style.renderList ++
      " \x7b\n")).append hchildren).append (Shrinks.refl (indentation depth ++ "\x7d\n"))
    simp only [String.append_assoc] at hall ⊢
    exact hall.congr (by simp)
  | .node _ | .edge _ | .layout _ | .freeArrow _ => by
    simpa [Statement.prune, Statement.IsSpaced] using Shrinks.refl _

/-- Without the silent free arrows the text gets shorter, or stays when the statements are
spaced. -/
theorem shrinks_pruneAll (depth : Nat) (previous : Option String) : ∀ (ss : List (Statement α)),
    Shrinks (Statement.renderAll depth previous (Statement.pruneAll ss))
      (Statement.renderAll depth previous ss) (Statement.AreSpaced previous ss)
  | [] => by
    rw [Statement.AreSpaced]
    exact Shrinks.refl _
  | s :: ss => by
    have hmore := shrinks_pruneAll depth (some s.kindName) ss
    have hfirst := shrinks_prune depth s
    rw [Statement.AreSpaced, Statement.pruneAll, renderAll_cons]
    by_cases hs : s.isSilent
    · obtain ⟨hrender, hkind⟩ := render_of_isSilent depth hs
      have hinside : s.IsSpaced := by
        rw [hrender] at hfirst
        exact hfirst.of_length (Nat.zero_le _)
      rw [hkind] at hmore
      rw [if_pos hs, hrender, hkind, String.append_empty]
      have hall := (shrinks_renderAll depth previous ss).trans
        ((Shrinks.refl (gapText previous "arrow")).append hmore)
      exact hall.congr (by simp [hs, hinside])
    · rw [if_neg hs, renderAll_cons, kindName_prune]
      have hall := ((Shrinks.refl (gapText previous s.kindName)).append hfirst).append hmore
      exact hall.congr (by simp [hs])

end

/-- **Leaving out the silent free arrows keeps the text exactly when the statements are
spaced.** -/
theorem renderAll_pruneAll_iff {depth : Nat} {previous : Option String}
    {ss : List (Statement α)} :
    Statement.renderAll depth previous (Statement.pruneAll ss) =
        Statement.renderAll depth previous ss ↔ Statement.AreSpaced previous ss :=
  (shrinks_pruneAll depth previous ss).iff

/-! ## Changing the numbers -/

section Numbers

variable {f : α → β}

theorem literals_mapNumbers (hf : ∀ v, Style.numberText (f v) = Style.numberText v)
    (s : Style α) : (s.mapNumbers f).literals = s.literals := by
  have hvalue : (s.mapNumbers f).valueText = s.valueText := by
    funext key
    cases key with
    | number k =>
      rw [Style.valueText, Style.valueText, Style.number_mapNumbers, Option.map_map]
      exact congrArg (Option.map · _) (funext hf)
    | text k => exact Style.text_mapNumbers f s k
  rw [Style.literals, Style.literals, Style.entries, Style.entries, hvalue]

theorem render_style_mapNumbers (hf : ∀ v, Style.numberText (f v) = Style.numberText v)
    (s : Style α) : (s.mapNumbers f).render = s.render := by
  rw [Style.render, Style.render, literals_mapNumbers hf]

theorem renderList_mapNumbers (hf : ∀ v, Style.numberText (f v) = Style.numberText v)
    (s : Style α) : (s.mapNumbers f).renderList = s.renderList := by
  rw [Style.renderList, Style.renderList, render_style_mapNumbers hf]

mutual

theorem render_mapNumbers (hf : ∀ v, Style.numberText (f v) = Style.numberText v) (depth : Nat) :
    ∀ (st : Statement α), Statement.render depth (st.mapNumbers f) = Statement.render depth st
  | .node n => by
    have hstyle := render_style_mapNumbers hf n.style
    simp [Statement.mapNumbers, Statement.render, Node.mapNumbers, Node.render, hstyle]
  | .edge e => by
    have hstyle := renderList_mapNumbers hf e.style
    simp [Statement.mapNumbers, Statement.render, Edge.mapNumbers, Edge.render, hstyle]
  | .group id style children => by
    have hstyle := renderList_mapNumbers hf style
    have hchildren := renderAll_mapNumbersAll hf (depth + 1) none children
    simp [Statement.mapNumbers, Statement.render, hstyle, hchildren]
  | .layout name => rfl
  | .freeArrow style => by
    have hstyle := renderList_mapNumbers hf style
    simp [Statement.mapNumbers, Statement.render, hstyle]

/-- **A change of numbers that keeps their texts keeps the text of statements.** -/
theorem renderAll_mapNumbersAll (hf : ∀ v, Style.numberText (f v) = Style.numberText v)
    (depth : Nat) (previous : Option String) : ∀ (ss : List (Statement α)),
    Statement.renderAll depth previous (Statement.mapNumbersAll f ss) =
      Statement.renderAll depth previous ss
  | [] => rfl
  | s :: ss => by
    have hkind : (s.mapNumbers f).kindName = s.kindName := by
      cases s <;> simp [Statement.mapNumbers, Statement.kindName]
    rw [Statement.mapNumbersAll, renderAll_cons, renderAll_cons, hkind,
      render_mapNumbers hf depth s, renderAll_mapNumbersAll hf depth _ ss]

end

end Numbers

end Diagram
