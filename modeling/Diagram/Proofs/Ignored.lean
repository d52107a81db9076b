import Diagram.Drawing.Compile
import Diagram.Lint
import Diagram.Proofs.Records

/-!
# What is written in vain

A property whose key is unknown, or takes values of the other kind, is laid over a style and changes
nothing; a layout directive whose name is unknown leaves the options as they are.  Linting decides
both from tables of its own, so the tables have to agree with those that are read when a document is
made and drawn.
-/

namespace Diagram

open Syntax

variable {α : Type} [Scalar α]

/-! ## Properties that change nothing -/

/-- Whether a value is a number. -/
@[simp] def Syntax.StyleValue.isNumeric : StyleValue → Bool
  | number _ => true
  | color _ | name _ => false

/-- The table of the kinds of keys and the table of the setters agree. -/
theorem StyleKey.isNumeric?_eq (name : String) :
    isNumeric? name = (ofName? name).map isNumeric := by
  unfold isNumeric?
  split
  iterate 11 rfl
  have hnone : ofName? name = none := by
    refine List.lookup_eq_none_iff.mpr ?_
    simp_all [names]
  rw [hnone, Option.map_none]

/-- A property that is laid over styles in vain. -/
def Style.Ignores (α : Type) [Scalar α] (p : Property) : Prop := ∀ s : Style α, s.add p = s

/-- A property is ignored unless its key takes values of its kind. -/
theorem Style.ignores_iff {p : Property} : Style.Ignores α p ↔
    ∀ key ∈ StyleKey.ofName? p.key.value, key.isNumeric ≠ p.value.value.isNumeric := by
  constructor
  · -- A style without any values shows what is set.
    intro h key hkey hsame
    rw [Option.mem_def] at hkey
    cases key with
    | number k =>
      have hnumber := number_add ({} : Style α) p k
      rw [h] at hnumber
      cases hvalue : p.value.value <;> simp [hvalue] at hsame
      cases k <;> simp [Property.number?, hvalue, hkey, Style.number] at hnumber
    | text k =>
      have htext := text_add ({} : Style α) p k
      rw [h] at htext
      cases hvalue : p.value.value <;> simp [hvalue] at hsame
      all_goals cases k <;> simp [Property.text?, hvalue, hkey, Style.text] at htext
  · intro h s
    refine Style.ext_keys (fun k => ?_) (fun k => ?_)
    · rw [number_add, Property.number?]
      cases hvalue : p.value.value with
      | number n =>
        have hkey : StyleKey.ofName? p.key.value ≠ some (.number k) := fun hkey =>
          h _ hkey (by simp [hvalue])
        simp [hkey]
      | color t | name t => simp
    · rw [text_add, Property.text?]
      cases hvalue : p.value.value with
      | number n => simp
      | color t | name t =>
        have hkey : StyleKey.ofName? p.key.value ≠ some (.text k) := fun hkey =>
          h _ hkey (by simp [hvalue])
        simp [hkey]

instance : DecidablePred (Style.Ignores α) := fun _ => decidable_of_iff _ Style.ignores_iff.symm

/-! ## Layout names that change nothing -/

/-- A layout name that leaves the options of every document as they are. -/
def Options.Ignores (α : Type) [Scalar α] (name : String) : Prop :=
  ∀ (d : Document α) (o : Options α), d.layoutDirective = some name → d.effectiveOptions o = o

/-- A layout name is ignored unless it names an algorithm. -/
theorem Options.ignores_iff {name : String} :
    Options.Ignores α name ↔ Algorithm.ofName? name = none := by
  constructor
  · intro h
    refine Option.eq_none_iff_forall_ne_some.mpr fun a ha => ?_
    have halgorithm : ∀ o : Options α, a = o.algorithm := by
      intro o
      have hoptions := h ⟨[.layout name], []⟩ o rfl
      have hdirective : (⟨[.layout name], []⟩ : Document α).layoutDirective = some name := rfl
      rw [Document.effectiveOptions, hdirective, Option.bind_some, ha] at hoptions
      exact congrArg Options.algorithm hoptions
    have hbox : a = .box := halgorithm { Options.default with algorithm := .box }
    have hforce : a = .force := halgorithm { Options.default with algorithm := .force }
    rw [hbox] at hforce
    cases hforce
  · intro h d o hdirective
    rw [Document.effectiveOptions, hdirective, Option.bind_some, h]

instance : DecidablePred (Options.Ignores α) :=
  fun _ => decidable_of_iff _ Options.ignores_iff.symm

end Diagram
