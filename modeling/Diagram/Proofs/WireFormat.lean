import Diagram.Proofs.DocumentCodec
import Diagram.Proofs.ShapeCodec

/-!
# Documents and shapes, written and read

What is written of a document or of shapes as a JSON value is read back from the value, in every
part of it that can be there or not.  Only what is not finite is lost: null stands for it, and null
is no number.
-/

namespace Diagram

open Syntax Json

/-- **What is written of documents and shapes is read back.**  The numbers have to be finite, as
whole numbers are, and the places of messages have to fit into 32 bits. -/
theorem reads_written {d : Document Float} {shapes : List (Shape Float)}
    (hplaces : d.HasCountedPlaces)
    (hd : Statement.AllNumbers (fun v => v.isFinite) d.statements)
    (hshapes : ∀ s ∈ shapes, ∀ v ∈ s.numbers, v.isFinite) :
    Document.ofJson? d.toJson = some d ∧
      list? Shape.ofJson? (Shape.listToJson shapes) = some shapes :=
  ⟨Document.ofJson?_toJson hplaces hd, Shape.list?_listToJson hshapes⟩

theorem reads_written_group :
    let d : Document Float :=
      ⟨[.group "g" { fill := some "#ffcc00" }
          [.node ⟨"a", some "A", none, { x := some (Numeral.scalar ⟨true, 10⟩) }⟩, .layout "grid"],
        .edge ⟨"a", "b", .dotted, some "asks", {}⟩, .freeArrow {}],
        [⟨"unexpected end", none⟩, ⟨"unexpected token", some ⟨⟨1, 2⟩, ⟨1, 3⟩⟩⟩]⟩
    let shapes : List (Shape Float) :=
      [⟨⟨1⟩, Numeral.scalar ⟨false, 40⟩, Numeral.scalar ⟨true, 7⟩, Numeral.scalar ⟨false, 0⟩,
        .default, .freehand [⟨Numeral.scalar ⟨false, 1⟩, Numeral.scalar ⟨false, 2⟩⟩]⟩]
    (d.HasCountedPlaces ∧ Statement.AllNumbers (fun v => v.isFinite) d.statements ∧
      ∀ s ∈ shapes, ∀ v ∈ s.numbers, v.isFinite) ∧
    Document.ofJson? d.toJson = some d ∧
      list? Shape.ofJson? (Shape.listToJson shapes) = some shapes := by
  intro d shapes
  have hplaces : d.HasCountedPlaces := by
    simp only [Document.HasCountedPlaces, d, List.forall_mem_cons]
    refine ⟨fun _ h => absurd h (Option.not_mem_none _), ?_, List.forall_mem_nil _⟩
    rintro r ⟨⟩
    exact ⟨by decide, by decide, by decide, by decide⟩
  have hd : Statement.AllNumbers (fun v => v.isFinite) d.statements := by
    simp only [d, Statement.AllNumbers, Statement.flattenAll, Statement.flatten,
      List.cons_append, List.nil_append, List.append_nil, List.forall_mem_cons, Statement.style]
    refine ⟨?_, ?_, ?_, ?_, ?_, List.forall_mem_nil _⟩ <;>
      rintro (_ | _ | _ | _ | _ | _ | _ | _ | _) v hv <;> cases hv
    rfl
  have hshapes : ∀ s ∈ shapes, ∀ v ∈ s.numbers, v.isFinite := by
    simp only [shapes, Shape.numbers, Figure.numbers, Point.numbers, List.flatMap_cons,
      List.flatMap_nil, List.cons_append, List.nil_append, List.append_nil, List.forall_mem_cons]
    exact ⟨⟨by rfl, by rfl, by rfl, by rfl, by rfl, by rfl, by rfl, List.forall_mem_nil _⟩,
      List.forall_mem_nil _⟩
  exact ⟨⟨hplaces, hd, hshapes⟩, reads_written hplaces hd hshapes⟩

end Diagram
