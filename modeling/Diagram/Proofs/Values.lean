import Diagram.Proofs.Literals
import Diagram.Proofs.Respacing

/-!
# Values of properties

A property is written as its key, a colon, a space and its value, and only values that the lexer
reads back are written at all.  Whether a value is one of these is decided by looking at the value
alone, and this is the right decision: it is a literal exactly when it is read, behind a key and a
colon, as one token of a class of literals.
-/

namespace Diagram

/-- The classes of the tokens that a value can be. -/
def literalKinds : List TokenKind := [.color, .number, .identifier]

/-- The literals are the texts of these classes. -/
theorem isLiteral_iff_exists_fits {v : String} :
    isLiteral v ↔ ∃ k ∈ literalKinds, k.Fits v.toList := by
  rw [isLiteral_iff]
  simp [literalKinds, IsWord]

/-- **A key and a literal behind it** are read as the key, the colon and the literal, and nothing
else. -/
theorem words_property {key v : List Char} {k : TokenKind} (hkey : TokenKind.identifier.Fits key)
    (hv : k.Fits v) :
    (pieces false (key ++ ':' :: ' ' :: v)).filterMap Piece.word? =
        [(.identifier, String.ofList key), (.colon, ":"), (k, String.ofList v)] ∧
      IsClean false (key ++ ':' :: ' ' :: v) := by
  have hends : TokenKind.identifier.EndsBefore (':' :: ' ' :: v) := (stopsAt_cons ..).mpr rfl
  have hkeyPiece : pieces false (key ++ ':' :: ' ' :: v) =
      ⟨.token .identifier, key⟩ :: pieces false (':' :: ' ' :: v) :=
    pieces_append (ne_nil_of_fits hkey) (firstPiece_of_fits hkey hends nofun)
  have hcolonPiece : pieces false (':' :: ' ' :: v) =
      ⟨.token .colon, [':']⟩ :: pieces true (' ' :: v) :=
    pieces_append (List.cons_ne_nil ':' [])
      (firstPiece_of_fits (k := .colon) (w := [':']) rfl trivial nofun)
  have hspacePiece : pieces true (' ' :: v) = ⟨.blank, [' ']⟩ :: pieces true v := by
    obtain ⟨c, cs, rfl, hblank, -⟩ := head_of_fits hv
    exact pieces_space hblank
  have hvaluePiece : pieces true v = [⟨.token k, v⟩] := by
    have hfirst : firstPiece true (v ++ []) = (.token k, v.length) :=
      firstPiece_of_fits hv k.endsBefore_nil fun _ => rfl
    have h := pieces_append (ne_nil_of_fits hv) hfirst
    rwa [List.append_nil, pieces_nil] at h
  have hpieces : pieces false (key ++ ':' :: ' ' :: v) =
      [⟨.token .identifier, key⟩, ⟨.token .colon, [':']⟩, ⟨.blank, [' ']⟩, ⟨.token k, v⟩] := by
    rw [hkeyPiece, ← hvaluePiece, ← hspacePiece, ← hcolonPiece]
  rw [IsClean, hpieces]
  exact ⟨rfl, by simp⟩

/-- **The literals are the values that are read back.**  Behind a key, a colon and a space, a value
is a literal exactly when the whole is read without a message, as three tokens: the key, the colon,
and one colour, number or identifier whose text is the value. -/
theorem isLiteral_iff_tokenize {key : String} (hkey : IsWord key) (v : String) :
    isLiteral v ↔
      (tokenize (key ++ ": " ++ v)).2 = [] ∧
        ∃ k ∈ literalKinds,
          (tokenize (key ++ ": " ++ v)).1.map (fun t => (t.kind, t.text)) =
            [(.identifier, key), (.colon, ":"), (k, v)] := by
  have htext : (key ++ ": " ++ v).toList = key.toList ++ ':' :: ' ' :: v.toList := by simp
  constructor
  · intro hv
    obtain ⟨k, hk, hfits⟩ := isLiteral_iff_exists_fits.mp hv
    obtain ⟨hwords, hclean⟩ := words_property hkey hfits
    rw [← htext] at hwords hclean
    refine ⟨issues_eq_nil_of_clean hclean, k, hk, ?_⟩
    rw [words_tokenize, hwords, String.ofList_toList, String.ofList_toList]
  · rintro ⟨-, k, hk, hwords⟩
    -- The last token has a text of its class, as all tokens have.
    have hmem : (k, v) ∈ (tokenize (key ++ ": " ++ v)).1.map fun t => (t.kind, t.text) := by
      rw [hwords]
      simp
    obtain ⟨t, ht, hsame⟩ := List.mem_map.mp hmem
    obtain ⟨rfl, rfl⟩ := Prod.mk.inj hsame
    exact isLiteral_iff_exists_fits.mpr ⟨t.kind, hk, fits_of_mem_tokenize ht⟩

/-- A colour of six digits is a literal; with a seventh it is read as a comment, and with a space
behind it, which the colour leaves out, it is another text. -/
theorem isLiteral_iff_tokenize_fill :
    IsWord "k" ∧
      (isLiteral "#6C5CE7" ∧ (tokenize "k: #6C5CE7").2 = [] ∧
        ∃ k ∈ literalKinds,
          (tokenize "k: #6C5CE7").1.map (fun t => (t.kind, t.text)) =
            [(.identifier, "k"), (.colon, ":"), (k, "#6C5CE7")]) ∧
      ¬ ((tokenize "k: #6C5CE70").2 = [] ∧
        ∃ k ∈ literalKinds,
          (tokenize "k: #6C5CE70").1.map (fun t => (t.kind, t.text)) =
            [(.identifier, "k"), (.colon, ":"), (k, "#6C5CE70")]) ∧
      ¬ ((tokenize "k: #6C5CE7 ").2 = [] ∧
        ∃ k ∈ literalKinds,
          (tokenize "k: #6C5CE7 ").1.map (fun t => (t.kind, t.text)) =
            [(.identifier, "k"), (.colon, ":"), (k, "#6C5CE7 ")]) := by
  have hkey : IsWord "k" := by decide
  have hsix : isLiteral "#6C5CE7" := by decide
  refine ⟨hkey, ⟨hsix, (isLiteral_iff_tokenize hkey "#6C5CE7").mp hsix⟩, ?_, ?_⟩
  · exact mt (isLiteral_iff_tokenize hkey "#6C5CE70").mpr (by decide)
  · exact mt (isLiteral_iff_tokenize hkey "#6C5CE7 ").mpr (by decide)

end Diagram
