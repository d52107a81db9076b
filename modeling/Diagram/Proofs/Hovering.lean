import Diagram.Proofs.Graph
import Diagram.Proofs.InOnePiece
import Diagram.Proofs.Ranges

/-!
# Hovering over names

What an editor shows for a name is looked up by the word at a place.  In a text without messages
every name that is referred to is a node, and over each character of the name the node is shown
exactly when the name stands in one piece.  A name with a gap around its dot is taken for the names
of its two parts, and a directive that is joined to a name is taken for a part of it.

The place of a character is where the editor looks for it when the lines in front end as those of
the language do.
-/

namespace Diagram.Editor

open Syntax (NodeRef nodeRefs)

variable {d : Document Float} {o : Options Float} {i : Nat} {n : Node Float} {word : String}

/-! ## Nodes -/

/-- **The nodes of a document are found by their names.** -/
theorem hoverNode?_eq_some_iff (hnodup : d.nodeIds.Nodup) {s : String} :
    hoverNode? d o word = some s ↔
      ∃ i n, d.nodes[i]? = some n ∧ n.id = word ∧ s = describeNode d o i n := by
  rw [hoverNode?]
  constructor
  · intro h
    split at h
    · next n i hfind =>
      have hmem := List.mem_zipIdx_iff_getElem?.mp (List.mem_of_find?_eq_some hfind)
      have hid := List.find?_some hfind
      exact ⟨i, n, hmem, by simpa using hid, (Option.some.inj h).symm⟩
    · cases h
  · rintro ⟨i, n, hn, rfl, rfl⟩
    split
    · next n' i' hfind =>
      have hmem := List.mem_zipIdx_iff_getElem?.mp (List.mem_of_find?_eq_some hfind)
      have hid : n'.id = n.id := by simpa using List.find?_some hfind
      -- Both nodes have the name, so they are the same.
      have hlt : i < d.nodeIds.length := by
        rw [Document.nodeIds, List.length_map]
        exact (List.getElem?_eq_some_iff.mp hn).1
      obtain rfl : i = i' := by
        refine (List.getElem?_inj hlt hnodup).mp ?_
        rw [Document.nodeIds, List.getElem?_map, List.getElem?_map, hn, hmem, Option.map_some,
          Option.map_some, hid]
      obtain rfl : n = n' := Option.some.inj (hn.symm.trans hmem)
      rfl
    · next hfind =>
      have hnone := List.find?_eq_none.mp hfind (n, i) (List.mem_zipIdx_iff_getElem?.mpr hn)
      simp at hnone

/-! ## Titles -/

/-- What code is set off by, and the dash behind what is explained. -/
def isTitleMark (c : Char) : Bool := c = '\x60' || c = '—'

/-- The code that a text is headed by, unless a dash stands in front of it. -/
def codeInTitle? (s : String) : Option (List Char) :=
  match s.toList.dropWhile (!isTitleMark ·) with
  | [] => none
  | c :: cs => if c = '\x60' then some (cs.takeWhile (· ≠ '\x60')) else none

/-- A paragraph goes first, whatever is behind it. -/
theorem exists_paragraphs (p : String) (ps : List String) :
    ∃ rest, (paragraphs (p :: ps)).toList = p.toList ++ rest := by
  cases ps with
  | nil => exact ⟨[], by simp [paragraphs]⟩
  | cons q ps =>
    rw [paragraphs, String.intercalate_cons_cons, String.append_assoc, String.toList_append]
    exact ⟨_, rfl⟩

theorem codeInTitle?_eq {s : String} {before w rest : List Char}
    (hs : s.toList = before ++ '\x60' :: (w ++ '\x60' :: rest))
    (hbefore : before.all (!isTitleMark ·)) (hw : '\x60' ∉ w) : codeInTitle? s = some w := by
  have hdrop : s.toList.dropWhile (!isTitleMark ·) = '\x60' :: (w ++ '\x60' :: rest) := by
    rw [hs, List.dropWhile_append_of_pos (List.all_eq_true.mp hbefore)]
    rfl
  have htake : (w ++ '\x60' :: rest).takeWhile (· ≠ '\x60') = w := by
    have hne : ∀ c ∈ w, decide (c ≠ '\x60') = true := fun c hc => by
      rw [decide_eq_true_eq]
      rintro rfl
      exact hw hc
    rw [List.takeWhile_append_of_pos hne, List.takeWhile_cons_of_neg (by decide), List.append_nil]
  rw [codeInTitle?, hdrop]
  simp only [if_true, htake]

/-- A node is headed by its name. -/
theorem codeInTitle?_describeNode (hid : '\x60' ∉ n.id.toList) :
    codeInTitle? (describeNode d o i n) = some n.id.toList := by
  have hkeyword : ∀ s : NodeShape, (boldText s.keyword ++ " ").toList.all (!isTitleMark ·) := by
    intro s
    cases s <;> decide +kernel
  obtain ⟨rest, hrest⟩ : ∃ rest, (describeNode d o i n).toList =
      (boldText n.shapeOrDefault.keyword ++ " " ++ codeText n.id).toList ++ rest := by
    rw [describeNode]
    simp only [List.cons_append]
    obtain ⟨rest, hrest⟩ := exists_paragraphs (boldText n.shapeOrDefault.keyword ++ " " ++
      codeText n.id ++ " — " ++ sizeText (Decimal.plain n.size.1) (Decimal.plain n.size.2)) _
    rw [hrest, String.append_assoc, String.toList_append, List.append_assoc]
    exact ⟨_, rfl⟩
  have hcode : (describeNode d o i n).toList = (boldText n.shapeOrDefault.keyword ++ " ").toList ++
      '\x60' :: (n.id.toList ++ '\x60' :: rest) := by
    rw [hrest]
    simp [codeText]
  exact codeInTitle?_eq hcode (hkeyword n.shapeOrDefault) hid

/-- Words of the language are explained behind a dash. -/
theorem codeInTitle?_hoverWord? {s : String} (h : hoverWord? word = some s) :
    codeInTitle? s = none := by
  have hshape : ∀ k : NodeShape, codeInTitle? (hoverShape k) = none := by
    intro k
    cases k <;> decide +kernel
  have halgorithm : ∀ a : Algorithm, codeInTitle? (hoverAlgorithm a) = none := by
    intro a
    cases a <;> decide +kernel
  have hkey : ∀ e ∈ Diagram.StyleKey.names,
      codeInTitle? (boldText (e.1 ++ ":") ++ " — " ++ StyleKey.detail e.2) = none := by
    decide +kernel
  have hkeyword : ∀ k, hoverKeyword? k = some s → codeInTitle? s = none := by
    intro k hk
    unfold hoverKeyword? at hk
    split at hk <;> cases hk <;> decide +kernel
  rw [hoverWord?] at h
  rcases (Option.orElse_eq_some _ _ _).mp h with h | ⟨-, h⟩
  · obtain ⟨k, -, rfl⟩ := Option.map_eq_some_iff.mp h
    exact hshape k
  rcases (Option.orElse_eq_some _ _ _).mp h with h | ⟨-, h⟩
  · obtain ⟨a, -, rfl⟩ := Option.map_eq_some_iff.mp h
    exact halgorithm a
  rcases (Option.orElse_eq_some _ _ _).mp h with h | ⟨-, h⟩
  · obtain ⟨k, hk, rfl⟩ := Option.map_eq_some_iff.mp h
    obtain ⟨before, behind, hnames, -⟩ := List.lookup_eq_some_iff.mp hk
    exact hkey (word, k) (by rw [hnames]; simp)
  · exact hkeyword word h

/-! ## What is shown -/

/-- A word consists of its characters. -/
theorem all_isWordChar_wordAt (text : List Char) (offset : Nat) :
    (wordAt text offset).toList.all isWordChar := by
  rw [wordAt, String.toList_ofList, List.all_append, Bool.and_eq_true, List.all_reverse]
  exact ⟨List.all_takeWhile, List.all_takeWhile⟩

/-- **A node is shown exactly where its name is the word.** -/
theorem hover?_eq_describeNode_iff {text : String} {p : Place} (hnodup : d.nodeIds.Nodup)
    (hn : d.nodes[i]? = some n) (hne : n.id.toList ≠ []) (hid : n.id.toList.all isWordChar) :
    hover? text p (some d) o = some (describeNode d o i n) ↔
      wordAt text.toList ((LineMap.ofText text).charOffset p) = n.id := by
  have hplain : ∀ {w : List Char}, w.all isWordChar → '\x60' ∉ w := fun hw hcode =>
    absurd (List.all_eq_true.mp hw '\x60' hcode) (by decide)
  have hword := all_isWordChar_wordAt text.toList ((LineMap.ofText text).charOffset p)
  rw [hover?]
  generalize wordAt text.toList ((LineMap.ofText text).charOffset p) = word at *
  constructor
  · intro h
    split at h
    · cases h
    -- the titles tell the answers apart: a node has its name in code there, and a word has none
    rcases (Option.orElse_eq_some _ _ _).mp h with hnode | ⟨-, hlanguage⟩
    · obtain ⟨i', n', -, hid', hsame⟩ := (hoverNode?_eq_some_iff hnodup).mp hnode
      have hcode := congrArg codeInTitle? hsame
      rw [codeInTitle?_describeNode (hplain hid),
        codeInTitle?_describeNode (hplain (hid'.symm ▸ hword))] at hcode
      rw [← hid']
      exact (String.toList_inj.mp (Option.some.inj hcode)).symm
    · have hnone := codeInTitle?_hoverWord? hlanguage
      rw [codeInTitle?_describeNode (hplain hid)] at hnone
      cases hnone
  · rintro rfl
    have hempty : ¬ n.id.isEmpty := by
      rw [String.isEmpty_iff]
      rintro hid
      exact hne (by rw [hid]; rfl)
    have hnode : hoverNode? d o n.id = some (describeNode d o i n) :=
      (hoverNode?_eq_some_iff hnodup).mpr ⟨i, n, hn, rfl, rfl⟩
    rw [if_neg hempty, Option.bind_some, hnode]
    rfl

/-! ## References -/

/-- **Each reference of a text without messages is to one node.** -/
theorem exists_node_of_nodeRef {text : String} (h : (Syntax.parse text).2 = []) {r : NodeRef}
    (hr : r ∈ nodeRefs (Syntax.parse text).1) :
    let d : Document Float := Document.ofText text
    d.nodeIds.Nodup ∧ ∃ (i : Nat) (n : Node Float), d.nodes[i]? = some n ∧ n.id = r.id ∧
      ∀ j : Nat, d.nodeIds[j]? = some r.id → j = i := by
  intro d
  have hd : d = ⟨statementsOf (Syntax.parse text).1, []⟩ := by
    simp [d, Document.ofText, h]
  have hnodup : d.nodeIds.Nodup := by
    rw [hd]
    exact nodup_nodeIds_statementsOf _
  have hmem : r.id ∈ d.nodeIds := by
    rw [hd]
    exact mem_nodeIds_statementsOf.mpr ⟨r, hr, rfl⟩
  obtain ⟨i, hi⟩ := List.mem_iff_getElem?.mp hmem
  obtain ⟨n, hn, hid⟩ : ∃ n, d.nodes[i]? = some n ∧ n.id = r.id := by
    rw [Document.nodeIds, List.getElem?_map] at hi
    exact Option.map_eq_some_iff.mp hi
  refine ⟨hnodup, i, n, hn, hid, fun j hj => ?_⟩
  have hlt := (List.getElem?_eq_some_iff.mp hj).1
  exact (List.getElem?_inj hlt hnodup).mp (hj.trans hi.symm)

/-- **What is shown over the references of a text.**  In a text without messages each reference is
to one node.  The place of a character of its name is where the editor looks for it exactly when the
lines in front end as those of the language do, or all but the last of them when this ends directly
in front; and there the node is shown exactly when the name stands in one piece. -/
theorem hover?_nodeRef {text : String} (h : (Syntax.parse text).2 = []) (o : Options Float)
    {r : NodeRef} (hr : r ∈ nodeRefs (Syntax.parse text).1) :
    let d : Document Float := Document.ofText text
    let m := LineMap.ofText text
    ∃ i n, d.nodes[i]? = some n ∧ n.id = r.id ∧ (∀ j, d.nodeIds[j]? = some r.id → j = i) ∧
      ∀ part ∈ r.name.parts, ∀ a c b, text.toList = a ++ c :: b →
        part.span.start ≤ byteSize a → byteSize a < part.span.stop →
        (m.charOffset (m.place (positionAt text.toList (byteSize a))) = a.length ↔
          hasPlainBreaks a ∨ EndsInBreak a) ∧
        ∀ p, m.charOffset p = a.length →
          (hover? text p (some d) o = some (describeNode d o i n) ↔
            StandsInOnePiece text.toList r.name) := by
  intro d m
  have hstands : StandsIn text.toList r.name :=
    standsIn_of_hasName (isLaidOut_tokenize (issues_of_parse h).1) (Syntax.hasName_of_parse h hr)
  obtain ⟨hnodup, i, n, hn, hid, hunique⟩ := exists_node_of_nodeRef h hr
  refine ⟨i, n, hn, hid, hunique, ?_⟩
  intro part hpart a c b htext hle hlt
  obtain ⟨front, behind, hat⟩ := hstands.exists_isAt hpart
  constructor
  · -- no pair of breaks is cut here, for the character behind belongs to a name
    have hfeed : c ≠ '\n' := by
      rintro rfl
      cases hat.isNameChar htext hle hlt
    have hposition : positionAt text.toList (byteSize a) = (Cursor.start.skip a).position := by
      rw [htext]
      exact positionFrom_append a (c :: b) .start
    have hm : m = ⟨breakLines (a ++ c :: b)⟩ := by
      rw [← htext]
      rfl
    rw [hposition, hm]
    exact charOffset_place_iff (not_cutsPair_cons hfeed a b)
  · intro p hp
    obtain ⟨hne, hall⟩ := hstands.all_isWordChar
    have hword : wordAt text.toList a.length = n.id ↔ StandsInOnePiece text.toList r.name := by
      rw [hid]
      exact hstands.wordAt_iff hpart htext hle hlt
    rw [← hword, ← hp]
    exact hover?_eq_describeNode_iff hnodup hn (hid ▸ hne) (hid ▸ hall)

/-- A name with gaps around its dot is not shown, and the name behind it is. -/
theorem hover?_nodeRef_gap :
    let text := "a . b -> c"
    let d : Document Float := Document.ofText text
    (Syntax.parse text).2 = [] ∧
      (∃ i n, d.nodes[i]? = some n ∧ n.id = "a.b" ∧
        hover? text ⟨0, 0⟩ (some d) .default ≠ some (describeNode d .default i n)) ∧
      ∃ i n, d.nodes[i]? = some n ∧ n.id = "c" ∧
        hover? text ⟨0, 9⟩ (some d) .default = some (describeNode d .default i n) := by
  intro text d
  have h : (Syntax.parse text).2 = [] := by decide +kernel
  have hfirst : (⟨⟨⟨"a", 0, 1, ⟨1, 1⟩, ⟨1, 1⟩⟩, some ⟨"b", 4, 5, ⟨1, 5⟩, ⟨1, 5⟩⟩⟩, none, none⟩ :
      NodeRef) ∈ nodeRefs (Syntax.parse text).1 := by decide +kernel
  have hsecond : (⟨⟨⟨"c", 9, 10, ⟨1, 10⟩, ⟨1, 10⟩⟩, none⟩, none, none⟩ : NodeRef) ∈
      nodeRefs (Syntax.parse text).1 := by decide +kernel
  refine ⟨h, ?_, ?_⟩
  · obtain ⟨i, n, hn, hid, -, hshown⟩ := hover?_nodeRef h .default hfirst
    refine ⟨i, n, hn, hid, fun hsame => ?_⟩
    obtain ⟨-, hshown⟩ := hshown _ List.mem_cons_self [] 'a' " . b -> c".toList
      (by decide +kernel) (by decide) (by decide)
    obtain ⟨a, b, htext, hsize, -⟩ := (hshown ⟨0, 0⟩ (by decide +kernel)).mp hsame
    have htake : text.toList.take 3 = ['a', '.', 'b'] := by
      cases a with
      | nil => rw [htext]; rfl
      | cons c a => exact absurd hsize (byteSize_pos (List.cons_ne_nil c a)).ne'
    revert htake
    decide +kernel
  · obtain ⟨i, n, hn, hid, -, hshown⟩ := hover?_nodeRef h .default hsecond
    obtain ⟨-, hshown⟩ := hshown _ List.mem_cons_self "a . b -> ".toList 'c' []
      (by decide +kernel) (by decide +kernel) (by decide +kernel)
    have hpiece : StandsInOnePiece text.toList ⟨⟨"c", 9, 10, ⟨1, 10⟩, ⟨1, 10⟩⟩, none⟩ :=
      ⟨"a . b -> ".toList, [], by decide +kernel, by decide +kernel, by decide⟩
    exact ⟨i, n, hn, hid, (hshown ⟨0, 9⟩ (by decide +kernel)).mpr hpiece⟩

end Diagram.Editor
