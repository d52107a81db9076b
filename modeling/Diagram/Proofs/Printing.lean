import Diagram.Proofs.Literals
import Diagram.Proofs.Parsing
import Diagram.Proofs.Reading

/-!
# Printing

The text written for statements is the text of a tree: it reads as the lexemes that the
tree unparses to, whatever is written behind it.  Only a name that is a word can be read
again, so the names of the statements must be words; a value that is no literal is left out.

## Main definitions

* `Statement.tree`, `treeAll` — the tree that is written for statements.
* `Statement.HasWords` — a statement whose names are words.

## Main statements

* `reads_renderAll` — the text of statements reads as the lexemes of their tree.
* `areProper_treeAll` — that tree is one that the grammar derives.
-/

namespace Diagram

open Syntax

/-! ## Building texts -/

section Reads

variable {afterColon : Bool} {s : List Char} {ls : List Lexeme}

theorem Reads.space (h : Reads afterColon s ls) : Reads afterColon (' ' :: s) ls :=
  .blank (by decide) h

theorem Reads.newline (h : Reads afterColon s ls) : Reads afterColon ('\n' :: s) ls :=
  .blank (by decide) h

/-- A mark in front of a text. -/
theorem Reads.mark {k : TokenKind} (hk : k.isFixed) (hs : k.EndsBefore s)
    (h : Reads (k = .colon) s ls) :
    Reads afterColon (k.spelling.toList ++ s) (.mark k :: ls) := by
  have hfits : k.Fits k.spelling.toList := by
    cases k <;> first | rfl | cases hk
  have hcolor : k = .color → afterColon = true := by
    rintro rfl
    cases hk
  have hmark : Lexeme.of k (String.ofList k.spelling.toList) = .mark k := by
    have hne : k ≠ .number := by
      rintro rfl
      cases hk
    simp [Lexeme.of, Lexeme.mark, hne]
  rw [← hmark]
  exact .token hfits hs hcolor h

theorem Reads.word {w : String} (hw : IsWord w) (hs : StopsAt isNameChar s)
    (h : Reads false s ls) : Reads afterColon (w.toList ++ s) (Syntax.word w :: ls) := by
  have hread : Reads afterColon (w.toList ++ s) (.of .identifier (String.ofList w.toList) :: ls) :=
    .token hw hs (by simp) h
  rwa [String.ofList_toList] at hread

/-- A label, with a space behind its colon. -/
theorem Reads.label {text : Located String} (hq : '"' ∉ text.value.toList)
    (h : Reads false s ls) :
    Reads afterColon (':' :: ' ' :: '"' :: (text.value.toList ++ '"' :: s))
      (labelLexemes text ++ ls) := by
  have hfits : TokenKind.string.Fits ('"' :: (text.value.toList ++ ['"'])) := ⟨_, hq, rfl⟩
  have hof : Lexeme.of .string (String.ofList ('"' :: (text.value.toList ++ ['"']))) =
      ⟨.string, "\"" ++ text.value ++ "\""⟩ := by
    simp only [Lexeme.of, reduceCtorEq, if_false, Lexeme.mk.injEq, true_and]
    apply String.toList_inj.mp
    simp
  have hstring : Reads true ('"' :: (text.value.toList ++ ['"']) ++ s)
      (⟨.string, "\"" ++ text.value ++ "\""⟩ :: ls) := by
    rw [← hof]
    exact .token hfits trivial (by simp) h
  have hcolon : Reads afterColon (TokenKind.colon.spelling.toList ++ _) _ :=
    .mark rfl trivial hstring.space
  simpa [labelLexemes, TokenKind.spelling] using hcolon

end Reads

/-! ## Properties -/

variable {α : Type} [Scalar α]

/-- A value that was read from no place. -/
def Syntax.Located.unplaced {β : Type} (v : β) : Located β := ⟨v, nowhere⟩

@[simp] theorem value_unplaced {β : Type} (v : β) : (Located.unplaced v).value = v := rfl

/-- The property that is written for a key and a literal. -/
def literalProperty (e : String × String) : Property :=
  ⟨.unplaced e.1, .unplaced (literalValue e.2)⟩

/-- The properties that are written for a style. -/
def Style.properties (s : Style α) : List Property := s.literals.map literalProperty

/-- The list of properties that is written for a style, if there are any. -/
def Style.propertyList? (s : Style α) : Option PropertyList :=
  if s.properties.isEmpty then none else some ⟨s.properties, nowhere⟩

/-- Every key is a word. -/
theorem isWord_of_mem_names : ∀ e ∈ StyleKey.names, IsWord e.1 := by
  have hall : ∀ e ∈ StyleKey.names, isName e.1.toList ∧ isKeyword e.1 = false := by decide
  exact fun e he => isWord_iff.mpr (hall e he)

/-- What is written has a key that is a word and a value that is a literal. -/
theorem mem_literals {s : Style α} {e : String × String} (h : e ∈ s.literals) :
    IsWord e.1 ∧ isLiteral e.2 := by
  obtain ⟨hentry, hliteral⟩ := List.mem_filter.mp h
  obtain ⟨⟨name, key⟩, hname, hvalue⟩ := List.mem_filterMap.mp hentry
  obtain ⟨text, -, rfl⟩ := Option.map_eq_some_iff.mp hvalue
  exact ⟨isWord_of_mem_names (name, key) hname, hliteral⟩

/-- The characters of a property. -/
def propertyChars (e : String × String) : List Char := e.1.toList ++ ':' :: ' ' :: e.2.toList

/-- The characters of properties that each follow a comma. -/
def moreChars (es : List (String × String)) : List Char :=
  es.flatMap (fun e => ',' :: ' ' :: propertyChars e)

theorem toList_render_of_cons {s : Style α} {e : String × String} {es : List (String × String)}
    (h : s.literals = e :: es) : s.render.toList = propertyChars e ++ moreChars es := by
  rw [Style.render, h]
  clear h
  induction es generalizing e with
  | nil => simp [propertyChars, moreChars]
  | cons f es ih =>
    simp only [List.map_cons] at ih ⊢
    rw [String.intercalate_cons_cons, String.toList_append, ih]
    simp [propertyChars, moreChars]

theorem toList_render_of_nil {s : Style α} (h : s.literals = []) : s.render = "" := by
  rw [Style.render, h]
  rfl

theorem isEmpty_render {s : Style α} : s.render.isEmpty = s.literals.isEmpty := by
  cases h : s.literals with
  | nil =>
    rw [toList_render_of_nil h]
    rfl
  | cons e es =>
    have hne : s.render ≠ "" := by
      rintro hempty
      have hlist := toList_render_of_cons h
      rw [hempty] at hlist
      simp [propertyChars] at hlist
    simpa using hne

section Reads

variable {afterColon : Bool} {s : List Char} {ls : List Lexeme}

theorem reads_property {e : String × String} (hkey : IsWord e.1) (hvalue : isLiteral e.2)
    (hs : StopsAt isNameChar s) (h : Reads false s ls) :
    Reads afterColon (propertyChars e ++ s) ((literalProperty e).lexemes ++ ls) := by
  obtain ⟨hfits, hlexeme⟩ := fits_of_isLiteral hvalue
  have hkind : ∀ v : StyleValue, v.kind.EndsBefore s ∧ decide (v.kind = .colon) = false := by
    rintro (text | n | text) <;> exact ⟨hs, rfl⟩
  obtain ⟨hends, hnocolon⟩ := hkind (literalValue e.2)
  have htoken : Reads true (e.2.toList ++ s)
      (.of (literalValue e.2).kind (String.ofList e.2.toList) :: ls) :=
    .token hfits hends (fun _ => rfl) (by rwa [hnocolon])
  rw [String.ofList_toList, hlexeme] at htoken
  have hcolon : Reads false (TokenKind.colon.spelling.toList ++ _) _ :=
    .mark rfl trivial htoken.space
  have hkeyword : Reads afterColon (e.1.toList ++ _) _ :=
    .word hkey (by simp [TokenKind.spelling]; decide) hcolon
  simpa [propertyChars, literalProperty, Property.lexemes, TokenKind.spelling] using hkeyword

/-- What follows a name and starts with a comma does not run into it. -/
theorem stopsAt_moreChars {es : List (String × String)} (hs : StopsAt isNameChar s) :
    StopsAt isNameChar (moreChars es ++ s) := by
  cases es with
  | nil => exact hs
  | cons e es => exact (stopsAt_cons ..).mpr (by decide)

theorem reads_moreChars {es : List (String × String)}
    (hes : ∀ e ∈ es, IsWord e.1 ∧ isLiteral e.2) (hs : StopsAt isNameChar s)
    (h : Reads false s ls) :
    Reads false (moreChars es ++ s) (moreLexemes (es.map literalProperty) ++ ls) := by
  induction es with
  | nil => exact h
  | cons e es ih =>
    obtain ⟨hkey, hvalue⟩ := hes e (by simp)
    have hmore := ih fun f hf => hes f (by simp [hf])
    have hcomma : Reads false (TokenKind.comma.spelling.toList ++ _) _ :=
      .mark rfl trivial (reads_property hkey hvalue (stopsAt_moreChars hs) hmore).space
    simpa [moreChars, moreLexemes, TokenKind.spelling] using hcomma

end Reads

/-- The parentheses around properties. -/
theorem toList_renderList {s : Style α} : s.renderList.toList =
    if s.literals.isEmpty then [] else '(' :: (s.render.toList ++ [')']) := by
  rw [Style.renderList, isEmpty_render]
  split <;> simp

theorem properties_eq_nil {s : Style α} : s.properties = [] ↔ s.literals = [] := by
  simp [Style.properties]

section Reads

variable {t : List Char} {ls : List Lexeme}

/-- The properties of a style in parentheses. -/
theorem reads_renderList (s : Style α) (h : Reads false t ls) :
    Reads false (s.renderList.toList ++ t)
      (s.propertyList?.elim [] PropertyList.lexemes ++ ls) := by
  rw [toList_renderList]
  cases hl : s.literals with
  | nil => simpa [Style.propertyList?, properties_eq_nil.mpr hl] using h
  | cons e es =>
    have hall : ∀ f ∈ e :: es, IsWord f.1 ∧ isLiteral f.2 := fun f hf => mem_literals (hl ▸ hf)
    have hclose : Reads false (TokenKind.rightParen.spelling.toList ++ t) _ :=
      .mark rfl trivial h
    have hmore := reads_moreChars (fun f hf => hall f (List.mem_cons_of_mem e hf))
      (by simp [TokenKind.spelling]; decide) hclose
    have hfirst : Reads false (propertyChars e ++ _) _ :=
      reads_property (hall e (by simp)).1 (hall e (by simp)).2
        (stopsAt_moreChars (by simp [TokenKind.spelling]; decide)) hmore
    have hopen : Reads false (TokenKind.leftParen.spelling.toList ++ _) _ :=
      .mark rfl trivial hfirst
    have hproperties : s.properties = literalProperty e :: es.map literalProperty := by
      simp [Style.properties, hl]
    simpa [Style.propertyList?, hproperties, PropertyList.lexemes, propertyLexemes,
      TokenKind.spelling, toList_render_of_cons hl] using hopen

end Reads

/-! ## Nodes -/

/-- A name of a node: a word, or two words with a dot between them. -/
def IsNodeId (id : String) : Prop :=
  IsWord id ∨ ∃ head member, IsWord head ∧ IsWord member ∧ id = head ++ "." ++ member

/-- The parts of the name of a node, which is cut at its first dot. -/
def Syntax.NodeName.ofId (id : String) : NodeName :=
  ⟨.unplaced (String.ofList (id.toList.takeWhile (· ≠ '.'))),
    match id.toList.dropWhile (· ≠ '.') with
    | [] => none
    | _ :: member => some (.unplaced (String.ofList member))⟩

/-- A text without dots is cut off at the dot behind it. -/
theorem cut_append {w s : List Char} (hw : '.' ∉ w) (hs : StopsAt (· ≠ '.') s) :
    (w ++ s).takeWhile (· ≠ '.') = w ∧ (w ++ s).dropWhile (· ≠ '.') = s := by
  have hall : w.all (· ≠ '.') := by
    refine List.all_eq_true.mpr fun c hc => decide_eq_true ?_
    rintro rfl
    exact hw hc
  have htake := takeWhile_append_stop hall hs
  refine ⟨htake, ?_⟩
  have hcut := List.takeWhile_append_dropWhile (p := (· ≠ '.')) (l := w ++ s)
  rw [htake] at hcut
  exact List.append_cancel_left hcut

/-- There is no dot in a word. -/
theorem dot_notMem_of_isWord {w : String} (h : IsWord w) : '.' ∉ w.toList := by
  intro hdot
  have hname : isName w.toList := h.1
  have hchar : isNameChar '.' := by
    cases hw : w.toList with
    | nil => simp [hw] at hdot
    | cons c cs =>
      rw [hw] at hname hdot
      simp only [isName, Bool.and_eq_true, List.all_eq_true] at hname
      rcases List.mem_cons.mp hdot with hc | hc
      · exact isNameChar_of_isNameStart (hc ▸ hname.1)
      · exact hname.2 _ hc
  exact absurd hchar (by decide)

theorem ofId_of_isWord {w : String} (h : IsWord w) :
    NodeName.ofId w = ⟨.unplaced w, none⟩ := by
  have hcut := cut_append (dot_notMem_of_isWord h) (stopsAt_nil _)
  rw [List.append_nil] at hcut
  rw [NodeName.ofId, hcut.1, hcut.2, String.ofList_toList]

theorem ofId_append {head member : String} (h : IsWord head) :
    NodeName.ofId (head ++ "." ++ member) = ⟨.unplaced head, some (.unplaced member)⟩ := by
  have hcut := cut_append (dot_notMem_of_isWord h)
    ((stopsAt_cons (· ≠ '.') '.' member.toList).mpr (by decide))
  have hlist : (head ++ "." ++ member).toList = head.toList ++ '.' :: member.toList := by simp
  rw [NodeName.ofId, hlist, hcut.1, hcut.2, String.ofList_toList]
  simp only [String.ofList_toList]

/-- The parts of a name make up the name. -/
@[simp] theorem text_ofId (id : String) : (NodeName.ofId id).text = id := by
  have hcut := List.takeWhile_append_dropWhile (p := (· ≠ '.')) (l := id.toList)
  have hstop := stopsAt_dropWhile (· ≠ '.') id.toList
  rw [NodeName.ofId, NodeName.text]
  cases hmember : id.toList.dropWhile (· ≠ '.') with
  | nil =>
    rw [hmember, List.append_nil] at hcut
    rw [hcut, value_unplaced, String.ofList_toList]
  | cons c member =>
    rw [hmember] at hcut hstop
    obtain rfl : c = '.' := by simpa using hstop
    apply String.toList_inj.mp
    simpa using hcut

/-- The shape that is written for a node: properties need one to stand behind. -/
def Node.writtenShape (n : Node α) : Option NodeShape :=
  match n.shape with
  | some s => some s
  | none => if n.style.literals.isEmpty then none else some .rect

/-- The reference that is written for a node. -/
def Node.ref (n : Node α) : NodeRef where
  name := .ofId n.id
  shape := n.writtenShape.map fun s => ⟨s, .unplaced s.keyword, n.style.properties, nowhere⟩
  label := n.label.map fun l => .unplaced (labelText l)

/-- No quote is left in a label. -/
theorem quote_notMem_labelText (label : String) : '"' ∉ (labelText label).toList := by
  rw [labelText, String.toList_ofList, List.mem_map]
  rintro ⟨c, -, hc⟩
  split at hc
  · cases hc
  · next hne => exact hne hc

/-- The properties behind a shape. -/
theorem toList_moreRender {s : Style α} :
    (if s.render.isEmpty then "" else ", " ++ s.render).toList = moreChars s.literals := by
  rw [isEmpty_render]
  cases hl : s.literals with
  | nil => rfl
  | cons e es => simp [toList_render_of_cons hl, moreChars]

section Reads

variable {t : List Char} {ls : List Lexeme}

theorem reads_id {id : String} (hid : IsNodeId id) (hs : StopsAt isNameChar t)
    (h : Reads false t ls) :
    Reads false (id.toList ++ t) ((NodeName.ofId id).lexemes ++ ls) := by
  rcases hid with hword | ⟨head, member, hhead, hmember, rfl⟩
  · rw [ofId_of_isWord hword]
    exact .word hword hs h
  · rw [ofId_append hhead]
    have hdot : Reads false (TokenKind.dot.spelling.toList ++ _) _ :=
      .mark rfl trivial (.word hmember hs h)
    have hall : Reads false (head.toList ++ _) _ :=
      .word hhead (by simp [TokenKind.spelling]; decide) hdot
    simpa [NodeName.lexemes, TokenKind.spelling] using hall

theorem toList_renderLabel (label : Option String) : (renderLabel label).toList =
    label.elim [] fun l => ':' :: ' ' :: '"' :: ((labelText l).toList ++ ['"']) := by
  cases label with
  | none => rfl
  | some l => simp [renderLabel]

/-- A label, if there is one. -/
theorem reads_renderLabel (label : Option String) (h : Reads false t ls) :
    Reads false ((renderLabel label).toList ++ t)
      ((label.map fun l => Located.unplaced (labelText l)).elim [] labelLexemes ++ ls) := by
  rw [toList_renderLabel]
  cases label with
  | none => exact h
  | some l =>
    have hlabel : Reads false _ (labelLexemes (.unplaced (labelText l)) ++ ls) :=
      .label (quote_notMem_labelText l) h
    simpa using hlabel

/-- A label does not run into what stands in front of it. -/
theorem stopsAt_renderLabel (label : Option String) (hs : StopsAt isNameChar t) :
    StopsAt isNameChar ((renderLabel label).toList ++ t) := by
  rw [toList_renderLabel]
  cases label with
  | none => exact hs
  | some l => exact (stopsAt_cons ..).mpr (by decide)

theorem stopsAt_renderList (s : Style α) (hs : StopsAt isNameChar t) :
    StopsAt isNameChar (s.renderList.toList ++ t) := by
  rw [toList_renderList]
  split
  · exact hs
  · exact (stopsAt_cons ..).mpr (by decide)

/-- Every shape keyword is a token of its class. -/
theorem reads_shape (shape : NodeShape) (s : Style α) (h : Reads false t ls) :
    Reads false ('(' :: (shape.keyword.toList ++ (moreChars s.literals ++ ')' :: t)))
      (ShapeSpec.lexemes ⟨shape, .unplaced shape.keyword, s.properties, nowhere⟩ ++ ls) := by
  have hclose : Reads false (TokenKind.rightParen.spelling.toList ++ t) _ :=
    .mark rfl trivial h
  have hstop : StopsAt isNameChar (TokenKind.rightParen.spelling.toList ++ t) := by
    simp [TokenKind.spelling]
    decide
  have hmore : Reads false (moreChars s.literals ++ _) _ :=
    reads_moreChars (fun f hf => mem_literals hf) hstop hclose
  have hfits : TokenKind.shapeName.Fits shape.keyword.toList := by
    change (NodeShape.ofKeyword? (String.ofList shape.keyword.toList)).isSome
    rw [String.ofList_toList, NodeShape.ofKeyword?_keyword]
    rfl
  have hkeyword : Reads false (shape.keyword.toList ++ _)
      (.of .shapeName (String.ofList shape.keyword.toList) :: _) :=
    .token hfits (stopsAt_moreChars hstop) (by simp) hmore
  have hopen : Reads false (TokenKind.leftParen.spelling.toList ++ _) _ :=
    .mark rfl trivial hkeyword
  simpa [ShapeSpec.lexemes, TokenKind.spelling, String.ofList_toList, Lexeme.of,
    Style.properties] using hopen

/-- The text of a node. -/
theorem reads_node {n : Node α} (hid : IsNodeId n.id) (hs : StopsAt isNameChar t)
    (h : Reads false t ls) : Reads false (n.render.toList ++ t) (n.ref.lexemes ++ ls) := by
  have hlabel := reads_renderLabel n.label h
  have hstop := stopsAt_renderLabel n.label hs
  have hshape : n.render.toList = n.id.toList ++
      ((n.writtenShape.elim [] fun s =>
        '(' :: (s.keyword.toList ++ (moreChars n.style.literals ++ [')']))) ++
        (renderLabel n.label).toList) := by
    rw [← toList_moreRender]
    simp only [Node.render, Node.writtenShape, isEmpty_render]
    cases n.shape with
    | some s => simp
    | none => cases n.style.literals <;> simp
  rw [hshape]
  cases hw : n.writtenShape with
  | none =>
    have hname := reads_id hid hstop hlabel
    simpa [NodeRef.lexemes, Node.ref, hw] using hname
  | some s =>
    have hname := reads_id hid ((stopsAt_cons ..).mpr (by decide)) (reads_shape s n.style hlabel)
    simpa [NodeRef.lexemes, Node.ref, hw] using hname

end Reads

/-! ## Edges -/

/-- The chain that is written for an edge. -/
def Edge.chain (e : Edge α) : Chain where
  head := ⟨.ofId e.source, none, none⟩
  links :=
    [⟨.unplaced e.arrow, ⟨.ofId e.target, none, none⟩, e.style.propertyList?,
      e.label.map fun l => .unplaced (labelText l)⟩]

/-- The text of an edge. -/
theorem reads_edge {e : Edge α} {t : List Char} {ls : List Lexeme} (hsource : IsNodeId e.source)
    (htarget : IsNodeId e.target) (hs : StopsAt isNameChar t) (h : Reads false t ls) :
    Reads false (e.render.toList ++ t) (e.chain.lexemes ++ ls) := by
  have htail := reads_renderList e.style (reads_renderLabel e.label h)
  have hto := reads_id htarget (stopsAt_renderList e.style (stopsAt_renderLabel e.label hs)) htail
  have harrow : Reads false ((TokenKind.arrow e.arrow).spelling.toList ++ _) _ :=
    .mark rfl (by simp [TokenKind.EndsBefore]) hto.space
  have hfrom := reads_id hsource ((stopsAt_cons ..).mpr (by decide)) harrow.space
  simpa [Edge.render, Edge.chain, Chain.lexemes, Link.lexemes, NodeRef.lexemes,
    TokenKind.spelling] using hfrom

/-! ## Statements -/

mutual

/-- The tree that is written for a statement.  For a free arrow without properties that
can be written there is none. -/
def Statement.tree : Statement α → List Syntax.Statement
  | .node n => [.chain ⟨n.ref, []⟩]
  | .edge e => [.chain e.chain]
  | .group id style children =>
    [.group nowhere (.unplaced id) style.propertyList? (treeAll children) nowhere]
  | .layout name => [.layout nowhere (.unplaced name)]
  | .freeArrow style => style.propertyList?.toList.map (.freeArrow nowhere)

/-- The trees that are written for some statements. -/
def Statement.treeAll : List (Statement α) → List Syntax.Statement
  | [] => []
  | s :: ss => Statement.tree s ++ treeAll ss

end

/-- The names of a statement are words, apart from the statements inside it. -/
def Statement.HasWords : Statement α → Prop
  | .node n => IsNodeId n.id
  | .edge e => IsNodeId e.source ∧ IsNodeId e.target
  | .group id _ _ => IsWord id
  | .layout name => IsWord name ∨ (NodeShape.ofKeyword? name).isSome
  | .freeArrow _ => True

/-- A word that can name a layout is a token of its own class. -/
theorem fits_layoutName {name : String}
    (h : IsWord name ∨ (NodeShape.ofKeyword? name).isSome) :
    (wordKind name).Fits name.toList ∧
      (wordKind name = .identifier ∨ wordKind name = .shapeName) := by
  have hname : isName name.toList := by
    rcases h with h | h
    · exact h.1
    · exact isName_of_shapeKeyword (by rwa [String.ofList_toList])
  have hfits := fits_wordKind hname
  rw [String.ofList_toList] at hfits
  refine ⟨hfits, ?_⟩
  rcases h with h | h
  · have hkind := (isName_of_fits (k := .identifier) rfl h).2
    rw [String.ofList_toList] at hkind
    exact .inl hkind
  · have hfits : TokenKind.shapeName.Fits name.toList := by
      change (NodeShape.ofKeyword? (String.ofList name.toList)).isSome
      rwa [String.ofList_toList]
    have hkind := (isName_of_fits rfl hfits).2
    rw [String.ofList_toList] at hkind
    exact .inr hkind

section Reads

variable {t : List Char} {ls : List Lexeme}

theorem Reads.indent (depth : Nat) (h : Reads false t ls) :
    Reads false ((indentation depth).toList ++ t) ls := by
  rw [indentation, String.toList_ofList]
  induction 2 * depth with
  | zero => exact h
  | succ n ih => exact ih.space

theorem reads_layout {name : String}
    (hname : IsWord name ∨ (NodeShape.ofKeyword? name).isSome) (hs : StopsAt isNameChar t)
    (h : Reads false t ls) :
    Reads false ("@layout: ".toList ++ (name.toList ++ t))
      (.mark .layout :: .mark .colon :: ⟨wordKind name, name⟩ :: ls) := by
  obtain ⟨hfits, hkind⟩ := fits_layoutName hname
  have hends : (wordKind name).EndsBefore t := by
    rcases hkind with hk | hk <;> rw [hk] <;> exact hs
  have hplain : Lexeme.of (wordKind name) (String.ofList name.toList) = ⟨wordKind name, name⟩ := by
    have hne : wordKind name ≠ .number := by
      rcases hkind with hk | hk <;> rw [hk] <;> decide
    rw [Lexeme.of, if_neg hne, String.ofList_toList]
  have hword : Reads true (name.toList ++ t)
      (.of (wordKind name) (String.ofList name.toList) :: ls) := by
    refine .token hfits hends (fun _ => rfl) ?_
    rcases hkind with hk | hk <;> rw [hk] <;> exact h
  rw [hplain] at hword
  have hcolon : Reads false (TokenKind.colon.spelling.toList ++ _) _ :=
    .mark rfl trivial hword.space
  have hlayout : Reads false (TokenKind.layout.spelling.toList ++ _) _ :=
    .mark rfl (by simp [TokenKind.EndsBefore, TokenKind.spelling]; decide) hcolon
  simpa [TokenKind.spelling] using hlayout

/-- The line of a free arrow, for which nothing is written unless it has properties. -/
theorem reads_freeArrow (depth : Nat) (style : Style α) (h : Reads false t ls) :
    Reads false ((Statement.render depth (.freeArrow style)).toList ++ t)
      (lexemesAll (Statement.tree (.freeArrow style)) ++ ls) := by
  rw [Statement.render, Statement.tree]
  by_cases hempty : style.literals = []
  · simpa [Style.renderList, isEmpty_render, hempty, Style.propertyList?,
      properties_eq_nil.mpr hempty, lexemesAll] using h
  · have hlist : style.propertyList? = some ⟨style.properties, nowhere⟩ := by
      simp [Style.propertyList?, properties_eq_nil, hempty]
    have hstyle := reads_renderList style h.newline
    have harrow : Reads false (TokenKind.freeArrow.spelling.toList ++ _) _ :=
      .mark rfl (stopsAt_renderList style ((stopsAt_cons ..).mpr (by decide))) hstyle
    have hne : style.renderList.isEmpty = false := by
      rw [Bool.eq_false_iff, ne_eq, String.isEmpty_iff, ← String.toList_eq_nil_iff,
        toList_renderList]
      simp [hempty]
    simpa [hne, hlist, lexemesAll, Syntax.Statement.lexemes, TokenKind.spelling]
      using harrow.indent depth

theorem reads_gap (previous : Option String) (kind : String) (h : Reads false t ls) :
    Reads false ((if needsGap previous kind then "\n" else "").toList ++ t) ls := by
  split
  · exact h.newline
  · exact h

mutual

/-- The lines of a statement. -/
theorem reads_render (depth : Nat) : ∀ (st : Statement α), (∀ s ∈ st.flatten, s.HasWords) →
    ∀ {t : List Char} {ls : List Lexeme}, Reads false t ls →
      Reads false ((Statement.render depth st).toList ++ t) (lexemesAll st.tree ++ ls)
  | .node n, hw, t, ls, h => by
    have hid : IsNodeId n.id := hw (.node n) (by simp [Statement.flatten])
    have hnode := reads_node hid ((stopsAt_cons ..).mpr (by decide)) h.newline
    simpa [Statement.render, Statement.tree, lexemesAll, Syntax.Statement.lexemes, Chain.lexemes]
      using hnode.indent depth
  | .edge e, hw, t, ls, h => by
    have hends : IsNodeId e.source ∧ IsNodeId e.target :=
      hw (.edge e) (by simp [Statement.flatten])
    have hedge := reads_edge hends.1 hends.2 ((stopsAt_cons ..).mpr (by decide)) h.newline
    simpa [Statement.render, Statement.tree, lexemesAll, Syntax.Statement.lexemes]
      using hedge.indent depth
  | .group id style children, hw, t, ls, h => by
    have hid : IsWord id := hw (.group id style children) (by simp [Statement.flatten])
    have hinside : ∀ s ∈ Statement.flattenAll children, s.HasWords :=
      fun s hs => hw s (by simp [Statement.flatten, hs])
    -- from the closing brace to the front, as each part is read before what follows it
    have hclose : Reads false (TokenKind.rightBrace.spelling.toList ++ _) _ :=
      .mark rfl trivial h.newline
    have hbody := reads_renderAll (depth + 1) none children hinside (hclose.indent depth)
    have hopen : Reads false (TokenKind.leftBrace.spelling.toList ++ _) _ :=
      .mark rfl trivial hbody.newline
    have hstyle := reads_renderList style hopen.space
    have hname : Reads false (id.toList ++ _) _ :=
      .word hid (stopsAt_renderList style ((stopsAt_cons ..).mpr (by decide))) hstyle
    have hgroup : Reads false (TokenKind.group.spelling.toList ++ _) _ :=
      .mark rfl ((stopsAt_cons ..).mpr (by decide)) hname.space
    simpa [Statement.render, Statement.tree, lexemesAll, Syntax.Statement.lexemes,
      TokenKind.spelling] using hgroup.indent depth
  | .layout name, hw, t, ls, h => by
    have hname : IsWord name ∨ (NodeShape.ofKeyword? name).isSome :=
      hw (.layout name) (by simp [Statement.flatten])
    have hlayout := reads_layout hname ((stopsAt_cons ..).mpr (by decide)) h.newline
    simpa [Statement.render, Statement.tree, lexemesAll, Syntax.Statement.lexemes]
      using hlayout.indent depth
  | .freeArrow style, _, t, ls, h => reads_freeArrow depth style h

/-- **The text of statements whose names are words reads as the lexemes of their tree.** -/
theorem reads_renderAll (depth : Nat) (previous : Option String) : ∀ (ss : List (Statement α)),
    (∀ s ∈ Statement.flattenAll ss, s.HasWords) →
    ∀ {t : List Char} {ls : List Lexeme}, Reads false t ls →
      Reads false ((Statement.renderAll depth previous ss).toList ++ t)
        (lexemesAll (Statement.treeAll ss) ++ ls)
  | [], _, t, ls, h => by
    simpa [Statement.renderAll, Statement.treeAll, lexemesAll] using h
  | s :: ss, hw, t, ls, h => by
    have hrest := reads_renderAll depth (some s.kindName) ss
      (fun r hr => hw r (by simp [Statement.flattenAll, hr])) h
    have hfirst := reads_render depth s
      (fun r hr => hw r (by simp [Statement.flattenAll, hr])) hrest
    simpa [Statement.renderAll, Statement.treeAll]
      using reads_gap previous s.kindName hfirst

end

end Reads

/-! ## Proper trees -/

theorem isProper_propertyList? (s : Style α) : ∀ ps ∈ s.propertyList?, ps.IsProper := by
  intro ps hps
  rw [Style.propertyList?] at hps
  split at hps
  · cases hps
  · next hne =>
    obtain rfl := Option.some.inj hps
    exact fun hnil => hne (List.isEmpty_iff.mpr hnil)

theorem isProper_ref (n : Node α) : n.ref.IsProper := by
  intro spec hspec
  obtain ⟨shape, -, rfl⟩ := Option.map_eq_some_iff.mp hspec
  exact NodeShape.ofKeyword?_keyword shape

theorem isProper_chain (e : Edge α) : e.chain.IsProper := by
  have hbare (name : NodeName) : NodeRef.IsProper ⟨name, none, none⟩ := nofun
  refine ⟨hbare _, fun l hl => ?_⟩
  obtain rfl := List.mem_singleton.mp hl
  exact ⟨hbare _, isProper_propertyList? e.style, ⟨nofun, fun _ => .inl rfl⟩⟩

/-- A list of one tree. -/
@[simp] theorem areProper_singleton {st : Syntax.Statement} : AreProper [st] ↔ st.IsProper := by
  rw [AreProper, AreProper, and_true]

mutual

theorem areProper_tree : ∀ (st : Statement α), (∀ s ∈ st.flatten, s.HasWords) → AreProper st.tree
  | .node n, _ => by
    rw [Statement.tree, areProper_singleton, Syntax.Statement.IsProper]
    exact ⟨isProper_ref n, fun l hl => absurd hl List.not_mem_nil⟩
  | .edge e, _ => by
    rw [Statement.tree, areProper_singleton, Syntax.Statement.IsProper]
    exact isProper_chain e
  | .group id style children, hw => by
    rw [Statement.tree, areProper_singleton, Syntax.Statement.IsProper]
    refine ⟨isProper_propertyList? style, areProper_treeAll children ?_⟩
    intro s hs
    exact hw s (by simp [Statement.flatten, hs])
  | .layout name, hw => by
    have hname : IsWord name ∨ (NodeShape.ofKeyword? name).isSome :=
      hw (.layout name) (by simp [Statement.flatten])
    rw [Statement.tree, areProper_singleton, Syntax.Statement.IsProper]
    exact (fits_layoutName hname).2
  | .freeArrow style, _ => by
    rw [Statement.tree]
    cases hps : style.propertyList? with
    | none => exact trivial
    | some ps =>
      rw [Option.toList_some, List.map_singleton, areProper_singleton, Syntax.Statement.IsProper]
      exact isProper_propertyList? style ps hps

/-- **The tree that is written for statements is one that the grammar derives.** -/
theorem areProper_treeAll : ∀ (ss : List (Statement α)),
    (∀ s ∈ Statement.flattenAll ss, s.HasWords) → AreProper (Statement.treeAll ss)
  | [], _ => trivial
  | s :: ss, hw => by
    rw [Statement.treeAll]
    exact areProper_append.mpr
      ⟨areProper_tree s fun r hr => hw r (by simp [Statement.flattenAll, hr]),
        areProper_treeAll ss fun r hr => hw r (by simp [Statement.flattenAll, hr])⟩

end

/-! ## Reading back -/

/-- **A text that reads as the lexemes of a proper tree is parsed to it without an error.** -/
theorem Reads.parse {text : String} {tree : List Syntax.Statement} (htree : AreProper tree)
    (h : Reads false text.toList (lexemesAll tree)) :
    (Syntax.parse text).2 = [] ∧ bareAll (Syntax.parse text).1 = bareAll tree := by
  obtain ⟨hissues, hbare⟩ :
      (parseTokens (endSpan text.toList) (tokenize text).1).2 = [] ∧ _ :=
    parseTokens_complete htree h.lexemes_tokenize
  refine ⟨?_, hbare⟩
  simp only [Syntax.parse, h.issues_tokenize, hissues, List.append_nil, List.mergeSort_nil]

end Diagram
