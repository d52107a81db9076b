import Diagram.Proofs.RoundTrip

/-!
# Documents that were read from a text

A document that was read from a text can be written: its names are words, its labels have
no quotes, its texts are colours and words, and its numbers are whole numbers as they were
written.  All of this is known of the lexemes and kept by the walk over the tree.
-/

namespace Diagram

open Syntax

/-! ## Lexemes -/

/-- The text is one of its class; a number counts only by its value. -/
def Lexeme.IsFitting (l : Lexeme) : Prop := l.kind ≠ .number → l.kind.Fits l.text.toList

theorem isFitting_lexeme {t : Token} (h : t.Fits) : t.lexeme.IsFitting := by
  intro hne
  rw [lexeme_of_ne_number hne]
  exact h

/-- Where a text has no messages, neither the lexer nor the parser has any. -/
theorem issues_of_parse {text : String} (h : (Syntax.parse text).2 = []) :
    (tokenize text).2 = [] ∧ (parseTokens (endSpan text.toList) (tokenize text).1).2 = [] := by
  have hall : (tokenize text).2 ++ (parseTokens (endSpan text.toList) (tokenize text).1).2 =
      [] := by
    rw [← List.length_eq_zero_iff] at h ⊢
    simpa [Syntax.parse] using h
  exact List.append_eq_nil_iff.mp hall

/-- Every lexeme of the text of a token list fits. -/
theorem isFitting_of_parse {text : String} (h : (Syntax.parse text).2 = []) :
    (∀ l ∈ lexemesAll (Syntax.parse text).1, l.IsFitting) ∧ AreProper (Syntax.parse text).1 := by
  obtain ⟨hlexemes, hproper⟩ :=
    parseTokens_sound (fun t ht => fits_of_mem_tokenize ht) (issues_of_parse h).2
  refine ⟨fun l hl => ?_, hproper⟩
  have hl : l ∈ lexemesAll (parseTokens (endSpan text.toList) (tokenize text).1).1 := hl
  rw [← hlexemes] at hl
  obtain ⟨t, ht, rfl⟩ := List.mem_map.mp hl
  exact isFitting_lexeme (fits_of_mem_tokenize ht)

mutual

theorem mem_lexemes_of_mem_flatten {st : Syntax.Statement} {l : Lexeme} (hl : l ∈ st.lexemes) :
    ∀ (s : Syntax.Statement), st ∈ s.flatten → l ∈ s.lexemes
  | .group k id style body close, hst => by
    rw [Syntax.Statement.flatten] at hst
    rcases List.mem_cons.mp hst with rfl | hst
    · exact hl
    · have hbody := mem_lexemesAll_of_mem_flattenAll hl body hst
      simp [Syntax.Statement.lexemes, hbody]
  | .layout .., hst | .freeArrow .., hst | .chain _, hst => by
    simp only [Syntax.Statement.flatten, List.mem_singleton] at hst
    exact hst ▸ hl

/-- The lexemes of a part of a tree are lexemes of the tree. -/
theorem mem_lexemesAll_of_mem_flattenAll {st : Syntax.Statement} {l : Lexeme}
    (hl : l ∈ st.lexemes) : ∀ (tree : List Syntax.Statement),
    st ∈ Syntax.Statement.flattenAll tree → l ∈ lexemesAll tree
  | [], hst => by cases hst
  | s :: tree, hst => by
    rw [Syntax.Statement.flattenAll] at hst
    rw [lexemesAll, List.mem_append]
    rcases List.mem_append.mp hst with hst | hst
    · exact .inl (mem_lexemes_of_mem_flatten hl s hst)
    · exact .inr (mem_lexemesAll_of_mem_flattenAll hl tree hst)

end

/-! ## Names and labels -/

theorem isWord_of_isFitting {text : String} (h : (word text).IsFitting) : IsWord text :=
  h TokenKind.noConfusion

theorem isNodeId_text {n : NodeName} (h : ∀ l ∈ n.lexemes, l.IsFitting) : IsNodeId n.text := by
  obtain ⟨head, member⟩ := n
  have hhead : IsWord head.value := isWord_of_isFitting (h _ (by simp [NodeName.lexemes]))
  cases member with
  | none => exact .inl hhead
  | some m =>
    have hmember : IsWord m.value := isWord_of_isFitting (h _ (by simp [NodeName.lexemes]))
    exact .inr ⟨head.value, m.value, hhead, hmember, rfl⟩

theorem isNodeId_id {r : NodeRef} (h : ∀ l ∈ r.lexemes, l.IsFitting) : IsNodeId r.id := by
  refine isNodeId_text fun l hl => h l ?_
  simp [NodeRef.lexemes, hl]

/-- There is no quote between the quotes of a label. -/
theorem quote_notMem_of_label {label : Option (Located String)}
    (h : ∀ l ∈ label.elim [] labelLexemes, l.IsFitting) :
    ∀ text ∈ label.map Located.value, '"' ∉ text.toList := by
  intro text htext
  obtain ⟨located, rfl, rfl⟩ := Option.map_eq_some_iff.mp htext
  have hstring : Lexeme.IsFitting ⟨.string, "\"" ++ located.value ++ "\""⟩ :=
    h _ (by simp [labelLexemes])
  obtain ⟨body, hbody, hquoted⟩ := hstring TokenKind.noConfusion
  have hsame : located.value.toList = body := by simpa using hquoted
  rwa [hsame]

/-! ## Styles -/

variable {α : Type} [Scalar α]

/-- The texts are colours and words, and the numbers are whole numbers as written. -/
structure Style.IsRead (s : Style α) : Prop where
  texts : s.HasTextValues
  numbers : ∀ k, ∀ v ∈ s.number k, ∃ n : Numeral, v = n.scalar

theorem isRead_default : Style.IsRead ({} : Style α) where
  texts k v hv := by
    rw [Style.text_default] at hv
    cases hv
  numbers k v hv := by
    rw [Style.number_default] at hv
    cases hv

theorem Style.IsRead.merge {s t : Style α} (hs : s.IsRead) (ht : t.IsRead) :
    (s.merge t).IsRead where
  texts k v hv := by
    rw [Style.text_merge] at hv
    cases hk : t.text k with
    | none => exact hs.texts k v (by simpa [hk] using hv)
    | some w => exact ht.texts k v (by simpa [hk] using hv)
  numbers k v hv := by
    rw [Style.number_merge] at hv
    cases hk : t.number k with
    | none => exact hs.numbers k v (by simpa [hk] using hv)
    | some w => exact ht.numbers k v (by simpa [hk] using hv)

theorem Style.IsRead.setNumber {s : Style α} (h : s.IsRead) (n : Numeral) (j : NumberKey) :
    (s.setNumber n.scalar j).IsRead where
  texts k v hv := h.texts k v (by rwa [Style.text_setNumber] at hv)
  numbers k v hv := by
    rw [Style.number_setNumber] at hv
    split at hv
    · exact ⟨n, (Option.some.inj hv).symm⟩
    · exact h.numbers k v hv

theorem Style.IsRead.setText {s : Style α} (h : s.IsRead) {text : String}
    (htext : IsTextValue text) (j : TextKey) : (s.setText text j).IsRead where
  texts k v hv := by
    rw [Style.text_setText] at hv
    split at hv
    · obtain rfl := Option.some.inj hv
      exact htext
    · exact h.texts k v hv
  numbers k v hv := h.numbers k v (by rwa [Style.number_setText] at hv)

theorem Style.IsRead.setText? {s : Style α} (h : s.IsRead) {text : String}
    (htext : IsTextValue text) (key : String) : ((s.setText? key text).getD s).IsRead := by
  rw [Style.setText?]
  split
  · exact h.setText htext _
  · exact h

theorem Style.IsRead.setNumber? {s : Style α} (h : s.IsRead) (n : Numeral) (key : String) :
    ((s.setNumber? key n.scalar).getD s).IsRead := by
  rw [Style.setNumber?]
  split
  · exact h.setNumber n _
  · exact h

theorem Style.IsRead.add {s : Style α} (h : s.IsRead) {p : Property}
    (hp : p.value.value.lexeme.IsFitting) : (s.add p).IsRead := by
  rw [Style.add]
  cases hv : p.value.value with
  | number n => exact h.setNumber? n p.key.value
  | color text =>
    rw [hv] at hp
    exact h.setText? (.inl (hp TokenKind.noConfusion)) p.key.value
  | name text =>
    rw [hv] at hp
    exact h.setText? (.inr (isWord_of_isFitting hp)) p.key.value

theorem isRead_ofProperties {ps : List Property}
    (h : ∀ p ∈ ps, p.value.value.lexeme.IsFitting) :
    (Style.ofProperties ps : Style α).IsRead := by
  have hfold : ∀ {ps : List Property} {s : Style α}, s.IsRead →
      (∀ p ∈ ps, p.value.value.lexeme.IsFitting) → (ps.foldl Style.add s).IsRead := by
    intro ps
    induction ps with
    | nil => exact fun hs _ => hs
    | cons p ps ih =>
      intro s hs hps
      exact ih (hs.add (hps p List.mem_cons_self)) fun q hq => hps q (List.mem_cons_of_mem p hq)
  exact hfold isRead_default h

/-- The value of each property that follows a comma is one of the lexemes. -/
theorem mem_moreLexemes {ps : List Property} {p : Property} (hp : p ∈ ps) :
    p.value.value.lexeme ∈ moreLexemes ps :=
  List.mem_flatMap.mpr ⟨p, hp, by simp [Property.lexemes]⟩

theorem mem_propertyLexemes {ps : List Property} {p : Property} (hp : p ∈ ps) :
    p.value.value.lexeme ∈ propertyLexemes ps := by
  cases ps with
  | nil => cases hp
  | cons q qs =>
    rw [propertyLexemes, List.mem_append]
    rcases List.mem_cons.mp hp with rfl | hp
    · exact .inl (by simp [Property.lexemes])
    · exact .inr (mem_moreLexemes hp)

theorem isRead_ofList {ps : PropertyList} (h : ∀ l ∈ ps.lexemes, l.IsFitting) :
    (Style.ofProperties ps.items : Style α).IsRead := by
  refine isRead_ofProperties fun p hp => h _ ?_
  simp [PropertyList.lexemes, mem_propertyLexemes hp]

theorem isRead_ofList? {ps : Option PropertyList}
    (h : ∀ l ∈ ps.elim [] PropertyList.lexemes, l.IsFitting) :
    (Style.ofList? ps : Style α).IsRead := by
  cases ps with
  | none => exact isRead_default
  | some ps => exact isRead_ofList h

/-! ## Nodes -/

/-- The name is one or two words, the label has no quotes, and properties have a shape to
stand behind. -/
structure Node.IsRead (n : Node α) : Prop where
  id : IsNodeId n.id
  label : ∀ l ∈ n.label, '"' ∉ l.toList
  style : n.style.IsRead
  shape : n.style.isEmpty = false → n.shape.isSome

theorem isRead_ofRef {r : NodeRef} (h : ∀ l ∈ r.lexemes, l.IsFitting) :
    (Node.ofRef r : Node α).IsRead where
  id := isNodeId_id h
  label := quote_notMem_of_label fun l hl => h l (by simp [NodeRef.lexemes, hl])
  style := by
    rw [Node.ofRef]
    cases hs : r.shape with
    | none => exact isRead_default
    | some s =>
      refine isRead_ofProperties fun p hp => h _ ?_
      simp [NodeRef.lexemes, hs, ShapeSpec.lexemes, mem_moreLexemes hp]
  shape := by
    rw [Node.ofRef]
    cases hs : r.shape with
    | none =>
      intro hne
      exact Bool.noConfusion hne
    | some s => exact fun _ => rfl

theorem Node.IsRead.merge {m n : Node α} (hm : m.IsRead) (hn : n.IsRead) :
    (m.merge n).IsRead where
  id := hm.id
  label l hl := by
    rw [Node.merge] at hl
    cases hk : n.label with
    | none => exact hm.label l (by simpa [hk] using hl)
    | some k => exact hn.label l (by simpa [hk] using hl)
  style := hm.style.merge hn.style
  shape hne := by
    have hshape : (m.merge n).shape = (n.shape <|> m.shape) := rfl
    rw [hshape]
    by_cases hempty : n.style.isEmpty = true
    · have hmne : m.style.isEmpty = false := by
        by_contra h
        rw [Node.merge, isEmpty_merge (Bool.of_not_eq_false h) hempty] at hne
        cases hne
      have hsome := hm.shape hmne
      cases n.shape with
      | none => simpa using hsome
      | some s => rfl
    · have hsome := hn.shape (Bool.eq_false_iff.mpr hempty)
      cases hs : n.shape with
      | none =>
        rw [hs] at hsome
        cases hsome
      | some s => rfl

/-! ## Statements -/

section Tree

variable {tree : List Syntax.Statement} (hfit : ∀ l ∈ lexemesAll tree, l.IsFitting)
include hfit

theorem isFitting_of_mem_chains {c : Chain} (hc : c ∈ chains tree) :
    ∀ l ∈ c.lexemes, l.IsFitting := by
  intro l hl
  obtain ⟨st, hst, hchain⟩ := List.mem_filterMap.mp hc
  cases st <;> cases hchain
  exact hfit l (mem_lexemesAll_of_mem_flattenAll (by rwa [Syntax.Statement.lexemes]) tree hst)

theorem isFitting_of_mem_refs {c : Chain} (hc : c ∈ chains tree) {r : NodeRef}
    (hr : r ∈ c.refs) : ∀ l ∈ r.lexemes, l.IsFitting := by
  intro l hl
  refine isFitting_of_mem_chains hfit hc l ?_
  rw [Chain.lexemes, List.mem_append]
  rcases List.mem_cons.mp hr with rfl | hr
  · exact .inl hl
  · obtain ⟨k, hk, rfl⟩ := List.mem_map.mp hr
    exact .inr (List.mem_flatMap.mpr ⟨k, hk, by simp [Link.lexemes, hl]⟩)

theorem isFitting_of_mem_nodeRefs {r : NodeRef} (hr : r ∈ nodeRefs tree) :
    ∀ l ∈ r.lexemes, l.IsFitting := by
  obtain ⟨c, hc, hr⟩ := List.mem_flatMap.mp hr
  exact isFitting_of_mem_refs hfit hc hr

theorem isRead_of_mem_recordsOf {n : Node α} (hn : n ∈ recordsOf tree) : n.IsRead :=
  Registry.forall_mem_addAll (fun _ _ => Node.IsRead.merge)
    (fun _ hr => isRead_ofRef (isFitting_of_mem_nodeRefs hfit hr))
    (fun _ hm => absurd hm List.not_mem_nil) n hn

/-- The label and the properties of an edge are those of its link. -/
theorem isRead_edge {e : Edge α} (he : .edge e ∈ Statement.flattenAll (statementsOf tree)) :
    (∀ l ∈ e.label, '"' ∉ l.toList) ∧ e.style.IsRead := by
  obtain ⟨c, hc, hedge⟩ := comesFrom_statementsOf he
  obtain ⟨⟨k, hk, hlink⟩, -⟩ := mem_edgesOf hedge
  have hlexemes : ∀ l ∈ k.lexemes, l.IsFitting := by
    intro l hl
    refine isFitting_of_mem_chains hfit hc l ?_
    rw [Chain.lexemes, List.mem_append]
    exact .inr (List.mem_flatMap.mpr ⟨k, hk, hl⟩)
  rw [hlink]
  constructor
  · exact quote_notMem_of_label fun l hl => hlexemes l (by simp [Link.lexemes, hl])
  · exact isRead_ofList? fun l hl => hlexemes l (by simp [Link.lexemes, hl])

/-- The name and the properties of a group are those of its header. -/
theorem isRead_group {id : String} {style : Style α} {children : List (Statement α)}
    (h : .group id style children ∈ Statement.flattenAll (statementsOf tree)) :
    IsWord id ∧ style.IsRead := by
  obtain ⟨k, name, ps, body, close, hmem, rfl, rfl⟩ := comesFrom_statementsOf h
  have hlexemes : ∀ l ∈ Syntax.Statement.lexemes (.group k name ps body close), l.IsFitting :=
    fun l hl => hfit l (mem_lexemesAll_of_mem_flattenAll hl tree hmem)
  rw [Syntax.Statement.lexemes] at hlexemes
  constructor
  · exact isWord_of_isFitting (hlexemes _ (by simp))
  · exact isRead_ofList? fun l hl => hlexemes l (by simp [hl])

theorem isRead_freeArrow {style : Style α}
    (h : .freeArrow style ∈ Statement.flattenAll (statementsOf tree)) : style.IsRead := by
  obtain ⟨k, ps, hmem, rfl⟩ := comesFrom_statementsOf h
  refine isRead_ofList fun l hl => hfit l (mem_lexemesAll_of_mem_flattenAll ?_ tree hmem)
  rw [Syntax.Statement.lexemes]
  exact List.mem_cons_of_mem _ hl

/-- A layout is named by a word, which can be a shape keyword. -/
theorem isWord_layout (hproper : AreProper tree) {name : String}
    (h : (.layout name : Statement α) ∈ Statement.flattenAll (statementsOf tree)) :
    IsWord name ∨ (NodeShape.ofKeyword? name).isSome := by
  obtain ⟨k, located, hmem, rfl⟩ := comesFrom_statementsOf h
  have hlexeme : Lexeme.IsFitting ⟨wordKind located.value, located.value⟩ := by
    refine hfit _ (mem_lexemesAll_of_mem_flattenAll ?_ tree hmem)
    simp [Syntax.Statement.lexemes]
  have hkind := isProper_of_mem_flattenAll tree hproper _ hmem
  rw [Syntax.Statement.IsProper] at hkind
  rcases hkind with hk | hk <;> rw [hk] at hlexeme
  · exact .inl (hlexeme TokenKind.noConfusion)
  · have hshape : TokenKind.shapeName.Fits located.value.toList := hlexeme TokenKind.noConfusion
    have hshape : (NodeShape.ofKeyword? (String.ofList located.value.toList)).isSome := hshape
    rw [String.ofList_toList] at hshape
    exact .inr hshape

theorem isNodeId_of_mem_nodeIds {id : String}
    (h : id ∈ Statement.nodeIds (statementsOf tree : List (Statement α))) : IsNodeId id := by
  obtain ⟨r, hr, rfl⟩ := mem_nodeIds_statementsOf.mp h
  exact isNodeId_id (isFitting_of_mem_nodeRefs hfit hr)

/-- **The statements of a tree can be written.** -/
theorem areWritable_statementsOf (hproper : AreProper tree) :
    Statement.AreWritable (statementsOf tree : List (Statement α)) where
  words s hs := by
    cases s with
    | node n => exact (isRead_of_mem_recordsOf hfit (mem_recordsOf hs)).id
    | edge e =>
      obtain ⟨hsource, htarget⟩ := ends_mem_nodeIds hs
      exact ⟨isNodeId_of_mem_nodeIds hfit hsource, isNodeId_of_mem_nodeIds hfit htarget⟩
    | group id style children => exact (isRead_group hfit hs).1
    | layout name => exact isWord_layout hfit hproper hs
    | freeArrow style => trivial
  nodup := nodup_nodeIds_statementsOf tree
  ends _ he := ends_mem_nodeIds he

theorem hasLiterals_statementsOf :
    ∀ s ∈ Statement.flattenAll (statementsOf tree : List (Statement α)), s.HasLiterals := by
  intro s hs
  cases s with
  | node n =>
    have hn := isRead_of_mem_recordsOf hfit (mem_recordsOf hs)
    exact ⟨hn.label, hn.style.texts, hn.shape⟩
  | edge e =>
    obtain ⟨hlabel, hstyle⟩ := isRead_edge hfit hs
    exact ⟨hlabel, hstyle.texts⟩
  | group id style children => exact (isRead_group hfit hs).2.texts
  | layout name => trivial
  | freeArrow style => exact (isRead_freeArrow hfit hs).texts

/-- **Every number of a document is a whole number as it was written.** -/
theorem allNumbers_statementsOf : Statement.AllNumbers (fun v => ∃ n : Numeral, v = n.scalar)
    (statementsOf tree : List (Statement α)) := by
  intro s hs
  cases s with
  | node n => exact (isRead_of_mem_recordsOf hfit (mem_recordsOf hs)).style.numbers
  | edge e => exact (isRead_edge hfit hs).2.numbers
  | group id style children => exact (isRead_group hfit hs).2.numbers
  | layout name => exact isRead_default.numbers
  | freeArrow style => exact (isRead_freeArrow hfit hs).numbers

end Tree

end Diagram
