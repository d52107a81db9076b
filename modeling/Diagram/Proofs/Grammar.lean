import Diagram.Proofs.Parsing
import Diagram.Proofs.Reading
import Mathlib.Computability.Language

/-!
# The grammar of the language

The grammar as languages of token classes, production by production, and the theorem
that the parser accepts exactly these.  In the written grammar any node reference may
carry a label, so the label of an edge could also be that of its target.  The parser
decides for the edge: a target without a shape has no label.  The grammar is therefore
given over the language of edge targets, which is `nodeRef` as written and `edgeTarget` as
accepted.

## Main definitions

* `IsDocument`, `IsStatement` — the token classes of a document and of a statement.
* `nodeRef`, `edgeTarget` — references as written, and as the parser takes them behind an
  edge operator.

## Main statements

* `parseTokens_exact` — what is parsed without errors, and what the tree is then.
-/

namespace Diagram.Grammar

open Syntax Computability

/-! ## Productions -/

/-- One token of a class. -/
def token (k : TokenKind) : Language TokenKind := {[k]}

/-- A part that can be left out. -/
def opt (l : Language TokenKind) : Language TokenKind := 1 + l

/-- A key with its value. -/
def property : Language TokenKind :=
  token .identifier * (token .colon * (token .color + token .number + token .identifier))

/-- Properties with commas between them. -/
def properties : Language TokenKind := property * (token .comma * property)∗

/-- Properties in parentheses. -/
def propertyList : Language TokenKind := token .leftParen * (properties * token .rightParen)

/-- A label behind its colon. -/
def label : Language TokenKind := token .colon * token .string

/-- A shape with its properties, in parentheses. -/
def shapeSpec : Language TokenKind :=
  token .leftParen * (token .shapeName * (opt (token .comma * properties) * token .rightParen))

/-- The name of a node. -/
def nodeName : Language TokenKind := token .identifier * opt (token .dot * token .identifier)

/-- A node reference. -/
def nodeRef : Language TokenKind := nodeName * (opt shapeSpec * opt label)

/-- A node reference whose label, if it has one, stands behind a shape. -/
def edgeTarget : Language TokenKind := nodeName * opt (shapeSpec * opt label)

/-- An edge operator. -/
def arrow : Language TokenKind := {w | ∃ a, w = [.arrow a]}

/-- An edge operator, its target, and what belongs to the edge. -/
def link (target : Language TokenKind) : Language TokenKind :=
  arrow * (target * (opt propertyList * opt label))

/-- A node reference and its links. -/
def chain (target : Language TokenKind) : Language TokenKind := nodeRef * (link target)∗

/-- A layout directive. -/
def layout : Language TokenKind :=
  token .layout * (token .colon * (token .identifier + token .shapeName))

/-- A free arrow. -/
def freeArrow : Language TokenKind := token .freeArrow * propertyList

/-- A group up to its opening brace. -/
def groupHeader : Language TokenKind :=
  token .group * (token .identifier * (opt propertyList * token .leftBrace))

mutual

/-- The token classes of one statement. -/
inductive IsStatement (target : Language TokenKind) : List TokenKind → Prop where
  | group {header body : List TokenKind} : header ∈ groupHeader → IsDocument target body →
      IsStatement target (header ++ (body ++ [.rightBrace]))
  | layout {w : List TokenKind} : w ∈ layout → IsStatement target w
  | freeArrow {w : List TokenKind} : w ∈ freeArrow → IsStatement target w
  | chain {w : List TokenKind} : w ∈ chain target → IsStatement target w

/-- The token classes of a sequence of statements. -/
inductive IsDocument (target : Language TokenKind) : List TokenKind → Prop where
  | nil : IsDocument target []
  | cons {w ws : List TokenKind} : IsStatement target w → IsDocument target ws →
      IsDocument target (w ++ ws)

end

/-! ## Languages of tokens -/

/-- The classes of some tokens. -/
abbrev kinds (ts : List Token) : List TokenKind := ts.map Token.kind

theorem mem_token {k : TokenKind} {w : List TokenKind} : w ∈ token k ↔ w = [k] := Iff.rfl

theorem kinds_mem_token {k : TokenKind} {ts : List Token} :
    kinds ts ∈ token k ↔ ∃ t, ts = [t] ∧ t.kind = k := by
  rw [mem_token, kinds, List.map_eq_singleton_iff]

theorem kinds_mem_mul {l m : Language TokenKind} {ts : List Token} :
    kinds ts ∈ l * m ↔ ∃ us vs, ts = us ++ vs ∧ kinds us ∈ l ∧ kinds vs ∈ m := by
  rw [Language.mem_mul]
  constructor
  · rintro ⟨a, ha, b, hb, hab⟩
    obtain ⟨us, vs, rfl, rfl, rfl⟩ := List.map_eq_append_iff.mp hab.symm
    exact ⟨us, vs, rfl, ha, hb⟩
  · rintro ⟨us, vs, rfl, hus, hvs⟩
    exact ⟨_, hus, _, hvs, List.map_append.symm⟩

theorem mem_opt {l : Language TokenKind} {w : List TokenKind} : w ∈ opt l ↔ w = [] ∨ w ∈ l :=
  Language.mem_add _ _ _

theorem kinds_mem_opt {l : Language TokenKind} {ts : List Token} :
    kinds ts ∈ opt l ↔ ts = [] ∨ kinds ts ∈ l := by
  rw [mem_opt, kinds, List.map_eq_nil_iff]

/-- The tokens of a repetition fall into the tokens of its steps. -/
theorem kinds_mem_kstar {l : Language TokenKind} {ts : List Token} (h : kinds ts ∈ l∗) :
    ∃ tss : List (List Token), ts = tss.flatten ∧ ∀ us ∈ tss, kinds us ∈ l := by
  obtain ⟨ws, hws, hall⟩ := Language.mem_kstar.mp h
  induction ws generalizing ts with
  | nil =>
    refine ⟨[], ?_, by simp⟩
    simpa using hws
  | cons w ws ih =>
    rw [List.flatten_cons] at hws
    obtain ⟨us, vs, rfl, rfl, hvs⟩ := List.map_eq_append_iff.mp hws
    obtain ⟨hw, hrest⟩ := List.forall_mem_cons.mp hall
    have hmem : kinds vs ∈ l∗ := by
      rw [kinds, hvs]
      exact Language.join_mem_kstar hrest
    obtain ⟨tss, rfl, htss⟩ := ih hmem hvs hrest
    exact ⟨us :: tss, rfl, List.forall_mem_cons.mpr ⟨hw, htss⟩⟩

/-- Steps put together are a repetition. -/
theorem flatMap_mem_kstar {β : Type} {l : Language TokenKind} {f : β → List Lexeme} {xs : List β}
    (h : ∀ x ∈ xs, (f x).map Lexeme.kind ∈ l) : (xs.flatMap f).map Lexeme.kind ∈ l∗ := by
  refine Language.mem_kstar.mpr ⟨xs.map fun x => (f x).map Lexeme.kind, ?_, ?_⟩
  · rw [List.map_flatMap, List.flatMap_def]
  · simpa using h

/-- Lexemes have the classes of their tokens. -/
theorem map_kind_lexemes (ts : List Token) : (ts.map Token.lexeme).map Lexeme.kind = kinds ts := by
  rw [List.map_map]
  rfl

theorem map_kind_mem_mul {l m : Language TokenKind} {ls ms : List Lexeme}
    (hl : ls.map Lexeme.kind ∈ l) (hm : ms.map Lexeme.kind ∈ m) :
    (ls ++ ms).map Lexeme.kind ∈ l * m := by
  rw [List.map_append]
  exact Language.append_mem_mul hl hm

theorem map_kind_mem_cons {k : TokenKind} {m : Language TokenKind} {x : Lexeme} {ms : List Lexeme}
    (hx : x.kind = k) (hm : ms.map Lexeme.kind ∈ m) :
    (x :: ms).map Lexeme.kind ∈ token k * m := by
  have hsingle : [x].map Lexeme.kind ∈ token k := by rw [mem_token, List.map_singleton, hx]
  exact map_kind_mem_mul hsingle hm

theorem map_kind_mem_opt {β : Type} {l : Language TokenKind} {f : β → List Lexeme} {o : Option β}
    (h : ∀ x ∈ o, (f x).map Lexeme.kind ∈ l) : (o.elim [] f).map Lexeme.kind ∈ opt l := by
  cases o with
  | none => exact mem_opt.mpr (.inl rfl)
  | some x => exact mem_opt.mpr (.inr (h x rfl))

/-! ## Trees are derived -/

theorem property_mem (p : Syntax.Property) : p.lexemes.map Lexeme.kind ∈ property := by
  refine map_kind_mem_cons rfl (map_kind_mem_cons rfl ?_)
  cases p.value.value with
  | color text => exact .inl (.inl rfl)
  | number n => exact .inl (.inr rfl)
  | name text => exact .inr rfl

theorem moreProperties_mem (ps : List Syntax.Property) :
    (moreLexemes ps).map Lexeme.kind ∈ (token .comma * property)∗ :=
  flatMap_mem_kstar fun p _ => map_kind_mem_cons rfl (property_mem p)

theorem properties_mem (p : Syntax.Property) (ps : List Syntax.Property) :
    (propertyLexemes (p :: ps)).map Lexeme.kind ∈ properties :=
  map_kind_mem_mul (property_mem p) (moreProperties_mem ps)

theorem propertyList_mem {ps : PropertyList} (h : ps.IsProper) :
    ps.lexemes.map Lexeme.kind ∈ propertyList := by
  obtain ⟨p, qs, hps⟩ := List.exists_cons_of_ne_nil h
  rw [PropertyList.lexemes, hps]
  exact map_kind_mem_cons rfl (map_kind_mem_mul (properties_mem p qs) rfl)

theorem label_mem (text : Located String) : (labelLexemes text).map Lexeme.kind ∈ label :=
  map_kind_mem_cons rfl rfl

theorem shapeSpec_mem (s : Syntax.ShapeSpec) : s.lexemes.map Lexeme.kind ∈ shapeSpec := by
  refine map_kind_mem_cons rfl (map_kind_mem_cons rfl (map_kind_mem_mul ?_ rfl))
  cases s.properties with
  | nil => exact mem_opt.mpr (.inl rfl)
  | cons p ps =>
    rw [moreLexemes_cons]
    exact mem_opt.mpr (.inr (map_kind_mem_cons rfl (properties_mem p ps)))

theorem nodeName_mem (n : Syntax.NodeName) : n.lexemes.map Lexeme.kind ∈ nodeName :=
  map_kind_mem_cons rfl (map_kind_mem_opt fun _ _ => map_kind_mem_cons rfl rfl)

theorem nodeRef_mem (r : Syntax.NodeRef) : r.lexemes.map Lexeme.kind ∈ nodeRef :=
  map_kind_mem_mul (nodeName_mem r.name)
    (map_kind_mem_mul (map_kind_mem_opt fun s _ => shapeSpec_mem s)
      (map_kind_mem_opt fun text _ => label_mem text))

/-- The target of an edge has a label only behind a shape. -/
theorem edgeTarget_mem {r : Syntax.NodeRef} (h : r.label.isSome → r.shape.isSome) :
    r.lexemes.map Lexeme.kind ∈ edgeTarget := by
  refine map_kind_mem_mul (nodeName_mem r.name) ?_
  cases hshape : r.shape with
  | some s =>
    exact mem_opt.mpr (.inr (map_kind_mem_mul (shapeSpec_mem s)
      (map_kind_mem_opt fun text _ => label_mem text)))
  | none =>
    cases hlabel : r.label with
    | none => exact mem_opt.mpr (.inl rfl)
    | some text =>
      rw [hlabel, hshape] at h
      cases h rfl

theorem link_mem {l : Syntax.Link} (h : l.IsProper) :
    l.lexemes.map Lexeme.kind ∈ link edgeTarget := by
  have harrow : [Lexeme.mark (.arrow l.arrow.value)].map Lexeme.kind ∈ arrow := ⟨_, rfl⟩
  exact map_kind_mem_mul harrow (map_kind_mem_mul (edgeTarget_mem h.labels.target)
    (map_kind_mem_mul (map_kind_mem_opt fun ps hps => propertyList_mem (h.anchor ps hps))
      (map_kind_mem_opt fun text _ => label_mem text)))

theorem chain_mem {c : Syntax.Chain} (h : c.IsProper) :
    c.lexemes.map Lexeme.kind ∈ chain edgeTarget :=
  map_kind_mem_mul (nodeRef_mem c.head) (flatMap_mem_kstar fun l hl => link_mem (h.links l hl))

theorem groupHeader_mem {id : Located String} {style : Option PropertyList}
    (h : ∀ ps ∈ style, ps.IsProper) :
    (headerLexemes id style).map Lexeme.kind ∈ groupHeader :=
  map_kind_mem_cons rfl (map_kind_mem_cons rfl
    (map_kind_mem_mul (map_kind_mem_opt fun ps hps => propertyList_mem (h ps hps)) rfl))

mutual

/-- A proper statement is derived. -/
theorem isStatement_lexemes : ∀ (st : Syntax.Statement), st.IsProper →
    IsStatement edgeTarget (st.lexemes.map Lexeme.kind)
  | .group k id style body close, h => by
    rw [Statement.IsProper] at h
    have hheader : (headerLexemes id style).map Lexeme.kind ∈ groupHeader := groupHeader_mem h.1
    have hgroup := IsStatement.group hheader (isDocument_lexemes body h.2)
    rw [Statement.lexemes]
    simpa [headerLexemes] using hgroup
  | .layout k name, h => by
    rw [Statement.IsProper] at h
    rw [Statement.lexemes]
    refine .layout (map_kind_mem_cons rfl (map_kind_mem_cons rfl ?_))
    rcases h with h | h
    · exact .inl (mem_token.mpr (congrArg (fun k => [k]) h))
    · exact .inr (mem_token.mpr (congrArg (fun k => [k]) h))
  | .freeArrow k ps, h => by
    rw [Statement.IsProper] at h
    rw [Statement.lexemes]
    exact .freeArrow (map_kind_mem_cons rfl (propertyList_mem h))
  | .chain c, h => by
    rw [Statement.IsProper] at h
    rw [Statement.lexemes]
    exact .chain (chain_mem h)

/-- A proper tree is derived. -/
theorem isDocument_lexemes : ∀ (ss : List Syntax.Statement), AreProper ss →
    IsDocument edgeTarget ((lexemesAll ss).map Lexeme.kind)
  | [], _ => by
    rw [lexemesAll]
    exact .nil
  | st :: ss, h => by
    rw [AreProper] at h
    rw [lexemesAll, List.map_append]
    exact .cons (isStatement_lexemes st h.1) (isDocument_lexemes ss h.2)

end

/-! ## What is derived has a tree -/

variable {ts : List Token}

/-- A token of a class with one text. -/
theorem exists_mark {k : TokenKind} (hk : k.isFixed) (hfit : Fit ts) (h : kinds ts ∈ token k) :
    ts.map Token.lexeme = [.mark k] := by
  obtain ⟨t, rfl, rfl⟩ := kinds_mem_token.mp h
  rw [List.map_singleton, lexeme_of_isFixed (hfit t (by simp)) hk]

/-- A token of a class with one text, and something behind it. -/
theorem exists_mark_cons {k : TokenKind} {m : Language TokenKind} (hk : k.isFixed) (hfit : Fit ts)
    (h : kinds ts ∈ token k * m) :
    ∃ us, Fit us ∧ kinds us ∈ m ∧ ts.map Token.lexeme = .mark k :: us.map Token.lexeme := by
  obtain ⟨ts, us, rfl, ht, hu⟩ := kinds_mem_mul.mp h
  refine ⟨us, hfit.right, hu, ?_⟩
  rw [List.map_append, exists_mark hk hfit.left ht]
  rfl

theorem exists_word (h : kinds ts ∈ token .identifier) :
    ∃ v : Located String, ts.map Token.lexeme = [word v.value] := by
  obtain ⟨t, rfl, hk⟩ := kinds_mem_token.mp h
  refine ⟨Token.located t, ?_⟩
  rw [List.map_singleton, lexeme_of_ne_number (by simp [hk]), hk]
  rfl

/-- An identifier, and something behind it. -/
theorem exists_word_cons {m : Language TokenKind} (hfit : Fit ts)
    (h : kinds ts ∈ token .identifier * m) :
    ∃ (v : Located String) (us : List Token), Fit us ∧ kinds us ∈ m ∧
      ts.map Token.lexeme = word v.value :: us.map Token.lexeme := by
  obtain ⟨ts, us, rfl, ht, hu⟩ := kinds_mem_mul.mp h
  obtain ⟨v, hv⟩ := exists_word ht
  refine ⟨v, us, hfit.right, hu, ?_⟩
  rw [List.map_append, hv]
  rfl

/-- An optional part, present or not. -/
theorem exists_opt {β : Type} {l : Language TokenKind} {f : β → List Lexeme} {P : β → Prop}
    (hl : kinds ts ∈ l → ∃ x, P x ∧ ts.map Token.lexeme = f x) (h : kinds ts ∈ opt l) :
    ∃ o : Option β, (∀ x ∈ o, P x) ∧ ts.map Token.lexeme = o.elim [] f := by
  rcases kinds_mem_opt.mp h with rfl | h
  · exact ⟨none, by simp, rfl⟩
  · obtain ⟨x, hx, hf⟩ := hl h
    exact ⟨some x, by simpa using hx, hf⟩

/-- A repetition, step by step. -/
theorem exists_kstar {β : Type} {l : Language TokenKind} {f : β → List Lexeme} {P : β → Prop}
    (hl : ∀ us, Fit us → kinds us ∈ l → ∃ x, P x ∧ us.map Token.lexeme = f x) (hfit : Fit ts)
    (h : kinds ts ∈ l∗) : ∃ xs : List β, (∀ x ∈ xs, P x) ∧ ts.map Token.lexeme = xs.flatMap f := by
  obtain ⟨tss, rfl, htss⟩ := kinds_mem_kstar h
  induction tss with
  | nil => exact ⟨[], by simp, rfl⟩
  | cons us tss ih =>
    obtain ⟨hus, hrest⟩ := List.forall_mem_cons.mp htss
    rw [List.flatten_cons] at h hfit
    have hstar : kinds tss.flatten ∈ l∗ := by
      refine Language.mem_kstar.mpr ⟨tss.map kinds, List.map_flatten, ?_⟩
      simpa using hrest
    obtain ⟨x, hx, hfx⟩ := hl us hfit.left hus
    obtain ⟨xs, hxs, hfxs⟩ := ih hrest hfit.right hstar
    refine ⟨x :: xs, List.forall_mem_cons.mpr ⟨hx, hxs⟩, ?_⟩
    rw [List.flatten_cons, List.map_append, hfx, hfxs, List.flatMap_cons]

theorem exists_styleValue (hfit : Fit ts)
    (h : kinds ts ∈ token .color + token .number + token .identifier) :
    ∃ v : Located StyleValue, ts.map Token.lexeme = [v.value.lexeme] := by
  rcases h with (h | h) | h
  · obtain ⟨t, rfl, hk⟩ := kinds_mem_token.mp h
    refine ⟨⟨.color t.text, t.span⟩, ?_⟩
    rw [List.map_singleton, lexeme_of_ne_number (by simp [hk]), hk]
    rfl
  · obtain ⟨t, rfl, hk⟩ := kinds_mem_token.mp h
    have ht : t.kind.Fits t.text.toList := hfit t (by simp)
    rw [hk] at ht
    obtain ⟨n, hn⟩ := Option.isSome_iff_exists.mp (isSome_numeral?_iff.mpr ht)
    exact ⟨⟨.number n, t.span⟩, congrArg (fun l => [l]) (lexeme_of_number hk hn)⟩
  · obtain ⟨v, hv⟩ := exists_word h
    exact ⟨⟨.name v.value, v.span⟩, hv⟩

theorem exists_property (hfit : Fit ts) (h : kinds ts ∈ property) :
    ∃ p : Syntax.Property, ts.map Token.lexeme = p.lexemes := by
  obtain ⟨key, us, hus, h, hkey⟩ := exists_word_cons hfit h
  obtain ⟨vs, hvs, h, hcolon⟩ := exists_mark_cons rfl hus h
  obtain ⟨value, hvalue⟩ := exists_styleValue hvs h
  refine ⟨⟨key, value⟩, ?_⟩
  rw [hkey, hcolon, hvalue]
  rfl

theorem exists_properties (hfit : Fit ts) (h : kinds ts ∈ properties) :
    ∃ ps : List Syntax.Property, ps ≠ [] ∧ ts.map Token.lexeme = propertyLexemes ps := by
  obtain ⟨us, vs, rfl, hus, hvs⟩ := kinds_mem_mul.mp h
  obtain ⟨p, hp⟩ := exists_property hfit.left hus
  obtain ⟨ps, -, hps⟩ := exists_kstar (P := fun _ : Syntax.Property => True)
    (fun ws hws hkinds => by
      obtain ⟨xs, hxs, hx, hcomma⟩ := exists_mark_cons rfl hws hkinds
      obtain ⟨q, hq⟩ := exists_property hxs hx
      exact ⟨q, trivial, by rw [hcomma, hq]⟩) hfit.right hvs
  refine ⟨p :: ps, by simp, ?_⟩
  rw [List.map_append, hp, hps]
  rfl

theorem exists_propertyList (hfit : Fit ts) (h : kinds ts ∈ propertyList) :
    ∃ ps : PropertyList, ps.IsProper ∧ ts.map Token.lexeme = ps.lexemes := by
  obtain ⟨us, hus, h, hopen⟩ := exists_mark_cons rfl hfit h
  obtain ⟨us, vs, rfl, hps, hclose⟩ := kinds_mem_mul.mp h
  obtain ⟨ps, hne, hps⟩ := exists_properties hus.left hps
  refine ⟨⟨ps, nowhere⟩, hne, ?_⟩
  rw [hopen, List.map_append, hps, exists_mark rfl hus.right hclose]
  rfl

theorem exists_label (hfit : Fit ts) (h : kinds ts ∈ label) :
    ∃ text : Located String, True ∧ ts.map Token.lexeme = labelLexemes text := by
  obtain ⟨us, hus, h, hcolon⟩ := exists_mark_cons rfl hfit h
  obtain ⟨t, rfl, hk⟩ := kinds_mem_token.mp h
  refine ⟨⟨t.unquoted, t.span⟩, trivial, ?_⟩
  rw [hcolon, List.map_singleton, lexeme_of_ne_number (by simp [hk]), hk, labelLexemes,
    quoted_unquoted (hus t (by simp)) hk]

/-- The shape a keyword names. -/
theorem exists_keyword (hfit : Fit ts) (h : kinds ts ∈ token .shapeName) :
    ∃ (keyword : Located String) (shape : NodeShape),
      NodeShape.ofKeyword? keyword.value = some shape ∧
        ts.map Token.lexeme = [⟨.shapeName, keyword.value⟩] := by
  obtain ⟨t, rfl, hk⟩ := kinds_mem_token.mp h
  have ht : t.kind.Fits t.text.toList := hfit t (by simp)
  rw [hk] at ht
  obtain ⟨shape, hshape⟩ := Option.isSome_iff_exists.mp ht
  rw [String.ofList_toList] at hshape
  refine ⟨Token.located t, shape, hshape, ?_⟩
  rw [List.map_singleton, lexeme_of_ne_number (by simp [hk]), hk]
  rfl

theorem exists_shapeSpec (hfit : Fit ts) (h : kinds ts ∈ shapeSpec) :
    ∃ s : Syntax.ShapeSpec, s.IsProper ∧ ts.map Token.lexeme = s.lexemes := by
  obtain ⟨us, hus, h, hopen⟩ := exists_mark_cons rfl hfit h
  obtain ⟨us, vs, rfl, hkeyword, h⟩ := kinds_mem_mul.mp h
  obtain ⟨keyword, shape, hshape, hkeyword⟩ := exists_keyword hus.left hkeyword
  obtain ⟨vs, ws, rfl, hprops, hclose⟩ := kinds_mem_mul.mp h
  have hmore : ∃ ps : List Syntax.Property, vs.map Token.lexeme = moreLexemes ps := by
    rcases kinds_mem_opt.mp hprops with rfl | hprops
    · exact ⟨[], rfl⟩
    · obtain ⟨xs, hxs, hx, hcomma⟩ := exists_mark_cons rfl hus.right.left hprops
      obtain ⟨ps, hne, hps⟩ := exists_properties hxs hx
      obtain ⟨p, qs, rfl⟩ := List.exists_cons_of_ne_nil hne
      exact ⟨p :: qs, by rw [hcomma, hps, moreLexemes_cons]⟩
  obtain ⟨ps, hps⟩ := hmore
  refine ⟨⟨shape, keyword, ps, nowhere⟩, hshape, ?_⟩
  rw [hopen, List.map_append, List.map_append, hkeyword, hps,
    exists_mark rfl hus.right.right hclose]
  rfl

theorem exists_nodeName (hfit : Fit ts) (h : kinds ts ∈ nodeName) :
    ∃ n : Syntax.NodeName, ts.map Token.lexeme = n.lexemes := by
  obtain ⟨head, us, hus, h, hhead⟩ := exists_word_cons hfit h
  obtain ⟨member, -, hmember⟩ := exists_opt (P := fun _ : Located String => True)
    (f := fun m => [.mark .dot, word m.value]) (fun h => by
      obtain ⟨vs, -, hv, hdot⟩ := exists_mark_cons rfl hus h
      obtain ⟨m, hm⟩ := exists_word hv
      exact ⟨m, trivial, by rw [hdot, hm]⟩) h
  refine ⟨⟨head, member⟩, ?_⟩
  rw [hhead, hmember]
  rfl

theorem exists_nodeRef (hfit : Fit ts) (h : kinds ts ∈ nodeRef) :
    ∃ r : Syntax.NodeRef, r.IsProper ∧ ts.map Token.lexeme = r.lexemes := by
  obtain ⟨us, vs, rfl, hname, h⟩ := kinds_mem_mul.mp h
  obtain ⟨vs, ws, rfl, hshape, hlabel⟩ := kinds_mem_mul.mp h
  obtain ⟨name, hname⟩ := exists_nodeName hfit.left hname
  obtain ⟨shape, hproper, hshape⟩ := exists_opt (exists_shapeSpec hfit.right.left) hshape
  obtain ⟨text, -, htext⟩ := exists_opt (exists_label hfit.right.right) hlabel
  refine ⟨⟨name, shape, text⟩, hproper, ?_⟩
  rw [List.map_append, List.map_append, hname, hshape, htext]
  rfl

theorem exists_edgeTarget (hfit : Fit ts) (h : kinds ts ∈ edgeTarget) :
    ∃ r : Syntax.NodeRef, r.IsProper ∧ (r.label.isSome → r.shape.isSome) ∧
      ts.map Token.lexeme = r.lexemes := by
  obtain ⟨us, vs, rfl, hname, h⟩ := kinds_mem_mul.mp h
  obtain ⟨name, hname⟩ := exists_nodeName hfit.left hname
  rcases kinds_mem_opt.mp h with rfl | h
  · refine ⟨⟨name, none, none⟩, by simp [NodeRef.IsProper], by simp, ?_⟩
    rw [List.append_nil, hname]
    simp [NodeRef.lexemes]
  · obtain ⟨vs, ws, rfl, hshape, hlabel⟩ := kinds_mem_mul.mp h
    obtain ⟨shape, hproper, hshape⟩ := exists_shapeSpec hfit.right.left hshape
    obtain ⟨text, -, htext⟩ := exists_opt (exists_label hfit.right.right) hlabel
    refine ⟨⟨name, some shape, text⟩, by simpa [NodeRef.IsProper] using hproper, by simp, ?_⟩
    rw [List.map_append, List.map_append, hname, hshape, htext]
    rfl

/-- A label directly behind a target with a shape is moved to the target. -/
theorem exists_link (hfit : Fit ts) (h : kinds ts ∈ link edgeTarget) :
    ∃ l : Syntax.Link, l.IsProper ∧ ts.map Token.lexeme = l.lexemes := by
  obtain ⟨us, vs, rfl, ⟨a, ha⟩, h⟩ := kinds_mem_mul.mp h
  have harrow := exists_mark (k := .arrow a) rfl hfit.left ha
  obtain ⟨vs, ws, rfl, htarget, h⟩ := kinds_mem_mul.mp h
  obtain ⟨ws, xs, rfl, hanchor, hlabel⟩ := kinds_mem_mul.mp h
  have hfit' := hfit.right
  obtain ⟨r, hproper, hmay, hr⟩ := exists_edgeTarget hfit'.left htarget
  obtain ⟨anchor, hps, hanchor⟩ := exists_opt (exists_propertyList hfit'.right.left) hanchor
  obtain ⟨text, -, htext⟩ := exists_opt (exists_label hfit'.right.right) hlabel
  have hall : (us ++ (vs ++ (ws ++ xs))).map Token.lexeme =
      (Syntax.Link.mk ⟨a, nowhere⟩ r anchor text).lexemes := by
    simp only [List.map_append, harrow, hr, hanchor, htext]
    rfl
  -- A label directly behind the shape is that of the target, as the parser reads it.
  by_cases hmove : r.shape.isSome ∧ r.label = none ∧ anchor = none
  · obtain ⟨hshape, hnone, rfl⟩ := hmove
    refine ⟨⟨⟨a, nowhere⟩, ⟨r.name, r.shape, text⟩, none, none⟩,
      ⟨hproper, by simp, fun _ => hshape, by simp⟩, ?_⟩
    rw [hall]
    simp [Link.lexemes, NodeRef.lexemes, hnone]
  · refine ⟨⟨⟨a, nowhere⟩, r, anchor, text⟩, ⟨hproper, hps, hmay, fun _ => ?_⟩, hall⟩
    cases hshape : r.shape with
    | none => exact .inl rfl
    | some spec =>
      refine .inr ?_
      cases hlabel : r.label with
      | some text => exact .inr rfl
      | none =>
        cases anchor with
        | some ps => exact .inl rfl
        | none => exact absurd ⟨by rw [hshape]; rfl, hlabel, rfl⟩ hmove

theorem exists_chain (hfit : Fit ts) (h : kinds ts ∈ chain edgeTarget) :
    ∃ c : Syntax.Chain, c.IsProper ∧ ts.map Token.lexeme = c.lexemes := by
  obtain ⟨us, vs, rfl, hhead, hlinks⟩ := kinds_mem_mul.mp h
  obtain ⟨head, hproper, hhead⟩ := exists_nodeRef hfit.left hhead
  obtain ⟨ls, hls, hlinks⟩ := exists_kstar (fun _ hus h => exists_link hus h) hfit.right hlinks
  refine ⟨⟨head, ls⟩, ⟨hproper, hls⟩, ?_⟩
  rw [List.map_append, hhead, hlinks]
  rfl

theorem exists_layout (hfit : Fit ts) (h : kinds ts ∈ layout) :
    ∃ st : Syntax.Statement, st.IsProper ∧ ts.map Token.lexeme = st.lexemes := by
  obtain ⟨us, hus, h, hkeyword⟩ := exists_mark_cons rfl hfit h
  obtain ⟨vs, hvs, h, hcolon⟩ := exists_mark_cons rfl hus h
  have hword : ∃ t, vs = [t] ∧ (t.kind = .identifier ∨ t.kind = .shapeName) := by
    rcases h with h | h
    · obtain ⟨t, ht, hk⟩ := kinds_mem_token.mp h
      exact ⟨t, ht, .inl hk⟩
    · obtain ⟨t, ht, hk⟩ := kinds_mem_token.mp h
      exact ⟨t, ht, .inr hk⟩
  obtain ⟨t, rfl, hk⟩ := hword
  obtain ⟨ht, hproper⟩ := algorithmName_sound hvs (one_eq_ok.mpr ⟨t, rfl, if_pos hk⟩)
  have hname := ht.map
  refine ⟨.layout nowhere (Token.located t), ?_, ?_⟩
  · rw [Statement.IsProper]
    exact hproper
  · rw [hkeyword, hcolon, hname, Statement.lexemes]
    rfl

theorem exists_freeArrow (hfit : Fit ts) (h : kinds ts ∈ freeArrow) :
    ∃ st : Syntax.Statement, st.IsProper ∧ ts.map Token.lexeme = st.lexemes := by
  obtain ⟨us, hus, h, hkeyword⟩ := exists_mark_cons rfl hfit h
  obtain ⟨ps, hproper, hps⟩ := exists_propertyList hus h
  refine ⟨.freeArrow nowhere ps, ?_, ?_⟩
  · rw [Statement.IsProper]
    exact hproper
  · rw [hkeyword, hps, Statement.lexemes]

theorem exists_groupHeader (hfit : Fit ts) (h : kinds ts ∈ groupHeader) :
    ∃ (id : Located String) (style : Option PropertyList), (∀ ps ∈ style, ps.IsProper) ∧
      ts.map Token.lexeme = headerLexemes id style := by
  obtain ⟨us, hus, h, hkeyword⟩ := exists_mark_cons rfl hfit h
  obtain ⟨id, us, hus, h, hid⟩ := exists_word_cons hus h
  obtain ⟨us, vs, rfl, hstyle, hopen⟩ := kinds_mem_mul.mp h
  obtain ⟨style, hproper, hstyle⟩ := exists_opt (exists_propertyList hus.left) hstyle
  refine ⟨id, style, hproper, ?_⟩
  rw [hkeyword, hid, List.map_append, hstyle, exists_mark rfl hus.right hopen]
  rfl

mutual

/-- What is derived as a statement is a statement. -/
theorem exists_statement : ∀ {w : List TokenKind}, IsStatement edgeTarget w →
    ∀ {ts : List Token}, Fit ts → kinds ts = w →
      ∃ st : Syntax.Statement, st.IsProper ∧ ts.map Token.lexeme = st.lexemes
  | _, .group hheader hbody, ts, hfit, h => by
    obtain ⟨us, vs, rfl, hus, h⟩ := List.map_eq_append_iff.mp h
    obtain ⟨vs, ws, rfl, hvs, hws⟩ := List.map_eq_append_iff.mp h
    have hclose : ws.map Token.lexeme = [.mark .rightBrace] :=
      exists_mark rfl hfit.right.right hws
    have hheader : kinds us ∈ groupHeader := by rwa [kinds, hus]
    obtain ⟨id, style, hproper, hheader⟩ := exists_groupHeader hfit.left hheader
    obtain ⟨body, hbody, hall⟩ := exists_statements hbody hfit.right.left hvs
    refine ⟨.group nowhere id style body nowhere, ?_, ?_⟩
    · rw [Statement.IsProper]
      exact ⟨hproper, hbody⟩
    · rw [List.map_append, List.map_append, hheader, hall, hclose, Statement.lexemes,
        headerLexemes]
      simp
  | _, .layout hw, ts, hfit, h => exists_layout hfit (h ▸ hw)
  | _, .freeArrow hw, ts, hfit, h => exists_freeArrow hfit (h ▸ hw)
  | _, .chain hw, ts, hfit, h => by
    obtain ⟨c, hproper, hc⟩ := exists_chain hfit (h ▸ hw)
    refine ⟨.chain c, ?_, ?_⟩
    · rw [Statement.IsProper]
      exact hproper
    · rw [hc, Statement.lexemes]

/-- What is derived as a document is a sequence of statements. -/
theorem exists_statements : ∀ {w : List TokenKind}, IsDocument edgeTarget w →
    ∀ {ts : List Token}, Fit ts → kinds ts = w →
      ∃ ss : List Syntax.Statement, AreProper ss ∧ ts.map Token.lexeme = lexemesAll ss
  | _, .nil, ts, _, h => by
    refine ⟨[], ?_, ?_⟩
    · rw [AreProper]
      trivial
    · rw [List.map_eq_nil_iff.mp h, lexemesAll]
      rfl
  | _, .cons hst hss, ts, hfit, h => by
    obtain ⟨us, vs, rfl, hus, hvs⟩ := List.map_eq_append_iff.mp h
    obtain ⟨st, hst, hlst⟩ := exists_statement hst hfit.left hus
    obtain ⟨ss, hss, hlss⟩ := exists_statements hss hfit.right hvs
    refine ⟨st :: ss, ?_, ?_⟩
    · rw [AreProper]
      exact ⟨hst, hss⟩
    · rw [List.map_append, hlst, hlss, lexemesAll]

end

/-! ## The parser and the grammar -/

/-- **The parser accepts exactly the grammar, and returns the derivation.**  Tokens whose
texts fit their classes are parsed without an error exactly when their classes are those
of a document, in which the target of an edge has a label only behind a shape.  The tree
is then proper, it unparses to all the tokens, and every label of an edge is the target's
when the target has a shape, no properties came between and no label was taken yet, and
the edge's otherwise. -/
theorem parseTokens_exact (eof : Span) {tokens : List Token} (hfit : ∀ t ∈ tokens, t.Fits) :
    ((parseTokens eof tokens).2 = [] ↔ IsDocument edgeTarget (tokens.map Token.kind)) ∧
      ((parseTokens eof tokens).2 = [] →
        lexemesAll (parseTokens eof tokens).1 = tokens.map Token.lexeme ∧
          AreProper (parseTokens eof tokens).1 ∧
          ∀ c ∈ chains (parseTokens eof tokens).1, ∀ l ∈ c.links, l.LabelRule) := by
  refine ⟨⟨fun h => ?_, fun h => ?_⟩, fun h => ?_⟩
  · obtain ⟨hall, hproper⟩ := parseTokens_sound hfit h
    have hderived := isDocument_lexemes _ hproper
    rwa [← hall, map_kind_lexemes] at hderived
  · obtain ⟨tree, hproper, hall⟩ := exists_statements h hfit rfl
    exact (parseTokens_complete hproper hall).1
  · obtain ⟨hall, hproper⟩ := parseTokens_sound hfit h
    refine ⟨hall.symm, hproper, fun c hc l hl => ?_⟩
    exact ((isProper_of_mem_chains hproper hc).links l hl).labels

/-- The tokens of an edge whose target has a shape and two labels behind it. -/
def labelledEdge : List Token := (tokenize "a -> b(rect): \"x\": \"y\"").1

/-- An edge with two labels behind a shape is accepted, and unparses to its tokens. -/
theorem parseTokens_exact_labelledEdge :
    (parseTokens ⟨0, 0, .first, .first⟩ labelledEdge).2 = [] ∧
      lexemesAll (parseTokens ⟨0, 0, .first, .first⟩ labelledEdge).1 =
        labelledEdge.map Token.lexeme := by
  have hfit : ∀ t ∈ labelledEdge, t.Fits := fun t ht => fits_of_mem_tokenize ht
  have hnone : (parseTokens ⟨0, 0, .first, .first⟩ labelledEdge).2 = [] := by decide +kernel
  exact ⟨hnone, ((parseTokens_exact ⟨0, 0, .first, .first⟩ hfit).2 hnone).1⟩

/-- With labels behind any node reference the grammar has documents that the parser
refuses: two labels behind a target without a shape. -/
theorem not_parseTokens_exact_nodeRef :
    ¬ ∀ (eof : Span) (tokens : List Token), (∀ t ∈ tokens, t.Fits) →
      ((parseTokens eof tokens).2 = [] ↔ IsDocument nodeRef (tokens.map Token.kind)) := by
  intro h
  have hrefused := h ⟨0, 0, .first, .first⟩ (tokenize "a -> b: \"x\": \"y\"").1
    fun t ht => fits_of_mem_tokenize ht
  obtain ⟨hkinds, hissues⟩ : (tokenize "a -> b: \"x\": \"y\"").1.map Token.kind =
        [.identifier, .arrow .right, .identifier, .colon, .string, .colon, .string] ∧
      (parseTokens ⟨0, 0, .first, .first⟩ (tokenize "a -> b: \"x\": \"y\"").1).2 ≠ [] := by
    decide +kernel
  have hlabel : [TokenKind.colon, .string] ∈ label := ⟨_, rfl, _, rfl, rfl⟩
  have hname : [TokenKind.identifier] ∈ nodeName :=
    ⟨_, rfl, _, mem_opt.mpr (.inl rfl), rfl⟩
  have htarget : [TokenKind.identifier, .colon, .string] ∈ nodeRef :=
    ⟨_, hname, _, ⟨_, mem_opt.mpr (.inl rfl), _, mem_opt.mpr (.inr hlabel), rfl⟩, rfl⟩
  have hlink : [TokenKind.arrow .right, .identifier, .colon, .string, .colon, .string] ∈
      link nodeRef :=
    ⟨_, ⟨.right, rfl⟩, _, ⟨_, htarget, _,
      ⟨_, mem_opt.mpr (.inl rfl), _, mem_opt.mpr (.inr hlabel), rfl⟩, rfl⟩, rfl⟩
  have hhead : [TokenKind.identifier] ∈ nodeRef :=
    ⟨_, hname, _, ⟨_, mem_opt.mpr (.inl rfl), _, mem_opt.mpr (.inl rfl), rfl⟩, rfl⟩
  have hchain : [TokenKind.identifier, .arrow .right, .identifier, .colon, .string, .colon,
      .string] ∈ chain nodeRef :=
    ⟨_, hhead, _, Language.mem_kstar.mpr ⟨[_], rfl, by simpa using hlink⟩, rfl⟩
  rw [hkinds] at hrefused
  exact hissues (hrefused.mpr (IsDocument.cons (.chain hchain) .nil))

end Diagram.Grammar
