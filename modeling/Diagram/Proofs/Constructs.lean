import Diagram.Proofs.Productions

/-!
# Productions for nodes, edges and statements

The productions that are made of others, in both directions.  What a production reads, part by
part, is said once, as `nodeRef_eq_ok` says it for references; nothing else looks into it.  A label
behind the target of an edge could belong to either of the two, so the soundness of a reference
also says that it has taken every label it may take.

## Main definitions

* `Closes` — what can stand behind a finished reference or link.

## Main statements

* `nodeName_eq_ok`, `nodeRef_eq_ok`, `link_eq_ok`, `links_succ_eq_ok`, `chain_eq_ok`,
  `groupHeader_eq_ok`, `plainStatement_cases` — when a production succeeds.
* `nodeRef_sound`, `nodeRef_complete`, `link_sound`, `link_complete` — the parts of a
  chain.
* `plainStatement_sound`, `plainStatement_complete` — statements without statements
  inside them.
* `groupHeader_sound`, `groupHeader_complete` — what stands in front of a group's body.
-/

namespace Diagram.Syntax

variable {s rest : List Token} {ms : List Lexeme}

/-! ## Node references -/

theorem shapeKeyword_eq_ok {shape : NodeShape} {keyword : Located String} :
    shapeKeyword s = .ok ((shape, keyword), rest) ↔
      ∃ t, s = t :: rest ∧ t.kind = .shapeName ∧ NodeShape.ofKeyword? t.text = some shape ∧
        keyword = Token.located t := by
  constructor
  · intro h
    obtain ⟨⟨t, s₁⟩, h₁, hfound⟩ := bind_eq_ok.mp h
    obtain ⟨rfl, hkind⟩ := expect_eq_ok.mp h₁
    dsimp only at hfound
    split at hfound
    · next hshape =>
      cases hfound
      exact ⟨_, rfl, hkind, hshape, rfl⟩
    · cases hfound
  · rintro ⟨t, rfl, hkind, hshape, rfl⟩
    simp only [shapeKeyword, expect_eq_ok.mpr ⟨rfl, hkind⟩, ok_bind, hshape, pure_eq_ok]

theorem shapeKeyword_sound {shape : NodeShape} {keyword : Located String}
    (h : shapeKeyword s = .ok ((shape, keyword), rest)) :
    Takes s rest [⟨.shapeName, keyword.value⟩] ∧
      NodeShape.ofKeyword? keyword.value = some shape := by
  obtain ⟨t, rfl, hkind, hfound, rfl⟩ := shapeKeyword_eq_ok.mp h
  have hl : t.lexeme = ⟨.shapeName, (Token.located t).value⟩ := by
    rw [lexeme_of_ne_number (by simp [hkind]), hkind]
    rfl
  rw [← hl]
  exact ⟨.single t rest, hfound⟩

theorem shapeKeyword_complete {shape : NodeShape} {keyword : Located String}
    (hshape : NodeShape.ofKeyword? keyword.value = some shape)
    (h : s.map Token.lexeme = ⟨.shapeName, keyword.value⟩ :: ms) :
    Gives (Prod.map id Located.bare) (shapeKeyword s) (shape, keyword) ms := by
  obtain ⟨t, rest, rfl, ht, hrest⟩ := exists_cons_of_map h
  obtain ⟨hk, htext⟩ := kind_text_of_lexeme ht (by simp)
  refine ⟨(shape, Token.located t), rest, ?_, ?_, hrest⟩
  · exact shapeKeyword_eq_ok.mpr ⟨t, rfl, hk, by rw [htext, hshape], rfl⟩
  · exact congrArg (Prod.mk shape) (Located.bare_inj.mpr htext)

/-- The properties of a shape, behind a comma. -/
def shapeProperties (s : List Token) : Except Failure (List Property × List Token) :=
  if startsWith .comma s then inProduction .shapeStyle (properties (s.drop 1)) else pure ([], s)

/-- The production for shapes, with the part between keyword and parenthesis named. -/
theorem shapeSpec_eq (s : List Token) : shapeSpec s = (do
    let (_, s) ← expect .leftParen s
    let ((shape, keyword), s) ← shapeKeyword s
    let (items, s) ← shapeProperties s
    let (close, s) ← inProduction .shapeSpec (expect .rightParen s)
    return (⟨shape, keyword, items, close.span⟩, s)) := by
  unfold shapeSpec shapeProperties
  apply bind_congr
  rintro ⟨_, s₁⟩
  apply bind_congr
  rintro ⟨⟨shape, keyword⟩, s₂⟩
  cases hcomma : startsWith .comma s₂ <;> simp only [hcomma] <;> rfl

theorem shapeProperties_sound {ps : List Property} (hs : Fit s)
    (h : shapeProperties s = .ok (ps, rest)) : Takes s rest (moreLexemes ps) := by
  unfold shapeProperties at h
  split at h
  · next hcomma =>
    cases s with
    | nil => cases hcomma
    | cons t s =>
      have hone := Takes.mark (of_decide_eq_true hcomma) rfl (hs t List.mem_cons_self) s
      obtain ⟨htail, hne⟩ := properties_sound (hone.fit hs) (inProduction_eq_ok.mp h)
      obtain ⟨q, qs, rfl⟩ := List.exists_cons_of_ne_nil hne
      exact hone.trans htail
  · cases h
    exact .refl s

theorem shapeProperties_complete {ps : List Property} (hms : leads .comma ms = false)
    (h : s.map Token.lexeme = moreLexemes ps ++ ms) :
    Gives (List.map Property.bare) (shapeProperties s) ps ms := by
  unfold shapeProperties
  cases ps with
  | nil =>
    have hcomma : startsWith .comma s = false := by
      rw [startsWith_eq, h]
      exact hms
    rw [hcomma]
    exact ⟨[], s, rfl, rfl, h⟩
  | cons q qs =>
    rw [moreLexemes_cons, List.cons_append] at h
    obtain ⟨t, r, rfl, ht, hr⟩ := exists_cons_of_map h
    have hcomma : startsWith .comma (t :: r) = true := decide_eq_true (congrArg Lexeme.kind ht)
    rw [if_pos hcomma]
    exact (properties_complete (by simp) hms hr).inProduction _

theorem shapeSpec_sound {spec : ShapeSpec} (hs : Fit s) (h : shapeSpec s = .ok (spec, rest)) :
    Takes s rest spec.lexemes ∧ spec.IsProper := by
  rw [shapeSpec_eq] at h
  obtain ⟨⟨_, s₁⟩, h₁, h⟩ := bind_eq_ok.mp h
  obtain ⟨⟨⟨shape, keyword⟩, s₂⟩, h₂, h⟩ := bind_eq_ok.mp h
  obtain ⟨⟨items, s₃⟩, h₃, h⟩ := bind_eq_ok.mp h
  obtain ⟨⟨close, s₄⟩, h₄, h⟩ := bind_eq_ok.mp h
  cases h
  have ht₁ := expect_sound rfl hs h₁
  obtain ⟨ht₂, hshape⟩ := shapeKeyword_sound h₂
  have hs₂ := ht₂.fit (ht₁.fit hs)
  have ht₃ := shapeProperties_sound hs₂ h₃
  have ht₄ := expect_sound rfl (ht₃.fit hs₂) (inProduction_eq_ok.mp h₄)
  exact ⟨ht₁.trans (ht₂.trans (ht₃.trans ht₄)), hshape⟩

theorem shapeSpec_complete {spec : ShapeSpec} (hspec : spec.IsProper)
    (h : s.map Token.lexeme = spec.lexemes ++ ms) :
    Gives ShapeSpec.bare (shapeSpec s) spec ms := by
  rw [ShapeSpec.lexemes, List.cons_append, List.cons_append, List.append_assoc] at h
  obtain ⟨_, s₁, h₁, hs₁⟩ := expect_complete h
  obtain ⟨⟨shape, keyword⟩, s₂, h₂, hpair, hs₂⟩ := shapeKeyword_complete hspec hs₁
  obtain ⟨hshape, hkeyword⟩ : shape = spec.shape ∧ keyword.bare = spec.keyword.bare :=
    Prod.mk.inj hpair
  obtain ⟨items, s₃, h₃, hitems, hs₃⟩ := shapeProperties_complete (by simp) hs₂
  obtain ⟨close, s₄, h₄, hs₄⟩ := expect_complete hs₃
  refine ⟨⟨shape, keyword, items, close.span⟩, s₄, ?_, ?_, hs₄⟩
  · simp only [shapeSpec_eq, h₁, h₂, h₃, h₄, ok_bind, inProduction_ok, pure_eq_ok]
  · rw [ShapeSpec.bare, ShapeSpec.bare, hshape, hkeyword, hitems]

/-- A name is one identifier, or two of them around a dot. -/
theorem nodeName_eq_ok {n : NodeName} :
    nodeName s = .ok (n, rest) ↔
      (identifier s = .ok (n.head, rest) ∧ startsWith .dot rest = false ∧ n.member = none) ∨
        ∃ d s₁ m, identifier s = .ok (n.head, d :: s₁) ∧ d.kind = .dot ∧
          identifier s₁ = .ok (m, rest) ∧ n.member = some m := by
  rw [nodeName, bind_eq_ok]
  constructor
  · rintro ⟨⟨head, s₁⟩, h₁, h⟩
    dsimp only at h
    split at h
    · next hdot =>
      obtain ⟨⟨member, s₂⟩, h₂, h⟩ := bind_eq_ok.mp h
      cases h
      cases s₁ with
      | nil => cases hdot
      | cons d s₁ =>
        exact .inr ⟨d, s₁, member, h₁, of_decide_eq_true hdot, inProduction_eq_ok.mp h₂, rfl⟩
    · next hdot =>
      cases h
      exact .inl ⟨h₁, eq_false_of_ne_true hdot, rfl⟩
  · obtain ⟨head, member⟩ := n
    rintro (⟨h₁, hdot, rfl⟩ | ⟨d, s₁, m, h₁, hdot, h₂, rfl⟩)
    · refine ⟨(head, rest), h₁, ?_⟩
      simp only [hdot]
      rfl
    · refine ⟨(head, d :: s₁), h₁, ?_⟩
      have hstarts : startsWith .dot (d :: s₁) = true := decide_eq_true hdot
      simp only [hstarts, if_true, List.drop_succ_cons, List.drop_zero, h₂, inProduction_ok,
        ok_bind, pure_eq_ok]

theorem nodeName_sound {n : NodeName} (hs : Fit s) (h : nodeName s = .ok (n, rest)) :
    Takes s rest n.lexemes := by
  rw [NodeName.lexemes]
  rcases nodeName_eq_ok.mp h with ⟨h₁, -, hm⟩ | ⟨d, s₁, m, h₁, hdot, h₂, hm⟩
  · rw [hm]
    exact identifier_sound h₁
  · rw [hm]
    have ht₁ := identifier_sound h₁
    have hone := Takes.mark hdot rfl (ht₁.fit hs d List.mem_cons_self) s₁
    exact ht₁.trans (hone.trans (identifier_sound h₂))

theorem nodeName_complete {n : NodeName} (hms : leads .dot ms = false)
    (h : s.map Token.lexeme = n.lexemes ++ ms) : Gives NodeName.bare (nodeName s) n ms := by
  rw [NodeName.lexemes, List.cons_append] at h
  obtain ⟨head, s₁, h₁, hhead, hs₁⟩ := identifier_complete h
  cases hm : n.member with
  | none =>
    rw [hm] at hs₁
    refine ⟨⟨head, none⟩, s₁, nodeName_eq_ok.mpr (.inl ⟨h₁, ?_, rfl⟩), ?_, hs₁⟩
    · rw [startsWith_eq, hs₁]
      exact hms
    · rw [NodeName.bare, NodeName.bare, hhead, hm]
  | some m =>
    rw [hm] at hs₁
    obtain ⟨t, s₂, rfl, ht, hs₂⟩ := exists_cons_of_map hs₁
    obtain ⟨member, s₃, h₃, hmember, hs₃⟩ := identifier_complete hs₂
    have hk : t.kind = .dot := congrArg Lexeme.kind ht
    refine ⟨⟨head, some member⟩, s₃, nodeName_eq_ok.mpr (.inr ⟨t, s₂, member, h₁, hk, h₃, rfl⟩), ?_,
      hs₃⟩
    rw [NodeName.bare, NodeName.bare, hhead, hm, Option.map_some, Option.map_some, hmember]

/-- What stands behind a node reference or a link leaves it as it is. -/
structure Closes (ms : List Lexeme) : Prop where
  dot : leads .dot ms = false
  paren : leads .leftParen ms = false
  colon : leads .colon ms = false

/-- Without a parenthesis no shape follows. -/
theorem leadsShape_of_leads {ms : List Lexeme} (h : leads .leftParen ms = false) :
    leadsShape ms = false := by
  match ms, h with
  | [], _ | [_], _ => rfl
  | p :: _ :: _, h => simp_all [leadsShape]

section Optional

variable {β : Type} {o : Option β} {f : β → List Lexeme} (test : List Lexeme → Bool)

/-- A test that neither a part nor what follows it passes. -/
theorem test_optional_eq_false (hf : ∀ v ∈ o, test (f v ++ ms) = false) (hms : test ms = false) :
    test (o.elim [] f ++ ms) = false := by
  cases o with
  | none => exact hms
  | some v => exact hf v rfl

/-- A test that announces a part. -/
theorem test_optional_eq_isSome (hf : ∀ v ∈ o, test (f v ++ ms) = true) (hms : test ms = false) :
    test (o.elim [] f ++ ms) = o.isSome := by
  cases o with
  | none => exact hms
  | some v => exact hf v rfl

end Optional

theorem nodeRef_eq_ok {target : Bool} {r : NodeRef} :
    nodeRef target s = .ok (r, rest) ↔ ∃ s₁ s₂, nodeName s = .ok (r.name, s₁) ∧
      optional startsShape shapeSpec s₁ = .ok (r.shape, s₂) ∧
      optional (fun s => (!target || r.shape.isSome) && startsWith .colon s)
        (fun s => inProduction .nodeLabel (label s)) s₂ = .ok (r.label, rest) := by
  constructor
  · intro h
    obtain ⟨⟨name, s₁⟩, h₁, h⟩ := bind_eq_ok.mp h
    obtain ⟨⟨shape, s₂⟩, h₂, h⟩ := bind_eq_ok.mp h
    obtain ⟨⟨text, s₃⟩, h₃, h⟩ := bind_eq_ok.mp h
    cases h
    exact ⟨s₁, s₂, h₁, h₂, h₃⟩
  · rintro ⟨s₁, s₂, h₁, h₂, h₃⟩
    simp only [nodeRef, h₁, h₂, ok_bind, h₃, pure_eq_ok]

/-- A reference is read as far as it goes: what it can take, it has taken. -/
theorem nodeRef_sound {target : Bool} {r : NodeRef} (hs : Fit s)
    (h : nodeRef target s = .ok (r, rest)) :
    Takes s rest r.lexemes ∧ r.IsProper ∧
      (target = true → r.label.isSome → r.shape.isSome) ∧
      (r.shape.isSome → r.label = none → startsWith .colon rest = false) := by
  obtain ⟨name, shape, text⟩ := r
  obtain ⟨s₁, s₂, h₁, h₂, h₃⟩ := nodeRef_eq_ok.mp h
  dsimp only at h₁ h₂ h₃
  have ht₁ := nodeName_sound hs h₁
  obtain ⟨ht₂, hshape⟩ := optional_sound ShapeSpec.lexemes ShapeSpec.IsProper h₂
    fun v hv => shapeSpec_sound (ht₁.fit hs) hv
  have hs₂ := ht₂.fit (ht₁.fit hs)
  obtain ⟨ht₃, -⟩ := optional_sound labelLexemes (fun _ => True) h₃
    fun v hv => ⟨label_sound hs₂ (inProduction_eq_ok.mp hv), trivial⟩
  refine ⟨ht₁.trans (ht₂.trans ht₃), hshape, ?_, ?_⟩
  · rintro rfl htext
    rcases optional_eq_ok.mp h₃ with ⟨-, rfl, -⟩ | ⟨htest, -⟩
    · cases htext
    · simp only [Bool.not_true, Bool.false_or, Bool.and_eq_true] at htest
      exact htest.1
  · rintro hsome rfl
    rcases optional_eq_ok.mp h₃ with ⟨htest, -, rfl⟩ | ⟨-, v, hv, -⟩
    · simpa [show shape.isSome = true from hsome] using htest
    · cases hv

/-- A label is looked for where it may stand, and found exactly if there is one. -/
theorem test_label_eq_isSome {target shape : Bool} {label : Option (Located String)}
    (htarget : target = true → label.isSome → shape = true)
    (hcolon : label = none → (target = true → shape = true) → leads .colon ms = false) :
    ((!target || shape) && leads .colon (label.elim [] labelLexemes ++ ms)) = label.isSome := by
  cases label with
  | some text =>
    cases target with
    | false => rfl
    | true => simp [htarget rfl rfl, labelLexemes]
  | none =>
    cases target with
    | false => simpa using hcolon rfl (by simp)
    | true =>
      cases shape with
      | false => rfl
      | true => simpa using hcolon rfl (by simp)

theorem nodeRef_complete {target : Bool} {r : NodeRef} (hr : r.IsProper)
    (htarget : target = true → r.label.isSome → r.shape.isSome)
    (hdot : leads .dot ms = false) (hshape : leadsShape ms = false)
    (hcolon : r.label = none → (target = true → r.shape.isSome) → leads .colon ms = false)
    (h : s.map Token.lexeme = r.lexemes ++ ms) : Gives NodeRef.bare (nodeRef target s) r ms := by
  rw [NodeRef.lexemes, List.append_assoc, List.append_assoc] at h
  -- no part of a reference that comes later can continue one that comes earlier
  have hdot₁ : leads .dot (r.shape.elim [] ShapeSpec.lexemes ++
      (r.label.elim [] labelLexemes ++ ms)) = false :=
    test_optional_eq_false _ (fun _ _ => rfl) (test_optional_eq_false _ (fun _ _ => rfl) hdot)
  obtain ⟨name, s₁, h₁, hname, hs₁⟩ := nodeName_complete hdot₁ h
  have htest₂ : startsShape s₁ = r.shape.isSome := by
    rw [startsShape_eq, hs₁]
    exact test_optional_eq_isSome _ (fun _ _ => rfl)
      (test_optional_eq_false _ (fun _ _ => rfl) hshape)
  obtain ⟨shape, s₂, h₂, hspec, hs₂⟩ := optional_complete ShapeSpec.bare startsShape shapeSpec
    htest₂ (fun v hv => shapeSpec_complete (hr v hv)) hs₁
  have hsame : shape.isSome = r.shape.isSome := by
    have := congrArg Option.isSome hspec
    simpa using this
  have htest₃ : ((!target || shape.isSome) && startsWith .colon s₂) = r.label.isSome := by
    rw [startsWith_eq, hs₂, hsame]
    exact test_label_eq_isSome htarget hcolon
  obtain ⟨text, s₃, h₃, htext, hs₃⟩ := optional_complete Located.bare
    (fun s => (!target || shape.isSome) && startsWith .colon s)
    (fun s => inProduction .nodeLabel (label s)) htest₃
    (fun v _ hv => (label_complete hv).inProduction _) hs₂
  refine ⟨⟨name, shape, text⟩, s₃, nodeRef_eq_ok.mpr ⟨s₁, s₂, h₁, h₂, h₃⟩, ?_, hs₃⟩
  rw [NodeRef.bare, NodeRef.bare, hname, hspec, htext]

/-! ## Chains -/

theorem arrow_sound {a : Located Arrow} (hs : Fit s) (h : arrow s = .ok (a, rest)) :
    Takes s rest [.mark (.arrow a.value)] := by
  obtain ⟨t, rfl, ht⟩ := one_eq_ok.mp h
  split at ht
  · next b hkind =>
    obtain rfl := Option.some.inj ht
    exact .mark hkind rfl (hs t List.mem_cons_self) rest
  · cases ht

theorem arrow_complete {a : Located Arrow}
    (h : s.map Token.lexeme = .mark (.arrow a.value) :: ms) :
    Gives Located.bare (arrow s) a ms := by
  obtain ⟨t, rest, rfl, ht, hrest⟩ := exists_cons_of_map h
  have hk : t.kind = .arrow a.value := congrArg Lexeme.kind ht
  exact ⟨⟨a.value, t.span⟩, rest, one_eq_ok.mpr ⟨t, rfl, by simp [hk]⟩, by simp, hrest⟩

theorem link_eq_ok {l : Link} :
    link s = .ok (l, rest) ↔ ∃ s₁ s₂ s₃, arrow s = .ok (l.arrow, s₁) ∧
      nodeRef true s₁ = .ok (l.target, s₂) ∧
      optional (startsWith .leftParen) (fun s => inProduction .edgeAnchor (propertyList s)) s₂ =
        .ok (l.anchor, s₃) ∧
      optional (startsWith .colon) (fun s => inProduction .edgeLabel (label s)) s₃ =
        .ok (l.label, rest) := by
  constructor
  · intro h
    obtain ⟨⟨operator, s₁⟩, h₁, h⟩ := bind_eq_ok.mp h
    obtain ⟨⟨target, s₂⟩, h₂, h⟩ := bind_eq_ok.mp h
    obtain ⟨⟨anchor, s₃⟩, h₃, h⟩ := bind_eq_ok.mp h
    obtain ⟨⟨text, s₄⟩, h₄, h⟩ := bind_eq_ok.mp h
    cases h
    exact ⟨s₁, s₂, s₃, h₁, inProduction_eq_ok.mp h₂, h₃, h₄⟩
  · rintro ⟨s₁, s₂, s₃, h₁, h₂, h₃, h₄⟩
    simp only [link, h₁, h₂, h₃, h₄, ok_bind, inProduction_ok, pure_eq_ok]

theorem link_sound {l : Link} (hs : Fit s) (h : link s = .ok (l, rest)) :
    Takes s rest l.lexemes ∧ l.IsProper := by
  obtain ⟨operator, target, anchor, text⟩ := l
  obtain ⟨s₁, s₂, s₃, h₁, h₂, h₃, h₄⟩ := link_eq_ok.mp h
  dsimp only at h₁ h₂ h₃ h₄
  have ht₁ := arrow_sound hs h₁
  obtain ⟨ht₂, htarget, hmay, hmust⟩ := nodeRef_sound (ht₁.fit hs) h₂
  have hs₂ := ht₂.fit (ht₁.fit hs)
  obtain ⟨ht₃, hanchor⟩ := optional_sound PropertyList.lexemes PropertyList.IsProper h₃
    fun v hv => propertyList_sound hs₂ (inProduction_eq_ok.mp hv)
  obtain ⟨ht₄, -⟩ := optional_sound labelLexemes (fun _ => True) h₄
    fun v hv => ⟨label_sound (ht₃.fit hs₂) (inProduction_eq_ok.mp hv), trivial⟩
  refine ⟨ht₁.trans (ht₂.trans (ht₃.trans ht₄)), htarget, hanchor, hmay rfl, fun htext => ?_⟩
  -- an edge has a label only when the label was not there for the target to take
  rcases optional_eq_ok.mp h₄ with ⟨-, rfl, -⟩ | ⟨htest, -⟩
  · cases htext
  rcases optional_eq_ok.mp h₃ with ⟨-, rfl, rfl⟩ | ⟨-, a, rfl, -⟩
  · cases hshape : target.shape with
    | none => exact .inl rfl
    | some spec =>
      cases hlabel : target.label with
      | some text => exact .inr (.inr rfl)
      | none =>
        rw [hmust (by rw [hshape]; rfl) hlabel] at htest
        cases htest
  · exact .inr (.inl rfl)

/-- The lexemes of a link behind its target, and what follows the link. -/
def linkEnd (l : Link) (ms : List Lexeme) : List Lexeme :=
  l.anchor.elim [] PropertyList.lexemes ++ (l.label.elim [] labelLexemes ++ ms)

/-- Properties in parentheses are not taken for a shape. -/
theorem leadsShape_linkEnd {l : Link} (hl : l.IsProper) (hms : Closes ms) :
    leadsShape (linkEnd l ms) = false := by
  refine test_optional_eq_false _ (fun ps hps => ?_)
    (test_optional_eq_false _ (fun _ _ => rfl) (leadsShape_of_leads hms.paren))
  obtain ⟨q, qs, hq⟩ := List.exists_cons_of_ne_nil (hl.anchor ps hps)
  simp [PropertyList.lexemes, hq, propertyLexemes, Property.lexemes, leadsShape, word]

/-- A target with a shape and without a label does not take the label of the edge. -/
theorem leads_colon_linkEnd {l : Link} (hl : l.IsProper) (hms : Closes ms)
    (hnone : l.target.label = none) (hsome : l.target.shape.isSome) :
    leads .colon (linkEnd l ms) = false := by
  rw [linkEnd]
  cases hanchor : l.anchor with
  | some ps => rfl
  | none =>
    cases htext : l.label with
    | none => exact hms.colon
    | some text =>
      rcases hl.labels.edge (by rw [htext]; rfl) with hno | hno | hno
      · rw [hno] at hsome
        cases hsome
      · rw [hanchor] at hno
        cases hno
      · rw [hnone] at hno
        cases hno

theorem link_complete {l : Link} (hl : l.IsProper) (hms : Closes ms)
    (h : s.map Token.lexeme = l.lexemes ++ ms) : Gives Link.bare (link s) l ms := by
  rw [Link.lexemes, List.cons_append, List.append_assoc, List.append_assoc] at h
  obtain ⟨operator, s₁, h₁, hoperator, hs₁⟩ := arrow_complete h
  have hdot : leads .dot (linkEnd l ms) = false :=
    test_optional_eq_false _ (fun _ _ => rfl)
      (test_optional_eq_false _ (fun _ _ => rfl) hms.dot)
  have hcolon (hnone : l.target.label = none) (hsome : true = true → l.target.shape.isSome) :
      leads .colon (linkEnd l ms) = false :=
    leads_colon_linkEnd hl hms hnone (hsome rfl)
  obtain ⟨target, s₂, h₂, htarget, hs₂⟩ :=
    nodeRef_complete hl.target (fun _ => hl.labels.target) hdot (leadsShape_linkEnd hl hms)
      hcolon hs₁
  have htest₃ : startsWith .leftParen s₂ = l.anchor.isSome := by
    rw [startsWith_eq, hs₂]
    exact test_optional_eq_isSome _ (fun _ _ => rfl)
      (test_optional_eq_false _ (fun _ _ => rfl) hms.paren)
  obtain ⟨anchor, s₃, h₃, hanchor, hs₃⟩ := optional_complete PropertyList.bare
    (startsWith .leftParen) (fun s => inProduction .edgeAnchor (propertyList s)) htest₃
    (fun v hv hs => (propertyList_complete (hl.anchor v hv) hs).inProduction _) hs₂
  have htest₄ : startsWith .colon s₃ = l.label.isSome := by
    rw [startsWith_eq, hs₃]
    exact test_optional_eq_isSome _ (fun _ _ => rfl) hms.colon
  obtain ⟨text, s₄, h₄, htext, hs₄⟩ := optional_complete Located.bare (startsWith .colon)
    (fun s => inProduction .edgeLabel (label s)) htest₄
    (fun v _ hv => (label_complete hv).inProduction _) hs₃
  refine ⟨⟨operator, target, anchor, text⟩, s₄, ?_, ?_, hs₄⟩
  · exact link_eq_ok.mpr ⟨s₁, s₂, s₃, h₁, h₂, h₃, h₄⟩
  · rw [Link.bare, Link.bare, hoperator, htarget, hanchor, htext]

/-- While an operator follows, one more link is read. -/
theorem links_succ_eq_ok {fuel : Nat} {ls : List Link} :
    links (fuel + 1) s = .ok (ls, rest) ↔
      (startsArrow s = false ∧ ls = [] ∧ s = rest) ∨
        (startsArrow s = true ∧ ∃ l s₁ ls', link s = .ok (l, s₁) ∧
          links fuel s₁ = .ok (ls', rest) ∧ ls = l :: ls') := by
  cases hstart : startsArrow s with
  | false =>
    simp only [links, hstart, Bool.false_eq_true, if_false, pure_eq_ok, Except.ok.injEq,
      Prod.mk.injEq, true_and, false_and, or_false]
    exact ⟨fun h => ⟨h.1.symm, h.2⟩, fun h => ⟨h.1.symm, h.2⟩⟩
  | true =>
    simp only [links, hstart, if_true, Bool.true_eq_false, false_and, false_or, true_and]
    constructor
    · intro h
      obtain ⟨⟨l, s₁⟩, h₁, h⟩ := bind_eq_ok.mp h
      obtain ⟨⟨ls', s₂⟩, h₂, h⟩ := bind_eq_ok.mp h
      cases h
      exact ⟨l, s₁, ls', h₁, h₂, rfl⟩
    · rintro ⟨l, s₁, ls', h₁, h₂, rfl⟩
      simp only [h₁, h₂, ok_bind, pure_eq_ok]

theorem links_sound {fuel : Nat} {ls : List Link} (hs : Fit s)
    (h : links fuel s = .ok (ls, rest)) :
    Takes s rest (ls.flatMap Link.lexemes) ∧ ∀ l ∈ ls, l.IsProper := by
  induction fuel generalizing s ls with
  | zero =>
    cases h
    exact ⟨Takes.refl _, by simp⟩
  | succ fuel ih =>
    rcases links_succ_eq_ok.mp h with ⟨-, rfl, rfl⟩ | ⟨-, l, s₁, ls, h₁, h₂, rfl⟩
    · exact ⟨Takes.refl _, by simp⟩
    · obtain ⟨ht₁, hl⟩ := link_sound hs h₁
      obtain ⟨ht₂, hls⟩ := ih (ht₁.fit hs) h₂
      exact ⟨ht₁.trans ht₂, List.forall_mem_cons.mpr ⟨hl, hls⟩⟩

theorem links_complete {fuel : Nat} {ls : List Link} (hfuel : ls.length ≤ fuel)
    (hls : ∀ l ∈ ls, l.IsProper) (hms : Closes ms) (harrow : leadsArrow ms = false)
    (h : s.map Token.lexeme = ls.flatMap Link.lexemes ++ ms) :
    Gives (List.map Link.bare) (links fuel s) ls ms := by
  induction ls generalizing s fuel with
  | nil =>
    refine ⟨[], s, ?_, rfl, h⟩
    cases fuel with
    | zero => rfl
    | succ fuel =>
      have hstop : startsArrow s = false := by
        rw [startsArrow_eq, h]
        exact harrow
      exact links_succ_eq_ok.mpr (.inl ⟨hstop, rfl, rfl⟩)
  | cons l ls ih =>
    cases fuel with
    | zero => simp at hfuel
    | succ fuel =>
      rw [List.flatMap_cons, List.append_assoc] at h
      have hnext : Closes (ls.flatMap Link.lexemes ++ ms) := by
        cases ls with
        | nil => exact hms
        | cons k ks => exact ⟨rfl, rfl, rfl⟩
      obtain ⟨l', s₁, h₁, hl', hs₁⟩ := link_complete (hls l (by simp)) hnext h
      obtain ⟨ls', s₂, h₂, hls', hs₂⟩ := ih (by simpa using hfuel)
        (fun k hk => hls k (List.mem_cons_of_mem _ hk)) hs₁
      have hstart : startsArrow s = true := by
        rw [startsArrow_eq, h]
        rfl
      refine ⟨l' :: ls', s₂, ?_, ?_, hs₂⟩
      · exact links_succ_eq_ok.mpr (.inr ⟨hstart, l', s₁, ls', h₁, h₂, rfl⟩)
      · rw [List.map_cons, List.map_cons, hl', hls']

theorem chain_eq_ok {c : Chain} :
    chain s = .ok (c, rest) ↔
      ∃ s₁, nodeRef false s = .ok (c.head, s₁) ∧ links s₁.length s₁ = .ok (c.links, rest) := by
  constructor
  · intro h
    obtain ⟨⟨head, s₁⟩, h₁, h⟩ := bind_eq_ok.mp h
    obtain ⟨⟨ls, s₂⟩, h₂, h⟩ := bind_eq_ok.mp h
    cases h
    exact ⟨s₁, h₁, h₂⟩
  · rintro ⟨s₁, h₁, h₂⟩
    simp only [chain, h₁, h₂, ok_bind, pure_eq_ok]

theorem chain_sound {c : Chain} (hs : Fit s) (h : chain s = .ok (c, rest)) :
    Takes s rest c.lexemes ∧ c.IsProper := by
  obtain ⟨s₁, h₁, h₂⟩ := chain_eq_ok.mp h
  obtain ⟨ht₁, hhead, -⟩ := nodeRef_sound hs h₁
  obtain ⟨ht₂, hls⟩ := links_sound (ht₁.fit hs) h₂
  exact ⟨ht₁.trans ht₂, hhead, hls⟩

theorem length_le_flatMap_lexemes (ls : List Link) :
    ls.length ≤ (ls.flatMap Link.lexemes).length := by
  induction ls with
  | nil => simp
  | cons l ls ih =>
    simp only [List.length_cons, List.flatMap_cons, List.length_append, Link.lexemes]
    omega

theorem chain_complete {c : Chain} (hc : c.IsProper) (hms : Closes ms)
    (harrow : leadsArrow ms = false) (h : s.map Token.lexeme = c.lexemes ++ ms) :
    Gives Chain.bare (chain s) c ms := by
  rw [Chain.lexemes, List.append_assoc] at h
  have hnext : Closes (c.links.flatMap Link.lexemes ++ ms) := by
    cases c.links with
    | nil => exact hms
    | cons l ls => exact ⟨rfl, rfl, rfl⟩
  obtain ⟨head, s₁, h₁, hhead, hs₁⟩ : Gives NodeRef.bare (nodeRef false s) c.head _ :=
    nodeRef_complete hc.head (by simp) hnext.dot (leadsShape_of_leads hnext.paren)
      (fun _ _ => hnext.colon) h
  have hfuel : c.links.length ≤ s₁.length := by
    have hlen := congrArg List.length hs₁
    have hle := length_le_flatMap_lexemes c.links
    simp only [List.length_map, List.length_append] at hlen
    omega
  obtain ⟨ls, s₂, h₂, hls, hs₂⟩ := links_complete hfuel hc.links hms harrow hs₁
  refine ⟨⟨head, ls⟩, s₂, chain_eq_ok.mpr ⟨s₁, h₁, h₂⟩, ?_, hs₂⟩
  rw [Chain.bare, Chain.bare, hhead, hls]

/-! ## Other statements -/

theorem layout_eq_ok {st : Statement} :
    layout s = .ok (st, rest) ↔ ∃ keyword s₁ colon s₂ name, expect .layout s = .ok (keyword, s₁) ∧
      expect .colon s₁ = .ok (colon, s₂) ∧ algorithmName s₂ = .ok (name, rest) ∧
      st = .layout keyword.span name := by
  constructor
  · intro h
    obtain ⟨⟨keyword, s₁⟩, h₁, h⟩ := bind_eq_ok.mp h
    obtain ⟨⟨colon, s₂⟩, h₂, h⟩ := bind_eq_ok.mp h
    obtain ⟨⟨name, s₃⟩, h₃, h⟩ := bind_eq_ok.mp h
    cases h
    exact ⟨keyword, s₁, colon, s₂, name, h₁, inProduction_eq_ok.mp h₂, inProduction_eq_ok.mp h₃,
      rfl⟩
  · rintro ⟨keyword, s₁, colon, s₂, name, h₁, h₂, h₃, rfl⟩
    simp only [layout, h₁, h₂, h₃, ok_bind, inProduction_ok, pure_eq_ok]

theorem layout_sound {st : Statement} (hs : Fit s) (h : layout s = .ok (st, rest)) :
    Takes s rest st.lexemes ∧ st.IsProper := by
  obtain ⟨keyword, s₁, _, s₂, name, h₁, h₂, h₃, rfl⟩ := layout_eq_ok.mp h
  have ht₁ := expect_sound rfl hs h₁
  have ht₂ := expect_sound rfl (ht₁.fit hs) h₂
  obtain ⟨ht₃, hname⟩ := algorithmName_sound (ht₂.fit (ht₁.fit hs)) h₃
  rw [Statement.lexemes, Statement.IsProper]
  exact ⟨ht₁.trans (ht₂.trans ht₃), hname⟩

theorem layout_complete {k : Span} {name : Located String}
    (hname : wordKind name.value = .identifier ∨ wordKind name.value = .shapeName)
    (h : s.map Token.lexeme = (Statement.layout k name).lexemes ++ ms) :
    Gives Statement.bare (layout s) (.layout k name) ms := by
  rw [Statement.lexemes] at h
  obtain ⟨keyword, s₁, h₁, hs₁⟩ := expect_complete h
  obtain ⟨colon, s₂, h₂, hs₂⟩ := expect_complete hs₁
  obtain ⟨found, s₃, h₃, hfound, hs₃⟩ := algorithmName_complete hname hs₂
  refine ⟨.layout keyword.span found, s₃, ?_, ?_, hs₃⟩
  · exact layout_eq_ok.mpr ⟨keyword, s₁, colon, s₂, found, h₁, h₂, h₃, rfl⟩
  · rw [Statement.bare, Statement.bare, hfound]

theorem freeArrow_eq_ok {st : Statement} :
    freeArrow s = .ok (st, rest) ↔ ∃ keyword s₁ items, expect .freeArrow s = .ok (keyword, s₁) ∧
      propertyList s₁ = .ok (items, rest) ∧ st = .freeArrow keyword.span items := by
  constructor
  · intro h
    obtain ⟨⟨keyword, s₁⟩, h₁, h⟩ := bind_eq_ok.mp h
    obtain ⟨⟨items, s₂⟩, h₂, h⟩ := bind_eq_ok.mp h
    cases h
    exact ⟨keyword, s₁, items, h₁, inProduction_eq_ok.mp h₂, rfl⟩
  · rintro ⟨keyword, s₁, items, h₁, h₂, rfl⟩
    simp only [freeArrow, h₁, h₂, ok_bind, inProduction_ok, pure_eq_ok]

theorem freeArrow_sound {st : Statement} (hs : Fit s) (h : freeArrow s = .ok (st, rest)) :
    Takes s rest st.lexemes ∧ st.IsProper := by
  obtain ⟨keyword, s₁, items, h₁, h₂, rfl⟩ := freeArrow_eq_ok.mp h
  have ht₁ := expect_sound rfl hs h₁
  obtain ⟨ht₂, hitems⟩ := propertyList_sound (ht₁.fit hs) h₂
  rw [Statement.lexemes, Statement.IsProper]
  exact ⟨ht₁.trans ht₂, hitems⟩

theorem freeArrow_complete {k : Span} {ps : PropertyList} (hps : ps.IsProper)
    (h : s.map Token.lexeme = (Statement.freeArrow k ps).lexemes ++ ms) :
    Gives Statement.bare (freeArrow s) (.freeArrow k ps) ms := by
  rw [Statement.lexemes, List.cons_append] at h
  obtain ⟨keyword, s₁, h₁, hs₁⟩ := expect_complete h
  obtain ⟨found, s₂, h₂, hfound, hs₂⟩ := propertyList_complete hps hs₁
  refine ⟨.freeArrow keyword.span found, s₂, ?_, ?_, hs₂⟩
  · exact freeArrow_eq_ok.mpr ⟨keyword, s₁, found, h₁, h₂, rfl⟩
  · rw [Statement.bare, Statement.bare, hfound]

/-- The lexemes of a group up to its opening brace. -/
def headerLexemes (id : Located String) (style : Option PropertyList) : List Lexeme :=
  .mark .group :: word id.value :: (style.elim [] PropertyList.lexemes ++ [.mark .leftBrace])

theorem groupHeader_eq_ok {header : GroupHeader} :
    groupHeader s = .ok (header, rest) ↔ ∃ keyword s₁ s₂ s₃ left,
      expect .group s = .ok (keyword, s₁) ∧ identifier s₁ = .ok (header.id, s₂) ∧
      optional (startsWith .leftParen) (fun s => inProduction .groupStyle (propertyList s)) s₂ =
        .ok (header.style, s₃) ∧
      expect .leftBrace s₃ = .ok (left, rest) ∧ header.keyword = keyword.span := by
  constructor
  · intro h
    obtain ⟨⟨keyword, s₁⟩, h₁, h⟩ := bind_eq_ok.mp h
    obtain ⟨⟨id, s₂⟩, h₂, h⟩ := bind_eq_ok.mp h
    obtain ⟨⟨style, s₃⟩, h₃, h⟩ := bind_eq_ok.mp h
    obtain ⟨⟨left, s₄⟩, h₄, h⟩ := bind_eq_ok.mp h
    cases h
    exact ⟨keyword, s₁, s₂, s₃, left, h₁, inProduction_eq_ok.mp h₂, h₃, inProduction_eq_ok.mp h₄,
      rfl⟩
  · rintro ⟨keyword, s₁, s₂, s₃, left, h₁, h₂, h₃, h₄, hkeyword⟩
    simp only [groupHeader, h₁, h₂, h₃, h₄, ok_bind, inProduction_ok, pure_eq_ok, ← hkeyword]

theorem groupHeader_sound {header : GroupHeader} (hs : Fit s)
    (h : groupHeader s = .ok (header, rest)) :
    Takes s rest (headerLexemes header.id header.style) ∧ ∀ ps ∈ header.style, ps.IsProper := by
  obtain ⟨keyword, s₁, s₂, s₃, left, h₁, h₂, h₃, h₄, -⟩ := groupHeader_eq_ok.mp h
  have ht₁ := expect_sound rfl hs h₁
  have ht₂ := identifier_sound h₂
  have hs₂ := ht₂.fit (ht₁.fit hs)
  obtain ⟨ht₃, hstyle⟩ := optional_sound PropertyList.lexemes PropertyList.IsProper h₃
    fun v hv => propertyList_sound hs₂ (inProduction_eq_ok.mp hv)
  have ht₄ := expect_sound rfl (ht₃.fit hs₂) h₄
  exact ⟨ht₁.trans (ht₂.trans (ht₃.trans ht₄)), hstyle⟩

theorem groupHeader_complete {id : Located String} {style : Option PropertyList}
    (hstyle : ∀ ps ∈ style, ps.IsProper)
    (h : s.map Token.lexeme = headerLexemes id style ++ ms) :
    ∃ header rest, groupHeader s = .ok (header, rest) ∧ header.id.bare = id.bare ∧
      header.style.map PropertyList.bare = style.map PropertyList.bare ∧
      rest.map Token.lexeme = ms := by
  rw [headerLexemes, List.cons_append, List.cons_append, List.append_assoc] at h
  obtain ⟨keyword, s₁, h₁, hs₁⟩ := expect_complete h
  obtain ⟨found, s₂, h₂, hfound, hs₂⟩ := identifier_complete hs₁
  have htest : startsWith .leftParen s₂ = style.isSome := by
    rw [startsWith_eq, hs₂]
    cases style <;> rfl
  obtain ⟨list, s₃, h₃, hlist, hs₃⟩ := optional_complete PropertyList.bare (startsWith .leftParen)
    (fun s => inProduction .groupStyle (propertyList s)) htest
    (fun v hv hs => (propertyList_complete (hstyle v hv) hs).inProduction _) hs₂
  obtain ⟨left, s₄, h₄, hs₄⟩ := expect_complete hs₃
  refine ⟨⟨keyword.span, found, list⟩, s₄, ?_, hfound, hlist, hs₄⟩
  exact groupHeader_eq_ok.mpr ⟨keyword, s₁, s₂, s₃, left, h₁, h₂, h₃, h₄, rfl⟩

theorem groupEnd_sound {close : Span} (hs : Fit s) (h : groupEnd s = .ok (close, rest)) :
    Takes s rest [.mark .rightBrace] := by
  obtain ⟨⟨_, s₁⟩, h₁, h⟩ := bind_eq_ok.mp h
  cases h
  exact expect_sound rfl hs (inProduction_eq_ok.mp h₁)

theorem groupEnd_complete (h : s.map Token.lexeme = .mark .rightBrace :: ms) :
    ∃ close rest, groupEnd s = .ok (close, rest) ∧ rest.map Token.lexeme = ms := by
  obtain ⟨t, s₁, h₁, hs₁⟩ := expect_complete h
  refine ⟨t.span, s₁, ?_, hs₁⟩
  simp only [groupEnd, h₁, ok_bind, inProduction_ok, pure_eq_ok]

/-- A statement without statements inside it. -/
def Statement.isPlain : Statement → Bool
  | .group .. => false
  | _ => true

/-- A statement without statements inside it is a directive, a free arrow or a chain. -/
theorem plainStatement_cases {st : Statement} (h : plainStatement s = .ok (st, rest)) :
    layout s = .ok (st, rest) ∨ freeArrow s = .ok (st, rest) ∨
      ∃ c, chain s = .ok (c, rest) ∧ st = .chain c := by
  cases s with
  | nil => cases h
  | cons t r =>
    simp only [plainStatement] at h
    split at h
    · exact .inl h
    · exact .inr (.inl h)
    · cases hc : chain (t :: r) with
      | error f =>
        rw [hc] at h
        cases h
      | ok found =>
        rw [hc] at h
        cases h
        exact .inr (.inr ⟨found.1, rfl, rfl⟩)
    · cases h

theorem plainStatement_sound {st : Statement} (hs : Fit s)
    (h : plainStatement s = .ok (st, rest)) : Takes s rest st.lexemes ∧ st.IsProper := by
  rcases plainStatement_cases h with hlayout | harrow | ⟨c, hchain, rfl⟩
  · exact layout_sound hs hlayout
  · exact freeArrow_sound hs harrow
  · rw [Statement.lexemes, Statement.IsProper]
    exact chain_sound hs hchain

theorem plainStatement_complete {st : Statement} (hst : st.IsProper) (hplain : st.isPlain)
    (hms : Closes ms) (harrow : leadsArrow ms = false)
    (h : s.map Token.lexeme = st.lexemes ++ ms) :
    Gives Statement.bare (plainStatement s) st ms := by
  cases st with
  | group => cases hplain
  | layout k name =>
    rw [Statement.IsProper] at hst
    have hdone := layout_complete hst h
    rw [Statement.lexemes] at h
    obtain ⟨t, r, rfl, ht, -⟩ := exists_cons_of_map h
    have hk : t.kind = .layout := congrArg Lexeme.kind ht
    simpa only [plainStatement, hk] using hdone
  | freeArrow k ps =>
    rw [Statement.IsProper] at hst
    have hdone := freeArrow_complete hst h
    rw [Statement.lexemes] at h
    obtain ⟨t, r, rfl, ht, -⟩ := exists_cons_of_map h
    have hk : t.kind = .freeArrow := congrArg Lexeme.kind ht
    simpa only [plainStatement, hk] using hdone
  | chain c =>
    rw [Statement.IsProper] at hst
    rw [Statement.lexemes] at h
    obtain ⟨c', rest, hc, hbare, hrest⟩ := chain_complete hst hms harrow h
    obtain ⟨t, r, rfl, ht, -⟩ := exists_cons_of_map h
    have hk : t.kind = .identifier := congrArg Lexeme.kind ht
    refine ⟨.chain c', rest, ?_, ?_, hrest⟩
    · simp only [plainStatement, hk, hc]
      rfl
    · rw [Statement.bare, Statement.bare, hbare]

end Diagram.Syntax
