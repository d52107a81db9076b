import Diagram.Proofs.Constructs

/-!
# The places in a tree

A tree keeps the spans of some of the tokens it was read from.  Nothing of a tree stands anywhere
else: its leaves, from left to right, are spans of tokens in the order in which they were read.
This holds whatever was wrong with the rest of the text, and a production that fails stops at one
of its tokens or behind the last.

## Main definitions

* `Statement.leaves`, `leavesAll` — the spans that a tree keeps.
* `Keeps` — the leaves kept of the tokens in front of a rest.
* `Runs`, `Yields` — what a production does when it succeeds, and where it stops when it fails.
* `KeepsOne`, `KeepsAll` — the same for statements, with the messages that recovery adds.

## Main statements

* `yields_nodeRef`, `yields_link`, `yields_plainStatement` — one lemma for each production.
* `keeps_statements` — statements and blocks, from one step of each.
* `keeps_parseTokens`, `mem_issues_parseTokens` — the leaves of a whole tree and the places of its
  messages.
-/

namespace Diagram.Syntax

/-! ## Leaves -/

/-- The spans of a key and its value. -/
def Property.leaves (p : Property) : List Span := [p.key.span, p.value.span]

/-- The spans of some properties and of the parenthesis behind them. -/
def PropertyList.leaves (ps : PropertyList) : List Span :=
  ps.items.flatMap Property.leaves ++ [ps.close]

/-- The spans of a shape keyword, its properties and the parenthesis behind them. -/
def ShapeSpec.leaves (s : ShapeSpec) : List Span :=
  s.keyword.span :: (s.properties.flatMap Property.leaves ++ [s.close])

/-- The spans of the parts of a name. -/
def NodeName.leaves (n : NodeName) : List Span :=
  n.head.span :: n.member.elim [] (fun m => [m.span])

/-- The span of a label. -/
def labelLeaves (text : Located String) : List Span := [text.span]

/-- The spans in a node reference. -/
def NodeRef.leaves (r : NodeRef) : List Span :=
  r.name.leaves ++ (r.shape.elim [] ShapeSpec.leaves ++ r.label.elim [] labelLeaves)

/-- The spans in a link. -/
def Link.leaves (l : Link) : List Span :=
  l.arrow.span ::
    (l.target.leaves ++ (l.anchor.elim [] PropertyList.leaves ++ l.label.elim [] labelLeaves))

/-- The spans in a chain. -/
def Chain.leaves (c : Chain) : List Span := c.head.leaves ++ c.links.flatMap Link.leaves

mutual

/-- The spans in a statement. -/
def Statement.leaves : Statement → List Span
  | .group keyword id style body close =>
    keyword :: id.span :: (style.elim [] PropertyList.leaves ++ (leavesAll body ++ [close]))
  | .layout keyword name => [keyword, name.span]
  | .freeArrow keyword ps => keyword :: ps.leaves
  | .chain c => c.leaves

/-- The spans in some statements. -/
def leavesAll : List Statement → List Span
  | [] => []
  | s :: ss => s.leaves ++ leavesAll ss

end

mutual

theorem mem_leaves_of_mem_flatten {st : Statement} {x : Span} (hx : x ∈ st.leaves) :
    ∀ (s : Statement), st ∈ s.flatten → x ∈ s.leaves
  | .group keyword id style body close, hst => by
    rw [Statement.flatten] at hst
    rcases List.mem_cons.mp hst with rfl | hst
    · exact hx
    · have hbody := mem_leavesAll_of_mem_flattenAll hx body hst
      simp [Statement.leaves, hbody]
  | .layout .., hst | .freeArrow .., hst | .chain _, hst => by
    simp only [Statement.flatten, List.mem_singleton] at hst
    exact hst ▸ hx

/-- The leaves of a part of a tree are leaves of the tree. -/
theorem mem_leavesAll_of_mem_flattenAll {st : Statement} {x : Span} (hx : x ∈ st.leaves) :
    ∀ (tree : List Statement), st ∈ Statement.flattenAll tree → x ∈ leavesAll tree
  | [], hst => by cases hst
  | s :: tree, hst => by
    rw [Statement.flattenAll] at hst
    rw [leavesAll, List.mem_append]
    rcases List.mem_append.mp hst with hst | hst
    · exact .inl (mem_leaves_of_mem_flatten hx s hst)
    · exact .inr (mem_leavesAll_of_mem_flattenAll hx tree hst)

end

/-! ## Tokens that are kept -/

/-- The spans `xs` are those of some of the tokens of `s` in front of `rest`, in order. -/
def Keeps (s rest : List Token) (xs : List Span) : Prop :=
  ∃ ts, s = ts ++ rest ∧ xs.Sublist (ts.map Token.span)

namespace Keeps

variable {s r q : List Token} {xs ys : List Span}

theorem refl (s : List Token) : Keeps s s [] := ⟨[], rfl, .slnil⟩

theorem single (t : Token) (s : List Token) : Keeps (t :: s) s [t.span] := ⟨[t], rfl, .refl _⟩

theorem trans (h : Keeps s r xs) (h' : Keeps r q ys) : Keeps s q (xs ++ ys) := by
  obtain ⟨ts, rfl, hxs⟩ := h
  obtain ⟨us, rfl, hys⟩ := h'
  refine ⟨ts ++ us, (List.append_assoc ..).symm, ?_⟩
  rw [List.map_append]
  exact hxs.append hys

/-- Fewer leaves can be kept. -/
theorem weaken (h : Keeps s r xs) (hsub : ys.Sublist xs) : Keeps s r ys := by
  obtain ⟨ts, hs, hxs⟩ := h
  exact ⟨ts, hs, hsub.trans hxs⟩

/-- Tokens can be passed over. -/
theorem of_suffix (h : r <:+ s) : Keeps s r [] := by
  obtain ⟨ts, rfl⟩ := h
  exact ⟨ts, rfl, List.nil_sublist _⟩

theorem suffix (h : Keeps s r xs) : r <:+ s := by
  obtain ⟨ts, rfl, -⟩ := h
  exact ⟨ts, rfl⟩

end Keeps

/-! ## Productions -/

/-- A result of the property `post`, or a failure that stops inside `s` or at its end. -/
def Runs {β : Type} (s : List Token) (x : Except Failure β) (post : β → Prop) : Prop :=
  match x with
  | .ok v => post v
  | .error f => f.rest <:+ s

/-- A production that keeps of the tokens it reads the leaves of its result. -/
def Yields {β : Type} (leaves : β → List Span) (s : List Token)
    (x : Except Failure (β × List Token)) : Prop :=
  Runs s x fun v => Keeps s v.2 (leaves v.1)

section

variable {β γ : Type} {s r : List Token} {xs : List Span}

/-- One production behind another. -/
theorem Runs.bind {x : Except Failure β} {f : β → Except Failure γ} {P : β → Prop} {Q : γ → Prop}
    (hx : Runs s x P) (hf : ∀ v, P v → Runs s (f v) Q) : Runs s (x >>= f) Q := by
  cases x with
  | error e => exact hx
  | ok v => exact hf v hx

/-- A production that begins later stops later. -/
theorem Runs.later {x : Except Failure β} {P Q : β → Prop} (hx : Runs r x P) (hsuffix : r <:+ s)
    (hpost : ∀ v, P v → Q v) : Runs s x Q := by
  cases x with
  | error e => exact List.IsSuffix.trans hx hsuffix
  | ok v => exact hpost v hx

theorem Runs.inProduction {p : Production} {x : Except Failure β} {P : β → Prop} (hx : Runs s x P) :
    Runs s (inProduction p x) P := by
  cases x <;> exact hx

/-- A production behind tokens that have been read. -/
theorem Yields.after {leaves : β → List Span} {x : Except Failure (β × List Token)}
    (hx : Yields leaves r x) (h : Keeps s r xs) : Yields (fun v => xs ++ leaves v) s x :=
  Runs.later hx h.suffix fun _ hv => h.trans hv

theorem Yields.inProduction {p : Production} {leaves : β → List Span}
    {x : Except Failure (β × List Token)} (hx : Yields leaves s x) :
    Yields leaves s (inProduction p x) :=
  Runs.inProduction hx

/-- Fewer leaves can be kept. -/
theorem Yields.weaken {leaves fewer : β → List Span} {x : Except Failure (β × List Token)}
    (hx : Yields leaves s x) (hsub : ∀ v, (fewer v).Sublist (leaves v)) : Yields fewer s x :=
  Runs.later hx List.suffix_rfl fun v hv => hv.weaken (hsub v.1)

/-- The result of a production as a part of something larger. -/
theorem Yields.map {leaves : β → List Span} {leaves' : γ → List Span} {f : β → γ}
    {x : Except Failure (β × List Token)} (hx : Yields leaves s x)
    (hsub : ∀ v, (leaves' (f v)).Sublist (leaves v)) :
    Yields leaves' s (x.map fun r => (f r.1, r.2)) := by
  cases x with
  | error e => exact hx
  | ok r => exact Keeps.weaken hx (hsub r.1)

end

section

variable {s : List Token}

/-- One token is read, or the reading stops at it. -/
theorem runs_one {β : Type} {e : Expectation} {read : Token → Option β} :
    Runs s (one e read s) fun v => ∃ t, s = t :: v.2 ∧ read t = some v.1 := by
  cases s with
  | nil => exact List.suffix_rfl
  | cons t s =>
    rw [one]
    cases hread : read t with
    | none => exact List.suffix_rfl
    | some v => exact ⟨t, rfl, hread⟩

/-- A class of tokens whose values keep the spans of the tokens. -/
theorem yields_one {β : Type} {e : Expectation} {read : Token → Option β} {span : β → Span}
    (hspan : ∀ t v, read t = some v → span v = t.span) :
    Yields (fun v => [span v]) s (one e read s) := by
  refine Runs.later runs_one List.suffix_rfl fun v hv => ?_
  obtain ⟨t, rfl, hread⟩ := hv
  exact (Keeps.single t v.2).weaken (by simp [hspan t v.1 hread])

/-- What a test that succeeds lets through. -/
theorem eq_of_ite_eq_some {β : Type} {p : Prop} [Decidable p] {v w : β}
    (h : (if p then some v else none) = some w) : v = w :=
  Option.some.inj (Option.ite_none_right_eq_some.mp h).2

theorem yields_expect (k : TokenKind) : Yields (fun t => [t.span]) s (expect k s) := by
  refine yields_one fun t v h => ?_
  rw [eq_of_ite_eq_some h]

/-- A token that only has to be there. -/
theorem yields_mark (k : TokenKind) : Yields (fun _ => []) s (expect k s) :=
  (yields_expect k).weaken fun _ => List.nil_sublist _

theorem yields_identifier : Yields (fun v => [v.span]) s (identifier s) := by
  refine yields_one fun t v h => ?_
  rw [← eq_of_ite_eq_some h, Token.located]

theorem yields_algorithmName : Yields (fun v => [v.span]) s (algorithmName s) := by
  refine yields_one fun t v h => ?_
  rw [← eq_of_ite_eq_some h, Token.located]

theorem span_of_styleValue {t : Token} {v : Located StyleValue}
    (h : (match t.kind with
      | .color => some ⟨.color t.text, t.span⟩
      | .number => (numeral? t.text).map (fun n => ⟨.number n, t.span⟩)
      | .identifier => some ⟨.name t.text, t.span⟩
      | _ => none) = some v) : v.span = t.span := by
  split at h
  · cases h
    rfl
  · obtain ⟨n, -, rfl⟩ := Option.map_eq_some_iff.mp h
    rfl
  · cases h
    rfl
  · cases h

theorem yields_shapeKeyword : Yields (fun v => [v.2.span]) s (shapeKeyword s) := by
  refine Runs.bind (yields_expect .shapeName) fun keyword h => ?_
  dsimp only
  split
  · exact h
  · exact h.suffix

theorem yields_arrow : Yields (fun v => [v.span]) s (arrow s) := by
  refine yields_one fun t v h => ?_
  split at h <;> cases h
  rfl

theorem yields_label : Yields labelLeaves s (label s) := by
  refine Runs.bind (yields_mark .colon) fun c hc => ?_
  refine Runs.bind ((yields_expect .string).after hc) fun t ht => ?_
  exact ht

/-! ## Properties -/

/-- A property is three tokens. -/
theorem runs_property : Runs s (property s) fun p => Keeps s (s.drop 3) p.leaves := by
  refine Runs.bind runs_one.inProduction fun key hkey => ?_
  obtain ⟨a, rfl, ha⟩ := hkey
  have hsuffix₁ : key.2 <:+ a :: key.2 := ⟨[a], rfl⟩
  refine Runs.bind (runs_one.inProduction.later hsuffix₁ fun _ h => h) fun colon hcolon => ?_
  obtain ⟨b, hb, -⟩ := hcolon
  have hsuffix₂ : colon.2 <:+ a :: key.2 := ⟨[a, b], by rw [hb]; rfl⟩
  refine Runs.bind (runs_one.inProduction.later hsuffix₂ fun _ h => h) fun value hvalue => ?_
  obtain ⟨c, hc, hread⟩ := hvalue
  refine ⟨[a, b, c], by rw [hb, hc]; rfl, ?_⟩
  rw [Property.leaves, ← eq_of_ite_eq_some ha, span_of_styleValue hread]
  exact .cons_cons _ (.cons _ (.refl _))

theorem yields_properties {s : List Token} :
    Yields (List.flatMap Property.leaves) s (properties s) := by
  rw [properties]
  refine Runs.bind runs_property fun p hp => ?_
  split
  · next hdrop =>
    rw [hdrop] at hp
    exact hp.weaken (by simp)
  · next t rest hdrop =>
    have hshorter : rest.length < s.length := by
      have := congrArg List.length hdrop
      simp only [List.length_drop, List.length_cons] at this
      omega
    rw [hdrop] at hp
    split
    · have hpt := hp.trans (.single t rest)
      refine Runs.bind (yields_properties.after hpt) fun ps hps => ?_
      exact hps.weaken (by simp)
    · exact hp.weaken (by simp)
termination_by s.length

theorem yields_propertyList : Yields PropertyList.leaves s (propertyList s) := by
  refine Runs.bind (yields_mark .leftParen) fun _ h₁ => ?_
  refine Runs.bind (yields_properties.after h₁) fun items h₂ => ?_
  refine Runs.bind ((yields_expect .rightParen).after h₂) fun close h₃ => ?_
  exact h₃

/-! ## Node references -/

/-- A part that may be there. -/
theorem yields_optional {β : Type} {leaves : β → List Span} {test : List Token → Bool}
    {p : Parse β} (hp : Yields leaves s (p s)) :
    Yields (fun o => o.elim [] leaves) s (optional test p s) := by
  rw [optional]
  split
  · exact Runs.bind hp fun _ h => h
  · exact .refl s

theorem yields_shapeProperties :
    Yields (List.flatMap Property.leaves) s (shapeProperties s) := by
  rw [shapeProperties]
  split
  · exact yields_properties.inProduction.after (.of_suffix (List.drop_suffix 1 s))
  · exact .refl s

theorem yields_shapeSpec : Yields ShapeSpec.leaves s (shapeSpec s) := by
  rw [shapeSpec_eq]
  refine Runs.bind (yields_mark .leftParen) fun _ h₁ => ?_
  refine Runs.bind (yields_shapeKeyword.after h₁) fun keyword h₂ => ?_
  refine Runs.bind (yields_shapeProperties.after h₂) fun items h₃ => ?_
  refine Runs.bind ((yields_expect .rightParen).inProduction.after h₃) fun close h₄ => ?_
  exact h₄.weaken (by simp [ShapeSpec.leaves])

theorem yields_nodeName : Yields NodeName.leaves s (nodeName s) := by
  refine Runs.bind yields_identifier fun head h₁ => ?_
  dsimp only
  split
  · have h₂ := h₁.trans (.of_suffix (List.drop_suffix 1 _))
    refine Runs.bind (yields_identifier.inProduction.after h₂) fun member h₃ => ?_
    exact h₃
  · exact h₁

theorem yields_nodeRef (target : Bool) : Yields NodeRef.leaves s (nodeRef target s) := by
  refine Runs.bind yields_nodeName fun name h₁ => ?_
  refine Runs.bind ((yields_optional yields_shapeSpec).after h₁) fun shape h₂ => ?_
  refine Runs.bind ((yields_optional yields_label.inProduction).after h₂) fun text h₃ => ?_
  exact h₃.weaken (by simp [NodeRef.leaves])

/-! ## Statements -/

theorem yields_link : Yields Link.leaves s (link s) := by
  refine Runs.bind yields_arrow fun operator h₁ => ?_
  refine Runs.bind ((yields_nodeRef true).inProduction.after h₁) fun target h₂ => ?_
  refine Runs.bind ((yields_optional yields_propertyList.inProduction).after h₂) fun anchor h₃ => ?_
  refine Runs.bind ((yields_optional yields_label.inProduction).after h₃) fun text h₄ => ?_
  exact h₄.weaken (by simp [Link.leaves])

theorem yields_links (fuel : Nat) : Yields (List.flatMap Link.leaves) s (links fuel s) := by
  induction fuel generalizing s with
  | zero => exact .refl s
  | succ fuel ih =>
    rw [links]
    split
    · refine Runs.bind yields_link fun l h₁ => ?_
      exact Runs.bind (ih.after h₁) fun ls h₂ => h₂
    · exact .refl s

theorem yields_chain : Yields Chain.leaves s (chain s) := by
  refine Runs.bind (yields_nodeRef false) fun head h₁ => ?_
  exact Runs.bind ((yields_links _).after h₁) fun ls h₂ => h₂

theorem yields_layout : Yields Statement.leaves s (layout s) := by
  refine Runs.bind (yields_expect .layout) fun keyword h₁ => ?_
  refine Runs.bind ((yields_mark .colon).inProduction.after h₁) fun _ h₂ => ?_
  refine Runs.bind (yields_algorithmName.inProduction.after h₂) fun name h₃ => ?_
  exact h₃.weaken (by simp [Statement.leaves])

theorem yields_freeArrow : Yields Statement.leaves s (freeArrow s) := by
  refine Runs.bind (yields_expect .freeArrow) fun keyword h₁ => ?_
  refine Runs.bind (yields_propertyList.inProduction.after h₁) fun items h₂ => ?_
  exact h₂.weaken (by simp [Statement.leaves])

/-- The leaves of what stands in front of the body of a group. -/
def GroupHeader.leaves (h : GroupHeader) : List Span :=
  h.keyword :: h.id.span :: h.style.elim [] PropertyList.leaves

theorem yields_groupHeader : Yields GroupHeader.leaves s (groupHeader s) := by
  refine Runs.bind (yields_expect .group) fun keyword h₁ => ?_
  refine Runs.bind (yields_identifier.inProduction.after h₁) fun id h₂ => ?_
  refine Runs.bind ((yields_optional yields_propertyList.inProduction).after h₂) fun style h₃ => ?_
  refine Runs.bind ((yields_mark .leftBrace).inProduction.after h₃) fun _ h₄ => ?_
  exact h₄.weaken (by simp [GroupHeader.leaves])

theorem yields_groupEnd : Yields (fun close => [close]) s (groupEnd s) :=
  Runs.bind (yields_expect .rightBrace).inProduction fun _ h => h

theorem yields_plainStatement : Yields Statement.leaves s (plainStatement s) := by
  unfold plainStatement
  split
  · exact List.suffix_rfl
  · split
    · exact yields_layout
    · exact yields_freeArrow
    · exact yields_chain.map (by simp [Statement.leaves])
    · exact List.suffix_rfl

end

/-! ## Recovery -/

/-- A message about some tokens: at one of them or at the end. -/
def Blames (eof : Span) (s : List Token) (i : Issue) : Prop :=
  i.span = eof ∨ ∃ t ∈ s, i.span = t.span

section

variable {eof : Span} {s r : List Token}

theorem Blames.later {i : Issue} (h : Blames eof r i) (hsuffix : r <:+ s) : Blames eof s i := by
  rcases h with h | ⟨t, ht, h⟩
  · exact .inl h
  · exact .inr ⟨t, hsuffix.subset ht, h⟩

/-- A new message is about the tokens that a production has stopped in. -/
theorem mem_report {f : Failure} (hf : f.rest <:+ s) {issues : List Issue} {i : Issue}
    (hi : i ∈ report eof f issues) : i ∈ issues ∨ Blames eof s i := by
  unfold report at hi
  split at hi
  · exact .inl hi
  · rcases List.mem_cons.mp hi with rfl | hi
    · refine .inr ?_
      cases hrest : f.rest with
      | nil => exact .inl (by simp [Failure.span, hrest])
      | cons t rest =>
        have ht : t ∈ s := hf.subset (by simp [hrest])
        exact .inr ⟨t, ht, by simp [Failure.span, hrest]⟩
    · exact .inl hi

theorem resume_suffix {nested : Bool} {f : Failure} (hf : f.rest <:+ s) :
    resume eof nested s f <:+ s := by
  unfold resume
  refine (List.dropWhile_suffix _).trans ?_
  split
  · exact List.drop_suffix 1 s
  · exact hf

/-- With some fuel a statement keeps its leaves and adds messages about its tokens. -/
def KeepsOne (eof : Span) (fuel : Nat) : Prop :=
  ∀ issues s, Yields Statement.leaves s (statement eof fuel issues s).1 ∧
    ∀ i ∈ (statement eof fuel issues s).2, i ∈ issues ∨ Blames eof s i

/-- With some fuel the statements of a block keep their leaves and add messages about its tokens. -/
def KeepsAll (eof : Span) (fuel : Nat) : Prop :=
  ∀ nested issues s,
    Keeps s (statements eof fuel nested issues s).rest
        (leavesAll (statements eof fuel nested issues s).statements) ∧
      ∀ i ∈ (statements eof fuel nested issues s).issues, i ∈ issues ∨ Blames eof s i

theorem keepsOne_succ {fuel : Nat} (hall : KeepsAll eof fuel) : KeepsOne eof (fuel + 1) := by
  intro issues s
  rw [statement]
  split
  · have hheader := yields_groupHeader (s := s)
    split
    · next f hf =>
      rw [hf] at hheader
      exact ⟨hheader, fun i hi => .inl hi⟩
    · next header s₁ hok =>
      rw [hok] at hheader
      have hheader : Keeps s s₁ header.leaves := hheader
      obtain ⟨hbody, hissues⟩ := hall true issues s₁
      have hend := yields_groupEnd.after (hheader.trans hbody)
      have hblames : ∀ i ∈ (statements eof fuel true issues s₁).issues,
          i ∈ issues ∨ Blames eof s i := fun i hi =>
        (hissues i hi).imp_right fun h => h.later hheader.suffix
      dsimp only
      split
      · next f hf =>
        rw [hf] at hend
        exact ⟨hend, hblames⟩
      · next close s₂ hok =>
        rw [hok] at hend
        refine ⟨Keeps.weaken hend ?_, hblames⟩
        simp [Statement.leaves, GroupHeader.leaves]
  · exact ⟨yields_plainStatement, fun i hi => .inl hi⟩

theorem keepsAll_succ {fuel : Nat} (hone : KeepsOne eof fuel) (hall : KeepsAll eof fuel) :
    KeepsAll eof (fuel + 1) := by
  intro nested issues s
  rw [statements]
  split
  · rw [leavesAll]
    exact ⟨.refl s, fun i hi => .inl hi⟩
  · obtain ⟨hfirst, hissues⟩ := hone issues s
    split
    · next first rest issues' hok =>
      rw [hok] at hfirst hissues
      have hfirst : Keeps s rest first.leaves := hfirst
      obtain ⟨hmore, hissues'⟩ := hall nested issues' rest
      dsimp only
      rw [leavesAll]
      refine ⟨hfirst.trans hmore, fun i hi => ?_⟩
      rcases hissues' i hi with hi | hi
      · exact hissues i hi
      · exact .inr (hi.later hfirst.suffix)
    · next f issues' hf =>
      rw [hf] at hfirst hissues
      -- what is skipped lies between the failure and the next statement, and no leaf is lost there
      have hresume : resume eof nested s f <:+ s := resume_suffix hfirst
      obtain ⟨hmore, hissues'⟩ := hall nested (report eof f issues') (resume eof nested s f)
      refine ⟨(Keeps.of_suffix hresume).trans hmore, fun i hi => ?_⟩
      rcases hissues' i hi with hi | hi
      · rcases mem_report hfirst hi with hi | hi
        · exact hissues i hi
        · exact .inr hi
      · exact .inr (hi.later hresume)

/-- **What statements keep of the tokens**, and which messages they add, whatever the fuel. -/
theorem keeps_statements (eof : Span) (fuel : Nat) : KeepsOne eof fuel ∧ KeepsAll eof fuel := by
  induction fuel with
  | zero =>
    refine ⟨fun issues s => ⟨List.suffix_rfl, fun i hi => .inl hi⟩, fun nested issues s => ?_⟩
    rw [statements, leavesAll]
    exact ⟨.refl s, fun i hi => .inl hi⟩
  | succ fuel ih => exact ⟨keepsOne_succ ih.2, keepsAll_succ ih.1 ih.2⟩

/-! ## Whole texts -/

/-- **The leaves of a tree are spans of tokens**, in order. -/
theorem keeps_parseTokens (eof : Span) (tokens : List Token) :
    (leavesAll (parseTokens eof tokens).1).Sublist (tokens.map Token.span) := by
  obtain ⟨ts, htokens, hsub⟩ :=
    ((keeps_statements eof (2 * tokens.length + 2)).2 false [] tokens).1
  refine hsub.trans ?_
  rw [htokens, List.map_append]
  exact List.sublist_append_left _ _

/-- **A message of the parser is about a token or the end.** -/
theorem mem_issues_parseTokens {tokens : List Token} {i : Issue}
    (hi : i ∈ (parseTokens eof tokens).2) : Blames eof tokens i := by
  have hall := ((keeps_statements eof (2 * tokens.length + 2)).2 false [] tokens).2
  exact (hall i (List.mem_reverse.mp hi)).resolve_left List.not_mem_nil

end

end Diagram.Syntax
