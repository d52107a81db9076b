import Diagram.Proofs.Extents
import Diagram.Proofs.Merging
import Diagram.Proofs.Munching
import Diagram.Proofs.Parsed

/-!
# Where names are read

In a text without messages the name of every node reference is read from tokens that stand by
themselves: the token in front of them is no dot and no number, the two that a word could run into
without a gap, and the token behind them is no dot either, since a name takes every dot that it
meets and has at most one.

What is in front of a name is the end of a statement, the brace of a group, or the operator of an
edge; so it is enough to know how the parts of a tree end.
-/

namespace Diagram.Syntax

variable {eof : Span} {s s' rest : List Token} {ls ms : List Lexeme} {n : NodeName}

/-! ## How the parts of a tree end -/

/-- The classes of tokens that may end in a character of a word without being words. -/
def runsOn : TokenKind → Bool
  | .dot | .number => true
  | _ => false

theorem not_runsOn_of_isWord {k : TokenKind} (h : k.isWord) : runsOn k = false := by
  cases k <;> first | rfl | cases h

/-- The last lexeme, if there is one, is no dot and no number. -/
def EndsApart (ls : List Lexeme) : Prop := ∀ l ∈ ls.getLast?, runsOn l.kind = false

@[simp] theorem endsApart_nil : EndsApart [] := nofun

theorem endsApart_concat {l : Lexeme} (hl : runsOn l.kind = false) (ls : List Lexeme) :
    EndsApart (ls ++ [l]) := by
  intro k hk
  rw [List.getLast?_concat, Option.mem_some_iff] at hk
  exact hk ▸ hl

theorem EndsApart.append (hls : EndsApart ls) (hms : EndsApart ms) : EndsApart (ls ++ ms) := by
  intro l hl
  rw [List.getLast?_append] at hl
  cases hlast : ms.getLast? with
  | none => exact hls l (by simpa [hlast] using hl)
  | some m => exact hms l (by simpa [hlast] using hl)

theorem endsApart_elim {β : Type} {lexemes : β → List Lexeme} (o : Option β)
    (h : ∀ v, EndsApart (lexemes v)) : EndsApart (o.elim [] lexemes) := by
  cases o with
  | none => exact endsApart_nil
  | some v => exact h v

theorem endsApart_flatMap {β : Type} {lexemes : β → List Lexeme} (vs : List β)
    (h : ∀ v, EndsApart (lexemes v)) : EndsApart (vs.flatMap lexemes) := by
  induction vs with
  | nil => exact endsApart_nil
  | cons v vs ih => exact (h v).append ih

/-- Properties end with their parenthesis. -/
theorem endsApart_propertyList (ps : PropertyList) : EndsApart ps.lexemes := by
  rw [PropertyList.lexemes, ← List.cons_append]
  exact endsApart_concat rfl _

theorem endsApart_shapeSpec (s : ShapeSpec) : EndsApart s.lexemes := by
  rw [ShapeSpec.lexemes, ← List.cons_append, ← List.cons_append]
  exact endsApart_concat rfl _

theorem endsApart_label (text : Located String) : EndsApart (labelLexemes text) :=
  endsApart_concat rfl [_]

theorem endsApart_name (n : NodeName) : EndsApart n.lexemes := by
  rw [NodeName.lexemes]
  cases n.member with
  | none => exact endsApart_concat rfl []
  | some m => exact endsApart_concat rfl [_, _]

theorem endsApart_nodeRef (r : NodeRef) : EndsApart r.lexemes :=
  (endsApart_name r.name).append
    ((endsApart_elim r.shape endsApart_shapeSpec).append (endsApart_elim r.label endsApart_label))

theorem endsApart_link (l : Link) : EndsApart l.lexemes := by
  have hoperator : EndsApart [.mark (.arrow l.arrow.value)] := endsApart_concat rfl []
  exact hoperator.append ((endsApart_nodeRef l.target).append
    ((endsApart_elim l.anchor endsApart_propertyList).append
      (endsApart_elim l.label endsApart_label)))

/-- A group up to its opening brace ends with that brace. -/
theorem endsApart_header (id : Located String) (style : Option PropertyList) :
    EndsApart (headerLexemes id style) := by
  rw [headerLexemes, ← List.cons_append, ← List.cons_append]
  exact endsApart_concat rfl _

/-- **No statement ends in a dot or a number.** -/
theorem endsApart_lexemes (st : Statement) : EndsApart st.lexemes := by
  cases st with
  | group keyword id style body close =>
    have hbrace : (Statement.group keyword id style body close).lexemes =
        (headerLexemes id style ++ lexemesAll body) ++ [.mark .rightBrace] := by
      simp [Statement.lexemes, headerLexemes]
    rw [hbrace]
    exact endsApart_concat rfl _
  | layout keyword name =>
    rw [Statement.lexemes]
    exact endsApart_concat (not_runsOn_of_isWord (isWord_wordKind name.value)) [_, _]
  | freeArrow keyword ps =>
    rw [Statement.lexemes]
    have hkeyword : EndsApart [.mark .freeArrow] := endsApart_concat rfl []
    exact hkeyword.append (endsApart_propertyList ps)
  | chain c =>
    rw [Statement.lexemes]
    exact (endsApart_nodeRef c.head).append (endsApart_flatMap c.links endsApart_link)

/-! ## Names among tokens -/

/-- The parts of a name. -/
def NodeName.parts (n : NodeName) : List (Located String) := n.head :: n.member.toList

/-- A name is read from some of the tokens.  In front of these is no dot and no number, and behind
them no dot. -/
def HasName (s : List Token) (n : NodeName) : Prop :=
  ∃ before s' rest, s = before ++ s' ∧ EndsApart (before.map Token.lexeme) ∧
    nodeName s' = .ok (n, rest) ∧ startsWith .dot rest = false

/-- A name is still there when other tokens are in front. -/
theorem HasName.behind (h : HasName s' n) (ht : Takes s s' ls) (hls : EndsApart ls) :
    HasName s n := by
  obtain ⟨ts, rfl, rfl⟩ := ht
  obtain ⟨before, s'', rest, rfl, hbefore, hname, hdot⟩ := h
  refine ⟨ts ++ before, s'', rest, (List.append_assoc ..).symm, ?_, hname, hdot⟩
  rw [List.map_append]
  exact hls.append hbefore

/-- Tokens that start with a token of another class do not start with a dot. -/
theorem not_dot_of_startsWith {k : TokenKind} (hk : k ≠ .dot) (h : startsWith k s) :
    startsWith .dot s = false := by
  cases s with
  | nil => rfl
  | cons t s =>
    obtain rfl : t.kind = k := of_decide_eq_true h
    exact decide_eq_false hk

/-- In front of a part that starts with no dot there is none, whether the part is there or not. -/
theorem not_dot_of_optional {β : Type} {test : List Token → Bool} {p : Parse β} {o : Option β}
    (h : optional test p s = .ok (o, rest)) (htest : test s → startsWith .dot s = false)
    (hrest : startsWith .dot rest = false) : startsWith .dot s = false := by
  rcases optional_eq_ok.mp h with ⟨-, -, rfl⟩ | ⟨hpart, -⟩
  · exact hrest
  · exact htest hpart

theorem not_dot_of_startsShape (h : startsShape s) : startsWith .dot s = false := by
  match s, h with
  | p :: k :: s, h =>
    have hparen : p.kind = .leftParen := by
      simp only [startsShape, Bool.and_eq_true, decide_eq_true_eq] at h
      exact h.1
    exact not_dot_of_startsWith (k := .leftParen) (by decide) (decide_eq_true hparen)

theorem hasName_nodeRef {target : Bool} {r : NodeRef} (h : nodeRef target s = .ok (r, rest))
    (hrest : startsWith .dot rest = false) : HasName s r.name := by
  obtain ⟨s₁, s₂, h₁, h₂, h₃⟩ := nodeRef_eq_ok.mp h
  have hdot₂ : startsWith .dot s₂ = false := by
    refine not_dot_of_optional h₃ (fun htest => ?_) hrest
    exact not_dot_of_startsWith (k := .colon) (by decide) (Bool.and_eq_true_iff.mp htest).2
  have hdot₁ : startsWith .dot s₁ = false :=
    not_dot_of_optional h₂ not_dot_of_startsShape hdot₂
  exact ⟨[], s, s₁, rfl, endsApart_nil, h₁, hdot₁⟩

theorem hasName_link {l : Link} (hs : Fit s) (h : link s = .ok (l, rest))
    (hrest : startsWith .dot rest = false) : HasName s l.target.name := by
  obtain ⟨s₁, s₂, s₃, h₁, h₂, h₃, h₄⟩ := link_eq_ok.mp h
  have hdot₃ : startsWith .dot s₃ = false :=
    not_dot_of_optional h₄ (not_dot_of_startsWith (by decide)) hrest
  have hdot₂ : startsWith .dot s₂ = false :=
    not_dot_of_optional h₃ (not_dot_of_startsWith (by decide)) hdot₃
  have hname := hasName_nodeRef h₂ hdot₂
  exact hname.behind (arrow_sound hs h₁) (endsApart_concat rfl [])

/-- Links start with an operator, and behind the last of them the tokens go on. -/
theorem not_dot_of_links {fuel : Nat} {ls : List Link} (h : links fuel s = .ok (ls, rest))
    (hrest : startsWith .dot rest = false) : startsWith .dot s = false := by
  cases fuel with
  | zero =>
    cases h
    exact hrest
  | succ fuel =>
    rcases links_succ_eq_ok.mp h with ⟨-, -, rfl⟩ | ⟨hstart, -⟩
    · exact hrest
    · cases s with
      | nil => rfl
      | cons t s =>
        refine decide_eq_false fun hdot => ?_
        simp [startsArrow, hdot] at hstart

theorem hasName_links {fuel : Nat} {ls : List Link} (hs : Fit s) (h : links fuel s = .ok (ls, rest))
    (hrest : startsWith .dot rest = false) : ∀ l ∈ ls, HasName s l.target.name := by
  induction fuel generalizing s ls with
  | zero =>
    cases h
    exact fun l hl => absurd hl List.not_mem_nil
  | succ fuel ih =>
    rcases links_succ_eq_ok.mp h with ⟨-, rfl, -⟩ | ⟨-, l, s₁, ls, h₁, h₂, rfl⟩
    · exact fun l hl => absurd hl List.not_mem_nil
    · have ht := (link_sound hs h₁).1
      refine List.forall_mem_cons.mpr ⟨hasName_link hs h₁ (not_dot_of_links h₂ hrest), ?_⟩
      intro l' hl'
      exact (ih (ht.fit hs) h₂ l' hl').behind ht (endsApart_link l)

theorem hasName_chain {c : Chain} (hs : Fit s) (h : chain s = .ok (c, rest))
    (hrest : startsWith .dot rest = false) : ∀ r ∈ c.refs, HasName s r.name := by
  obtain ⟨s₁, h₁, h₂⟩ := chain_eq_ok.mp h
  have ht := (nodeRef_sound hs h₁).1
  refine List.forall_mem_cons.mpr ⟨hasName_nodeRef h₁ (not_dot_of_links h₂ hrest), ?_⟩
  intro r hr
  obtain ⟨l, hl, rfl⟩ := List.mem_map.mp hr
  exact (hasName_links (ht.fit hs) h₂ hrest l hl).behind ht (endsApart_nodeRef c.head)

theorem hasName_plainStatement {st : Statement} (hs : Fit s)
    (h : plainStatement s = .ok (st, rest)) (hrest : startsWith .dot rest = false) :
    ∀ r ∈ nodeRefs [st], HasName s r.name := by
  rcases plainStatement_cases h with hlayout | harrow | ⟨c, hchain, rfl⟩
  · obtain ⟨_, _, _, _, _, -, -, -, rfl⟩ := layout_eq_ok.mp hlayout
    simp
  · obtain ⟨_, _, _, -, -, rfl⟩ := freeArrow_eq_ok.mp harrow
    simp
  · rw [nodeRefs_chain, nodeRefs_nil, List.append_nil]
    exact hasName_chain hs hchain hrest

/-! ## Names of statements -/

/-- A statement starts with no dot. -/
theorem not_dot_of_takes {st : Statement} (h : Takes s rest st.lexemes) :
    startsWith .dot s = false := by
  obtain ⟨l, ls, hl, hkind⟩ := exists_cons_lexemes st
  rw [startsWith_eq, h.map, hl, List.cons_append, leads_cons]
  rcases hkind with hk | hk | hk | hk <;> simp [hk]

theorem not_dot_of_stops {nested : Bool} (h : stops nested s) : startsWith .dot s = false := by
  rw [stops, Bool.or_eq_true, Bool.and_eq_true] at h
  rcases h with hempty | ⟨-, hbrace⟩
  · rw [List.isEmpty_iff.mp hempty]
    rfl
  · exact not_dot_of_startsWith (k := .rightBrace) (by decide) hbrace

theorem attempt_sound {issues : List Issue} {st : Statement} (hs : Fit s)
    (h : attempt eof issues s = (.ok (st, rest), [])) : Takes s rest st.lexemes := by
  obtain rfl : issues = [] := (issues_eq_nil eof _).1 issues s (congrArg Prod.snd h)
  exact ((statement_sound eof _).1 s st rest hs h).1

/-- **What is read without a message has its names**, from one step to the next: a statement in
front of anything but a dot, and a block, which never starts with one. -/
theorem hasName_nodeRefs (eof : Span) :
    (∀ issues s, Fit s → ∀ st rest, attempt eof issues s = (.ok (st, rest), []) →
        startsWith .dot rest = false → ∀ r ∈ nodeRefs [st], HasName s r.name) ∧
      ∀ nested issues s, Fit s → (block eof nested issues s).issues = [] →
        startsWith .dot s = false ∧
          ∀ r ∈ nodeRefs (block eof nested issues s).statements, HasName s r.name := by
  refine block_induction
    (P := fun _ s result => Fit s → ∀ st rest, result = (.ok (st, rest), []) →
      startsWith .dot rest = false → ∀ r ∈ nodeRefs [st], HasName s r.name)
    (Q := fun _ _ s o => Fit s → o.issues = [] →
      startsWith .dot s = false ∧ ∀ r ∈ nodeRefs o.statements, HasName s r.name)
    ?plain ?noHeader ?unclosed ?closed ?stop ?next ?retry
  case plain =>
    intro issues s _ hs st rest h hrest
    exact hasName_plainStatement hs (Prod.mk.inj h).1 hrest
  case noHeader =>
    intro issues s f _ _ hs st rest h
    cases h
  case unclosed =>
    intro issues s header rest _ _ _ hs st rest' h
    cases h
  case closed =>
    intro issues s header rest t s' hheader hrest hkind hbody hs st rest' h _
    obtain ⟨hst, hissues⟩ := Prod.mk.inj h
    cases hst
    have ht := (groupHeader_sound hs hheader).1
    rw [nodeRefs_group, nodeRefs_nil, List.append_nil]
    intro r hr
    exact ((hbody (ht.fit hs) hissues).2 r hr).behind ht (endsApart_header header.id header.style)
  case stop =>
    intro nested issues s hstop hs _
    exact ⟨not_dot_of_stops hstop, fun r hr => absurd hr List.not_mem_nil⟩
  case next =>
    intro nested issues s st rest issues' _ hone hfirst hmore hs hissues
    -- messages are never taken back, so the first statement has been read without one
    obtain rfl : issues' = [] := (issues_eq_nil eof _).2 nested issues' rest hissues
    have ht := attempt_sound hs hone
    obtain ⟨hdot, hnames⟩ := hmore (ht.fit hs) hissues
    refine ⟨not_dot_of_takes ht, fun r hr => ?_⟩
    rw [nodeRefs_cons, List.mem_append] at hr
    rcases hr with hr | hr
    · exact hfirst hs st rest rfl hdot r hr
    · exact (hnames r hr).behind ht (endsApart_lexemes st)
  case retry =>
    intro nested issues s f issues' _ _ _ _ hs hissues
    have hnone := (issues_eq_nil eof _).2 nested _ _ hissues
    exact absurd hnone (report_ne_nil eof f issues')

/-! ## Whole texts -/

/-- **Where the names of a text are read.** -/
theorem hasName_of_parse {text : String} (h : (parse text).2 = []) {r : NodeRef}
    (hr : r ∈ nodeRefs (parse text).1) : HasName (tokenize text).1 r.name := by
  have hfit : Fit (tokenize text).1 := fun t ht => fits_of_mem_tokenize ht
  have hissues := List.reverse_eq_nil_iff.mp (issues_of_parse h).2
  exact ((hasName_nodeRefs _).2 false [] _ hfit hissues).2 r hr

end Diagram.Syntax
