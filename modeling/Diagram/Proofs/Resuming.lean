import Diagram.Proofs.Leaves

/-!
# Statements and blocks without fuel

Statements and the blocks that hold them are read by calling each other, and each call has less fuel
than the one before it.  The fuel never runs out: a statement that is read takes a token, a group
that is entered takes one, and after a failure one is passed over.  So what is read does not depend
on the fuel that is left, and statements and blocks obey equations without it, along which whatever
holds of each step can be carried to the whole run.
-/

namespace Diagram.Syntax

variable {eof : Span} {nested : Bool} {issues issues' : List Issue} {s rest : List Token}
  {s' : List Token} {st : Statement} {f : Failure} {header : GroupHeader}

/-! ## Progress -/

@[simp] theorem leaves_ne_nil (st : Statement) : st.leaves ≠ [] := by
  cases st with
  | group keyword id style body close => simp [Statement.leaves]
  | layout keyword name => simp [Statement.leaves]
  | freeArrow keyword ps => simp [Statement.leaves]
  | chain c => simp [Statement.leaves, Chain.leaves, NodeRef.leaves, NodeName.leaves]

/-- Where a leaf is kept, a token is taken. -/
theorem Keeps.length_lt {xs : List Span} (h : Keeps s rest xs) (hxs : xs ≠ []) :
    rest.length < s.length := by
  obtain ⟨ts, rfl, hsub⟩ := h
  have hpos := List.length_pos_iff.mpr hxs
  have hle := hsub.length_le
  rw [List.length_map] at hle
  rw [List.length_append]
  omega

theorem Yields.keeps {β : Type} {leaves : β → List Span} {x : Except Failure (β × List Token)}
    {v : β} (hx : Yields leaves s x) (h : x = .ok (v, rest)) : Keeps s rest (leaves v) := by
  rw [h] at hx
  exact hx

theorem Yields.suffix {β : Type} {leaves : β → List Span} {x : Except Failure (β × List Token)}
    (hx : Yields leaves s x) (h : x = .error f) : f.rest <:+ s := by
  rw [h] at hx
  exact hx

theorem keeps_of_statement {fuel : Nat}
    (h : statement eof fuel issues s = (.ok (st, rest), issues')) : Keeps s rest st.leaves :=
  ((keeps_statements eof fuel).1 issues s).1.keeps (congrArg Prod.fst h)

theorem suffix_of_statement {fuel : Nat}
    (h : statement eof fuel issues s = (.error f, issues')) : f.rest <:+ s :=
  ((keeps_statements eof fuel).1 issues s).1.suffix (congrArg Prod.fst h)

theorem keeps_of_groupHeader (h : groupHeader s = .ok (header, rest)) :
    Keeps s rest header.leaves :=
  yields_groupHeader.keeps h

theorem length_lt_of_groupHeader (h : groupHeader s = .ok (header, rest)) :
    rest.length < s.length :=
  (keeps_of_groupHeader h).length_lt (by simp [GroupHeader.leaves])

/-- After a failure at least one token is passed over. -/
theorem length_resume_lt (eof : Span) (nested : Bool) (hs : s ≠ []) (f : Failure) :
    (resume eof nested s f).length < s.length := by
  have hpos := List.length_pos_iff.mpr hs
  rw [resume]
  refine Nat.lt_of_le_of_lt (List.dropWhile_suffix _).length_le ?_
  split
  · rw [List.length_drop]
    omega
  · omega

/-! ## Enough fuel -/

/-- Whether a block ends in front of some tokens: when there are none, or inside of a group at a
closing brace. -/
def stops (nested : Bool) (s : List Token) : Bool :=
  s.isEmpty || (nested && startsWith .rightBrace s)

theorem ne_nil_of_not_stops (h : stops nested s = false) : s ≠ [] := by
  rintro rfl
  cases h

/-- At the end of the tokens there is no statement, whatever the fuel. -/
@[simp] theorem statement_nil (eof : Span) (fuel : Nat) (issues : List Issue) :
    statement eof fuel issues [] = (.error ⟨.statement, none, []⟩, issues) := by
  cases fuel <;> rfl

theorem statement_congr (eof : Span) (fuel : Nat) :
    (∀ fuel' issues s, 2 * s.length ≤ fuel → 2 * s.length ≤ fuel' →
        statement eof fuel issues s = statement eof fuel' issues s) ∧
      ∀ fuel' nested issues s, 2 * s.length + 1 ≤ fuel → 2 * s.length + 1 ≤ fuel' →
        statements eof fuel nested issues s = statements eof fuel' nested issues s := by
  induction fuel with
  | zero =>
    constructor
    · intro fuel' issues s h _
      obtain rfl : s = [] := List.length_eq_zero_iff.mp (by omega)
      rw [statement_nil, statement_nil]
    · intro fuel' nested issues s h _
      omega
  | succ fuel ih =>
    obtain ⟨ihOne, ihAll⟩ := ih
    constructor
    · intro fuel' issues s h h'
      -- without tokens both fail at once, and with a token there is fuel left for it
      obtain rfl | hs := Decidable.em (s = [])
      · rw [statement_nil, statement_nil]
      have hpos := List.length_pos_iff.mpr hs
      obtain ⟨fuel', rfl⟩ : ∃ n, fuel' = n + 1 := ⟨fuel' - 1, by omega⟩
      rw [statement, statement]
      cases hheader : groupHeader s with
      | error f => rfl
      | ok r =>
        obtain ⟨header, rest⟩ := r
        have hlt := length_lt_of_groupHeader hheader
        dsimp only
        rw [ihAll fuel' true issues rest (by omega) (by omega)]
    · intro fuel' nested issues s h h'
      obtain ⟨fuel', rfl⟩ : ∃ n, fuel' = n + 1 := ⟨fuel' - 1, by omega⟩
      rw [statements, statements, ihOne fuel' issues s (by omega) (by omega)]
      split
      · rfl
      · next hgo =>
        have hs : s ≠ [] := ne_nil_of_not_stops (Bool.not_eq_true _ ▸ hgo)
        split
        · next first rest issues' hone =>
          have hlt := (keeps_of_statement hone).length_lt (leaves_ne_nil first)
          rw [ihAll fuel' nested issues' rest (by omega) (by omega)]
        · next f issues' hone =>
          have hlt := length_resume_lt eof nested hs f
          exact ihAll fuel' nested _ _ (by omega) (by omega)

/-! ## Without fuel -/

/-- A statement, with as much fuel as it can need. -/
def attempt (eof : Span) (issues : List Issue) (s : List Token) :
    Except Failure (Statement × List Token) × List Issue :=
  statement eof (2 * s.length + 1) issues s

/-- A block, with as much fuel as it can need. -/
def block (eof : Span) (nested : Bool) (issues : List Issue) (s : List Token) : Outcome :=
  statements eof (2 * s.length + 2) nested issues s

theorem statement_eq_attempt {fuel : Nat} (hfuel : 2 * s.length ≤ fuel) :
    statement eof fuel issues s = attempt eof issues s :=
  (statement_congr eof fuel).1 _ issues s hfuel (by omega)

theorem statements_eq_block {fuel : Nat} (hfuel : 2 * s.length + 1 ≤ fuel) :
    statements eof fuel nested issues s = block eof nested issues s :=
  (statement_congr eof fuel).2 _ nested issues s hfuel (by omega)

theorem parseTokens_eq (eof : Span) (tokens : List Token) :
    parseTokens eof tokens =
      ((block eof false [] tokens).statements, (block eof false [] tokens).issues.reverse) := rfl

/-- The failure of a group that is still open at the end. -/
def Failure.unclosed : Failure := ⟨.token .rightBrace, some .group, []⟩

@[simp] theorem groupEnd_nil : groupEnd [] = .error .unclosed := rfl

theorem groupEnd_cons {t : Token} (hkind : t.kind = .rightBrace) (s : List Token) :
    groupEnd (t :: s) = .ok (t.span, s) := by
  rw [groupEnd, expect_eq_ok.mpr ⟨rfl, hkind⟩]
  rfl

theorem startsWith_of_groupHeader (h : groupHeader s = .ok (header, rest)) :
    startsWith .group s = true := by
  obtain ⟨keyword, s₁, _, _, _, h₁, -⟩ := groupHeader_eq_ok.mp h
  obtain ⟨rfl, hkind⟩ := expect_eq_ok.mp h₁
  exact decide_eq_true hkind

theorem attempt_eq_plain (h : startsWith .group s = false) :
    attempt eof issues s = (plainStatement s, issues) := by
  rw [attempt, statement, h]
  rfl

theorem attempt_eq_header (h : startsWith .group s = true) (hheader : groupHeader s = .error f) :
    attempt eof issues s = (.error f, issues) := by
  rw [attempt, statement, h, hheader]
  rfl

/-- A group has its body read as a block. -/
theorem attempt_eq_group (hheader : groupHeader s = .ok (header, rest)) :
    attempt eof issues s =
      ((groupEnd (block eof true issues rest).rest).map fun r =>
        (.group header.keyword header.id header.style (block eof true issues rest).statements r.1,
          r.2), (block eof true issues rest).issues) := by
  have hlt := length_lt_of_groupHeader hheader
  rw [attempt, statement, startsWith_of_groupHeader hheader, hheader, if_pos rfl]
  dsimp only
  rw [statements_eq_block (by omega)]
  cases groupEnd (block eof true issues rest).rest <;> rfl

theorem attempt_eq_closed {t : Token} (hheader : groupHeader s = .ok (header, rest))
    (hrest : (block eof true issues rest).rest = t :: s') (hkind : t.kind = .rightBrace) :
    attempt eof issues s =
      (.ok (.group header.keyword header.id header.style
        (block eof true issues rest).statements t.span, s'),
        (block eof true issues rest).issues) := by
  rw [attempt_eq_group hheader, hrest, groupEnd_cons hkind]
  rfl

theorem attempt_eq_unclosed (hheader : groupHeader s = .ok (header, rest))
    (hrest : (block eof true issues rest).rest = []) :
    attempt eof issues s = (.error .unclosed, (block eof true issues rest).issues) := by
  rw [attempt_eq_group hheader, hrest, groupEnd_nil]
  rfl

theorem block_eq_stop (h : stops nested s = true) :
    block eof nested issues s = ⟨[], issues, s⟩ := by
  rw [block, statements]
  exact if_pos h

theorem block_eq_next (h : stops nested s = false)
    (hone : attempt eof issues s = (.ok (st, rest), issues')) :
    block eof nested issues s =
      ⟨st :: (block eof nested issues' rest).statements, (block eof nested issues' rest).issues,
        (block eof nested issues' rest).rest⟩ := by
  have hlt := (keeps_of_statement hone).length_lt (leaves_ne_nil st)
  rw [block, statements, statement_eq_attempt (by omega), hone]
  dsimp only
  rw [statements_eq_block (by omega)]
  exact if_neg (ne_true_of_eq_false h)

theorem block_eq_resume (h : stops nested s = false)
    (hone : attempt eof issues s = (.error f, issues')) :
    block eof nested issues s =
      block eof nested (report eof f issues') (resume eof nested s f) := by
  have hlt := length_resume_lt eof nested (ne_nil_of_not_stops h) f
  rw [block, statements, statement_eq_attempt (by omega), hone]
  dsimp only
  rw [statements_eq_block (by omega)]
  exact if_neg (ne_true_of_eq_false h)

/-- A block is read up to where it ends. -/
@[simp] theorem stops_rest (eof : Span) (nested : Bool) (issues : List Issue) (s : List Token) :
    stops nested (block eof nested issues s).rest = true := by
  cases hstop : stops nested s with
  | true => rwa [block_eq_stop hstop]
  | false =>
    cases hone : attempt eof issues s with | mk result issues' =>
    cases result with
    | ok r =>
      have hlt := (keeps_of_statement hone).length_lt (leaves_ne_nil r.1)
      rw [block_eq_next hstop hone]
      exact stops_rest eof nested issues' r.2
    | error f =>
      have hlt := length_resume_lt eof nested (ne_nil_of_not_stops hstop) f
      rw [block_eq_resume hstop hone]
      exact stops_rest eof nested (report eof f issues') (resume eof nested s f)
termination_by s.length

/-- All tokens are taken. -/
@[simp] theorem rest_block (eof : Span) (issues : List Issue) (s : List Token) :
    (block eof false issues s).rest = [] := by
  simpa [stops] using stops_rest eof false issues s

/-- The body of a group ends at a closing brace or with the tokens. -/
theorem stops_nested (h : stops true s = true) :
    s = [] ∨ ∃ t s', s = t :: s' ∧ t.kind = .rightBrace := by
  cases s with
  | nil => exact .inl rfl
  | cons t s => exact .inr ⟨t, s, rfl, by simpa [stops, startsWith] using h⟩

/-! ## From the steps to the run -/

/-- **What each step keeps, statements and blocks have.**  There is one step for each way in which
a statement is read or a block goes on. -/
theorem block_induction {P : List Issue → List Token →
      Except Failure (Statement × List Token) × List Issue → Prop}
    {Q : Bool → List Issue → List Token → Outcome → Prop}
    (plain : ∀ issues s, startsWith .group s = false → P issues s (plainStatement s, issues))
    (noHeader : ∀ issues s f, startsWith .group s = true → groupHeader s = .error f →
      P issues s (.error f, issues))
    (unclosed : ∀ issues s header rest, groupHeader s = .ok (header, rest) →
      (block eof true issues rest).rest = [] → Q true issues rest (block eof true issues rest) →
      P issues s (.error .unclosed, (block eof true issues rest).issues))
    (closed : ∀ issues s header rest t s', groupHeader s = .ok (header, rest) →
      (block eof true issues rest).rest = t :: s' → t.kind = .rightBrace →
      Q true issues rest (block eof true issues rest) →
      P issues s
        (.ok (.group header.keyword header.id header.style
          (block eof true issues rest).statements t.span, s'),
          (block eof true issues rest).issues))
    (stop : ∀ nested issues s, stops nested s = true → Q nested issues s ⟨[], issues, s⟩)
    (next : ∀ nested issues s st rest issues', stops nested s = false →
      attempt eof issues s = (.ok (st, rest), issues') → P issues s (.ok (st, rest), issues') →
      Q nested issues' rest (block eof nested issues' rest) →
      Q nested issues s
        ⟨st :: (block eof nested issues' rest).statements, (block eof nested issues' rest).issues,
          (block eof nested issues' rest).rest⟩)
    (retry : ∀ nested issues s f issues', stops nested s = false →
      attempt eof issues s = (.error f, issues') → P issues s (.error f, issues') →
      Q nested (report eof f issues') (resume eof nested s f)
        (block eof nested (report eof f issues') (resume eof nested s f)) →
      Q nested issues s (block eof nested (report eof f issues') (resume eof nested s f))) :
    (∀ issues s, P issues s (attempt eof issues s)) ∧
      ∀ nested issues s, Q nested issues s (block eof nested issues s) := by
  -- a statement comes before the block that starts with it
  have hboth : ∀ n s, s.length = n → (∀ issues, P issues s (attempt eof issues s)) ∧
      ∀ nested issues, Q nested issues s (block eof nested issues s) := by
    intro n
    induction n using Nat.strongRecOn with | ind n ih =>
    rintro s rfl
    have hone : ∀ issues, P issues s (attempt eof issues s) := by
      intro issues
      cases hstart : startsWith .group s with
      | false => exact attempt_eq_plain hstart ▸ plain issues s hstart
      | true =>
        cases hheader : groupHeader s with
        | error f => exact attempt_eq_header hstart hheader ▸ noHeader issues s f hstart hheader
        | ok r =>
          obtain ⟨header, rest⟩ := r
          have hbody := (ih _ (length_lt_of_groupHeader hheader) rest rfl).2 true issues
          rcases stops_nested (stops_rest eof true issues rest) with hrest | ⟨t, s', hrest, hkind⟩
          · rw [attempt_eq_unclosed hheader hrest]
            exact unclosed issues s header rest hheader hrest hbody
          · rw [attempt_eq_closed hheader hrest hkind]
            exact closed issues s header rest t s' hheader hrest hkind hbody
    refine ⟨hone, fun nested issues => ?_⟩
    cases hstop : stops nested s with
    | true => exact block_eq_stop hstop ▸ stop nested issues s hstop
    | false =>
      have hfirst := hone issues
      cases hresult : attempt eof issues s with | mk result issues' =>
      rw [hresult] at hfirst
      cases result with
      | ok r =>
        obtain ⟨st, rest⟩ := r
        have hlt := (keeps_of_statement hresult).length_lt (leaves_ne_nil st)
        have hmore := (ih _ hlt rest rfl).2 nested issues'
        rw [block_eq_next hstop hresult]
        exact next nested issues s st rest issues' hstop hresult hfirst hmore
      | error f =>
        have hlt := length_resume_lt eof nested (ne_nil_of_not_stops hstop) f
        have hmore := (ih _ hlt _ rfl).2 nested (report eof f issues')
        rw [block_eq_resume hstop hresult]
        exact retry nested issues s f issues' hstop hresult hfirst hmore
  exact ⟨fun issues s => (hboth _ s rfl).1 issues,
    fun nested issues s => (hboth _ s rfl).2 nested issues⟩

/-- **Messages have no influence on what is read.** -/
theorem result_issues (eof : Span) :
    (∀ issues s issues', (attempt eof issues' s).1 = (attempt eof issues s).1) ∧
      ∀ nested issues s issues',
        (block eof nested issues' s).statements = (block eof nested issues s).statements ∧
          (block eof nested issues' s).rest = (block eof nested issues s).rest := by
  refine block_induction
    (P := fun _ s r => ∀ issues', (attempt eof issues' s).1 = r.1)
    (Q := fun nested _ s o => ∀ issues', (block eof nested issues' s).statements = o.statements ∧
      (block eof nested issues' s).rest = o.rest)
    ?plain ?noHeader ?unclosed ?closed ?stop ?next ?retry
  case plain =>
    intro issues s hstart issues'
    rw [attempt_eq_plain hstart]
  case noHeader =>
    intro issues s f hstart hheader issues'
    rw [attempt_eq_header hstart hheader]
  case unclosed =>
    intro issues s header rest hheader hrest hbody issues'
    rw [← (hbody issues').2] at hrest
    rw [attempt_eq_unclosed hheader hrest]
  case closed =>
    intro issues s header rest t s' hheader hrest hkind hbody issues'
    rw [← (hbody issues').2] at hrest
    rw [attempt_eq_closed hheader hrest hkind, (hbody issues').1]
  case stop =>
    intro nested issues s hstop issues'
    rw [block_eq_stop hstop]
    exact ⟨rfl, rfl⟩
  case next =>
    intro nested issues s st rest _ hstop _ hfirst hmore issues'
    obtain ⟨hstatements, hrest⟩ := hmore (attempt eof issues' s).2
    have hone : attempt eof issues' s = (.ok (st, rest), (attempt eof issues' s).2) :=
      Prod.ext (hfirst issues') rfl
    rw [block_eq_next hstop hone, hstatements, hrest]
    exact ⟨rfl, rfl⟩
  case retry =>
    intro nested issues s f _ hstop _ hfirst hmore issues'
    have hone : attempt eof issues' s = (.error f, (attempt eof issues' s).2) :=
      Prod.ext (hfirst issues') rfl
    rw [block_eq_resume hstop hone]
    exact hmore _

end Diagram.Syntax
