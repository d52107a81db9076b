import Diagram.Proofs.Constructs

/-!
# Parsing without errors

A list of tokens is parsed without an error exactly when it unparses some proper tree,
and then that tree is what the parser returns.  The messages only grow while statements
are read, so a parse that ends without one never had to recover, and each statement it
returns comes from a production that succeeded.
-/

namespace Diagram.Syntax

variable {eof : Span} {s rest : List Token} {ms : List Lexeme}

/-! ## Messages are kept -/

@[simp] theorem report_ne_nil (eof : Span) (f : Failure) (issues : List Issue) :
    report eof f issues ≠ [] := by
  unfold report
  split
  · next h =>
    rintro rfl
    cases h
  · simp

/-- The messages that are there at first are there at the end. -/
theorem issues_eq_nil (eof : Span) (fuel : Nat) :
    (∀ issues s, (statement eof fuel issues s).2 = [] → issues = []) ∧
      ∀ nested issues s, (statements eof fuel nested issues s).issues = [] → issues = [] := by
  induction fuel with
  | zero => exact ⟨fun _ _ h => h, fun _ _ _ h => h⟩
  | succ fuel ih =>
    obtain ⟨ihOne, ihAll⟩ := ih
    -- one case for each way through a step, and in each of them the messages are only added to
    constructor
    · intro issues s h
      rw [statement] at h
      split at h
      · split at h
        · exact h
        · dsimp only at h
          split at h
          · exact ihAll _ _ _ h
          · exact ihAll _ _ _ h
      · exact h
    · intro nested issues s h
      rw [statements] at h
      split at h
      · exact h
      · split at h
        · next first rest issues' hone =>
          have hissues' : issues' = [] := ihAll _ _ _ h
          exact ihOne issues s (by rw [hone]; exact hissues')
        · exact absurd (ihAll _ _ _ h) (report_ne_nil _ _ _)

/-! ## Soundness -/

/-- What a statement can be that is read without a message. -/
theorem statement_cases {fuel : Nat} {st : Statement}
    (h : statement eof (fuel + 1) [] s = (.ok (st, rest), [])) :
    plainStatement s = .ok (st, rest) ∨
      ∃ header s₁ close, groupHeader s = .ok (header, s₁) ∧
        (statements eof fuel true [] s₁).issues = [] ∧
        groupEnd (statements eof fuel true [] s₁).rest = .ok (close, rest) ∧
        st = .group header.keyword header.id header.style
          (statements eof fuel true [] s₁).statements close := by
  rw [statement] at h
  split at h
  · split at h
    · cases h
    · next header s₁ hheader =>
      dsimp only at h
      split at h
      · cases h
      · next close s₂ hclose =>
        obtain ⟨hst, hissues⟩ := Prod.mk.inj h
        cases hst
        exact .inr ⟨header, s₁, close, hheader, hissues, hclose, rfl⟩
  · exact .inl (Prod.mk.inj h).1

/-- Statements that are read without a message end here, or start with one. -/
theorem statements_cases {fuel : Nat} {nested : Bool}
    (h : (statements eof (fuel + 1) nested [] s).issues = []) :
    ((s.isEmpty || (nested && startsWith .rightBrace s)) = true ∧
        statements eof (fuel + 1) nested [] s = ⟨[], [], s⟩) ∨
      ∃ first rest, statement eof fuel [] s = (.ok (first, rest), []) ∧
        (statements eof fuel nested [] rest).issues = [] ∧
        statements eof (fuel + 1) nested [] s =
          ⟨first :: (statements eof fuel nested [] rest).statements, [],
            (statements eof fuel nested [] rest).rest⟩ := by
  rw [statements] at h ⊢
  split at h
  · next hstop => exact .inl ⟨hstop, if_pos hstop⟩
  · next hgo =>
    rw [if_neg hgo]
    split at h
    · next first rest issues hone =>
      obtain rfl : issues = [] := (issues_eq_nil eof fuel).2 _ _ _ h
      have hmore : (statements eof fuel nested [] rest).issues = [] := h
      exact .inr ⟨first, rest, hone, hmore, by dsimp only; rw [hmore]⟩
    · exact absurd ((issues_eq_nil eof fuel).2 _ _ _ h) (report_ne_nil _ _ _)

/-- What is read without a message is a proper tree of the tokens taken. -/
theorem statement_sound (eof : Span) (fuel : Nat) :
    (∀ s st rest, Fit s → statement eof fuel [] s = (.ok (st, rest), []) →
        Takes s rest st.lexemes ∧ st.IsProper) ∧
      ∀ nested s, Fit s → (statements eof fuel nested [] s).issues = [] →
        Takes s (statements eof fuel nested [] s).rest
            (lexemesAll (statements eof fuel nested [] s).statements) ∧
          AreProper (statements eof fuel nested [] s).statements := by
  induction fuel with
  | zero =>
    constructor
    · intro s st rest _ h
      cases h
    · intro nested s _ _
      simp only [statements, lexemesAll, AreProper, and_true]
      exact .refl s
  | succ fuel ih =>
    obtain ⟨ihOne, ihAll⟩ := ih
    constructor
    · intro s st rest hs h
      rcases statement_cases h with hplain | ⟨header, s₁, close, hheader, hissues, hclose, rfl⟩
      · exact plainStatement_sound hs hplain
      · obtain ⟨ht₁, hstyle⟩ := groupHeader_sound hs hheader
        obtain ⟨ht₂, hbody⟩ := ihAll true s₁ (ht₁.fit hs) hissues
        have ht₃ := groupEnd_sound (ht₂.fit (ht₁.fit hs)) hclose
        have ht := ht₁.trans (ht₂.trans ht₃)
        rw [headerLexemes, List.cons_append, List.cons_append, List.append_assoc] at ht
        rw [Statement.lexemes, Statement.IsProper]
        exact ⟨ht, hstyle, hbody⟩
    · intro nested s hs h
      rcases statements_cases h with ⟨-, hstop⟩ | ⟨first, rest, hone, hmore, hall⟩
      · rw [hstop]
        exact ⟨.refl s, trivial⟩
      · obtain ⟨ht, hfirst⟩ := ihOne s first rest hs hone
        obtain ⟨htmore, hproper⟩ := ihAll nested rest (ht.fit hs) hmore
        rw [hall, lexemesAll, AreProper]
        exact ⟨ht.trans htmore, hfirst, hproper⟩

/-- A statement has a first lexeme, and that can start a statement. -/
theorem exists_cons_lexemes (st : Statement) :
    ∃ l ls, st.lexemes = l :: ls ∧
      (l.kind = .group ∨ l.kind = .layout ∨ l.kind = .freeArrow ∨ l.kind = .identifier) := by
  cases st with
  | group k id style body close => exact ⟨_, _, by rw [Statement.lexemes], .inl rfl⟩
  | layout k name => exact ⟨_, _, by rw [Statement.lexemes], .inr (.inl rfl)⟩
  | freeArrow k ps => exact ⟨_, _, by rw [Statement.lexemes], .inr (.inr (.inl rfl))⟩
  | chain c => exact ⟨_, _, by rw [Statement.lexemes]; rfl, .inr (.inr (.inr rfl))⟩

/-- Outside of a group, with enough fuel, statements are read up to the end. -/
theorem rest_statements {fuel : Nat} (hs : Fit s) (hfuel : s.length < fuel)
    (h : (statements eof fuel false [] s).issues = []) :
    (statements eof fuel false [] s).rest = [] := by
  induction fuel generalizing s with
  | zero => cases hfuel
  | succ fuel ih =>
    rcases statements_cases h with ⟨hstop, hall⟩ | ⟨first, rest, hone, hmore, hall⟩
    · rw [hall]
      simpa using hstop
    · obtain ⟨ht, -⟩ := (statement_sound eof fuel).1 s first rest hs hone
      have hlen := ht.length
      obtain ⟨l, ls, hl, -⟩ := exists_cons_lexemes first
      rw [hl, List.length_cons] at hlen
      rw [hall]
      exact ih (ht.fit hs) (by omega) hmore

/-- **A parse without errors returns a proper tree of all the tokens.** -/
theorem parseTokens_sound {tokens : List Token} (hfit : Fit tokens)
    (h : (parseTokens eof tokens).2 = []) :
    tokens.map Token.lexeme = lexemesAll (parseTokens eof tokens).1 ∧
      AreProper (parseTokens eof tokens).1 := by
  have hissues : (statements eof (2 * tokens.length + 2) false [] tokens).issues = [] :=
    List.reverse_eq_nil_iff.mp h
  obtain ⟨ht, hproper⟩ := (statement_sound eof (2 * tokens.length + 2)).2 false tokens hfit hissues
  rw [rest_statements hfit (by omega) hissues] at ht
  exact ⟨by simpa [parseTokens] using ht.map, hproper⟩

/-! ## Completeness -/

/-- The classes that can stand behind a statement. -/
def isBoundary : TokenKind → Bool
  | .group | .layout | .freeArrow | .identifier | .rightBrace => true
  | _ => false

/-- Nothing follows, or something that can stand behind a statement. -/
def Bounds (ms : List Lexeme) : Prop := ms.head?.all (fun l => isBoundary l.kind)

theorem Bounds.closes (h : Bounds ms) : Closes ms ∧ leadsArrow ms = false := by
  cases ms with
  | nil => exact ⟨⟨rfl, rfl, rfl⟩, rfl⟩
  | cons l ls =>
    obtain ⟨k, text⟩ := l
    cases k <;> first | exact ⟨⟨rfl, rfl, rfl⟩, rfl⟩ | cases h

theorem bounds_lexemes (st : Statement) (ms : List Lexeme) : Bounds (st.lexemes ++ ms) := by
  obtain ⟨l, ls, hl, hk⟩ := exists_cons_lexemes st
  rw [hl]
  rcases hk with hk | hk | hk | hk <;> simp [Bounds, hk, isBoundary]

theorem bounds_lexemesAll (ss : List Statement) (h : Bounds ms) : Bounds (lexemesAll ss ++ ms) := by
  cases ss with
  | nil => exact h
  | cons st ss =>
    rw [lexemesAll, List.append_assoc]
    exact bounds_lexemes st _

/-- The statements of a block end with the tokens or, in a group, at a closing brace. -/
def EndsBlock (nested : Bool) (ms : List Lexeme) : Prop :=
  ms = [] ∨ nested = true ∧ leads .rightBrace ms = true

section EndsBlock

variable {nested : Bool}

theorem EndsBlock.bounds (h : EndsBlock nested ms) : Bounds ms := by
  rcases h with rfl | ⟨-, hbrace⟩
  · rfl
  · cases ms with
    | nil => rfl
    | cons l ls =>
      have hk : l.kind = .rightBrace := of_decide_eq_true hbrace
      simp [Bounds, hk, isBoundary]

/-- At the end of a block no further statement is read. -/
theorem EndsBlock.stops (h : EndsBlock nested ms) (hs : s.map Token.lexeme = ms) :
    (s.isEmpty || (nested && startsWith .rightBrace s)) = true := by
  rcases h with rfl | ⟨rfl, hbrace⟩
  · rw [List.map_eq_nil_iff.mp hs]
    rfl
  · rw [startsWith_eq, hs, hbrace]
    simp

/-- In front of a statement a block goes on. -/
theorem goes_of_lexemes {st : Statement} (hs : s.map Token.lexeme = st.lexemes ++ ms) :
    (s.isEmpty || (nested && startsWith .rightBrace s)) = false := by
  obtain ⟨l, ls, hl, hk⟩ := exists_cons_lexemes st
  have hne : l.kind ≠ .rightBrace := by rcases hk with hk | hk | hk | hk <;> simp [hk]
  rw [hl, List.cons_append] at hs
  rw [startsWith_eq, hs, leads_cons]
  cases s with
  | nil => cases hs
  | cons t s => simp [hne]

end EndsBlock

/-- A statement without statements inside it is read by its own production. -/
theorem statement_plain_complete {issues : List Issue} {st : Statement} (hst : st.IsProper)
    (hplain : st.isPlain) {fuel : Nat} (hfuel : 2 * s.length ≤ fuel) (hms : Bounds ms)
    (h : s.map Token.lexeme = st.lexemes ++ ms) :
    ∃ st' rest, statement eof fuel issues s = (.ok (st', rest), issues) ∧
      st'.bare = st.bare ∧ rest.map Token.lexeme = ms := by
  obtain ⟨st', rest, hread, hbare, hrest⟩ :=
    plainStatement_complete hst hplain hms.closes.1 hms.closes.2 h
  cases s with
  | nil => cases hread
  | cons t s =>
    obtain ⟨fuel, rfl⟩ : ∃ n, fuel = n + 1 := ⟨fuel - 1, by simp at hfuel; omega⟩
    have hgroup : startsWith .group (t :: s) = false := by
      cases hk : startsWith .group (t :: s) with
      | false => rfl
      | true =>
        have hk : t.kind = .group := of_decide_eq_true hk
        simp [plainStatement, hk] at hread
    exact ⟨st', rest, by rw [statement, hgroup, hread]; rfl, hbare, hrest⟩

/-- The tokens that are left, and those that were taken. -/
theorem length_of_map_append {ls : List Lexeme} (h : s.map Token.lexeme = ls ++ ms)
    (hrest : rest.map Token.lexeme = ms) : s.length = ls.length + rest.length := by
  have hs := congrArg List.length h
  have hr := congrArg List.length hrest
  simp only [List.length_map, List.length_append] at hs hr
  omega

mutual

/-- The tokens of a proper statement are read as that statement. -/
theorem statement_complete (eof : Span) (issues : List Issue) :
    ∀ (st : Statement), st.IsProper →
      ∀ {fuel : Nat} {s : List Token} {ms : List Lexeme}, 2 * s.length ≤ fuel → Bounds ms →
        s.map Token.lexeme = st.lexemes ++ ms →
        ∃ st' rest, statement eof fuel issues s = (.ok (st', rest), issues) ∧
          st'.bare = st.bare ∧ rest.map Token.lexeme = ms
  | .group k id style body close, hst, fuel, s, ms, hfuel, hms, h => by
    rw [Statement.IsProper] at hst
    have h : s.map Token.lexeme =
        headerLexemes id style ++ (lexemesAll body ++ (.mark .rightBrace :: ms)) := by
      rw [h, Statement.lexemes, headerLexemes]
      simp only [List.cons_append, List.append_assoc, List.nil_append]
    obtain ⟨header, s₁, h₁, hid, hstyle, hs₁⟩ := groupHeader_complete hst.1 h
    have hlen := length_of_map_append h hs₁
    rw [headerLexemes, List.length_cons] at hlen
    obtain ⟨fuel, rfl⟩ : ∃ n, fuel = n + 1 := ⟨fuel - 1, by omega⟩
    have hfuel₁ : 2 * s₁.length + 1 ≤ fuel := by omega
    obtain ⟨body', s₂, h₂, hbody, hs₂⟩ :=
      statements_complete eof issues body hst.2 hfuel₁ (.inr ⟨rfl, rfl⟩) hs₁
    obtain ⟨close', s₃, h₃, hs₃⟩ := groupEnd_complete hs₂
    refine ⟨.group header.keyword header.id header.style body' close', s₃, ?_, ?_, hs₃⟩
    · have hstart : startsWith .group s = true := by
        rw [startsWith_eq, h]
        rfl
      rw [statement, if_pos hstart, h₁]
      simp only [h₂, h₃]
    · rw [Statement.bare, Statement.bare, hid, hstyle, hbody]
  | .layout k name, hst, _, _, _, hfuel, hms, h =>
    statement_plain_complete hst rfl hfuel hms h
  | .freeArrow k ps, hst, _, _, _, hfuel, hms, h =>
    statement_plain_complete hst rfl hfuel hms h
  | .chain c, hst, _, _, _, hfuel, hms, h => statement_plain_complete hst rfl hfuel hms h

/-- The tokens of proper statements are read as these statements, up to the end or, in a
group, up to a closing brace. -/
theorem statements_complete (eof : Span) (issues : List Issue) :
    ∀ (ss : List Statement), AreProper ss →
      ∀ {nested : Bool} {fuel : Nat} {s : List Token} {ms : List Lexeme},
        2 * s.length + 1 ≤ fuel → EndsBlock nested ms →
        s.map Token.lexeme = lexemesAll ss ++ ms →
        ∃ ss' rest, statements eof fuel nested issues s = ⟨ss', issues, rest⟩ ∧
          bareAll ss' = bareAll ss ∧ rest.map Token.lexeme = ms
  | [], _, nested, fuel, s, ms, hfuel, hms, h => by
    obtain ⟨fuel, rfl⟩ : ∃ n, fuel = n + 1 := ⟨fuel - 1, by omega⟩
    rw [lexemesAll, List.nil_append] at h
    exact ⟨[], s, by rw [statements, if_pos (hms.stops h)], rfl, h⟩
  | st :: ss, hss, nested, fuel, s, ms, hfuel, hms, h => by
    obtain ⟨fuel, rfl⟩ : ∃ n, fuel = n + 1 := ⟨fuel - 1, by omega⟩
    rw [AreProper] at hss
    rw [lexemesAll, List.append_assoc] at h
    have hfuel₁ : 2 * s.length ≤ fuel := by omega
    obtain ⟨st', s₁, h₁, hst', hs₁⟩ :=
      statement_complete eof issues st hss.1 hfuel₁ (bounds_lexemesAll ss hms.bounds) h
    -- a statement takes a token, which pays for the next call
    have hlen := length_of_map_append h hs₁
    have hpos : 0 < st.lexemes.length := by
      obtain ⟨l, ls, hl, -⟩ := exists_cons_lexemes st
      simp [hl]
    have hfuel₂ : 2 * s₁.length + 1 ≤ fuel := by omega
    obtain ⟨ss', s₂, h₂, hss', hs₂⟩ := statements_complete eof issues ss hss.2 hfuel₂ hms hs₁
    refine ⟨st' :: ss', s₂, ?_, ?_, hs₂⟩
    · rw [statements, goes_of_lexemes h, h₁]
      simp only [h₂, Bool.false_eq_true, if_false]
    · rw [bareAll, bareAll, hst', hss']

end

/-- **The tokens of a proper tree are parsed to it without errors.** -/
theorem parseTokens_complete {tree : List Statement} (htree : AreProper tree) {tokens : List Token}
    (h : tokens.map Token.lexeme = lexemesAll tree) :
    (parseTokens eof tokens).2 = [] ∧ bareAll (parseTokens eof tokens).1 = bareAll tree := by
  have hall : tokens.map Token.lexeme = lexemesAll tree ++ [] := by rw [h, List.append_nil]
  obtain ⟨tree', rest, hread, hbare, -⟩ : ∃ tree' rest,
      statements eof (2 * tokens.length + 2) false [] tokens = ⟨tree', [], rest⟩ ∧
        bareAll tree' = bareAll tree ∧ rest.map Token.lexeme = [] :=
    statements_complete eof [] tree htree (by omega) (.inl rfl) hall
  rw [parseTokens, hread]
  exact ⟨rfl, hbare⟩

end Diagram.Syntax
