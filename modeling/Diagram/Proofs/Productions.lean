import Diagram.Proofs.Unparsing

/-!
# Productions for single tokens and lists of properties

What each production reads, in both directions.  A production is *sound*: the tokens it
takes are those of the tree it returns.  It is *complete*: in front of the lexemes of a
tree, and of something that cannot continue the tree, it returns that tree.

## Main definitions

* `Takes` — the tokens read from the front of a list, by their lexemes.
* `Gives` — a result that is a given tree, apart from its places.

## Main statements

* `propertyList_sound`, `propertyList_complete` — properties in parentheses.
* `optional_sound`, `optional_complete` — a part that a test on the tokens announces.
-/

namespace Diagram.Syntax

/-! ## Results -/

/-- Two steps succeed when both do. -/
theorem bind_eq_ok {ε β γ : Type} {x : Except ε β} {f : β → Except ε γ} {c : γ} :
    x >>= f = .ok c ↔ ∃ b, x = .ok b ∧ f b = .ok c := by
  cases x with
  | error e =>
    constructor
    · intro h
      cases h
    · rintro ⟨_, h, -⟩
      cases h
  | ok b =>
    constructor
    · intro h
      exact ⟨b, rfl, h⟩
    · rintro ⟨_, h, hc⟩
      cases h
      exact hc

@[simp] theorem ok_bind {ε β γ : Type} (b : β) (f : β → Except ε γ) :
    (Except.ok b >>= f) = f b := rfl

@[simp] theorem pure_eq_ok {ε β : Type} (b : β) : (pure b : Except ε β) = .ok b := rfl

@[simp] theorem inProduction_eq_ok {β : Type} {p : Production} {x : Except Failure β} {v : β} :
    inProduction p x = .ok v ↔ x = .ok v := by
  cases x <;> simp [inProduction]

@[simp] theorem inProduction_ok {β : Type} (p : Production) (v : β) :
    inProduction p (.ok v) = .ok v := rfl

/-- One token is read exactly when it is there and of the class. -/
theorem one_eq_ok {β : Type} {e : Expectation} {read : Token → Option β} {s rest : List Token}
    {v : β} : one e read s = .ok (v, rest) ↔ ∃ t, s = t :: rest ∧ read t = some v := by
  cases s with
  | nil =>
    constructor
    · intro h
      cases h
    · rintro ⟨_, h, -⟩
      cases h
  | cons t s =>
    rw [one]
    cases hread : read t with
    | none =>
      constructor
      · intro h
        cases h
      · rintro ⟨_, ht, hv⟩
        obtain ⟨rfl, rfl⟩ := List.cons.inj ht
        rw [hread] at hv
        cases hv
    | some w =>
      constructor
      · intro h
        cases h
        exact ⟨t, rfl, hread⟩
      · rintro ⟨_, ht, hv⟩
        obtain ⟨rfl, rfl⟩ := List.cons.inj ht
        rw [hread] at hv
        cases hv
        rfl

/-- One token is read exactly when it is there and passes the test. -/
theorem one_ite_eq_ok {β : Type} {e : Expectation} {P : Token → Prop} [DecidablePred P]
    {f : Token → β} {s rest : List Token} {v : β} :
    one e (fun t => if P t then some (f t) else none) s = .ok (v, rest) ↔
      ∃ t, s = t :: rest ∧ P t ∧ f t = v := by
  simp only [one_eq_ok, Option.ite_none_right_eq_some, Option.some.injEq]

/-! ## Tokens taken -/

/-- Every token has a text of its class. -/
def Fit (s : List Token) : Prop := ∀ t ∈ s, t.Fits

theorem Fit.left {us vs : List Token} (h : Fit (us ++ vs)) : Fit us :=
  fun t ht => h t (List.mem_append_left _ ht)

theorem Fit.right {us vs : List Token} (h : Fit (us ++ vs)) : Fit vs :=
  fun t ht => h t (List.mem_append_right _ ht)

/-- The tokens `s` are some tokens with the lexemes `ls`, and then `rest`. -/
def Takes (s rest : List Token) (ls : List Lexeme) : Prop :=
  ∃ ts, s = ts ++ rest ∧ ts.map Token.lexeme = ls

namespace Takes

variable {s r q : List Token} {ls ms : List Lexeme}

theorem refl (s : List Token) : Takes s s [] := ⟨[], rfl, rfl⟩

theorem single (t : Token) (s : List Token) : Takes (t :: s) s [t.lexeme] := ⟨[t], rfl, rfl⟩

theorem trans (h : Takes s r ls) (h' : Takes r q ms) : Takes s q (ls ++ ms) := by
  obtain ⟨ts, rfl, rfl⟩ := h
  obtain ⟨us, rfl, rfl⟩ := h'
  exact ⟨ts ++ us, (List.append_assoc ..).symm, List.map_append⟩

theorem fit (h : Takes s r ls) (hs : Fit s) : Fit r := by
  obtain ⟨ts, rfl, -⟩ := h
  exact fun t ht => hs t (List.mem_append_right _ ht)

theorem map (h : Takes s r ls) : s.map Token.lexeme = ls ++ r.map Token.lexeme := by
  obtain ⟨ts, rfl, rfl⟩ := h
  exact List.map_append

theorem length (h : Takes s r ls) : s.length = ls.length + r.length := by
  simpa using congrArg List.length h.map

end Takes

/-- A result whose value is `v` apart from its places, with tokens of the lexemes `ms`
behind it. -/
def Gives {β γ : Type} (bare : β → γ) (r : Except Failure (β × List Token)) (v : β)
    (ms : List Lexeme) : Prop :=
  ∃ v' rest, r = .ok (v', rest) ∧ bare v' = bare v ∧ rest.map Token.lexeme = ms

/-- A first lexeme is that of a first token. -/
theorem exists_cons_of_map {s : List Token} {l : Lexeme} {ls : List Lexeme}
    (h : s.map Token.lexeme = l :: ls) :
    ∃ t rest, s = t :: rest ∧ t.lexeme = l ∧ rest.map Token.lexeme = ls := by
  obtain ⟨t, rest, rfl, ht, hrest⟩ := List.map_eq_cons_iff.mp h
  exact ⟨t, rest, rfl, ht, hrest⟩

/-! ## Leaves -/

variable {s rest : List Token} {ms : List Lexeme}

/-- A token of a class with one text is taken as the lexeme of the class. -/
theorem Takes.mark {k : TokenKind} {t : Token} (hk : t.kind = k) (hfixed : k.isFixed)
    (ht : t.Fits) (s : List Token) : Takes (t :: s) s [.mark k] := by
  subst hk
  rw [← lexeme_of_isFixed ht hfixed]
  exact .single t s

theorem Takes.word {t : Token} (hk : t.kind = .identifier) (s : List Token) :
    Takes (t :: s) s [word t.text] := by
  have hl : t.lexeme = Syntax.word t.text := by
    rw [lexeme_of_ne_number (by simp [hk]), hk]
    rfl
  rw [← hl]
  exact .single t s

theorem expect_eq_ok {k : TokenKind} {t : Token} :
    expect k s = .ok (t, rest) ↔ s = t :: rest ∧ t.kind = k := by
  rw [expect, one_ite_eq_ok]
  constructor
  · rintro ⟨u, rfl, hkind, rfl⟩
    exact ⟨rfl, hkind⟩
  · rintro ⟨rfl, hkind⟩
    exact ⟨t, rfl, hkind, rfl⟩

theorem expect_sound {k : TokenKind} {t : Token} (hk : k.isFixed) (hs : Fit s)
    (h : expect k s = .ok (t, rest)) : Takes s rest [.mark k] := by
  obtain ⟨rfl, hkind⟩ := expect_eq_ok.mp h
  exact .mark hkind hk (hs t List.mem_cons_self) rest

theorem expect_complete {k : TokenKind} (h : s.map Token.lexeme = .mark k :: ms) :
    ∃ t rest, expect k s = .ok (t, rest) ∧ rest.map Token.lexeme = ms := by
  obtain ⟨t, rest, rfl, ht, hrest⟩ := exists_cons_of_map h
  exact ⟨t, rest, expect_eq_ok.mpr ⟨rfl, congrArg Lexeme.kind ht⟩, hrest⟩

/-- A lexeme that is not of a number tells class and text. -/
theorem kind_text_of_lexeme {t : Token} {k : TokenKind} {w : String} (h : t.lexeme = ⟨k, w⟩)
    (hk : k ≠ .number) : t.kind = k ∧ t.text = w := by
  have hkind : t.kind = k := congrArg Lexeme.kind h
  rw [lexeme_of_ne_number (hkind ▸ hk)] at h
  exact ⟨hkind, congrArg Lexeme.text h⟩

theorem identifier_eq_ok {v : Located String} :
    identifier s = .ok (v, rest) ↔
      ∃ t, s = t :: rest ∧ t.kind = .identifier ∧ Token.located t = v :=
  one_ite_eq_ok

theorem identifier_sound {v : Located String} (h : identifier s = .ok (v, rest)) :
    Takes s rest [word v.value] := by
  obtain ⟨t, rfl, hkind, rfl⟩ := identifier_eq_ok.mp h
  exact .word hkind rest

theorem identifier_complete {v : Located String} (h : s.map Token.lexeme = word v.value :: ms) :
    Gives Located.bare (identifier s) v ms := by
  obtain ⟨t, rest, rfl, ht, hrest⟩ := exists_cons_of_map h
  obtain ⟨hk, htext⟩ := kind_text_of_lexeme ht (by simp)
  exact ⟨Token.located t, rest, identifier_eq_ok.mpr ⟨t, rfl, hk, rfl⟩, Located.bare_inj.mpr htext,
    hrest⟩

theorem algorithmName_eq_ok {v : Located String} :
    algorithmName s = .ok (v, rest) ↔
      ∃ t, s = t :: rest ∧ (t.kind = .identifier ∨ t.kind = .shapeName) ∧ Token.located t = v :=
  one_ite_eq_ok

theorem algorithmName_sound {v : Located String} (hs : Fit s)
    (h : algorithmName s = .ok (v, rest)) :
    Takes s rest [⟨wordKind v.value, v.value⟩] ∧
      (wordKind v.value = .identifier ∨ wordKind v.value = .shapeName) := by
  obtain ⟨t, rfl, hkind, rfl⟩ := algorithmName_eq_ok.mp h
  have hword : t.kind.isWord := by
    rcases hkind with hk | hk <;> rw [hk] <;> rfl
  have hof : wordKind t.text = t.kind := by
    simpa using (isName_of_fits hword (hs t (by simp))).2
  have hne : t.kind ≠ .number := by
    rcases hkind with hk | hk <;> simp [hk]
  have hl : t.lexeme = ⟨wordKind (Token.located t).value, (Token.located t).value⟩ := by
    rw [lexeme_of_ne_number hne]
    simp only [Token.located, hof]
  rw [← hl]
  exact ⟨.single t rest, by simpa only [Token.located, hof] using hkind⟩

theorem algorithmName_complete {v : Located String}
    (hv : wordKind v.value = .identifier ∨ wordKind v.value = .shapeName)
    (h : s.map Token.lexeme = ⟨wordKind v.value, v.value⟩ :: ms) :
    Gives Located.bare (algorithmName s) v ms := by
  obtain ⟨t, rest, rfl, ht, hrest⟩ := exists_cons_of_map h
  have hne : wordKind v.value ≠ .number := by
    rcases hv with hk | hk <;> simp [hk]
  obtain ⟨hk, htext⟩ := kind_text_of_lexeme ht hne
  refine ⟨Token.located t, rest, algorithmName_eq_ok.mpr ⟨t, rfl, ?_, rfl⟩,
    Located.bare_inj.mpr htext, hrest⟩
  rwa [hk]

theorem styleValue_sound {v : Located StyleValue} (h : styleValue s = .ok (v, rest)) :
    Takes s rest [v.value.lexeme] := by
  obtain ⟨t, rfl, ht⟩ := one_eq_ok.mp h
  have hl : t.lexeme = v.value.lexeme := by
    split at ht
    · next hk =>
      obtain rfl := Option.some.inj ht
      rw [lexeme_of_ne_number (by simp [hk]), hk]
      rfl
    · next hk =>
      obtain ⟨n, hn, rfl⟩ := Option.map_eq_some_iff.mp ht
      exact lexeme_of_number hk hn
    · next hk =>
      obtain rfl := Option.some.inj ht
      rw [lexeme_of_ne_number (by simp [hk]), hk]
      rfl
    · cases ht
  rw [← hl]
  exact .single t rest

theorem styleValue_complete {v : Located StyleValue}
    (h : s.map Token.lexeme = v.value.lexeme :: ms) :
    Gives Located.bare (styleValue s) v ms := by
  obtain ⟨t, rest, rfl, ht, hrest⟩ := exists_cons_of_map h
  obtain ⟨value, span⟩ := v
  cases value with
  | color text =>
    obtain ⟨hk, rfl⟩ := kind_text_of_lexeme ht (by simp)
    exact ⟨⟨.color t.text, t.span⟩, rest, one_eq_ok.mpr ⟨t, rfl, by simp [hk]⟩, by simp, hrest⟩
  | number n =>
    have hk : t.kind = .number := congrArg Lexeme.kind ht
    have hn : numeral? t.text = some n := numeral?_of_lexeme ht
    exact ⟨⟨.number n, t.span⟩, rest, one_eq_ok.mpr ⟨t, rfl, by simp [hk, hn]⟩, by simp, hrest⟩
  | name text =>
    obtain ⟨hk, rfl⟩ := kind_text_of_lexeme ht (by simp)
    exact ⟨⟨.name t.text, t.span⟩, rest, one_eq_ok.mpr ⟨t, rfl, by simp [hk]⟩, by simp, hrest⟩

/-- The contents of a string are the text between its quotes. -/
theorem unquote_quoted (text : String) : unquote ("\"" ++ text ++ "\"") = text := by
  have hl : ("\"" ++ text ++ "\"").toList = '"' :: (text.toList ++ ['"']) := by
    simp
  unfold unquote
  rw [hl]
  simp

/-- A string that fits is its contents between quotes. -/
theorem quoted_unquoted {t : Token} (ht : t.Fits) (hk : t.kind = .string) :
    "\"" ++ t.unquoted ++ "\"" = t.text := by
  rw [Token.Fits, hk] at ht
  obtain ⟨body, -, hbody⟩ := ht
  have htext : t.text = "\"" ++ String.ofList body ++ "\"" := by
    apply String.toList_inj.mp
    simp [hbody]
  rw [Token.unquoted, htext, unquote_quoted]

theorem label_sound {v : Located String} (hs : Fit s) (h : label s = .ok (v, rest)) :
    Takes s rest (labelLexemes v) := by
  obtain ⟨⟨_, s₁⟩, h₁, h⟩ := bind_eq_ok.mp h
  obtain ⟨⟨t, s₂⟩, h₂, h⟩ := bind_eq_ok.mp h
  cases h
  have ht₁ := expect_sound rfl hs h₁
  obtain ⟨rfl, hkind⟩ := expect_eq_ok.mp h₂
  have hq := quoted_unquoted (ht₁.fit hs t (by simp)) hkind
  have hl : t.lexeme = ⟨.string, "\"" ++ t.unquoted ++ "\""⟩ := by
    rw [lexeme_of_ne_number (by simp [hkind]), hkind, hq]
  have ht₂ := Takes.single t rest
  rw [hl] at ht₂
  exact ht₁.trans ht₂

theorem label_complete {v : Located String} (h : s.map Token.lexeme = labelLexemes v ++ ms) :
    Gives Located.bare (label s) v ms := by
  obtain ⟨_, s₁, h₁, hs₁⟩ := expect_complete h
  obtain ⟨t, rest, rfl, ht, hrest⟩ := exists_cons_of_map hs₁
  obtain ⟨hk, htext⟩ := kind_text_of_lexeme ht (by simp)
  have h₂ : expect .string (t :: rest) = .ok (t, rest) := expect_eq_ok.mpr ⟨rfl, hk⟩
  refine ⟨⟨t.unquoted, t.span⟩, rest, ?_, ?_, hrest⟩
  · simp [label, h₁, h₂]
  · rw [Located.bare_inj, Token.unquoted, htext, unquote_quoted]

/-! ## Properties -/

theorem Takes.drop {r : List Token} {ls : List Lexeme} (h : Takes s r ls) :
    s.drop ls.length = r := by
  obtain ⟨ts, rfl, rfl⟩ := h
  simp

theorem property_sound {p : Property} (hs : Fit s) (h : property s = .ok p) :
    Takes s (s.drop 3) p.lexemes := by
  obtain ⟨⟨key, s₁⟩, h₁, h⟩ := bind_eq_ok.mp h
  obtain ⟨⟨_, s₂⟩, h₂, h⟩ := bind_eq_ok.mp h
  obtain ⟨⟨value, s₃⟩, h₃, h⟩ := bind_eq_ok.mp h
  cases h
  have ht₁ := identifier_sound (inProduction_eq_ok.mp h₁)
  have ht₂ := expect_sound rfl (ht₁.fit hs) (inProduction_eq_ok.mp h₂)
  have ht₃ := styleValue_sound (inProduction_eq_ok.mp h₃)
  have ht := ht₁.trans (ht₂.trans ht₃)
  have hrest : s.drop 3 = s₃ := ht.drop
  rw [hrest]
  exact ht

theorem property_complete {p : Property} (h : s.map Token.lexeme = p.lexemes ++ ms) :
    ∃ p', property s = .ok p' ∧ p'.bare = p.bare ∧ (s.drop 3).map Token.lexeme = ms := by
  obtain ⟨key, s₁, h₁, hkey, hs₁⟩ := identifier_complete h
  obtain ⟨_, s₂, h₂, hs₂⟩ := expect_complete hs₁
  obtain ⟨value, s₃, h₃, hvalue, hs₃⟩ := styleValue_complete hs₂
  refine ⟨⟨key, value⟩, ?_, ?_, ?_⟩
  · simp [property, h₁, h₂, h₃]
  · rw [Property.bare, Property.bare, hkey, hvalue]
  · rw [List.map_drop, h]
    rfl

theorem moreLexemes_cons (p : Property) (ps : List Property) :
    moreLexemes (p :: ps) = .mark .comma :: propertyLexemes (p :: ps) := rfl

theorem properties_sound {s : List Token} {ps : List Property} {rest : List Token} (hs : Fit s)
    (h : properties s = .ok (ps, rest)) : Takes s rest (propertyLexemes ps) ∧ ps ≠ [] := by
  rw [properties] at h
  obtain ⟨p, hp, h⟩ := bind_eq_ok.mp h
  have ht := property_sound hs hp
  have hlen := ht.length
  split at h
  · next hdrop =>
    cases h
    rw [hdrop] at ht
    exact ⟨by simpa [propertyLexemes, moreLexemes] using ht, by simp⟩
  · next t r hdrop =>
    rw [hdrop] at ht hlen
    have hshorter : r.length < s.length := by
      simp only [List.length_cons] at hlen
      omega
    split at h
    · next hcomma =>
      obtain ⟨⟨qs, r'⟩, hqs, h⟩ := bind_eq_ok.mp h
      cases h
      have hfit := ht.fit hs
      obtain ⟨htail, hne⟩ := properties_sound (fun u hu => hfit u (List.mem_cons_of_mem _ hu)) hqs
      obtain ⟨q, qs, rfl⟩ := List.exists_cons_of_ne_nil hne
      have hmark := Takes.mark hcomma rfl (hfit t List.mem_cons_self) r
      exact ⟨ht.trans (hmark.trans htail), by simp⟩
    · cases h
      exact ⟨by simpa [propertyLexemes, moreLexemes] using ht, by simp⟩
termination_by s.length

/-- Properties are read up to what is not a comma. -/
theorem properties_complete {ps : List Property} (hne : ps ≠ []) {s : List Token}
    (hms : leads .comma ms = false) (h : s.map Token.lexeme = propertyLexemes ps ++ ms) :
    Gives (List.map Property.bare) (properties s) ps ms := by
  induction ps generalizing s with
  | nil => exact absurd rfl hne
  | cons p ps ih =>
    rw [propertyLexemes, List.append_assoc] at h
    obtain ⟨p', hp, hbare, hdrop⟩ := property_complete h
    -- No comma follows the last property; any other is followed by one, and the list goes on.
    cases ps with
    | nil =>
      refine ⟨[p'], s.drop 3, ?_, by simp [hbare], hdrop⟩
      rw [properties, hp, ok_bind]
      split
      · next hnil => rw [hnil]; rfl
      · next t r hcons =>
        have ht : t.kind ≠ .comma := by
          rw [hcons] at hdrop
          rintro hk
          obtain rfl : List.map Token.lexeme (t :: r) = ms := hdrop
          simp [hk] at hms
        rw [if_neg ht, hcons]
        rfl
    | cons q qs =>
      rw [moreLexemes_cons, List.cons_append] at hdrop
      obtain ⟨t, r, hcons, ht, hr⟩ := exists_cons_of_map hdrop
      obtain ⟨qs', rest, hqs, hbares, hrest⟩ := ih (by simp) hr
      refine ⟨p' :: qs', rest, ?_, ?_, hrest⟩
      · have hk : t.kind = .comma := congrArg Lexeme.kind ht
        rw [properties, hp, ok_bind]
        split
        · next hnil => rw [hnil] at hcons; cases hcons
        · next t' r' hcons' =>
          obtain ⟨rfl, rfl⟩ := List.cons.inj (hcons.symm.trans hcons')
          rw [if_pos hk, hqs]
          rfl
      · rw [List.map_cons, List.map_cons, hbare, hbares]

theorem propertyList_sound {ps : PropertyList} (hs : Fit s)
    (h : propertyList s = .ok (ps, rest)) : Takes s rest ps.lexemes ∧ ps.IsProper := by
  obtain ⟨⟨_, s₁⟩, h₁, h⟩ := bind_eq_ok.mp h
  obtain ⟨⟨items, s₂⟩, h₂, h⟩ := bind_eq_ok.mp h
  obtain ⟨⟨close, s₃⟩, h₃, h⟩ := bind_eq_ok.mp h
  cases h
  have ht₁ := expect_sound rfl hs h₁
  obtain ⟨ht₂, hne⟩ := properties_sound (ht₁.fit hs) h₂
  have ht₃ := expect_sound rfl (ht₂.fit (ht₁.fit hs)) h₃
  exact ⟨ht₁.trans (ht₂.trans ht₃), hne⟩

theorem propertyList_complete {ps : PropertyList} (hps : ps.IsProper)
    (h : s.map Token.lexeme = ps.lexemes ++ ms) :
    Gives PropertyList.bare (propertyList s) ps ms := by
  rw [PropertyList.lexemes, List.cons_append, List.append_assoc] at h
  obtain ⟨_, s₁, h₁, hs₁⟩ := expect_complete h
  obtain ⟨items, s₂, h₂, hitems, hs₂⟩ := properties_complete hps (by simp) hs₁
  obtain ⟨close, s₃, h₃, hs₃⟩ := expect_complete hs₂
  refine ⟨⟨items, close.span⟩, s₃, ?_, ?_, hs₃⟩
  · simp [propertyList, h₁, h₂, h₃]
  · rw [PropertyList.bare, PropertyList.bare, hitems]

/-! ## Optional parts -/

section Optional

variable {β γ : Type} {o : Option β}

/-- An optional part is there exactly when the test says so. -/
theorem optional_eq_ok {test : List Token → Bool} {p : Parse β} :
    optional test p s = .ok (o, rest) ↔
      (test s = false ∧ o = none ∧ s = rest) ∨
        (test s = true ∧ ∃ v, o = some v ∧ p s = .ok (v, rest)) := by
  cases ht : test s with
  | false =>
    simp only [optional, ht, Bool.false_eq_true, if_false, pure_eq_ok, Except.ok.injEq,
      Prod.mk.injEq, true_and, false_and, or_false]
    exact ⟨fun h => ⟨h.1.symm, h.2⟩, fun h => ⟨h.1.symm, h.2⟩⟩
  | true =>
    simp only [optional, ht, if_true, Bool.true_eq_false, false_and, false_or, true_and]
    constructor
    · intro h
      obtain ⟨⟨v, r⟩, hv, h⟩ := bind_eq_ok.mp h
      cases h
      exact ⟨v, rfl, hv⟩
    · rintro ⟨v, rfl, hv⟩
      rw [hv]
      rfl

theorem optional_sound (lexemes : β → List Lexeme) (P : β → Prop) {test : List Token → Bool}
    {p : Parse β} (h : optional test p s = .ok (o, rest))
    (hp : ∀ v, p s = .ok (v, rest) → Takes s rest (lexemes v) ∧ P v) :
    Takes s rest (o.elim [] lexemes) ∧ ∀ v ∈ o, P v := by
  rcases optional_eq_ok.mp h with ⟨-, rfl, rfl⟩ | ⟨-, v, rfl, hv⟩
  · exact ⟨.refl s, by simp⟩
  · obtain ⟨ht, hP⟩ := hp v hv
    exact ⟨ht, by simpa using hP⟩

theorem optional_complete (bare : β → γ) (test : List Token → Bool) (p : Parse β)
    {lexemes : β → List Lexeme} (htest : test s = o.isSome)
    (hp : ∀ v, o = some v → s.map Token.lexeme = lexemes v ++ ms → Gives bare (p s) v ms)
    (h : s.map Token.lexeme = o.elim [] lexemes ++ ms) :
    Gives (Option.map bare) (optional test p s) o ms := by
  cases o with
  | none => exact ⟨none, s, optional_eq_ok.mpr (.inl ⟨htest, rfl, rfl⟩), rfl, h⟩
  | some v =>
    obtain ⟨v', rest, hv, hbare, hrest⟩ := hp v rfl h
    exact ⟨some v', rest, optional_eq_ok.mpr (.inr ⟨htest, v', rfl, hv⟩), by simp [hbare], hrest⟩

theorem Gives.inProduction {bare : β → γ} {r : Except Failure (β × List Token)} {v : β}
    (h : Gives bare r v ms) (q : Production) : Gives bare (inProduction q r) v ms := by
  obtain ⟨v', rest, rfl, hv⟩ := h
  exact ⟨v', rest, rfl, hv⟩

end Optional

end Diagram.Syntax
