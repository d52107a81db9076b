import Diagram.Proofs.Resuming

/-!
# Places that are blamed

A message is about the token that a production stops on, or about the end.  Parsing may go on at
that very token, but then a keyword of a statement or the closing brace of the group, so the next
failure is behind it; only the end can be reached again, and a second message about it is left out.
So the messages of a text are about different places, in order.
-/

namespace Diagram.Syntax

variable {eof : Span} {nested : Bool} {tokens s rest : List Token} {issues : List Issue}
  {f : Failure}

/-! ## Statements that start with a keyword -/

/-- Whether a keyword follows that only statements start with. -/
def opens : List Token → Bool
  | [] => false
  | t :: _ => t.kind = .group || t.kind = .layout || t.kind = .freeArrow

/-- What is left when something has been taken is left of the tail. -/
theorem suffix_tail (h : rest <:+ s) (hlt : rest.length < s.length) : rest <:+ s.tail := by
  obtain ⟨ts, rfl⟩ := h
  cases ts with
  | nil => simp at hlt
  | cons t ts => exact ⟨ts, rfl⟩

/-- What is read behind one token that is there stops behind it. -/
theorem suffix_tail_of_expect {β : Type} {k : TokenKind}
    {next : Token × List Token → Except Failure β} (hk : startsWith k s = true)
    (hnext : ∀ t rest, Runs rest (next (t, rest)) fun _ => True)
    (h : (expect k s >>= next) = .error f) : f.rest <:+ s.tail := by
  cases s with
  | nil => cases hk
  | cons t s =>
    rw [expect_eq_ok.mpr ⟨rfl, of_decide_eq_true hk⟩] at h
    have hruns := hnext t s
    rw [ok_bind] at h
    rw [h] at hruns
    exact hruns

theorem suffix_tail_of_groupHeader (hstart : startsWith .group s = true)
    (h : groupHeader s = .error f) : f.rest <:+ s.tail := by
  refine suffix_tail_of_expect hstart (fun keyword s₁ => ?_) h
  refine Runs.bind yields_identifier.inProduction fun id h₁ => ?_
  refine Runs.bind ((yields_optional yields_propertyList.inProduction).after h₁) fun style h₂ => ?_
  exact Runs.bind ((yields_mark .leftBrace).inProduction.after h₂) fun _ _ => trivial

theorem suffix_tail_of_layout (hstart : startsWith .layout s = true) (h : layout s = .error f) :
    f.rest <:+ s.tail := by
  refine suffix_tail_of_expect hstart (fun keyword s₁ => ?_) h
  refine Runs.bind (yields_mark .colon).inProduction fun _ h₁ => ?_
  exact Runs.bind (yields_algorithmName.inProduction.after h₁) fun _ _ => trivial

theorem suffix_tail_of_freeArrow (hstart : startsWith .freeArrow s = true)
    (h : freeArrow s = .error f) : f.rest <:+ s.tail := by
  refine suffix_tail_of_expect hstart (fun keyword s₁ => ?_) h
  exact Runs.bind yields_propertyList.inProduction fun _ _ => trivial

theorem suffix_tail_of_plainStatement (hopens : opens s = true)
    (hgroup : startsWith .group s = false) (h : plainStatement s = .error f) :
    f.rest <:+ s.tail := by
  cases s with
  | nil => cases hopens
  | cons t s =>
    have hgroup : t.kind ≠ .group := of_decide_eq_false hgroup
    simp only [opens, Bool.or_eq_true, decide_eq_true_eq] at hopens
    rcases hopens with (hkind | hkind) | hkind
    · exact absurd hkind hgroup
    · rw [plainStatement, hkind] at h
      exact suffix_tail_of_layout (decide_eq_true hkind) h
    · rw [plainStatement, hkind] at h
      exact suffix_tail_of_freeArrow (decide_eq_true hkind) h

/-! ## Where parsing goes on -/

/-- A token that was blamed is resumed at only if a statement or the end of the group starts with
it: an identifier does not stand on a later line than itself. -/
theorem canResume_self {t : Token} (h : canResume nested t.span.first.line t = true) :
    opens (t :: rest) = true ∨ nested = true ∧ startsWith .rightBrace (t :: rest) = true := by
  rw [canResume] at h
  split at h
  · next hkind => exact .inl (by simp [opens, hkind])
  · next hkind => exact .inl (by simp [opens, hkind])
  · next hkind => exact .inl (by simp [opens, hkind])
  · exact absurd (of_decide_eq_true h) (Nat.lt_irrefl _)
  · next hkind => exact .inr ⟨h, decide_eq_true hkind⟩
  · cases h

/-- Parsing goes on behind the token that is blamed, or at it. -/
theorem resume_cases (hf : f.rest <:+ s) :
    resume eof nested s f <:+ f.rest.tail ∨
      resume eof nested s f = f.rest ∧
        (opens f.rest = true ∨ nested = true ∧ startsWith .rightBrace f.rest = true) := by
  rw [resume]
  split
  · next hle =>
    obtain rfl : f.rest = s := hf.eq_of_length_le hle
    rw [List.drop_one]
    exact .inl (List.dropWhile_suffix _)
  · cases hrest : f.rest with
    | nil => exact .inl List.suffix_rfl
    | cons t rest =>
      rw [List.dropWhile_cons]
      split
      · exact .inl (List.dropWhile_suffix _)
      · next hresume =>
        have hspan : f.span eof = t.span := by rw [Failure.span, hrest]
        rw [hspan] at hresume
        exact .inr ⟨rfl, canResume_self (by simpa using hresume)⟩

/-! ## What has been blamed -/

/-- The places that messages are about, where the messages are kept last first. -/
def blamed (issues : List Issue) : List Span := (issues.map Issue.span).reverse

theorem getLast?_blamed (issues : List Issue) :
    (blamed issues).getLast? = issues.head?.map Issue.span := by
  rw [blamed, List.getLast?_reverse, List.head?_map]

theorem sublist_of_getLast?_ne {xs ys : List Span} {z : Span} (h : xs.Sublist (ys ++ [z]))
    (hlast : xs.getLast? ≠ some z) : xs.Sublist ys := by
  obtain ⟨before, last, rfl, hbefore, hz⟩ := List.sublist_append_iff.mp h
  rcases List.sublist_cons_iff.mp hz with hnil | ⟨more, rfl, hnil⟩
  · rwa [List.sublist_nil.mp hnil, List.append_nil]
  · rw [List.sublist_nil.mp hnil, List.getLast?_concat] at hlast
    exact absurd rfl hlast

/-- In front of some of the tokens: the messages are about different places, in order, and all of
these are tokens that have been passed.  Behind the last token also the end is one of them. -/
def Told (eof : Span) (tokens : List Token) (issues : List Issue) (s : List Token) : Prop :=
  ∃ ts, tokens = ts ++ s ∧ ((blamed issues).Sublist (ts.map Token.span) ∨
    s = [] ∧ (blamed issues).Sublist (ts.map Token.span ++ [eof]))

theorem told_start (eof : Span) (tokens : List Token) : Told eof tokens [] tokens :=
  ⟨[], rfl, .inl .slnil⟩

theorem Told.later (h : Told eof tokens issues s) (hsuffix : rest <:+ s) :
    Told eof tokens issues rest := by
  obtain ⟨us, rfl⟩ := hsuffix
  obtain ⟨ts, rfl, hblamed⟩ := h
  refine ⟨ts ++ us, (List.append_assoc ..).symm, ?_⟩
  rw [List.map_append]
  rcases hblamed with hblamed | ⟨hnil, hblamed⟩
  · exact .inl (hblamed.trans (List.sublist_append_left _ _))
  · obtain ⟨rfl, rfl⟩ := List.append_eq_nil_iff.mp hnil
    exact .inr ⟨rfl, by simpa using hblamed⟩

theorem Told.sublist (h : Told eof tokens issues []) :
    (blamed issues).Sublist (tokens.map Token.span ++ [eof]) := by
  obtain ⟨ts, rfl, hblamed | ⟨-, hblamed⟩⟩ := h
  · rw [List.append_nil]
    exact hblamed.trans (List.sublist_append_left _ _)
  · rwa [List.append_nil]

/-- The token that a production has stopped on is blamed once. -/
theorem Told.report (h : Told eof tokens issues f.rest) :
    Told eof tokens (report eof f issues) f.rest.tail := by
  rw [Syntax.report]
  split
  · exact h.later (List.tail_suffix _)
  next hnew =>
  obtain ⟨ts, htokens, hblamed⟩ := h
  have hcons : blamed (⟨f.message, f.span eof⟩ :: issues) = blamed issues ++ [f.span eof] := by
    simp [blamed]
  rw [Told, hcons]
  -- A message is about the token that the production stopped on, or about the end of the text.
  cases hrest : f.rest with
  | nil =>
    have hspan : f.span eof = eof := by rw [Failure.span, hrest]
    rw [hspan] at hnew ⊢
    rw [hrest] at htokens hblamed
    refine ⟨ts, htokens, .inr ⟨rfl, ?_⟩⟩
    rcases hblamed with hblamed | ⟨-, hblamed⟩
    · exact hblamed.append_right _
    · -- the end is not among the places so far, or else the last message would be about it
      have hlast : (blamed issues).getLast? ≠ some eof := by
        rw [getLast?_blamed]
        intro hhead
        obtain ⟨i, hi, rfl⟩ := Option.map_eq_some_iff.mp hhead
        rw [hi] at hnew
        exact hnew (decide_eq_true rfl)
      exact (sublist_of_getLast?_ne hblamed hlast).append_right _
  | cons t rest =>
    have hspan : f.span eof = t.span := by rw [Failure.span, hrest]
    rw [hrest] at htokens hblamed
    rw [hspan]
    refine ⟨ts ++ [t], by simp [htokens], .inl ?_⟩
    rw [List.map_append]
    rcases hblamed with hblamed | ⟨hnil, -⟩
    · exact hblamed.append_right _
    · cases hnil

/-- Whether a statement or a block can begin: what is in front of it has been told, or is a token
at which parsing has gone on. -/
def IsReady (eof : Span) (nested : Bool) (tokens : List Token) (issues : List Issue)
    (s : List Token) : Prop :=
  Told eof tokens issues s ∨ Told eof tokens issues s.tail ∧
    (opens s = true ∨ nested = true ∧ startsWith .rightBrace s = true)

/-- Where a statement or a failure leaves off. -/
def leftOver {β : Type} : Except Failure (β × List Token) → List Token
  | .ok v => v.2
  | .error f => f.rest

theorem IsReady.tail (h : IsReady eof nested tokens issues s) : Told eof tokens issues s.tail := by
  rcases h with h | ⟨h, -⟩
  · exact h.later (List.tail_suffix _)
  · exact h

/-- In a block that goes on, no closing brace comes next. -/
theorem IsReady.statement (h : IsReady eof nested tokens issues s) (hgo : stops nested s = false) :
    IsReady eof false tokens issues s := by
  rcases h with h | ⟨h, hopens | ⟨rfl, hbrace⟩⟩
  · exact .inl h
  · exact .inr ⟨h, .inl hopens⟩
  · simp [stops, hbrace] at hgo

/-- The body of a group can begin behind the header. -/
theorem IsReady.body {header : GroupHeader} (h : IsReady eof nested tokens issues s)
    (hheader : groupHeader s = .ok (header, rest)) : IsReady eof true tokens issues rest := by
  have hsuffix := (keeps_of_groupHeader hheader).suffix
  exact .inl (h.tail.later (suffix_tail hsuffix (length_lt_of_groupHeader hheader)))

/-- Where parsing goes on, a statement or the end of the block can begin. -/
theorem Told.resume (h : Told eof tokens issues f.rest) (hf : f.rest <:+ s) :
    IsReady eof nested tokens (Syntax.report eof f issues) (resume eof nested s f) := by
  rcases resume_cases hf with hsuffix | ⟨heq, hstart⟩
  · exact .inl (h.report.later hsuffix)
  · rw [heq]
    exact .inr ⟨h.report, hstart⟩

/-- **Every message is about a place behind those before it**, from one step to the next. -/
theorem isReady_block (eof : Span) (tokens : List Token) :
    ∀ nested issues s, IsReady eof nested tokens issues s →
      IsReady eof nested tokens (block eof nested issues s).issues
        (block eof nested issues s).rest := by
  refine (block_induction
    (P := fun issues s r => IsReady eof false tokens issues s → Told eof tokens r.2 (leftOver r.1))
    (Q := fun nested issues s o => IsReady eof nested tokens issues s →
      IsReady eof nested tokens o.issues o.rest)
    ?plain ?noHeader ?unclosed ?closed ?stop ?next ?retry).2
  case plain =>
    intro issues s hstart hready
    have hyields := yields_plainStatement (s := s)
    cases hplain : plainStatement s with
    | ok r =>
      have hkeeps := hyields.keeps hplain
      have hsuffix := suffix_tail hkeeps.suffix (hkeeps.length_lt (leaves_ne_nil _))
      exact hready.tail.later hsuffix
    | error f =>
      -- where the token in front is blamed already, the production has read it and fails behind it
      rcases hready with h | ⟨h, hopens | ⟨hfalse, -⟩⟩
      · exact h.later (hyields.suffix hplain)
      · exact h.later (suffix_tail_of_plainStatement hopens hstart hplain)
      · cases hfalse
  case noHeader =>
    intro issues s f hstart hheader hready
    exact hready.tail.later (suffix_tail_of_groupHeader hstart hheader)
  case unclosed =>
    intro issues s header rest hheader hrest hbody hready
    have htail := (hbody (hready.body hheader)).tail
    rwa [hrest] at htail
  case closed =>
    intro issues s header rest t s' hheader hrest hkind hbody hready
    have htail := (hbody (hready.body hheader)).tail
    rwa [hrest] at htail
  case stop =>
    exact fun _ _ _ _ hready => hready
  case next =>
    intro nested issues s st rest issues' hgo _ hfirst hmore hready
    exact hmore (.inl (hfirst (hready.statement hgo)))
  case retry =>
    intro nested issues s f issues' hgo hone hfirst hmore hready
    exact hmore ((hfirst (hready.statement hgo)).resume (suffix_of_statement hone))

/-- **The messages about a list of tokens are about different places, in order**, each of them a
token or the end. -/
theorem blamed_parseTokens (eof : Span) (tokens : List Token) :
    ((parseTokens eof tokens).2.map Issue.span).Sublist (tokens.map Token.span ++ [eof]) := by
  have hready := isReady_block eof tokens false [] tokens (.inl (told_start eof tokens))
  rw [rest_block] at hready
  rw [parseTokens_eq, List.map_reverse]
  exact hready.tail.sublist

end Diagram.Syntax
