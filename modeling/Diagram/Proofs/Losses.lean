import Diagram.Proofs.Extents

/-!
# Statements that are lost

A statement that has been read becomes a part of the block that it stands in, and the block a part
of its group.  The group is a statement itself: when the tokens end before its closing brace it is
rejected, and with it goes everything that was read inside; then the groups around it are still
open too.  Nothing else is lost.  A group with a brace is accepted whatever was wrong in its body,
and what stands in front of the outermost rejected group is kept.
-/

namespace Diagram.Syntax

/-! ## What is read -/

/-- What the production for statements gives. -/
def production (eof : Span) (s : List Token) : Except Failure (Statement × List Token) :=
  (attempt eof [] s).1

/-- Whether a statement is read from some tokens. -/
def IsAccepted (eof : Span) (s : List Token) : Prop := ∃ r, production eof s = .ok r

/-- The places that parsing comes to.  The tokens left there are `s`, and `outer` has for each group
around them the tokens from its keyword on, innermost group first. -/
inductive Reaches (eof : Span) (tokens : List Token) : List (List Token) → List Token → Prop
  | start : Reaches eof tokens [] tokens
  | next {outer s st rest} : Reaches eof tokens outer s → stops (!outer.isEmpty) s = false →
    production eof s = .ok (st, rest) → Reaches eof tokens outer rest
  | resume {outer s f} : Reaches eof tokens outer s → stops (!outer.isEmpty) s = false →
    production eof s = .error f → Reaches eof tokens outer (resume eof (!outer.isEmpty) s f)
  | enter {outer s header rest} : Reaches eof tokens outer s → stops (!outer.isEmpty) s = false →
    groupHeader s = .ok (header, rest) → Reaches eof tokens (s :: outer) rest

/-- A statement that the production for statements gives at a place that parsing comes to. -/
def IsRead (eof : Span) (tokens : List Token) (outer : List (List Token)) (st : Statement) : Prop :=
  ∃ s rest, Reaches eof tokens outer s ∧ stops (!outer.isEmpty) s = false ∧
    production eof s = .ok (st, rest)

variable {eof : Span} {nested : Bool} {tokens s rest g : List Token} {outer : List (List Token)}
  {st : Statement} {f : Failure} {header : GroupHeader}

theorem isAccepted_iff : IsAccepted eof s ↔ (production eof s).isOk = true := by
  rw [IsAccepted]
  cases production eof s with
  | ok r => exact ⟨fun _ => rfl, fun _ => ⟨r, rfl⟩⟩
  | error f => simp [Except.isOk, Except.toBool]

instance : Decidable (IsAccepted eof s) := decidable_of_iff _ isAccepted_iff.symm

theorem attempt_of_production {r : Except Failure (Statement × List Token)}
    (h : production eof s = r) (issues : List Issue) :
    attempt eof issues s = (r, (attempt eof issues s).2) :=
  Prod.ext (((result_issues eof).1 [] s issues).trans h) rfl

theorem keeps_of_production (h : production eof s = .ok (st, rest)) : Keeps s rest st.leaves :=
  keeps_of_statement (attempt_of_production h [])

theorem suffix_of_production (h : production eof s = .error f) : f.rest <:+ s :=
  suffix_of_statement (attempt_of_production h [])

/-- **A group is accepted if a brace closes it**, and rejected only at the end of the tokens. -/
theorem production_of_groupHeader (h : groupHeader s = .ok (header, rest)) :
    (∃ close s', production eof s = .ok (.group header.keyword header.id header.style
        (block eof true [] rest).statements close, s')) ∨
      (block eof true [] rest).rest = [] ∧ production eof s = .error .unclosed := by
  rcases stops_nested (stops_rest eof true [] rest) with hrest | ⟨t, s', hrest, hkind⟩
  · exact .inr ⟨hrest, by rw [production, attempt_eq_unclosed h hrest]⟩
  · exact .inl ⟨t.span, s', by rw [production, attempt_eq_closed h hrest hkind]⟩

/-! ## Groups around a place -/

/-- Parsing goes on in a group from its header on. -/
theorem Reaches.of_cons (h : Reaches eof tokens (g :: outer) s) :
    Reaches eof tokens outer g ∧ stops (!outer.isEmpty) g = false ∧
      (∃ header rest, groupHeader g = .ok (header, rest)) ∧ s <:+ g := by
  generalize hall : g :: outer = all at h
  induction h with
  | start => cases hall
  | next hreaches hgo hread ih =>
    obtain ⟨hg, hstop, hheader, hsuffix⟩ := ih hall
    exact ⟨hg, hstop, hheader, (keeps_of_production hread).suffix.trans hsuffix⟩
  | resume hreaches hgo hread ih =>
    obtain ⟨hg, hstop, hheader, hsuffix⟩ := ih hall
    exact ⟨hg, hstop, hheader, (resume_suffix (suffix_of_production hread)).trans hsuffix⟩
  | enter hreaches hgo hheader ih =>
    cases hall
    exact ⟨hreaches, hgo, ⟨_, _, hheader⟩, (keeps_of_groupHeader hheader).suffix⟩

/-- The tokens from which on the block around a place is read. -/
def inside (tokens : List Token) : List (List Token) → List Token
  | [] => tokens
  | g :: _ =>
    match groupHeader g with
    | .ok (_, rest) => rest
    | .error _ => []

/-- What the block around a place is read as. -/
def level (eof : Span) (tokens : List Token) (outer : List (List Token)) : Outcome :=
  block eof (!outer.isEmpty) [] (inside tokens outer)

theorem level_cons (h : groupHeader g = .ok (header, rest)) :
    level eof tokens (g :: outer) = block eof true [] rest := by
  rw [level, inside, h]
  rfl

/-- The rest of a block, when a statement has been read. -/
theorem block_of_ok (hgo : stops nested s = false) (h : production eof s = .ok (st, rest)) :
    (block eof nested [] s).statements = st :: (block eof nested [] rest).statements ∧
      (block eof nested [] s).rest = (block eof nested [] rest).rest := by
  obtain ⟨hstatements, hrest⟩ := (result_issues eof).2 nested [] rest (attempt eof [] s).2
  rw [block_eq_next hgo (attempt_of_production h []), hstatements, hrest]
  exact ⟨rfl, rfl⟩

/-- The rest of a block, when a statement has been rejected. -/
theorem block_of_error (hgo : stops nested s = false) (h : production eof s = .error f) :
    (block eof nested [] s).statements = (block eof nested [] (resume eof nested s f)).statements ∧
      (block eof nested [] s).rest = (block eof nested [] (resume eof nested s f)).rest := by
  rw [block_eq_resume hgo (attempt_of_production h [])]
  exact (result_issues eof).2 nested [] (resume eof nested s f) _

@[simp] theorem leavesAll_append (ss ts : List Statement) :
    leavesAll (ss ++ ts) = leavesAll ss ++ leavesAll ts := by
  induction ss with
  | nil => rfl
  | cons st ss ih => rw [List.cons_append, leavesAll, leavesAll, ih, List.append_assoc]

/-- **A block is what has been read of it, followed by what is read from here on.** -/
theorem Reaches.level_eq (h : Reaches eof tokens outer s) :
    ∃ before, (level eof tokens outer).statements =
        before ++ (block eof (!outer.isEmpty) [] s).statements ∧
      Keeps (inside tokens outer) s (leavesAll before) ∧
      (level eof tokens outer).rest = (block eof (!outer.isEmpty) [] s).rest := by
  induction h with
  | start => exact ⟨[], rfl, .refl _, rfl⟩
  | @next _ _ st _ hreaches hgo hread ih =>
    obtain ⟨before, hstatements, hkeeps, hrest⟩ := ih
    obtain ⟨hnext, hnextRest⟩ := block_of_ok hgo hread
    refine ⟨before ++ [st], ?_, ?_, hrest.trans hnextRest⟩
    · rw [hstatements, hnext, List.append_assoc]
      rfl
    · rw [leavesAll_append, leavesAll, leavesAll, List.append_nil]
      exact hkeeps.trans (keeps_of_production hread)
  | @resume outer s f hreaches hgo hread ih =>
    obtain ⟨before, hstatements, hkeeps, hrest⟩ := ih
    obtain ⟨hnext, hnextRest⟩ := block_of_error hgo hread
    refine ⟨before, hstatements.trans (by rw [hnext]), ?_, hrest.trans hnextRest⟩
    -- what is skipped is behind `s`, and nothing is kept of it
    have hskipped : Keeps s (Syntax.resume eof (!outer.isEmpty) s f) [] :=
      .of_suffix (resume_suffix (suffix_of_production hread))
    simpa using hkeeps.trans hskipped
  | enter hreaches hgo hheader ih =>
    refine ⟨[], ?_, ?_, ?_⟩
    · rw [level_cons hheader]
      rfl
    · rw [inside, hheader]
      exact .refl _
    · rw [level_cons hheader]
      rfl

/-- An entered group is accepted, or the tokens end inside of it. -/
theorem isAccepted_or_unclosed (h : Reaches eof tokens outer s) (hg : g ∈ outer) :
    IsAccepted eof g ∨ production eof g = .error .unclosed := by
  induction outer generalizing s with
  | nil => cases hg
  | cons g' outer ih =>
    obtain ⟨hg', -, ⟨header, rest, hheader⟩, -⟩ := h.of_cons
    rcases List.mem_cons.mp hg with rfl | hg
    · rcases production_of_groupHeader hheader with ⟨close, s', hread⟩ | ⟨-, hread⟩
      · exact .inl ⟨_, hread⟩
      · exact .inr hread
    · exact ih hg' hg

/-- A statement that is read belongs to the block around it. -/
theorem mem_level (h : Reaches eof tokens outer s) (hgo : stops (!outer.isEmpty) s = false)
    (hread : production eof s = .ok (st, rest)) : st ∈ (level eof tokens outer).statements := by
  obtain ⟨before, hstatements, -, -⟩ := h.level_eq
  rw [hstatements, (block_of_ok hgo hread).1]
  simp

/-! ## Inside of accepted groups -/

/-- **What is read inside of accepted groups is kept.** -/
theorem mem_flattenAll_of_isAccepted (h : Reaches eof tokens outer s)
    (hall : ∀ g ∈ outer, IsAccepted eof g)
    (hst : st ∈ Statement.flattenAll (level eof tokens outer).statements) :
    st ∈ Statement.flattenAll (level eof tokens []).statements := by
  induction outer generalizing s with
  | nil => exact hst
  | cons g outer ih =>
    obtain ⟨hg, hgo, ⟨header, rest, hheader⟩, -⟩ := h.of_cons
    refine ih hg (fun g' hg' => hall g' (List.mem_cons_of_mem _ hg')) ?_
    rcases production_of_groupHeader hheader with ⟨close, s', hread⟩ | ⟨-, hread⟩
    · refine mem_flattenAll_of_mem (mem_level hg hgo hread) ?_
      rw [Statement.flatten]
      rw [level_cons hheader] at hst
      exact List.mem_cons_of_mem _ hst
    · obtain ⟨r, hr⟩ := hall g List.mem_cons_self
      rw [hread] at hr
      cases hr

/-! ## Inside of rejected groups -/

/-- Behind the end there is nothing to go on with. -/
theorem resume_unclosed (eof : Span) (nested : Bool) (s : List Token) :
    resume eof nested s .unclosed = [] := by
  cases s <;> rfl

/-- After a group that is still open at the end nothing more is read. -/
theorem block_of_unclosed (hgo : stops nested s = false)
    (h : production eof s = .error .unclosed) :
    (block eof nested [] s).statements = [] ∧ (block eof nested [] s).rest = [] := by
  obtain ⟨hstatements, hrest⟩ := block_of_error hgo h
  rw [hstatements, hrest, resume_unclosed, block_eq_stop (by rfl)]
  exact ⟨rfl, rfl⟩

/-- **Around a rejected group all groups are rejected**, up to one that stands in none. -/
theorem exists_outermost (h : Reaches eof tokens outer s) (hg : g ∈ outer)
    (hrejected : production eof g = .error .unclosed) :
    ∃ g', Reaches eof tokens [] g' ∧ stops false g' = false ∧
      production eof g' = .error .unclosed ∧ s <:+ g' := by
  induction outer generalizing s g with
  | nil => cases hg
  | cons g₁ outer ih =>
    obtain ⟨hg₁, hgo, -, hsuffix⟩ := h.of_cons
    cases outer with
    | nil =>
      obtain rfl := List.mem_singleton.mp hg
      exact ⟨g, hg₁, hgo, hrejected, hsuffix⟩
    | cons g₂ outer =>
      have hinner : ∃ g' ∈ g₂ :: outer, production eof g' = .error .unclosed := by
        rcases List.mem_cons.mp hg with rfl | hg
        · -- the tokens end in the inner group, and so they do in the one around it
          obtain ⟨-, -, ⟨header, rest, hheader⟩, -⟩ := hg₁.of_cons
          obtain ⟨-, -, -, hrest⟩ := hg₁.level_eq
          rw [level_cons hheader, (block_of_unclosed hgo hrejected).2] at hrest
          exact ⟨g₂, List.mem_cons_self, by rw [production, attempt_eq_unclosed hheader hrest]⟩
        · exact ⟨g, hg, hrejected⟩
      obtain ⟨g', hg', hrejected'⟩ := hinner
      obtain ⟨g₀, hreaches, hstop, houter, hsuffix₀⟩ := ih hg₁ hg' hrejected'
      exact ⟨g₀, hreaches, hstop, houter, hsuffix.trans hsuffix₀⟩

/-- **What is read inside of a rejected group is lost.** -/
theorem not_mem_flattenAll_of_unclosed (htokens : AreConsecutive (tokens.map Token.span))
    (h : Reaches eof tokens outer s) (hread : production eof s = .ok (st, rest)) (hg : g ∈ outer)
    (hrejected : production eof g = .error .unclosed) :
    st ∉ Statement.flattenAll (level eof tokens []).statements := by
  intro hst
  obtain ⟨g', hreaches, hgo, houter, hsuffix⟩ := exists_outermost h hg hrejected
  -- the tree is what was read in front of the outermost group, from other tokens
  obtain ⟨before, hstatements, ⟨ts, htokens', hbefore⟩, -⟩ := hreaches.level_eq
  have hlevel : (level eof tokens []).statements = before := by
    rw [hstatements]
    exact (congrArg _ (block_of_unclosed hgo houter).1).trans (List.append_nil _)
  rw [hlevel] at hst
  obtain ⟨x, hx⟩ := List.exists_mem_of_ne_nil _ (leaves_ne_nil st)
  have hfront : x ∈ ts.map Token.span :=
    hbefore.subset (mem_leavesAll_of_mem_flattenAll hx before hst)
  have hback : x ∈ g'.map Token.span := by
    obtain ⟨us, rfl, hsub⟩ := keeps_of_production hread
    have hus : x ∈ (us ++ rest).map Token.span := by
      rw [List.map_append]
      exact List.mem_append_left _ (hsub.subset hx)
    exact (hsuffix.sublist.map Token.span).subset hus
  rw [show tokens = ts ++ g' from htokens', List.map_append] at htokens
  exact htokens.not_mem hfront hback

/-! ## What the tree has -/

/-- A statement that is read, with no rejected group around it. -/
def IsKept (eof : Span) (tokens : List Token) (st : Statement) : Prop :=
  ∃ outer, IsRead eof tokens outer st ∧ ∀ g ∈ outer, IsAccepted eof g

theorem flatten_of_plainStatement (h : plainStatement s = .ok (st, rest)) : st.flatten = [st] := by
  cases st with
  | group keyword id style body close => exact absurd h not_plainStatement_group
  | layout keyword name => rw [Statement.flatten]; simp
  | freeArrow keyword ps => rw [Statement.flatten]; simp
  | chain c => rw [Statement.flatten]; simp

/-- **What a block has is read inside of accepted groups**, from one step to the next. -/
theorem isKept_block (eof : Span) (tokens : List Token) :
    ∀ nested issues s outer, Reaches eof tokens outer s → (!outer.isEmpty) = nested →
      (∀ g ∈ outer, IsAccepted eof g) →
      ∀ st ∈ Statement.flattenAll (block eof nested issues s).statements,
        IsKept eof tokens st := by
  -- The groups that are open are quantified inside: they grow on the way into a body.
  refine (block_induction
    (P := fun issues s r => ∀ outer, Reaches eof tokens outer s →
      stops (!outer.isEmpty) s = false → (∀ g ∈ outer, IsAccepted eof g) →
      ∀ st rest, r.1 = .ok (st, rest) → ∀ st' ∈ st.flatten, IsKept eof tokens st')
    (Q := fun nested issues s o => ∀ outer, Reaches eof tokens outer s →
      (!outer.isEmpty) = nested → (∀ g ∈ outer, IsAccepted eof g) →
      ∀ st ∈ Statement.flattenAll o.statements, IsKept eof tokens st)
    ?plain ?noHeader ?unclosed ?closed ?stop ?next ?retry).2
  case plain =>
    intro issues s hstart outer hreaches hgo hall st rest hplain st' hst'
    have hread : production eof s = .ok (st, rest) := by
      rw [production, attempt_eq_plain hstart]
      exact hplain
    rw [flatten_of_plainStatement hplain] at hst'
    obtain rfl := List.mem_singleton.mp hst'
    exact ⟨outer, ⟨s, rest, hreaches, hgo, hread⟩, hall⟩
  case noHeader =>
    intro issues s f hstart hheader outer hreaches hgo hall st rest h
    cases h
  case unclosed =>
    intro issues s header rest hheader hrest hbody outer hreaches hgo hall st rest' h
    cases h
  case closed =>
    intro issues s header rest t s' hheader hrest hkind hbody outer hreaches hgo hall st rest' h
      st' hst'
    have hread : production eof s = .ok (st, rest') := by
      rw [production, (result_issues eof).1 issues s, attempt_eq_closed hheader hrest hkind]
      exact h
    cases h
    rw [Statement.flatten] at hst'
    rcases List.mem_cons.mp hst' with rfl | hst'
    · exact ⟨outer, ⟨s, s', hreaches, hgo, hread⟩, hall⟩
    -- the body is read inside of one more group, and this one has just been accepted
    · exact hbody (s :: outer) (.enter hreaches hgo hheader) rfl
        (List.forall_mem_cons.mpr ⟨⟨_, hread⟩, hall⟩) st' hst'
  case stop =>
    intro nested issues s hstop outer hreaches hnested hall st hst
    cases hst
  case next =>
    intro nested issues s st rest issues' hgo hone hfirst hmore outer hreaches hnested hall st' hst'
    subst hnested
    have hread : production eof s = .ok (st, rest) := by
      rw [production, (result_issues eof).1 issues s, hone]
    rw [Statement.flattenAll] at hst'
    rcases List.mem_append.mp hst' with hst' | hst'
    · exact hfirst outer hreaches hgo hall st rest rfl st' hst'
    · exact hmore outer (.next hreaches hgo hread) rfl hall st' hst'
  case retry =>
    intro nested issues s f issues' hgo hone hfirst hmore outer hreaches hnested hall st hst
    subst hnested
    have hread : production eof s = .error f := by
      rw [production, (result_issues eof).1 issues s, hone]
    exact hmore outer (.resume hreaches hgo hread) rfl hall st hst

/-- **A statement that is read is kept exactly if every group around it is accepted.**  A group that
has been entered is rejected only because the tokens end inside of it.  Everything that the tree of
a text has is read at one of the places that parsing comes to. -/
theorem mem_parse_iff_isAccepted (text : String) :
    (∀ outer st, IsRead (endSpan text.toList) (tokenize text).1 outer st →
        (st ∈ Statement.flattenAll (parse text).1 ↔
          ∀ g ∈ outer, IsAccepted (endSpan text.toList) g)) ∧
      (∀ outer s, Reaches (endSpan text.toList) (tokenize text).1 outer s → ∀ g ∈ outer,
        IsAccepted (endSpan text.toList) g ∨
          production (endSpan text.toList) g = .error .unclosed) ∧
      ∀ st ∈ Statement.flattenAll (parse text).1,
        IsKept (endSpan text.toList) (tokenize text).1 st := by
  refine ⟨fun outer st hread => ?_, fun outer s h g hg => isAccepted_or_unclosed h hg, ?_⟩
  · obtain ⟨s, rest, hreaches, hgo, hread⟩ := hread
    constructor
    · intro hst g hg
      refine (isAccepted_or_unclosed hreaches hg).resolve_right fun hrejected => ?_
      exact not_mem_flattenAll_of_unclosed (areConsecutive_tokenize text) hreaches hread hg
        hrejected hst
    · intro hall
      have hmem := mem_flattenAll_of_mem (mem_level hreaches hgo hread) (mem_flatten_self st)
      exact mem_flattenAll_of_isAccepted hreaches hall hmem
  · exact isKept_block _ _ false [] _ [] .start rfl fun g hg => (List.not_mem_nil hg).elim

/-- In a group without a closing brace an edge is read and lost, and nothing is found wrong with
it. -/
theorem mem_parse_iff_isAccepted_unclosed :
    let text := "group g \x7b\n  a -> a"
    ∃ outer st, IsRead (endSpan text.toList) (tokenize text).1 outer st ∧
      st ∉ Statement.flattenAll (parse text).1 ∧ (Lint.ofText text).length = 0 := by
  intro text
  have hheader : groupHeader (tokenize text).1 =
      .ok (⟨⟨0, 5, ⟨1, 1⟩, ⟨1, 5⟩⟩, ⟨"g", ⟨6, 7, ⟨1, 7⟩, ⟨1, 7⟩⟩⟩, none⟩,
        (tokenize text).1.drop 3) := by
    decide +kernel
  have hedge : IsAccepted (endSpan text.toList) ((tokenize text).1.drop 3) := by decide +kernel
  have hgroup : ¬ IsAccepted (endSpan text.toList) (tokenize text).1 := by decide +kernel
  obtain ⟨⟨st, rest⟩, hst⟩ := hedge
  have hread : IsRead (endSpan text.toList) (tokenize text).1 [(tokenize text).1] st :=
    ⟨_, rest, .enter .start (by decide +kernel) hheader, by decide +kernel, hst⟩
  refine ⟨_, st, hread, fun hmem => ?_, by decide +kernel⟩
  exact hgroup (((mem_parse_iff_isAccepted text).1 _ st hread).mp hmem _ List.mem_cons_self)

end Diagram.Syntax
