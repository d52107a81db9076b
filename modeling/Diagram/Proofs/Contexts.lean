import Diagram.Editor.Completion
import Mathlib.Data.List.TakeDrop
import Mathlib.Tactic.Common

/-!
# Labels and what a line is waiting for

A line is classified by its characters, not by its tokens: a parenthesis, a comma or a colon
counts wherever it stands, in a label too.  Here two lines are compared that differ only in what
stands in their labels.  As long as the labels contain none of these four characters, both wait for
the same, and each of the four can be used to steer what is offered from within a label.

One thing is left that a label may change: where it stands in front of a colon, it is taken for a
part of the key.  No property has a quote in its name, so the same is offered whatever the label.

The proof leaves out which quote opens a label and which one closes it, and compares lines that
differ between quotes.  These can be put together and reversed, and may be cut at every character
that is neither a quote nor one of those that differ, and nothing else is done with a line.
-/

namespace Diagram.Editor

variable {p : Char → Bool} {a b : List Char}

/-- Texts that differ only in what stands in closed labels, and there only in characters that
satisfy `p`.  A label that is not closed is the same in both.  Every quote counts, those of a
comment too. -/
inductive DifferInLabels (p : Char → Bool) : List Char → List Char → Prop
  | nil : DifferInLabels p [] []
  | char {c : Char} {a b : List Char} (hc : c ≠ '"') (h : DifferInLabels p a b) :
    DifferInLabels p (c :: a) (c :: b)
  | label {u v a b : List Char} (hu : '"' ∉ u) (hv : '"' ∉ v)
    (huv : u = v ∨ ∀ c ∈ u ++ v, p c) (h : DifferInLabels p a b) :
    DifferInLabels p ('"' :: (u ++ '"' :: a)) ('"' :: (v ++ '"' :: b))
  | unclosed {s : List Char} (hs : '"' ∉ s) : DifferInLabels p ('"' :: s) ('"' :: s)

/-- Texts that differ only between two quotes, and there only in characters that satisfy `p`. -/
inductive DifferBetweenQuotes (p : Char → Bool) : List Char → List Char → Prop
  | nil : DifferBetweenQuotes p [] []
  | char (c : Char) {a b : List Char} (h : DifferBetweenQuotes p a b) :
    DifferBetweenQuotes p (c :: a) (c :: b)
  | quoted {u v a b : List Char} (hu : ∀ c ∈ u, p c) (hv : ∀ c ∈ v, p c)
    (h : DifferBetweenQuotes p a b) :
    DifferBetweenQuotes p ('"' :: (u ++ '"' :: a)) ('"' :: (v ++ '"' :: b))

/-- Contexts that are the same, up to what a key has between quotes. -/
inductive Context.Agree (p : Char → Bool) : Context → Context → Prop
  | refl (x : Context) : Context.Agree p x x
  | styleValue {a b : List Char} (h : DifferBetweenQuotes p a b) :
    Context.Agree p (.styleValue (String.ofList a)) (.styleValue (String.ofList b))

/-! ## Texts that differ between quotes -/

namespace DifferBetweenQuotes

@[refl] theorem refl (p : Char → Bool) (a : List Char) : DifferBetweenQuotes p a a := by
  induction a with
  | nil => exact .nil
  | cons c a ih => exact .char c ih

theorem symm (h : DifferBetweenQuotes p a b) : DifferBetweenQuotes p b a := by
  induction h with
  | nil => exact .nil
  | char c _ ih => exact .char c ih
  | quoted hu hv _ ih => exact .quoted hv hu ih

theorem append {a' b' : List Char} (h : DifferBetweenQuotes p a b)
    (h' : DifferBetweenQuotes p a' b') : DifferBetweenQuotes p (a ++ a') (b ++ b') := by
  induction h with
  | nil => exact h'
  | char c _ ih => exact .char c ih
  | quoted hu hv _ ih =>
    simp only [List.cons_append, List.append_assoc]
    exact .quoted hu hv ih

theorem reverse (h : DifferBetweenQuotes p a b) :
    DifferBetweenQuotes p a.reverse b.reverse := by
  induction h with
  | nil => exact .nil
  | char c _ ih =>
    simp only [List.reverse_cons]
    exact ih.append (.char c .nil)
  | @quoted u v a b hu hv _ ih =>
    have hreversed : ∀ w s : List Char, ('"' :: (w ++ '"' :: s)).reverse =
        s.reverse ++ '"' :: (w.reverse ++ '"' :: []) := by simp
    rw [hreversed, hreversed]
    refine ih.append (.quoted ?_ ?_ .nil)
    · simpa using hu
    · simpa using hv

/-- The first character is the same, as it is a quote in both if it is one in either. -/
theorem head?_eq (h : DifferBetweenQuotes p a b) : a.head? = b.head? := by
  cases h <;> rfl

/-- Behind a character that is not a quote the texts still differ between quotes. -/
theorem tail {c : Char} (hc : c ≠ '"') (h : DifferBetweenQuotes p (c :: a) b) :
    ∃ b', b = c :: b' ∧ DifferBetweenQuotes p a b' := by
  cases h with
  | char _ h => exact ⟨_, rfl, h⟩
  | quoted => exact absurd rfl hc

/-- Up to the first character of a kind, and from there on, where neither a quote nor what may
differ is of that kind. -/
theorem takeWhile_dropWhile {q : Char → Bool} (hp : ∀ c, p c → q c) (hq : q '"')
    (h : DifferBetweenQuotes p a b) :
    DifferBetweenQuotes p (a.takeWhile q) (b.takeWhile q) ∧
      DifferBetweenQuotes p (a.dropWhile q) (b.dropWhile q) := by
  induction h with
  | nil => exact ⟨.nil, .nil⟩
  | @char c a b h ih =>
    by_cases hc : q c
    · simp only [List.takeWhile_cons_of_pos hc, List.dropWhile_cons_of_pos hc]
      exact ⟨.char c ih.1, ih.2⟩
    · simp only [List.takeWhile_cons_of_neg hc, List.dropWhile_cons_of_neg hc]
      exact ⟨.nil, .char c h⟩
  | @quoted u v a b hu hv h ih =>
    have hpass : ∀ w s : List Char, (∀ c ∈ w, p c) →
        ('"' :: (w ++ '"' :: s)).takeWhile q = '"' :: (w ++ '"' :: s.takeWhile q) ∧
          ('"' :: (w ++ '"' :: s)).dropWhile q = s.dropWhile q := by
      intro w s hw
      have hall : ∀ c ∈ w, q c := fun c hc => hp c (hw c hc)
      simp [List.takeWhile_append_of_pos hall, List.dropWhile_append_of_pos hall, hq]
    simp only [hpass u a hu, hpass v b hv]
    exact ⟨.quoted hu hv ih.1, ih.2⟩

/-- Leading white space is the same. -/
theorem dropWhile_isBlank (h : DifferBetweenQuotes p a b) :
    DifferBetweenQuotes p (a.dropWhile isBlank) (b.dropWhile isBlank) := by
  induction h with
  | nil => exact .nil
  | @char c a b h ih =>
    by_cases hc : isBlank c
    · simpa only [List.dropWhile_cons_of_pos hc] using ih
    · simpa only [List.dropWhile_cons_of_neg hc] using h.char c
  | quoted hu hv h =>
    have hquote : ¬ isBlank '"' := by decide
    simp only [List.dropWhile_cons_of_neg hquote]
    exact .quoted hu hv h

theorem trimBlank (h : DifferBetweenQuotes p a b) :
    DifferBetweenQuotes p (trimBlank a) (trimBlank b) :=
  h.dropWhile_isBlank.reverse.dropWhile_isBlank.reverse

/-- Whether a character occurs, if it is neither a quote nor one of those that may differ. -/
theorem contains_eq {x : Char} (hx : x ≠ '"') (hp : ¬ p x) (h : DifferBetweenQuotes p a b) :
    a.contains x = b.contains x := by
  have hmem : x ∈ a ↔ x ∈ b := by
    induction h with
    | nil => rfl
    | char c _ ih => simp [ih]
    | @quoted u v a b hu hv _ ih =>
      have hnot : ∀ w : List Char, (∀ c ∈ w, p c) → x ∉ w := fun w hw hmem => hp (hw x hmem)
      simp [hx, hnot u hu, hnot v hv, ih]
  simp only [List.contains_eq_mem, hmem]

/-- A word without quotes is read from both texts, or from none. -/
theorem exists_of_append {k : List Char} (hk : '"' ∉ k) (h : DifferBetweenQuotes p (k ++ a) b) :
    ∃ b', b = k ++ b' ∧ DifferBetweenQuotes p a b' := by
  induction k generalizing b with
  | nil => exact ⟨b, rfl, h⟩
  | cons c k ih =>
    simp only [List.mem_cons, not_or] at hk
    obtain ⟨b₁, rfl, h₁⟩ := h.tail (Ne.symm hk.1)
    obtain ⟨b', rfl, h'⟩ := ih hk.2 h₁
    exact ⟨b', rfl, h'⟩

theorem isPrefixOf_eq {k : List Char} (hk : '"' ∉ k) (h : DifferBetweenQuotes p a b) :
    k.isPrefixOf a = k.isPrefixOf b := by
  have himp : ∀ {a b}, DifferBetweenQuotes p a b → k <+: a → k <+: b := by
    rintro _ b h ⟨a, rfl⟩
    obtain ⟨b', rfl, -⟩ := h.exists_of_append hk
    exact List.prefix_append k b'
  rw [Bool.eq_iff_iff, List.isPrefixOf_iff_prefix, List.isPrefixOf_iff_prefix]
  exact ⟨himp h, himp h.symm⟩

theorem eq_or_mem (h : DifferBetweenQuotes p a b) :
    a = b ∨ '"' ∈ a ∧ '"' ∈ b := by
  induction h with
  | nil => exact .inl rfl
  | char c _ ih =>
    rcases ih with rfl | ⟨ha, hb⟩
    · exact .inl rfl
    · exact .inr ⟨List.mem_cons_of_mem c ha, List.mem_cons_of_mem c hb⟩
  | quoted => exact .inr ⟨List.mem_cons_self, List.mem_cons_self⟩

end DifferBetweenQuotes

theorem DifferInLabels.differBetweenQuotes (h : DifferInLabels p a b) :
    DifferBetweenQuotes p a b := by
  induction h with
  | nil => exact .nil
  | char _ _ ih => exact .char _ ih
  | @label u v a b _ _ huv _ ih =>
    rcases huv with rfl | huv
    · exact .char '"' ((DifferBetweenQuotes.refl p u).append (.char '"' ih))
    · refine .quoted (fun c hc => huv c ?_) (fun c hc => huv c ?_) ih
      · exact List.mem_append_left v hc
      · exact List.mem_append_right u hc
  | unclosed => exact .refl ..

/-- Labels that can consist of nothing do not differ. -/
theorem DifferInLabels.eq_of_forall (hp : ∀ c, p c → c = '"') (h : DifferInLabels p a b) :
    a = b := by
  induction h with
  | nil | unclosed => rfl
  | char _ _ ih => rw [ih]
  | @label u v a b hu hv huv _ ih =>
    rcases huv with rfl | huv
    · rw [ih]
    · have hnil {w : List Char} (hw : '"' ∉ w) (hall : ∀ c ∈ w, p c) : w = [] :=
        List.eq_nil_iff_forall_not_mem.mpr fun c hc => hw (hp c (hall c hc) ▸ hc)
      rw [List.forall_mem_append] at huv
      rw [hnil hu huv.1, hnil hv huv.2, ih]

/-- No property has a quote in its name, so for keys that differ between quotes the same values are
offered. -/
theorem valueItems_eq (h : DifferBetweenQuotes p a b) :
    valueItems (String.ofList a) = valueItems (String.ofList b) := by
  have hnone : ∀ s : List Char, '"' ∈ s → StyleKey.ofName? (String.ofList s) = none := by
    intro s hs
    rw [StyleKey.ofName?, List.lookup_eq_none_iff]
    intro e he
    have hname : ∀ e ∈ StyleKey.names, '"' ∉ e.1.toList := by decide
    rw [bne_iff_ne]
    intro heq
    exact hname e he (by simpa [← heq] using hs)
  rcases h.eq_or_mem with rfl | ⟨ha, hb⟩
  · rfl
  · rw [valueItems, valueItems, hnone a ha, hnone b hb]

/-! ## What a line is waiting for -/

/-- A layout directive ends at a colon before any quote. -/
theorem isLayoutLine_eq (h : DifferBetweenQuotes p a b) : isLayoutLine a = isLayoutLine b := by
  have hline := h.dropWhile_isBlank
  have hword : '"' ∉ "@layout".toList := by decide
  rw [isLayoutLine, isLayoutLine, hline.isPrefixOf_eq hword]
  cases hprefix : "@layout".toList.isPrefixOf (b.dropWhile isBlank) with
  | false => rfl
  | true =>
    obtain ⟨b', hb⟩ := List.isPrefixOf_iff_prefix.mp hprefix
    obtain ⟨a', ha, h'⟩ := (hb ▸ hline.symm).exists_of_append hword
    rw [ha, ← hb, List.drop_left, List.drop_left, h'.dropWhile_isBlank.head?_eq]

/-- A line without what stands behind its last parenthesis. -/
theorem take_eq_reverse_dropWhile (q : Char → Bool) (l : List Char) :
    l.take (l.length - (l.reverse.takeWhile q).reverse.length) =
      (l.reverse.dropWhile q).reverse := by
  have hsplit : (l.reverse.dropWhile q).reverse ++ (l.reverse.takeWhile q).reverse = l := by
    rw [← List.reverse_append, List.takeWhile_append_dropWhile, List.reverse_reverse]
  calc l.take (l.length - (l.reverse.takeWhile q).reverse.length)
      = ((l.reverse.dropWhile q).reverse ++ (l.reverse.takeWhile q).reverse).take
          (((l.reverse.dropWhile q).reverse ++ (l.reverse.takeWhile q).reverse).length -
            (l.reverse.takeWhile q).reverse.length) := by rw [hsplit]
    _ = (l.reverse.dropWhile q).reverse := by
      rw [List.length_append, Nat.add_sub_cancel, List.take_left]

/-- The same parenthesis is open, and what stands before it and behind it differs only between
quotes. -/
theorem openParen?_rel (hp : ∀ c, p c → c ≠ '(' ∧ c ≠ ')') (h : DifferBetweenQuotes p a b) :
    Option.Rel (fun x y => DifferBetweenQuotes p x.1 y.1 ∧ DifferBetweenQuotes p x.2 y.2)
      (openParen? a) (openParen? b) := by
  obtain ⟨hinside, hbefore⟩ := h.reverse.takeWhile_dropWhile
    (q := fun c => c ≠ '(' && c ≠ ')') (by simpa using hp) (by decide)
  simp only [openParen?, take_eq_reverse_dropWhile, List.getLast?_reverse, List.dropLast_reverse]
  rw [hbefore.head?_eq]
  by_cases hopen : (b.reverse.dropWhile fun c => c ≠ '(' && c ≠ ')').head? = some '('
  · obtain ⟨before, hb⟩ := List.head?_eq_some_iff.mp hopen
    rw [hb] at hbefore
    obtain ⟨before', ha, h'⟩ := hbefore.symm.tail (by decide)
    rw [if_pos hopen, if_pos hopen, ha, hb]
    exact .some ⟨h'.symm.reverse, hinside.reverse⟩
  · rw [if_neg hopen, if_neg hopen]
    exact .none

/-- A text that differs between quotes ends with the keyword of a free arrow, or not, as before. -/
theorem endsWithArrow_eq (h : DifferBetweenQuotes p a b) : endsWithArrow a = endsWithArrow b := by
  have hreversed := h.reverse.dropWhile_isBlank
  have hword : '"' ∉ "arrow".toList.reverse := by decide
  rw [endsWithArrow, endsWithArrow, hreversed.isPrefixOf_eq hword]
  cases hprefix : "arrow".toList.reverse.isPrefixOf (b.reverse.dropWhile isBlank) with
  | false => rfl
  | true =>
    obtain ⟨b', hb⟩ := List.isPrefixOf_iff_prefix.mp hprefix
    obtain ⟨a', ha, h'⟩ := (hb ▸ hreversed.symm).exists_of_append hword
    rw [ha, ← hb, List.drop_left, List.drop_left, h'.head?_eq]

/-- **What makes no difference to a line.**  Two lines that differ between quotes, and not in a
parenthesis, a comma or a colon, wait for the same. -/
theorem agree_classify_of_differBetweenQuotes (hp : ∀ c ∈ ['(', ')', ',', ':'], ¬ p c)
    (h : DifferBetweenQuotes p a b) : (classify a).Agree p (classify b) := by
  have hne : ∀ x ∈ ['(', ')', ',', ':'], ∀ c, p c → c ≠ x := by
    rintro x hx c hc rfl
    exact hp c hx hc
  have hcut : ∀ x ∈ ['(', ')', ',', ':'], ∀ c, p c → decide (c ≠ x) = true :=
    fun x hx c hc => decide_eq_true (hne x hx c hc)
  have hopen := openParen?_rel
    (fun c hc => ⟨hne '(' (by decide) c hc, hne ')' (by decide) c hc⟩) h
  rw [classify, classify, isLayoutLine_eq h]
  by_cases hlayout : isLayoutLine b
  · simp only [if_pos hlayout]
    exact .refl _
  simp only [if_neg hlayout]
  generalize openParen? a = x at hopen ⊢
  generalize openParen? b = y at hopen ⊢
  cases hopen with
  | none => exact .refl _
  | @some x y hxy =>
    obtain ⟨howner, hinside⟩ := hxy
    -- What is behind the last comma, and the key in it: the cuts are at marks that may not differ.
    have hsegment :=
      (hinside.reverse.takeWhile_dropWhile (hcut ',' (by decide)) (by decide)).1.reverse
    have hkey := (hsegment.takeWhile_dropWhile (hcut ':' (by decide)) (by decide)).1.trimBlank
    simp only [hsegment.contains_eq (by decide) (hp ':' (by decide)),
      hinside.contains_eq (by decide) (hp ',' (by decide)), endsWithArrow_eq howner]
    split
    · exact .styleValue hkey
    · exact .refl _

/-! ## Steering from within a label -/

/-- What a line waits for is not a value under a key with a label in it. -/
def Context.IsPlain : Context → Prop
  | .styleValue key => '"' ∉ key.toList
  | _ => True

theorem Context.Agree.eq_of_isPlain {x y : Context} (hx : x.IsPlain) (h : x.Agree p y) : x = y := by
  cases h with
  | refl => rfl
  | styleValue h =>
    rcases h.eq_or_mem with rfl | ⟨ha, -⟩
    · rfl
    · exact absurd (by simpa using ha) hx

/-- Keys that differ between quotes are offered the same values. -/
theorem Context.Agree.exists_key {key : String} {y : Context}
    (h : (Context.styleValue key).Agree p y) :
    ∃ key', y = .styleValue key' ∧ valueItems key' = valueItems key := by
  cases h with
  | refl => exact ⟨key, rfl, rfl⟩
  | styleValue h => exact ⟨_, rfl, (valueItems_eq h).symm⟩

/-- An empty label, and one of a single character. -/
theorem differInLabels_singleton {x : Char} (hx : x ≠ '"') (hp : p x) (h : DifferInLabels p a b) :
    DifferInLabels p ('"' :: '"' :: a) ('"' :: x :: '"' :: b) :=
  .label (u := []) (v := [x]) List.not_mem_nil (by simpa using Ne.symm hx)
    (.inr (by simpa using hp)) h

/-- A parenthesis, a comma or a colon is enough of a label to change what a line waits for: an
opening parenthesis at the start of a line, and the others behind one. -/
theorem exists_classify_ne {x : Char} (hx : x ∈ ['(', ')', ',', ':']) (hp : p x) :
    ∃ a b, DifferInLabels p a b ∧ (classify a).IsPlain ∧ classify a ≠ classify b := by
  have hquote : x ≠ '"' := by
    rintro rfl
    revert hx
    decide
  have hlabel := differInLabels_singleton hquote hp .nil
  rcases List.mem_cons.mp hx with rfl | hx
  · exact ⟨_, _, hlabel, trivial, by decide⟩
  · refine ⟨_, _, hlabel.char (c := '(') (by decide), trivial, ?_⟩
    have hne : [')', ',', ':'].all
        fun y => classify ['(', '"', '"'] ≠ classify ['(', '"', y, '"'] := by decide
    exact of_decide_eq_true (List.all_eq_true.mp hne x hx)

/-- Where a label stands in front of a colon, it is a part of the key. -/
theorem classify_label_key {x : Char} (hx : x ∉ ['(', ')', ',', ':']) :
    classify ['(', '"', x, '"', ':'] = .styleValue (String.ofList ['"', x, '"']) := by
  simp only [List.mem_cons, List.not_mem_nil, or_false, not_or] at hx
  have hlayout : isLayoutLine ['(', '"', x, '"', ':'] = false := rfl
  have hopen : openParen? ['(', '"', x, '"', ':'] = some ([], ['"', x, '"', ':']) := by
    simp [openParen?, hx]
  have hblank : trimBlank ['"', x, '"'] = ['"', x, '"'] := rfl
  rw [classify, hlayout, hopen]
  simp [hx, hblank]

/-- **Which characters of labels make no difference.**  Of two lines that differ only in what stands
in their closed labels both wait for the same if no label has a parenthesis, a comma or a colon, and
no label is taken for a part of a key; and only if no label has one.  Labels that differ in front of
a colon are keys that differ, whatever stands in them, but the same values are offered for them. -/
theorem classify_eq_iff (p : Char → Bool) :
    ((∀ a b, DifferInLabels p a b → (classify a).IsPlain → classify a = classify b) ↔
      ∀ c ∈ ['(', ')', ',', ':'], ¬ p c) ∧
    ((∀ a b, DifferInLabels p a b → classify a = classify b) ↔ ∀ c, p c → c = '"') ∧
    ((∀ c ∈ ['(', ')', ',', ':'], ¬ p c) → ∀ a b key, DifferInLabels p a b →
      classify a = .styleValue key →
      ∃ key', classify b = .styleValue key' ∧ valueItems key' = valueItems key) := by
  have hagree (hp : ∀ c ∈ ['(', ')', ',', ':'], ¬ p c) {a b : List Char}
      (h : DifferInLabels p a b) : (classify a).Agree p (classify b) :=
    agree_classify_of_differBetweenQuotes hp h.differBetweenQuotes
  refine ⟨⟨fun heq c hc hp => ?_, fun hp a b h hplain => (hagree hp h).eq_of_isPlain hplain⟩,
    ⟨fun heq c hc => ?_, fun hp a b h => ?_⟩, fun hp a b key h hkey => ?_⟩
  · obtain ⟨a, b, hdiffer, hplain, hne⟩ := exists_classify_ne hc hp
    exact hne (heq a b hdiffer hplain)
  · by_contra hquote
    by_cases hmem : c ∈ ['(', ')', ',', ':']
    · obtain ⟨a, b, hdiffer, -, hne⟩ := exists_classify_ne hmem hc
      exact hne (heq a b hdiffer)
    · have hdiffer := (differInLabels_singleton hquote hc
        (DifferInLabels.nil.char (c := ':') (by decide))).char (c := '(') (by decide)
      have hkeys := heq _ _ hdiffer
      have hempty : classify ['(', '"', '"', ':'] = .styleValue (String.ofList ['"', '"']) := by
        decide
      rw [classify_label_key hmem, hempty, Context.styleValue.injEq, String.ofList_inj] at hkeys
      exact absurd (congrArg List.length hkeys) (by simp)
  · rw [h.eq_of_forall hp]
  · exact (hkey ▸ hagree hp h).exists_key

end Diagram.Editor
