import Mathlib.Data.List.DropRight
import Diagram.Editor.Session

/-!
# Runs of a session

What a session keeps of a text is settled by the notifications about that text alone: by the
contents that were sent since it was last closed.  Of these the last are kept, together with the
document of the last that had no errors.  Nothing that is told about another text is noticed,
neither in what is kept nor in any answer.
-/

namespace Diagram.Editor

/-! ## Notifications -/

namespace Notification

/-- The name of the text that it is about. -/
def uri : Notification → String
  | opened uri _ | changed uri _ | closed uri => uri

/-- Whether a text is closed. -/
def isClose : Notification → Bool
  | closed _ => true
  | opened .. | changed .. => false

/-- The contents that are sent with it.  Of several changes at once the last counts, and a change
may come without any. -/
def text? : Notification → Option String
  | opened _ text => some text
  | changed _ texts => texts.getLast?
  | closed _ => none

end Notification

/-- The notifications about a name, behind the last that closes it. -/
def sinceClose (uri : String) (ns : List Notification) : List Notification :=
  (ns.filter (fun n => n.uri = uri)).rtakeWhile (fun n => !n.isClose)

/-- The contents sent under a name since it was last closed. -/
def textsSent (uri : String) (ns : List Notification) : List String :=
  (sinceClose uri ns).filterMap Notification.text?

/-- The documents of the contents that have no errors. -/
def goodDocuments (texts : List String) : List (Document Float) :=
  (texts.map Document.ofText).filter Document.isOk

/-- What is kept of the contents that were sent: the last, and the document of the last without
errors. -/
def OpenText.ofSent (texts : List String) : Option OpenText :=
  texts.getLast?.map fun text => ⟨text, (goodDocuments texts).getLast?⟩

section Sent

variable {uri : String} {n : Notification}

/-- What is told about another name does not count. -/
theorem textsSent_of_ne (h : n.uri ≠ uri) (ns : List Notification) :
    textsSent uri (ns ++ [n]) = textsSent uri ns := by
  simp [textsSent, sinceClose, h]

theorem textsSent_of_isClose (h : n.uri = uri) (hclose : n.isClose) (ns : List Notification) :
    textsSent uri (ns ++ [n]) = [] := by
  have hfilter : (ns ++ [n]).filter (fun n => n.uri = uri) =
      ns.filter (fun n => n.uri = uri) ++ [n] := by simp [h]
  rw [textsSent, sinceClose, hfilter, List.rtakeWhile_concat_neg _ _ _ (by simp [hclose])]
  rfl

theorem textsSent_of_not_isClose (h : n.uri = uri) (hclose : n.isClose = false)
    (ns : List Notification) :
    textsSent uri (ns ++ [n]) = textsSent uri ns ++ n.text?.toList := by
  have hfilter : (ns ++ [n]).filter (fun n => n.uri = uri) =
      ns.filter (fun n => n.uri = uri) ++ [n] := by simp [h]
  rw [textsSent, sinceClose, hfilter, List.rtakeWhile_concat_pos _ _ _ (by simp [hclose]),
    List.filterMap_append, ← sinceClose, ← textsSent]
  cases htext : n.text? <;> simp [htext]

/-- Only the notifications about a name count for it. -/
theorem textsSent_filter (uri : String) (ns : List Notification) :
    textsSent uri (ns.filter fun n => n.uri = uri) = textsSent uri ns := by
  simp [textsSent, sinceClose]

end Sent

/-! ## One notification -/

theorem bind_lastGood_ofSent (texts : List String) :
    (OpenText.ofSent texts).bind OpenText.lastGood = (goodDocuments texts).getLast? := by
  cases texts using List.reverseRecOn with
  | nil => rfl
  | append_singleton texts text => simp [OpenText.ofSent]

/-- New contents are kept as the last of all that were sent. -/
theorem ofSent_concat (texts : List String) (text : String) :
    OpenText.ofSent (texts ++ [text]) = some (OpenText.update (OpenText.ofSent texts) text) := by
  rw [OpenText.update, bind_lastGood_ofSent]
  cases hok : (Document.ofText text : Document Float).isOk <;>
    simp [OpenText.ofSent, goodDocuments, hok]

/-- A text that is left out of the others is not among them, and no other text is touched. -/
theorem lookup_filter_ne (texts : List (String × OpenText)) (name uri : String) :
    (texts.filter fun t => t.1 != name).lookup uri =
      if uri = name then none else texts.lookup uri := by
  induction texts with
  | nil => simp
  | cons t texts ih =>
    obtain ⟨x, t⟩ := t
    by_cases hx : x = name
    · subst hx
      rw [List.filter_cons_of_neg (by simp), ih]
      by_cases huri : uri = x
      · rw [if_pos huri, if_pos huri]
      · rw [if_neg huri, if_neg huri, List.lookup_cons, beq_false_of_ne huri]
    · rw [List.filter_cons_of_pos (by simpa using hx), List.lookup_cons, List.lookup_cons, ih]
      by_cases huri : uri = x
      · rw [huri, beq_self_eq_true]
        exact (if_neg hx).symm
      · rw [beq_false_of_ne huri]

namespace Session

theorem find?_change (s : Session) (name text uri : String) :
    (s.change name text).find? uri =
      if uri = name then some (OpenText.update (s.find? uri) text) else s.find? uri := by
  rw [change, find?, List.lookup_cons, lookup_filter_ne]
  by_cases huri : uri = name
  · rw [huri, beq_self_eq_true]
    exact (if_pos rfl).symm
  · rw [beq_false_of_ne huri, if_neg huri, if_neg huri]
    rfl

theorem find?_close (s : Session) (name uri : String) :
    (s.close name).find? uri = if uri = name then none else s.find? uri := by
  rw [close, find?, lookup_filter_ne, find?]

/-- **One notification, seen from one name.**  It closes the text of that name, or brings new
contents for it, or is not about it. -/
theorem find?_receive (s : Session) (n : Notification) (uri : String) :
    (s.receive n).find? uri =
      if n.uri ≠ uri then s.find? uri
      else if n.isClose then none
      else (n.text?.map (OpenText.update (s.find? uri))).or (s.find? uri) := by
  cases n with
  | opened name text =>
    rw [receive, find?_change]
    by_cases h : name = uri
    · simp [h, Notification.uri, Notification.isClose, Notification.text?]
    · simp [h, Ne.symm h, Notification.uri]
  | changed name texts =>
    rw [receive, changeAll]
    cases hlast : texts.getLast? with
    | none => simp [Notification.isClose, Notification.text?, hlast]
    | some text =>
      simp only [find?_change]
      by_cases h : name = uri
      · simp [h, Notification.uri, Notification.isClose, Notification.text?, hlast]
      · simp [h, Ne.symm h, Notification.uri]
  | closed name =>
    rw [receive, find?_close]
    by_cases h : name = uri
    · simp [h, Notification.uri, Notification.isClose]
    · simp [h, Ne.symm h, Notification.uri]

@[simp] theorem options_receive (s : Session) (n : Notification) :
    (s.receive n).options = s.options := by
  cases n with
  | opened | closed => rfl
  | changed name texts =>
    rw [receive, changeAll]
    split <;> rfl

/-! ## Runs -/

@[simp] theorem receiveAll_concat (s : Session) (ns : List Notification) (n : Notification) :
    s.receiveAll (ns ++ [n]) = (s.receiveAll ns).receive n := List.foldl_concat ..

@[simp] theorem options_receiveAll (s : Session) (ns : List Notification) :
    (s.receiveAll ns).options = s.options := by
  induction ns using List.reverseRecOn with
  | nil => rfl
  | append_singleton ns n ih => rw [receiveAll_concat, options_receive, ih]

/-- **A run of notifications.**  What is kept of a text is what was sent since it was last
closed. -/
theorem find?_receiveAll (options : Options Float) (ns : List Notification) (uri : String) :
    (({ options } : Session).receiveAll ns).find? uri = OpenText.ofSent (textsSent uri ns) := by
  induction ns using List.reverseRecOn with
  | nil => rfl
  | append_singleton ns n ih =>
    rw [receiveAll_concat, find?_receive, ih]
    by_cases huri : n.uri = uri
    · rw [if_neg (not_not_intro huri)]
      cases hclose : n.isClose with
      | true => rw [textsSent_of_isClose huri hclose]; rfl
      | false =>
        rw [textsSent_of_not_isClose huri hclose]
        cases n.text? with
        | none => simp
        | some text => simp [ofSent_concat]
    · rw [if_pos huri, textsSent_of_ne huri]

end Session

/-! ## Sessions that keep up -/

/-- A session that keeps of a text what a run of notifications asks for, and no more. -/
structure Session.IsCurrent (s : Session) (uri : String) (ns : List Notification) : Prop where
  /-- A text is open when contents were sent for it and it was not closed afterwards. -/
  isOpen_iff : (s.find? uri).isSome ↔ ∃ before n after, ns = before ++ n :: after ∧
    n.uri = uri ∧ n.text?.isSome ∧ ∀ m ∈ after, m.uri = uri → m.isClose = false
  /-- Its contents are the last that were sent. -/
  text_eq : (s.find? uri).map OpenText.text = (textsSent uri ns).getLast?
  /-- Its document is that of the last contents without errors, if there were any. -/
  lastGood_eq : (s.find? uri).bind OpenText.lastGood =
    (((textsSent uri ns).map Document.ofText).filter Document.isOk).getLast?
  /-- That is its own document as long as it has no errors. -/
  lastGood_of_isOk : ∀ t, s.find? uri = some t → (Document.ofText t.text : Document Float).isOk →
    t.lastGood = some (Document.ofText t.text)

/-- A list that ends in `n` has a member of the one kind with only members of the other kind behind
it: this member is `n`, or it stands in front and `n` is of the other kind. -/
theorem exists_split_concat_iff {β : Type} {P Q : β → Prop} (ns : List β) (n : β) :
    (∃ before m after, ns ++ [n] = before ++ m :: after ∧ P m ∧ ∀ k ∈ after, Q k) ↔
      P n ∨ Q n ∧ ∃ before m after, ns = before ++ m :: after ∧ P m ∧ ∀ k ∈ after, Q k := by
  constructor
  · rintro ⟨before, m, after, hns, hm, hafter⟩
    cases after using List.reverseRecOn with
    | nil =>
      obtain ⟨-, hn⟩ := List.append_inj' hns rfl
      exact .inl (List.singleton_inj.mp hn ▸ hm)
    | append_singleton after k =>
      rw [← List.cons_append, ← List.append_assoc] at hns
      obtain ⟨rfl, hn⟩ := List.append_inj' hns rfl
      obtain ⟨hafter, hk⟩ := List.forall_mem_append.mp hafter
      refine .inr ⟨hk n ?_, before, m, after, rfl, hm, hafter⟩
      rw [List.singleton_inj.mp hn]
      exact List.mem_singleton_self k
  · rintro (hn | ⟨hn, before, m, after, rfl, hm, hafter⟩)
    · exact ⟨ns, n, [], rfl, hn, nofun⟩
    · refine ⟨before, m, after ++ [n], by simp, hm, fun k hk => ?_⟩
      rcases List.mem_append.mp hk with hk | hk
      · exact hafter k hk
      · rwa [List.mem_singleton.mp hk]

/-- Contents were sent since the last time that a text was closed. -/
theorem textsSent_ne_nil_iff (uri : String) (ns : List Notification) :
    textsSent uri ns ≠ [] ↔ ∃ before n after, ns = before ++ n :: after ∧
      (n.uri = uri ∧ n.text?.isSome) ∧ ∀ m ∈ after, m.uri = uri → m.isClose = false := by
  induction ns using List.reverseRecOn with
  | nil => simp [textsSent, sinceClose]
  | append_singleton ns n ih =>
    rw [exists_split_concat_iff, ← ih]
    by_cases huri : n.uri = uri
    · cases hclose : n.isClose with
      | true =>
        have htext : n.text? = none := by
          cases n with
          | closed => rfl
          | opened | changed => cases hclose
        simp [textsSent_of_isClose huri hclose, huri, htext]
      | false =>
        rw [textsSent_of_not_isClose huri hclose]
        cases htext : n.text? <;> simp [huri]
    · simp [textsSent_of_ne huri, huri]

theorem isSome_ofSent_iff (texts : List String) :
    (OpenText.ofSent texts).isSome ↔ texts ≠ [] := by
  cases texts using List.reverseRecOn <;> simp [OpenText.ofSent]

theorem isCurrent_of_find? {s : Session} {uri : String} {ns : List Notification}
    (h : s.find? uri = OpenText.ofSent (textsSent uri ns)) : s.IsCurrent uri ns where
  isOpen_iff := by rw [h, isSome_ofSent_iff, textsSent_ne_nil_iff]; simp only [and_assoc]
  text_eq := by rw [h]; simp [OpenText.ofSent, Function.comp_def]
  lastGood_eq := by rw [h, bind_lastGood_ofSent, goodDocuments]
  lastGood_of_isOk t ht hok := by
    rw [h] at ht
    cases htexts : textsSent uri ns using List.reverseRecOn with
    | nil => rw [htexts] at ht; cases ht
    | append_singleton texts text =>
      rw [htexts, ofSent_concat, Option.some_inj] at ht
      subst ht
      exact if_pos hok

/-- **What is kept of a text, and every answer about it, depends on what is told about that text
alone.**  A session that has received any notifications is current for every name, and answers as
if it had received no others than those about the name that it is asked for. -/
theorem isCurrent_receiveAll (options : Options Float) (ns : List Notification) (uri : String) :
    let s := ({ options } : Session).receiveAll ns
    let own := ({ options } : Session).receiveAll (ns.filter fun n => n.uri = uri)
    s.IsCurrent uri ns ∧ s.find? uri = own.find? uri ∧
      (∀ p, s.completions uri p = own.completions uri p) ∧
      (∀ p, s.hover? uri p = own.hover? uri p) ∧
      s.outline uri = own.outline uri ∧ s.formatEdits? uri = own.formatEdits? uri := by
  intro s own
  have hfind : s.find? uri = OpenText.ofSent (textsSent uri ns) := Session.find?_receiveAll ..
  have hsame : s.find? uri = own.find? uri := by
    rw [hfind, Session.find?_receiveAll, textsSent_filter]
  have hoptions : s.options = own.options := by
    rw [Session.options_receiveAll, Session.options_receiveAll]
  refine ⟨isCurrent_of_find? hfind, hsame, fun p => ?_, fun p => ?_, ?_, ?_⟩
  · rw [Session.completions, Session.completions, hsame]
  · rw [Session.hover?, Session.hover?, hsame, hoptions]
  · rw [Session.outline, Session.outline, hsame]
  · rw [Session.formatEdits?, Session.formatEdits?, hsame]

/-- Two texts by turns: one is broken by its last change, the other is closed. -/
theorem isCurrent_receiveAll_turns :
    let ns : List Notification := [.opened "x" "a", .opened "y" "b", .changed "x" ["c", "a -> b"],
      .changed "y" [], .changed "x" ["a ->"], .closed "y", .changed "x" []]
    let s := ({} : Session).receiveAll ns
    (s.find? "x").map OpenText.text = some "a ->" ∧
      ((s.find? "x").bind OpenText.lastGood).map (fun d => d.nodes.map Node.id) =
        some ["b", "a"] ∧
      (s.find? "y").isNone ∧ s.IsCurrent "x" ns ∧ s.IsCurrent "y" ns := by
  intro ns s
  exact ⟨by decide +kernel, by decide +kernel, by decide +kernel,
    (isCurrent_receiveAll .default ns "x").1, (isCurrent_receiveAll .default ns "y").1⟩

end Diagram.Editor
