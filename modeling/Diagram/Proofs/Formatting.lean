import Diagram.Document.Format
import Diagram.Proofs.Parsed
import Diagram.Proofs.Spacing

/-!
# Formatting

The formatted text has the same header as the text, and it is read as the statements that
were read from the text, without the free arrows that set nothing, and with every number
as it is read from the text written for it.
-/

namespace Diagram

open Syntax

/-! ## Lines -/

@[simp] theorem linesOf_ne_nil (s : List Char) : linesOf s ≠ [] := by
  cases s with
  | nil => simp [linesOf]
  | cons c cs =>
    rw [linesOf]
    split
    · simp
    · split <;> simp

theorem linesOf_append {line : List Char} (h : '\n' ∉ line) (s : List Char) :
    linesOf (line ++ '\n' :: s) = line :: linesOf s := by
  induction line with
  | nil => simp [linesOf]
  | cons c line ih =>
    obtain ⟨hc, hline⟩ : c ≠ '\n' ∧ '\n' ∉ line := by
      simpa [eq_comm] using h
    rw [List.cons_append, linesOf, if_neg hc, ih hline]

/-- There is no line feed in a line. -/
theorem newline_notMem_of_mem_linesOf {s line : List Char} (h : line ∈ linesOf s) :
    '\n' ∉ line := by
  induction s generalizing line with
  | nil =>
    rw [linesOf, List.mem_singleton] at h
    rw [h]
    exact List.not_mem_nil
  | cons c cs ih =>
    rw [linesOf] at h
    split at h
    · rcases List.mem_cons.mp h with rfl | h
      · exact List.not_mem_nil
      · exact ih h
    · next hc =>
      split at h
      · rw [List.mem_singleton] at h
        simpa [h] using Ne.symm hc
      · next l ls hlines =>
        rcases List.mem_cons.mp h with rfl | h
        · have hl : '\n' ∉ l := ih (by rw [hlines]; exact List.mem_cons_self)
          simpa [hl] using Ne.symm hc
        · exact ih (by rw [hlines]; exact List.mem_cons_of_mem l h)

/-! ## Trimming -/

theorem trimBlank_of_blank {c : Char} (h : isBlank c) (line : List Char) :
    trimBlank (c :: line) = trimBlank line := by
  rw [trimBlank, trimBlank, List.dropWhile_cons_of_pos h]

/-- What starts with no white space keeps its first character. -/
theorem trimBlank_of_not_blank {c : Char} (h : isBlank c = false) (line : List Char) :
    ∃ rest, trimBlank (c :: line) = c :: rest := by
  have hc : ¬ isBlank c = true := by simp [h]
  rw [trimBlank, List.dropWhile_cons_of_neg hc, List.reverse_cons, List.dropWhile_append]
  split
  · exact ⟨[], by simp [h]⟩
  · exact ⟨(line.reverse.dropWhile isBlank).reverse, by simp⟩

/-- Trimming only drops characters. -/
theorem mem_of_mem_trimBlank {c : Char} {line : List Char} (h : c ∈ trimBlank line) : c ∈ line := by
  rw [trimBlank, List.mem_reverse] at h
  have hinner := (List.dropWhile_suffix isBlank).subset h
  exact (List.dropWhile_suffix isBlank).subset (List.mem_reverse.mp hinner)

/-- A trimmed line stays as it is. -/
@[simp] theorem trimBlank_trimBlank (line : List Char) :
    trimBlank (trimBlank line) = trimBlank line := by
  have hstop := stopsAt_dropWhile isBlank (line.dropWhile isBlank).reverse
  have hfront : StopsAt isBlank (trimBlank line) := by
    have hline := stopsAt_dropWhile isBlank line
    rw [trimBlank]
    cases hs : line.dropWhile isBlank with
    | nil => rfl
    | cons c rest =>
      rw [hs, stopsAt_cons] at hline
      obtain ⟨tail, htail⟩ := trimBlank_of_not_blank hline rest
      rw [trimBlank, List.dropWhile_cons_of_neg (by simp [hline])] at htail
      rw [htail, stopsAt_cons]
      exact hline
  rw [trimBlank, dropWhile_of_stopsAt hfront, trimBlank, List.reverse_reverse,
    dropWhile_of_stopsAt hstop]

/-! ## Headers -/

/-- The lines of a text that are not empty, trimmed. -/
def textLines (s : List Char) : List (List Char) :=
  ((linesOf s).map trimBlank).filter (fun l => !l.isEmpty)

theorem headerLines_eq (text : String) :
    headerLines text = (textLines text.toList).takeWhile (fun l => l.head? = some '#') := rfl

/-- A line that can be part of a header: a trimmed comment. -/
structure IsComment (line : List Char) : Prop where
  head : line.head? = some '#'
  newline : '\n' ∉ line
  trimmed : trimBlank line = line

theorem isComment_of_mem_headerLines {text : String} {line : List Char}
    (h : line ∈ headerLines text) : IsComment line := by
  rw [headerLines_eq] at h
  have hhead : line.head? = some '#' := by
    simpa using List.all_eq_true.mp List.all_takeWhile line h
  obtain ⟨hline, -⟩ := List.mem_filter.mp ((List.takeWhile_sublist _).subset h)
  obtain ⟨l, hl, rfl⟩ := List.mem_map.mp hline
  refine ⟨hhead, ?_, trimBlank_trimBlank l⟩
  exact fun hnewline => newline_notMem_of_mem_linesOf hl (mem_of_mem_trimBlank hnewline)

/-- Some lines, each with a line feed behind it. -/
def joinLines (lines : List (List Char)) : List Char := lines.flatMap (fun l => l ++ ['\n'])

theorem textLines_joinLines {lines : List (List Char)} (h : ∀ l ∈ lines, IsComment l)
    (s : List Char) : textLines (joinLines lines ++ s) = lines ++ textLines s := by
  induction lines with
  | nil => rfl
  | cons l ls ih =>
    have hl := h l List.mem_cons_self
    have hmore := ih fun k hk => h k (List.mem_cons_of_mem l hk)
    have hne : l.isEmpty = false := by
      cases hempty : l with
      | nil =>
        have hhead := hl.head
        rw [hempty] at hhead
        cases hhead
      | cons c cs => rfl
    have hcut : joinLines (l :: ls) ++ s = l ++ '\n' :: (joinLines ls ++ s) := by
      simp [joinLines]
    rw [hcut, textLines, linesOf_append hl.newline, List.map_cons, hl.trimmed, List.filter_cons,
      hne, List.cons_append, ← hmore]
    rfl

/-- The first line of a text that is not empty starts with the first character that is no
white space. -/
theorem head_textLines (s : List Char) :
    (textLines s).head?.bind List.head? = (s.dropWhile isBlank).head? := by
  induction s with
  | nil => rfl
  | cons c cs ih =>
    have hskip : isBlank c → textLines (c :: cs) = textLines cs := by
      intro hc
      rw [textLines, textLines, linesOf]
      split
      · rw [List.map_cons, List.filter_cons_of_neg (by simp [trimBlank])]
      · obtain ⟨l, ls, hlines⟩ := List.exists_cons_of_ne_nil (linesOf_ne_nil cs)
        rw [hlines]
        simp only [List.map_cons, trimBlank_of_blank hc]
    by_cases hc : isBlank c
    · rw [hskip hc, ih, List.dropWhile_cons_of_pos hc]
    · have hnewline : c ≠ '\n' := by
        rintro rfl
        exact hc (by decide)
      obtain ⟨l, ls, hlines⟩ := List.exists_cons_of_ne_nil (linesOf_ne_nil cs)
      obtain ⟨rest, hrest⟩ := trimBlank_of_not_blank (Bool.eq_false_iff.mpr hc) l
      rw [textLines, linesOf, if_neg hnewline, hlines, List.dropWhile_cons_of_neg hc]
      simp [hrest]

/-- A text whose first character, apart from white space, starts no comment. -/
def IsPlain (s : List Char) : Prop := (s.dropWhile isBlank).head? ≠ some '#'

theorem headerLines_of_isPlain {text : String} (h : IsPlain text.toList) :
    headerLines text = [] := by
  rw [headerLines_eq]
  have hhead := head_textLines text.toList
  cases hlines : textLines text.toList with
  | nil => rfl
  | cons l ls =>
    rw [hlines] at hhead
    have hl : l.head? ≠ some '#' := by
      intro hsharp
      exact h (hhead ▸ hsharp)
    exact List.takeWhile_cons_of_neg (by simpa using hl)

theorem toList_header (text : String) : (header text).toList = joinLines (headerLines text) :=
  String.toList_ofList

/-- **The header of a header and a text behind it is the header.** -/
theorem header_append {text body : String} (h : IsPlain body.toList) :
    header (header text ++ body) = header text := by
  have hlines : headerLines (header text ++ body) = headerLines text := by
    have hnone := headerLines_of_isPlain h
    rw [headerLines_eq] at hnone ⊢
    have hall : ∀ l ∈ headerLines text, l.head? = some '#' :=
      fun l hl => (isComment_of_mem_headerLines hl).head
    rw [String.toList_append, toList_header,
      textLines_joinLines fun l hl => isComment_of_mem_headerLines hl,
      List.takeWhile_append_of_pos (by simpa using hall), hnone, List.append_nil]
  apply String.toList_inj.mp
  rw [toList_header, toList_header, hlines]

/-- A header in front of a text adds no tokens. -/
theorem reads_header (text : String) {s : List Char} {ls : List Lexeme} (h : Reads false s ls) :
    Reads false ((header text).toList ++ s) ls := by
  have hlines : ∀ lines : List (List Char), (∀ l ∈ lines, IsComment l) →
      Reads false (joinLines lines ++ s) ls := by
    intro lines
    induction lines with
    | nil => exact fun _ => h
    | cons l lines ih =>
      intro hall
      have hl := hall l List.mem_cons_self
      have hmore := ih fun k hk => hall k (List.mem_cons_of_mem l hk)
      obtain ⟨c, line, rfl⟩ : ∃ c line, l = c :: line := by
        refine List.exists_cons_of_ne_nil ?_
        rintro rfl
        cases hl.head
      obtain rfl : c = '#' := Option.some.inj hl.head
      have hline : '\n' ∉ line := fun hmem => hl.newline (List.mem_cons_of_mem _ hmem)
      have hcomment := Reads.comment hline ((stopsAt_cons (· ≠ '\n') '\n' _).mpr (by decide))
        hmore.newline
      simpa [joinLines] using hcomment
  rw [toList_header]
  exact hlines _ fun l hl => isComment_of_mem_headerLines hl

/-! ## Texts of statements -/

variable {α : Type} [Scalar α] {s : List Char}

theorem IsPlain.blank {c : Char} (hc : isBlank c) (h : IsPlain s) : IsPlain (c :: s) := by
  rwa [IsPlain, List.dropWhile_cons_of_pos hc]

theorem isPlain_cons {c : Char} (hc : isBlank c = false) (hsharp : c ≠ '#') : IsPlain (c :: s) := by
  rw [IsPlain, List.dropWhile_cons_of_neg (by simp [hc])]
  simpa using hsharp

theorem isPlain_word {w : String} (h : IsWord w) : IsPlain (w.toList ++ s) := by
  have hname : isName w.toList := h.1
  cases hw : w.toList with
  | nil =>
    rw [hw] at hname
    cases hname
  | cons c cs =>
    rw [hw, isName, Bool.and_eq_true] at hname
    have hc := isNameChar_of_isNameStart hname.1
    exact isPlain_cons (not_isBlank_of_isNameChar hc) (ne_of_isNameChar hc (by decide))

theorem isPlain_id {id : String} (h : IsNodeId id) : IsPlain (id.toList ++ s) := by
  rcases h with hword | ⟨head, member, hhead, -, rfl⟩
  · exact isPlain_word hword
  · simpa using isPlain_word hhead

theorem IsPlain.indent (depth : Nat) (h : IsPlain s) :
    IsPlain ((indentation depth).toList ++ s) := by
  rw [indentation, String.toList_ofList]
  induction 2 * depth with
  | zero => exact h
  | succ n ih => exact ih.blank (by decide)

/-- The line of a statement starts no comment. -/
theorem isPlain_render {st : Statement α} (hw : st.HasWords) (depth : Nat) (h : IsPlain s) :
    IsPlain ((Statement.render depth st).toList ++ s) := by
  cases st with
  | node n =>
    have hid (rest : List Char) : IsPlain (n.id.toList ++ rest) := isPlain_id hw
    simpa [Statement.render, Node.render] using (hid _).indent depth
  | edge e =>
    have hid (rest : List Char) : IsPlain (e.source.toList ++ rest) := isPlain_id hw.1
    simpa [Statement.render, Edge.render] using (hid _).indent depth
  | group id style children =>
    have hgroup (rest : List Char) : IsPlain ('g' :: rest) := isPlain_cons (by decide) (by decide)
    simpa [Statement.render] using (hgroup _).indent depth
  | layout name =>
    have hlayout (rest : List Char) : IsPlain ('@' :: rest) := isPlain_cons (by decide) (by decide)
    simpa [Statement.render] using (hlayout _).indent depth
  | freeArrow style =>
    rw [Statement.render]
    split
    · exact h
    · have harrow (rest : List Char) : IsPlain ('a' :: rest) := isPlain_cons (by decide) (by decide)
      simpa using (harrow _).indent depth

/-- The text of statements starts with no comment. -/
theorem isPlain_renderAll {ss : List (Statement α)}
    (hw : ∀ s ∈ Statement.flattenAll ss, s.HasWords) (depth : Nat) (previous : Option String) :
    IsPlain (Statement.renderAll depth previous ss).toList := by
  induction ss generalizing previous with
  | nil => simp [Statement.renderAll, IsPlain]
  | cons st ss ih =>
    have hself : st ∈ Statement.flattenAll (st :: ss) := by
      cases st <;> simp [Statement.flattenAll, Statement.flatten]
    have hmore := ih (fun r hr => hw r (by simp [Statement.flattenAll, hr])) (some st.kindName)
    have hfirst := isPlain_render (hw st hself) depth hmore
    rw [renderAll_cons, gapText]
    split
    · simpa using hfirst.blank (c := '\n') (by decide)
    · simpa using hfirst

/-! ## Formatted texts -/

/-- A text behind a header, with an empty line between when there are both. -/
def withHeader (top body : String) : String :=
  top ++ (if top.isEmpty || body.isEmpty then "" else "\n") ++ body

/-- A text behind a header is plain, with the empty line as well. -/
theorem withHeader_eq (top : String) {body : String} (h : IsPlain body.toList) :
    ∃ rest, withHeader top body = top ++ rest ∧ IsPlain rest.toList ∧
      ∀ {ls : List Lexeme}, Reads false body.toList ls → Reads false rest.toList ls := by
  rw [withHeader]
  split
  · exact ⟨body, by simp, h, fun hreads => hreads⟩
  · refine ⟨"\n" ++ body, by rw [String.append_assoc], ?_, fun hreads => ?_⟩
    · simpa using h.blank (c := '\n') (by decide)
    · simpa using hreads.newline

/-- Different texts are different behind a header. -/
theorem withHeader_inj {top a b : String} (h : withHeader top a = withHeader top b) : a = b := by
  rw [withHeader, withHeader, String.append_assoc, String.append_assoc] at h
  have hcut := (String.append_right_inj top).mp h
  have hnewline : "\n".length = 1 := rfl
  by_cases htop : top.isEmpty
  · simpa [htop] using hcut
  · by_cases ha : a.isEmpty <;> by_cases hb : b.isEmpty
    · rw [String.isEmpty_iff.mp ha, String.isEmpty_iff.mp hb]
    · obtain rfl := String.isEmpty_iff.mp ha
      have hlength := congrArg String.length hcut
      simp [htop, hb] at hlength
      omega
    · obtain rfl := String.isEmpty_iff.mp hb
      have hlength := congrArg String.length hcut
      simp [htop, ha] at hlength
    · simpa [htop, ha, hb] using hcut

/-! ## The document of a formatted text -/

section Format

variable {text t : String}

/-- A text without errors is formatted to its header and the text of its document. -/
theorem format_eq (h : (Document.ofText text : Document α).errors = []) :
    format α text = .ok (withHeader (header text) (Document.ofText text : Document α).render) := by
  simp only [format, Document.isOk, h, List.isEmpty_nil, if_true]
  rfl

theorem format_eq_ok (h : format α text = .ok t) :
    (Document.ofText text : Document α).errors = [] ∧
      t = withHeader (header text) (Document.ofText text : Document α).render := by
  have herrors : (Document.ofText text : Document α).errors = [] := by
    by_contra hne
    simp [format, Document.isOk, hne] at h
  rw [format_eq herrors] at h
  exact ⟨herrors, (Except.ok.inj h).symm⟩

/-- The statements of a text without errors can be written. -/
theorem areWritable_ofText (h : (Document.ofText text : Document α).errors = []) :
    Statement.AreWritable (Document.ofText text : Document α).statements ∧
      ∀ s ∈ (Document.ofText text : Document α).flatten, s.HasLiterals := by
  obtain ⟨hissues, hstatements⟩ := ofText_of_ok h
  obtain ⟨hfit, hproper⟩ := isFitting_of_parse hissues
  rw [Document.flatten, hstatements]
  exact ⟨areWritable_statementsOf hfit hproper, hasLiterals_statementsOf hfit⟩

/-- **The formatted text is read as the statements of the text, pruned, and with every number
as it is read from the text written for it.** -/
theorem ofText_of_format (h : format α text = .ok t) : Document.ofText t =
    ⟨Statement.mapNumbersAll Scalar.reread
      (Statement.pruneAll (Document.ofText text : Document α).statements), []⟩ := by
  obtain ⟨herrors, rfl⟩ := format_eq_ok h
  obtain ⟨hwritable, hliterals⟩ := areWritable_ofText herrors
  have hplain := isPlain_renderAll hwritable.words 0 none
  obtain ⟨rest, hrest, -, hreads⟩ := withHeader_eq (header text) hplain
  have hbody : Reads false (Document.ofText text : Document α).render.toList
      (lexemesAll (Statement.treeAll (Document.ofText text : Document α).statements)) := by
    simpa [Document.render] using reads_renderAll 0 none _ hwritable.words .nil
  rw [Document.render, hrest, ← rereadAll_eq _ hliterals]
  refine Document.ofText_eq_rereadAll hwritable ?_
  rw [String.toList_append]
  exact reads_header text (hreads hbody)

/-- **The formatted text has the header of the text.** -/
theorem header_of_format (h : format α text = .ok t) : header t = header text := by
  obtain ⟨herrors, rfl⟩ := format_eq_ok h
  have hplain := isPlain_renderAll (areWritable_ofText herrors).1.words 0 none
  obtain ⟨rest, hrest, hplain', -⟩ := withHeader_eq (header text) hplain
  rw [Document.render, hrest]
  exact header_append hplain'

end Format

/-! ## Formatting twice -/

section Twice

variable {text t : String}

/-- A second pass writes the statements that the first one was made of, pruned. -/
theorem format_of_format (h : format Float text = .ok t) : format Float t =
    .ok (withHeader (header text) (Statement.renderAll 0 none
      (Statement.pruneAll (Document.ofText text : Document Float).statements))) := by
  have hdocument := ofText_of_format h
  have herrors : (Document.ofText t : Document Float).errors = [] := by rw [hdocument]
  rw [format_eq herrors, header_of_format h, hdocument, Document.render,
    renderAll_mapNumbersAll numberText_reread]

/-- **Formatting twice.**  The second pass always succeeds and a third changes nothing.  The
second pass changes nothing exactly when every free arrow without recognised properties
stands next to another free arrow, or alone in its block. -/
theorem format_format_iff (h : format Float text = .ok t) :
    ∃ t', format Float t = .ok t' ∧ format Float t' = .ok t' ∧
      (t' = t ↔ Statement.AreSpaced none (Document.ofText text : Document Float).statements) := by
  have hsecond := format_of_format h
  refine ⟨_, hsecond, ?_, ?_⟩
  · rw [format_of_format hsecond, header_of_format h, ofText_of_format h]
    simp only [pruneAll_mapNumbersAll_pruneAll, renderAll_mapNumbersAll numberText_reread]
  · have hspaced (ss : List (Statement Float)) :
        Statement.renderAll 0 none (Statement.pruneAll ss) = Statement.renderAll 0 none ss ↔
          Statement.AreSpaced none ss := renderAll_pruneAll_iff
    rw [(format_eq_ok h).2, ← hspaced]
    exact ⟨withHeader_inj, congrArg _⟩

/-- A free arrow that sets nothing leaves two empty lines between two nodes. -/
theorem format_format_iff_silent :
    format Float "a\narrow(bogus: 1)\nb" = .ok "a\n\n\nb\n" ∧
      ∃ t', format Float "a\n\n\nb\n" = .ok t' ∧ format Float t' = .ok t' ∧
        (t' = "a\n\n\nb\n" ↔ Statement.AreSpaced none
          (Document.ofText "a\narrow(bogus: 1)\nb" : Document Float).statements) := by
  have h : format Float "a\narrow(bogus: 1)\nb" = .ok "a\n\n\nb\n" := by decide +kernel
  exact ⟨h, format_format_iff h⟩

end Twice

/-! ## The meaning of a formatted text -/

/-- **Formatting keeps everything but numbers.**  A text without errors is formatted to a text
without errors, whose statements are those of the text without the free arrows that set
nothing, and with the same values, apart from numbers.  The numbers are the same, too, apart
from the sign of a zero, exactly when each of them is at most `2 ^ 63`. -/
theorem format_keeps_iff {text : String}
    (h : (Document.ofText text : Document Float).errors = []) :
    ∃ t, format Float text = .ok t ∧
      Document.ofText t = ⟨Statement.mapNumbersAll Scalar.reread
        (Statement.pruneAll (Document.ofText text : Document Float).statements), []⟩ ∧
      ((Document.ofText t : Document Float).statements = Statement.mapNumbersAll Scalar.unsigned
          (Statement.pruneAll (Document.ofText text : Document Float).statements) ↔
        Statement.AllNumbers (fun v => (Scalar.nearest v).natAbs ≤ 2 ^ 63)
          (Document.ofText text : Document Float).statements) := by
  have hformat := format_eq h
  have hdocument := ofText_of_format hformat
  refine ⟨_, hformat, hdocument, ?_⟩
  obtain ⟨hissues, hstatements⟩ := ofText_of_ok h
  have hwhole := allNumbers_statementsOf (α := Float) (isFitting_of_parse hissues).1
  rw [← hstatements] at hwhole
  rw [hdocument, mapNumbersAll_eq_iff, allNumbers_pruneAll]
  refine forall₂_congr fun s hs => forall₃_congr fun k v hv => ?_
  obtain ⟨n, rfl⟩ := hwhole s hs k v hv
  exact reread_scalar_iff n

theorem format_keeps_iff_large :
    (Document.ofText "a(rect, x: 10000000000000000000)" : Document Float).errors = [] ∧
      ∃ t, format Float "a(rect, x: 10000000000000000000)" = .ok t ∧
        Document.ofText t = ⟨Statement.mapNumbersAll Scalar.reread (Statement.pruneAll
          (Document.ofText "a(rect, x: 10000000000000000000)" : Document Float).statements), []⟩ ∧
        ((Document.ofText t : Document Float).statements = Statement.mapNumbersAll Scalar.unsigned
            (Statement.pruneAll
              (Document.ofText "a(rect, x: 10000000000000000000)" : Document Float).statements) ↔
          Statement.AllNumbers (fun v => (Scalar.nearest v).natAbs ≤ 2 ^ 63)
            (Document.ofText "a(rect, x: 10000000000000000000)" : Document Float).statements) := by
  have h : (Document.ofText "a(rect, x: 10000000000000000000)" : Document Float).errors = [] := by
    decide +kernel
  exact ⟨h, format_keeps_iff h⟩

end Diagram
