import Mathlib.Logic.Relation
import Diagram.Proofs.Layers

/-!
# Breaking cycles

The depth-first search is also a machine with a stack: it holds the vertices the search is busy
with, each with those of its edges that are still to be followed, and every step follows one edge,
finishes one vertex or starts from another one.  The machine comes to a halt with what the recursive
search finds, so the bound on the length of paths that the recursion carries is never reached.

The edges that are turned around leave no cycle, since every edge then leads to a higher layer.  And
an edge is turned around only where it closes a cycle: it leads to a vertex on the stack, and from
there the stack is a path back to where the edge comes from.
-/

namespace Diagram

open Relation

variable {arcs : List Arc} {n : Nat}

/-! ## Cycles -/

/-- An edge leads from one vertex to another one; loops are left out. -/
def Leads (arcs : List Arc) (u v : Nat) : Prop := (u, v) ∈ arcs ∧ u ≠ v

/-- No path of edges, loops apart, leads back to where it starts. -/
def IsAcyclic (arcs : List Arc) : Prop := ∀ v, ¬ TransGen (Leads arcs) v v

/-- A graph along whose edges a number grows has no cycle. -/
theorem isAcyclic_of_lt (f : Nat → Nat) (h : ∀ u v, Leads arcs u v → f u < f v) :
    IsAcyclic arcs := by
  have hlt : ∀ u v, TransGen (Leads arcs) u v → f u < f v := by
    intro u v huv
    induction huv with
    | single huv => exact h _ _ huv
    | tail _ hvw ih => exact lt_trans ih (h _ _ hvw)
  exact fun v hv => lt_irrefl _ (hlt v v hv)

/-- **Turning edges around leaves no cycle.** -/
theorem isAcyclic_reoriented (harcs : ∀ arc ∈ arcs, arc.1 < n ∧ arc.2 < n) :
    IsAcyclic (reoriented arcs (search n arcs).reversed) :=
  isAcyclic_of_lt (fun v => (assignLayers n arcs).1.getD v 0) fun u v huv =>
    (assignLayers_lt harcs).2 u v huv.1 huv.2

/-! ## The machine -/

/-- A depth-first search with a stack. -/
structure Walker where
  /-- The vertices the search is busy with and the edges out of each that are still to be followed,
  the latest vertex first. -/
  stack : List (Nat × List (Nat × Nat)) := []
  /-- The vertices it has finished, the latest first. -/
  finished : List Nat := []
  /-- The positions of the edges that lead back. -/
  reversed : List Nat := []
  /-- The vertices from which it has still to start. -/
  roots : List Nat

namespace Walker

/-- One step: an edge is followed, a vertex is finished, or the search starts from another vertex.
There is no step when nothing is left to do. -/
def next (arcs : List Arc) (m : Walker) : Option Walker :=
  match m.stack, m.roots with
  | [], [] => none
  | [], r :: roots =>
    if m.finished.contains r then some { m with roots := roots }
    else some { m with stack := [(r, outgoing arcs r)], roots := roots }
  | (v, []) :: below, _ => some { m with stack := below, finished := v :: m.finished }
  | (v, (w, e) :: todo) :: below, _ =>
    let stack := (v, todo) :: below
    if m.finished.contains w then some { m with stack := stack }
    else if (stack.map Prod.fst).contains w then
      some { m with stack := stack, reversed := e :: m.reversed }
    else some { m with stack := (w, outgoing arcs w) :: stack }

/-- The machine gets from one state to another in some number of steps. -/
abbrev Reaches (arcs : List Arc) : Walker → Walker → Prop :=
  ReflTransGen fun m m' => m.next arcs = some m'

/-- The machine with the results of a search. -/
def ofSearch (stack : List (Nat × List (Nat × Nat))) (roots : List Nat) (st : Search) : Walker :=
  ⟨stack, st.finished, st.reversed, roots⟩

/-! ## Runs of the machine -/

/-- What a loop has still to do, before and after a step. -/
theorem drop_done {β : Type} {xs done todo : List β} {x : β} (h : xs = done ++ x :: todo) :
    xs.drop done.length = x :: todo ∧ xs.drop (done ++ [x]).length = todo := by
  have hdrop : xs.drop done.length = x :: todo := by rw [h, List.drop_left]
  refine ⟨hdrop, ?_⟩
  rw [List.length_append, ← List.drop_drop, hdrop]
  rfl

section

variable {st : Search} {v : Nat} {stack : List (Nat × List (Nat × Nat))}

/-- The machine follows an edge as the search does, if it visits vertices as the search does. -/
theorem reaches_follow {fuel : Nat} {todo : List (Nat × Nat)} {w e : Nat} (roots : List Nat)
    (hstack : ((v, todo) :: stack).map Prod.fst = st.active)
    (hvisit : w ∉ st.seen → Reaches arcs
      (ofSearch ((w, outgoing arcs w) :: (v, todo) :: stack) roots st)
      (ofSearch ((v, todo) :: stack) roots (visit arcs fuel w st))) :
    Reaches arcs (ofSearch ((v, (w, e) :: todo) :: stack) roots st)
      (ofSearch ((v, todo) :: stack) roots (Search.follow arcs fuel st (w, e))) := by
  unfold Search.follow
  split
  · next hw =>
    refine .single ?_
    simp only [next, ofSearch, hw, ↓reduceIte]
  · next hw =>
    split
    · next hw' =>
      refine .single ?_
      simp only [next, ofSearch, hw, hstack, hw', Bool.false_eq_true, ↓reduceIte]
    · next hw' =>
      refine .head (b := ofSearch ((w, outgoing arcs w) :: (v, todo) :: stack) roots st) ?_ ?_
      · simp only [next, ofSearch, hw, hstack, hw', Bool.false_eq_true, ↓reduceIte]
      · refine hvisit (List.mem_append.not.mpr (not_or.mpr ⟨?_, ?_⟩))
        · simpa using hw'
        · simpa using hw

/-- **A visit is a run of the machine**: it works off the edges of a new vertex and takes it from
the stack. -/
theorem reaches_visit (harcs : ∀ arc ∈ arcs, arc.2 < n) (roots : List Nat) {fuel : Nat}
    (h : Search.Holds n arcs st) (hv : v < n) (hnew : v ∉ st.seen)
    (hfuel : n ≤ fuel + st.active.length) (hstack : stack.map Prod.fst = st.active) :
    Reaches arcs (ofSearch ((v, outgoing arcs v) :: stack) roots st)
      (ofSearch stack roots (visit arcs fuel v st)) := by
  induction fuel generalizing v st stack with
  | zero =>
    have hlt := h.length_seen_lt hv hnew
    rw [Search.seen, List.length_append] at hlt
    omega
  | succ fuel ih =>
    -- The edges that are left on the stack are those that the loop has not come to.
    obtain ⟨-, hrun⟩ : Search.Follows n arcs v st (outgoing arcs v)
          ((outgoing arcs v).foldl (Search.follow arcs fuel) { st with active := v :: st.active }) ∧
        Reaches arcs (ofSearch ((v, outgoing arcs v) :: stack) roots st)
          (ofSearch ((v, (outgoing arcs v).drop (outgoing arcs v).length) :: stack) roots
            ((outgoing arcs v).foldl (Search.follow arcs fuel)
              { st with active := v :: st.active })) := by
      refine foldl_done (P := fun done st' => Search.Follows n arcs v st done st' ∧
        Reaches arcs (ofSearch ((v, outgoing arcs v) :: stack) roots st)
          (ofSearch ((v, (outgoing arcs v).drop done.length) :: stack) roots st'))
        (outgoing arcs v) ?_ ⟨.start h hv hnew, .refl⟩
      rintro done ⟨w, e⟩ todo st' hout ⟨hfollows, hrun⟩
      have hw : w < n := by
        have hmem : (w, e) ∈ outgoing arcs v := by simp [hout]
        exact harcs _ (List.mem_of_getElem? (mem_outgoing.mp hmem).1)
      refine ⟨hfollows.follow_next harcs (Search.holds_visit harcs) hout hfuel, hrun.trans ?_⟩
      obtain ⟨hdrop, hdrop'⟩ := drop_done hout
      rw [hdrop, hdrop']
      have hactive : ((v, todo) :: stack).map Prod.fst = st'.active := by
        rw [hfollows.active, List.map_cons, hstack]
      refine reaches_follow roots hactive fun hnew' => ih hfollows.holds hw hnew' ?_ hactive
      rw [hfollows.active, List.length_cons]
      omega
    rw [Search.visit_succ]
    refine hrun.tail ?_
    rw [List.drop_length]
    rfl

/-- **The machine halts** with what the search finds. -/
theorem reaches_search (harcs : ∀ arc ∈ arcs, arc.2 < n) :
    Reaches arcs { roots := List.range n } (ofSearch [] [] (search n arcs)) := by
  obtain ⟨-, -, hrun⟩ : Search.Holds n arcs (search n arcs) ∧ (search n arcs).active = [] ∧
      Reaches arcs { roots := List.range n }
        (ofSearch [] ((List.range n).drop (List.range n).length) (search n arcs)) := by
    -- By induction on the roots that are done: the machine has come to the state of the search.
    refine foldl_done (P := fun done st => Search.Holds n arcs st ∧ st.active = [] ∧
      Reaches arcs { roots := List.range n } (ofSearch [] ((List.range n).drop done.length) st))
      (List.range n) ?_ ⟨Search.holds_empty n arcs, rfl, .refl⟩
    rintro done v todo st hrange ⟨hholds, hactive, hrun⟩
    have hv : v < n := List.mem_range.mp (by simp [hrange])
    obtain ⟨hdrop, hdrop'⟩ := drop_done hrange
    rw [hdrop] at hrun
    rw [hdrop']
    split
    · next hmem =>
      refine ⟨hholds, hactive, hrun.tail ?_⟩
      simp only [next, ofSearch, hmem, ↓reduceIte]
    · next hmem =>
      have hnew : v ∉ st.seen := by
        rw [Search.seen, hactive, List.nil_append, ← List.contains_iff_mem]
        exact hmem
      have hfuel : n ≤ n + 1 + st.active.length := by omega
      obtain ⟨hholds', hgrows, -⟩ := Search.holds_visit harcs hholds hv hnew hfuel
      refine ⟨hholds', hgrows.active.trans hactive, (hrun.tail ?_).trans
        (reaches_visit harcs todo hholds hv hnew hfuel (by rw [hactive]; rfl))⟩
      simp only [next, ofSearch, hmem, Bool.false_eq_true, ↓reduceIte]
  rwa [List.drop_length] at hrun

end

/-! ## The stack is a path -/

/-- What is true of the machine at all times: every vertex on the stack can be reached from those
below it, the edges to be followed are edges out of their vertices, and an edge that is turned
around closes a cycle. -/
structure IsOnPath (arcs : List Arc) (m : Walker) : Prop where
  path : m.stack.Pairwise fun above below => TransGen (Leads arcs) below.1 above.1
  todo : ∀ f ∈ m.stack, ∀ x ∈ f.2, arcs[x.2]? = some (f.1, x.1) ∧ x.1 ≠ f.1
  turned : ∀ e ∈ m.reversed, ∃ s t, arcs[e]? = some (s, t) ∧ Leads arcs s t ∧
    TransGen (Leads arcs) t s

variable {m m' : Walker}

theorem isOnPath_start (arcs : List Arc) (n : Nat) : IsOnPath arcs { roots := List.range n } where
  path := .nil
  todo := nofun
  turned := nofun

/-- **A step keeps the stack a path**, and turns around an edge only where it closes a cycle. -/
theorem isOnPath_next (h : IsOnPath arcs m) (hstep : m.next arcs = some m') : IsOnPath arcs m' := by
  obtain ⟨stack, finished, reversed, roots⟩ := m
  obtain ⟨hpath, htodo, hturned⟩ := h
  dsimp only at hpath htodo hturned
  match stack, roots, hstep with
  | [], r :: roots, hstep =>
    simp only [next] at hstep
    split at hstep <;> cases hstep
    · exact ⟨hpath, htodo, hturned⟩
    · exact ⟨List.pairwise_singleton _ _, by simpa using fun w e hx => mem_outgoing.mp hx, hturned⟩
  | (v, []) :: below, _, hstep =>
    cases hstep
    exact ⟨hpath.of_cons, fun f hf => htodo f (.tail _ hf), hturned⟩
  | (v, (w, e) :: todo) :: below, _, hstep =>
    obtain ⟨hbelow, hpath'⟩ := List.pairwise_cons.mp hpath
    obtain ⟨harc, hne⟩ := htodo _ List.mem_cons_self _ List.mem_cons_self
    have hleads : Leads arcs v w := ⟨List.mem_of_getElem? harc, hne.symm⟩
    have hkept : ∀ f ∈ (v, todo) :: below, ∀ x ∈ f.2, arcs[x.2]? = some (f.1, x.1) ∧ x.1 ≠ f.1 :=
      List.forall_mem_cons.mpr ⟨fun x hx => htodo _ List.mem_cons_self x (.tail _ hx),
        fun f hf => htodo f (.tail _ hf)⟩
    simp only [next] at hstep
    split at hstep
    · cases hstep
      exact ⟨List.pairwise_cons.mpr ⟨hbelow, hpath'⟩, hkept, hturned⟩
    · split at hstep
      · next hw =>
        cases hstep
        refine ⟨List.pairwise_cons.mpr ⟨hbelow, hpath'⟩, hkept,
          List.forall_mem_cons.mpr ⟨⟨v, w, harc, hleads, ?_⟩, hturned⟩⟩
        -- The target stands below the top of the stack, which is another vertex.
        rw [List.contains_iff_mem, List.map_cons, List.mem_cons] at hw
        obtain ⟨f, hf, rfl⟩ := List.mem_map.mp (hw.resolve_left hne)
        exact hbelow f hf
      · cases hstep
        refine ⟨List.pairwise_cons.mpr ⟨List.forall_mem_cons.mpr ⟨.single hleads, ?_⟩,
          List.pairwise_cons.mpr ⟨hbelow, hpath'⟩⟩, List.forall_mem_cons.mpr ⟨?_, hkept⟩, hturned⟩
        · exact fun f hf => (hbelow f hf).tail hleads
        · exact fun x hx => mem_outgoing.mp hx

/-- Every run keeps the stack a path. -/
theorem isOnPath_reaches (h : IsOnPath arcs m) (hrun : Reaches arcs m m') : IsOnPath arcs m' := by
  induction hrun with
  | refl => exact h
  | tail _ hstep ih => exact isOnPath_next ih hstep

end Walker

/-- **Only edges that close a cycle are turned around.** -/
theorem reversed_eq_nil (harcs : ∀ arc ∈ arcs, arc.2 < n) (h : IsAcyclic arcs) :
    (search n arcs).reversed = [] := by
  refine List.eq_nil_iff_forall_not_mem.mpr fun e he => ?_
  have hpath := Walker.isOnPath_reaches (Walker.isOnPath_start arcs n) (Walker.reaches_search harcs)
  obtain ⟨s, t, -, hst, hts⟩ := hpath.turned e he
  exact h s (.head hst hts)

/-- **The search breaks cycles.**  On every graph the machine that starts from all vertices in turn
comes to a halt with what the search finds; with the edges that it has found turned around the graph
has no cycle; and in a graph that has none it finds no edge to turn around. -/
theorem search_breaksCycles (harcs : ∀ arc ∈ arcs, arc.1 < n ∧ arc.2 < n) :
    Walker.Reaches arcs { roots := List.range n } (.ofSearch [] [] (search n arcs)) ∧
      IsAcyclic (reoriented arcs (search n arcs).reversed) ∧
      (IsAcyclic arcs → (search n arcs).reversed = []) :=
  ⟨Walker.reaches_search fun arc harc => (harcs arc harc).2, isAcyclic_reoriented harcs,
    reversed_eq_nil fun arc harc => (harcs arc harc).2⟩

/-- A triangle with a loop, of which the last edge is turned around, and a graph without cycles in
which no edge leads back although none leads on in the order of the numbers. -/
theorem search_breaksCycles_triangle :
    let triangle : List Arc := [(0, 1), (1, 1), (1, 2), (2, 0)]
    let descent : List Arc := [(2, 1), (2, 2), (1, 0), (2, 0)]
    (∀ arc ∈ triangle, arc.1 < 3 ∧ arc.2 < 3) ∧ (∀ arc ∈ descent, arc.1 < 3 ∧ arc.2 < 3) ∧
      Walker.Reaches triangle { roots := [0, 1, 2] } ⟨[], [0, 1, 2], [3], []⟩ ∧
      IsAcyclic [(0, 1), (1, 1), (1, 2), (0, 2)] ∧
      IsAcyclic descent ∧ (search 3 descent).reversed = [] := by
  intro triangle descent
  have htriangle : ∀ arc ∈ triangle, arc.1 < 3 ∧ arc.2 < 3 := by decide
  have hdescent : ∀ arc ∈ descent, arc.1 < 3 ∧ arc.2 < 3 := by decide
  have hacyclic : IsAcyclic descent := by
    have hfall : ∀ arc ∈ descent, arc.1 ≠ arc.2 → 2 - arc.1 < 2 - arc.2 := by decide
    exact isAcyclic_of_lt (2 - ·) fun u v huv => hfall (u, v) huv.1 huv.2
  obtain ⟨hrun, hbroken, -⟩ := search_breaksCycles htriangle
  obtain ⟨-, -, hnone⟩ := search_breaksCycles hdescent
  exact ⟨htriangle, hdescent, hrun, hbroken, hacyclic, hnone hacyclic⟩

end Diagram
