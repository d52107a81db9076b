import Mathlib.Data.List.GetD
import Mathlib.Logic.Relation
import Diagram.Proofs.Hops

/-!
# Spreading from a node

The rings around a node can be found with a queue, one node at a time.  The nodes in the queue are
in the order of their depths, and no node has a depth of more than one beyond any of them.  A node
that is found is never marked again, so the queue runs empty.  Then the depths are the numbers of
the rings, in whatever order the links at a node are gone through.
-/

namespace Diagram

open Relation

variable {links : List (Nat × Nat)} {root n : Nat}

/-! ## A queue -/

/-- A search with a queue: the depths of the nodes that have been found, and those among them whose
links have still to be gone through. -/
structure Spread where
  depths : List (Option Nat)
  queue : List Nat

namespace Spread

/-- The search before its first step. -/
def start (n root : Nat) : Spread := ⟨(List.replicate n none).set root (some 0), [root]⟩

/-- The depth of a node, if it has been found. -/
def depth (m : Spread) (v : Nat) : Option Nat := m.depths.getD v none

/-- Marks a node that has not been found yet, and puts it at the end of the queue. -/
def mark (d : Nat) (m : Spread) (v : Nat) : Spread :=
  if (m.depth v).isNone then ⟨m.depths.set v (some d), m.queue ++ [v]⟩ else m

/-- One step: the first node of the queue is taken out, and the nodes around it are marked.  There
is no step when the queue is empty. -/
def next (around : Nat → List Nat) (m : Spread) : Option Spread :=
  match m.queue with
  | [] => none
  | v :: queue => some ((around v).foldl (mark ((m.depth v).getD 0 + 1)) ⟨m.depths, queue⟩)

/-- The search gets from one state to another in some number of steps. -/
abbrev Reaches (around : Nat → List Nat) : Spread → Spread → Prop :=
  ReflTransGen fun m m' => m.next around = some m'

/-- How many steps can follow: one for each node that is in the queue or has not been found. -/
def left (m : Spread) : Nat := m.depths.countP Option.isNone + m.queue.length

/-! ### Marks -/

/-- What marking some nodes does: what has been found keeps its depth, and the others get one and
their place at the end of the queue. -/
structure Marks (d : Nat) (vs : List Nat) (m m' : Spread) : Prop where
  length : m'.depths.length = m.depths.length
  depth : ∀ v, m'.depth v = (m.depth v).or (if v ∈ vs then some d else none)
  queue : ∃ new, m'.queue = m.queue ++ new ∧ ∀ v, v ∈ new ↔ m.depth v = none ∧ v ∈ vs
  left : m'.left = m.left

theorem Marks.nil (d : Nat) (m : Spread) : Marks d [] m m where
  length := rfl
  depth v := by simp
  queue := ⟨[], (List.append_nil _).symm, fun v => by simp⟩
  left := rfl

/-- What is found after nodes have been marked. -/
theorem Marks.depth_eq_some_iff {d : Nat} {vs : List Nat} {m m' : Spread} (h : Marks d vs m m')
    {v k : Nat} : m'.depth v = some k ↔
      m.depth v = some k ∨ m.depth v = none ∧ v ∈ vs ∧ k = d := by
  rw [h.depth, Option.or_eq_some_iff]
  by_cases hv : v ∈ vs <;> simp [hv, eq_comm]

theorem Marks.append {d : Nat} {vs ws : List Nat} {m₁ m₂ m₃ : Spread} (h : Marks d vs m₁ m₂)
    (h' : Marks d ws m₂ m₃) : Marks d (vs ++ ws) m₁ m₃ := by
  obtain ⟨new, hnew, hmem⟩ := h.queue
  obtain ⟨more, hmore, hmem'⟩ := h'.queue
  refine ⟨h'.length.trans h.length, fun v => ?_, ⟨new ++ more, ?_, fun v => ?_⟩,
    h'.left.trans h.left⟩
  · rw [h'.depth, h.depth, Option.or_assoc]
    by_cases hv : v ∈ vs <;> by_cases hw : v ∈ ws <;> simp [hv, hw]
  · rw [hmore, hnew, List.append_assoc]
  · rw [List.mem_append, List.mem_append, hmem, hmem', h.depth]
    by_cases hv : v ∈ vs <;> simp [hv]

/-- A node that is marked. -/
theorem marks_mark {m : Spread} {v : Nat} (d : Nat) (hv : v < m.depths.length) :
    Marks d [v] m (mark d m v) := by
  rw [mark]
  split
  · next hnone =>
    have hnone : m.depths[v] = none := by
      rwa [depth, List.getD_eq_getElem _ _ hv, Option.isNone_iff_eq_none] at hnone
    refine ⟨List.length_set, fun w => ?_, ⟨[v], rfl, fun w => ?_⟩, ?_⟩
    · by_cases hw : w = v
      · subst hw
        simp [depth, hv, hnone]
      · simp [depth, List.getD_eq_getElem?_getD, hw, Ne.symm hw]
    · rw [List.mem_singleton]
      constructor
      · rintro rfl
        exact ⟨by rwa [depth, List.getD_eq_getElem _ _ hv], rfl⟩
      · exact And.right
    · -- one node less is left
      have hpos : 0 < m.depths.countP Option.isNone :=
        List.countP_pos_iff.mpr ⟨none, hnone ▸ List.getElem_mem hv, rfl⟩
      simp only [left, List.countP_set hv, hnone, List.length_append, List.length_singleton,
        Option.isNone_none, Option.isNone_some, if_true, Bool.false_eq_true, if_false]
      omega
  · next hsome =>
    obtain ⟨k, hk⟩ := Option.ne_none_iff_exists'.mp (Option.isNone_iff_eq_none.not.mp hsome)
    refine ⟨rfl, fun w => ?_, ⟨[], (List.append_nil _).symm, fun w => ?_⟩, rfl⟩
    · by_cases hw : w = v
      · simp [hw, hk]
      · simp [hw]
    · rw [List.mem_singleton]
      refine iff_of_false List.not_mem_nil ?_
      rintro ⟨hw, rfl⟩
      cases hw.symm.trans hk

/-- **Nodes that are marked one after the other.**  None of them is marked twice. -/
theorem marks_foldl {m : Spread} {vs : List Nat} (d : Nat) (hvs : ∀ v ∈ vs, v < m.depths.length) :
    Marks d vs m (vs.foldl (mark d) m) := by
  induction vs generalizing m with
  | nil => exact .nil d m
  | cons v vs ih =>
    obtain ⟨hv, hvs⟩ := List.forall_mem_cons.mp hvs
    have hfirst := marks_mark d hv
    exact hfirst.append (ih fun w hw => hfirst.length.symm ▸ hvs w hw)

/-! ### What is true at all times -/

/-- What is true of the search at all times.  A depth is the length of a way from the root; the
nodes of the queue are in the order of their depths; no depth is more than one beyond that of a
node in the queue; and a node that has left the queue has found all around it, with depths that
are at most one more than its own. -/
structure Holds (n : Nat) (links : List (Nat × Nat)) (root : Nat) (m : Spread) : Prop where
  length : m.depths.length = n
  zero : m.depth root = some 0
  walk : ∀ v k, m.depth v = some k → k ∈ walkHops links root v
  queued : ∀ v ∈ m.queue, ∃ k, m.depth v = some k
  sorted : m.queue.Pairwise fun u v => ∀ k l, m.depth u = some k → m.depth v = some l → k ≤ l
  near : ∀ u ∈ m.queue, ∀ v k l, m.depth u = some k → m.depth v = some l → l ≤ k + 1
  done : ∀ u k, m.depth u = some k → u ∉ m.queue →
    ∀ v, (linkGraph links).Adj u v → ∃ l ≤ k + 1, m.depth v = some l

theorem depth_start (hroot : root < n) (v : Nat) :
    (start n root).depth v = if v = root then some 0 else none := by
  by_cases hv : v = root
  · subst hv
    simp [start, depth, hroot]
  · by_cases hvn : v < n <;> simp [start, depth, List.getD_eq_getElem?_getD, hv, Ne.symm hv, hvn]

theorem holds_start (links : List (Nat × Nat)) (hroot : root < n) :
    Holds n links root (start n root) := by
  have hdepth : ∀ v k, (start n root).depth v = some k ↔ v = root ∧ k = 0 := by
    intro v k
    rw [depth_start hroot]
    by_cases hv : v = root
    · simp [hv, eq_comm]
    · simp [hv]
  refine ⟨by simp [start], (hdepth root 0).mpr ⟨rfl, rfl⟩, fun v k hv => ?_, fun v hv => ?_,
    List.pairwise_singleton _ _, fun u _ v k l _ hv => ?_, fun u k hu hqueue => ?_⟩
  · obtain ⟨rfl, rfl⟩ := (hdepth v k).mp hv
    exact ⟨.nil, rfl⟩
  · exact ⟨0, (hdepth v 0).mpr ⟨List.mem_singleton.mp hv, rfl⟩⟩
  · rw [((hdepth v l).mp hv).2]
    exact Nat.zero_le _
  · exact absurd (List.mem_singleton.mpr ((hdepth u k).mp hu).1) hqueue

/-- What is asked of the order in which the links at a node are gone through: all of them are, in
either direction, and no others. -/
def Enumerates (around : Nat → List Nat) (links : List (Nat × Nat)) : Prop :=
  ∀ v w, w ∈ around v ↔ (v, w) ∈ links ∨ (w, v) ∈ links

variable {around : Nat → List Nat} {m m' : Spread} {v k : Nat} {queue : List Nat}

/-- What a step does. -/
theorem exists_of_next (hlinks : ∀ link ∈ links, link.1 < n ∧ link.2 < n)
    (haround : Enumerates around links) (h : Holds n links root m) (hqueue : m.queue = v :: queue) :
    ∃ k m', m.depth v = some k ∧ m.next around = some m' ∧
      Marks (k + 1) (around v) ⟨m.depths, queue⟩ m' := by
  obtain ⟨k, hk⟩ := h.queued v (hqueue ▸ List.mem_cons_self)
  have hlt : ∀ w ∈ around v, w < m.depths.length := by
    intro w hw
    rw [h.length]
    rcases (haround v w).mp hw with hlink | hlink
    · exact (hlinks _ hlink).2
    · exact (hlinks _ hlink).1
  refine ⟨k, _, hk, ?_, marks_foldl (m := ⟨m.depths, queue⟩) (k + 1) hlt⟩
  rw [next, hqueue]
  dsimp only
  rw [hk, Option.getD_some]

section Step

variable (h : Holds n links root m) (hqueue : m.queue = v :: queue) (hk : m.depth v = some k)
  (hmarks : Marks (k + 1) (around v) ⟨m.depths, queue⟩ m')

include hmarks in
/-- What has been found after a step: what had been found before, and what is around the node that
has left the queue. -/
theorem depth_of_marks (w l : Nat) : m'.depth w = some l ↔
    m.depth w = some l ∨ m.depth w = none ∧ w ∈ around v ∧ l = k + 1 :=
  hmarks.depth_eq_some_iff

include hmarks in
/-- The nodes that are put into the queue are those that are found. -/
theorem exists_queue_of_marks : ∃ new, m'.queue = queue ++ new ∧
    ∀ w, w ∈ new ↔ m.depth w = none ∧ w ∈ around v :=
  hmarks.queue

include h hqueue hmarks in
/-- The nodes that stay in the queue keep their depths. -/
theorem depth_of_mem_queue {u l : Nat} (hu : u ∈ queue) (hl : m'.depth u = some l) :
    m.depth u = some l := by
  obtain ⟨l', hl'⟩ := h.queued u (hqueue ▸ List.mem_cons_of_mem v hu)
  rcases (depth_of_marks hmarks u l).mp hl with hl | ⟨hnone, -, -⟩
  · exact hl
  · cases hnone.symm.trans hl'

include hmarks in
/-- The nodes that are put into the queue are one deeper than the one that has left it. -/
theorem depth_of_notMem {u l : Nat} (hu : m.depth u = none) (hl : m'.depth u = some l) :
    l = k + 1 := by
  rcases (depth_of_marks hmarks u l).mp hl with hl | ⟨-, -, hl⟩
  · cases hu.symm.trans hl
  · exact hl

include h hqueue hk hmarks in
/-- No node is more than one deeper than the one that has left the queue. -/
theorem depth_le_of_marks {w l : Nat} (hl : m'.depth w = some l) : l ≤ k + 1 := by
  rcases (depth_of_marks hmarks w l).mp hl with hl | ⟨-, -, hl⟩
  · exact h.near v (hqueue ▸ List.mem_cons_self) w k l hk hl
  · exact hl.le

include h hqueue hk hmarks in
/-- The queue stays in the order of its depths. -/
theorem sorted_of_marks :
    m'.queue.Pairwise fun u w => ∀ l l', m'.depth u = some l → m'.depth w = some l' → l ≤ l' := by
  obtain ⟨new, hnew, hmem⟩ := exists_queue_of_marks hmarks
  have hone : ∀ w ∈ new, ∀ l, m'.depth w = some l → l = k + 1 := fun w hw l =>
    depth_of_notMem hmarks ((hmem w).mp hw).1
  have hsorted := (List.pairwise_cons.mp (hqueue ▸ h.sorted)).2
  rw [hnew]
  refine List.pairwise_append.mpr ⟨?_, ?_, fun u _ w hw l l' hl hl' => ?_⟩
  · refine hsorted.imp_of_mem fun hu hw hle l l' hl hl' => ?_
    exact hle l l' (depth_of_mem_queue h hqueue hmarks hu hl)
      (depth_of_mem_queue h hqueue hmarks hw hl')
  · refine List.pairwise_of_forall_mem_list fun u hu w hw l l' hl hl' => ?_
    rw [hone u hu l hl, hone w hw l' hl']
  · rw [hone w hw l' hl']
    exact depth_le_of_marks h hqueue hk hmarks hl

include h hqueue hk hmarks in
/-- No node becomes more than one deeper than those in the queue. -/
theorem near_of_marks {u w l l' : Nat} (hu : u ∈ m'.queue) (hl : m'.depth u = some l)
    (hl' : m'.depth w = some l') : l' ≤ l + 1 := by
  obtain ⟨new, hnew, hmem⟩ := exists_queue_of_marks hmarks
  have hle := depth_le_of_marks h hqueue hk hmarks hl'
  rw [hnew] at hu
  rcases List.mem_append.mp hu with hu | hu
  · have hsorted := h.sorted
    rw [hqueue, List.pairwise_cons] at hsorted
    have hkl := hsorted.1 u hu k l hk (depth_of_mem_queue h hqueue hmarks hu hl)
    omega
  · have hone := depth_of_notMem hmarks ((hmem u).mp hu).1 hl
    omega

include h hqueue hk hmarks in
/-- What is around a node that has left the queue has been found. -/
theorem done_of_marks (haround : Enumerates around links) {u l : Nat} (hl : m'.depth u = some l)
    (hu : u ∉ m'.queue) {w : Nat} (huw : (linkGraph links).Adj u w) :
    ∃ l' ≤ l + 1, m'.depth w = some l' := by
  obtain ⟨new, hnew, hmem⟩ := exists_queue_of_marks hmarks
  have hdepth := depth_of_marks hmarks
  rw [hnew, List.mem_append, not_or] at hu
  rcases (hdepth u l).mp hl with hl | ⟨hnone, hmemu, -⟩
  · by_cases huv : u = v
    · subst huv
      obtain rfl := Option.some.inj (hk.symm.trans hl)
      have hw : w ∈ around u := (haround u w).mpr (adj_linkGraph.mp huw).2
      cases hw' : m.depth w with
      | none => exact ⟨k + 1, le_rfl, (hdepth w (k + 1)).mpr (.inr ⟨hw', hw, rfl⟩)⟩
      | some l' =>
        have hle := h.near u (hqueue ▸ List.mem_cons_self) w k l' hk hw'
        exact ⟨l', hle, (hdepth w l').mpr (.inl hw')⟩
    · have hnot : u ∉ m.queue := by
        rw [hqueue, List.mem_cons, not_or]
        exact ⟨huv, hu.1⟩
      obtain ⟨l', hle, hl'⟩ := h.done u l hl hnot w huw
      exact ⟨l', hle, (hdepth w l').mpr (.inl hl')⟩
  · exact absurd ((hmem u).mpr ⟨hnone, hmemu⟩) hu.2

include h hqueue hk hmarks in
/-- **What a step keeps.** -/
theorem holds_next (haround : Enumerates around links) : Holds n links root m' where
  length := hmarks.length.trans h.length
  zero := (depth_of_marks hmarks root 0).mpr (.inl h.zero)
  walk := by
    intro w l hl
    rcases (depth_of_marks hmarks w l).mp hl with hl | ⟨hnone, hw, rfl⟩
    · exact h.walk w l hl
    · have hne : v ≠ w := by
        rintro rfl
        cases hnone.symm.trans hk
      exact succ_mem_walkHops (h.walk v k hk) (adj_linkGraph.mpr ⟨hne, (haround v w).mp hw⟩)
  queued := by
    intro w hw
    obtain ⟨new, hnew, hmem⟩ := exists_queue_of_marks hmarks
    rw [hnew] at hw
    rcases List.mem_append.mp hw with hw | hw
    · obtain ⟨l, hl⟩ := h.queued w (hqueue ▸ List.mem_cons_of_mem v hw)
      exact ⟨l, (depth_of_marks hmarks w l).mpr (.inl hl)⟩
    · obtain ⟨hnone, hw⟩ := (hmem w).mp hw
      exact ⟨k + 1, (depth_of_marks hmarks w (k + 1)).mpr (.inr ⟨hnone, hw, rfl⟩)⟩
  sorted := sorted_of_marks h hqueue hk hmarks
  near := fun _ hu _ _ _ hl hl' => near_of_marks h hqueue hk hmarks hu hl hl'
  done := fun _ _ hl hu _ huw => done_of_marks h hqueue hk hmarks haround hl hu huw

end Step

/-- **The queue runs empty.** -/
theorem exists_reaches (hlinks : ∀ link ∈ links, link.1 < n ∧ link.2 < n)
    (haround : Enumerates around links) (h : Holds n links root m) :
    ∃ m', Reaches around m m' ∧ Holds n links root m' ∧ m'.queue = [] := by
  induction hleft : m.left generalizing m with
  | zero =>
    refine ⟨m, .refl, h, List.length_eq_zero_iff.mp ?_⟩
    rw [left] at hleft
    omega
  | succ left ih =>
    cases hqueue : m.queue with
    | nil => exact ⟨m, .refl, h, hqueue⟩
    | cons v queue =>
      obtain ⟨k, m₁, hk, hstep, hmarks⟩ := exists_of_next hlinks haround h hqueue
      have hless : m₁.left = left := by
        have hsame := hmarks.left
        simp only [Spread.left, hqueue, List.length_cons] at hleft hsame ⊢
        omega
      obtain ⟨m', hrun, hholds, hempty⟩ := ih (holds_next h hqueue hk hmarks haround) hless
      exact ⟨m', .head hstep hrun, hholds, hempty⟩

/-- Ways lead from what has been found only to what has been found, once the queue is empty. -/
theorem Holds.exists_depth (h : Holds n links root m) (hempty : m.queue = []) {u v k : Nat}
    (hk : m.depth u = some k) (p : (linkGraph links).Walk u v) :
    ∃ l ≤ k + p.length, m.depth v = some l := by
  induction p generalizing k with
  | nil => exact ⟨k, le_rfl, hk⟩
  | cons huw p ih =>
    obtain ⟨l, hl, hw⟩ := h.done _ k hk (hempty ▸ List.not_mem_nil) _ huw
    obtain ⟨l', hl', hv⟩ := ih hw
    refine ⟨l', ?_, hv⟩
    rw [SimpleGraph.Walk.length_cons]
    omega

/-- **The depths are the distances**, once the queue is empty. -/
theorem Holds.depth_eq_some_iff (h : Holds n links root m) (hempty : m.queue = []) {v d : Nat} :
    m.depth v = some d ↔ IsLeast (walkHops links root v) d := by
  have hfound : ∀ k ∈ walkHops links root v, ∃ l ≤ k, m.depth v = some l := by
    rintro k ⟨p, rfl⟩
    have hl := h.exists_depth hempty h.zero p
    rwa [Nat.zero_add] at hl
  constructor
  · intro hd
    refine ⟨h.walk v d hd, fun k hk => ?_⟩
    obtain ⟨l, hle, hl⟩ := hfound k hk
    obtain rfl := Option.some.inj (hd.symm.trans hl)
    exact hle
  · rintro ⟨hd, hleast⟩
    obtain ⟨l, hle, hl⟩ := hfound d hd
    rw [hl, le_antisymm hle (hleast (h.walk v l hl))]

/-- The other ends of the links at a node: first those of the links that lead away from it and then
those of the links that lead to it, each time the latest link first.  A loop counts once. -/
def latestFirst (links : List (Nat × Nat)) (v : Nat) : List Nat :=
  (links.reverse.filter fun link => link.1 = v).map Prod.snd ++
    (links.reverse.filter fun link => link.2 = v ∧ link.1 ≠ v).map Prod.fst

theorem enumerates_latestFirst (links : List (Nat × Nat)) :
    Enumerates (latestFirst links) links := by
  intro v w
  simp only [latestFirst, List.mem_append, List.mem_map, List.mem_filter, List.mem_reverse,
    decide_eq_true_eq]
  constructor
  · rintro (⟨⟨s, t⟩, ⟨hlink, rfl⟩, rfl⟩ | ⟨⟨s, t⟩, ⟨hlink, rfl, -⟩, rfl⟩)
    · exact .inl hlink
    · exact .inr hlink
  · rintro (hlink | hlink)
    · exact .inl ⟨(v, w), ⟨hlink, rfl⟩, rfl⟩
    · by_cases hwv : w = v
      · exact .inl ⟨(w, v), ⟨hlink, hwv⟩, hwv.symm⟩
      · exact .inr ⟨(w, v), ⟨hlink, rfl, hwv⟩, rfl⟩

end Spread

/-! ## The distances from a node -/

variable {α : Type} {t : Topology α}

/-- **What is found are the distances.**  In whatever order the links at a node are gone through,
the search with a queue comes to a halt with what is found ring by ring.  For every node that is
the number of links, whatever their directions, of the shortest paths from the root, and nothing
for a node to which no path leads. -/
theorem isLeast_hopsFrom (ht : ∀ link ∈ t.links, link.1 < t.size ∧ link.2 < t.size)
    (hroot : root < t.size) :
    (∀ around, Spread.Enumerates around t.links →
      Spread.Reaches around (.start t.size root) ⟨t.hopsFrom root, []⟩) ∧
    (t.hopsFrom root).length = t.size ∧
    ∀ v < t.size,
      (∀ d, (t.hopsFrom root)[v]? = some (some d) ↔ IsLeast (pathHops t.links root v) d) ∧
      ((t.hopsFrom root)[v]? = some none ↔ pathHops t.links root v = ∅) := by
  have hlength : (t.hopsFrom root).length = t.size := by simp [Topology.hopsFrom]
  refine ⟨fun around haround => ?_, hlength, fun v hv => ?_⟩
  · obtain ⟨m, hrun, hholds, hempty⟩ :=
      Spread.exists_reaches ht haround (Spread.holds_start t.links hroot)
    -- the queue and the rings agree, as both find the distances and these are unique
    have hdepths : m.depths = t.hopsFrom root := by
      refine List.ext_getElem (hholds.length.trans hlength.symm) fun v hv hv' => ?_
      obtain ⟨found, hfound, hleast⟩ := getElem?_hopsFrom ht hroot (hholds.length ▸ hv)
      rw [List.getElem?_eq_getElem hv', Option.some_inj] at hfound
      have hdepth : m.depth v = m.depths[v] := List.getD_eq_getElem _ _ hv
      rw [hfound, ← hdepth]
      exact Option.ext fun d => (hholds.depth_eq_some_iff hempty).trans (hleast d).symm
    obtain ⟨depths, queue⟩ := m
    obtain rfl : queue = [] := hempty
    obtain rfl : depths = t.hopsFrom root := hdepths
    exact hrun
  · obtain ⟨found, hfound, hleast⟩ := getElem?_hopsFrom ht hroot hv
    simp only [hfound, Option.some_inj, pathHops_eq_empty_iff, isLeast_pathHops_iff]
    refine ⟨hleast, ?_⟩
    simp only [← hleast]
    exact Option.eq_none_iff_forall_ne_some

/-- Nodes with a loop, two links between the same nodes and a shorter and a longer way to the node
`3`, which is two links away from `1` although no link leads from the one to the other; no path
leads to the node `4`. -/
theorem isLeast_hopsFrom_square :
    let t : Topology Nat :=
      ⟨List.replicate 5 (1, 1), [(0, 1), (1, 1), (2, 1), (2, 3), (2, 3), (0, 2)]⟩
    (∀ link ∈ t.links, link.1 < t.size ∧ link.2 < t.size) ∧ 1 < t.size ∧
      Spread.Enumerates (Spread.latestFirst t.links) t.links ∧
      Spread.Reaches (Spread.latestFirst t.links) (.start t.size 1)
        ⟨[some 1, some 0, some 1, some 2, none], []⟩ ∧
      IsLeast (pathHops t.links 1 3) 2 ∧ pathHops t.links 1 4 = ∅ := by
  intro t
  have ht : ∀ link ∈ t.links, link.1 < t.size ∧ link.2 < t.size := by decide
  have hroot : 1 < t.size := by decide
  have hfound : t.hopsFrom 1 = [some 1, some 0, some 1, some 2, none] := by decide
  obtain ⟨hrun, -, hleast⟩ := isLeast_hopsFrom ht hroot
  rw [hfound] at hrun hleast
  exact ⟨ht, hroot, Spread.enumerates_latestFirst t.links,
    hrun _ (Spread.enumerates_latestFirst t.links),
    ((hleast 3 (by decide)).1 2).mp rfl, (hleast 4 (by decide)).2.mp rfl⟩

end Diagram
