import Mathlib.Combinatorics.SimpleGraph.Paths
import Mathlib.Order.Lattice.Nat
import Diagram.Layout.Topology

/-!
# Hops

The nodes are found ring by ring, each ring being those at the other ends of the links of the ring
before that have not been found yet.  So the number of a ring is the length of the shortest ways
that lead to its nodes, and a node is in no ring when no way leads to it.  A ring that is not
empty holds a node that was not found before, so the bound on the number of rings is never
reached.
-/

namespace Diagram

variable {links : List (Nat × Nat)} {root n : Nat}

/-! ## Distances -/

/-- The nodes as the vertices of a graph, in which the ends of every link are joined.  Loops are
left out, and links between the same two nodes count as one: neither makes a path shorter. -/
def linkGraph (links : List (Nat × Nat)) : SimpleGraph Nat :=
  SimpleGraph.fromRel fun u v => (u, v) ∈ links

theorem adj_linkGraph {u v : Nat} :
    (linkGraph links).Adj u v ↔ u ≠ v ∧ ((u, v) ∈ links ∨ (v, u) ∈ links) :=
  SimpleGraph.fromRel_adj _ u v

/-- The numbers of links of the paths from one node to another. -/
def pathHops (links : List (Nat × Nat)) (u v : Nat) : Set Nat :=
  { k | ∃ p : (linkGraph links).Walk u v, p.IsPath ∧ p.length = k }

/-- The numbers of links of the ways from one node to another, those that pass a node twice
included. -/
def walkHops (links : List (Nat × Nat)) (u v : Nat) : Set Nat :=
  { k | ∃ p : (linkGraph links).Walk u v, p.length = k }

/-- The shortest way is a path. -/
theorem isLeast_pathHops_iff {u v d : Nat} :
    IsLeast (pathHops links u v) d ↔ IsLeast (walkHops links u v) d := by
  have hpath : ∀ p : (linkGraph links).Walk u v, ∃ k ∈ pathHops links u v, k ≤ p.length := by
    intro p
    exact ⟨p.bypass.length, ⟨p.bypass, p.bypass_isPath, rfl⟩, p.length_bypass_le_length⟩
  constructor
  · rintro ⟨⟨p, -, rfl⟩, hle⟩
    refine ⟨⟨p, rfl⟩, ?_⟩
    rintro k ⟨q, rfl⟩
    obtain ⟨l, hl, hlq⟩ := hpath q
    exact (hle hl).trans hlq
  · rintro ⟨⟨p, rfl⟩, hle⟩
    obtain ⟨k, hk, hkp⟩ := hpath p
    obtain ⟨q, hq, rfl⟩ := hk
    have hpq : p.length ≤ q.length := hle ⟨q, rfl⟩
    refine ⟨⟨q, hq, le_antisymm hkp hpq⟩, ?_⟩
    rintro k ⟨r, -, rfl⟩
    exact hle ⟨r, rfl⟩

theorem pathHops_eq_empty_iff {u v : Nat} :
    pathHops links u v = ∅ ↔ ∀ d, ¬ IsLeast (pathHops links u v) d := by
  constructor
  · intro h d hd
    rw [h] at hd
    exact hd.1
  · intro h
    by_contra hne
    have hnonempty := Set.nonempty_iff_ne_empty.mpr hne
    exact h _ ⟨Nat.sInf_mem hnonempty, fun k hk => Nat.sInf_le hk⟩

theorem isLeast_zero_iff {v : Nat} : IsLeast (walkHops links root v) 0 ↔ v = root := by
  constructor
  · rintro ⟨⟨p, hp⟩, -⟩
    exact (p.eq_of_length_eq_zero hp).symm
  · rintro rfl
    exact ⟨⟨.nil, rfl⟩, fun k _ => Nat.zero_le k⟩

theorem succ_mem_walkHops {u v k : Nat} (hk : k ∈ walkHops links root u)
    (huv : (linkGraph links).Adj u v) : k + 1 ∈ walkHops links root v := by
  obtain ⟨p, rfl⟩ := hk
  exact ⟨p.concat huv, p.length_concat huv⟩

/-- **The nodes of the next ring** are joined to one of this ring and are in none so far. -/
theorem isLeast_succ_iff {v d : Nat} : IsLeast (walkHops links root v) (d + 1) ↔
    (∃ u, IsLeast (walkHops links root u) d ∧ (linkGraph links).Adj u v) ∧
      ∀ k ≤ d, ¬ IsLeast (walkHops links root v) k := by
  constructor
  · intro h
    obtain ⟨⟨p, hp⟩, hle⟩ := h
    have hnil : ¬ p.Nil := by
      intro hnil
      rw [SimpleGraph.Walk.length_eq_zero_iff.mpr hnil] at hp
      omega
    have hadj := p.adj_penultimate hnil
    refine ⟨⟨p.penultimate, ⟨⟨p.dropLast, ?_⟩, fun k hk => ?_⟩, hadj⟩, fun k hk hleast => ?_⟩
    · rw [p.length_dropLast, hp, Nat.add_sub_cancel]
    · exact Nat.le_of_succ_le_succ (hle (succ_mem_walkHops hk hadj))
    · have := hle hleast.1
      omega
  · rintro ⟨⟨u, hu, huv⟩, hnot⟩
    refine ⟨succ_mem_walkHops hu.1 huv, fun k hk => ?_⟩
    by_contra hlt
    -- A way that is not longer than `d` leaves a shortest one that is not either.
    have hmem := Nat.sInf_mem ⟨k, hk⟩
    have hle := Nat.sInf_le hk
    exact hnot (sInf (walkHops links root v)) (by omega) ⟨hmem, fun l hl => Nat.sInf_le hl⟩

/-- No ring is empty in front of one that is not. -/
theorem exists_isLeast_of_add {v d k : Nat} (h : IsLeast (walkHops links root v) (d + k)) :
    ∃ u, IsLeast (walkHops links root u) d := by
  induction k generalizing v with
  | zero => exact ⟨v, h⟩
  | succ k ih =>
    obtain ⟨⟨u, hu, -⟩, -⟩ := isLeast_succ_iff.mp h
    exact ih hu

/-! ## Rings -/

theorem mem_neighbors {v w : Nat} : w ∈ neighbors links v ↔ (v, w) ∈ links ∨ (w, v) ∈ links := by
  simp only [neighbors, List.mem_flatMap, List.mem_append]
  constructor
  · rintro ⟨⟨s, t⟩, hst, h | h⟩
    · split at h
      · next hs =>
        obtain rfl := List.mem_singleton.mp h
        exact .inl (hs ▸ hst)
      · cases h
    · split at h
      · next ht =>
        obtain rfl := List.mem_singleton.mp h
        exact .inr (ht ▸ hst)
      · cases h
  · rintro (h | h)
    · exact ⟨(v, w), h, .inl (by simp)⟩
    · exact ⟨(w, v), h, .inr (by simp)⟩

theorem mem_fresh {seen vs : List Nat} {v : Nat} : v ∈ fresh seen vs ↔ v ∈ vs ∧ v ∉ seen := by
  induction vs generalizing seen with
  | nil => simp [fresh]
  | cons w vs ih =>
    rw [fresh]
    by_cases hw : w ∈ seen
    · rw [if_pos (by simpa using hw), ih]
      constructor
      · rintro ⟨hv, hnot⟩
        exact ⟨.tail _ hv, hnot⟩
      · rintro ⟨hv, hnot⟩
        rcases List.mem_cons.mp hv with rfl | hv
        · exact absurd hw hnot
        · exact ⟨hv, hnot⟩
    · rw [if_neg (by simpa using hw), List.mem_cons, ih, List.mem_cons, List.mem_cons]
      by_cases hv : v = w
      · simp [hv, hw]
      · simp [hv]

theorem nodup_fresh (seen vs : List Nat) : (fresh seen vs).Nodup := by
  induction vs generalizing seen with
  | nil => exact .nil
  | cons w vs ih =>
    rw [fresh]
    split
    · exact ih seen
    · refine List.nodup_cons.mpr ⟨fun hw => ?_, ih _⟩
      exact (mem_fresh.mp hw).2 List.mem_cons_self

/-- The nodes of one ring, and those of all rings up to it. -/
structure IsRing (n : Nat) (links : List (Nat × Nat)) (root d : Nat) (seen front : List Nat) :
    Prop where
  nodup : seen.Nodup
  lt : ∀ v ∈ seen, v < n
  front : ∀ v, v ∈ front ↔ IsLeast (walkHops links root v) d
  seen : ∀ v, v ∈ seen ↔ ∃ k ≤ d, IsLeast (walkHops links root v) k

namespace IsRing

variable {d : Nat} {seen front : List Nat}

theorem start (links : List (Nat × Nat)) (hroot : root < n) :
    IsRing n links root 0 [root] [root] where
  nodup := List.nodup_singleton root
  lt := List.forall_mem_singleton.mpr hroot
  front v := by rw [List.mem_singleton, isLeast_zero_iff]
  seen v := by simp only [List.mem_singleton, Nat.le_zero, exists_eq_left, isLeast_zero_iff]

/-- **From one ring to the next.** -/
theorem next (hlinks : ∀ link ∈ links, link.1 < n ∧ link.2 < n)
    (h : IsRing n links root d seen front) :
    IsRing n links root (d + 1) (fresh seen (front.flatMap (neighbors links)) ++ seen)
      (fresh seen (front.flatMap (neighbors links))) := by
  have hfront : ∀ v, v ∈ fresh seen (front.flatMap (neighbors links)) ↔
      IsLeast (walkHops links root v) (d + 1) := by
    intro v
    simp only [mem_fresh, List.mem_flatMap, mem_neighbors, h.front, h.seen, isLeast_succ_iff,
      adj_linkGraph, not_exists, not_and]
    refine and_congr_left fun hnot => exists_congr fun u => and_congr_right fun hu => ?_
    have hne : u ≠ v := fun huv => hnot d le_rfl (huv ▸ hu)
    exact (and_iff_right hne).symm
  refine ⟨?_, List.forall_mem_append.mpr ⟨fun v hv => ?_, h.lt⟩, hfront, fun v => ?_⟩
  · refine List.Nodup.append (nodup_fresh _ _) h.nodup fun v hv hseen => ?_
    exact (mem_fresh.mp hv).2 hseen
  · obtain ⟨u, -, huv⟩ := List.mem_flatMap.mp (mem_fresh.mp hv).1
    rcases mem_neighbors.mp huv with hlink | hlink
    · exact (hlinks _ hlink).2
    · exact (hlinks _ hlink).1
  · rw [List.mem_append, hfront, h.seen]
    constructor
    · rintro (hv | ⟨k, hk, hv⟩)
      · exact ⟨d + 1, le_rfl, hv⟩
      · exact ⟨k, by omega, hv⟩
    · rintro ⟨k, hk, hv⟩
      rcases Nat.lt_or_eq_of_le hk with hlt | rfl
      · exact .inr ⟨k, by omega, hv⟩
      · exact .inl hv

/-- No more nodes are found than there are. -/
theorem length_le (h : IsRing n links root d seen front) : seen.length ≤ n := by
  have hsub : seen ⊆ List.range n := fun v hv => List.mem_range.mpr (h.lt v hv)
  simpa using (h.nodup.subperm hsub).length_le

/-- Behind an empty ring there is none. -/
theorem not_isLeast (h : IsRing n links root d seen []) (v k : Nat) :
    ¬ IsLeast (walkHops links root v) (d + k) := by
  intro hleast
  obtain ⟨u, hu⟩ := exists_isLeast_of_add hleast
  exact List.not_mem_nil ((h.front u).mpr hu)

end IsRing

/-- A ring that is not empty makes room for itself. -/
theorem eq_nil_or_lt {fuel : Nat} {seen : List Nat} (h : n < fuel + 1 + seen.length)
    (front : List Nat) : front = [] ∨ n < fuel + (front ++ seen).length := by
  by_cases hfront : front = []
  · exact .inl hfront
  · have hpos := List.length_pos_iff.mpr hfront
    rw [List.length_append]
    omega

theorem ringOf?_of_mem {front : List Nat} {v : Nat} (hv : v ∈ front) (rings : List (List Nat)) :
    ringOf? (front :: rings) v = some 0 := by
  rw [ringOf?, if_pos (List.contains_iff_mem.mpr hv)]

theorem ringOf?_of_notMem {front : List Nat} {v : Nat} (hv : v ∉ front)
    (rings : List (List Nat)) : ringOf? (front :: rings) v = (ringOf? rings v).map (· + 1) := by
  rw [ringOf?, if_neg (mt List.contains_iff_mem.mp hv)]

/-- **The rings are the nodes by their distances.**  The bound on their number is not reached as
long as every ring that is not empty makes room for itself. -/
theorem ringOf?_rings (hlinks : ∀ link ∈ links, link.1 < n ∧ link.2 < n) {fuel d : Nat}
    {seen front : List Nat} (h : IsRing n links root d seen front)
    (hfuel : front = [] ∨ n < fuel + seen.length) (v k : Nat) :
    ringOf? (rings links fuel seen front) v = some k ↔ IsLeast (walkHops links root v) (d + k) := by
  induction fuel generalizing d seen front k with
  | zero =>
    have hlength := h.length_le
    obtain rfl : front = [] := hfuel.resolve_right (by omega)
    exact iff_of_false nofun (h.not_isLeast v k)
  | succ fuel ih =>
    rw [rings]
    by_cases hfront : front = []
    · subst hfront
      exact iff_of_false nofun (h.not_isLeast v k)
    have hroom := eq_nil_or_lt (hfuel.resolve_left hfront)
      (fresh seen (front.flatMap (neighbors links)))
    rw [if_neg (by simpa using hfront)]
    -- A node of the ring is at distance `d`; any other one is looked for in the rings behind it.
    by_cases hv : v ∈ front
    · have hleast := (h.front v).mp hv
      rw [ringOf?_of_mem hv, Option.some_inj]
      constructor
      · rintro rfl
        exact hleast
      · intro hleast'
        have := hleast.unique hleast'
        omega
    · rw [ringOf?_of_notMem hv]
      cases k with
      | zero =>
        refine iff_of_false (by simp) fun hleast => ?_
        exact hv ((h.front v).mpr hleast)
      | succ k =>
        have hmore := ih (h.next hlinks) hroom k
        rw [Nat.add_right_comm, Nat.add_assoc] at hmore
        rw [← hmore]
        simp

/-- **What is found for a node is its distance.** -/
theorem getElem?_hopsFrom {α : Type} {t : Topology α}
    (ht : ∀ link ∈ t.links, link.1 < t.size ∧ link.2 < t.size) (hroot : root < t.size) {v : Nat}
    (hv : v < t.size) : ∃ found, (t.hopsFrom root)[v]? = some found ∧
      ∀ d, found = some d ↔ IsLeast (walkHops t.links root v) d := by
  refine ⟨ringOf? (rings t.links (t.size + 1) [root] [root]) v, ?_, fun d => ?_⟩
  · rw [Topology.hopsFrom, List.getElem?_map, List.getElem?_range hv, Option.map_some]
  · have hroom : [root] = [] ∨ t.size < t.size + 1 + [root].length := by
      rw [List.length_singleton]
      omega
    have hrings := ringOf?_rings ht (IsRing.start t.links hroot) hroom v d
    rwa [Nat.zero_add] at hrings

end Diagram
