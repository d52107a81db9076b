import Mathlib.Data.List.Perm.Subperm
import Mathlib.Data.List.Sigma
import Diagram.Layout.Layers

/-!
# The depth-first search

The search is busy with a path of vertices and finishes each of them behind all that its edges lead
to.  An edge that leads to a vertex it is busy with is turned around, and that vertex is finished
later.  So in the end every edge, as it is or turned around, leads from a vertex that was finished
later to one that was finished earlier: the finished vertices, the latest first, are in a
topological order.
-/

namespace Diagram

/-! ## Edges -/

theorem mem_outgoing {arcs : List Arc} {v w e : Nat} :
    (w, e) ∈ outgoing arcs v ↔ arcs[e]? = some (v, w) ∧ w ≠ v := by
  rw [outgoing, List.mem_filterMap]
  constructor
  · rintro ⟨⟨⟨s, t⟩, e'⟩, hmem, h⟩
    rw [List.mem_zipIdx_iff_getElem?] at hmem
    dsimp only at h hmem
    split at h
    · next hst =>
      obtain ⟨rfl, rfl⟩ := Prod.mk.inj (Option.some.inj h)
      obtain ⟨rfl, hne⟩ := hst
      exact ⟨hmem, hne⟩
    · cases h
  · rintro ⟨he, hne⟩
    exact ⟨((v, w), e), List.mem_zipIdx_iff_getElem?.mpr he, if_pos ⟨rfl, hne⟩⟩

/-- No edge out of a vertex is followed twice. -/
theorem nodup_outgoing (arcs : List Arc) (v : Nat) : ((outgoing arcs v).map Prod.snd).Nodup := by
  rw [List.Nodup, List.pairwise_map, outgoing]
  have hpositions : arcs.zipIdx.Pairwise fun x y => x.2 ≠ y.2 :=
    List.pairwise_map.mp (List.nodup_zipIdx_map_snd arcs)
  refine List.pairwise_filterMap.mpr (hpositions.imp fun {x y} hne => ?_)
  intro a ha b hb
  dsimp only at ha hb
  split at ha <;> cases ha
  split at hb <;> cases hb
  exact hne

/-! ## Loops -/

/-- What every step of a loop over a list keeps, and adds to what has been done, is there in the
end. -/
theorem foldl_done {β γ : Type} {f : β → γ → β} {P : List γ → β → Prop} (xs : List γ)
    (hstep : ∀ done x todo b, xs = done ++ x :: todo → P done b → P (done ++ [x]) (f b x)) {b : β}
    (hb : P [] b) : P xs (xs.foldl f b) := by
  have hall : ∀ todo done b, xs = done ++ todo → P done b → P xs (todo.foldl f b) := by
    intro todo
    induction todo with
    | nil =>
      intro done b hxs hdone
      rw [List.append_nil] at hxs
      exact hxs ▸ hdone
    | cons x todo ih =>
      intro done b hxs hdone
      exact ih (done ++ [x]) (f b x) (by simp [hxs]) (hstep done x todo b hxs hdone)
  exact hall xs [] b rfl hb

/-! ## The state of a search -/

namespace Search

/-- The vertices that a search has come to. -/
def seen (st : Search) : List Nat := st.active ++ st.finished

/-- What is true of a search at all times.  It comes to each vertex once, turns around edges only
at vertices it has come to, and of an edge out of a finished vertex it finishes the target first,
unless the edge is turned around; then the target is finished later or it is still busy with it. -/
structure Holds (n : Nat) (arcs : List Arc) (st : Search) : Prop where
  nodup : st.seen.Nodup
  lt : ∀ v ∈ st.seen, v < n
  source : ∀ e ∈ st.reversed, ∃ s t, arcs[e]? = some (s, t) ∧ s ∈ st.seen
  onward : ∀ e s t, arcs[e]? = some (s, t) → s ≠ t → s ∈ st.finished → e ∉ st.reversed →
    [s, t].Sublist st.finished
  backward : ∀ e s t, arcs[e]? = some (s, t) → s ≠ t → s ∈ st.finished → e ∈ st.reversed →
    t ∈ st.active ∨ [t, s].Sublist st.finished

/-- A search that has got further: it is busy with the same vertices, has finished more, and has
turned around only edges out of those that it has finished since. -/
structure Grows (arcs : List Arc) (st st' : Search) : Prop where
  active : st'.active = st.active
  finished : st.finished <:+ st'.finished
  kept : st.reversed ⊆ st'.reversed
  reversed : ∀ e ∈ st'.reversed, e ∉ st.reversed →
    ∃ s t, arcs[e]? = some (s, t) ∧ s ∈ st'.finished ∧ s ∉ st.finished

variable {n : Nat} {arcs : List Arc} {st st' st'' : Search}

theorem Grows.refl (arcs : List Arc) (st : Search) : Grows arcs st st :=
  ⟨rfl, List.suffix_rfl, List.Subset.refl _, fun _ he hne => absurd he hne⟩

theorem Grows.trans (h : Grows arcs st st') (h' : Grows arcs st' st'') : Grows arcs st st'' where
  active := h'.active.trans h.active
  finished := h.finished.trans h'.finished
  kept := List.Subset.trans h.kept h'.kept
  reversed e he hne := by
    by_cases hmem : e ∈ st'.reversed
    · obtain ⟨s, t, harc, hs, hnot⟩ := h.reversed e hmem hne
      exact ⟨s, t, harc, h'.finished.subset hs, hnot⟩
    · obtain ⟨s, t, harc, hs, hnot⟩ := h'.reversed e he hmem
      exact ⟨s, t, harc, hs, fun hs' => hnot (h.finished.subset hs')⟩

/-- A vertex that a search is busy with is not finished. -/
theorem Holds.not_mem_finished (h : Holds n arcs st) {v : Nat} (hv : v ∈ st.active) :
    v ∉ st.finished := fun hv' => List.disjoint_of_nodup_append h.nodup hv hv'

/-- A search that has not come to a vertex yet has come to fewer than all. -/
theorem Holds.length_seen_lt (h : Holds n arcs st) {v : Nat} (hv : v < n) (hnew : v ∉ st.seen) :
    st.seen.length < n := by
  have hnodup : (v :: st.seen).Nodup := List.nodup_cons.mpr ⟨hnew, h.nodup⟩
  have hsub : v :: st.seen ⊆ List.range n := by
    intro u hu
    rcases List.mem_cons.mp hu with rfl | hu
    · exact List.mem_range.mpr hv
    · exact List.mem_range.mpr (h.lt u hu)
  have hle := (hnodup.subperm hsub).length_le
  rwa [List.length_range] at hle

/-- A search comes to a new vertex. -/
theorem Holds.enter (h : Holds n arcs st) {v : Nat} (hv : v < n) (hnew : v ∉ st.seen) :
    Holds n arcs { st with active := v :: st.active } where
  nodup := List.nodup_cons.mpr ⟨hnew, h.nodup⟩
  lt := List.forall_mem_cons.mpr ⟨hv, h.lt⟩
  source e he := by
    obtain ⟨s, t, harc, hs⟩ := h.source e he
    exact ⟨s, t, harc, List.mem_cons_of_mem v hs⟩
  onward := h.onward
  backward e s t harc hne hs he :=
    (h.backward e s t harc hne hs he).imp_left (List.mem_cons_of_mem v)

/-- A search turns an edge around at a vertex that it is busy with. -/
theorem Holds.turn (h : Holds n arcs st) {v w e : Nat} (harc : arcs[e]? = some (v, w))
    (hv : v ∈ st.active) : Holds n arcs { st with reversed := e :: st.reversed } where
  nodup := h.nodup
  lt := h.lt
  source := List.forall_mem_cons.mpr ⟨⟨v, w, harc, List.mem_append_left _ hv⟩, h.source⟩
  onward e' s t harc' hne hs he := h.onward e' s t harc' hne hs fun he' => he (.tail e he')
  backward e' s t harc' hne hs he := by
    rcases List.mem_cons.mp he with rfl | he
    · obtain ⟨rfl, rfl⟩ := Prod.mk.inj (Option.some.inj (harc.symm.trans harc'))
      exact absurd hs (h.not_mem_finished hv)
    · exact h.backward e' s t harc' hne hs he

/-- How far the edges out of `v` have been followed since the state `st₀`: of those in `done`, the
targets are finished, or the edges are turned around and the search is busy with the targets. -/
structure Follows (n : Nat) (arcs : List Arc) (v : Nat) (st₀ : Search) (done : List (Nat × Nat))
    (st : Search) : Prop where
  holds : Holds n arcs st
  active : st.active = v :: st₀.active
  finished : st₀.finished <:+ st.finished
  kept : st₀.reversed ⊆ st.reversed
  reversed : ∀ e ∈ st.reversed, e ∉ st₀.reversed →
    ∃ s t, arcs[e]? = some (s, t) ∧ (s = v ∨ s ∈ st.finished) ∧ s ∉ st₀.finished
  edge : ∀ x ∈ done, arcs[x.2]? = some (v, x.1)
  own : ∀ e ∈ st.reversed, ∀ t, arcs[e]? = some (v, t) → e ∈ done.map Prod.snd
  onward : ∀ x ∈ done, x.2 ∉ st.reversed → x.1 ∈ st.finished
  backward : ∀ x ∈ done, x.2 ∈ st.reversed → x.1 ∈ st₀.active

section

variable {v : Nat} {st₀ : Search} {done : List (Nat × Nat)}

theorem Follows.mem_active (h : Follows n arcs v st₀ done st) : v ∈ st.active :=
  h.active ▸ List.mem_cons_self

/-- At first no edge has been followed. -/
theorem Follows.start (h : Holds n arcs st) (hv : v < n) (hnew : v ∉ st.seen) :
    Follows n arcs v st [] { st with active := v :: st.active } where
  holds := h.enter hv hnew
  active := rfl
  finished := List.suffix_rfl
  kept := List.Subset.refl _
  reversed e he hne := absurd he hne
  edge := nofun
  own e he t harc := by
    obtain ⟨s, t', harc', hs⟩ := h.source e he
    obtain ⟨rfl, -⟩ := Prod.mk.inj (Option.some.inj (harc.symm.trans harc'))
    exact absurd hs hnew
  onward := nofun
  backward := nofun

/-- An edge leads to a finished vertex. -/
theorem Follows.pass (h : Follows n arcs v st₀ done st) {w e : Nat}
    (harc : arcs[e]? = some (v, w)) (hnew : e ∉ done.map Prod.snd) (hw : w ∈ st.finished) :
    Follows n arcs v st₀ (done ++ [(w, e)]) st where
  holds := h.holds
  active := h.active
  finished := h.finished
  kept := h.kept
  reversed := h.reversed
  edge := List.forall_mem_append.mpr ⟨h.edge, by simpa using harc⟩
  own e' he' t harc' := by
    rw [List.map_append]
    exact List.mem_append_left _ (h.own e' he' t harc')
  onward x hx hxe := by
    rcases List.mem_append.mp hx with hx | hx
    · exact h.onward x hx hxe
    · rw [List.mem_singleton.mp hx]
      exact hw
  backward x hx hxe := by
    rcases List.mem_append.mp hx with hx | hx
    · exact h.backward x hx hxe
    · rw [List.mem_singleton.mp hx] at hxe
      exact absurd (h.own e hxe w harc) hnew

/-- An edge leads to a vertex that the search is busy with, and is turned around. -/
theorem Follows.turn (h : Follows n arcs v st₀ done st) {w e : Nat}
    (harc : arcs[e]? = some (v, w)) (hne : w ≠ v) (hnew : e ∉ done.map Prod.snd)
    (hw : w ∈ st.active) :
    Follows n arcs v st₀ (done ++ [(w, e)]) { st with reversed := e :: st.reversed } where
  holds := h.holds.turn harc h.mem_active
  active := h.active
  finished := h.finished
  kept := fun _ he => List.mem_cons_of_mem e (h.kept he)
  reversed e' he' hne' := by
    rcases List.mem_cons.mp he' with rfl | he'
    · have hv : v ∉ st₀.finished := fun hv =>
        h.holds.not_mem_finished h.mem_active (h.finished.subset hv)
      exact ⟨v, w, harc, .inl rfl, hv⟩
    · exact h.reversed e' he' hne'
  edge := List.forall_mem_append.mpr ⟨h.edge, by simpa using harc⟩
  own e' he' t harc' := by
    rw [List.map_append]
    rcases List.mem_cons.mp he' with rfl | he'
    · exact List.mem_append_right _ (by simp)
    · exact List.mem_append_left _ (h.own e' he' t harc')
  -- the edge is the last one done: it was not turned around before, and it is from now on
  onward x hx hxe := by
    rcases List.mem_append.mp hx with hx | hx
    · exact h.onward x hx fun he => hxe (.tail e he)
    · rw [List.mem_singleton.mp hx] at hxe
      exact absurd List.mem_cons_self hxe
  backward x hx hxe := by
    rcases List.mem_append.mp hx with hx | hx
    · rcases List.mem_cons.mp hxe with hxe | hxe
      · exact absurd (hxe ▸ List.mem_map_of_mem hx) hnew
      · exact h.backward x hx hxe
    · rw [List.mem_singleton.mp hx]
      rw [h.active] at hw
      exact (List.mem_cons.mp hw).resolve_left hne

/-- While a search visits other vertices, it turns around no edge out of `v`. -/
theorem Follows.mem_reversed (h : Follows n arcs v st₀ done st) (hholds : Holds n arcs st')
    (hgrows : Grows arcs st st') {e t : Nat} (harc : arcs[e]? = some (v, t))
    (he : e ∈ st'.reversed) : e ∈ st.reversed := by
  by_contra hnew
  obtain ⟨s, t', harc', hs, -⟩ := hgrows.reversed e he hnew
  obtain ⟨rfl, -⟩ := Prod.mk.inj (Option.some.inj (harc.symm.trans harc'))
  exact hholds.not_mem_finished (hgrows.active ▸ h.mem_active) hs

/-- While a search visits other vertices, nothing changes for the edges followed so far. -/
theorem Follows.grow (h : Follows n arcs v st₀ done st) (hholds : Holds n arcs st')
    (hgrows : Grows arcs st st') : Follows n arcs v st₀ done st' where
  holds := hholds
  active := hgrows.active.trans h.active
  finished := h.finished.trans hgrows.finished
  kept := List.Subset.trans h.kept hgrows.kept
  reversed e he hne := by
    by_cases hmem : e ∈ st.reversed
    · obtain ⟨s, t, harc, hs, hnot⟩ := h.reversed e hmem hne
      exact ⟨s, t, harc, hs.imp_right fun hs => hgrows.finished.subset hs, hnot⟩
    · obtain ⟨s, t, harc, hs, hnot⟩ := hgrows.reversed e he hmem
      exact ⟨s, t, harc, .inr hs, fun hs' => hnot (h.finished.subset hs')⟩
  edge := h.edge
  own e he t harc := h.own e (h.mem_reversed hholds hgrows harc he) t harc
  onward x hx hxe := hgrows.finished.subset (h.onward x hx fun he => hxe (hgrows.kept he))
  backward x hx hxe := h.backward x hx (h.mem_reversed hholds hgrows (h.edge x hx) hxe)

/-- The search finishes a vertex when all its edges have been followed. -/
def finish (v : Nat) (st : Search) : Search :=
  { st with active := st.active.tail, finished := v :: st.finished }

theorem Follows.holds_finish (h : Follows n arcs v st₀ (outgoing arcs v) st) :
    Holds n arcs (st.finish v) := by
  have hnodup : (v :: (st₀.active ++ st.finished)).Nodup := by
    have := h.holds.nodup
    rwa [seen, h.active] at this
  -- finishing `v` moves it from the vertices in progress to those that are done
  have hperm : (st.finish v).seen.Perm st.seen := by
    rw [seen, seen, finish, h.active]
    exact List.perm_middle
  have hmem : ∀ u, u ∈ (st.finish v).seen ↔ u ∈ st.seen := fun u => hperm.mem_iff
  exact {
    nodup := hperm.nodup_iff.mpr h.holds.nodup
    lt := fun u hu => h.holds.lt u ((hmem u).mp hu)
    source := fun e he => by
      obtain ⟨s, t, harc, hs⟩ := h.holds.source e he
      exact ⟨s, t, harc, (hmem s).mpr hs⟩
    onward := fun e s t harc hne hs he => by
      rcases List.mem_cons.mp hs with rfl | hs
      · have ht := h.onward (t, e) (mem_outgoing.mpr ⟨harc, Ne.symm hne⟩) he
        exact .cons_cons s (List.singleton_sublist.mpr ht)
      · exact .cons v (h.holds.onward e s t harc hne hs he)
    backward := fun e s t harc hne hs he => by
      rw [finish, h.active, List.tail_cons]
      rcases List.mem_cons.mp hs with rfl | hs'
      · exact .inl (h.backward (t, e) (mem_outgoing.mpr ⟨harc, Ne.symm hne⟩) he)
      · rcases h.holds.backward e s t harc hne hs' he with ht | ht
        · rw [h.active] at ht
          rcases List.mem_cons.mp ht with rfl | ht
          · exact .inr (.cons_cons t (List.singleton_sublist.mpr hs'))
          · exact .inl ht
        · exact .inr (.cons v ht) }

theorem Follows.grows_finish (h : Follows n arcs v st₀ done st) : Grows arcs st₀ (st.finish v) where
  active := by rw [finish, h.active, List.tail_cons]
  finished := h.finished.trans (List.suffix_cons v _)
  kept := h.kept
  reversed e he hne := by
    obtain ⟨s, t, harc, hs, hnot⟩ := h.reversed e he hne
    refine ⟨s, t, harc, ?_, hnot⟩
    rcases hs with rfl | hs
    · exact List.mem_cons_self
    · exact List.mem_cons_of_mem v hs

end

/-! ## Visits -/

/-- One edge is followed. -/
def follow (arcs : List Arc) (fuel : Nat) (st : Search) (x : Nat × Nat) : Search :=
  if st.finished.contains x.1 then st
  else if st.active.contains x.1 then { st with reversed := x.2 :: st.reversed }
  else visit arcs fuel x.1 st

theorem visit_succ (arcs : List Arc) (fuel v : Nat) (st : Search) :
    visit arcs (fuel + 1) v st =
      ((outgoing arcs v).foldl (follow arcs fuel)
        { st with active := v :: st.active }).finish v := by
  rw [visit]
  rfl

/-- One more edge has been followed, if a visit finishes its vertex and returns to where it was. -/
theorem Follows.follow_next (harcs : ∀ arc ∈ arcs, arc.2 < n) {v fuel : Nat} {st₀ : Search}
    (hvisit : ∀ {w : Nat} {st : Search}, Holds n arcs st → w < n → w ∉ st.seen →
      n ≤ fuel + st.active.length → Holds n arcs (visit arcs fuel w st) ∧
        Grows arcs st (visit arcs fuel w st) ∧ w ∈ (visit arcs fuel w st).finished)
    {done todo : List (Nat × Nat)} {w e : Nat} (hout : outgoing arcs v = done ++ (w, e) :: todo)
    (hfuel : n ≤ fuel + 1 + st₀.active.length) (h : Follows n arcs v st₀ done st) :
    Follows n arcs v st₀ (done ++ [(w, e)]) (follow arcs fuel st (w, e)) := by
  have hmem : (w, e) ∈ outgoing arcs v := by simp [hout]
  obtain ⟨harc, hne⟩ := mem_outgoing.mp hmem
  -- no edge is listed twice, so this one has not been followed yet
  have hdone : e ∉ done.map Prod.snd := by
    have hnodup := nodup_outgoing arcs v
    rw [hout, List.map_append, List.map_cons] at hnodup
    exact fun he => List.disjoint_of_nodup_append hnodup he List.mem_cons_self
  unfold follow
  split
  · next hw => exact h.pass harc hdone (List.contains_iff_mem.mp hw)
  · next hw =>
    split
    · next hw' => exact h.turn harc hne hdone (List.contains_iff_mem.mp hw')
    · next hw' =>
      have hnew : w ∉ st.seen := by
        rw [List.contains_iff_mem] at hw hw'
        exact List.mem_append.not.mpr (not_or.mpr ⟨hw', hw⟩)
      have hlength : st.active.length = st₀.active.length + 1 := by
        rw [h.active, List.length_cons]
      obtain ⟨hholds, hgrows, hfinished⟩ := hvisit h.holds
        (harcs _ (List.mem_of_getElem? harc)) hnew (by omega)
      exact (h.grow hholds hgrows).pass harc hdone hfinished

/-- **A visit finishes a vertex and returns to where it was.** -/
theorem holds_visit (harcs : ∀ arc ∈ arcs, arc.2 < n) {fuel v : Nat} {st : Search}
    (h : Holds n arcs st) (hv : v < n) (hnew : v ∉ st.seen) (hfuel : n ≤ fuel + st.active.length) :
    Holds n arcs (visit arcs fuel v st) ∧ Grows arcs st (visit arcs fuel v st) ∧
      v ∈ (visit arcs fuel v st).finished := by
  induction fuel generalizing v st with
  | zero =>
    have hlt := h.length_seen_lt hv hnew
    rw [seen, List.length_append] at hlt
    omega
  | succ fuel ih =>
    have hall : Follows n arcs v st (outgoing arcs v)
        ((outgoing arcs v).foldl (follow arcs fuel) { st with active := v :: st.active }) :=
      foldl_done (P := Follows n arcs v st) (outgoing arcs v)
        (fun _ _ _ _ hout hfollows => hfollows.follow_next harcs ih hout hfuel) (.start h hv hnew)
    rw [visit_succ]
    exact ⟨hall.holds_finish, hall.grows_finish, List.mem_cons_self⟩

/-! ## The whole search -/

theorem holds_empty (n : Nat) (arcs : List Arc) : Holds n arcs {} where
  nodup := .nil
  lt := nofun
  source := nofun
  onward e s t _ _ hs := by cases hs
  backward e s t _ _ hs := by cases hs

/-- A search is at rest in the end, and has come to every vertex. -/
theorem holds_search (harcs : ∀ arc ∈ arcs, arc.2 < n) :
    Holds n arcs (search n arcs) ∧ (search n arcs).active = [] ∧
      ∀ v < n, v ∈ (search n arcs).finished := by
  have hall : Holds n arcs (search n arcs) ∧ (search n arcs).active = [] ∧
      ∀ v ∈ List.range n, v ∈ (search n arcs).finished := by
    refine foldl_done (P := fun done st => Holds n arcs st ∧ st.active = [] ∧
      ∀ v ∈ done, v ∈ st.finished) (List.range n) ?_ ⟨holds_empty n arcs, rfl, nofun⟩
    rintro done v todo st hrange ⟨hholds, hactive, hdone⟩
    have hv : v < n := List.mem_range.mp (by simp [hrange])
    split
    · next hmem =>
      exact ⟨hholds, hactive,
        List.forall_mem_append.mpr ⟨hdone, by simpa using List.contains_iff_mem.mp hmem⟩⟩
    · next hmem =>
      have hnew : v ∉ st.seen := by
        rw [seen, hactive, List.nil_append, ← List.contains_iff_mem]
        exact hmem
      have hfuel : n ≤ n + 1 + st.active.length := by omega
      obtain ⟨hholds', hgrows, hfinished⟩ := holds_visit harcs hholds hv hnew hfuel
      refine ⟨hholds', hgrows.active.trans hactive, List.forall_mem_append.mpr ⟨?_, ?_⟩⟩
      · exact fun u hu => hgrows.finished.subset (hdone u hu)
      · simpa using hfinished
  exact ⟨hall.1, hall.2.1, fun v hv => hall.2.2 v (List.mem_range.mpr hv)⟩

/-- **Every vertex is finished, once.** -/
theorem mem_finished_search (harcs : ∀ arc ∈ arcs, arc.2 < n) :
    (search n arcs).finished.Nodup ∧ ∀ v, v ∈ (search n arcs).finished ↔ v < n := by
  obtain ⟨hholds, hactive, hall⟩ := holds_search harcs
  refine ⟨hholds.nodup.of_append_right, fun v => ⟨fun hv => ?_, hall v⟩⟩
  exact hholds.lt v (List.mem_append_right _ hv)

end Search

/-! ## The order of the finished vertices -/

theorem mem_reoriented {arcs : List Arc} {reversed : List Nat} {arc : Arc} :
    arc ∈ reoriented arcs reversed ↔ ∃ e s t, arcs[e]? = some (s, t) ∧
      arc = if e ∈ reversed then (t, s) else (s, t) := by
  rw [reoriented, List.mem_map]
  constructor
  · rintro ⟨⟨⟨s, t⟩, e⟩, hmem, rfl⟩
    exact ⟨e, s, t, List.mem_zipIdx_iff_getElem?.mp hmem, by simp⟩
  · rintro ⟨e, s, t, harc, rfl⟩
    exact ⟨((s, t), e), List.mem_zipIdx_iff_getElem?.mpr harc, by simp⟩

/-- **Every edge leads on in the order of the finished vertices**, as it is or turned around. -/
theorem sublist_of_mem_reoriented {n : Nat} {arcs : List Arc}
    (harcs : ∀ arc ∈ arcs, arc.1 < n ∧ arc.2 < n) {u v : Nat}
    (h : (u, v) ∈ reoriented arcs (search n arcs).reversed) (hne : u ≠ v) :
    [u, v].Sublist (search n arcs).finished := by
  obtain ⟨hholds, hactive, hall⟩ := Search.holds_search fun arc harc => (harcs arc harc).2
  obtain ⟨e, s, t, harc, heq⟩ := mem_reoriented.mp h
  have hs : s ∈ (search n arcs).finished := hall s (harcs _ (List.mem_of_getElem? harc)).1
  split at heq
  · next he =>
    obtain ⟨rfl, rfl⟩ := Prod.mk.inj heq
    refine (hholds.backward e _ _ harc (Ne.symm hne) hs he).resolve_left ?_
    rw [hactive]
    exact List.not_mem_nil
  · next he =>
    obtain ⟨rfl, rfl⟩ := Prod.mk.inj heq
    exact hholds.onward e _ _ harc hne hs he

end Diagram
