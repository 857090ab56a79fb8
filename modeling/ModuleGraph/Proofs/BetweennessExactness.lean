import ModuleGraph.Proofs.PathCount
import ModuleGraph.Proofs.ShortestPath
import Mathlib.Tactic.FieldSimp

namespace ModuleGraph

namespace Topology

variable {K : Type} {t : Topology K} {k s v y z : Nat}

theorem walks_distance_ne_zero (h : t.Reaches s v) : (t.walks (t.distance s v) s v : ℚ) ≠ 0 :=
  Nat.cast_ne_zero.mpr (walks_distance_pos h).ne'

theorem self_add_share (hy : t.Reaches s y) (hz : t.Reaches s z) (hd : t.distance s z = t.distance s y + k) :
    (if y = z then 1 else 0) + t.share s y z =
      t.walks (t.distance s y) s y * t.walks k y z / t.walks (t.distance s z) s z := by
  unfold share
  cases k with
  | zero =>
    rw [if_neg (by omega : ¬ (t.Reaches s y ∧ t.Reaches s z ∧ t.distance s y < t.distance s z)), add_zero]
    by_cases hyz : y = z
    · subst hyz
      rw [if_pos rfl, walks_zero_self, Nat.cast_one, mul_one, div_self (walks_distance_ne_zero hy)]
    · rw [if_neg hyz, walks_zero_of_ne t hyz, Nat.cast_zero, mul_zero, zero_div]
  | succ k =>
    have hyz : y ≠ z := by
      rintro rfl
      omega
    rw [if_neg hyz, if_pos ⟨hy, hz, by omega⟩, zero_add, hd, Nat.add_sub_cancel_left]

theorem Reaches.lt_size (ht : t.Bounded) (hv : v < t.size) (h : t.Reaches v z) : z < t.size := by
  rcases Relation.ReflTransGen.cases_tail h with rfl | ⟨y, _, hedge⟩
  · exact hv
  · exact ht y z hedge

theorem dependency_of_not_reaches (h : ¬ t.Reaches s v) : t.dependency s v = 0 :=
  Finset.sum_eq_zero fun _ _ => if_neg fun hv => h hv.1

end Topology

namespace Betweenness

variable {t : Topology ℚ} {source v w x y z : Nat} {s : Search ℚ}

namespace CountsPaths

/-- What a node has from one that is farther: a part of its paths for every edge to it. -/
noncomputable def part (t : Topology ℚ) (source : Nat) (s : Search ℚ) (x y : Nat) : ℚ :=
  (s.parents.getD y []).count x * (s.paths.getD x 0 / s.paths.getD y 0 * (1 + t.dependency source y))

theorem part_of_not_mem (h : x ∉ s.parents.getD y []) : part t source s x y = 0 := by
  rw [part, List.count_eq_zero.mpr h, Nat.cast_zero, zero_mul]

/-- The edges to nodes one step farther are those on shortest paths. -/
theorem count_mul_walks (h : CountsPaths t source s) {k : Nat} (hx : t.Reaches source x)
    (hz : t.distance source z = t.distance source x + (k + 1)) (y : Nat) :
    (t.successors x).count y * t.walks k y z = (s.parents.getD y []).count x * t.walks k y z := by
  by_cases hparent : x ∈ s.parents.getD y []
  · obtain ⟨_, hy, hd⟩ := h.nearer x y hparent
    rw [h.count_eq x y hx hy hd]
  · rw [List.count_eq_zero.mpr hparent, Nat.zero_mul]
    by_contra hne
    obtain ⟨hcount, hwalk⟩ := Nat.mul_ne_zero_iff.mp hne
    have hedge := List.count_pos_iff.mp (Nat.pos_of_ne_zero hcount)
    have hy := hx.trans (.of_mem hedge)
    have hnear := Topology.distance_le_add hx (Topology.walks_one_pos hedge)
    have hfar := Topology.distance_le_add hy (Nat.pos_of_ne_zero hwalk)
    have hd : t.distance source y = t.distance source x + 1 := by omega
    rw [← h.count_eq x y hx hy hd] at hcount
    exact hcount (List.count_eq_zero.mpr hparent)

theorem share_eq (ht : t.Bounded) (h : CountsPaths t source s) (hx : t.Reaches source x) (z : Nat) :
    t.share source x z = ∑ y ∈ Finset.range t.size,
      (s.parents.getD y []).count x * (s.paths.getD x 0 / s.paths.getD y 0 *
        ((if y = z then 1 else 0) + t.share source y z)) := by
  by_cases hz : t.Reaches source z ∧ t.distance source x < t.distance source z
  · obtain ⟨hz, hlt⟩ := hz
    obtain ⟨k, hk⟩ := Nat.exists_eq_add_of_lt hlt
    have hleft : t.distance source z - t.distance source x = k + 1 := by omega
    rw [Topology.share, if_pos ⟨hx, hz, hlt⟩, hleft, Topology.walks_succ ht, Nat.cast_sum, Finset.mul_sum,
      Finset.sum_div]
    refine Finset.sum_congr rfl fun y _ => ?_
    rw [h.count_mul_walks hx hk y, Nat.cast_mul]
    by_cases hparent : x ∈ s.parents.getD y []
    · obtain ⟨_, hy, hd⟩ := h.nearer x y hparent
      have hne := Topology.walks_distance_ne_zero hy
      rw [Topology.self_add_share hy hz (by omega : t.distance source z = t.distance source y + k),
        h.paths_eq x hx, h.paths_eq y hy]
      field_simp
    · rw [List.count_eq_zero.mpr hparent, Nat.cast_zero, zero_mul, zero_mul, mul_zero, zero_div]
  · -- No node one step farther can have a share either.
    rw [Topology.share, if_neg fun hshare => hz hshare.2]
    symm
    apply Finset.sum_eq_zero
    intro y _
    by_cases hparent : x ∈ s.parents.getD y []
    · obtain ⟨_, hy, hd⟩ := h.nearer x y hparent
      have hyz : y ≠ z := by
        rintro rfl
        exact hz ⟨hy, by omega⟩
      have hshare : t.share source y z = 0 := if_neg fun hshare => hz ⟨hshare.2.1, by omega⟩
      rw [if_neg hyz, hshare, add_zero, mul_zero, mul_zero]
    · rw [List.count_eq_zero.mpr hparent, Nat.cast_zero, zero_mul]

theorem dependency_eq (ht : t.Bounded) (h : CountsPaths t source s) (hx : t.Reaches source x) :
    t.dependency source x = ∑ y ∈ Finset.range t.size, part t source s x y := by
  rw [Topology.dependency, Finset.sum_congr rfl fun z _ => h.share_eq ht hx z, Finset.sum_comm]
  refine Finset.sum_congr rfl fun y hy => ?_
  rw [← Finset.mul_sum, ← Finset.mul_sum, Finset.sum_add_distrib, Finset.sum_ite_eq, if_pos hy]
  rfl

theorem sum_part (ht : t.Bounded) (hsource : source < t.size) (h : CountsPaths t source s) {gone ws : List Nat}
    (htaken : s.taken = gone ++ w :: ws) : (gone.map (part t source s w)).sum = t.dependency source w := by
  have hw : t.Reaches source w := (h.mem_taken w).mp (by simp [htaken])
  have hlate : ∀ y ∈ w :: ws, part t source s w y = 0 := by
    intro y hy
    have hle : t.distance source y ≤ t.distance source w := by
      have hfalling := h.falling
      rw [htaken] at hfalling
      rcases List.mem_cons.mp hy with rfl | hy
      · exact Nat.le_refl _
      · exact (List.pairwise_cons.mp (List.pairwise_append.mp hfalling).2.1).1 y hy
    apply part_of_not_mem
    intro hparent
    obtain ⟨_, _, hd⟩ := h.nearer w y hparent
    omega
  have hsubset : s.taken.toFinset ⊆ Finset.range t.size := by
    intro y hy
    rw [List.mem_toFinset, h.mem_taken] at hy
    exact Finset.mem_range.mpr (hy.lt_size ht hsource)
  have hrest : ∀ y ∈ Finset.range t.size, y ∉ s.taken.toFinset → part t source s w y = 0 := by
    intro y _ hy
    rw [List.mem_toFinset, h.mem_taken] at hy
    exact part_of_not_mem fun hparent => hy (h.nearer w y hparent).2.1
  calc (gone.map (part t source s w)).sum
      = (s.taken.map (part t source s w)).sum := by
        rw [htaken, List.map_append, List.sum_append, List.map_eq_replicate_iff.mpr hlate, List.sum_replicate,
          nsmul_zero, add_zero]
    _ = ∑ y ∈ s.taken.toFinset, part t source s w y := (List.sum_toFinset _ h.nodup).symm
    _ = t.dependency source w := by rw [Finset.sum_subset hsubset hrest, h.dependency_eq ht hw]

end CountsPaths

theorem size_shareBack (s : Search ℚ) (share : Array ℚ) (w : Nat) : (shareBack s share w).size = share.size :=
  size_foldr_modify share _ _

theorem shareBack_getD (s : Search ℚ) {share : Array ℚ} (hw : w ∉ s.parents.getD w []) (hx : x < share.size) :
    (shareBack s share w).getD x 0 = share.getD x 0 +
      (s.parents.getD w []).count x * (s.paths.getD x 0 / s.paths.getD w 0 * (1 + share.getD w 0)) := by
  unfold shareBack
  generalize s.parents.getD w [] = parents at hw ⊢
  induction parents with
  | nil => simp
  | cons v vs ih =>
    rw [List.mem_cons, not_or] at hw
    -- The node itself gains nothing on the way, so all its parents gain by the same share.
    rw [List.foldr_cons, foldr_modify_getD_of_not_mem share _ hw.2]
    by_cases hvx : v = x
    · subst hvx
      rw [getD_modify_self (by rw [size_foldr_modify]; exact hx), ih hw.2, List.count_cons_self, Nat.cast_add,
        Nat.cast_one, add_mul, one_mul, ← add_assoc]
      rfl
    · rw [getD_modify_of_ne hvx, ih hw.2, List.count_cons_of_ne hvx]

theorem gain_eq (ht : t.Bounded) (hsource : source < t.size) (h : CountsPaths t source s) {gone ws : List Nat}
    {share : Array ℚ} (htaken : s.taken = gone ++ ws) (hsize : share.size = t.size)
    (hshare : ∀ x < t.size, share.getD x 0 = (gone.map (CountsPaths.part t source s x)).sum) (x : Nat) :
    gain s source ws share x = if x ∈ ws ∧ x ≠ source then t.dependency source x else 0 := by
  induction ws generalizing gone share with
  | nil => simp [gain]
  | cons w ws ih =>
    have hw : w < t.size := ((h.mem_taken w).mp (by simp [htaken])).lt_size ht hsource
    have hself : w ∉ s.parents.getD w [] := by
      intro hparent
      obtain ⟨_, _, hd⟩ := h.nearer w w hparent
      omega
    have hdependency : share.getD w 0 = t.dependency source w := by
      rw [hshare w hw, h.sum_part ht hsource htaken]
    have hnext : ∀ y < t.size, (shareBack s share w).getD y 0 =
        ((gone ++ [w]).map (CountsPaths.part t source s y)).sum := by
      intro y hy
      rw [shareBack_getD s hself (hsize ▸ hy), hdependency, hshare y hy, List.map_append, List.sum_append,
        List.map_singleton, List.sum_singleton]
      rfl
    have hnodup := h.nodup
    rw [htaken] at hnodup
    have hnew : w ∉ ws := (List.nodup_cons.mp (List.nodup_append.mp hnodup).2.1).1
    rw [gain, ih (by rw [htaken, List.append_assoc]; rfl) ((size_shareBack s share w).trans hsize) hnext,
      shareBack_getD_of_not_mem s share hself, hdependency]
    by_cases hwx : w = x
    · subst hwx
      by_cases hne : w = source <;> simp [hne, hnew]
    · simp [hwx, Ne.symm hwx]

theorem contribution_eq (ht : t.Bounded) (hsource : source < t.size) (x : Nat) :
    contribution t source x = if source = x then 0 else t.dependency source x := by
  have hcounts := search_countsPaths ht hsource
  have hzero : ∀ y < t.size, (Array.replicate t.size (0 : ℚ)).getD y 0 =
      (([] : List Nat).map (CountsPaths.part t source (search t source) y)).sum := by
    intro y hy
    simp [hy]
  rw [contribution, gain_eq ht hsource hcounts (List.nil_append _).symm Array.size_replicate hzero]
  by_cases hx : source = x
  · rw [if_pos hx, if_neg fun h => h.2 hx.symm]
  · rw [if_neg hx]
    by_cases hreach : t.Reaches source x
    · rw [if_pos ⟨(hcounts.mem_taken x).mpr hreach, Ne.symm hx⟩]
    · rw [if_neg fun h => hreach ((hcounts.mem_taken x).mp h.1), Topology.dependency_of_not_reaches hreach]

/-- The exact betweenness of every node is its share of the shortest paths between other nodes. -/
theorem compute_eq_betweenness (n : Nat) (arcs : List (Arc ℚ)) :
    compute (.ofArcs n arcs) = (List.range n).map (Arc.betweenness n arcs) := by
  have ht := Topology.bounded_ofArcs n arcs
  have hsize := Topology.size_ofArcs n arcs
  apply List.ext_getElem?
  intro v
  rw [compute_getElem?, List.getElem?_map, hsize]
  by_cases hv : v < n
  · rw [if_pos hv, List.getElem?_range hv, Option.map_some, Arc.betweenness_eq, ← List.toFinset_range,
      List.sum_toFinset _ List.nodup_range]
    refine congrArg (fun shares : List ℚ => some shares.sum) (List.map_congr_left ?_)
    intro source hsource
    exact contribution_eq ht (by rw [hsize]; exact List.mem_range.mp hsource) v
  · rw [if_neg hv, List.getElem?_eq_none (by rw [List.length_range]; omega), Option.map_none]

-- Two parallel arcs are two paths.
example : compute (.ofArcs 4 [⟨0, 1, 1⟩, ⟨0, 1, 1⟩, ⟨0, 2, 1⟩, ⟨1, 3, 1⟩, ⟨2, 3, 1⟩]) = [0, 2 / 3, (1 / 3 : ℚ), 0] := by
  decide +kernel

end Betweenness

end ModuleGraph
