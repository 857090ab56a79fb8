import ModuleGraph.Proofs.CycleExactness
import ModuleGraph.Proofs.Walks
import Mathlib.Algebra.BigOperators.Fin
import Mathlib.Algebra.BigOperators.Field
import Mathlib.Data.Finset.Prod
import Mathlib.Data.Set.Card
import Mathlib.Data.Rat.Defs

namespace ModuleGraph

namespace Arc

variable {K : Type} {n : Nat} {arcs : List (Arc K)} {j k s u v w z : Nat} {p q : List (Fin arcs.length)}

/-- Arcs in range, given by their places in the list, lead one after the other from one node to another one. -/
def IsPath (n : Nat) (arcs : List (Arc K)) : Nat → List (Fin arcs.length) → Nat → Prop
  | v, [], w => v = w
  | v, i :: p, w =>
    (arcs.get i).source = v ∧ Topology.inRange n (arcs.get i) = true ∧ IsPath n arcs (arcs.get i).target p w

/-- A path of as few arcs as any. -/
def IsShortest (n : Nat) (arcs : List (Arc K)) (v : Nat) (p : List (Fin arcs.length)) (w : Nat) : Prop :=
  IsPath n arcs v p w ∧ ∀ q, IsPath n arcs v q w → p.length ≤ q.length

def Visits (arcs : List (Arc K)) (p : List (Fin arcs.length)) (v : Nat) : Prop :=
  ∃ i ∈ p, (arcs.get i).target = v

open Classical in
/-- The sum, over all ordered pairs of different nodes that are both not `v` and the second of which can be reached
from the first, of the share of the shortest paths between them that come through `v`. -/
noncomputable def betweenness (n : Nat) (arcs : List (Arc K)) (v : Nat) : ℚ :=
  ∑ s ∈ Finset.range n, ∑ z ∈ Finset.range n,
    if s ≠ z ∧ s ≠ v ∧ z ≠ v ∧ ∃ p, IsPath n arcs s p z then
      ({p | IsShortest n arcs s p z ∧ Visits arcs p v}.ncard : ℚ) / {p | IsShortest n arcs s p z}.ncard
    else 0

theorem isPath_append : IsPath n arcs v (p ++ q) w ↔ ∃ u, IsPath n arcs v p u ∧ IsPath n arcs u q w := by
  induction p generalizing v with
  | nil => simp [IsPath]
  | cons i p ih =>
    simp only [List.cons_append, IsPath, ih]
    constructor
    · rintro ⟨hs, hr, u, hp, hq⟩
      exact ⟨u, ⟨hs, hr, hp⟩, hq⟩
    · rintro ⟨u, ⟨hs, hr, hp⟩, hq⟩
      exact ⟨hs, hr, u, hp, hq⟩

def paths (n : Nat) (arcs : List (Arc K)) : (length : Nat) → (v w : Nat) → Finset (List (Fin arcs.length))
  | 0, v, w => if v = w then {[]} else ∅
  | length + 1, v, w =>
    (Finset.univ.filter fun i => (arcs.get i).source = v ∧ Topology.inRange n (arcs.get i) = true).biUnion fun i =>
      (paths n arcs length (arcs.get i).target w).image (i :: ·)

theorem mem_paths : p ∈ paths n arcs k v w ↔ p.length = k ∧ IsPath n arcs v p w := by
  induction k generalizing v p with
  | zero =>
    unfold paths
    cases p with
    | nil => by_cases h : v = w <;> simp [IsPath, h]
    | cons i p => by_cases h : v = w <;> simp [h]
  | succ k ih =>
    simp only [paths, Finset.mem_biUnion, Finset.mem_filter, Finset.mem_univ, true_and, Finset.mem_image, ih]
    cases p with
    | nil => simp
    | cons i p =>
      simp only [List.cons.injEq, List.length_cons, Nat.add_right_cancel_iff, IsPath]
      constructor
      · rintro ⟨_, ⟨hs, hr⟩, _, ⟨hk, hp⟩, rfl, rfl⟩
        exact ⟨hk, hs, hr, hp⟩
      · rintro ⟨hk, hs, hr, hp⟩
        exact ⟨i, ⟨hs, hr⟩, p, ⟨hk, hp⟩, rfl, rfl⟩

theorem card_paths (n : Nat) (arcs : List (Arc K)) (k v w : Nat) :
    (paths n arcs k v w).card = (Topology.ofArcs n arcs).walks k v w := by
  induction k generalizing v with
  | zero =>
    unfold paths Topology.walks
    by_cases h : v = w <;> simp [h]
  | succ k ih =>
    have hdisjoint : ∀ i j : Fin arcs.length, i ≠ j →
        Disjoint ((paths n arcs k (arcs.get i).target w).image (i :: ·))
          ((paths n arcs k (arcs.get j).target w).image (j :: ·)) := by
      intro i j hij
      rw [Finset.disjoint_left]
      intro p hp hp'
      obtain ⟨q, _, rfl⟩ := Finset.mem_image.mp hp
      obtain ⟨q', _, heq⟩ := Finset.mem_image.mp hp'
      exact hij (List.cons.inj heq).1.symm
    have hterm : ∀ i : Fin arcs.length, ((paths n arcs k (arcs.get i).target w).image (i :: ·)).card =
        (Topology.ofArcs n arcs).walks k (arcs.get i).target w := by
      intro i
      rw [Finset.card_image_of_injective _ (List.cons_injective), ih]
    rw [paths, Finset.card_biUnion fun i _ j _ => hdisjoint i j, Finset.sum_congr rfl fun i _ => hterm i,
      Finset.sum_filter, Topology.walks, Topology.successors_ofArcs, List.map_map]
    refine (Fin.sum_univ_fun_getElem arcs fun a =>
      if a.source = v ∧ Topology.inRange n a = true then (Topology.ofArcs n arcs).walks k a.target w else 0).trans ?_
    rw [List.sum_map_ite, List.sum_map_zero, Nat.add_zero]
    simp only [Bool.decide_and, Bool.decide_eq_true, Bool.and_comm]
    rfl

theorem walks_pos_of_isPath (h : IsPath n arcs v p w) : 0 < (Topology.ofArcs n arcs).walks p.length v w := by
  rw [← card_paths]
  exact Finset.card_pos.mpr ⟨p, mem_paths.mpr ⟨rfl, h⟩⟩

theorem exists_isPath (h : 0 < (Topology.ofArcs n arcs).walks k v w) : ∃ p, p.length = k ∧ IsPath n arcs v p w := by
  rw [← card_paths] at h
  obtain ⟨p, hp⟩ := Finset.card_pos.mp h
  exact ⟨p, mem_paths.mp hp⟩

theorem exists_isPath_iff : (∃ p, IsPath n arcs v p w) ↔ (Topology.ofArcs n arcs).Reaches v w := by
  constructor
  · rintro ⟨p, hp⟩
    exact Topology.reaches_of_walks_pos (walks_pos_of_isPath hp)
  · intro h
    obtain ⟨p, _, hp⟩ := exists_isPath (Topology.walks_distance_pos h)
    exact ⟨p, hp⟩

theorem isShortest_iff (h : (Topology.ofArcs n arcs).Reaches v w) :
    IsShortest n arcs v p w ↔ p ∈ paths n arcs ((Topology.ofArcs n arcs).distance v w) v w := by
  rw [mem_paths]
  constructor
  · rintro ⟨hp, hle⟩
    obtain ⟨q, hq, hpath⟩ := exists_isPath (Topology.walks_distance_pos h)
    have hshort := hle q hpath
    have hdist := Topology.distance_le (walks_pos_of_isPath hp)
    exact ⟨by omega, hp⟩
  · rintro ⟨hlength, hp⟩
    refine ⟨hp, fun q hq => ?_⟩
    rw [hlength]
    exact Topology.distance_le (walks_pos_of_isPath hq)

theorem ncard_isShortest (h : (Topology.ofArcs n arcs).Reaches v w) :
    {p | IsShortest n arcs v p w}.ncard =
      (Topology.ofArcs n arcs).walks ((Topology.ofArcs n arcs).distance v w) v w := by
  have hset : {p | IsShortest n arcs v p w} = paths n arcs ((Topology.ofArcs n arcs).distance v w) v w := by
    ext p
    exact isShortest_iff h
  rw [hset, Set.ncard_coe_finset, card_paths]

theorem exists_split (hp : IsPath n arcs s p z) (hv : Visits arcs p v) :
    ∃ q r, p = q ++ r ∧ IsPath n arcs s q v ∧ IsPath n arcs v r z := by
  obtain ⟨i, hi, rfl⟩ := hv
  obtain ⟨q, r, rfl⟩ := List.append_of_mem hi
  rw [List.append_cons, isPath_append] at hp
  obtain ⟨u, hq, hr⟩ := hp
  obtain ⟨x, hx, hxi⟩ := isPath_append.mp hq
  obtain ⟨_, _, hu⟩ := hxi
  exact ⟨q ++ [i], r, List.append_cons q i r, hu ▸ hq, hu ▸ hr⟩

theorem visits_append (hp : IsPath n arcs s p v) (hne : s ≠ v) (q : List (Fin arcs.length)) : Visits arcs (p ++ q) v := by
  rcases List.eq_nil_or_concat p with rfl | ⟨r, i, rfl⟩
  · exact absurd hp hne
  · rw [List.concat_eq_append, isPath_append] at hp
    obtain ⟨u, _, _, _, hi⟩ := hp
    exact ⟨i, by simp, hi⟩

theorem length_of_isShortest_append (h : IsShortest n arcs s (p ++ q) z) (hp : IsPath n arcs s p v)
    (hq : IsPath n arcs v q z) : p.length = (Topology.ofArcs n arcs).distance s v := by
  have hpos := walks_pos_of_isPath hp
  obtain ⟨r, hr, hpath⟩ := exists_isPath (Topology.walks_distance_pos (Topology.reaches_of_walks_pos hpos))
  have hle := h.2 (r ++ q) (isPath_append.mpr ⟨v, hpath, hq⟩)
  have hdist := Topology.distance_le hpos
  rw [List.length_append, List.length_append] at hle
  omega

theorem distance_le_of_visits (hz : (Topology.ofArcs n arcs).Reaches s z) (h : IsShortest n arcs s p z)
    (hv : Visits arcs p v) : (Topology.ofArcs n arcs).distance s v ≤ (Topology.ofArcs n arcs).distance s z := by
  obtain ⟨q, r, rfl, hq, hr⟩ := exists_split h.1 hv
  have hlength := length_of_isShortest_append h hq hr
  have hwhole := (mem_paths.mp ((isShortest_iff hz).mp h)).1
  rw [List.length_append] at hwhole
  omega

/-- The shortest paths through a node are the shortest paths to it, each followed by a path of the length that is
left. -/
theorem isShortest_visits_iff (hz : (Topology.ofArcs n arcs).Reaches s z) (hne : s ≠ v)
    (hv : (Topology.ofArcs n arcs).distance s v = j) (hd : (Topology.ofArcs n arcs).distance s z = j + k) :
    IsShortest n arcs s p z ∧ Visits arcs p v ↔
      ∃ x ∈ paths n arcs j s v ×ˢ paths n arcs k v z, x.1 ++ x.2 = p := by
  simp only [Finset.mem_product, mem_paths, isShortest_iff hz, hd]
  constructor
  · rintro ⟨⟨hlength, hp⟩, hvisits⟩
    obtain ⟨q, r, rfl, hq, hr⟩ := exists_split hp hvisits
    have hshort := (isShortest_iff hz).mpr (mem_paths.mpr ⟨hlength.trans hd.symm, hp⟩)
    have hqlength := length_of_isShortest_append hshort hq hr
    rw [List.length_append] at hlength
    have hj : q.length = j := by omega
    have hk : r.length = k := by omega
    exact ⟨(q, r), ⟨⟨hj, hq⟩, hk, hr⟩, rfl⟩
  · rintro ⟨x, ⟨⟨hj, hq⟩, hk, hr⟩, rfl⟩
    refine ⟨⟨?_, isPath_append.mpr ⟨v, hq, hr⟩⟩, visits_append hq hne x.2⟩
    rw [List.length_append, hj, hk]

theorem ncard_isShortest_visits (hz : (Topology.ofArcs n arcs).Reaches s z) (hne : s ≠ v)
    (hv : (Topology.ofArcs n arcs).distance s v = j) (hd : (Topology.ofArcs n arcs).distance s z = j + k) :
    {p | IsShortest n arcs s p z ∧ Visits arcs p v}.ncard =
      (Topology.ofArcs n arcs).walks j s v * (Topology.ofArcs n arcs).walks k v z := by
  have hset : {p | IsShortest n arcs s p z ∧ Visits arcs p v} =
      ((paths n arcs j s v ×ˢ paths n arcs k v z).image fun x => x.1 ++ x.2 : Finset (List (Fin arcs.length))) := by
    ext p
    rw [Finset.coe_image]
    exact isShortest_visits_iff hz hne hv hd
  have hinj : Set.InjOn (fun x : List (Fin arcs.length) × List (Fin arcs.length) => x.1 ++ x.2)
      (paths n arcs j s v ×ˢ paths n arcs k v z : Finset _) := by
    intro x hx y hy heq
    have hxj := (mem_paths.mp (Finset.mem_product.mp hx).1).1
    have hyj := (mem_paths.mp (Finset.mem_product.mp hy).1).1
    obtain ⟨hfst, hsnd⟩ := List.append_inj heq (hxj.trans hyj.symm)
    exact Prod.ext hfst hsnd
  rw [hset, Set.ncard_coe_finset, Finset.card_image_of_injOn hinj, Finset.card_product, card_paths, card_paths]

theorem ncard_isShortest_visits_of_lt (hz : (Topology.ofArcs n arcs).Reaches s z)
    (hlt : (Topology.ofArcs n arcs).distance s z < (Topology.ofArcs n arcs).distance s v) :
    {p | IsShortest n arcs s p z ∧ Visits arcs p v}.ncard = 0 := by
  have hempty : {p | IsShortest n arcs s p z ∧ Visits arcs p v} = ∅ := by
    rw [Set.eq_empty_iff_forall_notMem]
    rintro p ⟨hshort, hvisits⟩
    have hle := distance_le_of_visits hz hshort hvisits
    omega
  rw [hempty, Set.ncard_empty]

end Arc

open Classical in
/-- The share of a node in the shortest paths from a source to a node that is farther away. -/
noncomputable def Topology.share {K : Type} (t : Topology K) (s v z : Nat) : ℚ :=
  if t.Reaches s v ∧ t.Reaches s z ∧ t.distance s v < t.distance s z then
    (t.walks (t.distance s v) s v : ℚ) * t.walks (t.distance s z - t.distance s v) v z / t.walks (t.distance s z) s z
  else 0

/-- The dependency of a source on a node: the shares of the node in the shortest paths to all nodes. -/
noncomputable def Topology.dependency {K : Type} (t : Topology K) (s v : Nat) : ℚ :=
  ∑ z ∈ Finset.range t.size, t.share s v z

namespace Arc

variable {K : Type} {n : Nat} {arcs : List (Arc K)} {s v z : Nat}

theorem ncard_div_ncard (hsv : s ≠ v) (hzv : z ≠ v) (hz : (Topology.ofArcs n arcs).Reaches s z) :
    ({p | IsShortest n arcs s p z ∧ Visits arcs p v}.ncard : ℚ) / {p | IsShortest n arcs s p z}.ncard =
      (Topology.ofArcs n arcs).share s v z := by
  unfold Topology.share
  rcases Nat.lt_or_ge ((Topology.ofArcs n arcs).distance s z) ((Topology.ofArcs n arcs).distance s v) with hlt | hge
  · rw [ncard_isShortest_visits_of_lt hz hlt, Nat.cast_zero, zero_div, if_neg]
    omega
  · obtain ⟨k, hk⟩ := Nat.exists_eq_add_of_le hge
    rw [ncard_isShortest_visits hz hsv rfl hk, ncard_isShortest hz, Nat.cast_mul]
    by_cases hv : (Topology.ofArcs n arcs).Reaches s v
    · cases k with
      | zero => rw [Topology.walks_zero_of_ne _ (Ne.symm hzv), Nat.cast_zero, mul_zero, zero_div, if_neg (by omega)]
      | succ k => rw [if_pos ⟨hv, hz, by omega⟩, hk, Nat.add_sub_cancel_left]
    · have hnone : (Topology.ofArcs n arcs).walks ((Topology.ofArcs n arcs).distance s v) s v = 0 := by
        by_contra hne
        exact hv (Topology.reaches_of_walks_pos (Nat.pos_of_ne_zero hne))
      rw [hnone, Nat.cast_zero, zero_mul, zero_div, if_neg fun h => hv h.1]

theorem betweenness_eq (n : Nat) (arcs : List (Arc K)) (v : Nat) :
    betweenness n arcs v =
      ∑ s ∈ Finset.range n, if s = v then 0 else (Topology.ofArcs n arcs).dependency s v := by
  unfold betweenness Topology.dependency
  rw [Topology.size_ofArcs]
  refine Finset.sum_congr rfl fun s _ => ?_
  by_cases hsv : s = v
  · rw [if_pos hsv]
    exact Finset.sum_eq_zero fun z _ => if_neg fun h => h.2.1 hsv
  · rw [if_neg hsv]
    refine Finset.sum_congr rfl fun z _ => ?_
    split
    case isTrue h => exact ncard_div_ncard hsv h.2.2.1 (exists_isPath_iff.mp h.2.2.2)
    case isFalse h =>
      symm
      apply if_neg
      rintro ⟨_, hz, hlt⟩
      refine h ⟨?_, hsv, ?_, exists_isPath_iff.mpr hz⟩
      · rintro rfl
        rw [Topology.distance_self] at hlt
        omega
      · rintro rfl
        omega

end Arc

end ModuleGraph
