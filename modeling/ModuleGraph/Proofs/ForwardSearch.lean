import ModuleGraph.Proofs.PathCount
import ModuleGraph.Proofs.ShortestPath

namespace ModuleGraph

/-- Counts add up as numbers, and no other count is zero. -/
def Scalar.CountsExactly (K : Type) [Scalar K] : Prop :=
  (∀ a b : Nat, (Scalar.ofNat a : K) + Scalar.ofNat b = Scalar.ofNat (a + b)) ∧
    ∀ a : Nat, (Scalar.ofNat a : K) = Scalar.zero → a = 0

theorem Scalar.countsExactly_rat : Scalar.CountsExactly ℚ :=
  ⟨fun a b => (Nat.cast_add a b).symm, fun _ ha => Nat.cast_eq_zero.mp (ha.trans Scalar.rat_zero)⟩

namespace Topology

variable {K L : Type} {t : Topology K} {t' : Topology L}

structure SameEdges (t : Topology K) (t' : Topology L) : Prop where
  size_eq : t.size = t'.size
  successors_eq : ∀ v, t.successors v = t'.successors v

namespace SameEdges

theorem walks_eq (h : SameEdges t t') (k v w : Nat) : t.walks k v w = t'.walks k v w := by
  induction k generalizing v with
  | zero => rfl
  | succ k ih => simp only [walks, h.successors_eq v, ih]

theorem distance_eq (h : SameEdges t t') (v w : Nat) : t.distance v w = t'.distance v w := by
  simp only [distance, h.walks_eq]

theorem reaches_iff (h : SameEdges t t') (v w : Nat) : t.Reaches v w ↔ t'.Reaches v w := by
  simp only [Reaches, h.successors_eq]

theorem bounded (h : SameEdges t t') (ht : t.Bounded) : t'.Bounded := by
  intro v w hw
  rw [← h.size_eq]
  exact ht v w (by rwa [h.successors_eq])

end SameEdges

def unweighted (t : Topology K) : Topology ℚ where
  outgoing := t.outgoing.map (List.map fun e => (e.1, 0))
  incoming := t.incoming

theorem sameEdges_unweighted (t : Topology K) : SameEdges t t.unweighted where
  size_eq := Array.size_map.symm
  successors_eq v := by
    unfold successors weightedSuccessors unweighted
    rw [Array.getD_eq_getD_getElem?, Array.getD_eq_getD_getElem?, Array.getElem?_map]
    cases t.outgoing[v]? with
    | none => rfl
    | some edges => simp

end Topology

namespace Arc

variable {K : Type} {n : Nat} {arcs : List (Arc K)} {d v w : Nat}

theorem exists_isShortest_iff : (∃ p, IsShortest n arcs v p w ∧ p.length = d) ↔
    (Topology.ofArcs n arcs).Reaches v w ∧ (Topology.ofArcs n arcs).distance v w = d := by
  constructor
  · rintro ⟨p, hp, rfl⟩
    have hreach := exists_isPath_iff.mp ⟨p, hp.1⟩
    exact ⟨hreach, (mem_paths.mp ((isShortest_iff hreach).mp hp)).1.symm⟩
  · rintro ⟨hreach, rfl⟩
    obtain ⟨p, hlength, hp⟩ := exists_isPath (Topology.walks_distance_pos hreach)
    exact ⟨p, (isShortest_iff hreach).mpr (mem_paths.mpr ⟨hlength, hp⟩), hlength⟩

theorem ncard_isShortest_of_not_reaches (h : ¬ (Topology.ofArcs n arcs).Reaches v w) :
    {p | IsShortest n arcs v p w}.ncard = 0 := by
  have hempty : {p | IsShortest n arcs v p w} = ∅ := by
    rw [Set.eq_empty_iff_forall_notMem]
    intro p hp
    exact h (exists_isPath_iff.mp ⟨p, hp.1⟩)
  rw [hempty, Set.ncard_empty]

theorem count_successors (n : Nat) (arcs : List (Arc K)) (v w : Nat) :
    ((Topology.ofArcs n arcs).successors v).count w =
      arcs.countP fun a => Topology.inRange n a && a.source == v && a.target == w := by
  rw [Topology.successors_ofArcs, List.count, List.countP_map, List.countP_filter]
  apply List.countP_congr
  intro a _
  simp only [Function.comp_apply, Bool.and_eq_true, beq_iff_eq]
  tauto

end Arc

namespace Betweenness

open Scalar

variable {K L : Type} [Scalar K] [Scalar L]

theorem getD_map_ofNat (counts : Array Nat) (v : Nat) :
    (counts.map (ofNat : Nat → K)).getD v zero = ofNat (counts.getD v 0) := by
  rw [Array.getD_eq_getD_getElem?, Array.getD_eq_getD_getElem?, Array.getElem?_map]
  cases counts[v]? <;> rfl

namespace Search

/-- Two searches over different numbers that have come equally far: they agree in all but the numbers, which stand for
the same counts. -/
structure Alike (s : Search K) (s' : Search L) : Prop where
  taken : s.taken = s'.taken
  queue : s.queue = s'.queue
  distance : s.distance = s'.distance
  parents : s.parents = s'.parents
  counts : CountsExactly K → CountsExactly L →
    ∃ counts : Array Nat, s.paths = counts.map ofNat ∧ s'.paths = counts.map ofNat

namespace Alike

variable {s : Search K} {s' : Search L}

theorem start (n source : Nat) : Alike (.start n source : Search K) (.start n source : Search L) where
  taken := rfl
  queue := rfl
  distance := rfl
  parents := rfl
  counts _ _ := by
    have hpaths : ∀ {M : Type} [Scalar M], (Search.start n source : Search M).paths =
        ((Array.replicate n 0).modify source fun _ => 1).map ofNat := by
      intro M _
      have hzero : Array.replicate n (zero : M) = (Array.replicate n 0).map ofNat := by
        rw [Array.map_replicate]
        rfl
      unfold Search.start
      rw [hzero]
      exact modify_map ofNat (fun _ => 1) (fun _ => one) (fun _ => rfl) _ source
    exact ⟨_, hpaths, hpaths⟩

theorem meet (h : Alike s s') (d w : Nat) : Alike (s.meet d w) (s'.meet d w) := by
  have hdistance : s.distance.getD w none = s'.distance.getD w none := by rw [h.distance]
  rw [Search.meet, Search.meet, hdistance]
  split
  · exact { h with queue := by rw [h.queue], distance := by rw [h.distance] }
  · exact h

theorem link (h : Alike s s') (v d w : Nat) : Alike (s.link v d w) (s'.link v d w) := by
  have hdistance : s.distance.getD w none = s'.distance.getD w none := by rw [h.distance]
  rw [Search.link, Search.link, hdistance]
  split
  · refine { h with parents := by rw [h.parents], counts := fun hK hL => ?_ }
    obtain ⟨counts, hs, hs'⟩ := h.counts hK hL
    refine ⟨counts.modify w (· + counts.getD v 0), ?_, ?_⟩
    · rw [hs, getD_map_ofNat, modify_map _ _ _ fun a => hK.1 a _]
    · rw [hs', getD_map_ofNat, modify_map _ _ _ fun a => hL.1 a _]
  · exact h

theorem foldl_follow (h : Alike s s') (v d : Nat) (ws : List Nat) :
    Alike (ws.foldl (follow v d) s) (ws.foldl (follow v d) s') := by
  induction ws generalizing s s' with
  | nil => exact h
  | cons w ws ih =>
    rw [List.foldl_cons, List.foldl_cons, follow_eq, follow_eq]
    exact ih ((h.meet d w).link v d w)

variable {t : Topology K} {t' : Topology L}

theorem step (h : Alike s s') (ht : t.SameEdges t') : Alike (s.step t) (s'.step t') := by
  unfold Search.step
  rw [h.queue]
  cases s'.queue with
  | nil => exact h
  | cons v queue =>
    have hnext : Alike { s with taken := v :: s.taken, queue } { s' with taken := v :: s'.taken, queue } :=
      { h with taken := by rw [h.taken], queue := rfl }
    have hdistance : s.distance.getD v none = s'.distance.getD v none := by rw [h.distance]
    dsimp only
    rw [hdistance]
    cases s'.distance.getD v none with
    | none => exact hnext
    | some d =>
      dsimp only
      rw [ht.successors_eq v]
      exact hnext.foldl_follow v d (t'.successors v)

theorem run (h : Alike s s') (ht : t.SameEdges t') (left : Nat) :
    Alike (Search.run t left s) (Search.run t' left s') := by
  induction left generalizing s s' with
  | zero => exact h
  | succ left ih => exact ih (h.step ht)

end Alike

end Search

theorem search_alike {t : Topology K} {t' : Topology L} (ht : t.SameEdges t') (source : Nat) :
    Search.Alike (search t source) (search t' source) := by
  rw [search, search, ht.size_eq]
  exact (Search.Alike.start t'.size source).run ht t'.size

/-- What a search that is over says about the paths along arcs from its source: it has taken up the nodes at their ends,
each once and none before a nearer one, and it has noted how long the shortest paths are, how many they are, and from
which nodes their last arcs come. -/
structure FindsPaths (n : Nat) (arcs : List (Arc K)) (source : Nat) (s : Search K) : Prop where
  queue_eq : s.queue = []
  nodup : s.taken.Nodup
  mem_taken : ∀ v, v ∈ s.taken ↔ ∃ p, Arc.IsPath n arcs source p v
  rising : s.taken.reverse.Pairwise fun v w => ∀ d e, s.MetAt v d → s.MetAt w e → d ≤ e
  metAt_iff : ∀ v d, s.MetAt v d ↔ ∃ p, Arc.IsShortest n arcs source p v ∧ p.length = d
  unmet_iff : ∀ v, s.distance.getD v none = none ↔ ¬ ∃ p, Arc.IsPath n arcs source p v
  nearer : ∀ v w, v ∈ s.parents.getD w [] → ∃ d, s.MetAt v d ∧ s.MetAt w (d + 1)
  count_parents : ∀ v w d, s.MetAt v d → s.MetAt w (d + 1) →
    (s.parents.getD w []).count v = arcs.countP fun a => Topology.inRange n a && a.source == v && a.target == w
  paths_eq : CountsExactly K → ∀ v, s.paths.getD v zero = ofNat {p | Arc.IsShortest n arcs source p v}.ncard
  paths_ne_zero : CountsExactly K → ∀ v ∈ s.taken, s.paths.getD v zero ≠ zero

theorem paths_of_not_reaches {t : Topology ℚ} {source v : Nat} (ht : t.Bounded) (hsource : source < t.size)
    (hv : ¬ t.Reaches source v) : (search t source).paths.getD v 0 = 0 := by
  have hparents : (search t source).parents.getD v [] = [] := by
    rw [List.eq_nil_iff_forall_not_mem]
    intro u hu
    exact hv ((search_countsPaths ht hsource).nearer u v hu).2.1
  have hne : v ≠ source := by
    rintro rfl
    exact hv (.refl v)
  rw [(counted_search ht hsource).paths_eq, if_neg hne, hparents, List.map_nil, List.sum_nil, add_zero]

section Unweighted

variable {n source : Nat} (arcs : List (Arc K)) (hsource : source < n)
include hsource

theorem search_unweighted :
    Search.Alike (search (.ofArcs n arcs) source) (search (Topology.ofArcs n arcs).unweighted source) ∧
      (Topology.ofArcs n arcs).unweighted.Bounded ∧ source < (Topology.ofArcs n arcs).unweighted.size := by
  have hsame := Topology.sameEdges_unweighted (Topology.ofArcs n arcs)
  refine ⟨search_alike hsame source, hsame.bounded (Topology.bounded_ofArcs n arcs), ?_⟩
  rw [← hsame.size_eq, Topology.size_ofArcs]
  exact hsource

theorem metAt_search (v d : Nat) :
    (search (.ofArcs n arcs) source).MetAt v d ↔
      (Topology.ofArcs n arcs).Reaches source v ∧ (Topology.ofArcs n arcs).distance source v = d := by
  obtain ⟨halike, hbounded, hlt⟩ := search_unweighted arcs hsource
  have hsame := Topology.sameEdges_unweighted (Topology.ofArcs n arcs)
  have hmet := (search_countsPaths hbounded hlt).metAt_iff v d
  rw [← hsame.reaches_iff, ← hsame.distance_eq] at hmet
  rw [Search.MetAt, halike.distance]
  exact hmet

theorem paths_search (hK : CountsExactly K) (v : Nat) :
    (search (.ofArcs n arcs) source).paths.getD v zero = ofNat {p | Arc.IsShortest n arcs source p v}.ncard := by
  obtain ⟨halike, hbounded, hlt⟩ := search_unweighted arcs hsource
  have hsame := Topology.sameEdges_unweighted (Topology.ofArcs n arcs)
  obtain ⟨counts, hcounts, hrational⟩ := halike.counts hK countsExactly_rat
  have hvalue : ((counts.getD v 0 : Nat) : ℚ) = {p | Arc.IsShortest n arcs source p v}.ncard := by
    have hget : (search (Topology.ofArcs n arcs).unweighted source).paths.getD v 0 = (counts.getD v 0 : Nat) := by
      rw [hrational]
      exact getD_map_ofNat counts v
    rw [← hget]
    by_cases hreach : (Topology.ofArcs n arcs).Reaches source v
    · rw [(search_countsPaths hbounded hlt).paths_eq v ((hsame.reaches_iff source v).mp hreach),
        Arc.ncard_isShortest hreach, hsame.distance_eq, hsame.walks_eq]
    · rw [paths_of_not_reaches hbounded hlt (mt (hsame.reaches_iff source v).mpr hreach),
        Arc.ncard_isShortest_of_not_reaches hreach, Nat.cast_zero]
  rw [hcounts, getD_map_ofNat, Nat.cast_inj.mp hvalue]

end Unweighted

/-- The search from a source takes up every node that can be reached, once and in the order of distance, and ends. It
knows the least number of arcs to each one and has none for the others, counts the shortest paths, and lists as parents
of a node the nodes one step nearer, once for every arc. -/
theorem search_findsPaths (n : Nat) (arcs : List (Arc K)) {source : Nat} (hsource : source < n) :
    FindsPaths n arcs source (search (.ofArcs n arcs) source) := by
  obtain ⟨halike, hbounded, hlt⟩ := search_unweighted arcs hsource
  have hsame := Topology.sameEdges_unweighted (Topology.ofArcs n arcs)
  have hcounts := search_countsPaths hbounded hlt
  have hmet := metAt_search arcs hsource
  have htaken : ∀ v, v ∈ (search (.ofArcs n arcs) source).taken ↔ (Topology.ofArcs n arcs).Reaches source v := by
    intro v
    rw [halike.taken, hcounts.mem_taken, hsame.reaches_iff]
  refine
    { queue_eq := by rw [halike.queue, queue_search hbounded hlt]
      nodup := by rw [halike.taken]; exact hcounts.nodup
      mem_taken := fun v => by rw [htaken, Arc.exists_isPath_iff]
      rising := ?_
      metAt_iff := fun v d => by rw [hmet, Arc.exists_isShortest_iff]
      unmet_iff := ?_
      nearer := ?_
      count_parents := ?_
      paths_eq := fun hK v => paths_search arcs hsource hK v
      paths_ne_zero := ?_ }
  · rw [halike.taken, List.pairwise_reverse]
    refine hcounts.falling.imp ?_
    intro w v hle d e hd he
    obtain ⟨_, rfl⟩ := (hmet v d).mp hd
    obtain ⟨_, rfl⟩ := (hmet w e).mp he
    rw [hsame.distance_eq, hsame.distance_eq]
    exact hle
  · intro v
    rw [Arc.exists_isPath_iff, Option.eq_none_iff_forall_ne_some]
    constructor
    · intro hnone hreach
      exact hnone _ ((hmet v _).mpr ⟨hreach, rfl⟩)
    · intro hreach d hd
      exact hreach ((hmet v d).mp hd).1
  · intro v w hv
    rw [halike.parents] at hv
    obtain ⟨hreachv, hreachw, hdistance⟩ := hcounts.nearer v w hv
    rw [← hsame.reaches_iff] at hreachv hreachw
    rw [← hsame.distance_eq, ← hsame.distance_eq] at hdistance
    exact ⟨_, (hmet v _).mpr ⟨hreachv, rfl⟩, (hmet w _).mpr ⟨hreachw, hdistance⟩⟩
  · intro v w d hv hw
    obtain ⟨hreachv, rfl⟩ := (hmet v d).mp hv
    obtain ⟨hreachw, hdistance⟩ := (hmet w _).mp hw
    rw [hsame.reaches_iff] at hreachv hreachw
    rw [hsame.distance_eq, hsame.distance_eq] at hdistance
    rw [halike.parents, hcounts.count_eq v w hreachv hreachw hdistance, ← hsame.successors_eq, Arc.count_successors]
  · intro hK v hv hzero
    rw [paths_search arcs hsource hK] at hzero
    have hpos := Topology.walks_distance_pos ((htaken v).mp hv)
    rw [← Arc.ncard_isShortest ((htaken v).mp hv), hK.2 _ hzero] at hpos
    omega

/-- Two parallel arcs, an arc back to the source and one from a node to itself: three shortest paths. -/
theorem search_findsPaths_of_parallel :
    ∃ arcs : List (Arc ℚ), arcs = [⟨0, 1, 1⟩, ⟨0, 1, 1⟩, ⟨0, 2, 1⟩, ⟨1, 3, 1⟩, ⟨2, 3, 1⟩, ⟨3, 0, 1⟩, ⟨1, 1, 1⟩] ∧ 0 < 5 ∧
      FindsPaths 5 arcs 0 (search (.ofArcs 5 arcs) 0) ∧ {p | Arc.IsShortest 5 arcs 0 p 3}.ncard = 3 := by
  refine ⟨_, rfl, by decide, search_findsPaths 5 _ (by decide), ?_⟩
  have hcount := fun arcs : List (Arc ℚ) => (search_findsPaths 5 arcs (by decide : 0 < 5)).paths_eq countsExactly_rat 3
  refine Nat.cast_injective ((hcount _).symm.trans ?_)
  decide +kernel

end Betweenness

end ModuleGraph
