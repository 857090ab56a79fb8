import ModuleGraph.Graph.Ranking
import ModuleGraph.Proofs.ExactNumbers
import ModuleGraph.Proofs.GroupingOrder

namespace ModuleGraph

theorem transCmp_on {α β : Type} (cmp : β → β → Ordering) [Std.TransCmp cmp] (key : α → β) :
    Std.TransCmp fun a b => cmp (key a) (key b) where
  eq_swap := Std.OrientedCmp.eq_swap
  isLE_trans := Std.TransCmp.isLE_trans

theorem transCmp_then {α : Type} (cmp cmp' : α → α → Ordering) [Std.TransCmp cmp] [Std.TransCmp cmp'] :
    Std.TransCmp fun a b => (cmp a b).then (cmp' a b) :=
  inferInstanceAs (Std.TransCmp (compareLex cmp cmp'))

instance : Std.TransCmp (Scalar.order : ℚ → ℚ → Ordering) := by
  have horder : (Scalar.order : ℚ → ℚ → Ordering) = compare := funext fun a => funext (Scalar.rat_order a)
  rw [horder]
  infer_instance

namespace Rankings

section Comparison

theorem transCmp_more {α : Type} (key : α → Nat) : Std.TransCmp fun a b => compare (key b) (key a) := by
  have hopposite : Std.TransCmp fun a b : Nat => compare b a := Std.TransCmp.opposite
  exact transCmp_on (fun a b : Nat => compare b a) key

variable {K : Type} [Scalar K]

theorem transCmp_importance_on {α : Type} {node : α → Node K}
    (hrank : Std.TransCmp fun a b => descending (node a).metrics.pageRank (node b).metrics.pageRank)
    (hbetween : Std.TransCmp fun a b => descending (node a).metrics.betweenness (node b).metrics.betweenness)
    (hscore : Std.TransCmp fun a b => descending (node a).file.score (node b).file.score) :
    Std.TransCmp fun a b => importance (node a) (node b) := by
  have hin := transCmp_more fun a => (node a).metrics.inDegree
  have hid := transCmp_on compare fun a => (node a).id
  have hlast := @transCmp_then _ _ _ hin (@transCmp_then _ _ _ hscore hid)
  exact @transCmp_then _ _ _ hrank (@transCmp_then _ _ _ hbetween hlast)

theorem transCmp_connectivity_on {α : Type} {node : α → Node K}
    (hrank : Std.TransCmp fun a b => descending (node a).metrics.pageRank (node b).metrics.pageRank)
    (hscore : Std.TransCmp fun a b => descending (node a).file.score (node b).file.score) :
    Std.TransCmp fun a b => connectivity (node a) (node b) := by
  have hdegree := transCmp_more fun a => (node a).metrics.degree
  have hid := transCmp_on compare fun a => (node a).id
  have hlast := @transCmp_then _ _ _ hrank (@transCmp_then _ _ _ hscore hid)
  exact @transCmp_then _ _ _ hdegree hlast

variable [Std.TransCmp (Scalar.order : K → K → Ordering)]

theorem transCmp_descending (key : Node K → K) : Std.TransCmp fun a b => descending (key a) (key b) := by
  have hopposite : Std.TransCmp fun a b : K => Scalar.order b a := Std.TransCmp.opposite
  exact transCmp_on (fun a b : K => Scalar.order b a) key

instance transCmp_importance : Std.TransCmp (importance : Node K → Node K → Ordering) :=
  transCmp_importance_on (transCmp_descending _) (transCmp_descending _) (transCmp_descending _)

instance transCmp_connectivity : Std.TransCmp (connectivity : Node K → Node K → Ordering) :=
  transCmp_connectivity_on (transCmp_descending _) (transCmp_descending _)

instance transCmp_bridging : Std.TransCmp (bridging : Node K → Node K → Ordering) := by
  have hbetween := transCmp_descending fun n : Node K => n.metrics.betweenness
  exact @transCmp_then _ _ _ hbetween transCmp_importance

end Comparison

variable {K : Type} [Scalar K]

theorem id_eq_of_importance {a b : Node K} (h : importance a b = .eq) : a.id = b.id := by
  simp only [importance, Ordering.then_eq_eq] at h
  exact Std.LawfulEqOrd.eq_of_compare h.2.2.2.2

theorem id_eq_of_connectivity {a b : Node K} (h : connectivity a b = .eq) : a.id = b.id := by
  simp only [connectivity, Ordering.then_eq_eq] at h
  exact Std.LawfulEqOrd.eq_of_compare h.2.2.2

theorem id_eq_of_bridging {a b : Node K} (h : bridging a b = .eq) : a.id = b.id :=
  id_eq_of_importance (Ordering.then_eq_eq.mp h).2

omit [Scalar K] in
theorem sortBy_eq_of_perm (order : Node K → Node K → Ordering) [Std.TransCmp order]
    (hsep : ∀ a b, order a b = .eq → a.id = b.id) {nodes nodes' : List (Node K)} (h : nodes.Perm nodes')
    (hids : (nodes.map (·.id)).Nodup) : sortBy order nodes = sortBy order nodes' := by
  refine (isPrecedence_of_cmp order).stableSort_eq_of_perm h ?_
  intro a ha b hb hab hba
  have heq : order a b = .eq := by
    have hswap : order b a = (order a b).swap := Std.OrientedCmp.eq_swap
    cases hc : order a b with
    | lt => simp [hc] at hab
    | eq => rfl
    | gt => simp [hswap, hc] at hba
  exact List.inj_on_of_nodup_map hids ha hb (hsep a b heq)

theorem center?_eq_of_alike (byImportance : List String) {c c' : Cluster} (h : c.Alike c') :
    center? byImportance c = center? byImportance c' := by
  simp only [center?, h.nodes.mem_iff]

/-- Two rankings with the same orders, and the same leaves and orphans in any order. -/
structure Alike (r r' : Rankings) : Prop where
  byImportance : r.byImportance = r'.byImportance
  byConnectivity : r.byConnectivity = r'.byConnectivity
  clusterCenters : r.clusterCenters = r'.clusterCenters
  bridgeNodes : r.bridgeNodes = r'.bridgeNodes
  leafNodes : r.leafNodes.Perm r'.leafNodes
  orphanNodes : r.orphanNodes.Perm r'.orphanNodes

/-- Rankings do not depend on the order of the nodes, nor on that of the members of clusters. -/
theorem compute_alike [Std.TransCmp (Scalar.order : K → K → Ordering)] {nodes nodes' : List (Node K)}
    (h : nodes.Perm nodes') (hids : (nodes.map (·.id)).Nodup) {clusters clusters' : List Cluster}
    (hclusters : List.Forall₂ Cluster.Alike clusters clusters') (bridgeCount : Nat) :
    Alike (compute nodes clusters bridgeCount) (compute nodes' clusters' bridgeCount) := by
  have himportance := sortBy_eq_of_perm importance (fun _ _ => id_eq_of_importance) h hids
  have hconnectivity := sortBy_eq_of_perm connectivity (fun _ _ => id_eq_of_connectivity) h hids
  have hbetween := h.filter fun n => Scalar.less Scalar.zero n.metrics.betweenness
  have hbetweenIds := hids.sublist
    ((List.filter_sublist (p := fun n => Scalar.less Scalar.zero n.metrics.betweenness) (l := nodes)).map Node.id)
  have hbridging := sortBy_eq_of_perm bridging (fun _ _ => id_eq_of_bridging) hbetween hbetweenIds
  refine
    { byImportance := by simp only [compute, himportance]
      byConnectivity := by simp only [compute, hconnectivity]
      clusterCenters := ?_
      bridgeNodes := by simp only [compute, hbridging]
      leafNodes := (h.filter _).map _
      orphanNodes := (h.filter _).map _ }
  simp only [compute, himportance]
  induction hclusters with
  | nil => rfl
  | cons hc _ ih => simp only [List.filterMap_cons, center?_eq_of_alike _ hc, ih]

end Rankings

end ModuleGraph
