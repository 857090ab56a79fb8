import ModuleGraph.Proofs.GroupingOrder
import Mathlib.Algebra.GroupWithZero.Nat

namespace ModuleGraph.Cluster

section Names

theorem mem_names {keys : List String} {name : String} : name ∈ names keys ↔ name ∈ keys := by
  rw [names, (stableSort_perm _ _).mem_iff, List.mem_eraseDups]

theorem names_pairwise (keys : List String) : (names keys).Pairwise (· < ·) := by
  have hnodup : (names keys).Nodup := (stableSort_perm _ _).nodup_iff.mpr (eraseDups_nodup keys)
  have hsorted : (names keys).Pairwise fun a b => decide (b < a) = false := isPrecedence_lt.stableSort_pairwise _
  refine hsorted.imp₂ (fun a b hle hne => ?_) hnodup
  exact lt_of_le_of_ne (not_lt.mp (of_decide_eq_false hle)) hne

theorem exists_two_places {α : Type} {a b : α} {xs : List α} (hxs : xs.Nodup) (ha : a ∈ xs) (hb : b ∈ xs) (hab : a ≠ b) :
    ∃ before c middle d after, xs = before ++ c :: (middle ++ d :: after) ∧ (c = a ∧ d = b ∨ c = b ∧ d = a) ∧
      ∀ ns ∈ [before, middle, after], a ∉ ns ∧ b ∉ ns := by
  obtain ⟨before, after, rfl⟩ := List.append_of_mem ha
  obtain ⟨hnot, hrest⟩ := List.nodup_cons.mp (List.nodup_middle.mp hxs)
  rcases List.mem_append.mp hb with hb | hb
  · obtain ⟨first, middle, rfl⟩ := List.append_of_mem hb
    refine ⟨first, b, middle, a, after, by simp, .inr ⟨rfl, rfl⟩, ?_⟩
    rw [List.append_assoc, List.cons_append] at hrest
    have hnot' := (List.nodup_cons.mp (List.nodup_middle.mp hrest)).1
    simp only [List.mem_append, List.mem_cons, not_or] at hnot hnot'
    simp [hnot, hnot']
  · obtain ⟨middle, last, rfl⟩ := List.append_of_mem ((List.mem_cons.mp hb).resolve_left hab.symm)
    refine ⟨before, a, middle, b, last, rfl, .inl ⟨rfl, rfl⟩, ?_⟩
    rw [← List.append_assoc] at hrest
    have hnot' := (List.nodup_cons.mp (List.nodup_middle.mp hrest)).1
    simp only [List.mem_append, List.mem_cons, not_or] at hnot hnot'
    simp [hnot, hnot']

end Names

section Counting

variable {members : List Member} {edges : List (Nat × Nat)} {generic : List String}

def keysOf (members : List Member) : List String :=
  members.map fun m => key m.directory

theorem group_eq : group members edges generic =
    ((names (keysOf members)).map (ofName members edges generic), keysOf members) :=
  rfl

theorem hasKey_eq {keys : List String} {i : Nat} {k : String} (h : keys[i]? = some k) (name : String) :
    hasKey keys name i = decide (k = name) := by
  simp [hasKey, h, beq_eq_decide]

theorem group_eq_of_perm {edges' : List (Nat × Nat)} (h : edges.Perm edges') :
    group members edges generic = group members edges' generic := by
  have hsame : ofName members edges generic = ofName members edges' generic := by
    funext name
    simp only [ofName, countInternal, countExternal, h.countP_eq]
  rw [group_eq, group_eq, hsame]

def withInternal (c : Cluster) : Cluster :=
  { c with internalEdges := c.internalEdges + 1 }

def withExternal (c : Cluster) : Cluster :=
  { c with externalEdges := c.externalEdges + 1 }

section Step

variable {e : Nat × Nat} {a b : String} (ha : (keysOf members)[e.1]? = some a) (hb : (keysOf members)[e.2]? = some b)
  (edges generic)
include ha hb

theorem ofName_cons (name : String) :
    ofName members (e :: edges) generic name =
      { ofName members edges generic name with
        internalEdges := (ofName members edges generic name).internalEdges + if a = name ∧ b = name then 1 else 0
        externalEdges := (ofName members edges generic name).externalEdges +
          if decide (a = name) ≠ decide (b = name) then 1 else 0 } := by
  have hsource := hasKey_eq ha name
  have htarget := hasKey_eq hb name
  unfold keysOf at hsource htarget
  simp [ofName, countInternal, countExternal, List.countP_cons, hsource, htarget]

theorem ofName_cons_of_both (hab : a = b) :
    ofName members (e :: edges) generic a = (ofName members edges generic a).withInternal := by
  rw [ofName_cons edges generic ha hb]
  simp [withInternal, hab]

theorem ofName_cons_of_one {name : String} (hab : a ≠ b) (hname : name = a ∨ name = b) :
    ofName members (e :: edges) generic name = (ofName members edges generic name).withExternal := by
  rw [ofName_cons edges generic ha hb]
  rcases hname with rfl | rfl
  · simp [withExternal, hab.symm]
  · simp [withExternal, hab]

theorem map_ofName_cons {ns : List String} (han : a ∉ ns) (hbn : b ∉ ns) :
    ns.map (ofName members (e :: edges) generic) = ns.map (ofName members edges generic) := by
  refine List.map_congr_left fun name hname => ?_
  have hane : a ≠ name := fun h => han (h ▸ hname)
  have hbne : b ≠ name := fun h => hbn (h ▸ hname)
  rw [ofName_cons edges generic ha hb]
  simp [hane, hbne]

end Step

/-- An edge is counted among some clusters: as an internal one in the cluster that holds both of its ends, or as an
external one in the two clusters that hold one end each. Everything else stays as it is. -/
inductive Counted (keys : List String) (e : Nat × Nat) : List Cluster → List Cluster → Prop
  | internal (before after : List Cluster) (c : Cluster)
      (source : keys[e.1]? = some c.name) (target : keys[e.2]? = some c.name) :
      Counted keys e (before ++ c :: after) (before ++ c.withInternal :: after)
  | external (before middle after : List Cluster) (c d : Cluster) (different : c.name ≠ d.name)
      (ends : keys[e.1]? = some c.name ∧ keys[e.2]? = some d.name ∨ keys[e.1]? = some d.name ∧ keys[e.2]? = some c.name) :
      Counted keys e (before ++ c :: (middle ++ d :: after))
        (before ++ c.withExternal :: (middle ++ d.withExternal :: after))

theorem keysOf_getElem? {i : Nat} (hi : i < members.length) : ∃ k ∈ keysOf members, (keysOf members)[i]? = some k := by
  have hlt : i < (keysOf members).length := by simpa [keysOf] using hi
  exact ⟨_, List.getElem_mem hlt, List.getElem?_eq_getElem hlt⟩

theorem group_cons_counted {e : Nat × Nat} (he : e.1 < members.length ∧ e.2 < members.length) :
    Counted (keysOf members) e (group members edges generic).1 (group members (e :: edges) generic).1 := by
  obtain ⟨a, hkey, ha⟩ := keysOf_getElem? he.1
  obtain ⟨b, hkey', hb⟩ := keysOf_getElem? he.2
  have hnodup : (names (keysOf members)).Nodup := (names_pairwise _).imp fun h => ne_of_lt h
  have hother := @map_ofName_cons members edges generic e a b ha hb
  simp only [group_eq]
  by_cases hab : a = b
  · obtain ⟨before, after, hnames⟩ := List.append_of_mem (mem_names.mpr hkey)
    rw [hnames] at hnodup ⊢
    obtain ⟨hnot, -⟩ := List.nodup_cons.mp (List.nodup_middle.mp hnodup)
    rw [List.mem_append, not_or] at hnot
    rw [List.map_append, List.map_cons, List.map_append, List.map_cons, hother hnot.1 (hab ▸ hnot.1),
      hother hnot.2 (hab ▸ hnot.2), ofName_cons_of_both edges generic ha hb hab]
    exact .internal _ _ _ ha (hab ▸ hb)
  · obtain ⟨before, c, middle, d, after, hnames, hends, hnot⟩ :=
      exists_two_places hnodup (mem_names.mpr hkey) (mem_names.mpr hkey') hab
    have hother := fun ns hns => hother (hnot ns hns).1 (hnot ns hns).2
    have hone := fun name => @ofName_cons_of_one members edges generic e a b ha hb name hab
    rw [hnames]
    simp only [List.map_append, List.map_cons]
    rw [hother before (by simp), hother middle (by simp), hother after (by simp)]
    rcases hends with ⟨rfl, rfl⟩ | ⟨rfl, rfl⟩
    · rw [hone c (.inl rfl), hone d (.inr rfl)]
      exact .external _ _ _ _ _ hab (.inl ⟨ha, hb⟩)
    · rw [hone c (.inr rfl), hone d (.inl rfl)]
      exact .external _ _ _ _ _ (Ne.symm hab) (.inr ⟨ha, hb⟩)

/-- All counted edges, each of them twice: those inside a cluster count double, those between two clusters stand in
both. -/
def twiceCounted (clusters : List Cluster) : Nat :=
  2 * (clusters.map (·.internalEdges)).sum + (clusters.map (·.externalEdges)).sum

theorem Counted.twiceCounted_eq {keys : List String} {e : Nat × Nat} {clusters clusters' : List Cluster}
    (h : Counted keys e clusters clusters') : twiceCounted clusters' = twiceCounted clusters + 2 := by
  cases h with
  | internal before after c _ _ =>
    simp only [twiceCounted, withInternal, List.map_append, List.map_cons, List.sum_append, List.sum_cons]
    omega
  | external before middle after c d _ _ =>
    simp only [twiceCounted, withExternal, List.map_append, List.map_cons, List.sum_append, List.sum_cons]
    omega

theorem twiceCounted_group (members : List Member) (generic : List String)
    (hedges : ∀ e ∈ edges, e.1 < members.length ∧ e.2 < members.length) :
    twiceCounted (group members edges generic).1 = 2 * edges.length := by
  induction edges with
  | nil => simp [twiceCounted, group, ofName, countInternal, countExternal, Function.comp_def]
  | cons e edges ih =>
    obtain ⟨he, hedges⟩ := List.forall_mem_cons.mp hedges
    rw [(group_cons_counted he).twiceCounted_eq, ih hedges, List.length_cons]
    omega

end Counting

section Division

/-- Clusters divide members by their keys: the names increase, every number of a member is a place of the name of just
one cluster among the keys, and a cluster lists the ids at the places of its name, in their order. -/
structure Divides (members : List Member) (clusters : List Cluster) (keys : List String) : Prop where
  names_increase : (clusters.map (·.name)).Pairwise (· < ·)
  keys_length : keys.length = members.length
  one_cluster : ∀ i < members.length, ∃! c, c ∈ clusters ∧ i ∈ List.idxsOf c.name keys
  nodes_nonempty : ∀ c ∈ clusters, c.nodes ≠ []
  nodes_at_places : ∀ c ∈ clusters,
    List.Forall₂ (fun i id => members[i]?.map Member.id = some id) (List.idxsOf c.name keys) c.nodes

variable (members : List Member) (edges : List (Nat × Nat)) (generic : List String)

theorem mem_idxsOf {keys : List String} {i : Nat} {name : String} :
    i ∈ List.idxsOf name keys ↔ keys[i]? = some name := by
  rw [List.mem_idxsOf_iff_exists_getElem_pos, List.getElem?_eq_some_iff]
  simp

theorem ofName_nodes_at_places (name : String) :
    List.Forall₂ (fun i id => members[i]?.map Member.id = some id) (List.idxsOf name (keysOf members))
      (ofName members edges generic name).nodes := by
  have hlength : (List.idxsOf name (keysOf members)).length = (ofName members edges generic name).nodes.length := by
    simp [ofName, keysOf, List.idxsOf_map, List.length_findIdxs, List.countP_eq_length_filter]
  refine List.forall₂_iff_get.mpr ⟨hlength, fun k hk hk' => ?_⟩
  have hfound : k < (members.filter fun m => key m.directory == name).length := by simpa [ofName] using hk'
  have hplace := List.getElem_filter_eq_getElem_getElem_findIdxs hfound
  have hindex : k < (List.findIdxs (fun m => key m.directory == name) members).length := by
    simpa [keysOf, List.idxsOf_map] using hk
  simp only [ofName, List.get_eq_getElem, List.getElem_map, hplace, keysOf, List.idxsOf_map]
  rw [List.getElem?_eq_getElem (List.getElem_findIdxs_lt hindex)]
  rfl

theorem group_divides : Divides members (group members edges generic).1 (group members edges generic).2 := by
  have hnames : (group members edges generic).1.map (·.name) = names (keysOf members) := by
    rw [group_eq, List.map_map]
    exact List.map_id _
  have hname : ∀ c ∈ (group members edges generic).1, ∃ name ∈ keysOf members,
      c = ofName members edges generic name := by
    intro c hc
    obtain ⟨name, hname, rfl⟩ := List.mem_map.mp hc
    exact ⟨name, mem_names.mp hname, rfl⟩
  refine
    { names_increase := hnames ▸ names_pairwise _
      keys_length := List.length_map _
      one_cluster := ?_
      nodes_nonempty := ?_
      nodes_at_places := ?_ }
  · intro i hi
    obtain ⟨k, hk, hki⟩ := keysOf_getElem? hi
    refine ⟨ofName members edges generic k, ⟨List.mem_map_of_mem (mem_names.mpr hk), mem_idxsOf.mpr hki⟩, ?_⟩
    rintro c ⟨hc, hplace⟩
    obtain ⟨name, _, rfl⟩ := hname c hc
    have hsame := Option.some.inj (hki.symm.trans (mem_idxsOf.mp hplace))
    rw [hsame]
    rfl
  · intro c hc hnil
    obtain ⟨name, hkey, rfl⟩ := hname c hc
    obtain ⟨i, hi⟩ := List.mem_iff_getElem?.mp hkey
    have hplaces := ofName_nodes_at_places members edges generic name
    rw [hnil, List.forall₂_nil_right_iff] at hplaces
    exact List.not_mem_nil (hplaces ▸ mem_idxsOf.mpr hi)
  · intro c hc
    obtain ⟨name, _, rfl⟩ := hname c hc
    exact ofName_nodes_at_places members edges generic name

/-- The clusters of some members divide them by key. Every edge between members, wherever it stands in the list, is
counted in one cluster as an internal edge or in two as an external one, so the internal edges and half of the external
ones are all edges. -/
theorem group_divides_and_counts (hedges : ∀ e ∈ edges, e.1 < members.length ∧ e.2 < members.length) :
    Divides members (group members edges generic).1 (group members edges generic).2 ∧
      (∀ before e after, edges = before ++ e :: after →
        Counted (group members edges generic).2 e (group members (before ++ after) generic).1
          (group members edges generic).1) ∧
      2 ∣ ((group members edges generic).1.map (·.externalEdges)).sum ∧
      ((group members edges generic).1.map (·.internalEdges)).sum +
        ((group members edges generic).1.map (·.externalEdges)).sum / 2 = edges.length := by
  refine ⟨group_divides members edges generic, ?_, ?_⟩
  · rintro before e after rfl
    rw [group_eq_of_perm List.perm_middle]
    exact group_cons_counted (hedges e (by simp))
  · have htwice := twiceCounted_group members generic hedges
    unfold twiceCounted at htwice
    omega

/-- Two files of one directory and one of another, with an edge inside a cluster, one between the two and a loop. -/
theorem group_divides_and_counts_of_three :
    let members : List Member := [⟨"auth/a.ts", "auth"⟩, ⟨"src/db/c.ts", "src/db"⟩, ⟨"auth/b.ts", "auth"⟩]
    let edges := [(0, 2), (2, 1), (1, 1)]
    let clusters := (group members edges ["src"]).1
    (∀ e ∈ edges, e.1 < members.length ∧ e.2 < members.length) ∧
      clusters.map (·.nodes) = [["auth/a.ts", "auth/b.ts"], ["src/db/c.ts"]] ∧
      clusters.map (fun c => (c.internalEdges, c.externalEdges)) = [(1, 1), (1, 1)] ∧
      Divides members clusters (group members edges ["src"]).2 ∧
      Counted ["auth", "src", "auth"] (2, 1) (group members [(0, 2), (1, 1)] ["src"]).1 clusters ∧
      2 ∣ (clusters.map (·.externalEdges)).sum ∧
      (clusters.map (·.internalEdges)).sum + (clusters.map (·.externalEdges)).sum / 2 = edges.length := by
  intro members edges clusters
  have hedges : ∀ e ∈ edges, e.1 < members.length ∧ e.2 < members.length := by decide
  obtain ⟨hdivides, hcounted, hcounts⟩ := group_divides_and_counts members edges ["src"] hedges
  have hkeys : (group members edges ["src"]).2 = ["auth", "src", "auth"] := by decide +kernel
  rw [hkeys] at hcounted
  exact ⟨hedges, by decide +kernel, by decide +kernel, hdivides, hcounted [(0, 2)] (2, 1) [(1, 1)] rfl, hcounts⟩

end Division

end ModuleGraph.Cluster
