import ModuleGraph.Proofs.ExactNumbers
import ModuleGraph.Proofs.Reading
import ModuleGraph.Proofs.Repetition

namespace ModuleGraph

namespace Draft

variable {K : Type} [Scalar K]

def ofTarget (source : Nat) (imports : List ResolvedImport) (target : Nat) : Draft K :=
  let own := imports.filter (·.target = target)
  { source, target, names := (own.flatMap (·.names)).eraseDups, isTypeOnly := own.all (·.isTypeOnly)
    weight := if own.all (·.isTypeOnly) then typeOnlyWeight else valueWeight }

theorem addNames_eraseDups (names new : List String) :
    addNames names.eraseDups new = (names ++ new).eraseDups := by
  induction new generalizing names with
  | nil => rw [List.append_nil]; rfl
  | cons n new ih =>
    have hstep : addNames names.eraseDups (n :: new) = addNames (names ++ [n]).eraseDups new := by
      simp only [addNames, List.foldl_cons, eraseDups_concat, List.mem_eraseDups]
    rw [hstep, ih, List.append_assoc, List.singleton_append]

theorem ofTarget_concat (source : Nat) (imports : List ResolvedImport) (i : ResolvedImport) (target : Nat) :
    (ofTarget source (imports ++ [i]) target : Draft K) =
      if target = i.target then (ofTarget source imports target).absorb i else ofTarget source imports target := by
  by_cases ht : target = i.target
  · cases hi : i.isTypeOnly <;> simp [ofTarget, absorb, ht, hi, addNames_eraseDups]
  · simp [ofTarget, ht, Ne.symm ht]

theorem ofTarget_of_not_mem {source target : Nat} {imports : List ResolvedImport}
    (h : target ∉ imports.map (·.target)) : (ofTarget source imports target : Draft K) = fresh source target := by
  have hown : imports.filter (·.target = target) = [] := by
    rw [List.filter_eq_nil_iff]
    intro i hi ht
    exact h (List.mem_map.mpr ⟨i, hi, of_decide_eq_true ht⟩)
  simp [ofTarget, fresh, hown]

end Draft

namespace Aggregation

variable {K : Type}

/-- The slots lead to the edges: to the edge of each target that has one, and to no other place. -/
def InStep (a : Aggregation K) : Prop :=
  ∀ target, a.slots.lookup target = (a.drafts.map (·.target)).idxOf? target

theorem modify_idxOf_map {edge : Nat → Draft K} (f : Draft K → Draft K) {targets : List Nat} (hnodup : targets.Nodup)
    {n target : Nat} (hn : targets.idxOf? target = some n) :
    (targets.map edge).modify n f = targets.map fun t => if t = target then f (edge t) else edge t := by
  induction targets generalizing n with
  | nil => simp at hn
  | cons t targets ih =>
    obtain ⟨ht, hnodup⟩ := List.nodup_cons.mp hnodup
    rw [List.idxOf?_cons] at hn
    by_cases heq : t = target
    · have hzero : 0 = n := by simpa [heq] using hn
      have hrest : targets.map edge = targets.map fun u => if u = target then f (edge u) else edge u := by
        refine List.map_congr_left fun u hu => (if_neg ?_).symm
        rintro rfl
        exact ht (heq ▸ hu)
      rw [← hzero, List.map_cons, List.map_cons, if_pos heq, ← hrest]
      rfl
    · obtain ⟨m, hm, rfl⟩ : ∃ m, targets.idxOf? target = some m ∧ m + 1 = n := by simpa [heq] using hn
      rw [List.map_cons, List.map_cons, if_neg heq, ← ih hnodup hm]
      rfl

variable [Scalar K]

theorem InStep.slot {a : Aggregation K} (h : a.InStep) (source target : Nat) :
    (a.slot source target).2.InStep ∧
      (a.slot source target).2.drafts =
        (if target ∈ a.drafts.map (·.target) then a.drafts else a.drafts ++ [.fresh source target]) ∧
      ((a.slot source target).2.drafts.map (·.target)).idxOf? target = some (a.slot source target).1 := by
  have hlookup := h target
  unfold Aggregation.slot
  cases hslot : a.slots.lookup target with
  | some n =>
    rw [hslot] at hlookup
    have hmem : target ∈ a.drafts.map (·.target) := by
      rw [← List.isSome_idxOf?, ← hlookup]
      rfl
    exact ⟨h, (if_pos hmem).symm, hlookup.symm⟩
  | none =>
    rw [hslot] at hlookup
    have hmem : target ∉ a.drafts.map (·.target) := List.idxOf?_eq_none_iff.mp hlookup.symm
    have hnew : ∀ t, ((a.drafts ++ [Draft.fresh source target]).map Draft.target).idxOf? t =
        if target = t then some a.drafts.length else (a.drafts.map (·.target)).idxOf? t := by
      intro t
      rw [List.map_append, List.idxOf?, List.findIdx?_append, ← List.idxOf?, List.length_map]
      by_cases ht : target = t
      · subst ht
        simp [← hlookup, Draft.fresh]
      · simp [Draft.fresh, ht]
    refine ⟨fun t => ?_, (if_neg hmem).symm, (hnew target).trans (if_pos rfl)⟩
    rw [hnew t, List.lookup_cons, h t]
    by_cases ht : target = t
    · simp [ht]
    · rw [beq_eq_false_iff_ne.mpr (Ne.symm ht), if_neg ht]

theorem map_target_modify (drafts : List (Draft K)) (n : Nat) (i : ResolvedImport) :
    (drafts.modify n (·.absorb i)).map (·.target) = drafts.map (·.target) := by
  have htarget : ∀ d : Draft K, (d.absorb i).target = d.target := fun d => by
    cases hi : i.isTypeOnly <;> simp [Draft.absorb, hi]
  apply List.ext_getElem?
  intro m
  rw [List.getElem?_map, List.getElem?_map, List.getElem?_modify]
  by_cases hm : n = m
  · cases drafts[m]? <;> simp [hm, htarget]
  · simp [hm]

/-- After some imports the slots lead to the edges, and there is one edge for each target, with all that its imports
bring. -/
theorem foldl_add (source : Nat) (imports : List ResolvedImport) :
    (imports.foldl (Aggregation.add (K := K) source) {}).InStep ∧
      (imports.foldl (Aggregation.add (K := K) source) {}).drafts =
        (imports.map (·.target)).eraseDups.map (Draft.ofTarget source imports) := by
  -- Along the fold: what the imports so far amount to, and then what one more import changes.
  induction imports using List.reverseRecOn with
  | nil => exact ⟨fun _ => rfl, rfl⟩
  | append_singleton imports i ih =>
    obtain ⟨hstep, hdrafts⟩ := ih
    rw [List.foldl_append, List.foldl_cons, List.foldl_nil]
    set a := imports.foldl (Aggregation.add (K := K) source) {} with ha
    have htargets : a.drafts.map (·.target) = (imports.map (·.target)).eraseDups := by
      rw [hdrafts, List.map_map]
      exact List.map_id _
    obtain ⟨hslots, hadded, hplace⟩ := hstep.slot source i.target
    have hall : (a.slot source i.target).2.drafts =
        ((imports ++ [i]).map (·.target)).eraseDups.map (Draft.ofTarget source imports) := by
      rw [hadded, htargets, List.map_append, List.map_singleton, eraseDups_concat]
      by_cases hi : i.target ∈ imports.map (·.target)
      · rw [if_pos hi, if_pos (List.mem_eraseDups.mpr hi), hdrafts]
      · rw [if_neg hi, if_neg (List.mem_eraseDups.not.mpr hi), hdrafts, List.map_append, List.map_singleton,
          Draft.ofTarget_of_not_mem hi]
    have hkeys : (a.slot source i.target).2.drafts.map (·.target) =
        ((imports ++ [i]).map (·.target)).eraseDups := by
      rw [hall, List.map_map]
      exact List.map_id _
    rw [hkeys] at hplace
    refine ⟨fun t => ?_, ?_⟩
    · rw [Aggregation.add, map_target_modify]
      exact hslots t
    · change (a.slot source i.target).2.drafts.modify (a.slot source i.target).1 (·.absorb i) = _
      rw [hall, modify_idxOf_map (·.absorb i) (eraseDups_nodup _) hplace,
        funext (Draft.ofTarget_concat source imports i)]

end Aggregation

namespace Draft

variable {K : Type} [Scalar K]

theorem aggregate_eq_map_ofTarget (source : Nat) (imports : List ResolvedImport) :
    (aggregate source imports : List (Draft K)) =
      (imports.map (·.target)).eraseDups.map (ofTarget source imports) :=
  (Aggregation.foldl_add source imports).2

theorem aggregate_source {source : Nat} {imports : List ResolvedImport} {d : Draft K}
    (h : d ∈ aggregate source imports) : d.source = source := by
  rw [aggregate_eq_map_ofTarget] at h
  obtain ⟨t, -, rfl⟩ := List.mem_map.mp h
  rfl

theorem aggregate_targets (source : Nat) (imports : List ResolvedImport) :
    (aggregate source imports : List (Draft K)).map (·.target) = (imports.map (·.target)).eraseDups := by
  rw [aggregate_eq_map_ofTarget, List.map_map]
  exact List.map_id _

theorem aggregate_targets_nodup (source : Nat) (imports : List ResolvedImport) :
    ((aggregate source imports : List (Draft K)).map (·.target)).Nodup := by
  rw [aggregate_targets]
  exact eraseDups_nodup _

theorem mem_aggregate_targets {source target : Nat} {imports : List ResolvedImport} :
    target ∈ (aggregate source imports : List (Draft K)).map (·.target) ↔ ∃ i ∈ imports, i.target = target := by
  rw [aggregate_targets, List.mem_eraseDups, List.mem_map]

/-- The weight of an edge and its mark are set apart from each other; they stay in step. -/
theorem aggregate_weight {source : Nat} {imports : List ResolvedImport} {d : Draft K}
    (h : d ∈ aggregate source imports) : d.weight = if d.isTypeOnly then typeOnlyWeight else valueWeight := by
  rw [aggregate_eq_map_ofTarget] at h
  obtain ⟨t, -, rfl⟩ := List.mem_map.mp h
  rfl

theorem typeOnlyWeight_rat : (typeOnlyWeight : ℚ) = 1 / 2 := by
  have hone : (Scalar.one : ℚ) = 1 := Nat.cast_one
  have htwo : (Scalar.ofNat 2 : ℚ) = 2 := rfl
  rw [typeOnlyWeight, hone, htwo]

theorem valueWeight_rat : (valueWeight : ℚ) = 1 :=
  Nat.cast_one

/-- A file has one edge for each target of its imports, in the order in which the targets first appear. The edge
has the names of all imports of its target, without later repetitions, and only types go along it exactly when
they all are imports of types; then it weighs a half, and else one. -/
theorem aggregate_by_target (source : Nat) (imports : List ResolvedImport) :
    (aggregate source imports : List (Draft K)).map (·.target) = (imports.map (·.target)).eraseDups ∧
      (∀ d ∈ (aggregate source imports : List (Draft K)), d.source = source ∧
        d.names = ((imports.filter (·.target = d.target)).flatMap (·.names)).eraseDups ∧
        (d.isTypeOnly = true ↔ ∀ i ∈ imports, i.target = d.target → i.isTypeOnly = true) ∧
        d.weight = if d.isTypeOnly then Scalar.one / Scalar.ofNat 2 else Scalar.one) ∧
      ∀ d ∈ (aggregate source imports : List (Draft ℚ)), d.weight = if d.isTypeOnly then 1 / 2 else 1 := by
  refine ⟨aggregate_targets source imports, fun d hd => ?_, fun d hd => ?_⟩
  · have hweight := aggregate_weight hd
    rw [aggregate_eq_map_ofTarget] at hd
    obtain ⟨target, -, rfl⟩ := List.mem_map.mp hd
    refine ⟨rfl, rfl, ?_, hweight⟩
    simp [ofTarget, imp_iff_not_or]
  · rw [aggregate_weight hd, typeOnlyWeight_rat, valueWeight_rat]

theorem aggregate_by_target_of_three :
    let imports : List ResolvedImport := [⟨2, ["a"], false⟩, ⟨1, ["X"], true⟩, ⟨2, ["b", "a"], true⟩]
    let edge : Draft ℚ := ⟨0, 2, ["a", "b"], false, 1⟩
    edge ∈ aggregate 0 imports ∧ (aggregate 0 imports : List (Draft ℚ)).map (·.target) = [2, 1] ∧
      edge.names = ((imports.filter (·.target = 2)).flatMap (·.names)).eraseDups ∧
      edge.weight = if edge.isTypeOnly then 1 / 2 else 1 := by
  intro imports edge
  have hedge : edge ∈ aggregate 0 imports := by decide
  obtain ⟨htargets, hedges, hweights⟩ := aggregate_by_target (K := ℚ) 0 imports
  exact ⟨hedge, htargets.trans (by decide), (hedges edge hedge).2.1, hweights edge hedge⟩

def ends (d : Draft K) : Nat × Nat :=
  (d.source, d.target)

end Draft

namespace Graph

variable {K : Type} [Scalar K]

theorem mem_drafts {parsed : List (Parsed K)} {d : Draft K} :
    d ∈ drafts parsed ↔ ∃ s p, parsed[s]? = some p ∧ d ∈ Draft.aggregate s p.imports := by
  simp only [drafts, List.mem_flatMap, Prod.exists, List.mem_zipIdx_iff_getElem?]
  exact exists_comm

theorem draft_weight {parsed : List (Parsed K)} {d : Draft K} (h : d ∈ drafts parsed) :
    d.weight = if d.isTypeOnly then typeOnlyWeight else valueWeight := by
  obtain ⟨s, p, -, hd⟩ := mem_drafts.mp h
  exact Draft.aggregate_weight hd

theorem mem_draft_ends {parsed : List (Parsed K)} {s target : Nat} :
    (s, target) ∈ (drafts parsed).map Draft.ends ↔
      ∃ p, parsed[s]? = some p ∧ ∃ i ∈ p.imports, i.target = target := by
  constructor
  · intro h
    obtain ⟨d, hd, he⟩ := List.mem_map.mp h
    obtain ⟨source, p, hp, ha⟩ := mem_drafts.mp hd
    obtain ⟨hs, ht⟩ := Prod.mk.inj he
    rw [Draft.aggregate_source ha] at hs
    subst source
    exact ⟨p, hp, Draft.mem_aggregate_targets.mp (List.mem_map.mpr ⟨d, ha, ht⟩)⟩
  · rintro ⟨p, hp, hi⟩
    have hm : target ∈ (Draft.aggregate s p.imports : List (Draft K)).map (·.target) :=
      Draft.mem_aggregate_targets.mpr hi
    obtain ⟨d, ha, ht⟩ := List.mem_map.mp hm
    refine List.mem_map.mpr ⟨d, mem_drafts.mpr ⟨s, p, hp, ha⟩, ?_⟩
    rw [Draft.ends, Draft.aggregate_source ha, ht]

theorem draft_ends_nodup (parsed : List (Parsed K)) : ((drafts parsed).map Draft.ends).Nodup := by
  rw [drafts, List.map_flatMap]
  apply List.nodup_flatMap.mpr
  constructor
  · rintro ⟨p, s⟩ _
    have hn := Draft.aggregate_targets_nodup (K := K) s p.imports
    exact List.Nodup.of_map Prod.snd (by simpa [Draft.ends, Function.comp_def] using hn)
  · have hi : (parsed.zipIdx.map Prod.snd).Nodup := by
      rw [List.zipIdx_map_snd]
      exact List.nodup_range'
    refine (List.pairwise_map.mp hi).imp ?_
    rintro ⟨p, s⟩ ⟨q, u⟩ hne
    simp only [Function.onFun, List.disjoint_left, List.mem_map]
    rintro e ⟨d, hd, rfl⟩ ⟨d', hd', he⟩
    have hs := congrArg Prod.fst he
    simp only [Draft.ends, Draft.aggregate_source hd, Draft.aggregate_source hd'] at hs
    exact hne hs.symm

end Graph

end ModuleGraph
