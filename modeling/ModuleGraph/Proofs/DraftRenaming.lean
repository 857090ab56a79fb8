import ModuleGraph.Proofs.Assembly
import ModuleGraph.Proofs.Landing
import ModuleGraph.Proofs.GroupingOrder
import ModuleGraph.Proofs.Renaming

namespace ModuleGraph

variable {σ : Equiv.Perm Nat}

theorem Path.clean_eq_of_components {p q : Path} (h : p.components = q.components) : p.clean = q.clean := by
  rw [Path.clean, Path.clean, h]

def ResolvedImport.rename (σ : Equiv.Perm Nat) (i : ResolvedImport) : ResolvedImport :=
  { i with target := σ i.target }

def Draft.rename {K : Type} (σ : Equiv.Perm Nat) (d : Draft K) : Draft K :=
  { d with source := σ d.source, target := σ d.target }

def Parsed.rename {K : Type} (σ : Equiv.Perm Nat) (p : Parsed K) : Parsed K :=
  { p with imports := p.imports.map (ResolvedImport.rename σ) }

namespace Importer

variable {a b : Importer} (hresolve : ∀ spec, b.resolve? spec = a.resolve? spec)
  (hindex : ∀ p, b.index.find? p = (a.index.find? p).map σ)
include hresolve hindex

theorem land?_renamed (spec : String) : b.land? spec = (a.land? spec).map σ := by
  rw [land?, land?, hresolve]
  cases a.resolve? spec with
  | none => rfl
  | some p => exact hindex p

theorem submodules_renamed (i : Import) :
    b.submodules i = (a.submodules i).map fun x => (x.1, x.2.map σ) := by
  have hlooked : ((a.resolve? i.source).bind b.index.find?).isNone =
      ((a.resolve? i.source).bind a.index.find?).isNone := by
    have hland := congrArg Option.isNone (land?_renamed hresolve hindex i.source)
    simpa only [land?, hresolve, Option.isNone_map] using hland
  simp only [submodules, hlooked, hresolve, land?_renamed hresolve hindex, List.map_map]
  refine List.map_congr_left fun name _ => ?_
  simp only [Function.comp_apply]
  split
  · rfl
  · rfl

theorem landFrom_renamed (i : Import) : b.landFrom i = (a.landFrom i).map (ResolvedImport.rename σ) := by
  have hfound := submodules_renamed hresolve hindex i
  have hrest : ((b.submodules i).filter fun f => f.2.isNone).map (·.1) =
      ((a.submodules i).filter fun f => f.2.isNone).map (·.1) := by
    simp [hfound, List.filter_map, Function.comp_def]
  simp only [landFrom, hrest, land?_renamed hresolve hindex, List.map_append]
  congr 1
  · simp [hfound, List.filterMap_map, List.map_filterMap, Function.comp_def, ResolvedImport.rename]
  · cases a.land? i.source with
    | none => rfl
    | some target =>
      simp only [Option.map_some]
      split
      · rfl
      · rfl

theorem land_renamed (hfamily : b.family = a.family) (i : Import) :
    b.land i = (a.land i).map (ResolvedImport.rename σ) := by
  rw [land, land, hfamily, landFrom_renamed hresolve hindex]
  split
  · rfl
  · split
    · rfl
    · rw [land?_renamed hresolve hindex]
      cases a.land? i.source <;> rfl

end Importer

namespace Draft

variable {K : Type} [Scalar K]

theorem ofTarget_renamed (s target : Nat) (imports : List ResolvedImport) :
    (ofTarget (σ s) (imports.map (ResolvedImport.rename σ)) (σ target) : Draft K) =
      (ofTarget s imports target).rename σ := by
  have hown : ((imports.map (ResolvedImport.rename σ)).filter (·.target = σ target)) =
      (imports.filter (·.target = target)).map (ResolvedImport.rename σ) := by
    simp [List.filter_map, Function.comp_def, ResolvedImport.rename]
  simp [ofTarget, rename, hown, List.flatMap_map, Function.comp_def, ResolvedImport.rename]

theorem aggregate_renamed (s : Nat) (imports : List ResolvedImport) :
    (aggregate (σ s) (imports.map (ResolvedImport.rename σ)) : List (Draft K)) =
      (aggregate s imports).map (rename σ) := by
  have htargets : (imports.map (ResolvedImport.rename σ)).map (·.target) = (imports.map (·.target)).map σ := by
    simp [ResolvedImport.rename, Function.comp_def]
  rw [aggregate_eq_map_ofTarget, aggregate_eq_map_ofTarget, htargets, eraseDups_map σ.injective, List.map_map,
    List.map_map]
  exact List.map_congr_left fun target _ => ofTarget_renamed s target imports

end Draft

namespace Graph

variable {K : Type}

theorem resolveFile_renamed (t : FileTree) (resolver : Resolver) {index index' : NodeIndex}
    (hindex : ∀ p, index'.find? p = (index.find? p).map σ) (p : Path) (d : Declarations) :
    resolveFile t resolver index' p d = (resolveFile t resolver index p d).map (ResolvedImport.rename σ) := by
  unfold resolveFile
  split
  · rfl
  · cases t.family? p with
    | none => rfl
    | some family =>
      have hland : ∀ i, Importer.land ⟨t, resolver, index', p, family⟩ i =
          (Importer.land ⟨t, resolver, index, p, family⟩ i).map (ResolvedImport.rename σ) :=
        Importer.land_renamed (fun spec => rfl) hindex rfl
      simp only [Importer.landAll, List.map_flatMap]
      exact List.flatMap_congr fun i _ => hland i

theorem flatMap_zipIdx_at {α β : Type} (g : α → List β) (xs : List α) (v k : Nat) :
    ((xs.zipIdx k).flatMap fun x => if x.2 = v + k then g x.1 else []) = (xs[v]?.map g).getD [] := by
  induction xs generalizing v k with
  | nil => rfl
  | cons x xs ih =>
    cases v with
    | zero =>
      have hrest : ((xs.zipIdx (k + 1)).flatMap fun x => if x.2 = 0 + k then g x.1 else []) = [] := by
        refine List.flatMap_eq_nil_iff.mpr fun y hy => ?_
        have hle := (List.mem_zipIdx hy).1
        exact if_neg (by omega)
      rw [List.zipIdx_cons, List.flatMap_cons, hrest]
      simp
    | succ v =>
      have hk : v + 1 + k = v + (k + 1) := by omega
      have hne : k ≠ v + (k + 1) := by omega
      simp only [List.zipIdx_cons, List.flatMap_cons, hk, hne, if_false, List.nil_append, ih,
        List.getElem?_cons_succ]

variable [Scalar K]

theorem drafts_filter_source (parsed : List (Parsed K)) (v : Nat) :
    ((drafts parsed).filter fun d => d.source == v) =
      (parsed[v]?.map fun p => Draft.aggregate v p.imports).getD [] := by
  have hfile : ∀ (p : Parsed K) (s : Nat),
      ((Draft.aggregate s p.imports : List (Draft K)).filter fun d => d.source == v) =
        if s = v then Draft.aggregate v p.imports else [] := by
    intro p s
    by_cases hs : s = v
    · rw [if_pos hs, hs]
      exact List.filter_eq_self.mpr fun d hd => by simp [Draft.aggregate_source hd]
    · rw [if_neg hs]
      exact List.filter_eq_nil_iff.mpr fun d hd => by simp [Draft.aggregate_source hd, hs]
  have hat := flatMap_zipIdx_at (fun p : Parsed K => (Draft.aggregate v p.imports : List (Draft K))) parsed v 0
  rw [drafts, List.filter_flatMap]
  simpa only [hfile, Nat.add_zero] using hat

theorem topologyOf_bounded (parsed : List (Parsed K)) : (topologyOf parsed).Bounded :=
  Topology.bounded_ofArcs _ _

theorem topologyOf_edges (parsed : List (Parsed K)) {v : Nat} (hv : v < parsed.length) :
    (topologyOf parsed).weightedSuccessors v =
      (((drafts parsed).filter fun d => d.source == v).filter fun d => d.target < parsed.length).map
        fun d => (d.target, d.weight) := by
  rw [topologyOf, Topology.weightedSuccessors_ofArcs, List.filter_filter, List.filter_map, List.map_map]
  congr 1
  refine List.filter_congr fun d _ => ?_
  by_cases hd : d.source = v
  · simp [Draft.toArc, Topology.inRange, hd, hv]
  · have hb : (d.source == v) = false := beq_eq_false_iff_ne.mpr hd
    simp [Draft.toArc, hb]

variable {parsed parsed' : List (Parsed K)} (h : Arranged σ (parsed.map (Parsed.rename σ)) parsed')
include h

theorem drafts_renamed : ((drafts parsed).map (Draft.rename σ)).Perm (drafts parsed') := by
  have hperm := h.zipIdx_perm.flatMap_right fun x => Draft.aggregate (K := K) x.2 x.1.imports
  refine List.Perm.trans (List.Perm.of_eq ?_) hperm
  rw [drafts, List.map_flatMap, List.flatMap_map, List.zipIdx_map, List.flatMap_map]
  refine List.flatMap_congr fun x _ => ?_
  exact (Draft.aggregate_renamed x.2 x.1.imports).symm

theorem outgoing_renamed (v : Nat) :
    ((drafts parsed').filter fun d => d.source == σ v) =
      ((drafts parsed).filter fun d => d.source == v).map (Draft.rename σ) := by
  rw [drafts_filter_source, drafts_filter_source, h v, List.getElem?_map]
  cases parsed[v]? with
  | none => rfl
  | some p => exact Draft.aggregate_renamed v p.imports

omit [Scalar K] in
theorem lt_length_iff (v : Nat) : σ v < parsed.length ↔ v < parsed.length := by
  have hlt := h.lt_iff v
  rwa [h.length_eq, List.length_map] at hlt

theorem topologyOf_renamed : (topologyOf parsed).Renames σ (topologyOf parsed') where
  size_eq := by simpa [topologyOf] using h.length_eq
  lt_iff v := by simpa [topologyOf] using lt_length_iff h v
  edges v := by
    have hlength : parsed'.length = parsed.length := by simpa using h.length_eq
    by_cases hv : v < parsed.length
    · have hσ : σ v < parsed'.length := by rw [hlength]; exact (lt_length_iff h v).mpr hv
      rw [topologyOf_edges parsed hv, topologyOf_edges parsed' hσ, outgoing_renamed h, List.filter_map, List.map_map,
        List.map_map, hlength]
      simp only [Function.comp_def, Draft.rename, lt_length_iff h]
    · have hσ : ¬ σ v < parsed.length := fun hσ => hv ((lt_length_iff h v).mp hσ)
      rw [Topology.weightedSuccessors_of_size_le, Topology.weightedSuccessors_of_size_le]
      · rfl
      · simpa [topologyOf] using hv
      · simpa [topologyOf, hlength] using hσ

end Graph

end ModuleGraph
