import ModuleGraph.Proofs.Aggregation
import ModuleGraph.Proofs.NameSharing
import ModuleGraph.Proofs.ResolutionOrder
import ModuleGraph.Proofs.TreePath
import Mathlib.Data.List.Induction

namespace ModuleGraph

theorem Text.upTo_append_sep {sep : Char → Bool} {c : Char} (hc : sep c = true) (u v : List Char) :
    upTo sep (u ++ c :: v) = upTo sep u := by
  induction u with
  | nil => simp [upTo, hc]
  | cons d u ih =>
    unfold upTo at ih ⊢
    rw [List.cons_append, List.takeWhile_cons, List.takeWhile_cons, ih]

namespace Path

variable {n : RawText} (hn : IsEntryName n)
include hn

theorem components_append_name {p : Path} (hp : p.raw.toList ≠ []) :
    components ⟨p.raw ++ "/" ++ n⟩ = p.components ++ [.name n] := by
  obtain ⟨c, cs, hcs⟩ := List.exists_cons_of_ne_nil hp
  obtain ⟨w, ws, hw⟩ := Text.exists_pieces (· == slash) p.raw.toList
  have htext : (p.raw ++ "/" ++ n).toList = p.raw.toList ++ slash :: n.toList := by
    rw [RawText.append_assoc]
    rfl
  have hpieces : Text.pieces (· == slash) (p.raw ++ "/" ++ n).toList = w :: (ws ++ [n.toList]) := by
    rw [htext, Text.pieces_append_sep (by rfl), hw, pieces_of_not_mem hn.2.2.2, List.cons_append]
  have habsolute : isAbsolute ⟨p.raw ++ "/" ++ n⟩ = p.isAbsolute := by
    simp [isAbsolute, Text.startsWith, hcs, List.isPrefixOf]
  rw [components, components, habsolute, hpieces, hw, ← List.cons_append, List.filterMap_append,
    List.filterMap_cons_some hn.ofPiece?_eq, List.filterMap_nil, ← List.append_assoc]
  rfl

theorem components_join_entry (p : Path) : (p.join ⟨n⟩).components = p.components ++ [.name n] := by
  by_cases hp : p.raw.toList = []
  · obtain ⟨⟨bytes⟩⟩ := p
    cases hp
    have hjoin : join ⟨⟨[]⟩⟩ ⟨n⟩ = ⟨n⟩ := by
      rw [join, not_isAbsolute hn.2.2.2, if_neg Bool.false_ne_true, if_pos (.inl rfl)]
      rfl
    rw [hjoin, components, not_isAbsolute hn.2.2.2, pieces_of_not_mem hn.2.2.2, List.head?_cons, if_neg Bool.false_ne_true,
      if_neg fun hdot => hn.2.1 (Option.some.inj hdot), List.filterMap_cons_some hn.ofPiece?_eq]
    rfl
  · exact components_join_name hn.2.2.2 hp hn.ofPiece?_eq

end Path

namespace Resolver

section Submodule

variable {name : String} (hname : IsEntryName name) (hdot : '.' ∉ name.toList)
include hdot

theorem dotsToSlashes_of_no_dot : dotsToSlashes name.toList = ⟨name⟩ := by
  have hmap : name.toList.map (fun c => if c = '.' then '/' else c) = name.toList.map id :=
    List.map_congr_left fun c hc => if_neg (ne_of_mem_of_not_mem hc hdot)
  rw [dotsToSlashes, hmap, List.map_id, String.ofList_toList]

include hname

theorem components_join_dotted (p : Path) {rest : List Char} (hrest : rest ≠ []) :
    (p.join (dotsToSlashes (rest ++ '.' :: name.toList))).components =
      (p.join (dotsToSlashes rest)).components ++ [.name name] := by
  have hdotted : dotsToSlashes (rest ++ '.' :: name.toList) =
      ⟨(dotsToSlashes rest).raw ++ ("/" ++ (dotsToSlashes name.toList).raw)⟩ := by
    rw [dotsToSlashes, dotsToSlashes, dotsToSlashes, ← RawText.ofString_append, ← RawText.ofString_append]
    exact congrArg (Path.mk ∘ RawText.ofString) (String.toList_injective (by simp))
  have hne : (dotsToSlashes rest).raw.toList ≠ [] := by simpa [dotsToSlashes] using hrest
  have hjoin : (p.join (dotsToSlashes rest)).raw.toList ≠ [] := by
    unfold Path.join
    split
    · exact hne
    · split <;> simp [hne]
  rw [hdotted, dotsToSlashes_of_no_dot hdot, Path.join_append hne, ← RawText.append_assoc]
  exact Path.components_append_name hname hjoin

/-- A submodule is looked for under its name in the place of its module. -/
theorem bases_submodule (r : Resolver) (importer : Path) {source : String} (hsource : source ≠ "") :
    (r.bases .indent importer (Importer.submodule source name)).map Path.components =
      (r.bases .indent importer source).map fun base => base.components ++ [.name name] := by
  obtain ⟨levels, rest, hdots, hrest⟩ := exists_dots source.toList
  have hsubmodule := Importer.toList_submodule hdots hrest name
  cases levels with
  | zero =>
    rw [List.replicate_zero, List.nil_append] at hdots hsubmodule
    have hne : rest ≠ [] := by simpa [← hdots] using hsource
    rw [if_neg hne] at hsubmodule
    obtain ⟨c, cs, rfl⟩ := List.exists_cons_of_ne_nil hne
    have hc : c ≠ '.' := fun hc => hrest (congrArg some hc)
    have hbuiltin : Specifier.isBuiltin .indent (Importer.submodule source name) = Specifier.isBuiltin .indent source := by
      rw [Specifier.isBuiltin, Specifier.isBuiltin, hsubmodule, hdots, Text.upTo_append_sep (by rfl)]
    have hrelative : Specifier.isRelative .indent source = false := by
      simp [Specifier.isRelative, hdots, Text.startsWith, List.isPrefixOf, Ne.symm hc]
    have hrelative' : Specifier.isRelative .indent (Importer.submodule source name) = false := by
      simp [Specifier.isRelative, hsubmodule, Text.startsWith, List.isPrefixOf, Ne.symm hc]
    have horigin : Specifier.origin .indent (Importer.submodule source name) = Specifier.origin .indent source := by
      rw [Specifier.origin, hbuiltin, hrelative', Specifier.origin, hrelative]
    unfold bases
    rw [horigin]
    cases horigin : Specifier.origin .indent source with
    | builtin => rfl
    | relative => rw [isRelative_of_origin horigin] at hrelative; cases hrelative
    | package => simpa [hsubmodule, hdots] using components_join_dotted hname hdot r.options.baseDir hne
  | succ levels =>
    have hrest' : (if rest = [] then name.toList else rest ++ '.' :: name.toList).head? ≠ some '.' := by
      split
      · exact fun hhead => hdot (List.mem_of_head? hhead)
      · rwa [List.head?_append_of_ne_nil _ ‹_›]
    simp only [bases, origin_of_dots hdots, origin_of_dots hsubmodule, relativeBase?_indent hdots hrest,
      relativeBase?_indent hsubmodule hrest']
    have hne : name ≠ "" := fun hempty => hname.1 (by rw [hempty]; rfl)
    cases importer.parent?.bind (ascend levels) with
    | none => rfl
    | some up =>
      cases rest with
      | nil => simp [hne, dotsToSlashes_of_no_dot hdot, Path.components_join_entry hname]
      | cons c rest => simpa using components_join_dotted hname hdot up (List.cons_ne_nil c rest)

end Submodule

end Resolver

namespace NodeIndex

theorem ofPaths_concat (paths : List Path) (q : Path) :
    ofPaths (paths ++ [q]) = (q.clean, paths.length) :: ofPaths paths := by
  simp [ofPaths, List.zipIdx_append]

theorem find?_ofPaths_iff {paths : List Path} {p : Path} {i : Nat} :
    (ofPaths paths).find? p = some i ↔ (∃ q, paths[i]? = some q ∧ q.clean = p.clean) ∧
      ∀ j q, paths[j]? = some q → q.clean = p.clean → j ≤ i := by
  induction paths using List.reverseRecOn with
  | nil => simp [ofPaths, find?]
  | append_singleton paths q ih =>
    have hlast : (paths ++ [q])[paths.length]? = some q := by simp
    unfold find? at ih ⊢
    rw [ofPaths_concat, List.lookup_cons]
    by_cases hq : q.clean = p.clean
    · rw [hq, beq_self_eq_true]
      constructor
      · intro h
        have hi : paths.length = i := Option.some.inj h
        subst i
        refine ⟨⟨q, hlast, hq⟩, fun j r hj _ => ?_⟩
        have hb := (List.getElem?_eq_some_iff.mp hj).1
        rw [List.length_append, List.length_singleton] at hb
        omega
      · rintro ⟨⟨r, hr, _⟩, hmax⟩
        have hle := hmax paths.length q hlast hq
        have hb := (List.getElem?_eq_some_iff.mp hr).1
        rw [List.length_append, List.length_singleton] at hb
        exact congrArg some (by omega)
    · have hb : (p.clean == q.clean) = false := beq_eq_false_iff_ne.mpr (fun he => hq he.symm)
      rw [hb]
      have hsame : ∀ (j : Nat) (r : Path), r.clean = p.clean → ((paths ++ [q])[j]? = some r ↔ paths[j]? = some r) := by
        intro j r hr
        rcases Nat.lt_trichotomy j paths.length with hlt | heq | hgt
        · rw [List.getElem?_append_left hlt]
        · subst j
          rw [hlast, List.getElem?_eq_none (Nat.le_refl _)]
          simpa using fun he : q = r => hq (he ▸ hr)
        · have hlen : (paths ++ [q]).length ≤ j := by
            rw [List.length_append, List.length_singleton]
            omega
          rw [List.getElem?_eq_none hlen, List.getElem?_eq_none (by omega)]
      rw [ih]
      constructor
      · rintro ⟨⟨r, hr, hc⟩, hmax⟩
        exact ⟨⟨r, (hsame i r hc).mpr hr, hc⟩, fun j s hj hs => hmax j s ((hsame j s hs).mp hj) hs⟩
      · rintro ⟨⟨r, hr, hc⟩, hmax⟩
        exact ⟨⟨r, (hsame i r hc).mp hr, hc⟩, fun j s hj hs => hmax j s ((hsame j s hs).mpr hj) hs⟩

end NodeIndex

variable {K : Type}

/-- A path leads to a record of a list when the record is the last one with the same cleaned path. -/
def LeadsTo (files : List (FileRecord K)) (p : Path) (target : Nat) : Prop :=
  (∃ f, files[target]? = some f ∧ f.absolutePath.clean = p.clean) ∧
    ∀ j f, files[j]? = some f → f.absolutePath.clean = p.clean → j ≤ target

theorem find?_index_iff {files : List (FileRecord K)} {p : Path} {target : Nat} :
    (NodeIndex.ofPaths (files.map (·.absolutePath))).find? p = some target ↔ LeadsTo files p target := by
  simp [NodeIndex.find?_ofPaths_iff, LeadsTo]

/-- A file that imports from a list of records. -/
structure ImportSite (K : Type) where
  tree : FileTree
  resolver : Resolver
  files : List (FileRecord K)
  path : Path
  family : Family

namespace ImportSite

/-- A specifier resolves to a record. -/
def Reaches (site : ImportSite K) (spec : String) (target : Nat) : Prop :=
  ∃ p, site.resolver.resolveAs? site.tree site.family site.path spec = some p ∧ LeadsTo site.files p target

/-- The names of a from-import may be submodules: its module is no record, or it is resolved to a file that
stands for its package. -/
def LooksInside (site : ImportSite K) (i : Import) : Prop :=
  (¬∃ target, site.Reaches i.source target) ∨
    ∃ p, site.resolver.resolveAs? site.tree site.family site.path i.source = some p ∧
      p.stem? = some "__init__"

/-- A name of a from-import is the submodule that a record holds. -/
def IsSubmodule (site : ImportSite K) (i : Import) (name : String) (target : Nat) : Prop :=
  site.LooksInside i ∧ site.Reaches (Importer.submodule i.source name) target

/-- An import lands on a record. -/
inductive Lands (site : ImportSite K) (i : Import) (target : Nat) : Prop
  | whole : site.family = .curly ∨ i.hasNamespace = true → site.Reaches i.source target →
      Lands site i target
  | submodule (name : String) : site.family = .indent → i.hasNamespace = false → name ∈ i.names →
      site.IsSubmodule i name target → Lands site i target
  | module : site.family = .indent → i.hasNamespace = false → site.Reaches i.source target →
      (i.names = [] ∨ ∃ name ∈ i.names, ¬∃ u, site.IsSubmodule i name u) → Lands site i target

def importer (site : ImportSite K) : Importer :=
  ⟨site.tree, site.resolver, .ofPaths (site.files.map (·.absolutePath)), site.path, site.family⟩

theorem reaches_importer_iff {site : ImportSite K} {spec : String} {target : Nat} :
    site.importer.Reaches spec target ↔ site.Reaches spec target :=
  exists_congr fun _ => and_congr_right fun _ => find?_index_iff

theorem land?_eq_some_iff {site : ImportSite K} {spec : String} {target : Nat} :
    site.importer.land? spec = some target ↔ site.Reaches spec target :=
  Importer.land?_eq_some_iff.trans reaches_importer_iff

theorem submodule?_eq_some_iff {site : ImportSite K} {i : Import} {name : String} {target : Nat} :
    site.importer.submodule? i name = some target ↔ site.IsSubmodule i name target := by
  rw [Importer.submodule?_eq_some_iff, IsSubmodule, LooksInside, not_exists]
  simp only [reaches_importer_iff]
  rfl

theorem mem_rest_iff {site : ImportSite K} {i : Import} {name : String} :
    name ∈ site.importer.rest i ↔ name ∈ i.names ∧ ¬∃ target, site.IsSubmodule i name target := by
  simp only [Importer.rest, List.mem_filter, Option.isNone_iff_eq_none, Option.eq_none_iff_forall_ne_some, ne_eq,
    submodule?_eq_some_iff, not_exists]

theorem named_targets {site : ImportSite K} {i : Import} {target : Nat} :
    (∃ r ∈ site.importer.named i, r.target = target) ↔ ∃ name ∈ i.names, site.IsSubmodule i name target := by
  constructor
  · rintro ⟨r, hr, rfl⟩
    obtain ⟨name, hn, hfound⟩ := List.mem_filterMap.mp hr
    obtain ⟨u, hu, rfl⟩ := Option.map_eq_some_iff.mp hfound
    exact ⟨name, hn, submodule?_eq_some_iff.mp hu⟩
  · rintro ⟨name, hn, hs⟩
    refine ⟨⟨target, [name], i.isTypeOnly⟩, List.mem_filterMap.mpr ⟨name, hn, ?_⟩, rfl⟩
    rw [submodule?_eq_some_iff.mpr hs, Option.map_some]

theorem landFrom_targets {site : ImportSite K} {i : Import} {target : Nat} :
    (∃ r ∈ site.importer.landFrom i, r.target = target) ↔
      (∃ name ∈ i.names, site.IsSubmodule i name target) ∨
        (site.Reaches i.source target ∧
          (i.names = [] ∨ ∃ name ∈ i.names, ¬∃ u, site.IsSubmodule i name u)) := by
  have hrest : site.importer.rest i ≠ [] ↔ ∃ name ∈ i.names, ¬∃ u, site.IsSubmodule i name u := by
    simp only [ne_eq, List.eq_nil_iff_forall_not_mem, not_forall, not_not, mem_rest_iff]
  rw [Importer.landFrom_eq, ← land?_eq_some_iff, ← hrest, or_comm (a := i.names = [])]
  simp only [List.mem_append, or_and_right, exists_or]
  refine or_congr named_targets ?_
  cases site.importer.land? i.source with
  | none => simp
  | some u =>
    by_cases hwhole : site.importer.rest i ≠ [] ∨ i.names = []
    · simp only [Option.toList_some, List.flatMap_singleton, if_pos hwhole]
      simpa using fun _ => hwhole
    · simp only [Option.toList_some, List.flatMap_singleton, if_neg hwhole]
      simpa using fun _ => hwhole

theorem land_targets {site : ImportSite K} {i : Import} {target : Nat} :
    (∃ r ∈ site.importer.land i, r.target = target) ↔ i.origin ≠ .builtin ∧ site.Lands i target := by
  unfold Importer.land
  by_cases hb : i.origin = .builtin
  · simp [hb]
  · simp only [hb, if_false, ne_eq, not_false_eq_true, true_and]
    have hwhole : (∃ r ∈ ((site.importer.land? i.source).map fun u =>
          (⟨u, i.names, i.isTypeOnly⟩ : ResolvedImport)).toList, r.target = target) ↔
        site.Reaches i.source target := by
      rw [← land?_eq_some_iff]
      cases site.importer.land? i.source <;> simp
    have hfamily : site.importer.family = site.family := rfl
    cases hf : site.family with
    | curly =>
      simp only [hfamily, hf, reduceCtorEq, decide_false, Bool.false_and, Bool.false_eq_true, if_false]
      rw [hwhole]
      refine ⟨fun h => .whole (.inl hf) h, fun h => ?_⟩
      cases h with
      | whole _ h => exact h
      | submodule name h => simp [hf] at h
      | module h => simp [hf] at h
    | indent =>
      cases hn : i.hasNamespace with
      | true =>
        simp only [hfamily, hf, decide_true, Bool.not_true, Bool.and_false, Bool.false_eq_true, if_false]
        rw [hwhole]
        refine ⟨fun h => .whole (.inr hn) h, fun h => ?_⟩
        cases h with
        | whole _ h => exact h
        | submodule name _ h => simp [hn] at h
        | module _ h => simp [hn] at h
      | false =>
        simp only [hfamily, hf, decide_true, Bool.not_false, Bool.and_true, if_true]
        rw [landFrom_targets]
        constructor
        · rintro (⟨name, hm, hs⟩ | ⟨hr, hl⟩)
          · exact .submodule name hf hn hm hs
          · exact .module hf hn hr hl
        · intro h
          cases h with
          | whole h => simp [hf, hn] at h
          | submodule name _ _ hm hs => exact .inl ⟨name, hm, hs⟩
          | module _ _ hr hl => exact .inr ⟨hr, hl⟩

theorem reaches_lt {site : ImportSite K} {spec : String} {target : Nat} (h : site.Reaches spec target) :
    target < site.files.length := by
  obtain ⟨p, _, ⟨f, hf, _⟩, _⟩ := h
  exact (List.getElem?_eq_some_iff.mp hf).1

theorem lands_lt {site : ImportSite K} {i : Import} {target : Nat} (h : site.Lands i target) :
    target < site.files.length := by
  cases h with
  | whole _ h => exact reaches_lt h
  | submodule name _ _ _ h => exact reaches_lt h.2
  | module _ _ h => exact reaches_lt h

end ImportSite

end ModuleGraph
