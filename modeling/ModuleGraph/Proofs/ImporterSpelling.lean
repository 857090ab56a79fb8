import ModuleGraph.Proofs.ResolutionOrder
import ModuleGraph.Proofs.RootedPath

namespace ModuleGraph

namespace Resolver

open ModuleGraph.Path (CleansTo Component IsStep ofComponents stackOf stepsOf)

/-- How many directories above the importer's own a dotted specifier starts. -/
def levelsAbove (spec : String) : Nat :=
  (spec.toList.takeWhile (· == '.')).length - 1

/-- The dots of a specifier do not lead above the root. -/
def StaysBelowRoot (importer : Path) (spec : String) : Prop :=
  levelsAbove spec < importer.components.dropLast.length

/-- Of the components that the dots take away from the importer's directory, one is a step up. -/
def ClimbsOverUp (importer : Path) (spec : String) : Prop :=
  let directory := importer.components.dropLast
  StaysBelowRoot importer spec ∧ Component.up ∈ directory.drop (directory.length - levelsAbove spec)

/-- The dots lead to another directory than they do from the cleaned importer. It does not matter which one if the
rest starts at the root. -/
def GoesAstray (importer : Path) (spec : String) : Prop :=
  ClimbsOverUp importer spec ∧
    ((spec.toList.dropWhile (· == '.')).head? = some '/' → ¬StaysBelowRoot importer.clean spec)

instance (importer : Path) (spec : String) : Decidable (StaysBelowRoot importer spec) :=
  inferInstanceAs (Decidable (_ < _))

instance (importer : Path) (spec : String) : Decidable (ClimbsOverUp importer spec) :=
  inferInstanceAs (Decidable (_ ∧ _))

instance (importer : Path) (spec : String) : Decidable (GoesAstray importer spec) :=
  inferInstanceAs (Decidable (_ ∧ (_ → _)))

theorem probes_congr {options : ResolveOptions} {family : Family} {base base' : Path} (h : base.clean = base'.clean) :
    probes options family base = probes options family base' := by
  simp only [probes, h]

theorem head?_probes (options : ResolveOptions) (family : Family) (base : Path) :
    (probes options family base).head? = some base.clean := rfl

section Candidates

variable {r : Resolver} {family : Family} {importer importer' : Path} {spec : String}

theorem candidates_of_relative (h : Specifier.origin family spec = .relative) :
    r.candidates family importer spec =
      (relativeBase? r.options family importer spec).toList.flatMap (probes r.options family) := by
  unfold candidates bases
  simp only [h]

theorem head?_candidates (h : Specifier.origin family spec = .relative) :
    (r.candidates family importer spec).head? = (relativeBase? r.options family importer spec).map Path.clean := by
  rw [candidates_of_relative h]
  cases relativeBase? r.options family importer spec with
  | none => rfl
  | some base => exact head?_probes r.options family base

/-- Only a relative specifier asks for the importer, and then the cleaned base is all that matters. -/
theorem candidates_congr (h : Specifier.origin family spec = .relative →
      (relativeBase? r.options family importer spec).map Path.clean =
        (relativeBase? r.options family importer' spec).map Path.clean) :
    r.candidates family importer spec = r.candidates family importer' spec := by
  cases horigin : Specifier.origin family spec with
  | builtin => rw [candidates, candidates, bases_of_builtin horigin, bases_of_builtin horigin]
  | relative =>
    have hbase := h horigin
    rw [candidates_of_relative horigin, candidates_of_relative horigin]
    cases hp : relativeBase? r.options family importer spec with
    | none =>
      rw [hp, Option.map_none, eq_comm, Option.map_eq_none_iff] at hbase
      rw [hbase]
    | some base =>
      rw [hp, Option.map_some, eq_comm, Option.map_eq_some_iff] at hbase
      obtain ⟨base', hp', hclean⟩ := hbase
      rw [hp', Option.toList_some, Option.toList_some, List.flatMap_singleton, List.flatMap_singleton,
        probes_congr hclean.symm]
  | package =>
    unfold candidates bases
    simp only [horigin]
    cases family <;> rfl

end Candidates

inductive SameDirectory : Path → Path → Prop
  | steps {cs ds : List Component} (hcs : ∀ c ∈ cs, IsStep c) (hds : ∀ c ∈ ds, IsStep c)
      (h : stackOf cs = stackOf ds) : SameDirectory (ofComponents (.root :: cs)) (ofComponents (.root :: ds))

section Join

variable {cs ds : List Component} (hcs : ∀ c ∈ cs, IsStep c) (hds : ∀ c ∈ ds, IsStep c)
include hcs

theorem components_join_steps {q : Path} (hq : q.isAbsolute = false) :
    ((ofComponents (.root :: cs)).join q).components = .root :: (cs ++ stepsOf q.raw.toList) := by
  obtain ⟨htext, hcomponents⟩ := Path.components_ofComponents hcs
  rw [Path.components_join htext hq, hcomponents, List.cons_append]

theorem forall_join_steps (s : List UInt8) : ∀ c ∈ cs ++ stepsOf s, IsStep c :=
  List.forall_mem_append.mpr ⟨hcs, fun _ hc => Path.isStep_of_mem_stepsOf hc⟩

include hds

theorem clean_directory_iff :
    (ofComponents (.root :: cs)).clean = (ofComponents (.root :: ds)).clean ↔ stackOf cs = stackOf ds :=
  Path.clean_eq_iff (Path.components_ofComponents hcs).2 (Path.components_ofComponents hds).2 hcs hds

theorem clean_join_iff {q : Path} (hq : q.isAbsolute = false) :
    ((ofComponents (.root :: cs)).join q).clean = ((ofComponents (.root :: ds)).join q).clean ↔
      (stepsOf q.raw.toList).foldl Path.cleanStep (stackOf cs) =
        (stepsOf q.raw.toList).foldl Path.cleanStep (stackOf ds) := by
  rw [Path.clean_eq_iff (components_join_steps hcs hq) (components_join_steps hds hq) (forall_join_steps hcs _)
    (forall_join_steps hds _), Path.stackOf_append, Path.stackOf_append]

theorem clean_join_names_iff {q : Path} (hq : q.isAbsolute = false) (hup : .up ∉ stepsOf q.raw.toList) :
    ((ofComponents (.root :: cs)).join q).clean = ((ofComponents (.root :: ds)).join q).clean ↔
      stackOf cs = stackOf ds := by
  have hsteps : ∀ c ∈ stepsOf q.raw.toList, IsStep c := fun _ hc => Path.isStep_of_mem_stepsOf hc
  rw [clean_join_iff hcs hds hq, Path.foldl_cleanStep_names hsteps hup, Path.foldl_cleanStep_names hsteps hup,
    List.append_cancel_left_eq]

end Join

theorem SameDirectory.clean {p q : Path} (h : SameDirectory p q) : p.clean = q.clean := by
  obtain ⟨hcs, hds, h⟩ := h
  exact (clean_directory_iff hcs hds).mpr h

theorem SameDirectory.clean_join {p q : Path} (h : SameDirectory p q) (base : Path) :
    (p.join base).clean = (q.join base).clean := by
  obtain ⟨hcs, hds, h⟩ := h
  cases hbase : base.isAbsolute with
  | true => simp only [Path.join, hbase, if_true]
  | false => rw [clean_join_iff hcs hds hbase, h]

section Ascend

variable {cs : List Component} (hcs : ∀ c ∈ cs, IsStep c)
include hcs

theorem ascend_append {rest : List Component} (hrest : ∀ c ∈ rest, IsStep c) :
    ascend rest.length (ofComponents (.root :: (cs ++ rest))) = some (ofComponents (.root :: cs)) := by
  induction rest using List.reverseRecOn with
  | nil => rw [List.append_nil]; rfl
  | append_singleton rest c ih =>
    rw [List.forall_mem_append, List.forall_mem_singleton] at hrest
    have hsteps : ∀ d ∈ (cs ++ rest) ++ [c], IsStep d := by
      simp only [List.forall_mem_append, List.forall_mem_singleton]
      exact ⟨⟨hcs, hrest.1⟩, hrest.2⟩
    rw [List.length_append, List.length_singleton, ascend, ← List.append_assoc, Path.parent?_ofComponents hsteps,
      Option.bind_some, ih hrest.1]

theorem ascend_of_lt {levels : Nat} (h : cs.length < levels) : ascend levels (ofComponents (.root :: cs)) = none := by
  obtain ⟨more, rfl⟩ := Nat.exists_eq_add_of_lt h
  have hascend : ∀ m n p, ascend (m + n) p = (ascend m p).bind (ascend n) := by
    intro m n p
    induction m generalizing p with
    | zero => rw [Nat.zero_add]; rfl
    | succ m ih =>
      rw [Nat.succ_add, ascend, ascend, Option.bind_assoc]
      exact congrArg _ (funext ih)
  rw [Nat.add_assoc, hascend]
  have hroot := ascend_append (by simp : ∀ c ∈ ([] : List Component), IsStep c) hcs
  rw [List.nil_append] at hroot
  rw [hroot, Option.bind_some, ascend, Path.parent?_root]
  rfl

omit hcs in
theorem exists_split_of_le {levels : Nat} (h : levels ≤ cs.length) :
    ∃ before after, cs = before ++ after ∧ after.length = levels :=
  ⟨cs.take (cs.length - levels), cs.drop (cs.length - levels), (List.take_append_drop _ _).symm,
    by rw [List.length_drop]; omega⟩

end Ascend

section CleansTo

variable {cs ds before after : List Component}

theorem ascend_rel (h : CleansTo cs ds) {levels : Nat}
    (hkeep : ∀ before after, cs = before ++ after → after.length = levels → .up ∉ after) :
    Option.Rel SameDirectory (ascend levels (ofComponents (.root :: cs)))
      (ascend levels (ofComponents (.root :: ds))) := by
  by_cases hlevels : levels ≤ cs.length
  · obtain ⟨before, after, rfl, rfl⟩ := exists_split_of_le hlevels
    obtain ⟨rest, hrest, rfl⟩ := h.exists_append (hkeep before after rfl rfl)
    have hafter := (List.forall_mem_append.mp h.steps).2
    rw [ascend_append hrest.steps hafter, ascend_append hrest.names hafter]
    exact .some (.steps hrest.steps hrest.names hrest.same.symm)
  · have hlength := h.length_le
    rw [ascend_of_lt h.steps (by omega), ascend_of_lt h.names (by omega)]
    exact .none

/-- Where a step up is taken away, the cleaned directory lies further up. -/
theorem ascend_over_up (h : CleansTo (before ++ after) ds) (hup : .up ∈ after) (hlength : after.length ≤ ds.length) :
    ∃ rest, (∀ c ∈ rest, IsStep c) ∧
      ascend after.length (ofComponents (.root :: ds)) = some (ofComponents (.root :: rest)) ∧
        stackOf before ≠ stackOf rest := by
  obtain ⟨rest, gone, rfl, hgone⟩ := exists_split_of_le hlength
  obtain ⟨hbefore, hafter⟩ := List.forall_mem_append.mp h.steps
  obtain ⟨hrest, hnames⟩ := List.forall_mem_append.mp h.names
  refine ⟨rest, hrest, by rw [← hgone, ascend_append hrest hnames], fun hsame => ?_⟩
  have hfewer := (Path.rootedStack_stackOf hbefore).length_foldl_lt hafter hup
  rw [← Path.stackOf_append, h.stackOf_eq, hsame,
    Path.stackOf_names hrest fun hmem => h.no_up (List.mem_append_left _ hmem)] at hfewer
  simp only [List.length_append, List.length_reverse, List.length_singleton] at hfewer
  omega

end CleansTo

/-- An absolute path as the steps to its directory and the name of a file. -/
structure Spells (importer : Path) (cs : List Component) (n : RawText) : Prop where
  components : importer.components = .root :: (cs ++ [.name n])
  steps : ∀ c ∈ cs ++ [.name n], IsStep c

theorem exists_spells {importer : Path} (habs : importer.isAbsolute = true) (hname : importer.fileName?.isSome = true) :
    ∃ cs n, Spells importer cs n := by
  obtain ⟨n, hn⟩ := Option.isSome_iff_exists.mp hname
  have hcomponents := Path.components_of_isAbsolute habs
  rw [Path.fileName?_eq_some_iff, hcomponents] at hn
  rcases List.eq_nil_or_concat (stepsOf importer.raw.toList) with hnil | ⟨cs, c, hsteps⟩
  · rw [hnil] at hn
    cases hn
  · rw [List.concat_eq_append] at hsteps
    rw [hsteps, ← List.cons_append, List.getLast?_concat] at hn
    cases hn
    exact ⟨cs, n, by rw [hcomponents, hsteps], fun c hc => Path.isStep_of_mem_stepsOf (hsteps ▸ hc)⟩

namespace Spells

variable {importer : Path} {cs : List Component} {n : RawText} (h : Spells importer cs n)
include h

theorem dropLast_components : importer.components.dropLast = .root :: cs := by
  rw [h.components, ← List.cons_append, List.dropLast_concat]

theorem parent?_eq : importer.parent? = some (ofComponents (.root :: cs)) := by
  rw [Path.parent?, h.components, ← List.cons_append, Path.parentOf?_concat (by simp), Option.map_some]

theorem exists_clean : ∃ ds, Spells importer.clean ds n ∧ CleansTo cs ds := by
  obtain ⟨hcs, hn⟩ := List.forall_mem_append.mp h.steps
  obtain ⟨ds, hds, hcleans⟩ := Path.exists_cleansTo hcs
  refine ⟨ds, ⟨?_, List.forall_mem_append.mpr ⟨hcleans.names, hn⟩⟩, hcleans⟩
  rw [Path.components_clean h.components h.steps, Path.stackOf_concat_name, List.reverse_cons, hds, List.cons_append]

theorem staysBelowRoot_iff {spec : String} : StaysBelowRoot importer spec ↔ levelsAbove spec ≤ cs.length := by
  rw [StaysBelowRoot, h.dropLast_components, List.length_cons, Nat.lt_succ_iff]

theorem climbsOverUp_iff {spec : String} : ClimbsOverUp importer spec ↔
    ∃ before after, cs = before ++ after ∧ after.length = levelsAbove spec ∧ .up ∈ after := by
  have hdrop : ∀ before after : List Component, after.length = levelsAbove spec →
      (.root :: (before ++ after)).drop ((before ++ after).length + 1 - levelsAbove spec) = after := by
    intro before after hlength
    have hcount : (before ++ after).length + 1 - levelsAbove spec = before.length + 1 := by
      rw [List.length_append]
      omega
    rw [hcount, List.drop_succ_cons, List.drop_left]
  simp only [ClimbsOverUp, h.staysBelowRoot_iff, h.dropLast_components, List.length_cons]
  constructor
  · rintro ⟨hlevels, hup⟩
    obtain ⟨before, after, rfl, hlength⟩ := exists_split_of_le hlevels
    rw [hdrop before after hlength] at hup
    exact ⟨before, after, rfl, hlength, hup⟩
  · rintro ⟨before, after, rfl, hlength, hup⟩
    rw [hdrop before after hlength]
    exact ⟨by rw [List.length_append]; omega, hup⟩

end Spells

section Dotted

variable {spec : String} {levels : Nat} {rest : List Char}

theorem levelsAbove_eq {dots : Nat} (hspec : spec.toList = List.replicate dots '.' ++ rest)
    (hrest : rest.head? ≠ some '.') : levelsAbove spec = dots - 1 := by
  have hnone : rest.takeWhile (· == '.') = [] := by
    cases rest with
    | nil => rfl
    | cons c rest => exact List.takeWhile_cons_of_neg (by simpa using hrest)
  rw [levelsAbove, hspec, List.takeWhile_append_of_pos (by simp), hnone, List.append_nil, List.length_replicate]

theorem ClimbsOverUp.exists_dots {importer : Path} (h : ClimbsOverUp importer spec) :
    ∃ levels rest, spec.toList = List.replicate (levels + 1) '.' ++ rest ∧ rest.head? ≠ some '.' := by
  obtain ⟨dots, rest, hspec, hrest⟩ := Resolver.exists_dots spec.toList
  cases dots with
  | zero =>
    -- Without dots nothing is taken away.
    have hnone : levelsAbove spec = 0 := levelsAbove_eq hspec hrest
    have hup := h.2
    rw [hnone, Nat.sub_zero, List.drop_length] at hup
    cases hup
  | succ levels => exact ⟨levels, rest, hspec, hrest⟩

/-- What stands after the dots has no dots, so that it leads down only. -/
theorem up_not_mem_dotsToSlashes : .up ∉ stepsOf (dotsToSlashes rest).raw.toList := by
  intro hmem
  obtain ⟨w, hw, hup⟩ := List.mem_filterMap.mp hmem
  have hdots : Path.dot ∉ (dotsToSlashes rest).raw.toList := by
    rw [dotsToSlashes, RawText.toList_ofString, String.toList_ofList, Utf8.mem_bytes_iff Path.bytes_dot, List.mem_map]
    rintro ⟨d, -, hd⟩
    split at hd
    · exact absurd hd (by decide)
    · contradiction
  have hpiece : w = [Path.dot, Path.dot] := by
    unfold Path.Component.ofPiece? at hup
    split at hup
    · cases hup
    · split at hup
      · assumption
      · cases hup
  exact hdots (Text.mem_pieces hw _ (hpiece ▸ List.mem_cons_self)).1

theorem isAbsolute_dotsToSlashes {c : Char} (hdot : c ≠ '.') :
    (dotsToSlashes (c :: rest)).isAbsolute = true ↔ c = '/' := by
  rw [dotsToSlashes, List.map_cons, if_neg hdot, Path.isAbsolute_ofList_cons]

theorem Spells.relativeBase?_of_rooted {options : ResolveOptions} {importer : Path} {cs : List Component} {n : RawText}
    (h : Spells importer cs n) {name : List Char} (hspec : spec.toList = List.replicate (levels + 1) '.' ++ '/' :: name)
    (hbelow : StaysBelowRoot importer spec) :
    relativeBase? options .indent importer spec = some (dotsToSlashes ('/' :: name)) := by
  have hrest : ('/' :: name).head? ≠ some '.' := by simp
  have habsolute : (dotsToSlashes ('/' :: name)).isAbsolute = true := (isAbsolute_dotsToSlashes (by decide)).mpr rfl
  rw [h.staysBelowRoot_iff, levelsAbove_eq hspec hrest] at hbelow
  obtain ⟨before, after, rfl, hlength⟩ := exists_split_of_le hbelow
  obtain rfl : after.length = levels := hlength
  obtain ⟨hcs, -⟩ := List.forall_mem_append.mp h.steps
  obtain ⟨hbefore, hafter⟩ := List.forall_mem_append.mp hcs
  rw [relativeBase?_indent hspec hrest, h.parent?_eq, Option.bind_some, ascend_append hbefore hafter, Option.map_some,
    List.isEmpty_cons, if_neg Bool.false_ne_true, Path.join, if_pos habsolute]

end Dotted

section Base

variable {options : ResolveOptions} {importer : Path} {cs ds : List Component} {n : RawText}
  (himporter : Spells importer cs n) (hclean : Spells importer.clean ds n) (hcs : CleansTo cs ds)
include himporter hclean hcs

theorem clean_relativeBase?_curly (spec : String) : (relativeBase? options .curly importer spec).map Path.clean =
    (relativeBase? options .curly importer.clean spec).map Path.clean := by
  have hsame : SameDirectory (ofComponents (.root :: cs)) (ofComponents (.root :: ds)) :=
    .steps hcs.steps hcs.names hcs.same.symm
  simp only [relativeBase?, himporter.parent?_eq, hclean.parent?_eq]
  split
  · rfl
  · exact congrArg some (hsame.clean_join _)

variable {spec : String} {levels : Nat} {rest : List Char}
  (hspec : spec.toList = List.replicate (levels + 1) '.' ++ rest) (hrest : rest.head? ≠ some '.')
include hspec hrest

theorem clean_relativeBase?_indent (h : ¬GoesAstray importer spec) :
    (relativeBase? options .indent importer spec).map Path.clean =
      (relativeBase? options .indent importer.clean spec).map Path.clean := by
  by_cases hclimbs : ClimbsOverUp importer spec
  · obtain ⟨hhead, hbelow⟩ : rest.head? = some '/' ∧ StaysBelowRoot importer.clean spec := by
      simpa [GoesAstray, hclimbs, hspec, dropWhile_dots hrest] using h
    obtain ⟨name, rfl⟩ := List.head?_eq_some_iff.mp hhead
    rw [himporter.relativeBase?_of_rooted hspec hclimbs.1, hclean.relativeBase?_of_rooted hspec hbelow]
  · have hkeep : ∀ before after, cs = before ++ after → after.length = levels → .up ∉ after := by
      intro before after hsplit hlength hup
      have hlevels : after.length = levelsAbove spec := hlength.trans (levelsAbove_eq hspec hrest).symm
      exact hclimbs (himporter.climbsOverUp_iff.mpr ⟨before, after, hsplit, hlevels, hup⟩)
    have hrel := ascend_rel hcs hkeep
    rw [relativeBase?_indent hspec hrest, relativeBase?_indent hspec hrest, himporter.parent?_eq, hclean.parent?_eq,
      Option.bind_some, Option.bind_some]
    generalize ascend levels (ofComponents (.root :: cs)) = up at hrel ⊢
    generalize ascend levels (ofComponents (.root :: ds)) = up' at hrel ⊢
    cases hrel with
    | none => rfl
    | some hsame =>
      simp only [Option.map_some]
      split
      · rw [hsame.clean]
      · rw [hsame.clean_join]

theorem clean_relativeBase?_indent_ne (h : GoesAstray importer spec) :
    (relativeBase? options .indent importer spec).map Path.clean ≠
      (relativeBase? options .indent importer.clean spec).map Path.clean := by
  obtain ⟨hclimbs, hanew⟩ := h
  obtain ⟨before, after, rfl, hlength, hup⟩ := himporter.climbsOverUp_iff.mp hclimbs
  rw [hclean.staysBelowRoot_iff, hspec, dropWhile_dots hrest, ← hlength] at hanew
  obtain rfl : after.length = levels := hlength.trans (levelsAbove_eq hspec hrest)
  obtain ⟨hbefore, hafter⟩ := List.forall_mem_append.mp hcs.steps
  rw [relativeBase?_indent hspec hrest, relativeBase?_indent hspec hrest, himporter.parent?_eq, hclean.parent?_eq,
    Option.bind_some, Option.bind_some, ascend_append hbefore hafter]
  by_cases hbelow : after.length ≤ ds.length
  · obtain ⟨directory, hdirectory, hascend, hother⟩ := ascend_over_up hcs hup hbelow
    rw [hascend]
    simp only [Option.map_some, ne_eq, Option.some.injEq]
    cases rest with
    | nil =>
      rw [List.isEmpty_nil, if_pos rfl, if_pos rfl, clean_directory_iff hbefore hdirectory]
      exact hother
    | cons c name =>
      have hrelative : (dotsToSlashes (c :: name)).isAbsolute = false := by
        rw [Bool.eq_false_iff, ne_eq, isAbsolute_dotsToSlashes (fun hc => hrest (congrArg some hc))]
        exact fun hc => hanew (congrArg some hc) hbelow
      rw [List.isEmpty_cons, if_neg Bool.false_ne_true, if_neg Bool.false_ne_true,
        clean_join_names_iff hbefore hdirectory hrelative up_not_mem_dotsToSlashes]
      exact hother
  · rw [ascend_of_lt hcs.names (Nat.lt_of_not_le hbelow)]
    simp

end Base

/-- The spelling of the importer's path makes no difference to what a specifier stands for, but for a dotted one that
takes away a step up: then even the place that is looked at first is another one. -/
theorem resolution_of_cleaned_importer (r : Resolver) {importer : Path} (habs : importer.isAbsolute = true)
    (hname : importer.fileName?.isSome = true) (spec : String) :
    (∀ t, r.resolveAs? t .curly importer spec = r.resolveAs? t .curly importer.clean spec) ∧
      (¬GoesAstray importer spec →
        ∀ t, r.resolveAs? t .indent importer spec = r.resolveAs? t .indent importer.clean spec) ∧
      (GoesAstray importer spec →
        (r.candidates .indent importer spec).head? ≠ (r.candidates .indent importer.clean spec).head?) := by
  obtain ⟨cs, n, himporter⟩ := exists_spells habs hname
  obtain ⟨ds, hclean, hcs⟩ := himporter.exists_clean
  refine ⟨fun t => ?_, fun hstray t => ?_, fun hstray => ?_⟩
  · rw [resolveAs?, resolveAs?, candidates_congr fun _ => clean_relativeBase?_curly himporter hclean hcs spec]
  · have hcandidates : r.candidates .indent importer spec = r.candidates .indent importer.clean spec := by
      refine candidates_congr fun horigin => ?_
      obtain ⟨levels, rest, hspec, hrest⟩ := exists_dots_of_isRelative (isRelative_of_origin horigin)
      exact clean_relativeBase?_indent himporter hclean hcs hspec hrest hstray
    rw [resolveAs?, resolveAs?, hcandidates]
  · obtain ⟨levels, rest, hspec, hrest⟩ := hstray.1.exists_dots
    rw [head?_candidates (origin_of_dots hspec), head?_candidates (origin_of_dots hspec)]
    exact clean_relativeBase?_indent_ne himporter hclean hcs hspec hrest hstray

theorem resolution_of_cleaned_importer_after_up :
    let importer : Path := ⟨"/p/./q/../s/a.py"⟩
    importer.isAbsolute = true ∧ importer.fileName?.isSome = true ∧ ¬GoesAstray importer "..b" ∧
      ∀ (r : Resolver) t, r.resolveAs? t .indent importer "..b" = r.resolveAs? t .indent ⟨"/p/s/a.py"⟩ "..b" := by
  intro importer
  have habs : importer.isAbsolute = true := by decide
  have hname : importer.fileName?.isSome = true := by decide
  have hstray : ¬GoesAstray importer "..b" := by decide
  have hclean : importer.clean = ⟨"/p/s/a.py"⟩ := by decide
  refine ⟨habs, hname, hstray, fun r t => ?_⟩
  have hresult := (resolution_of_cleaned_importer r habs hname "..b").2.1 hstray t
  rwa [hclean] at hresult

/-- Two dots take away the step up of `/pkg/sub/../main.py` and so lead to `/pkg/sub`. -/
theorem resolution_changed_by_cleaning :
    let t : FileTree := ⟨[(["util.py"], []), (["pkg", "sub", "util.py"], []), (["pkg", "main.py"], [])],
      [["pkg"], ["pkg", "sub"]], []⟩
    let r : Resolver := ⟨.ofBase ⟨"/"⟩, none⟩
    let importer : Path := ⟨"/pkg/sub/../main.py"⟩
    r.resolveAs? t .indent importer "..util" = some ⟨"/pkg/sub/util.py"⟩ ∧
      r.resolveAs? t .indent importer.clean "..util" = some ⟨"/util.py"⟩ := by
  decide +kernel

end Resolver

end ModuleGraph
