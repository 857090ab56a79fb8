import ModuleGraph.Resolve.Basic
import ModuleGraph.Proofs.TextPieces
import Mathlib.Data.List.DropRight

namespace ModuleGraph

namespace Resolver

inductive Form where
  | itself
  | extended
  | swapped
  | index
  deriving DecidableEq, Repr

def Form.rank : Form → Nat
  | .itself => 0
  | .extended => 1
  | .swapped => 2
  | .index => 3

/-- Where a search looks: the number of the base path, its form, and the number of the extension in its list. -/
structure Place where
  base : Nat
  form : Form
  number : Nat
  deriving DecidableEq, Repr

/-- All of one base path comes before the next one, all of one form before the next one, and extensions come in
the order of their list. -/
def Place.Before (a b : Place) : Prop :=
  a.base < b.base ∨ a.base = b.base ∧
    (a.form.rank < b.form.rank ∨ a.form.rank = b.form.rank ∧ a.number < b.number)

/-- An extension without the dots that it may be written with. -/
def bare (extension : String) : String :=
  String.ofList (extension.toList.dropWhile (· == '.'))

/-- An extension is tried when it belongs to the importer's family, and by curly-brace files also when it belongs
to none. -/
def IsTried (family : Family) (extension : String) : Prop :=
  Family.ofExtension? extension = some family ∨ Family.ofExtension? extension = none ∧ family = .curly

/-- Emitted extensions with the extensions of their sources. -/
def swaps : List (String × String) :=
  [("js", "ts"), ("js", "tsx"), ("jsx", "tsx"), ("mjs", "mts"), ("cjs", "cts")]

/-- The path that is looked for in some form of a base path under some number. -/
inductive Offers (options : ResolveOptions) (family : Family) (base : Path) : Form → Nat → Path → Prop
  | itself : Offers options family base .itself 0 base.clean
  | extended {k : Nat} {e : String} : options.extensions[k]? = some e → IsTried family e →
      Offers options family base .extended k ⟨base.clean.raw ++ "." ++ bare e⟩
  | swapped {k : Nat} {emitted source : String} : family = .curly → base.clean.extension? = some emitted →
      swaps[k]? = some (emitted, source) →
      Offers options family base .swapped k (base.clean.swapExtension emitted source)
  | index {k : Nat} {e : String} : options.extensions[k]? = some e → IsTried family e →
      Offers options family base .index k (base.clean.join ⟨family.indexStem ++ "." ++ bare e⟩)

/-- The base path of a relative specifier. A dotted one starts with one dot for the importer's directory and one
more for each directory above. -/
inductive IsRelativeBase (options : ResolveOptions) (importer : Path) (spec : String) : Family → Path → Prop
  | rooted {directory : Path} {rooted : List Char} : importer.parent? = some directory →
      spec.toList = '/' :: rooted →
      IsRelativeBase options importer spec .curly (options.baseDir.join ⟨String.ofList rooted⟩)
  | beside {directory : Path} : importer.parent? = some directory → spec.toList.head? ≠ some '/' →
      IsRelativeBase options importer spec .curly (directory.join ⟨spec⟩)
  | above {directory up : Path} {levels : Nat} : importer.parent? = some directory →
      spec.toList = List.replicate (levels + 1) '.' → ascend levels directory = some up →
      IsRelativeBase options importer spec .indent up
  | dotted {directory up : Path} {levels : Nat} {c : Char} {name : List Char} : importer.parent? = some directory →
      spec.toList = List.replicate (levels + 1) '.' ++ c :: name → c ≠ '.' → ascend levels directory = some up →
      IsRelativeBase options importer spec .indent (up.join (dotsToSlashes (c :: name)))

/-- The base paths of a specifier with their numbers: the one of a relative specifier, the candidates that the
aliases give for a package of the curly-brace family, and the dotted path of another package. -/
inductive IsBase (r : Resolver) (importer : Path) (spec : String) : Family → Nat → Path → Prop
  | relative {family : Family} {base : Path} : Specifier.origin family spec = .relative →
      IsRelativeBase r.options importer spec family base → IsBase r importer spec family 0 base
  | aliased {table : AliasTable} {n : Nat} {base : Path} : Specifier.origin .curly spec = .package →
      r.aliases = some table → (table.candidates spec)[n]? = some base → IsBase r importer spec .curly n base
  | package : Specifier.origin .indent spec = .package →
      IsBase r importer spec .indent 0 (r.options.baseDir.join (dotsToSlashes spec.toList))

/-- A path is looked for at a place. -/
def LooksFor (r : Resolver) (family : Family) (importer : Path) (spec : String) (place : Place) (p : Path) : Prop :=
  ∃ base, IsBase r importer spec family place.base base ∧ Offers r.options family base place.form place.number p

theorem Place.Before.asymm {a b : Place} (h : a.Before b) : ¬b.Before a := by
  unfold Before at h ⊢
  omega

theorem find?_placed_eq_some_iff {placed : List (Place × Path)} (h : placed.Pairwise fun a b => a.1.Before b.1)
    {hit : Path → Bool} {p : Path} :
    (placed.map Prod.snd).find? hit = some p ↔
      ∃ place, (place, p) ∈ placed ∧ hit p = true ∧
        ∀ earlier, earlier.Before place → ∀ q, (earlier, q) ∈ placed → hit q = false := by
  induction placed with
  | nil => simp
  | cons entry placed ih =>
    obtain ⟨first, q⟩ := entry
    obtain ⟨hfirst, h⟩ := List.pairwise_cons.mp h
    rw [List.map_cons, List.find?_cons]
    cases hq : hit q with
    | true =>
      constructor
      · intro hp
        cases Option.some.inj hp
        refine ⟨first, List.mem_cons_self, hq, fun earlier hearlier q' hq' => ?_⟩
        rcases List.mem_cons.mp hq' with heq | hmem
        · cases heq
          exact absurd hearlier hearlier.asymm
        · exact absurd hearlier (hfirst _ hmem).asymm
      · rintro ⟨place, hmem, hp, hbefore⟩
        rcases List.mem_cons.mp hmem with heq | hmem
        · cases heq
          rfl
        · have hmiss := hbefore first (hfirst _ hmem) q List.mem_cons_self
          exact absurd (hq.symm.trans hmiss) Bool.noConfusion
    | false =>
      refine (ih h).trans ⟨?_, ?_⟩
      · rintro ⟨place, hmem, hp, hbefore⟩
        refine ⟨place, List.mem_cons_of_mem _ hmem, hp, fun earlier hearlier q' hq' => ?_⟩
        rcases List.mem_cons.mp hq' with heq | hmem'
        · cases heq
          exact hq
        · exact hbefore earlier hearlier q' hmem'
      · rintro ⟨place, hmem, hp, hbefore⟩
        rcases List.mem_cons.mp hmem with heq | hmem
        · cases heq
          exact absurd (hp.symm.trans hq) Bool.noConfusion
        · exact ⟨place, hmem, hp, fun earlier hearlier q' hq' =>
            hbefore earlier hearlier q' (List.mem_cons_of_mem _ hq')⟩

def numberedExtensions (options : ResolveOptions) (family : Family) : List (String × Nat) :=
  options.extensions.zipIdx.filter fun e => accepts family (bare e.1)

def numberedSwaps (family : Family) (base : Path) : List ((String × String) × Nat) :=
  swaps.zipIdx.filter fun s => family = .curly ∧ base.extension? = some s.1.1

def placedForm (options : ResolveOptions) (family : Family) (n : Nat) (base : Path) : Form → List (Place × Path)
  | .itself => [(⟨n, .itself, 0⟩, base.clean)]
  | .extended => (numberedExtensions options family).map fun e =>
      (⟨n, .extended, e.2⟩, base.clean.withSuffix (bare e.1))
  | .swapped => (numberedSwaps family base.clean).map fun s =>
      (⟨n, .swapped, s.2⟩, base.clean.swapExtension s.1.1 s.1.2)
  | .index => (numberedExtensions options family).map fun e =>
      (⟨n, .index, e.2⟩, base.clean.join ⟨family.indexStem ++ "." ++ bare e.1⟩)

def placedProbes (options : ResolveOptions) (family : Family) (n : Nat) (base : Path) : List (Place × Path) :=
  [.itself, .extended, .swapped, .index].flatMap (placedForm options family n base)

def placedCandidates (r : Resolver) (family : Family) (importer : Path) (spec : String) : List (Place × Path) :=
  (r.bases family importer spec).zipIdx.flatMap fun b => placedProbes r.options family b.2 b.1

theorem map_numberedExtensions {α : Type} (options : ResolveOptions) (family : Family) (f : String → α) :
    (numberedExtensions options family).map (fun e => f (bare e.1)) = (triedExtensions options family).map f := by
  have htried : triedExtensions options family =
      ((options.extensions.zipIdx.map Prod.fst).map bare).filter (accepts family) := by
    rw [List.zipIdx_map_fst]
    rfl
  rw [htried, List.map_map, List.filter_map, List.map_map]
  simp only [numberedExtensions, Function.comp_def]

theorem sourceExtensions_eq (emitted : String) :
    sourceExtensions emitted = (swaps.filter fun s => s.1 = emitted).map Prod.snd := by
  by_cases hjs : emitted = "js"
  · rw [hjs]; rfl
  by_cases hjsx : emitted = "jsx"
  · rw [hjsx]; rfl
  by_cases hmjs : emitted = "mjs"
  · rw [hmjs]; rfl
  by_cases hcjs : emitted = "cjs"
  · rw [hcjs]; rfl
  simp only [sourceExtensions, swaps, hjs, hjsx, hmjs, hcjs, if_false]
  simp [Ne.symm hjs, Ne.symm hjsx, Ne.symm hmjs, Ne.symm hcjs]

theorem map_numberedSwaps (family : Family) (base : Path) :
    (numberedSwaps family base).map (fun s => base.swapExtension s.1.1 s.1.2) = sourceSwaps family base := by
  have hplain : (numberedSwaps family base).map (fun s => base.swapExtension s.1.1 s.1.2) =
      (swaps.filter fun s => family = .curly ∧ base.extension? = some s.1).map
        fun s => base.swapExtension s.1 s.2 := by
    conv_rhs => rw [← List.zipIdx_map_fst 0 swaps, List.filter_map, List.map_map]
    simp only [numberedSwaps, Function.comp_def]
  rw [hplain]
  cases family with
  | indent => simp [sourceSwaps]
  | curly =>
    cases hext : base.extension? with
    | none => simp [sourceSwaps, hext]
    | some emitted =>
      simp only [sourceSwaps, hext, sourceExtensions_eq, List.map_map, true_and, Option.some.injEq,
        eq_comm (a := emitted)]
      refine List.map_congr_left fun s hs => ?_
      have hemitted : s.1 = emitted := of_decide_eq_true (List.mem_filter.mp hs).2
      simp only [Function.comp_apply, hemitted]

theorem map_snd_placedProbes (options : ResolveOptions) (family : Family) (n : Nat) (base : Path) :
    (placedProbes options family n base).map Prod.snd = probes options family base := by
  have hextended := map_numberedExtensions options family base.clean.withSuffix
  have hindex := map_numberedExtensions options family fun e => base.clean.join ⟨family.indexStem ++ "." ++ e⟩
  simp only [placedProbes, placedForm, List.flatMap_cons, List.flatMap_nil, List.map_append, List.map_cons,
    List.map_map, Function.comp_def, hextended, hindex, map_numberedSwaps]
  simp [probes]

theorem map_snd_placedCandidates (r : Resolver) (family : Family) (importer : Path) (spec : String) :
    (r.placedCandidates family importer spec).map Prod.snd = r.candidates family importer spec := by
  rw [placedCandidates, List.map_flatMap, candidates]
  simp only [map_snd_placedProbes]
  conv_rhs => rw [← List.zipIdx_map_fst 0 (r.bases family importer spec), List.flatMap_map]

theorem pairwise_zipIdx {α : Type} (xs : List α) : xs.zipIdx.Pairwise fun a b => a.2 < b.2 := by
  have hrange : (xs.zipIdx.map Prod.snd).Pairwise (· < ·) := by
    rw [List.zipIdx_map_snd]
    exact List.pairwise_lt_range'
  exact List.pairwise_map.mp hrange

theorem accepts_bare_iff {family : Family} {e : String} : accepts family (bare e) = true ↔ IsTried family e := by
  have hbare : Family.ofExtension? (bare e) = Family.ofExtension? e := by
    simp only [Family.ofExtension?, bare, String.toList_ofList, List.dropWhile_idempotent]
  rw [accepts, hbare, IsTried]
  cases Family.ofExtension? e <;> simp

theorem mem_numberedExtensions_iff {options : ResolveOptions} {family : Family} {e : String} {k : Nat} :
    (e, k) ∈ numberedExtensions options family ↔ options.extensions[k]? = some e ∧ IsTried family e := by
  rw [numberedExtensions, List.mem_filter, List.mem_zipIdx_iff_getElem?, accepts_bare_iff]

theorem mem_numberedSwaps_iff {family : Family} {base : Path} {emitted source : String} {k : Nat} :
    ((emitted, source), k) ∈ numberedSwaps family base ↔
      swaps[k]? = some (emitted, source) ∧ family = .curly ∧ base.extension? = some emitted := by
  rw [numberedSwaps, List.mem_filter, List.mem_zipIdx_iff_getElem?, decide_eq_true_eq]

theorem mem_placedForm_iff {options : ResolveOptions} {family : Family} {n : Nat} {base : Path} {form : Form}
    {place : Place} {p : Path} :
    (place, p) ∈ placedForm options family n base form ↔
      place.base = n ∧ place.form = form ∧ Offers options family base form place.number p := by
  obtain ⟨m, f, k⟩ := place
  constructor
  · intro h
    cases form with
    | itself =>
      obtain ⟨hplace, rfl⟩ := Prod.mk.inj (List.mem_singleton.mp h)
      cases hplace
      exact ⟨rfl, rfl, .itself⟩
    | extended =>
      obtain ⟨⟨e, k⟩, he, heq⟩ := List.mem_map.mp h
      cases heq
      obtain ⟨hk, htried⟩ := mem_numberedExtensions_iff.mp he
      exact ⟨rfl, rfl, .extended hk htried⟩
    | swapped =>
      obtain ⟨⟨⟨emitted, source⟩, k⟩, hs, heq⟩ := List.mem_map.mp h
      cases heq
      obtain ⟨hk, hfamily, hext⟩ := mem_numberedSwaps_iff.mp hs
      exact ⟨rfl, rfl, .swapped hfamily hext hk⟩
    | index =>
      obtain ⟨⟨e, k⟩, he, heq⟩ := List.mem_map.mp h
      cases heq
      obtain ⟨hk, htried⟩ := mem_numberedExtensions_iff.mp he
      exact ⟨rfl, rfl, .index hk htried⟩
  · rintro ⟨rfl, rfl, h⟩
    cases h with
    | itself => exact List.mem_singleton_self _
    | extended hk htried => exact List.mem_map.mpr ⟨_, mem_numberedExtensions_iff.mpr ⟨hk, htried⟩, rfl⟩
    | swapped hfamily hext hk => exact List.mem_map.mpr ⟨_, mem_numberedSwaps_iff.mpr ⟨hk, hfamily, hext⟩, rfl⟩
    | index hk htried => exact List.mem_map.mpr ⟨_, mem_numberedExtensions_iff.mpr ⟨hk, htried⟩, rfl⟩

theorem mem_placedProbes_iff {options : ResolveOptions} {family : Family} {n : Nat} {base : Path} {place : Place}
    {p : Path} :
    (place, p) ∈ placedProbes options family n base ↔
      place.base = n ∧ Offers options family base place.form place.number p := by
  rw [placedProbes, List.mem_flatMap]
  constructor
  · rintro ⟨form, -, h⟩
    obtain ⟨hbase, rfl, hoffers⟩ := mem_placedForm_iff.mp h
    exact ⟨hbase, hoffers⟩
  · rintro ⟨hbase, hoffers⟩
    refine ⟨place.form, ?_, mem_placedForm_iff.mpr ⟨hbase, rfl, hoffers⟩⟩
    cases place.form <;> simp

theorem pairwise_placedForm (options : ResolveOptions) (family : Family) (n : Nat) (base : Path) (form : Form) :
    (placedForm options family n base form).Pairwise fun a b => a.1.Before b.1 := by
  have hextensions : (numberedExtensions options family).Pairwise fun a b => a.2 < b.2 :=
    (pairwise_zipIdx _).filter _
  have hswaps : (numberedSwaps family base.clean).Pairwise fun a b => a.2 < b.2 := (pairwise_zipIdx _).filter _
  cases form with
  | itself => exact List.pairwise_singleton _ _
  | extended => exact List.pairwise_map.mpr (hextensions.imp fun hlt => .inr ⟨rfl, .inr ⟨rfl, hlt⟩⟩)
  | swapped => exact List.pairwise_map.mpr (hswaps.imp fun hlt => .inr ⟨rfl, .inr ⟨rfl, hlt⟩⟩)
  | index => exact List.pairwise_map.mpr (hextensions.imp fun hlt => .inr ⟨rfl, .inr ⟨rfl, hlt⟩⟩)

theorem pairwise_placedProbes (options : ResolveOptions) (family : Family) (n : Nat) (base : Path) :
    (placedProbes options family n base).Pairwise fun a b => a.1.Before b.1 := by
  refine List.pairwise_flatMap.mpr ⟨fun form _ => pairwise_placedForm options family n base form, ?_⟩
  have hforms : [Form.itself, .extended, .swapped, .index].Pairwise fun a b => a.rank < b.rank := by decide
  refine hforms.imp fun {a b} hlt x hx y hy => .inr ?_
  obtain ⟨hxbase, hxform, -⟩ := mem_placedForm_iff.mp hx
  obtain ⟨hybase, hyform, -⟩ := mem_placedForm_iff.mp hy
  rw [hxbase, hybase, hxform, hyform]
  exact ⟨rfl, .inl hlt⟩

theorem pairwise_placedCandidates (r : Resolver) (family : Family) (importer : Path) (spec : String) :
    (r.placedCandidates family importer spec).Pairwise fun a b => a.1.Before b.1 := by
  refine List.pairwise_flatMap.mpr ⟨fun b _ => pairwise_placedProbes r.options family b.2 b.1, ?_⟩
  refine (pairwise_zipIdx _).imp fun {b c} hlt x hx y hy => Or.inl ?_
  rwa [(mem_placedProbes_iff.mp hx).1, (mem_placedProbes_iff.mp hy).1]

theorem dropWhile_dots {levels : Nat} {rest : List Char} (h : rest.head? ≠ some '.') :
    (List.replicate levels '.' ++ rest).dropWhile (· == '.') = rest := by
  induction levels with
  | zero =>
    cases rest with
    | nil => rfl
    | cons c rest =>
      have hc : (c == '.') = false := beq_eq_false_iff_ne.mpr fun heq => h (congrArg some heq)
      rw [List.replicate_zero, List.nil_append, List.dropWhile_cons, hc, if_neg Bool.false_ne_true]
  | succ levels ih => rw [List.replicate_succ, List.cons_append, List.dropWhile_cons_of_pos (by rfl), ih]

theorem exists_dots (s : List Char) :
    ∃ levels rest, s = List.replicate levels '.' ++ rest ∧ rest.head? ≠ some '.' := by
  induction s with
  | nil => exact ⟨0, [], rfl, by simp⟩
  | cons c s ih =>
    by_cases hc : c = '.'
    · obtain ⟨levels, rest, rfl, hrest⟩ := ih
      exact ⟨levels + 1, rest, by rw [hc, List.replicate_succ, List.cons_append], hrest⟩
    · exact ⟨0, c :: s, rfl, by simpa using hc⟩

theorem exists_dots_of_isRelative {spec : String} (h : Specifier.isRelative .indent spec = true) :
    ∃ levels rest, spec.toList = List.replicate (levels + 1) '.' ++ rest ∧ rest.head? ≠ some '.' := by
  obtain ⟨dots, rest, hspec, hrest⟩ := exists_dots spec.toList
  obtain ⟨levels, rfl⟩ : ∃ levels, dots = levels + 1 := by
    refine Nat.exists_eq_succ_of_ne_zero fun hdots => hrest ?_
    obtain ⟨name, hname⟩ := Text.startsWith_iff.mp h
    rw [hdots, List.replicate_zero, List.nil_append] at hspec
    rw [← hspec, ← hname]
    rfl
  exact ⟨levels, rest, hspec, hrest⟩

theorem origin_of_dots {spec : String} {levels : Nat} {rest : List Char}
    (hspec : spec.toList = List.replicate (levels + 1) '.' ++ rest) :
    Specifier.origin .indent spec = .relative := by
  have hbuiltin : Specifier.isBuiltin .indent spec = false := by
    have hempty : Text.upTo (· == '.') spec.toList = [] := by
      rw [hspec, List.replicate_succ, List.cons_append]
      rfl
    rw [Specifier.isBuiltin, hempty]
    decide
  have hrelative : Specifier.isRelative .indent spec = true := by
    rw [Specifier.isRelative, hspec]
    rfl
  rw [Specifier.origin, hbuiltin, hrelative]
  rfl

theorem isRelative_of_origin {family : Family} {spec : String} (h : Specifier.origin family spec = .relative) :
    Specifier.isRelative family spec = true := by
  unfold Specifier.origin at h
  split at h
  · cases h
  · split at h
    · assumption
    · cases h

theorem relativeBase?_curly_iff {options : ResolveOptions} {importer base : Path} {spec : String} :
    relativeBase? options .curly importer spec = some base ↔ IsRelativeBase options importer spec .curly base := by
  constructor
  · intro h
    simp only [relativeBase?] at h
    obtain ⟨directory, hdirectory, h⟩ := Option.bind_eq_some_iff.mp h
    split at h
    · rename_i rooted hspec
      cases Option.some.inj h
      exact .rooted hdirectory hspec
    · rename_i hspec
      cases Option.some.inj h
      refine .beside hdirectory fun hhead => ?_
      obtain ⟨rooted, hrooted⟩ := List.head?_eq_some_iff.mp hhead
      exact hspec rooted hrooted
  · intro h
    cases h with
    | rooted hdirectory hspec => simp [relativeBase?, hdirectory, hspec]
    | beside hdirectory hspec =>
      simp only [relativeBase?, hdirectory]
      split
      · rename_i hrooted
        exact absurd (by rw [hrooted]; rfl) hspec
      · rfl

theorem relativeBase?_indent {options : ResolveOptions} {importer : Path} {spec : String} {levels : Nat}
    {rest : List Char} (hspec : spec.toList = List.replicate (levels + 1) '.' ++ rest) (hrest : rest.head? ≠ some '.') :
    relativeBase? options .indent importer spec =
      (importer.parent?.bind (ascend levels)).map fun up => if rest.isEmpty then up else up.join (dotsToSlashes rest) := by
  have hdrop : spec.toList.dropWhile (· == '.') = rest := by rw [hspec, dropWhile_dots hrest]
  have hlevels : spec.toList.length - rest.length - 1 = levels := by
    rw [hspec, List.length_append, List.length_replicate]
    omega
  simp only [relativeBase?, hdrop, hlevels]
  cases importer.parent? with
  | none => rfl
  | some directory =>
    cases hup : ascend levels directory <;> simp [hup]

theorem relativeBase?_indent_iff {options : ResolveOptions} {importer base : Path} {spec : String}
    (h : Specifier.isRelative .indent spec = true) :
    relativeBase? options .indent importer spec = some base ↔ IsRelativeBase options importer spec .indent base := by
  constructor
  · intro hbase
    obtain ⟨levels, rest, hspec, hrest⟩ := exists_dots_of_isRelative h
    rw [relativeBase?_indent hspec hrest] at hbase
    obtain ⟨up, hup, hbase⟩ := Option.map_eq_some_iff.mp hbase
    obtain ⟨directory, hdirectory, hup⟩ := Option.bind_eq_some_iff.mp hup
    cases rest with
    | nil =>
      cases hbase
      exact .above hdirectory (by rw [hspec, List.append_nil]) hup
    | cons c name =>
      simp only [List.isEmpty_cons, Bool.false_eq_true, if_false] at hbase
      subst hbase
      exact .dotted hdirectory hspec (fun hc => hrest (congrArg some hc)) hup
  · intro hbase
    cases hbase with
    | above hdirectory hspec hup =>
      rw [← List.append_nil (List.replicate _ _)] at hspec
      rw [relativeBase?_indent hspec (by simp), hdirectory, Option.bind_some, hup]
      rfl
    | dotted hdirectory hspec hc hup =>
      rw [relativeBase?_indent hspec (by simpa using hc), hdirectory, Option.bind_some, hup]
      simp only [Option.map_some, List.isEmpty_cons, Bool.false_eq_true, if_false]

theorem relativeBase?_iff {options : ResolveOptions} {family : Family} {importer base : Path} {spec : String}
    (h : Specifier.origin family spec = .relative) :
    relativeBase? options family importer spec = some base ↔ IsRelativeBase options importer spec family base := by
  cases family with
  | curly => exact relativeBase?_curly_iff
  | indent => exact relativeBase?_indent_iff (isRelative_of_origin h)

theorem getElem?_toList_eq_some_iff {α : Type} {o : Option α} {n : Nat} {a : α} :
    o.toList[n]? = some a ↔ n = 0 ∧ o = some a := by
  cases o <;> cases n <;> simp

theorem bases_of_builtin {r : Resolver} {family : Family} {importer : Path} {spec : String}
    (h : Specifier.origin family spec = .builtin) : r.bases family importer spec = [] := by
  unfold bases
  simp only [h]

theorem bases_getElem?_iff {r : Resolver} {family : Family} {importer base : Path} {spec : String} {n : Nat} :
    (r.bases family importer spec)[n]? = some base ↔ IsBase r importer spec family n base := by
  constructor
  · intro h
    unfold bases at h
    cases horigin : Specifier.origin family spec with
    | builtin => simp [horigin] at h
    | relative =>
      simp only [horigin] at h
      obtain ⟨rfl, hbase⟩ := getElem?_toList_eq_some_iff.mp h
      exact .relative horigin ((relativeBase?_iff horigin).mp hbase)
    | package =>
      cases family with
      | curly =>
        cases haliases : r.aliases with
        | none => simp [horigin, haliases] at h
        | some table =>
          simp only [horigin, haliases] at h
          exact .aliased horigin haliases h
      | indent =>
        simp only [horigin] at h
        obtain ⟨rfl, hbase⟩ := (getElem?_toList_eq_some_iff (o := some _)).mp h
        rw [← Option.some.inj hbase]
        exact .package horigin
  · intro h
    unfold bases
    cases h with
    | relative horigin hbase =>
      simp only [horigin]
      exact getElem?_toList_eq_some_iff.mpr ⟨rfl, (relativeBase?_iff horigin).mpr hbase⟩
    | aliased horigin haliases hbase => simpa only [horigin, haliases] using hbase
    | package horigin => simp [horigin]

theorem mem_placedCandidates_iff {r : Resolver} {family : Family} {importer p : Path} {spec : String} {place : Place} :
    (place, p) ∈ r.placedCandidates family importer spec ↔ r.LooksFor family importer spec place p := by
  simp only [placedCandidates, List.mem_flatMap, Prod.exists, List.mem_zipIdx_iff_getElem?, mem_placedProbes_iff,
    bases_getElem?_iff, LooksFor]
  constructor
  · rintro ⟨base, n, hbase, rfl, hoffers⟩
    exact ⟨base, hbase, hoffers⟩
  · rintro ⟨base, hbase, hoffers⟩
    exact ⟨base, place.base, hbase, rfl, hoffers⟩

theorem mem_candidates_iff {r : Resolver} {family : Family} {importer p : Path} {spec : String} :
    p ∈ r.candidates family importer spec ↔ ∃ place, r.LooksFor family importer spec place p := by
  rw [← map_snd_placedCandidates, List.mem_map]
  simp only [Prod.exists, exists_eq_right, mem_placedCandidates_iff]

/-- A specifier is resolved to the file at the first of its places that has one, and to none when no place has a
file; a builtin has no places. -/
theorem resolution_first_hit (t : FileTree) (r : Resolver) (family : Family) (importer : Path) (spec : String) :
    (Specifier.origin family spec = .builtin → r.resolveAs? t family importer spec = none) ∧
    (∀ p, r.resolveAs? t family importer spec = some p ↔
      ∃ place, r.LooksFor family importer spec place p ∧ t.isFile p = true ∧
        ∀ earlier, earlier.Before place → ∀ q, r.LooksFor family importer spec earlier q → t.isFile q = false) ∧
    (r.resolveAs? t family importer spec = none ↔
      ∀ place q, r.LooksFor family importer spec place q → t.isFile q = false) := by
  refine ⟨fun hbuiltin => ?_, fun p => ?_, ?_⟩
  · simp [resolveAs?, candidates, bases_of_builtin hbuiltin]
  · rw [resolveAs?, ← map_snd_placedCandidates, find?_placed_eq_some_iff (pairwise_placedCandidates r family importer spec)]
    simp only [mem_placedCandidates_iff]
  · rw [resolveAs?, List.find?_eq_none]
    simp only [mem_candidates_iff, Bool.not_eq_true]
    exact ⟨fun h place q hq => h q ⟨place, hq⟩, fun h q ⟨place, hq⟩ => h place q hq⟩

end Resolver

end ModuleGraph
