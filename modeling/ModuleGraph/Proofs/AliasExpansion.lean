import ModuleGraph.Proofs.AliasOrder
import ModuleGraph.Proofs.Encoding

namespace ModuleGraph

namespace Path

/-- A path as it stands before what is joined to it: with a separator after it, unless it is empty or ends with one. -/
def lead (p : Path) : RawText :=
  if p.raw.toList = [] ∨ Text.endsWith p.raw.toList [slash] then p.raw else p.raw ++ "/"

theorem raw_join_of_relative (p : Path) {q : Path} (hq : q.isAbsolute = false) : (p.join q).raw = p.lead ++ q.raw := by
  rw [join, lead, hq, if_neg Bool.false_ne_true]
  split <;> rfl

theorem lead_cases (p : Path) : p.lead = p.raw ∨ p.lead.toList = p.raw.toList ++ slash :: [] := by
  unfold lead
  split
  · exact .inl rfl
  · exact .inr rfl

theorem lead_ends (p : Path) : p.lead.toList = [] ∨ ∃ s, p.lead.toList = s ++ slash :: [] := by
  unfold lead
  split
  next h =>
    refine h.imp_right fun hend => ?_
    obtain ⟨s, hs⟩ := List.isSuffixOf_iff_suffix.mp hend
    exact ⟨s, hs.symm⟩
  next => exact .inr ⟨p.raw.toList, rfl⟩

theorem mem_lead_iff {c : Char} (hc : c ≠ '/') (p : Path) : c ∈ p.lead.lossy.toList ↔ c ∈ p.text.toList := by
  rcases p.lead_cases with h | h
  · rw [h]
    rfl
  · rw [RawText.lossy, h, Utf8.decodeLossy_append_ascii (by decide), String.toList_ofList, List.mem_append, text,
      RawText.lossy, String.toList_ofList]
    exact or_iff_left fun hmem => hc (List.mem_singleton.mp hmem)

theorem isSome_text?_lead (p : Path) : p.lead.text?.isSome = p.raw.text?.isSome := by
  rcases p.lead_cases with h | h
  · rw [h]
  · rw [Bool.eq_iff_iff]
    simp only [RawText.text?, Option.isSome_map, Option.isSome_iff_exists, h, Utf8.decode?_append_ascii_iff (x := slash)
      (by decide)]
    constructor
    · rintro ⟨-, u, -, hu, -⟩
      exact ⟨u, hu⟩
    · rintro ⟨u, hu⟩
      exact ⟨_, u, [], hu, rfl, rfl⟩

theorem lossy_lead_append (p : Path) (s : String) : (p.lead ++ RawText.ofString s).lossy = p.lead.lossy ++ s := by
  apply String.toList_injective
  rw [String.toList_append]
  simp only [RawText.lossy, RawText.toList_append, RawText.toList_ofString, String.toList_ofList]
  rcases p.lead_ends with h | ⟨u, h⟩
  · rw [h, List.nil_append, Utf8.decodeLossy_bytes]
    rfl
  · rw [h, List.append_assoc, List.cons_append, List.nil_append, Utf8.decodeLossy_append_ascii (by decide),
      Utf8.decodeLossy_append_ascii (by decide), Utf8.decodeLossy_bytes, List.append_assoc]
    rfl

end Path

namespace AliasTable

section Filling

variable {matched s : List Char}

theorem filled_append (matched s t : List Char) : filled matched (s ++ t) = filled matched s ++ filled matched t := by
  simp only [filled_eq_flatMap, List.flatMap_append]

theorem filled_cons_of_ne {c : Char} (hc : c ≠ '*') (s : List Char) : filled matched (c :: s) = c :: filled matched s := by
  rw [filled_eq_flatMap, filled_eq_flatMap, List.flatMap_cons, if_neg hc]
  rfl

theorem filled_star (matched s : List Char) : filled matched ('*' :: s) = matched ++ filled matched s := by
  rw [filled_eq_flatMap, filled_eq_flatMap, List.flatMap_cons, if_pos rfl]

theorem filled_of_not_mem (h : '*' ∉ s) : filled matched s = s := by
  induction s with
  | nil => rfl
  | cons c s ih =>
    obtain ⟨hc, hs⟩ := not_or.mp (List.mem_cons.not.mp h)
    rw [filled_cons_of_ne (Ne.symm hc), ih hs]

theorem filled_with_star (s : List Char) : filled ['*'] s = s := by
  induction s with
  | nil => rfl
  | cons c s ih =>
    by_cases hc : c = '*'
    · rw [hc, filled_star, ih, List.singleton_append]
    · rw [filled_cons_of_ne hc, ih]

theorem length_le_length_filled (hmatched : matched ≠ []) (s : List Char) : s.length ≤ (filled matched s).length := by
  have hpos := List.length_pos_iff.mpr hmatched
  induction s with
  | nil => exact Nat.zero_le _
  | cons c s ih =>
    by_cases hc : c = '*'
    · rw [hc, filled_star, List.length_append, List.length_cons]
      omega
    · rw [filled_cons_of_ne hc, List.length_cons, List.length_cons]
      omega

theorem length_filled_nil_le (s : List Char) : (filled [] s).length ≤ s.length := by
  induction s with
  | nil => exact Nat.le_refl _
  | cons c s ih =>
    by_cases hc : c = '*'
    · rw [hc, filled_star, List.nil_append, List.length_cons]
      omega
    · rw [filled_cons_of_ne hc, List.length_cons, List.length_cons]
      omega

theorem eq_star_of_filled_eq_self (h : filled matched s = s) (hstar : '*' ∈ s) : matched = ['*'] := by
  induction s with
  | nil => cases hstar
  | cons c s ih =>
    by_cases hc : c = '*'
    · rw [hc, filled_star] at h
      cases matched with
      | nil =>
        have hlength := congrArg List.length h
        have hle := length_filled_nil_le s
        rw [List.nil_append, List.length_cons] at hlength
        omega
      | cons d matched =>
        rw [List.cons_append] at h
        obtain ⟨rfl, h⟩ := List.cons.inj h
        have hlength := congrArg List.length h
        have hle := length_le_length_filled (List.cons_ne_nil '*' matched) s
        rw [List.length_append] at hlength
        rw [List.eq_nil_of_length_eq_zero (show matched.length = 0 by omega)]
    · rw [filled_cons_of_ne hc] at h
      exact ih (List.cons.inj h).2 ((List.mem_cons.mp hstar).resolve_left (Ne.symm hc))

theorem filled_eq_self_iff : filled matched s = s ↔ '*' ∉ s ∨ matched = ['*'] := by
  constructor
  · intro h
    rw [or_iff_not_imp_left, not_not]
    exact eq_star_of_filled_eq_self h
  · rintro (h | rfl)
    · exact filled_of_not_mem h
    · exact filled_with_star s

end Filling

/-- The path that the targets of some options are joined to. -/
def CompilerOptions.base (root : Path) (options : CompilerOptions) : Path :=
  (options.baseUrl.map fun b : String => root.join ⟨b⟩).getD root

/-- A specifier reaches a target: it matches one of the target's patterns, which leaves some part of it. -/
def CompilerOptions.Reaches (options : CompilerOptions) (spec target : String) (matched : List Char) : Prop :=
  ∃ pattern targets, (pattern, targets) ∈ options.paths.getD [] ∧ target ∈ targets ∧ Matches pattern spec matched

variable (root : Path) (options : CompilerOptions) (spec : String)

theorem mem_candidates_iff {c : Path} : c ∈ (ofOptions root options).candidates spec ↔
    (∃ target matched, options.Reaches spec target matched ∧
      c = expand ((options.base root).join ⟨target⟩) matched) ∨
    c ∈ options.baseUrl.map fun b : String => (root.join ⟨b⟩).join ⟨spec⟩ := by
  have hpaths : ∀ e, e ∈ (ofOptions root options).paths ↔
      e ∈ entriesUnder (options.base root) (options.paths.getD []) := fun e => (stableSort_perm _ _).mem_iff
  have hbase : (ofOptions root options).baseUrl = options.baseUrl.map fun b : String => root.join ⟨b⟩ := rfl
  rw [candidates, List.mem_append, List.mem_flatMap, Option.mem_toList, hbase, Option.map_map]
  refine or_congr ⟨?_, ?_⟩ Iff.rfl
  · rintro ⟨e, he, hc⟩
    obtain ⟨⟨pattern, targets⟩, hentry, rfl⟩ := List.mem_map.mp ((hpaths e).mp he)
    cases hmatch : match? pattern spec with
    | none => simp [hmatch] at hc
    | some matched =>
      simp only [hmatch, List.map_map, List.mem_map] at hc
      obtain ⟨target, htarget, rfl⟩ := hc
      exact ⟨target, matched, ⟨pattern, targets, hentry, htarget, match?_eq_some_iff.mp hmatch⟩, Function.comp_apply⟩
  · rintro ⟨target, matched, ⟨pattern, targets, hentry, htarget, hmatch⟩, hc⟩
    rw [hc]
    refine ⟨_, (hpaths _).mpr (List.mem_map.mpr ⟨_, hentry, rfl⟩), ?_⟩
    simp only [match?_eq_some_iff.mpr hmatch, List.map_map, List.mem_map]
    exact ⟨target, htarget, Function.comp_apply⟩

section Expand

variable (base : Path) {target : String} (htarget : Path.isAbsolute ⟨target⟩ = false) (matched : List Char)
include htarget

theorem text_join_target : (base.join ⟨target⟩).text.toList = base.lead.lossy.toList ++ target.toList := by
  rw [Path.text, Path.raw_join_of_relative base htarget, Path.lossy_lead_append, String.toList_append]

theorem text_expand_join :
    (expand (base.join ⟨target⟩) matched).text.toList =
      filled matched base.lead.lossy.toList ++ filled matched target.toList := by
  rw [expand_eq_filledPath, filledPath, ← filled_append, ← text_join_target base htarget]
  split
  · rw [Path.text, RawText.lossy_ofString, String.toList_ofList]
  · rw [filled_of_not_mem ‹_›]

/-- A path with a star that is not all text loses what cannot be shown when the star is filled. -/
theorem raw_expand_join_iff :
    (expand (base.join ⟨target⟩) matched).raw = base.lead ++ String.ofList (filled matched target.toList) ↔
      '*' ∉ base.text.toList ∧ '*' ∉ target.toList ∨
        base.raw.text?.isSome ∧ ('*' ∉ base.text.toList ∨ matched = ['*']) := by
  have hstar : '*' ∈ (base.join ⟨target⟩).text.toList ↔ '*' ∈ base.text.toList ∨ '*' ∈ target.toList := by
    rw [text_join_target base htarget, List.mem_append, Path.mem_lead_iff (by decide)]
  rw [expand_eq_filledPath, filledPath, ← not_or, ← hstar]
  split
  next h =>
    rw [or_iff_right (not_not.mpr h), text_join_target base htarget, filled_append, String.ofList_append,
      RawText.ofString_append, RawText.append_right_cancel_iff, ← Path.isSome_text?_lead, ← Path.mem_lead_iff (by decide),
      ← filled_eq_self_iff]
    constructor
    · intro hlead
      have hlossy : base.lead.lossy.toList = filled matched base.lead.lossy.toList := by
        conv_lhs => rw [← hlead, RawText.lossy_ofString, String.toList_ofList]
      rw [← hlossy, String.ofList_toList] at hlead
      rw [← hlead]
      exact ⟨by simp, by rw [RawText.lossy_ofString, ← hlossy]⟩
    · rintro ⟨htext, hlossy⟩
      rw [hlossy, String.ofList_toList, RawText.ofString_lossy htext]
  next h =>
    have htarget' : '*' ∉ target.toList := fun ht => h (hstar.mpr (.inr ht))
    rw [Path.raw_join_of_relative base htarget, filled_of_not_mem htarget', String.ofList_toList]
    exact iff_of_true rfl (.inl h)

end Expand

/-- The candidates of a specifier are the targets that it reaches, put under the base path and then filled, and at last
the specifier under the base directory. What is shown of the candidate of a relative target is the base path followed by
the target, each of them filled. It is the base path itself followed by the filled target exactly if neither has a star,
or the base path is a text that has no star or whose stars are filled by a star. -/
theorem candidates_under_base :
    (∀ c, c ∈ (ofOptions root options).candidates spec ↔
      (∃ target matched, options.Reaches spec target matched ∧
        c = expand ((options.base root).join ⟨target⟩) matched) ∨
      c ∈ options.baseUrl.map fun b : String => (root.join ⟨b⟩).join ⟨spec⟩) ∧
    ∀ target matched, options.Reaches spec target matched → Path.isAbsolute ⟨target⟩ = false →
      (expand ((options.base root).join ⟨target⟩) matched).text.toList =
          filled matched (options.base root).lead.lossy.toList ++ filled matched target.toList ∧
        ((expand ((options.base root).join ⟨target⟩) matched).raw =
            (options.base root).lead ++ String.ofList (filled matched target.toList) ↔
          '*' ∉ (options.base root).text.toList ∧ '*' ∉ target.toList ∨
            (options.base root).raw.text?.isSome ∧ ('*' ∉ (options.base root).text.toList ∨ matched = ['*'])) :=
  ⟨fun _ => mem_candidates_iff root options spec, fun _ matched _ htarget =>
    ⟨text_expand_join _ htarget matched, raw_expand_join_iff _ htarget matched⟩⟩

/-- A project in a directory without stars: the candidate is the base path, a separator and the filled target. -/
theorem candidates_under_base_of_plain :
    let options : CompilerOptions := ⟨some "web", some [("@/*", ["src/*"])]⟩
    options.Reaches "@/x" "src/*" ['x'] ∧ '*' ∉ (options.base ⟨"/repo"⟩).text.toList ∧
      (expand ((options.base ⟨"/repo"⟩).join ⟨"src/*"⟩) ['x']).raw =
        (options.base ⟨"/repo"⟩).lead ++ String.ofList (filled ['x'] "src/*".toList) := by
  intro options
  have hreach : options.Reaches "@/x" "src/*" ['x'] :=
    ⟨"@/*", ["src/*"], List.mem_singleton_self _, List.mem_singleton_self _, @Matches.star _ _ ['@', '/'] _ rfl rfl⟩
  have hstar : '*' ∉ (options.base ⟨"/repo"⟩).text.toList := by decide +kernel
  have htext : (options.base ⟨"/repo"⟩).raw.text?.isSome := by decide +kernel
  have hcandidates := (candidates_under_base ⟨"/repo"⟩ options "@/x").2 "src/*" ['x'] hreach (by decide)
  exact ⟨hreach, hstar, hcandidates.2.mpr (.inr ⟨htext, .inl hstar⟩)⟩

/-- In a directory whose name has a star, the matched part takes the place of that star as well. -/
theorem candidates_leave_starred_base :
    let text := "\x7b \"compilerOptions\": \x7b \"paths\": \x7b \"@/*\": [\"src/*\"] \x7d \x7d \x7d".toList
    (parse? ⟨"/a*b"⟩ text).map (·.candidates "@/x") = some [⟨"/axb/src/x"⟩] ∧
      Path.lead ⟨"/a*b"⟩ ++ String.ofList (filled ['x'] "src/*".toList) = RawText.ofString "/a*b/src/x" := by
  decide +kernel

end AliasTable

end ModuleGraph
