import ModuleGraph.Proofs.Discovery
import ModuleGraph.Proofs.RootedPath

namespace ModuleGraph

open Text (pieces)

theorem IsEntryName.shown {n : RawText} (h : IsEntryName n) : IsEntryName n.lossy := by
  have hplain : ∀ s : String, '\uFFFD' ∉ s.toList → n ≠ s → RawText.ofString n.lossy ≠ s := by
    intro s hs hne heq
    exact hne ((RawText.lossy_eq_iff hs).mp (RawText.ofString_injective heq))
  refine ⟨fun heq => ?_, fun heq => ?_, fun heq => ?_, ?_⟩
  · exact hplain "" (by decide) (fun hn => h.1 (by rw [hn]; rfl)) (RawText.ext heq)
  · exact hplain "." (by decide) (fun hn => h.2.1 (by rw [hn]; rfl)) (RawText.ext heq)
  · exact hplain ".." (by decide) (fun hn => h.2.2.1 (by rw [hn]; rfl)) (RawText.ext heq)
  · rw [RawText.toList_ofString, Utf8.mem_bytes_iff Path.bytes_slash]
    exact h.not_mem_lossy

namespace Path

variable {cs ds : List Component} {c : Component}

/-- Lists of components that a path can have: steps, with a root, a dot or nothing in front of them. -/
inductive Written : List Component → Prop
  | steps {cs : List Component} : (∀ c ∈ cs, IsStep c) → Written cs
  | root {cs : List Component} : (∀ c ∈ cs, IsStep c) → Written (.root :: cs)
  | here {cs : List Component} : (∀ c ∈ cs, IsStep c) → Written (.here :: cs)

theorem written_components (p : Path) : Written p.components := by
  have hsteps : ∀ c ∈ stepsOf p.raw.toList, IsStep c := fun c hc => isStep_of_mem_stepsOf hc
  unfold components
  dsimp only
  split
  · exact .root hsteps
  · split
    · exact .here hsteps
    · exact .steps hsteps

namespace Written

theorem isStep_of_append (h : Written (cs ++ ds)) (hcs : cs ≠ []) : ∀ c ∈ ds, IsStep c := by
  obtain ⟨b, bs, rfl⟩ := List.exists_cons_of_ne_nil hcs
  rw [List.cons_append] at h
  cases h with
  | steps h => exact fun c hc => h c (by simp [hc])
  | root h => exact fun c hc => h c (by simp [hc])
  | here h => exact fun c hc => h c (by simp [hc])

theorem of_append (h : Written (cs ++ ds)) : Written ds := by
  by_cases hcs : cs = []
  · simpa [hcs] using h
  · exact .steps (h.isStep_of_append hcs)

end Written

section Shown

/-- A component as it is shown. -/
def Component.shown : Component → Component
  | .name n => .name n.lossy
  | c => c

theorem Component.raw_shown (c : Component) : c.shown.raw = RawText.ofString c.text := by
  cases c with
  | name n => rfl
  | _ => exact congrArg RawText.ofString (RawText.lossy_ofString _).symm

theorem Component.text_shown (c : Component) : c.shown.text = c.text := by
  rw [Component.text, raw_shown, RawText.lossy_ofString]

theorem Component.shown_eq_self_iff : c.shown = c ↔ c.raw.text?.isSome := by
  cases c with
  | name n =>
    constructor
    · intro h
      rw [← h]
      simp [Component.shown, Component.raw]
    · exact fun h => congrArg Component.name (RawText.ofString_lossy h)
  | _ => simp [Component.shown, Component.raw]

theorem map_shown_eq_self_iff : cs.map Component.shown = cs ↔ ∀ c ∈ cs, c.raw.text?.isSome := by
  rw [← List.map_id cs, List.map_map, List.map_inj_left]
  simp only [Function.comp_apply, id, Component.shown_eq_self_iff, List.map_id]

theorem IsStep.shown (h : IsStep c) : IsStep c.shown := by
  rcases h with rfl | ⟨n, hn, rfl⟩
  · exact .inl rfl
  · exact .inr ⟨_, hn.shown, rfl⟩

theorem IsStep.not_mem_text (h : IsStep c) : '/' ∉ c.text.toList := by
  rcases h with rfl | ⟨n, hn, rfl⟩
  · decide
  · exact hn.not_mem_lossy

theorem IsStep.text_ne_empty (h : IsStep c) : c.text ≠ "" := by
  intro htext
  have hraw := c.raw_shown
  rw [htext] at hraw
  rcases h.shown with hup | ⟨n, hn, hname⟩
  · rw [hup] at hraw
    exact absurd hraw (by decide)
  · rw [hname] at hraw
    exact hn.1 (congrArg RawText.toList hraw)

end Shown

section Slashed

theorem slashed_cons_cons (c d : Component) (cs : List Component) :
    slashed (c :: d :: cs) = c.text ++ "/" ++ slashed (d :: cs) := by
  apply String.toList_injective
  simp [slashed, String.toList_intercalate]

theorem slashed_map_shown (cs : List Component) : slashed (cs.map Component.shown) = slashed cs := by
  rw [slashed, slashed, List.map_map, List.map_congr_left fun c _ => c.text_shown]

theorem pieces_slashed (hne : cs ≠ []) (h : ∀ c ∈ cs, '/' ∉ c.text.toList) :
    pieces (· == slash) (RawText.ofString (slashed cs)).toList = (cs.map Component.shown).map (·.raw.toList) := by
  rw [RawText.toList_ofString, Utf8.pieces_bytes bytes_slash, slashed,
    pieces_intercalate (by simpa using hne) (by simpa using h), List.map_map, List.map_map, List.map_map]
  exact List.map_congr_left fun c _ => (congrArg RawText.toList c.raw_shown).symm

theorem filterMap_ofPiece?_raws (h : ∀ c ∈ cs, IsStep c) :
    (cs.map (·.raw.toList)).filterMap Component.ofPiece? = cs := by
  induction cs with
  | nil => rfl
  | cons c cs ih =>
    obtain ⟨hc, hcs⟩ := List.forall_mem_cons.mp h
    rw [List.map_cons, List.filterMap_cons_some hc.ofPiece?_raw.2, ih hcs]

theorem forall_shown_isStep (h : ∀ c ∈ cs, IsStep c) : ∀ c ∈ cs.map Component.shown, IsStep c :=
  List.forall_mem_map.mpr fun c hc => (h c hc).shown

theorem stepsOf_slashed (h : ∀ c ∈ cs, IsStep c) :
    stepsOf (RawText.ofString (slashed cs)).toList = cs.map Component.shown := by
  by_cases hne : cs = []
  · subst hne
    rfl
  · rw [stepsOf, pieces_slashed hne fun c hc => (h c hc).not_mem_text, filterMap_ofPiece?_raws (forall_shown_isStep h)]

theorem isAbsolute_slashed (h : ∀ c ∈ cs, '/' ∉ c.text.toList) (hne : ∀ c ∈ cs, c.text ≠ "") :
    isAbsolute ⟨slashed cs⟩ = false := by
  rw [Bool.eq_false_iff]
  intro habsolute
  obtain ⟨rest, hrest⟩ := Text.startsWith_iff.mp habsolute
  cases cs with
  | nil => cases hrest
  | cons c cs =>
    -- The first piece of an absolute path is empty.
    have hpieces := pieces_slashed (List.cons_ne_nil c cs) h
    rw [← hrest, List.singleton_append, Text.pieces_sep (by rfl), List.map_cons, List.map_cons, c.raw_shown,
      RawText.toList_ofString] at hpieces
    have hempty := Utf8.bytes_eq_nil_iff.mp (List.cons.inj hpieces).1.symm
    exact hne c List.mem_cons_self (String.toList_injective hempty)

theorem isAbsolute_slashed_steps (h : ∀ c ∈ cs, IsStep c) : isAbsolute ⟨slashed cs⟩ = false :=
  isAbsolute_slashed (fun c hc => (h c hc).not_mem_text) fun c hc => (h c hc).text_ne_empty

theorem components_slashed_steps (h : ∀ c ∈ cs, IsStep c) : components ⟨slashed cs⟩ = cs.map Component.shown := by
  have hhead : (pieces (· == slash) (RawText.ofString (slashed cs)).toList).head? ≠ some [dot] := by
    cases cs with
    | nil => decide
    | cons c cs =>
      have hpiece := (h c List.mem_cons_self).shown.ofPiece?_raw.2
      rw [pieces_slashed (List.cons_ne_nil c cs) fun c hc => (h c hc).not_mem_text]
      intro hhead
      have hdot : c.shown.raw.toList = [dot] := Option.some.inj hhead
      rw [hdot] at hpiece
      cases hpiece
  rw [components, isAbsolute_slashed_steps h, if_neg Bool.false_ne_true, if_neg hhead, List.nil_append]
  exact stepsOf_slashed h

theorem components_slashed_root (h : ∀ c ∈ cs, IsStep c) :
    components ⟨slashed (.root :: cs)⟩ = .root :: cs.map Component.shown := by
  cases cs with
  | nil => decide
  | cons c cs =>
    have htext : (RawText.ofString (slashed (.root :: c :: cs))).toList =
        slash :: slash :: (RawText.ofString (slashed (c :: cs))).toList := by
      rw [slashed_cons_cons, RawText.ofString_append, RawText.ofString_append]
      rfl
    have habsolute : isAbsolute ⟨slashed (.root :: c :: cs)⟩ = true :=
      Text.startsWith_iff.mpr ⟨_, htext.symm⟩
    rw [components_of_isAbsolute habsolute, htext, stepsOf, Text.pieces_sep (by rfl), Text.pieces_sep (by rfl)]
    exact congrArg _ (stepsOf_slashed h)

theorem components_slashed_here (h : ∀ c ∈ cs, IsStep c) :
    components ⟨slashed (.here :: cs)⟩ = .here :: cs.map Component.shown := by
  have hsep : ∀ c ∈ Component.here :: cs, '/' ∉ c.text.toList :=
    List.forall_mem_cons.mpr ⟨by decide, fun c hc => (h c hc).not_mem_text⟩
  have hne : ∀ c ∈ Component.here :: cs, c.text ≠ "" :=
    List.forall_mem_cons.mpr ⟨by decide, fun c hc => (h c hc).text_ne_empty⟩
  have hdot : Component.here.shown.raw.toList = [dot] := rfl
  rw [components, isAbsolute_slashed hsep hne, if_neg Bool.false_ne_true, pieces_slashed (List.cons_ne_nil _ cs) hsep,
    List.map_cons, List.map_cons, hdot, List.head?_cons, if_pos rfl, List.filterMap_cons_none rfl,
    filterMap_ofPiece?_raws (forall_shown_isStep h), List.singleton_append]

theorem Written.components_slashed (h : Written cs) : components ⟨slashed cs⟩ = cs.map Component.shown := by
  cases h with
  | steps h => exact components_slashed_steps h
  | root h => exact components_slashed_root h
  | here h => exact components_slashed_here h

theorem Written.slashed_inj (h : Written cs) (h' : Written ds) :
    slashed cs = slashed ds ↔ cs.map Component.shown = ds.map Component.shown := by
  constructor
  · intro heq
    rw [← h.components_slashed, heq, h'.components_slashed]
  · intro heq
    rw [← slashed_map_shown, heq, slashed_map_shown]

end Slashed

theorem components_ne_nil {p : Path} (hp : p.raw.toList ≠ []) : p.components ≠ [] := by
  obtain ⟨c, cs, htext⟩ := List.exists_cons_of_ne_nil hp
  by_cases hc : c = slash
  · have habsolute : p.isAbsolute = true := Text.startsWith_iff.mpr ⟨cs, by rw [htext, hc]; rfl⟩
    rw [components_of_isAbsolute habsolute]
    exact List.cons_ne_nil _ _
  · -- The first piece is no empty one: it is a dot in front, or a step.
    obtain ⟨w, ws, hcs⟩ := Text.exists_pieces (· == slash) cs
    have hpieces : pieces (· == slash) p.raw.toList = (c :: w) :: ws := by
      rw [htext, @Text.pieces_cons _ (· == slash) c cs w ws (beq_eq_false_iff_ne.mpr hc) hcs]
    have habsolute : p.isAbsolute = false := by
      simp [isAbsolute, Text.startsWith, List.isPrefixOf, htext, Ne.symm hc]
    rw [components, habsolute, if_neg Bool.false_ne_true, hpieces, List.head?_cons]
    by_cases hdot : c :: w = [dot]
    · simp [hdot]
    · by_cases hup : c :: w = [dot, dot]
      · simp [hup, Component.ofPiece?]
      · have hpiece : Component.ofPiece? (c :: w) = some (.name ⟨c :: w⟩) :=
          IsName.ofPiece?_eq ⟨List.cons_ne_nil c w, hdot, hup⟩
        rw [List.filterMap_cons_some hpiece]
        simp

theorem components_join_slashed {root : Path} (h : Written (root.components ++ cs)) :
    (root.join ⟨slashed cs⟩).components = root.components ++ cs.map Component.shown := by
  by_cases hroot : root.raw.toList = []
  · obtain ⟨⟨bytes⟩⟩ := root
    cases hroot
    have hjoin : join ⟨⟨[]⟩⟩ ⟨slashed cs⟩ = ⟨slashed cs⟩ := by
      rw [join]
      split
      · rfl
      · rw [if_pos (.inl rfl)]
        rfl
    rw [hjoin, h.of_append.components_slashed]
    rfl
  · have hsteps := h.isStep_of_append (components_ne_nil hroot)
    rw [components_join hroot (isAbsolute_slashed_steps hsteps), stepsOf_slashed hsteps]

section Last

theorem Written.text_ne_empty (h : Written cs) : ∀ c ∈ cs, c.text ≠ "" := by
  cases h with
  | steps h => exact fun c hc => (h c hc).text_ne_empty
  | root h => exact List.forall_mem_cons.mpr ⟨by decide, fun c hc => (h c hc).text_ne_empty⟩
  | here h => exact List.forall_mem_cons.mpr ⟨by decide, fun c hc => (h c hc).text_ne_empty⟩

theorem slashed_eq_empty_iff (h : ∀ c ∈ cs, c.text ≠ "") : slashed cs = "" ↔ cs = [] := by
  cases cs with
  | nil => simp [slashed]
  | cons c cs =>
    have hc := h c List.mem_cons_self
    cases cs with
    | nil => simpa [slashed] using hc
    | cons d cs => simp [slashed_cons_cons, hc]

theorem slashed_concat (h : ∀ c ∈ cs, c.text ≠ "") (c : Component) :
    slashed (cs ++ [c]) = slashed cs ++ (if slashed cs = "" then "" else "/") ++ c.text := by
  by_cases hnil : cs = []
  · simp [hnil, slashed]
  · rw [if_neg (mt (slashed_eq_empty_iff h).mp hnil)]
    clear h
    induction cs with
    | nil => exact absurd rfl hnil
    | cons b cs ih =>
      cases cs with
      | nil => simp [slashed, String.append_assoc]
      | cons d cs =>
        rw [List.cons_append, List.cons_append, slashed_cons_cons, slashed_cons_cons, ← List.cons_append,
          ih (List.cons_ne_nil d cs)]
        simp only [String.append_assoc]

theorem Written.parentOf?_concat (h : Written (cs ++ [c])) : (parentOf? (cs ++ [c])).getD [] = cs := by
  by_cases hc : c = .root
  · -- A root stands alone.
    have hcs : cs = [] := by
      by_contra hne
      exact (h.isStep_of_append hne c (by simp)).ne_root hc
    rw [hcs, hc]
    rfl
  · rw [Path.parentOf?_concat hc]
    rfl

end Last

end Path

namespace FileRecord

open ModuleGraph.Path (Component Written)

variable {K : Type} {root p q : Path} {below : List Component}

theorem relativeComponents_eq (h : p.components = root.components ++ below) :
    relativeComponents root p = below := by
  rw [relativeComponents, h, Path.stripComponents?_append, Option.getD_some]

theorem written_below (h : p.components = root.components ++ below) : Written (root.components ++ below) :=
  h ▸ p.written_components

theorem relativePath_ofPath (score : K) (h : p.components = root.components ++ below) :
    (ofPath root p score).relativePath = Path.slashed below :=
  congrArg Path.slashed (relativeComponents_eq h)

theorem directory_ofPath (score : K) (h : p.components = root.components ++ below) :
    (ofPath root p score).directory = Path.slashed ((Path.parentOf? below).getD []) := by
  rw [← relativeComponents_eq h]
  rfl

theorem relativePath_eq_directory (score : K) (h : p.components = root.components ++ below) :
    (ofPath root p score).relativePath =
      (ofPath root p score).directory ++ (if (ofPath root p score).directory = "" then "" else "/") ++
        (below.getLast?.map Component.text).getD "" := by
  rw [relativePath_ofPath score h, directory_ofPath score h]
  rcases List.eq_nil_or_concat below with rfl | ⟨above, last, rfl⟩
  · decide
  · rw [List.concat_eq_append] at h ⊢
    have hwritten := (written_below h).of_append
    have htexts : ∀ c ∈ above, c.text ≠ "" := fun c hc => hwritten.text_ne_empty c (List.mem_append_left _ hc)
    rw [hwritten.parentOf?_concat, List.getLast?_concat, Path.slashed_concat htexts]
    rfl

/-- The id of a file below a root is made of what is shown of its components: the directory and the last of them. Two
files have one id exactly if they are shown alike, and the id leads from the root to the file exactly if all components
below the root are texts. Among such files the id tells each from all others. -/
theorem id_identifies_file (score score' : K) {below' : List Component} (hp : p.components = root.components ++ below)
    (hq : q.components = root.components ++ below') :
    ((root.join ⟨(ofPath root p score).relativePath⟩).components = p.components ↔ ∀ c ∈ below, c.raw.text?.isSome) ∧
      (ofPath root p score).relativePath =
        (ofPath root p score).directory ++ (if (ofPath root p score).directory = "" then "" else "/") ++
          (below.getLast?.map Component.text).getD "" ∧
      ((ofPath root p score).id = (ofPath root q score').id ↔ below.map Component.shown = below'.map Component.shown) ∧
      ((∀ c ∈ below, c.raw.text?.isSome) → (∀ c ∈ below', c.raw.text?.isSome) →
        ((ofPath root p score).id = (ofPath root q score').id ↔ p.components = q.components)) := by
  have hids : (ofPath root p score).id = (ofPath root q score').id ↔
      below.map Component.shown = below'.map Component.shown := by
    rw [id, id, relativePath_ofPath score hp, relativePath_ofPath score' hq,
      (written_below hp).of_append.slashed_inj (written_below hq).of_append]
  refine ⟨?_, relativePath_eq_directory score hp, hids, fun htext htext' => ?_⟩
  · rw [relativePath_ofPath score hp, Path.components_join_slashed (written_below hp), hp, List.append_cancel_left_eq,
      Path.map_shown_eq_self_iff]
  · rw [hids, Path.map_shown_eq_self_iff.mpr htext, Path.map_shown_eq_self_iff.mpr htext', hp, hq,
      List.append_cancel_left_eq]

theorem id_identifies_file_login :
    (⟨"/repo/src//auth/./login.ts"⟩ : Path).components = (⟨"/repo/"⟩ : Path).components ++
        [.name "src", .name "auth", .name "login.ts"] ∧
      (⟨"/repo/src/../src/auth/login.ts"⟩ : Path).components = (⟨"/repo/"⟩ : Path).components ++
        [.name "src", .up, .name "src", .name "auth", .name "login.ts"] ∧
      (ofPath ⟨"/repo/"⟩ ⟨"/repo/src//auth/./login.ts"⟩ ()).relativePath = "src/auth/login.ts" ∧
      (ofPath ⟨"/repo/"⟩ ⟨"/repo/src//auth/./login.ts"⟩ ()).id ≠
        (ofPath ⟨"/repo/"⟩ ⟨"/repo/src/../src/auth/login.ts"⟩ ()).id := by
  have hp : (⟨"/repo/src//auth/./login.ts"⟩ : Path).components = (⟨"/repo/"⟩ : Path).components ++
      [.name "src", .name "auth", .name "login.ts"] := by decide +kernel
  have hq : (⟨"/repo/src/../src/auth/login.ts"⟩ : Path).components = (⟨"/repo/"⟩ : Path).components ++
      [.name "src", .up, .name "src", .name "auth", .name "login.ts"] := by decide +kernel
  refine ⟨hp, hq, by decide +kernel, ?_⟩
  rw [Ne, (id_identifies_file () () hp hq).2.2.2 (by decide +kernel) (by decide +kernel)]
  decide +kernel

/-- Two files whose names are no texts are shown alike, and so are one node. -/
theorem id_shared_by_undecodable_names :
    let root : Path := ⟨"/r"⟩
    let p : Path := ⟨"/r/" ++ ⟨[0xFE]⟩ ++ ".ts"⟩
    let q : Path := ⟨"/r/" ++ ⟨[0xFF]⟩ ++ ".ts"⟩
    p.components ≠ q.components ∧ (ofPath root p ()).id = "\uFFFD.ts" ∧ (ofPath root q ()).id = "\uFFFD.ts" ∧
      (root.join ⟨(ofPath root p ()).relativePath⟩).components ≠ p.components := by
  decide +kernel

end FileRecord

end ModuleGraph
