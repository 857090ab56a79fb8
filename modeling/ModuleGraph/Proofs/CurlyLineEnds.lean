import ModuleGraph.Proofs.ClauseLockstep

namespace ModuleGraph

open Text (Widened IsFiller EndsPlain Stops)

section Accessors

variable {T T' : List Char}

theorem SameOffset.lineAt_eq {x y : Nat} (h : SameOffset T T' x y) : Text.lineAt T' y = Text.lineAt T x := by
  obtain ⟨_, _, ⟨u, v, rest, rest', rfl, rfl, rfl, rfl, hu, -⟩, rfl, rfl⟩ := h
  rw [Cursor.after, Cursor.after, Text.lineAt_append, Text.lineAt_append, hu.count_newline]

variable (T T') in
abbrev SameMatch : Match → Match → Prop :=
  Pattern.MatchAlike T T' (List.Forall₂ (PartAlike T T'))

namespace SameMatch

variable {m m' : Match} {slot : Slot} (h : SameMatch T T' m m')
include h

theorem part?_cases (slot : Slot) : m.part? slot = none ∧ m'.part? slot = none ∨
    ∃ p p', m.part? slot = some p ∧ m'.part? slot = some p' ∧ PartAlike T T' p p' ∧ p.slot = slot := by
  have hparts := h.parts
  rw [Match.part?, Match.part?]
  generalize m.parts = ps at hparts
  generalize m'.parts = ps' at hparts
  induction hparts with
  | nil => exact .inl ⟨rfl, rfl⟩
  | @cons p p' ps ps' hp _ ih =>
    have heq : p'.slot = p.slot := by cases hp <;> rfl
    by_cases hslot : p.slot = slot
    · refine .inr ⟨p, p', List.find?_cons_of_pos ?_, List.find?_cons_of_pos ?_, hp, hslot⟩
      · simpa using hslot
      · simpa [heq] using hslot
    · rwa [List.find?_cons_of_neg (by simpa using hslot), List.find?_cons_of_neg (by simpa [heq] using hslot)]

theorem isSome_part? (slot : Slot) : (m'.part? slot).isSome = (m.part? slot).isSome := by
  rcases part?_cases h slot with ⟨hp, hp'⟩ | ⟨p, p', hp, hp', -⟩
  · rw [hp, hp']
  · rw [hp, hp']
    rfl

theorem text?_rel (hslot : slot ∉ [Slot.clause, Slot.typeMark]) :
    Option.Rel Widened (m.text? slot) (m'.text? slot) := by
  rcases part?_cases h slot with ⟨hp, hp'⟩ | ⟨p, p', hp, hp', halike, rfl⟩
  · rw [Match.text?, Match.text?, hp, hp']
    exact .none
  · rw [Match.text?, Match.text?, hp, hp']
    cases halike with
    | aligned hfirst hlast => exact .some (hfirst.textTo hlast)
    | typeMark | clause => simp at hslot

theorem text?_eq (hslot : slot.isOnOneLine = true) : m'.text? slot = m.text? slot := by
  rcases part?_cases h slot with ⟨hp, hp'⟩ | ⟨p, p', hp, hp', halike, rfl⟩
  · rw [Match.text?, Match.text?, hp, hp']
  · rw [Match.text?, Match.text?, hp, hp']
    cases halike with
    | aligned _ _ htext => exact congrArg some (htext hslot)
    | typeMark | clause => cases hslot

theorem textOf_eq (hslot : slot.isOnOneLine = true) : m'.textOf slot = m.textOf slot := by
  rw [Match.textOf, Match.textOf, text?_eq h hslot]

theorem textOf_widened (hslot : slot ∉ [Slot.clause, Slot.typeMark]) : Widened (m.textOf slot) (m'.textOf slot) := by
  have hrel := text?_rel h hslot
  rw [Match.textOf, Match.textOf]
  generalize m.text? slot = x at hrel ⊢
  generalize m'.text? slot = y at hrel ⊢
  cases hrel with
  | none => exact .nil
  | some hw => exact hw

theorem trim_textOf_clause : Widened (Text.trim (m.textOf .clause)) (Text.trim (m'.textOf .clause)) := by
  rcases part?_cases h .clause with ⟨hp, hp'⟩ | ⟨p, p', hp, hp', halike, hslot⟩
  · rw [Match.textOf, Match.textOf, Match.text?, Match.text?, hp, hp']
    exact Widened.nil.trim
  · rw [Match.textOf, Match.textOf, Match.text?, Match.text?, hp, hp']
    cases halike with
    | aligned hfirst hlast => exact (hfirst.textTo hlast).trim
    | typeMark => cases hslot
    | clause hfirst hlast => exact hfirst.trim_textTo hlast

theorem startOf_same (hslot : slot ∉ [Slot.clause, Slot.typeMark]) :
    SameOffset T T' (m.startOf slot) (m'.startOf slot) := by
  rcases part?_cases h slot with ⟨hp, hp'⟩ | ⟨p, p', hp, hp', halike, rfl⟩
  · rw [Match.startOf, Match.startOf, hp, hp']
    exact h.start
  · rw [Match.startOf, Match.startOf, hp, hp']
    cases halike with
    | aligned hfirst => exact ⟨_, _, hfirst, rfl, rfl⟩
    | typeMark | clause => simp at hslot

end SameMatch

end Accessors

namespace Curly

open Pattern

section LineEnds

theorem not_startsAt_newline {before : Option Char} {d : Char} (hd : Text.isBlank d = false) (cs r : List Char) :
    ¬StartsAt before ('\n' :: cs) (d :: r) := by
  rintro ⟨a, g, heq, ha, hg⟩
  rcases ha with ⟨rfl, -⟩ | rfl
  · cases g with
    | nil =>
      obtain ⟨rfl, -⟩ := List.cons.inj heq
      exact Bool.false_ne_true (hd.symm.trans (by decide))
    | cons c g =>
      obtain ⟨rfl, -⟩ := List.cons.inj heq
      exact absurd (hg _ List.mem_cons_self) (by decide)
  · exact absurd (List.cons.inj heq).1 (by decide)

theorem not_startsAt_filler {before : Option Char} {d f : Char} (hd : Text.isBlank d = false) (hf : IsFiller f)
    (cs r : List Char) : ¬StartsAt before (f :: '\n' :: cs) (d :: r) := by
  rintro ⟨a, g, heq, ha, hg⟩
  rcases ha with ⟨rfl, -⟩ | rfl
  · cases g with
    | nil =>
      obtain ⟨rfl, -⟩ := List.cons.inj heq
      exact Bool.false_ne_true (hd.symm.trans hf.isBlank)
    | cons c g =>
      obtain ⟨-, heq⟩ := List.cons.inj heq
      exact @not_startsAt_newline none d hd cs r
        ⟨[], g, heq, .inl ⟨rfl, .inl rfl⟩, fun x hx => hg x (List.mem_cons_of_mem c hx)⟩
  · obtain ⟨rfl, -⟩ := List.cons.inj heq
    rcases hf with hf | hf <;> exact absurd hf (by decide)

theorem Introduces.exists_cons {w : String} {c : Char} (h : Introduces w c) :
    ∃ d ds, w.toList = d :: ds ∧ Text.isBlank d = false := by
  obtain ⟨-, h | ⟨h, -⟩⟩ := h <;> simp only [List.mem_cons, List.not_mem_nil, or_false] at h <;>
    rcases h with rfl | rfl <;> exact ⟨_, _, rfl, by decide⟩

theorem Form.unread_newline (f : Form) (before : Option Char) (cs : List Char) :
    f.pattern.Unread before ('\n' :: cs) := by
  by_cases hcall : f.isCall = true
  · cases f <;> try cases hcall
    · exact opens_requireCall.unread_cons (by decide)
    · exact opens_dynamicImport.unread_cons (by decide)
  · intro s rest heq hread
    obtain ⟨w, -, c, r, hstart, hw⟩ := Form.headed (Bool.not_eq_true _ ▸ hcall) before s rest hread
    obtain ⟨d, ds, hcons, hd⟩ := hw.exists_cons
    rw [← heq, hcons] at hstart
    exact not_startsAt_newline hd _ _ hstart

theorem Form.unread_filler (f : Form) (before : Option Char) {b : Char} (hb : IsFiller b) (cs : List Char) :
    f.pattern.Unread before (b :: '\n' :: cs) := by
  by_cases hcall : f.isCall = true
  · have hne : ∀ d : Char, Text.isBlank d = false → d ≠ b := fun d hd heq =>
      Bool.false_ne_true (hd.symm.trans (heq ▸ hb.isBlank))
    cases f <;> try cases hcall
    · refine opens_requireCall.unread_cons ?_
      simpa using ⟨hne _ (by decide), hne _ (by decide), hne _ (by decide), hne _ (by decide)⟩
    · refine opens_dynamicImport.unread_cons ?_
      simpa using hne _ (by decide)
  · intro s rest heq hread
    obtain ⟨w, -, c, r, hstart, hw⟩ := Form.headed (Bool.not_eq_true _ ▸ hcall) before s rest hread
    obtain ⟨d, ds, hcons, hd⟩ := hw.exists_cons
    rw [← heq, hcons] at hstart
    exact not_startsAt_filler hd hb _ _ hstart

end LineEnds

section Matches

variable {T T' : List Char}

theorem Form.lockstep {f : Form} (hclause : f ≠ .clauseImport) (hproperty : f ≠ .propertyAssignment) :
    f.pattern.Lockstep (InStep T T') (InStep T T') := by
  cases f with
  | clauseImport => exact absurd rfl hclause
  | effectImport => exact lockstep_sideEffectImport
  | requireCall => exact lockstep_requireCall
  | importCall => exact lockstep_dynamicImport
  | exportDefault => exact lockstep_exportDefault
  | declaration d => exact d.lockstep
  | exportNames => exact lockstep_exportList
  | exportStar => exact lockstep_exportStar
  | moduleAssignment => exact lockstep_moduleExports
  | propertyAssignment => exact absurd rfl hproperty

variable (hwide : Widened T T')
include hwide

theorem Form.matches_alike (hhollow : hollowImport.matchesIn T = []) {f : Form} (hf : f ≠ .propertyAssignment) :
    List.Forall₂ (SameMatch T T') (f.pattern.matchesIn T) (f.pattern.matchesIn T') := by
  refine matchesIn_alike hwide (fun a b hab => ?_) f.unread_newline fun before b cs hb => f.unread_filler before hb cs
  by_cases hclause : f = .clauseImport
  · subst hclause
    exact staticImport_alike hhollow hab
  · exact matchAt_alike ((Form.lockstep hclause hf).weaken fun r r' hr => ⟨.inl hr.place, hr.parts⟩) hab

theorem exportsProperty_matches_alike :
    List.Forall₂ (MatchAlike T T' (ValueAlike T T')) (exportsProperty.matchesIn T) (exportsProperty.matchesIn T') :=
  matchesIn_alike hwide (fun _ _ hab => matchAt_alike lockstep_exportsProperty hab)
    (Form.unread_newline .propertyAssignment) fun before _ cs hb => Form.unread_filler .propertyAssignment before hb cs

end Matches

section Sorting

variable {α β : Type} {R : α → β → Prop} {precedes : α → α → Bool} {precedes' : β → β → Bool}

theorem insertBackward_rel (h : ∀ x x' y y', R x x' → R y y' → precedes' x' y' = precedes x y) {x : α} {x' : β}
    (hx : R x x') {ys : List α} {ys' : List β} (hys : List.Forall₂ R ys ys') :
    List.Forall₂ R (insertBackward precedes x ys) (insertBackward precedes' x' ys') := by
  induction hys with
  | nil => exact .cons hx .nil
  | cons hy hys ih =>
    rw [insertBackward, insertBackward, h _ _ _ _ hx hy]
    split
    · exact .cons hy ih
    · exact .cons hx (.cons hy hys)

theorem stableSort_rel (h : ∀ x x' y y', R x x' → R y y' → precedes' x' y' = precedes x y) {xs : List α} {xs' : List β}
    (hxs : List.Forall₂ R xs xs') : List.Forall₂ R (stableSort precedes xs) (stableSort precedes' xs') := by
  refine List.rel_reverse (List.rel_foldl ?_ .nil hxs)
  intro ys ys' hys x x' hx
  exact insertBackward_rel h hx hys

end Sorting

section Items

variable {T T' : List Char}

variable (T T') in
structure FoundAlike {α : Type} (alike : α → α → Prop) (x y : Found α) : Prop where
  offset : SameOffset T T' x.offset y.offset
  item : alike x.item y.item

theorem inSourceOrder_alike {α : Type} {alike : α → α → Prop} {xs ys : List (Found α)}
    (h : List.Forall₂ (FoundAlike T T' alike) xs ys) : List.Forall₂ alike (inSourceOrder xs) (inSourceOrder ys) := by
  refine List.rel_map (fun _ _ hxy => hxy.item) (stableSort_rel ?_ h)
  intro x x' y y' hx hy
  simp only [hx.offset.lt_iff hy.offset]

/-- Imports that differ only in the line ends inside their names. -/
structure ImportAlike (i j : Import) : Prop where
  rest : j = { i with names := j.names }
  names : List.Forall₂ (fun n n' : String => Widened n.toList n'.toList) i.names j.names

theorem ImportAlike.of_eq {i j : Import} (h : j = i) (hnames : ∀ n ∈ i.names, '\n' ∉ n.toList) : ImportAlike i j := by
  subst h
  exact ⟨rfl, List.forall₂_same.mpr fun n hn => .refl (hnames n hn)⟩

theorem names_eq_iff {ns ns' : List String}
    (h : List.Forall₂ (fun n n' : String => Widened n.toList n'.toList) ns ns') :
    ns' = ns ↔ ∀ n ∈ ns, '\n' ∉ n.toList := by
  induction h with
  | nil => simp
  | cons hn _ ih => rw [List.cons.injEq, ih, ← String.toList_inj, hn.eq_iff, List.forall_mem_cons]

/-- Imports are the same just if no name has a line end in it. -/
theorem ImportAlike.eq_iff {i j : Import} (h : ImportAlike i j) : j = i ↔ ∀ n ∈ i.names, '\n' ∉ n.toList := by
  rw [← names_eq_iff h.names]
  constructor
  · rintro rfl
    rfl
  · intro hnames
    rw [h.rest, hnames]

theorem imports_eq_iff {is js : List Import} (h : List.Forall₂ ImportAlike is js) :
    js = is ↔ ∀ i ∈ is, ∀ n ∈ i.names, '\n' ∉ n.toList := by
  induction h with
  | nil => simp
  | cons hi _ ih => rw [List.cons.injEq, ih, hi.eq_iff, List.forall_mem_cons]

theorem importAt_eq {x y : Nat} (h : SameOffset T T' x y) (source : List Char) :
    importAt T' y source = importAt T x source := by
  rw [importAt, importAt, h.lineAt_eq]

theorem exportAt_alike {x y : Nat} (h : SameOffset T T' x y) (name : List Char) (kind : ExportKind) :
    FoundAlike T T' Eq (exportAt T x name kind) (exportAt T' y name kind) := by
  refine ⟨h, ?_⟩
  rw [exportAt, exportAt, h.lineAt_eq]

end Items

section Names

variable {T T' : List Char}

theorem strings_rel {xs ys : List (List Char)} (h : List.Forall₂ Widened xs ys) :
    List.Forall₂ (fun n n' : String => Widened n.toList n'.toList) (strings xs) (strings ys) := by
  refine List.rel_map (fun x y hxy => ?_) h
  rwa [String.toList_ofList, String.toList_ofList]

theorem not_mem_strings {xs : List (List Char)} (h : ∀ x ∈ xs, '\n' ∉ x) : ∀ n ∈ strings xs, '\n' ∉ n.toList := by
  intro n hn
  obtain ⟨x, hx, rfl⟩ := List.mem_map.mp hn
  rw [String.toList_ofList]
  exact h x hx

theorem bindRequired_alike {i : Import} (hi : ∀ n ∈ i.names, '\n' ∉ n.toList) {binding binding' : Option (List Char)}
    (h : Option.Rel Widened binding binding') : ImportAlike (bindRequired i binding) (bindRequired i binding') := by
  cases h with
  | none => exact .of_eq rfl hi
  | @some b b' hb =>
    rw [bindRequired, bindRequired, hb.startsWith_eq (by decide)]
    split
    · exact ⟨rfl, strings_rel (boundNames_widened hb)⟩
    · exact .of_eq rfl (by simp)

theorem subjectKind_eq {subject subject' : Option (List Char)} (h : Option.Rel Widened subject subject') :
    subjectKind subject' = subjectKind subject := by
  cases h with
  | none => rfl
  | some hs => rw [subjectKind, subjectKind, hs.endsWith_eq (by decide)]

theorem listedNames_eq {m m' : Match} (h : SameMatch T T' m m') : listedNames m' = listedNames m := by
  have hnames : Widened (m.textOf .names) (m'.textOf .names) := h.textOf_widened (by decide)
  have hrel : List.Forall₂ Eq (listedNames m) (listedNames m') := by
    refine List.rel_map ?_ hnames.commaItems
    intro x y hxy
    obtain ⟨hitem, hmark⟩ := stripTypeMark_widened hxy
    simp only [h.isSome_part? .typeMark, hmark, outerName_widened hitem, hitem.widened.firstWord_eq hitem.stops]
  rw [List.forall₂_eq_eq_eq] at hrel
  exact hrel.symm

theorem not_mem_listedNames {m : Match} {n : Listed} (h : n ∈ listedNames m) : '\n' ∉ n.inner := by
  obtain ⟨item, hitem, rfl⟩ := List.mem_map.mp h
  exact Text.not_mem_firstWord (stops_stripTypeMark (stops_of_mem_commaItems hitem))

theorem valueKind_widened {s t : List Char} (h : Widened s t) : valueKind t = valueKind s := by
  rw [valueKind, valueKind, h.trimStart.startsWith_eq (by decide), h.trimStart.startsWith_eq (by decide),
    h.trimStart.startsWith_eq (by decide)]

theorem valueKind_append_filler {f : Char} (hf : IsFiller f) (s : List Char) : valueKind (s ++ [f]) = valueKind s := by
  rw [valueKind, valueKind, Text.trimStart, Text.trimStart, List.dropWhile_append]
  split
  next hempty =>
    rw [List.isEmpty_iff.mp hempty, List.dropWhile_cons_of_pos hf.isBlank]
    rfl
  next =>
    rw [Text.startsWith_append_filler (by decide) hf, Text.startsWith_append_filler (by decide) hf,
      Text.startsWith_append_filler (by decide) hf]

theorem valueKind_near {a a' b b' : Cursor} (ha : Aligned T T' a a') (hb : Near T T' b b') :
    valueKind (a'.textTo b') = valueKind (a.textTo b) := by
  rcases hb with hb | hb
  · exact valueKind_widened (ha.textTo hb)
  · rcases hb.textTo ha with ⟨hs, ht⟩ | ⟨f, hf, w, hw, ht⟩
    · rw [hs, ht]
    · rw [ht, valueKind_append_filler hf, valueKind_widened hw]

theorem propertyAssignment_alike {m m' : Match} (h : MatchAlike T T' (ValueAlike T T') m m') :
    FoundAlike T T' Eq (exportAt T (m.startOf .keyword) (m.textOf .name) (valueKind (m.textOf .value)))
      (exportAt T' (m'.startOf .keyword) (m'.textOf .name) (valueKind (m'.textOf .value))) := by
  obtain ⟨start, stop, _⟩ := m
  obtain ⟨start', stop', _⟩ := m'
  obtain ⟨hstart, hstop, a, a', b, b', qs, qs', rfl, rfl, ha, hb, hqs⟩ := h
  -- the value is the last part that was read, so the others are looked for behind it
  obtain ⟨o, ho⟩ : ∃ o : Match, o = ⟨start, stop, qs⟩ := ⟨_, rfl⟩
  obtain ⟨o', ho'⟩ : ∃ o' : Match, o' = ⟨start', stop', qs'⟩ := ⟨_, rfl⟩
  have hothers : SameMatch T T' o o' := ho ▸ ho' ▸ ⟨hstart, hstop, hqs⟩
  have hname : o'.textOf .name = o.textOf .name := hothers.textOf_eq rfl
  have hfound := exportAt_alike (hothers.startOf_same (by decide : Slot.keyword ∉ [Slot.clause, Slot.typeMark]))
    (o.textOf .name) (valueKind (a.textTo b))
  rw [ho, ho'] at hname hfound
  show FoundAlike T T' Eq _ (exportAt T' _ (Match.textOf ⟨start', stop', qs'⟩ .name) (valueKind (a'.textTo b')))
  rw [hname, valueKind_near ha hb]
  exact hfound

end Names

section Imports

variable {T T' : List Char} (hwide : Widened T T') (hhollow : hollowImport.matchesIn T = [])
include hwide hhollow

theorem staticImports_alike : List.Forall₂ (FoundAlike T T' ImportAlike) (staticImports T) (staticImports T') := by
  refine List.rel_map ?_ (Form.matches_alike hwide hhollow (f := .clauseImport) (by decide))
  intro m m' hm
  have hstart : SameOffset T T' (m.startOf .keyword) (m'.startOf .keyword) := hm.startOf_same (by decide)
  have hsource : m'.textOf .source = m.textOf .source := hm.textOf_eq rfl
  refine ⟨hstart, .of_eq ?_ (not_mem_strings fun x hx => Clause.not_mem_names hx)⟩
  simp only [hm.isSome_part? .typeMark, hsource, importAt_eq hstart, Clause.parse_widened hm.trim_textOf_clause]

theorem sideEffectImports_alike :
    List.Forall₂ (FoundAlike T T' ImportAlike) (sideEffectImports T) (sideEffectImports T') := by
  refine List.rel_map ?_ (Form.matches_alike hwide hhollow (f := .effectImport) (by decide))
  intro m m' hm
  have hstart : SameOffset T T' (m.startOf .keyword) (m'.startOf .keyword) := hm.startOf_same (by decide)
  have hsource : m'.textOf .source = m.textOf .source := hm.textOf_eq rfl
  refine ⟨hstart, .of_eq ?_ (by simp [importAt])⟩
  simp only [hsource, importAt_eq hstart]

theorem requireCalls_alike : List.Forall₂ (FoundAlike T T' ImportAlike) (requireCalls T) (requireCalls T') := by
  refine List.rel_map ?_ (Form.matches_alike hwide hhollow (f := .requireCall) (by decide))
  intro m m' hm
  have hstart : SameOffset T T' (m.startOf .binding) (m'.startOf .binding) := hm.startOf_same (by decide)
  have hsource : m'.textOf .source = m.textOf .source := hm.textOf_eq rfl
  refine ⟨hstart, ?_⟩
  simp only [hsource, importAt_eq hstart]
  exact bindRequired_alike (by simp [importAt]) (hm.text?_rel (by decide))

theorem dynamicImports_alike : List.Forall₂ (FoundAlike T T' ImportAlike) (dynamicImports T) (dynamicImports T') := by
  refine List.rel_map ?_ (Form.matches_alike hwide hhollow (f := .importCall) (by decide))
  intro m m' hm
  have hstart : SameOffset T T' (m.startOf .source) (m'.startOf .source) := hm.startOf_same (by decide)
  have hsource : m'.textOf .source = m.textOf .source := hm.textOf_eq rfl
  refine ⟨hstart, .of_eq ?_ (by simp [Import.whole])⟩
  simp only [hsource, importAt_eq hstart]

theorem listImports_alike : List.Forall₂ (FoundAlike T T' ImportAlike) (listImports T) (listImports T') := by
  refine List.rel_filterMap ?_ (Form.matches_alike hwide hhollow (f := .exportNames) (by decide))
  intro m m' hm
  have hstart : SameOffset T T' (m.startOf .keyword) (m'.startOf .keyword) := hm.startOf_same (by decide)
  have hsource : m'.text? .source = m.text? .source := hm.text?_eq rfl
  dsimp only
  rw [hsource]
  cases m.text? .source with
  | none => exact .none
  | some source =>
    refine .some ⟨hstart, .of_eq ?_ (not_mem_strings fun x hx => ?_)⟩
    · simp only [listImport, listedNames_eq hm, importAt_eq hstart]
    · obtain ⟨n, hn, rfl⟩ := List.mem_map.mp hx
      exact not_mem_listedNames hn

theorem starImports_alike : List.Forall₂ (FoundAlike T T' ImportAlike) (starImports T) (starImports T') := by
  refine List.rel_map ?_ (Form.matches_alike hwide hhollow (f := .exportStar) (by decide))
  intro m m' hm
  have hstart : SameOffset T T' (m.startOf .keyword) (m'.startOf .keyword) := hm.startOf_same (by decide)
  have hsource : m'.textOf .source = m.textOf .source := hm.textOf_eq rfl
  refine ⟨hstart, .of_eq ?_ (by simp [Import.whole])⟩
  simp only [hsource, importAt_eq hstart]

theorem foundImports_alike : List.Forall₂ (FoundAlike T T' ImportAlike) (foundImports T) (foundImports T') := by
  refine List.rel_append (List.rel_append (List.rel_append (List.rel_append (List.rel_append ?_ ?_) ?_) ?_) ?_) ?_
  · exact staticImports_alike hwide hhollow
  · exact sideEffectImports_alike hwide hhollow
  · exact requireCalls_alike hwide hhollow
  · exact dynamicImports_alike hwide hhollow
  · exact listImports_alike hwide hhollow
  · exact starImports_alike hwide hhollow

end Imports

section Exports

variable {T T' : List Char}

theorem exists_declarator {form : Pattern × ExportKind} (h : form ∈ declarationForms) :
    ∃ d : Declarator, form.1 = d.pattern := by
  simp only [declarationForms, List.mem_cons, List.not_mem_nil, or_false] at h
  rcases h with rfl | rfl | rfl | rfl | rfl | rfl
  · exact ⟨.function, rfl⟩
  · exact ⟨.classDefinition, rfl⟩
  · exact ⟨.constant, rfl⟩
  · exact ⟨.type, rfl⟩
  · exact ⟨.interface, rfl⟩
  · exact ⟨.enum, rfl⟩

theorem assignedExports_of_ne {c : Char} (hc : c ≠ '{') (text : List Char) (offset : Nat) (cs : List Char) :
    assignedExports text offset (some (c :: cs)) =
      [exportAt text offset "default".toList (subjectKind (some (c :: cs)))] := by
  rw [assignedExports]
  exact fun rest heq => hc (List.cons.inj (Option.some.inj heq)).1

theorem assignedExports_alike {x y : Nat} (hstart : SameOffset T T' x y) {value value' : Option (List Char)}
    (h : Option.Rel Widened value value') :
    List.Forall₂ (FoundAlike T T' Eq) (assignedExports T x value) (assignedExports T' y value') := by
  have hitself : List.Forall₂ (FoundAlike T T' Eq) [exportAt T x "default".toList (subjectKind value)]
      [exportAt T' y "default".toList (subjectKind value')] := by
    rw [subjectKind_eq h]
    exact .cons (exportAt_alike hstart _ _) .nil
  cases h with
  | none => exact hitself
  | some hw =>
    cases hw with
    | nil => exact hitself
    | @cons c s t hc hst =>
      by_cases hbrace : c = '{'
      · subst hbrace
        have hkeys : objectKeys ('{' :: t) = objectKeys ('{' :: s) := objectKeys_widened (.cons hc hst)
        rw [assignedExports, assignedExports, hkeys]
        refine List.forall₂_map_left_iff.mpr (List.forall₂_map_right_iff.mpr (List.forall₂_same.mpr fun key _ => ?_))
        exact exportAt_alike hstart key _
      · rwa [assignedExports_of_ne hbrace, assignedExports_of_ne hbrace]
    | @newline f s t hf hst =>
      have hf' : f ≠ '{' := by rcases hf with rfl | rfl <;> decide
      rwa [assignedExports_of_ne (by decide), assignedExports_of_ne hf']

variable (hwide : Widened T T')
include hwide

theorem propertyAssignments_alike :
    List.Forall₂ (FoundAlike T T' Eq) (propertyAssignments T) (propertyAssignments T') :=
  List.rel_map (fun _ _ hm => propertyAssignment_alike hm) (exportsProperty_matches_alike hwide)

variable (hhollow : hollowImport.matchesIn T = [])
include hhollow

theorem defaultExports_alike : List.Forall₂ (FoundAlike T T' Eq) (defaultExports T) (defaultExports T') := by
  refine List.rel_map ?_ (Form.matches_alike hwide hhollow (f := .exportDefault) (by decide))
  intro m m' hm
  dsimp only
  rw [subjectKind_eq (hm.text?_rel (by decide))]
  exact exportAt_alike (hm.startOf_same (by decide)) _ _

theorem declaredExports_alike {form : Pattern × ExportKind} (hform : form ∈ declarationForms) :
    List.Forall₂ (FoundAlike T T' Eq) (declaredExports T form) (declaredExports T' form) := by
  obtain ⟨d, hd⟩ := exists_declarator hform
  rw [declaredExports, declaredExports, hd]
  refine List.rel_map ?_ (List.rel_filter ?_ (Form.matches_alike hwide hhollow (f := .declaration d) (by simp)))
  · intro m m' hm
    have hname : m'.textOf .name = m.textOf .name := hm.textOf_eq rfl
    dsimp only
    rw [hname]
    exact exportAt_alike (hm.startOf_same (by decide)) _ _
  · intro m m' hm
    have hname : m'.textOf .name = m.textOf .name := hm.textOf_eq rfl
    simp only [hname]

theorem listExports_alike : List.Forall₂ (FoundAlike T T' Eq) (listExports T) (listExports T') := by
  refine List.rel_flatMap (Form.matches_alike hwide hhollow (f := .exportNames) (by decide)) ?_
  intro m m' hm
  have hstart : SameOffset T T' (m.startOf .keyword) (m'.startOf .keyword) := hm.startOf_same (by decide)
  have hsource : m'.text? .source = m.text? .source := hm.text?_eq rfl
  dsimp only
  rw [listedNames_eq hm, hsource]
  refine List.forall₂_map_left_iff.mpr (List.forall₂_map_right_iff.mpr (List.forall₂_same.mpr fun n _ => ⟨hstart, ?_⟩))
  simp only [listedExport, hstart.lineAt_eq]

theorem starExports_alike : List.Forall₂ (FoundAlike T T' Eq) (starExports T) (starExports T') := by
  refine List.rel_map ?_ (Form.matches_alike hwide hhollow (f := .exportStar) (by decide))
  intro m m' hm
  have hstart : SameOffset T T' (m.startOf .keyword) (m'.startOf .keyword) := hm.startOf_same (by decide)
  have hsource : m'.textOf .source = m.textOf .source := hm.textOf_eq rfl
  have hname : m'.text? .name = m.text? .name := hm.text?_eq rfl
  refine ⟨hstart, ?_⟩
  simp only [hsource, hname, hstart.lineAt_eq]

theorem moduleAssignments_alike : List.Forall₂ (FoundAlike T T' Eq) (moduleAssignments T) (moduleAssignments T') := by
  refine List.rel_flatMap (Form.matches_alike hwide hhollow (f := .moduleAssignment) (by decide)) ?_
  intro m m' hm
  exact assignedExports_alike (hm.startOf_same (by decide)) (hm.text?_rel (by decide))

theorem foundExports_alike : List.Forall₂ (FoundAlike T T' Eq) (foundExports T) (foundExports T') := by
  have hforms : List.Forall₂ (fun form form' => form' = form ∧ form ∈ declarationForms) declarationForms
      declarationForms := List.forall₂_same.mpr fun form hform => ⟨rfl, hform⟩
  refine List.rel_append (List.rel_append (List.rel_append (List.rel_append (List.rel_append ?_ ?_) ?_) ?_) ?_) ?_
  · exact defaultExports_alike hwide hhollow
  · refine List.rel_flatMap hforms ?_
    rintro form _ ⟨rfl, hform⟩
    exact declaredExports_alike hwide hhollow hform
  · exact listExports_alike hwide hhollow
  · exact starExports_alike hwide hhollow
  · exact moduleAssignments_alike hwide hhollow
  · exact propertyAssignments_alike hwide

end Exports

end Curly

end ModuleGraph
