import ModuleGraph.Extract
import ModuleGraph.Proofs.CurlyForms
import ModuleGraph.Proofs.Lexeme
import ModuleGraph.Proofs.SortOrder

namespace ModuleGraph.Curly

open Text (ne_of_class IsGap Stops byteLength)
open Pattern

/-- A module with a statement on each line, or on the lines that its list takes. -/
def written (ss : List Statement) : List Char :=
  ss.flatMap fun s => s.text ++ [';', '\n']

section Matches

variable {before : Option Char} {offset : Nat} {rest : List Char}

def Statement.sighting (s : Statement) (offset : Nat) : Sighting :=
  ⟨offset + byteLength s.before, s.texts⟩

def located (offset : Nat) : List Statement → List (Statement × Nat)
  | [] => []
  | s :: ss => (s, offset) :: located (offset + byteLength (s.text ++ [';', '\n'])) ss

theorem matchesFrom_end {p : Pattern} {openers : List String} (hp : p.Opens openers)
    (hopeners : ∀ c ∈ [';', '\n'], ∀ w ∈ openers, ∃ d ∈ w.toList.head?, d ≠ c) :
    p.matchesFrom before offset offset ([';', '\n'] ++ rest) = p.matchesFrom (some '\n') (offset + 2) 0 rest := by
  have hunread := @matchesFrom_of_unread p before offset offset [';', '\n'] rest fun u v huv hv => by
    obtain ⟨c, v, rfl⟩ := List.exists_cons_of_ne_nil hv
    exact hp.unread_cons (hopeners c (by simp [huv]))
  rw [hunread, matchesFrom_resume (Nat.le_add_right _ _)]
  rfl

theorem Statement.matchesFrom_of_seenAt (s : Statement) (hcall : s.form.isCall = false) {sight : Sighting}
    (h : SeenAt s.form.pattern ⟨offset, before, s.text ++ ';' :: '\n' :: rest⟩ s.form.slot s.text sight) :
    (s.form.pattern.matchesFrom before offset 0 ((s.text ++ [';', '\n']) ++ rest)).map (seen s.form.slot) =
      sight :: (s.form.pattern.matchesFrom (some '\n') (offset + byteLength (s.text ++ [';', '\n'])) 0 rest).map
        (seen s.form.slot) := by
  obtain ⟨m, hm, hstop, rfl⟩ := h
  have hne : s.text ++ [';', '\n'] ≠ [] := by simp
  have hm' : s.form.pattern.matchAt ⟨offset, before, (s.text ++ [';', '\n']) ++ rest⟩ = some m := by
    rw [List.append_assoc]
    exact hm
  have hstop' : m.stop ≤ offset + byteLength (s.text ++ [';', '\n']) :=
    hstop.trans (Nat.add_le_add_left (Text.byteLength_mono (List.prefix_append _ _)) _)
  have hlast : (s.text ++ [';', '\n']).getLast?.or before = some '\n' := by simp [List.getLast?_append]
  rw [matchesFrom_of_front hne hm' hstop' fun u v huv hu hv =>
    s.unread_inside (Form.headed hcall) huv hu hv before rest, hlast, List.map_cons]

theorem Statement.matchesFrom_of_require (target : RequireTarget) (source : ModuleName) (hline : AtLineStart before) :
    ((Form.requireCall).pattern.matchesFrom before offset 0 (((require target source).text ++ [';', '\n']) ++ rest)).map
        (seen .binding) =
      (require target source).sighting offset ::
        ((Form.requireCall).pattern.matchesFrom (some '\n')
          (offset + byteLength ((require target source).text ++ [';', '\n'])) 0 rest).map (seen .binding) := by
  obtain ⟨m, hm, hstop, hseen⟩ := @seenOver_require
    ⟨offset, before, (require target source).text ++ ([';', '\n'] ++ rest)⟩
    ([';', '\n'] ++ rest) target source hline rfl
  have hne : (require target source).text ≠ [] := by simp [text_require]
  rw [List.append_assoc, Form.pattern, matchesFrom_of_match (Nat.zero_le _) hne hm hstop,
    matchesFrom_end opens_requireCall (by decide), List.map_cons, hseen, Text.byteLength_append, ← Nat.add_assoc]
  rfl

theorem await_unread (source : ModuleName) {u v : List Char} (huv : "await ".toList = u ++ v) (hv : v ≠ [])
    (b : Option Char) (rest : List Char) :
    dynamicImport.Unread b (v ++ (("import".toList ++ callText source) ++ ([';', '\n'] ++ rest))) := by
  intro x y hxy hread
  have htext : (Statement.importCall source).text ++ [';', '\n'] =
      u ++ (v ++ (("import".toList ++ callText source) ++ [';', '\n'])) := by
    rw [← List.append_assoc u v, ← huv, Statement.text_importCall]
    simp
  obtain ⟨v', hv', hstarts⟩ := (Statement.importCall source).startsCall_of_dynamicImport htext (by simp [hv])
    (by simpa using hxy) hread
  have hlead := congrArg List.length ((importCall_lead hv' hstarts).symm.trans (congrArg (· ++ "import".toList) huv))
  have hlen : 0 < v.length := List.length_pos_of_ne_nil hv
  simp only [List.length_append] at hlead
  omega

theorem Statement.matchesFrom_of_importCall (source : ModuleName) :
    ((Form.importCall).pattern.matchesFrom before offset 0 (((importCall source).text ++ [';', '\n']) ++ rest)).map
        (seen .source) =
      (importCall source).sighting offset ::
        ((Form.importCall).pattern.matchesFrom (some '\n')
          (offset + byteLength ((importCall source).text ++ [';', '\n'])) 0 rest).map (seen .source) := by
  have htext : (importCall source).text ++ [';', '\n'] =
      "await ".toList ++ (("import".toList ++ callText source) ++ [';', '\n']) := by
    rw [text_importCall]
    simp
  have hplace : ((importCall source).text ++ [';', '\n']) ++ rest =
      "await ".toList ++ (("import".toList ++ callText source) ++ ([';', '\n'] ++ rest)) := by
    rw [htext, List.append_assoc, List.append_assoc]
  have hstop : offset + byteLength ((importCall source).text ++ [';', '\n']) =
      offset + byteLength "await ".toList + byteLength ("import".toList ++ callText source) + 2 := by
    rw [htext, Text.byteLength_append, Text.byteLength_append, ← Nat.add_assoc, ← Nat.add_assoc]
    rfl
  have hsight : (importCall source).sighting offset =
      ⟨offset + byteLength "await ".toList + byteLength "import('".toList, [(.source, source.text)]⟩ := by
    rw [Nat.add_assoc]
    rfl
  -- The call is looked for from the start of the line, but the keyword before it is not part of the match.
  have hawait := @matchesFrom_of_unread dynamicImport before offset 0 "await ".toList
    (("import".toList ++ callText source) ++ ([';', '\n'] ++ rest)) fun u v huv hv => await_unread source huv hv _ rest
  have hlast : "await ".toList.getLast?.or before = some ' ' := by simp
  have hspace : isWordAt (some ' ') = false := by decide
  obtain ⟨m, hm, hover, hseen⟩ := @seenOver_importCall
    ⟨offset + byteLength "await ".toList, some ' ', ("import".toList ++ callText source) ++ ([';', '\n'] ++ rest)⟩
    ([';', '\n'] ++ rest) source hspace rfl
  rw [hplace, Form.pattern, hawait, hlast, matchesFrom_of_match (Nat.zero_le _) (by simp) hm hover,
    matchesFrom_end opens_dynamicImport (by decide), List.map_cons, hseen, hsight, hstop]

theorem Statement.matchesFrom_text (s : Statement) (f : Form) (hline : AtLineStart before) :
    (f.pattern.matchesFrom before offset 0 ((s.text ++ [';', '\n']) ++ rest)).map (seen f.slot) =
      (if s.form = f then [s.sighting offset] else []) ++
        (f.pattern.matchesFrom (some '\n') (offset + byteLength (s.text ++ [';', '\n'])) 0 rest).map (seen f.slot) := by
  by_cases hf : s.form = f
  · subst hf
    rw [if_pos rfl, List.singleton_append]
    -- The two calls are read over their whole text; the other forms leave a rest in which they are not read again.
    cases s with
    | importEffect source => exact matchesFrom_of_seenAt _ rfl (seenAt_importEffect source hline rfl)
    | importClause isType clause source =>
      exact matchesFrom_of_seenAt _ rfl (seenAt_importClause isType clause source hline rfl)
    | require target source => exact matchesFrom_of_require target source hline
    | importCall source => exact matchesFrom_of_importCall source
    | declare d n => exact matchesFrom_of_seenAt _ rfl (seenAt_declare d n hline rfl)
    | exportDefault n => exact matchesFrom_of_seenAt _ rfl (seenAt_exportDefault n hline rfl)
    | exportNames l hl source => exact matchesFrom_of_seenAt _ rfl (seenAt_exportNames l hl source hline rfl)
    | exportStar name source => exact matchesFrom_of_seenAt _ rfl (seenAt_exportStar name source hline rfl)
  · have hlast : (s.text ++ [';', '\n']).getLast?.or before = some '\n' := by simp [List.getLast?_append]
    rw [if_neg hf, List.nil_append,
      matchesFrom_of_unread fun u v huv hv => s.unread (Ne.symm hf) huv hv before rest, hlast]

/-- A form sees the statements that it is for, in their order, and nothing else. -/
theorem matchesFrom_written (ss : List Statement) (f : Form) (hline : AtLineStart before) :
    (f.pattern.matchesFrom before offset 0 (written ss)).map (seen f.slot) =
      ((located offset ss).filter (·.1.form = f)).map fun x => x.1.sighting x.2 := by
  induction ss generalizing before offset with
  | nil =>
    have hnone : f.pattern.matchAt ⟨offset, before, []⟩ = none := read_eq_none (f.unread_nil before)
    rw [written, List.flatMap_nil, matchesFrom, hnone]
    exact congrArg (List.map _) (ite_self _)
  | cons s ss ih =>
    rw [written, List.flatMap_cons, s.matchesFrom_text f hline]
    rw [written] at ih
    rw [ih (.inr rfl), located, List.filter_cons]
    by_cases hf : s.form = f
    · simp [hf]
    · simp [hf]

end Matches

section Found

theorem text?_of_seen {slot slot' : Slot} {m : Match} {offset : Nat} {texts : List (Slot × List Char)}
    (h : seen slot m = ⟨offset, texts⟩) : m.text? slot' = (texts.find? (·.1 = slot')).map (·.2) := by
  rw [← (Sighting.mk.inj h).2, List.find?_map, Option.map_map]
  rfl

theorem textOf_of_seen {slot slot' : Slot} {m : Match} {offset : Nat} {texts : List (Slot × List Char)}
    (h : seen slot m = ⟨offset, texts⟩) : m.textOf slot' = ((texts.find? (·.1 = slot')).map (·.2)).getD [] := by
  rw [Match.textOf, text?_of_seen h]

theorem part?_isSome (m : Match) (slot : Slot) : (m.part? slot).isSome = (m.text? slot).isSome :=
  (Option.isSome_map ..).symm

theorem flatMap_matchesIn {α : Type} (f : Form) (ss : List Statement) {g : Match → List α}
    {k : Statement × Nat → List α}
    (hg : ∀ m s offset, s.form = f → seen f.slot m = s.sighting offset → g m = k (s, offset)) :
    (f.pattern.matchesIn (written ss)).flatMap g = ((located 0 ss).filter (·.1.form = f)).flatMap k := by
  have hseen := @matchesFrom_written none 0 ss f (.inl rfl)
  have hform : ∀ x ∈ (located 0 ss).filter (·.1.form = f), x.1.form = f :=
    fun x hx => by simpa using (List.mem_filter.mp hx).2
  rw [← matchesIn] at hseen
  -- Both lists are walked together: the n-th match is seen as the n-th statement of the form.
  generalize f.pattern.matchesIn (written ss) = ms at hseen
  generalize (located 0 ss).filter (·.1.form = f) = xs at hseen hform
  induction ms generalizing xs with
  | nil =>
    rw [List.map_eq_nil_iff.mp hseen.symm]
    rfl
  | cons m ms ih =>
    obtain ⟨x, xs, rfl⟩ := List.exists_cons_of_ne_nil (l := xs) (by rintro rfl; cases hseen)
    obtain ⟨hm, hms⟩ := List.cons.inj hseen
    rw [List.flatMap_cons, List.flatMap_cons, ih xs hms fun y hy => hform y (List.mem_cons_of_mem _ hy),
      hg m x.1 x.2 (hform x List.mem_cons_self) hm]

variable (text : List Char)

def place (x : Statement × Nat) : Nat :=
  x.2 + byteLength x.1.before

def foundAt {α : Type} (items : Nat → Statement → List α) (x : Statement × Nat) : List (Found α) :=
  (items (Text.lineAt text (place x)) x.1).map (⟨place x, ·⟩)

/-- The kind that an exported default is taken for: a dollar sign ends the word before it. -/
def defaultKind (n : Identifier) : ExportKind :=
  if Text.startsWith n.text "function$".toList then .function
  else if Text.startsWith n.text "class$".toList then .classDefinition
  else .unknown

theorem subjectKind_defaultSubject (n : Identifier) :
    subjectKind ((defaultSubject n).map String.toList) = defaultKind n := by
  unfold defaultSubject defaultKind
  split
  · decide
  · split <;> decide

variable (ss : List Statement)

def ofForm (f : Form) : List (Statement × Nat) :=
  (located 0 ss).filter (·.1.form = f)

theorem Identifier.ne_default (n : Identifier) : String.ofList n.text ≠ "default" := by
  intro h
  exact n.free (h ▸ by decide)

section Imports

theorem importAt_text {offset : Nat} (source : ModuleName) :
    importAt text offset source.text = Statement.bare (Text.lineAt text offset) source := rfl

theorem staticImports_written : staticImports (written ss) =
    (ofForm ss .clauseImport).flatMap (foundAt (written ss) Statement.imports) := by
  rw [staticImports, List.map_eq_flatMap]
  refine flatMap_matchesIn .clauseImport ss fun m s offset hs hm => ?_
  cases s with
  | importClause isType clause source =>
    have hstart : m.startOf .keyword = offset := (Sighting.mk.inj hm).1
    have hsource : m.textOf .source = source.text := by
      rw [textOf_of_seen hm]
      cases isType <;> rfl
    have hclause : m.textOf .clause = clause.text := by
      rw [textOf_of_seen hm]
      cases isType <;> rfl
    have hmark : (m.part? .typeMark).isSome = isType := by
      rw [part?_isSome, text?_of_seen hm]
      cases isType <;> rfl
    simp only [hstart, hsource, hclause, hmark, clause.parse_text, importAt_text]
    rfl
  | _ => cases hs

theorem sideEffectImports_written : sideEffectImports (written ss) =
    (ofForm ss .effectImport).flatMap (foundAt (written ss) Statement.imports) := by
  rw [sideEffectImports, List.map_eq_flatMap]
  refine flatMap_matchesIn .effectImport ss fun m s offset hs hm => ?_
  cases s with
  | importEffect source =>
    have hstart : m.startOf .keyword = offset := (Sighting.mk.inj hm).1
    have hsource : m.textOf .source = source.text := textOf_of_seen hm
    simp only [hstart, hsource, importAt_text]
    rfl
  | _ => cases hs

theorem bindRequired_target (i : Import) (target : RequireTarget) (htarget : target.text ≠ []) :
    bindRequired i (some target.text) = match target with
      | .nothing => i
      | .whole _ => { i with hasDefault := true, names := ["default"] }
      | .names list _ => { i with names := list.items.map Item.inner } := by
  cases target with
  | nothing => exact absurd rfl htarget
  | whole n =>
    obtain ⟨c, cs, hn, hc⟩ := n.exists_cons
    have hbrace : Text.startsWith n.text ['{'] = false := by
      have hne : c ≠ '{' := ne_of_class hc (by decide)
      simp [Text.startsWith, List.isPrefixOf, hn, hne.symm]
    rw [RequireTarget.text, bindRequired, hbrace]
    rfl
  | names l hl =>
    have hbrace : Text.startsWith l.braced ['{'] = true := rfl
    rw [RequireTarget.text, bindRequired, hbrace, if_pos rfl, l.boundNames_braced hl, strings, List.map_map]
    rfl

theorem requireCalls_written : requireCalls (written ss) =
    (ofForm ss .requireCall).flatMap (foundAt (written ss) Statement.imports) := by
  rw [requireCalls, List.map_eq_flatMap]
  refine flatMap_matchesIn .requireCall ss fun m s offset hs hm => ?_
  cases s with
  | require target source =>
    have hstart : m.startOf .binding = place (.require target source, offset) := (Sighting.mk.inj hm).1
    have hsource : m.textOf .source = source.text := by
      rw [textOf_of_seen hm]
      cases target <;> rfl
    cases target with
    | nothing =>
      have hbinding : m.text? .binding = none := text?_of_seen hm
      simp only [hstart, hsource, hbinding, importAt_text]
      rfl
    | whole n =>
      have hbinding : m.text? .binding = some (RequireTarget.whole n).text := text?_of_seen hm
      simp only [hstart, hsource, hbinding, importAt_text, bindRequired_target _ (.whole n) n.text_ne_nil]
      rfl
    | names l hl =>
      have hbinding : m.text? .binding = some (RequireTarget.names l hl).text := text?_of_seen hm
      simp only [hstart, hsource, hbinding, importAt_text, bindRequired_target _ (.names l hl) (List.cons_ne_nil _ _)]
      rfl
  | _ => cases hs

theorem dynamicImports_written : dynamicImports (written ss) =
    (ofForm ss .importCall).flatMap (foundAt (written ss) Statement.imports) := by
  rw [dynamicImports, List.map_eq_flatMap]
  refine flatMap_matchesIn .importCall ss fun m s offset hs hm => ?_
  cases s with
  | importCall source =>
    have hstart : m.startOf .source = place (.importCall source, offset) := (Sighting.mk.inj hm).1
    have hsource : m.textOf .source = source.text := textOf_of_seen hm
    simp only [hstart, hsource, importAt_text]
    rfl
  | _ => cases hs

theorem starImports_written : starImports (written ss) =
    (ofForm ss .exportStar).flatMap (foundAt (written ss) Statement.imports) := by
  rw [starImports, List.map_eq_flatMap]
  refine flatMap_matchesIn .exportStar ss fun m s offset hs hm => ?_
  cases s with
  | exportStar name source =>
    have hstart : m.startOf .keyword = offset := (Sighting.mk.inj hm).1
    have hsource : m.textOf .source = source.text := textOf_of_seen hm
    simp only [hstart, hsource, importAt_text]
    rfl
  | _ => cases hs

section Listed

variable {m : Match} {offset : Nat} {l : ItemList} {hl : ∀ i ∈ l.items, i.Unmarked} {source : Option ModuleName}
  (hm : seen .keyword m = (Statement.exportNames l hl source).sighting offset)
include hm

theorem source?_of_seen : m.text? .source = source.map ModuleName.text := by
  rw [text?_of_seen hm]
  cases source <;> rfl

theorem listedNames_of_seen : listedNames m = l.items.map fun i => ⟨i.name.text, outerName i.names, false⟩ := by
  have hmark : (m.part? .typeMark).isSome = false := by
    rw [part?_isSome, text?_of_seen hm]
    cases source <;> rfl
  have hnames : m.textOf .names = l.text := by
    rw [textOf_of_seen hm]
    cases source <;> rfl
  have hmap : listedNames m = ((Text.commaItems l.text).map stripTypeMark).map fun x =>
      ⟨Text.firstWord x.1, outerName x.1, x.2⟩ := by
    rw [listedNames, hmark, hnames, List.map_map]
    rfl
  rw [hmap, l.map_stripTypeMark, List.map_map]
  refine List.map_congr_left fun i hi => ?_
  have hunmarked : i.typeMark = none := hl i hi
  simp [i.firstWord_names, hunmarked]

end Listed

theorem listImports_written : listImports (written ss) =
    (ofForm ss .exportNames).flatMap (foundAt (written ss) Statement.imports) := by
  rw [listImports, List.filterMap_eq_flatMap_toList]
  refine flatMap_matchesIn .exportNames ss fun m s offset hs hm => ?_
  cases s with
  | exportNames l hl source =>
    have hstart : m.startOf .keyword = offset := (Sighting.mk.inj hm).1
    have hsource := source?_of_seen hm
    have hinner : strings ((listedNames m).map (·.inner)) = l.items.map Item.inner := by
      rw [listedNames_of_seen hm, strings, List.map_map, List.map_map]
      rfl
    cases source with
    | none =>
      rw [hsource]
      rfl
    | some source =>
      have hdefault : (l.items.map Item.inner).any (· == "default") = false := by
        rw [List.any_map, List.any_eq_false]
        intro i _
        simp [Item.inner, i.name.ne_default]
      have htypes : (listedNames m).all (·.isType) = false := by
        rw [listedNames_of_seen hm]
        rfl
      simp only [hsource, Option.map_some, listImport, hstart, hinner, hdefault, htypes, Bool.and_false,
        importAt_text]
      rfl
  | _ => cases hs

end Imports

section Exports

theorem named_identifier (n : Identifier) (kind : ExportKind) (line : Nat) :
    Export.named (String.ofList n.text) kind line =
      { Statement.plainExport (String.ofList n.text) line with
        kind
        isType := kind = .type ∨ kind = .interface } := by
  simp [Export.named, Statement.plainExport, n.ne_default]

theorem named_default (n : Identifier) (line : Nat) :
    Export.named "default" (defaultKind n) line =
      { Statement.plainExport "default" line with isDefault := true, kind := defaultKind n } := by
  have htype : ¬ (defaultKind n = .type ∨ defaultKind n = .interface) := by
    unfold defaultKind
    split
    · decide
    · split <;> decide
  simp [Export.named, Statement.plainExport, htype]

theorem defaultExports_written : defaultExports (written ss) =
    (ofForm ss .exportDefault).flatMap (foundAt (written ss) (Statement.exports defaultKind)) := by
  rw [defaultExports, List.map_eq_flatMap]
  refine flatMap_matchesIn .exportDefault ss fun m s offset hs hm => ?_
  cases s with
  | exportDefault n =>
    have hstart : m.startOf .keyword = offset := (Sighting.mk.inj hm).1
    have hsubject : m.text? .subject = (defaultSubject n).map String.toList := by
      rw [text?_of_seen hm, Statement.texts]
      cases defaultSubject n <;> rfl
    simp only [hstart, exportAt, String.ofList_toList, hsubject, subjectKind_defaultSubject, named_default]
    rfl
  | _ => cases hs

theorem declaredExports_written (d : Declarator) : declaredExports (written ss) (d.pattern, d.kind) =
    (ofForm ss (.declaration d)).flatMap (foundAt (written ss) (Statement.exports defaultKind)) := by
  rw [declaredExports, ← List.filterMap_eq_filter, List.map_filterMap, List.filterMap_eq_flatMap_toList]
  refine flatMap_matchesIn (.declaration d) ss fun m s offset hs hm => ?_
  cases s with
  | declare d' n =>
    obtain rfl : d' = d := Form.declaration.inj hs
    have hstart : m.startOf .keyword = offset := (Sighting.mk.inj hm).1
    have hname : m.textOf .name = n.text := textOf_of_seen hm
    have henum : n.text ≠ "enum".toList := n.ne_of_mem_reserved (by decide)
    -- A constant enumeration would be dropped here; an identifier is not spelled like the keyword.
    have hguard : Option.guard (fun m : Match => !(d'.kind = .variable ∧ m.textOf .name = "enum".toList)) m =
        some m := by
      simpa [Option.guard, hname] using fun _ => henum
    rw [hguard]
    simp only [Option.map_some, Option.toList_some, exportAt, hstart, hname, named_identifier]
    cases d' <;> rfl
  | _ => cases hs

theorem named_outer (i : Item) (line : Nat) :
    Export.named i.outer .unknown line = Statement.plainExport i.outer line := by
  rw [Item.outer, named_identifier]
  rfl

theorem listExports_written : listExports (written ss) =
    (ofForm ss .exportNames).flatMap (foundAt (written ss) (Statement.exports defaultKind)) := by
  refine flatMap_matchesIn .exportNames ss fun m s offset hs hm => ?_
  cases s with
  | exportNames l hl source =>
    have hstart : m.startOf .keyword = offset := (Sighting.mk.inj hm).1
    have hsource := source?_of_seen hm
    rw [listedNames_of_seen hm, hstart, hsource, List.map_map]
    cases source with
    | none =>
      rw [foundAt, Statement.exports, List.map_map]
      refine List.map_congr_left fun i _ => ?_
      simp only [Function.comp_apply, listedExport, i.outerName_names, Option.map_none, named_outer]
      rfl
    | some source =>
      rw [foundAt, Statement.exports, List.map_map]
      refine List.map_congr_left fun i _ => ?_
      simp only [Function.comp_apply, listedExport, i.outerName_names, Option.map_some, Export.passedOn, named_outer]
      rfl
  | _ => cases hs

theorem starExports_written : starExports (written ss) =
    (ofForm ss .exportStar).flatMap (foundAt (written ss) (Statement.exports defaultKind)) := by
  rw [starExports, List.map_eq_flatMap]
  refine flatMap_matchesIn .exportStar ss fun m s offset hs hm => ?_
  cases s with
  | exportStar name source =>
    have hstart : m.startOf .keyword = offset := (Sighting.mk.inj hm).1
    have hsource : m.textOf .source = source.text := textOf_of_seen hm
    have hname : m.text? .name = name.map Identifier.text := by
      rw [text?_of_seen hm]
      cases name <;> rfl
    simp only [hstart, hsource, hname, Export.passedOn]
    cases name with
    | none => rfl
    | some n =>
      rw [Option.map_some, Option.getD_some, named_identifier]
      rfl
  | _ => cases hs

theorem moduleAssignments_written : moduleAssignments (written ss) =
    (ofForm ss .moduleAssignment).flatMap (foundAt (written ss) (Statement.exports defaultKind)) :=
  flatMap_matchesIn .moduleAssignment ss fun _ s _ hs _ => by cases s <;> cases hs

theorem propertyAssignments_written : propertyAssignments (written ss) =
    (ofForm ss .propertyAssignment).flatMap (foundAt (written ss) (Statement.exports defaultKind)) := by
  rw [propertyAssignments, List.map_eq_flatMap]
  exact flatMap_matchesIn .propertyAssignment ss fun _ s _ hs _ => by cases s <;> cases hs

end Exports

def importOrder : List Form :=
  [.clauseImport, .effectImport, .requireCall, .importCall, .exportNames, .exportStar]

def declaratorOrder : List Declarator :=
  [.function, .classDefinition, .constant, .type, .interface, .enum]

def exportOrder : List Form :=
  .exportDefault :: (declaratorOrder.map .declaration ++
    [.exportNames, .exportStar, .moduleAssignment, .propertyAssignment])

theorem foundImports_written : foundImports (written ss) =
    importOrder.flatMap fun f => (ofForm ss f).flatMap (foundAt (written ss) Statement.imports) := by
  rw [foundImports, staticImports_written, sideEffectImports_written, requireCalls_written, dynamicImports_written,
    listImports_written, starImports_written]
  simp [importOrder]

theorem foundExports_written : foundExports (written ss) =
    exportOrder.flatMap fun f => (ofForm ss f).flatMap (foundAt (written ss) (Statement.exports defaultKind)) := by
  have hforms : declarationForms = declaratorOrder.map fun d => (d.pattern, d.kind) := rfl
  rw [foundExports, defaultExports_written, hforms, List.flatMap_map,
    List.flatMap_congr fun d _ => declaredExports_written ss d, listExports_written, starExports_written, moduleAssignments_written, propertyAssignments_written]
  simp [exportOrder, List.flatMap_map]

end Found

section Order

theorem Statement.before_prefix_text (s : Statement) : s.before <+: s.text := by
  have hconst : ∀ t r : List Char, "const ".toList <+: ("const".toList ++ ' ' :: (t ++ " = ".toList)) ++ r :=
    fun t r => ⟨(t ++ " = ".toList) ++ r, by simp⟩
  have hcall : ∀ source, "await import('".toList <+: "await".toList ++ ' ' :: ("import".toList ++ callText source) :=
    fun source => ⟨source.text ++ "')".toList, by simp [callText, quoted]⟩
  cases s with
  | require target source =>
    rw [text_require]
    cases target with
    | nothing => exact List.nil_prefix
    | whole n => exact hconst n.text _
    | names l hl => exact hconst l.braced _
  | importCall source => exact hcall source
  | _ => exact List.nil_prefix

theorem le_of_mem_located {ss : List Statement} {offset : Nat} {x : Statement × Nat} (hx : x ∈ located offset ss) :
    offset ≤ x.2 := by
  induction ss generalizing offset with
  | nil => cases hx
  | cons s ss ih =>
    rcases List.mem_cons.mp hx with rfl | hx
    · exact Nat.le_refl _
    · exact Nat.le_of_add_right_le (ih hx)

theorem located_pairwise (ss : List Statement) (offset : Nat) :
    (located offset ss).Pairwise fun x y => place x < place y := by
  induction ss generalizing offset with
  | nil => exact List.Pairwise.nil
  | cons s ss ih =>
    refine List.pairwise_cons.mpr ⟨fun y hy => ?_, ih _⟩
    have hbefore := Text.byteLength_mono s.before_prefix_text
    have hnext := le_of_mem_located hy
    have hend : byteLength [';', '\n'] = 2 := rfl
    rw [Text.byteLength_append, hend] at hnext
    simp only [place]
    omega

theorem inSourceOrder_written {α : Type} (ss : List Statement) (text : List Char) {items : Nat → Statement → List α}
    {order : List Form} (hnodup : order.Nodup) (hitems : ∀ line s, items line s ≠ [] → s.form ∈ order) :
    inSourceOrder (order.flatMap fun f => (ofForm ss f).flatMap (foundAt text items)) =
      (located 0 ss).flatMap fun x => items (Text.lineAt text (place x)) x.1 := by
  have hmem : ∀ x ∈ located 0 ss, foundAt text items x ≠ [] → x.1.form ∈ order :=
    fun x _ hx => hitems _ x.1 fun hnil => hx (congrArg (List.map _) hnil)
  have hkey : ∀ x ∈ located 0 ss, ∀ a ∈ foundAt text items x, a.offset = place x := by
    intro x _ a ha
    obtain ⟨i, -, rfl⟩ := List.mem_map.mp ha
    rfl
  have hitem : ∀ x, (foundAt text items x).map Found.item = items (Text.lineAt text (place x)) x.1 :=
    fun x => List.map_map.trans (List.map_id _)
  have hsort := sortOn_flatMap_groups hnodup hmem hkey (located_pairwise ss 0)
  rw [inSourceOrder]
  unfold ofForm
  rw [hsort, List.map_flatMap, List.flatMap_congr fun x _ => hitem x]

/-- The statements of a module with the lines that they start on. -/
def fromLine {α : Type} (items : Nat → Statement → List α) (line : Nat) : List Statement → List α
  | [] => []
  | s :: ss => items line s ++ fromLine items (line + s.height) ss

theorem Statement.before_no_newline (s : Statement) : '\n' ∉ s.before := by
  have hconst : '\n' ∉ "const ".toList := by decide
  have hcall : '\n' ∉ "await import('".toList := by decide
  cases s with
  | require target source =>
    cases target with
    | nothing => exact List.not_mem_nil
    | whole n => exact hconst
    | names l hl => exact hconst
  | importCall source => exact hcall
  | _ => exact List.not_mem_nil

theorem lineAt_place (s : Statement) (u rest : List Char) :
    Text.lineAt (u ++ (s.text ++ rest)) (place (s, byteLength u)) = u.count '\n' + 1 := by
  obtain ⟨t, ht⟩ := s.before_prefix_text
  have h := Text.lineAt_append (u ++ s.before) (t ++ rest)
  rw [Text.byteLength_append, List.count_append, List.count_eq_zero.mpr s.before_no_newline, Nat.add_zero,
    List.append_assoc, ← List.append_assoc s.before, ht] at h
  exact h

theorem flatMap_located {α : Type} (items : Nat → Statement → List α) (ss : List Statement) (u : List Char) :
    ((located (byteLength u) ss).flatMap fun x => items (Text.lineAt (u ++ written ss) (place x)) x.1) =
      fromLine items (u.count '\n' + 1) ss := by
  induction ss generalizing u with
  | nil => rfl
  | cons s ss ih =>
    -- What stands before the next statement holds as many more newlines as this one is high.
    have hnext := ih (u ++ (s.text ++ [';', '\n']))
    have htext : u ++ written (s :: ss) = u ++ (s.text ++ ([';', '\n'] ++ written ss)) := by
      rw [written, List.flatMap_cons, List.append_assoc]
      rfl
    have hcount : (u ++ (s.text ++ [';', '\n'])).count '\n' + 1 = u.count '\n' + 1 + s.height := by
      have hend : [';', '\n'].count '\n' = 1 := by decide
      rw [List.count_append, List.count_append, hend, Statement.height]
      omega
    rw [hcount, Text.byteLength_append, List.append_assoc, List.append_assoc, ← htext] at hnext
    rw [located, List.flatMap_cons, hnext, htext, lineAt_place, fromLine]

end Order

section Comments

def Uncommented (t : List Char) : Prop :=
  ∀ rest, Comment.stripCurly (t ++ rest) = t ++ Comment.stripCurly rest

def isPlainCode (c : Char) : Bool :=
  !(['\'', '"', '`', '/'].contains c)

namespace Uncommented

variable {t t' : List Char}

theorem nil : Uncommented [] :=
  fun _ => rfl

theorem append (ht : Uncommented t) (ht' : Uncommented t') : Uncommented (t ++ t') := by
  intro rest
  rw [List.append_assoc, ht, ht', List.append_assoc]

theorem cons {c : Char} (hc : isPlainCode c = true) (ht : Uncommented t) : Uncommented (c :: t) := by
  intro rest
  have hslash : c ≠ '/' := ne_of_class hc (by decide)
  have hquote : ¬ IsCurlyQuote c := by
    rintro (rfl | rfl | rfl) <;> exact absurd hc (by decide)
  rw [List.cons_append, Comment.stripCurly, Comment.stripCurlyFrom_code hquote fun h => absurd h hslash]
  exact congrArg (c :: ·) (ht rest)

theorem of_forall (ht : ∀ c ∈ t, isPlainCode c = true) : Uncommented t := by
  induction t with
  | nil => exact nil
  | cons c t ih =>
    obtain ⟨hc, ht⟩ := List.forall_mem_cons.mp ht
    exact cons hc (ih ht)

theorem of_class {p : Char → Bool} (hp : ∀ c ∈ ['\'', '"', '`', '/'], p c = false) (ht : ∀ c ∈ t, p c = true) :
    Uncommented t := by
  refine of_forall fun c hc => ?_
  have hmem : c ∉ ['\'', '"', '`', '/'] := fun hmem => absurd ((hp c hmem).symm.trans (ht c hc)) (by decide)
  simpa [isPlainCode] using hmem

theorem keyword (ht : Uncommented t) (w : String) (hw : ∀ c ∈ w.toList, isPlainCode c = true) :
    Uncommented (w.toList ++ ' ' :: t) :=
  (of_forall hw).append (ht.cons (by decide))

end Uncommented

theorem quoted_uncommented (source : ModuleName) : Uncommented (quoted source) := by
  have htail : ∀ {t : List Char} rest, (∀ c ∈ t, isSpecifierChar c = true) →
      LiteralTail (fun c => c = '\'' ∨ (c = '\n' ∧ '\'' ≠ '`')) (t ++ ['\'']) rest := by
    intro t rest ht
    induction t with
    | nil => exact .closed (by decide) (.inl rfl)
    | cons c t ih =>
      obtain ⟨hc, ht⟩ := List.forall_mem_cons.mp ht
      refine .plain (ne_of_class hc (by decide)) ?_ (ih ht)
      rintro (rfl | ⟨rfl, -⟩) <;> exact absurd hc (by decide)
  exact fun rest => Comment.stripCurly_lexeme (.literal (.inl rfl) (htail rest source.parts))

theorem fromText_uncommented (source : ModuleName) : Uncommented (fromText source) :=
  ((quoted_uncommented source).keyword "from" (by decide)).cons (by decide)

theorem callText_uncommented (source : ModuleName) : Uncommented (callText source) :=
  ((quoted_uncommented source).append (.of_forall (by decide))).cons (by decide)

theorem Identifier.uncommented (n : Identifier) : Uncommented n.text :=
  .of_class (by decide) n.parts

theorem ItemList.uncommented (l : ItemList) : Uncommented l.braced :=
  ((Uncommented.of_class (by decide) l.listChars).append (.of_forall (by decide))).cons (by decide)

theorem RequireTarget.uncommented_lead (target : RequireTarget) : Uncommented target.lead := by
  have hequals : Uncommented " = ".toList := .of_forall (by decide)
  cases target with
  | nothing => exact .nil
  | whole n => exact (n.uncommented.append hequals).keyword "const" (by decide)
  | names l hl => exact (l.uncommented.append hequals).keyword "const" (by decide)

theorem Statement.uncommented (s : Statement) : Uncommented s.text := by
  cases s with
  | importEffect source => exact (quoted_uncommented source).keyword "import" (by decide)
  | importClause isType clause source =>
    have hclause : Uncommented (clause.text ++ fromText source) :=
      (Uncommented.of_class (by decide) clause.clauseChars).append (fromText_uncommented source)
    cases isType with
    | false => exact hclause.keyword "import" (by decide)
    | true => exact (hclause.keyword "type" (by decide)).keyword "import" (by decide)
  | require target source =>
    exact target.uncommented_lead.append (.append (.of_forall (by decide)) (callText_uncommented source))
  | importCall source =>
    exact Uncommented.keyword (.append (.of_forall (by decide)) (callText_uncommented source)) "await" (by decide)
  | declare d n =>
    have hbody : Uncommented d.body.toList := by cases d <;> exact .of_forall (by decide)
    have hkeyword : ∀ c ∈ d.keyword.toList, isPlainCode c = true := by cases d <;> decide
    exact ((n.uncommented.append hbody).keyword d.keyword hkeyword).keyword "export" (by decide)
  | exportDefault n => exact (n.uncommented.keyword "default" (by decide)).keyword "export" (by decide)
  | exportNames l hl source =>
    have hsource : Uncommented (source.elim [] fromText) := by
      cases source with
      | none => exact .nil
      | some source => exact fromText_uncommented source
    exact (l.uncommented.append hsource).keyword "export" (by decide)
  | exportStar name source =>
    have hname : Uncommented (name.elim [] fun n => " as ".toList ++ n.text) := by
      cases name with
      | none => exact .nil
      | some n => exact .append (.of_forall (by decide)) n.uncommented
    exact ((hname.append (fromText_uncommented source)).cons (by decide)).keyword "export" (by decide)

theorem stripCurly_written (ss : List Statement) : Comment.stripCurly (written ss) = written ss := by
  induction ss with
  | nil => rfl
  | cons s ss ih =>
    have hend : Uncommented [';', '\n'] := .of_forall (by decide)
    rw [written, List.flatMap_cons, s.uncommented.append hend, ← written, ih]

theorem dropMark_written (ss : List Statement) : Declarations.dropMark (written ss) = written ss := by
  cases ss with
  | nil => rfl
  | cons s ss =>
    obtain ⟨d, r, hs, -⟩ := s.exists_firstWord
    obtain ⟨c, cs, hw⟩ := List.exists_cons_of_ne_nil s.firstWord_ne_nil
    have hc : isIdentifierChar c = true := s.firstWord_isIdentifierChar c (by simp [hw])
    rw [written, List.flatMap_cons, hs, hw, List.cons_append, List.cons_append, List.cons_append, Declarations.dropMark,
      if_neg]
    exact ne_of_class hc (by decide)

end Comments

section Declared

/-- The declarations of a module, where `kind` gives the kind of an exported default from its identifier. -/
def declared (kind : Identifier → ExportKind) (ss : List Statement) : Declarations where
  imports := fromLine Statement.imports 1 ss
  exports := fromLine (Statement.exports kind) 1 ss
  errors := []

theorem ofSource_written (ss : List Statement) :
    Declarations.ofSource .curly (written ss) = declared defaultKind ss := by
  have himports : ∀ line s, Statement.imports line s ≠ [] → s.form ∈ importOrder := by
    intro line s hs
    cases s with
    | declare d n => exact absurd rfl hs
    | exportDefault n => exact absurd rfl hs
    | _ => simp [Statement.form, importOrder]
  have hexports : ∀ line s, Statement.exports defaultKind line s ≠ [] → s.form ∈ exportOrder := by
    intro line s hs
    cases s with
    | importEffect source => exact absurd rfl hs
    | importClause isType clause source => exact absurd rfl hs
    | require target source => exact absurd rfl hs
    | importCall source => exact absurd rfl hs
    | declare d n => cases d <;> simp [Statement.form, exportOrder, declaratorOrder]
    | _ => simp [Statement.form, exportOrder]
  rw [Declarations.ofSource, dropMark_written, extract, stripCurly_written, foundImports_written, foundExports_written,
    inSourceOrder_written ss _ (by decide) himports, inSourceOrder_written ss _ (by decide) hexports]
  exact congrArg₂ (Declarations.mk · · []) (flatMap_located Statement.imports ss [])
    (flatMap_located (Statement.exports defaultKind) ss [])

theorem Statement.length_exports (s : Statement) (kind kind' : Identifier → ExportKind) (line : Nat) :
    (s.exports kind line).length = (s.exports kind' line).length := by
  cases s with
  | exportNames l hl source => cases source <;> rfl
  | _ => rfl

theorem Statement.exports_eq_iff (s : Statement) {kind kind' : Identifier → ExportKind} {line : Nat} :
    s.exports kind line = s.exports kind' line ↔ ∀ n, s = .exportDefault n → kind n = kind' n := by
  cases s with
  | exportDefault n => simp [exports]
  | exportNames l hl source => cases source <;> simp [exports]
  | _ => simp [exports]

theorem fromLine_exports_eq_iff (ss : List Statement) {kind kind' : Identifier → ExportKind} {line : Nat} :
    fromLine (Statement.exports kind) line ss = fromLine (Statement.exports kind') line ss ↔
      ∀ n, .exportDefault n ∈ ss → kind n = kind' n := by
  induction ss generalizing line with
  | nil => simp [fromLine]
  | cons s ss ih =>
    have hcons : (∀ n, .exportDefault n ∈ s :: ss → kind n = kind' n) ↔
        (∀ n, s = .exportDefault n → kind n = kind' n) ∧ ∀ n, .exportDefault n ∈ ss → kind n = kind' n := by
      simp only [List.mem_cons, or_imp, forall_and, eq_comm]
    rw [hcons, ← ih, ← s.exports_eq_iff, fromLine, fromLine]
    constructor
    · intro h
      exact List.append_inj h (s.length_exports _ _ _)
    · rintro ⟨hs, hss⟩
      rw [hs, hss]

theorem defaultKind_eq_unknown_iff (n : Identifier) :
    defaultKind n = .unknown ↔ ¬ "function$".toList <+: n.text ∧ ¬ "class$".toList <+: n.text := by
  rw [← Text.startsWith_iff, ← Text.startsWith_iff]
  unfold defaultKind
  split
  · simp_all
  · split <;> simp_all

end Declared

/-- Statements written one after the other are read back without errors: the imports and exports of each, on the line
that it starts on, in the order of the statements. The kind of an exported default is unknown, as its identifier is not
looked up, exactly if the identifier does not start with `function` or `class` in front of a dollar sign. -/
theorem declarations_of_canonical_module (ss : List Statement) :
    Declarations.ofSource .curly (written ss) = declared defaultKind ss ∧
      (Declarations.ofSource .curly (written ss) = declared (fun _ => .unknown) ss ↔
        ∀ n, .exportDefault n ∈ ss → ¬ "function$".toList <+: n.text ∧ ¬ "class$".toList <+: n.text) := by
  refine ⟨ofSource_written ss, ?_⟩
  rw [ofSource_written, declared, declared, Declarations.mk.injEq]
  simp only [fromLine_exports_eq_iff, defaultKind_eq_unknown_iff, true_and, and_true]

def functionDollar : Identifier :=
  ⟨"function$".toList, by decide, by decide, by decide⟩

/-- An exported variable is taken for a function. -/
theorem exported_default_ne_of_dollar :
    let ss := [Statement.exportDefault functionDollar]
    written ss = "export default function$;\n".toList ∧
      Declarations.ofSource .curly (written ss) ≠ declared (fun _ => .unknown) ss := by
  decide +kernel

end ModuleGraph.Curly
