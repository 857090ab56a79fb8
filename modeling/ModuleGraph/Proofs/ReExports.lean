import ModuleGraph.Proofs.ReExportSpelling

namespace ModuleGraph.Curly

open Text (byteLength IsGap Stops EndsSolid isBlank)

section Items

/-- The name that the words of an item start with, and the name that it has outside. -/
def innerAndOuter : List (List Char) → Option (List Char × List Char)
  | [] => none
  | inner :: mark :: outer :: _ => some (inner, if mark = "as".toList then outer else inner)
  | inner :: _ => some (inner, inner)

/-- What the words of an item of an export list name. The word `type` marks a type if another word follows it. -/
def Listed.ofWords (allTypes : Bool) : List (List Char) → Option Listed
  | mark :: word :: words =>
    if mark = "type".toList then (innerAndOuter (word :: words)).map fun n => ⟨n.1, n.2, true⟩
    else (innerAndOuter (mark :: word :: words)).map fun n => ⟨n.1, n.2, allTypes⟩
  | words => (innerAndOuter words).map fun n => ⟨n.1, n.2, allTypes⟩

/-- The name of an item, with the name that it has outside and whether it is a type. -/
def listedItem (allTypes : Bool) (item : List Char) : Listed :=
  ⟨Text.firstWord (stripTypeMark item).1, outerName (stripTypeMark item).1, allTypes || (stripTypeMark item).2⟩

theorem innerAndOuter_words {s w : List Char} {ws : List (List Char)} (h : Text.words s = w :: ws) :
    innerAndOuter (w :: ws) = some (Text.firstWord s, outerName s) := by
  have hfirst : Text.firstWord s = w := by rw [Text.firstWord, h, List.headD_cons]
  rw [outerName, hfirst, h]
  rcases ws with _ | ⟨mark, _ | ⟨outer, ws⟩⟩
  · rfl
  · rfl
  · rfl

section Trimmed

variable {w rest : List Char} (hw : ∀ c ∈ w, isBlank c = false) (hrest : ∀ c ∈ rest.head?, isBlank c = true)
include hw hrest

theorem stripTypeMark_of_ne (hne : w ≠ "type".toList) : stripTypeMark (w ++ rest) = (w ++ rest, false) := by
  unfold stripTypeMark
  split
  next c r hafter =>
    split
    next hc =>
      have hsplit := Text.after?_eq_some.mp hafter
      have hstop : Stops (fun c => !isBlank c) (c :: r) := Text.stops_cons.mpr (by simp [hc])
      have hstop' : Stops (fun c => !isBlank c) rest := fun d hd => by simp [hrest d hd]
      exact absurd (Text.run_unique hsplit (by simpa using hw) hstop' (by decide) hstop).1 hne
    next => rfl
  next => rfl

theorem ofWords_unmarked (allTypes : Bool) (hwne : w ≠ []) (hne : w ≠ "type".toList ∨ rest = []) :
    Listed.ofWords allTypes (Text.words (w ++ rest)) = some (listedItem allTypes (w ++ rest)) := by
  have hwords := Text.words_run hwne hw hrest
  have hstrip : stripTypeMark (w ++ rest) = (w ++ rest, false) := by
    rcases hne with hne | rfl
    · exact stripTypeMark_of_ne hw hrest hne
    · by_cases hmark : w = "type".toList
      · rw [hmark]
        rfl
      · exact stripTypeMark_of_ne hw hrest hmark
  have hnames := innerAndOuter_words hwords
  rw [listedItem, hstrip, Bool.or_false, hwords]
  cases hr : Text.words rest with
  | nil =>
    rw [hr] at hnames
    rw [Listed.ofWords, hnames, Option.map_some]
    intro mark word words h
    cases h
  | cons word words =>
    rw [hr] at hnames
    have hmark : w ≠ "type".toList := by
      rcases hne with hne | rfl
      · exact hne
      · cases hr
    rw [Listed.ofWords, if_neg hmark, hnames, Option.map_some]

end Trimmed

theorem ofWords_marked (allTypes : Bool) {c : Char} {rest : List Char} (hc : isBlank c = true)
    (hsolid : ¬IsGap (c :: rest)) :
    Listed.ofWords allTypes (Text.words ("type".toList ++ c :: rest)) =
      some (listedItem allTypes ("type".toList ++ c :: rest)) := by
  have hstrip : stripTypeMark ("type".toList ++ c :: rest) = (Text.trimStart (c :: rest), true) := by
    have hafter : Text.after? "type".toList ("type".toList ++ c :: rest) = some (c :: rest) := Text.after?_eq_some.mpr rfl
    unfold stripTypeMark
    rw [hafter]
    exact if_pos hc
  have hwords : Text.words ("type".toList ++ c :: rest) = "type".toList :: Text.words (c :: rest) :=
    Text.words_run (by decide) (by decide) fun d hd => Option.some.inj hd ▸ hc
  obtain ⟨word, words, hrest⟩ : ∃ word words, Text.words (c :: rest) = word :: words := by
    rw [← Text.words_trim]
    cases htrim : Text.trim (c :: rest) with
    | nil => exact absurd (Indent.isGap_iff_trim.mpr htrim) hsolid
    | cons d ds =>
      obtain ⟨w, ws, h⟩ := Text.words_cons (Text.head?_trim (c :: rest) d (by rw [htrim]; rfl)) ds
      exact ⟨_, ws, h⟩
  have hnames := innerAndOuter_words ((Text.words_trimStart (c :: rest)).trans hrest)
  rw [listedItem, hstrip, Bool.or_true, hwords, hrest, Listed.ofWords, if_pos rfl, hnames, Option.map_some]

theorem ofWords_trimmed {item : List Char} (allTypes : Bool) (hne : item ≠ []) (htrim : Text.Trimmed item) :
    Listed.ofWords allTypes (Text.words item) = some (listedItem allTypes item) := by
  obtain ⟨w, rest, rfl, hw, hstop, -⟩ := Text.exists_run (fun c => !isBlank c) item
  have hsolid : ∀ c ∈ w, isBlank c = false := fun c hc => by simpa using hw c hc
  have hblank : ∀ c ∈ rest.head?, isBlank c = true := fun c hc => by simpa using hstop c hc
  have hwne : w ≠ [] := by
    rintro rfl
    obtain ⟨c, cs, rfl⟩ := List.exists_cons_of_ne_nil hne
    have hc := htrim.1 c rfl
    rw [hblank c rfl] at hc
    cases hc
  by_cases hmark : w = "type".toList
  · cases rest with
    | nil => exact ofWords_unmarked hsolid hblank allTypes hwne (.inr rfl)
    | cons c rest =>
      rw [hmark]
      refine ofWords_marked allTypes (hblank c rfl) fun hgap => ?_
      have hlast : (c :: rest).getLast? = some _ := List.getLast?_eq_some_getLast (List.cons_ne_nil c rest)
      have hend := htrim.2 _ (by rw [List.getLast?_append, hlast]; rfl)
      rw [hgap _ (List.getLast_mem _)] at hend
      cases hend
  · exact ofWords_unmarked hsolid hblank allTypes hwne (.inl hmark)

theorem map_listedItem (allTypes : Bool) (list : List Char) :
    (Text.commaItems list).map (listedItem allTypes) = (Text.itemWords list).filterMap (Listed.ofWords allTypes) := by
  rw [Text.commaItems, Text.itemWords]
  induction Text.pieces (· == ',') list with
  | nil => rfl
  | cons x items ih =>
    rw [List.map_cons, List.map_cons, List.filterMap_cons, ← Text.words_trim x, ← ih]
    cases hx : Text.trim x with
    | nil => rfl
    | cons c cs =>
      have htrim : Text.Trimmed (c :: cs) := hx ▸ Text.trimmed_trim x
      rw [ofWords_trimmed allTypes (List.cons_ne_nil c cs) htrim]
      rfl

end Items

section Statements

open Pattern

variable {text : List Char} {p : Passing} {before : Option Char} {s t lead rest : List Char}

namespace Passing

def form (p : Passing) : Form :=
  match p.passed with
  | .star _ => .exportStar
  | .names _ _ => .exportNames

/-- A statement stands in a text, at a byte offset where a statement may start. -/
def StandsAt (p : Passing) (text : List Char) (offset : Nat) : Prop :=
  ∃ u lead t rest, text = u ++ (lead ++ (t ++ rest)) ∧ offset = byteLength (u ++ lead) ∧ LeadsUp u.getLast? lead ∧
    p.Spells t

end Passing

theorem LeadsUp.isLead (h : LeadsUp before lead) : IsLead lead := by
  obtain ⟨a, g, rfl, ha, hg⟩ := h
  refine List.forall_mem_append.mpr ⟨fun c hc => .inl ?_, fun c hc => .inr (hg c hc)⟩
  rcases ha with ⟨rfl, -⟩ | rfl
  · cases hc
  · exact List.mem_singleton.mp hc

theorem reads_exportHead {g : List Char} (hlead : LeadsUp before lead) (hg : IsSpace g) (hrest : Stops isBlank rest) :
    exportHead.Reads before (lead ++ ("export".toList ++ g)) rest := by
  refine ⟨lead, _, rfl, hlead.reads (Text.stops_cons.mpr (by decide)), "export".toList, g, rfl, reads_text.mpr rfl, ?_⟩
  exact ⟨g, [], (List.append_nil g).symm, reads_run1.mpr ⟨hg.2, hg.1, hrest⟩, rfl⟩

theorem SpellsName.reads {name : Option (List Char)} (h : SpellsName name s) :
    (optional (inOrder [blanks1, Pattern.text "as", blanks1, .part .name (eagerRun1 Text.isNameChar)])).Reads before s
      rest := by
  match name, h with
  | none, h => exact .inr h
  | some n, ⟨g, g', hs, hg, hg', hne, hn⟩ =>
    have has : ∀ v, Stops isBlank ("as".toList ++ v) := fun v => Text.stops_cons.mpr (by decide)
    refine .inl ⟨g, _, hs, reads_run1.mpr ⟨hg.2, hg.1, ?_⟩, "as".toList, _, rfl, reads_text.mpr rfl, ?_⟩
    · exact has _
    · refine ⟨g', n, rfl, reads_run1.mpr ⟨hg'.2, hg'.1, ((startsSolid_name hne hn).append rest).stops⟩, ?_⟩
      exact ⟨n, [], (List.append_nil n).symm, reads_eagerRun1.mpr ⟨hne, hn⟩, rfl⟩

theorem Passing.Spells.reads (h : p.Spells t) (hlead : LeadsUp before lead) :
    p.form.pattern.Reads before (lead ++ t) rest := by
  obtain ⟨g, x, f, rfl, hg, hx, hf⟩ := h
  have hsplit : lead ++ ("export".toList ++ (g ++ (x ++ f))) = lead ++ ("export".toList ++ g) ++ (x ++ f) := by simp
  have hhead : exportHead.Reads before (lead ++ ("export".toList ++ g)) (x ++ f ++ rest) :=
    reads_exportHead hlead hg ((hx.starts.append f).append rest).stops
  match p, hx, hf with
  | ⟨.star name, source⟩, ⟨a, hx, ha⟩, hf =>
    subst hx
    refine ⟨_, _, hsplit, hhead, ['*'], a ++ f, rfl, ⟨'*', rfl, rfl⟩, a, f, rfl, ha.reads, ?_⟩
    exact ⟨f, [], (List.append_nil f).symm, hf.reads, rfl⟩
  | ⟨.names areTypes list, source⟩, ⟨mark, hx, hlist, hmark⟩, hf =>
    subst hx
    refine ⟨_, _, hsplit, hhead, mark, '{' :: (list ++ ['}']) ++ f, by simp, ?_, '{' :: (list ++ ['}']), f, rfl, ?_, ?_⟩
    · cases areTypes with
      | true =>
        obtain ⟨g', rfl, hg'⟩ := hmark
        exact .inl ⟨_, g', rfl, reads_text.mpr rfl, reads_run1.mpr ⟨hg'.2, hg'.1, Text.stops_cons.mpr (by decide)⟩⟩
      | false => exact .inr hmark
    · have hrun : ∀ b, (run (· != '}')).Reads b list ('}' :: (f ++ rest)) := fun b =>
        reads_run.mpr ⟨unclosed hlist, stops_brace _⟩
      exact ⟨['{'], list ++ ['}'], rfl, ⟨'{', rfl, rfl⟩, list, ['}'], rfl, hrun none, ['}'], [], rfl, ⟨'}', rfl, rfl⟩, rfl⟩
    · exact ⟨f, [], (List.append_nil f).symm, .inl hf.reads, rfl⟩

theorem LeadsUp.unique {before' : Option Char} {lead' v v' : List Char} (h : LeadsUp before lead)
    (h' : LeadsUp before' lead') (heq : lead ++ ("export".toList ++ v) = lead' ++ ("export".toList ++ v')) :
    lead = lead' ∧ v = v' := by
  have hlead : ∀ {b lead}, LeadsUp b lead → ∀ c ∈ lead, [';', ' ', '\t'].contains c = true := by
    intro b lead h c hc
    simpa using h.isLead c hc
  have hstop : ∀ v, Stops (fun c => [';', ' ', '\t'].contains c) ("export".toList ++ v) := fun v =>
    Text.stops_cons.mpr (by decide)
  obtain ⟨rfl, hv⟩ := Text.run_unique heq (hlead h) (hstop v) (hlead h') (hstop v')
  exact ⟨rfl, List.append_cancel_left hv⟩

theorem Passing.StandsAt.unique {p' : Passing} {offset : Nat} (h : p.StandsAt text offset)
    (h' : p'.StandsAt text offset) : p = p' := by
  obtain ⟨u, lead, t, rest, htext, hoffset, -, hspells⟩ := h
  obtain ⟨u', lead', t', rest', htext', hoffset', -, hspells'⟩ := h'
  rw [← List.append_assoc] at htext htext'
  exact hspells.unique hspells' (Text.append_inj_of_byteLength (htext.symm.trans htext') (hoffset.symm.trans hoffset')).2

/-- The statements of a text that pass something on: export lists with a source, and stars. -/
def passings (text : List Char) : List (Found Passing) :=
  ((exportList.matchesIn text).filterMap fun m => (m.text? .source).map fun source =>
      ⟨m.startOf .keyword, .names (m.part? .typeMark).isSome (m.textOf .names), source⟩) ++
    (Curly.exportStar.matchesIn text).map fun m =>
      ⟨m.startOf .keyword, .star (m.text? .name), m.textOf .source⟩

theorem standsAt_of_exportList {m : Match} {source : List Char} (hm : m ∈ exportList.matchesIn text)
    (hsource : m.text? .source = some source) :
    Passing.StandsAt ⟨.names (m.part? .typeMark).isSome (m.textOf .names), source⟩ text (m.startOf .keyword) := by
  obtain ⟨u, v, htext, hmatch⟩ := exists_matchAt hm
  obtain ⟨lead, g, x, areTypes, list, after, rfl, hlead, hg, hx, hstart, hmark, hnames, hfrom⟩ := matchAt_exportList hmatch
  rcases hfrom with ⟨hnone, -⟩ | ⟨source', f, rest, rfl, hf, hsome⟩
  · rw [hnone] at hsource
    cases hsource
  · cases Option.some.inj (hsome.symm.trans hsource)
    rw [hmark, hnames, hstart]
    exact ⟨u, lead, "export".toList ++ (g ++ (x ++ f)), rest, by simp [htext], rfl, hlead, g, x, f, rfl, hg, hx, hf⟩

theorem standsAt_of_exportStar {m : Match} (hm : m ∈ Curly.exportStar.matchesIn text) :
    Passing.StandsAt ⟨.star (m.text? .name), m.textOf .source⟩ text (m.startOf .keyword) := by
  obtain ⟨u, v, htext, hmatch⟩ := exists_matchAt hm
  obtain ⟨lead, t, rest, name, source, rfl, hlead, hspells, hstart, hname, hsource⟩ := matchAt_exportStar hmatch
  rw [hname, hstart, Match.textOf, hsource, Option.getD_some]
  exact ⟨u, lead, t, rest, htext, rfl, hlead, hspells⟩

theorem standsAt_of_mem_passings {x : Found Passing} (hx : x ∈ passings text) : x.item.StandsAt text x.offset := by
  rcases List.mem_append.mp hx with hx | hx
  · obtain ⟨m, hm, hx⟩ := List.mem_filterMap.mp hx
    obtain ⟨source, hsource, rfl⟩ := Option.map_eq_some_iff.mp hx
    exact standsAt_of_exportList hm hsource
  · obtain ⟨m, hm, rfl⟩ := List.mem_map.mp hx
    exact standsAt_of_exportStar hm

theorem mem_passings_of_spells {u : List Char} (htext : text = u ++ (lead ++ (t ++ rest))) (hlead : LeadsUp u.getLast? lead)
    (h : p.Spells t) : ⟨byteLength (u ++ lead), p⟩ ∈ passings text ∨
      ∃ m ∈ p.form.pattern.matchesIn text, m.start < byteLength u ∧ byteLength u < m.stop := by
  have hreads : p.form.pattern.Reads u.getLast? (lead ++ t) rest := h.reads hlead
  obtain ⟨m, hm, hmatch | hcovered⟩ := exists_match_of_reads hreads
  · rw [List.append_assoc] at hm hmatch
    rw [← htext] at hm
    have hstands : p.StandsAt text (byteLength (u ++ lead)) := ⟨u, lead, t, rest, htext, rfl, hlead, h⟩
    obtain ⟨g, x, f, rfl, hg, hx, hf⟩ := h
    rw [List.append_assoc] at hmatch
    left
    match p, hx, hf with
    | ⟨.star name, source⟩, hx, hf =>
      obtain ⟨lead', t', rest', name', source', heq, hlead', ⟨g', x', f', rfl, -⟩, hstart, -⟩ := matchAt_exportStar hmatch
      rw [List.append_assoc] at heq
      obtain ⟨rfl, -⟩ := hlead.unique hlead' heq
      have hfound := standsAt_of_exportStar hm
      rw [hstart] at hfound
      refine List.mem_append_right _ (List.mem_map.mpr ⟨m, hm, ?_⟩)
      rw [hstart, hstands.unique hfound]
    | ⟨.names areTypes list, source⟩, hx, hf =>
      obtain ⟨lead', g', x', areTypes', list', after, heq, hlead', hg', hx', hstart, -, -, hfrom⟩ :=
        matchAt_exportList hmatch
      obtain ⟨rfl, hbehind⟩ := hlead.unique hlead' heq
      rw [List.append_assoc, List.append_assoc] at hbehind
      rcases hfrom with ⟨-, hnone⟩ | ⟨source', f', rest', -, -, hsource⟩
      · obtain ⟨-, hnames⟩ := Text.run_unique hbehind hg.1 (hx.starts.append _).stops hg'.1 (hx'.starts.append _).stops
        exact absurd hf (hnone _ f rest (names_unique hx hx' hnames).2.2.symm)
      · have hfound := standsAt_of_exportList hm hsource
        rw [hstart] at hfound
        refine List.mem_append_left _ (List.mem_filterMap.mpr ⟨m, hm, ?_⟩)
        rw [hsource, Option.map_some, hstart, hstands.unique hfound]
  · refine .inr ⟨m, ?_, hcovered⟩
    rwa [List.append_assoc, ← htext] at hm

theorem last_fromSource (h : fromSource.Reads before s rest) : ∃ y q, s = y ++ [q] ∧ Text.isQuote q = true := by
  obtain ⟨g, _, rfl, -, h⟩ := reads_inOrder_cons.mp h
  obtain ⟨w, _, rfl, -, h⟩ := reads_inOrder_cons.mp h
  obtain ⟨g', _, rfl, -, h⟩ := reads_inOrder_cons.mp h
  obtain ⟨_, _, rfl, h, rfl⟩ := reads_inOrder_cons.mp h
  obtain ⟨q, _, rfl, -, h⟩ := reads_inOrder_cons.mp h
  obtain ⟨source, _, rfl, -, h⟩ := reads_inOrder_cons.mp h
  obtain ⟨_, _, rfl, ⟨q', rfl, hq'⟩, rfl⟩ := reads_inOrder_cons.mp h
  exact ⟨g ++ (w ++ (g' ++ (q ++ source))), q', by simp, hq'⟩

/-- A statement ends with a brace or a quote, and so not within what leads up to another one. -/
theorem last_of_reads (h : p.form.pattern.Reads before s rest) : ∃ y c, s = y ++ [c] ∧ [';', ' ', '\t'].contains c = false := by
  have hquote : ∀ q, Text.isQuote q = true → [';', ' ', '\t'].contains q = false := by
    intro q hq
    rcases Bool.or_eq_true _ _ |>.mp hq with hq | hq <;> rw [beq_iff_eq.mp hq] <;> decide
  match p, h with
  | ⟨.star name, source⟩, h =>
    obtain ⟨x, _, rfl, -, h⟩ := reads_inOrder_cons.mp h
    obtain ⟨c, _, rfl, -, h⟩ := reads_inOrder_cons.mp h
    obtain ⟨a, _, rfl, -, h⟩ := reads_inOrder_cons.mp h
    obtain ⟨_, _, rfl, hfrom, rfl⟩ := reads_inOrder_cons.mp h
    obtain ⟨y, q, rfl, hq⟩ := last_fromSource hfrom
    exact ⟨x ++ (c ++ (a ++ y)), q, by simp, hquote q hq⟩
  | ⟨.names areTypes list, source⟩, h =>
    obtain ⟨x, _, rfl, -, h⟩ := reads_inOrder_cons.mp h
    obtain ⟨mark, _, rfl, -, h⟩ := reads_inOrder_cons.mp h
    obtain ⟨b, _, rfl, hbraced, h⟩ := reads_inOrder_cons.mp h
    obtain ⟨f, _, rfl, hfrom, rfl⟩ := reads_inOrder_cons.mp h
    rcases hfrom with hfrom | rfl
    · obtain ⟨y, q, rfl, hq⟩ := last_fromSource hfrom
      exact ⟨x ++ (mark ++ (b ++ y)), q, by simp, hquote q hq⟩
    · obtain ⟨o, _, rfl, -, h⟩ := reads_inOrder_cons.mp hbraced
      obtain ⟨l, _, rfl, -, h⟩ := reads_inOrder_cons.mp h
      obtain ⟨_, _, rfl, ⟨c, rfl, hc⟩, rfl⟩ := reads_inOrder_cons.mp h
      refine ⟨x ++ (mark ++ (o ++ l)), c, by simp, ?_⟩
      rw [beq_iff_eq.mp hc]
      decide

theorem lt_stop_of_lead {m : Match} {u v : List Char} (hm : m ∈ p.form.pattern.matchesIn text)
    (htext : text = u ++ (lead ++ v)) (hlead : IsLead lead) (hlt : byteLength u < m.stop) :
    byteLength (u ++ lead) < m.stop := by
  obtain ⟨u', s', rest', htext', hcovers⟩ := exists_of_mem_matchesIn hm
  obtain ⟨y, c, rfl, hc⟩ := last_of_reads hcovers.reads.reads
  rw [hcovers.stop] at hlt ⊢
  by_contra hle
  -- Both beginnings end within the text, so the shorter one starts the longer one.
  have hboth : u' ++ (y ++ [c]) ++ rest' = u ++ lead ++ v := by
    rw [List.append_assoc, ← htext', htext, List.append_assoc]
  obtain ⟨x, hx⟩ : ∃ x, u ++ lead = u' ++ (y ++ [c]) ++ x := by
    rcases List.append_eq_append_iff.mp hboth with ⟨x, hx, -⟩ | ⟨x, hx, -⟩
    · exact ⟨x, hx⟩
    · rw [hx, Text.byteLength_append (u ++ lead)] at hle
      cases x with
      | nil => exact ⟨[], by simpa using hx.symm⟩
      | cons d x => exact absurd (Nat.lt_add_of_pos_right (byteLength_pos_iff.mpr (List.cons_ne_nil d x))) hle
  rcases List.append_eq_append_iff.mp hx with ⟨z, hz, rfl⟩ | ⟨z, hz, -⟩
  · cases z using List.reverseRecOn with
    | nil =>
      rw [hz, List.append_nil] at hlt
      exact absurd hlt (Nat.lt_irrefl _)
    | append_singleton z d =>
      rw [← List.append_assoc, ← List.append_assoc] at hz
      obtain ⟨-, hd⟩ := List.append_inj' hz rfl
      obtain rfl := List.singleton_inj.mp hd
      have hmem := hlead c (by simp)
      rcases hmem with rfl | rfl | rfl <;> exact absurd hc (by decide)
  · rw [hz, Text.byteLength_append] at hlt
    exact absurd hlt (Nat.not_lt.mpr (Nat.le_add_right _ _))

theorem Passing.StandsAt.complete {offset : Nat} (h : p.StandsAt text offset) : ⟨offset, p⟩ ∈ passings text ∨
    ∃ m ∈ p.form.pattern.matchesIn text, m.start < offset ∧ offset < m.stop := by
  obtain ⟨u, lead, t, rest, htext, rfl, hlead, hspells⟩ := h
  rcases mem_passings_of_spells htext hlead hspells with hmem | ⟨m, hm, hstart, hstop⟩
  · exact .inl hmem
  · refine .inr ⟨m, hm, ?_, lt_stop_of_lead hm htext hlead.isLead hstop⟩
    rw [Text.byteLength_append]
    omega

theorem StartsWord.startOf_bounds {q : Pattern} {word : String} {m : Match} (hq : StartsWord q word)
    (hword : word.toList ≠ []) (hm : m ∈ q.matchesIn text) :
    m.start ≤ m.startOf .keyword ∧ m.startOf .keyword < m.stop := by
  obtain ⟨u, s, rest, -, hcovers⟩ := exists_of_mem_matchesIn hm
  obtain ⟨lead, v, part, rfl, -, hfind, hoffset⟩ := hq _ _ _ _ hcovers.reads
  have hpos := byteLength_pos_iff.mpr hword
  have hplace : (Cursor.after u (lead ++ (word.toList ++ v) ++ rest)).offset = byteLength u := rfl
  rw [startOf_of_find? hfind, hoffset, hplace, hcovers.start, hcovers.stop]
  simp only [Text.byteLength_append]
  omega

theorem StartsWord.pairwise_startOf {q : Pattern} {word : String} (hq : StartsWord q word) (hword : word.toList ≠ []) :
    (q.matchesIn text).Pairwise fun m m' => m.startOf .keyword ≠ m'.startOf .keyword := by
  refine matchesIn_pairwise.imp_of_mem fun {m m'} hm hm' hle => ?_
  have hbefore := hq.startOf_bounds hword hm
  have hbehind := hq.startOf_bounds hword hm'
  omega

theorem passings_pairwise : (passings text).Pairwise fun x y => x.offset ≠ y.offset := by
  refine List.pairwise_append.mpr ⟨?_, ?_, ?_⟩
  · refine List.pairwise_filterMap.mpr ((startsWord_exportNames.pairwise_startOf (by decide)).imp fun {m m'} hne => ?_)
    intro x hx y hy
    obtain ⟨-, -, rfl⟩ := Option.map_eq_some_iff.mp hx
    obtain ⟨-, -, rfl⟩ := Option.map_eq_some_iff.mp hy
    exact hne
  · exact List.pairwise_map.mpr (startsWord_exportStar.pairwise_startOf (by decide))
  · intro x hx y hy heq
    have hx' := standsAt_of_mem_passings (List.mem_append_left _ hx)
    have hy' := standsAt_of_mem_passings (List.mem_append_right _ hy)
    rw [heq] at hx'
    obtain ⟨m, -, hx⟩ := List.mem_filterMap.mp hx
    obtain ⟨source, -, rfl⟩ := Option.map_eq_some_iff.mp hx
    obtain ⟨m', -, rfl⟩ := List.mem_map.mp hy
    cases hx'.unique hy'

end Statements

section Records

variable {text : List Char}

namespace Passing

def isStar (p : Passing) : Bool :=
  match p.passed with
  | .star _ => true
  | .names _ _ => false

/-- What a statement names: the star, or what the words of its list say. -/
def listed (p : Passing) : List Listed :=
  match p.passed with
  | .star name => [⟨['*'], name.getD ['*'], false⟩]
  | .names areTypes list => (Text.itemWords list).filterMap (Listed.ofWords areTypes)

def imported (p : Passing) (line : Nat) : Import where
  source := String.ofList p.source
  origin := Specifier.origin .curly (String.ofList p.source)
  names := strings (p.listed.map (·.inner))
  hasDefault := (strings (p.listed.map (·.inner))).any (· == "default")
  hasNamespace := p.isStar
  isTypeOnly := !p.listed.isEmpty && p.listed.all (·.isType)
  line

/-- The exports of a statement that stands on a line, one for each name. -/
def exported (p : Passing) (line : Nat) : List Export :=
  p.listed.map fun n =>
    { Export.passedOn (String.ofList n.outer) (String.ofList p.source) line with isType := n.isType }

end Passing

def ownImports (text : List Char) : List (Found Import) :=
  staticImports text ++ sideEffectImports text ++ requireCalls text ++ dynamicImports text

theorem listedNames_eq_ofWords (m : Match) :
    listedNames m = (Text.itemWords (m.textOf .names)).filterMap (Listed.ofWords (m.part? .typeMark).isSome) :=
  map_listedItem _ _

theorem foundImports_eq (text : List Char) : foundImports text = ownImports text ++
    (passings text).map fun x => ⟨x.offset, x.item.imported (Text.lineAt text x.offset)⟩ := by
  have hlist : listImports text = ((exportList.matchesIn text).filterMap fun m => (m.text? .source).map fun source =>
      (⟨m.startOf .keyword, .names (m.part? .typeMark).isSome (m.textOf .names), source⟩ : Found Passing)).map
        fun x => ⟨x.offset, x.item.imported (Text.lineAt text x.offset)⟩ := by
    rw [List.map_filterMap]
    refine List.filterMap_congr fun m _ => ?_
    rw [Option.map_map]
    refine congrArg (Option.map · (m.text? .source)) (funext fun source => ?_)
    simp only [listImport, listedNames_eq_ofWords]
    rfl
  have hstar : starImports text = ((Curly.exportStar.matchesIn text).map fun m =>
      (⟨m.startOf .keyword, .star (m.text? .name), m.textOf .source⟩ : Found Passing)).map
        fun x => ⟨x.offset, x.item.imported (Text.lineAt text x.offset)⟩ := by
    rw [List.map_map]
    rfl
  rw [foundImports, passings, List.map_append, ← hlist, ← hstar, ownImports, List.append_assoc _ (listImports text)]

theorem isReExport_of_own {x : Found Export} (h : x ∈ defaultExports text ∨
      x ∈ declarationForms.flatMap (declaredExports text) ∨ x ∈ moduleAssignments text ∨ x ∈ propertyAssignments text) :
    x.item.isReExport = false := by
  rcases h with h | h | h | h
  · obtain ⟨m, -, rfl⟩ := List.mem_map.mp h
    rfl
  · obtain ⟨form, -, h⟩ := List.mem_flatMap.mp h
    obtain ⟨m, -, rfl⟩ := List.mem_map.mp h
    rfl
  · obtain ⟨m, -, h⟩ := List.mem_flatMap.mp h
    unfold assignedExports at h
    split at h
    · obtain ⟨key, -, rfl⟩ := List.mem_map.mp h
      rfl
    · cases List.mem_singleton.mp h
      rfl
  · obtain ⟨m, -, rfl⟩ := List.mem_map.mp h
    rfl

theorem filter_listExports (text : List Char) : (listExports text).filter (·.item.isReExport) =
    ((exportList.matchesIn text).filterMap fun m => (m.text? .source).map fun source =>
      (⟨m.startOf .keyword, .names (m.part? .typeMark).isSome (m.textOf .names), source⟩ : Found Passing)).flatMap
        fun x => (x.item.exported (Text.lineAt text x.offset)).map (⟨x.offset, ·⟩) := by
  rw [listExports, List.filter_flatMap, List.filterMap_eq_flatMap_toList, List.flatMap_assoc]
  refine List.flatMap_congr fun m _ => ?_
  rw [listedNames_eq_ofWords]
  cases m.text? .source with
  | none =>
    refine List.filter_eq_nil_iff.mpr fun x hx => ?_
    obtain ⟨n, -, rfl⟩ := List.mem_map.mp hx
    exact Bool.false_ne_true
  | some source =>
    have hall : ∀ x ∈ ((Text.itemWords (m.textOf .names)).filterMap (Listed.ofWords (m.part? .typeMark).isSome)).map
        (listedExport text (m.startOf .keyword) (some source)), x.item.isReExport = true := by
      intro x hx
      obtain ⟨n, -, rfl⟩ := List.mem_map.mp hx
      rfl
    rw [List.filter_eq_self.mpr hall, Option.map_some, Option.toList_some, List.flatMap_singleton, Passing.exported,
      List.map_map]
    rfl

theorem filter_starExports (text : List Char) : (starExports text).filter (·.item.isReExport) =
    ((Curly.exportStar.matchesIn text).map fun m =>
      (⟨m.startOf .keyword, .star (m.text? .name), m.textOf .source⟩ : Found Passing)).flatMap
        fun x => (x.item.exported (Text.lineAt text x.offset)).map (⟨x.offset, ·⟩) := by
  have hall : ∀ x ∈ starExports text, x.item.isReExport = true := by
    intro x hx
    obtain ⟨m, -, rfl⟩ := List.mem_map.mp hx
    rfl
  rw [List.filter_eq_self.mpr hall, starExports, List.map_eq_flatMap, List.flatMap_map]
  rfl

theorem filter_foundExports (text : List Char) : (foundExports text).filter (·.item.isReExport) =
    (passings text).flatMap fun x => (x.item.exported (Text.lineAt text x.offset)).map (⟨x.offset, ·⟩) := by
  have hown : ∀ {xs : List (Found Export)}, (∀ x ∈ xs, x.item.isReExport = false) →
      xs.filter (·.item.isReExport) = [] := fun h => List.filter_eq_nil_iff.mpr fun x hx => by simp [h x hx]
  have hdefault := hown fun x (hx : x ∈ defaultExports text) => isReExport_of_own (.inl hx)
  have hdeclared := hown fun x (hx : x ∈ declarationForms.flatMap (declaredExports text)) =>
    isReExport_of_own (.inr (.inl hx))
  have hmodule := hown fun x (hx : x ∈ moduleAssignments text) => isReExport_of_own (.inr (.inr (.inl hx)))
  have hproperty := hown fun x (hx : x ∈ propertyAssignments text) => isReExport_of_own (.inr (.inr (.inr hx)))
  rw [foundExports, passings, List.flatMap_append, ← filter_listExports, ← filter_starExports]
  simp only [List.filter_append, hdefault, hdeclared, hmodule, hproperty, List.nil_append, List.append_nil]

/-- The statements of a text that pass something on, with their offsets: each stands there in the text, no two stand at
one place, and one that is missing lies within an earlier match of its form. -/
structure FindsPassings (text : List Char) (found : List (Found Passing)) : Prop where
  stands : ∀ x ∈ found, x.item.StandsAt text x.offset
  distinct : found.Pairwise fun x y => x.offset ≠ y.offset
  complete : ∀ p offset, p.StandsAt text offset → ⟨offset, p⟩ ∈ found ∨
    ∃ m ∈ p.form.pattern.matchesIn text, m.start < offset ∧ offset < m.stop

theorem findsPassings (text : List Char) : FindsPassings text (passings text) where
  stands _ := standsAt_of_mem_passings
  distinct := passings_pairwise
  complete _ _ := Passing.StandsAt.complete

theorem Passing.StandsAt.lineAt_eq {p : Passing} {source : List Char} {offset : Nat}
    (h : p.StandsAt (Comment.stripCurly source) offset) :
    Text.lineAt (Comment.stripCurly source) offset = sourceLine source offset := by
  obtain ⟨u, lead, t, rest, htext, rfl, -⟩ := h
  rw [← List.append_assoc] at htext
  have hstrip : Comment.strip .curly source = u ++ lead ++ (t ++ rest) := htext
  rw [htext, Text.lineAt_append, Comment.sourceLine_of_strip hstrip]

section Lines

variable (source : List Char)

theorem imports_perm : (extract source).imports.Perm ((ownImports (Comment.stripCurly source)).map (·.item) ++
    (passings (Comment.stripCurly source)).map fun x => x.item.imported (sourceLine source x.offset)) := by
  refine (inSourceOrder_perm _).trans (List.Perm.of_eq ?_)
  rw [foundImports_eq, List.map_append, List.map_map]
  refine congrArg _ (List.map_congr_left fun x hx => ?_)
  rw [← (standsAt_of_mem_passings hx).lineAt_eq]
  rfl

theorem exports_perm : ((extract source).exports.filter (·.isReExport)).Perm
    ((passings (Comment.stripCurly source)).flatMap fun x => x.item.exported (sourceLine source x.offset)) := by
  refine ((inSourceOrder_perm _).filter _).trans (List.Perm.of_eq ?_)
  have hfilter := congrArg (List.map Found.item) (filter_foundExports (Comment.stripCurly source))
  rw [List.filter_map]
  refine hfilter.trans ?_
  rw [List.map_flatMap]
  refine List.flatMap_congr fun x hx => ?_
  rw [(standsAt_of_mem_passings hx).lineAt_eq, List.map_map]
  exact List.map_id _

theorem exported_sublist {x : Found Passing} (hx : x ∈ passings (Comment.stripCurly source)) :
    (x.item.exported (sourceLine source x.offset)).Sublist (extract source).exports := by
  set text := Comment.stripCurly source with htext
  set found : List (Found Export) := (x.item.exported (Text.lineAt text x.offset)).map (⟨x.offset, ·⟩) with hfound
  have hblock : found.Sublist (foundExports text) := by
    refine List.Sublist.trans ?_ (List.filter_sublist (p := (·.item.isReExport)))
    rw [filter_foundExports, List.flatMap]
    exact List.sublist_flatten_of_mem (List.mem_map_of_mem hx)
  -- They are found at one offset, so the sort keeps their order.
  have hoffset : ∀ y ∈ found, y.offset = x.offset := by
    intro y hy
    obtain ⟨e, -, rfl⟩ := List.mem_map.mp hy
    rfl
  have hsorted := (sublist_sortOn hblock hoffset).map Found.item
  have hitems : found.map Found.item = x.item.exported (sourceLine source x.offset) := by
    rw [hfound, List.map_map, (standsAt_of_mem_passings hx).lineAt_eq]
    exact List.map_id _
  rw [hitems] at hsorted
  exact hsorted

end Lines

/-- Whatever a module passes on, it imports: each statement that passes something on makes one import, of the star or of
the names of its list in their order, and one export for each name, with the same source and on the same line. -/
theorem reexports_are_imports (s : List Char) :
    ∃ found, FindsPassings (Comment.stripCurly (Declarations.dropMark s)) found ∧
      let source := Declarations.dropMark s
      let d := Declarations.ofSource .curly s
      d.imports.Perm ((ownImports (Comment.stripCurly source)).map (·.item) ++
        found.map fun x => x.item.imported (sourceLine source x.offset)) ∧
      (d.exports.filter (·.isReExport)).Perm (found.flatMap fun x => x.item.exported (sourceLine source x.offset)) ∧
      (∀ x ∈ found, (x.item.exported (sourceLine source x.offset)).Sublist d.exports) ∧
      ∀ e ∈ d.exports, e.isReExport = true → ∃ i ∈ d.imports, e.reExportSource = some i.source ∧ i.line = e.line := by
  refine ⟨_, findsPassings _, ?_⟩
  intro source d
  refine ⟨imports_perm source, exports_perm source, fun x => exported_sublist source, ?_⟩
  intro e he hre
  have hmem := (exports_perm source).subset (List.mem_filter.mpr ⟨he, hre⟩)
  obtain ⟨x, hx, hexported⟩ := List.mem_flatMap.mp hmem
  obtain ⟨n, -, rfl⟩ := List.mem_map.mp hexported
  have himport := List.mem_append_right ((ownImports (Comment.stripCurly source)).map (·.item)) (List.mem_map_of_mem
    (f := fun x : Found Passing => x.item.imported (sourceLine source x.offset)) hx)
  exact ⟨_, (imports_perm source).symm.subset himport, rfl, rfl⟩

end Records

end ModuleGraph.Curly
