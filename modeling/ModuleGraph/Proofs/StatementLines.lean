import ModuleGraph.Proofs.SourceLines

namespace ModuleGraph

open Text (byteLength IsGap Stops)
open Pattern

namespace Pattern

section Parts

variable {place : Cursor} {s rest : List Char} {parts : List Part}

theorem ReadsParts.drop_first {p : Pattern} {ps : List Pattern} (h : (inOrder (p :: ps)).ReadsParts place s rest parts)
    (hp : p.slots = []) :
    ∃ u v, s = u ++ v ∧ p.Reads place.before u (v ++ rest) ∧
      (inOrder ps).ReadsParts (place.beyond u (v ++ rest)) v rest parts := by
  obtain ⟨u, v, xs, ys, hs, hparts, hu, hv⟩ := readsParts_inOrder_cons.mp h
  rw [hu.parts_eq_nil hp, List.append_nil] at hparts
  exact ⟨u, v, hs, hu.reads, hparts ▸ hv⟩

theorem ReadsParts.take_part {slot : Slot} {p : Pattern} {ps : List Pattern}
    (h : (inOrder (.part slot p :: ps)).ReadsParts place s rest parts) (hp : p.slots = []) :
    ∃ u v ys, s = u ++ v ∧ parts = ys ++ [Curly.partAt place slot [] u (v ++ rest)] ∧
      p.Reads place.before u (v ++ rest) ∧ (inOrder ps).ReadsParts (place.beyond u (v ++ rest)) v rest ys := by
  obtain ⟨u, v, _, ys, hs, hparts, ⟨xs, rfl, hu⟩, hv⟩ := readsParts_inOrder_cons.mp h
  rw [hu.parts_eq_nil hp] at hparts
  exact ⟨u, v, ys, hs, hparts, hu.reads, hv⟩

theorem ReadsParts.find?_part {slot : Slot} {p : Pattern} {ps : List Pattern}
    (h : (inOrder (.part slot p :: ps)).ReadsParts place s rest parts) (hp : p.slots = [])
    (hslot : slot ∉ (inOrder ps).slots) :
    ∃ u v, s = u ++ v ∧ p.Reads place.before u (v ++ rest) ∧
      parts.find? (·.slot = slot) = some (Curly.partAt place slot [] u (v ++ rest)) := by
  obtain ⟨u, v, ys, hs, rfl, hu, hv⟩ := h.take_part hp
  refine ⟨u, v, hs, hu, ?_⟩
  rw [hv.find?_append hslot]
  exact List.find?_cons_of_pos (decide_eq_true rfl)

end Parts

end Pattern

namespace Curly

section Heads

/-- What may lead up to a statement: the semicolon of the one before it, spaces and tabs. -/
def IsLead (lead : List Char) : Prop :=
  ∀ c ∈ lead, c = ';' ∨ c = ' ' ∨ c = '\t'

variable {place : Cursor} {s rest : List Char} {parts : List Part} {word : String}

theorem reads_lead {before : Option Char} {lead : List Char} (h : statementStart.Reads before lead rest) :
    IsLead lead := by
  obtain ⟨a, g, rfl, ha, hg⟩ := h
  refine List.forall_mem_append.mpr ⟨fun c hc => .inl ?_, fun c hc => .inr ?_⟩
  · rcases ha with ⟨rfl, -⟩ | ⟨d, rfl, hd⟩
    · cases hc
    · rw [List.mem_singleton.mp hc]
      exact beq_iff_eq.mp hd
  · simpa using (reads_run.mp hg).1 c hc

/-- Every reading of a pattern starts with a word, but for what leads up to it, and names the word as a keyword. -/
def StartsWord (p : Pattern) (word : String) : Prop :=
  ∀ place s rest parts, p.ReadsParts place s rest parts → ∃ lead v part, s = lead ++ (word.toList ++ v) ∧
    IsLead lead ∧ parts.find? (·.slot = .keyword) = some part ∧ part.first.offset = place.offset + byteLength lead

theorem startsWord_keyword (word : String) {ps : List Pattern} (h : Slot.keyword ∉ (inOrder ps).slots) :
    StartsWord (inOrder (statementStart :: .part .keyword (text word) :: ps)) word := by
  intro place s rest parts hreads
  obtain ⟨lead, _, rfl, hlead, hreads⟩ := hreads.drop_first (by decide)
  obtain ⟨w, v, rfl, hw, hfind⟩ := hreads.find?_part (slots_text word) h
  exact ⟨lead, v, _, by rw [reads_text.mp hw], reads_lead hlead, hfind, rfl⟩

theorem StartsWord.seq {p q : Pattern} (hp : StartsWord p word) (hq : Slot.keyword ∉ q.slots) :
    StartsWord (.seq p q) word := by
  rintro place _ rest _ ⟨u, v, xs, ys, rfl, rfl, hu, hv⟩
  obtain ⟨lead, w, part, rfl, hlead, hpart, hoffset⟩ := hp place u (v ++ rest) xs hu
  exact ⟨lead, w ++ v, part, by simp, hlead, (hv.find?_append hq).trans hpart, hoffset⟩

theorem startsWord_export {ps : List Pattern} (h : Slot.keyword ∉ (inOrder ps).slots) :
    StartsWord (inOrder (exportHead :: ps)) "export" :=
  StartsWord.seq (startsWord_keyword "export" (by decide)) h

theorem startsWord_clauseImport : StartsWord Form.clauseImport.pattern "import" :=
  startsWord_keyword "import" (by decide)

theorem startsWord_effectImport : StartsWord Form.effectImport.pattern "import" :=
  startsWord_keyword "import" (by decide)

theorem startsWord_exportNames : StartsWord Form.exportNames.pattern "export" :=
  startsWord_export (by decide)

theorem startsWord_exportStar : StartsWord Form.exportStar.pattern "export" :=
  startsWord_export (by decide)

end Heads

section Calls

variable {place : Cursor} {s rest : List Char} {parts : List Part}

/-- A module specifier as it stands between quotes. -/
def IsSource (w : List Char) : Prop :=
  w ≠ [] ∧ ∀ c ∈ w, Text.isQuote c = false ∧ c ≠ '\n'

theorem readsParts_quotedSource (h : quotedSource.ReadsParts place s rest parts) :
    ∃ q w q', s = q :: (w ++ [q']) ∧ Text.isQuote q = true ∧ Text.isQuote q' = true ∧ IsSource w ∧
      parts = [partAt place .source [q] w (q' :: rest)] := by
  obtain ⟨_, _, rfl, ⟨q, rfl, hq⟩, h⟩ := h.drop_first rfl
  obtain ⟨w, _, ys, rfl, rfl, hw, h⟩ := h.take_part rfl
  obtain ⟨_, _, rfl, ⟨q', rfl, hq'⟩, rfl, rfl⟩ := h.drop_first rfl
  obtain ⟨hne, hok, -⟩ := reads_run1.mp hw
  refine ⟨q, w, q', by simp, hq, hq', ⟨hne, fun c hc => by simpa using hok c hc⟩, ?_⟩
  simp [partAt, Cursor.beyond_beyond]

theorem readsParts_callOfSource (h : callOfSource.ReadsParts place s rest parts) :
    ∃ g g' q w v, s = g ++ '(' :: (g' ++ q :: (w ++ v)) ∧ IsGap g ∧ IsGap g' ∧ Text.isQuote q = true ∧
      parts = [partAt place .source (g ++ '(' :: (g' ++ [q])) w (v ++ rest)] := by
  obtain ⟨g, _, rfl, hg, h⟩ := h.drop_first rfl
  obtain ⟨_, _, rfl, ⟨c, rfl, hc⟩, h⟩ := h.drop_first rfl
  obtain ⟨g', _, rfl, hg', h⟩ := h.drop_first rfl
  obtain ⟨_, v, _, ys, rfl, rfl, hsource, hv⟩ := readsParts_inOrder_cons.mp h
  obtain ⟨q, w, q', rfl, hq, -, -, rfl⟩ := readsParts_quotedSource hsource
  obtain rfl : ys = [] := hv.parts_eq_nil rfl
  refine ⟨g, g', q, w, q' :: v, ?_, (reads_run.mp hg).1, (reads_run.mp hg').1, hq, ?_⟩
  · rw [beq_iff_eq.mp hc]
    simp
  · rw [beq_iff_eq.mp hc]
    simp [partAt, Cursor.beyond_beyond]

theorem readsParts_importCall (h : dynamicImport.ReadsParts place s rest parts) :
    ∃ x q v part, s = "import".toList ++ (x ++ q :: v) ∧ (∀ c ∈ x, Text.isQuote c = false) ∧ Text.isQuote q = true ∧
      parts.find? (·.slot = .source) = some part ∧
      part.first.offset = place.offset + byteLength ("import".toList ++ (x ++ [q])) := by
  obtain ⟨_, _, rfl, ⟨rfl, -⟩, h⟩ := h.drop_first rfl
  obtain ⟨_, _, rfl, himport, h⟩ := h.drop_first (by decide)
  obtain ⟨_, _, xs, _, rfl, rfl, hcall, rfl, rfl⟩ := readsParts_inOrder_cons.mp h
  obtain ⟨g, g', q, w, v, rfl, hg, hg', hq, rfl⟩ := readsParts_callOfSource hcall
  refine ⟨g ++ '(' :: g', q, w ++ v, _, ?_, ?_, hq, rfl, ?_⟩
  · rw [reads_text.mp himport]
    simp
  · refine List.forall_mem_append.mpr ⟨fun c hc => Text.not_isQuote_of_isBlank (hg c hc), ?_⟩
    exact List.forall_mem_cons.mpr ⟨by decide, fun c hc => Text.not_isQuote_of_isBlank (hg' c hc)⟩
  · rw [reads_text.mp himport]
    simp [Text.byteLength_append, byteLength]
    omega

theorem readsParts_requireCall (h : Curly.requireCall.ReadsParts place s rest parts) :
    parts.find? (·.slot = .binding) = none ∧ "require".toList <+: s ∨
      ∃ w ∈ ["const", "let", "var"], ∃ g v part, s = String.toList w ++ (g ++ v) ∧ IsGap g ∧ g ≠ [] ∧
        Stops Text.isBlank v ∧ parts.find? (·.slot = .binding) = some part ∧
        part.first.offset = place.offset + byteLength (w.toList ++ g) := by
  obtain ⟨_, v, xs, ys, rfl, rfl, hlead, hv⟩ := readsParts_inOrder_cons.mp h
  have hbinding : (ys ++ xs).find? (·.slot = .binding) = xs.find? (·.slot = .binding) := hv.find?_append (by decide)
  rw [hbinding]
  rcases hlead with hlead | ⟨rfl, rfl⟩
  · obtain ⟨w, _, rfl, hw, hlead⟩ := hlead.drop_first (by decide)
    obtain ⟨g, _, rfl, hg, hlead⟩ := hlead.drop_first rfl
    obtain ⟨b, t, rfl, hb, hfind⟩ := hlead.find?_part rfl (by decide)
    obtain ⟨hne, hgap, hstop⟩ := reads_run1.mp hg
    obtain ⟨word, hword, rfl⟩ : ∃ word ∈ ["const", "let", "var"], w = String.toList word := by
      rcases hw with hw | hw | hw
      · exact ⟨"const", by decide, reads_text.mp hw⟩
      · exact ⟨"let", by decide, reads_text.mp hw⟩
      · exact ⟨"var", by decide, reads_text.mp hw⟩
    refine .inr ⟨word, hword, g, b ++ t ++ v, _, by simp, hgap, hne, ?_, hfind, ?_⟩
    · rw [← List.append_assoc] at hstop
      exact hstop.of_append
    · simp [Text.byteLength_append, byteLength]
      omega
  · obtain ⟨_, _, rfl, ⟨rfl, -⟩, hv⟩ := hv.drop_first rfl
    obtain ⟨_, v, rfl, hword, -⟩ := hv.drop_first (by decide)
    refine .inl ⟨rfl, ?_⟩
    rw [reads_text.mp hword]
    exact List.prefix_append _ v

end Calls

section Statements

namespace Form

def firstWords : Form → List String
  | .requireCall => ["const", "let", "var", "require"]
  | .importCall => ["import"]
  | f => f.words

/-- What a statement starts with before the part that its line is taken from: the word of a declaration and the white
space behind it, or everything up to the specifier of an import call. -/
def delay : Form → List Char → List Char
  | .requireCall, s =>
    if Text.startsWith s "require".toList then []
    else Text.upTo Text.isBlank s ++ (s.dropWhile fun c => !Text.isBlank c).takeWhile Text.isBlank
  | .importCall, s => Text.upTo Text.isQuote s
  | _, _ => []

/-- A statement in a text that a match of a form takes up, but for what leads up to its first word. -/
structure Takes (f : Form) (text : List Char) (m : Match) (before statement after : List Char) : Prop where
  found : m ∈ f.pattern.matchesIn text
  text_eq : text = before ++ (statement ++ after)
  lead : ∃ u lead, before = u ++ lead ∧ m.start = byteLength u ∧ IsLead lead
  stop : m.stop = byteLength (before ++ statement)
  word : ∃ w ∈ f.firstWords, w.toList <+: statement

end Form

variable {text : List Char} {m : Match} {f : Form}

theorem startOf_of_find? {slot : Slot} {part : Part} (h : m.parts.find? (·.slot = slot) = some part) :
    m.startOf slot = part.first.offset := by
  rw [Match.startOf, Match.part?, h]

theorem startOf_of_none {slot : Slot} (h : m.parts.find? (·.slot = slot) = none) : m.startOf slot = m.start := by
  rw [Match.startOf, Match.part?, h]

variable (text m f) in
/-- A statement that a match of a form takes up, cut at the place that the form is found at. The place is as many lines
behind the start of the statement as the delay is long. -/
def TakesUpTo (before x y after : List Char) : Prop :=
  f.Takes text m before (x ++ y) after ∧ m.startOf f.slot = byteLength (before ++ x) ∧
    x.count '\n' = (f.delay (x ++ y)).count '\n'

theorem StartsWord.exists_takes {word : String} (hp : StartsWord f.pattern word) (hword : word ∈ f.firstWords)
    (hslot : f.slot = .keyword) (hdelay : ∀ s, f.delay s = []) (hm : m ∈ f.pattern.matchesIn text) :
    ∃ before x y after, TakesUpTo text m f before x y after := by
  obtain ⟨u, s, rest, htext, hcovers⟩ := exists_of_mem_matchesIn hm
  obtain ⟨lead, v, part, rfl, hlead, hfind, hoffset⟩ := hp _ _ _ _ hcovers.reads
  refine ⟨u ++ lead, [], word.toList ++ v, rest, ⟨hm, ?_, ⟨u, lead, rfl, hcovers.start, hlead⟩, ?_, ?_⟩, ?_, ?_⟩
  · rw [htext]
    simp
  · rw [hcovers.stop]
    simp
  · exact ⟨word, hword, List.prefix_append _ v⟩
  · rw [hslot, startOf_of_find? hfind, hoffset, List.append_nil, Text.byteLength_append]
    rfl
  · rw [hdelay]

theorem delay_of_declaration {word : String} (hword : word ∈ ["const", "let", "var"]) {g v : List Char} (hg : IsGap g)
    (hne : g ≠ []) (hv : Stops Text.isBlank v) :
    Form.requireCall.delay (word.toList ++ (g ++ v)) = word.toList ++ g := by
  obtain ⟨hrequire, hsolid⟩ : Text.startsWith (word.toList ++ (g ++ v)) "require".toList = false ∧
      ∀ c ∈ word.toList, (!Text.isBlank c) = true := by
    simp only [List.mem_cons, List.not_mem_nil, or_false] at hword
    rcases hword with rfl | rfl | rfl
    · exact ⟨rfl, by decide⟩
    · exact ⟨rfl, by decide⟩
    · exact ⟨rfl, by decide⟩
  obtain ⟨hstop, hdrop⟩ : Stops (fun c => !Text.isBlank c) (g ++ v) ∧
      (g ++ v).dropWhile (fun c => !Text.isBlank c) = g ++ v := by
    obtain ⟨c, g, rfl⟩ := List.exists_cons_of_ne_nil hne
    have hc : (!Text.isBlank c) = false := by rw [hg c List.mem_cons_self]; rfl
    exact ⟨Text.stops_cons.mpr hc, List.dropWhile_cons_of_neg (Bool.eq_false_iff.mp hc)⟩
  rw [Form.delay, if_neg (Bool.eq_false_iff.mp hrequire), Text.upTo, Text.takeWhile_eq hsolid hstop,
    List.dropWhile_append_of_pos hsolid, hdrop, Text.takeWhile_eq hg hv]

theorem exists_takes_requireCall (hm : m ∈ Form.requireCall.pattern.matchesIn text) :
    ∃ before x y after, TakesUpTo text m .requireCall before x y after := by
  obtain ⟨u, s, rest, htext, hcovers⟩ := exists_of_mem_matchesIn hm
  have hlead : ∃ u' lead, u = u' ++ lead ∧ m.start = byteLength u' ∧ IsLead lead :=
    ⟨u, [], by simp, hcovers.start, by simp [IsLead]⟩
  rcases readsParts_requireCall hcovers.reads with ⟨hfind, hrequire⟩ | ⟨w, hw, g, v, part, rfl, hg, hne, hv, hfind, hoffset⟩
  · refine ⟨u, [], s, rest, ⟨hm, htext, hlead, hcovers.stop, "require", by decide, hrequire⟩, ?_, ?_⟩
    · rw [List.append_nil]
      exact (startOf_of_none hfind).trans hcovers.start
    · rw [List.nil_append, Form.delay, if_pos (Text.startsWith_iff.mpr hrequire)]
  · refine ⟨u, w.toList ++ g, v, rest, ⟨hm, ?_, hlead, ?_, w, ?_, ?_⟩, ?_, ?_⟩
    · simpa using htext
    · simpa using hcovers.stop
    · exact List.mem_append_left ["require"] hw
    · exact ⟨g ++ v, by simp⟩
    · rw [Text.byteLength_append]
      exact (startOf_of_find? hfind).trans hoffset
    · rw [List.append_assoc, delay_of_declaration hw hg hne hv]

theorem exists_takes_importCall (hm : m ∈ Form.importCall.pattern.matchesIn text) :
    ∃ before x y after, TakesUpTo text m .importCall before x y after := by
  obtain ⟨u, s, rest, htext, hcovers⟩ := exists_of_mem_matchesIn hm
  obtain ⟨x, q, v, part, rfl, hx, hq, hfind, hoffset⟩ := readsParts_importCall hcovers.reads
  refine ⟨u, "import".toList ++ (x ++ [q]), v, rest, ⟨hm, ?_, ⟨u, [], by simp, hcovers.start, by simp [IsLead]⟩, ?_, ?_⟩,
    ?_, ?_⟩
  · simpa using htext
  · simpa using hcovers.stop
  · exact ⟨"import", by decide, x ++ [q] ++ v, by simp⟩
  · rw [Text.byteLength_append]
    exact (startOf_of_find? hfind).trans hoffset
  · have hplain : ∀ c ∈ "import".toList ++ x, (!Text.isQuote c) = true := by
      refine List.forall_mem_append.mpr ⟨by decide, fun c hc => ?_⟩
      rw [hx c hc]
      rfl
    have hdelay : Form.importCall.delay ("import".toList ++ (x ++ [q]) ++ v) = "import".toList ++ x := by
      have h := Text.takeWhile_eq hplain (Text.stops_quote hq v)
      simpa [Form.delay, Text.upTo] using h
    have hquote : q ≠ '\n' := Text.ne_of_class hq (by decide)
    rw [hdelay, ← List.append_assoc, List.count_append, List.count_singleton, if_neg (by simpa using hquote), Nat.add_zero]

theorem exists_takes (hf : f ∈ importForms) (hm : m ∈ f.pattern.matchesIn text) :
    ∃ before x y after, TakesUpTo text m f before x y after := by
  cases f with
  | clauseImport => exact startsWord_clauseImport.exists_takes (by decide) rfl (fun _ => rfl) hm
  | effectImport => exact startsWord_effectImport.exists_takes (by decide) rfl (fun _ => rfl) hm
  | requireCall => exact exists_takes_requireCall hm
  | importCall => exact exists_takes_importCall hm
  | exportNames => exact startsWord_exportNames.exists_takes (by decide) rfl (fun _ => rfl) hm
  | exportStar => exact startsWord_exportStar.exists_takes (by decide) rfl (fun _ => rfl) hm
  | _ => exact absurd hf (by simp [importForms])

theorem Form.firstWords_stop (f : Form) : ∀ w ∈ f.firstWords, ∃ c ∈ w.toList.head?, [';', ' ', '\t'].contains c = false := by
  cases f with
  | declaration d =>
    intro w hw
    obtain rfl : w = "export" := List.mem_singleton.mp hw
    decide
  | _ => decide

theorem Form.Takes.unique {before statement after before' statement' after' : List Char}
    (h : f.Takes text m before statement after) (h' : f.Takes text m before' statement' after') :
    before = before' ∧ statement = statement' := by
  obtain ⟨u, lead, rfl, hstart, hlead⟩ := h.lead
  obtain ⟨u', lead', rfl, hstart', hlead'⟩ := h'.lead
  have htext := h.text_eq.symm.trans h'.text_eq
  rw [List.append_assoc, List.append_assoc] at htext
  obtain ⟨rfl, htail⟩ := Text.append_inj_of_byteLength htext (hstart.symm.trans hstart')
  have hstop := h.stop.symm.trans h'.stop
  rw [List.append_assoc, List.append_assoc, Text.byteLength_append, Text.byteLength_append u] at hstop
  rw [← List.append_assoc, ← List.append_assoc lead'] at htail
  obtain ⟨hsame, -⟩ := Text.append_inj_of_byteLength htail (Nat.add_left_cancel hstop)
  have hword : ∀ {s}, (∃ w ∈ f.firstWords, w.toList <+: s) → Stops (fun c => [';', ' ', '\t'].contains c) s := by
    rintro s ⟨w, hw, t, rfl⟩
    obtain ⟨c, hc, hplain⟩ := f.firstWords_stop w hw
    intro d hd
    rw [List.head?_append, Option.mem_def.mp hc, Option.some_or, Option.mem_some] at hd
    exact hd ▸ hplain
  have hblank : ∀ {lead}, IsLead lead → ∀ c ∈ lead, [';', ' ', '\t'].contains c = true := by
    intro lead hlead c hc
    simpa using hlead c hc
  obtain ⟨rfl, rfl⟩ := Text.run_unique hsame (hblank hlead) (hword h.word) (hblank hlead') (hword h'.word)
  exact ⟨rfl, rfl⟩

theorem exists_foundImport {source : List Char} (hf : f ∈ importForms) (hm : m ∈ f.pattern.matchesIn text)
    (hsource : m.text? .source = some source) :
    ∃ x ∈ foundImports text, CollectedBy text f m x.item.line x.offset ∧ x.item.source = String.ofList source := by
  have htext : m.textOf .source = source := by rw [Match.textOf, hsource, Option.getD_some]
  subst htext
  simp only [foundImports, List.mem_append, or_assoc]
  cases f with
  | clauseImport => exact ⟨_, .inl (List.mem_map_of_mem hm), ⟨hm, rfl, rfl⟩, rfl⟩
  | effectImport => exact ⟨_, .inr (.inl (List.mem_map_of_mem hm)), ⟨hm, rfl, rfl⟩, rfl⟩
  | requireCall =>
    exact ⟨_, .inr (.inr (.inl (List.mem_map_of_mem hm))), ⟨hm, rfl, line_bindRequired _ _⟩, source_bindRequired _ _⟩
  | importCall => exact ⟨_, .inr (.inr (.inr (.inl (List.mem_map_of_mem hm)))), ⟨hm, rfl, rfl⟩, rfl⟩
  | exportNames =>
    refine ⟨listImport text m (m.textOf .source), .inr (.inr (.inr (.inr (.inl ?_)))), ⟨hm, rfl, rfl⟩, rfl⟩
    exact List.mem_filterMap.mpr ⟨m, hm, by rw [hsource, Option.map_some]⟩
  | exportStar => exact ⟨_, .inr (.inr (.inr (.inr (.inr (List.mem_map_of_mem hm))))), ⟨hm, rfl, rfl⟩, rfl⟩
  | _ => exact absurd hf (by simp [importForms])

theorem CollectedBy.line_of_takes {source before statement after : List Char} {line offset : Nat} (hf : f ∈ importForms)
    (h : CollectedBy (Comment.stripCurly source) f m line offset)
    (htakes : f.Takes (Comment.stripCurly source) m before statement after) :
    line = sourceLine source (byteLength before) + (f.delay statement).count '\n' := by
  obtain ⟨before', x, y, after', htakes', hstart, hcount⟩ := exists_takes hf h.found
  obtain ⟨rfl, rfl⟩ := htakes.unique htakes'
  have htext : Comment.stripCurly source = before ++ x ++ (y ++ after') := by simpa using htakes'.text_eq
  have hstrip : Comment.strip .curly source = before ++ (x ++ y ++ after) := htakes.text_eq
  rw [h.line_eq, h.offset_eq, hstart, htext, Text.lineAt_append, List.count_append, hcount, Comment.sourceLine_of_strip hstrip]
  omega

/-- An import is reported on the line that its statement starts on, and later by as many lines as there are line ends
between the word of a declaration and the binding of a required module, or between an import call and its specifier. Every
statement of an importing form with a source is reported so. -/
theorem import_line_iff (s : List Char) (source : String) (line : Nat) :
    (∃ i ∈ (Declarations.ofSource .curly s).imports, i.source = source ∧ i.line = line) ↔
      ∃ f ∈ importForms, ∃ m before statement after,
        f.Takes (Comment.stripCurly (Declarations.dropMark s)) m before statement after ∧
        m.text? .source = some source.toList ∧
        line = sourceLine (Declarations.dropMark s) (byteLength before) + (f.delay statement).count '\n' := by
  have hmem : ∀ i, i ∈ (Declarations.ofSource .curly s).imports ↔
      ∃ x ∈ foundImports (Comment.stripCurly (Declarations.dropMark s)), x.item = i := by
    intro i
    rw [← List.mem_map]
    exact (inSourceOrder_perm _).mem_iff
  constructor
  · rintro ⟨i, hi, rfl, rfl⟩
    obtain ⟨x, hx, rfl⟩ := (hmem i).mp hi
    obtain ⟨f, hf, m, hcollected, source, htext, hsource⟩ := mem_foundImports hx
    obtain ⟨before, x, y, after, htakes, -⟩ := exists_takes hf hcollected.found
    refine ⟨f, hf, m, before, x ++ y, after, htakes, ?_, hcollected.line_of_takes hf htakes⟩
    rw [htext, hsource, String.toList_ofList]
  · rintro ⟨f, hf, m, before, statement, after, htakes, htext, rfl⟩
    obtain ⟨x, hx, hcollected, hsource⟩ := exists_foundImport hf htakes.found htext
    refine ⟨x.item, (hmem _).mpr ⟨x, hx, rfl⟩, ?_, hcollected.line_of_takes hf htakes⟩
    rw [hsource, String.ofList_toList]

/-- Two statements on the first line whose imports are reported on the second one. -/
theorem import_line_ne_of_broken_statement :
    let call := "import(\n'./x')".toList
    let bound := "const\nx = require('./x')".toList
    (dynamicImport.matchesIn call).map (fun m => (m.start, m.text? .source)) = [(0, some "./x".toList)] ∧
      (Curly.requireCall.matchesIn bound).map (fun m => (m.start, m.text? .source)) = [(0, some "./x".toList)] ∧
      sourceLine call 0 = 1 ∧ sourceLine bound 0 = 1 ∧
      (Declarations.ofSource .curly call).imports.map (fun i => (i.source, i.line)) = [("./x", 2)] ∧
      (Declarations.ofSource .curly bound).imports.map (fun i => (i.source, i.line)) = [("./x", 2)] := by
  decide +kernel

end Statements

end Curly

end ModuleGraph
