import ModuleGraph.Proofs.StatementLines

namespace ModuleGraph.Curly

open Text (byteLength IsGap Stops EndsSolid isBlank)

section Spelling

/-- What an export statement passes on: everything, possibly under a name, or the names of a list, possibly marked as
types. -/
inductive Passed where
  | star (name : Option (List Char))
  | names (areTypes : Bool) (list : List Char)
  deriving DecidableEq, Repr

structure Passing where
  passed : Passed
  source : List Char
  deriving DecidableEq, Repr

def IsSpace (g : List Char) : Prop :=
  IsGap g ∧ g ≠ []

/-- The spellings of a name that everything is passed on under, with its word and the white space before both. -/
def SpellsName : Option (List Char) → List Char → Prop
  | none, a => a = []
  | some n, a => ∃ g g', a = g ++ ("as".toList ++ (g' ++ n)) ∧ IsSpace g ∧ IsSpace g' ∧ n ≠ [] ∧
      ∀ c ∈ n, Text.isNameChar c = true

def Passed.Spells : Passed → List Char → Prop
  | .star name, t => ∃ a, t = '*' :: a ∧ SpellsName name a
  | .names areTypes list, t => ∃ mark, t = mark ++ '{' :: (list ++ ['}']) ∧ '}' ∉ list ∧
      if areTypes then ∃ g, mark = "type".toList ++ g ∧ IsSpace g else mark = []

/-- The spellings of the module that something is passed on from. -/
def SpellsFrom (source t : List Char) : Prop :=
  ∃ g g' q q', t = g ++ ("from".toList ++ (g' ++ q :: (source ++ [q']))) ∧ IsGap g ∧ IsGap g' ∧
    Text.isQuote q = true ∧ Text.isQuote q' = true ∧ IsSource source

namespace Passing

/-- The spellings of an export statement that passes something on. -/
def Spells (p : Passing) (t : List Char) : Prop :=
  ∃ g h f, t = "export".toList ++ (g ++ (h ++ f)) ∧ IsSpace g ∧ p.passed.Spells h ∧ SpellsFrom p.source f

end Passing

theorem Passed.Spells.starts {p : Passed} {h : List Char} (hp : p.Spells h) : Text.StartsSolid h := by
  match p, hp with
  | .star name, ⟨a, hp, _⟩ => exact ⟨'*', a, hp, by decide⟩
  | .names true list, ⟨mark, hp, _, g, hmark, _⟩ => exact ⟨'t', _, by rw [hp, hmark]; rfl, by decide⟩
  | .names false list, ⟨mark, hp, _, hmark⟩ => exact ⟨'{', _, by rw [hp, hmark]; rfl, by decide⟩

section Unique

variable {t t' rest rest' : List Char}

theorem IsSource.unique {source source' v v' : List Char} {q q' : Char} (h : source ++ q :: v = source' ++ q' :: v')
    (hsource : IsSource source) (hq : Text.isQuote q = true) (hsource' : IsSource source')
    (hq' : Text.isQuote q' = true) : source = source' := by
  have hplain : ∀ {s}, IsSource s → ∀ c ∈ s, (!Text.isQuote c) = true := fun hs c hc => by simp [(hs.2 c hc).1]
  exact (Text.run_unique h (hplain hsource) (Text.stops_quote hq v) (hplain hsource') (Text.stops_quote hq' v')).1

theorem SpellsFrom.unique {source source' : List Char} (h : SpellsFrom source t) (h' : SpellsFrom source' t')
    (heq : t ++ rest = t' ++ rest') : source = source' := by
  obtain ⟨g, i, q, r, rfl, hg, hi, hq, hr, hsource⟩ := h
  obtain ⟨g', i', q', r', rfl, hg', hi', hq', hr', hsource'⟩ := h'
  have hfrom : ∀ v, Stops isBlank ("from".toList ++ v) := fun v => Text.stops_cons.mpr (by decide)
  have hquote : ∀ {q} v, Text.isQuote q = true → Stops isBlank (q :: v) := fun v hq =>
    Text.stops_cons.mpr (Text.isBlank_of_isQuote hq)
  simp only [List.append_assoc, List.cons_append] at heq
  obtain ⟨-, hword⟩ := Text.run_unique heq hg (hfrom _) hg' (hfrom _)
  have hspace := List.append_cancel_left hword
  obtain ⟨-, hstart⟩ := Text.run_unique hspace hi (hquote _ hq) hi' (hquote _ hq')
  exact IsSource.unique (List.cons.inj hstart).2 hsource hr hsource' hr'

theorem stops_brace (v : List Char) : Stops (· != '}') ('}' :: v) :=
  Text.stops_cons.mpr (by decide)

theorem unclosed {list : List Char} (h : '}' ∉ list) : ∀ c ∈ list, (c != '}') = true :=
  fun _ hc => bne_iff_ne.mpr fun heq => h (heq ▸ hc)

theorem names_unique {areTypes areTypes' : Bool} {list list' : List Char}
    (h : (Passed.names areTypes list).Spells t) (h' : (Passed.names areTypes' list').Spells t')
    (heq : t ++ rest = t' ++ rest') : areTypes = areTypes' ∧ list = list' ∧ rest = rest' := by
  obtain ⟨mark, rfl, hlist, hmark⟩ := h
  obtain ⟨mark', rfl, hlist', hmark'⟩ := h'
  simp only [List.append_assoc, List.cons_append, List.nil_append] at heq
  have hopen : ∀ v, Stops isBlank ('{' :: v) := fun v => Text.stops_cons.mpr (by decide)
  obtain ⟨rfl, hbrace⟩ : areTypes = areTypes' ∧ list ++ '}' :: rest = list' ++ '}' :: rest' := by
    match areTypes, areTypes', hmark, hmark' with
    | true, true, ⟨g, hg, hspace⟩, ⟨g', hg', hspace'⟩ =>
      rw [hg, hg', List.append_assoc, List.append_assoc] at heq
      have hgap := List.append_cancel_left heq
      exact ⟨rfl, (List.cons.inj (Text.run_unique hgap hspace.1 (hopen _) hspace'.1 (hopen _)).2).2⟩
    | true, false, ⟨g, hg, _⟩, hmark' =>
      rw [hg, hmark'] at heq
      exact absurd (List.cons.inj heq).1 (by decide)
    | false, true, hmark, ⟨g', hg', _⟩ =>
      rw [hmark, hg'] at heq
      exact absurd (List.cons.inj heq).1 (by decide)
    | false, false, hmark, hmark' =>
      rw [hmark, hmark'] at heq
      exact ⟨rfl, (List.cons.inj heq).2⟩
  obtain ⟨rfl, hrest⟩ := Text.run_unique hbrace (unclosed hlist) (stops_brace _) (unclosed hlist') (stops_brace _)
  exact ⟨rfl, rfl, (List.cons.inj hrest).2⟩

theorem names_not_star {areTypes : Bool} {list v w : List Char} (h : (Passed.names areTypes list).Spells t) :
    t ++ v ≠ '*' :: w := by
  obtain ⟨mark, rfl, -, hmark⟩ := h
  intro heq
  cases areTypes with
  | true =>
    obtain ⟨g, rfl, -⟩ := hmark
    exact absurd (List.cons.inj heq).1 (by decide)
  | false =>
    obtain rfl : mark = [] := hmark
    exact absurd (List.cons.inj heq).1 (by decide)

theorem startsSolid_name {n : List Char} (hne : n ≠ []) (hn : ∀ c ∈ n, Text.isNameChar c = true) :
    Text.StartsSolid n := by
  obtain ⟨c, cs, rfl⟩ := List.exists_cons_of_ne_nil hne
  exact ⟨c, cs, rfl, Text.isBlank_of_isNameChar (hn c List.mem_cons_self)⟩

theorem SpellsName.endsSolid {n a : List Char} (h : SpellsName (some n) a) : EndsSolid a := by
  obtain ⟨g, g', rfl, -, -, hne, hn⟩ := h
  have hend : EndsSolid n := Text.endsSolid_of_forall hne fun c hc => Text.isBlank_of_isNameChar (hn c hc)
  exact ((hend.append g').append "as".toList).append g

theorem SpellsName.not_isQuote {name : Option (List Char)} {a : List Char} (h : SpellsName name a) :
    ∀ c ∈ a, Text.isQuote c = false := by
  match name, h with
  | none, h =>
    rw [h]
    exact fun c hc => absurd hc List.not_mem_nil
  | some n, ⟨g, g', ha, hg, hg', _, hn⟩ =>
    have hname : ∀ c ∈ n, Text.isQuote c = false := fun c hc =>
      Text.not_isQuote_of_class (hn c hc) (by decide) (by decide)
    rw [ha]
    simp only [List.forall_mem_append]
    exact ⟨fun c hc => Text.not_isQuote_of_isBlank (hg.1 c hc), by decide,
      fun c hc => Text.not_isQuote_of_isBlank (hg'.1 c hc), hname⟩

theorem SpellsName.unique {name name' : Option (List Char)} {a a' g g' : List Char} (h : SpellsName name a)
    (h' : SpellsName name' a') (hg : IsGap g) (hg' : IsGap g') (heq : a ++ g = a' ++ g') : name = name' := by
  -- A name has a word before it that is not white space.
  have hnone : ∀ {n a g g'}, SpellsName (some n) a → IsGap g → a ++ g' ≠ g := by
    rintro n a g g' ⟨b, b', rfl, -⟩ hg rfl
    exact absurd (hg 'a' (by simp)) (by decide)
  match name, name', h, h' with
  | none, none, _, _ => rfl
  | none, some n, h, h' =>
    rw [show a = [] from h, List.nil_append] at heq
    exact absurd heq.symm (hnone h' hg)
  | some n, none, h, h' =>
    rw [show a' = [] from h', List.nil_append] at heq
    exact absurd heq (hnone h hg')
  | some n, some n', h, h' =>
    obtain ⟨haa, -⟩ := Text.gap_unique heq h.endsSolid hg h'.endsSolid hg'
    obtain ⟨b, i, ha, hb, hi, hne, hn⟩ := h
    obtain ⟨b', i', ha', hb', hi', hne', hn'⟩ := h'
    have has : ∀ v, Stops isBlank ("as".toList ++ v) := fun v => Text.stops_cons.mpr (by decide)
    rw [ha, ha'] at haa
    obtain ⟨-, hword⟩ := Text.run_unique haa hb.1 (has _) hb'.1 (has _)
    have hspace := List.append_cancel_left hword
    rw [(Text.run_unique hspace hi.1 (startsSolid_name hne hn).stops hi'.1 (startsSolid_name hne' hn').stops).2]

theorem star_unique {name name' : Option (List Char)} {source source' a a' f f' : List Char} (ha : SpellsName name a)
    (hf : SpellsFrom source f) (ha' : SpellsName name' a') (hf' : SpellsFrom source' f')
    (heq : a ++ (f ++ rest) = a' ++ (f' ++ rest')) : name = name' ∧ source = source' := by
  obtain ⟨g, i, q, r, rfl, hg, hi, hq, hr, hsource⟩ := hf
  obtain ⟨g', i', q', r', rfl, hg', hi', hq', hr', hsource'⟩ := hf'
  have hplain : ∀ {name a g i}, SpellsName name a → IsGap g → IsGap i →
      ∀ c ∈ a ++ (g ++ "from".toList) ++ i, (!Text.isQuote c) = true := by
    intro name a g i ha hg hi c hc
    simp only [List.mem_append] at hc
    rcases hc with (hc | hc | hc) | hc
    · simp [ha.not_isQuote c hc]
    · simp [Text.not_isQuote_of_isBlank (hg c hc)]
    · exact (by decide : ∀ c ∈ "from".toList, (!Text.isQuote c) = true) c hc
    · simp [Text.not_isQuote_of_isBlank (hi c hc)]
  have hsplit : a ++ (g ++ "from".toList) ++ i ++ q :: (source ++ r :: rest) =
      a' ++ (g' ++ "from".toList) ++ i' ++ q' :: (source' ++ r' :: rest') := by simpa using heq
  obtain ⟨hbefore, hbehind⟩ := Text.run_unique hsplit (hplain ha hg hi) (Text.stops_quote hq _)
    (hplain ha' hg' hi') (Text.stops_quote hq' _)
  have hfrom : EndsSolid "from".toList := Text.endsSolid_of_forall (by decide) (by decide)
  obtain ⟨hword, -⟩ := Text.gap_unique hbefore ((hfrom.append g).append a) hi ((hfrom.append g').append a') hi'
  rw [← List.append_assoc, ← List.append_assoc] at hword
  exact ⟨ha.unique ha' hg hg' (List.append_cancel_right hword),
    IsSource.unique (List.cons.inj hbehind).2 hsource hr hsource' hr'⟩

theorem Passing.Spells.unique {p p' : Passing} (h : p.Spells t) (h' : p'.Spells t') (heq : t ++ rest = t' ++ rest') :
    p = p' := by
  obtain ⟨g, x, f, rfl, hg, hx, hf⟩ := h
  obtain ⟨g', x', f', rfl, hg', hx', hf'⟩ := h'
  simp only [List.append_assoc] at heq
  have hgap := List.append_cancel_left heq
  obtain ⟨-, hbehind⟩ := Text.run_unique hgap hg.1 (hx.starts.append _).stops hg'.1 (hx'.starts.append _).stops
  match p, p', hx, hx', hf, hf' with
  | ⟨.star name, source⟩, ⟨.star name', source'⟩, ⟨a, hx, ha⟩, ⟨a', hx', ha'⟩, hf, hf' =>
    rw [hx, hx'] at hbehind
    obtain ⟨rfl, rfl⟩ := star_unique ha hf ha' hf' (List.cons.inj hbehind).2
    rfl
  | ⟨.names areTypes list, source⟩, ⟨.names areTypes' list', source'⟩, hx, hx', hf, hf' =>
    obtain ⟨rfl, rfl, hrest⟩ := names_unique hx hx' hbehind
    obtain rfl : source = source' := hf.unique hf' hrest
    rfl
  | ⟨.star name, source⟩, ⟨.names areTypes list, source'⟩, ⟨a, hx, _⟩, hx', _, _ =>
    rw [hx] at hbehind
    exact absurd hbehind.symm (names_not_star hx')
  | ⟨.names areTypes list, source⟩, ⟨.star name, source'⟩, hx, ⟨a, hx', _⟩, _, _ =>
    rw [hx'] at hbehind
    exact absurd hbehind (names_not_star hx)

end Unique

end Spelling

section Reading

open Pattern

variable {place : Cursor} {before : Option Char} {s lead rest : List Char} {parts : List Part}

/-- What leads up to a statement from a line start or from the semicolon of the statement before it. -/
def LeadsUp (before : Option Char) (lead : List Char) : Prop :=
  ∃ a g, lead = a ++ g ∧ (a = [] ∧ AtLineStart before ∨ a = [';']) ∧ ∀ c ∈ g, c = ' ' ∨ c = '\t'

theorem leadsUp_of_reads (h : statementStart.Reads before lead rest) : LeadsUp before lead := by
  obtain ⟨a, g, rfl, ha, hg⟩ := h
  refine ⟨a, g, rfl, ?_, fun c hc => by simpa using (reads_run.mp hg).1 c hc⟩
  rcases ha with ⟨rfl, ha⟩ | ⟨c, rfl, hc⟩
  · refine .inl ⟨rfl, ?_⟩
    cases before with
    | none => exact .inl rfl
    | some c => exact .inr (by simpa [Anchor.holds] using ha)
  · rw [beq_iff_eq.mp hc]
    exact .inr rfl

theorem LeadsUp.reads (h : LeadsUp before lead) (hrest : Stops (fun c => c == ' ' || c == '\t') rest) :
    statementStart.Reads before lead rest := by
  obtain ⟨a, g, rfl, ha, hg⟩ := h
  refine ⟨a, g, rfl, ?_, reads_run.mpr ⟨fun c hc => by simpa using hg c hc, hrest⟩⟩
  rcases ha with ⟨rfl, rfl | rfl⟩ | rfl
  · exact .inl ⟨rfl, rfl⟩
  · exact .inl ⟨rfl, rfl⟩
  · exact .inr ⟨';', rfl, rfl⟩

theorem readsParts_exportHead (h : exportHead.ReadsParts place s rest parts) :
    ∃ lead g, s = lead ++ ("export".toList ++ g) ∧ LeadsUp place.before lead ∧ IsSpace g ∧
      parts = [partAt place .keyword lead "export".toList (g ++ rest)] := by
  obtain ⟨lead, _, rfl, hlead, h⟩ := h.drop_first (by decide)
  obtain ⟨w, _, ys, rfl, rfl, hw, h⟩ := h.take_part (slots_text "export")
  obtain ⟨g, _, rfl, hg, rfl, rfl⟩ := h.drop_first rfl
  obtain ⟨hne, hgap, -⟩ := reads_run1.mp hg
  refine ⟨lead, g, by rw [reads_text.mp hw, List.append_nil], leadsUp_of_reads hlead, ⟨hgap, hne⟩, ?_⟩
  rw [reads_text.mp hw]
  simp [partAt, Cursor.beyond_beyond]

theorem readsParts_fromSource (h : fromSource.ReadsParts place s rest parts) :
    ∃ x source v, s = x ++ (source ++ v) ∧ SpellsFrom source s ∧ parts = [partAt place .source x source (v ++ rest)] := by
  obtain ⟨g, _, rfl, hg, h⟩ := h.drop_first rfl
  obtain ⟨w, _, rfl, hw, h⟩ := h.drop_first (by decide)
  obtain ⟨g', _, rfl, hg', h⟩ := h.drop_first rfl
  obtain ⟨_, _, xs, _, rfl, rfl, hsource, rfl, rfl⟩ := readsParts_inOrder_cons.mp h
  obtain ⟨q, source, q', rfl, hq, hq', hok, rfl⟩ := readsParts_quotedSource hsource
  have hw : w = "from".toList := reads_text.mp hw
  refine ⟨g ++ (w ++ (g' ++ [q])), source, [q'], by simp, ?_, by simp [partAt, Cursor.beyond_beyond]⟩
  exact ⟨g, g', q, q', by simp [hw], (reads_run.mp hg).1, (reads_run.mp hg').1, hq, hq', hok⟩

theorem SpellsFrom.reads {source : List Char} (h : SpellsFrom source s) : fromSource.Reads before s rest := by
  obtain ⟨g, g', q, q', rfl, hg, hg', hq, hq', hne, hok⟩ := h
  have hquote : ∀ v, Stops isBlank (q :: v) := fun v => Text.stops_cons.mpr (Text.isBlank_of_isQuote hq)
  have hplain : ∀ c ∈ source, (!Text.isQuote c && c != '\n') = true := fun c hc => by simp [hok c hc]
  have hstop : ∀ v, Stops (fun c => !Text.isQuote c && c != '\n') (q' :: v) := fun v =>
    Text.stops_cons.mpr (by simp [hq'])
  refine ⟨g, _, rfl, reads_run.mpr ⟨hg, Text.stops_cons.mpr (by decide)⟩, ?_⟩
  refine ⟨"from".toList, _, rfl, reads_text.mpr rfl, ?_⟩
  refine ⟨g', _, rfl, reads_run.mpr ⟨hg', hquote _⟩, ?_⟩
  refine ⟨q :: (source ++ [q']), [], by simp, ?_, rfl⟩
  refine ⟨[q], source ++ [q'], rfl, ⟨q, rfl, hq⟩, ?_⟩
  refine ⟨source, [q'], rfl, reads_run1.mpr ⟨hne, hplain, hstop _⟩, ?_⟩
  exact ⟨[q'], [], rfl, ⟨q', rfl, hq'⟩, rfl⟩

/-- The part of an export list that does not depend on what follows its closing brace. -/
def listHead : Pattern :=
  inOrder [exportHead, optional (.part .typeMark (keyword "type")), braced (.part .names)]

theorem readsParts_names (h : (braced (.part .names)).ReadsParts place s rest parts) :
    ∃ list, s = '{' :: (list ++ ['}']) ∧ '}' ∉ list ∧ parts = [partAt place .names ['{'] list ('}' :: rest)] := by
  obtain ⟨_, _, rfl, ⟨c, rfl, hc⟩, h⟩ := h.drop_first rfl
  obtain ⟨list, _, ys, rfl, rfl, hlist, h⟩ := h.take_part rfl
  obtain ⟨_, _, rfl, ⟨d, rfl, hd⟩, rfl, rfl⟩ := h.drop_first rfl
  rw [beq_iff_eq.mp hc, beq_iff_eq.mp hd]
  refine ⟨list, by simp, fun hmem => absurd ((reads_run.mp hlist).1 _ hmem) (by decide), ?_⟩
  simp [partAt, Cursor.beyond_beyond]

theorem readsParts_listHead (h : listHead.ReadsParts place s rest parts) :
    ∃ lead g x areTypes list, s = lead ++ ("export".toList ++ (g ++ x)) ∧ LeadsUp place.before lead ∧ IsSpace g ∧
      (Passed.names areTypes list).Spells x ∧ ∃ y marks v, marks.map (·.slot) = (if areTypes then [.typeMark] else []) ∧
        parts = partAt place .names y list v :: (marks ++ [partAt place .keyword lead "export".toList (g ++ x ++ rest)]) := by
  obtain ⟨_, v, _, ys, rfl, rfl, hhead, hv⟩ := readsParts_inOrder_cons.mp h
  obtain ⟨lead, g, rfl, hlead, hg, rfl⟩ := readsParts_exportHead hhead
  obtain ⟨mark, _, marks, _, rfl, rfl, hmark, hv⟩ := readsParts_inOrder_cons.mp hv
  obtain ⟨_, _, zs, _, rfl, rfl, hnames, rfl, rfl⟩ := readsParts_inOrder_cons.mp hv
  obtain ⟨list, rfl, hclose, rfl⟩ := readsParts_names hnames
  rcases hmark with ⟨ps, rfl, hmark⟩ | ⟨rfl, rfl⟩
  · obtain ⟨g', rfl, hgap, hne, -⟩ := reads_keyword hmark.reads
    refine ⟨lead, g, _, true, list, by simp, hlead, hg, ⟨_, rfl, hclose, g', rfl, hgap, hne⟩, ?_⟩
    rw [hmark.parts_eq_nil (by decide)]
    refine ⟨lead ++ ("export".toList ++ (g ++ ("type".toList ++ (g' ++ ['{'])))), [partAt place .typeMark
      (lead ++ ("export".toList ++ g)) ("type".toList ++ g') ('{' :: (list ++ '}' :: rest))], '}' :: rest, rfl, ?_⟩
    simp [partAt, Cursor.beyond_beyond]
  · refine ⟨lead, g, '{' :: (list ++ ['}']), false, list, by simp, hlead, hg, ⟨[], rfl, hclose, rfl⟩, ?_⟩
    exact ⟨lead ++ ("export".toList ++ (g ++ ['{'])), [], '}' :: rest, rfl, by simp [partAt, Cursor.beyond_beyond]⟩

section ListParts

variable {m : Match} {extra marks : List Part} {y list v word r : List Char} {areTypes : Bool}
  (hparts : m.parts = extra ++ (partAt place .names y list v :: (marks ++ [partAt place .keyword lead word r])))
  (hextra : ∀ part ∈ extra, part.slot = .source)
include hparts hextra

theorem part?_of_list {slot : Slot} (hslot : slot ≠ .source) : m.part? slot =
    (partAt place .names y list v :: (marks ++ [partAt place .keyword lead word r])).find? (·.slot = slot) := by
  have hnone : extra.find? (·.slot = slot) = none := by
    rw [List.find?_eq_none]
    intro part hpart heq
    exact hslot ((of_decide_eq_true heq).symm.trans (hextra part hpart))
  rw [Match.part?, hparts, List.find?_append, hnone, Option.none_or]

theorem parts_of_list (hmarks : marks.map (·.slot) = if areTypes then [.typeMark] else []) :
    m.startOf .keyword = place.offset + byteLength lead ∧ (m.part? .typeMark).isSome = areTypes ∧
      m.textOf .names = list ∧ m.part? .source = extra.find? (·.slot = .source) := by
  have hkeyword := part?_of_list hparts hextra (by decide : Slot.keyword ≠ .source)
  have hmark := part?_of_list hparts hextra (by decide : Slot.typeMark ≠ .source)
  have hnames := part?_of_list hparts hextra (by decide : Slot.names ≠ .source)
  rw [Match.startOf, Match.textOf, Match.text?, hkeyword, hmark, hnames, Match.part?, hparts, List.find?_append]
  cases areTypes with
  | true =>
    obtain ⟨mark, rfl, hslot⟩ := List.map_eq_singleton_iff.mp hmarks
    simp [hslot]
  | false =>
    obtain rfl := List.map_eq_nil_iff.mp hmarks
    simp

end ListParts

/-- A match of an export list, told from the text: it takes the module that the names are passed on from wherever one is
spelled behind the list. -/
theorem matchAt_exportList {u v : List Char} {m : Match} (h : exportList.matchAt (.after u v) = some m) :
    ∃ lead g x areTypes list after, v = lead ++ ("export".toList ++ (g ++ (x ++ after))) ∧ LeadsUp u.getLast? lead ∧
      IsSpace g ∧ (Passed.names areTypes list).Spells x ∧ m.startOf .keyword = byteLength (u ++ lead) ∧
      (m.part? .typeMark).isSome = areTypes ∧ m.textOf .names = list ∧
      (m.text? .source = none ∧ (∀ source f rest, after = f ++ rest → ¬SpellsFrom source f) ∨
        ∃ source f rest, after = f ++ rest ∧ SpellsFrom source f ∧ m.text? .source = some source) := by
  have hread : listHead.read ((optional fromSource).read fun r => some ⟨byteLength u, r.place.offset, r.parts⟩)
      ⟨.after u v, []⟩ = some m := h
  obtain ⟨s, after, parts, hv, hparts, hnext⟩ := read_parts _ _ _ hread
  have hv : v = s ++ after := hv
  subst hv
  obtain ⟨lead, g, x, areTypes, list, rfl, hlead, hg, hx, y, marks, w, hmarks, rfl⟩ := readsParts_listHead hparts
  refine ⟨lead, g, x, areTypes, list, after, by simp, hlead, hg, hx, ?_⟩
  rw [Text.byteLength_append]
  -- The source is read whenever it can be: the match ends at the closing brace only if none is spelled there.
  rcases read_optional_cases (fun _ => rfl) hnext with hfrom | ⟨hunread, hm⟩
  · obtain ⟨f, rest, extra, hafter, hparts', hm⟩ := read_parts _ _ _ hfrom
    obtain ⟨z, source, w', rfl, hspells, rfl⟩ := readsParts_fromSource hparts'
    have hmparts := congrArg Match.parts (Option.some.inj hm)
    dsimp only at hmparts
    rw [List.append_nil] at hmparts
    obtain ⟨hkeyword, hmark, hnames, hsource⟩ := parts_of_list hmparts.symm (by simp) hmarks
    refine ⟨hkeyword, hmark, hnames, .inr ⟨source, _, rest, hafter, hspells, ?_⟩⟩
    rw [Match.text?, hsource]
    simp
  · have hmparts := congrArg Match.parts (Option.some.inj hm)
    dsimp only at hmparts
    rw [List.append_nil, ← List.nil_append (_ :: _)] at hmparts
    obtain ⟨hkeyword, hmark, hnames, hsource⟩ := parts_of_list hmparts.symm (by simp) hmarks
    refine ⟨hkeyword, hmark, hnames, .inl ⟨?_, fun source f rest hafter hspells => ?_⟩⟩
    · rw [Match.text?, hsource]
      rfl
    · exact hunread f rest hafter hspells.reads

theorem reads_eagerRun1 {ok : Char → Bool} :
    (eagerRun1 ok).Reads before s rest ↔ s ≠ [] ∧ ∀ c ∈ s, ok c = true := by
  constructor
  · rintro ⟨_, v, rfl, ⟨c, rfl, hc⟩, hmany⟩
    have hall : ∀ {before v rest}, Repeats (fun before s rest => (Pattern.one ok).Reads before s rest) before v rest →
        ∀ c ∈ v, ok c = true := by
      intro before v rest h
      induction h with
      | done => exact fun c hc => absurd hc List.not_mem_nil
      | more hs _ ih =>
        obtain ⟨c, rfl, hc⟩ := hs
        exact List.forall_mem_cons.mpr ⟨hc, ih⟩
    exact ⟨List.cons_ne_nil c v, List.forall_mem_cons.mpr ⟨hc, hall hmany⟩⟩
  · rintro ⟨hne, hok⟩
    obtain ⟨c, v, rfl⟩ := List.exists_cons_of_ne_nil hne
    obtain ⟨hc, hv⟩ := List.forall_mem_cons.mp hok
    refine ⟨[c], v, rfl, ⟨c, rfl, hc⟩, ?_⟩
    have hmany : ∀ {v before}, (∀ c ∈ v, ok c = true) →
        Repeats (fun before s rest => (Pattern.one ok).Reads before s rest) before v rest := by
      intro v
      induction v with
      | nil => exact fun _ => .done
      | cons c v ih =>
        intro before hv
        obtain ⟨hc, hv⟩ := List.forall_mem_cons.mp hv
        exact @Repeats.more _ before [c] v rest ⟨c, rfl, hc⟩ (ih hv)
    exact hmany hv

theorem readsParts_starName (h : (optional (inOrder [blanks1, Pattern.text "as", blanks1,
      .part .name (eagerRun1 Text.isNameChar)])).ReadsParts place s rest parts) :
    ∃ name, SpellsName name s ∧ parts.map (fun p => (p.slot, p.first.textTo p.last)) =
      name.toList.map fun n => (Slot.name, n) := by
  rcases h with h | ⟨rfl, rfl⟩
  · obtain ⟨g, _, rfl, hg, h⟩ := h.drop_first rfl
    obtain ⟨w, _, rfl, hw, h⟩ := h.drop_first (by decide)
    obtain ⟨g', _, rfl, hg', h⟩ := h.drop_first rfl
    obtain ⟨n, _, ys, rfl, rfl, hn, rfl, rfl⟩ := h.take_part rfl
    obtain ⟨hne, hgap, -⟩ := reads_run1.mp hg
    obtain ⟨hne', hgap', -⟩ := reads_run1.mp hg'
    refine ⟨some n, ⟨g, g', ?_, ⟨hgap, hne⟩, ⟨hgap', hne'⟩, reads_eagerRun1.mp hn⟩, by simp⟩
    rw [reads_text.mp hw, List.append_nil]
  · exact ⟨none, rfl, rfl⟩

theorem readsParts_exportStar (h : exportStar.ReadsParts place s rest parts) :
    ∃ lead t name source, s = lead ++ t ∧ LeadsUp place.before lead ∧ Passing.Spells ⟨.star name, source⟩ t ∧
      ∃ y v names z, names.map (fun p => (p.slot, p.first.textTo p.last)) = name.toList.map (fun n => (Slot.name, n)) ∧
        parts = partAt place .source y source v :: (names ++ [partAt place .keyword lead "export".toList z]) := by
  obtain ⟨_, v, _, ys, rfl, rfl, hhead, hv⟩ := readsParts_inOrder_cons.mp h
  obtain ⟨lead, g, rfl, hlead, hg, rfl⟩ := readsParts_exportHead hhead
  obtain ⟨_, _, rfl, ⟨c, rfl, hc⟩, hv⟩ := hv.drop_first rfl
  obtain ⟨a, _, names, _, rfl, rfl, ha, hv⟩ := readsParts_inOrder_cons.mp hv
  obtain ⟨_, _, zs, _, rfl, rfl, hfrom, rfl, rfl⟩ := readsParts_inOrder_cons.mp hv
  obtain ⟨name, hname, hnames⟩ := readsParts_starName ha
  obtain ⟨x, source, w, rfl, hsource, rfl⟩ := readsParts_fromSource hfrom
  rw [beq_iff_eq.mp hc]
  refine ⟨lead, _, name, source, ?_, hlead, ⟨g, '*' :: a, _, rfl, hg, ⟨a, rfl, hname⟩, hsource⟩, ?_⟩
  · simp
  · refine ⟨lead ++ ("export".toList ++ (g ++ '*' :: (a ++ x))), w ++ rest, names,
      g ++ '*' :: (a ++ (x ++ (source ++ (w ++ rest)))), hnames, ?_⟩
    simp [partAt, Cursor.beyond_beyond]

theorem matchAt_exportStar {u v : List Char} {m : Match} (h : Curly.exportStar.matchAt (.after u v) = some m) :
    ∃ lead t rest name source, v = lead ++ (t ++ rest) ∧ LeadsUp u.getLast? lead ∧
      Passing.Spells ⟨.star name, source⟩ t ∧ m.startOf .keyword = byteLength (u ++ lead) ∧ m.text? .name = name ∧
      m.text? .source = some source := by
  obtain ⟨s, rest, rfl, hcovers⟩ := exists_covers h
  obtain ⟨lead, t, name, source, rfl, hlead, hspells, y, w, names, z, hnames, hparts⟩ :=
    readsParts_exportStar hcovers.reads
  refine ⟨lead, t, rest, name, source, by simp, hlead, hspells, ?_⟩
  rw [Match.startOf, Match.text?, Match.text?, Match.part?, Match.part?, Match.part?, hparts, Text.byteLength_append]
  cases name with
  | none =>
    obtain rfl := List.map_eq_nil_iff.mp hnames
    simp
    rfl
  | some n =>
    obtain ⟨part, rfl, hpart⟩ := List.map_eq_singleton_iff.mp hnames
    obtain ⟨hslot, htext⟩ := Prod.mk.inj hpart
    simp [hslot, htext]
    rfl

end Reading

end ModuleGraph.Curly
