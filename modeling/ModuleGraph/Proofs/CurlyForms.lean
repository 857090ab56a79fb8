import ModuleGraph.Proofs.CurlySilence

namespace ModuleGraph.Curly

open Text (isAsciiWord ne_of_class Gap IsGap Stops byteLength)
open Pattern

/-- What is known of a match: where a part of it starts, and the texts of its parts, latest first. -/
structure Sighting where
  offset : Nat
  texts : List (Slot × List Char)
  deriving DecidableEq, Repr

def seen (slot : Slot) (m : Match) : Sighting :=
  ⟨m.startOf slot, m.parts.map fun p => (p.slot, p.first.textTo p.last)⟩

def Form.slot : Form → Slot
  | .requireCall => .binding
  | .importCall => .source
  | _ => .keyword

def partAt (place : Cursor) (slot : Slot) (u w rest : List Char) : Part :=
  ⟨slot, place.beyond u (w ++ rest), place.beyond (u ++ w) rest⟩

@[simp] theorem partAt_slot (place : Cursor) (slot : Slot) (u w rest : List Char) :
    (partAt place slot u w rest).slot = slot := rfl

@[simp] theorem partAt_text (place : Cursor) (slot : Slot) (u w rest : List Char) :
    (partAt place slot u w rest).first.textTo (partAt place slot u w rest).last = w :=
  Cursor.textTo_beyond _ _ _ _ _ _

@[simp] theorem partAt_offset (place : Cursor) (slot : Slot) (u w rest : List Char) :
    (partAt place slot u w rest).first.offset = place.offset + byteLength u := rfl

section Parts

variable {β : Type} {next : Reading → Option β} {ok : β → Prop} {place : Cursor} {u w rest : List Char}
  {parts : List Part}

theorem read_part_eq {slot : Slot} {p : Pattern}
    (h : ∀ next : Reading → Option β, p.read next ⟨place.beyond u (w ++ rest), parts⟩ =
      next ⟨place.beyond (u ++ w) rest, parts⟩) :
    (Pattern.part slot p).read next ⟨place.beyond u (w ++ rest), parts⟩ =
      next ⟨place.beyond (u ++ w) rest, partAt place slot u w rest :: parts⟩ :=
  h _

theorem read_name (n : Identifier) (slot : Slot) (hrest : Stops Text.isNameChar rest) :
    (name slot).read next ⟨place.beyond u (n.text ++ rest), parts⟩ =
      next ⟨place.beyond (u ++ n.text) rest, partAt place slot u n.text rest :: parts⟩ :=
  read_part_eq fun _ => read_run1 n.text_ne_nil n.isNameChar hrest

theorem read_keyword_space (kw : String) (hrest : Stops Text.isBlank rest) :
    (keyword kw).read next ⟨place.beyond u (kw.toList ++ ' ' :: rest), parts⟩ =
      next ⟨place.beyond (u ++ kw.toList ++ [' ']) rest, parts⟩ := by
  rw [keyword, read_seq, read_text, read_blanks1_space hrest]

def sourcePart (place : Cursor) (u : List Char) (source : ModuleName) (rest : List Char) : Part :=
  partAt place .source (u ++ ['\'']) source.text ('\'' :: rest)

theorem read_quotedSource (source : ModuleName) :
    quotedSource.read next ⟨place.beyond u (quoted source ++ rest), parts⟩ =
      next ⟨place.beyond (u ++ quoted source) rest, sourcePart place u source rest :: parts⟩ := by
  have hparts : ∀ c ∈ source.text, (!Text.isQuote c && c != '\n') = true := by
    intro c hc
    have hsingle : c ≠ '\'' := ne_of_class (source.parts c hc) (by decide)
    have hdouble : c ≠ '"' := ne_of_class (source.parts c hc) (by decide)
    have hline : c ≠ '\n' := ne_of_class (source.parts c hc) (by decide)
    simp [Text.isQuote, hsingle, hdouble, hline]
  have hstop : Stops (fun c => !Text.isQuote c && c != '\n') ('\'' :: rest) := Text.stops_cons.mpr (by decide)
  have htext : quoted source ++ rest = '\'' :: (source.text ++ '\'' :: rest) := by
    simp only [quoted, List.cons_append, List.append_assoc, List.nil_append]
  rw [htext, quotedSource, read_inOrder_cons, read_one (by decide), read_inOrder_cons,
    read_part_eq fun _ => read_run1 source.nonempty hparts hstop, read_inOrder_cons, read_one (by decide),
    read_inOrder_nil]
  simp only [quoted, sourcePart, List.append_assoc, List.cons_append, List.nil_append]

theorem stops_quoted (source : ModuleName) (rest : List Char) : Stops Text.isBlank (quoted source ++ rest) :=
  Text.stops_cons.mpr (by decide)

theorem read_fromSource (source : ModuleName) :
    fromSource.read next ⟨place.beyond u (fromText source ++ rest), parts⟩ =
      next ⟨place.beyond (u ++ fromText source) rest,
        sourcePart place (u ++ ' ' :: ("from".toList ++ [' '])) source rest :: parts⟩ := by
  have hfrom : Stops Text.isBlank ("from".toList ++ ' ' :: (quoted source ++ rest)) := Text.stops_cons.mpr (by decide)
  have htext : fromText source ++ rest = ' ' :: ("from".toList ++ ' ' :: (quoted source ++ rest)) := by
    simp only [fromText, List.cons_append, List.append_assoc]
  rw [htext, fromSource, read_inOrder_cons, read_blanks_space hfrom, read_inOrder_cons, read_text, read_inOrder_cons,
    read_blanks_space (stops_quoted source rest), read_inOrder_cons, read_quotedSource, read_inOrder_nil]
  simp only [fromText, List.append_assoc, List.cons_append, List.nil_append]

theorem read_callOfSource (source : ModuleName) :
    callOfSource.read next ⟨place.beyond u (callText source ++ rest), parts⟩ =
      next ⟨place.beyond (u ++ callText source) rest, sourcePart place (u ++ ['(']) source (')' :: rest) :: parts⟩ := by
  have hopen : Stops Text.isBlank ('(' :: (quoted source ++ ')' :: rest)) := Text.stops_cons.mpr (by decide)
  have hclose : Stops Text.isBlank (')' :: rest) := Text.stops_cons.mpr (by decide)
  have htext : callText source ++ rest = '(' :: (quoted source ++ ')' :: rest) := by
    simp only [callText, List.cons_append, List.append_assoc, List.nil_append]
  rw [htext, callOfSource, read_inOrder_cons, read_blanks_none hopen, read_inOrder_cons, read_char, read_inOrder_cons,
    read_blanks_none (stops_quoted source _), read_inOrder_cons, read_quotedSource, read_inOrder_cons,
    read_blanks_none hclose, read_inOrder_cons, read_char, read_inOrder_nil]
  simp only [callText, List.append_assoc, List.cons_append, List.nil_append]

theorem exists_read_statementStart (hline : AtLineStart place.before)
    (hrest : Stops (fun c => c == ' ' || c == '\t') rest)
    (h : ∃ x, next ⟨place.beyond [] rest, parts⟩ = some x ∧ ok x) :
    ∃ x, statementStart.read next ⟨place.beyond [] rest, parts⟩ = some x ∧ ok x := by
  have hanchor : Anchor.lineStart.holds (place.beyond [] rest) = true := by
    rcases hline with hline | hline <;> simp [Anchor.holds, Cursor.beyond, hline]
  refine exists_read_either ?_
  have hrun := @read_run β next place [] [] rest parts (fun c => c == ' ' || c == '\t') (by simp) hrest
  rw [Pattern.read, if_pos hanchor]
  obtain ⟨x, hx, hok⟩ := h
  exact ⟨x, hrun.trans hx, hok⟩

def keywordPart (place : Cursor) (kw : String) (rest : List Char) : Part :=
  partAt place .keyword [] kw.toList rest

theorem read_keywordPart (kw : String) :
    (Pattern.part .keyword (text kw)).read next ⟨place.beyond [] (kw.toList ++ rest), parts⟩ =
      next ⟨place.beyond kw.toList rest, keywordPart place kw rest :: parts⟩ :=
  read_part_eq fun _ => read_text kw

theorem exists_read_exportHead (hline : AtLineStart place.before) (hrest : Stops Text.isBlank rest)
    (h : ∃ x, next ⟨place.beyond ("export".toList ++ [' ']) rest, [keywordPart place "export" (' ' :: rest)]⟩ = some x ∧
      ok x) :
    ∃ x, exportHead.read next ⟨place.beyond [] ("export".toList ++ ' ' :: rest), []⟩ = some x ∧ ok x := by
  have hword : Stops (fun c => c == ' ' || c == '\t') ("export".toList ++ ' ' :: rest) :=
    Text.stops_cons.mpr (by decide)
  rw [exportHead, read_inOrder_cons]
  refine exists_read_statementStart hline hword ?_
  rw [read_inOrder_cons, read_keywordPart, read_inOrder_cons, read_blanks1_space hrest, read_inOrder_nil]
  exact h

theorem read_eq_none_of_clash {p : Pattern} {openers : List String} (hp : p.Opens openers) {mark : String}
    (h : ∀ w ∈ openers, Clash w mark) : p.read next ⟨place.beyond u (mark.toList ++ rest), parts⟩ = none := by
  exact read_eq_none (hp.unread fun w hw => (h w hw).not_prefix_append rest)

theorem read_optionalKeyword_none (kw : String) {mark : String} (h : Clash kw mark) :
    (optional (keyword kw)).read next ⟨place.beyond u (mark.toList ++ rest), parts⟩ =
      next ⟨place.beyond u (mark.toList ++ rest), parts⟩ :=
  read_optional_of_none (read_eq_none_of_clash (opens_keyword kw) (by simpa using h))

end Parts

section Statements

/-- The keyword that an exported default is taken to start with: a word ends before a dollar sign. -/
def defaultSubject (n : Identifier) : Option String :=
  if Text.startsWith n.text "function$".toList then some "function"
  else if Text.startsWith n.text "class$".toList then some "class"
  else none

namespace Statement

def texts : Statement → List (Slot × List Char)
  | .importEffect source => [(.source, source.text), (.keyword, "import".toList)]
  | .importClause false clause source => [(.source, source.text), (.clause, clause.text), (.keyword, "import".toList)]
  | .importClause true clause source =>
    [(.source, source.text), (.clause, clause.text), (.typeMark, "type ".toList), (.keyword, "import".toList)]
  | .require .nothing source => [(.source, source.text)]
  | .require target source => [(.source, source.text), (.binding, target.text)]
  | .importCall source => [(.source, source.text)]
  | .declare _ n => [(.name, n.text), (.keyword, "export".toList)]
  | .exportDefault n => (defaultSubject n).toList.map (fun w => (.subject, w.toList)) ++ [(.keyword, "export".toList)]
  | .exportNames l _ source =>
    source.toList.map (fun s => (.source, s.text)) ++ [(.names, l.text), (.keyword, "export".toList)]
  | .exportStar name source =>
    (.source, source.text) :: (name.toList.map (fun n => (.name, n.text)) ++ [(.keyword, "export".toList)])

/-- What stands before the place that a statement is sorted by. -/
def before : Statement → List Char
  | .require .nothing _ => []
  | .require _ _ => "const ".toList
  | .importCall _ => "await import('".toList
  | _ => []

end Statement

variable {place : Cursor} {rest : List Char}

/-- A pattern is read at a place, within some text, as what is seen of a match. -/
def SeenAt (p : Pattern) (place : Cursor) (slot : Slot) (text : List Char) (sight : Sighting) : Prop :=
  ∃ m, p.matchAt place = some m ∧ m.stop ≤ place.offset + byteLength text ∧ seen slot m = sight

theorem seen_keyword {kw : String} {t : List Char} {start stop : Nat} {parts : List Part}
    (hparts : ∀ p ∈ parts, p.slot ≠ .keyword) :
    seen .keyword ⟨start, stop, parts ++ [keywordPart place kw t]⟩ =
      ⟨place.offset, parts.map (fun p => (p.slot, p.first.textTo p.last)) ++ [(.keyword, kw.toList)]⟩ := by
  have hfind : (⟨start, stop, parts ++ [keywordPart place kw t]⟩ : Match).part? .keyword =
      some (keywordPart place kw t) := by
    rw [Match.part?, List.find?_append, List.find?_eq_none.mpr (by simpa using hparts)]
    rfl
  rw [seen, Match.startOf, hfind]
  simp [keywordPart, byteLength]

theorem seenAt_export {ps : List Pattern} {body text u r : List Char} {texts : List (Slot × List Char)}
    (hline : AtLineStart place.before)
    (hplace : place.rest = "export".toList ++ ' ' :: body) (hbody : Stops Text.isBlank body) (parts : List Part)
    (hslots : ∀ p ∈ parts, p.slot ≠ .keyword)
    (hread : (inOrder ps).read (fun r => some (⟨place.offset, r.place.offset, r.parts⟩ : Match))
        ⟨place.beyond ("export".toList ++ [' ']) body, [keywordPart place "export" (' ' :: body)]⟩ =
      some ⟨place.offset, (place.beyond u r).offset, parts ++ [keywordPart place "export" (' ' :: body)]⟩)
    (hu : u <+: text)
    (htexts : parts.map (fun p => (p.slot, p.first.textTo p.last)) ++ [(.keyword, "export".toList)] = texts) :
    SeenAt (inOrder (exportHead :: ps)) place .keyword text ⟨place.offset, texts⟩ := by
  have hmatch := @exists_read_exportHead _ _ (fun m => m = _) _ _ hline hbody ⟨_, hread, rfl⟩
  rw [← hplace] at hmatch
  obtain ⟨m, hm, rfl⟩ := hmatch
  subst htexts
  exact ⟨_, hm, Nat.add_le_add_left (Text.byteLength_mono hu) _, seen_keyword hslots⟩

theorem read_constKeyword {β : Type} {next : Reading → Option β} {u : List Char} {parts : List Part} :
    (oneOf (text "const") [text "let", text "var"]).read next ⟨place.beyond u ("const".toList ++ rest), parts⟩ =
      next ⟨place.beyond (u ++ "const".toList) rest, parts⟩ := by
  have hother : (Pattern.either (text "let") (text "var")).read next ⟨place.beyond u ("const".toList ++ rest), parts⟩ =
      none :=
    read_eq_none_of_clash ((opens_text "let").either (opens_text "var")) (by decide)
  exact (read_either_of_right_none hother).trans (read_text "const")

theorem Declarator.exists_tail (d : Declarator) (n : Identifier) : ∃ ps, d.pattern = inOrder (exportHead :: ps) ∧
    ∀ {β : Type} (next : Reading → Option β) (place : Cursor) (u rest : List Char) (parts : List Part),
      (inOrder ps).read next ⟨place.beyond u (d.keyword.toList ++ ' ' :: (n.text ++ rest)), parts⟩ =
        (name .name).read next ⟨place.beyond (u ++ d.keyword.toList ++ [' ']) (n.text ++ rest), parts⟩ := by
  have hstop : ∀ rest, Stops Text.isBlank (n.text ++ rest) := fun rest => (n.startsSolid.append rest).stops
  cases d with
  | constant =>
    refine ⟨_, rfl, fun next place u rest parts => ?_⟩
    rw [keyword, read_inOrder_cons, declareMark, read_optionalKeyword_none "declare" (by decide), read_inOrder_cons,
      read_constKeyword, read_inOrder_cons, read_blanks1_space (hstop rest)]
    rfl
  | function =>
    refine ⟨_, rfl, fun {β} next place u rest parts => ?_⟩
    have hstar : ∀ (next : Reading → Option β) u, (Pattern.one (· == '*')).read next
        ⟨place.beyond u (n.text ++ rest), parts⟩ = none := by
      intro next u
      obtain ⟨c, cs, hn, hc⟩ := n.exists_cons
      have hopens : (Pattern.one (· == '*')).Opens ["*"] := opens_char (by decide)
      rw [hn]
      exact read_eq_none (hopens.unread_cons (by simpa using (ne_of_class hc (by decide)).symm))
    rw [keyword, read_inOrder_cons, declareMark, read_optionalKeyword_none "declare" (by decide), read_inOrder_cons,
      read_optionalKeyword_none "async" (by decide), read_inOrder_cons, read_text, read_inOrder_cons,
      read_blanks_space (hstop rest), read_inOrder_cons, read_optional_of_none (hstar _ _), read_inOrder_cons,
      read_blanks_none (hstop rest)]
    rfl
  | classDefinition =>
    refine ⟨_, rfl, fun next place u rest parts => ?_⟩
    rw [keyword, read_inOrder_cons, declareMark, read_optionalKeyword_none "declare" (by decide), read_inOrder_cons,
      read_optionalKeyword_none "abstract" (by decide), read_inOrder_cons, read_keyword_space "class" (hstop rest)]
    rfl
  | type =>
    refine ⟨_, rfl, fun next place u rest parts => ?_⟩
    rw [keyword, read_inOrder_cons, declareMark, read_optionalKeyword_none "declare" (by decide), read_inOrder_cons,
      read_keyword_space "type" (hstop rest)]
    rfl
  | interface =>
    refine ⟨_, rfl, fun next place u rest parts => ?_⟩
    rw [keyword, read_inOrder_cons, declareMark, read_optionalKeyword_none "declare" (by decide), read_inOrder_cons,
      read_keyword_space "interface" (hstop rest)]
    rfl
  | enum =>
    refine ⟨_, rfl, fun next place u rest parts => ?_⟩
    rw [keyword, read_inOrder_cons, declareMark, read_optionalKeyword_none "declare" (by decide), read_inOrder_cons,
      read_optionalKeyword_none "const" (by decide), read_inOrder_cons, read_keyword_space "enum" (hstop rest)]
    rfl

theorem seenAt_declare (d : Declarator) (n : Identifier) (hline : AtLineStart place.before)
    (hplace : place.rest = (Statement.declare d n).text ++ rest) :
    SeenAt d.pattern place .keyword (Statement.declare d n).text ⟨place.offset, (Statement.declare d n).texts⟩ := by
  have hafter : Stops Text.isNameChar (d.body.toList ++ rest) := by cases d <;> exact Text.stops_cons.mpr (by decide)
  have hkeyword : Stops Text.isBlank (d.keyword.toList ++ ' ' :: (n.text ++ (d.body.toList ++ rest))) := by
    cases d <;> exact Text.stops_cons.mpr (by decide)
  rw [Statement.text_declare, List.append_assoc, List.cons_append, List.append_assoc, List.cons_append,
    List.append_assoc] at hplace
  obtain ⟨ps, hps, hread⟩ := d.exists_tail n
  rw [hps]
  refine seenAt_export hline hplace hkeyword [_] ?_ ((hread _ _ _ _ _).trans (read_name n .name hafter)) ?_ ?_
  · simp
  · exact ⟨d.body.toList, by simp [Statement.text_declare]⟩
  · simp only [List.map_cons, List.map_nil, partAt_slot, partAt_text]
    rfl

section Subjects

theorem keyword_unread {kw : String} (hkw : ∀ c ∈ kw.toList, isIdentifierChar c = true) (n : Identifier)
    (b : Option Char) (r : List Char) : (keyword kw).Unread b (n.text ++ ';' :: r) := by
  intro s t hst hread
  obtain ⟨g, rfl, hg, hne, -⟩ := reads_keyword hread
  obtain ⟨c, g, rfl⟩ := List.exists_cons_of_ne_nil hne
  have hc : Text.isBlank c = true := hg c List.mem_cons_self
  rw [List.append_assoc, List.cons_append] at hst
  obtain ⟨-, hsemi⟩ := Text.run_unique hst n.parts (Text.stops_cons.mpr (by decide)) hkw
    (Text.stops_cons.mpr (isIdentifierChar_of_isBlank hc))
  rw [← (List.cons.inj hsemi).1] at hc
  exact absurd hc (by decide)

/-- A reserved word is read as the whole word at the front of an identifier only before a dollar sign. -/
theorem wholeWord_unread {w : String} (hreserved : w ∈ reservedWords) (hsemi : ';' ∉ w.toList)
    (hlast : isWordAt w.toList.getLast? = true) (n : Identifier) (hn : ¬ w.toList ++ ['$'] <+: n.text) (b : Option Char)
    (r : List Char) : (wholeWord w).Unread b (n.text ++ ';' :: r) := by
  rintro s t hst ⟨_, _, rfl, hw, rfl, hedge⟩
  rw [reads_text.mp hw] at hst hedge
  obtain ⟨z, hz, rfl⟩ := Text.exists_before_landmark (by simpa using hst.symm) hsemi
  have hword : isWordAt (w.toList.getLast?.or b) = true := by
    cases h : w.toList.getLast? with
    | none => rw [h] at hlast; cases hlast
    | some c => rwa [h] at hlast
  cases z with
  | nil => exact n.ne_of_mem_reserved hreserved (by simpa using hz)
  | cons c z =>
    have hc : Text.isWord c = false := by
      have hedge : (isWordAt (w.toList.getLast?.or b) != isWordAt (some c)) = true := hedge
      rw [hword] at hedge
      simpa only [isWordAt, Bool.true_bne, Bool.not_eq_true'] using hedge
    have hident := n.parts c (by simp [hz])
    rcases Bool.or_eq_true _ _ |>.mp hident with h | h
    · rw [Text.isWord_of_isAsciiWord h] at hc
      cases hc
    · rw [beq_iff_eq.mp h] at hz
      exact hn ⟨z, by simp [hz]⟩

theorem read_wholeWord {β : Type} {next : Reading → Option β} {u z : List Char} {parts : List Part} {w : String}
    (hlast : isWordAt w.toList.getLast? = true) :
    (wholeWord w).read next ⟨place.beyond u (w.toList ++ '$' :: z), parts⟩ =
      next ⟨place.beyond (u ++ w.toList) ('$' :: z), parts⟩ := by
  have hedge : Anchor.wordEdge.holds (place.beyond (u ++ w.toList) ('$' :: z)) = true := by
    cases h : w.toList.getLast? with
    | none => rw [h] at hlast; cases hlast
    | some c =>
      rw [h] at hlast
      have hdollar : isWordAt (some '$') = false := by decide
      simp [Anchor.holds, Cursor.beyond, List.getLast?_append, h, hlast, hdollar]
  rw [wholeWord, read_seq, read_text, Pattern.read, if_pos hedge]

/-- The keywords that tell the kind of an exported default. -/
def subject : Pattern :=
  oneOf (.seq (keyword "async") (wholeWord "function")) [
    wholeWord "function",
    .seq (keyword "abstract") (wholeWord "class"),
    wholeWord "class"]

theorem subject_unread {n : Identifier} (h : defaultSubject n = none) (b : Option Char) (r : List Char) :
    subject.Unread b (n.text ++ ';' :: r) := by
  unfold defaultSubject at h
  have hfunction : ¬ "function".toList ++ ['$'] <+: n.text := by
    intro hn
    rw [if_pos (Text.startsWith_iff.mpr (by simpa using hn))] at h
    cases h
  have hclass : ¬ "class".toList ++ ['$'] <+: n.text := by
    intro hn
    split at h
    · cases h
    · rw [if_pos (Text.startsWith_iff.mpr (by simpa using hn))] at h
      cases h
  rintro s rest hst (hread | hread | hread | hread)
  · exact (keyword_unread (by decide) n b r).seq _ s rest hst hread
  · exact wholeWord_unread (by decide) (by decide) (by decide) n hfunction b r s rest hst hread
  · exact (keyword_unread (by decide) n b r).seq _ s rest hst hread
  · exact wholeWord_unread (by decide) (by decide) (by decide) n hclass b r s rest hst hread

theorem read_subject {β : Type} {next : Reading → Option β} {u z : List Char} {parts : List Part} {w : String} {x : β}
    (hw : w = "function" ∨ w = "class")
    (h : next ⟨place.beyond (u ++ w.toList) ('$' :: z), parts⟩ = some x) :
    subject.read next ⟨place.beyond u (w.toList ++ '$' :: z), parts⟩ = some x := by
  rcases hw with rfl | rfl
  · have hasync : (Pattern.seq (keyword "async") (wholeWord "function")).read next
        ⟨place.beyond u ("function".toList ++ '$' :: z), parts⟩ = none :=
      read_eq_none_of_clash ((opens_keyword "async").seq _) (by decide)
    exact (read_either_of_none hasync).trans (read_either_of_some ((read_wholeWord (by decide)).trans h))
  · have hasync : (Pattern.seq (keyword "async") (wholeWord "function")).read next
        ⟨place.beyond u ("class".toList ++ '$' :: z), parts⟩ = none :=
      read_eq_none_of_clash ((opens_keyword "async").seq _) (by decide)
    have hfunction : (wholeWord "function").read next ⟨place.beyond u ("class".toList ++ '$' :: z), parts⟩ = none :=
      read_eq_none_of_clash ((opens_text "function").seq _) (by decide)
    have habstract : (Pattern.seq (keyword "abstract") (wholeWord "class")).read next
        ⟨place.beyond u ("class".toList ++ '$' :: z), parts⟩ = none :=
      read_eq_none_of_clash ((opens_keyword "abstract").seq _) (by decide)
    exact (read_either_of_none hasync).trans ((read_either_of_none hfunction).trans
      ((read_either_of_none habstract).trans ((read_wholeWord (by decide)).trans h)))

theorem exists_of_defaultSubject {n : Identifier} {w : String} (h : defaultSubject n = some w) :
    (w = "function" ∨ w = "class") ∧ ∃ z, n.text = w.toList ++ '$' :: z := by
  unfold defaultSubject at h
  split at h
  · rename_i hn
    obtain ⟨z, hz⟩ := Text.startsWith_iff.mp hn
    cases h
    exact ⟨.inl rfl, z, by simp [← hz]⟩
  · split at h
    · rename_i hn
      obtain ⟨z, hz⟩ := Text.startsWith_iff.mp hn
      cases h
      exact ⟨.inr rfl, z, by simp [← hz]⟩
    · cases h

theorem seenAt_exportDefault (n : Identifier) (hline : AtLineStart place.before)
    (hplace : place.rest = (Statement.exportDefault n).text ++ ';' :: rest) :
    SeenAt Curly.exportDefault place .keyword (Statement.exportDefault n).text
      ⟨place.offset, (Statement.exportDefault n).texts⟩ := by
  have hname : Stops Text.isBlank (n.text ++ ';' :: rest) := (n.startsSolid.append _).stops
  have hdefault : Stops Text.isBlank ("default".toList ++ ' ' :: (n.text ++ ';' :: rest)) :=
    Text.stops_cons.mpr (by decide)
  rw [Statement.text_exportDefault, List.append_assoc, List.cons_append, List.append_assoc, List.cons_append] at hplace
  have hread : ∀ (next : Reading → Option Match) parts,
      (inOrder [keyword "default", optional (.part .subject subject)]).read next
        ⟨place.beyond ("export".toList ++ [' ']) ("default".toList ++ ' ' :: (n.text ++ ';' :: rest)), parts⟩ =
        (optional (.part .subject subject)).read next
          ⟨place.beyond ("export".toList ++ [' '] ++ "default".toList ++ [' ']) (n.text ++ ';' :: rest), parts⟩ :=
    fun next parts => by rw [read_inOrder_cons, read_keyword_space "default" hname]; rfl
  cases hsubject : defaultSubject n with
  | none =>
    -- The keyword is optional: it is tried first and given up.
    have hnone := fun (next : Reading → Option Match) parts => @read_eq_none _ (.part .subject subject) next
      ⟨place.beyond ("export".toList ++ [' '] ++ "default".toList ++ [' ']) (n.text ++ ';' :: rest), parts⟩
      (subject_unread hsubject _ rest)
    refine seenAt_export hline hplace hdefault [] (by simp) ((hread _ _).trans (read_optional_of_none (hnone _ _)))
      ?_ ?_
    · exact ⟨n.text, by simp [Statement.text_exportDefault]⟩
    · simp [Statement.texts, hsubject]
  | some w =>
    obtain ⟨hw, z, hz⟩ := exists_of_defaultSubject hsubject
    have htext : n.text ++ ';' :: rest = w.toList ++ '$' :: (z ++ ';' :: rest) := by rw [hz, List.append_assoc]; rfl
    refine seenAt_export (u := "export".toList ++ [' '] ++ "default".toList ++ [' '] ++ w.toList)
      (r := '$' :: (z ++ ';' :: rest)) hline hplace hdefault [partAt place .subject
        ("export".toList ++ [' '] ++ "default".toList ++ [' ']) w.toList ('$' :: (z ++ ';' :: rest))]
      (by simp) ((hread _ _).trans ?_) ?_ ?_
    · rw [htext]
      exact read_either_of_some (read_subject hw rfl)
    · exact ⟨'$' :: z, by simp [Statement.text_exportDefault, hz]⟩
    · simp [Statement.texts, hsubject]

end Subjects

section Lists

variable {β : Type} {next : Reading → Option β} {u : List Char} {parts : List Part}

theorem ItemList.not_close (l : ItemList) : ∀ c ∈ l.text, (c != '}') = true :=
  fun c hc => bne_iff_ne.mpr (ne_of_class (l.listChars c hc) (by decide))

theorem read_braced (l : ItemList) (slot : Slot) :
    (braced (.part slot)).read next ⟨place.beyond u (l.braced ++ rest), parts⟩ =
      next ⟨place.beyond (u ++ l.braced) rest, partAt place slot (u ++ ['{']) l.text ('}' :: rest) :: parts⟩ := by
  have hstop : Stops (· != '}') ('}' :: rest) := Text.stops_cons.mpr (by decide)
  have htext : l.braced ++ rest = '{' :: (l.text ++ '}' :: rest) := by
    simp only [ItemList.braced, List.cons_append, List.append_assoc, List.nil_append]
  rw [htext, braced, read_inOrder_cons, read_char, read_inOrder_cons,
    read_part_eq fun _ => read_run l.not_close hstop, read_inOrder_cons, read_char, read_inOrder_nil]
  simp only [ItemList.braced, List.append_assoc, List.cons_append, List.nil_append]

theorem reads_fromSource {b : Option Char} {s t : List Char} (h : fromSource.Reads b s t) :
    ∃ g g' q z, s = (g ++ "from".toList) ++ g' ++ q :: z ∧ IsGap g ∧ IsGap g' ∧ Text.isQuote q = true := by
  obtain ⟨g, _, rfl, hg, h⟩ := reads_inOrder_cons.mp h
  obtain ⟨_, _, rfl, hfrom, h⟩ := reads_inOrder_cons.mp h
  obtain ⟨g', _, rfl, hg', h⟩ := reads_inOrder_cons.mp h
  obtain ⟨_, z, rfl, hsource, -⟩ := reads_inOrder_cons.mp h
  obtain ⟨_, z', rfl, ⟨q, rfl, hq⟩, -⟩ := reads_inOrder_cons.mp hsource
  rw [reads_text.mp hfrom]
  exact ⟨g, g', q, z' ++ z, by simp, (reads_run.mp hg).1, (reads_run.mp hg').1, hq⟩

theorem read_fromSource_none : fromSource.read next ⟨place.beyond u (';' :: rest), parts⟩ = none := by
  refine read_eq_none fun s t hst hread => ?_
  obtain ⟨g, g', q, z, rfl, hg, -, -⟩ := reads_fromSource hread
  cases g with
  | nil => exact absurd (List.cons.inj hst).1 (by decide)
  | cons c g =>
    have hc : Text.isBlank c = true := hg c List.mem_cons_self
    rw [← (List.cons.inj hst).1] at hc
    exact absurd hc (by decide)

theorem seenAt_exportNames (l : ItemList) (hl : ∀ i ∈ l.items, i.Unmarked) (source : Option ModuleName)
    (hline : AtLineStart place.before)
    (hplace : place.rest = (Statement.exportNames l hl source).text ++ ';' :: rest) :
    SeenAt exportList place .keyword (Statement.exportNames l hl source).text
      ⟨place.offset, (Statement.exportNames l hl source).texts⟩ := by
  have hmark : ∀ (next : Reading → Option Match) u rest parts,
      (optional (Pattern.part .typeMark (keyword "type"))).read next ⟨place.beyond u (l.braced ++ rest), parts⟩ =
        next ⟨place.beyond u (l.braced ++ rest), parts⟩ := fun next u rest parts =>
    read_optional_of_none (@read_eq_none _ (.part .typeMark (keyword "type")) _ _
      ((opens_keyword "type").unread_cons (c := '{') (by decide)))
  have hbody : ∀ rest, Stops Text.isBlank (l.braced ++ rest) := fun rest => Text.stops_cons.mpr (by decide)
  rw [Statement.text_exportNames, List.append_assoc, List.cons_append, List.append_assoc] at hplace
  cases source with
  | none =>
    refine seenAt_export (u := "export".toList ++ [' '] ++ l.braced) (r := ';' :: rest) hline hplace (hbody _)
      [partAt place .names ("export".toList ++ [' '] ++ ['{']) l.text ('}' :: ';' :: rest)] (by simp) ?_ ?_ ?_
    · rw [read_inOrder_cons, hmark, read_inOrder_cons, read_braced, read_inOrder_cons]
      exact read_optional_of_none read_fromSource_none
    · exact ⟨[], by simp [Statement.text_exportNames]⟩
    · simp [Statement.texts]
  | some source =>
    refine seenAt_export (u := "export".toList ++ [' '] ++ l.braced ++ fromText source) (r := ';' :: rest) hline hplace
      (hbody _)
      [sourcePart place ("export".toList ++ [' '] ++ l.braced ++ ' ' :: ("from".toList ++ [' '])) source (';' :: rest),
        partAt place .names ("export".toList ++ [' '] ++ ['{']) l.text ('}' :: (fromText source ++ ';' :: rest))]
      (by simp [sourcePart]) ?_ ?_ ?_
    · rw [read_inOrder_cons, hmark, read_inOrder_cons, read_braced, read_inOrder_cons]
      exact read_either_of_some (read_fromSource source)
    · exact ⟨[], by simp [Statement.text_exportNames]⟩
    · simp [Statement.texts, sourcePart]

def starName : Pattern :=
  inOrder [blanks1, text "as", blanks1, .part .name (eagerRun1 Text.isNameChar)]

theorem read_starName_none (source : ModuleName) :
    starName.read next ⟨place.beyond u (fromText source ++ rest), parts⟩ = none := by
  have hfrom : Stops Text.isBlank ("from".toList ++ ' ' :: (quoted source ++ rest)) := Text.stops_cons.mpr (by decide)
  have htext : fromText source ++ rest = ' ' :: ("from".toList ++ ' ' :: (quoted source ++ rest)) := by
    simp only [fromText, List.cons_append, List.append_assoc]
  rw [htext, starName, read_inOrder_cons, read_blanks1_space hfrom, read_inOrder_cons]
  exact read_eq_none_of_clash (opens_text "as") (by decide)

theorem read_starName {x : β} (n : Identifier) (hrest : Stops Text.isNameChar rest)
    (h : next ⟨place.beyond (u ++ (" as ".toList ++ n.text)) rest,
      partAt place .name (u ++ " as ".toList) n.text rest :: parts⟩ = some x) : starName.read next ⟨place.beyond u ((" as ".toList ++ n.text) ++ rest), parts⟩ = some x := by
  have has : Stops Text.isBlank ("as".toList ++ ' ' :: (n.text ++ rest)) := Text.stops_cons.mpr (by decide)
  have hname : Stops Text.isBlank (n.text ++ rest) := (n.startsSolid.append rest).stops
  have htext : (" as ".toList ++ n.text) ++ rest = ' ' :: ("as".toList ++ ' ' :: (n.text ++ rest)) := by simp
  have hlead : u ++ " as ".toList = u ++ [' '] ++ "as".toList ++ [' '] := by simp
  rw [htext, starName, read_inOrder_cons, read_blanks1_space has, read_inOrder_cons, read_text, read_inOrder_cons,
    read_blanks1_space hname, read_inOrder_cons, ← hlead]
  rw [← List.append_assoc] at h
  exact read_eagerRun1 n.text_ne_nil n.isNameChar hrest h

theorem seenAt_exportStar (name : Option Identifier) (source : ModuleName) (hline : AtLineStart place.before)
    (hplace : place.rest = (Statement.exportStar name source).text ++ ';' :: rest) :
    SeenAt Curly.exportStar place .keyword (Statement.exportStar name source).text
      ⟨place.offset, (Statement.exportStar name source).texts⟩ := by
  have hbody : ∀ t, Stops Text.isBlank ('*' :: t) := fun t => Text.stops_cons.mpr (by decide)
  have hfrom : Stops Text.isNameChar (fromText source ++ ';' :: rest) := Text.stops_cons.mpr (by decide)
  rw [Statement.text_exportStar, List.append_assoc, List.cons_append, List.cons_append, List.append_assoc] at hplace
  have hread : ∀ (next : Reading → Option Match) t parts,
      (inOrder [.one (· == '*'), optional starName, fromSource]).read next
        ⟨place.beyond ("export".toList ++ [' ']) ('*' :: t), parts⟩ =
        (optional starName).read ((inOrder [fromSource]).read next)
          ⟨place.beyond ("export".toList ++ [' '] ++ ['*']) t, parts⟩ :=
    fun next t parts => by rw [read_inOrder_cons, read_char]; rfl
  cases name with
  | none =>
    refine seenAt_export (u := "export".toList ++ [' '] ++ ['*'] ++ fromText source) (r := ';' :: rest) hline hplace
      (hbody _)
      [sourcePart place ("export".toList ++ [' '] ++ ['*'] ++ ' ' :: ("from".toList ++ [' '])) source (';' :: rest)]
      (by simp [sourcePart]) ((hread _ _ _).trans ((read_optional_of_none (read_starName_none source)).trans ?_)) ?_ ?_
    · exact read_fromSource source
    · exact ⟨[], by simp [Statement.text_exportStar]⟩
    · simp [Statement.texts, sourcePart]
  | some n =>
    refine seenAt_export (u := "export".toList ++ [' '] ++ ['*'] ++ (" as ".toList ++ n.text) ++ fromText source)
      (r := ';' :: rest) hline hplace (hbody _)
      [sourcePart place
        ("export".toList ++ [' '] ++ ['*'] ++ (" as ".toList ++ n.text) ++ ' ' :: ("from".toList ++ [' '])) source
        (';' :: rest),
        partAt place .name ("export".toList ++ [' '] ++ ['*'] ++ " as ".toList) n.text (fromText source ++ ';' :: rest)]
      (by simp [sourcePart]) ((hread _ _ _).trans ?_) ?_ ?_
    · exact read_either_of_some (read_starName n hfrom (read_fromSource source))
    · exact ⟨[], by simp [Statement.text_exportStar]⟩
    · simp [Statement.texts, sourcePart]

end Lists

section Imports

variable {β : Type} {next : Reading → Option β} {u : List Char} {parts : List Part}

theorem seenAt_import {ps : List Pattern} {t whole u r : List Char} {texts : List (Slot × List Char)}
    (hline : AtLineStart place.before) (hplace : place.rest = "import".toList ++ t) (parts : List Part)
    (hslots : ∀ p ∈ parts, p.slot ≠ .keyword)
    (hread : (inOrder ps).read (fun r => some (⟨place.offset, r.place.offset, r.parts⟩ : Match))
        ⟨place.beyond "import".toList t, [keywordPart place "import" t]⟩ =
      some ⟨place.offset, (place.beyond u r).offset, parts ++ [keywordPart place "import" t]⟩)
    (hu : u <+: whole)
    (htexts : parts.map (fun p => (p.slot, p.first.textTo p.last)) ++ [(.keyword, "import".toList)] = texts) :
    SeenAt (inOrder (statementStart :: .part .keyword (text "import") :: ps)) place .keyword whole
      ⟨place.offset, texts⟩ := by
  have hword : Stops (fun c => c == ' ' || c == '\t') ("import".toList ++ t) := Text.stops_cons.mpr (by decide)
  have hkeyword := (@read_keywordPart _ ((inOrder ps).read _) place t [] "import").trans hread
  have hmatch := @exists_read_statementStart _ _ (fun m => m = _) _ _ _ hline hword ⟨_, hkeyword, rfl⟩
  rw [← hplace] at hmatch
  obtain ⟨m, hm, rfl⟩ := hmatch
  subst htexts
  exact ⟨_, hm, Nat.add_le_add_left (Text.byteLength_mono hu) _, seen_keyword hslots⟩

theorem seenAt_importEffect (source : ModuleName) (hline : AtLineStart place.before)
    (hplace : place.rest = (Statement.importEffect source).text ++ rest) :
    SeenAt sideEffectImport place .keyword (Statement.importEffect source).text
      ⟨place.offset, (Statement.importEffect source).texts⟩ := by
  rw [Statement.text_importEffect, List.append_assoc, List.cons_append] at hplace
  refine seenAt_import (u := "import".toList ++ [' '] ++ quoted source) (r := rest) hline hplace
    [sourcePart place ("import".toList ++ [' ']) source rest] (by simp [sourcePart]) ?_ ?_ ?_
  · rw [read_inOrder_cons, read_blanks_space (stops_quoted source rest), read_inOrder_cons, read_quotedSource]
    rfl
  · exact ⟨[], by simp [Statement.text_importEffect]⟩
  · simp [Statement.texts, sourcePart]

theorem read_looseBlanks1_space (hrest : Stops Text.isBlank rest) :
    looseBlanks1.read next ⟨place.beyond u (' ' :: rest), parts⟩ = next ⟨place.beyond (u ++ [' ']) rest, parts⟩ := by
  have hspare : (Pattern.span Text.isBlank 1).read next ⟨place.beyond (u ++ [' ']) rest, parts⟩ = none := by
    refine read_eq_none ?_
    rintro s t hst ⟨kept, rest', rfl, hlen, hok, -⟩
    obtain ⟨c, cs, hcs⟩ : ∃ c cs, s ++ kept = c :: cs := List.exists_cons_of_ne_nil (by
      intro hnil
      rw [(List.append_eq_nil_iff.mp hnil).2] at hlen
      cases hlen)
    have hst : rest = c :: (cs ++ rest') := by rw [← List.cons_append, ← hcs, List.append_assoc]; exact hst
    rw [hst] at hrest
    have hc := hok c (by simp [hcs])
    rw [Text.stops_cons.mp hrest] at hc
    cases hc
  rw [looseBlanks1, read_seq, read_one (by decide), read_either_of_right_none hspare]
  exact read_blanks_none hrest

theorem ImportClause.startsSolid (clause : ImportClause) : Text.StartsSolid clause.text := by
  obtain ⟨c, r, h, hc⟩ := clause.exists_cons
  refine ⟨c, r, h, ?_⟩
  rcases hc with hc | rfl | rfl
  · exact isBlank_of_isIdentifierChar hc
  · decide
  · decide

theorem ImportClause.endsSolid (clause : ImportClause) : Text.EndsSolid clause.text := by
  have hbraced : ∀ l : ItemList, Text.EndsSolid l.braced := fun l => ⟨'{' :: l.text, '}', rfl, by decide⟩
  have hstar : ∀ n, Text.EndsSolid (starText n) := fun n => (n.endsSolid.append _).cons _
  cases clause with
  | whole n => exact n.endsSolid
  | names l => exact hbraced l
  | star n => exact hstar n
  | wholeAndNames n l => exact (((hbraced l).cons _).cons _).append _
  | wholeAndStar n starName => exact (((hstar starName).cons _).cons _).append _

theorem ImportClause.clauseChars (clause : ImportClause) : ∀ c ∈ clause.text, isClauseChar c = true := by
  have hname : ∀ n : Identifier, ∀ c ∈ n.text, isClauseChar c = true := fun n c hc => by
    simp [isClauseChar, n.isNameChar c hc]
  have hlist : ∀ l : ItemList, ∀ c ∈ l.text, isClauseChar c = true := by
    intro l c hc
    have h := l.listChars c hc
    simp only [isListChar, Bool.or_eq_true] at h
    rcases h with (h | h) | h
    · simp [isClauseChar, isNameChar_of_isIdentifierChar h]
    · simp [isClauseChar, h]
    · simp [isClauseChar, h]
  have hbraced : ∀ l : ItemList, ∀ c ∈ l.braced, isClauseChar c = true := fun l =>
    List.forall_mem_cons.mpr ⟨by decide, List.forall_mem_append.mpr ⟨hlist l, by decide⟩⟩
  have hstar : ∀ n, ∀ c ∈ starText n, isClauseChar c = true := fun n =>
    List.forall_mem_cons.mpr ⟨by decide, List.forall_mem_append.mpr ⟨by decide, hname n⟩⟩
  have hpair : ∀ (n : Identifier) {t}, (∀ c ∈ t, isClauseChar c = true) →
      ∀ c ∈ n.text ++ ',' :: ' ' :: t, isClauseChar c = true :=
    fun n t ht => List.forall_mem_append.mpr ⟨hname n, List.forall_mem_cons.mpr ⟨by decide,
      List.forall_mem_cons.mpr ⟨by decide, ht⟩⟩⟩
  cases clause with
  | whole n => exact hname n
  | names l => exact hbraced l
  | star n => exact hstar n
  | wholeAndNames n l => exact hpair n (hbraced l)
  | wholeAndStar n starName => exact hpair n (hstar starName)

theorem ImportClause.typeMark_unread (clause : ImportClause) (source : ModuleName) (b : Option Char)
    (rest : List Char) :
    (Pattern.seq (Pattern.text "type") looseBlanks1).Unread b (clause.text ++ (fromText source ++ rest)) := by
  rintro s t hst ⟨_, g, rfl, htype, hg⟩
  obtain ⟨hgap, hne⟩ := reads_looseBlanks1 hg
  obtain ⟨c, g, rfl⟩ := List.exists_cons_of_ne_nil hne
  have hc : isIdentifierChar c = false := isIdentifierChar_of_isBlank (hgap c List.mem_cons_self)
  rw [reads_text.mp htype, List.append_assoc, List.cons_append] at hst
  have hname : ∀ (n : Identifier) {d r}, isIdentifierChar d = false →
      n.text ++ d :: r ≠ "type".toList ++ c :: (g ++ t) := by
    intro n d r hd heq
    exact n.ne_of_mem_reserved (by decide)
      (Text.run_unique heq n.parts (Text.stops_cons.mpr hd) (by decide) (Text.stops_cons.mpr hc)).1
  cases clause with
  | whole n => exact hname n (by decide) hst
  | names l => exact absurd (List.cons.inj hst).1 (by decide)
  | star n => exact absurd (List.cons.inj hst).1 (by decide)
  | wholeAndNames n l =>
    rw [ImportClause.text, List.append_assoc, List.cons_append] at hst
    exact hname n (by decide) hst
  | wholeAndStar n starName =>
    rw [ImportClause.text, List.append_assoc, List.cons_append] at hst
    exact hname n (by decide) hst

/-- A source is not read before the end of a clause: there is no other quote. -/
theorem ImportClause.fromSource_unread (clause : ImportClause) (source : ModuleName) {v v' : List Char}
    (hclause : clause.text = v ++ v') (hv' : v' ≠ []) (b : Option Char) (rest : List Char) :
    fromSource.Unread b (v' ++ (fromText source ++ rest)) := by
  intro s t hst hread
  obtain ⟨g, g', q, z, rfl, hgap, hgap', hq⟩ := reads_fromSource hread
  -- Both sides are cut at the first quote.
  have hblank : ∀ {g}, IsGap g → ∀ c ∈ g, (!Text.isQuote c) = true := by
    intro g hg c hc
    rw [Text.not_isQuote_of_isBlank (hg c hc)]
    rfl
  have hleft : ∀ c ∈ (g ++ "from".toList) ++ g', (!Text.isQuote c) = true :=
    List.forall_mem_append.mpr ⟨List.forall_mem_append.mpr ⟨hblank hgap, by decide⟩, hblank hgap'⟩
  have hright : ∀ c ∈ (v' ++ [' '] ++ "from".toList) ++ [' '], (!Text.isQuote c) = true := by
    have hclauseChars : ∀ c ∈ v', (!Text.isQuote c) = true := by
      intro c hc
      have h := clause.clauseChars c (by simp [hclause, hc])
      rw [Text.not_isQuote_of_class h (by decide) (by decide)]
      rfl
    exact List.forall_mem_append.mpr ⟨List.forall_mem_append.mpr ⟨List.forall_mem_append.mpr ⟨hclauseChars, by decide⟩,
      by decide⟩, by decide⟩
  have hcut : ((g ++ "from".toList) ++ g') ++ q :: (z ++ t) =
      ((v' ++ [' '] ++ "from".toList) ++ [' ']) ++ '\'' :: (source.text ++ '\'' :: rest) := by
    simpa [fromText, quoted] using hst.symm
  obtain ⟨hcut, -⟩ := Text.run_unique hcut hleft (Text.stops_cons.mpr (by simp [hq])) hright
    (Text.stops_cons.mpr (by decide))
  -- What stands before the word is white space, but a clause ends with none.
  have hfrom : Text.EndsSolid "from".toList := ⟨"fro".toList, 'm', by decide, by decide⟩
  have htrim := congrArg Text.trimEnd hcut
  rw [Text.trimEnd_append_gap hgap', Text.trimEnd_append_gap Text.isGap_space, (hfrom.append _).trimEnd_eq,
    (hfrom.append _).trimEnd_eq] at htrim
  obtain ⟨cs, c, hend, hc⟩ := clause.endsSolid
  have hlast : c ∈ v' := by
    have h := congrArg List.getLast? (hclause.symm.trans hend)
    rw [List.getLast?_append_of_ne_nil v hv', List.getLast?_append_of_ne_nil cs (by simp), List.getLast?_singleton] at h
    exact List.mem_of_mem_getLast? h
  rw [hgap c (by rw [List.append_cancel_right htrim]; simp [hlast])] at hc
  cases hc

def typeMark : Pattern :=
  .part .typeMark (.seq (text "type") looseBlanks1)

theorem read_typeMark_none (clause : ImportClause) (source : ModuleName) :
    (optional typeMark).read next ⟨place.beyond u (clause.text ++ (fromText source ++ rest)), parts⟩ =
      next ⟨place.beyond u (clause.text ++ (fromText source ++ rest)), parts⟩ :=
  read_optional_of_none (@read_eq_none _ typeMark _ _ (clause.typeMark_unread source _ rest))

theorem read_typeMark (hrest : Stops Text.isBlank rest) :
    typeMark.read next ⟨place.beyond u ("type ".toList ++ rest), parts⟩ =
      next ⟨place.beyond (u ++ "type ".toList) rest, partAt place .typeMark u "type ".toList rest :: parts⟩ := by
  have htext : "type ".toList ++ rest = "type".toList ++ ' ' :: rest := by simp
  have hlead : u ++ "type ".toList = u ++ "type".toList ++ [' '] := by simp
  refine read_part_eq fun next => ?_
  rw [htext, read_seq, read_text, read_looseBlanks1_space hrest, hlead]

theorem read_clause {x : β} (clause : ImportClause) (source : ModuleName)
    (h : next ⟨place.beyond (u ++ clause.text ++ fromText source) rest,
      [sourcePart place (u ++ clause.text ++ ' ' :: ("from".toList ++ [' '])) source rest,
        partAt place .clause u clause.text (fromText source ++ rest)] ++ parts⟩ = some x) :
    (inOrder [.part .clause (lazyRun1 isClauseChar), fromSource]).read next
      ⟨place.beyond u (clause.text ++ (fromText source ++ rest)), parts⟩ = some x := by
  -- The clause is the shortest run that a source follows.
  refine read_lazyRun1 clause.startsSolid.ne_nil clause.clauseChars (fun v v' hv _ hv' => ?_) ?_
  · exact read_eq_none ((clause.fromSource_unread source hv hv' _ rest).seq _)
  · exact (read_fromSource source).trans h

theorem seenAt_importClause (isType : Bool) (clause : ImportClause) (source : ModuleName)
    (hline : AtLineStart place.before)
    (hplace : place.rest = (Statement.importClause isType clause source).text ++ rest) :
    SeenAt staticImport place .keyword (Statement.importClause isType clause source).text
      ⟨place.offset, (Statement.importClause isType clause source).texts⟩ := by
  have hclause : Stops Text.isBlank (clause.text ++ (fromText source ++ rest)) := (clause.startsSolid.append _).stops
  have htype : Stops Text.isBlank ("type ".toList ++ (clause.text ++ (fromText source ++ rest))) :=
    Text.stops_cons.mpr (by decide)
  cases isType with
  | false =>
    rw [Statement.text_importClause, List.append_assoc, List.cons_append, List.append_assoc] at hplace
    refine seenAt_import (u := "import".toList ++ [' '] ++ clause.text ++ fromText source) (r := rest) hline hplace
      [sourcePart place ("import".toList ++ [' '] ++ clause.text ++ ' ' :: ("from".toList ++ [' '])) source rest,
        partAt place .clause ("import".toList ++ [' ']) clause.text (fromText source ++ rest)]
      (by simp [sourcePart]) ?_ ?_ ?_
    · rw [read_inOrder_cons, read_looseBlanks1_space hclause]
      exact (read_typeMark_none clause source).trans (read_clause clause source rfl)
    · exact ⟨[], by simp [Statement.text_importClause]⟩
    · simp [Statement.texts, sourcePart]
  | true =>
    have htext : (Statement.importClause true clause source).text ++ rest =
        "import".toList ++ ' ' :: ("type ".toList ++ (clause.text ++ (fromText source ++ rest))) := by
      simp [Statement.text_importTypeClause]
    refine seenAt_import (u := "import".toList ++ [' '] ++ "type ".toList ++ clause.text ++ fromText source) (r := rest)
      hline (hplace.trans htext)
      [sourcePart place
        ("import".toList ++ [' '] ++ "type ".toList ++ clause.text ++ ' ' :: ("from".toList ++ [' '])) source rest,
        partAt place .clause ("import".toList ++ [' '] ++ "type ".toList) clause.text (fromText source ++ rest),
        partAt place .typeMark ("import".toList ++ [' ']) "type ".toList (clause.text ++ (fromText source ++ rest))]
      (by simp [sourcePart]) ?_ ?_ ?_
    · rw [read_inOrder_cons, read_looseBlanks1_space htype]
      exact read_either_of_some ((read_typeMark hclause).trans (read_clause clause source rfl))
    · exact ⟨[], by simp [Statement.text_importTypeClause]⟩
    · simp [Statement.texts, sourcePart]

end Imports

section Calls

variable {β : Type} {next : Reading → Option β} {u : List Char} {parts : List Part}

/-- A pattern is read at a place, over the whole of some text, as what is seen of a match. -/
def SeenOver (p : Pattern) (place : Cursor) (slot : Slot) (text : List Char) (sight : Sighting) : Prop :=
  ∃ m, p.matchAt place = some m ∧ m.stop = place.offset + byteLength text ∧ seen slot m = sight

theorem read_call (w : String) (source : ModuleName) (hword : isWordAt w.toList.head? = true)
    (hbefore : isWordAt (u.getLast?.or place.before) = false) :
    (inOrder [.anchor .wordEdge, text w, callOfSource]).read next
        ⟨place.beyond u ((w.toList ++ callText source) ++ rest), parts⟩ =
      next ⟨place.beyond (u ++ (w.toList ++ callText source)) rest,
        sourcePart place (u ++ w.toList ++ ['(']) source (')' :: rest) :: parts⟩ := by
  have hedge : Anchor.wordEdge.holds (place.beyond u (w.toList ++ (callText source ++ rest))) = true := by
    have hhead : isWordAt (w.toList ++ (callText source ++ rest)).head? = true := by
      cases h : w.toList with
      | nil => rw [h] at hword; cases hword
      | cons c cs => rw [h] at hword; exact hword
    have hbefore' : isWordAt (place.beyond u (w.toList ++ (callText source ++ rest))).before = false := hbefore
    rw [Anchor.holds, hbefore', Cursor.beyond_rest, hhead]
    rfl
  rw [List.append_assoc, read_inOrder_cons, Pattern.read, if_pos hedge, read_inOrder_cons, read_text, read_inOrder_cons,
    read_callOfSource, read_inOrder_nil, List.append_assoc u]

theorem seenOver_importCall (source : ModuleName) (hbefore : isWordAt place.before = false)
    (hplace : place.rest = ("import".toList ++ callText source) ++ rest) :
    SeenOver dynamicImport place .source ("import".toList ++ callText source)
      ⟨place.offset + byteLength "import('".toList, [(.source, source.text)]⟩ := by
  have hread := @read_call place rest _ (fun r => some (⟨place.offset, r.place.offset, r.parts⟩ : Match)) [] []
    "import" source (by decide) hbefore
  rw [← hplace] at hread
  refine ⟨_, hread, rfl, ?_⟩
  simp [seen, sourcePart, Match.startOf, Match.part?]

theorem read_target (target : RequireTarget) (htarget : target.text ≠ []) :
    (Pattern.part .binding (.either (braced id) (run1 Text.isNameChar))).read next
        ⟨place.beyond u (target.text ++ ' ' :: rest), parts⟩ =
      next ⟨place.beyond (u ++ target.text) (' ' :: rest),
        partAt place .binding u target.text (' ' :: rest) :: parts⟩ := by
  refine read_part_eq fun next => ?_
  cases target with
  | nothing => exact absurd rfl htarget
  | whole n =>
    obtain ⟨c, cs, hn, hc⟩ := n.exists_cons
    have hbraced : (braced id).read next ⟨place.beyond u (n.text ++ ' ' :: rest), parts⟩ = none := by
      rw [hn]
      have hopens : (braced id).Opens ["\x7b"] := (opens_char (by decide)).seq _
      exact read_eq_none (hopens.unread_cons (by simpa using (ne_of_class hc (by decide)).symm))
    have hspace : Stops Text.isNameChar (' ' :: rest) := Text.stops_cons.mpr (by decide)
    exact (read_either_of_none hbraced).trans (read_run1 n.text_ne_nil n.isNameChar hspace)
  | names l hl =>
    have hname : (run1 Text.isNameChar).read next ⟨place.beyond u (l.braced ++ ' ' :: rest), parts⟩ = none := by
      refine read_eq_none fun s t hst hread => ?_
      obtain ⟨hne, hok, -⟩ := reads_run1.mp hread
      obtain ⟨c, cs, rfl⟩ := List.exists_cons_of_ne_nil hne
      have hst : '{' :: _ = c :: (cs ++ t) := hst
      rw [← (List.cons.inj hst).1] at hok
      exact absurd (hok '{' List.mem_cons_self) (by decide)
    have hstop : Stops (· != '}') ('}' :: ' ' :: rest) := Text.stops_cons.mpr (by decide)
    have htext : l.braced ++ ' ' :: rest = '{' :: (l.text ++ '}' :: ' ' :: rest) := by
      simp only [ItemList.braced, List.cons_append, List.append_assoc, List.nil_append]
    have hbraced : (braced id).read next ⟨place.beyond u (l.braced ++ ' ' :: rest), parts⟩ =
        next ⟨place.beyond (u ++ l.braced) (' ' :: rest), parts⟩ := by
      rw [htext, braced, id, read_inOrder_cons, read_char, read_inOrder_cons, read_run l.not_close hstop,
        read_inOrder_cons, read_char, read_inOrder_nil]
      simp only [ItemList.braced, List.append_assoc, List.cons_append, List.nil_append]
    exact (read_either_of_right_none hname).trans hbraced

theorem RequireTarget.startsSolid (target : RequireTarget) (htarget : target.text ≠ []) :
    Text.StartsSolid target.text := by
  cases target with
  | nothing => exact absurd rfl htarget
  | whole n => exact n.startsSolid
  | names l hl => exact ⟨'{', _, rfl, by decide⟩

theorem read_requireLead (target : RequireTarget) (htarget : target.text ≠ []) (hrest : Stops Text.isBlank rest) :
    requireLead.read next ⟨place.beyond [] ("const ".toList ++ (target.text ++ (" = ".toList ++ rest))), parts⟩ =
      next ⟨place.beyond ("const ".toList ++ (target.text ++ " = ".toList)) rest,
        partAt place .binding "const ".toList target.text (" = ".toList ++ rest) :: parts⟩ := by
  have hsolid : Stops Text.isBlank (target.text ++ ' ' :: '=' :: ' ' :: rest) :=
    ((target.startsSolid htarget).append _).stops
  have hequals : Stops Text.isBlank ('=' :: ' ' :: rest) := Text.stops_cons.mpr (by decide)
  have htext : "const ".toList ++ (target.text ++ (" = ".toList ++ rest)) =
      "const".toList ++ ' ' :: (target.text ++ ' ' :: '=' :: ' ' :: rest) := by simp
  have hlead : "const ".toList = [] ++ "const".toList ++ [' '] := by simp
  have hbound : " = ".toList ++ rest = ' ' :: '=' :: ' ' :: rest := by simp
  rw [htext, hbound, requireLead, read_inOrder_cons, read_constKeyword, read_inOrder_cons, read_blanks1_space hsolid,
    read_inOrder_cons, read_target target htarget, read_inOrder_cons, read_blanks_space hequals, read_inOrder_cons,
    read_char, read_inOrder_cons, read_blanks_space hrest, read_inOrder_nil, ← hlead]
  simp

theorem seenOver_require_bound (target : RequireTarget) (htarget : target.text ≠ []) (source : ModuleName)
    (hplace : place.rest =
      "const ".toList ++ (target.text ++ (" = ".toList ++ (("require".toList ++ callText source) ++ rest)))) :
    SeenOver Curly.requireCall place .binding
      ("const ".toList ++ (target.text ++ " = ".toList) ++ ("require".toList ++ callText source))
      ⟨place.offset + byteLength "const ".toList, [(.source, source.text), (.binding, target.text)]⟩ := by
  have hword : Stops Text.isBlank (("require".toList ++ callText source) ++ rest) := Text.stops_cons.mpr (by decide)
  have hspace : isWordAt (("const ".toList ++ (target.text ++ " = ".toList)).getLast?.or place.before) = false := by
    rw [← List.append_assoc, List.getLast?_append]
    simp [isWordAt]
    decide
  have hread := read_either_of_some (q := .empty) ((@read_requireLead place _ _
    ((inOrder [.anchor .wordEdge, text "require", callOfSource]).read
      (fun r => some (⟨place.offset, r.place.offset, r.parts⟩ : Match))) [] target htarget hword).trans
    (read_call "require" source (by decide) hspace))
  rw [← hplace] at hread
  refine ⟨_, hread, rfl, ?_⟩
  simp [seen, sourcePart, Match.startOf, Match.part?]

theorem seenOver_require_alone (source : ModuleName) (hline : AtLineStart place.before)
    (hplace : place.rest = ("require".toList ++ callText source) ++ rest) :
    SeenOver Curly.requireCall place .binding ("require".toList ++ callText source)
      ⟨place.offset, [(.source, source.text)]⟩ := by
  have hbefore : isWordAt place.before = false := by rcases hline with h | h <;> rw [h] <;> decide
  have hlead : requireLead.read ((inOrder [.anchor .wordEdge, text "require", callOfSource]).read
      (fun r => some (⟨place.offset, r.place.offset, r.parts⟩ : Match)))
      ⟨place.beyond [] ("require".toList ++ (callText source ++ rest)), []⟩ = none :=
    read_eq_none_of_clash (((opens_text "const").either ((opens_text "let").either (opens_text "var"))).seq _)
      (by decide)
  have hoptional := read_optional_of_none hlead
  rw [← List.append_assoc] at hoptional
  have hread := hoptional.trans (read_call "require" source (by decide) hbefore)
  rw [← hplace] at hread
  refine ⟨_, hread, rfl, ?_⟩
  simp [seen, sourcePart, Match.startOf, Match.part?]

theorem seenOver_require (target : RequireTarget) (source : ModuleName) (hline : AtLineStart place.before)
    (hplace : place.rest = (Statement.require target source).text ++ rest) :
    SeenOver Curly.requireCall place .binding (Statement.require target source).text
      ⟨place.offset + byteLength (Statement.require target source).before,
        (Statement.require target source).texts⟩ := by
  have hbound : ∀ {target : RequireTarget}, target.text ≠ [] →
      target.lead = "const".toList ++ ' ' :: (target.text ++ " = ".toList) →
      place.rest = (Statement.require target source).text ++ rest →
      SeenOver Curly.requireCall place .binding (Statement.require target source).text
        ⟨place.offset + byteLength "const ".toList, [(.source, source.text), (.binding, target.text)]⟩ := by
    intro target htarget hlead hplace
    have htext : (Statement.require target source).text =
        "const ".toList ++ (target.text ++ " = ".toList) ++ ("require".toList ++ callText source) := by
      rw [Statement.text_require, hlead]
      simp
    rw [htext] at hplace ⊢
    exact seenOver_require_bound target htarget source (by simpa using hplace)
  cases target with
  | nothing => exact seenOver_require_alone source hline hplace
  | whole n => exact hbound n.text_ne_nil rfl hplace
  | names l hl => exact hbound (List.cons_ne_nil _ _) rfl hplace

end Calls

end Statements

end ModuleGraph.Curly
