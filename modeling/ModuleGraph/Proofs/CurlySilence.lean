import ModuleGraph.Proofs.CurlyStatement
import ModuleGraph.Proofs.PatternReading

namespace ModuleGraph.Curly

open Text (isAsciiWord ne_of_class Gap IsGap Stops)
open Pattern

def Declarator.pattern : Declarator → Pattern
  | .constant => exportVariable
  | .function => exportFunction
  | .classDefinition => exportClass
  | .type => exportType
  | .interface => exportInterface
  | .enum => exportEnum

/-- A form of statement that is looked for on its own. -/
inductive Form where
  | clauseImport
  | effectImport
  | requireCall
  | importCall
  | exportDefault
  | declaration (d : Declarator)
  | exportNames
  | exportStar
  | moduleAssignment
  | propertyAssignment
  deriving DecidableEq, Repr

namespace Form

def pattern : Form → Pattern
  | .clauseImport => staticImport
  | .effectImport => sideEffectImport
  | .requireCall => Curly.requireCall
  | .importCall => dynamicImport
  | .exportDefault => Curly.exportDefault
  | .declaration d => d.pattern
  | .exportNames => exportList
  | .exportStar => Curly.exportStar
  | .moduleAssignment => moduleExports
  | .propertyAssignment => exportsProperty

def isCall : Form → Bool
  | .requireCall | .importCall => true
  | _ => false

end Form

def Statement.form : Statement → Form
  | .importEffect _ => .effectImport
  | .importClause _ _ _ => .clauseImport
  | .require _ _ => .requireCall
  | .importCall _ => .importCall
  | .declare d _ => .declaration d
  | .exportDefault _ => .exportDefault
  | .exportNames _ _ _ => .exportNames
  | .exportStar _ _ => .exportStar

section Shape

/-- A word that a statement form starts with, and the character after it. -/
def Introduces (w : String) (c : Char) : Prop :=
  isIdentifierChar c = false ∧ (w ∈ ["import", "export"] ∨ w ∈ ["module", "exports"] ∧ c = '.')

def StartsStatement (t : List Char) : Prop :=
  ∃ w c r, t = String.toList w ++ c :: r ∧ Introduces w c

theorem Introduces.isIdentifierChar {w : String} {c : Char} (h : Introduces w c) :
    ∀ d ∈ w.toList, isIdentifierChar d = true := by
  obtain ⟨-, h | ⟨h, -⟩⟩ := h <;> simp only [List.mem_cons, List.not_mem_nil, or_false] at h <;>
    rcases h with rfl | rfl <;> decide

/-- No word of a text starts a statement form, as long as what follows the text does not go on with a dot. -/
def NoStart (t : List Char) : Prop :=
  ∀ u v, t = u ++ v → (∀ c ∈ u.getLast?, isIdentifierChar c = false) →
    ∀ c r, isIdentifierChar c = false → c ≠ '.' → ¬ StartsStatement (v ++ c :: r)

theorem noStart_word {w : List Char} (hw : ∀ c ∈ w, isIdentifierChar c = true) (himport : w ≠ "import".toList)
    (hexport : w ≠ "export".toList) : NoStart w := by
  rintro u v rfl hu c r hc hdot ⟨w', c', r', heq, hw'⟩
  -- A part of a word ends with a character of the word, so the word starts where it is looked at.
  obtain rfl : u = [] := by
    by_contra hne
    have hlast := List.getLast?_eq_some_getLast hne
    have h := hu _ hlast
    rw [hw _ (List.mem_append_left v (List.getLast_mem hne))] at h
    cases h
  obtain ⟨rfl, hcr⟩ := Text.run_unique heq hw (Text.stops_cons.mpr hc) hw'.isIdentifierChar
    (Text.stops_cons.mpr hw'.1)
  obtain ⟨-, h | ⟨-, rfl⟩⟩ := hw'
  · simp only [List.mem_cons, List.not_mem_nil, or_false] at h
    rcases h with rfl | rfl
    · exact himport rfl
    · exact hexport rfl
  · exact hdot (List.cons.inj hcr).1

theorem noStart_nil : NoStart [] :=
  noStart_word (by simp) (by decide) (by decide)

theorem Identifier.noStart (n : Identifier) : NoStart n.text :=
  noStart_word n.parts (n.ne_of_mem_reserved (by decide)) (n.ne_of_mem_reserved (by decide))

theorem NoStart.append {t t' : List Char} {c : Char} (ht : NoStart t) (ht' : NoStart t')
    (hc : isIdentifierChar c = false) (hdot : c ≠ '.') : NoStart (t ++ c :: t') := by
  intro u v huv hu d r hd hdot'
  rcases List.append_eq_append_iff.mp huv with ⟨x, rfl, hv⟩ | ⟨x, rfl, rfl⟩
  · cases x with
    | nil =>
      rw [List.nil_append] at hv
      rw [← hv, List.cons_append]
      exact ht t [] (List.append_nil t).symm (by rwa [List.append_nil] at hu) c _ hc hdot
    | cons e x =>
      obtain ⟨rfl, rfl⟩ := List.cons.inj hv
      refine ht' x v rfl (fun e he => hu e ?_) d r hd hdot'
      rw [List.getLast?_append, List.getLast?_cons, Option.mem_def.mp he]
      rfl
  · rw [List.append_assoc, List.cons_append]
    exact ht u x rfl hu c _ hc hdot

theorem NoStart.gap_append {g t : List Char} (hg : IsGap g) (ht : NoStart t) : NoStart (g ++ t) := by
  induction g with
  | nil => exact ht
  | cons c g ih =>
    obtain ⟨hc, hg⟩ := List.forall_mem_cons.mp hg
    exact noStart_nil.append (ih hg) (isIdentifierChar_of_isBlank hc) (ne_of_class hc (by decide))

theorem NoStart.append_gap {g t t' : List Char} (ht : NoStart t) (hg : IsGap g) (hne : g ≠ []) (ht' : NoStart t') :
    NoStart (t ++ (g ++ t')) := by
  obtain ⟨c, g, rfl⟩ := List.exists_cons_of_ne_nil hne
  obtain ⟨hc, hg⟩ := List.forall_mem_cons.mp hg
  exact ht.append (ht'.gap_append hg) (isIdentifierChar_of_isBlank hc) (ne_of_class hc (by decide))

theorem noStart_gap {g : List Char} (hg : IsGap g) : NoStart g := by
  have h := noStart_nil.gap_append hg
  rwa [List.append_nil] at h

theorem Item.noStart (i : Item) : NoStart i.text := by
  obtain ⟨before, typeMark, name, other, after⟩ := i
  have hnames : NoStart (name.text ++ (other.elim [] OtherName.text ++ after.text)) := by
    have hend : ∀ n : Identifier, NoStart (n.text ++ after.text) := by
      intro n
      by_cases hne : after.text = []
      · rw [hne, List.append_nil]
        exact n.noStart
      · have h := n.noStart.append_gap after.blank hne noStart_nil
        rwa [List.append_nil] at h
    cases other with
    | none => exact hend name
    | some o =>
      have has : NoStart "as".toList := noStart_word (by decide) (by decide) (by decide)
      have h := name.noStart.append_gap o.before.blank o.before.nonempty
        (has.append_gap o.after.blank o.after.nonempty (hend o.name))
      simpa [OtherName.text] using h
  have hcore : NoStart ((typeMark.elim [] fun g => "type".toList ++ g.text) ++
      (name.text ++ (other.elim [] OtherName.text ++ after.text))) := by
    cases typeMark with
    | none => exact hnames
    | some g =>
      have htype : NoStart "type".toList := noStart_word (by decide) (by decide) (by decide)
      have h := htype.append_gap g.blank g.nonempty hnames
      rwa [← List.append_assoc] at h
  have h := hcore.gap_append before.blank
  simpa only [Item.text, Item.core, Item.names, List.append_assoc] using h

theorem ItemList.noStart (l : ItemList) : NoStart l.text := by
  have hrest : ∀ {ts : List (List Char)}, (∀ t ∈ ts, NoStart t) → ∀ {t}, NoStart t →
      NoStart (t ++ ts.flatMap (',' :: ·)) := by
    intro ts hts t ht
    induction ts generalizing t with
    | nil => rwa [List.flatMap_nil, List.append_nil]
    | cons t' ts ih =>
      obtain ⟨ht', hts⟩ := List.forall_mem_cons.mp hts
      exact ht.append (ih hts ht') (by decide) (by decide)
  refine hrest (fun t ht => ?_) l.first.noStart
  rcases List.mem_append.mp ht with ht | ht
  · obtain ⟨i, -, rfl⟩ := List.mem_map.mp ht
    exact i.noStart
  · obtain ⟨g, -, rfl⟩ := List.mem_map.mp ht
    exact noStart_gap g.blank

def isFlat (c : Char) : Bool :=
  isIdentifierChar c || isSpecifierChar c || [' ', ',', '*', '(', ')', '=', '\''].contains c

/-- A text on one line, but for a list in braces in which no statement form starts. -/
def Tame (t : List Char) : Prop :=
  (∀ c ∈ t, isFlat c = true) ∨
    ∃ a l b, t = a ++ '{' :: (l ++ '}' :: b) ∧ (∀ c ∈ a, isFlat c = true) ∧ (∀ c ∈ b, isFlat c = true) ∧
      (∀ c ∈ l, isListChar c = true) ∧ NoStart l

theorem Tame.prepend {t : List Char} (ht : Tame t) {a : List Char} (ha : ∀ c ∈ a, isFlat c = true) : Tame (a ++ t) := by
  obtain ht | ⟨a', l, b, rfl, ha', hb⟩ := ht
  · exact .inl (List.forall_mem_append.mpr ⟨ha, ht⟩)
  · exact .inr ⟨a ++ a', l, b, by rw [List.append_assoc], List.forall_mem_append.mpr ⟨ha, ha'⟩, hb⟩

theorem Tame.append {t : List Char} (ht : Tame t) {b : List Char} (hb : ∀ c ∈ b, isFlat c = true) : Tame (t ++ b) := by
  obtain ht | ⟨a, l, b', rfl, ha, hb', hl⟩ := ht
  · exact .inl (List.forall_mem_append.mpr ⟨ht, hb⟩)
  · exact .inr ⟨a, l, b' ++ b, by simp, ha, List.forall_mem_append.mpr ⟨hb', hb⟩, hl⟩

theorem Tame.keyword {t : List Char} (ht : Tame t) (w : String) (hw : ∀ c ∈ w.toList, isFlat c = true) :
    Tame (w.toList ++ ' ' :: t) :=
  (ht.prepend (List.forall_mem_singleton.mpr (by decide : isFlat ' ' = true))).prepend hw

theorem ItemList.tame (l : ItemList) : Tame l.braced :=
  .inr ⟨[], l.text, [], by rfl, by simp, by simp, l.listChars, l.noStart⟩

theorem Identifier.flat (n : Identifier) : ∀ c ∈ n.text, isFlat c = true :=
  fun c hc => by simp [isFlat, n.parts c hc]

theorem quoted_flat (source : ModuleName) : ∀ c ∈ quoted source, isFlat c = true := by
  have hsource : ∀ c ∈ source.text, isFlat c = true := fun c hc => by simp [isFlat, source.parts c hc]
  exact List.forall_mem_cons.mpr ⟨by decide, List.forall_mem_append.mpr ⟨hsource, by decide⟩⟩

theorem fromText_flat (source : ModuleName) : ∀ c ∈ fromText source, isFlat c = true :=
  List.forall_mem_cons.mpr ⟨by decide, List.forall_mem_append.mpr ⟨by decide,
    List.forall_mem_cons.mpr ⟨by decide, quoted_flat source⟩⟩⟩

theorem callText_flat (source : ModuleName) : ∀ c ∈ callText source, isFlat c = true :=
  List.forall_mem_cons.mpr ⟨by decide, List.forall_mem_append.mpr ⟨quoted_flat source, by decide⟩⟩

theorem starText_flat (n : Identifier) : ∀ c ∈ ImportClause.starText n, isFlat c = true :=
  List.forall_mem_cons.mpr ⟨by decide, List.forall_mem_append.mpr ⟨by decide, n.flat⟩⟩

theorem ImportClause.tame (clause : ImportClause) : Tame clause.text := by
  have hpair : ∀ (n : Identifier) {t}, Tame t → Tame (n.text ++ ',' :: ' ' :: t) := fun n t ht =>
    (ht.prepend (by decide : ∀ c ∈ [',', ' '], isFlat c = true)).prepend n.flat
  cases clause with
  | whole n => exact .inl n.flat
  | names l => exact l.tame
  | star n => exact .inl (starText_flat n)
  | wholeAndNames n l => exact hpair n l.tame
  | wholeAndStar n starName => exact hpair n (.inl (starText_flat starName))

theorem Declarator.tame_body (d : Declarator) : Tame d.body.toList := by
  cases d with
  | constant | type => exact .inl (by decide)
  | function => exact .inr ⟨"() ".toList, [], [], by decide, by decide, by simp, by simp, noStart_nil⟩
  | classDefinition | interface | enum => exact .inr ⟨[' '], [], [], by decide, by decide, by simp, by simp, noStart_nil⟩

theorem RequireTarget.tame_lead (target : RequireTarget) : Tame target.lead := by
  cases target with
  | nothing => exact .inl (by simp [lead])
  | whole n => exact Tame.keyword (.append (.inl n.flat) (by decide)) "const" (by decide)
  | names l hplain => exact (l.tame.append (by decide)).keyword "const" (by decide)

theorem Statement.tame (s : Statement) : Tame s.text := by
  cases s with
  | importEffect source => exact Tame.keyword (.inl (quoted_flat source)) "import" (by decide)
  | importClause isType clause source =>
    have hclause := clause.tame.append (fromText_flat source)
    cases isType with
    | false => exact hclause.keyword "import" (by decide)
    | true => exact (hclause.keyword "type" (by decide)).keyword "import" (by decide)
  | require target source =>
    exact target.tame_lead.append (List.forall_mem_append.mpr ⟨by decide, callText_flat source⟩)
  | importCall source =>
    have hcall := List.forall_mem_append.mpr ⟨(by decide : ∀ c ∈ "import".toList, isFlat c = true), callText_flat source⟩
    exact Tame.keyword (.inl hcall) "await" (by decide)
  | declare d n =>
    have hkeyword : ∀ c ∈ d.keyword.toList, isFlat c = true := by cases d <;> decide
    exact ((d.tame_body.prepend n.flat).keyword d.keyword hkeyword).keyword "export" (by decide)
  | exportDefault n => exact (Tame.keyword (.inl n.flat) "default" (by decide)).keyword "export" (by decide)
  | exportNames l hunmarked source =>
    refine (l.tame.append ?_).keyword "export" (by decide)
    cases source with
    | none => simp
    | some source => exact fromText_flat source
  | exportStar name source =>
    have hname : ∀ c ∈ name.elim [] fun n => " as ".toList ++ n.text, isFlat c = true := by
      cases name with
      | none => simp
      | some n => exact List.forall_mem_append.mpr ⟨by decide, n.flat⟩
    exact Tame.keyword (.inl (List.forall_mem_cons.mpr ⟨by decide,
      List.forall_mem_append.mpr ⟨hname, fromText_flat source⟩⟩)) "export" (by decide)

end Shape

section Heads

variable {before : Option Char} {s rest : List Char}

def AtLineStart (before : Option Char) : Prop :=
  before = none ∨ before = some '\n'

/-- Where a statement may start in front of a text, and what it then starts with. -/
def StartsAt (before : Option Char) (t t' : List Char) : Prop :=
  ∃ a g, t = a ++ (g ++ t') ∧ (a = [] ∧ AtLineStart before ∨ a = [';']) ∧ ∀ c ∈ g, c = ' ' ∨ c = '\t'

/-- A pattern that is read only where a statement starts, and then starts with one of some words. -/
def Headed (p : Pattern) (words : List String) : Prop :=
  ∀ before s rest, p.Reads before s rest →
    ∃ w ∈ words, ∃ c r, StartsAt before (s ++ rest) (w.toList ++ c :: r) ∧ Introduces w c

theorem reads_statementStart {ps : List Pattern} (h : (inOrder (statementStart :: ps)).Reads before s rest) :
    ∃ v b, StartsAt before (s ++ rest) (v ++ rest) ∧ (inOrder ps).Reads b v rest := by
  obtain ⟨_, v, rfl, ⟨a, g, rfl, ha, hg⟩, hv⟩ := reads_inOrder_cons.mp h
  refine ⟨v, _, ⟨a, g, by simp, ?_, fun c hc => ?_⟩, hv⟩
  · rcases ha with ⟨rfl, ha⟩ | ⟨c, rfl, hc⟩
    · refine .inl ⟨rfl, ?_⟩
      cases before with
      | none => exact .inl rfl
      | some c => exact .inr (by simpa [Anchor.holds] using ha)
    · rw [beq_iff_eq.mp hc]
      exact .inr rfl
  · simpa using (reads_run.mp hg).1 c hc

theorem reads_looseBlanks1 (h : looseBlanks1.Reads before s rest) : IsGap s ∧ s ≠ [] := by
  obtain ⟨_, v, rfl, ⟨c, rfl, hc⟩, hv⟩ := h
  have hgap : IsGap v := by
    rcases hv with ⟨_, _, -, -, hok, -⟩ | ⟨_, _, -, -, hok, -⟩ <;> exact fun c hc => hok c (List.mem_append_left _ hc)
  exact ⟨List.forall_mem_cons.mpr ⟨hc, hgap⟩, List.cons_ne_nil c v⟩

theorem reads_staticImport (h : staticImport.Reads before s rest) :
    ∃ g c r, StartsAt before (s ++ rest) ("import".toList ++ (g ++ c :: r)) ∧ IsGap g ∧ g ≠ [] ∧
      isClauseChar c = true := by
  obtain ⟨v, b, hstart, hv⟩ := reads_statementStart h
  obtain ⟨_, _, rfl, himport, hv⟩ := reads_inOrder_cons.mp hv
  obtain ⟨g, _, rfl, hg, hv⟩ := reads_inOrder_cons.mp hv
  obtain ⟨mark, _, rfl, hmark, hv⟩ := reads_inOrder_cons.mp hv
  obtain ⟨_, w, rfl, ⟨_, u, rfl, ⟨c, rfl, hc⟩, -⟩, -⟩ := reads_inOrder_cons.mp hv
  obtain ⟨hgap, hne⟩ := reads_looseBlanks1 hg
  rw [reads_text.mp himport] at hstart
  rcases hmark with ⟨_, m, rfl, htype, -⟩ | rfl
  · rw [reads_text.mp htype] at hstart
    exact ⟨g, 't', _, by simpa using hstart, hgap, hne, by decide⟩
  · exact ⟨g, c, _, by simpa using hstart, hgap, hne, hc⟩

theorem reads_sideEffectImport (h : sideEffectImport.Reads before s rest) :
    ∃ g c r, StartsAt before (s ++ rest) ("import".toList ++ (g ++ c :: r)) ∧ IsGap g ∧ Text.isQuote c = true := by
  obtain ⟨v, b, hstart, hv⟩ := reads_statementStart h
  obtain ⟨_, _, rfl, himport, hv⟩ := reads_inOrder_cons.mp hv
  obtain ⟨g, _, rfl, hg, hv⟩ := reads_inOrder_cons.mp hv
  obtain ⟨_, _, rfl, hsource, hv⟩ := reads_inOrder_cons.mp hv
  obtain ⟨_, u, rfl, ⟨c, rfl, hc⟩, -⟩ := reads_inOrder_cons.mp hsource
  rw [reads_text.mp himport] at hstart
  exact ⟨g, c, _, by simpa using hstart, (reads_run.mp hg).1, hc⟩

theorem reads_export {ps : List Pattern} (h : (inOrder (exportHead :: ps)).Reads before s rest) :
    ∃ g u v b, StartsAt before (s ++ rest) ("export".toList ++ (g ++ (u ++ v))) ∧ IsGap g ∧ g ≠ [] ∧
      Stops Text.isBlank (u ++ v) ∧ (inOrder ps).Reads b u v := by
  obtain ⟨_, u, rfl, hhead, hu⟩ := reads_inOrder_cons.mp h
  obtain ⟨v, b, hstart, hv⟩ := reads_statementStart hhead
  obtain ⟨_, _, rfl, hexport, hv⟩ := reads_inOrder_cons.mp hv
  obtain ⟨g, _, rfl, hg, rfl⟩ := reads_inOrder_cons.mp hv
  obtain ⟨hne, hgap, hstop⟩ := reads_run1.mp hg
  rw [reads_text.mp hexport] at hstart
  exact ⟨g, u, rest, _, by simpa using hstart, hgap, hne, hstop, hu⟩

theorem exists_introduces_of_gap {t g r : List Char} {w : String} (hw : w ∈ ["import", "export"]) (hg : IsGap g)
    (hne : g ≠ []) (h : StartsAt before t (w.toList ++ (g ++ r))) :
    ∃ c r, StartsAt before t (w.toList ++ c :: r) ∧ Introduces w c := by
  obtain ⟨c, g, rfl⟩ := List.exists_cons_of_ne_nil hne
  exact ⟨c, g ++ r, h, isIdentifierChar_of_isBlank (hg c List.mem_cons_self), .inl hw⟩

theorem headed_staticImport : Headed staticImport ["import"] := by
  intro before s rest h
  obtain ⟨g, c, r, hstart, hg, hne, -⟩ := reads_staticImport h
  exact ⟨"import", by simp, exists_introduces_of_gap (by decide) hg hne hstart⟩

theorem headed_sideEffectImport : Headed sideEffectImport ["import"] := by
  intro before s rest h
  obtain ⟨g, c, r, hstart, hg, hc⟩ := reads_sideEffectImport h
  refine ⟨"import", by simp, ?_⟩
  by_cases hne : g = []
  · subst hne
    have hquote : isIdentifierChar c = false := by
      rcases Bool.or_eq_true _ _ |>.mp hc with hc | hc <;> rw [beq_iff_eq.mp hc] <;> decide
    exact ⟨c, r, hstart, hquote, .inl (by decide)⟩
  · exact exists_introduces_of_gap (by decide) hg hne hstart

theorem headed_export (ps : List Pattern) : Headed (inOrder (exportHead :: ps)) ["export"] := by
  intro before s rest h
  obtain ⟨g, u, v, -, hstart, hg, hne, -, -⟩ := reads_export h
  exact ⟨"export", by simp, exists_introduces_of_gap (by decide) hg hne hstart⟩

theorem headed_moduleExports : Headed moduleExports ["module", "exports"] := by
  intro before s rest h
  obtain ⟨v, b, hstart, hv⟩ := reads_statementStart h
  obtain ⟨_, w, rfl, hmodule, -⟩ := reads_inOrder_cons.mp hv
  rw [reads_text.mp hmodule] at hstart
  exact ⟨"module", by simp, '.', "exports".toList ++ (w ++ rest), by simpa using hstart, by decide, .inr (by decide)⟩

theorem headed_exportsProperty : Headed exportsProperty ["module", "exports"] := by
  intro before s rest h
  obtain ⟨v, b, hstart, hv⟩ := reads_statementStart h
  obtain ⟨_, _, rfl, ⟨mark, _, rfl, hmark, hexports⟩, hv⟩ := reads_inOrder_cons.mp hv
  obtain ⟨_, w, rfl, ⟨c, rfl, hc⟩, -⟩ := reads_inOrder_cons.mp hv
  rw [reads_text.mp hexports, beq_iff_eq.mp hc] at hstart
  rcases hmark with hmark | rfl
  · rw [reads_text.mp hmark] at hstart
    exact ⟨"module", by simp, '.', "exports".toList ++ '.' :: (w ++ rest), by simpa using hstart, by decide,
      .inr (by decide)⟩
  · exact ⟨"exports", by simp, '.', w ++ rest, by simpa using hstart, by decide, .inr (by decide)⟩

def Form.words : Form → List String
  | .clauseImport | .effectImport => ["import"]
  | .requireCall | .importCall => []
  | .exportDefault | .declaration _ | .exportNames | .exportStar => ["export"]
  | .moduleAssignment | .propertyAssignment => ["module", "exports"]

theorem Form.headed {f : Form} (h : f.isCall = false) : Headed f.pattern f.words := by
  cases f with
  | clauseImport => exact headed_staticImport
  | effectImport => exact headed_sideEffectImport
  | requireCall | importCall => cases h
  | exportDefault | exportNames | exportStar => exact headed_export _
  | declaration d => cases d <;> exact headed_export _
  | moduleAssignment => exact headed_moduleExports
  | propertyAssignment => exact headed_exportsProperty

end Heads

section Inside

theorem not_startsStatement {c : Char} (hc : isIdentifierChar c = false) (hdot : c ≠ '.') (r : List Char) :
    ¬ StartsStatement (c :: r) :=
  noStart_nil [] [] rfl (by simp) c r hc hdot

theorem Tame.not_mem {t : List Char} (ht : Tame t) {c : Char} (hflat : isFlat c = false) (hlist : isListChar c = false)
    (hopen : c ≠ '{') (hclose : c ≠ '}') : c ∉ t := by
  intro hc
  obtain ht | ⟨a, l, b, rfl, ha, hb, hl, -⟩ := ht
  · exact ne_of_class (ht c hc) hflat rfl
  · rcases List.mem_append.mp hc with hc | hc
    · exact ne_of_class (ha c hc) hflat rfl
    · rcases List.mem_cons.mp hc with rfl | hc
      · exact hopen rfl
      · rcases List.mem_append.mp hc with hc | hc
        · exact ne_of_class (hl c hc) hlist rfl
        · rcases List.mem_cons.mp hc with rfl | hc
          · exact hclose rfl
          · exact ne_of_class (hb c hc) hflat rfl

theorem Statement.semicolon_not_mem (s : Statement) : ';' ∉ s.text :=
  s.tame.not_mem (by decide) (by decide) (by decide) (by decide)

theorem Tame.not_startsStatement {t u v g t' r : List Char} (ht : Tame t) (htext : t = u ++ '\n' :: v)
    (hg : ∀ c ∈ g, c = ' ' ∨ c = '\t') (hsplit : v ++ ';' :: r = g ++ t') : ¬ StartsStatement t' := by
  obtain ht | ⟨a, l, b, rfl, ha, hb, -, hl⟩ := ht
  · exact absurd rfl (ne_of_class (ht '\n' (by simp [htext])) (by decide))
  -- The newline stands in the list, so the place is inside the list.
  have hopen : '\n' ∉ a ++ ['{'] := by
    intro hmem
    rcases List.mem_append.mp hmem with hmem | hmem
    · exact ne_of_class (ha _ hmem) (by decide) rfl
    · exact absurd hmem (by decide)
  have hclose : '\n' ∉ '}' :: b := by
    intro hmem
    rcases List.mem_cons.mp hmem with hmem | hmem
    · exact absurd hmem (by decide)
    · exact ne_of_class (hb _ hmem) (by decide) rfl
  obtain ⟨u', rfl, hlist⟩ := Text.exists_before_landmark (x := a ++ ['{']) (by simpa using htext) hopen
  obtain ⟨v', rfl, rfl⟩ := Text.exists_after_landmark hlist hclose
  have hbrace : '}' ∉ g := fun hmem => by rcases hg _ hmem with h | h <;> exact absurd h (by decide)
  obtain ⟨y, rfl, rfl⟩ := Text.exists_before_landmark (u := v') (v := b ++ ';' :: r) (by simpa using hsplit.symm) hbrace
  refine hl (u' ++ '\n' :: g) y (by simp) (fun c hc => ?_) '}' (b ++ ';' :: r) (by decide) (by decide)
  rw [List.getLast?_append, List.getLast?_cons] at hc
  cases hlast : g.getLast? with
  | none =>
    rw [hlast] at hc
    obtain rfl : '\n' = c := by simpa using hc
    decide
  | some d =>
    rw [hlast] at hc
    obtain rfl : d = c := by simpa using hc
    rcases hg d (List.mem_of_mem_getLast? hlast) with rfl | rfl <;> decide

/-- A form that stands at the start of statements is not read inside one. -/
theorem Statement.unread_inside (s : Statement) {p : Pattern} {words : List String} (hp : Headed p words)
    {u v : List Char} (huv : s.text ++ [';', '\n'] = u ++ v) (hu : u ≠ []) (hv : v ≠ []) (before : Option Char) (rest : List Char) :
    p.Unread (u.getLast?.or before) (v ++ rest) := by
  intro x y hxy hread
  obtain ⟨w, -, c, r, ⟨a, g, ht, ha, hg⟩, hw⟩ := hp _ _ _ hread
  have hstarts : StartsStatement (w.toList ++ c :: r) := ⟨w, c, r, rfl, hw⟩
  generalize w.toList ++ c :: r = t at ht hstarts
  rw [← hxy] at ht
  have hlast := List.getLast?_eq_some_getLast hu
  rcases ha with ⟨rfl, ha⟩ | rfl
  · rw [hlast, Option.some_or] at ha
    have hnewline : u.getLast hu = '\n' := by simpa [AtLineStart] using ha
    obtain ⟨u', rfl⟩ : ∃ u', u = u' ++ ['\n'] := ⟨u.dropLast, by rw [← hnewline, List.dropLast_append_getLast]⟩
    obtain ⟨v', d, rfl⟩ : ∃ v' d, v = v' ++ [d] := ⟨v.dropLast, v.getLast hv, (List.dropLast_append_getLast hv).symm⟩
    have hline : (s.text ++ [';']) ++ ['\n'] = (u' ++ '\n' :: v') ++ [d] := by simpa using huv
    obtain ⟨hline, hend⟩ := List.append_inj' hline rfl
    obtain ⟨x, htext, rfl⟩ := Text.exists_after_landmark hline (by decide)
    refine s.tame.not_startsStatement (r := d :: rest) htext hg ?_ hstarts
    simpa using ht
  · obtain ⟨c, v, rfl⟩ := List.exists_cons_of_ne_nil hv
    obtain ⟨rfl, htail⟩ := List.cons.inj ht
    obtain ⟨w, -, hw⟩ := Text.exists_before_landmark huv s.semicolon_not_mem
    obtain rfl : v = ['\n'] := by
      match w, hw with
      | [], hw => simpa using hw.symm
      | [_], hw => simp at hw
      | _ :: _ :: _, hw => simp at hw
    cases g with
    | nil =>
      have htail : '\n' :: rest = t := htail
      rw [← htail] at hstarts
      exact not_startsStatement (by decide) (by decide) _ hstarts
    | cons c g =>
      have hc : '\n' = c := (List.cons.inj htail).1
      exact absurd (hg c List.mem_cons_self) (by rw [← hc]; decide)

end Inside

section Starts

def Clash (w w' : String) : Prop :=
  ¬ w.toList <+: w'.toList ∧ ¬ w'.toList <+: w.toList

instance (w w' : String) : Decidable (Clash w w') :=
  inferInstanceAs (Decidable (_ ∧ _))

theorem Clash.not_prefix_append {w w' : String} (h : Clash w w') (r : List Char) : ¬ w.toList <+: w'.toList ++ r := by
  intro hw
  rcases List.prefix_or_prefix_of_prefix hw (List.prefix_append w'.toList r) with hp | hp
  · exact h.1 hp
  · exact h.2 hp

theorem Clash.ne {w w' : String} (h : Clash w w') (r r' : List Char) : w'.toList ++ r' ≠ w.toList ++ r :=
  fun he => h.not_prefix_append r' ⟨r, he.symm⟩

theorem StartsAt.eq_self {before : Option Char} {w r t : List Char} (h : StartsAt before (w ++ r) t) (hne : w ≠ [])
    (hw : ∀ c ∈ w, isIdentifierChar c = true) : t = w ++ r := by
  obtain ⟨c, w, rfl⟩ := List.exists_cons_of_ne_nil hne
  have hc : isIdentifierChar c = true := hw c List.mem_cons_self
  obtain ⟨a, g, ht, ⟨rfl, -⟩ | rfl, hg⟩ := h
  · cases g with
    | nil => exact ht.symm
    | cons d g =>
      obtain ⟨rfl, -⟩ := List.cons.inj ht
      rcases hg c List.mem_cons_self with rfl | rfl <;> exact absurd hc (by decide)
  · obtain ⟨rfl, -⟩ := List.cons.inj ht
    exact absurd hc (by decide)

def Statement.firstWord : Statement → String
  | .importEffect _ | .importClause _ _ _ => "import"
  | .require .nothing _ => "require"
  | .require _ _ => "const"
  | .importCall _ => "await"
  | .declare _ _ | .exportDefault _ | .exportNames _ _ _ | .exportStar _ _ => "export"

theorem Statement.exists_firstWord (s : Statement) :
    ∃ c r, s.text = s.firstWord.toList ++ c :: r ∧ (c = ' ' ∨ c = '(') := by
  cases s with
  | importClause isType => cases isType <;> exact ⟨' ', _, rfl, .inl rfl⟩
  | require target source =>
    cases target with
    | nothing => exact ⟨'(', _, rfl, .inr rfl⟩
    | whole n => exact ⟨' ', _, List.append_assoc _ _ _, .inl rfl⟩
    | names l => exact ⟨' ', _, List.append_assoc _ _ _, .inl rfl⟩
  | _ => exact ⟨' ', _, rfl, .inl rfl⟩

theorem Statement.firstWord_mem (s : Statement) : s.firstWord ∈ ["import", "require", "const", "await", "export"] := by
  cases s with
  | require target => cases target <;> simp [firstWord]
  | _ => simp [firstWord]

theorem Statement.firstWord_isIdentifierChar (s : Statement) : ∀ c ∈ s.firstWord.toList, isIdentifierChar c = true :=
  (by decide : ∀ w ∈ ["import", "require", "const", "await", "export"], ∀ c ∈ w.toList, isIdentifierChar c = true) _
    s.firstWord_mem

theorem Statement.firstWord_ne_nil (s : Statement) : s.firstWord.toList ≠ [] :=
  (by decide : ∀ w ∈ ["import", "require", "const", "await", "export"], w.toList ≠ []) _ s.firstWord_mem

theorem Statement.unread_of_firstWord (s : Statement) {p : Pattern} {words : List String} (hp : Headed p words)
    (hs : s.firstWord ∉ words) (before : Option Char) (rest : List Char) : p.Unread before (s.text ++ rest) := by
  intro x y hxy hread
  obtain ⟨w, hw, c, r, hstart, hintro⟩ := hp _ _ _ hread
  obtain ⟨d, r', htext, hd⟩ := s.exists_firstWord
  have hd : isIdentifierChar d = false := by rcases hd with rfl | rfl <;> decide
  rw [← hxy, htext, List.append_assoc, List.cons_append] at hstart
  have heq := hstart.eq_self s.firstWord_ne_nil s.firstWord_isIdentifierChar
  obtain ⟨hword, -⟩ := Text.run_unique heq hintro.isIdentifierChar (Text.stops_cons.mpr hintro.1)
    s.firstWord_isIdentifierChar (Text.stops_cons.mpr hd)
  rw [← String.toList_inj.mp hword] at hs
  exact hs hw

theorem after_space {c q : Char} {g r r' : List Char} (h : g ++ q :: r = ' ' :: c :: r') (hg : IsGap g)
    (hc : Text.isBlank c = false) : g = [] ∧ q = ' ' ∨ q = c := by
  match g, h with
  | [], h => exact .inl ⟨rfl, (List.cons.inj h).1⟩
  | [_], h => exact .inr (List.cons.inj (List.cons.inj h).2).1
  | _ :: d :: g, h =>
    have hd : d = c := (List.cons.inj (List.cons.inj h).2).1
    rw [← hd, hg d (by simp)] at hc
    cases hc

theorem staticImport_unread_effect (before : Option Char) (source : ModuleName) (rest : List Char) :
    staticImport.Unread before ((Statement.importEffect source).text ++ rest) := by
  intro x y hxy hread
  obtain ⟨g, c, r, hstart, hg, hne, hc⟩ := reads_staticImport hread
  have htext : (Statement.importEffect source).text ++ rest =
      "import".toList ++ ' ' :: '\'' :: (source.text ++ '\'' :: rest) := by
    simp only [Statement.text_importEffect, quoted, List.append_assoc, List.cons_append, List.nil_append]
  rw [← hxy, htext] at hstart
  have heq := List.append_cancel_left (hstart.eq_self (by decide) (by decide))
  obtain ⟨hnil, -⟩ | rfl := after_space heq hg (by decide)
  · exact hne hnil
  · exact absurd hc (by decide)

theorem ImportClause.exists_cons (clause : ImportClause) :
    ∃ c r, clause.text = c :: r ∧ (isIdentifierChar c = true ∨ c = '{' ∨ c = '*') := by
  have hname : ∀ (n : Identifier) r,
      ∃ c r', n.text ++ r = c :: r' ∧ (isIdentifierChar c = true ∨ c = '{' ∨ c = '*') := by
    intro n r
    obtain ⟨c, cs, h, hc⟩ := n.exists_cons
    exact ⟨c, cs ++ r, by rw [h, List.cons_append], .inl hc⟩
  cases clause with
  | whole n =>
    have h := hname n []
    rwa [List.append_nil] at h
  | names l => exact ⟨'{', _, rfl, .inr (.inl rfl)⟩
  | star n => exact ⟨'*', _, rfl, .inr (.inr rfl)⟩
  | wholeAndNames n l => exact hname n _
  | wholeAndStar n starName => exact hname n _

theorem sideEffectImport_unread_clause (before : Option Char) (isType : Bool) (clause : ImportClause)
    (source : ModuleName) (rest : List Char) :
    sideEffectImport.Unread before ((Statement.importClause isType clause source).text ++ rest) := by
  intro x y hxy hread
  obtain ⟨g, q, r, hstart, hg, hq⟩ := reads_sideEffectImport hread
  obtain ⟨c, r', htext, hc⟩ : ∃ c r', (Statement.importClause isType clause source).text ++ rest =
      "import".toList ++ ' ' :: c :: r' ∧ (isIdentifierChar c = true ∨ c = '{' ∨ c = '*') := by
    cases isType with
    | false =>
      obtain ⟨c, r', h, hc⟩ := clause.exists_cons
      refine ⟨c, r' ++ (fromText source ++ rest), ?_, hc⟩
      simp only [Statement.text_importClause, h, List.append_assoc, List.cons_append]
    | true =>
      refine ⟨'t', "ype".toList ++ ' ' :: (clause.text ++ (fromText source ++ rest)), ?_, .inl (by decide)⟩
      have htype : "type".toList = 't' :: "ype".toList := by decide
      simp only [Statement.text_importTypeClause, htype, List.append_assoc, List.cons_append]
  have hblank : Text.isBlank c = false := by
    rcases hc with hc | rfl | rfl
    · exact isBlank_of_isIdentifierChar hc
    · decide
    · decide
  rw [← hxy, htext] at hstart
  have heq := List.append_cancel_left (hstart.eq_self (by decide) (by decide))
  obtain ⟨-, rfl⟩ | rfl := after_space heq hg hblank
  · exact absurd hq (by decide)
  · rcases hc with hc | rfl | rfl
    · rcases Bool.or_eq_true _ _ |>.mp hq with hq | hq <;> exact ne_of_class hc (by decide) (beq_iff_eq.mp hq)
    · exact absurd hq (by decide)
    · exact absurd hq (by decide)

end Starts

section Exports

def Form.mark : Form → String
  | .exportDefault => "default"
  | .declaration d => d.keyword
  | .exportNames => "\x7b"
  | .exportStar => "*"
  | _ => ""

/-- The words and signs after `export` with which a form can be read. -/
def Form.openers : Form → List String
  | .exportDefault => ["default"]
  | .declaration .constant => ["declare", "const", "let", "var"]
  | .declaration .function => ["declare", "async", "function"]
  | .declaration .classDefinition => ["declare", "abstract", "class"]
  | .declaration .type => ["declare", "type"]
  | .declaration .interface => ["declare", "interface"]
  | .declaration .enum => ["declare", "const", "enum"]
  | .exportNames => ["type", "\x7b"]
  | .exportStar => ["*"]
  | _ => []

theorem opens_keyword (w : String) : (keyword w).Opens [w] :=
  (opens_text w).seq _

theorem Form.exists_tail {f : Form} (hf : f.words = ["export"]) :
    ∃ ps, f.pattern = inOrder (exportHead :: ps) ∧ (inOrder ps).Opens f.openers := by
  have hdeclare : ∀ {p : Pattern} {openers : List String}, p.Opens openers →
      (Pattern.seq declareMark p).Opens ("declare" :: openers) := fun h => (opens_keyword "declare").optional_seq h
  cases f with
  | clauseImport | effectImport | requireCall | importCall | moduleAssignment | propertyAssignment => simp [words] at hf
  | exportDefault => exact ⟨_, rfl, (opens_keyword "default").seq _⟩
  | declaration d =>
    cases d with
    | constant =>
      exact ⟨_, rfl, hdeclare (((opens_text "const").either ((opens_text "let").either (opens_text "var"))).seq _)⟩
    | function => exact ⟨_, rfl, hdeclare ((opens_keyword "async").optional_seq ((opens_text "function").seq _))⟩
    | classDefinition =>
      exact ⟨_, rfl, hdeclare ((opens_keyword "abstract").optional_seq ((opens_keyword "class").seq _))⟩
    | type => exact ⟨_, rfl, hdeclare ((opens_keyword "type").seq _)⟩
    | interface => exact ⟨_, rfl, hdeclare ((opens_keyword "interface").seq _)⟩
    | enum => exact ⟨_, rfl, hdeclare ((opens_keyword "const").optional_seq ((opens_keyword "enum").seq _))⟩
  | exportNames => exact ⟨_, rfl, Opens.optional_seq (opens_keyword "type") (((opens_char (by decide)).seq _).seq _)⟩
  | exportStar => exact ⟨_, rfl, (opens_char (by decide)).seq _⟩

/-- At an export, a form is read only if what follows the keyword can be read as the rest of the form. -/
theorem unread_export {ps : List Pattern} {r : List Char} (hr : Stops Text.isBlank r)
    (h : ∀ b, (inOrder ps).Unread b r) (before : Option Char) :
    (inOrder (exportHead :: ps)).Unread before ("export".toList ++ ' ' :: r) := by
  intro x y hxy hread
  obtain ⟨g, u, v, b, hstart, hg, -, hstop, htail⟩ := reads_export hread
  rw [← hxy] at hstart
  have heq : g ++ (u ++ v) = [' '] ++ r := List.append_cancel_left (hstart.eq_self (by decide) (by decide))
  obtain ⟨-, hr⟩ := Text.run_unique heq hg hstop Text.isGap_space hr
  exact h b u v hr.symm htail

def exportForms : List Form := [
  .exportDefault, .declaration .constant, .declaration .function, .declaration .classDefinition, .declaration .type,
  .declaration .interface, .declaration .enum, .exportNames, .exportStar]

theorem Form.mem_exportForms {f : Form} (hf : f.words = ["export"]) : f ∈ exportForms := by
  cases f with
  | declaration d => cases d <;> decide
  | exportDefault | exportNames | exportStar => decide
  | _ => simp [words] at hf

/-- The two pairs of forms of which the first can start as the second does. -/
def Form.Overlaps (f f' : Form) : Prop :=
  f = .declaration .enum ∧ f' = .declaration .constant ∨ f = .exportNames ∧ f' = .declaration .type

instance (f f' : Form) : Decidable (f.Overlaps f') :=
  inferInstanceAs (Decidable (_ ∨ _))

theorem Form.clash : ∀ f ∈ exportForms, ∀ f' ∈ exportForms, f ≠ f' → ¬ f.Overlaps f' →
    ∀ w ∈ f.openers, Clash w f'.mark := by
  decide +kernel

theorem Form.stops_mark : ∀ f ∈ exportForms, ∃ c ∈ f.mark.toList.head?, Text.isBlank c = false := by
  decide +kernel

theorem Statement.exists_mark (s : Statement) (h : s.form.words = ["export"]) :
    ∃ r, s.text = "export".toList ++ ' ' :: (s.form.mark.toList ++ r) := by
  cases s with
  | importEffect | importClause | require | importCall => simp [form, Form.words] at h
  | declare d n => exact ⟨_, rfl⟩
  | exportDefault n => exact ⟨_, rfl⟩
  | exportNames l hl source =>
    exact ⟨l.text ++ '}' :: source.elim [] fromText, by simp [text_exportNames, ItemList.braced, form, Form.mark]⟩
  | exportStar name source =>
    exact ⟨name.elim [] (fun n => " as ".toList ++ n.text) ++ fromText source,
      by simp [text_exportStar, form, Form.mark]⟩

theorem reads_keyword {w : String} {before : Option Char} {s rest : List Char} (h : (keyword w).Reads before s rest) :
    ∃ g, s = w.toList ++ g ∧ IsGap g ∧ g ≠ [] ∧ Stops Text.isBlank rest := by
  obtain ⟨_, g, rfl, hw, hg⟩ := h
  obtain ⟨hne, hgap, hstop⟩ := reads_run1.mp hg
  exact ⟨g, by rw [reads_text.mp hw], hgap, hne, hstop⟩

theorem keyword_cancel {w g r r' : List Char} (h : w ++ (g ++ r) = w ++ ' ' :: r') (hg : IsGap g)
    (hr : Stops Text.isBlank r) (hr' : Stops Text.isBlank r') : r = r' :=
  (Text.run_unique (List.append_cancel_left h : g ++ r = [' '] ++ r') hg hr Text.isGap_space hr').2

/-- At a declaration, a form is read only if its keyword and name can be read as the rest of the form. -/
theorem unread_declare {ps : List Pattern} (d : Declarator) (n : Identifier) (before : Option Char) (rest : List Char)
    (h : ∀ b, (inOrder ps).Unread b (d.keyword.toList ++ ' ' :: (n.text ++ (d.body.toList ++ rest)))) :
    (inOrder (exportHead :: ps)).Unread before ((Statement.declare d n).text ++ rest) := by
  have hword : Stops Text.isBlank (d.keyword.toList ++ ' ' :: (n.text ++ (d.body.toList ++ rest))) := by
    cases d <;> exact Text.stops_cons.mpr (by decide)
  simp only [Statement.text_declare, List.append_assoc, List.cons_append]
  exact unread_export hword h before

theorem exportEnum_unread_constant (before : Option Char) (n : Identifier) (rest : List Char) :
    exportEnum.Unread before ((Statement.declare .constant n).text ++ rest) := by
  refine unread_declare .constant n before rest fun b u v huv hread => ?_
  rw [Declarator.keyword, Declarator.body] at huv
  have hn : Stops Text.isBlank (n.text ++ (" = 1".toList ++ rest)) := (n.startsSolid.append _).stops
  obtain ⟨m, _, rfl, hm, hread⟩ := reads_inOrder_cons.mp hread
  obtain ⟨m', _, rfl, hm', hread⟩ := reads_inOrder_cons.mp hread
  obtain ⟨_, z, rfl, henum, -⟩ := reads_inOrder_cons.mp hread
  obtain ⟨g, rfl, hg, hne, -⟩ := reads_keyword henum
  rcases hm with hm | rfl
  · obtain ⟨g', rfl, -⟩ := reads_keyword hm
    simp only [List.append_assoc] at huv
    exact (by decide : Clash "declare" "const").ne _ _ huv
  rcases hm' with hm' | rfl
  · obtain ⟨g', rfl, hg', -, hstop⟩ := reads_keyword hm'
    have henum : Stops Text.isBlank ("enum".toList ++ (g ++ (z ++ v))) := Text.stops_cons.mpr (by decide)
    have heq := keyword_cancel (w := "const".toList) (by rw [huv]; simp only [List.append_assoc, List.nil_append]) hg'
      henum hn
    obtain ⟨c, g, rfl⟩ := List.exists_cons_of_ne_nil hne
    have hc : isIdentifierChar c = false := isIdentifierChar_of_isBlank (hg c List.mem_cons_self)
    obtain ⟨hname, -⟩ := Text.run_unique heq (by decide) (Text.stops_cons.mpr hc) n.parts
      (Text.stops_cons.mpr (by decide))
    exact n.ne_of_mem_reserved (by decide) hname.symm
  · simp only [List.append_assoc, List.nil_append] at huv
    exact (by decide : Clash "enum" "const").ne _ _ huv

theorem exportList_unread_type (before : Option Char) (n : Identifier) (rest : List Char) :
    exportList.Unread before ((Statement.declare .type n).text ++ rest) := by
  refine unread_declare .type n before rest fun b u v huv hread => ?_
  rw [Declarator.keyword, Declarator.body] at huv
  have hn : Stops Text.isBlank (n.text ++ (" = 1".toList ++ rest)) := (n.startsSolid.append _).stops
  obtain ⟨m, _, rfl, hm, hread⟩ := reads_inOrder_cons.mp hread
  obtain ⟨_, z, rfl, hbraced, -⟩ := reads_inOrder_cons.mp hread
  obtain ⟨_, z', rfl, ⟨c, rfl, hc⟩, -⟩ := reads_inOrder_cons.mp hbraced
  rw [beq_iff_eq.mp hc] at huv
  rcases hm with hm | rfl
  · obtain ⟨g, rfl, hg, -, -⟩ := reads_keyword hm
    have hbrace : Stops Text.isBlank ('{' :: (z' ++ (z ++ v))) := Text.stops_cons.mpr (by decide)
    have heq := keyword_cancel (w := "type".toList)
      (by rw [huv]; simp only [List.append_assoc, List.cons_append, List.nil_append]) hg hbrace hn
    obtain ⟨d, cs, h, hd⟩ := n.exists_cons
    rw [h] at heq
    exact ne_of_class hd (by decide) (List.cons.inj heq).1.symm
  · exact absurd (List.cons.inj huv).1 (by decide)

theorem Statement.eq_declare_of_form {s : Statement} {d : Declarator} (h : s.form = .declaration d) :
    ∃ n, s = .declare d n := by
  cases s with
  | declare d' n => exact ⟨n, by rw [Form.declaration.inj h]⟩
  | _ => cases h

theorem Form.unread_export_start {f : Form} (s : Statement) (hf : f.words = ["export"]) (hs : s.form.words = ["export"])
    (hne : f ≠ s.form) (before : Option Char) (rest : List Char) : f.pattern.Unread before (s.text ++ rest) := by
  by_cases hover : f.Overlaps s.form
  · rcases hover with ⟨rfl, hform⟩ | ⟨rfl, hform⟩
    · obtain ⟨n, rfl⟩ := Statement.eq_declare_of_form hform
      exact exportEnum_unread_constant before n rest
    · obtain ⟨n, rfl⟩ := Statement.eq_declare_of_form hform
      exact exportList_unread_type before n rest
  · obtain ⟨ps, hp, hopens⟩ := Form.exists_tail hf
    obtain ⟨r, htext⟩ := s.exists_mark hs
    have hmark : Stops Text.isBlank (s.form.mark.toList ++ (r ++ rest)) := by
      obtain ⟨c, hc, hblank⟩ := Form.stops_mark s.form (Form.mem_exportForms hs)
      obtain ⟨cs, hcs⟩ := List.head?_eq_some_iff.mp hc
      rw [hcs]
      exact Text.stops_cons.mpr hblank
    rw [hp, htext, List.append_assoc, List.cons_append, List.append_assoc]
    refine unread_export hmark (fun b u v huv hread => ?_) before
    obtain ⟨w, hw, hwu⟩ := hopens _ _ _ hread
    have hclash := Form.clash f (Form.mem_exportForms hf) s.form (Form.mem_exportForms hs) hne hover w hw
    exact hclash.not_prefix_append (r ++ rest) (by rw [huv]; exact hwu.trans (List.prefix_append u v))

theorem Statement.unread_start (s : Statement) {f : Form} (hcall : f.isCall = false) (hf : f ≠ s.form)
    (before : Option Char) (rest : List Char) : f.pattern.Unread before (s.text ++ rest) := by
  by_cases hword : s.firstWord ∈ f.words
  · cases s with
    | importEffect source =>
      cases f with
      | clauseImport => exact staticImport_unread_effect before source rest
      | effectImport => exact absurd rfl hf
      | _ => exact absurd hword (by simp [firstWord, Form.words])
    | importClause isType clause source =>
      cases f with
      | clauseImport => exact absurd rfl hf
      | effectImport => exact sideEffectImport_unread_clause before isType clause source rest
      | _ => exact absurd hword (by simp [firstWord, Form.words])
    | require target => cases target <;> cases f <;> exact absurd hword (by simp [firstWord, Form.words])
    | importCall => cases f <;> exact absurd hword (by simp [firstWord, Form.words])
    | declare | exportDefault | exportNames | exportStar =>
      refine Form.unread_export_start _ ?_ rfl hf before rest
      cases f with
      | exportDefault | declaration | exportNames | exportStar => rfl
      | _ => exact absurd hword (by simp [firstWord, Form.words])
  · exact s.unread_of_firstWord (Form.headed hcall) hword before rest

end Exports

section Calls

def StartsCall (w : String) (t : List Char) : Prop :=
  ∃ g g' q r, t = w.toList ++ (g ++ '(' :: (g' ++ q :: r)) ∧ IsGap g ∧ IsGap g' ∧ Text.isQuote q = true

theorem reads_callOfSource {w : String} {before : Option Char} {s rest : List Char}
    (h : (inOrder [text w, callOfSource]).Reads before s rest) : StartsCall w s := by
  obtain ⟨_, _, rfl, hw, h⟩ := reads_inOrder_cons.mp h
  obtain ⟨_, _, rfl, hcall, rfl⟩ := reads_inOrder_cons.mp h
  obtain ⟨g, _, rfl, hg, h⟩ := reads_inOrder_cons.mp hcall
  obtain ⟨_, _, rfl, ⟨c, rfl, hc⟩, h⟩ := reads_inOrder_cons.mp h
  obtain ⟨g', _, rfl, hg', h⟩ := reads_inOrder_cons.mp h
  obtain ⟨_, r, rfl, hsource, h⟩ := reads_inOrder_cons.mp h
  obtain ⟨_, r', rfl, ⟨q, rfl, hq⟩, -⟩ := reads_inOrder_cons.mp hsource
  rw [reads_text.mp hw, beq_iff_eq.mp hc]
  exact ⟨g, g', q, r' ++ r, by simp, (reads_run.mp hg).1, (reads_run.mp hg').1, hq⟩

theorem StartsCall.before_semicolon {w : String} {s rest u r : List Char} (h : StartsCall w s) (hw : ';' ∉ w.toList)
    (hsplit : s ++ rest = u ++ ';' :: r) : StartsCall w u := by
  obtain ⟨g, g', q, r', rfl, hg, hg', hq⟩ := h
  have hgap : ∀ {g}, IsGap g → ';' ∉ g := fun hg hmem => ne_of_class (hg _ hmem) (by decide) rfl
  have hquote : ';' ≠ q := (ne_of_class hq (by decide)).symm
  obtain ⟨t, rfl, -⟩ := Text.exists_before_landmark (x := w.toList ++ (g ++ '(' :: (g' ++ [q]))) (y := r' ++ rest)
    (by simpa using hsplit) (by simp [hw, hgap hg, hgap hg', hquote])
  exact ⟨g, g', q, t, by simp, hg, hg', hq⟩

theorem Tame.close_mem {t u v : List Char} (ht : Tame t) (h : t = u ++ '{' :: v) : '}' ∈ v := by
  obtain ht | ⟨a, l, b, rfl, ha, hb, hl, -⟩ := ht
  · exact absurd rfl (ne_of_class (ht '{' (by simp [h])) (by decide))
  · have hopen : '{' ∉ a := fun hmem => ne_of_class (ha _ hmem) (by decide) rfl
    have hrest : '{' ∉ l ++ '}' :: b := by
      intro hmem
      rcases List.mem_append.mp hmem with hmem | hmem
      · exact ne_of_class (hl _ hmem) (by decide) rfl
      · rcases List.mem_cons.mp hmem with hmem | hmem
        · exact absurd hmem (by decide)
        · exact ne_of_class (hb _ hmem) (by decide) rfl
    obtain ⟨w, -, hw⟩ := Text.exists_before_landmark h hopen
    cases w with
    | nil =>
      obtain ⟨-, rfl⟩ := List.cons.inj hw
      simp
    | cons c w =>
      obtain ⟨-, hw⟩ := List.cons.inj hw
      exact absurd (by simp [hw]) hrest

theorem opens_requireCall : Curly.requireCall.Opens ["const", "let", "var", "require"] :=
  Opens.optional_seq (((opens_text "const").either ((opens_text "let").either (opens_text "var"))).seq _)
    (((opens_text "require").seq _).anchor_seq _)

theorem opens_dynamicImport : dynamicImport.Opens ["import"] :=
  ((opens_text "import").seq _).anchor_seq _

theorem reads_dynamicImport {before : Option Char} {s rest v r : List Char} (h : dynamicImport.Reads before s rest)
    (hsplit : v ++ ';' :: r = s ++ rest) : StartsCall "import" v := by
  obtain ⟨_, _, rfl, ⟨rfl, -⟩, h⟩ := reads_inOrder_cons.mp h
  exact (reads_callOfSource h).before_semicolon (by decide) hsplit.symm

def requireLead : Pattern :=
  inOrder [oneOf (text "const") [text "let", text "var"], blanks1,
    .part .binding (.either (braced id) (run1 Text.isNameChar)), blanks, .one (· == '='), blanks]

/-- What stands before a call of require holds no semicolon, but for what stands in braces. -/
theorem reads_requireLead {before : Option Char} {s rest : List Char} (h : requireLead.Reads before s rest) :
    ';' ∉ s ∨ ∃ a m b, s = a ++ '{' :: (m ++ '}' :: b) ∧ ';' ∉ a ∧ '}' ∉ m ∧ ';' ∉ b := by
  have hgap : ∀ {b g rest}, blanks.Reads b g rest → ';' ∉ g := fun hg hmem =>
    ne_of_class ((reads_run.mp hg).1 _ hmem) (by decide) rfl
  obtain ⟨w, _, rfl, hw, h⟩ := reads_inOrder_cons.mp h
  obtain ⟨g, _, rfl, hg, h⟩ := reads_inOrder_cons.mp h
  obtain ⟨binding, _, rfl, hbinding, h⟩ := reads_inOrder_cons.mp h
  obtain ⟨g', _, rfl, hg', h⟩ := reads_inOrder_cons.mp h
  obtain ⟨_, _, rfl, ⟨e, rfl, he⟩, h⟩ := reads_inOrder_cons.mp h
  obtain ⟨g'', _, rfl, hg'', rfl⟩ := reads_inOrder_cons.mp h
  have hlead : ';' ∉ w ++ g := by
    have hword : ';' ∉ w := by
      rcases hw with hw | hw | hw <;> rw [reads_text.mp hw] <;> decide
    have hblank : ';' ∉ g := fun hmem => ne_of_class ((reads_run1.mp hg).2.1 _ hmem) (by decide) rfl
    simp [hword, hblank]
  have hequals : ';' ∉ g' ++ e :: g'' := by
    rw [beq_iff_eq.mp he]
    simp [hgap hg', hgap hg'']
  rcases hbinding with hbraced | hname
  · obtain ⟨_, _, rfl, ⟨c, rfl, hc⟩, hbraced⟩ := reads_inOrder_cons.mp hbraced
    obtain ⟨m, _, rfl, hm, hbraced⟩ := reads_inOrder_cons.mp hbraced
    obtain ⟨_, _, rfl, ⟨d, rfl, hd⟩, rfl⟩ := reads_inOrder_cons.mp hbraced
    rw [beq_iff_eq.mp hc, beq_iff_eq.mp hd]
    have hclose : '}' ∉ m := fun hmem => absurd ((reads_run.mp hm).1 _ hmem) (by decide)
    exact .inr ⟨w ++ g, m, g' ++ e :: g'', by simp, hlead, hclose, hequals⟩
  · have hbinding : ';' ∉ binding := fun hmem => ne_of_class ((reads_run1.mp hname).2.1 _ hmem) (by decide) rfl
    simp only [List.mem_append, List.append_nil, List.singleton_append, not_or] at hlead hequals ⊢
    exact .inl ⟨hlead.1, hlead.2, hbinding, hequals⟩

theorem reads_requireCall {before : Option Char} {s rest t u v r : List Char} (ht : Tame t) (htext : t = u ++ v)
    (h : Curly.requireCall.Reads before s rest) (hsplit : v ++ ';' :: r = s ++ rest) :
    ∃ x y, t = x ++ y ∧ StartsCall "require" y := by
  obtain ⟨o, _, rfl, ho, h⟩ := reads_inOrder_cons.mp h
  obtain ⟨_, c, rfl, ⟨rfl, -⟩, h⟩ := reads_inOrder_cons.mp h
  have hcall := reads_callOfSource h
  rw [List.append_assoc, List.nil_append] at hsplit
  -- Once the text up to the call is known to hold no semicolon, the call starts before the semicolon.
  have hafter : ∀ {x v y}, t = x ++ v → v ++ ';' :: r = y ++ (c ++ rest) → ';' ∉ y →
      ∃ x y, t = x ++ y ∧ StartsCall "require" y := by
    intro x v y ht hv hy
    obtain ⟨v', rfl, hv'⟩ := Text.exists_before_landmark hv.symm hy
    exact ⟨x ++ y, v', by rw [ht, List.append_assoc], hcall.before_semicolon (by decide) hv'⟩
  rcases ho with ho | rfl
  · rcases reads_requireLead ho with ho | ⟨a, m, b, rfl, ha, hm, hb⟩
    · exact hafter htext hsplit ho
    · -- The closing brace stands before the semicolon, as every brace is closed in its own statement.
      obtain ⟨v', rfl, hv'⟩ := Text.exists_before_landmark (x := a ++ ['{']) (y := m ++ '}' :: (b ++ (c ++ rest)))
        (by simpa using hsplit.symm) (by simpa using ha)
      have hclose : '}' ∈ v' := ht.close_mem (u := u ++ a) (by simpa using htext)
      obtain ⟨m', v'', rfl, hm'⟩ := List.eq_append_cons_of_mem hclose
      have hstop : ∀ x, Stops (· != '}') ('}' :: x) := fun x => Text.stops_cons.mpr (by decide)
      have hfree : ∀ {m : List Char}, '}' ∉ m → ∀ d ∈ m, (d != '}') = true := fun hm d hd =>
        bne_iff_ne.mpr fun heq => hm (heq ▸ hd)
      have hsame : m ++ '}' :: (b ++ (c ++ rest)) = m' ++ '}' :: (v'' ++ ';' :: r) := by simpa using hv'
      obtain ⟨-, hv''⟩ := Text.run_unique hsame (hfree hm) (hstop _) (hfree hm') (hstop _)
      exact hafter (x := u ++ (a ++ '{' :: (m' ++ ['}']))) (by simpa using htext) (List.cons.inj hv'').2.symm hb
  · exact hafter htext (by simpa using hsplit) (y := []) (by simp)

theorem Identifier.paren_not_mem (n : Identifier) : '(' ∉ n.text :=
  fun h => ne_of_class (n.parts _ h) (by decide) rfl

theorem ItemList.paren_not_mem (l : ItemList) : '(' ∉ l.text :=
  fun h => ne_of_class (l.listChars _ h) (by decide) rfl

theorem quoted_paren_not_mem (source : ModuleName) : '(' ∉ quoted source := by
  have hsource : '(' ∉ source.text := fun h => ne_of_class (source.parts _ h) (by decide) rfl
  simp [quoted, hsource]

theorem fromText_paren_not_mem (source : ModuleName) : '(' ∉ fromText source := by
  simp [fromText, quoted_paren_not_mem]

theorem ItemList.braced_paren_not_mem (l : ItemList) : '(' ∉ l.braced := by
  simp [braced, l.paren_not_mem]

theorem ImportClause.paren_not_mem (clause : ImportClause) : '(' ∉ clause.text := by
  have hstar : ∀ n, '(' ∉ starText n := fun n => by simp [starText, n.paren_not_mem]
  cases clause <;> simp [text, Identifier.paren_not_mem, hstar, ItemList.braced_paren_not_mem]

theorem RequireTarget.lead_paren_not_mem (target : RequireTarget) : '(' ∉ target.lead := by
  cases target <;> simp [lead, text, Identifier.paren_not_mem, ItemList.braced_paren_not_mem]

theorem function_no_call (n : Identifier) {x g r : List Char} {q : Char} (hg : IsGap g) (hq : Text.isQuote q = true) :
    (Statement.declare .function n).text ≠ x ++ '(' :: (g ++ q :: r) := by
  intro h
  have hname : '(' ∉ "export function ".toList ++ n.text := by simp [n.paren_not_mem]
  have htext : ("export function ".toList ++ n.text) ++ ['(', ')', ' ', '{', '}'] = x ++ '(' :: (g ++ q :: r) := by
    rw [← h]
    simp [Statement.text_declare, Declarator.keyword, Declarator.body]
  obtain ⟨z, -, hz⟩ := Text.exists_before_landmark htext hname
  cases z with
  | cons c z =>
    obtain ⟨-, hz⟩ := List.cons.inj hz
    exact absurd (by simp [hz] : '(' ∈ [')', ' ', '{', '}']) (by decide)
  | nil =>
    obtain ⟨-, hz⟩ := List.cons.inj hz
    cases g with
    | nil =>
      obtain ⟨rfl, -⟩ := List.cons.inj hz
      exact absurd hq (by decide)
    | cons c g =>
      obtain ⟨rfl, -⟩ := List.cons.inj hz
      exact absurd (hg ')' List.mem_cons_self) (by decide)

theorem Statement.no_call (s : Statement) (hs : s.form.isCall = false) {x g r : List Char} {q : Char} (hg : IsGap g)
    (hq : Text.isQuote q = true) : s.text ≠ x ++ '(' :: (g ++ q :: r) := by
  intro h
  have hmem : '(' ∈ s.text := by simp [h]
  cases s with
  | importEffect source => simp [text_importEffect, quoted_paren_not_mem] at hmem
  | importClause isType clause source =>
    cases isType with
    | false => simp [text_importClause, clause.paren_not_mem, fromText_paren_not_mem] at hmem
    | true => simp [text_importTypeClause, clause.paren_not_mem, fromText_paren_not_mem] at hmem
  | require | importCall => cases hs
  | declare d n =>
    cases d with
    | function => exact function_no_call n hg hq h
    | _ => simp [text_declare, Declarator.keyword, Declarator.body, n.paren_not_mem] at hmem
  | exportDefault n => simp [text_exportDefault, n.paren_not_mem] at hmem
  | exportNames l hl source =>
    cases source <;> simp [text_exportNames, l.braced_paren_not_mem, fromText_paren_not_mem] at hmem
  | exportStar name source =>
    cases name <;> simp [text_exportStar, Identifier.paren_not_mem, fromText_paren_not_mem] at hmem

theorem word_of_call {a b x y : List Char} {w : String} (h : a ++ '(' :: b = x ++ y) (hy : StartsCall w y)
    (ha : '(' ∉ a) (hb : '(' ∉ b) : ∃ g, a = x ++ (w.toList ++ g) ∧ IsGap g := by
  obtain ⟨g, g', q, r, rfl, hg, -⟩ := hy
  obtain ⟨z, hz, hz'⟩ := Text.exists_before_landmark (u := x ++ (w.toList ++ g)) (v := g' ++ q :: r)
    (by simpa using h) ha
  cases z with
  | nil => exact ⟨g, by simpa using hz.symm, hg⟩
  | cons c z =>
    obtain ⟨-, hz'⟩ := List.cons.inj hz'
    exact absurd (by simp [hz']) hb

theorem callText_paren (source : ModuleName) : ∃ b, callText source = '(' :: b ∧ '(' ∉ b :=
  ⟨_, rfl, by simp [quoted_paren_not_mem]⟩

theorem gap_eq_nil {a x g : List Char} (h : a = x ++ g) (hg : IsGap g) (ha : Text.EndsSolid a) : g = [] := by
  obtain ⟨cs, c, rfl, hc⟩ := ha
  by_contra hne
  have hlast := congrArg List.getLast? h
  rw [List.getLast?_append_of_ne_nil x hne, List.getLast?_append_of_ne_nil cs (by simp),
    List.getLast?_singleton] at hlast
  rw [hg c (List.mem_of_mem_getLast? hlast.symm)] at hc
  cases hc

theorem call_lead (source : ModuleName) {a x y : List Char} {w : String} (h : a ++ callText source = x ++ y)
    (hy : StartsCall w y) (ha : '(' ∉ a) (hsolid : Text.EndsSolid a) : a = x ++ w.toList := by
  obtain ⟨b, hcall, hb⟩ := callText_paren source
  rw [hcall] at h
  obtain ⟨g, heq, hg⟩ := word_of_call h hy ha hb
  rw [← List.append_assoc] at heq
  rwa [gap_eq_nil heq hg hsolid, List.append_nil] at heq

theorem importCall_lead {source : ModuleName} {x y : List Char} {w : String}
    (h : (Statement.importCall source).text = x ++ y) (hy : StartsCall w y) :
    "await import".toList = x ++ w.toList := by
  refine call_lead source ?_ hy (by decide) ⟨"await impor".toList, 't', by decide, by decide⟩
  rw [← h, Statement.text_importCall]
  simp

theorem require_lead {target : RequireTarget} {source : ModuleName} {x y : List Char} {w : String}
    (h : (Statement.require target source).text = x ++ y) (hy : StartsCall w y) :
    target.lead ++ "require".toList = x ++ w.toList := by
  have hsolid : Text.EndsSolid "require".toList := ⟨"requir".toList, 'e', by decide, by decide⟩
  refine call_lead source ?_ hy (by simp [target.lead_paren_not_mem]) (hsolid.append _)
  rw [← h, Statement.text_require]
  simp

theorem Statement.exists_split (s : Statement) {p : Pattern} {openers : List String} (hp : p.Opens openers)
    (hopeners : ∀ w ∈ openers, ∃ c ∈ w.toList.head?, isIdentifierChar c = true) {u v : List Char}
    (huv : s.text ++ [';', '\n'] = u ++ v) (hv : v ≠ []) {before : Option Char} {x y rest : List Char}
    (hxy : v ++ rest = x ++ y) (hread : p.Reads before x y) : ∃ v', v = v' ++ [';', '\n'] ∧ s.text = u ++ v' := by
  obtain ⟨w, hw, z, rfl⟩ := hp _ _ _ hread
  obtain ⟨c, hc, hident⟩ := hopeners w hw
  obtain ⟨cs, hcs⟩ := List.head?_eq_some_iff.mp hc
  obtain ⟨d, v, rfl⟩ := List.exists_cons_of_ne_nil hv
  rw [hcs] at hxy
  obtain ⟨rfl, -⟩ := List.cons.inj hxy
  rcases List.append_eq_append_iff.mp huv with ⟨t, -, ht⟩ | ⟨t, htext, ht⟩
  · have hmem : d ∈ [';', '\n'] := by simp [ht]
    simp only [List.mem_cons, List.not_mem_nil, or_false] at hmem
    rcases hmem with rfl | rfl <;> exact absurd hident (by decide)
  · exact ⟨t, ht, htext⟩

theorem Statement.startsCall_of_dynamicImport (s : Statement) {u v : List Char} (huv : s.text ++ [';', '\n'] = u ++ v)
    (hv : v ≠ []) {before : Option Char} {x y rest : List Char} (hxy : v ++ rest = x ++ y)
    (hread : dynamicImport.Reads before x y) : ∃ v', s.text = u ++ v' ∧ StartsCall "import" v' := by
  obtain ⟨v', rfl, htext⟩ := s.exists_split opens_dynamicImport (by decide) huv hv hxy hread
  exact ⟨v', htext, reads_dynamicImport hread (r := '\n' :: rest) (by simpa using hxy)⟩

theorem Statement.startsCall_of_requireCall (s : Statement) {u v : List Char} (huv : s.text ++ [';', '\n'] = u ++ v)
    (hv : v ≠ []) {before : Option Char} {x y rest : List Char} (hxy : v ++ rest = x ++ y)
    (hread : Curly.requireCall.Reads before x y) : ∃ u' v', s.text = u' ++ v' ∧ StartsCall "require" v' := by
  obtain ⟨v', rfl, htext⟩ := s.exists_split opens_requireCall (by decide) huv hv hxy hread
  exact reads_requireCall s.tame htext hread (r := '\n' :: rest) (by simpa using hxy)

theorem Statement.unread_call (s : Statement) {f : Form} (hcall : f.isCall = true) (hf : f ≠ s.form) {u v : List Char}
    (huv : s.text ++ [';', '\n'] = u ++ v) (hv : v ≠ []) (before : Option Char) (rest : List Char) :
    f.pattern.Unread before (v ++ rest) := by
  intro x y hxy hread
  obtain ⟨w, u', v', htext, hw, hstarts⟩ : ∃ w u' v', s.text = u' ++ v' ∧
      (f = .importCall ∧ w = "import" ∨ f = .requireCall ∧ w = "require") ∧ StartsCall w v' := by
    cases f with
    | importCall =>
      obtain ⟨v', htext, hstarts⟩ := s.startsCall_of_dynamicImport huv hv hxy hread
      exact ⟨_, _, _, htext, .inl ⟨rfl, rfl⟩, hstarts⟩
    | requireCall =>
      obtain ⟨u', v', htext, hstarts⟩ := s.startsCall_of_requireCall huv hv hxy hread
      exact ⟨_, _, _, htext, .inr ⟨rfl, rfl⟩, hstarts⟩
    | _ => cases hcall
  by_cases hs : s.form.isCall = true
  · cases s with
    | importCall source =>
      have hlast := congrArg List.getLast? (importCall_lead htext hstarts)
      obtain ⟨rfl, rfl⟩ | ⟨rfl, rfl⟩ := hw
      · exact hf rfl
      · rw [List.getLast?_append] at hlast
        exact absurd hlast (by simp)
    | require target source =>
      have hlast := congrArg List.getLast? (require_lead htext hstarts)
      obtain ⟨rfl, rfl⟩ | ⟨rfl, rfl⟩ := hw
      · rw [List.getLast?_append, List.getLast?_append] at hlast
        exact absurd hlast (by simp)
      · exact hf rfl
    | _ => cases hs
  · obtain ⟨g, g', q, r, rfl, -, hg', hq⟩ := hstarts
    exact s.no_call (by simpa using hs) (x := u' ++ (w.toList ++ g)) hg' hq (by simpa using htext)

end Calls

section Silence

theorem Statement.unread (s : Statement) {f : Form} (hf : f ≠ s.form) {u v : List Char}
    (huv : s.text ++ [';', '\n'] = u ++ v) (hv : v ≠ []) (before : Option Char) (rest : List Char) :
    f.pattern.Unread (u.getLast?.or before) (v ++ rest) := by
  by_cases hcall : f.isCall = true
  · exact s.unread_call hcall hf huv hv _ rest
  · rw [Bool.not_eq_true] at hcall
    by_cases hu : u = []
    · rw [hu, List.nil_append] at huv
      rw [← huv, List.append_assoc]
      exact s.unread_start hcall hf _ _
    · exact s.unread_inside (Form.headed hcall) huv hu hv before rest

theorem Form.unread_nil (f : Form) (before : Option Char) : f.pattern.Unread before [] := by
  by_cases hcall : f.isCall = true
  · cases f with
    | requireCall => exact opens_requireCall.unread (by decide)
    | importCall => exact opens_dynamicImport.unread (by decide)
    | _ => cases hcall
  · rw [Bool.not_eq_true] at hcall
    intro x y hxy hread
    obtain ⟨w, -, c, r, ⟨a, g, ht, -⟩, -⟩ := Form.headed hcall _ _ _ hread
    rw [← hxy] at ht
    simp at ht

end Silence

end ModuleGraph.Curly
