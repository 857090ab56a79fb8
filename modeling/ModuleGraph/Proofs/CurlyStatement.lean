import ModuleGraph.Curly.Extract
import ModuleGraph.Proofs.TextPieces

namespace ModuleGraph.Curly

open Text (isAsciiWord ne_of_class Gap)

/-- The words that are no identifiers: the keywords, and the three words that mark the parts of an import. -/
def reservedWords : List String := [
  "await", "break", "case", "catch", "class", "const", "continue", "debugger", "default", "delete", "do", "else",
  "enum", "export", "extends", "false", "finally", "for", "function", "if", "import", "in", "instanceof", "new",
  "null", "return", "super", "switch", "this", "throw", "true", "try", "typeof", "var", "void", "while", "with",
  "yield", "type", "as", "from"]

def isIdentifierChar (c : Char) : Bool :=
  isAsciiWord c || c == '$'

/-- An identifier: ASCII letters, digits, underscores and dollar signs, not led by a digit and not reserved. -/
structure Identifier where
  text : List Char
  start : text.head?.any (fun c => Text.isNameStart c || c == '$') = true
  parts : ∀ c ∈ text, isIdentifierChar c = true
  free : String.ofList text ∉ reservedWords

def isSpecifierChar (c : Char) : Bool :=
  isAsciiWord c || ['@', '.', '/', '-'].contains c

/-- A module specifier, without its quotes. -/
structure ModuleName where
  text : List Char
  nonempty : text ≠ []
  parts : ∀ c ∈ text, isSpecifierChar c = true

structure Spaces extends Gap where
  nonempty : text ≠ []

/-- The name that a list item has on its other side, with the white space around `as`. -/
structure OtherName where
  before : Spaces
  after : Spaces
  name : Identifier

def OtherName.text (o : OtherName) : List Char :=
  o.before.text ++ ("as".toList ++ (o.after.text ++ o.name.text))

/-- An item of a name list in braces, where line ends count as white space. -/
structure Item where
  before : Gap
  typeMark : Option Spaces
  name : Identifier
  other : Option OtherName
  after : Gap

namespace Item

/-- The names of an item, without the white space around it and without its mark. -/
def names (i : Item) : List Char :=
  i.name.text ++ i.other.elim [] OtherName.text

def core (i : Item) : List Char :=
  i.typeMark.elim [] (fun g => "type".toList ++ g.text) ++ i.names

def text (i : Item) : List Char :=
  i.before.text ++ (i.core ++ i.after.text)

def inner (i : Item) : String :=
  String.ofList i.name.text

def outer (i : Item) : String :=
  String.ofList (i.other.elim i.name OtherName.name).text

def Unmarked (i : Item) : Prop :=
  i.typeMark = none

def Plain (i : Item) : Prop :=
  i.typeMark = none ∧ i.other = none

end Item

/-- The items of a name list, after the last of which a comma may stand. -/
structure ItemList where
  first : Item
  rest : List Item
  trailingComma : Option Gap

namespace ItemList

def items (l : ItemList) : List Item :=
  l.first :: l.rest

def afterCommas (l : ItemList) : List (List Char) :=
  l.rest.map Item.text ++ l.trailingComma.toList.map Gap.text

def text (l : ItemList) : List Char :=
  l.first.text ++ l.afterCommas.flatMap (',' :: ·)

def braced (l : ItemList) : List Char :=
  '{' :: (l.text ++ ['}'])

end ItemList

/-- What an import binds. -/
inductive ImportClause where
  | whole (name : Identifier)
  | names (list : ItemList)
  | star (name : Identifier)
  | wholeAndNames (name : Identifier) (list : ItemList)
  | wholeAndStar (name starName : Identifier)

namespace ImportClause

def starText (name : Identifier) : List Char :=
  '*' :: (" as ".toList ++ name.text)

def text : ImportClause → List Char
  | .whole name => name.text
  | .names list => list.braced
  | .star name => starText name
  | .wholeAndNames name list => name.text ++ ',' :: ' ' :: list.braced
  | .wholeAndStar name starName => name.text ++ ',' :: ' ' :: starText starName

def bound : ImportClause → Clause
  | .whole _ => { names := ["default".toList], hasDefault := true }
  | .names list =>
    { names := list.items.map fun i => i.name.text, allTypes := list.items.all fun i => i.typeMark.isSome }
  | .star _ => { names := ["*".toList], hasNamespace := true }
  | .wholeAndNames _ list =>
    { names := "default".toList :: list.items.map fun i => i.name.text, hasDefault := true }
  | .wholeAndStar _ _ => { names := ["default".toList, "*".toList], hasDefault := true, hasNamespace := true }

end ImportClause

/-- What the module of a `require` is bound to. -/
inductive RequireTarget where
  | nothing
  | whole (name : Identifier)
  | names (list : ItemList) (plain : ∀ i ∈ list.items, i.Plain)

/-- A declaration keyword that an export may stand before. -/
inductive Declarator where
  | constant
  | function
  | classDefinition
  | type
  | interface
  | enum
  deriving DecidableEq, Repr

namespace Declarator

def keyword : Declarator → String
  | .constant => "const"
  | .function => "function"
  | .classDefinition => "class"
  | .type => "type"
  | .interface => "interface"
  | .enum => "enum"

def body : Declarator → String
  | .constant | .type => " = 1"
  | .function => "() \x7b\x7d"
  | .classDefinition | .interface | .enum => " \x7b\x7d"

def kind : Declarator → ExportKind
  | .constant => .variable
  | .function => .function
  | .classDefinition => .classDefinition
  | .type => .type
  | .interface => .interface
  | .enum => .enum

end Declarator

/-- A top-level statement. -/
inductive Statement where
  | importEffect (source : ModuleName)
  | importClause (isType : Bool) (clause : ImportClause) (source : ModuleName)
  | require (target : RequireTarget) (source : ModuleName)
  | importCall (source : ModuleName)
  | declare (declarator : Declarator) (name : Identifier)
  | exportDefault (name : Identifier)
  | exportNames (list : ItemList) (unmarked : ∀ i ∈ list.items, i.Unmarked) (source : Option ModuleName)
  | exportStar (name : Option Identifier) (source : ModuleName)

def quoted (source : ModuleName) : List Char :=
  '\'' :: (source.text ++ ['\''])

def fromText (source : ModuleName) : List Char :=
  ' ' :: ("from".toList ++ ' ' :: quoted source)

def callText (source : ModuleName) : List Char :=
  '(' :: (quoted source ++ [')'])

namespace RequireTarget

def text : RequireTarget → List Char
  | .nothing => []
  | .whole name => name.text
  | .names list _ => list.braced

def lead : RequireTarget → List Char
  | .nothing => []
  | target => "const".toList ++ ' ' :: (target.text ++ " = ".toList)

end RequireTarget

namespace Statement

/-- How a statement is written, without the semicolon and the newline that end it. -/
def text : Statement → List Char
  | .importEffect source => "import".toList ++ ' ' :: quoted source
  | .importClause false clause source => "import".toList ++ ' ' :: (clause.text ++ fromText source)
  | .importClause true clause source =>
    "import".toList ++ ' ' :: ("type".toList ++ ' ' :: (clause.text ++ fromText source))
  | .require target source => target.lead ++ ("require".toList ++ callText source)
  | .importCall source => "await".toList ++ ' ' :: ("import".toList ++ callText source)
  | .declare d name => "export".toList ++ ' ' :: (d.keyword.toList ++ ' ' :: (name.text ++ d.body.toList))
  | .exportDefault name => "export".toList ++ ' ' :: ("default".toList ++ ' ' :: name.text)
  | .exportNames list _ source => "export".toList ++ ' ' :: (list.braced ++ source.elim [] fromText)
  | .exportStar name source =>
    "export".toList ++ ' ' :: '*' :: (name.elim [] (fun n => " as ".toList ++ n.text) ++ fromText source)

section Texts

variable (source : ModuleName) (clause : ImportClause) (n : Identifier)

theorem text_importEffect : (importEffect source).text = "import".toList ++ ' ' :: quoted source := rfl

theorem text_importClause :
    (importClause false clause source).text = "import".toList ++ ' ' :: (clause.text ++ fromText source) := rfl

theorem text_importTypeClause : (importClause true clause source).text =
    "import".toList ++ ' ' :: ("type".toList ++ ' ' :: (clause.text ++ fromText source)) := rfl

theorem text_require (target : RequireTarget) :
    (require target source).text = target.lead ++ ("require".toList ++ callText source) := rfl

theorem text_importCall :
    (importCall source).text = "await".toList ++ ' ' :: ("import".toList ++ callText source) := rfl

theorem text_declare (d : Declarator) : (declare d n).text =
    "export".toList ++ ' ' :: (d.keyword.toList ++ ' ' :: (n.text ++ d.body.toList)) := rfl

theorem text_exportDefault :
    (exportDefault n).text = "export".toList ++ ' ' :: ("default".toList ++ ' ' :: n.text) := rfl

theorem text_exportNames (l : ItemList) (h : ∀ i ∈ l.items, i.Unmarked) (from? : Option ModuleName) :
    (exportNames l h from?).text = "export".toList ++ ' ' :: (l.braced ++ from?.elim [] fromText) := rfl

theorem text_exportStar (name : Option Identifier) : (exportStar name source).text =
    "export".toList ++ ' ' :: '*' :: (name.elim [] (fun n => " as ".toList ++ n.text) ++ fromText source) := rfl

end Texts

def bare (line : Nat) (source : ModuleName) : Import :=
  { source := String.ofList source.text
    origin := Specifier.origin .curly (String.ofList source.text)
    line }

/-- The imports of a statement that starts on the given line. -/
def imports (line : Nat) : Statement → List Import
  | .importEffect source => [bare line source]
  | .importClause isType clause source =>
    [{ bare line source with
        names := clause.bound.names.map String.ofList
        hasDefault := clause.bound.hasDefault
        hasNamespace := clause.bound.hasNamespace
        isTypeOnly := isType || clause.bound.allTypes }]
  | .require .nothing source => [bare line source]
  | .require (.whole _) source => [{ bare line source with names := ["default"], hasDefault := true }]
  | .require (.names list _) source => [{ bare line source with names := list.items.map Item.inner }]
  | .importCall source => [{ bare line source with names := ["*"], hasNamespace := true, isDynamic := true }]
  | .exportNames list _ (some source) => [{ bare line source with names := list.items.map Item.inner }]
  | .exportStar _ source => [{ bare line source with names := ["*"], hasNamespace := true }]
  | .declare _ _ | .exportDefault _ | .exportNames _ _ none => []

/-- An export of a name under which nothing but a value is known. -/
def plainExport (name : String) (line : Nat) : Export where
  name
  isDefault := false
  isType := false
  isReExport := false
  reExportSource := none
  kind := .unknown
  line

def reExport (name : String) (source : ModuleName) (line : Nat) : Export :=
  { plainExport name line with isReExport := true, reExportSource := some (String.ofList source.text) }

/-- The exports of a statement that starts on the given line, where `defaultKind` gives the kind of an exported
default from its identifier. -/
def exports (defaultKind : Identifier → ExportKind) (line : Nat) : Statement → List Export
  | .declare d name =>
    [{ plainExport (String.ofList name.text) line with
        kind := d.kind
        isType := d = .type ∨ d = .interface }]
  | .exportDefault name => [{ plainExport "default" line with isDefault := true, kind := defaultKind name }]
  | .exportNames list _ none => list.items.map fun i => plainExport i.outer line
  | .exportNames list _ (some source) => list.items.map fun i => reExport i.outer source line
  | .exportStar name source =>
    [reExport (name.elim "*" fun n => String.ofList n.text) source line]
  | .importEffect _ | .importClause _ _ _ | .require _ _ | .importCall _ => []

def height (s : Statement) : Nat :=
  s.text.count '\n' + 1

end Statement

section Identifiers

theorem isNameChar_of_isIdentifierChar {c : Char} (h : isIdentifierChar c = true) : Text.isNameChar c = true := by
  rcases Bool.or_eq_true _ _ |>.mp h with h | h
  · simp [Text.isNameChar, Text.isWord_of_isAsciiWord h]
  · simp [Text.isNameChar, h]

theorem isBlank_of_isIdentifierChar {c : Char} (h : isIdentifierChar c = true) : Text.isBlank c = false := by
  rcases Bool.or_eq_true _ _ |>.mp h with h | h
  · exact Text.isBlank_of_isAsciiWord h
  · rw [beq_iff_eq.mp h]
    decide

theorem isIdentifierChar_of_isBlank {c : Char} (h : Text.isBlank c = true) : isIdentifierChar c = false := by
  by_contra hc
  rw [isBlank_of_isIdentifierChar (Bool.not_eq_false _ ▸ hc)] at h
  cases h

namespace Identifier

variable (n : Identifier)

theorem exists_cons : ∃ c cs, n.text = c :: cs ∧ isIdentifierChar c = true := by
  obtain ⟨text, start, parts, free⟩ := n
  cases text with
  | nil => simp at start
  | cons c cs => exact ⟨c, cs, rfl, parts c List.mem_cons_self⟩

theorem text_ne_nil : n.text ≠ [] := by
  obtain ⟨c, cs, h, -⟩ := n.exists_cons
  simp [h]

theorem isNameChar : ∀ c ∈ n.text, Text.isNameChar c = true :=
  fun c hc => isNameChar_of_isIdentifierChar (n.parts c hc)

theorem isBlank : ∀ c ∈ n.text, Text.isBlank c = false :=
  fun c hc => isBlank_of_isIdentifierChar (n.parts c hc)

theorem ne_of_mem_reserved {w : String} (h : w ∈ reservedWords) : n.text ≠ w.toList := by
  intro he
  apply n.free
  rwa [he, String.ofList_toList]

theorem startsSolid : Text.StartsSolid n.text := by
  obtain ⟨c, cs, h, -⟩ := n.exists_cons
  exact ⟨c, cs, h, n.isBlank c (by simp [h])⟩

theorem endsSolid : Text.EndsSolid n.text :=
  Text.endsSolid_of_forall n.text_ne_nil n.isBlank

end Identifier

end Identifiers

section Lists

def isListChar (c : Char) : Bool :=
  isIdentifierChar c || Text.isBlank c || c == ','

theorem isListChar_of_isIdentifierChar {c : Char} (h : isIdentifierChar c = true) : isListChar c = true := by
  simp [isListChar, h]

theorem isListChar_of_isBlank {c : Char} (h : Text.isBlank c = true) : isListChar c = true := by
  simp [isListChar, h]

theorem gap_listChars {g : List Char} (hg : Text.IsGap g) : ∀ c ∈ g, isListChar c = true ∧ c ≠ ',' :=
  fun c hc => ⟨isListChar_of_isBlank (hg c hc), ne_of_class (hg c hc) (by decide)⟩

theorem Identifier.listChars (n : Identifier) : ∀ c ∈ n.text, isListChar c = true ∧ c ≠ ',' :=
  fun c hc => ⟨isListChar_of_isIdentifierChar (n.parts c hc), ne_of_class (n.parts c hc) (by decide)⟩

namespace Item

theorem names_listChars (i : Item) : ∀ c ∈ i.names, isListChar c = true ∧ c ≠ ',' := by
  obtain ⟨-, -, name, other, -⟩ := i
  refine List.forall_mem_append.mpr ⟨name.listChars, ?_⟩
  cases other with
  | none => simp
  | some o =>
    have hname := List.forall_mem_append.mpr ⟨gap_listChars o.after.blank, o.name.listChars⟩
    have has := List.forall_mem_append.mpr ⟨(by decide : ∀ c ∈ "as".toList, _), hname⟩
    exact List.forall_mem_append.mpr ⟨gap_listChars o.before.blank, has⟩

theorem core_listChars (i : Item) : ∀ c ∈ i.core, isListChar c = true ∧ c ≠ ',' := by
  refine List.forall_mem_append.mpr ⟨?_, i.names_listChars⟩
  cases i.typeMark with
  | none => simp
  | some g => exact List.forall_mem_append.mpr ⟨by decide, gap_listChars g.blank⟩

theorem listChars (i : Item) : ∀ c ∈ i.text, isListChar c = true ∧ c ≠ ',' :=
  List.forall_mem_append.mpr ⟨gap_listChars i.before.blank,
    List.forall_mem_append.mpr ⟨i.core_listChars, gap_listChars i.after.blank⟩⟩

theorem names_startsSolid (i : Item) : Text.StartsSolid i.names :=
  i.name.startsSolid.append _

theorem names_endsSolid (i : Item) : Text.EndsSolid i.names := by
  obtain ⟨-, -, name, other, -⟩ := i
  cases other with
  | none => simpa [names] using name.endsSolid
  | some o => exact (((o.name.endsSolid.append _).append _).append _).append _

theorem core_startsSolid (i : Item) : Text.StartsSolid i.core := by
  unfold core
  cases i.typeMark with
  | none => exact i.names_startsSolid
  | some g => exact ⟨'t', _, rfl, by decide⟩

theorem trim_text (i : Item) : Text.trim i.text = i.core := by
  have hcore : Text.Trimmed i.core := Text.trimmed_of_solid i.core_startsSolid (i.names_endsSolid.append _)
  rw [text, Text.trim_gap_append i.before.blank, Text.trim_append_gap i.after.blank, hcore.trim_eq]

theorem words_names (i : Item) :
    Text.words i.names = i.name.text :: i.other.elim [] fun o => ["as".toList, o.name.text] := by
  obtain ⟨before, typeMark, name, other, after⟩ := i
  have hname := Text.words_of_word name.text_ne_nil name.isBlank
  cases other with
  | none => simpa [names] using hname
  | some o =>
    have has : Text.words "as".toList = ["as".toList] := by decide
    have hother := Text.words_of_word o.name.text_ne_nil o.name.isBlank
    have hafter := Text.words_append_gap_append o.after.blank o.after.nonempty "as".toList o.name.text
    have hbefore := Text.words_append_gap_append o.before.blank o.before.nonempty name.text
      ("as".toList ++ (o.after.text ++ o.name.text))
    rw [List.append_assoc] at hafter hbefore
    rw [hname, hafter, has, hother] at hbefore
    exact hbefore

theorem firstWord_names (i : Item) : Text.firstWord i.names = i.name.text := by
  rw [Text.firstWord, words_names]
  rfl

theorem outerName_names (i : Item) : String.ofList (outerName i.names) = i.outer := by
  have hfirst := i.firstWord_names
  rw [outerName, words_names, hfirst, outer]
  cases i.other with
  | none => rfl
  | some o => rfl

/-- A name that starts with `type` goes on after it, so it is no mark. -/
theorem names_ne_type (i : Item) {c : Char} (hc : Text.isBlank c = true) (rest : List Char) :
    i.names ≠ "type".toList ++ c :: rest := by
  intro h
  have hrest : Text.Stops isIdentifierChar (i.other.elim [] OtherName.text) := by
    cases i.other with
    | none => exact Text.stops_nil _
    | some o =>
      obtain ⟨d, g, hg⟩ := List.exists_cons_of_ne_nil o.before.nonempty
      have hd : Text.isBlank d = true := o.before.blank d (by simp [hg])
      have htext : OtherName.text o = d :: (g ++ ("as".toList ++ (o.after.text ++ o.name.text))) := by
        rw [OtherName.text, hg, List.cons_append]
      exact (congrArg (Text.Stops isIdentifierChar) htext).mpr (Text.stops_cons.mpr (isIdentifierChar_of_isBlank hd))
  have hstop : Text.Stops isIdentifierChar (c :: rest) := Text.stops_cons.mpr (isIdentifierChar_of_isBlank hc)
  exact i.name.ne_of_mem_reserved (w := "type") (by decide)
    (Text.run_unique h i.name.parts hrest (by decide) hstop).1

theorem stripTypeMark_core (i : Item) : stripTypeMark i.core = (i.names, i.typeMark.isSome) := by
  cases hmark : i.typeMark with
  | none =>
    have hcore : i.core = i.names := by rw [core, hmark]; rfl
    rw [stripTypeMark, hcore]
    split
    · rename_i c rest h
      split
      · rename_i hc
        exact absurd (Text.after?_eq_some.mp h) (i.names_ne_type hc rest)
      · rfl
    · rfl
  | some g =>
    obtain ⟨c, cs, hg⟩ := List.exists_cons_of_ne_nil g.nonempty
    have hc : Text.isBlank c = true := g.blank c (by simp [hg])
    have hcore : Text.after? "type".toList i.core = some (c :: (cs ++ i.names)) := by
      rw [Text.after?_eq_some, core, hmark, ← List.cons_append, ← hg, ← List.append_assoc]
      rfl
    have hnames : Text.trimStart (c :: (cs ++ i.names)) = i.names := by
      rw [← List.cons_append, ← hg, Text.trimStart, List.dropWhile_append_of_pos g.blank]
      exact Text.StartsSolid.trimStart_eq i.names_startsSolid
    rw [stripTypeMark, hcore]
    simp only [hc, if_true, hnames, Option.isSome_some]

end Item

namespace ItemList

variable (l : ItemList)

theorem afterCommas_listChars : ∀ t ∈ l.afterCommas, ∀ c ∈ t, isListChar c = true ∧ c ≠ ',' := by
  intro t ht
  rcases List.mem_append.mp ht with ht | ht
  · obtain ⟨i, -, rfl⟩ := List.mem_map.mp ht
    exact i.listChars
  · obtain ⟨g, -, rfl⟩ := List.mem_map.mp ht
    exact gap_listChars g.blank

theorem listChars : ∀ c ∈ l.text, isListChar c = true := by
  refine List.forall_mem_append.mpr ⟨fun c hc => (l.first.listChars c hc).1, fun c hc => ?_⟩
  obtain ⟨t, ht, hc⟩ := List.mem_flatMap.mp hc
  rcases List.mem_cons.mp hc with rfl | hc
  · decide
  · exact (l.afterCommas_listChars t ht c hc).1

theorem text_ne_nil : l.text ≠ [] := by
  simp [text, Item.text, l.first.core_startsSolid.ne_nil]

theorem pieces_text : Text.pieces (· == ',') l.text = l.first.text :: l.afterCommas := by
  have hne : ∀ {t : List Char}, (∀ c ∈ t, isListChar c = true ∧ c ≠ ',') → ∀ c ∈ t, (c == ',') = false :=
    fun h c hc => beq_eq_false_iff_ne.mpr (h c hc).2
  exact Text.pieces_flatMap (by decide) (hne l.first.listChars) fun t ht => hne (l.afterCommas_listChars t ht)

theorem trimmed_pieces : (Text.pieces (· == ',') l.text).map Text.trim =
    l.items.map Item.core ++ l.trailingComma.toList.map fun _ => [] := by
  have hgap : ∀ g : Gap, Text.trim g.text = [] := fun g => Text.trim_gap g.blank
  simp [pieces_text, afterCommas, items, Item.trim_text, hgap, Function.comp_def]

theorem commaItems_text : Text.commaItems l.text = l.items.map Item.core := by
  have hcore : ∀ i : Item, i.core ≠ [] := fun i => i.core_startsSolid.ne_nil
  rw [Text.commaItems, trimmed_pieces, List.filter_append, List.filter_eq_self.mpr, List.filter_eq_nil_iff.mpr,
    List.append_nil]
  · simp
  · simp [hcore]

theorem map_stripTypeMark : (Text.commaItems l.text).map stripTypeMark =
    l.items.map fun i => (i.names, i.typeMark.isSome) := by
  rw [commaItems_text, List.map_map]
  exact List.map_congr_left fun i _ => i.stripTypeMark_core

end ItemList

end Lists

section Clauses

theorem ItemList.upTo_brace (l : ItemList) (rest : List Char) :
    Text.upTo (· == '}') (l.text ++ '}' :: rest) = l.text := by
  refine Text.takeWhile_eq (fun c hc => ?_) (Text.stops_cons.mpr (by decide))
  have hne : c ≠ '}' := ne_of_class (l.listChars c hc) (by decide)
  simp [hne]

theorem ItemList.braced_trimmed (l : ItemList) : Text.Trimmed l.braced :=
  Text.trimmed_of_solid ⟨'{', _, rfl, by decide⟩ ⟨'{' :: l.text, '}', rfl, by decide⟩

theorem starText_trimmed (n : Identifier) : Text.Trimmed (ImportClause.starText n) :=
  Text.trimmed_of_solid ⟨'*', _, rfl, by decide⟩ ((n.endsSolid.append _).cons '*')

theorem splitDefault_bare {c : Char} {cs : List Char} (hs : Text.Trimmed (c :: cs)) (hc : c = '{' ∨ c = '*') :
    splitDefault (c :: cs) = (false, c :: cs) := by
  have hbare : startsBare (c :: cs) = true := by
    rcases hc with rfl | rfl <;> simp [startsBare, Text.startsWith, List.isPrefixOf]
  simp [splitDefault, hs.trim_eq, hbare]

theorem splitDefault_name (n : Identifier) {rest : List Char} (hsolid : Text.EndsSolid (n.text ++ rest))
    (hrest : rest = [] ∨ ∃ t, rest = ',' :: t) :
    splitDefault (n.text ++ rest) = (true, Text.trim (rest.drop 1)) := by
  have htrim : Text.trim (n.text ++ rest) = n.text ++ rest :=
    (Text.trimmed_of_solid (n.startsSolid.append rest) hsolid).trim_eq
  have hbare : startsBare (n.text ++ rest) = false := by
    obtain ⟨c, cs, h, hc⟩ := n.exists_cons
    have hbrace : c ≠ '{' := ne_of_class hc (by decide)
    have hstar : c ≠ '*' := ne_of_class hc (by decide)
    simp [startsBare, Text.startsWith, List.isPrefixOf, h, hbrace.symm, hstar.symm]
  have hhead : Text.upTo (· == ',') (n.text ++ rest) = n.text := by
    refine Text.takeWhile_eq (fun c hc => ?_) ?_
    · have hne : c ≠ ',' := ne_of_class (n.parts c hc) (by decide)
      simp [hne]
    · rcases hrest with rfl | ⟨t, rfl⟩
      · exact Text.stops_nil _
      · exact Text.stops_cons.mpr (by decide)
  have hname : Text.trim n.text = n.text := (Text.trimmed_of_solid n.startsSolid n.endsSolid).trim_eq
  have hdrop : (n.text ++ rest).drop (n.text.length + 1) = rest.drop 1 := by
    rw [List.drop_append, List.drop_eq_nil_of_le (Nat.le_succ _), Nat.add_sub_cancel_left]
    rfl
  simp [splitDefault, htrim, hbare, hhead, hname, n.text_ne_nil, hdrop]

theorem ImportClause.parse_text (clause : ImportClause) : Clause.parse clause.text = clause.bound := by
  have hspace : ∀ s, Text.trim (' ' :: s) = Text.trim s := Text.trim_gap_append Text.isGap_space
  cases clause with
  | whole n =>
    have h := @splitDefault_name n [] (by simpa using n.endsSolid) (.inl rfl)
    rw [List.append_nil] at h
    rw [text, Clause.parse, h]
    rfl
  | names l =>
    have h := splitDefault_bare l.braced_trimmed (.inl rfl)
    rw [text, Clause.parse, ItemList.braced, h]
    simp [l.upTo_brace, l.map_stripTypeMark, bound, Item.firstWord_names, ItemList.items, Function.comp_def]
  | star n =>
    have h := splitDefault_bare (starText_trimmed n) (.inr rfl)
    rw [text, Clause.parse, starText, h]
    rfl
  | wholeAndNames n l =>
    have hsolid : Text.EndsSolid (n.text ++ ',' :: ' ' :: l.braced) :=
      ⟨n.text ++ ',' :: ' ' :: '{' :: l.text, '}', by simp [ItemList.braced], by decide⟩
    have h := splitDefault_name n hsolid (.inr ⟨_, rfl⟩)
    rw [List.drop_one, List.tail_cons, hspace, l.braced_trimmed.trim_eq] at h
    rw [text, Clause.parse, h]
    simp [ItemList.braced, l.upTo_brace, l.map_stripTypeMark, bound, Item.firstWord_names, Function.comp_def]
  | wholeAndStar n starName =>
    have hsolid : Text.EndsSolid (n.text ++ ',' :: ' ' :: starText starName) :=
      ((((starName.endsSolid.append _).cons '*').cons ' ').cons ',').append n.text
    have h := splitDefault_name n hsolid (.inr ⟨_, rfl⟩)
    rw [List.drop_one, List.tail_cons, hspace, (starText_trimmed starName).trim_eq] at h
    rw [text, Clause.parse, h]
    rfl

theorem ItemList.stripBraces_braced (l : ItemList) : stripBraces l.braced = l.text := by
  have hbrace : ∀ c ∈ l.text, (c == '{' || c == '}') = false := by
    intro c hc
    have hopen : c ≠ '{' := ne_of_class (l.listChars c hc) (by decide)
    have hclose : c ≠ '}' := ne_of_class (l.listChars c hc) (by decide)
    simp [hopen, hclose]
  have hstart : l.braced.dropWhile (fun c => c == '{' || c == '}') = l.text ++ ['}'] := by
    obtain ⟨c, cs, h⟩ := List.exists_cons_of_ne_nil l.text_ne_nil
    simp [braced, h, hbrace c (by simp [h])]
  rw [stripBraces, hstart, Text.dropEndWhile_append_of_forall (by decide), Text.dropEndWhile_eq_self]
  exact fun c hc => hbrace c (List.mem_of_mem_getLast? hc)

theorem ItemList.boundNames_braced (l : ItemList) (hplain : ∀ i ∈ l.items, i.Plain) :
    boundNames l.braced = l.items.map fun i => i.name.text := by
  have hcolon : ∀ part ∈ Text.pieces (· == ',') l.text, Text.trim (Text.upTo (· == ':') part) = Text.trim part := by
    intro part hpart
    have hall : ∀ c ∈ part, (!(c == ':')) = true := by
      intro c hc
      have hne : c ≠ ':' := ne_of_class (l.listChars c (Text.mem_pieces hpart c hc).1) (by decide)
      simp [hne]
    rw [Text.upTo, List.takeWhile_eq_self_iff.mpr hall]
  have hcore : ∀ i ∈ l.items, i.core = i.name.text := by
    intro i hi
    obtain ⟨hmark, hother⟩ := hplain i hi
    simp [Item.core, Item.names, hmark, hother]
  have hdots : ∀ n : Identifier, Text.startsWith n.text ['.', '.', '.'] = false := by
    intro n
    obtain ⟨c, cs, h, hc⟩ := n.exists_cons
    have hne : c ≠ '.' := ne_of_class hc (by decide)
    simp [Text.startsWith, List.isPrefixOf, h, hne.symm]
  rw [boundNames, l.stripBraces_braced, List.map_congr_left hcolon, trimmed_pieces, List.map_congr_left hcore,
    List.filter_append, List.filter_eq_self.mpr, List.filter_eq_nil_iff.mpr, List.append_nil]
  · simp
  · simp [hdots, Identifier.text_ne_nil]

end Clauses

end ModuleGraph.Curly
