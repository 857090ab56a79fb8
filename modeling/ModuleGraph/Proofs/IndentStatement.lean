import ModuleGraph.Indent.Extract
import ModuleGraph.Proofs.PatternReading
import ModuleGraph.Proofs.TextPieces

namespace ModuleGraph.Indent

open Text (isAsciiWord ne_of_class Gap)

/-- The words that are no names, those that are only reserved in some places included. -/
def reservedWords : List String := [
  "False", "None", "True", "and", "as", "assert", "async", "await", "break", "class", "continue", "def", "del",
  "elif", "else", "except", "finally", "for", "from", "global", "if", "import", "in", "is", "lambda", "nonlocal",
  "not", "or", "pass", "raise", "return", "try", "while", "with", "yield", "_", "case", "match", "type"]

/-- A name: ASCII letters, digits and underscores, not led by a digit and not reserved. -/
structure Name where
  text : List Char
  start : text.head?.any Text.isNameStart = true
  parts : ∀ c ∈ text, isAsciiWord c = true
  free : String.ofList text ∉ reservedWords

structure Dotted where
  first : Name
  rest : List Name

def Dotted.text (d : Dotted) : List Char :=
  d.first.text ++ d.rest.flatMap fun n => '.' :: n.text

/-- Where a from-import imports from: a module path, or dots that a module path may follow. -/
inductive ImportSource where
  | absolute (path : Dotted)
  | relative (moreDots : Nat) (path : Option Dotted)

def ImportSource.text : ImportSource → List Char
  | .absolute path => path.text
  | .relative moreDots path => List.replicate (moreDots + 1) '.' ++ path.elim [] Dotted.text

structure ModuleItem where
  path : Dotted
  localName : Option Name

def ModuleItem.text (i : ModuleItem) : List Char :=
  i.path.text ++ i.localName.elim [] fun a => " as ".toList ++ a.text

structure NameItem where
  name : Name
  localName : Option Name

def NameItem.text (i : NameItem) : List Char :=
  i.name.text ++ i.localName.elim [] fun a => " as ".toList ++ a.text

/-- The alias of an imported name, with the white space that stands before and after `as`. -/
structure SpacedAlias where
  before : Gap
  after : Gap
  name : Name
  apart : before.text ≠ [] ∧ after.text ≠ []

def SpacedAlias.text (a : SpacedAlias) : List Char :=
  a.before.text ++ "as".toList ++ a.after.text ++ a.name.text

/-- An imported name inside parentheses, where line ends count as white space. -/
structure SpacedItem where
  before : Gap
  name : Name
  localName : Option SpacedAlias
  after : Gap

def SpacedItem.text (i : SpacedItem) : List Char :=
  i.before.text ++ (i.name.text ++ i.localName.elim [] SpacedAlias.text) ++ i.after.text

/-- What a from-import imports. -/
inductive NameList where
  | plain (first : NameItem) (rest : List NameItem)
  | parenthesised (first : SpacedItem) (rest : List SpacedItem) (trailingComma : Option Gap)
  | star

/-- The items inside parentheses, of which the last is empty after a trailing comma. -/
def parenthesisedItems (rest : List SpacedItem) (trailingComma : Option Gap) : List (List Char) :=
  rest.map SpacedItem.text ++ trailingComma.toList.map Gap.text

def parenthesisedText (first : SpacedItem) (rest : List SpacedItem) (trailingComma : Option Gap) : List Char :=
  first.text ++ (parenthesisedItems rest trailingComma).flatMap (',' :: ·)

def listed (first : List Char) (rest : List (List Char)) : List Char :=
  first ++ (rest.map (' ' :: ·)).flatMap (',' :: ·)

def NameList.text : NameList → List Char
  | .plain first rest => listed first.text (rest.map NameItem.text)
  | .parenthesised first rest trailingComma => '(' :: (parenthesisedText first rest trailingComma ++ [')'])
  | .star => ['*']

def NameList.names : NameList → List String
  | .plain first rest => (first :: rest).map fun i => String.ofList i.name.text
  | .parenthesised first rest _ => (first :: rest).map fun i => String.ofList i.name.text
  | .star => ["*"]

def NameList.isStar : NameList → Bool
  | .star => true
  | _ => false

/-- A top-level statement. -/
inductive Statement where
  | importModules (first : ModuleItem) (rest : List ModuleItem)
  | fromImport (source : ImportSource) (names : NameList)
  | function (isAsync : Bool) (name : Name)
  | classDefinition (name : Name)
  | assign (name : Name)
  | annotate (name : Name)
  | unpack (first second : Name)
  | publicNames (names : List Name)

def quotedText (n : Name) : List Char :=
  '\'' :: (n.text ++ ['\''])

def quotedList : List Name → List Char
  | [] => []
  | n :: ns => listed (quotedText n) (ns.map quotedText)

namespace Statement

/-- How a statement is written, without the end of its last line. -/
def text : Statement → List Char
  | .importModules first rest => "import".toList ++ ' ' :: listed first.text (rest.map ModuleItem.text)
  | .fromImport source names =>
      "from".toList ++ ' ' :: (source.text ++ ' ' :: ("import".toList ++ ' ' :: names.text))
  | .function false name => "def".toList ++ ' ' :: (name.text ++ "(): pass".toList)
  | .function true name => "async".toList ++ ' ' :: ("def".toList ++ ' ' :: (name.text ++ "(): pass".toList))
  | .classDefinition name => "class".toList ++ ' ' :: (name.text ++ ": pass".toList)
  | .assign name => name.text ++ " = 1".toList
  | .annotate name => name.text ++ ": int = 1".toList
  | .unpack first second => first.text ++ (", ".toList ++ (second.text ++ " = 1, 2".toList))
  | .publicNames names => "__all__ = [".toList ++ (quotedList names ++ "]".toList)

/-- The imports of a statement that starts on the given line. -/
def imports (line : Nat) : Statement → List Import
  | .importModules first rest => (first :: rest).map fun i =>
      let source := String.ofList i.path.text
      { source, origin := Specifier.origin .indent source, names := ["*"], hasNamespace := true, line }
  | .fromImport source names =>
      let source := String.ofList source.text
      [{ source, origin := Specifier.origin .indent source, names := names.names,
         hasNamespace := names.isStar, line }]
  | _ => []

def bound : Statement → List Name
  | .function _ name | .classDefinition name | .assign name | .annotate name => [name]
  | .unpack first second => [first, second]
  | _ => []

def listedNames : Statement → List Name
  | .publicNames names => names
  | _ => []

def height (s : Statement) : Nat :=
  s.text.count '\n' + 1

end Statement

section Words

namespace Name

variable (n : Name)

theorem exists_cons : ∃ c cs, n.text = c :: cs ∧ Text.isNameStart c = true ∧ ∀ d ∈ cs, Text.isWord d = true := by
  obtain ⟨text, start, parts, free⟩ := n
  cases text with
  | nil => simp at start
  | cons c cs =>
    obtain ⟨-, hcs⟩ := List.forall_mem_cons.mp parts
    exact ⟨c, cs, rfl, by simpa using start, fun d hd => Text.isWord_of_isAsciiWord (hcs d hd)⟩

theorem text_ne_nil : n.text ≠ [] := by
  obtain ⟨c, cs, h, -⟩ := n.exists_cons
  simp [h]

theorem isWord : ∀ c ∈ n.text, Text.isWord c = true :=
  fun c hc => Text.isWord_of_isAsciiWord (n.parts c hc)

theorem isBlank : ∀ c ∈ n.text, Text.isBlank c = false :=
  fun c hc => Text.isBlank_of_isAsciiWord (n.parts c hc)

theorem ne_of_mem_reserved {w : String} (h : w ∈ reservedWords) : n.text ≠ w.toList := by
  intro he
  apply n.free
  rwa [he, String.ofList_toList]

theorem startsSolid : Text.StartsSolid n.text := by
  obtain ⟨c, cs, h, -⟩ := n.exists_cons
  exact ⟨c, cs, h, n.isBlank c (by simp [h])⟩

theorem endsSolid : Text.EndsSolid n.text :=
  Text.endsSolid_of_forall n.text_ne_nil n.isBlank

end Name

end Words

section Texts

def isItemChar (c : Char) : Bool :=
  isAsciiWord c || Text.isBlank c || c == ','

def isPlain (c : Char) : Bool :=
  isItemChar c || ['.', '*', '(', ')', ':', '='].contains c

def isInline (c : Char) : Bool :=
  isPlain c && c != '\n'

theorem isPlain_of_isItemChar {c : Char} (h : isItemChar c = true) : isPlain c = true := by
  simp [isPlain, h]

theorem isItemChar_of_isAsciiWord {c : Char} (h : isAsciiWord c = true) : isItemChar c = true := by
  simp [isItemChar, h]

theorem isPlain_of_isInline {c : Char} (h : isInline c = true) : isPlain c = true :=
  (Bool.and_eq_true _ _ ▸ h).1

theorem isQuote_of_isPlain {c : Char} (h : isPlain c = true) : Text.isQuote c = false :=
  Text.not_isQuote_of_class h (by decide) (by decide)

theorem isInline_of_isAsciiWord {c : Char} (h : isAsciiWord c = true) : isInline c = true := by
  have hne : c ≠ '\n' := ne_of_class h (by decide)
  simp [isInline, isPlain_of_isItemChar (isItemChar_of_isAsciiWord h), hne]

theorem Name.inline (n : Name) : ∀ c ∈ n.text, isInline c = true :=
  fun c hc => isInline_of_isAsciiWord (n.parts c hc)

theorem Dotted.chars (d : Dotted) : ∀ c ∈ d.text, isAsciiWord c = true ∨ c = '.' := by
  intro c hc
  rcases List.mem_append.mp hc with hc | hc
  · exact .inl (d.first.parts c hc)
  · obtain ⟨n, -, hc⟩ := List.mem_flatMap.mp hc
    rcases List.mem_cons.mp hc with rfl | hc
    · exact .inr rfl
    · exact .inl (n.parts c hc)

theorem ImportSource.chars (source : ImportSource) : ∀ c ∈ source.text, isAsciiWord c = true ∨ c = '.' := by
  intro c hc
  match source with
  | .absolute path => exact path.chars c hc
  | .relative moreDots path =>
    rcases List.mem_append.mp hc with hc | hc
    · exact .inr (List.eq_of_mem_replicate hc)
    · cases path with
      | none => cases hc
      | some path => exact path.chars c hc

theorem isInline_of_dotted {c : Char} (h : isAsciiWord c = true ∨ c = '.') : isInline c = true := by
  rcases h with h | rfl
  · exact isInline_of_isAsciiWord h
  · decide

theorem localName_chars (localName : Option Name) :
    ∀ c ∈ localName.elim [] fun a => " as ".toList ++ a.text, isAsciiWord c = true ∨ c = ' ' := by
  cases localName with
  | none => simp
  | some n => exact List.forall_mem_append.mpr ⟨by decide, fun c hc => .inl (n.parts c hc)⟩

theorem ModuleItem.chars (i : ModuleItem) : ∀ c ∈ i.text, (isAsciiWord c = true ∨ c = ' ') ∨ c = '.' := by
  refine List.forall_mem_append.mpr ⟨fun c hc => ?_, fun c hc => .inl (localName_chars i.localName c hc)⟩
  exact (i.path.chars c hc).imp_left .inl

theorem NameItem.chars (i : NameItem) : ∀ c ∈ i.text, isAsciiWord c = true ∨ c = ' ' :=
  List.forall_mem_append.mpr ⟨fun c hc => .inl (i.name.parts c hc), localName_chars i.localName⟩

theorem Name.itemChars (n : Name) : ∀ c ∈ n.text, isItemChar c = true ∧ c ≠ ',' :=
  fun c hc => ⟨isItemChar_of_isAsciiWord (n.parts c hc), ne_of_class (n.parts c hc) (by decide)⟩

theorem gap_itemChars (g : Gap) : ∀ c ∈ g.text, isItemChar c = true ∧ c ≠ ',' :=
  fun c hc => ⟨by simp [isItemChar, g.blank c hc], ne_of_class (g.blank c hc) (by decide)⟩

theorem SpacedItem.itemChars (i : SpacedItem) : ∀ c ∈ i.text, isItemChar c = true ∧ c ≠ ',' := by
  obtain ⟨before, name, localName, after⟩ := i
  have hlocal : ∀ c ∈ localName.elim [] SpacedAlias.text, isItemChar c = true ∧ c ≠ ',' := by
    cases localName with
    | none => simp
    | some a =>
      have hbefore := List.forall_mem_append.mpr ⟨gap_itemChars a.before, (by decide : ∀ c ∈ "as".toList, _)⟩
      exact List.forall_mem_append.mpr ⟨List.forall_mem_append.mpr ⟨hbefore, gap_itemChars a.after⟩, a.name.itemChars⟩
  have hname := List.forall_mem_append.mpr ⟨name.itemChars, hlocal⟩
  exact List.forall_mem_append.mpr ⟨List.forall_mem_append.mpr ⟨gap_itemChars before, hname⟩, gap_itemChars after⟩

theorem parenthesisedItems_itemChars (rest : List SpacedItem) (trailingComma : Option Gap) :
    ∀ t ∈ parenthesisedItems rest trailingComma, ∀ c ∈ t, isItemChar c = true ∧ c ≠ ',' := by
  intro t ht
  rcases List.mem_append.mp ht with ht | ht
  · obtain ⟨i, -, rfl⟩ := List.mem_map.mp ht
    exact i.itemChars
  · obtain ⟨g, -, rfl⟩ := List.mem_map.mp ht
    exact gap_itemChars g

theorem parenthesisedText_itemChars (first : SpacedItem) (rest : List SpacedItem) (trailingComma : Option Gap) :
    ∀ c ∈ parenthesisedText first rest trailingComma, isItemChar c = true := by
  refine List.forall_mem_append.mpr ⟨fun c hc => (first.itemChars c hc).1, fun c hc => ?_⟩
  obtain ⟨t, ht, hc⟩ := List.mem_flatMap.mp hc
  rcases List.mem_cons.mp hc with rfl | hc
  · decide
  · exact (parenthesisedItems_itemChars rest trailingComma t ht c hc).1

theorem forall_mem_keyword {ok : Char → Bool} (kw : String) {rest : List Char} (hkw : ∀ c ∈ kw.toList, ok c = true)
    (hspace : ok ' ' = true) (hrest : ∀ c ∈ rest, ok c = true) : ∀ c ∈ kw.toList ++ ' ' :: rest, ok c = true :=
  List.forall_mem_append.mpr ⟨hkw, List.forall_mem_cons.mpr ⟨hspace, hrest⟩⟩

/-- What holds of texts put together holds of a list if it holds of its items and separators. -/
theorem listed_induction {ok : List Char → Prop} (hnil : ok []) (happend : ∀ {u v}, ok u → ok v → ok (u ++ v))
    (hsep : ok [',', ' ']) {first : List Char} {rest : List (List Char)} (hfirst : ok first)
    (hrest : ∀ t ∈ rest, ok t) : ok (listed first rest) := by
  induction rest generalizing first with
  | nil => exact happend hfirst hnil
  | cons t rest ih =>
    obtain ⟨ht, hrest⟩ := List.forall_mem_cons.mp hrest
    have hform : listed first (t :: rest) = first ++ ([',', ' '] ++ listed t rest) := rfl
    rw [hform]
    exact happend hfirst (happend hsep (ih ht hrest))

theorem quotedList_induction {ok : List Char → Prop} (hnil : ok []) (happend : ∀ {u v}, ok u → ok v → ok (u ++ v))
    (hsep : ok [',', ' ']) (hquoted : ∀ n, ok (quotedText n)) (ns : List Name) : ok (quotedList ns) := by
  cases ns with
  | nil => exact hnil
  | cons n ns =>
    refine listed_induction hnil happend hsep (hquoted n) fun t ht => ?_
    obtain ⟨m, -, rfl⟩ := List.mem_map.mp ht
    exact hquoted m

theorem listed_forall {ok : Char → Prop} (hcomma : ok ',') (hspace : ok ' ') {first : List Char}
    {rest : List (List Char)} (hfirst : ∀ c ∈ first, ok c) (hrest : ∀ t ∈ rest, ∀ c ∈ t, ok c) :
    ∀ c ∈ listed first rest, ok c :=
  @listed_induction (fun t => ∀ c ∈ t, ok c) (by simp) (fun hu hv => List.forall_mem_append.mpr ⟨hu, hv⟩)
    (by simp [hcomma, hspace]) _ _ hfirst hrest

theorem listed_nameItems_chars (first : NameItem) (rest : List NameItem) :
    ∀ c ∈ listed first.text (rest.map NameItem.text), (isAsciiWord c = true ∨ c = ' ') ∨ c = ',' := by
  refine listed_forall (.inr rfl) (.inl (.inr rfl)) (fun c hc => .inl (first.chars c hc)) fun t ht c hc => ?_
  obtain ⟨i, -, rfl⟩ := List.mem_map.mp ht
  exact .inl (i.chars c hc)

theorem listed_modules_inline (first : ModuleItem) (rest : List ModuleItem) :
    ∀ c ∈ listed first.text (rest.map ModuleItem.text), isInline c = true := by
  have hitem : ∀ i : ModuleItem, ∀ c ∈ i.text, isInline c = true := by
    intro i c hc
    rcases i.chars c hc with (hc | rfl) | rfl
    · exact isInline_of_isAsciiWord hc
    · decide
    · decide
  refine listed_forall (by decide) (by decide) (hitem first) fun t ht => ?_
  obtain ⟨i, -, rfl⟩ := List.mem_map.mp ht
  exact hitem i

end Texts

section Names

theorem localName_blank (localName : Option Name) :
    ∀ c ∈ (localName.elim [] fun a => " as ".toList ++ a.text).head?, Text.isBlank c = true := by
  cases localName with
  | none => simp
  | some a =>
    intro c hc
    have hc : ' ' = c := by simpa using hc
    rw [← hc]
    decide

theorem NameItem.head?_words (i : NameItem) : (Text.words i.text).head? = some i.name.text :=
  Text.head?_words i.name.text_ne_nil i.name.isBlank (localName_blank i.localName)

theorem SpacedItem.head?_words (i : SpacedItem) : (Text.words i.text).head? = some i.name.text := by
  obtain ⟨before, name, localName, after⟩ := i
  rw [SpacedItem.text, Text.words_append_gap after.blank, Text.words_gap_append before.blank]
  refine Text.head?_words name.text_ne_nil name.isBlank ?_
  cases localName with
  | none => simp
  | some a =>
    obtain ⟨c, g, hg⟩ := List.exists_cons_of_ne_nil a.apart.1
    intro d hd
    have hd : c = d := by simpa [SpacedAlias.text, hg] using hd
    rw [← hd]
    exact a.before.blank c (by simp [hg])

theorem Dotted.exists_cons (d : Dotted) : ∃ c cs, d.text = c :: cs ∧ Text.isNameStart c = true := by
  obtain ⟨c, cs, h, hc, -⟩ := d.first.exists_cons
  exact ⟨c, cs ++ d.rest.flatMap fun n => '.' :: n.text, by simp [Dotted.text, h], hc⟩

theorem Dotted.text_ne_nil (d : Dotted) : d.text ≠ [] := by
  simp [Dotted.text, d.first.text_ne_nil]

theorem ImportSource.text_ne_nil (source : ImportSource) : source.text ≠ [] := by
  cases source with
  | absolute path => exact path.text_ne_nil
  | relative moreDots path => simp [ImportSource.text]

theorem isBlank_of_dotted {c : Char} (h : isAsciiWord c = true ∨ c = '.') : Text.isBlank c = false := by
  rcases h with h | rfl
  · exact Text.isBlank_of_isAsciiWord h
  · decide

theorem ModuleItem.head?_words (i : ModuleItem) : (Text.words i.text).head? = some i.path.text :=
  Text.head?_words i.path.text_ne_nil (fun c hc => isBlank_of_dotted (i.path.chars c hc))
    (localName_blank i.localName)

theorem pieces_listed {first : List Char} {rest : List (List Char)} (hfirst : ∀ c ∈ first, c ≠ ',')
    (hrest : ∀ t ∈ rest, ∀ c ∈ t, c ≠ ',') :
    Text.pieces (· == ',') (listed first rest) = first :: rest.map (' ' :: ·) := by
  refine Text.pieces_flatMap (by rfl) (fun c hc => beq_false_of_ne (hfirst c hc)) ?_
  intro _ hmap
  obtain ⟨t, ht, rfl⟩ := List.mem_map.mp hmap
  exact List.forall_mem_cons.mpr ⟨by decide, fun c hc => beq_false_of_ne (hrest t ht c hc)⟩

theorem filterMap_head?_words {α : Type} {text target : α → List Char} (items : List α)
    (h : ∀ i ∈ items, (Text.words (text i)).head? = some (target i)) :
    ((items.map text).map Text.words).filterMap List.head? = items.map target := by
  induction items with
  | nil => rfl
  | cons i items ih =>
    obtain ⟨hi, hitems⟩ := List.forall_mem_cons.mp h
    rw [List.map_cons, List.map_cons, List.filterMap_cons, hi, ih hitems, List.map_cons]

theorem words_space (t : List Char) : Text.words (' ' :: t) = Text.words t :=
  Text.words_append_blank (by decide) [] t

theorem itemWords_listed {α : Type} {text : α → List Char} {first : α} {rest : List α}
    (h : ∀ i ∈ first :: rest, ∀ c ∈ text i, c ≠ ',') :
    Text.itemWords (listed (text first) (rest.map text)) = ((first :: rest).map text).map Text.words := by
  obtain ⟨hfirst, hrest⟩ := List.forall_mem_cons.mp h
  have hcut : Text.pieces (· == ',') (listed (text first) (rest.map text)) =
      text first :: (rest.map text).map (' ' :: ·) := by
    refine pieces_listed hfirst fun t ht => ?_
    obtain ⟨i, hi, rfl⟩ := List.mem_map.mp ht
    exact hrest i hi
  rw [Text.itemWords, hcut]
  simp [words_space]

theorem filterMap_itemWords_parenthesised (first : SpacedItem) (rest : List SpacedItem) (trailingComma : Option Gap) :
    (Text.itemWords (parenthesisedText first rest trailingComma)).filterMap List.head? =
      (first :: rest).map fun i => i.name.text := by
  have hcut : Text.pieces (· == ',') (parenthesisedText first rest trailingComma) =
      (first :: rest).map SpacedItem.text ++ trailingComma.toList.map Gap.text := by
    refine Text.pieces_flatMap (by rfl) (fun c hc => beq_false_of_ne (first.itemChars c hc).2) ?_
    exact fun t ht c hc => beq_false_of_ne (parenthesisedItems_itemChars rest trailingComma t ht c hc).2
  have hgap : ((trailingComma.toList.map Gap.text).map Text.words).filterMap List.head? = [] := by
    cases trailingComma with
    | none => rfl
    | some g =>
      simp [Text.words_gap g.blank]
  rw [Text.itemWords, hcut, List.map_append, List.filterMap_append, hgap, List.append_nil]
  exact filterMap_head?_words _ fun i _ => i.head?_words

def NameList.OneLine : NameList → List Char → Prop
  | .parenthesised first rest trailingComma, t =>
    ∃ inner, t = '(' :: (inner ++ [')']) ∧ (∀ c ∈ inner, isItemChar c = true ∧ c ≠ '\n') ∧
      Text.itemWords inner = Text.itemWords (parenthesisedText first rest trailingComma)
  | names, t => t = names.text

theorem NameList.OneLine.inline {names : NameList} {t : List Char} (h : names.OneLine t) :
    ∀ c ∈ t, isInline c = true := by
  cases names with
  | plain first rest =>
    obtain rfl : t = _ := h
    intro c hc
    rcases listed_nameItems_chars first rest c hc with (hc | rfl) | rfl
    · exact isInline_of_isAsciiWord hc
    · decide
    · decide
  | parenthesised first rest trailingComma =>
    obtain ⟨inner, rfl, hinner, -⟩ := h
    refine List.forall_mem_cons.mpr ⟨by decide, List.forall_mem_append.mpr ⟨fun c hc => ?_, by decide⟩⟩
    simp [isInline, isPlain_of_isItemChar (hinner c hc).1, (hinner c hc).2]
  | star =>
    obtain rfl : t = _ := h
    decide

theorem NameList.OneLine.startsSolid {names : NameList} {t : List Char} (h : names.OneLine t) : Text.StartsSolid t := by
  cases names with
  | plain first rest =>
    obtain rfl : t = _ := h
    rw [NameList.text, listed, NameItem.text, List.append_assoc]
    exact first.name.startsSolid.append _
  | parenthesised first rest trailingComma =>
    obtain ⟨inner, ht, -⟩ := h
    exact ⟨'(', _, ht, by decide⟩
  | star => exact ⟨'*', [], h, by decide⟩

theorem localName_endsSolid {s : List Char} (h : Text.EndsSolid s) (localName : Option Name) :
    Text.EndsSolid (s ++ localName.elim [] fun a => " as ".toList ++ a.text) := by
  cases localName with
  | none => simpa using h
  | some a => exact (a.endsSolid.append _).append s

theorem listed_endsSolid {first : List Char} {rest : List (List Char)} (hfirst : Text.EndsSolid first)
    (hrest : ∀ t ∈ rest, Text.EndsSolid t) : Text.EndsSolid (listed first rest) := by
  refine hfirst.flatMap fun _ hmap => ?_
  obtain ⟨t, ht, rfl⟩ := List.mem_map.mp hmap
  exact (hrest t ht).cons ' '

theorem NameList.OneLine.endsSolid {names : NameList} {t : List Char} (h : names.OneLine t) : Text.EndsSolid t := by
  cases names with
  | plain first rest =>
    obtain rfl : t = _ := h
    refine listed_endsSolid (localName_endsSolid first.name.endsSolid _) fun t ht => ?_
    obtain ⟨i, -, rfl⟩ := List.mem_map.mp ht
    exact localName_endsSolid i.name.endsSolid _
  | parenthesised first rest trailingComma =>
    obtain ⟨inner, ht, -⟩ := h
    exact ⟨'(' :: inner, ')', ht, by decide⟩
  | star => exact ⟨[], '*', h, by decide⟩

theorem importedNames_of_oneLine {names : NameList} {t : List Char} (h : names.OneLine t) :
    (importedNames t).map String.ofList = names.names := by
  have htrim : Text.trim t = t := (Text.trimmed_of_solid h.startsSolid h.endsSolid).trim_eq
  have hread : ∀ bare, Text.dropEndWhile (· == ')') (t.dropWhile (· == '(')) = bare →
      importedNames t = (Text.itemWords bare).filterMap List.head? := by
    intro bare hbare
    rw [importedNames, htrim, hbare]
    exact Text.map_firstWord_commaItems bare
  cases names with
  | plain first rest =>
    obtain rfl : t = _ := h
    have hchars := listed_nameItems_chars first rest
    have hopen : ∀ c ∈ listed first.text (rest.map NameItem.text), (c == '(') = false := by
      intro c hc
      rcases hchars c hc with (hc | rfl) | rfl
      · exact beq_false_of_ne (ne_of_class hc (by decide))
      · decide
      · decide
    have hclose : ∀ c ∈ (listed first.text (rest.map NameItem.text)).getLast?, (c == ')') = false := by
      intro c hc
      rcases hchars c (List.mem_of_getLast? hc) with (hc | rfl) | rfl
      · exact beq_false_of_ne (ne_of_class hc (by decide))
      · decide
      · decide
    have hwords := @itemWords_listed NameItem NameItem.text first rest fun i _ c hc => by
      rcases i.chars c hc with hc | rfl
      · exact ne_of_class hc (by decide)
      · decide
    rw [hread _ (by rw [NameList.text, Text.dropWhile_eq_self hopen, Text.dropEndWhile_eq_self hclose]), hwords,
      filterMap_head?_words _ fun i _ => i.head?_words, List.map_map]
    rfl
  | parenthesised first rest trailingComma =>
    obtain ⟨inner, rfl, hinner, hwords⟩ := h
    have hopen : ∀ c ∈ inner, (c == '(') = false :=
      fun c hc => beq_false_of_ne (ne_of_class (hinner c hc).1 (by decide))
    have hclose : ∀ c ∈ inner.getLast?, (c == ')') = false :=
      fun c hc => beq_false_of_ne (ne_of_class (hinner c (List.mem_of_getLast? hc)).1 (by decide))
    have hbare : Text.dropEndWhile (· == ')') (('(' :: (inner ++ [')'])).dropWhile (· == '(')) = inner := by
      have hstart : ('(' :: (inner ++ [')'])).dropWhile (· == '(') = inner ++ [')'] := by
        rw [List.dropWhile_cons_of_pos (by rfl)]
        exact Text.dropWhile_eq_self (List.forall_mem_append.mpr ⟨hopen, by decide⟩)
      rw [hstart, Text.dropEndWhile_append_of_forall (by decide), Text.dropEndWhile_eq_self hclose]
    rw [hread _ hbare, hwords, filterMap_itemWords_parenthesised, List.map_map]
    rfl
  | star =>
    obtain rfl : t = _ := h
    decide

theorem Name.ne_star (n : Name) : String.ofList n.text ≠ "*" := by
  intro h
  have htext : n.text = ['*'] := (String.toList_ofList.symm.trans (congrArg String.toList h))
  exact absurd (n.parts '*' (by rw [htext]; exact List.mem_singleton_self _)) (by decide)

theorem NameList.any_star (names : NameList) : names.names.any (· == "*") = names.isStar := by
  cases names with
  | plain first rest => simp [NameList.names, NameList.isStar, Name.ne_star]
  | parenthesised first rest trailingComma => simp [NameList.names, NameList.isStar, Name.ne_star]
  | star => rfl

end Names

end ModuleGraph.Indent
