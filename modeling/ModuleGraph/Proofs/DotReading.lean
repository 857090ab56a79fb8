import ModuleGraph.Export.Dot

namespace ModuleGraph.Dot

/-- A word of a digraph text. -/
inductive Token where
  | name (text : List Char)
  | quoted (text : List Char)
  | arrow
  | openBrace
  | closeBrace
  | openBracket
  | closeBracket
  | equals
  | semicolon
  deriving DecidableEq, Repr

/-- Where a reader stands: between two words, or in a word of which it has seen a part. -/
inductive Reading where
  | between
  | name (seen : List Char)
  | quoted (seen : List Char)
  | escape (seen : List Char)
  | dash
  deriving DecidableEq, Repr

namespace Reading

def isNameChar (c : Char) : Bool :=
  c.isAlphanum || c == '_'

def enter (c : Char) : Option (List Token × Reading) :=
  if c = ' ' ∨ c = '\n' then some ([], .between)
  else if c = '"' then some ([], .quoted [])
  else if c = '-' then some ([], .dash)
  else if c = '{' then some ([.openBrace], .between)
  else if c = '}' then some ([.closeBrace], .between)
  else if c = '[' then some ([.openBracket], .between)
  else if c = ']' then some ([.closeBracket], .between)
  else if c = '=' then some ([.equals], .between)
  else if c = ';' then some ([.semicolon], .between)
  else if isNameChar c then some ([], .name [c])
  else none

/-- Reads a character: the words that it completes, and where the reader stands then. Inside quotes a backslash
escapes a backslash and a quote, and stands for itself before any other character. -/
def step : Reading → Char → Option (List Token × Reading)
  | .between, c => enter c
  | .name seen, c =>
    if isNameChar c then some ([], .name (seen ++ [c]))
    else (enter c).map fun next => (.name seen :: next.1, next.2)
  | .quoted seen, c =>
    if c = '"' then some ([.quoted seen], .between)
    else if c = '\\' then some ([], .escape seen)
    else some ([], .quoted (seen ++ [c]))
  | .escape seen, c =>
    if c = '\\' ∨ c = '"' then some ([], .quoted (seen ++ [c]))
    else some ([], .quoted (seen ++ ['\\', c]))
  | .dash, c => if c = '>' then some ([.arrow], .between) else none

/-- Reads a text: the words that it completes, and where the reader stands at its end. -/
def scan : Reading → List Char → Option (List Token × Reading)
  | r, [] => some ([], r)
  | r, c :: cs =>
    (step r c).bind fun next => (scan next.2 cs).map fun last => (next.1 ++ last.1, last.2)

end Reading

def tokens? (text : List Char) : Option (List Token) :=
  match Reading.scan .between text with
  | some (words, .between) => some words
  | some (words, .name seen) => some (words ++ [.name seen])
  | _ => none

abbrev Arrow := String × String × Bool

def arrowsOf? : List Token → Option (List Arrow)
  | [.closeBrace] => some []
  | .name _ :: .equals :: .name _ :: .semicolon :: rest => arrowsOf? rest
  | .quoted source :: .arrow :: .quoted target :: .semicolon :: rest =>
    (arrowsOf? rest).map ((String.ofList source, String.ofList target, false) :: ·)
  | .quoted source :: .arrow :: .quoted target :: .openBracket :: .name key :: .equals :: .name value
      :: .closeBracket :: .semicolon :: rest =>
    let dashed := key == "style".toList && value == "dashed".toList
    (arrowsOf? rest).map ((String.ofList source, String.ofList target, dashed) :: ·)
  | _ => none

def arrows? (text : List Char) : Option (List Arrow) :=
  match tokens? text with
  | some (.name kind :: .name _ :: .openBrace :: body) =>
    if kind = "digraph".toList then arrowsOf? body else none
  | _ => none

def escapeChar (c : Char) : List Char :=
  if c = '\\' then ['\\', '\\'] else if c = '"' then ['\\', '"'] else [c]

/-- The two replacements do not meet: the second one finds only the quotes that were there before the first. -/
theorem escaped_eq_flatMap (text : List Char) : escaped text = text.flatMap escapeChar := by
  unfold escaped replaced
  rw [List.flatMap_assoc]
  congr 1
  funext c
  unfold escapeChar
  by_cases hb : c = '\\'
  · simp [hb]
  · simp [hb]

namespace Reading

theorem scan_append {r r' : Reading} {a b : List Char} {words : List Token} (h : scan r a = some (words, r')) :
    scan r (a ++ b) = (scan r' b).map fun last => (words ++ last.1, last.2) := by
  induction a generalizing r words with
  | nil =>
    obtain ⟨rfl, rfl⟩ := Prod.mk.inj (Option.some.inj h)
    simp
  | cons c a ih =>
    obtain ⟨next, hnext, hrest⟩ := Option.bind_eq_some_iff.mp h
    obtain ⟨last, hlast, heq⟩ := Option.map_eq_some_iff.mp hrest
    obtain ⟨rfl, rfl⟩ := Prod.mk.inj heq
    rw [List.cons_append, scan, hnext, Option.bind_some, ih hlast, Option.map_map]
    simp [Function.comp_def]

theorem scan_trans {r r' r'' : Reading} {a b : List Char} {words words' : List Token}
    (h : scan r a = some (words, r')) (h' : scan r' b = some (words', r'')) :
    scan r (a ++ b) = some (words ++ words', r'') := by
  rw [scan_append h, h']
  rfl

theorem scan_escapeChar (seen : List Char) (c : Char) :
    scan (.quoted seen) (escapeChar c) = some ([], .quoted (seen ++ [c])) := by
  unfold escapeChar
  by_cases hb : c = '\\'
  · simp [hb, scan, step]
  · by_cases hq : c = '"'
    · simp [hq, scan, step]
    · simp [hb, hq, scan, step]

theorem scan_escaped (seen id : List Char) :
    scan (.quoted seen) (escaped id) = some ([], .quoted (seen ++ id)) := by
  rw [escaped_eq_flatMap]
  induction id generalizing seen with
  | nil => simp [scan]
  | cons c id ih =>
    have h := scan_trans (scan_escapeChar seen c) (ih (seen ++ [c]))
    simpa using h

theorem scan_quote (id : String) : scan .between (quote id) = some ([.quoted id.toList], .between) := by
  have hopen : scan .between ['"'] = some ([], .quoted []) := by decide
  have hclose : scan (.quoted id.toList) ['"'] = some ([.quoted id.toList], .between) := by simp [scan, step]
  exact scan_trans (scan_trans hopen (scan_escaped [] id.toList)) hclose

end Reading

variable {K K' : Type}

def styleTokens (dashed : Bool) : List Token :=
  if dashed then [.openBracket, .name "style".toList, .equals, .name "dashed".toList, .closeBracket] else []

def edgeTokens (e : Edge K) : List Token :=
  [.quoted e.source.toList, .arrow, .quoted e.target.toList] ++ styleTokens e.isTypeOnly ++ [.semicolon]

theorem scan_style (dashed : Bool) :
    Reading.scan .between (if dashed then " [style=dashed]".toList else []) = some (styleTokens dashed, .between) := by
  cases dashed <;> decide

theorem scan_edgeLine (e : Edge K) : Reading.scan .between (edgeLine e) = some (edgeTokens e, .between) := by
  have hindent : Reading.scan .between "    ".toList = some ([], .between) := by decide
  have harrow : Reading.scan .between " -> ".toList = some ([.arrow], .between) := by decide
  have hend : Reading.scan .between [';', '\n'] = some ([.semicolon], .between) := by decide
  have hsource := Reading.scan_trans hindent (Reading.scan_quote e.source)
  have htarget := Reading.scan_trans (Reading.scan_trans hsource harrow) (Reading.scan_quote e.target)
  exact Reading.scan_trans (Reading.scan_trans htarget (scan_style e.isTypeOnly)) hend

theorem scan_edgeLines (edges : List (Edge K)) :
    Reading.scan .between (edges.flatMap edgeLine) = some (edges.flatMap edgeTokens, .between) := by
  induction edges with
  | nil => rfl
  | cons e edges ih => exact Reading.scan_trans (scan_edgeLine e) ih

theorem tokens?_of_scan {text : List Char} {words : List Token}
    (h : Reading.scan .between text = some (words, .between)) : tokens? text = some words := by
  rw [tokens?, h]

def openingTokens : List Token :=
  [.name "digraph".toList, .name "dependencies".toList, .openBrace, .name "rankdir".toList, .equals, .name "LR".toList,
    .semicolon]

theorem scan_opening : Reading.scan .between "digraph dependencies \x7b\n    rankdir=LR;\n".toList =
    some (openingTokens, .between) := by
  decide

theorem tokens?_render (g : Graph K) :
    tokens? (render g) = some (openingTokens ++ g.edges.flatMap edgeTokens ++ [.closeBrace]) := by
  have hclose : Reading.scan .between ['}', '\n'] = some ([.closeBrace], .between) := by decide
  have hrender := Reading.scan_trans (Reading.scan_trans scan_opening (scan_edgeLines g.edges)) hclose
  exact tokens?_of_scan hrender

def arrowOf (e : Edge K) : Arrow :=
  (e.source, e.target, e.isTypeOnly)

theorem arrowsOf?_edgeTokens (e : Edge K) (rest : List Token) :
    arrowsOf? (edgeTokens e ++ rest) = (arrowsOf? rest).map (arrowOf e :: ·) := by
  cases htype : e.isTypeOnly with
  | false => simp [edgeTokens, styleTokens, arrowOf, arrowsOf?, htype]
  | true => simp [edgeTokens, styleTokens, arrowOf, arrowsOf?, htype]

theorem arrowsOf?_edges (edges : List (Edge K)) :
    arrowsOf? (edges.flatMap edgeTokens ++ [.closeBrace]) = some (edges.map arrowOf) := by
  induction edges with
  | nil => rfl
  | cons e edges ih => rw [List.flatMap_cons, List.append_assoc, arrowsOf?_edgeTokens, ih]; rfl

theorem arrows?_render (g : Graph K) : arrows? (render g) = some (g.edges.map arrowOf) := by
  rw [arrows?, tokens?_render]
  exact arrowsOf?_edges g.edges

theorem flatMap_edgeLine (edges : List (Edge K)) :
    edges.flatMap edgeLine =
      (edges.map arrowOf).flatMap fun a => edgeLine (⟨a.1, a.2.1, [], a.2.2, ()⟩ : Edge Unit) := by
  rw [List.flatMap_map]
  rfl

/-- The text of a graph gives back the ends of its edges and which ones only types need, in their order; so two
graphs have the same text exactly when these are the same. -/
theorem render_shows_edges (g : Graph K) :
    arrows? (render g) = some (g.edges.map arrowOf) ∧
      ∀ g' : Graph K', render g = render g' ↔ g.edges.map arrowOf = g'.edges.map arrowOf := by
  refine ⟨arrows?_render g, fun g' => ⟨?_, ?_⟩⟩
  · intro h
    have hread := arrows?_render g
    rw [h, arrows?_render g'] at hread
    exact (Option.some.inj hread).symm
  · intro h
    have hlines : g.edges.flatMap edgeLine = g'.edges.flatMap edgeLine := by
      rw [flatMap_edgeLine g.edges, flatMap_edgeLine g'.edges, h]
    unfold render
    rw [hlines]

end ModuleGraph.Dot
