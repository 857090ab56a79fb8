import ModuleGraph.Proofs.JsonText

namespace ModuleGraph.Json

mutual

/-- The tokens of a document, in order. -/
def tokens : Json → List (List Char)
  | .null => ["null".toList]
  | .bool b => [if b then "true".toList else "false".toList]
  | .number spelling => [spelling]
  | .string spelling => [quoted spelling]
  | .array [] => [['['], [']']]
  | .array (item :: items) => ['['] :: (tokens item ++ itemTokens items)
  | .object [] => [['{'], ['}']]
  | .object ((key, value) :: members) => ['{'] :: quoted key :: [':'] :: (tokens value ++ memberTokens members)

def itemTokens : List Json → List (List Char)
  | [] => [[']']]
  | item :: items => [','] :: (tokens item ++ itemTokens items)

def memberTokens : List (List Char × Json) → List (List Char)
  | [] => [['}']]
  | (key, value) :: members => [','] :: quoted key :: [':'] :: (tokens value ++ memberTokens members)

end

def IsSpaces (gap : List Char) : Prop :=
  ∀ c ∈ gap, isSpace c = true

theorem isSpaces_nil : IsSpaces [] := by
  simp [IsSpaces]

/-- A text that holds the given tokens in order, with white space before, between and after them. -/
inductive Laid : List (List Char) → List Char → Prop
  | nil {gap : List Char} : IsSpaces gap → Laid [] gap
  | cons {gap token text : List Char} {tokens : List (List Char)} :
      IsSpaces gap → Laid tokens text → Laid (token :: tokens) (gap ++ (token ++ text))

section Spaces

variable {gap s t : List Char} {ts : List (List Char)}

theorem skipSpace_append (h : IsSpaces gap) (s : List Char) : skipSpace (gap ++ s) = skipSpace s :=
  List.dropWhile_append_of_pos h

theorem exists_gap (s : List Char) : ∃ gap, IsSpaces gap ∧ s = gap ++ skipSpace s :=
  ⟨s.takeWhile isSpace, fun _ hc => List.mem_takeWhile_imp hc, List.takeWhile_append_dropWhile.symm⟩

theorem skipSpace_cons {c : Char} (h : isSpace c = false) (s : List Char) : skipSpace (c :: s) = c :: s := by
  simp [skipSpace, h]

theorem laid_nil_iff : Laid [] s ↔ skipSpace s = [] := by
  constructor
  · intro h
    cases h with
    | nil hgap => exact List.dropWhile_eq_nil_iff.mpr hgap
  · intro h
    exact .nil (List.dropWhile_eq_nil_iff.mp h)

theorem Laid.of_skipSpace (h : skipSpace s = t ++ gap) (hrest : Laid ts gap) : Laid (t :: ts) s := by
  obtain ⟨spaces, hspaces, hs⟩ := exists_gap s
  rw [hs, h]
  exact .cons hspaces hrest

theorem Laid.skipSpace_eq {c : Char} (h : Laid ((c :: t) :: ts) s) (hc : isSpace c = false) :
    ∃ rest, skipSpace s = c :: (t ++ rest) ∧ Laid ts rest ∧ rest.length < s.length := by
  cases h with
  | @cons spaces _ rest _ hspaces hrest =>
    refine ⟨rest, ?_, hrest, ?_⟩
    · rw [skipSpace_append hspaces, List.cons_append, skipSpace_cons hc]
    · simp only [List.length_append, List.length_cons]
      omega

theorem Laid.skipped {c : Char} (h : Laid ((c :: t) :: ts) s) (hc : isSpace c = false) :
    Laid ((c :: t) :: ts) (skipSpace s) := by
  obtain ⟨rest, hs, hrest, -⟩ := h.skipSpace_eq hc
  rw [hs]
  exact .cons isSpaces_nil hrest

theorem Laid.append_left (h : Laid ts s) (hgap : IsSpaces gap) : Laid ts (gap ++ s) := by
  cases h with
  | nil hspaces => exact .nil (List.forall_mem_append.mpr ⟨hgap, hspaces⟩)
  | cons hspaces hrest =>
    rw [← List.append_assoc]
    exact .cons (List.forall_mem_append.mpr ⟨hgap, hspaces⟩) hrest

theorem Laid.of_skipSpace_laid (h : Laid ts (skipSpace s)) : Laid ts s := by
  obtain ⟨gap, hgap, hs⟩ := exists_gap s
  rw [hs]
  exact h.append_left hgap

theorem length_skipSpace_le (s : List Char) : (skipSpace s).length ≤ s.length :=
  (List.dropWhile_suffix isSpace).length_le

end Spaces

section Steps

variable {fuel : Nat} {s rest : List Char}

/-- How a value is read from a text without white space in front. -/
inductive ValueStep (fuel : Nat) : List Char → Json → List Char → Prop
  | string {tail spelling rest : List Char} : readSpelling tail = some (spelling, rest) →
      ValueStep fuel ('"' :: tail) (.string spelling) rest
  | emptyArray {tail rest : List Char} : skipSpace tail = ']' :: rest →
      ValueStep fuel ('[' :: tail) (.array []) rest
  | array {tail rest : List Char} {items : List Json} : (skipSpace tail).head? ≠ some ']' →
      readItems fuel (skipSpace tail) = some (items, rest) → ValueStep fuel ('[' :: tail) (.array items) rest
  | emptyObject {tail rest : List Char} : skipSpace tail = '}' :: rest →
      ValueStep fuel ('{' :: tail) (.object []) rest
  | object {tail rest : List Char} {members : List (List Char × Json)} : (skipSpace tail).head? ≠ some '}' →
      readMembers fuel (skipSpace tail) = some (members, rest) → ValueStep fuel ('{' :: tail) (.object members) rest
  | null {rest : List Char} : ValueStep fuel ("null".toList ++ rest) .null rest
  | bool {rest : List Char} (b : Bool) :
      ValueStep fuel ((if b then "true".toList else "false".toList) ++ rest) (.bool b) rest
  | number {c : Char} {tail spelling rest : List Char} : c = '-' ∨ c.isDigit = true →
      readNumber (c :: tail) = some (spelling, rest) → ValueStep fuel (c :: tail) (.number spelling) rest

inductive ItemsStep (fuel : Nat) : List Char → List Json → List Char → Prop
  | last {s tail rest : List Char} {item : Json} : readValue fuel s = some (item, tail) →
      skipSpace tail = ']' :: rest → ItemsStep fuel s [item] rest
  | more {s tail next rest : List Char} {item : Json} {items : List Json} : readValue fuel s = some (item, tail) →
      skipSpace tail = ',' :: next → readItems fuel next = some (items, rest) →
      ItemsStep fuel s (item :: items) rest

inductive MembersStep (fuel : Nat) : List Char → List (List Char × Json) → List Char → Prop
  | last {s start tail rest key : List Char} {value : Json} : readKey s = some (key, start) →
      readValue fuel start = some (value, tail) → skipSpace tail = '}' :: rest →
      MembersStep fuel s [(key, value)] rest
  | more {s start tail next rest key : List Char} {value : Json} {members : List (List Char × Json)} :
      readKey s = some (key, start) → readValue fuel start = some (value, tail) →
      skipSpace tail = ',' :: next → readMembers fuel next = some (members, rest) →
      MembersStep fuel s ((key, value) :: members) rest

theorem ne_of_digit {c : Char} (h : c = '-' ∨ c.isDigit = true) {d : Char} (hminus : d ≠ '-')
    (hdigit : d.isDigit = false) : c ≠ d := by
  rintro rfl
  simp [hminus, hdigit] at h

theorem readValue_eq_some_iff {j : Json} :
    readValue (fuel + 1) s = some (j, rest) ↔ ValueStep fuel (skipSpace s) j rest := by
  rw [readValue]
  generalize skipSpace s = text
  constructor
  · intro h
    split at h
    next =>
      obtain ⟨⟨spelling, tail⟩, hread, heq⟩ := Option.map_eq_some_iff.mp h
      obtain ⟨rfl, rfl⟩ := Prod.mk.inj heq
      exact .string hread
    next =>
      split at h
      next hclose =>
        obtain ⟨rfl, rfl⟩ := Prod.mk.inj (Option.some.inj h)
        exact .emptyArray hclose
      next hopen =>
        obtain ⟨⟨items, tail⟩, hread, heq⟩ := Option.map_eq_some_iff.mp h
        obtain ⟨rfl, rfl⟩ := Prod.mk.inj heq
        refine .array (fun hhead => ?_) hread
        obtain ⟨tail', htail⟩ := List.head?_eq_some_iff.mp hhead
        exact hopen tail' htail
    next =>
      split at h
      next hclose =>
        obtain ⟨rfl, rfl⟩ := Prod.mk.inj (Option.some.inj h)
        exact .emptyObject hclose
      next hopen =>
        obtain ⟨⟨members, tail⟩, hread, heq⟩ := Option.map_eq_some_iff.mp h
        obtain ⟨rfl, rfl⟩ := Prod.mk.inj heq
        refine .object (fun hhead => ?_) hread
        obtain ⟨tail', htail⟩ := List.head?_eq_some_iff.mp hhead
        exact hopen tail' htail
    next =>
      obtain ⟨rfl, rfl⟩ := Prod.mk.inj (Option.some.inj h)
      exact .null
    next =>
      obtain ⟨rfl, rfl⟩ := Prod.mk.inj (Option.some.inj h)
      exact .bool true
    next =>
      obtain ⟨rfl, rfl⟩ := Prod.mk.inj (Option.some.inj h)
      exact .bool false
    next =>
      obtain ⟨⟨spelling, tail⟩, hread, heq⟩ := Option.map_eq_some_iff.mp h
      obtain ⟨rfl, rfl⟩ := Prod.mk.inj heq
      obtain ⟨⟨sign, whole, fraction, exponent, rfl, hnumeral⟩, rfl⟩ := readNumber_eq_some hread
      obtain ⟨c, start, hstart, hc⟩ := hnumeral.head
      rw [hstart] at hread ⊢
      exact .number hc hread
  · intro h
    cases h with
    | string hread => simp [hread]
    | emptyArray hclose => simp [hclose]
    | @array tail _ _ hopen hread =>
      cases hskip : skipSpace tail with
      | nil =>
        rw [hskip] at hread
        simp [hskip, hread]
      | cons c after =>
        have hc : c ≠ ']' := fun hc => hopen (by rw [hskip, hc]; rfl)
        rw [hskip] at hread
        simp [hskip, hc, hread]
    | emptyObject hclose => simp [hclose]
    | @object tail _ _ hopen hread =>
      cases hskip : skipSpace tail with
      | nil =>
        rw [hskip] at hread
        simp [hskip, hread]
      | cons c after =>
        have hc : c ≠ '}' := fun hc => hopen (by rw [hskip, hc]; rfl)
        rw [hskip] at hread
        simp [hskip, hc, hread]
    | null => rfl
    | bool b => cases b <;> rfl
    | @number c tail spelling rest hc hread =>
      have hquote : c ≠ '"' := ne_of_digit hc (by decide) (by decide)
      have hbracket : c ≠ '[' := ne_of_digit hc (by decide) (by decide)
      have hbrace : c ≠ '{' := ne_of_digit hc (by decide) (by decide)
      have hn : c ≠ 'n' := ne_of_digit hc (by decide) (by decide)
      have ht : c ≠ 't' := ne_of_digit hc (by decide) (by decide)
      have hf : c ≠ 'f' := ne_of_digit hc (by decide) (by decide)
      simp [hquote, hbracket, hbrace, hn, ht, hf, hread]

theorem readItems_eq_some_iff {found : List Json} :
    readItems (fuel + 1) s = some (found, rest) ↔ ItemsStep fuel s found rest := by
  rw [readItems]
  constructor
  · intro h
    obtain ⟨⟨item, tail⟩, hread, h⟩ := Option.bind_eq_some_iff.mp h
    dsimp only at h
    split at h
    next next hcomma =>
      obtain ⟨⟨items, tail'⟩, hmore, h⟩ := Option.bind_eq_some_iff.mp h
      obtain ⟨rfl, rfl⟩ := Prod.mk.inj (Option.some.inj h)
      exact .more hread hcomma hmore
    next hclose =>
      obtain ⟨rfl, rfl⟩ := Prod.mk.inj (Option.some.inj h)
      exact .last hread hclose
    next => simp at h
  · intro h
    cases h with
    | last hread hclose => simp [hread, hclose]
    | more hread hcomma hmore => simp [hread, hcomma, hmore]

theorem readMembers_eq_some_iff {found : List (List Char × Json)} :
    readMembers (fuel + 1) s = some (found, rest) ↔ MembersStep fuel s found rest := by
  rw [readMembers]
  constructor
  · intro h
    obtain ⟨⟨key, start⟩, hkey, h⟩ := Option.bind_eq_some_iff.mp h
    obtain ⟨⟨value, tail⟩, hread, h⟩ := Option.bind_eq_some_iff.mp h
    dsimp only at h
    split at h
    next next hcomma =>
      obtain ⟨⟨members, tail'⟩, hmore, h⟩ := Option.bind_eq_some_iff.mp h
      obtain ⟨rfl, rfl⟩ := Prod.mk.inj (Option.some.inj h)
      exact .more hkey hread hcomma hmore
    next hclose =>
      obtain ⟨rfl, rfl⟩ := Prod.mk.inj (Option.some.inj h)
      exact .last hkey hread hclose
    next => simp at h
  · intro h
    cases h with
    | last hkey hread hclose => simp [hkey, hread, hclose]
    | more hkey hread hcomma hmore => simp [hkey, hread, hcomma, hmore]

end Steps

section Sound

/-- A value that is read with some fuel is well spelled, and its tokens are laid out in front of the rest. -/
def SoundValue (fuel : Nat) : Prop :=
  ∀ s j rest, readValue fuel s = some (j, rest) →
    WellSpelled j ∧ ∀ ts, Laid ts rest → Laid (tokens j ++ ts) s

def SoundItems (fuel : Nat) : Prop :=
  ∀ s found rest, readItems fuel s = some (found, rest) →
    ∃ item items, found = item :: items ∧ (∀ j ∈ item :: items, WellSpelled j) ∧
      ∀ ts, Laid ts rest → Laid (tokens item ++ itemTokens items ++ ts) s

def SoundMembers (fuel : Nat) : Prop :=
  ∀ s found rest, readMembers fuel s = some (found, rest) →
    ∃ key value members, found = (key, value) :: members ∧ (∀ m ∈ (key, value) :: members, IsSpelling m.1) ∧
      (∀ m ∈ (key, value) :: members, WellSpelled m.2) ∧
      ∀ ts, Laid ts rest → Laid (quoted key :: [':'] :: (tokens value ++ memberTokens members ++ ts)) s

variable {fuel : Nat} {s rest key : List Char}

theorem laid_string (hs : skipSpace s = '"' :: (key ++ '"' :: rest)) {ts : List (List Char)} (hrest : Laid ts rest) :
    Laid (quoted key :: ts) s :=
  .of_skipSpace (by rw [hs, quoted]; simp) hrest

theorem readKey_eq_some (h : readKey s = some (key, rest)) :
    IsSpelling key ∧ ∀ ts, Laid ts rest → Laid (quoted key :: [':'] :: ts) s := by
  unfold readKey at h
  split at h
  next tail hquote =>
    obtain ⟨⟨spelling, tail'⟩, hread, hafter⟩ := Option.bind_eq_some_iff.mp h
    obtain ⟨hspelling, rfl⟩ := readSpelling_eq_some hread
    dsimp only at hafter
    split at hafter
    next tail'' hcolon =>
      obtain ⟨rfl, rfl⟩ := Prod.mk.inj (Option.some.inj hafter)
      exact ⟨hspelling, fun ts hts => laid_string hquote (.of_skipSpace hcolon hts)⟩
    next => simp at hafter
  next => simp at h

theorem soundItems_succ (hvalue : SoundValue fuel) (hitems : SoundItems fuel) : SoundItems (fuel + 1) := by
  intro s found rest h
  cases readItems_eq_some_iff.mp h with
  | last hread hclose =>
    obtain ⟨hitem, hlaid⟩ := hvalue _ _ _ hread
    refine ⟨_, [], rfl, by simpa using hitem, fun ts hts => ?_⟩
    rw [List.append_assoc]
    exact hlaid _ (.of_skipSpace hclose hts)
  | more hread hcomma hmore =>
    obtain ⟨hitem, hlaid⟩ := hvalue _ _ _ hread
    obtain ⟨second, items, rfl, hspelled, hlaid'⟩ := hitems _ _ _ hmore
    refine ⟨_, second :: items, rfl, List.forall_mem_cons.mpr ⟨hitem, hspelled⟩, fun ts hts => ?_⟩
    rw [List.append_assoc]
    exact hlaid _ (.of_skipSpace hcomma (hlaid' ts hts))

theorem soundMembers_succ (hvalue : SoundValue fuel) (hmembers : SoundMembers fuel) : SoundMembers (fuel + 1) := by
  intro s found rest h
  cases readMembers_eq_some_iff.mp h with
  | last hkey hread hclose =>
    obtain ⟨hspelling, hlaidKey⟩ := readKey_eq_some hkey
    obtain ⟨hspelled, hlaid⟩ := hvalue _ _ _ hread
    refine ⟨_, _, [], rfl, by simpa using hspelling, by simpa using hspelled, fun ts hts => hlaidKey _ ?_⟩
    rw [List.append_assoc]
    exact hlaid _ (.of_skipSpace hclose hts)
  | more hkey hread hcomma hmore =>
    obtain ⟨hspelling, hlaidKey⟩ := readKey_eq_some hkey
    obtain ⟨hspelled, hlaid⟩ := hvalue _ _ _ hread
    obtain ⟨key, value, members, rfl, hkeys, hvalues, hlaid'⟩ := hmembers _ _ _ hmore
    refine ⟨_, _, (key, value) :: members, rfl, List.forall_mem_cons.mpr ⟨hspelling, hkeys⟩,
      List.forall_mem_cons.mpr ⟨hspelled, hvalues⟩, fun ts hts => hlaidKey _ ?_⟩
    rw [List.append_assoc]
    exact hlaid _ (.of_skipSpace hcomma (hlaid' ts hts))

theorem soundValue_succ (hitems : SoundItems fuel) (hmembers : SoundMembers fuel) : SoundValue (fuel + 1) := by
  intro s j rest h
  have hstep := readValue_eq_some_iff.mp h
  generalize htext : skipSpace s = text at hstep
  cases hstep with
  | string hread =>
    obtain ⟨hspelling, rfl⟩ := readSpelling_eq_some hread
    exact ⟨.string hspelling, fun ts hts => laid_string htext hts⟩
  | emptyArray hclose => exact ⟨.array (by simp), fun ts hts => .of_skipSpace htext (.of_skipSpace hclose hts)⟩
  | array _ hread =>
    obtain ⟨item, items, rfl, hspelled, hlaid⟩ := hitems _ _ _ hread
    exact ⟨.array hspelled, fun ts hts => .of_skipSpace htext (hlaid ts hts).of_skipSpace_laid⟩
  | emptyObject hclose =>
    exact ⟨.object (by simp) (by simp), fun ts hts => .of_skipSpace htext (.of_skipSpace hclose hts)⟩
  | object _ hread =>
    obtain ⟨key, value, members, rfl, hkeys, hvalues, hlaid⟩ := hmembers _ _ _ hread
    exact ⟨.object hkeys hvalues, fun ts hts => .of_skipSpace htext (hlaid ts hts).of_skipSpace_laid⟩
  | null => exact ⟨.null, fun ts hts => .of_skipSpace htext hts⟩
  | bool b => exact ⟨.bool b, fun ts hts => .of_skipSpace htext hts⟩
  | number _ hread =>
    obtain ⟨⟨sign, whole, fraction, exponent, rfl, hnumeral⟩, hs⟩ := readNumber_eq_some hread
    exact ⟨.number hnumeral, fun ts hts => .of_skipSpace (htext.trans hs) hts⟩

theorem sound (fuel : Nat) : SoundValue fuel ∧ SoundItems fuel ∧ SoundMembers fuel := by
  induction fuel with
  | zero => simp [SoundValue, SoundItems, SoundMembers, readValue, readItems, readMembers]
  | succ fuel ih =>
    obtain ⟨hvalue, hitems, hmembers⟩ := ih
    exact ⟨soundValue_succ hitems hmembers, soundItems_succ hvalue hitems, soundMembers_succ hvalue hmembers⟩

end Sound

section Complete

def OpensValue (c : Char) : Prop :=
  isSpace c = false ∧ c ≠ ']' ∧ c ≠ '}'

theorem opensValue_of_digit {c : Char} (h : c = '-' ∨ c.isDigit = true) : OpensValue c := by
  simp only [OpensValue, isSpace, Bool.or_eq_false_iff, beq_eq_false_iff_ne]
  refine ⟨⟨⟨⟨?_, ?_⟩, ?_⟩, ?_⟩, ?_, ?_⟩ <;> exact ne_of_digit h (by decide) (by decide)

theorem WellSpelled.tokens_head {j : Json} (h : WellSpelled j) :
    ∃ c t ts, tokens j = (c :: t) :: ts ∧ OpensValue c := by
  have hopen : ∀ c : Char, c = '"' ∨ c = '[' ∨ c = '{' ∨ c = 'n' ∨ c = 't' ∨ c = 'f' → OpensValue c := by
    rintro c (rfl | rfl | rfl | rfl | rfl | rfl) <;> unfold OpensValue <;> decide
  cases h with
  | null => exact ⟨'n', _, _, rfl, hopen _ (by simp)⟩
  | bool b => cases b with
    | false => exact ⟨'f', _, _, rfl, hopen _ (by simp)⟩
    | true => exact ⟨'t', _, _, rfl, hopen _ (by simp)⟩
  | number h =>
    obtain ⟨c, tail, heq, hc⟩ := h.head
    exact ⟨c, tail, [], by rw [tokens, heq], opensValue_of_digit hc⟩
  | string => exact ⟨'"', _, _, rfl, hopen _ (by simp)⟩
  | @array items _ => cases items <;> exact ⟨'[', _, _, rfl, hopen _ (by simp)⟩
  | @object members _ _ => cases members <;> exact ⟨'{', _, _, rfl, hopen _ (by simp)⟩

/-- The tokens that may come after a value. -/
def Follows (ts : List (List Char)) : Prop :=
  ∀ t ∈ ts.head?, t = [','] ∨ t = [']'] ∨ t = ['}']

theorem follows_items (items : List Json) (ts : List (List Char)) : Follows (itemTokens items ++ ts) := by
  cases items <;> simp [Follows, itemTokens]

theorem follows_members (members : List (List Char × Json)) (ts : List (List Char)) :
    Follows (memberTokens members ++ ts) := by
  cases members <;> simp [Follows, memberTokens]

theorem Laid.endsNumber {ts : List (List Char)} {s : List Char} (h : Laid ts s) (hts : Follows ts) :
    EndsNumber s := by
  have hspace : ∀ c, isSpace c = true → c.isDigit = false ∧ c ≠ '.' ∧ c ≠ 'e' ∧ c ≠ 'E' := by
    intro c hc
    simp only [isSpace, Bool.or_eq_true, beq_iff_eq] at hc
    rcases hc with ((rfl | rfl) | rfl) | rfl <;> decide
  intro c hc
  cases h with
  | nil hgap => exact hspace c (hgap c (List.mem_of_mem_head? hc))
  | @cons gap token rest ts hgap _ =>
    cases gap with
    | nil =>
      rcases hts token rfl with rfl | rfl | rfl <;> obtain rfl := Option.some.inj hc <;> decide
    | cons d gap =>
      obtain rfl := Option.some.inj hc
      exact hspace d (hgap d (by simp))

/-- The document is read from any text that starts with its tokens. Two steps for each character are enough. -/
def Reads (j : Json) : Prop :=
  ∀ (fuel : Nat) (ts : List (List Char)) (s : List Char), Laid (tokens j ++ ts) s → Follows ts →
    2 * s.length ≤ fuel → ∃ rest, readValue (fuel + 1) s = some (j, rest) ∧ Laid ts rest ∧ rest.length < s.length

variable {fuel : Nat} {s : List Char} {ts : List (List Char)}

theorem readItems_of_laid {item : Json} {items : List Json} (h : ∀ j ∈ item :: items, Reads j)
    (hs : Laid (tokens item ++ itemTokens items ++ ts) s) (hfuel : 2 * s.length + 2 ≤ fuel) :
    ∃ rest, readItems fuel s = some (item :: items, rest) ∧ Laid ts rest ∧ rest.length < s.length := by
  induction items generalizing item fuel s with
  | nil =>
    obtain ⟨fuel, rfl⟩ : ∃ n, fuel = n + 2 := ⟨fuel - 2, by omega⟩
    rw [List.append_assoc] at hs
    obtain ⟨tail, hread, htail, hlt⟩ := h item (by simp) fuel _ s hs (follows_items [] ts) (by omega)
    obtain ⟨rest, hclose, hrest, hlt'⟩ := htail.skipSpace_eq (by decide)
    exact ⟨rest, readItems_eq_some_iff.mpr (.last hread hclose), hrest, Nat.lt_trans hlt' hlt⟩
  | cons next items ih =>
    obtain ⟨fuel, rfl⟩ : ∃ n, fuel = n + 2 := ⟨fuel - 2, by omega⟩
    rw [List.append_assoc] at hs
    obtain ⟨tail, hread, htail, hlt⟩ := h item (by simp) fuel _ s hs (follows_items (next :: items) ts) (by omega)
    obtain ⟨start, hcomma, hstart, hlt₁⟩ := htail.skipSpace_eq (by decide)
    have hleft : 2 * start.length + 2 ≤ fuel + 1 := by omega
    obtain ⟨rest, hmore, hrest, hlt₂⟩ := ih (fun j hj => h j (List.mem_cons_of_mem item hj)) hstart hleft
    exact ⟨rest, readItems_eq_some_iff.mpr (.more hread hcomma hmore), hrest, by omega⟩

theorem readKey_of_laid {key : List Char} (hkey : IsSpelling key) (hs : Laid (quoted key :: [':'] :: ts) s) :
    ∃ rest, readKey s = some (key, rest) ∧ Laid ts rest ∧ rest.length < s.length := by
  obtain ⟨tail, hquote, htail, hlt⟩ := hs.skipSpace_eq (by decide)
  obtain ⟨rest, hcolon, hrest, hlt'⟩ := htail.skipSpace_eq (by decide)
  have hread := hkey.readSpelling_append tail
  refine ⟨rest, ?_, hrest, Nat.lt_trans hlt' hlt⟩
  simp [readKey, hquote, hread, hcolon]

theorem readMembers_of_laid {key : List Char} {value : Json} {members : List (List Char × Json)}
    (hkeys : ∀ m ∈ (key, value) :: members, IsSpelling m.1) (h : ∀ m ∈ (key, value) :: members, Reads m.2)
    (hs : Laid (quoted key :: [':'] :: (tokens value ++ memberTokens members ++ ts)) s)
    (hfuel : 2 * s.length + 2 ≤ fuel) :
    ∃ rest, readMembers fuel s = some ((key, value) :: members, rest) ∧ Laid ts rest ∧ rest.length < s.length := by
  induction members generalizing key value fuel s with
  | nil =>
    obtain ⟨fuel, rfl⟩ : ∃ n, fuel = n + 2 := ⟨fuel - 2, by omega⟩
    obtain ⟨start, hkey, hstart, hlt⟩ := readKey_of_laid (hkeys _ List.mem_cons_self) hs
    rw [List.append_assoc] at hstart
    obtain ⟨tail, hread, htail, hlt₁⟩ :=
      h _ List.mem_cons_self fuel _ start hstart (follows_members [] ts) (by omega)
    obtain ⟨rest, hclose, hrest, hlt₂⟩ := htail.skipSpace_eq (by decide)
    exact ⟨rest, readMembers_eq_some_iff.mpr (.last hkey hread hclose), hrest, by omega⟩
  | cons next members ih =>
    obtain ⟨nextKey, nextValue⟩ := next
    obtain ⟨fuel, rfl⟩ : ∃ n, fuel = n + 2 := ⟨fuel - 2, by omega⟩
    obtain ⟨start, hkey, hstart, hlt⟩ := readKey_of_laid (hkeys _ List.mem_cons_self) hs
    rw [List.append_assoc] at hstart
    obtain ⟨tail, hread, htail, hlt₁⟩ :=
      h _ List.mem_cons_self fuel _ start hstart (follows_members ((nextKey, nextValue) :: members) ts) (by omega)
    obtain ⟨again, hcomma, hagain, hlt₂⟩ := htail.skipSpace_eq (by decide)
    have hleft : 2 * again.length + 2 ≤ fuel + 1 := by omega
    obtain ⟨rest, hmore, hrest, hlt₃⟩ := ih (fun m hm => hkeys m (List.mem_cons_of_mem _ hm))
      (fun m hm => h m (List.mem_cons_of_mem _ hm)) hagain hleft
    exact ⟨rest, readMembers_eq_some_iff.mpr (.more hkey hread hcomma hmore), hrest, by omega⟩

theorem readValue_of_step {j : Json} {text rest : List Char} (hs : skipSpace s = text)
    (h : ValueStep fuel text j rest) : readValue (fuel + 1) s = some (j, rest) := by
  rw [readValue_eq_some_iff, hs]
  exact h

theorem reads_array {items : List Json} (hitems : ∀ j ∈ items, WellSpelled j) (h : ∀ j ∈ items, Reads j) :
    Reads (.array items) := by
  intro fuel ts s hs _ hfuel
  cases items with
  | nil =>
    obtain ⟨tail, hopen, htail, hlt⟩ := hs.skipSpace_eq (by decide)
    obtain ⟨rest, hclose, hrest, hlt'⟩ := htail.skipSpace_eq (by decide)
    exact ⟨rest, readValue_of_step hopen (.emptyArray hclose), hrest, Nat.lt_trans hlt' hlt⟩
  | cons item items =>
    obtain ⟨tail, hopen, htail, hlt⟩ := hs.skipSpace_eq (by decide)
    -- The first item starts with no closing bracket, so the array is not taken for an empty one.
    obtain ⟨c, t, us, heq, hc⟩ := (hitems item List.mem_cons_self).tokens_head
    have hfirst : Laid ((c :: t) :: (us ++ itemTokens items ++ ts)) tail := by simpa [heq] using htail
    obtain ⟨after, hskip, -⟩ := hfirst.skipSpace_eq hc.1
    have hstart : Laid (tokens item ++ itemTokens items ++ ts) (skipSpace tail) := by
      simpa [heq] using hfirst.skipped hc.1
    have hle := length_skipSpace_le tail
    have hleft : 2 * (skipSpace tail).length + 2 ≤ fuel := by omega
    obtain ⟨rest, hread, hrest, hlt'⟩ := readItems_of_laid h hstart hleft
    exact ⟨rest, readValue_of_step hopen (.array (by simp [hskip, hc.2.1]) hread), hrest, by omega⟩

theorem reads_object {members : List (List Char × Json)} (hkeys : ∀ m ∈ members, IsSpelling m.1)
    (h : ∀ m ∈ members, Reads m.2) : Reads (.object members) := by
  intro fuel ts s hs _ hfuel
  cases members with
  | nil =>
    obtain ⟨tail, hopen, htail, hlt⟩ := hs.skipSpace_eq (by decide)
    obtain ⟨rest, hclose, hrest, hlt'⟩ := htail.skipSpace_eq (by decide)
    exact ⟨rest, readValue_of_step hopen (.emptyObject hclose), hrest, Nat.lt_trans hlt' hlt⟩
  | cons m members =>
    obtain ⟨key, value⟩ := m
    obtain ⟨tail, hopen, htail, hlt⟩ := hs.skipSpace_eq (by decide)
    obtain ⟨after, hskip, -⟩ := htail.skipSpace_eq (by decide)
    have hle := length_skipSpace_le tail
    have hleft : 2 * (skipSpace tail).length + 2 ≤ fuel := by omega
    obtain ⟨rest, hread, hrest, hlt'⟩ := readMembers_of_laid hkeys h (htail.skipped (by decide)) hleft
    exact ⟨rest, readValue_of_step hopen (.object (by simp [hskip]) hread), hrest, by omega⟩

theorem WellSpelled.reads {j : Json} (h : WellSpelled j) : Reads j := by
  induction h with
  | null =>
    intro fuel ts s hs _ _
    obtain ⟨rest, hword, hrest, hlt⟩ := hs.skipSpace_eq (by decide)
    exact ⟨rest, readValue_of_step hword .null, hrest, hlt⟩
  | bool b =>
    intro fuel ts s hs _ _
    cases b with
    | false =>
      obtain ⟨rest, hword, hrest, hlt⟩ := hs.skipSpace_eq (by decide)
      exact ⟨rest, readValue_of_step hword (.bool false), hrest, hlt⟩
    | true =>
      obtain ⟨rest, hword, hrest, hlt⟩ := hs.skipSpace_eq (by decide)
      exact ⟨rest, readValue_of_step hword (.bool true), hrest, hlt⟩
  | number hn =>
    intro fuel ts s hs hts _
    obtain ⟨c, tail, heq, hc⟩ := hn.head
    rw [tokens, heq] at hs
    obtain ⟨rest, hspelling, hrest, hlt⟩ := hs.skipSpace_eq (opensValue_of_digit hc).1
    have hread := hn.readNumber_append (hrest.endsNumber hts)
    rw [heq] at hread ⊢
    exact ⟨rest, readValue_of_step hspelling (.number hc hread), hrest, hlt⟩
  | @string spelling hspelling =>
    intro fuel ts s hs _ _
    obtain ⟨rest, hquote, hrest, hlt⟩ := hs.skipSpace_eq (by decide)
    have hopen : skipSpace s = '"' :: (spelling ++ '"' :: rest) := by simpa using hquote
    exact ⟨rest, readValue_of_step hopen (.string (hspelling.readSpelling_append rest)), hrest, hlt⟩
  | array hitems ih => exact reads_array hitems ih
  | object hkeys _ ih => exact reads_object hkeys ih

end Complete

theorem parse?_eq_some_iff {s : List Char} {j : Json} : parse? s = some j ↔ WellSpelled j ∧ Laid (tokens j) s := by
  constructor
  · intro h
    obtain ⟨⟨found, rest⟩, hread, h⟩ := Option.bind_eq_some_iff.mp h
    dsimp only at h
    split at h
    next hempty =>
      obtain rfl := Option.some.inj h
      obtain ⟨hspelled, hlaid⟩ := (sound _).1 s found rest hread
      have hs := hlaid [] (laid_nil_iff.mpr (List.isEmpty_iff.mp hempty))
      rw [List.append_nil] at hs
      exact ⟨hspelled, hs⟩
    next => simp at h
  · rintro ⟨hspelled, hs⟩
    rw [← List.append_nil (tokens j)] at hs
    obtain ⟨rest, hread, hrest, -⟩ := hspelled.reads (2 * s.length + 1) [] s hs (by simp [Follows]) (by omega)
    simp [parse?, hread, laid_nil_iff.mp hrest]

section Pretty

variable {ts : List (List Char)} {rest : List Char}

theorem isSpaces_newline (level : Nat) : IsSpaces (newline level) := by
  intro c hc
  rcases List.mem_cons.mp hc with rfl | hc
  · rfl
  · rw [List.eq_of_mem_replicate hc]
    rfl

theorem isSpaces_space : IsSpaces [' '] := by
  simp [IsSpaces, isSpace]

theorem Laid.token_newline (h : Laid ts rest) (level : Nat) (token : List Char) :
    Laid (token :: ts) (newline level ++ (token ++ rest)) :=
  .cons (isSpaces_newline level) h

theorem Laid.token (h : Laid ts rest) (token : List Char) : Laid (token :: ts) (token ++ rest) :=
  .cons isSpaces_nil h

def LaidIndented (j : Json) : Prop :=
  ∀ (level : Nat) (ts : List (List Char)) (rest : List Char), Laid ts rest →
    Laid (tokens j ++ ts) (indented level j ++ rest)

theorem laid_indentedItems {items : List Json} (h : ∀ j ∈ items, LaidIndented j) (level above : Nat)
    (hrest : Laid ts rest) :
    Laid (itemTokens items ++ ts) (indentedItems level items ++ (newline above ++ ']' :: rest)) := by
  induction items with
  | nil => exact hrest.token_newline above [']']
  | cons item items ih =>
    have hitem := h item List.mem_cons_self level _ _ (ih fun j hj => h j (List.mem_cons_of_mem item hj))
    have hcomma := (hitem.append_left (isSpaces_newline level)).token [',']
    simpa [itemTokens, indentedItems] using hcomma

theorem laid_indentedMembers {members : List (List Char × Json)} (h : ∀ m ∈ members, LaidIndented m.2)
    (level above : Nat) (hrest : Laid ts rest) :
    Laid (memberTokens members ++ ts) (indentedMembers level members ++ (newline above ++ '}' :: rest)) := by
  induction members with
  | nil => exact hrest.token_newline above ['}']
  | cons m members ih =>
    obtain ⟨key, value⟩ := m
    have hvalue := h _ List.mem_cons_self level _ _ (ih fun m hm => h m (List.mem_cons_of_mem _ hm))
    have hkey := ((hvalue.append_left isSpaces_space).token [':']).token_newline level (quoted key)
    simpa [memberTokens, indentedMembers] using hkey.token [',']

theorem WellSpelled.laidIndented {j : Json} (h : WellSpelled j) : LaidIndented j := by
  induction h with
  | null => exact fun level ts rest hrest => hrest.token _
  | bool b => exact fun level ts rest hrest => hrest.token _
  | number => exact fun level ts rest hrest => hrest.token _
  | string => exact fun level ts rest hrest => hrest.token _
  | @array items _ ih =>
    intro level ts rest hrest
    cases items with
    | nil => exact (hrest.token [']']).token ['[']
    | cons item items =>
      have hitems := laid_indentedItems (fun j hj => ih j (List.mem_cons_of_mem item hj)) (level + 1) level hrest
      have hitem := ih item List.mem_cons_self (level + 1) _ _ hitems
      have hopen := (hitem.append_left (isSpaces_newline (level + 1))).token ['[']
      simpa [tokens, indented] using hopen
  | @object members _ _ ih =>
    intro level ts rest hrest
    cases members with
    | nil => exact (hrest.token ['}']).token ['{']
    | cons m members =>
      obtain ⟨key, value⟩ := m
      have hmembers := laid_indentedMembers (fun m hm => ih m (List.mem_cons_of_mem _ hm)) (level + 1) level hrest
      have hvalue := ih _ List.mem_cons_self (level + 1) _ _ hmembers
      have hkey := ((hvalue.append_left isSpaces_space).token [':']).token_newline (level + 1) (quoted key)
      simpa [tokens, indented] using hkey.token ['{']

theorem WellSpelled.parse?_pretty {j : Json} (h : WellSpelled j) : parse? j.pretty = some j := by
  have hlaid := h.laidIndented 0 [] [] (.nil isSpaces_nil)
  rw [List.append_nil, List.append_nil] at hlaid
  exact parse?_eq_some_iff.mpr ⟨h, hlaid⟩

end Pretty

end ModuleGraph.Json
