import ModuleGraph.Proofs.Blanking
import ModuleGraph.Proofs.JsonGrammar
import ModuleGraph.Resolve.Alias

namespace ModuleGraph

namespace Json

/-- White space, and the same white space with comments put into it: line comments, each with the newline that
ends it, and block comments. -/
inductive GapCommented : List Char → List Char → Prop
  | nil : GapCommented [] []
  | space {c : Char} {gap text : List Char} :
      isSpace c = true → GapCommented gap text → GapCommented (c :: gap) (c :: text)
  | line {body gap text : List Char} :
      '\n' ∉ body → GapCommented gap text → GapCommented gap ('/' :: '/' :: body ++ '\n' :: text)
  | block {body gap text : List Char} :
      ¬['*', '/'] <:+: body → GapCommented gap text → GapCommented gap ('/' :: '*' :: body ++ '*' :: '/' :: text)

/-- A text that holds the given tokens, and the same text with comments before, between and after them. -/
inductive Commented : List (List Char) → List Char → List Char → Prop
  | nil {gap gap' : List Char} : GapCommented gap gap' → Commented [] gap gap'
  | cons {gap gap' token text text' : List Char} {tokens : List (List Char)} :
      GapCommented gap gap' → Commented tokens text text' →
      Commented (token :: tokens) (gap ++ (token ++ text)) (gap' ++ (token ++ text'))

theorem GapCommented.isSpaces {gap text : List Char} (h : GapCommented gap text) : IsSpaces gap := by
  induction h with
  | nil => exact isSpaces_nil
  | space hc _ ih => exact List.forall_mem_cons.mpr ⟨hc, ih⟩
  | line _ _ ih => exact ih
  | block _ _ ih => exact ih

theorem Commented.laid {ts : List (List Char)} {s s' : List Char} (h : Commented ts s s') : Laid ts s := by
  induction h with
  | nil hgap => exact .nil hgap.isSpaces
  | cons hgap _ ih => exact .cons hgap.isSpaces ih

end Json

namespace Comment

open Json

def Kept (s : List Char) : Prop :=
  ∀ rest, stripCurly (s ++ rest) = s ++ stripCurly rest

def Plain (c : Char) : Prop :=
  ¬IsCurlyQuote c ∧ c ≠ '/'

instance (c : Char) : Decidable (Plain c) :=
  inferInstanceAs (Decidable (¬IsCurlyQuote c ∧ c ≠ '/'))

theorem kept_of_plain {s : List Char} (h : ∀ c ∈ s, Plain c) : Kept s := by
  intro rest
  induction s with
  | nil => rfl
  | cons c s ih =>
    obtain ⟨⟨hquote, hslash⟩, hs⟩ := List.forall_mem_cons.mp h
    have hcode : CurlyLexeme (.code c) (s ++ rest) := .code hquote fun hc => absurd hc hslash
    have hstep := stripCurly_lexeme hcode
    rw [ih hs] at hstep
    exact hstep

theorem kept_of_isSpaces {gap : List Char} (h : IsSpaces gap) : Kept gap := by
  apply kept_of_plain
  intro c hc
  have hspace := h c hc
  simp only [isSpace, Bool.or_eq_true, beq_iff_eq] at hspace
  rcases hspace with ((rfl | rfl) | rfl) | rfl <;> decide

/-- To the scan the spelling of a text and its closing quote are the rest of a string. -/
theorem literalTail_of_isSpelling {spelling : List Char} (h : IsSpelling spelling) (rest : List Char) :
    LiteralTail (fun c => c = '"' ∨ (c = '\n' ∧ '"' ≠ '`')) (spelling ++ ['"']) rest := by
  induction h with
  | nil => exact .closed (by decide) (.inl rfl)
  | plain hquote hslash hcontrol _ ih =>
    refine .plain hslash ?_ ih
    rintro (rfl | ⟨rfl, -⟩)
    · exact hquote rfl
    · exact absurd hcontrol (by decide)
  | short _ _ ih => exact .escaped ih
  | @numbered a b c d tail hdigits _ ih =>
    -- The scan takes the backslash and the letter together and then sees plain characters.
    have hdigit : ∀ x ∈ [a, b, c, d], ∀ y, Text.hexValue? y = none → x ≠ y := by
      rintro x hx y hy rfl
      simpa [hy] using hdigits x hx
    have hstep : ∀ x ∈ [a, b, c, d], ∀ {tail},
        LiteralTail (fun c => c = '"' ∨ (c = '\n' ∧ '"' ≠ '`')) tail rest →
        LiteralTail (fun c => c = '"' ∨ (c = '\n' ∧ '"' ≠ '`')) (x :: tail) rest := by
      intro x hx tail htail
      refine .plain (hdigit x hx '\\' rfl) ?_ htail
      rintro (hquote | ⟨hnewline, -⟩)
      · exact hdigit x hx '"' rfl hquote
      · exact hdigit x hx '\n' rfl hnewline
    exact .escaped (hstep a (by simp) (hstep b (by simp) (hstep c (by simp) (hstep d (by simp) ih))))

theorem kept_quoted {spelling : List Char} (h : IsSpelling spelling) : Kept (quoted spelling) :=
  fun rest => stripCurly_lexeme (.literal (.inr (.inl rfl)) (literalTail_of_isSpelling h rest))

theorem plain_of_isDigit {c : Char} (h : c.isDigit = true) : Plain c := by
  have hne : ∀ d : Char, d.isDigit = false → c ≠ d := by
    rintro d hd rfl
    simp [hd] at h
  refine ⟨?_, hne '/' rfl⟩
  rintro (hc | hc | hc) <;> exact hne _ rfl hc

theorem kept_of_isNumeral {sign whole fraction exponent : List Char}
    (h : IsNumeral sign whole fraction exponent) : Kept (sign ++ whole ++ fraction ++ exponent) := by
  have hdigits : ∀ {ds}, IsDigits ds → ∀ c ∈ ds, Plain c := fun hds c hc => plain_of_isDigit (hds.2 c hc)
  apply kept_of_plain
  simp only [List.forall_mem_append]
  refine ⟨⟨⟨?_, hdigits h.wholeForm⟩, ?_⟩, ?_⟩
  · rcases h.signForm with rfl | rfl <;> decide
  · rcases h.fractionForm with rfl | ⟨ds, rfl, hds⟩
    · decide
    · exact List.forall_mem_cons.mpr ⟨by decide, hdigits hds⟩
  · rcases h.exponentForm with rfl | ⟨e, s, ds, rfl, he, hs, hds⟩
    · decide
    · refine List.forall_mem_append.mpr ⟨List.forall_mem_cons.mpr ⟨?_, ?_⟩, hdigits hds⟩
      · rcases he with rfl | rfl <;> decide
      · rcases hs with rfl | rfl | rfl <;> decide

theorem kept_itemTokens {items : List Json} (h : ∀ j ∈ items, ∀ t ∈ tokens j, Kept t) :
    ∀ t ∈ itemTokens items, Kept t := by
  induction items with
  | nil => exact List.forall_mem_singleton.mpr (kept_of_plain (by decide))
  | cons item items ih =>
    obtain ⟨hitem, hitems⟩ := List.forall_mem_cons.mp h
    exact List.forall_mem_cons.mpr
      ⟨kept_of_plain (by decide), List.forall_mem_append.mpr ⟨hitem, ih hitems⟩⟩

theorem kept_memberTokens {members : List (List Char × Json)} (hkeys : ∀ m ∈ members, IsSpelling m.1)
    (h : ∀ m ∈ members, ∀ t ∈ tokens m.2, Kept t) : ∀ t ∈ memberTokens members, Kept t := by
  induction members with
  | nil => exact List.forall_mem_singleton.mpr (kept_of_plain (by decide))
  | cons m members ih =>
    obtain ⟨key, value⟩ := m
    obtain ⟨hkey, hkeys⟩ := List.forall_mem_cons.mp hkeys
    obtain ⟨hvalue, hmembers⟩ := List.forall_mem_cons.mp h
    refine List.forall_mem_cons.mpr ⟨kept_of_plain (by decide), List.forall_mem_cons.mpr ⟨kept_quoted hkey, ?_⟩⟩
    exact List.forall_mem_cons.mpr
      ⟨kept_of_plain (by decide), List.forall_mem_append.mpr ⟨hvalue, ih hkeys hmembers⟩⟩

theorem kept_tokens {j : Json} (h : WellSpelled j) : ∀ t ∈ tokens j, Kept t := by
  induction h with
  | null => exact List.forall_mem_singleton.mpr (kept_of_plain (by decide))
  | bool b => exact List.forall_mem_singleton.mpr (kept_of_plain (by cases b <;> decide))
  | number hn => exact List.forall_mem_singleton.mpr (kept_of_isNumeral hn)
  | string hs => exact List.forall_mem_singleton.mpr (kept_quoted hs)
  | @array items _ ih =>
    -- After its opening bracket an array has the tokens of its items, but for one comma in front.
    have hitems := kept_itemTokens ih
    have hopen : Kept ['['] := kept_of_plain (by decide)
    cases items with
    | nil => exact List.forall_mem_cons.mpr ⟨hopen, hitems⟩
    | cons item items => exact List.forall_mem_cons.mpr ⟨hopen, (List.forall_mem_cons.mp hitems).2⟩
  | @object members hkeys _ ih =>
    have hmembers := kept_memberTokens hkeys ih
    have hopen : Kept ['{'] := kept_of_plain (by decide)
    cases members with
    | nil => exact List.forall_mem_cons.mpr ⟨hopen, hmembers⟩
    | cons m members => exact List.forall_mem_cons.mpr ⟨hopen, (List.forall_mem_cons.mp hmembers).2⟩

theorem stripCurly_of_laid {ts : List (List Char)} {s : List Char} (h : Laid ts s) (hts : ∀ t ∈ ts, Kept t) :
    stripCurly s = s := by
  induction h with
  | @nil gap hgap =>
    have hkept := kept_of_isSpaces hgap []
    rw [List.append_nil] at hkept
    exact hkept.trans (List.append_nil gap)
  | cons hgap _ ih =>
    obtain ⟨htoken, hts⟩ := List.forall_mem_cons.mp hts
    rw [kept_of_isSpaces hgap, htoken, ih hts]

theorem isSpaces_blank (s : List Char) : IsSpaces (s.flatMap blank) := by
  intro c hc
  obtain ⟨d, -, hd⟩ := List.mem_flatMap.mp hc
  rcases eq_of_mem_blank hd with rfl | rfl <;> rfl

theorem not_infix_append_star {body : List Char} (h : ¬['*', '/'] <:+: body) : ¬['*', '/'] <:+: body ++ ['*'] := by
  rw [List.infix_concat_iff]
  rintro (hsuffix | hinfix)
  · obtain ⟨start, heq⟩ := hsuffix
    have hlast := congrArg List.getLast? heq
    simp at hlast
  · exact h hinfix

theorem stripCurly_of_gapCommented {gap text : List Char} (h : GapCommented gap text) (rest : List Char) :
    ∃ blanks, IsSpaces blanks ∧ stripCurly (text ++ rest) = blanks ++ stripCurly rest := by
  induction h with
  | nil => exact ⟨[], isSpaces_nil, rfl⟩
  | @space c gap text hc _ ih =>
    obtain ⟨blanks, hblanks, hstrip⟩ := ih
    have hkept := kept_of_isSpaces (List.forall_mem_singleton.mpr hc) (text ++ rest)
    refine ⟨c :: blanks, List.forall_mem_cons.mpr ⟨hc, hblanks⟩, ?_⟩
    rw [hstrip] at hkept
    exact hkept
  | @line body gap text hbody _ ih =>
    obtain ⟨blanks, hblanks, hstrip⟩ := ih
    have hcomment : CurlyLexeme (.comment ['/', '/'] body []) ('\n' :: (text ++ rest)) :=
      .lineComment hbody (.inr ⟨_, rfl⟩)
    have hnewline : IsSpaces ['\n'] := List.forall_mem_singleton.mpr rfl
    have hend := kept_of_isSpaces hnewline (text ++ rest)
    have hstep := stripCurly_lexeme hcomment
    rw [List.singleton_append, hstrip] at hend
    rw [hend] at hstep
    refine ⟨_ ++ ('\n' :: blanks), List.forall_mem_append.mpr ⟨isSpaces_blank ('/' :: '/' :: body),
      List.forall_mem_cons.mpr ⟨rfl, hblanks⟩⟩, ?_⟩
    simpa [Lexeme.text, Lexeme.blanked] using hstep
  | @block body gap text hbody _ ih =>
    obtain ⟨blanks, hblanks, hstrip⟩ := ih
    have hcomment : CurlyLexeme (.comment ['/', '*'] body ['*', '/']) (text ++ rest) :=
      .blockComment (not_infix_append_star hbody)
    have hstep := stripCurly_lexeme hcomment
    rw [hstrip] at hstep
    refine ⟨_ ++ blanks, List.forall_mem_append.mpr
      ⟨isSpaces_blank ('/' :: '*' :: (body ++ ['*', '/'])), hblanks⟩, ?_⟩
    simpa [Lexeme.text, Lexeme.blanked] using hstep

theorem laid_of_commented {ts : List (List Char)} {s s' : List Char} (h : Commented ts s s')
    (hts : ∀ t ∈ ts, Kept t) : Laid ts (stripCurly s') := by
  induction h with
  | @nil gap gap' hgap =>
    obtain ⟨blanks, hblanks, hstrip⟩ := stripCurly_of_gapCommented hgap []
    have hnil : stripCurly [] = [] := rfl
    rw [List.append_nil, hnil, List.append_nil] at hstrip
    rw [hstrip]
    exact .nil hblanks
  | @cons gap gap' token text text' ts hgap _ ih =>
    obtain ⟨htoken, hts⟩ := List.forall_mem_cons.mp hts
    obtain ⟨blanks, hblanks, hstrip⟩ := stripCurly_of_gapCommented hgap (token ++ text')
    rw [hstrip, htoken]
    exact .cons hblanks (ih hts)

end Comment

namespace AliasTable

/-- Comments in a configuration file are harmless. The texts that the reader accepts are exactly those of
well-spelled documents; blanking leaves such a text as it is; and with comments put before, between and after
its tokens it is read as the same document and gives the same table under any root. -/
theorem reads_through_comments (s : List Char) (j : Json) :
    (Json.parse? s = some j ↔ j.WellSpelled ∧ Json.Laid j.tokens s) ∧
    (j.WellSpelled → Json.Laid j.tokens s →
      Comment.stripCurly s = s ∧
      ∀ s', Json.Commented j.tokens s s' →
        Json.parse? (Comment.stripCurly s') = some j ∧ ∀ root, parse? root s' = parse? root s) := by
  refine ⟨Json.parse?_eq_some_iff, fun hj hs => ?_⟩
  have hkept := Comment.kept_tokens hj
  have hstrip := Comment.stripCurly_of_laid hs hkept
  have hread : Json.parse? (Comment.stripCurly s) = some j := by
    rw [hstrip]
    exact Json.parse?_eq_some_iff.mpr ⟨hj, hs⟩
  refine ⟨hstrip, fun s' hs' => ?_⟩
  have hread' : Json.parse? (Comment.stripCurly s') = some j :=
    Json.parse?_eq_some_iff.mpr ⟨hj, Comment.laid_of_commented hs' hkept⟩
  refine ⟨hread', fun root => ?_⟩
  rw [parse?, parse?, hread, hread']

/-- A line comment that holds a quote, and a block comment after a colon. -/
theorem reads_through_comments_of_empty_options :
    parse? ⟨"/app"⟩ "\x7b // don't\n\"compilerOptions\":/* none */ \x7b\x7d\x7d".toList = some ⟨none, []⟩ := by
  have hkey : Json.IsSpelling "compilerOptions".toList := Json.isSpelling_escape "compilerOptions".toList
  have hj : Json.WellSpelled (.object [("compilerOptions".toList, .object [])]) := by
    refine .object (List.forall_mem_singleton.mpr hkey) (List.forall_mem_singleton.mpr (.object ?_ ?_)) <;> simp
  have hnil := Json.GapCommented.nil
  have hspace : Json.GapCommented [' '] [' '] := .space rfl .nil
  have hline : Json.GapCommented [' '] (' ' :: ('/' :: '/' :: " don't".toList ++ '\n' :: [])) :=
    .space rfl (.line (by decide) .nil)
  have hblock : Json.GapCommented [' '] ('/' :: '*' :: " none ".toList ++ '*' :: '/' :: [' ']) :=
    .block (by decide) hspace
  have hs' : Json.Commented
      [['{'], Json.quoted "compilerOptions".toList, [':'], ['{'], ['}'], ['}']] _ _ :=
    .cons hnil (.cons hline (.cons hnil (.cons hblock (.cons hnil (.cons hnil (.nil hnil))))))
  have htable := (((reads_through_comments _ _).2 hj hs'.laid).2 _ hs').2 ⟨"/app"⟩
  exact htable.trans (by decide +kernel)

end AliasTable

end ModuleGraph
