import ModuleGraph.Extract
import Mathlib.Data.List.Basic
import Mathlib.Data.List.Infix

namespace ModuleGraph

/-- A lexeme of source text. Triple-quoted strings of the indentation family count as comments. -/
inductive Lexeme where
  | code (c : Char)
  | literal (text : List Char)
  | comment (opener interior closer : List Char)
  deriving DecidableEq, Repr

namespace Lexeme

def text : Lexeme → List Char
  | .code c => [c]
  | .literal text => text
  | .comment opener interior closer => opener ++ interior ++ closer

def blanked : Lexeme → List Char
  | .code c => [c]
  | .literal text => text
  | .comment opener interior closer => (opener ++ interior ++ closer).flatMap Comment.blank

end Lexeme

/-- What follows the opening quote of a literal, up to and including the character that ends it, in front of a
rest of the text. A backslash takes the next character with it. A literal that nothing ends runs to the end
of the text. -/
inductive LiteralTail (ends : Char → Prop) : List Char → List Char → Prop
  | closed {c rest} : c ≠ '\\' → ends c → LiteralTail ends [c] rest
  | unclosed : LiteralTail ends [] []
  | loneBackslash : LiteralTail ends ['\\'] []
  | escaped {c tail rest} : LiteralTail ends tail rest → LiteralTail ends ('\\' :: c :: tail) rest
  | plain {c tail rest} : c ≠ '\\' → ¬ends c → LiteralTail ends tail rest → LiteralTail ends (c :: tail) rest

/-- A line comment ends before a newline or at the end of the text. -/
def EndsLine (rest : List Char) : Prop :=
  rest = [] ∨ ∃ cs, rest = '\n' :: cs

def IsCurlyQuote (q : Char) : Prop :=
  q = '\'' ∨ q = '"' ∨ q = '`'

def IsIndentQuote (q : Char) : Prop :=
  q = '\'' ∨ q = '"'

/-- The lexemes of curly-brace source and what may follow them. -/
inductive CurlyLexeme : Lexeme → List Char → Prop
  | code {c rest} : ¬IsCurlyQuote c → (c = '/' → ¬['/'] <+: rest ∧ ¬['*'] <+: rest) →
      CurlyLexeme (.code c) rest
  | lineComment {body rest} : '\n' ∉ body → EndsLine rest →
      CurlyLexeme (.comment ['/', '/'] body []) rest
  | blockComment {body rest} : ¬['*', '/'] <:+: body ++ ['*'] →
      CurlyLexeme (.comment ['/', '*'] body ['*', '/']) rest
  | openComment {body} : ¬['*', '/'] <:+: body → CurlyLexeme (.comment ['/', '*'] body []) []
  | literal {q tail rest} : IsCurlyQuote q →
      LiteralTail (fun c => c = q ∨ (c = '\n' ∧ q ≠ '`')) tail rest → CurlyLexeme (.literal (q :: tail)) rest

/-- The lexemes of indentation-family source and what may follow them. -/
inductive IndentLexeme : Lexeme → List Char → Prop
  | code {c rest} : ¬IsIndentQuote c → c ≠ '#' → IndentLexeme (.code c) rest
  | lineComment {body rest} : '\n' ∉ body → EndsLine rest → IndentLexeme (.comment ['#'] body []) rest
  | tripleQuoted {q body rest} : IsIndentQuote q → ¬[q, q, q] <:+: body ++ [q, q] →
      IndentLexeme (.comment [q, q, q] body [q, q, q]) rest
  | openTripleQuoted {q body} : IsIndentQuote q → ¬[q, q, q] <:+: body →
      IndentLexeme (.comment [q, q, q] body []) []
  | literal {q tail rest} : IsIndentQuote q → ¬[q, q] <+: tail ++ rest →
      LiteralTail (fun c => c = q ∨ c = '\n') tail rest → IndentLexeme (.literal (q :: tail)) rest

def Family.IsLexeme : Family → Lexeme → List Char → Prop
  | .curly => CurlyLexeme
  | .indent => IndentLexeme

/-- A text splits into lexemes, each of which may stand before the rest. -/
inductive Splits (isLexeme : Lexeme → List Char → Prop) : List Char → List Lexeme → Prop
  | nil : Splits isLexeme [] []
  | cons {x rest xs} : isLexeme x rest → Splits isLexeme rest xs → Splits isLexeme (x.text ++ rest) (x :: xs)

section Splitting

variable {isLexeme : Lexeme → List Char → Prop} {s : List Char} {xs ys : List Lexeme}

theorem Splits.text_eq (h : Splits isLexeme s xs) : s = xs.flatMap Lexeme.text := by
  induction h with
  | nil => rfl
  | cons _ _ ih => rw [List.flatMap_cons, ← ih]

theorem Splits.of_append (h : Splits isLexeme s (xs ++ ys)) : Splits isLexeme (ys.flatMap Lexeme.text) ys := by
  induction xs generalizing s with
  | nil =>
    rw [List.nil_append] at h
    rw [← h.text_eq]
    exact h
  | cons x xs ih =>
    cases h with
    | cons _ hrest => exact ih hrest

end Splitting

namespace Comment

section Curly

/-- What a scan writes for a character that belongs to no mark. -/
def CurlyMode.written : CurlyMode → Char → List Char
  | .code, c => [c]
  | .lineComment, c => blank c
  | .blockComment, c => blank c
  | .literal _, c => [c]

def CurlyMode.next : CurlyMode → Char → CurlyMode
  | .code, c => .afterCode c
  | .lineComment, c => if c = '\n' then .code else .lineComment
  | .blockComment, _ => .blockComment
  | .literal quote, c => .afterLiteral quote c

/-- Whether a text starts with two characters that a mode takes together. -/
def CurlyMode.Marked : CurlyMode → List Char → Prop
  | .code, s => ['/', '/'] <+: s ∨ ['/', '*'] <+: s
  | .lineComment, _ => False
  | .blockComment, s => ['*', '/'] <+: s
  | .literal _, s => ∃ c cs, s = '\\' :: c :: cs

theorem stripCurlyFrom_step {mode : CurlyMode} {c : Char} {rest : List Char} (h : ¬mode.Marked (c :: rest)) :
    stripCurlyFrom mode (c :: rest) = mode.written c ++ stripCurlyFrom (mode.next c) rest := by
  rw [stripCurlyFrom.eq_def]
  split <;> simp_all [CurlyMode.Marked, CurlyMode.written, CurlyMode.next]

theorem stripCurlyFrom_code {c : Char} {rest : List Char} (hq : ¬IsCurlyQuote c)
    (hs : c = '/' → ¬['/'] <+: rest ∧ ¬['*'] <+: rest) :
    stripCurlyFrom .code (c :: rest) = c :: stripCurlyFrom .code rest := by
  have hmode : CurlyMode.afterCode c = .code := if_neg hq
  have hmark : ¬CurlyMode.code.Marked (c :: rest) := by
    intro hm
    simp only [CurlyMode.Marked, List.cons_prefix_cons] at hm
    rcases hm with ⟨hc, hr⟩ | ⟨hc, hr⟩
    · exact (hs hc.symm).1 hr
    · exact (hs hc.symm).2 hr
  rw [stripCurlyFrom_step hmark, CurlyMode.next, hmode]
  rfl

theorem stripCurlyFrom_lineComment {body rest : List Char} (hb : '\n' ∉ body) (hr : EndsLine rest) :
    stripCurlyFrom .lineComment (body ++ rest) = body.flatMap blank ++ stripCurlyFrom .code rest := by
  induction body with
  | nil =>
    rcases hr with rfl | ⟨cs, rfl⟩
    · rfl
    · rfl
  | cons c body ih =>
    obtain ⟨hc, hb⟩ := not_or.mp (List.mem_cons.not.mp hb)
    have hmode : CurlyMode.lineComment.next c = .lineComment := if_neg fun he => hc he.symm
    rw [List.cons_append, @stripCurlyFrom_step .lineComment c _ not_false, hmode, ih hb, List.flatMap_cons,
      List.append_assoc]
    rfl

theorem stripCurlyFrom_blockComment {body rest : List Char} (hb : ¬['*', '/'] <:+: body ++ ['*']) :
    stripCurlyFrom .blockComment (body ++ '*' :: '/' :: rest) =
      body.flatMap blank ++ ' ' :: ' ' :: stripCurlyFrom .code rest := by
  induction body with
  | nil => rfl
  | cons c body ih =>
    have htail : ¬['*', '/'] <:+: body ++ ['*'] := fun h => hb (h.trans (List.suffix_cons c _).isInfix)
    have hhead : ¬CurlyMode.blockComment.Marked (c :: (body ++ '*' :: '/' :: rest)) := by
      intro hp
      apply hb
      cases body with
      | nil => simp [CurlyMode.Marked] at hp
      | cons d body =>
        obtain ⟨rfl, rfl⟩ : '*' = c ∧ '/' = d := by simpa [CurlyMode.Marked] using hp
        exact ⟨[], body ++ ['*'], rfl⟩
    rw [List.cons_append, stripCurlyFrom_step hhead, CurlyMode.next, ih htail, List.flatMap_cons, List.append_assoc]
    rfl

theorem stripCurlyFrom_openComment {body : List Char} (hb : ¬['*', '/'] <:+: body) :
    stripCurlyFrom .blockComment body = body.flatMap blank := by
  induction body with
  | nil => rfl
  | cons c body ih =>
    have htail : ¬['*', '/'] <:+: body := fun h => hb (h.trans (List.suffix_cons c _).isInfix)
    have hhead : ¬CurlyMode.blockComment.Marked (c :: body) := fun h => hb h.isInfix
    rw [stripCurlyFrom_step hhead, CurlyMode.next, ih htail, List.flatMap_cons]
    rfl

theorem not_marked_literal {c : Char} (hc : c ≠ '\\') (q : Char) (rest : List Char) :
    ¬(CurlyMode.literal q).Marked (c :: rest) := by
  rintro ⟨d, cs, heq⟩
  exact hc (List.cons.inj heq).1

theorem stripCurlyFrom_literal {q : Char} {tail rest : List Char}
    (h : LiteralTail (fun c => c = q ∨ (c = '\n' ∧ q ≠ '`')) tail rest) :
    stripCurlyFrom (.literal q) (tail ++ rest) = tail ++ stripCurlyFrom .code rest := by
  induction h with
  | @closed c rest hc he =>
    have hmode : CurlyMode.afterLiteral q c = .code := if_pos he
    rw [List.singleton_append, stripCurlyFrom_step (not_marked_literal hc q rest), CurlyMode.next, hmode]
    rfl
  | unclosed => rfl
  | loneBackslash =>
    have hmark : ¬(CurlyMode.literal q).Marked ['\\'] := by
      rintro ⟨d, cs, heq⟩
      exact absurd (List.cons.inj heq).2 (List.cons_ne_nil d cs).symm
    rw [List.append_nil, stripCurlyFrom_step hmark]
    rfl
  | @escaped c tail rest _ ih =>
    have hstep : stripCurlyFrom (.literal q) ('\\' :: c :: (tail ++ rest)) =
        '\\' :: c :: stripCurlyFrom (.literal q) (tail ++ rest) := rfl
    rw [List.cons_append, List.cons_append, hstep, ih]
    rfl
  | @plain c tail rest hc he _ ih =>
    have hmode : CurlyMode.afterLiteral q c = .literal q := if_neg he
    rw [List.cons_append, stripCurlyFrom_step (not_marked_literal hc q _), CurlyMode.next, hmode, ih]
    rfl

theorem stripCurly_lexeme {x : Lexeme} {rest : List Char} (h : CurlyLexeme x rest) :
    stripCurly (x.text ++ rest) = x.blanked ++ stripCurly rest := by
  have hslash : blank '/' = [' '] := rfl
  have hstar : blank '*' = [' '] := rfl
  unfold stripCurly
  cases h with
  | code hq hs => exact stripCurlyFrom_code hq hs
  | @lineComment body _ hb hr =>
    have hopen : stripCurlyFrom .code ('/' :: '/' :: (body ++ rest)) =
        ' ' :: ' ' :: stripCurlyFrom .lineComment (body ++ rest) := rfl
    rw [stripCurlyFrom_lineComment hb hr] at hopen
    simpa [Lexeme.text, Lexeme.blanked, hslash] using hopen
  | @blockComment body _ hb =>
    have hopen : stripCurlyFrom .code ('/' :: '*' :: (body ++ '*' :: '/' :: rest)) =
        ' ' :: ' ' :: stripCurlyFrom .blockComment (body ++ '*' :: '/' :: rest) := rfl
    rw [stripCurlyFrom_blockComment hb] at hopen
    simpa [Lexeme.text, Lexeme.blanked, hslash, hstar] using hopen
  | @openComment body hb =>
    have hopen : stripCurlyFrom .code ('/' :: '*' :: body) = ' ' :: ' ' :: stripCurlyFrom .blockComment body := rfl
    have hnil : stripCurlyFrom .code [] = [] := rfl
    rw [stripCurlyFrom_openComment hb] at hopen
    simpa [Lexeme.text, Lexeme.blanked, hslash, hstar, hnil] using hopen
  | @literal q tail _ hq ht =>
    have hmode : CurlyMode.afterCode q = .literal q := if_pos hq
    have hmark : ¬CurlyMode.code.Marked (q :: (tail ++ rest)) := by
      rcases hq with rfl | rfl | rfl <;> simp [CurlyMode.Marked]
    rw [Lexeme.text, List.cons_append, stripCurlyFrom_step hmark, CurlyMode.next, hmode, stripCurlyFrom_literal ht]
    rfl

end Curly

section Indent

/-- What a scan writes for a character that belongs to no mark. -/
def HashMode.written : HashMode → Char → List Char
  | .code, c => [c]
  | .comment, c => blank c
  | .literal _, c => [c]
  | .docstring _, c => blank c

def HashMode.next : HashMode → Char → HashMode
  | .code, c => .afterCode c
  | .comment, c => if c = '\n' then .code else .comment
  | .literal quote, c => .afterLiteral quote c
  | .docstring quote, _ => .docstring quote

/-- Whether a text starts with characters that a mode takes together, or with the mark of a comment. -/
def HashMode.Marked : HashMode → List Char → Prop
  | .code, s => ['#'] <+: s ∨ ['\'', '\'', '\''] <+: s ∨ ['"', '"', '"'] <+: s
  | .comment, _ => False
  | .literal _, s => ∃ c cs, s = '\\' :: c :: cs
  | .docstring quote, s => [quote, quote, quote] <+: s

theorem stripHashFrom_step {mode : HashMode} {c : Char} {rest : List Char} (h : ¬mode.Marked (c :: rest)) :
    stripHashFrom mode (c :: rest) = mode.written c ++ stripHashFrom (mode.next c) rest := by
  cases mode with
  | comment =>
    rw [stripHashFrom]
    rfl
  | docstring quote =>
    match rest, h with
    | [], _ => simp [stripHashFrom, HashMode.written]
    | [d], _ => simp [stripHashFrom, HashMode.written, HashMode.next]
    | d :: e :: rest, h =>
      have hne : ¬(c = quote ∧ d = quote ∧ e = quote) := by
        rintro ⟨rfl, rfl, rfl⟩
        exact h ⟨rest, rfl⟩
      rw [stripHashFrom, if_neg hne]
      rfl
  | code =>
    rw [stripHashFrom.eq_def]
    split <;> simp_all [HashMode.Marked, HashMode.written, HashMode.next]
  | literal quote =>
    rw [stripHashFrom.eq_def]
    split <;> simp_all [HashMode.Marked, HashMode.written, HashMode.next]

theorem stripHashFrom_code {c : Char} {rest : List Char} (hq : ¬IsIndentQuote c) (hc : c ≠ '#') :
    stripHashFrom .code (c :: rest) = c :: stripHashFrom .code rest := by
  have hmode : HashMode.afterCode c = .code := if_neg hq
  have hmark : ¬HashMode.code.Marked (c :: rest) := by
    intro hm
    simp only [HashMode.Marked, List.cons_prefix_cons] at hm
    rcases hm with ⟨he, _⟩ | ⟨he, _⟩ | ⟨he, _⟩
    · exact hc he.symm
    · exact hq (.inl he.symm)
    · exact hq (.inr he.symm)
  rw [stripHashFrom_step hmark, HashMode.next, hmode]
  rfl

theorem stripHashFrom_comment {body rest : List Char} (hb : '\n' ∉ body) (hr : EndsLine rest) :
    stripHashFrom .comment (body ++ rest) = body.flatMap blank ++ stripHashFrom .code rest := by
  induction body with
  | nil =>
    rcases hr with rfl | ⟨cs, rfl⟩
    · rfl
    · rfl
  | cons c body ih =>
    obtain ⟨hc, hb⟩ := not_or.mp (List.mem_cons.not.mp hb)
    have hmode : HashMode.comment.next c = .comment := if_neg fun he => hc he.symm
    rw [List.cons_append, @stripHashFrom_step .comment c _ not_false, hmode, ih hb, List.flatMap_cons,
      List.append_assoc]
    rfl

theorem stripHashFrom_closeTriple (q : Char) (rest : List Char) :
    stripHashFrom (.docstring q) (q :: q :: q :: rest) = ' ' :: ' ' :: ' ' :: stripHashFrom .code rest := by
  rw [stripHashFrom, if_pos ⟨rfl, rfl, rfl⟩]

theorem stripHashFrom_tripleQuoted {q : Char} {body rest : List Char}
    (hb : ¬[q, q, q] <:+: body ++ [q, q]) :
    stripHashFrom (.docstring q) (body ++ q :: q :: q :: rest) =
      body.flatMap blank ++ ' ' :: ' ' :: ' ' :: stripHashFrom .code rest := by
  induction body with
  | nil => exact stripHashFrom_closeTriple q rest
  | cons c body ih =>
    have htail : ¬[q, q, q] <:+: body ++ [q, q] := fun h => hb (h.trans (List.suffix_cons c _).isInfix)
    have hhead : ¬(HashMode.docstring q).Marked (c :: (body ++ q :: q :: q :: rest)) := by
      intro hp
      apply hb
      have hsplit : c :: (body ++ q :: q :: q :: rest) = (c :: body ++ [q, q]) ++ q :: rest := by simp
      rw [hsplit] at hp
      exact (List.prefix_of_prefix_length_le hp (List.prefix_append _ _) (by simp)).isInfix
    rw [List.cons_append, stripHashFrom_step hhead, HashMode.next, ih htail, List.flatMap_cons, List.append_assoc]
    rfl

theorem stripHashFrom_openTripleQuoted {q : Char} {body : List Char} (hb : ¬[q, q, q] <:+: body) :
    stripHashFrom (.docstring q) body = body.flatMap blank := by
  induction body with
  | nil => rfl
  | cons c body ih =>
    have htail : ¬[q, q, q] <:+: body := fun h => hb (h.trans (List.suffix_cons c _).isInfix)
    have hhead : ¬(HashMode.docstring q).Marked (c :: body) := fun h => hb h.isInfix
    rw [stripHashFrom_step hhead, HashMode.next, ih htail, List.flatMap_cons]
    rfl

theorem stripHashFrom_literal {q : Char} {tail rest : List Char}
    (h : LiteralTail (fun c => c = q ∨ c = '\n') tail rest) :
    stripHashFrom (.literal q) (tail ++ rest) = tail ++ stripHashFrom .code rest := by
  have hplain : ∀ {c : Char} (rest : List Char), c ≠ '\\' → ¬(HashMode.literal q).Marked (c :: rest) := by
    rintro c rest hc ⟨d, cs, heq⟩
    exact hc (List.cons.inj heq).1
  induction h with
  | @closed c rest hc he =>
    have hmode : HashMode.afterLiteral q c = .code := if_pos he
    rw [List.singleton_append, stripHashFrom_step (hplain rest hc), HashMode.next, hmode]
    rfl
  | unclosed => rfl
  | loneBackslash =>
    have hmark : ¬(HashMode.literal q).Marked ['\\'] := by
      rintro ⟨d, cs, heq⟩
      exact absurd (List.cons.inj heq).2 (List.cons_ne_nil d cs).symm
    rw [List.append_nil, stripHashFrom_step hmark]
    rfl
  | @escaped c tail rest _ ih =>
    have hstep : stripHashFrom (.literal q) ('\\' :: c :: (tail ++ rest)) =
        '\\' :: c :: stripHashFrom (.literal q) (tail ++ rest) := rfl
    rw [List.cons_append, List.cons_append, hstep, ih]
    rfl
  | @plain c tail rest hc he _ ih =>
    have hmode : HashMode.afterLiteral q c = .literal q := if_neg he
    rw [List.cons_append, stripHashFrom_step (hplain _ hc), HashMode.next, hmode, ih]
    rfl

theorem stripHashFrom_openTriple {q : Char} (hq : IsIndentQuote q) (rest : List Char) :
    stripHashFrom .code (q :: q :: q :: rest) =
      [q, q, q].flatMap blank ++ stripHashFrom (.docstring q) rest := by
  rcases hq with rfl | rfl <;> rfl

theorem stripHash_lexeme {x : Lexeme} {rest : List Char} (h : IndentLexeme x rest) :
    stripHash (x.text ++ rest) = x.blanked ++ stripHash rest := by
  unfold stripHash
  cases h with
  | code hq hc => exact stripHashFrom_code hq hc
  | @lineComment body _ hb hr =>
    have hmark : blank '#' = [' '] := rfl
    have hopen : stripHashFrom .code ('#' :: (body ++ rest)) = ' ' :: stripHashFrom .comment (body ++ rest) := rfl
    rw [stripHashFrom_comment hb hr] at hopen
    simpa [Lexeme.text, Lexeme.blanked, hmark] using hopen
  | @tripleQuoted q body _ hq hb =>
    have hmark : blank q = [' '] := by rcases hq with rfl | rfl <;> rfl
    have hopen := stripHashFrom_openTriple hq (body ++ q :: q :: q :: rest)
    rw [stripHashFrom_tripleQuoted hb] at hopen
    simpa [Lexeme.text, Lexeme.blanked, hmark] using hopen
  | @openTripleQuoted q body hq hb =>
    have hopen := stripHashFrom_openTriple hq body
    have hnil : stripHashFrom .code [] = [] := rfl
    rw [stripHashFrom_openTripleQuoted hb] at hopen
    simpa [Lexeme.text, Lexeme.blanked, hnil] using hopen
  | @literal q tail _ hq hp ht =>
    have hmode : HashMode.afterCode q = .literal q := if_pos hq
    have hmark : ¬HashMode.code.Marked (q :: (tail ++ rest)) := by
      rcases hq with rfl | rfl <;> simpa [HashMode.Marked] using hp
    rw [Lexeme.text, List.cons_append, stripHashFrom_step hmark, HashMode.next, hmode, stripHashFrom_literal ht]
    rfl

end Indent

def strip : Family → List Char → List Char
  | .curly => stripCurly
  | .indent => stripHash

theorem strip_lexeme {family : Family} {x : Lexeme} {rest : List Char} (h : family.IsLexeme x rest) :
    strip family (x.text ++ rest) = x.blanked ++ strip family rest := by
  cases family with
  | curly => exact stripCurly_lexeme h
  | indent => exact stripHash_lexeme h

theorem strip_of_splits {family : Family} {s : List Char} {xs : List Lexeme}
    (h : Splits family.IsLexeme s xs) : strip family s = xs.flatMap Lexeme.blanked := by
  induction h with
  | nil => cases family <;> rfl
  | cons hx _ ih => rw [strip_lexeme hx, ih, List.flatMap_cons]

end Comment

end ModuleGraph
