import ModuleGraph.Proofs.CommentIndependence
import ModuleGraph.Proofs.TextPieces

namespace ModuleGraph

section Marks

variable {mark s body rest : List Char}

def cutAt? (mark : List Char) : List Char → Option (List Char × List Char)
  | [] => none
  | c :: cs =>
    match Text.after? mark (c :: cs) with
    | some rest => some ([], rest)
    | none => (cutAt? mark cs).map fun cut => (c :: cut.1, cut.2)

theorem eq_nil_of_prefix (hp : mark <+: body ++ mark ++ rest) (hb : ¬mark <:+: body ++ mark.dropLast) : body = [] := by
  by_contra hne
  have hpos := List.length_pos_iff.mpr hne
  have hshort : body ++ mark.dropLast <+: body ++ mark ++ rest :=
    ((List.prefix_append_right_inj body).mpr (List.dropLast_prefix mark)).trans (List.prefix_append _ rest)
  have hlength : mark.length ≤ (body ++ mark.dropLast).length := by
    simp only [List.length_append, List.length_dropLast]
    omega
  exact hb (List.prefix_of_prefix_length_le hp hshort hlength).isInfix

theorem cutAt?_eq_some_iff (hmark : mark ≠ []) :
    cutAt? mark s = some (body, rest) ↔ s = body ++ mark ++ rest ∧ ¬mark <:+: body ++ mark.dropLast := by
  induction s generalizing body with
  | nil => simp [cutAt?, hmark]
  | cons c s ih =>
    rw [cutAt?]
    split
    next after hafter =>
      have hstart : c :: s = mark ++ after := Text.after?_eq_some.mp hafter
      constructor
      · intro h
        obtain ⟨rfl, rfl⟩ := Prod.mk.inj (Option.some.inj h)
        refine ⟨hstart, fun hin => ?_⟩
        have hle := hin.length_le
        have hpos := List.length_pos_iff.mpr hmark
        simp only [List.nil_append, List.length_dropLast] at hle
        omega
      · rintro ⟨heq, hb⟩
        have hnil : body = [] := eq_nil_of_prefix (by rw [← heq, hstart]; exact List.prefix_append _ _) hb
        subst hnil
        rw [hstart, List.nil_append] at heq
        rw [List.append_cancel_left heq]
    next hafter =>
      have hstart := Text.after?_eq_none.mp hafter
      constructor
      · intro h
        obtain ⟨⟨before, after⟩, hcut, heq⟩ := Option.map_eq_some_iff.mp h
        obtain ⟨rfl, rfl⟩ := Prod.mk.inj heq
        obtain ⟨rfl, hb⟩ := ih.mp hcut
        refine ⟨rfl, fun hin => ?_⟩
        rcases List.infix_cons_iff.mp hin with hp | hin
        · apply hstart
          refine hp.trans (List.cons_prefix_cons.mpr ⟨rfl, ?_⟩)
          rw [List.append_assoc]
          exact (List.prefix_append_right_inj before).mpr ((List.dropLast_prefix mark).trans (List.prefix_append _ _))
        · exact hb hin
      · rintro ⟨heq, hb⟩
        cases body with
        | nil => exact absurd ⟨rest, heq.symm⟩ hstart
        | cons d before =>
          obtain ⟨rfl, hs⟩ := List.cons.inj heq
          have hcut := ih.mpr ⟨hs, fun hin => hb (List.infix_cons hin)⟩
          rw [hcut]
          rfl

theorem cutAt?_eq_none_iff (hmark : mark ≠ []) : cutAt? mark s = none ↔ ¬mark <:+: s := by
  induction s with
  | nil => simp [cutAt?, hmark]
  | cons c s ih =>
    rw [cutAt?, List.infix_cons_iff]
    split
    next after hafter =>
      have hstart : mark <+: c :: s := ⟨after, (Text.after?_eq_some.mp hafter).symm⟩
      simp [hstart]
    next hafter =>
      have hstart := Text.after?_eq_none.mp hafter
      simp [hstart, ih]

end Marks

section Literals

variable {ends : Char → Prop} [DecidablePred ends]

/-- What follows the opening quote of a literal, up to and including the character that ends it, and the rest. -/
def cutLiteral (ends : Char → Prop) [DecidablePred ends] : List Char → List Char × List Char
  | [] => ([], [])
  | c :: cs =>
    if c = '\\' then
      match cs with
      | [] => ([c], [])
      | d :: cs => (c :: d :: (cutLiteral ends cs).1, (cutLiteral ends cs).2)
    else if ends c then ([c], cs)
    else (c :: (cutLiteral ends cs).1, (cutLiteral ends cs).2)

theorem cutLiteral_append (s : List Char) : (cutLiteral ends s).1 ++ (cutLiteral ends s).2 = s := by
  fun_induction cutLiteral ends s <;> simp_all

theorem literalTail_cutLiteral (s : List Char) : LiteralTail ends (cutLiteral ends s).1 (cutLiteral ends s).2 := by
  fun_induction cutLiteral ends s with
  | case1 => exact .unclosed
  | case2 => exact .loneBackslash
  | case3 d cs ih => exact .escaped ih
  | case4 c cs hc he => exact .closed hc he
  | case5 c cs hc he ih => exact .plain hc he ih

theorem cutLiteral_cons {c : Char} (hc : c ≠ '\\') (cs : List Char) :
    cutLiteral ends (c :: cs) =
      if ends c then ([c], cs) else (c :: (cutLiteral ends cs).1, (cutLiteral ends cs).2) := by
  cases cs <;> simp [cutLiteral, hc]

theorem cutLiteral_of_literalTail {tail rest : List Char} (h : LiteralTail ends tail rest) :
    cutLiteral ends (tail ++ rest) = (tail, rest) := by
  induction h with
  | closed hc he => rw [List.singleton_append, cutLiteral_cons hc, if_pos he]
  | unclosed => rfl
  | loneBackslash => rfl
  | escaped _ ih => simp [cutLiteral, ih]
  | plain hc he _ ih => rw [List.cons_append, cutLiteral_cons hc, if_neg he, ih]

end Literals

section Lines

variable {body rest : List Char}

def cutLine (s : List Char) : List Char × List Char :=
  (s.takeWhile (· != '\n'), s.dropWhile (· != '\n'))

theorem cutLine_append (s : List Char) : (cutLine s).1 ++ (cutLine s).2 = s :=
  List.takeWhile_append_dropWhile

theorem not_mem_cutLine (s : List Char) : '\n' ∉ (cutLine s).1 := by
  intro h
  have hne := List.mem_takeWhile_imp h
  exact absurd hne (by decide)

theorem endsLine_cutLine (s : List Char) : EndsLine (cutLine s).2 := by
  cases hs : (cutLine s).2 with
  | nil => exact .inl rfl
  | cons c cs =>
    have hhead := List.head?_dropWhile_not (· != '\n') s
    have hc : (s.dropWhile (· != '\n')).head? = some c := congrArg List.head? hs
    rw [hc] at hhead
    exact .inr ⟨cs, by simpa using hhead⟩

theorem cutLine_of_endsLine (hb : '\n' ∉ body) (hr : EndsLine rest) : cutLine (body ++ rest) = (body, rest) := by
  have hline : ∀ c ∈ body, (c != '\n') = true := by
    intro c hc
    exact bne_iff_ne.mpr fun he => hb (he ▸ hc)
  rw [cutLine, List.takeWhile_append_of_pos hline, List.dropWhile_append_of_pos hline]
  rcases hr with rfl | ⟨cs, rfl⟩ <;> simp

end Lines

instance : DecidablePred IsCurlyQuote :=
  fun q => inferInstanceAs (Decidable (q = '\'' ∨ q = '"' ∨ q = '`'))

instance : DecidablePred IsIndentQuote :=
  fun q => inferInstanceAs (Decidable (q = '\'' ∨ q = '"'))

namespace Lexeme

variable {c : Char} {cs rest : List Char} {x : Lexeme}

def upToCloser (opener closer s : List Char) : Lexeme × List Char :=
  match cutAt? closer s with
  | some (body, rest) => (.comment opener body closer, rest)
  | none => (.comment opener s [], [])

def firstCurly : Char → List Char → Lexeme × List Char
  | '/', '/' :: cs => (.comment ['/', '/'] (cutLine cs).1 [], (cutLine cs).2)
  | '/', '*' :: cs => upToCloser ['/', '*'] ['*', '/'] cs
  | c, cs =>
    if IsCurlyQuote c then
      let cut := cutLiteral (fun d => d = c ∨ (d = '\n' ∧ c ≠ '`')) cs
      (.literal (c :: cut.1), cut.2)
    else (.code c, cs)

def firstIndent (c : Char) (cs : List Char) : Lexeme × List Char :=
  if c = '#' then (.comment ['#'] (cutLine cs).1 [], (cutLine cs).2)
  else if IsIndentQuote c then
    match Text.after? [c, c] cs with
    | some cs => upToCloser [c, c, c] [c, c, c] cs
    | none =>
      let cut := cutLiteral (fun d => d = c ∨ d = '\n') cs
      (.literal (c :: cut.1), cut.2)
  else (.code c, cs)

section Comments

variable (opener : List Char) {closer body : List Char} (hcloser : closer ≠ [])
include hcloser

theorem upToCloser_text (s : List Char) :
    (upToCloser opener closer s).1.text ++ (upToCloser opener closer s).2 = opener ++ s := by
  unfold upToCloser
  split
  next body rest hcut =>
    obtain ⟨rfl, _⟩ := (cutAt?_eq_some_iff hcloser).mp hcut
    simp [text]
  next => simp [text]

theorem upToCloser_of_closed (hb : ¬closer <:+: body ++ closer.dropLast) (rest : List Char) :
    upToCloser opener closer (body ++ closer ++ rest) = (.comment opener body closer, rest) := by
  rw [upToCloser, (cutAt?_eq_some_iff hcloser).mpr ⟨rfl, hb⟩]

theorem upToCloser_of_open (hb : ¬closer <:+: body) :
    upToCloser opener closer body = (.comment opener body [], []) := by
  rw [upToCloser, (cutAt?_eq_none_iff hcloser).mpr hb]

theorem upToCloser_induction {P : Lexeme → List Char → Prop}
    (hclosed : ∀ body rest, ¬closer <:+: body ++ closer.dropLast → P (.comment opener body closer) rest)
    (hopen : ∀ body, ¬closer <:+: body → P (.comment opener body []) []) (s : List Char) :
    P (upToCloser opener closer s).1 (upToCloser opener closer s).2 := by
  unfold upToCloser
  split
  next body rest hcut => exact hclosed body rest ((cutAt?_eq_some_iff hcloser).mp hcut).2
  next hcut => exact hopen s ((cutAt?_eq_none_iff hcloser).mp hcut)

end Comments

theorem firstCurly_text (c : Char) (cs : List Char) : (firstCurly c cs).1.text ++ (firstCurly c cs).2 = c :: cs := by
  unfold firstCurly
  split
  next cs => simp [text, cutLine_append]
  next cs => exact upToCloser_text ['/', '*'] (List.cons_ne_nil '*' ['/']) cs
  next =>
    split
    · simp [text, cutLiteral_append]
    · rfl

theorem firstCurly_isLexeme (c : Char) (cs : List Char) : CurlyLexeme (firstCurly c cs).1 (firstCurly c cs).2 := by
  unfold firstCurly
  split
  next cs => exact .lineComment (not_mem_cutLine cs) (endsLine_cutLine cs)
  next cs =>
    exact upToCloser_induction ['/', '*'] (List.cons_ne_nil '*' ['/']) (fun _ _ hb => .blockComment hb)
      (fun _ hb => .openComment hb) cs
  next hline hblock =>
    split
    next hq => exact .literal hq (literalTail_cutLiteral cs)
    next hq =>
      refine .code hq fun hc => ⟨?_, ?_⟩
      · rintro ⟨rest, rfl⟩
        exact hline rest hc rfl
      · rintro ⟨rest, rfl⟩
        exact hblock rest hc rfl

theorem firstCurly_of_isLexeme (h : CurlyLexeme x rest) (htext : x.text ++ rest = c :: cs) :
    firstCurly c cs = (x, rest) := by
  cases h with
  | @code d _ hq hs =>
    obtain ⟨rfl, rfl⟩ : d = c ∧ rest = cs := List.cons.inj htext
    unfold firstCurly
    split
    next after => exact absurd (List.prefix_append ['/'] after) (hs rfl).1
    next after => exact absurd (List.prefix_append ['*'] after) (hs rfl).2
    next => rw [if_neg hq]
  | @lineComment body _ hb hr =>
    obtain ⟨rfl, rfl⟩ := List.cons.inj htext
    have hline := cutLine_of_endsLine hb hr
    simp [firstCurly, hline]
  | @blockComment body _ hb =>
    obtain ⟨rfl, rfl⟩ := List.cons.inj htext
    have hcomment := upToCloser_of_closed ['/', '*'] (List.cons_ne_nil '*' ['/']) hb rest
    simpa [firstCurly] using hcomment
  | @openComment body hb =>
    obtain ⟨rfl, rfl⟩ := List.cons.inj htext
    have hcomment := upToCloser_of_open ['/', '*'] (List.cons_ne_nil '*' ['/']) hb
    simpa [firstCurly] using hcomment
  | @literal q tail _ hq ht =>
    obtain ⟨rfl, rfl⟩ := List.cons.inj htext
    have hliteral := cutLiteral_of_literalTail ht
    rcases hq with rfl | rfl | rfl <;> simp_all [firstCurly, IsCurlyQuote]

theorem firstIndent_text (c : Char) (cs : List Char) : (firstIndent c cs).1.text ++ (firstIndent c cs).2 = c :: cs := by
  unfold firstIndent
  split
  next hc => simp [text, cutLine_append, hc]
  next =>
    split
    next =>
      split
      next after hafter =>
        rw [upToCloser_text _ (List.cons_ne_nil c [c, c]), Text.after?_eq_some.mp hafter]
        rfl
      next => simp [text, cutLiteral_append]
    next => rfl

theorem firstIndent_isLexeme (c : Char) (cs : List Char) : IndentLexeme (firstIndent c cs).1 (firstIndent c cs).2 := by
  unfold firstIndent
  split
  next => exact .lineComment (not_mem_cutLine cs) (endsLine_cutLine cs)
  next hc =>
    split
    next hq =>
      split
      next after hafter =>
        exact upToCloser_induction _ (List.cons_ne_nil c [c, c]) (fun _ _ hb => .tripleQuoted hq hb)
          (fun _ hb => .openTripleQuoted hq hb) after
      next hafter =>
        refine .literal hq ?_ (literalTail_cutLiteral cs)
        rw [cutLiteral_append]
        exact Text.after?_eq_none.mp hafter
    next hq => exact .code hq hc

theorem ne_hash_of_quote (hc : IsIndentQuote c) : c ≠ '#' := by
  rcases hc with rfl | rfl <;> decide

theorem firstIndent_of_triple (hc : IsIndentQuote c) (s : List Char) :
    firstIndent c ([c, c] ++ s) = upToCloser [c, c, c] [c, c, c] s := by
  have hafter : Text.after? [c, c] ([c, c] ++ s) = some s := Text.after?_eq_some.mpr rfl
  rw [firstIndent, if_neg (ne_hash_of_quote hc), if_pos hc]
  simp only [hafter]

theorem firstIndent_of_literal (hc : IsIndentQuote c) {s : List Char} (hs : ¬[c, c] <+: s) :
    firstIndent c s = (.literal (c :: (cutLiteral (fun d => d = c ∨ d = '\n') s).1),
      (cutLiteral (fun d => d = c ∨ d = '\n') s).2) := by
  rw [firstIndent, if_neg (ne_hash_of_quote hc), if_pos hc]
  simp only [Text.after?_eq_none.mpr hs]

theorem firstIndent_of_isLexeme (h : IndentLexeme x rest) (htext : x.text ++ rest = c :: cs) :
    firstIndent c cs = (x, rest) := by
  cases h with
  | @code d _ hq hc =>
    obtain ⟨rfl, rfl⟩ : d = c ∧ rest = cs := List.cons.inj htext
    rw [firstIndent, if_neg hc, if_neg hq]
  | @lineComment body _ hb hr =>
    obtain ⟨rfl, rfl⟩ := List.cons.inj htext
    have hline := cutLine_of_endsLine hb hr
    simp [firstIndent, hline]
  | @tripleQuoted q body _ hq hb =>
    have hcs : [q, q, q] ++ (body ++ [q, q, q] ++ rest) = c :: cs := by simpa [text] using htext
    obtain ⟨rfl, rfl⟩ := List.cons.inj hcs
    exact (firstIndent_of_triple hq _).trans (upToCloser_of_closed _ (List.cons_ne_nil q [q, q]) hb rest)
  | @openTripleQuoted q body hq hb =>
    have hcs : [q, q, q] ++ body = c :: cs := by simpa [text] using htext
    obtain ⟨rfl, rfl⟩ := List.cons.inj hcs
    exact (firstIndent_of_triple hq _).trans (upToCloser_of_open _ (List.cons_ne_nil q [q, q]) hb)
  | @literal q tail _ hq hp ht =>
    obtain ⟨rfl, rfl⟩ : q = c ∧ tail ++ rest = cs := List.cons.inj htext
    rw [firstIndent_of_literal hq hp, cutLiteral_of_literalTail ht]

end Lexeme

/-- The first lexeme of a text of a family, and the rest. -/
def Family.first : Family → Char → List Char → Lexeme × List Char
  | .curly => Lexeme.firstCurly
  | .indent => Lexeme.firstIndent

theorem Family.first_eq_iff {family : Family} {c : Char} {cs rest : List Char} {x : Lexeme} :
    family.first c cs = (x, rest) ↔ x.text ++ rest = c :: cs ∧ family.IsLexeme x rest := by
  constructor
  · intro h
    have hx : x = (family.first c cs).1 := by rw [h]
    have hrest : rest = (family.first c cs).2 := by rw [h]
    subst hx hrest
    cases family with
    | curly => exact ⟨Lexeme.firstCurly_text c cs, Lexeme.firstCurly_isLexeme c cs⟩
    | indent => exact ⟨Lexeme.firstIndent_text c cs, Lexeme.firstIndent_isLexeme c cs⟩
  · rintro ⟨htext, hx⟩
    cases family with
    | curly => exact Lexeme.firstCurly_of_isLexeme hx htext
    | indent => exact Lexeme.firstIndent_of_isLexeme hx htext

theorem exists_first (family : Family) (c : Char) (cs : List Char) :
    ∃ x rest, x.text ++ rest = c :: cs ∧ family.IsLexeme x rest :=
  ⟨_, _, Family.first_eq_iff.mp rfl⟩

section Splitting

variable {family : Family} {s : List Char} {xs ys : List Lexeme}

theorem Splits.unique (h : Splits family.IsLexeme s xs) (h' : Splits family.IsLexeme s ys) : xs = ys := by
  induction h generalizing ys with
  | nil =>
    generalize hs : ([] : List Char) = s at h'
    cases h' with
    | nil => rfl
    | cons hx =>
      obtain ⟨c, tail, htext, _⟩ := lexeme_text_eq_cons hx
      rw [htext] at hs
      cases hs
  | @cons x rest xs hx _ ih =>
    obtain ⟨c, tail, htext, _⟩ := lexeme_text_eq_cons hx
    have hfirst : family.first c (tail ++ rest) = (x, rest) := Family.first_eq_iff.mpr ⟨by rw [htext]; rfl, hx⟩
    generalize hs : x.text ++ rest = s at h'
    cases h' with
    | nil =>
      rw [htext] at hs
      cases hs
    | @cons y rest' ys hy hys =>
      have hsecond : family.first c (tail ++ rest) = (y, rest') :=
        Family.first_eq_iff.mpr ⟨by rw [← hs, htext]; rfl, hy⟩
      obtain ⟨rfl, rfl⟩ := Prod.mk.inj (hfirst.symm.trans hsecond)
      rw [ih hys]

theorem exists_splits (family : Family) (s : List Char) : ∃ xs, Splits family.IsLexeme s xs := by
  -- The text of a lexeme is not empty, so what is left to split gets shorter.
  induction hn : s.length using Nat.strong_induction_on generalizing s with
  | _ n ih =>
    cases s with
    | nil => exact ⟨[], .nil⟩
    | cons c cs =>
      obtain ⟨x, rest, htext, hx⟩ := exists_first family c cs
      obtain ⟨d, tail, hcons, _⟩ := lexeme_text_eq_cons hx
      have hshort : rest.length < n := by
        rw [← hn, ← htext, hcons, List.length_append, List.length_cons]
        omega
      obtain ⟨xs, hxs⟩ := ih rest.length hshort rest rfl
      rw [← htext]
      exact ⟨x :: xs, .cons hx hxs⟩

end Splitting

end ModuleGraph
