import ModuleGraph.Proofs.Lexeme

namespace ModuleGraph

/-- The byte offsets of the newlines of a text that starts at the given offset. -/
def newlineOffsets : (start : Nat) → List Char → List Nat
  | _, [] => []
  | start, c :: cs => if c = '\n' then start :: newlineOffsets (start + 1) cs
    else newlineOffsets (start + c.utf8Size) cs

theorem newlineOffsets_bounds {start k : Nat} {s : List Char} (h : k ∈ newlineOffsets start s) :
    start ≤ k ∧ k < start + Text.byteLength s := by
  induction s generalizing start with
  | nil => simp [newlineOffsets] at h
  | cons c cs ih =>
    have hpos := c.utf8Size_pos
    unfold newlineOffsets at h
    rw [Text.byteLength]
    split at h
    next hc =>
      rcases List.mem_cons.mp h with rfl | h
      · omega
      · have := ih h
        omega
    next =>
      have := ih h
      omega

theorem mem_newlineOffsets_cons_of_le {start k : Nat} {c : Char} {cs : List Char}
    (hk : start + c.utf8Size ≤ k) :
    k ∈ newlineOffsets start (c :: cs) ↔ k ∈ newlineOffsets (start + c.utf8Size) cs := by
  have hpos := c.utf8Size_pos
  have hne : k ≠ start := by omega
  by_cases hc : c = '\n'
  · subst c
    have hsize : '\n'.utf8Size = 1 := rfl
    simp [newlineOffsets, hne, hsize]
  · simp [newlineOffsets, hc]

theorem blank_eq_map (start : Nat) (c : Char) (cs : List Char) :
    Comment.blank c = (List.range' start c.utf8Size).map
      fun k => if k ∈ newlineOffsets start (c :: cs) then '\n' else ' ' := by
  by_cases hc : c = '\n'
  · subst c
    have hsize : '\n'.utf8Size = 1 := rfl
    simp [Comment.blank, hsize, newlineOffsets]
  · have hspace : ∀ k ∈ List.range' start c.utf8Size,
        (if k ∈ newlineOffsets start (c :: cs) then '\n' else ' ') = ' ' := by
      intro k hk
      have hlt := (List.mem_range'_1.mp hk).2
      simp only [newlineOffsets, hc, if_false, ite_eq_right_iff]
      intro hm
      have := newlineOffsets_bounds hm
      omega
    rw [List.map_congr_left hspace, List.map_const', List.length_range', Comment.blank, if_neg hc]

theorem flatMap_blank (start : Nat) (s : List Char) :
    s.flatMap Comment.blank = (List.range' start (Text.byteLength s)).map
      fun k => if k ∈ newlineOffsets start s then '\n' else ' ' := by
  induction s generalizing start with
  | nil => rfl
  | cons c cs ih =>
    have hrest : ∀ k ∈ List.range' (start + c.utf8Size) (Text.byteLength cs),
        (if k ∈ newlineOffsets start (c :: cs) then '\n' else ' ') =
          if k ∈ newlineOffsets (start + c.utf8Size) cs then '\n' else ' ' := by
      intro k hk
      simp only [mem_newlineOffsets_cons_of_le (List.mem_range'_1.mp hk).1]
    rw [List.flatMap_cons, Text.byteLength, ← List.range'_append_1, List.map_append, ih (start + c.utf8Size),
      List.map_congr_left hrest, blank_eq_map start c cs]

namespace Lexeme

/-- Lexemes that are equal, or are comments with the same delimiters whose interiors have the same length in
bytes and newlines at the same byte offsets. -/
inductive Alike : Lexeme → Lexeme → Prop
  | code (c : Char) : Alike (.code c) (.code c)
  | literal (text : List Char) : Alike (.literal text) (.literal text)
  | comment {opener interior interior' closer : List Char} :
      Text.byteLength interior = Text.byteLength interior' →
      newlineOffsets 0 interior = newlineOffsets 0 interior' →
      Alike (.comment opener interior closer) (.comment opener interior' closer)

theorem Alike.blanked_eq {x y : Lexeme} (h : Alike x y) : x.blanked = y.blanked := by
  cases h with
  | code => rfl
  | literal => rfl
  | @comment opener interior interior' closer hlen hnewlines =>
    simp only [blanked, List.flatMap_append]
    rw [flatMap_blank 0 interior, flatMap_blank 0 interior', hlen, hnewlines]

end Lexeme

theorem flatMap_blanked_eq {xs ys : List Lexeme} (h : List.Forall₂ Lexeme.Alike xs ys) :
    xs.flatMap Lexeme.blanked = ys.flatMap Lexeme.blanked := by
  induction h with
  | nil => rfl
  | cons hx _ ih => rw [List.flatMap_cons, List.flatMap_cons, hx.blanked_eq, ih]

theorem lexeme_text_eq_cons {family : Family} {x : Lexeme} {rest : List Char}
    (h : family.IsLexeme x rest) :
    ∃ c tail, x.text = c :: tail ∧ (c = Family.byteOrderMark → x = .code c) := by
  have hquote : ∀ q, IsCurlyQuote q → q ≠ Family.byteOrderMark := by
    rintro q (rfl | rfl | rfl) <;> decide
  have hindent : ∀ q, IsIndentQuote q → q ≠ Family.byteOrderMark := by
    rintro q (rfl | rfl) <;> decide
  cases family with
  | curly =>
    cases h with
    | @code c => exact ⟨c, [], rfl, fun _ => rfl⟩
    | lineComment => exact ⟨'/', _, rfl, fun he => absurd he (by decide)⟩
    | blockComment => exact ⟨'/', _, rfl, fun he => absurd he (by decide)⟩
    | openComment => exact ⟨'/', _, rfl, fun he => absurd he (by decide)⟩
    | @literal q tail _ hq => exact ⟨q, tail, rfl, fun he => absurd he (hquote q hq)⟩
  | indent =>
    cases h with
    | @code c => exact ⟨c, [], rfl, fun _ => rfl⟩
    | lineComment => exact ⟨'#', _, rfl, fun he => absurd he (by decide)⟩
    | @tripleQuoted q _ _ hq => exact ⟨q, _, rfl, fun he => absurd he (hindent q hq)⟩
    | @openTripleQuoted q _ hq => exact ⟨q, _, rfl, fun he => absurd he (hindent q hq)⟩
    | @literal q tail _ hq => exact ⟨q, tail, rfl, fun he => absurd he (hindent q hq)⟩

/-- The lexemes of a text without one byte order mark at its start. -/
def Lexeme.dropMark : List Lexeme → List Lexeme
  | .code c :: xs => if c = Family.byteOrderMark then xs else .code c :: xs
  | xs => xs

theorem splits_dropMark {family : Family} {s : List Char} {xs : List Lexeme}
    (h : Splits family.IsLexeme s xs) :
    Splits family.IsLexeme (Declarations.dropMark s) (Lexeme.dropMark xs) := by
  cases h with
  | nil => exact .nil
  | @cons x rest xs hx hs =>
    obtain ⟨c, tail, htext, hmark⟩ := lexeme_text_eq_cons hx
    by_cases hc : c = Family.byteOrderMark
    · have hcode := hmark hc
      subst x
      have hempty : tail = [] := by simpa [Lexeme.text] using htext
      simpa [Lexeme.text, Declarations.dropMark, Lexeme.dropMark, hc] using hs
    · have hdrop : Declarations.dropMark (x.text ++ rest) = x.text ++ rest := by
        simp [htext, Declarations.dropMark, hc]
      have hkeep : Lexeme.dropMark (x :: xs) = x :: xs := by
        cases x with
        | code d =>
          have hd : d = c := by simpa [Lexeme.text] using (List.cons.inj htext).1
          simp [Lexeme.dropMark, hd, hc]
        | literal => rfl
        | comment => rfl
      rw [hdrop, hkeep]
      exact .cons hx hs

theorem forall₂_dropMark {xs ys : List Lexeme} (h : List.Forall₂ Lexeme.Alike xs ys) :
    List.Forall₂ Lexeme.Alike (Lexeme.dropMark xs) (Lexeme.dropMark ys) := by
  cases h with
  | nil => exact .nil
  | cons hx hxs =>
    cases hx with
    | code c =>
      simp only [Lexeme.dropMark]
      split
      next => exact hxs
      next => exact .cons (.code c) hxs
    | literal t => exact .cons (.literal t) hxs
    | comment hlen hnewlines => exact .cons (.comment hlen hnewlines) hxs

theorem ofSource_eq_of_strip {family : Family} {s₁ s₂ : List Char}
    (h : Comment.strip family (Declarations.dropMark s₁) = Comment.strip family (Declarations.dropMark s₂)) :
    Declarations.ofSource family s₁ = Declarations.ofSource family s₂ := by
  cases family with
  | curly =>
    have hs : Comment.stripCurly (Declarations.dropMark s₁) = Comment.stripCurly (Declarations.dropMark s₂) := h
    simp only [Declarations.ofSource, Curly.extract, hs]
  | indent =>
    have hs : Comment.stripHash (Declarations.dropMark s₁) = Comment.stripHash (Declarations.dropMark s₂) := h
    simp only [Declarations.ofSource, Indent.extract, hs]

/-- Two texts with the same lexemes, but for what stands inside their comments, have the same declarations when
the insides have the same lengths in bytes and newlines at the same byte offsets. -/
theorem ofSource_eq_of_alike_lexemes {family : Family} {s₁ s₂ : List Char} {xs₁ xs₂ : List Lexeme}
    (h₁ : Splits family.IsLexeme s₁ xs₁) (h₂ : Splits family.IsLexeme s₂ xs₂)
    (h : List.Forall₂ Lexeme.Alike xs₁ xs₂) :
    Declarations.ofSource family s₁ = Declarations.ofSource family s₂ := by
  apply ofSource_eq_of_strip
  rw [Comment.strip_of_splits (splits_dropMark h₁), Comment.strip_of_splits (splits_dropMark h₂)]
  exact flatMap_blanked_eq (forall₂_dropMark h)

/-- Quotes, openers of comments and characters of several bytes inside a comment make no difference. -/
theorem ofSource_eq_of_quotes_in_comment :
    Splits (Family.IsLexeme .curly) "/*é\n'*/x".toList
      [.comment ['/', '*'] ['é', '\n', '\''] ['*', '/'], .code 'x'] ∧
    Splits (Family.IsLexeme .curly) "/*//\n`*/x".toList
      [.comment ['/', '*'] ['/', '/', '\n', '`'] ['*', '/'], .code 'x'] ∧
    Declarations.ofSource .curly "/*é\n'*/x".toList = Declarations.ofSource .curly "/*//\n`*/x".toList := by
  have hx : Splits (Family.IsLexeme .curly) ['x'] [.code 'x'] :=
    .cons (x := .code 'x') (.code (by unfold IsCurlyQuote; decide) (by decide)) .nil
  have h₁ : Splits (Family.IsLexeme .curly) "/*é\n'*/x".toList
      [.comment ['/', '*'] ['é', '\n', '\''] ['*', '/'], .code 'x'] :=
    .cons (x := .comment ['/', '*'] ['é', '\n', '\''] ['*', '/']) (.blockComment (by decide)) hx
  have h₂ : Splits (Family.IsLexeme .curly) "/*//\n`*/x".toList
      [.comment ['/', '*'] ['/', '/', '\n', '`'] ['*', '/'], .code 'x'] :=
    .cons (x := .comment ['/', '*'] ['/', '/', '\n', '`'] ['*', '/']) (.blockComment (by decide)) hx
  exact ⟨h₁, h₂, ofSource_eq_of_alike_lexemes h₁ h₂
    (.cons (.comment (by decide) (by decide)) (.cons (.code 'x') .nil))⟩

end ModuleGraph
