import ModuleGraph.Proofs.CommentIndependence
import ModuleGraph.Proofs.CurlyLineEnds

namespace ModuleGraph

open Text (Widened IsFiller Stops)

namespace Text

def withReturns : List Char → List Char
  | [] => []
  | c :: s => if c = '\n' then '\r' :: '\n' :: withReturns s else c :: withReturns s

theorem withReturns_newline (s : List Char) : withReturns ('\n' :: s) = '\r' :: '\n' :: withReturns s := rfl

theorem withReturns_cons {c : Char} (hc : c ≠ '\n') (s : List Char) : withReturns (c :: s) = c :: withReturns s :=
  if_neg hc

theorem exists_of_withReturns {s t : List Char} {c : Char} (h : withReturns s = c :: t) (hc : c ≠ '\r') :
    ∃ s', s = c :: s' ∧ t = withReturns s' := by
  cases s with
  | nil => cases h
  | cons d s =>
    by_cases hd : d = '\n'
    · subst hd
      exact absurd (List.cons.inj h).1.symm hc
    · rw [withReturns_cons hd] at h
      obtain ⟨rfl, rfl⟩ := List.cons.inj h
      exact ⟨s, rfl, rfl⟩

end Text

namespace Comment

open Text (withReturns withReturns_newline withReturns_cons exists_of_withReturns)

theorem widened_blank {c : Char} (hc : c ≠ '\n') : Widened (blank c) (blank c) := by
  refine .refl ?_
  rw [blank, if_neg hc]
  exact fun hmem => absurd (List.eq_of_mem_replicate hmem) (by decide)

section Curly

/-- Whether a backslash carries a literal over a newline that would else end it, in a scan from the given mode. -/
def carriesCurlyFrom : CurlyMode → List Char → Bool
  | _, [] => false
  | .code, '/' :: '/' :: cs => carriesCurlyFrom .lineComment cs
  | .code, '/' :: '*' :: cs => carriesCurlyFrom .blockComment cs
  | .code, c :: cs => carriesCurlyFrom (.afterCode c) cs
  | .lineComment, c :: cs => carriesCurlyFrom (if c = '\n' then .code else .lineComment) cs
  | .blockComment, '*' :: '/' :: cs => carriesCurlyFrom .code cs
  | .blockComment, _ :: cs => carriesCurlyFrom .blockComment cs
  | .literal quote, '\\' :: c :: cs => (c == '\n' && quote != '`') || carriesCurlyFrom (.literal quote) cs
  | .literal quote, c :: cs => carriesCurlyFrom (.afterLiteral quote c) cs

theorem carriesCurlyFrom_step {mode : CurlyMode} {c : Char} {rest : List Char} (h : ¬mode.Marked (c :: rest)) :
    carriesCurlyFrom mode (c :: rest) = carriesCurlyFrom (mode.next c) rest := by
  rw [carriesCurlyFrom.eq_def]
  split <;> simp_all [CurlyMode.Marked, CurlyMode.next]

def CurlyMode.IsProper : CurlyMode → Prop
  | .literal quote => IsCurlyQuote quote
  | _ => True

theorem CurlyMode.IsProper.next {mode : CurlyMode} (h : mode.IsProper) (c : Char) : (mode.next c).IsProper := by
  cases mode with
  | code =>
    rw [CurlyMode.next, CurlyMode.afterCode]
    split
    next hq => exact hq
    next => trivial
  | lineComment =>
    rw [CurlyMode.next]
    split <;> trivial
  | blockComment => trivial
  | literal quote =>
    rw [CurlyMode.next, CurlyMode.afterLiteral]
    split
    next => trivial
    next => exact h

theorem CurlyMode.Marked.of_withReturns {mode : CurlyMode} {c : Char} {s : List Char}
    (h : mode.Marked (c :: withReturns s)) : mode.Marked (c :: s) := by
  have key : ∀ {d}, [d] <+: withReturns s → d ≠ '\r' → [d] <+: s := by
    rintro d ⟨t, ht⟩ hd
    obtain ⟨s', rfl, -⟩ := exists_of_withReturns ht.symm hd
    exact ⟨s', rfl⟩
  cases mode with
  | code =>
    simp only [CurlyMode.Marked, List.cons_prefix_cons] at h ⊢
    exact h.imp (And.imp_right fun hs => key hs (by decide)) (And.imp_right fun hs => key hs (by decide))
  | lineComment => exact h
  | blockComment =>
    simp only [CurlyMode.Marked, List.cons_prefix_cons] at h ⊢
    exact h.imp_right fun hs => key hs (by decide)
  | literal quote =>
    obtain ⟨d, cs, heq⟩ := h
    obtain ⟨rfl, hs⟩ := List.cons.inj heq
    cases s with
    | nil => cases hs
    | cons e s => exact ⟨e, s, rfl⟩

theorem stripCurlyFrom_lineEnd {mode : CurlyMode} (h : mode.IsProper) (s : List Char) :
    ∃ f, IsFiller f ∧ stripCurlyFrom mode ('\r' :: '\n' :: s) = f :: '\n' :: stripCurlyFrom (mode.next '\n') s := by
  have hreturn : ¬mode.Marked ('\r' :: '\n' :: s) := by
    cases mode <;> simp [CurlyMode.Marked]
  have hnewline : ¬mode.Marked ('\n' :: s) := by
    cases mode <;> simp [CurlyMode.Marked]
  have hstay : mode.next '\r' = mode := by
    cases mode with
    | literal quote => rcases h with rfl | rfl | rfl <;> rfl
    | _ => rfl
  rw [stripCurlyFrom_step hreturn, hstay, stripCurlyFrom_step hnewline]
  cases mode with
  | code | literal => exact ⟨'\r', .inl rfl, rfl⟩
  | lineComment | blockComment => exact ⟨' ', .inr rfl, rfl⟩

/-- What is left of curly-brace source is the same but for its line ends, if no literal is carried over one. -/
theorem stripCurlyFrom_widened {mode : CurlyMode} {s : List Char} (hmode : mode.IsProper)
    (h : carriesCurlyFrom mode s = false) :
    Widened (stripCurlyFrom mode s) (stripCurlyFrom mode (withReturns s)) := by
  match s with
  | [] => cases mode <;> exact .nil
  | c :: s =>
    by_cases hmarked : mode.Marked (c :: s)
    · cases mode with
      | code =>
        rcases hmarked with ⟨t, ht⟩ | ⟨t, ht⟩
        · obtain ⟨rfl, rfl⟩ := List.cons.inj ht
          exact .cons (by decide) (.cons (by decide) (@stripCurlyFrom_widened .lineComment t trivial h))
        · obtain ⟨rfl, rfl⟩ := List.cons.inj ht
          exact .cons (by decide) (.cons (by decide) (@stripCurlyFrom_widened .blockComment t trivial h))
      | lineComment => exact hmarked.elim
      | blockComment =>
        obtain ⟨t, ht⟩ := hmarked
        obtain ⟨rfl, rfl⟩ := List.cons.inj ht
        exact .cons (by decide) (.cons (by decide) (@stripCurlyFrom_widened .code t trivial h))
      | literal quote =>
        obtain ⟨d, t, heq⟩ := hmarked
        obtain ⟨rfl, rfl⟩ := List.cons.inj heq
        obtain ⟨hd, ht⟩ := Bool.or_eq_false_iff.mp h
        have ih := stripCurlyFrom_widened hmode ht
        by_cases hnewline : d = '\n'
        · obtain rfl : quote = '`' := by simpa [hnewline] using hd
          subst hnewline
          exact .cons (by decide) (.newline (.inl rfl) ih)
        · rw [withReturns_cons (by decide), withReturns_cons hnewline]
          exact .cons (by decide) (.cons hnewline ih)
    · rw [carriesCurlyFrom_step hmarked] at h
      have ih := stripCurlyFrom_widened (hmode.next c) h
      rw [stripCurlyFrom_step hmarked]
      by_cases hc : c = '\n'
      · subst hc
        obtain ⟨f, hf, heq⟩ := stripCurlyFrom_lineEnd hmode (withReturns s)
        have hwritten : mode.written '\n' = ['\n'] := by cases mode <;> rfl
        rw [withReturns_newline, heq, hwritten, List.singleton_append]
        exact .newline hf ih
      · have hunmarked : ¬mode.Marked (c :: withReturns s) := fun hm => hmarked hm.of_withReturns
        rw [withReturns_cons hc, stripCurlyFrom_step hunmarked]
        refine Widened.append ?_ ih
        cases mode with
        | code | literal => exact .cons hc .nil
        | lineComment | blockComment => exact widened_blank hc
termination_by s.length

end Curly

section Indent

/-- Whether a backslash carries a literal over a newline that would else end it, in a scan from the given mode. -/
def carriesHashFrom : HashMode → List Char → Bool
  | _, [] => false
  | .code, '#' :: cs => carriesHashFrom .comment cs
  | .code, '\'' :: '\'' :: '\'' :: cs => carriesHashFrom (.docstring '\'') cs
  | .code, '"' :: '"' :: '"' :: cs => carriesHashFrom (.docstring '"') cs
  | .code, c :: cs => carriesHashFrom (.afterCode c) cs
  | .comment, c :: cs => carriesHashFrom (if c = '\n' then .code else .comment) cs
  | .literal quote, '\\' :: c :: cs => c == '\n' || carriesHashFrom (.literal quote) cs
  | .literal quote, c :: cs => carriesHashFrom (.afterLiteral quote c) cs
  | .docstring quote, c :: cs =>
    match cs with
    | d :: e :: rest =>
      if c = quote ∧ d = quote ∧ e = quote then carriesHashFrom .code rest
      else carriesHashFrom (.docstring quote) (d :: e :: rest)
    | rest => carriesHashFrom (.docstring quote) rest

theorem carriesHashFrom_step {mode : HashMode} {c : Char} {rest : List Char} (h : ¬mode.Marked (c :: rest)) :
    carriesHashFrom mode (c :: rest) = carriesHashFrom (mode.next c) rest := by
  cases mode with
  | comment =>
    rw [carriesHashFrom]
    rfl
  | docstring quote =>
    match rest, h with
    | [], _ => simp [carriesHashFrom]
    | [d], _ => simp [carriesHashFrom, HashMode.next]
    | d :: e :: rest, h =>
      have hne : ¬(c = quote ∧ d = quote ∧ e = quote) := by
        rintro ⟨rfl, rfl, rfl⟩
        exact h ⟨rest, rfl⟩
      rw [carriesHashFrom, if_neg hne]
      rfl
  | code =>
    rw [carriesHashFrom.eq_def]
    split <;> simp_all [HashMode.Marked, HashMode.next]
  | literal quote =>
    rw [carriesHashFrom.eq_def]
    split <;> simp_all [HashMode.Marked, HashMode.next]

theorem carriesHashFrom_closeTriple (q : Char) (rest : List Char) :
    carriesHashFrom (.docstring q) (q :: q :: q :: rest) = carriesHashFrom .code rest := by
  rw [carriesHashFrom, if_pos ⟨rfl, rfl, rfl⟩]

def HashMode.IsProper : HashMode → Prop
  | .literal quote => IsIndentQuote quote
  | .docstring quote => IsIndentQuote quote
  | _ => True

theorem HashMode.IsProper.next {mode : HashMode} (h : mode.IsProper) (c : Char) : (mode.next c).IsProper := by
  cases mode with
  | code =>
    rw [HashMode.next, HashMode.afterCode]
    split
    next hq => exact hq
    next => trivial
  | comment =>
    rw [HashMode.next]
    split <;> trivial
  | literal quote =>
    rw [HashMode.next, HashMode.afterLiteral]
    split
    next => trivial
    next => exact h
  | docstring quote => exact h

theorem HashMode.Marked.of_withReturns {mode : HashMode} (hmode : mode.IsProper) {c : Char} {s : List Char}
    (h : mode.Marked (c :: withReturns s)) : mode.Marked (c :: s) := by
  have hpair : ∀ {q}, IsIndentQuote q → [q, q] <+: withReturns s → [q, q] <+: s := by
    rintro q hq ⟨t, ht⟩
    have hne : q ≠ '\r' := by rcases hq with rfl | rfl <;> decide
    obtain ⟨s', rfl, hs'⟩ := exists_of_withReturns ht.symm hne
    obtain ⟨s'', rfl, -⟩ := exists_of_withReturns hs'.symm hne
    exact ⟨s'', rfl⟩
  cases mode with
  | code =>
    rcases h with h | h | h
    · obtain ⟨hc, -⟩ := List.cons_prefix_cons.mp h
      exact .inl (List.cons_prefix_cons.mpr ⟨hc, List.nil_prefix⟩)
    · obtain ⟨hc, hs⟩ := List.cons_prefix_cons.mp h
      exact .inr (.inl (List.cons_prefix_cons.mpr ⟨hc, hpair (.inl rfl) hs⟩))
    · obtain ⟨hc, hs⟩ := List.cons_prefix_cons.mp h
      exact .inr (.inr (List.cons_prefix_cons.mpr ⟨hc, hpair (.inr rfl) hs⟩))
  | comment => exact h
  | literal quote =>
    obtain ⟨d, cs, heq⟩ := h
    obtain ⟨rfl, hs⟩ := List.cons.inj heq
    cases s with
    | nil => cases hs
    | cons e s => exact ⟨e, s, rfl⟩
  | docstring quote =>
    obtain ⟨hq, hs⟩ := List.cons_prefix_cons.mp h
    exact List.cons_prefix_cons.mpr ⟨hq, hpair hmode hs⟩

theorem stripHashFrom_lineEnd {mode : HashMode} (h : mode.IsProper) (s : List Char) :
    ∃ f, IsFiller f ∧ stripHashFrom mode ('\r' :: '\n' :: s) = f :: '\n' :: stripHashFrom (mode.next '\n') s := by
  have hmarked : ∀ {c}, c = '\r' ∨ c = '\n' → ∀ s, ¬mode.Marked (c :: s) := by
    rintro c (rfl | rfl) s hm <;> cases mode with
    | docstring quote => rcases h with rfl | rfl <;> simp [HashMode.Marked] at hm
    | _ => simp [HashMode.Marked] at hm
  have hstay : mode.next '\r' = mode := by
    cases mode with
    | literal quote => rcases h with rfl | rfl <;> rfl
    | _ => rfl
  rw [stripHashFrom_step (hmarked (.inl rfl) _), hstay, stripHashFrom_step (hmarked (.inr rfl) _)]
  cases mode with
  | code | literal => exact ⟨'\r', .inl rfl, rfl⟩
  | comment | docstring => exact ⟨' ', .inr rfl, rfl⟩

theorem stripHashFrom_widened {mode : HashMode} {s : List Char} (hmode : mode.IsProper)
    (h : carriesHashFrom mode s = false) :
    Widened (stripHashFrom mode s) (stripHashFrom mode (withReturns s)) := by
  match s with
  | [] => cases mode <;> exact .nil
  | c :: s =>
    by_cases hmarked : mode.Marked (c :: s)
    · cases mode with
      | code =>
        have hspace : ' ' ≠ '\n' := by decide
        rcases hmarked with ⟨t, ht⟩ | ⟨t, ht⟩ | ⟨t, ht⟩
        · obtain ⟨rfl, rfl⟩ := List.cons.inj ht
          exact .cons hspace (@stripHashFrom_widened .comment t trivial h)
        · obtain ⟨rfl, rfl⟩ := List.cons.inj ht
          have ih := @stripHashFrom_widened (.docstring '\'') t (.inl rfl) h
          exact .cons hspace (.cons hspace (.cons hspace ih))
        · obtain ⟨rfl, rfl⟩ := List.cons.inj ht
          have ih := @stripHashFrom_widened (.docstring '"') t (.inr rfl) h
          exact .cons hspace (.cons hspace (.cons hspace ih))
      | comment => exact hmarked.elim
      | literal quote =>
        obtain ⟨d, t, heq⟩ := hmarked
        obtain ⟨rfl, rfl⟩ := List.cons.inj heq
        obtain ⟨hd, ht⟩ := Bool.or_eq_false_iff.mp h
        have ih := stripHashFrom_widened hmode ht
        have hnewline : d ≠ '\n' := by simpa using hd
        rw [withReturns_cons (by decide), withReturns_cons hnewline]
        exact .cons (by decide) (.cons hnewline ih)
      | docstring quote =>
        obtain ⟨t, ht⟩ := hmarked
        obtain ⟨rfl, hs⟩ := List.cons.inj ht
        obtain rfl : s = quote :: quote :: t := hs.symm
        have hquote : quote ≠ '\n' := by rcases hmode with rfl | rfl <;> decide
        have hspace : ' ' ≠ '\n' := by decide
        rw [carriesHashFrom_closeTriple] at h
        rw [withReturns_cons hquote, withReturns_cons hquote, withReturns_cons hquote, stripHashFrom_closeTriple,
          stripHashFrom_closeTriple]
        exact .cons hspace (.cons hspace (.cons hspace (@stripHashFrom_widened .code t trivial h)))
    · rw [carriesHashFrom_step hmarked] at h
      have ih := stripHashFrom_widened (hmode.next c) h
      rw [stripHashFrom_step hmarked]
      by_cases hc : c = '\n'
      · subst hc
        obtain ⟨f, hf, heq⟩ := stripHashFrom_lineEnd hmode (withReturns s)
        have hwritten : mode.written '\n' = ['\n'] := by cases mode <;> rfl
        rw [withReturns_newline, heq, hwritten, List.singleton_append]
        exact .newline hf ih
      · have hunmarked : ¬mode.Marked (c :: withReturns s) := fun hm => hmarked (hm.of_withReturns hmode)
        rw [withReturns_cons hc, stripHashFrom_step hunmarked]
        refine Widened.append ?_ ih
        cases mode with
        | code | literal => exact .cons hc .nil
        | comment | docstring => exact widened_blank hc
termination_by s.length

end Indent

/-- Whether a backslash carries a literal of a text over a newline that would else end it. -/
def carries : Family → List Char → Bool
  | .curly => carriesCurlyFrom .code
  | .indent => carriesHashFrom .code

theorem strip_widened {family : Family} {s : List Char} (h : carries family s = false) :
    Widened (strip family s) (strip family (withReturns s)) := by
  cases family with
  | curly => exact @stripCurlyFrom_widened .code s trivial h
  | indent => exact @stripHashFrom_widened .code s trivial h

end Comment

section Lines

theorem Text.Widened.pieces_newline {s t : List Char} (h : Widened s t) :
    ∃ ws ws' w, Text.pieces (· == '\n') s = ws ++ [w] ∧ Text.pieces (· == '\n') t = ws' ++ [w] ∧
      List.Forall₂ (fun x y => ∃ f, IsFiller f ∧ y = x ++ [f]) ws ws' := by
  have hline : ∀ x, Text.pieces (· == '\n') ('\n' :: x) = [] :: Text.pieces (· == '\n') x :=
    fun x => Text.pieces_sep rfl x
  induction h with
  | nil => exact ⟨[], [], [], rfl, rfl, .nil⟩
  | @cons c s t hc _ ih =>
    obtain ⟨ws, ws', w, hs, ht, hws⟩ := ih
    have hsep : (c == '\n') = false := beq_eq_false_iff_ne.mpr hc
    cases hws with
    | nil => exact ⟨[], [], c :: w, Text.pieces_cons hsep hs, Text.pieces_cons hsep ht, .nil⟩
    | @cons x y xs ys hxy hws =>
      obtain ⟨f, hf, rfl⟩ := hxy
      exact ⟨(c :: x) :: xs, (c :: x ++ [f]) :: ys, w, Text.pieces_cons hsep hs, Text.pieces_cons hsep ht,
        .cons ⟨f, hf, rfl⟩ hws⟩
  | @newline f s t hf _ ih =>
    obtain ⟨ws, ws', w, hs, ht, hws⟩ := ih
    have hsep : (f == '\n') = false := beq_eq_false_iff_ne.mpr hf.ne_newline
    have hfirst : Text.pieces (· == '\n') (f :: '\n' :: t) = [f] :: Text.pieces (· == '\n') t :=
      Text.pieces_cons hsep (hline t)
    refine ⟨[] :: ws, [f] :: ws', w, ?_, ?_, .cons ⟨f, hf, rfl⟩ hws⟩
    · rw [hline, hs, List.cons_append]
    · rw [hfirst, ht, List.cons_append]

theorem Text.Widened.lines {s t : List Char} (h : Widened s t) :
    List.Forall₂ (fun x y => Text.trimEnd y = Text.trimEnd x) (Text.lines s) (Text.lines t) := by
  obtain ⟨ws, ws', w, hs, ht, hws⟩ := h.pieces_newline
  have hended : List.Forall₂ (fun x y => Text.trimEnd y = Text.trimEnd x) (ws.map Text.dropReturn)
      (ws'.map Text.dropReturn) := by
    refine List.rel_map ?_ hws
    rintro x _ ⟨f, hf, rfl⟩
    have hgap : Text.IsGap [f] := List.forall_mem_singleton.mpr hf.isBlank
    rw [Text.trimEnd_dropReturn, Text.trimEnd_dropReturn, Text.trimEnd_append_gap hgap]
  rw [Text.lines, Text.lines, hs, ht]
  simp only [List.dropLast_concat, List.getLast?_concat]
  cases w with
  | nil => exact hended
  | cons c w => exact List.rel_append hended (.cons rfl .nil)

theorem Indent.joinLines_eq {xs ys : List (List Char)}
    (h : List.Forall₂ (fun x y => Text.trimEnd y = Text.trimEnd x) xs ys) (state : Indent.Joining) (number : Nat) :
    Indent.joinLines state number ys = Indent.joinLines state number xs := by
  induction h generalizing state number with
  | nil => rfl
  | @cons x y xs ys hxy _ ih =>
    have hraw : Indent.PhysicalLine.ofRaw y = .ofRaw x := by
      rw [Indent.PhysicalLine.ofRaw, Indent.PhysicalLine.ofRaw, hxy]
    rw [Indent.joinLines, Indent.joinLines, hraw]
    simp only [ih]

end Lines

namespace Declarations

open Text (withReturns withReturns_cons)

theorem dropMark_withReturns (s : List Char) : dropMark (withReturns s) = withReturns (dropMark s) := by
  cases s with
  | nil => rfl
  | cons c s =>
    by_cases hc : c = '\n'
    · subst hc
      rfl
    · rw [withReturns_cons hc, dropMark, dropMark]
      split
      · rfl
      · rw [withReturns_cons hc]

theorem ofSource_indent_withReturns {s : List Char} (h : Comment.carries .indent (dropMark s) = false) :
    ofSource .indent (withReturns s) = ofSource .indent s := by
  have hlines := Indent.joinLines_eq (Comment.strip_widened h).lines {} 1
  have hlogical : Indent.logicalLines (Comment.stripHash (withReturns (dropMark s))) =
      Indent.logicalLines (Comment.stripHash (dropMark s)) := hlines
  simp only [ofSource, Indent.extract, dropMark_withReturns, hlogical]

/-- The declarations of curly-brace source, in which no clause of an import is a single newline: the exports stay the
same and the imports do but for line ends inside their names. -/
theorem ofSource_curly_withReturns {s : List Char} (h : Comment.carries .curly (dropMark s) = false)
    (hhollow : Curly.hollowImport.matchesIn (Comment.stripCurly (dropMark s)) = []) :
    (ofSource .curly (withReturns s)).exports = (ofSource .curly s).exports ∧
      List.Forall₂ Curly.ImportAlike (ofSource .curly s).imports (ofSource .curly (withReturns s)).imports := by
  have hwide : Widened (Comment.stripCurly (dropMark s)) (Comment.stripCurly (withReturns (dropMark s))) :=
    Comment.strip_widened h
  have hexports := Curly.inSourceOrder_alike (Curly.foundExports_alike hwide hhollow)
  have himports := Curly.inSourceOrder_alike (Curly.foundImports_alike hwide hhollow)
  rw [List.forall₂_eq_eq_eq] at hexports
  simp only [ofSource, Curly.extract, dropMark_withReturns]
  exact ⟨hexports.symm, himports⟩

/-- A text in which no literal is carried over a line end by a backslash has the same declarations with either line end.
In the curly-brace family this takes two things more: no import has a single newline for a clause, and no imported name
holds a newline. -/
theorem ofSource_withReturns (s : List Char) :
    (Comment.carries .indent (dropMark s) = false → ofSource .indent (withReturns s) = ofSource .indent s) ∧
      (Comment.carries .curly (dropMark s) = false →
        Curly.hollowImport.matchesIn (Comment.stripCurly (dropMark s)) = [] →
          (ofSource .curly (withReturns s)).exports = (ofSource .curly s).exports ∧
            List.Forall₂ Curly.ImportAlike (ofSource .curly s).imports (ofSource .curly (withReturns s)).imports ∧
            (ofSource .curly (withReturns s) = ofSource .curly s ↔
              ∀ i ∈ (ofSource .curly s).imports, ∀ n ∈ i.names, '\n' ∉ n.toList)) := by
  refine ⟨ofSource_indent_withReturns, fun h hhollow => ?_⟩
  obtain ⟨hexports, himports⟩ := ofSource_curly_withReturns h hhollow
  refine ⟨hexports, himports, ?_⟩
  rw [← Curly.imports_eq_iff himports]
  have hparts : ∀ t, ofSource .curly t = ⟨(ofSource .curly t).imports, (ofSource .curly t).exports, []⟩ := fun _ => rfl
  constructor
  · intro heq
    rw [heq]
  · intro heq
    rw [hparts (withReturns s), heq, hexports, ← hparts]

theorem ofSource_withReturns_of_wrapped_lists :
    Comment.carries .indent (dropMark "from a import (b, # c\n d)\nx = 1 + \\\n 2\n".toList) = false ∧
      ofSource .indent (withReturns "from a import (b, # c\n d)\nx = 1 + \\\n 2\n".toList) =
        ofSource .indent "from a import (b, # c\n d)\nx = 1 + \\\n 2\n".toList ∧
      Comment.carries .curly (dropMark "import a, \x7b\n b, // c\n\x7d\nfrom './d'\nlet e = `\\\n`".toList) = false ∧
      Curly.hollowImport.matchesIn
        (Comment.stripCurly (dropMark "import a, \x7b\n b, // c\n\x7d\nfrom './d'\nlet e = `\\\n`".toList)) = [] ∧
      ofSource .curly (withReturns "import a, \x7b\n b, // c\n\x7d\nfrom './d'\nlet e = `\\\n`".toList) =
        ofSource .curly "import a, \x7b\n b, // c\n\x7d\nfrom './d'\nlet e = `\\\n`".toList := by
  refine ⟨by decide +kernel, (ofSource_withReturns _).1 (by decide +kernel), by decide +kernel, by decide +kernel, ?_⟩
  exact ((ofSource_withReturns _).2 (by decide +kernel) (by decide +kernel)).2.2.mpr (by decide +kernel)

/-- Each condition is needed. A carriage return behind the backslash leaves the newline to end a literal, makes a clause
out of a single newline, or becomes part of a name. -/
theorem ofSource_differs_of_carried_literal :
    '\r' ∉ "'\\\n//'; import('./x')".toList ∧
      (ofSource .curly "'\\\n//'; import('./x')".toList).imports.map (fun i => (i.source, i.line)) = [("./x", 2)] ∧
      (ofSource .curly (withReturns "'\\\n//'; import('./x')".toList)).imports = [] ∧
      ofSource .indent (withReturns "x = '\\\n#', __import__('os')".toList) ≠
        ofSource .indent "x = '\\\n#', __import__('os')".toList ∧
      ofSource .curly (withReturns "import\nfrom './x'".toList) ≠ ofSource .curly "import\nfrom './x'".toList ∧
      ofSource .curly (withReturns "const \x7b a =\n 1 \x7d = require('./x')".toList) ≠
        ofSource .curly "const \x7b a =\n 1 \x7d = require('./x')".toList := by
  decide +kernel

end Declarations

end ModuleGraph
