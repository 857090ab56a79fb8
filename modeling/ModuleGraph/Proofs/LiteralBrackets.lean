import ModuleGraph.Proofs.Blanking
import ModuleGraph.Proofs.CommentIndependence
import ModuleGraph.Proofs.LineReplacement

namespace ModuleGraph.Indent

section Literals

variable {s : List Char} {x : Lexeme} {before after : List Lexeme} {head tail rest : List Char} {q b c : Char}

theorem isIndentQuote_iff : IsIndentQuote q ↔ Text.isQuote q = true := by
  simp [IsIndentQuote, Text.isQuote]

theorem exists_literalTail {t : List Char} (h : IndentLexeme (.literal t) rest) : ∃ q tail, t = q :: tail ∧
    IsIndentQuote q ∧ ¬[q, q] <+: tail ++ rest ∧ LiteralTail (fun c => c = q ∨ c = '\n') tail rest := by
  cases h with
  | literal hq hp ht => exact ⟨_, _, rfl, hq, hp, ht⟩

theorem exists_head (h : IndentLexeme (.literal (head ++ b :: tail)) rest) (hb : IsOrdinary b) :
    ∃ q u, head = q :: u ∧ IsIndentQuote q ∧ ¬[q, q] <+: u ++ b :: tail ++ rest ∧
      LiteralTail (fun c => c = q ∨ c = '\n') (u ++ b :: tail) rest := by
  obtain ⟨q, v, heq, hq, hp, ht⟩ := exists_literalTail h
  cases head with
  | nil =>
    obtain ⟨rfl, -⟩ := List.cons.inj heq
    exact absurd hb.noQuote (by simp [isIndentQuote_iff.mp hq])
  | cons d u =>
    obtain ⟨rfl, rfl⟩ := List.cons.inj heq
    exact ⟨d, u, rfl, hq, hp, ht⟩

section Counts

theorem foldl_next_literal (h : LiteralTail (fun c => c = q ∨ c = '\n') tail rest) (hrest : rest ≠ [])
    (hn : '\n' ∉ tail) : tail.foldl QuoteState.next (.inside q) = .outside := by
  induction h with
  | @closed c rest hc hends =>
    obtain rfl : c = q := hends.resolve_right fun heq => hn (by simp [heq])
    simp [QuoteState.next, hc]
  | unclosed => exact absurd rfl hrest
  | loneBackslash => exact absurd rfl hrest
  | @escaped c tail rest _ ih =>
    have htail : '\n' ∉ tail := fun hmem => hn (by simp [hmem])
    rw [List.foldl_cons, List.foldl_cons]
    exact ih hrest htail
  | @plain c tail rest hc hends _ ih =>
    have htail : '\n' ∉ tail := fun hmem => hn (by simp [hmem])
    have hstay : (QuoteState.inside q).next c = .inside q := by
      simp [QuoteState.next, hc, (not_or.mp hends).1]
    rw [List.foldl_cons, hstay]
    exact ih hrest htail

theorem foldl_next_head {u : List Char} (h : LiteralTail (fun c => c = q ∨ c = '\n') (u ++ b :: tail) rest) :
    u.foldl QuoteState.next (.inside q) ≠ .outside := by
  generalize htail : u ++ b :: tail = t at h
  induction h generalizing u with
  | closed =>
    cases u with
    | nil => simp
    | cons d u => simp at htail
  | unclosed => simp at htail
  | loneBackslash =>
    cases u with
    | nil => simp
    | cons d u => simp at htail
  | @escaped c t rest _ ih =>
    match u, htail with
    | [], _ => simp
    | [d], htail =>
      obtain ⟨rfl, -⟩ := List.cons.inj htail
      simp [QuoteState.next]
    | d :: e :: u, htail =>
      obtain ⟨rfl, hrest⟩ := List.cons.inj htail
      obtain ⟨-, ht⟩ := List.cons.inj hrest
      rw [List.foldl_cons, List.foldl_cons]
      exact ih ht
  | @plain c t rest hc hends _ ih =>
    cases u with
    | nil => simp
    | cons d u =>
      obtain ⟨rfl, ht⟩ := List.cons.inj htail
      have hstay : (QuoteState.inside q).next d = .inside q := by
        simp [QuoteState.next, hc, (not_or.mp hends).1]
      rw [List.foldl_cons, hstay]
      exact ih ht

theorem not_isQuote_blank (s : List Char) : ∀ d ∈ s.flatMap Comment.blank, Text.isQuote d = false := by
  intro d hd
  obtain ⟨e, -, hd⟩ := List.mem_flatMap.mp hd
  rcases Comment.eq_of_mem_blank hd with rfl | rfl <;> rfl

theorem after_blanked (h : IndentLexeme x rest) (hrest : rest ≠ []) (hn : '\n' ∉ x.blanked) :
    QuoteState.after x.blanked = .outside := by
  cases h with
  | code hq =>
    refine QuoteState.after_unquoted fun d hd => ?_
    rw [List.mem_singleton.mp hd, Bool.eq_false_iff]
    exact fun hquote => hq (isIndentQuote_iff.mpr hquote)
  | lineComment => exact QuoteState.after_unquoted (not_isQuote_blank _)
  | tripleQuoted => exact QuoteState.after_unquoted (not_isQuote_blank _)
  | openTripleQuoted => exact QuoteState.after_unquoted (not_isQuote_blank _)
  | @literal q tail _ hq _ ht =>
    have hopen : QuoteState.outside.next q = .inside q := by simp [QuoteState.next, isIndentQuote_iff.mp hq]
    have htail : '\n' ∉ tail := fun hmem => hn (List.mem_cons_of_mem q hmem)
    rw [QuoteState.after, Lexeme.blanked, List.foldl_cons, hopen]
    exact foldl_next_literal ht hrest htail

/-- A bracket inside a literal is left out of the count where the line starts with a lexeme. -/
theorem after_ne_outside (h : Splits IndentLexeme s (before ++ .literal (head ++ b :: tail) :: after)) (hb : IsOrdinary b)
    (hn : '\n' ∉ before.flatMap Lexeme.blanked) :
    QuoteState.after (before.flatMap Lexeme.blanked ++ head) ≠ .outside := by
  induction before generalizing s with
  | nil =>
    cases h with
    | cons hx _ =>
      obtain ⟨q, u, rfl, hq, -, ht⟩ := exists_head hx hb
      have hopen : QuoteState.outside.next q = .inside q := by simp [QuoteState.next, isIndentQuote_iff.mp hq]
      rw [List.flatMap_nil, List.nil_append, QuoteState.after, List.foldl_cons, hopen]
      exact foldl_next_head ht
  | cons x before ih =>
    cases h with
    | @cons _ rest _ hx hrest =>
      rw [List.flatMap_cons, List.mem_append, not_or] at hn
      have hne : rest ≠ [] := by
        rw [hrest.text_eq]
        simp [Lexeme.text]
      rw [List.flatMap_cons, List.append_assoc, QuoteState.after_append, after_blanked hx hne hn.1]
      exact ih hrest hn.2

/-- A literal goes on at the start of a line: a newline inside it stands right before the given text, which starts with
the rest of the literal. -/
def CarriedInto (xs : List Lexeme) (line : List Char) : Prop :=
  ∃ before u v after, xs = before ++ .literal (u ++ '\n' :: v) :: after ∧ v ≠ [] ∧
    line = v ++ after.flatMap Lexeme.blanked

theorem exists_lexeme_of_blanked {xs : List Lexeme} {u v : List Char} {d : Char}
    (h : xs.flatMap Lexeme.blanked = u ++ d :: v) : ∃ before x after y z, xs = before ++ x :: after ∧
      x.blanked = y ++ d :: z ∧ v = z ++ after.flatMap Lexeme.blanked := by
  induction xs generalizing u with
  | nil => simp at h
  | cons x xs ih =>
    rw [List.flatMap_cons] at h
    rcases List.append_eq_append_iff.mp h with ⟨w, rfl, hxs⟩ | ⟨w, hx, hw⟩
    · obtain ⟨before, x', after, y, z, rfl, hblanked, hv⟩ := ih hxs
      exact ⟨x :: before, x', after, y, z, rfl, hblanked, hv⟩
    · cases w with
      | nil =>
        obtain ⟨before, x', after, y, z, rfl, hblanked, hv⟩ := @ih [] hw.symm
        exact ⟨x :: before, x', after, y, z, rfl, hblanked, hv⟩
      | cons e w =>
        obtain ⟨rfl, rfl⟩ := List.cons.inj hw
        exact ⟨[], x, xs, u, w, rfl, hx, rfl⟩

theorem unquoted_of_not_carried {y z : List Char} (hx : x.blanked = y ++ '\n' :: z)
    (h : ¬((∃ t, x = .literal t) ∧ z ≠ [])) : ∀ d ∈ z, Text.isQuote d = false := by
  cases x with
  | code d =>
    have hz : z = [] := by
      cases y with
      | nil => exact (List.cons.inj hx).2.symm
      | cons e y => simp [Lexeme.blanked] at hx
    simp [hz]
  | literal t =>
    have hz : z = [] := by simpa using h
    simp [hz]
  | comment opener interior closer =>
    intro d hd
    refine not_isQuote_blank (opener ++ interior ++ closer) d (show d ∈ (Lexeme.comment opener interior closer).blanked from ?_)
    rw [hx]
    exact List.mem_append_right _ (List.mem_cons_of_mem _ hd)

theorem carriedInto_of_outside (h : Splits IndentLexeme s (before ++ .literal (head ++ b :: tail) :: after))
    (hb : IsOrdinary b) (houtside : QuoteState.after (lastLine (before.flatMap Lexeme.blanked ++ head)) = .outside) :
    CarriedInto (before ++ [.literal (head ++ b :: tail)])
      (lastLine (before.flatMap Lexeme.blanked ++ head) ++ b :: tail) := by
  obtain ⟨start, hstart, hn, hnewline⟩ := exists_start (before.flatMap Lexeme.blanked ++ head)
  generalize lastLine (before.flatMap Lexeme.blanked ++ head) = w at hstart hn houtside ⊢
  rcases hnewline with rfl | ⟨u, rfl⟩
  · rw [List.nil_append] at hstart
    subst hstart
    exact absurd houtside (after_ne_outside h hb fun hmem => hn (List.mem_append_left _ hmem))
  · have hblanked : (before ++ [Lexeme.literal (head ++ b :: tail)]).flatMap Lexeme.blanked =
        u ++ '\n' :: (w ++ b :: tail) := by
      rw [List.flatMap_append, List.flatMap_singleton, Lexeme.blanked, ← List.append_assoc, hstart]
      simp
    obtain ⟨xs, x, ys, y, z, hxs, hx, hline⟩ := exists_lexeme_of_blanked hblanked
    by_cases hcarried : (∃ t, x = .literal t) ∧ z ≠ []
    · obtain ⟨⟨t, rfl⟩, hz⟩ := hcarried
      exact ⟨xs, y, z, ys, hx ▸ hxs, hz, hline⟩
    · refine absurd houtside ?_
      rcases List.eq_nil_or_concat ys with rfl | ⟨ys, y', rfl⟩
      · -- The literal of the bracket does not end with the newline.
        obtain ⟨-, hlast⟩ := List.append_inj' hxs rfl
        obtain rfl := List.singleton_inj.mp hlast
        have hz : z = [] := by simpa using hcarried
        simp [hz] at hline
      · rw [List.concat_eq_append, ← List.cons_append, ← List.append_assoc] at hxs
        obtain ⟨rfl, hlast⟩ := List.append_inj' hxs rfl
        obtain rfl := List.singleton_inj.mp hlast
        have hw : w = z ++ (ys.flatMap Lexeme.blanked ++ head) := by
          rw [List.concat_eq_append, List.flatMap_append, List.flatMap_singleton, Lexeme.blanked, ← List.append_assoc,
            ← List.append_assoc] at hline
          rw [← List.append_assoc]
          exact List.append_cancel_right hline
        have hrest : Splits IndentLexeme _ (ys ++ .literal (head ++ b :: tail) :: after) :=
          @Splits.of_append _ _ (xs ++ [x]) _ (by simpa using h)
        rw [hw, QuoteState.after_append, QuoteState.after_unquoted (unquoted_of_not_carried hx hcarried)]
        refine after_ne_outside hrest hb fun hmem => hn ?_
        rw [hw]
        exact List.mem_append_right _ (List.mem_append_left _ hmem)

end Counts

section Replacement

theorem isLexeme_of_head? {rest' : List Char} (h : IndentLexeme x rest) (hhead : rest'.head? = rest.head?) :
    IndentLexeme x rest' := by
  have hnil : rest = [] → rest' = [] := by
    rintro rfl
    exact List.head?_eq_none_iff.mp hhead
  cases h with
  | code hq hc => exact .code hq hc
  | lineComment hb hr =>
    refine .lineComment hb ?_
    rcases hr with rfl | ⟨cs, rfl⟩
    · exact .inl (hnil rfl)
    · exact .inr (List.head?_eq_some_iff.mp hhead)
  | tripleQuoted hq hb => exact .tripleQuoted hq hb
  | openTripleQuoted hq hb =>
    rw [hnil rfl]
    exact .openTripleQuoted hq hb
  | @literal q tail _ hq hp ht =>
    refine .literal hq (fun hpair => hp ?_) (Comment.literalTail_of_rest ht hnil)
    match tail with
    | [] =>
      cases ht
      rw [hnil rfl] at hpair
      exact hpair
    | [d] =>
      obtain ⟨rfl, hnext⟩ := List.cons_prefix_cons.mp hpair
      obtain ⟨v, rfl⟩ := hnext
      obtain ⟨v, hv⟩ := List.head?_eq_some_iff.mp hhead.symm
      exact List.cons_prefix_cons.mpr ⟨rfl, v, hv.symm⟩
    | d :: e :: tail => simpa using hpair

theorem literalTail_replace {ends : Char → Prop} {u : List Char} (hb : b ≠ '\\') (hb' : ¬ends b) (hc : c ≠ '\\')
    (hc' : ¬ends c) (h : LiteralTail ends (u ++ b :: tail) rest) : LiteralTail ends (u ++ c :: tail) rest := by
  generalize htail : u ++ b :: tail = t at h
  induction h generalizing u with
  | @closed d rest _ hends =>
    cases u with
    | nil =>
      obtain ⟨rfl, -⟩ := List.cons.inj htail
      exact absurd hends hb'
    | cons e u => simp at htail
  | unclosed => simp at htail
  | loneBackslash =>
    cases u with
    | nil =>
      obtain ⟨rfl, -⟩ := List.cons.inj htail
      exact absurd rfl hb
    | cons e u => simp at htail
  | @escaped d t rest ht ih =>
    match u, htail with
    | [], htail =>
      obtain ⟨rfl, -⟩ := List.cons.inj htail
      exact absurd rfl hb
    | [e], htail =>
      obtain ⟨rfl, hrest⟩ := List.cons.inj htail
      obtain ⟨-, rfl⟩ := List.cons.inj hrest
      exact .escaped ht
    | e :: f :: u, htail =>
      obtain ⟨rfl, hrest⟩ := List.cons.inj htail
      obtain ⟨-, hrest⟩ := List.cons.inj hrest
      exact .escaped (ih hrest)
  | @plain d t rest hd hends ht ih =>
    cases u with
    | nil =>
      obtain ⟨-, rfl⟩ := List.cons.inj htail
      exact .plain hc hc' ht
    | cons e u =>
      obtain ⟨rfl, hrest⟩ := List.cons.inj htail
      exact .plain hd hends (ih hrest)

theorem isLexeme_replace (h : IndentLexeme (.literal (head ++ b :: tail)) rest) (hb : IsOrdinary b) (hc : IsOrdinary c) :
    IndentLexeme (.literal (head ++ c :: tail)) rest := by
  obtain ⟨q, u, rfl, hq, hp, ht⟩ := exists_head h hb
  have hne : ∀ {d}, IsOrdinary d → d ≠ q ∧ ¬(d = q ∨ d = '\n') := by
    intro d hd
    have hquote : d ≠ q := fun heq => Text.ne_of_class (isIndentQuote_iff.mp hq) hd.noQuote heq.symm
    exact ⟨hquote, not_or.mpr ⟨hquote, hd.ne_blank (by decide)⟩⟩
  refine .literal hq (fun hpair => hp ?_) (literalTail_replace hb.noBackslash (hne hb).2 hc.noBackslash (hne hc).2 ht)
  match u with
  | [] => exact absurd (List.cons_prefix_cons.mp hpair).1.symm (hne hc).1
  | [d] =>
    obtain ⟨-, hpair⟩ := List.cons_prefix_cons.mp hpair
    exact absurd (List.cons_prefix_cons.mp hpair).1.symm (hne hc).1
  | d :: e :: u => simpa using hpair

theorem splits_replace (h : Splits IndentLexeme s (before ++ .literal (head ++ b :: tail) :: after)) (hb : IsOrdinary b)
    (hc : IsOrdinary c) : Splits IndentLexeme ((before ++ .literal (head ++ c :: tail) :: after).flatMap Lexeme.text)
      (before ++ .literal (head ++ c :: tail) :: after) := by
  induction before generalizing s with
  | nil =>
    cases h with
    | cons hx hrest =>
      rw [hrest.text_eq] at hx hrest
      exact .cons (isLexeme_replace hx hb hc) hrest
  | cons x before ih =>
    cases h with
    | @cons _ rest _ hx hrest =>
      have hsplits : Splits IndentLexeme rest (before ++ .literal (head ++ b :: tail) :: after) := hrest
      obtain ⟨q, u, rfl⟩ : ∃ q u, head = q :: u := by
        have hliteral := hsplits.of_append
        generalize (Lexeme.literal (head ++ b :: tail) :: after).flatMap Lexeme.text = s at hliteral
        cases hliteral with
        | cons hliteral _ =>
          obtain ⟨q, u, rfl, -⟩ := exists_head hliteral hb
          exact ⟨q, u, rfl⟩
      have hhead : ((before ++ .literal (q :: u ++ c :: tail) :: after).flatMap Lexeme.text).head? = rest.head? := by
        rw [hsplits.text_eq]
        simp [Lexeme.text, List.head?_append]
      exact .cons (isLexeme_of_head? hx hhead) (ih hrest)

end Replacement

end Literals

section Change

variable {b c : Char}

theorem dropMark_append (before after : List Lexeme) (t : List Char) :
    Lexeme.dropMark (before ++ .literal t :: after) = Lexeme.dropMark before ++ .literal t :: after := by
  cases before with
  | nil => rfl
  | cons x before =>
    cases x with
    | code d =>
      rw [List.cons_append, Lexeme.dropMark, Lexeme.dropMark]
      split <;> rfl
    | literal => rfl
    | comment => rfl

theorem exists_mark (xs : List Lexeme) : ∃ mark, xs = mark ++ Lexeme.dropMark xs := by
  unfold Lexeme.dropMark
  split
  next d xs =>
    split
    next => exact ⟨[.code d], rfl⟩
    next => exact ⟨[], rfl⟩
  next => exact ⟨[], rfl⟩

theorem stripHash_of_splits {s head tail : List Char} {before after : List Lexeme} {x : Char}
    (h : Splits IndentLexeme s (before ++ .literal (head ++ x :: tail) :: after)) :
    Comment.stripHash (Declarations.dropMark s) =
      (Lexeme.dropMark before).flatMap Lexeme.blanked ++ head ++ x :: (tail ++ after.flatMap Lexeme.blanked) := by
  have hsplits : Splits (Family.IsLexeme .indent) s _ := h
  have hstrip := Comment.strip_of_splits (splits_dropMark hsplits)
  rw [dropMark_append] at hstrip
  refine hstrip.trans ?_
  simp [Lexeme.blanked]

theorem CarriedInto.append_left {xs : List Lexeme} {line : List Char} (h : CarriedInto xs line) (ys : List Lexeme) :
    CarriedInto (ys ++ xs) line := by
  obtain ⟨before, u, v, after, rfl, hv, hline⟩ := h
  exact ⟨ys ++ before, u, v, after, by rw [List.append_assoc], hv, hline⟩

/-- A bracket inside a literal and a letter in its place. The count of the bracket's line leaves it out unless a literal
goes on from the line before; then the lines are joined alike, and all other logical lines have the same imports. A
bracket that is not left out changes the count. -/
theorem bracket_in_literal_as_letter {s head tail : List Char} {before after : List Lexeme}
    (hs : Splits IndentLexeme s (before ++ .literal (head ++ b :: tail) :: after)) (hb : bracketStep b ≠ 0)
    (hc : Text.isWord c = true) :
    let s' := (before ++ .literal (head ++ c :: tail) :: after).flatMap Lexeme.text
    let text := Comment.stripHash (Declarations.dropMark s)
    let text' := Comment.stripHash (Declarations.dropMark s')
    let w := lastLine ((Lexeme.dropMark before).flatMap Lexeme.blanked ++ head)
    ∃ above t below, Text.lines text = above ++ (w ++ b :: t) :: below ∧
      Text.lines text' = above ++ (w ++ c :: t) :: below ∧
      (QuoteState.after w ≠ .outside → ∃ earlier r r' later,
        JoinedAlike text text' (w ++ b :: t) (w ++ c :: t) earlier later r r' ∧
        (Declarations.ofSource .indent s').imports.filter (·.line ≠ r.number) =
          (Declarations.ofSource .indent s).imports.filter (·.line ≠ r.number)) ∧
      (QuoteState.after w = .outside → CarriedInto (before ++ [.literal (head ++ b :: tail)]) (w ++ b :: tail) ∧
        bracketDelta (bodyOf (w ++ b :: t)) = bracketDelta (bodyOf (w ++ c :: t)) + bracketStep b) := by
  intro s' text text' w
  have hb' := isOrdinary_of_bracket hb
  have hc' := isOrdinary_of_isWord hc
  have hs' := splits_replace hs hb' hc'
  obtain ⟨above, t, below, hlines⟩ := exists_line ((Lexeme.dropMark before).flatMap Lexeme.blanked ++ head)
    (tail ++ after.flatMap Lexeme.blanked)
  have hline : Text.lines text = above ++ (w ++ b :: t) :: below := by rw [← hlines b hb', ← stripHash_of_splits hs]
  have hline' : Text.lines text' = above ++ (w ++ c :: t) :: below := by rw [← hlines c hc', ← stripHash_of_splits hs']
  refine ⟨above, t, below, hline, hline', fun hw => ?_, fun hw => ⟨?_, ?_⟩⟩
  · obtain ⟨earlier, r, r', later, halike⟩ := exists_joinedAlike hline hline' hb' hc' hw
    exact ⟨earlier, r, r', later, halike, halike.imports_eq hb' hc' hw⟩
  · obtain ⟨mark, hmark⟩ := exists_mark before
    have hwhole : Splits IndentLexeme s (mark ++ (Lexeme.dropMark before ++ .literal (head ++ b :: tail) :: after)) := by
      rwa [← List.append_assoc, ← hmark]
    have hcarried := (carriedInto_of_outside hwhole.of_append hb' hw).append_left mark
    rwa [← List.append_assoc, ← hmark] at hcarried
  · rw [bracketDelta_body hb', bracketDelta_body hc', if_pos hw, if_pos hw, bracketStep_of_isWord hc, Int32.add_zero]

theorem splits_code {s : List Char} (h : ∀ c ∈ s, ¬IsIndentQuote c ∧ c ≠ '#') :
    Splits IndentLexeme s (s.map .code) := by
  induction s with
  | nil => exact .nil
  | cons c s ih =>
    obtain ⟨hc, hs⟩ := List.forall_mem_cons.mp h
    exact .cons (x := .code c) (.code hc.1 hc.2) (ih hs)

/-- The second line starts inside a literal, but a quote of the other kind stands before the bracket. -/
theorem bracket_as_letter_behind_other_quote :
    let s := "'\\\n\"('\nimport a".toList
    let s' := "'\\\n\"b'\nimport a".toList
    let head := "'\\\n\"".toList
    let after := "\nimport a".toList.map Lexeme.code
    Splits IndentLexeme s ([] ++ .literal (head ++ '(' :: ['\'']) :: after) ∧ bracketStep '(' ≠ 0 ∧
      Text.isWord 'b' = true ∧ QuoteState.after (lastLine head) ≠ .outside ∧
      ∃ t earlier r r' later, JoinedAlike (Comment.stripHash (Declarations.dropMark s))
          (Comment.stripHash (Declarations.dropMark s')) ('"' :: '(' :: t) ('"' :: 'b' :: t) earlier later r r' ∧
        (Declarations.ofSource .indent s').imports.filter (·.line ≠ r.number) =
          (Declarations.ofSource .indent s).imports.filter (·.line ≠ r.number) := by
  intro s s' head after
  have htail : LiteralTail (fun c => c = '\'' ∨ c = '\n') "\\\n\"('".toList "\nimport a".toList :=
    .escaped (.plain (by decide) (by decide) (.plain (by decide) (by decide) (.closed (by decide) (.inl rfl))))
  have hsplits : Splits IndentLexeme s ([] ++ .literal (head ++ '(' :: ['\'']) :: after) :=
    .cons (x := .literal "'\\\n\"('".toList) (.literal (.inl rfl) (by decide) htail)
      (splits_code (by unfold IsIndentQuote; decide))
  have hchanged : ([] ++ Lexeme.literal (head ++ 'b' :: ['\'']) :: after).flatMap Lexeme.text = s' := by decide
  obtain ⟨above, t, below, -, -, hquoted, -⟩ := bracket_in_literal_as_letter hsplits (by decide) (by decide : Text.isWord 'b' = true)
  rw [hchanged] at hquoted
  exact ⟨hsplits, by decide, by decide, by decide, t, hquoted (by decide)⟩

/-- A bracket in the second line of a literal takes all lines behind it into its logical line. -/
theorem import_lost_behind_carried_bracket :
    let s := "'\\\n('\nimport os\n".toList
    let s' := "'\\\nb'\nimport os\n".toList
    let head := "'\\\n".toList
    let after := "\nimport os\n".toList.map Lexeme.code
    Splits IndentLexeme s (.literal (head ++ '(' :: ['\'']) :: after) ∧
      s' = (Lexeme.literal (head ++ 'b' :: ['\'']) :: after).flatMap Lexeme.text ∧
      (logicalLines (Comment.stripHash s)).map (·.line) = [1] ∧
      (logicalLines (Comment.stripHash s')).map (·.line) = [1, 3] ∧
      (Declarations.ofSource .indent s).imports = [] ∧
      (Declarations.ofSource .indent s').imports.map (fun i => (i.source, i.line)) = [("os", 3)] := by
  intro s s' head after
  have htail : LiteralTail (fun c => c = '\'' ∨ c = '\n') "\\\n('".toList "\nimport os\n".toList :=
    .escaped (.plain (by decide) (by decide) (.closed (by decide) (.inl rfl)))
  have hsplits : Splits IndentLexeme s (.literal (head ++ '(' :: ['\'']) :: after) :=
    .cons (x := .literal "'\\\n('".toList) (.literal (.inl rfl) (by decide) htail)
      (splits_code (by unfold IsIndentQuote; decide))
  exact ⟨hsplits, by decide, by decide +kernel, by decide +kernel, by decide +kernel, by decide +kernel⟩

end Change

end ModuleGraph.Indent
