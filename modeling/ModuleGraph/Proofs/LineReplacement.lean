import ModuleGraph.Proofs.TypeBlocks

namespace ModuleGraph.Indent

section Counting

/-- A character that means nothing to a literal or at the end of a line. -/
structure IsOrdinary (c : Char) : Prop where
  solid : Text.isBlank c = false
  noQuote : Text.isQuote c = false
  noBackslash : c ≠ '\\'

theorem IsOrdinary.ne_blank {c d : Char} (h : IsOrdinary c) (hd : Text.isBlank d = true) : c ≠ d :=
  fun heq => Text.ne_of_class hd h.solid heq.symm

theorem isOrdinary_of_bracket {c : Char} (h : bracketStep c ≠ 0) : IsOrdinary c := by
  have hbracket : c ∈ ['(', '[', '{', ')', ']', '}'] := by
    by_contra hnone
    simp only [List.mem_cons, List.not_mem_nil, or_false, not_or] at hnone
    simp [bracketStep, hnone] at h
  have hall : ∀ d ∈ ['(', '[', '{', ')', ']', '}'], Text.isBlank d = false ∧ Text.isQuote d = false ∧ d ≠ '\\' := by
    decide
  obtain ⟨hsolid, hquote, hbackslash⟩ := hall c hbracket
  exact ⟨hsolid, hquote, hbackslash⟩

theorem isOrdinary_of_isWord {c : Char} (h : Text.isWord c = true) : IsOrdinary c :=
  ⟨Text.isBlank_of_isWord h, Text.not_isQuote_of_class h (by decide) (by decide), Text.ne_of_class h (by decide)⟩

theorem bracketStep_of_isWord {c : Char} (h : Text.isWord c = true) : bracketStep c = 0 := by
  have hne : ∀ d, Text.isWord d = false → c ≠ d := fun d hd => Text.ne_of_class h hd
  simp [bracketStep, hne _ (by decide : Text.isWord '(' = false), hne _ (by decide : Text.isWord '[' = false),
    hne _ (by decide : Text.isWord '{' = false), hne _ (by decide : Text.isWord ')' = false),
    hne _ (by decide : Text.isWord ']' = false), hne _ (by decide : Text.isWord '}' = false)]

namespace QuoteState

/-- Where the count of a line stands after its first characters. -/
def after (w : List Char) : QuoteState :=
  w.foldl next .outside

def past : QuoteState → QuoteState
  | .outside => .outside
  | .inside q => .inside q
  | .escaped q => .inside q

def IsProper : QuoteState → Prop
  | .outside => True
  | .inside q => Text.isQuote q = true
  | .escaped q => Text.isQuote q = true

theorem IsProper.next {state : QuoteState} (h : state.IsProper) (c : Char) : (state.next c).IsProper := by
  cases state with
  | outside =>
    rw [QuoteState.next]
    split
    next hquote => exact hquote
    next => trivial
  | inside q =>
    rw [QuoteState.next]
    split
    next => exact h
    next =>
      split
      next => trivial
      next => exact h
  | escaped q => exact h

theorem isProper_after (w : List Char) : (after w).IsProper := by
  induction w using List.reverseRecOn with
  | nil => trivial
  | append_singleton w c ih =>
    rw [after, List.foldl_concat]
    exact ih.next c

theorem IsProper.next_ordinary {state : QuoteState} (h : state.IsProper) {c : Char} (hc : IsOrdinary c) :
    state.next c = state.past := by
  cases state with
  | outside => simp [QuoteState.next, past, hc.noQuote]
  | inside q =>
    have hne : c ≠ q := fun heq => Text.ne_of_class h hc.noQuote heq.symm
    simp [QuoteState.next, past, hc.noBackslash, hne]
  | escaped q => rfl

theorem after_append (u v : List Char) : after (u ++ v) = v.foldl next (after u) :=
  List.foldl_append ..

theorem after_unquoted {w : List Char} (h : ∀ c ∈ w, Text.isQuote c = false) : after w = .outside := by
  induction w with
  | nil => rfl
  | cons c w ih =>
    obtain ⟨hc, hw⟩ := List.forall_mem_cons.mp h
    have hstay : QuoteState.outside.next c = .outside := by simp [QuoteState.next, hc]
    rw [after, List.foldl_cons, hstay]
    exact ih hw

theorem exists_quote {w : List Char} (h : after w ≠ .outside) : ∃ u q v, w = u ++ q :: v ∧ Text.isQuote q = true := by
  by_contra hnone
  push Not at hnone
  refine h (after_unquoted fun c hc => ?_)
  obtain ⟨u, v, hw⟩ := List.append_of_mem hc
  exact Bool.eq_false_iff.mpr (hnone u c v hw)

end QuoteState

theorem bracketDeltaFrom_append (state : QuoteState) (u v : List Char) :
    bracketDeltaFrom state (u ++ v) = bracketDeltaFrom state u + bracketDeltaFrom (u.foldl QuoteState.next state) v := by
  induction u generalizing state with
  | nil => simp [bracketDeltaFrom]
  | cons c u ih => rw [List.cons_append, bracketDeltaFrom, bracketDeltaFrom, ih, List.foldl_cons, Int32.add_assoc]

variable {w t : List Char} {x : Char}

theorem trimEnd_append (hx : IsOrdinary x) : Text.trimEnd (w ++ x :: t) = w ++ x :: Text.trimEnd t :=
  Text.dropEndWhile_append_cons hx.solid w t

theorem bodyOf_append (hx : IsOrdinary x) : bodyOf (w ++ x :: t) = w ++ x :: bodyOf t := by
  have hbackslash : (x == '\\') = false := beq_eq_false_iff_ne.mpr hx.noBackslash
  rw [bodyOf, PhysicalLine.ofRaw, trimEnd_append hx]
  exact @Text.dropEndWhile_append_cons (· == '\\') x hbackslash w _

theorem continued_append (hx : IsOrdinary x) :
    (PhysicalLine.ofRaw (w ++ x :: t)).continued = (PhysicalLine.ofRaw t).continued := by
  rw [PhysicalLine.ofRaw, PhysicalLine.ofRaw, trimEnd_append hx]
  rcases List.eq_nil_or_concat (Text.trimEnd t) with hnil | ⟨u, d, hlast⟩
  · simp [hnil, Text.endsWith, List.isSuffixOf, List.isPrefixOf, Ne.symm hx.noBackslash]
  · simp [hlast, Text.endsWith, List.isSuffixOf, List.isPrefixOf]

theorem bracketDelta_body (hx : IsOrdinary x) : bracketDelta (bodyOf (w ++ x :: t)) = bracketDelta w +
    bracketDeltaFrom (QuoteState.after w).past (bodyOf t) + if QuoteState.after w = .outside then bracketStep x else 0 := by
  rw [bodyOf_append hx, bracketDelta, bracketDeltaFrom_append, ← QuoteState.after, bracketDeltaFrom,
    (QuoteState.isProper_after w).next_ordinary hx, bracketDelta, Int32.add_assoc]
  exact congrArg _ (Int32.add_comm _ _)

end Counting

section Division

variable {needsMore : List (List Char) → Prop} {n : Nat} {physical : List (List Char)} {runs runs' : List Run}

theorem eq_nil_of_within {lines extra rest : List (List Char)} (hne : lines ≠ [])
    (hwithin : ∀ part, part <+: lines ++ extra → part ≠ [] → part ≠ lines ++ extra → needsMore part)
    (hends : ¬needsMore lines ∨ extra ++ rest = []) : extra = [] := by
  by_contra hextra
  have hshort : lines ≠ lines ++ extra := fun heq => hextra (List.self_eq_append_right.mp heq)
  rcases hends with hends | hends
  · exact hends (hwithin lines (List.prefix_append _ _) hne hshort)
  · exact hextra (List.append_eq_nil_iff.mp hends).1

theorem Run.eq_of_lines {r r' : Run} (hnumber : r.number = r'.number) (hlines : r.lines = r'.lines) : r = r' := by
  cases r
  cases r'
  obtain ⟨rfl, rfl⟩ := List.cons.inj hlines
  cases hnumber
  rfl

theorem Divided.unique (h : Divided needsMore n physical runs) (h' : Divided needsMore n physical runs') :
    runs = runs' := by
  induction h generalizing runs' with
  | nil =>
    generalize hphysical : ([] : List (List Char)) = physical at h'
    cases h' with
    | nil => rfl
    | blank => cases hphysical
    | run => cases hphysical
  | @blank n raw rest runs hblank _ ih =>
    generalize hphysical : raw :: rest = physical at h'
    cases h' with
    | nil => cases hphysical
    | blank _ hrest =>
      obtain ⟨-, rfl⟩ := List.cons.inj hphysical
      exact ih hrest
    | run hsolid =>
      obtain ⟨rfl, -⟩ := List.cons.inj hphysical
      exact absurd hblank hsolid
  | @run r rest runs hsolid hwithin hends _ ih =>
    generalize hphysical : r.lines ++ rest = physical at h'
    generalize hnumber : r.number = n at h'
    cases h' with
    | nil => cases hphysical
    | blank hblank =>
      obtain ⟨rfl, -⟩ := List.cons.inj hphysical
      exact absurd hblank hsolid
    | @run r' rest' _ _ hwithin' hends' hrest' =>
      have hlines : r.lines = r'.lines := by
        rcases List.append_eq_append_iff.mp hphysical with ⟨extra, heq, rfl⟩ | ⟨extra, heq, rfl⟩
        · rw [heq] at hwithin'
          rw [heq, eq_nil_of_within (List.cons_ne_nil _ _) hwithin' hends, List.append_nil]
        · rw [heq] at hwithin
          rw [heq, eq_nil_of_within (List.cons_ne_nil _ _) hwithin hends', List.append_nil]
      obtain rfl := Run.eq_of_lines hnumber hlines
      rw [ih (List.append_cancel_left hphysical ▸ hrest')]

/-- Runs of which the second has another line in the place of one of the first. -/
structure Run.Replaced (l l' : List Char) (r r' : Run) : Prop where
  number : r'.number = r.number
  lines : ∃ before behind, r.lines = before ++ l :: behind ∧ r'.lines = before ++ l' :: behind

section Replacement

variable {l l' : List Char}
  (hmore : ∀ before behind, needsMore (before ++ l :: behind) ↔ needsMore (before ++ l' :: behind))
include hmore

theorem within_replace {before behind part : List (List Char)}
    (hwithin : ∀ part, part <+: before ++ l :: behind → part ≠ [] → part ≠ before ++ l :: behind → needsMore part)
    (hpart : part <+: before ++ l' :: behind) (hne : part ≠ []) (hshort : part ≠ before ++ l' :: behind) :
    needsMore part := by
  obtain ⟨rest, hrest⟩ := hpart
  by_cases hbefore : part <+: before
  · refine hwithin part (hbefore.trans (List.prefix_append _ _)) hne fun heq => ?_
    have hle := hbefore.length_le
    rw [heq, List.length_append, List.length_cons] at hle
    omega
  · -- The part holds the other line.
    rcases List.append_eq_append_iff.mp hrest with ⟨x, rfl, -⟩ | ⟨x, rfl, hx⟩
    · exact absurd (List.prefix_append _ _) hbefore
    · cases x with
      | nil => exact absurd (by simp) hbefore
      | cons y x =>
        obtain ⟨rfl, rfl⟩ := List.cons.inj hx
        refine (hmore before x).mp (hwithin _ ⟨rest, by simp⟩ (by simp) fun heq => hshort ?_)
        simpa using heq

theorem Divided.replace {above below : List (List Char)} (hsolid : ¬Text.IsGap (bodyOf l))
    (hsolid' : ¬Text.IsGap (bodyOf l')) (h : Divided needsMore n (above ++ l :: below) runs) :
    ∃ earlier r r' later, runs = earlier ++ r :: later ∧ r.Replaced l l' r' ∧
      Divided needsMore n (above ++ l' :: below) (earlier ++ r' :: later) := by
  generalize hphysical : above ++ l :: below = physical at h
  induction h generalizing above with
  | nil => simp at hphysical
  | @blank n raw rest runs hblank _ ih =>
    cases above with
    | nil =>
      obtain ⟨rfl, -⟩ := List.cons.inj hphysical
      exact absurd hblank hsolid
    | cons raw' above =>
      obtain ⟨rfl, hrest⟩ := List.cons.inj hphysical
      obtain ⟨earlier, r, r', later, rfl, hreplaced, hdivided⟩ := ih hrest
      exact ⟨earlier, r, r', later, rfl, hreplaced, .blank hblank hdivided⟩
  | @run r rest runs hfirst hwithin hends hrest ih =>
    have hwhere : (∃ behind, r.lines = above ++ l :: behind ∧ below = behind ++ rest) ∨
        ∃ between, above = r.lines ++ between ∧ rest = between ++ l :: below := by
      rcases List.append_eq_append_iff.mp hphysical with ⟨x, hlines, hx⟩ | ⟨between, habove, hrest⟩
      · cases x with
        | nil => exact .inr ⟨[], by rw [hlines]; simp, by simpa using hx.symm⟩
        | cons y behind =>
          obtain ⟨rfl, hbelow⟩ := List.cons.inj hx
          exact .inl ⟨behind, hlines, hbelow⟩
      · exact .inr ⟨between, habove, hrest⟩
    rcases hwhere with ⟨behind, hlines, rfl⟩ | ⟨between, rfl, rfl⟩
    · obtain ⟨r', hnumber, hlines'⟩ : ∃ r' : Run, r'.number = r.number ∧ r'.lines = above ++ l' :: behind := by
        obtain ⟨first, more, heq⟩ := List.exists_cons_of_ne_nil (show above ++ l' :: behind ≠ [] by simp)
        exact ⟨⟨r.number, first, more⟩, rfl, heq.symm⟩
      have hfirst' : ¬Text.IsGap (bodyOf r'.first) := by
        cases above with
        | nil => exact (List.cons.inj hlines').1 ▸ hsolid'
        | cons raw above =>
          obtain ⟨hraw, -⟩ := List.cons.inj hlines
          rw [(List.cons.inj hlines').1, ← hraw]
          exact hfirst
      have hlength : r.lines.length = r'.lines.length := by
        rw [hlines, hlines', List.length_append, List.length_append, List.length_cons, List.length_cons]
      refine ⟨[], r, r', runs, rfl, ⟨hnumber, above, behind, hlines, hlines'⟩, ?_⟩
      rw [← List.cons_append, ← List.append_assoc, ← hlines', ← hnumber]
      rw [hlength, ← hnumber] at hrest
      refine .run hfirst' (fun part hpart hne hshort => ?_) (hends.imp_left fun hclosed => ?_) hrest
      · rw [hlines'] at hpart hshort
        exact within_replace hmore (hlines ▸ hwithin) hpart hne hshort
      · rwa [hlines', ← hmore, ← hlines]
    · obtain ⟨earlier, r₁, r₂, later, rfl, hreplaced, hdivided⟩ := ih rfl
      refine ⟨r :: earlier, r₁, r₂, later, rfl, hreplaced, ?_⟩
      have hclosed : ¬needsMore r.lines := hends.resolve_right (by simp)
      rw [List.append_assoc]
      exact .run hfirst hwithin (.inl hclosed) hdivided

end Replacement

structure CountsAlike (l l' : List Char) : Prop where
  delta : bracketDelta (bodyOf l) = bracketDelta (bodyOf l')
  continued : (PhysicalLine.ofRaw l).continued = (PhysicalLine.ofRaw l').continued

theorem depthOf_append (run run' : List (List Char)) : depthOf (run ++ run') = depthOf run + depthOf run' := by
  induction run' using List.reverseRecOn with
  | nil => simp [depthOf]
  | append_singleton run' raw ih => rw [← List.append_assoc, depthOf_concat, depthOf_concat, ih, Int32.add_assoc]

theorem CountsAlike.needsMore_iff {l l' : List Char} (h : CountsAlike l l') (before behind : List (List Char)) :
    NeedsMore (before ++ l :: behind) ↔ NeedsMore (before ++ l' :: behind) := by
  have hline : ∀ l, depthOf (before ++ l :: behind) = depthOf before + bracketDelta (bodyOf l) + depthOf behind := by
    intro l
    rw [List.append_cons, depthOf_append, depthOf_concat]
  have hlast : ((before ++ l :: behind).getLast?.any fun raw => (PhysicalLine.ofRaw raw).continued) =
      ((before ++ l' :: behind).getLast?.any fun raw => (PhysicalLine.ofRaw raw).continued) := by
    rcases List.eq_nil_or_concat behind with rfl | ⟨behind, raw, rfl⟩
    · simp [h.continued]
    · simp [List.getLast?_append, List.getLast?_cons]
  rw [NeedsMore, NeedsMore, hline, hline, h.delta, hlast]

end Division

section Lines

theorem dropReturn_append {w t : List Char} {x : Char} (hx : IsOrdinary x) :
    Text.dropReturn (w ++ x :: t) = w ++ x :: Text.dropReturn t := by
  have hreturn : x ≠ '\r' := hx.ne_blank (by decide)
  rcases List.eq_nil_or_concat t with rfl | ⟨t, d, rfl⟩
  · simp [Text.dropReturn, hreturn]
  · by_cases hd : d = '\r'
    · simp [Text.dropReturn, hd]
    · simp [Text.dropReturn, hd]

theorem exists_first_line {w : List Char} (hw : '\n' ∉ w) (behind : List Char) : ∃ t below, ∀ x, IsOrdinary x →
    Text.lines (w ++ x :: behind) = (w ++ x :: t) :: below := by
  obtain ⟨t, rest, rfl, ht, hrest, -⟩ := Text.exists_run (· != '\n') behind
  have hpiece : ∀ x, IsOrdinary x → Text.pieces (· == '\n') (w ++ x :: t) = [w ++ x :: t] := by
    intro x hx
    refine Text.pieces_of_forall fun d hd => ?_
    rw [beq_eq_false_iff_ne]
    rcases List.mem_append.mp hd with hd | hd
    · exact fun heq => hw (heq ▸ hd)
    · rcases List.mem_cons.mp hd with rfl | hd
      · exact hx.ne_blank (by decide)
      · exact bne_iff_ne.mp (ht d hd)
  cases rest with
  | nil =>
    refine ⟨t, [], fun x hx => ?_⟩
    obtain ⟨d, ds, hline⟩ := List.exists_cons_of_ne_nil (show w ++ x :: t ≠ [] by simp)
    rw [List.append_nil, Text.lines, hpiece x hx, hline]
    rfl
  | cons d rest =>
    obtain rfl : d = '\n' := by simpa using Text.stops_cons.mp hrest
    refine ⟨Text.dropReturn t, Text.lines rest, fun x hx => ?_⟩
    rw [← List.cons_append, ← List.append_assoc, Text.lines_append_newline, hpiece x hx, List.map_singleton,
      dropReturn_append hx, List.singleton_append]

def lastLine (s : List Char) : List Char :=
  (s.reverse.takeWhile (· != '\n')).reverse

theorem exists_start (s : List Char) : ∃ start, s = start ++ lastLine s ∧ '\n' ∉ lastLine s ∧
    (start = [] ∨ ∃ u, start = u ++ ['\n']) := by
  have hsplit : s = Text.dropEndWhile (· != '\n') s ++ lastLine s := by
    rw [Text.dropEndWhile, lastLine, ← List.reverse_append, List.takeWhile_append_dropWhile, List.reverse_reverse]
  refine ⟨_, hsplit, fun hmem => ?_, ?_⟩
  · have hnewline := List.all_eq_true.mp List.all_takeWhile _ (List.mem_reverse.mp hmem)
    exact absurd hnewline (by decide)
  · have hlast := Text.dropEndWhile_getLast (· != '\n') s
    rcases List.eq_nil_or_concat (Text.dropEndWhile (· != '\n') s) with hnil | ⟨u, d, hstart⟩
    · exact .inl hnil
    · rw [hstart] at hlast
      obtain rfl : d = '\n' := by simpa using hlast
      exact .inr ⟨u, by rw [hstart, List.concat_eq_append]⟩

theorem exists_line (before behind : List Char) : ∃ above t below, ∀ x, IsOrdinary x →
    Text.lines (before ++ x :: behind) = above ++ (lastLine before ++ x :: t) :: below := by
  obtain ⟨start, hbefore, hnewline, hstart⟩ := exists_start before
  generalize lastLine before = w at hbefore hnewline
  subst hbefore
  obtain ⟨t, below, hlines⟩ := exists_first_line hnewline behind
  rcases hstart with rfl | ⟨u, rfl⟩
  · exact ⟨[], t, below, hlines⟩
  · refine ⟨(Text.pieces (· == '\n') u).map Text.dropReturn, t, below, fun x hx => ?_⟩
    rw [List.append_assoc, List.append_assoc, List.singleton_append, Text.lines_append_newline, hlines x hx]

end Lines

section Headers

theorem isTypeHeader_append_quote {u v : List Char} {q : Char} (hq : Text.isQuote q = true) :
    IsTypeHeader (u ++ q :: v) ↔ IsTypeHeader u := by
  constructor
  · rintro ⟨gap, qualifier, gap', rest, hgap, hne, hqualifier, hgap', heq⟩
    set header := "if".toList ++ gap ++ qualifier.toList ++ "TYPE_CHECKING".toList ++ gap' with hheader
    have hplain : q ∉ header ++ [':'] := by
      intro hmem
      refine absurd hq (Bool.eq_false_iff.mp ?_)
      simp only [hheader, List.mem_append, List.mem_singleton] at hmem
      rcases hmem with ((((hmem | hmem) | hmem) | hmem) | hmem) | rfl
      · exact (by decide : ∀ c ∈ "if".toList, Text.isQuote c = false) q hmem
      · exact Text.not_isQuote_of_isBlank (hgap q hmem)
      · rcases hqualifier with rfl | rfl
        · exact (by decide : ∀ c ∈ "typing.".toList, Text.isQuote c = false) q hmem
        · exact absurd hmem List.not_mem_nil
      · exact (by decide : ∀ c ∈ "TYPE_CHECKING".toList, Text.isQuote c = false) q hmem
      · exact Text.not_isQuote_of_isBlank (hgap' q hmem)
      · rfl
    rw [List.append_cons header] at heq
    obtain ⟨w, rfl, -⟩ := Text.exists_before_landmark heq.symm hplain
    exact ⟨gap, qualifier, gap', w, hgap, hne, hqualifier, hgap', by rw [List.append_assoc]; rfl⟩
  · rintro ⟨gap, qualifier, gap', rest, hgap, hne, hqualifier, hgap', rfl⟩
    exact ⟨gap, qualifier, gap', rest ++ q :: v, hgap, hne, hqualifier, hgap', by simp⟩

theorem indentOf_append_quote {u v : List Char} {q : Char} (hq : Text.isQuote q = true) :
    indentOf (u ++ q :: v) = indentOf u := by
  have htake : (u ++ q :: v).takeWhile Text.isBlank = u.takeWhile Text.isBlank := by
    rw [List.takeWhile_append]
    split
    next hlength => simp [Text.isBlank_of_isQuote hq, List.IsPrefix.eq_of_length (List.takeWhile_prefix _) hlength]
    next => rfl
  rw [indentOf, indentOf, htake]

theorem exists_lead (before : List (List Char)) : ∃ lead, ∀ (r : Run) l behind, r.lines = before ++ l :: behind →
    ∃ rest, r.joined.text = lead ++ (Text.trim (bodyOf l) ++ rest) := by
  cases before with
  | nil =>
    refine ⟨[], fun r l behind hlines => ?_⟩
    obtain ⟨rfl, rfl⟩ := List.cons.inj hlines
    exact ⟨_, rfl⟩
  | cons first before =>
    refine ⟨Text.trim (bodyOf first) ++ (before.flatMap fun raw => ' ' :: Text.trim (bodyOf raw)) ++ [' '], ?_⟩
    intro r l behind hlines
    obtain ⟨hfirst, hmore⟩ := List.cons.inj hlines
    exact ⟨behind.flatMap fun raw => ' ' :: Text.trim (bodyOf raw), by simp [Run.joined, hfirst, hmore]⟩

variable {w t : List Char} {b c : Char} {r r' : Run}

/-- A character that a quote stands before decides neither the indentation of a run nor whether it is a header. -/
theorem Run.Replaced.joined_alike (h : r.Replaced (w ++ b :: t) (w ++ c :: t) r') (hb : IsOrdinary b)
    (hc : IsOrdinary c) (hw : QuoteState.after w ≠ .outside) :
    r'.joined.line = r.joined.line ∧ r'.joined.indent = r.joined.indent ∧ (r'.joined.IsHeader ↔ r.joined.IsHeader) := by
  obtain ⟨u, q, v, rfl, hq⟩ := QuoteState.exists_quote hw
  obtain ⟨hnumber, before, behind, hlines, hlines'⟩ := h
  refine ⟨hnumber, ?_, ?_⟩
  · rw [Run.joined, Run.joined]
    cases before with
    | nil =>
      rw [(List.cons.inj hlines).1, (List.cons.inj hlines').1, List.append_assoc, List.append_assoc, List.cons_append,
        List.cons_append, indentOf_append_quote hq, indentOf_append_quote hq]
    | cons first before => rw [(List.cons.inj hlines).1, (List.cons.inj hlines').1]
  · obtain ⟨lead, hlead⟩ := exists_lead before
    have hheader : ∀ (r : Run) x, IsOrdinary x → r.lines = before ++ (u ++ q :: v ++ x :: t) :: behind →
        (r.joined.IsHeader ↔ IsTypeHeader (Text.trimStart (lead ++ Text.trimStart u))) := by
      intro r x hx hlines
      obtain ⟨rest, htext⟩ := hlead r _ _ hlines
      have hsolid := Text.isBlank_of_isQuote hq
      rw [bodyOf_append hx, List.append_assoc, List.cons_append, Text.trim_around_solid hsolid, List.append_assoc,
        List.cons_append, ← List.append_assoc] at htext
      rw [LogicalLine.IsHeader, htext, Text.trim_around_solid hsolid, isTypeHeader_append_quote hq]
    rw [hheader r b hb hlines, hheader r' c hc hlines']

end Headers

section Scanning

variable {earlier later : List LogicalLine} {l l' : LogicalLine}

theorem scanned_replace (hline : l'.line = l.line) (hindent : l'.indent = l.indent) (hheader : l'.IsHeader ↔ l.IsHeader) :
    (scanned (earlier ++ l' :: later)).typeBlock = (scanned (earlier ++ l :: later)).typeBlock ∧
    (scanned (earlier ++ l' :: later)).imports.filter (·.line ≠ l.line) =
      (scanned (earlier ++ l :: later)).imports.filter (·.line ≠ l.line) := by
  induction later using List.reverseRecOn with
  | nil =>
    have hnone : ∀ (m : LogicalLine) typeOnly, m.line = l.line → (m.imports typeOnly).filter (·.line ≠ l.line) = [] := by
      intro m typeOnly hm
      rw [List.filter_eq_nil_iff]
      intro i hi
      simp [(LogicalLine.mem_imports hi).1, hm]
    rw [scanned_concat, scanned_concat, Scan.step_eq, Scan.step_eq]
    simp only [hindent, hheader, List.filter_append, hnone l' _ hline, hnone l _ rfl, and_self]
  | append_singleton later m ih =>
    obtain ⟨hblock, himports⟩ := ih
    rw [← List.cons_append, ← List.cons_append, ← List.append_assoc, ← List.append_assoc, scanned_concat, scanned_concat,
      Scan.step_eq, Scan.step_eq]
    simp only [hblock, List.filter_append, himports, and_self]

end Scanning

section Joining

/-- Texts whose lines are the same but for one, and are joined in the same way: the runs are the same, and the two lines
stand in the same place of one run. -/
structure JoinedAlike (text text' l l' : List Char) (earlier later : List Run) (r r' : Run) : Prop where
  replaced : r.Replaced l l' r'
  lines : logicalLines text = (earlier ++ r :: later).map Run.joined
  lines' : logicalLines text' = (earlier ++ r' :: later).map Run.joined
  divided : Divided NeedsMore 1 (Text.lines text) (earlier ++ r :: later)
  divided' : Divided NeedsMore 1 (Text.lines text') (earlier ++ r' :: later)

variable {text text' w t : List Char} {above below : List (List Char)} {b c : Char}

theorem logicalLines_of_divided {runs : List Run} (h : Divided NeedsMore 1 (Text.lines text) runs) :
    logicalLines text = runs.map Run.joined := by
  obtain ⟨runs', hlines, hdivided⟩ := exists_runs text
  rw [hlines, hdivided.unique h]

/-- A character that the count leaves out may be any other one. -/
theorem exists_joinedAlike (hlines : Text.lines text = above ++ (w ++ b :: t) :: below)
    (hlines' : Text.lines text' = above ++ (w ++ c :: t) :: below) (hb : IsOrdinary b) (hc : IsOrdinary c)
    (hw : QuoteState.after w ≠ .outside) :
    ∃ earlier r r' later, JoinedAlike text text' (w ++ b :: t) (w ++ c :: t) earlier later r r' := by
  have hsolid : ∀ {x}, IsOrdinary x → ¬Text.IsGap (bodyOf (w ++ x :: t)) := by
    intro x hx hgap
    rw [bodyOf_append hx] at hgap
    exact absurd (hgap x (by simp)) (by simp [hx.solid])
  have halike : CountsAlike (w ++ b :: t) (w ++ c :: t) := by
    constructor
    · rw [bracketDelta_body hb, bracketDelta_body hc, if_neg hw, if_neg hw]
    · rw [continued_append hb, continued_append hc]
  obtain ⟨runs, -, hdivided⟩ := exists_runs text
  rw [hlines] at hdivided
  obtain ⟨earlier, r, r', later, rfl, hreplaced, hdivided'⟩ :=
    hdivided.replace halike.needsMore_iff (hsolid hb) (hsolid hc)
  rw [← hlines] at hdivided
  rw [← hlines'] at hdivided'
  exact ⟨earlier, r, r', later, hreplaced, logicalLines_of_divided hdivided, logicalLines_of_divided hdivided', hdivided,
    hdivided'⟩

theorem JoinedAlike.imports_eq {earlier later : List Run} {r r' : Run}
    (h : JoinedAlike text text' (w ++ b :: t) (w ++ c :: t) earlier later r r') (hb : IsOrdinary b) (hc : IsOrdinary c)
    (hw : QuoteState.after w ≠ .outside) : (scanned (logicalLines text')).imports.filter (·.line ≠ r.number) =
      (scanned (logicalLines text)).imports.filter (·.line ≠ r.number) := by
  obtain ⟨hnumber, hindent, hheader⟩ := h.replaced.joined_alike hb hc hw
  rw [h.lines, h.lines', List.map_append, List.map_append, List.map_cons, List.map_cons]
  exact (scanned_replace hnumber hindent hheader).2

end Joining

end ModuleGraph.Indent
