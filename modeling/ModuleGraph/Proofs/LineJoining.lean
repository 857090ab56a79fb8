import ModuleGraph.Indent.LogicalLine
import ModuleGraph.Proofs.TextPieces
import Mathlib.Data.List.Induction

namespace ModuleGraph.Indent

def bodyOf (raw : List Char) : List Char :=
  (PhysicalLine.ofRaw raw).body

def solidPart (s : List Char) : List Char :=
  s.filter fun c => !Text.isBlank c

/-- Physical lines that follow each other, with the number of the first one. -/
structure Run where
  number : Nat
  first : List Char
  more : List (List Char)

namespace Run

def lines (r : Run) : List (List Char) :=
  r.first :: r.more

/-- The logical line of a run: its lines with a space between them, under the number and the indentation of the
first. -/
def joined (r : Run) : LogicalLine where
  line := r.number
  indent := indentOf r.first
  text := Text.trim (bodyOf r.first) ++ r.more.flatMap fun raw => ' ' :: Text.trim (bodyOf raw)

end Run

def depthOf (run : List (List Char)) : Int32 :=
  run.foldl (fun depth raw => depth + bracketDelta (bodyOf raw)) 0

/-- A run that needs another line. -/
def NeedsMore (run : List (List Char)) : Prop :=
  0 < depthOf run ∨ (run.getLast?.any fun raw => (PhysicalLine.ofRaw raw).continued) = true

instance (run : List (List Char)) : Decidable (NeedsMore run) :=
  inferInstanceAs (Decidable (_ ∨ _))

/-- Physical lines, the first of which has the given number, divided into runs. A run starts with a line that is not
blank; it ends at the first line after which it need not go on, or else with the text. -/
inductive Divided (needsMore : List (List Char) → Prop) : Nat → List (List Char) → List Run → Prop
  | nil {n : Nat} : Divided needsMore n [] []
  | blank {n : Nat} {raw : List Char} {rest : List (List Char)} {runs : List Run} : Text.IsGap (bodyOf raw) →
      Divided needsMore (n + 1) rest runs → Divided needsMore n (raw :: rest) runs
  | run {r : Run} {rest : List (List Char)} {runs : List Run} : ¬Text.IsGap (bodyOf r.first) →
      (∀ part, part <+: r.lines → part ≠ [] → part ≠ r.lines → needsMore part) → ¬needsMore r.lines ∨ rest = [] →
      Divided needsMore (r.number + r.lines.length) rest runs → Divided needsMore r.number (r.lines ++ rest) (r :: runs)

section Joining

def Run.extend (r : Run) (raw : List Char) : Run :=
  { r with more := r.more ++ [raw] }

theorem Run.lines_extend (r : Run) (raw : List Char) : (r.extend raw).lines = r.lines ++ [raw] := rfl

def Run.state (r : Run) : Joining :=
  ⟨depthOf r.lines, some r.joined⟩

theorem Run.joined_extend (r : Run) (raw : List Char) :
    (r.extend raw).joined = { r.joined with text := r.joined.text ++ ' ' :: Text.trim (bodyOf raw) } := by
  simp [joined, extend]

theorem depthOf_concat (run : List (List Char)) (raw : List Char) :
    depthOf (run ++ [raw]) = depthOf run + bracketDelta (bodyOf raw) := by
  rw [depthOf, List.foldl_concat, depthOf]

theorem needsMore_concat {run : List (List Char)} {raw : List Char} :
    NeedsMore (run ++ [raw]) ↔ 0 < depthOf run + bracketDelta (bodyOf raw) ∨ (PhysicalLine.ofRaw raw).continued = true := by
  simp [NeedsMore, depthOf_concat]

def Run.resume (r : Run) (n : Nat) (rest : List (List Char)) : List LogicalLine :=
  if NeedsMore r.lines then joinLines r.state n rest else r.joined :: joinLines {} n rest

theorem joinLines_extend (r : Run) (n : Nat) (raw : List Char) (rest : List (List Char)) :
    joinLines r.state n (raw :: rest) = (r.extend raw).resume (n + 1) rest := by
  simp only [joinLines, Run.state, LogicalLine.extend?, Run.resume, Run.lines_extend, needsMore_concat, depthOf_concat,
    Run.joined_extend, Bool.or_eq_true, decide_eq_true_eq, gt_iff_lt]
  rfl

theorem isGap_iff_trim {s : List Char} : Text.IsGap s ↔ Text.trim s = [] := by
  refine ⟨Text.trim_gap, fun h => ?_⟩
  obtain ⟨g, g', hs, hg, hg'⟩ := Text.exists_trim s
  rw [hs, h, List.append_nil]
  exact List.forall_mem_append.mpr ⟨hg, hg'⟩

theorem joinLines_blank {raw : List Char} (h : Text.IsGap (bodyOf raw)) (n : Nat) (rest : List (List Char)) :
    joinLines {} n (raw :: rest) = joinLines {} (n + 1) rest := by
  have htrim : Text.trim (PhysicalLine.ofRaw raw).body = [] := isGap_iff_trim.mp h
  simp [joinLines, LogicalLine.extend?, htrim]

theorem exists_body (raw : List Char) : ∃ slashes gap, raw = bodyOf raw ++ (slashes ++ gap) ∧
    (∀ c ∈ slashes, c = '\\') ∧ Text.IsGap gap := by
  obtain ⟨gap, hgap, hblank⟩ := Text.exists_dropEndWhile Text.isBlank raw
  obtain ⟨slashes, hslashes, hall⟩ := Text.exists_dropEndWhile (· == '\\') (Text.trimEnd raw)
  refine ⟨slashes, gap, ?_, fun c hc => beq_iff_eq.mp (hall c hc), hblank⟩
  rw [← List.append_assoc]
  exact hgap.trans (congrArg (· ++ gap) hslashes)

theorem indentOf_body {raw : List Char} (h : ¬Text.IsGap (bodyOf raw)) : indentOf (bodyOf raw) = indentOf raw := by
  obtain ⟨slashes, gap, hraw, -, -⟩ := exists_body raw
  have hsolid : ((bodyOf raw).takeWhile Text.isBlank).length ≠ (bodyOf raw).length := by
    intro hlength
    rw [List.IsPrefix.eq_of_length (List.takeWhile_prefix _) hlength |>.symm] at h
    exact h fun c hc => List.mem_takeWhile_imp hc
  have htake : raw.takeWhile Text.isBlank = (bodyOf raw).takeWhile Text.isBlank := by
    conv_lhs => rw [hraw, List.takeWhile_append, if_neg hsolid]
  rw [indentOf, indentOf, htake]

theorem joinLines_start {raw : List Char} (h : ¬Text.IsGap (bodyOf raw)) (n : Nat) (rest : List (List Char)) :
    joinLines {} n (raw :: rest) = (Run.mk n raw []).resume (n + 1) rest := by
  have htrim : (Text.trim (bodyOf raw)).isEmpty = false := by
    rw [List.isEmpty_eq_false_iff]
    exact fun hnil => h (isGap_iff_trim.mpr hnil)
  have hopen : LogicalLine.extend? none n (bodyOf raw) = some (Run.mk n raw []).joined := by
    simp only [LogicalLine.extend?, htrim, Run.joined, indentOf_body h, List.flatMap_nil, List.append_nil]
    rfl
  have hmore : NeedsMore [raw] ↔ 0 < bracketDelta (bodyOf raw) ∨ (PhysicalLine.ofRaw raw).continued = true := by
    simpa [depthOf] using @needsMore_concat [] raw
  unfold bodyOf at hopen
  simp only [joinLines, hopen, Run.resume, Run.lines, hmore, Run.state, depthOf, bodyOf, List.foldl_cons, List.foldl_nil,
    Bool.or_eq_true, decide_eq_true_eq, gt_iff_lt, Int32.zero_add]

/-- A run that started with a line that is not blank and went on before each of its further lines. -/
structure Run.Begun (r : Run) : Prop where
  solid : ¬Text.IsGap (bodyOf r.first)
  needsMore : ∀ part, part <+: r.lines → part ≠ [] → part ≠ r.lines → NeedsMore part

theorem Run.begun_single {n : Nat} {raw : List Char} (h : ¬Text.IsGap (bodyOf raw)) : (Run.mk n raw []).Begun := by
  refine ⟨h, fun part hpart hne hshort => ?_⟩
  rcases List.prefix_concat_iff.mp (show part <+: [] ++ [raw] from hpart) with heq | hnil
  · exact absurd heq hshort
  · exact absurd (List.prefix_nil.mp hnil) hne

theorem Run.Begun.extend {r : Run} (h : r.Begun) (hmore : NeedsMore r.lines) (raw : List Char) : (r.extend raw).Begun := by
  refine ⟨h.solid, fun part hpart hne hshort => ?_⟩
  rcases List.prefix_concat_iff.mp (show part <+: r.lines ++ [raw] from hpart) with heq | hpart
  · exact absurd heq hshort
  · by_cases hwhole : part = r.lines
    · exact hwhole ▸ hmore
    · exact h.needsMore part hpart hne hwhole

/-- The induction is on the lines that are still to be read, from a state between two runs and from one inside a
run. -/
theorem joinLines_divided (rest : List (List Char)) :
    (∀ n, ∃ runs, joinLines {} n rest = runs.map Run.joined ∧ Divided NeedsMore n rest runs) ∧
    ∀ r : Run, r.Begun → ∃ runs, r.resume (r.number + r.lines.length) rest = runs.map Run.joined ∧
      Divided NeedsMore r.number (r.lines ++ rest) runs := by
  induction rest with
  | nil =>
    refine ⟨fun n => ⟨[], rfl, .nil⟩, fun r hr => ⟨[r], ?_, .run hr.solid hr.needsMore (.inr rfl) .nil⟩⟩
    unfold Run.resume
    split <;> rfl
  | cons raw rest ih =>
    obtain ⟨hbetween, hinside⟩ := ih
    have hfirst : ∀ n, ∃ runs, joinLines {} n (raw :: rest) = runs.map Run.joined ∧
        Divided NeedsMore n (raw :: rest) runs := by
      intro n
      by_cases hblank : Text.IsGap (bodyOf raw)
      · obtain ⟨runs, hjoin, hdivided⟩ := hbetween (n + 1)
        exact ⟨runs, (joinLines_blank hblank n rest).trans hjoin, .blank hblank hdivided⟩
      · obtain ⟨runs, hjoin, hdivided⟩ := hinside ⟨n, raw, []⟩ (Run.begun_single hblank)
        exact ⟨runs, (joinLines_start hblank n rest).trans hjoin, hdivided⟩
    refine ⟨hfirst, fun r hr => ?_⟩
    by_cases hmore : NeedsMore r.lines
    · obtain ⟨runs, hjoin, hdivided⟩ := hinside (r.extend raw) (hr.extend hmore raw)
      refine ⟨runs, ?_, ?_⟩
      · rw [← hjoin, Run.resume, if_pos hmore, joinLines_extend, Run.lines_extend, List.length_append]
        rfl
      · rwa [Run.lines_extend, List.append_assoc] at hdivided
    · obtain ⟨runs, hjoin, hdivided⟩ := hfirst (r.number + r.lines.length)
      refine ⟨r :: runs, ?_, .run hr.solid hr.needsMore (.inl hmore) hdivided⟩
      rw [Run.resume, if_neg hmore, hjoin, List.map_cons]

end Joining

section Division

variable {needsMore : List (List Char) → Prop} {n : Nat} {physical : List (List Char)} {runs : List Run}

theorem Divided.number_bounds (h : Divided needsMore n physical runs) :
    ∀ r ∈ runs, n ≤ r.number ∧ r.number < n + physical.length := by
  induction h with
  | nil => exact fun r hr => absurd hr List.not_mem_nil
  | blank _ _ ih =>
    intro r hr
    have hbounds := ih r hr
    rw [List.length_cons]
    omega
  | @run r' rest _ _ _ _ _ ih =>
    have hlength : (r'.lines ++ rest).length = r'.more.length + 1 + rest.length := by
      rw [List.length_append, Run.lines, List.length_cons]
    refine List.forall_mem_cons.mpr ⟨by omega, fun r hr => ?_⟩
    have hbounds := ih r hr
    rw [List.length_append] at *
    omega

theorem Divided.numbers_increasing (h : Divided needsMore n physical runs) :
    (runs.map (·.number)).Pairwise (· < ·) := by
  induction h with
  | nil => exact .nil
  | blank _ _ ih => exact ih
  | run _ _ _ hrest ih =>
    rw [List.map_cons, List.pairwise_cons, List.forall_mem_map]
    refine ⟨fun r hr => ?_, ih⟩
    have hbounds := (hrest.number_bounds r hr).1
    rw [Run.lines, List.length_cons] at hbounds
    omega

theorem solidPart_append (u v : List Char) : solidPart (u ++ v) = solidPart u ++ solidPart v :=
  List.filter_append ..

theorem solidPart_gap {g : List Char} (h : Text.IsGap g) : solidPart g = [] :=
  List.filter_eq_nil_iff.mpr fun c hc => by simp [h c hc]

theorem solidPart_trim (s : List Char) : solidPart (Text.trim s) = solidPart s := by
  obtain ⟨g, g', hs, hg, hg'⟩ := Text.exists_trim s
  conv_rhs => rw [hs, solidPart_append, solidPart_append, solidPart_gap hg, solidPart_gap hg']
  simp

theorem Run.solidPart_joined (r : Run) : solidPart r.joined.text = solidPart (r.lines.flatMap bodyOf) := by
  have hmore : ∀ more : List (List Char),
      solidPart (more.flatMap fun raw => ' ' :: Text.trim (bodyOf raw)) = solidPart (more.flatMap bodyOf) := by
    intro more
    induction more with
    | nil => rfl
    | cons raw more ih =>
      have hspace : solidPart (' ' :: Text.trim (bodyOf raw)) = solidPart (Text.trim (bodyOf raw)) := by
        rw [← List.singleton_append, solidPart_append, solidPart_gap Text.isGap_space, List.nil_append]
      rw [List.flatMap_cons, List.flatMap_cons, solidPart_append, solidPart_append, hspace, solidPart_trim, ih]
  rw [joined, lines, List.flatMap_cons, solidPart_append, solidPart_append, solidPart_trim, hmore]

theorem Divided.solidPart_eq (h : Divided needsMore n physical runs) :
    solidPart (runs.flatMap fun r => r.joined.text) = solidPart (physical.flatMap bodyOf) := by
  induction h with
  | nil => rfl
  | blank hblank _ ih => rw [List.flatMap_cons, solidPart_append, solidPart_gap hblank, List.nil_append, ih]
  | @run r _ _ _ _ _ _ ih =>
    rw [List.flatMap_cons, List.flatMap_append, solidPart_append, solidPart_append, r.solidPart_joined, ih]

theorem Divided.congr {needsMore' : List (List Char) → Prop} (h : Divided needsMore n physical runs)
    (heq : ∀ part, part <:+: physical → (needsMore part ↔ needsMore' part)) : Divided needsMore' n physical runs := by
  induction h with
  | nil => exact .nil
  | @blank n raw rest runs hblank _ ih =>
    exact .blank hblank (ih fun part hpart => heq part (hpart.trans (List.suffix_cons raw rest).isInfix))
  | @run r rest runs hsolid hmore hends _ ih =>
    have hrun : r.lines <:+: r.lines ++ rest := (List.prefix_append _ _).isInfix
    have hrest : rest <:+: r.lines ++ rest := (List.suffix_append _ _).isInfix
    refine .run hsolid (fun part hpart hne hshort => ?_) (hends.imp_left fun hclosed => ?_)
      (ih fun part hpart => heq part (hpart.trans hrest))
    · exact (heq part (hpart.isInfix.trans hrun)).mp (hmore part hpart hne hshort)
    · rwa [← heq _ hrun]

theorem exists_runs (text : List Char) :
    ∃ runs, logicalLines text = runs.map Run.joined ∧ Divided NeedsMore 1 (Text.lines text) runs :=
  (joinLines_divided (Text.lines text)).1 1

theorem line_increasing (text : List Char) : ((logicalLines text).map (·.line)).Pairwise (· < ·) := by
  obtain ⟨runs, hlines, hdivided⟩ := exists_runs text
  rw [hlines, List.map_map]
  exact hdivided.numbers_increasing

theorem line_bounds (text : List Char) : ∀ l ∈ logicalLines text, 1 ≤ l.line ∧ l.line ≤ (Text.lines text).length := by
  obtain ⟨runs, hlines, hdivided⟩ := exists_runs text
  rw [hlines, List.forall_mem_map]
  intro r hr
  have hbounds := hdivided.number_bounds r hr
  simp only [Run.joined]
  omega

end Division

section Balance

def bracketBalance (s : List Char) : Int :=
  (s.countP fun c => c ∈ ['(', '[', '{'] : Nat) - (s.countP fun c => c ∈ [')', ']', '}'] : Nat)

theorem bracketBalance_append (u v : List Char) : bracketBalance (u ++ v) = bracketBalance u + bracketBalance v := by
  simp only [bracketBalance, List.countP_append]
  omega

theorem ofInt_bracketBalance_singleton (c : Char) : Int32.ofInt (bracketBalance [c]) = bracketStep c := by
  by_cases hopen : c = '(' ∨ c = '[' ∨ c = '{'
  · rcases hopen with rfl | rfl | rfl <;> rfl
  by_cases hclose : c = ')' ∨ c = ']' ∨ c = '}'
  · rcases hclose with rfl | rfl | rfl <;> rfl
  simp [bracketBalance, bracketStep, hopen, hclose]

theorem bracketDelta_eq {s : List Char} (h : ∀ c ∈ s, Text.isQuote c = false) :
    bracketDelta s = Int32.ofInt (bracketBalance s) := by
  induction s with
  | nil => rfl
  | cons c s ih =>
    obtain ⟨hc, hs⟩ := List.forall_mem_cons.mp h
    rw [← List.singleton_append, bracketBalance_append, Int32.ofInt_add, ofInt_bracketBalance_singleton, ← ih hs]
    simp [bracketDelta, bracketDeltaFrom, QuoteState.next, hc]

def isBracket (c : Char) : Bool :=
  c ∈ ['(', '[', '{', ')', ']', '}']

theorem bracketBalance_eq_zero {s : List Char} (h : ∀ c ∈ s, isBracket c = false) : bracketBalance s = 0 := by
  have hnone : ∀ brackets, brackets ⊆ ['(', '[', '{', ')', ']', '}'] → (s.countP fun c => c ∈ brackets) = 0 := by
    intro brackets hsub
    rw [List.countP_eq_zero]
    intro c hc hmem
    exact Bool.eq_false_iff.mp (h c hc) (decide_eq_true (hsub (of_decide_eq_true hmem)))
  rw [bracketBalance, hnone _ (by decide), hnone _ (by decide)]
  rfl

theorem bracketBalance_body (raw : List Char) : bracketBalance (bodyOf raw) = bracketBalance raw := by
  obtain ⟨slashes, gap, hraw, hslashes, hgap⟩ := exists_body raw
  have hblank : ∀ c, Text.isBlank c = true → isBracket c = false := by
    intro c hc
    rw [isBracket, decide_eq_false_iff_not]
    intro hmem
    have hsolid : ∀ d ∈ ['(', '[', '{', ')', ']', '}'], Text.isBlank d = false := by decide
    rw [hsolid c hmem] at hc
    exact Bool.false_ne_true hc
  conv_rhs => rw [hraw, bracketBalance_append, bracketBalance_append,
    bracketBalance_eq_zero fun c hc => (hslashes c hc ▸ rfl : isBracket c = false),
    bracketBalance_eq_zero fun c hc => hblank c (hgap c hc), Int.add_zero, Int.add_zero]

def IsPlainText (s : List Char) : Prop :=
  ∀ c ∈ s, Text.isQuote c = false ∧ c ≠ '\\'

instance (s : List Char) : Decidable (IsPlainText s) :=
  inferInstanceAs (Decidable (∀ c ∈ s, _))

theorem depthOf_eq {run : List (List Char)} (h : ∀ raw ∈ run, IsPlainText raw) :
    depthOf run = Int32.ofInt (bracketBalance run.flatten) := by
  induction run using List.reverseRecOn with
  | nil => rfl
  | append_singleton run raw ih =>
    rw [List.forall_mem_append, List.forall_mem_singleton] at h
    have hbody : ∀ c ∈ bodyOf raw, Text.isQuote c = false := by
      intro c hc
      obtain ⟨slashes, gap, heq, -, -⟩ := exists_body raw
      exact (h.2 c (heq ▸ List.mem_append_left _ hc)).1
    rw [depthOf_concat, ih h.1, bracketDelta_eq hbody, bracketBalance_body, List.flatten_append, List.flatten_singleton,
      bracketBalance_append, Int32.ofInt_add]

theorem needsMore_iff_of_plain {run : List (List Char)} (h : ∀ raw ∈ run, IsPlainText raw) :
    NeedsMore run ↔ 0 < Int32.ofInt (bracketBalance run.flatten) := by
  have hlast : (run.getLast?.any fun raw => (PhysicalLine.ofRaw raw).continued) = false := by
    cases hraw : run.getLast? with
    | none => rfl
    | some raw =>
      rw [Option.any_some, Bool.eq_false_iff]
      intro hend
      have hmem : '\\' ∈ Text.trimEnd raw := (List.isSuffixOf_iff_suffix.mp hend).subset (List.mem_singleton_self _)
      exact (h raw (List.mem_of_getLast? hraw) _ (Text.mem_of_mem_trimEnd hmem)).2 rfl
  rw [NeedsMore, hlast, depthOf_eq h]
  simp

theorem abs_bracketBalance_le (s : List Char) :
    -(s.countP isBracket : Int) ≤ bracketBalance s ∧ bracketBalance s ≤ s.countP isBracket := by
  have hle : ∀ brackets, brackets ⊆ ['(', '[', '{', ')', ']', '}'] →
      (s.countP fun c => c ∈ brackets) ≤ s.countP isBracket := by
    intro brackets hsub
    exact List.countP_mono_left fun c _ hc => decide_eq_true (hsub (of_decide_eq_true hc))
  have hopen := hle ['(', '[', '{'] (by decide)
  have hclose := hle [')', ']', '}'] (by decide)
  rw [bracketBalance]
  omega

/-- A count of fewer brackets than a depth has values does not wrap around. -/
theorem ofInt_bracketBalance_pos {s : List Char} (h : s.countP isBracket ≤ Int32.maxValue.toInt) :
    0 < Int32.ofInt (bracketBalance s) ↔ 0 < bracketBalance s := by
  obtain ⟨hlower, hupper⟩ := abs_bracketBalance_le s
  have hmax : Int32.maxValue.toInt = 2147483647 := rfl
  rw [Int32.lt_iff_toInt_lt, Int32.toInt_ofInt_of_le (by omega) (by omega)]
  rfl

end Balance

end ModuleGraph.Indent
