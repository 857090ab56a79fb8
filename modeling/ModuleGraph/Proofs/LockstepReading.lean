import ModuleGraph.Proofs.PatternReading
import ModuleGraph.Proofs.WidenedText

namespace ModuleGraph

open Text (byteLength Stops Widened IsFiller Uniform Solid)

section Places

variable {T T' : List Char}

variable (T T') in
/-- Corresponding places of a text and the same text with wider line ends. -/
def Aligned (a b : Cursor) : Prop :=
  ∃ u v rest rest', a = .after u rest ∧ b = .after v rest' ∧ T = u ++ rest ∧ T' = v ++ rest' ∧ Widened u v ∧
    Widened rest rest'

variable (T T') in
/-- Places in front of the same newline, of which the second has the filler of the newline behind it. -/
def Between (a b : Cursor) : Prop :=
  ∃ u v f rest rest', a = .after u ('\n' :: rest) ∧ b = .after (v ++ [f]) ('\n' :: rest') ∧ T = u ++ '\n' :: rest ∧
    T' = v ++ f :: '\n' :: rest' ∧ Widened u v ∧ IsFiller f ∧ Widened rest rest'

variable (T T') in
def Near (a b : Cursor) : Prop :=
  Aligned T T' a b ∨ Between T T' a b

def Slot.isOnOneLine : Slot → Bool
  | .source | .name => true
  | _ => false

variable (T T') in
/-- Parts that were read at corresponding places. The line end between a type mark and a clause may be cut. -/
inductive PartAlike : Part → Part → Prop
  | aligned {slot a a' b b'} : Aligned T T' a a' → Aligned T T' b b' →
      (slot.isOnOneLine = true → a'.textTo b' = a.textTo b) → PartAlike ⟨slot, a, b⟩ ⟨slot, a', b'⟩
  | typeMark {a a' b b'} : Near T T' a a' → Near T T' b b' → PartAlike ⟨.typeMark, a, b⟩ ⟨.typeMark, a', b'⟩
  | clause {a a' b b'} : Near T T' a a' → Aligned T T' b b' → PartAlike ⟨.clause, a, b⟩ ⟨.clause, a', b'⟩

variable (T T') in
structure SideBySide (P : Cursor → Cursor → Prop) (r r' : Reading) : Prop where
  place : P r.place r'.place
  parts : List.Forall₂ (PartAlike T T') r.parts r'.parts

variable (T T') in
abbrev InStep : Reading → Reading → Prop :=
  SideBySide T T' (Aligned T T')

theorem aligned_after {u v w w' rest rest' : List Char} (hT : T = u ++ (w ++ rest)) (hT' : T' = v ++ (w' ++ rest'))
    (hu : Widened u v) (hww : Widened w w') (hrest : Widened rest rest') :
    Aligned T T' (.after (u ++ w) rest) (.after (v ++ w') rest') := by
  refine ⟨_, _, _, _, rfl, rfl, ?_, ?_, hu.append hww, hrest⟩
  · rw [hT, List.append_assoc]
  · rw [hT', List.append_assoc]

/-- What is before and what is after corresponding places lets the same conditions hold. -/
theorem Aligned.holds_eq {a b : Cursor} (h : Aligned T T' a b) (anchor : Anchor) : anchor.holds b = anchor.holds a := by
  obtain ⟨u, v, rest, rest', rfl, rfl, -, -, hu, hrest⟩ := h
  cases anchor with
  | lineStart => simp [Anchor.holds, Cursor.after, hu.getLast?_eq]
  | textEnd => exact hrest.isEmpty_eq
  | wordEdge =>
    have hword : Uniform Text.isWord := Text.uniform_of_eq (by decide) (by decide)
    have hhead : isWordAt rest'.head? = isWordAt rest.head? := by
      cases hrest with
      | nil => rfl
      | cons => rfl
      | newline hf => exact hword.filler _ hf
    simp only [Anchor.holds, Cursor.after, hu.getLast?_eq, hhead]

theorem aligned_cases {u v rest rest' u₂ v₂ rest₂ rest₂' : List Char} (hT : T = u ++ rest) (hT' : T' = v ++ rest')
    (hu : Widened u v) (hT₂ : T = u₂ ++ rest₂) (hT₂' : T' = v₂ ++ rest₂') (hu₂ : Widened u₂ v₂) :
    (∃ w w', u₂ = u ++ w ∧ v₂ = v ++ w' ∧ rest = w ++ rest₂ ∧ rest' = w' ++ rest₂' ∧ Widened w w') ∨
      ∃ w w', u = u₂ ++ w ∧ v = v₂ ++ w' ∧ rest₂ = w ++ rest ∧ rest₂' = w' ++ rest' ∧ Widened w w' := by
  have key : ∀ {u v rest rest' u₂ v₂ rest₂ rest₂' w : List Char}, T' = v ++ rest' → Widened u v → T' = v₂ ++ rest₂' →
      Widened u₂ v₂ → u₂ = u ++ w → rest = w ++ rest₂ → ∃ w', v₂ = v ++ w' ∧ rest' = w' ++ rest₂' ∧ Widened w w' := by
    rintro u v rest rest' u₂ v₂ rest₂ rest₂' w hT' hu hT₂' hu₂ rfl rfl
    obtain ⟨v', w', rfl, hv', hw⟩ := hu₂.exists_append
    have heq : v ++ rest' = v' ++ (w' ++ rest₂') := by rw [← hT', hT₂', List.append_assoc]
    obtain ⟨rfl, rfl⟩ := List.append_inj heq (by rw [hu.length_eq, hv'.length_eq])
    exact ⟨w', rfl, rfl, hw⟩
  rcases List.append_eq_append_iff.mp (hT.symm.trans hT₂) with ⟨w, hw, hrest⟩ | ⟨w, hw, hrest⟩
  · obtain ⟨w', hv, hrest', hww⟩ := key hT' hu hT₂' hu₂ hw hrest
    exact .inl ⟨w, w', hw, hv, hrest, hrest', hww⟩
  · obtain ⟨w', hv, hrest', hww⟩ := key hT₂' hu₂ hT' hu hw hrest
    exact .inr ⟨w, w', hw, hv, hrest, hrest', hww⟩

theorem byteLength_pos_iff {w : List Char} : 0 < byteLength w ↔ w ≠ [] := by
  cases w with
  | nil => simp [byteLength]
  | cons c w =>
    have hsize := c.utf8Size_pos
    simp only [byteLength, ne_eq, reduceCtorEq, not_false_eq_true, iff_true]
    omega

variable (T T') in
def SameOffset (x y : Nat) : Prop :=
  ∃ a b, Aligned T T' a b ∧ x = a.offset ∧ y = b.offset

theorem SameOffset.lt_iff {x y x₂ y₂ : Nat} (h : SameOffset T T' x y) (h₂ : SameOffset T T' x₂ y₂) :
    y < y₂ ↔ x < x₂ := by
  obtain ⟨_, _, ⟨u, v, rest, rest', rfl, rfl, hT, hT', hu, -⟩, rfl, rfl⟩ := h
  obtain ⟨_, _, ⟨u₂, v₂, rest₂, rest₂', rfl, rfl, hT₂, hT₂', hu₂, -⟩, rfl, rfl⟩ := h₂
  rcases aligned_cases hT hT' hu hT₂ hT₂' hu₂ with ⟨w, w', rfl, rfl, -, -, hw⟩ | ⟨w, w', rfl, rfl, -, -, hw⟩
  · have hpos : 0 < byteLength w' ↔ 0 < byteLength w := by
      rw [byteLength_pos_iff, byteLength_pos_iff, ne_eq, ne_eq, hw.nil_iff]
    simp only [Cursor.after, Text.byteLength_append]
    omega
  · simp only [Cursor.after, Text.byteLength_append]
    omega

theorem Aligned.textTo {a b a₂ b₂ : Cursor} (h : Aligned T T' a b) (h₂ : Aligned T T' a₂ b₂) :
    Widened (a.textTo a₂) (b.textTo b₂) := by
  obtain ⟨u, v, rest, rest', rfl, rfl, hT, hT', hu, -⟩ := h
  obtain ⟨u₂, v₂, rest₂, rest₂', rfl, rfl, hT₂, hT₂', hu₂, -⟩ := h₂
  rcases aligned_cases hT hT' hu hT₂ hT₂' hu₂ with ⟨w, w', -, -, rfl, rfl, hw⟩ | ⟨w, w', -, -, rfl, rfl, -⟩
  · rwa [Cursor.textTo_after, Cursor.textTo_after]
  · rw [Cursor.textTo_of_le, Cursor.textTo_of_le]
    · exact .nil
    · simp
    · simp

theorem Near.trim_textTo {a b a₂ b₂ : Cursor} (h : Near T T' a b) (h₂ : Aligned T T' a₂ b₂) :
    Widened (Text.trim (a.textTo a₂)) (Text.trim (b.textTo b₂)) := by
  rcases h with h | ⟨u, v, f, rest, rest', rfl, rfl, hT, hT', hu, hf, hrest⟩
  · exact (h.textTo h₂).trim
  · obtain ⟨u₂, v₂, rest₂, rest₂', rfl, rfl, hT₂, hT₂', hu₂, -⟩ := h₂
    rcases aligned_cases hT hT' hu hT₂ hT₂' hu₂ with ⟨w, w', -, -, hw, hw', hww⟩ | ⟨w, w', -, -, rfl, rfl, -⟩
    · cases hww with
      | nil =>
        rw [List.nil_append] at hw hw'
        subst hw hw'
        rw [Cursor.textTo_of_le _ _ (Nat.le_refl _), Cursor.textTo_of_le _ _ (Nat.le_succ _)]
        exact Widened.nil.trim
      | cons hc => exact absurd (List.cons.inj hw).1.symm hc
      | @newline g s t _ hst =>
        have hrest₂' : '\n' :: rest' = '\n' :: t ++ rest₂' := (List.cons.inj hw').2
        have hgap : Text.IsGap ['\n'] := by simpa [Text.IsGap] using (by decide : Text.isBlank '\n' = true)
        have htrim : ∀ x, Text.trim ('\n' :: x) = Text.trim x := Text.trim_gap_append hgap
        rw [hw, hrest₂', Cursor.textTo_after, Cursor.textTo_after, htrim, htrim]
        exact hst.trim
    · rw [Cursor.textTo_of_le, Cursor.textTo_of_le]
      · exact Widened.nil.trim
      · simp only [List.length_append, List.length_cons]
        omega
      · simp

/-- What stands between a place and the end of a line, with the filler of the line end or without it. -/
theorem Between.textTo {a b a₂ b₂ : Cursor} (h₂ : Between T T' a₂ b₂) (h : Aligned T T' a b) :
    a.textTo a₂ = [] ∧ b.textTo b₂ = [] ∨
      ∃ f, IsFiller f ∧ ∃ w', Widened (a.textTo a₂) w' ∧ b.textTo b₂ = w' ++ [f] := by
  obtain ⟨u, v, rest, rest', rfl, rfl, hT, hT', hu, -⟩ := h
  obtain ⟨u₂, v₂, f, rest₂, rest₂', rfl, rfl, hT₂, hT₂', hu₂, hf, -⟩ := h₂
  rcases aligned_cases hT hT' hu hT₂ hT₂' hu₂ with ⟨w, w', -, -, rfl, rfl, hw⟩ | ⟨w, w', -, -, hw, hw', hww⟩
  · refine .inr ⟨f, hf, w', ?_, ?_⟩
    · rwa [Cursor.textTo_after]
    · rw [← List.singleton_append, ← List.append_assoc, Cursor.textTo_after]
  · cases hww with
    | nil =>
      rw [List.nil_append] at hw hw'
      subst hw hw'
      refine .inr ⟨f, hf, [], ?_, Cursor.textTo_after _ _ [f] _⟩
      rw [Cursor.textTo_of_le _ _ (Nat.le_refl _)]
      exact .nil
    | cons hc => exact absurd (List.cons.inj hw).1.symm hc
    | @newline g s t _ _ =>
      have hrest₂' : '\n' :: rest₂' = '\n' :: t ++ rest' := (List.cons.inj hw').2
      rw [hw, hrest₂']
      exact .inl ⟨Cursor.textTo_of_le _ _ (List.suffix_append _ rest).length_le,
        Cursor.textTo_of_le _ _ (List.suffix_append _ rest').length_le⟩

variable (T T') in
/-- Offsets that the same corresponding places come before, apart from those in front of a newline. -/
def SameBound (x y : Nat) : Prop :=
  ∀ a b, Aligned T T' a b → a.rest.head? ≠ some '\n' → (b.offset < y ↔ a.offset < x)

theorem Near.sameBound {a b : Cursor} (h : Near T T' a b) : SameBound T T' a.offset b.offset := by
  intro a₂ b₂ h₂ hhead
  rcases h with h | ⟨u, v, f, rest, rest', rfl, rfl, hT, hT', hu, hf, hrest⟩
  · exact SameOffset.lt_iff ⟨_, _, h₂, rfl, rfl⟩ ⟨_, _, h, rfl, rfl⟩
  · obtain ⟨u₂, v₂, rest₂, rest₂', rfl, rfl, hT₂, hT₂', hu₂, -⟩ := h₂
    have hnewline : '\n'.utf8Size = 1 := rfl
    rcases aligned_cases hT hT' hu hT₂ hT₂' hu₂ with ⟨w, w', rfl, rfl, hw, -, hww⟩ | ⟨w, w', rfl, rfl, hw, -, -⟩
    · -- the newline has to be passed, and its filler with it
      cases hww with
      | nil => exact absurd (congrArg List.head? hw).symm hhead
      | cons hc => exact absurd (List.cons.inj hw).1.symm hc
      | newline hg =>
        simp only [Cursor.after, Text.byteLength_append, byteLength, hg.utf8Size, hf.utf8Size, hnewline]
        omega
    · have hpos : 0 < byteLength w := by
        rw [byteLength_pos_iff]
        rintro rfl
        exact hhead (congrArg List.head? hw)
      simp only [Cursor.after, Text.byteLength_append, byteLength, hf.utf8Size]
      omega

end Places

namespace Pattern

/-- From readings in a relation a pattern leads to readings in another one, or ends both. A continuation that could
never be reached from the first reading is not reached after the pattern either. -/
def Lockstep (p : Pattern) (R S : Reading → Reading → Prop) : Prop :=
  ∀ (β γ : Type) (V : β → γ → Prop) (never : Reading → Option Unit) (next : Reading → Option β)
    (next' : Reading → Option γ) (r r' : Reading), R r r' → p.read never r = none →
    (∀ a b, S a b → never a = none → Option.Rel V (next a) (next' b)) → Option.Rel V (p.read next r) (p.read next' r')

section Rules

variable {p q : Pattern} {R S U : Reading → Reading → Prop}

theorem orElse_eq_none {β : Type} {a b : Option β} (h : (a.orElse fun _ => b) = none) : a = none ∧ b = none := by
  cases a with
  | none => exact ⟨rfl, h⟩
  | some x => cases h

theorem rel_orElse {β γ : Type} {V : β → γ → Prop} {a b : Option β} {a' b' : Option γ} (h : Option.Rel V a a')
    (h' : a = none → a' = none → Option.Rel V b b') :
    Option.Rel V (a.orElse fun _ => b) (a'.orElse fun _ => b') := by
  cases h with
  | none => exact h' rfl rfl
  | some hV => exact .some hV

theorem rel_ite {β γ : Type} {V : β → γ → Prop} {c : Prop} [Decidable c] {n : Option Unit} {a : Option β}
    {a' : Option γ} (hnever : (if c then n else none) = none) (h : n = none → Option.Rel V a a') :
    Option.Rel V (if c then a else none) (if c then a' else none) := by
  by_cases hc : c
  · rw [if_pos hc] at hnever ⊢
    rw [if_pos hc]
    exact h hnever
  · rw [if_neg hc, if_neg hc]
    exact .none

theorem lockstep_empty : Lockstep .empty R R :=
  fun _ _ _ _ _ _ r r' hR hnever h => h r r' hR hnever

theorem Lockstep.seq (hp : p.Lockstep R S) (hq : q.Lockstep S U) : (seq p q).Lockstep R U :=
  fun β γ V never next next' r r' hR hnever h =>
    hp β γ V (q.read never) (q.read next) (q.read next') r r' hR hnever fun a b hS hn =>
      hq β γ V never next next' a b hS hn h

theorem Lockstep.either (hp : p.Lockstep R S) (hq : q.Lockstep R S) : (either p q).Lockstep R S := by
  intro β γ V never next next' r r' hR hnever h
  obtain ⟨hp', hq'⟩ := orElse_eq_none hnever
  exact rel_orElse (hp β γ V never next next' r r' hR hp' h) fun _ _ => hq β γ V never next next' r r' hR hq' h

theorem Lockstep.optional (hp : p.Lockstep R R) : (optional p).Lockstep R R :=
  hp.either lockstep_empty

theorem Lockstep.weaken (hp : p.Lockstep R S) (hS : ∀ a b, S a b → U a b) : p.Lockstep R U :=
  fun β γ V never next next' r r' hR hnever h =>
    hp β γ V never next next' r r' hR hnever fun a b hab => h a b (hS a b hab)

theorem lockstep_inOrder {ps : List Pattern} (h : ∀ p ∈ ps, p.Lockstep R R) : (inOrder ps).Lockstep R R := by
  induction ps with
  | nil => exact lockstep_empty
  | cons p ps ih =>
    obtain ⟨hp, hps⟩ := List.forall_mem_cons.mp h
    exact hp.seq (ih hps)

theorem lockstep_oneOf {ps : List Pattern} (h : ∀ q ∈ p :: ps, q.Lockstep R S) : (oneOf p ps).Lockstep R S := by
  induction ps generalizing p with
  | nil => exact h p List.mem_cons_self
  | cons q ps ih =>
    obtain ⟨hp, hps⟩ := List.forall_mem_cons.mp h
    exact hp.either (ih hps)

end Rules

section Primitives

variable {T T' : List Char} {ok : Char → Bool} {β : Type} {next : Reading → Option β} {u w rest : List Char}
  {parts : List Part}

theorem read_one_after (c : Char) : (one ok).read next ⟨.after u (c :: rest), parts⟩ =
    if ok c then next ⟨.after (u ++ [c]) rest, parts⟩ else none := by
  rw [← Cursor.after_past u c rest (c :: rest)]
  rfl

theorem read_run_after (hw : ∀ c ∈ w, ok c = true) (hrest : Stops ok rest) :
    (run ok).read next ⟨.after u (w ++ rest), parts⟩ = next ⟨.after (u ++ w) rest, parts⟩ := by
  have hread : (run ok).read next ⟨.after u (w ++ rest), parts⟩ =
      next ⟨(Cursor.after u (w ++ rest)).skip (Text.runLength ok (w ++ rest)), parts⟩ := rfl
  rw [hread, Text.runLength_eq hw hrest, Cursor.skip_eq_beyond _ rfl, Cursor.after_beyond]

theorem read_run1_after (hne : w ≠ []) (hw : ∀ c ∈ w, ok c = true) (hrest : Stops ok rest) :
    (run1 ok).read next ⟨.after u (w ++ rest), parts⟩ = next ⟨.after (u ++ w) rest, parts⟩ := by
  obtain ⟨c, cs, rfl⟩ := List.exists_cons_of_ne_nil hne
  obtain ⟨hc, hcs⟩ := List.forall_mem_cons.mp hw
  rw [run1, read_seq, List.cons_append, read_one_after, if_pos hc, read_run_after hcs hrest, List.append_assoc,
    List.singleton_append]

theorem read_run1_of_stops (hrest : Stops ok rest) : (run1 ok).read next ⟨.after u rest, parts⟩ = none := by
  cases rest with
  | nil => rfl
  | cons c rest =>
    rw [run1, read_seq, read_one_after, if_neg]
    simp [Text.stops_cons.mp hrest]

theorem lockstep_anchor (a : Anchor) : (anchor a).Lockstep (InStep T T') (InStep T T') := by
  intro β γ V never next next' r r' hr hnever h
  rw [read] at hnever
  rw [read, read, hr.place.holds_eq a]
  exact rel_ite hnever fun hn => h r r' hr hn

theorem lockstep_one (hok : Solid ok) : (one ok).Lockstep (InStep T T') (InStep T T') := by
  rintro β γ V never next next' ⟨_, parts⟩ ⟨_, parts'⟩ ⟨⟨u, v, rest, rest', rfl, rfl, hT, hT', hu, hrest⟩, hparts⟩
    hnever h
  cases hrest with
  | nil => exact .none
  | @cons c s t hc hst =>
    rw [read_one_after] at hnever ⊢
    rw [read_one_after]
    exact rel_ite hnever fun hn => h _ _ ⟨aligned_after hT hT' hu (.cons hc .nil) hst, hparts⟩ hn
  | newline hf hst =>
    rw [read_one_after, read_one_after, hok.newline, hok.filler _ hf]
    exact .none

theorem lockstep_text {s : String} (hs : Text.IsPlainWord s.toList) :
    (text s).Lockstep (InStep T T') (InStep T T') := by
  rw [text]
  generalize s.toList = cs at hs
  induction cs with
  | nil => exact lockstep_empty
  | cons c cs ih =>
    obtain ⟨hc, hcs⟩ := List.forall_mem_cons.mp hs
    refine Lockstep.seq (lockstep_one ?_) (ih hcs)
    refine ⟨?_, fun f hf => ?_⟩
    · exact beq_eq_false_iff_ne.mpr (Ne.symm hc.1)
    · rw [beq_eq_false_iff_ne]
      rintro rfl
      exact hc.2 hf

theorem lockstep_run (hok : Uniform ok) : (run ok).Lockstep (InStep T T') (InStep T T') := by
  rintro β γ V never next next' ⟨_, parts⟩ ⟨_, parts'⟩ ⟨⟨u, v, rest, rest', rfl, rfl, hT, hT', hu, hrest⟩, hparts⟩
    hnever h
  obtain ⟨w, rest, rfl, hw, hstop, -⟩ := Text.exists_run ok rest
  obtain ⟨w', rest', rfl, hww, hrest⟩ := hrest.exists_append
  rw [read_run_after hw hstop] at hnever ⊢
  rw [read_run_after (hww.forall_mem hok hw) (hrest.stops hok hstop)]
  exact h _ _ ⟨aligned_after hT hT' hu hww hrest, hparts⟩ hnever

theorem read_run1_rel {β γ : Type} {V : β → γ → Prop} {next : Reading → Option β} {next' : Reading → Option γ}
    {v w' rest' : List Char} {parts' : List Part} (hww : Widened w w') (hw : ∀ c ∈ w, ok c = true)
    (hw' : ∀ c ∈ w', ok c = true) (hstop : Stops ok rest) (hstop' : Stops ok rest')
    (h : w ≠ [] → Option.Rel V (next ⟨.after (u ++ w) rest, parts⟩) (next' ⟨.after (v ++ w') rest', parts'⟩)) :
    Option.Rel V ((run1 ok).read next ⟨.after u (w ++ rest), parts⟩)
      ((run1 ok).read next' ⟨.after v (w' ++ rest'), parts'⟩) := by
  by_cases hne : w = []
  · have hne' := hww.nil_iff.mpr hne
    subst hne hne'
    rw [List.nil_append, List.nil_append, read_run1_of_stops hstop, read_run1_of_stops hstop']
    exact .none
  · have hne' : w' ≠ [] := fun heq => hne (hww.nil_iff.mp heq)
    rw [read_run1_after hne hw hstop, read_run1_after hne' hw' hstop']
    exact h hne

theorem lockstep_run1 (hok : Uniform ok) : (run1 ok).Lockstep (InStep T T') (InStep T T') := by
  rintro β γ V never next next' ⟨_, parts⟩ ⟨_, parts'⟩ ⟨⟨u, v, rest, rest', rfl, rfl, hT, hT', hu, hrest⟩, hparts⟩
    hnever h
  obtain ⟨w, rest, rfl, hw, hstop, -⟩ := Text.exists_run ok rest
  obtain ⟨w', rest', rfl, hww, hrest⟩ := hrest.exists_append
  refine read_run1_rel hww hw (hww.forall_mem hok hw) hstop (hrest.stops hok hstop) fun hne => ?_
  rw [read_run1_after hne hw hstop] at hnever
  exact h _ _ ⟨aligned_after hT hT' hu hww hrest, hparts⟩ hnever

theorem Lockstep.part {p : Pattern} (hp : p.Lockstep (InStep T T') (InStep T T')) (slot : Slot)
    (hslot : slot.isOnOneLine = false) : (part slot p).Lockstep (InStep T T') (InStep T T') := by
  intro β γ V never next next' r r' hr hnever h
  refine hp β γ V _ _ _ r r' hr hnever fun a b hab hn => h _ _ ⟨hab.place, ?_⟩ hn
  refine .cons (.aligned hr.place hab.place fun htrue => ?_) hab.parts
  exact absurd (hslot.symm.trans htrue) Bool.false_ne_true

theorem part_run1_alike {slot : Slot} {β γ : Type} {V : β → γ → Prop} {never : Reading → Option Unit}
    {next : Reading → Option β} {next' : Reading → Option γ} {v w' rest' : List Char} {parts' : List Part}
    (hT : T = u ++ (w ++ rest)) (hT' : T' = v ++ (w' ++ rest')) (hu : Widened u v) (hww : Widened w w')
    (hrest : Widened rest rest') (hparts : List.Forall₂ (PartAlike T T') parts parts') (hw : ∀ c ∈ w, ok c = true)
    (hnewline : '\n' ∉ w) (hstop : Stops ok rest) (hstop' : Stops ok rest')
    (hnever : (part slot (run1 ok)).read never ⟨.after u (w ++ rest), parts⟩ = none)
    (h : ∀ a b, InStep T T' a b → never a = none → Option.Rel V (next a) (next' b)) :
    Option.Rel V ((part slot (run1 ok)).read next ⟨.after u (w ++ rest), parts⟩)
      ((part slot (run1 ok)).read next' ⟨.after v (w' ++ rest'), parts'⟩) := by
  have heq : w' = w := hww.eq_of_not_mem hnewline
  have hfirst : Aligned T T' (.after u (w ++ rest)) (.after v (w' ++ rest')) :=
    ⟨_, _, _, _, rfl, rfl, hT, hT', hu, hww.append hrest⟩
  have hlast := aligned_after hT hT' hu hww hrest
  have htext : (Cursor.after v (w' ++ rest')).textTo (.after (v ++ w') rest') =
      (Cursor.after u (w ++ rest)).textTo (.after (u ++ w) rest) := by
    rw [Cursor.textTo_after, Cursor.textTo_after, heq]
  rw [read_part] at hnever ⊢
  rw [read_part]
  refine read_run1_rel hww hw (heq ▸ hw) hstop hstop' fun hne => ?_
  rw [read_run1_after hne hw hstop] at hnever
  exact h _ _ ⟨hlast, .cons (.aligned hfirst hlast fun _ => htext) hparts⟩ hnever

theorem lockstep_word (hok : Solid ok) (slot : Slot) : (part slot (run1 ok)).Lockstep (InStep T T') (InStep T T') := by
  rintro β γ V never next next' ⟨_, parts⟩ ⟨_, parts'⟩ ⟨⟨u, v, rest, rest', rfl, rfl, hT, hT', hu, hrest⟩, hparts⟩
    hnever h
  obtain ⟨w, rest, rfl, hw, hstop, -⟩ := Text.exists_run ok rest
  obtain ⟨w', rest', rfl, hww, hends⟩ := hrest.exists_append
  have hnewline : '\n' ∉ w := fun hmem => Bool.false_ne_true (hok.newline.symm.trans (hw _ hmem))
  exact part_run1_alike hT hT' hu hww hends hparts hw hnewline hstop (hends.stops hok.uniform hstop) hnever h

/-- A run that stops at newlines may take the filler of the line end that it stops at. -/
theorem lockstep_run_near (hok : ok '\n' = false) : (run ok).Lockstep (InStep T T') (SideBySide T T' (Near T T')) := by
  rintro β γ V never next next' ⟨_, parts⟩ ⟨_, parts'⟩ ⟨⟨u, v, rest, rest', rfl, rfl, hT, hT', hu, hrest⟩, hparts⟩
    hnever h
  obtain ⟨w, rest, rfl, hw, hstop, -⟩ := Text.exists_run ok rest
  obtain ⟨w', rest', rfl, hww, hrest⟩ := hrest.exists_append
  have hw' : ∀ c ∈ w', ok c = true := by
    have hnewline : '\n' ∉ w := fun hmem => Bool.false_ne_true (hok.symm.trans (hw _ hmem))
    rwa [hww.eq_of_not_mem hnewline]
  rw [read_run_after hw hstop] at hnever ⊢
  have hgo : ∀ b, Near T T' (.after (u ++ w) rest) b →
      Option.Rel V (next ⟨.after (u ++ w) rest, parts⟩) (next' ⟨b, parts'⟩) :=
    fun b hnear => h _ _ ⟨hnear, hparts⟩ hnever
  have hplace := aligned_after hT hT' hu hww hrest
  cases hrest with
  | nil =>
    rw [read_run_after hw' (Text.stops_nil ok)]
    exact hgo _ (.inl hplace)
  | cons hc hst =>
    rw [read_run_after hw' (Text.stops_cons.mpr (Text.stops_cons.mp hstop))]
    exact hgo _ (.inl hplace)
  | @newline f s t hf hst =>
    by_cases hokf : ok f = true
    · have hrun : ∀ c ∈ w' ++ [f], ok c = true := by simpa [or_imp, forall_and] using ⟨hw', hokf⟩
      have hread := @read_run_after ok γ next' v (w' ++ [f]) ('\n' :: t) parts' hrun (Text.stops_cons.mpr hok)
      rw [List.append_assoc, List.singleton_append] at hread
      rw [← List.append_assoc] at hT hT'
      rw [hread, ← List.append_assoc]
      exact hgo _ (.inr ⟨_, _, f, _, _, rfl, rfl, hT, hT', hu.append hww, hf, hst⟩)
    · rw [read_run_after hw' (Text.stops_cons.mpr (Bool.not_eq_true _ ▸ hokf))]
      exact hgo _ (.inl hplace)

/-- A pattern that cannot start with a newline takes the readings from almost corresponding places as well. -/
theorem Lockstep.near {p : Pattern} {S : Reading → Reading → Prop} (hp : p.Lockstep (InStep T T') S)
    (hnewline : ∀ before cs, p.Unread before ('\n' :: cs)) : p.Lockstep (SideBySide T T' (Near T T')) S := by
  rintro β γ V never next next' ⟨place, parts⟩ ⟨place', parts'⟩ ⟨haligned | hbetween, hparts⟩ hnever h
  · exact hp β γ V never next next' _ _ ⟨haligned, hparts⟩ hnever h
  · obtain ⟨u, v, f, rest, rest', rfl, rfl, -⟩ := hbetween
    rw [read_eq_none (hnewline _ _), read_eq_none (hnewline _ _)]
    exact .none

theorem unread_enclosed {ok' : Char → Bool} {slot : Slot} {c : Char} (hw : ∀ d ∈ w, ok d = true) (hc : ok c = false)
    (hc' : ok' c = false) (before : Option Char) :
    (inOrder [.part slot (run1 ok), .one ok']).Unread before (w ++ c :: rest) := by
  rintro s rest' hs ⟨x, y, rfl, hx, hy⟩
  obtain ⟨-, hall, hstop⟩ := reads_run1.mp hx
  obtain ⟨_, _, rfl, ⟨d, rfl, hd⟩, rfl⟩ := hy
  rw [List.append_assoc] at hs
  obtain ⟨-, heq⟩ := Text.run_unique hs hw (Text.stops_cons.mpr hc) hall hstop
  obtain ⟨rfl, -⟩ := List.cons.inj heq
  exact Bool.false_ne_true (hc'.symm.trans hd)

/-- A run that stops at newlines and what ends it: neither text has it where a line ends before it does. -/
theorem lockstep_enclosed {ok' : Char → Bool} (hok : ok '\n' = false) (hok' : Solid ok') (slot : Slot) :
    (inOrder [.part slot (run1 ok), .one ok']).Lockstep (InStep T T') (InStep T T') := by
  rintro β γ V never next next' ⟨_, parts⟩ ⟨_, parts'⟩ ⟨⟨u, v, rest, rest', rfl, rfl, hT, hT', hu, hrest⟩, hparts⟩
    hnever h
  obtain ⟨w, rest, rfl, hw, hstop, -⟩ := Text.exists_run ok rest
  obtain ⟨w', rest', rfl, hww, hends⟩ := hrest.exists_append
  have hnewline : '\n' ∉ w := fun hmem => Bool.false_ne_true (hok.symm.trans (hw _ hmem))
  have hw' : ∀ c ∈ w', ok c = true := by rwa [hww.eq_of_not_mem hnewline]
  have hstopped : Stops ok rest' →
      Option.Rel V ((inOrder [.part slot (run1 ok), .one ok']).read next ⟨.after u (w ++ rest), parts⟩)
        ((inOrder [.part slot (run1 ok), .one ok']).read next' ⟨.after v (w' ++ rest'), parts'⟩) := by
    intro hstop'
    have hend : (inOrder [.one ok']).Lockstep (InStep T T') (InStep T T') :=
      lockstep_inOrder (by simpa using lockstep_one hok')
    exact part_run1_alike hT hT' hu hww hends hparts hw hnewline hstop hstop' hnever fun a b hab hn =>
      hend β γ V never next next' a b hab hn h
  cases hends with
  | nil => exact hstopped (Text.stops_nil _)
  | cons hc hst => exact hstopped (Text.stops_cons.mpr (Text.stops_cons.mp hstop))
  | @newline f s t hf hst =>
    by_cases hokf : ok f = true
    · have hrun : ∀ c ∈ w' ++ [f], ok c = true := by simpa [or_imp, forall_and] using ⟨hw', hokf⟩
      have hunread := @unread_enclosed ok (w' ++ [f]) t ok' slot '\n' hrun hok hok'.newline
      rw [List.append_assoc, List.singleton_append] at hunread
      rw [read_eq_none (unread_enclosed hw hok hok'.newline _), read_eq_none (hunread _)]
      exact .none
    · exact hstopped (Text.stops_cons.mpr (Bool.not_eq_true _ ▸ hokf))

theorem read_further_after {next : Reading → Option β} {c : Char} (hc : ok c = true) :
    (one ok).read (fun r' => if (Cursor.after u (c :: rest)).offset < r'.place.offset then next r' else none)
        ⟨.after u (c :: rest), parts⟩ = next ⟨.after (u ++ [c]) rest, parts⟩ := by
  have hsize := c.utf8Size_pos
  have hlt : (Cursor.after u (c :: rest)).offset < (Cursor.after (u ++ [c]) rest).offset := by
    simp only [Cursor.after, Text.byteLength_append, byteLength]
    omega
  rw [read_one_after, if_pos hc, if_pos hlt]

theorem repeatReading_cons {c : Char} (hc : ok c = true) (fuel : Nat) :
    repeatReading (fun k => (one ok).read k) true next (fuel + 1) ⟨.after u (c :: rest), parts⟩ =
      (repeatReading (fun k => (one ok).read k) true next fuel ⟨.after (u ++ [c]) rest, parts⟩).orElse
        fun _ => next ⟨.after u (c :: rest), parts⟩ := by
  rw [repeatReading, if_pos rfl]
  exact congrArg (Option.orElse · _) (read_further_after hc)

theorem repeatReading_stops (hrest : Stops ok rest) (eager : Bool) (fuel : Nat) :
    repeatReading (fun k => (one ok).read k) eager next fuel ⟨.after u rest, parts⟩ = next ⟨.after u rest, parts⟩ := by
  refine repeatReading_of_none (fun next' => ?_) eager fuel
  cases rest with
  | nil => rfl
  | cons c rest => rw [read_one_after, if_neg (by simp [Text.stops_cons.mp hrest])]

theorem repeatReading_stopped (hok : Solid ok) {γ : Type} {V : β → γ → Prop} {never : Reading → Option Unit}
    {next : Reading → Option β} {next' : Reading → Option γ} {v rest' : List Char} {parts' : List Part}
    (hrest : Widened rest rest') (hstop : Stops ok rest)
    (h : never ⟨.after u rest, parts⟩ = none →
      Option.Rel V (next ⟨.after u rest, parts⟩) (next' ⟨.after v rest', parts'⟩)) (eager : Bool) {fuel fuel' : Nat}
    (hnever : repeatReading (fun k => (one ok).read k) eager never fuel ⟨.after u rest, parts⟩ = none) :
    Option.Rel V (repeatReading (fun k => (one ok).read k) eager next fuel ⟨.after u rest, parts⟩)
      (repeatReading (fun k => (one ok).read k) eager next' fuel' ⟨.after v rest', parts'⟩) := by
  rw [repeatReading_stops hstop] at hnever ⊢
  rw [repeatReading_stops (hrest.stops hok.uniform hstop)]
  exact h hnever

/-- An eager repetition of a class is as long in both texts, however much fuel is left over. -/
theorem repeatReading_lockstep (hok : Solid ok) {γ : Type} {V : β → γ → Prop} {never : Reading → Option Unit}
    {next : Reading → Option β} {next' : Reading → Option γ} {v rest' : List Char} {parts' : List Part}
    (hrest : Widened rest rest')
    (h : ∀ w s t, rest = w ++ s → rest' = w ++ t → Widened s t → (∀ c ∈ w, ok c = true) →
      never ⟨.after (u ++ w) s, parts⟩ = none →
      Option.Rel V (next ⟨.after (u ++ w) s, parts⟩) (next' ⟨.after (v ++ w) t, parts'⟩))
    {fuel fuel' : Nat} (hfuel : rest.length ≤ fuel) (hfuel' : rest'.length ≤ fuel')
    (hnever : repeatReading (fun k => (one ok).read k) true never fuel ⟨.after u rest, parts⟩ = none) :
    Option.Rel V (repeatReading (fun k => (one ok).read k) true next fuel ⟨.after u rest, parts⟩)
      (repeatReading (fun k => (one ok).read k) true next' fuel' ⟨.after v rest', parts'⟩) := by
  induction hrest generalizing u v fuel fuel' with
  | nil => exact repeatReading_stopped hok .nil (Text.stops_nil ok) (by simpa using h [] _ _ rfl rfl .nil) true hnever
  | @newline f s t hf hst ih =>
    refine repeatReading_stopped hok (.newline hf hst) (Text.stops_cons.mpr hok.newline) ?_ true hnever
    simpa using h [] _ _ rfl rfl (.newline hf hst)
  | @cons c s t hc hst ih =>
    have hhere : never ⟨.after u (c :: s), parts⟩ = none →
        Option.Rel V (next ⟨.after u (c :: s), parts⟩) (next' ⟨.after v (c :: t), parts'⟩) := by
      simpa using h [] _ _ rfl rfl (.cons hc hst)
    by_cases hokc : ok c = true
    · rw [List.length_cons] at hfuel hfuel'
      obtain ⟨fuel, rfl⟩ : ∃ n, fuel = n + 1 := ⟨fuel - 1, by omega⟩
      obtain ⟨fuel', rfl⟩ : ∃ n, fuel' = n + 1 := ⟨fuel' - 1, by omega⟩
      rw [repeatReading_cons hokc] at hnever ⊢
      rw [repeatReading_cons hokc]
      obtain ⟨hmore, hnone⟩ := orElse_eq_none hnever
      refine rel_orElse (ih ?_ (by omega) (by omega) hmore) fun _ _ => hhere hnone
      rintro w s' t' rfl rfl hst' hw
      have hcw := h (c :: w) s' t' rfl rfl hst' (List.forall_mem_cons.mpr ⟨hokc, hw⟩)
      rwa [List.append_cons u c w, List.append_cons v c w] at hcw
    · exact repeatReading_stopped hok (.cons hc hst) (Text.stops_cons.mpr (Bool.not_eq_true _ ▸ hokc)) hhere true hnever

theorem lockstep_eagerWord (hok : Solid ok) (slot : Slot) :
    (part slot (eagerRun1 ok)).Lockstep (InStep T T') (InStep T T') := by
  rintro β γ V never next next' ⟨_, parts⟩ ⟨_, parts'⟩ ⟨hplace, hparts⟩ hnever h
  obtain ⟨u, v, rest, rest', rfl, rfl, hT, hT', hu, hrest⟩ := id hplace
  rw [read_part, eagerRun1, read_seq] at hnever ⊢
  rw [read_part, read_seq]
  cases hrest with
  | nil => exact .none
  | newline hf hst =>
    rw [read_one_after, read_one_after, hok.newline, hok.filler _ hf]
    exact .none
  | @cons c s t hc hst =>
    rw [read_one_after] at hnever ⊢
    rw [read_one_after]
    refine rel_ite hnever fun hn => ?_
    refine repeatReading_lockstep hok hst ?_ (Nat.le_refl _) (Nat.le_refl _) hn
    rintro w x y rfl rfl hxy hw hnone
    have hnewline : '\n' ∉ w := fun hmem => Bool.false_ne_true (hok.newline.symm.trans (hw _ hmem))
    have hlast : Aligned T T' (.after (u ++ [c] ++ w) x) (.after (v ++ [c] ++ w) y) :=
      aligned_after (hT.trans (List.append_cons u c _)) (hT'.trans (List.append_cons v c _)) (hu.append (.cons hc .nil))
        (.refl hnewline) hxy
    have htext : ∀ z z' r : List Char, (Cursor.after z (c :: (w ++ r))).textTo (.after z' r) = c :: w :=
      fun z z' r => Cursor.textTo_after z z' (c :: w) r
    exact h _ _ ⟨hlast, .cons (.aligned hplace hlast fun _ => by rw [htext, htext]) hparts⟩ hnone

end Primitives

section SamePlace

def SamePlace (r r' : Reading) : Prop :=
  r.place = r'.place

theorem repeatReading_samePlace {p : Pattern} (hp : p.Lockstep SamePlace SamePlace) {β γ : Type} {V : β → γ → Prop}
    {never : Reading → Option Unit} {next : Reading → Option β} {next' : Reading → Option γ}
    (h : ∀ a b, SamePlace a b → never a = none → Option.Rel V (next a) (next' b)) (eager : Bool) (fuel : Nat)
    {r r' : Reading} (hr : SamePlace r r') (hnever : repeatReading (fun k => p.read k) eager never fuel r = none) :
    Option.Rel V (repeatReading (fun k => p.read k) eager next fuel r)
      (repeatReading (fun k => p.read k) eager next' fuel r') := by
  induction fuel generalizing r r' with
  | zero => exact h r r' hr hnever
  | succ fuel ih =>
    have hmore : ∀ a b, SamePlace a b →
        (if r.place.offset < a.place.offset then
          repeatReading (fun k => p.read k) eager never fuel a else none) = none →
        Option.Rel V
          (if r.place.offset < a.place.offset then
            repeatReading (fun k => p.read k) eager next fuel a else none)
          (if r'.place.offset < b.place.offset then
            repeatReading (fun k => p.read k) eager next' fuel b else none) := by
      intro a b hab hn
      have hr : r.place = r'.place := hr
      have hab' : a.place = b.place := hab
      rw [← hr, ← hab']
      split
      case isTrue hlt =>
        rw [if_pos hlt] at hn
        exact ih hab hn
      case isFalse => exact .none
    rw [repeatReading] at hnever ⊢
    rw [repeatReading]
    cases eager with
    | true =>
      obtain ⟨hstep, hhere⟩ := orElse_eq_none hnever
      exact rel_orElse (hp β γ V _ _ _ r r' hr hstep hmore) fun _ _ => h r r' hr hhere
    | false =>
      obtain ⟨hhere, hstep⟩ := orElse_eq_none hnever
      exact rel_orElse (h r r' hr hhere) fun _ _ => hp β γ V _ _ _ r r' hr hstep hmore

theorem lockstep_samePlace (p : Pattern) : p.Lockstep SamePlace SamePlace := by
  induction p with
  | empty => exact lockstep_empty
  | one ok =>
    rintro β γ V never next next' ⟨⟨offset, before, rest⟩, parts⟩ ⟨_, parts'⟩ rfl hnever h
    cases rest with
    | nil => exact .none
    | cons c cs =>
      rw [read] at hnever ⊢
      rw [read]
      exact rel_ite hnever fun hn => h _ _ rfl hn
  | anchor a =>
    rintro β γ V never next next' ⟨place, parts⟩ ⟨_, parts'⟩ rfl hnever h
    rw [read] at hnever ⊢
    rw [read]
    exact rel_ite hnever fun hn => h _ _ rfl hn
  | seq p q ihp ihq => exact ihp.seq ihq
  | either p q ihp ihq => exact ihp.either ihq
  | span ok spare =>
    rintro β γ V never next next' ⟨place, parts⟩ ⟨_, parts'⟩ rfl hnever h
    rw [read] at hnever ⊢
    rw [read]
    exact rel_ite hnever fun hn => h _ _ rfl hn
  | many eager p ih =>
    rintro β γ V never next next' ⟨place, parts⟩ ⟨_, parts'⟩ rfl hnever h
    exact repeatReading_samePlace ih h eager _ rfl hnever
  | part slot p ih =>
    intro β γ V never next next' r r' hr hnever h
    exact ih β γ V _ _ _ r r' hr hnever fun a b hab hn => h _ _ hab hn

theorem read_never (p : Pattern) (r : Reading) : p.read (fun _ => (none : Option Unit)) r = none := by
  rw [Option.eq_none_iff_forall_ne_some]
  intro x hx
  obtain ⟨s, rest, parts, -, -, hnext⟩ := read_sound p _ _ hx
  cases hnext

theorem repeatReading_never (p : Pattern) (eager : Bool) (fuel : Nat) (r : Reading) :
    repeatReading (fun k => p.read k) eager (fun _ => (none : Option Unit)) fuel r = none := by
  induction fuel generalizing r with
  | zero => rfl
  | succ fuel ih =>
    have hfurther : (fun r' => if r.place.offset < r'.place.offset then
        repeatReading (fun k => p.read k) eager (fun _ => none) fuel r' else none) = fun _ => (none : Option Unit) := by
      funext r'
      rw [ih, ite_self]
    rw [repeatReading, hfurther, read_never]
    cases eager <;> rfl

theorem rel_true_of_isSome {β γ : Type} {a : Option β} {b : Option γ} (ha : a.isSome) (hb : b.isSome) :
    Option.Rel (fun _ _ => True) a b := by
  obtain ⟨x, rfl⟩ := Option.isSome_iff_exists.mp ha
  obtain ⟨y, rfl⟩ := Option.isSome_iff_exists.mp hb
  exact .some trivial

theorem eq_none_of_rel {β γ : Type} {V : β → γ → Prop} {a : Option β} {b : Option γ} (h : Option.Rel V a b)
    (ha : a = none) : b = none := by
  subst ha
  cases h
  rfl

section Total

variable {p : Pattern} {β γ : Type} {next : Reading → Option β} {next' : Reading → Option γ}
  (hnext : ∀ r, (next r).isSome) (hnext' : ∀ r, (next' r).isSome)
include hnext hnext'

theorem read_rel_of_samePlace {r r' : Reading} (hr : SamePlace r r') :
    Option.Rel (fun _ _ => True) (p.read next r) (p.read next' r') :=
  lockstep_samePlace p β γ _ (fun _ => none) next next' r r' hr (read_never p r) fun a b _ _ =>
    rel_true_of_isSome (hnext a) (hnext' b)

theorem read_eq_none_of_samePlace {r r' : Reading} (hr : SamePlace r r') (h : p.read next r = none) :
    p.read next' r' = none :=
  eq_none_of_rel (read_rel_of_samePlace hnext hnext' hr) h

end Total

end SamePlace

section Matches

variable {T T' : List Char}

variable (T T') in
structure MatchAlike (alike : List Part → List Part → Prop) (m m' : Match) : Prop where
  start : SameOffset T T' m.start m'.start
  stop : SameBound T T' m.stop m'.stop
  parts : alike m.parts m'.parts

theorem forall₂_toList {β γ : Type} {V : β → γ → Prop} {a : Option β} {b : Option γ} (h : Option.Rel V a b) :
    List.Forall₂ V a.toList b.toList := by
  cases h with
  | none => exact .nil
  | some hV => exact .cons hV .nil

theorem matchAt_alike {p : Pattern} {alike : List Part → List Part → Prop}
    (hp : p.Lockstep (InStep T T') fun r r' => Near T T' r.place r'.place ∧ alike r.parts r'.parts) {a b : Cursor}
    (h : Aligned T T' a b) : Option.Rel (MatchAlike T T' alike) (p.matchAt a) (p.matchAt b) := by
  refine hp _ _ _ (fun _ => none) _ _ _ _ ⟨h, .nil⟩ (read_never p _) fun r r' hr _ => .some ⟨?_, ?_, hr.2⟩
  · exact ⟨a, b, h, rfl, rfl⟩
  · exact hr.1.sameBound

theorem matchAt_eq_none {p : Pattern} {u rest : List Char} (h : p.matchesIn (u ++ rest) = []) :
    p.matchAt (.after u rest) = none := by
  have key : ∀ w, p.matchesFrom w.getLast? (byteLength w) 0 (u ++ rest) = [] →
      p.matchAt (.after (w ++ u) rest) = none := by
    clear h
    induction u with
    | nil =>
      intro w hw
      rw [List.append_nil]
      cases rest with
      | nil =>
        rw [List.append_nil, matchesFrom, if_neg (Nat.not_lt_zero _), Option.toList_eq_nil_iff] at hw
        exact hw
      | cons c rest =>
        rw [List.nil_append, matchesFrom, if_neg (Nat.not_lt_zero _)] at hw
        cases hfound : p.matchAt ⟨byteLength w, w.getLast?, c :: rest⟩ with
        | none => exact hfound
        | some m => simp [hfound] at hw
    | cons c u ih =>
      intro w hw
      rw [List.cons_append, matchesFrom, if_neg (Nat.not_lt_zero _)] at hw
      cases hfound : p.matchAt ⟨byteLength w, w.getLast?, c :: (u ++ rest)⟩ with
      | none =>
        rw [hfound] at hw
        have hnext := ih (w ++ [c]) (by simpa [Text.byteLength_append, byteLength] using hw)
        rwa [List.append_assoc, List.singleton_append] at hnext
      | some m => simp [hfound] at hw
  exact key [] h

/-- A pattern that a line end has no part in finds the matches of a text in the text with wider line ends. -/
theorem matchesFrom_alike {p : Pattern} {alike : List Part → List Part → Prop}
    (hmatch : ∀ a b, Aligned T T' a b → Option.Rel (MatchAlike T T' alike) (p.matchAt a) (p.matchAt b))
    (hnewline : ∀ before cs, p.Unread before ('\n' :: cs))
    (hfiller : ∀ before f cs, IsFiller f → p.Unread before (f :: '\n' :: cs)) {u v rest rest' : List Char}
    (hT : T = u ++ rest) (hT' : T' = v ++ rest') (hu : Widened u v) (hrest : Widened rest rest') {x y : Nat}
    (hbound : SameBound T T' x y) :
    List.Forall₂ (MatchAlike T T' alike) (p.matchesFrom u.getLast? (byteLength u) x rest)
      (p.matchesFrom v.getLast? (byteLength v) y rest') := by
  induction hrest generalizing u v x y with
  | nil =>
    have hstopped : Aligned T T' (.after u []) (.after v []) := ⟨u, v, [], [], rfl, rfl, hT, hT', hu, .nil⟩
    have hlt : byteLength v < y ↔ byteLength u < x := hbound _ _ hstopped (by simp [Cursor.after])
    rw [matchesFrom, matchesFrom, if_congr hlt rfl rfl]
    split
    · exact .nil
    · exact forall₂_toList (hmatch _ _ hstopped)
  | @cons c s t hc hst ih =>
    have hstopped : Aligned T T' (.after u (c :: s)) (.after v (c :: t)) :=
      ⟨u, v, _, _, rfl, rfl, hT, hT', hu, .cons hc hst⟩
    have hlt : byteLength v < y ↔ byteLength u < x := hbound _ _ hstopped (by simpa [Cursor.after] using hc)
    have hnext : ∀ {x y : Nat}, SameBound T T' x y →
        List.Forall₂ (MatchAlike T T' alike) (p.matchesFrom (some c) (byteLength u + c.utf8Size) x s)
          (p.matchesFrom (some c) (byteLength v + c.utf8Size) y t) := by
      intro x y hbound
      have h := ih (hT.trans (List.append_cons u c s)) (hT'.trans (List.append_cons v c t)) (hu.append (.cons hc .nil))
        hbound
      simpa [Text.byteLength_append, byteLength] using h
    rw [matchesFrom, matchesFrom, if_congr hlt rfl rfl]
    by_cases hskip : byteLength u < x
    · rw [if_pos hskip, if_pos hskip]
      exact hnext hbound
    · rw [if_neg hskip, if_neg hskip]
      have hrel := hmatch _ _ hstopped
      rw [Cursor.after, Cursor.after] at hrel
      generalize p.matchAt ⟨byteLength u, u.getLast?, c :: s⟩ = found at hrel ⊢
      generalize p.matchAt ⟨byteLength v, v.getLast?, c :: t⟩ = found' at hrel ⊢
      cases hrel with
      | none => exact hnext hbound
      | some hm => exact .cons hm (hnext hm.stop)
  | @newline f s t hf hst ih =>
    have hleft := @matchesFrom_of_unread p u.getLast? (byteLength u) x ['\n'] s ?_
    have hright := @matchesFrom_of_unread p v.getLast? (byteLength v) y [f, '\n'] t ?_
    · have h := ih (hT.trans (List.append_cons u '\n' s)) (hT'.trans (by simp)) (hu.append (.newline hf .nil)) hbound
      rw [List.singleton_append] at hleft
      rw [List.cons_append, List.singleton_append] at hright
      rw [hleft, hright]
      simpa [Text.byteLength_append, List.getLast?_append] using h
    · intro u' v' heq hne
      rcases List.cons_eq_append_iff.mp heq with ⟨rfl, rfl⟩ | ⟨_, rfl, hmore⟩
      · exact hfiller _ f t hf
      · rcases List.cons_eq_append_iff.mp hmore with ⟨rfl, rfl⟩ | ⟨_, rfl, hend⟩
        · exact hnewline _ t
        · exact absurd (List.append_eq_nil_iff.mp hend.symm).2 hne
    · intro u' v' heq hne
      rcases List.cons_eq_append_iff.mp heq with ⟨rfl, rfl⟩ | ⟨_, rfl, hend⟩
      · exact hnewline _ s
      · exact absurd (List.append_eq_nil_iff.mp hend.symm).2 hne

theorem matchesIn_alike {p : Pattern} {alike : List Part → List Part → Prop} (hwide : Widened T T')
    (hmatch : ∀ a b, Aligned T T' a b → Option.Rel (MatchAlike T T' alike) (p.matchAt a) (p.matchAt b))
    (hnewline : ∀ before cs, p.Unread before ('\n' :: cs))
    (hfiller : ∀ before f cs, IsFiller f → p.Unread before (f :: '\n' :: cs)) :
    List.Forall₂ (MatchAlike T T' alike) (p.matchesIn T) (p.matchesIn T') := by
  refine @matchesFrom_alike T T' p alike hmatch hnewline hfiller [] [] T T' rfl rfl .nil hwide 0 0 ?_
  intro a b _ _
  exact iff_of_false (Nat.not_lt_zero _) (Nat.not_lt_zero _)

end Matches

end Pattern

end ModuleGraph
