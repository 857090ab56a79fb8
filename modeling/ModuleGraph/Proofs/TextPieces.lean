import ModuleGraph.Text.Basic
import Mathlib.Data.List.Basic
import Mathlib.Data.List.Induction
import Mathlib.Data.List.TakeWhile

namespace ModuleGraph.Text

section Decidability

-- A statement about the characters of a text is decided along the text, never by a search through all characters.

variable {p : Char → Prop} [DecidablePred p]

instance (priority := 2000) decidableForallMem (s : List Char) : Decidable (∀ c ∈ s, p c) :=
  List.decidableBAll p s

instance (priority := 2000) decidableForallMemOption (o : Option Char) : Decidable (∀ c ∈ o, p c) :=
  Option.decidableForallMem o

instance (priority := 2000) decidableExistsMemOption (o : Option Char) : Decidable (∃ c ∈ o, p c) :=
  Option.decidableExistsMem o

end Decidability

section Characters

/-- An ASCII letter, a digit or an underscore. -/
def isAsciiWord (c : Char) : Bool :=
  c.isAlphanum || c == '_'

theorem toNat_of_isAsciiWord {c : Char} (h : isAsciiWord c = true) :
    48 ≤ c.toNat ∧ c.toNat ≤ 57 ∨ 65 ≤ c.toNat ∧ c.toNat ≤ 90 ∨ 97 ≤ c.toNat ∧ c.toNat ≤ 122 ∨ c.toNat = 95 := by
  rcases Bool.or_eq_true _ _ |>.mp h with h | h
  · change (decide ('A'.val ≤ c.val ∧ c.val ≤ 'Z'.val) || ('a'.val ≤ c.val && c.val ≤ 'z'.val) ||
      ('0'.val ≤ c.val && c.val ≤ '9'.val)) = true at h
    simp only [Bool.or_eq_true, Bool.and_eq_true, decide_eq_true_eq, UInt32.le_iff_toNat_le, Char.toNat_val] at h
    simp at h
    omega
  · rw [beq_iff_eq.mp h]
    decide

theorem isWord_of_isAsciiWord {c : Char} (h : isAsciiWord c = true) : isWord c = true := by
  have hlt : c.toNat < 0x80 := by
    have := toNat_of_isAsciiWord h
    omega
  rw [isWord, if_pos hlt]
  exact h

theorem isBlank_of_isAsciiWord {c : Char} (h : isAsciiWord c = true) : isBlank c = false := by
  have hrange := toNat_of_isAsciiWord h
  have hspace : c ≠ ' ' := by
    rintro rfl
    exact absurd h (by decide)
  have hlt : c.toNat < 0x80 := by omega
  have hcontrol : ¬ c.toNat ≤ 0xD := by omega
  simp [isBlank, hlt, hspace, hcontrol]

theorem isAsciiWord_of_isNameStart {c : Char} (h : isNameStart c = true) : isAsciiWord c = true := by
  rcases Bool.or_eq_true _ _ |>.mp h with h | h
  · simp [isAsciiWord, Char.isAlphanum, h]
  · rw [beq_iff_eq.mp h]
    decide

theorem isWord_of_isNameStart {c : Char} (h : isNameStart c = true) : isWord c = true :=
  isWord_of_isAsciiWord (isAsciiWord_of_isNameStart h)

theorem ne_of_class {ok : Char → Bool} {c d : Char} (hc : ok c = true) (hd : ok d = false) : c ≠ d := by
  rintro rfl
  rw [hd] at hc
  cases hc

theorem not_isQuote_of_class {ok : Char → Bool} {c : Char} (hc : ok c = true) (hsingle : ok '\'' = false)
    (hdouble : ok '"' = false) : isQuote c = false := by
  simp [isQuote, ne_of_class hc hsingle, ne_of_class hc hdouble]

theorem not_isQuote_of_isBlank {c : Char} (h : isBlank c = true) : isQuote c = false :=
  not_isQuote_of_class h (by decide) (by decide)

theorem isBlank_of_isQuote {q : Char} (h : isQuote q = true) : isBlank q = false := by
  rw [Bool.eq_false_iff]
  intro hblank
  rw [not_isQuote_of_isBlank hblank] at h
  cases h

theorem inRanges_disjoint {table table' : List (Nat × Nat)} {c : Char}
    (h : ∀ r ∈ table, ∀ r' ∈ table', r.2 < r'.1 ∨ r'.2 < r.1) (hc : inRanges table c = true) :
    inRanges table' c = false := by
  rw [inRanges, List.any_eq_true] at hc
  obtain ⟨r, hr, hin⟩ := hc
  rw [inRanges, List.any_eq_false]
  intro r' hr' hin'
  have hapart := h r hr r' hr'
  simp only [Bool.and_eq_true, decide_eq_true_eq] at hin hin'
  omega

theorem isBlank_of_isWord {c : Char} (h : isWord c = true) : isBlank c = false := by
  rw [isWord] at h
  split at h
  next => exact isBlank_of_isAsciiWord h
  next hlt =>
    rw [isBlank, if_neg hlt]
    exact inRanges_disjoint (by decide +kernel) h

theorem isBlank_of_isNameChar {c : Char} (h : isNameChar c = true) : isBlank c = false := by
  rcases Bool.or_eq_true _ _ |>.mp h with h | h
  · exact isBlank_of_isWord h
  · rw [beq_iff_eq.mp h]
    decide

end Characters

section Runs

theorem byteLength_append (u v : List Char) : byteLength (u ++ v) = byteLength u + byteLength v := by
  induction u with
  | nil => simp [byteLength]
  | cons c u ih => simp [byteLength, ih, Nat.add_assoc]

theorem byteLength_mono {u v : List Char} (h : u <+: v) : byteLength u ≤ byteLength v := by
  obtain ⟨w, rfl⟩ := h
  rw [byteLength_append]
  exact Nat.le_add_right _ _

theorem LineIndex.newlineEnds_append (offset : Nat) (u rest : List Char) :
    newlineEnds offset (u ++ rest) = newlineEnds offset u ++ newlineEnds (offset + byteLength u) rest := by
  induction u generalizing offset with
  | nil => rfl
  | cons c u ih =>
    rw [List.cons_append, newlineEnds, newlineEnds, byteLength]
    by_cases hc : c = '\n'
    · subst hc
      rw [if_pos rfl, if_pos rfl, ih, List.cons_append, Nat.add_assoc]
      rfl
    · rw [if_neg hc, if_neg hc, ih, Nat.add_assoc]

theorem LineIndex.length_newlineEnds (offset : Nat) (u : List Char) :
    (newlineEnds offset u).length = u.count '\n' := by
  induction u generalizing offset with
  | nil => rfl
  | cons c u ih =>
    rw [newlineEnds]
    by_cases hc : c = '\n'
    · rw [if_pos hc, List.length_cons, ih, hc, List.count_cons_self]
    · rw [if_neg hc, ih, List.count_cons_of_ne hc]

theorem LineIndex.lt_of_mem_newlineEnds {offset n : Nat} {u : List Char} (h : n ∈ newlineEnds offset u) :
    offset < n ∧ n ≤ offset + byteLength u := by
  induction u generalizing offset with
  | nil => exact absurd h List.not_mem_nil
  | cons c u ih =>
    have hsize := c.utf8Size_pos
    rw [newlineEnds] at h
    rw [byteLength]
    by_cases hc : c = '\n'
    · have hone : c.utf8Size = 1 := hc ▸ rfl
      rw [if_pos hc, List.mem_cons] at h
      rcases h with rfl | h
      · omega
      · have := ih h
        omega
    · rw [if_neg hc] at h
      have := ih h
      omega

theorem lineAt_append (u rest : List Char) : lineAt (u ++ rest) (byteLength u) = u.count '\n' + 1 := by
  -- no line that starts inside `u` starts behind its end, and all later ones do
  have hbefore : ∀ n ∈ 0 :: LineIndex.newlineEnds 0 u, decide (byteLength u < n) = false := by
    intro n hn
    rcases List.mem_cons.mp hn with rfl | hn
    · simp
    · have := (LineIndex.lt_of_mem_newlineEnds hn).2
      simpa using this
  have hafter : (LineIndex.newlineEnds (0 + byteLength u) rest).findIdx (byteLength u < ·) = 0 := by
    cases hends : LineIndex.newlineEnds (0 + byteLength u) rest with
    | nil => rfl
    | cons n ns =>
      have hn : n ∈ LineIndex.newlineEnds (0 + byteLength u) rest := hends ▸ List.mem_cons_self
      have hlt : byteLength u < n := by
        have := (LineIndex.lt_of_mem_newlineEnds hn).1
        omega
      simp [List.findIdx_cons, hlt]
  rw [lineAt, LineIndex.lineOf, LineIndex.ofText, LineIndex.newlineEnds_append, ← List.cons_append,
    List.findIdx_append, if_neg, hafter, List.length_cons, LineIndex.length_newlineEnds, Nat.zero_add]
  rintro hlt
  obtain ⟨n, hn, hbehind⟩ := List.findIdx_lt_length.mp hlt
  rw [hbefore n hn] at hbehind
  exact absurd hbehind Bool.false_ne_true

theorem append_inj_of_byteLength {u v u' v' : List Char} (h : u ++ v = u' ++ v')
    (hlength : byteLength u = byteLength u') : u = u' ∧ v = v' := by
  induction u generalizing u' with
  | nil =>
    cases u' with
    | nil => exact ⟨rfl, h⟩
    | cons c u' =>
      have hsize := c.utf8Size_pos
      simp only [byteLength] at hlength
      omega
  | cons c u ih =>
    cases u' with
    | nil =>
      have hsize := c.utf8Size_pos
      simp only [byteLength] at hlength
      omega
    | cons c' u' =>
      obtain ⟨rfl, htail⟩ := List.cons.inj h
      obtain ⟨rfl, rfl⟩ := ih htail (Nat.add_left_cancel hlength)
      exact ⟨rfl, rfl⟩

def Stops (ok : Char → Bool) (rest : List Char) : Prop :=
  ∀ c ∈ rest.head?, ok c = false

theorem stops_cons {ok : Char → Bool} {c : Char} {cs : List Char} : Stops ok (c :: cs) ↔ ok c = false := by
  simp [Stops]

theorem stops_nil (ok : Char → Bool) : Stops ok [] := by
  simp [Stops]

theorem stops_quote {q : Char} (hq : isQuote q = true) (v : List Char) : Stops (fun c => !isQuote c) (q :: v) :=
  stops_cons.mpr (by simp [hq])

theorem Stops.of_append {ok : Char → Bool} {u v : List Char} (h : Stops ok (u ++ v)) : Stops ok u := by
  cases u with
  | nil => exact stops_nil ok
  | cons c u => exact stops_cons.mpr (stops_cons.mp h)

theorem runLength_eq {ok : Char → Bool} {w rest : List Char} (hw : ∀ c ∈ w, ok c = true) (hrest : Stops ok rest) :
    runLength ok (w ++ rest) = w.length := by
  induction w with
  | nil =>
    cases rest with
    | nil => rfl
    | cons c cs => simp [runLength, stops_cons.mp hrest]
  | cons c w ih =>
    obtain ⟨hc, hw⟩ := List.forall_mem_cons.mp hw
    simp [runLength, hc, ih hw]

theorem dropWhile_eq_self {ok : Char → Bool} {s : List Char} (h : ∀ c ∈ s, ok c = false) : s.dropWhile ok = s := by
  cases s with
  | nil => rfl
  | cons c s => simp [h c List.mem_cons_self]

theorem takeWhile_eq {ok : Char → Bool} {w rest : List Char} (hw : ∀ c ∈ w, ok c = true) (hrest : Stops ok rest) :
    (w ++ rest).takeWhile ok = w := by
  have hnil : rest.takeWhile ok = [] := by
    cases rest with
    | nil => rfl
    | cons c cs => simp [stops_cons.mp hrest]
  rw [List.takeWhile_append_of_pos hw, hnil, List.append_nil]

theorem run_unique {ok : Char → Bool} {w rest w' rest' : List Char} (h : w ++ rest = w' ++ rest')
    (hw : ∀ c ∈ w, ok c = true) (hrest : Stops ok rest) (hw' : ∀ c ∈ w', ok c = true) (hrest' : Stops ok rest') :
    w = w' ∧ rest = rest' := by
  have heq : w = w' := by rw [← takeWhile_eq hw hrest, h, takeWhile_eq hw' hrest']
  subst heq
  exact ⟨rfl, List.append_cancel_left h⟩

theorem exists_run (ok : Char → Bool) (s : List Char) :
    ∃ w rest, s = w ++ rest ∧ (∀ c ∈ w, ok c = true) ∧ Stops ok rest ∧ runLength ok s = w.length := by
  have hsplit : s = s.takeWhile ok ++ s.dropWhile ok := List.takeWhile_append_dropWhile.symm
  have hok : ∀ c ∈ s.takeWhile ok, ok c = true := fun c hc => List.mem_takeWhile_imp hc
  have hstop : Stops ok (s.dropWhile ok) := by
    intro c hc
    have h := List.head?_dropWhile_not ok s
    rw [Option.mem_def.mp hc] at h
    exact h
  refine ⟨_, _, hsplit, hok, hstop, ?_⟩
  have hlen := runLength_eq hok hstop
  rwa [← hsplit] at hlen

theorem startsWith_iff {α : Type} [BEq α] [LawfulBEq α] {s beginning : List α} : startsWith s beginning = true ↔ beginning <+: s :=
  List.isPrefixOf_iff_prefix

theorem after?_eq_some {p s t : List Char} : after? p s = some t ↔ s = p ++ t := by
  induction p generalizing s with
  | nil => simp [after?]
  | cons d p ih =>
    cases s with
    | nil => simp [after?]
    | cons c s =>
      rw [after?]
      split
      · rename_i h
        simp [ih, h]
      · rename_i h
        simp [Ne.symm h]

theorem after?_eq_none {p s : List Char} : after? p s = none ↔ ¬p <+: s := by
  rw [Option.eq_none_iff_forall_ne_some]
  constructor
  · rintro h ⟨t, ht⟩
    exact h t (after?_eq_some.mpr ht.symm)
  · intro h t ht
    exact h ⟨t, (after?_eq_some.mp ht).symm⟩

end Runs

section Landmarks

variable {u v x y : List Char} {d : Char}

theorem exists_before_landmark (h : x ++ y = u ++ d :: v) (hx : d ∉ x) : ∃ w, u = x ++ w ∧ y = w ++ d :: v := by
  rcases List.append_eq_append_iff.mp h with ⟨w, hu, hy⟩ | ⟨w, rfl, hv⟩
  · exact ⟨w, hu, hy⟩
  · cases w with
    | nil => exact ⟨[], by simp, by simpa using hv.symm⟩
    | cons c w =>
      obtain ⟨rfl, -⟩ := List.cons.inj hv
      exact absurd (by simp) hx

theorem exists_after_landmark (h : x ++ y = u ++ d :: v) (hy : d ∉ y) : ∃ w, x = u ++ d :: w ∧ v = w ++ y := by
  rcases List.append_eq_append_iff.mp h with ⟨w, rfl, rfl⟩ | ⟨w, rfl, hv⟩
  · exact absurd (by simp) hy
  · cases w with
    | nil =>
      rw [List.nil_append] at hv
      exact absurd (by simp [← hv]) hy
    | cons c w =>
      obtain ⟨rfl, rfl⟩ := List.cons.inj hv
      exact ⟨w, rfl, rfl⟩

end Landmarks

section Pieces

variable {α : Type} {sep : α → Bool}

theorem exists_pieces (sep : α → Bool) (s : List α) : ∃ w ws, pieces sep s = w :: ws := by
  cases s with
  | nil => exact ⟨_, _, rfl⟩
  | cons c cs =>
    rw [pieces]
    split
    · exact ⟨_, _, rfl⟩
    · split
      · exact ⟨_, _, rfl⟩
      · exact ⟨_, _, rfl⟩

theorem pieces_sep {c : α} (hc : sep c = true) (cs : List α) : pieces sep (c :: cs) = [] :: pieces sep cs := by
  rw [pieces, if_pos hc]

theorem pieces_cons {c : α} {cs w : List α} {ws : List (List α)} (hc : sep c = false)
    (h : pieces sep cs = w :: ws) : pieces sep (c :: cs) = (c :: w) :: ws := by
  rw [pieces, if_neg (by simp [hc]), h]

theorem pieces_append_sep {c : α} (hc : sep c = true) (u v : List α) :
    pieces sep (u ++ c :: v) = pieces sep u ++ pieces sep v := by
  induction u with
  | nil => exact pieces_sep hc v
  | cons d u ih =>
    by_cases hd : sep d = true
    · rw [List.cons_append, pieces_sep hd, pieces_sep hd, ih, List.cons_append]
    · rw [Bool.not_eq_true] at hd
      obtain ⟨w, ws, hu⟩ := exists_pieces sep u
      rw [List.cons_append, pieces_cons hd hu, pieces_cons hd (by rw [ih, hu, List.cons_append]), List.cons_append]

theorem pieces_of_forall {s : List α} (h : ∀ c ∈ s, sep c = false) : pieces sep s = [s] := by
  induction s with
  | nil => rfl
  | cons c s ih =>
    obtain ⟨hc, hs⟩ := List.forall_mem_cons.mp h
    exact pieces_cons hc (ih hs)

theorem forall_beq_of_not_mem [BEq α] [LawfulBEq α] {x : α} {s : List α} (h : x ∉ s) : ∀ c ∈ s, (c == x) = false := by
  intro c hc
  rw [beq_eq_false_iff_ne]
  rintro rfl
  exact h hc

theorem pieces_flatMap {c : α} (hc : sep c = true) {x : List α} {xs : List (List α)}
    (hx : ∀ d ∈ x, sep d = false) (hxs : ∀ y ∈ xs, ∀ d ∈ y, sep d = false) :
    pieces sep (x ++ xs.flatMap (c :: ·)) = x :: xs := by
  induction xs generalizing x with
  | nil => rw [List.flatMap_nil, List.append_nil, pieces_of_forall hx]
  | cons y xs ih =>
    obtain ⟨hy, hxs⟩ := List.forall_mem_cons.mp hxs
    rw [List.flatMap_cons, List.cons_append, pieces_append_sep hc, pieces_of_forall hx, ih hy hxs]
    rfl

theorem eq_flatMap_pieces {c : Char} {s w : List Char} {ws : List (List Char)} (h : pieces (· == c) s = w :: ws) :
    s = w ++ ws.flatMap (c :: ·) := by
  induction s generalizing w ws with
  | nil =>
    obtain ⟨rfl, rfl⟩ := List.cons.inj h
    rfl
  | cons d s ih =>
    obtain ⟨v, vs, hs⟩ := exists_pieces (· == c) s
    by_cases hd : (d == c) = true
    · rw [@pieces_sep _ (· == c) d hd, hs] at h
      obtain ⟨rfl, rfl⟩ := List.cons.inj h
      rw [beq_iff_eq.mp hd, ih hs]
      rfl
    · rw [Bool.not_eq_true] at hd
      rw [@pieces_cons _ (· == c) d s v vs hd hs] at h
      obtain ⟨rfl, rfl⟩ := List.cons.inj h
      rw [ih hs]
      rfl

theorem mem_pieces {s w : List α} (hw : w ∈ pieces sep s) : ∀ c ∈ w, c ∈ s ∧ sep c = false := by
  induction s generalizing w with
  | nil =>
    rw [List.mem_singleton.mp hw]
    simp
  | cons d s ih =>
    by_cases hd : sep d = true
    · rw [pieces_sep hd] at hw
      rcases List.mem_cons.mp hw with rfl | hw
      · simp
      · exact fun c hc => ⟨List.mem_cons_of_mem d (ih hw c hc).1, (ih hw c hc).2⟩
    · rw [Bool.not_eq_true] at hd
      obtain ⟨v, vs, hs⟩ := exists_pieces sep s
      rw [hs] at ih
      rw [pieces_cons hd hs] at hw
      rcases List.mem_cons.mp hw with rfl | hw
      · refine List.forall_mem_cons.mpr ⟨⟨List.mem_cons_self, hd⟩, fun c hc => ?_⟩
        have hv := ih List.mem_cons_self c hc
        exact ⟨List.mem_cons_of_mem d hv.1, hv.2⟩
      · intro c hc
        have hv := ih (List.mem_cons_of_mem v hw) c hc
        exact ⟨List.mem_cons_of_mem d hv.1, hv.2⟩

/-- What stands behind the last separator may be replaced by any text without separators. -/
theorem exists_last_piece (sep : α → Bool) (s : List α) : ∃ start before last, s = start ++ last ∧
    pieces sep s = before ++ [last] ∧ ∀ x, (∀ c ∈ x, sep c = false) → pieces sep (start ++ x) = before ++ [x] := by
  induction s using List.reverseRecOn with
  | nil => exact ⟨[], [], [], rfl, rfl, fun x hx => pieces_of_forall hx⟩
  | append_singleton s c ih =>
    by_cases hc : sep c = true
    · refine ⟨s ++ [c], pieces sep s, [], (List.append_nil _).symm, pieces_append_sep hc s [], fun x hx => ?_⟩
      rw [List.append_assoc, List.singleton_append, pieces_append_sep hc, pieces_of_forall hx]
    · obtain ⟨start, before, last, hs, hpieces, hx⟩ := ih
      have hlast : ∀ d ∈ last ++ [c], sep d = false := by
        rw [List.forall_mem_append]
        refine ⟨fun d hd => (mem_pieces (hpieces ▸ List.mem_concat_self) d hd).2, ?_⟩
        simpa using hc
      exact ⟨start, before, last ++ [c], by rw [hs, List.append_assoc], by rw [hs, List.append_assoc, hx _ hlast], hx⟩

theorem length_pieces (c : Char) (s : List Char) : (pieces (· == c) s).length = s.count c + 1 := by
  induction s with
  | nil => rfl
  | cons d s ih =>
    by_cases hd : (d == c) = true
    · rw [@pieces_sep _ (· == c) d hd, List.length_cons, ih, beq_iff_eq.mp hd, List.count_cons_self]
    · obtain ⟨w, ws, hs⟩ := exists_pieces (· == c) s
      rw [Bool.not_eq_true] at hd
      rw [hs] at ih
      rw [@pieces_cons _ (· == c) d s w ws hd hs, List.count_cons_of_ne (beq_eq_false_iff_ne.mp hd), ← ih]
      rfl

theorem lines_append_newline (s t : List Char) :
    lines (s ++ '\n' :: t) = (pieces (· == '\n') s).map dropReturn ++ lines t := by
  obtain ⟨w, ws, ht⟩ := exists_pieces (· == '\n') t
  have hcut : pieces (· == '\n') (s ++ '\n' :: t) = pieces (· == '\n') s ++ w :: ws := by
    rw [pieces_append_sep (by rfl), ht]
  have hne : w :: ws ≠ [] := List.cons_ne_nil w ws
  have hlast : (pieces (· == '\n') s ++ w :: ws).getLast? = (w :: ws).getLast? :=
    List.getLast?_append_of_ne_nil _ hne
  simp only [lines, hcut, ht, hlast, List.dropLast_append_of_ne_nil hne, List.map_append]
  split <;> simp

theorem dropReturn_isPrefix (s : List Char) : dropReturn s <+: s := by
  unfold dropReturn
  split
  · rename_i rest hs
    rw [← List.reverse_reverse s, hs, List.reverse_cons]
    exact List.prefix_append _ _
  · exact List.prefix_rfl

theorem flatten_pieces_sublist (s : List α) : (pieces sep s).flatten.Sublist s := by
  induction s with
  | nil => exact List.Sublist.refl _
  | cons c s ih =>
    by_cases hc : sep c = true
    · rw [pieces_sep hc]
      exact ih.cons c
    · obtain ⟨w, ws, hs⟩ := exists_pieces sep s
      rw [hs] at ih
      rw [pieces_cons (Bool.eq_false_iff.mpr hc) hs]
      exact ih.cons_cons c

theorem flatten_lines_sublist (s : List Char) : (lines s).flatten.Sublist s := by
  have hended : ∀ parts : List (List Char), (parts.map dropReturn).flatten.Sublist parts.flatten := by
    intro parts
    induction parts with
    | nil => exact List.Sublist.refl _
    | cons part parts ih => exact (dropReturn_isPrefix part).sublist.append ih
  have hparts := @flatten_pieces_sublist _ (· == '\n') s
  obtain ⟨w, ws, hs⟩ := exists_pieces (· == '\n') s
  have hcut := List.dropLast_concat_getLast (List.cons_ne_nil w ws)
  rw [hs, ← hcut, List.flatten_append] at hparts
  have hall := ((hended (w :: ws).dropLast).append_right _).trans hparts
  simp only [lines, hs, List.getLast?_eq_some_getLast (List.cons_ne_nil w ws)]
  split
  · exact (List.sublist_append_left _ _).trans hall
  · exact (List.sublist_append_left _ _).trans hall
  · rename_i last hlast
    rw [List.flatten_append, ← Option.some.inj hlast]
    exact hall

theorem mem_of_mem_lines {s line : List Char} (h : line ∈ lines s) : ∀ c ∈ line, c ∈ s :=
  fun _ hc => (flatten_lines_sublist s).subset (List.mem_flatten_of_mem h hc)

end Pieces

section Ends

variable {p : Char → Bool}

theorem dropEndWhile_append {u : List Char} (hu : ∀ c ∈ u.getLast?, p c = false) (v : List Char) :
    dropEndWhile p (u ++ v) = u ++ dropEndWhile p v := by
  have hrev : u.reverse.dropWhile p = u.reverse := by
    cases h : u.reverse with
    | nil => rfl
    | cons c cs =>
      have hc : c ∈ u.getLast? := by rw [List.getLast?_eq_head?_reverse, h]; rfl
      simp [hu c hc]
  unfold dropEndWhile
  rw [List.reverse_append, List.dropWhile_append, hrev]
  split
  · rename_i h
    simp [List.isEmpty_iff.mp h]
  · simp

theorem dropEndWhile_append_cons {c : Char} (hc : p c = false) (u v : List Char) :
    dropEndWhile p (u ++ c :: v) = u ++ c :: dropEndWhile p v := by
  have hlast : ∀ d ∈ (u ++ [c]).getLast?, p d = false := by simpa using hc
  rw [List.append_cons, dropEndWhile_append hlast, ← List.append_cons]

theorem dropEndWhile_eq_self {u : List Char} (hu : ∀ c ∈ u.getLast?, p c = false) : dropEndWhile p u = u := by
  have h := dropEndWhile_append hu []
  rwa [List.append_nil, show dropEndWhile p [] = [] from rfl, List.append_nil] at h

theorem exists_dropEndWhile (p : Char → Bool) (s : List Char) :
    ∃ t, s = dropEndWhile p s ++ t ∧ ∀ c ∈ t, p c = true := by
  refine ⟨(s.reverse.takeWhile p).reverse, ?_, fun c hc => ?_⟩
  · rw [dropEndWhile, ← List.reverse_append, List.takeWhile_append_dropWhile, List.reverse_reverse]
  · exact List.all_eq_true.mp List.all_takeWhile c (List.mem_reverse.mp hc)

theorem dropEndWhile_append_of_forall {v : List Char} (hv : ∀ c ∈ v, p c = true) (u : List Char) :
    dropEndWhile p (u ++ v) = dropEndWhile p u := by
  unfold dropEndWhile
  rw [List.reverse_append, List.dropWhile_append_of_pos (by simpa using hv)]

theorem dropEndWhile_getLast (p : Char → Bool) (s : List Char) : ∀ c ∈ (dropEndWhile p s).getLast?, p c = false := by
  intro c hc
  rw [dropEndWhile, List.getLast?_reverse] at hc
  have h := List.head?_dropWhile_not p s.reverse
  rw [Option.mem_def.mp hc] at h
  exact h

end Ends

section Trim

/-- Only white space. -/
def IsGap (s : List Char) : Prop :=
  ∀ c ∈ s, isBlank c = true

theorem isGap_space : IsGap [' '] :=
  List.forall_mem_singleton.mpr (by decide)

/-- Some white space, or none. -/
structure Gap where
  text : List Char
  blank : IsGap text

def Trimmed (s : List Char) : Prop :=
  (∀ c ∈ s.head?, isBlank c = false) ∧ ∀ c ∈ s.getLast?, isBlank c = false

theorem Trimmed.trim_eq {s : List Char} (h : Trimmed s) : trim s = s := by
  have hstart : trimStart s = s := by
    cases s with
    | nil => rfl
    | cons c s => simp [trimStart, h.1 c rfl]
  rw [trim, hstart]
  exact dropEndWhile_eq_self h.2

def StartsSolid (s : List Char) : Prop :=
  ∃ c cs, s = c :: cs ∧ isBlank c = false

def EndsSolid (s : List Char) : Prop :=
  ∃ cs c, s = cs ++ [c] ∧ isBlank c = false

theorem StartsSolid.ne_nil {s : List Char} (h : StartsSolid s) : s ≠ [] := by
  obtain ⟨c, cs, rfl, -⟩ := h
  exact List.cons_ne_nil c cs

theorem StartsSolid.stops {s : List Char} (h : StartsSolid s) : Stops isBlank s := by
  obtain ⟨c, cs, rfl, hc⟩ := h
  exact stops_cons.mpr hc

theorem StartsSolid.append {s : List Char} (h : StartsSolid s) (t : List Char) : StartsSolid (s ++ t) := by
  obtain ⟨c, cs, rfl, hc⟩ := h
  exact ⟨c, cs ++ t, rfl, hc⟩

theorem StartsSolid.trimStart_eq {s : List Char} (h : StartsSolid s) : trimStart s = s := by
  obtain ⟨c, cs, rfl, hc⟩ := h
  simp [trimStart, hc]

theorem EndsSolid.append {t : List Char} (h : EndsSolid t) (s : List Char) : EndsSolid (s ++ t) := by
  obtain ⟨cs, c, rfl, hc⟩ := h
  exact ⟨s ++ cs, c, by rw [List.append_assoc], hc⟩

theorem EndsSolid.cons {t : List Char} (h : EndsSolid t) (c : Char) : EndsSolid (c :: t) :=
  h.append [c]

theorem endsSolid_of_forall {s : List Char} (hne : s ≠ []) (h : ∀ c ∈ s, isBlank c = false) : EndsSolid s :=
  ⟨s.dropLast, s.getLast hne, (List.dropLast_append_getLast hne).symm, h _ (List.getLast_mem hne)⟩

theorem EndsSolid.flatMap {t : List Char} (h : EndsSolid t) {xs : List (List Char)} (hxs : ∀ x ∈ xs, EndsSolid x) :
    EndsSolid (t ++ xs.flatMap (',' :: ·)) := by
  induction xs generalizing t with
  | nil => rwa [List.flatMap_nil, List.append_nil]
  | cons x xs ih =>
    obtain ⟨hx, hxs⟩ := List.forall_mem_cons.mp hxs
    rw [List.flatMap_cons]
    exact (ih (hx.cons ',') hxs).append t

theorem trimmed_of_solid {s : List Char} (hs : StartsSolid s) (he : EndsSolid s) : Trimmed s := by
  constructor
  · obtain ⟨c, cs, rfl, hc⟩ := hs
    simpa using hc
  · obtain ⟨cs, c, rfl, hc⟩ := he
    simpa using hc

theorem trimEnd_append_gap {g : List Char} (hg : IsGap g) (s : List Char) : trimEnd (s ++ g) = trimEnd s :=
  dropEndWhile_append_of_forall hg s

theorem trim_gap_append {g : List Char} (hg : IsGap g) (s : List Char) : trim (g ++ s) = trim s := by
  rw [trim, trimStart, List.dropWhile_append_of_pos hg]
  rfl

theorem trim_append_gap {g : List Char} (hg : IsGap g) (s : List Char) : trim (s ++ g) = trim s := by
  have hnil : trimStart g = [] := List.dropWhile_eq_nil_iff.mpr hg
  rw [trim, trimStart, List.dropWhile_append]
  split
  · rename_i h
    rw [trim, trimStart, List.isEmpty_iff.mp h]
    exact congrArg trimEnd hnil
  · exact dropEndWhile_append_of_forall hg _

theorem trim_gap {g : List Char} (hg : IsGap g) : trim g = [] := by
  have h := trim_gap_append hg []
  rwa [List.append_nil] at h

theorem exists_trim (s : List Char) : ∃ g g', s = g ++ trim s ++ g' ∧ IsGap g ∧ IsGap g' := by
  obtain ⟨g', hg', hgap⟩ := exists_dropEndWhile isBlank (trimStart s)
  refine ⟨s.takeWhile isBlank, g', ?_, fun c hc => List.all_eq_true.mp List.all_takeWhile c hc, hgap⟩
  have hsplit : s = s.takeWhile isBlank ++ trimStart s := List.takeWhile_append_dropWhile.symm
  rw [hg'] at hsplit
  rw [List.append_assoc]
  exact hsplit

theorem mem_of_mem_trimEnd {s : List Char} {c : Char} (h : c ∈ trimEnd s) : c ∈ s := by
  obtain ⟨g, hs, -⟩ := exists_dropEndWhile isBlank s
  rw [hs]
  exact List.mem_append_left g h

theorem mem_of_mem_trimStart {s : List Char} {c : Char} (h : c ∈ trimStart s) : c ∈ s :=
  (List.dropWhile_suffix isBlank).subset h

theorem mem_of_mem_trim {s : List Char} {c : Char} (h : c ∈ trim s) : c ∈ s :=
  mem_of_mem_trimStart (mem_of_mem_trimEnd h)

theorem EndsSolid.trimEnd_eq {t : List Char} (h : EndsSolid t) : trimEnd t = t := by
  obtain ⟨cs, c, rfl, hc⟩ := h
  exact dropEndWhile_eq_self (by simpa using hc)

theorem gap_unique {u g u' g' : List Char} (h : u ++ g = u' ++ g') (hu : EndsSolid u) (hg : IsGap g) (hu' : EndsSolid u')
    (hg' : IsGap g') : u = u' ∧ g = g' := by
  have heq : u = u' := by
    rw [← hu.trimEnd_eq, ← trimEnd_append_gap hg, h, trimEnd_append_gap hg', hu'.trimEnd_eq]
  subst heq
  exact ⟨rfl, List.append_cancel_left h⟩

theorem EndsSolid.append_trimEnd {s : List Char} (h : EndsSolid s) (t : List Char) : EndsSolid (s ++ trimEnd t) := by
  by_cases ht : trimEnd t = []
  · rwa [ht, List.append_nil]
  · have hlast := dropEndWhile_getLast isBlank t _ (List.getLast?_eq_some_getLast ht)
    have hsolid : EndsSolid (trimEnd t) := ⟨_, _, (List.dropLast_append_getLast ht).symm, hlast⟩
    exact hsolid.append s

theorem EndsSolid.trimEnd_append {s : List Char} (h : EndsSolid s) (t : List Char) :
    trimEnd (s ++ t) = s ++ trimEnd t := by
  obtain ⟨cs, c, rfl, hc⟩ := h
  exact dropEndWhile_append (by simpa using hc) t

theorem EndsSolid.lines_eq {s : List Char} (h : EndsSolid s) : lines s = (pieces (· == '\n') s).map dropReturn := by
  obtain ⟨cs, c, rfl, hc⟩ := h
  have hnewline : (c == '\n') = false := by
    rw [beq_eq_false_iff_ne]
    rintro rfl
    exact absurd hc (by decide)
  have hreturn : ∀ x : List Char, dropReturn (x ++ [c]) = x ++ [c] := by
    intro x
    have hne : c ≠ '\r' := by
      rintro rfl
      exact absurd hc (by decide)
    rw [dropReturn, List.reverse_append]
    simp [hne]
  obtain ⟨init, x, hcut⟩ : ∃ init x, pieces (· == '\n') (cs ++ [c]) = init ++ [x ++ [c]] := by
    induction cs with
    | nil => exact ⟨[], [], by simp [pieces, hnewline]⟩
    | cons d cs ih =>
      obtain ⟨init, x, hcut⟩ := ih
      by_cases hd : (d == '\n') = true
      · exact ⟨[] :: init, x, by rw [List.cons_append, @pieces_sep _ (· == '\n') d hd, hcut]; rfl⟩
      · rw [Bool.not_eq_true] at hd
        cases init with
        | nil => exact ⟨[], d :: x, @pieces_cons _ (· == '\n') d _ _ _ hd hcut⟩
        | cons w init => exact ⟨(d :: w) :: init, x, @pieces_cons _ (· == '\n') d _ _ _ hd hcut⟩
  simp [lines, hcut, hreturn]

theorem trimEnd_dropReturn (s : List Char) : trimEnd (dropReturn s) = trimEnd s := by
  rw [dropReturn]
  split
  · rename_i rest h
    have hs : s = rest.reverse ++ ['\r'] := by rw [← List.reverse_cons, ← h, List.reverse_reverse]
    rw [hs]
    exact (dropEndWhile_append_of_forall (by decide) _).symm
  · rfl

theorem trim_around_solid {c : Char} (hc : isBlank c = false) (u v : List Char) :
    trim (u ++ c :: v) = trimStart u ++ c :: trimEnd v := by
  have hstart : trimStart (u ++ c :: v) = trimStart u ++ c :: v := by
    rw [trimStart, List.dropWhile_append]
    split
    next h =>
      rw [trimStart, List.isEmpty_iff.mp h]
      simp [hc]
    next => rfl
  rw [trim, hstart]
  exact dropEndWhile_append_cons hc (trimStart u) v

theorem trim_append_solid {s : List Char} {c : Char} (hc : isBlank c = false) :
    trim (s ++ [c]) = trimStart s ++ [c] :=
  trim_around_solid hc s []

theorem head?_trim (s : List Char) : ∀ c ∈ (trim s).head?, isBlank c = false := by
  intro c hc
  obtain ⟨t, ht, -⟩ := exists_dropEndWhile isBlank (trimStart s)
  have hstart : c ∈ (trimStart s).head? := by
    rw [ht]
    rw [trim, trimEnd, Option.mem_def, List.head?_eq_some_iff] at hc
    obtain ⟨cs, hcs⟩ := hc
    rw [hcs]
    rfl
  have h := List.head?_dropWhile_not isBlank s
  rw [trimStart, Option.mem_def] at hstart
  rw [hstart] at h
  exact h

theorem trimmed_trim (s : List Char) : Trimmed (trim s) :=
  ⟨head?_trim s, dropEndWhile_getLast isBlank _⟩

end Trim

section Words

theorem words_append_blank {c : Char} (hc : isBlank c = true) (u v : List Char) :
    words (u ++ c :: v) = words u ++ words v := by
  rw [words, pieces_append_sep hc, List.filter_append]
  rfl

theorem words_of_word {w : List Char} (hne : w ≠ []) (hw : ∀ c ∈ w, isBlank c = false) : words w = [w] := by
  rw [words, pieces_of_forall hw]
  simp [hne]

theorem words_gap_append {g : List Char} (hg : IsGap g) (s : List Char) : words (g ++ s) = words s := by
  induction g with
  | nil => rfl
  | cons c g ih =>
    obtain ⟨hc, hg⟩ := List.forall_mem_cons.mp hg
    exact (words_append_blank hc [] (g ++ s)).trans (ih hg)

theorem words_gap {g : List Char} (hg : IsGap g) : words g = [] := by
  have h := words_gap_append hg []
  rwa [List.append_nil] at h

theorem words_run {w rest : List Char} (hne : w ≠ []) (hw : ∀ c ∈ w, isBlank c = false)
    (hrest : ∀ c ∈ rest.head?, isBlank c = true) : words (w ++ rest) = w :: words rest := by
  cases rest with
  | nil => rw [List.append_nil, words_of_word hne hw, words_gap (by simp [IsGap])]
  | cons c rest =>
    have hc := hrest c rfl
    have htail : words (c :: rest) = words rest := words_append_blank hc [] rest
    rw [words_append_blank hc, words_of_word hne hw, htail, List.singleton_append]

theorem words_append_gap {g : List Char} (hg : IsGap g) (s : List Char) : words (s ++ g) = words s := by
  cases g with
  | nil => rw [List.append_nil]
  | cons c g =>
    obtain ⟨hc, hg⟩ := List.forall_mem_cons.mp hg
    rw [words_append_blank hc, words_gap hg, List.append_nil]

theorem words_append_gap_append {g : List Char} (hg : IsGap g) (hne : g ≠ []) (u v : List Char) :
    words (u ++ g ++ v) = words u ++ words v := by
  obtain ⟨c, g, rfl⟩ := List.exists_cons_of_ne_nil hne
  obtain ⟨hc, hg⟩ := List.forall_mem_cons.mp hg
  rw [List.append_assoc, List.cons_append, words_append_blank hc, words_gap_append hg]

theorem head?_words {w rest : List Char} (hne : w ≠ []) (hw : ∀ c ∈ w, isBlank c = false)
    (hrest : ∀ c ∈ rest.head?, isBlank c = true) : (words (w ++ rest)).head? = some w := by
  rw [words_run hne hw hrest, List.head?_cons]

theorem words_trimStart (s : List Char) : words (trimStart s) = words s := by
  have hgap : IsGap (s.takeWhile isBlank) := fun c hc => List.mem_takeWhile_imp hc
  conv_rhs => rw [← List.takeWhile_append_dropWhile (p := isBlank) (l := s), words_gap_append hgap]
  rfl

theorem words_trim (s : List Char) : words (trim s) = words s := by
  obtain ⟨g, g', hs, hg, hg'⟩ := exists_trim s
  have h : words s = words (g ++ trim s ++ g') := congrArg words hs
  rw [h, words_append_gap hg', words_gap_append hg]

theorem words_cons {c : Char} (hc : isBlank c = false) (cs : List Char) : ∃ w ws, words (c :: cs) = (c :: w) :: ws := by
  obtain ⟨w, ws, h⟩ := exists_pieces isBlank cs
  refine ⟨w, ws.filter fun w => !w.isEmpty, ?_⟩
  rw [words, pieces_cons hc h]
  rfl

theorem firstWord_trim {s w : List Char} (h : (words s).head? = some w) : firstWord (trim s) = w := by
  rw [firstWord, words_trim, List.headD_eq_head?_getD, h]
  rfl

theorem isAlphanumeric_of_isAsciiWord {c : Char} (h : isAsciiWord c = true) :
    (isAlphanumeric c || c == '_') = true := by
  have hlt : c.toNat < 0x80 := by
    have := toNat_of_isAsciiWord h
    omega
  rw [isAlphanumeric, if_pos hlt]
  exact h

theorem map_firstWord_filter_trim (items : List (List Char)) :
    ((items.map trim).filter fun w => !w.isEmpty).map firstWord = (items.map words).filterMap List.head? := by
  induction items with
  | nil => rfl
  | cons x items ih =>
    rw [List.map_cons, List.map_cons, List.filterMap_cons, ← words_trim x, ← ih]
    cases hx : trim x with
    | nil => rfl
    | cons c cs =>
      have hc : isBlank c = false := head?_trim x c (by rw [hx]; rfl)
      obtain ⟨w, ws, hw⟩ := words_cons hc cs
      simp [hw, firstWord]

def joinEnds {α : Type} : List (List α) → List (List α) → List (List α)
  | [], ys => ys
  | [x], [] => [x]
  | [x], y :: ys => (x ++ y) :: ys
  | x :: x' :: xs, ys => x :: joinEnds (x' :: xs) ys

theorem joinEnds_concat {α : Type} (xs : List (List α)) (x y : List α) (ys : List (List α)) :
    joinEnds (xs ++ [x]) (y :: ys) = xs ++ (x ++ y) :: ys := by
  induction xs with
  | nil => rfl
  | cons x' xs ih =>
    cases xs with
    | nil => rfl
    | cons x'' xs => exact congrArg (x' :: ·) ih

theorem pieces_append {α : Type} (sep : α → Bool) (u v : List α) :
    pieces sep (u ++ v) = joinEnds (pieces sep u) (pieces sep v) := by
  obtain ⟨x, xs, hv⟩ := exists_pieces sep v
  induction u with
  | nil =>
    rw [List.nil_append, hv]
    rfl
  | cons c u ih =>
    obtain ⟨w, ws, hu⟩ := exists_pieces sep u
    rw [hu, hv] at ih
    by_cases hc : sep c = true
    · rw [List.cons_append, pieces_sep hc, pieces_sep hc, ih, hu, hv]
      rfl
    · rw [Bool.not_eq_true] at hc
      rw [List.cons_append, pieces_cons hc hu, hv]
      cases ws with
      | nil => exact pieces_cons hc ih
      | cons w' ws => exact pieces_cons hc ih

def itemWords (s : List Char) : List (List (List Char)) :=
  (pieces (· == ',') s).map words

theorem map_firstWord_commaItems (s : List Char) :
    (commaItems s).map firstWord = (itemWords s).filterMap List.head? :=
  map_firstWord_filter_trim _

theorem map_words_joinEnds {c : Char} (hc : isBlank c = true) (xs : List (List Char)) (y : List Char)
    (ys : List (List Char)) :
    (joinEnds xs ((c :: y) :: ys)).map words = joinEnds (xs.map words) ((y :: ys).map words) := by
  induction xs with
  | nil =>
    have hy : words (c :: y) = words y := words_append_blank hc [] y
    simp [joinEnds, hy]
  | cons x xs ih =>
    cases xs with
    | nil => simp [joinEnds, words_append_blank hc]
    | cons x' xs => exact congrArg (words x :: ·) ih

theorem itemWords_append_blank {c : Char} (hc : isBlank c = true) (u v : List Char) :
    itemWords (u ++ c :: v) = joinEnds (itemWords u) (itemWords v) := by
  have hcomma : (c == ',') = false := by
    rw [beq_eq_false_iff_ne]
    rintro rfl
    exact absurd hc (by decide)
  obtain ⟨y, ys, hv⟩ := exists_pieces (· == ',') v
  rw [itemWords, pieces_append, @pieces_cons _ (· == ',') c v y ys hcomma hv, map_words_joinEnds hc, itemWords, itemWords,
    hv]

theorem joinEnds_nil_right {α : Type} {xs : List (List α)} (h : xs ≠ []) : joinEnds xs [[]] = xs := by
  induction xs with
  | nil => exact absurd rfl h
  | cons x xs ih =>
    cases xs with
    | nil => simp [joinEnds]
    | cons x' xs => exact congrArg (x :: ·) (ih (List.cons_ne_nil x' xs))

theorem itemWords_gap_append {g : List Char} (hg : IsGap g) (s : List Char) : itemWords (g ++ s) = itemWords s := by
  induction g with
  | nil => rfl
  | cons c g ih =>
    obtain ⟨hc, hg⟩ := List.forall_mem_cons.mp hg
    obtain ⟨x, xs, hs⟩ := exists_pieces (· == ',') s
    have h := itemWords_append_blank hc [] (g ++ s)
    rw [ih hg] at h
    have hs : itemWords s = (x :: xs).map words := by rw [itemWords, hs]
    rw [hs] at h ⊢
    exact h

theorem itemWords_append_gap {g : List Char} (hg : IsGap g) (s : List Char) : itemWords (s ++ g) = itemWords s := by
  cases g with
  | nil => rw [List.append_nil]
  | cons c g =>
    obtain ⟨hc, hg⟩ := List.forall_mem_cons.mp hg
    obtain ⟨x, xs, hs⟩ := exists_pieces (· == ',') s
    have hnil : itemWords g = [[]] := by
      have h := itemWords_gap_append hg []
      rwa [List.append_nil] at h
    rw [itemWords_append_blank hc, hnil]
    exact joinEnds_nil_right (by simp [itemWords, hs])

theorem itemWords_trimEnd (s : List Char) : itemWords (trimEnd s) = itemWords s := by
  obtain ⟨g, hs, hg⟩ := exists_dropEndWhile isBlank s
  have h : itemWords s = itemWords (trimEnd s ++ g) := congrArg itemWords hs
  rw [h, itemWords_append_gap hg]

theorem itemWords_trimStart (s : List Char) : itemWords (trimStart s) = itemWords s := by
  have hsplit : s = s.takeWhile isBlank ++ trimStart s := List.takeWhile_append_dropWhile.symm
  have h : itemWords s = itemWords (s.takeWhile isBlank ++ trimStart s) := congrArg itemWords hsplit
  rw [h, itemWords_gap_append fun c hc => List.mem_takeWhile_imp hc]

theorem itemWords_trim (s : List Char) : itemWords (trim s) = itemWords s := by
  rw [trim, itemWords_trimEnd, itemWords_trimStart]

end Words

end ModuleGraph.Text
