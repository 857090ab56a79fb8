import ModuleGraph.Curly.Clause
import ModuleGraph.Proofs.TextPieces
import Mathlib.Data.List.Forall2
import Mathlib.Data.Option.Basic

namespace ModuleGraph.Text

/-- What may stand before a newline: the carriage return of a line end, or what is left of it in a comment. -/
def IsFiller (c : Char) : Prop :=
  c = '\r' ∨ c = ' '

/-- A text and the same text with one filler before each newline. -/
inductive Widened : List Char → List Char → Prop
  | nil : Widened [] []
  | cons {c s t} : c ≠ '\n' → Widened s t → Widened (c :: s) (c :: t)
  | newline {f s t} : IsFiller f → Widened s t → Widened ('\n' :: s) (f :: '\n' :: t)

structure Uniform (ok : Char → Bool) : Prop where
  filler : ∀ f, IsFiller f → ok f = ok '\n'

structure Solid (ok : Char → Bool) : Prop where
  newline : ok '\n' = false
  filler : ∀ f, IsFiller f → ok f = false

theorem uniform_of_eq {ok : Char → Bool} (hreturn : ok '\r' = ok '\n') (hspace : ok ' ' = ok '\n') : Uniform ok := by
  constructor
  rintro f (rfl | rfl)
  · exact hreturn
  · exact hspace

theorem solid_of_eq {ok : Char → Bool} (hnewline : ok '\n' = false) (hreturn : ok '\r' = false)
    (hspace : ok ' ' = false) : Solid ok := by
  refine ⟨hnewline, ?_⟩
  rintro f (rfl | rfl)
  · exact hreturn
  · exact hspace

theorem Solid.uniform {ok : Char → Bool} (h : Solid ok) : Uniform ok :=
  ⟨fun f hf => by rw [h.filler f hf, h.newline]⟩

theorem uniform_isBlank : Uniform isBlank :=
  uniform_of_eq (by decide) (by decide)

theorem IsFiller.isBlank {f : Char} (h : IsFiller f) : isBlank f = true :=
  uniform_isBlank.filler f h

theorem IsFiller.ne_newline {f : Char} (h : IsFiller f) : f ≠ '\n' := by
  rcases h with rfl | rfl <;> decide

theorem IsFiller.utf8Size {f : Char} (h : IsFiller f) : f.utf8Size = 1 := by
  rcases h with rfl | rfl <;> decide

def IsPlainWord (w : List Char) : Prop :=
  ∀ c ∈ w, c ≠ '\n' ∧ ¬IsFiller c

instance (w : List Char) : Decidable (IsPlainWord w) :=
  inferInstanceAs (Decidable (∀ c ∈ w, c ≠ '\n' ∧ ¬(c = '\r' ∨ c = ' ')))

def EndsPlain (w : List Char) : Prop :=
  '\n' ∉ w ∧ ∀ c ∈ w.getLast?, ¬IsFiller c

instance (w : List Char) : Decidable (EndsPlain w) :=
  inferInstanceAs (Decidable ('\n' ∉ w ∧ ∀ c ∈ w.getLast?, ¬(c = '\r' ∨ c = ' ')))

theorem EndsPlain.tail {c : Char} {w : List Char} (h : EndsPlain (c :: w)) : EndsPlain w := by
  refine ⟨mt (List.mem_cons_of_mem c) h.1, fun d hd => h.2 d ?_⟩
  rw [Option.mem_def, List.getLast?_cons, Option.mem_def.mp hd]
  rfl

theorem startsWith_append_filler {w : List Char} (hw : EndsPlain w) {f : Char} (hf : IsFiller f) (s : List Char) :
    startsWith (s ++ [f]) w = startsWith s w := by
  rw [Bool.eq_iff_iff, startsWith_iff, startsWith_iff]
  refine ⟨fun h => ?_, fun h => h.trans (List.prefix_append s [f])⟩
  rcases List.prefix_concat_iff.mp h with rfl | h
  · exact absurd hf (hw.2 f (by simp))
  · exact h

namespace Widened

variable {s t u v : List Char}

theorem append (h : Widened u v) (h' : Widened s t) : Widened (u ++ s) (v ++ t) := by
  induction h with
  | nil => exact h'
  | cons hc _ ih => exact .cons hc ih
  | newline hf _ ih => exact .newline hf ih

theorem exists_append {t' : List Char} (h : Widened (u ++ s) t') :
    ∃ v t, t' = v ++ t ∧ Widened u v ∧ Widened s t := by
  induction u generalizing t' with
  | nil => exact ⟨[], t', rfl, .nil, h⟩
  | cons c u ih =>
    cases h with
    | cons hc h =>
      obtain ⟨v, t, rfl, hu, hs⟩ := ih h
      exact ⟨c :: v, t, rfl, .cons hc hu, hs⟩
    | newline hf h =>
      obtain ⟨v, t, rfl, hu, hs⟩ := ih h
      exact ⟨_ :: '\n' :: v, t, rfl, .newline hf hu, hs⟩

theorem exists_append_right {s v t : List Char} (h : Widened s (v ++ t)) (ht : t.head? ≠ some '\n') :
    ∃ u s', s = u ++ s' ∧ Widened u v ∧ Widened s' t := by
  generalize hvt : v ++ t = t' at h
  induction h generalizing v with
  | nil =>
    obtain ⟨rfl, rfl⟩ := List.append_eq_nil_iff.mp hvt
    exact ⟨[], [], rfl, .nil, .nil⟩
  | @cons c s t' hc h ih =>
    cases v with
    | nil =>
      subst hvt
      exact ⟨[], c :: s, rfl, .nil, .cons hc h⟩
    | cons d v =>
      obtain ⟨rfl, hrest⟩ := List.cons.inj hvt
      obtain ⟨u, s', rfl, hu, hs⟩ := ih hrest
      exact ⟨d :: u, s', rfl, .cons hc hu, hs⟩
  | @newline f s t' hf h ih =>
    match v, hvt with
    | [], hvt =>
      subst hvt
      exact ⟨[], '\n' :: s, rfl, .nil, .newline hf h⟩
    | [_], hvt =>
      obtain ⟨-, rfl⟩ := List.cons.inj hvt
      exact absurd rfl ht
    | d :: e :: v, hvt =>
      obtain ⟨rfl, hrest⟩ := List.cons.inj hvt
      obtain ⟨rfl, hrest'⟩ := List.cons.inj hrest
      obtain ⟨u, s', rfl, hu, hs⟩ := ih hrest'
      exact ⟨'\n' :: u, s', rfl, .newline hf hu, hs⟩

theorem refl (h : '\n' ∉ s) : Widened s s := by
  induction s with
  | nil => exact .nil
  | cons c s ih =>
    obtain ⟨hc, hs⟩ := not_or.mp (mt List.mem_cons.mpr h)
    exact .cons (Ne.symm hc) (ih hs)

theorem eq_of_not_mem (h : Widened s t) (hs : '\n' ∉ s) : t = s := by
  induction h with
  | nil => rfl
  | cons _ _ ih => rw [ih (mt (List.mem_cons_of_mem _) hs)]
  | newline => exact absurd List.mem_cons_self hs

theorem length_eq (h : Widened s t) : t.length = s.length + s.count '\n' := by
  induction h with
  | nil => rfl
  | @cons c s t hc _ ih =>
    rw [List.length_cons, List.length_cons, List.count_cons_of_ne hc, ih]
    omega
  | newline _ _ ih =>
    simp only [List.length_cons, List.count_cons_self, ih]
    omega

theorem eq_iff (h : Widened s t) : t = s ↔ '\n' ∉ s := by
  refine ⟨?_, h.eq_of_not_mem⟩
  rintro rfl
  have hlen := h.length_eq
  exact List.count_eq_zero.mp (by omega)

theorem count_newline (h : Widened s t) : t.count '\n' = s.count '\n' := by
  induction h with
  | nil => rfl
  | cons hc _ ih => rw [List.count_cons_of_ne hc, List.count_cons_of_ne hc, ih]
  | newline hf _ ih => rw [List.count_cons_of_ne hf.ne_newline, List.count_cons_self, List.count_cons_self, ih]

theorem nil_iff (h : Widened s t) : t = [] ↔ s = [] := by
  cases h <;> simp

theorem isEmpty_eq (h : Widened s t) : t.isEmpty = s.isEmpty := by
  cases h <;> rfl

theorem getLast?_eq (h : Widened s t) : t.getLast? = s.getLast? := by
  induction h with
  | nil => rfl
  | cons _ _ ih => rw [List.getLast?_cons, List.getLast?_cons, ih]
  | newline _ _ ih => rw [List.getLast?_cons, List.getLast?_cons, List.getLast?_cons, ih]; rfl

section Classes

variable {ok : Char → Bool}

theorem forall_mem (hok : Uniform ok) (h : Widened s t) (hs : ∀ c ∈ s, ok c = true) : ∀ c ∈ t, ok c = true := by
  induction h with
  | nil => exact hs
  | cons _ _ ih =>
    obtain ⟨hc, hs⟩ := List.forall_mem_cons.mp hs
    exact List.forall_mem_cons.mpr ⟨hc, ih hs⟩
  | @newline f _ _ hf _ ih =>
    obtain ⟨hc, hs⟩ := List.forall_mem_cons.mp hs
    exact List.forall_mem_cons.mpr ⟨(hok.filler f hf).trans hc, List.forall_mem_cons.mpr ⟨hc, ih hs⟩⟩

theorem stops (hok : Uniform ok) (h : Widened s t) (hs : Stops ok s) : Stops ok t := by
  cases h with
  | nil => exact hs
  | cons _ _ => exact stops_cons.mpr (stops_cons.mp hs)
  | @newline f _ _ hf _ => exact stops_cons.mpr ((hok.filler f hf).trans (stops_cons.mp hs))

theorem takeWhile (hok : Uniform ok) (h : Widened s t) : Widened (s.takeWhile ok) (t.takeWhile ok) := by
  obtain ⟨w, rest, rfl, hw, hrest, -⟩ := exists_run ok s
  obtain ⟨v, t, rfl, hv, ht⟩ := h.exists_append
  rwa [takeWhile_eq hw hrest, takeWhile_eq (hv.forall_mem hok hw) (ht.stops hok hrest)]

theorem dropWhile (hok : Uniform ok) (h : Widened s t) : Widened (s.dropWhile ok) (t.dropWhile ok) := by
  have hsplit := h
  rw [← @List.takeWhile_append_dropWhile _ ok s] at hsplit
  obtain ⟨v, t', rfl, hv, ht⟩ := hsplit.exists_append
  have hrest : Stops ok (s.dropWhile ok) := by
    intro c hc
    have hhead := List.head?_dropWhile_not ok s
    rw [Option.mem_def.mp hc] at hhead
    exact hhead
  have hv' := hv.forall_mem hok fun c hc => List.mem_takeWhile_imp hc
  rw [List.dropWhile_append_of_pos hv']
  have hstop := ht.stops hok hrest
  cases t' with
  | nil => exact ht
  | cons c t' => rwa [List.dropWhile_cons_of_neg (by simp [stops_cons.mp hstop])]

theorem dropEndWhile (hok : Uniform ok) (h : Widened s t) :
    Widened (dropEndWhile ok s) (Text.dropEndWhile ok t) := by
  obtain ⟨g, hs, hg⟩ := exists_dropEndWhile ok s
  have hsplit := h
  rw [hs] at hsplit
  obtain ⟨v, g', rfl, hv, hg'⟩ := hsplit.exists_append
  have hlast : ∀ c ∈ v.getLast?, ok c = false := by
    rw [hv.getLast?_eq]
    exact dropEndWhile_getLast ok s
  rwa [dropEndWhile_append_of_forall (hg'.forall_mem hok hg), dropEndWhile_eq_self hlast]

theorem upTo {sep : Char → Bool} (hsep : Uniform sep) (h : Widened s t) : Widened (upTo sep s) (Text.upTo sep t) :=
  h.takeWhile ⟨fun f hf => by rw [hsep.filler f hf]⟩

end Classes

theorem trimStart (h : Widened s t) : Widened (trimStart s) (Text.trimStart t) :=
  h.dropWhile uniform_isBlank

theorem trimEnd (h : Widened s t) : Widened (trimEnd s) (Text.trimEnd t) :=
  h.dropEndWhile uniform_isBlank

theorem trim (h : Widened s t) : Widened (trim s) (Text.trim t) :=
  h.trimStart.trimEnd

theorem pieces {sep : Char → Bool} (hsep : Solid sep) (h : Widened s t) :
    List.Forall₂ Widened (pieces sep s) (Text.pieces sep t) := by
  induction h with
  | nil => exact .cons .nil .nil
  | @cons c s t hc _ ih =>
    obtain ⟨w, ws, hs⟩ := exists_pieces sep s
    obtain ⟨w', ws', ht⟩ := exists_pieces sep t
    by_cases hsc : sep c = true
    · rw [pieces_sep hsc, pieces_sep hsc]
      exact .cons .nil ih
    · rw [Bool.not_eq_true] at hsc
      rw [hs, ht] at ih
      rw [pieces_cons hsc hs, pieces_cons hsc ht]
      obtain ⟨hw, hws⟩ := List.forall₂_cons.mp ih
      exact .cons (.cons hc hw) hws
  | @newline f s t hf _ ih =>
    obtain ⟨w, ws, hs⟩ := exists_pieces sep s
    obtain ⟨w', ws', ht⟩ := exists_pieces sep t
    rw [hs, ht] at ih
    rw [pieces_cons hsep.newline hs, pieces_cons (hsep.filler f hf) (pieces_cons hsep.newline ht)]
    obtain ⟨hw, hws⟩ := List.forall₂_cons.mp ih
    exact .cons (.newline hf hw) hws

theorem words_eq (h : Widened s t) : words t = words s := by
  have key : ∀ u, words (u ++ t) = words (u ++ s) := by
    induction h with
    | nil => exact fun _ => rfl
    | @cons c s t _ _ ih =>
      intro u
      have hu := ih (u ++ [c])
      rwa [List.append_assoc, List.append_assoc] at hu
    | newline hf _ ih =>
      intro u
      have hnewline : isBlank '\n' = true := by decide
      rw [words_append_blank hnewline, words_append_blank hf.isBlank]
      exact congrArg (words u ++ ·) ((words_append_blank hnewline [] _).trans (ih []))
  exact key []

section Beginnings

variable {w : List Char} (hw : IsPlainWord w)
include hw

theorem after? (h : Widened s t) : Option.Rel Widened (after? w s) (Text.after? w t) := by
  induction w generalizing s t with
  | nil => exact .some h
  | cons d w ih =>
    obtain ⟨hd, hw⟩ := List.forall_mem_cons.mp hw
    cases h with
    | nil => exact .none
    | cons _ h =>
      rw [Text.after?, Text.after?]
      split
      · exact ih hw h
      · exact .none
    | newline hf h =>
      rw [Text.after?, Text.after?, if_neg hd.1, if_neg]
      · exact .none
      · rintro rfl
        exact hd.2 hf

theorem endsWith_eq (h : Widened s t) : endsWith t w = endsWith s w := by
  have hnewline : '\n' ∉ w := fun hmem => (hw _ hmem).1 rfl
  rw [Bool.eq_iff_iff, endsWith, endsWith, List.isSuffixOf_iff_suffix, List.isSuffixOf_iff_suffix]
  constructor
  · rintro ⟨y, rfl⟩
    have hhead : w.head? ≠ some '\n' := fun hhead => hnewline (List.mem_of_head? hhead)
    obtain ⟨x, w', rfl, -, hw'⟩ := h.exists_append_right hhead
    have hw'' : '\n' ∉ w' := by
      rw [← List.count_eq_zero, ← hw'.count_newline, List.count_eq_zero]
      exact hnewline
    rw [hw'.eq_of_not_mem hw'']
    exact List.suffix_append x w'
  · rintro ⟨x, rfl⟩
    obtain ⟨v, w', rfl, -, hw'⟩ := h.exists_append
    rw [hw'.eq_of_not_mem hnewline]
    exact List.suffix_append v w

end Beginnings

theorem startsWith_eq {w : List Char} (hw : EndsPlain w) (h : Widened s t) : startsWith t w = startsWith s w := by
  induction h generalizing w with
  | nil => rfl
  | cons _ _ ih =>
    cases w with
    | nil => rfl
    | cons d w =>
      have hih : w.isPrefixOf _ = w.isPrefixOf _ := ih hw.tail
      rw [startsWith, startsWith, List.isPrefixOf, List.isPrefixOf, hih]
  | @newline f s t hf h _ =>
    have hnone : ∀ {x}, '\n' ∉ x → x ≠ [] → ∀ y, x.isPrefixOf ('\n' :: y) = false := by
      intro x hx hne y
      obtain ⟨d, x, rfl⟩ := List.exists_cons_of_ne_nil hne
      have hd : (d == '\n') = false := by simpa using fun he : d = '\n' => hx (he ▸ List.mem_cons_self)
      rw [List.isPrefixOf, hd, Bool.false_and]
    -- a word that starts with the filler goes on behind it, where the newline stands
    match w, hw with
    | [], _ => rfl
    | [d], ⟨hd, hlast⟩ =>
      have hdf : (d == f) = false := by
        refine beq_eq_false_iff_ne.mpr ?_
        rintro rfl
        exact hlast d rfl hf
      rw [startsWith, startsWith, hnone hd (by simp), List.isPrefixOf, hdf, Bool.false_and]
    | d :: e :: w, ⟨hnewline, _⟩ =>
      have hmore := hnone (mt (List.mem_cons_of_mem d) hnewline) (List.cons_ne_nil e w) t
      rw [startsWith, startsWith, hnone hnewline (by simp), List.isPrefixOf, hmore, Bool.and_false]

theorem firstWord_eq (h : Widened s t) (hs : Stops isBlank s) : firstWord t = firstWord s := by
  rw [firstWord, firstWord, h.words_eq]
  cases s with
  | nil => rw [h.nil_iff.mpr rfl]
  | cons c s =>
    obtain ⟨w, ws, hw⟩ := words_cons (stops_cons.mp hs) s
    rw [hw]
    rfl

end Widened

theorem stops_trimStart (s : List Char) : Stops isBlank (trimStart s) := by
  intro c hc
  have h := List.head?_dropWhile_not isBlank s
  rw [trimStart, Option.mem_def] at hc
  rw [hc] at h
  exact h

theorem not_mem_of_mem_words {s w : List Char} (hw : w ∈ words s) : '\n' ∉ w := by
  intro hmem
  have hblank := (mem_pieces (List.mem_filter.mp hw).1 _ hmem).2
  exact Bool.false_ne_true (hblank.symm.trans (by decide))

theorem not_mem_firstWord {s : List Char} (hs : Stops isBlank s) : '\n' ∉ firstWord s := by
  cases s with
  | nil => decide
  | cons c s =>
    obtain ⟨w, ws, hw⟩ := words_cons (stops_cons.mp hs) s
    rw [firstWord, hw]
    exact not_mem_of_mem_words (hw ▸ List.mem_cons_self)

structure WidenedItem (x y : List Char) : Prop where
  widened : Widened x y
  stops : Stops isBlank x

theorem Widened.commaItems {s t : List Char} (h : Widened s t) :
    List.Forall₂ WidenedItem (commaItems s) (Text.commaItems t) := by
  have hpieces := h.pieces (solid_of_eq (by decide) (by decide) (by decide) : Solid (· == ','))
  refine List.rel_filter ?_ (List.rel_map ?_ hpieces)
  · intro x y hxy
    simp only [hxy.widened.isEmpty_eq]
  · intro x y hxy
    exact ⟨hxy.trim, head?_trim x⟩

end ModuleGraph.Text

namespace ModuleGraph.Curly

open Text

theorem stripTypeMark_widened {x y : List Char} (h : WidenedItem x y) :
    WidenedItem (stripTypeMark x).1 (stripTypeMark y).1 ∧ (stripTypeMark y).2 = (stripTypeMark x).2 := by
  have hrel := h.widened.after? (w := "type".toList) (by decide)
  unfold stripTypeMark
  generalize after? "type".toList x = rest at hrel
  generalize after? "type".toList y = rest' at hrel
  cases hrel with
  | none => exact ⟨h, rfl⟩
  | some hrest =>
    cases hrest with
    | nil => exact ⟨h, rfl⟩
    | @cons c s t hc hst =>
      dsimp only
      split
      · exact ⟨⟨(Widened.cons hc hst).trimStart, stops_trimStart _⟩, rfl⟩
      · exact ⟨h, rfl⟩
    | @newline f s t hf hst =>
      dsimp only
      rw [if_pos (by decide), if_pos hf.isBlank]
      exact ⟨⟨(Widened.newline hf hst).trimStart, stops_trimStart _⟩, rfl⟩

theorem outerName_widened {x y : List Char} (h : WidenedItem x y) : outerName y = outerName x := by
  rw [outerName, outerName, h.widened.words_eq, h.widened.firstWord_eq h.stops]

theorem startsBare_widened {s t : List Char} (h : Widened s t) : startsBare t = startsBare s := by
  rw [startsBare, startsBare, h.startsWith_eq (by decide), h.startsWith_eq (by decide)]

theorem drop_upTo (sep : Char → Bool) (s : List Char) :
    s.drop ((upTo sep s).length + 1) = (s.dropWhile fun c => !sep c).tail := by
  have hsplit : upTo sep s ++ s.dropWhile (fun c => !sep c) = s := List.takeWhile_append_dropWhile
  have hdrop : s.drop (upTo sep s).length = s.dropWhile fun c => !sep c := by
    have h := @List.drop_left _ (upTo sep s) (s.dropWhile fun c => !sep c)
    rwa [hsplit] at h
  rw [← List.drop_drop, hdrop, List.drop_one]

theorem splitDefault_widened {s t : List Char} (h : Widened (trim s) (trim t)) :
    (splitDefault t).1 = (splitDefault s).1 ∧ Widened (splitDefault s).2 (splitDefault t).2 := by
  have hcomma : Solid (· == ',') := solid_of_eq (by decide) (by decide) (by decide)
  rw [splitDefault, splitDefault]
  dsimp only
  rw [startsBare_widened h]
  split
  · exact ⟨rfl, h⟩
  · rw [drop_upTo, drop_upTo]
    have hhead := h.upTo hcomma.uniform
    refine ⟨by rw [hhead.trim.isEmpty_eq], ?_⟩
    have hbefore : Uniform fun c : Char => !(c == ',') := uniform_of_eq (by decide) (by decide)
    have hrest := h.dropWhile hbefore
    have hstop : Stops (fun c => !(c == ',')) ((trim s).dropWhile fun c => !(c == ',')) := by
      intro c hc
      have hnot := List.head?_dropWhile_not (fun c => !(c == ',')) (trim s)
      rw [Option.mem_def.mp hc] at hnot
      exact hnot
    generalize (trim s).dropWhile (fun c => !(c == ',')) = x at hrest hstop
    generalize (trim t).dropWhile (fun c => !(c == ',')) = y at hrest
    cases hrest with
    | nil => exact .nil
    | cons _ hxy => exact hxy.trim
    | newline => exact absurd (stops_cons.mp hstop) (by decide)

def WidenedMarked (i j : List Char × Bool) : Prop :=
  WidenedItem i.1 j.1 ∧ j.2 = i.2

theorem markedItems_widened {s t : List Char} (h : Widened s t) :
    List.Forall₂ WidenedMarked ((commaItems s).map stripTypeMark) ((commaItems t).map stripTypeMark) := by
  refine List.forall₂_map_left_iff.mpr (List.forall₂_map_right_iff.mpr (h.commaItems.imp ?_))
  exact fun _ _ hxy => stripTypeMark_widened hxy

theorem stops_stripTypeMark {item : List Char} (h : Stops isBlank item) : Stops isBlank (stripTypeMark item).1 := by
  rw [stripTypeMark]
  split
  · split
    · exact stops_trimStart _
    · exact h
  · exact h

theorem stops_of_mem_commaItems {s item : List Char} (h : item ∈ commaItems s) : Stops isBlank item := by
  obtain ⟨x, -, rfl⟩ := List.mem_map.mp (List.mem_filter.mp h).1
  exact head?_trim x

theorem firstWords_widened {xs ys : List (List Char × Bool)} (h : List.Forall₂ WidenedMarked xs ys) :
    ys.map (fun i => firstWord i.1) = xs.map fun i => firstWord i.1 := by
  induction h with
  | nil => rfl
  | cons hij _ ih => rw [List.map_cons, List.map_cons, ih, hij.1.widened.firstWord_eq hij.1.stops]

theorem all_marked_widened {xs ys : List (List Char × Bool)} (h : List.Forall₂ WidenedMarked xs ys) :
    (!ys.isEmpty && ys.all (·.2)) = (!xs.isEmpty && xs.all (·.2)) := by
  have hall : ys.all (·.2) = xs.all (·.2) := by
    induction h with
    | nil => rfl
    | cons hij _ ih => rw [List.all_cons, List.all_cons, ih, hij.2]
  rw [hall]
  cases h <;> rfl

/-- What a clause binds, told from whether it has a default binding and what follows that. -/
def Clause.ofRest (hasDefault : Bool) (rest : List Char) : Clause :=
  let defaults := if hasDefault then ["default".toList] else []
  match rest with
  | '*' :: _ => { names := defaults ++ [['*']], hasDefault, hasNamespace := true }
  | '{' :: inner =>
    let items := (commaItems (upTo (· == '}') inner)).map stripTypeMark
    { names := defaults ++ items.map fun i => firstWord i.1
      hasDefault
      allTypes := !items.isEmpty && items.all (·.2) && !hasDefault }
  | _ => { names := defaults, hasDefault }

theorem Clause.parse_eq (s : List Char) : Clause.parse s = .ofRest (splitDefault s).1 (splitDefault s).2 := rfl

theorem Clause.ofRest_of_ne {c : Char} (hstar : c ≠ '*') (hbrace : c ≠ '{') (hasDefault : Bool) (cs : List Char) :
    Clause.ofRest hasDefault (c :: cs) = .ofRest hasDefault [] := by
  rw [ofRest]
  · rfl
  · exact fun tail h => hstar (List.cons.inj h).1
  · exact fun inner h => hbrace (List.cons.inj h).1

theorem Clause.ofRest_widened {s t : List Char} (h : Widened s t) (hasDefault : Bool) :
    Clause.ofRest hasDefault t = .ofRest hasDefault s := by
  cases h with
  | nil => rfl
  | @cons c s t hc hst =>
    by_cases hstar : c = '*'
    · subst hstar
      rfl
    · by_cases hbrace : c = '{'
      · subst hbrace
        have hend : Uniform fun c : Char => c == '}' := uniform_of_eq (by decide) (by decide)
        have hitems := markedItems_widened (hst.upTo hend)
        simp only [ofRest, firstWords_widened hitems, all_marked_widened hitems]
      · rw [ofRest_of_ne hstar hbrace, ofRest_of_ne hstar hbrace]
  | newline hf hst => rcases hf with rfl | rfl <;> rfl

theorem Clause.parse_widened {s t : List Char} (h : Widened (trim s) (trim t)) : Clause.parse t = Clause.parse s := by
  obtain ⟨hdefault, hrest⟩ := splitDefault_widened h
  rw [parse_eq, parse_eq, hdefault, ofRest_widened hrest]

theorem Clause.not_mem_names {s n : List Char} (h : n ∈ (Clause.parse s).names) : '\n' ∉ n := by
  rw [parse_eq] at h
  generalize (splitDefault s).1 = hasDefault at h
  generalize (splitDefault s).2 = rest at h
  have hdefault : n ∈ (if hasDefault then ["default".toList] else []) → '\n' ∉ n := by
    intro hn
    split at hn
    · rw [List.mem_singleton.mp hn]
      decide
    · cases hn
  unfold ofRest at h
  dsimp only at h
  generalize (if hasDefault then ["default".toList] else []) = defaults at h hdefault
  split at h
  · rcases List.mem_append.mp h with hn | hn
    · exact hdefault hn
    · rw [List.mem_singleton.mp hn]
      decide
  · rcases List.mem_append.mp h with hn | hn
    · exact hdefault hn
    · obtain ⟨_, hi, rfl⟩ := List.mem_map.mp hn
      obtain ⟨item, hitem, rfl⟩ := List.mem_map.mp hi
      exact not_mem_firstWord (stops_stripTypeMark (stops_of_mem_commaItems hitem))
  · exact hdefault h

theorem stripBraces_widened {s t : List Char} (h : Widened s t) : Widened (stripBraces s) (stripBraces t) := by
  have hbrace : Uniform fun c : Char => c == '{' || c == '}' := uniform_of_eq (by decide) (by decide)
  exact (h.dropWhile hbrace).dropEndWhile hbrace

theorem entries_widened {sep : Char → Bool} (hsep : Uniform sep) {s t : List Char} (h : Widened s t) :
    List.Forall₂ Widened ((pieces (· == ',') (stripBraces s)).map fun x => trim (upTo sep x))
      ((pieces (· == ',') (stripBraces t)).map fun x => trim (upTo sep x)) := by
  have hcomma : Solid (· == ',') := solid_of_eq (by decide) (by decide) (by decide)
  refine List.forall₂_map_left_iff.mpr (List.forall₂_map_right_iff.mpr ?_)
  exact ((stripBraces_widened h).pieces hcomma).imp fun _ _ hxy => (hxy.upTo hsep).trim

theorem boundNames_widened {s t : List Char} (h : Widened s t) :
    List.Forall₂ Widened (boundNames s) (boundNames t) := by
  refine List.rel_filter ?_ (entries_widened (uniform_of_eq (by decide) (by decide)) h)
  intro x y hxy
  simp only [hxy.isEmpty_eq, hxy.startsWith_eq (by decide : EndsPlain "...".toList)]

theorem filter_widened {ok : Char → Bool} (hok : Solid ok) {xs ys : List (List Char)} (h : List.Forall₂ Widened xs ys) :
    (ys.filter fun x => !x.isEmpty && x.all ok) = xs.filter fun x => !x.isEmpty && x.all ok := by
  induction h with
  | nil => rfl
  | @cons x y _ _ hxy _ ih =>
    by_cases hnewline : '\n' ∈ x
    · have hx : x.all ok = false := List.all_eq_false.mpr ⟨_, hnewline, by simp [hok.newline]⟩
      have hnewline' : '\n' ∈ y := by
        rw [← List.count_pos_iff, hxy.count_newline, List.count_pos_iff]
        exact hnewline
      have hy : y.all ok = false := List.all_eq_false.mpr ⟨_, hnewline', by simp [hok.newline]⟩
      simp [hx, hy, ih]
    · rw [hxy.eq_of_not_mem hnewline, List.filter_cons, List.filter_cons, ih]

theorem objectKeys_widened {s t : List Char} (h : Widened s t) : objectKeys t = objectKeys s := by
  have hclass : Solid fun c => isAlphanumeric c || c == '_' || c == '$' :=
    solid_of_eq (by decide) (by decide) (by decide)
  exact filter_widened hclass (entries_widened (uniform_of_eq (by decide) (by decide)) h)

end ModuleGraph.Curly
