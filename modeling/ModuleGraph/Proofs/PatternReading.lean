import ModuleGraph.Pattern
import ModuleGraph.Proofs.TextPieces

namespace ModuleGraph

open Text (byteLength Stops)

namespace Cursor

def beyond (place : Cursor) (s rest : List Char) : Cursor :=
  ⟨place.offset + byteLength s, s.getLast?.or place.before, rest⟩

@[simp] theorem beyond_rest (place : Cursor) (s rest : List Char) : (place.beyond s rest).rest = rest := rfl

@[simp] theorem beyond_offset (place : Cursor) (s rest : List Char) :
    (place.beyond s rest).offset = place.offset + byteLength s := rfl

theorem beyond_nil (place : Cursor) : place.beyond [] place.rest = place := rfl

theorem beyond_beyond (place : Cursor) (s t rest rest' : List Char) :
    (place.beyond s rest').beyond t rest = place.beyond (s ++ t) rest := by
  simp [beyond, Text.byteLength_append, Nat.add_assoc, List.getLast?_append, Option.or_assoc]

theorem past_eq_beyond (place : Cursor) (c : Char) (rest : List Char) : place.past c rest = place.beyond [c] rest := by
  simp [past, beyond, byteLength]

theorem skip_eq_beyond (place : Cursor) {w rest : List Char} (h : place.rest = w ++ rest) :
    place.skip w.length = place.beyond w rest := by
  induction w generalizing place with
  | nil =>
    rw [List.nil_append] at h
    rw [← h]
    exact (beyond_nil place).symm
  | cons c w ih =>
    have hstep : place.skip (w.length + 1) = (place.past c (w ++ rest)).skip w.length := by
      rw [skip, h]
      rfl
    rw [List.length_cons, hstep, ih _ rfl, past_eq_beyond, beyond_beyond, List.singleton_append]

@[simp] theorem textTo_beyond (place place' : Cursor) (u u' w rest : List Char) :
    (place.beyond u (w ++ rest)).textTo (place'.beyond u' rest) = w := by
  simp [textTo]

@[simp] theorem textTo_beyond_nil (place place' : Cursor) (u u' w : List Char) :
    (place.beyond u w).textTo (place'.beyond u' []) = w := by
  simp [textTo]

/-- The place after the beginning of a text, in front of the rest. -/
def after (u rest : List Char) : Cursor :=
  ⟨byteLength u, u.getLast?, rest⟩

theorem after_beyond (u s rest rest' : List Char) : (after u rest').beyond s rest = after (u ++ s) rest := by
  simp [after, beyond, Text.byteLength_append, List.getLast?_append]

theorem after_past (u : List Char) (c : Char) (rest rest' : List Char) :
    (after u rest').past c rest = after (u ++ [c]) rest := by
  rw [past_eq_beyond, after_beyond]

theorem textTo_after (u u' w rest : List Char) : (after u (w ++ rest)).textTo (after u' rest) = w := by
  simp [textTo, after]

theorem textTo_of_le (u u' : List Char) {rest rest' : List Char} (h : rest.length ≤ rest'.length) :
    (after u rest).textTo (after u' rest') = [] := by
  simp [textTo, after, Nat.sub_eq_zero_of_le h]

end Cursor

inductive Repeats (reads : Option Char → List Char → List Char → Prop) : Option Char → List Char → List Char → Prop
  | done {before rest} : Repeats reads before [] rest
  | more {before s t rest} : reads before s (t ++ rest) → Repeats reads (s.getLast?.or before) t rest →
      Repeats reads before (s ++ t) rest

inductive RepeatsParts (reads : Cursor → List Char → List Char → List Part → Prop) :
    Cursor → List Char → List Char → List Part → Prop
  | done {place rest} : RepeatsParts reads place [] rest []
  | more {place s t rest ps qs} : reads place s (t ++ rest) ps →
      RepeatsParts reads (place.beyond s (t ++ rest)) t rest qs → RepeatsParts reads place (s ++ t) rest (qs ++ ps)

namespace Pattern

/-- What a pattern can be read as after a character and in front of a rest. -/
def Reads : Pattern → Option Char → List Char → List Char → Prop
  | .empty, _, s, _ => s = []
  | .one ok, _, s, _ => ∃ c, s = [c] ∧ ok c = true
  | .anchor a, before, s, rest => s = [] ∧ a.holds ⟨0, before, rest⟩ = true
  | .seq p q, before, s, rest =>
    ∃ u v, s = u ++ v ∧ p.Reads before u (v ++ rest) ∧ q.Reads (u.getLast?.or before) v rest
  | .either p q, before, s, rest => p.Reads before s rest ∨ q.Reads before s rest
  | .span ok spare, _, s, rest =>
    ∃ kept rest', rest = kept ++ rest' ∧ kept.length = spare ∧ (∀ c ∈ s ++ kept, ok c = true) ∧ Stops ok rest'
  | .many _ p, before, s, rest => Repeats (fun before s rest => p.Reads before s rest) before s rest
  | .part _ p, before, s, rest => p.Reads before s rest

/-- What a pattern can be read as from a place on and in front of a rest, with the parts that are named on the way,
latest first. -/
def ReadsParts : Pattern → Cursor → List Char → List Char → List Part → Prop
  | .empty, place, s, rest, parts => Pattern.empty.Reads place.before s rest ∧ parts = []
  | .one ok, place, s, rest, parts => (Pattern.one ok).Reads place.before s rest ∧ parts = []
  | .anchor a, place, s, rest, parts => (Pattern.anchor a).Reads place.before s rest ∧ parts = []
  | .seq p q, place, s, rest, parts =>
    ∃ u v ps qs, s = u ++ v ∧ parts = qs ++ ps ∧ p.ReadsParts place u (v ++ rest) ps ∧
      q.ReadsParts (place.beyond u (v ++ rest)) v rest qs
  | .either p q, place, s, rest, parts => p.ReadsParts place s rest parts ∨ q.ReadsParts place s rest parts
  | .span ok spare, place, s, rest, parts => (Pattern.span ok spare).Reads place.before s rest ∧ parts = []
  | .many _ p, place, s, rest, parts =>
    RepeatsParts (fun place s rest parts => p.ReadsParts place s rest parts) place s rest parts
  | .part slot p, place, s, rest, parts =>
    ∃ ps, parts = ⟨slot, place.beyond [] (s ++ rest), place.beyond s rest⟩ :: ps ∧ p.ReadsParts place s rest ps

section Sound

variable {β : Type} {x : β}

theorem orElse_eq_some {a b : Option β} (h : (a.orElse fun _ => b) = some x) : a = some x ∨ b = some x := by
  rw [Option.orElse_eq_or, Option.or_eq_some_iff] at h
  exact h.imp_right And.right

def ReadsOn (reads : Option Char → List Char → List Char → Prop) (next : Reading → Option β) (x : β)
    (r : Reading) : Prop :=
  ∃ s rest parts, r.place.rest = s ++ rest ∧ reads r.place.before s rest ∧
    next ⟨r.place.beyond s rest, parts⟩ = some x

def ReadsPartsOn (reads : Cursor → List Char → List Char → List Part → Prop) (next : Reading → Option β) (x : β)
    (r : Reading) : Prop :=
  ∃ s rest parts, r.place.rest = s ++ rest ∧ reads r.place s rest parts ∧
    next ⟨r.place.beyond s rest, parts ++ r.parts⟩ = some x

theorem anchor_holds_offset (a : Anchor) (place : Cursor) : a.holds ⟨0, place.before, place.rest⟩ = a.holds place := by
  cases a <;> rfl

theorem repeatReading_parts {step : (Reading → Option β) → Reading → Option β}
    {reads : Cursor → List Char → List Char → List Part → Prop}
    (hstep : ∀ next r, step next r = some x → ReadsPartsOn reads next x r) (eager : Bool) (next : Reading → Option β)
    (fuel : Nat) (r : Reading) (h : repeatReading step eager next fuel r = some x) :
    ReadsPartsOn (RepeatsParts reads) next x r := by
  have hdone : ∀ r, next r = some x → ReadsPartsOn (RepeatsParts reads) next x r := fun r hr =>
    ⟨[], r.place.rest, [], rfl, .done, hr⟩
  induction fuel generalizing r with
  | zero => exact hdone r h
  | succ fuel ih =>
    have hmore : step (fun r' => if r.place.offset < r'.place.offset then
        repeatReading step eager next fuel r' else none) r = some x → ReadsPartsOn (RepeatsParts reads) next x r := by
      intro hs
      obtain ⟨s, rest, parts, hrest, hreads, hnext⟩ := hstep _ _ hs
      dsimp only at hnext
      split at hnext
      · obtain ⟨t, rest', parts', hrest', hreads', hnext'⟩ := ih _ hnext
        have hrest' : rest = t ++ rest' := hrest'
        subst hrest'
        refine ⟨s ++ t, rest', parts' ++ parts, by rw [hrest, List.append_assoc], .more hreads hreads', ?_⟩
        rwa [Cursor.beyond_beyond, ← List.append_assoc] at hnext'
      · cases hnext
    rw [repeatReading] at h
    split at h
    · rcases orElse_eq_some h with h | h
      · exact hmore h
      · exact hdone r h
    · rcases orElse_eq_some h with h | h
      · exact hdone r h
      · exact hmore h

/-- A pattern goes on only after something that it can be read as, and adds the parts of that reading. -/
theorem read_parts (p : Pattern) (next : Reading → Option β) (r : Reading) (h : p.read next r = some x) :
    ReadsPartsOn p.ReadsParts next x r := by
  induction p generalizing next r with
  | empty => exact ⟨[], r.place.rest, [], rfl, ⟨rfl, rfl⟩, h⟩
  | one ok =>
    rw [read] at h
    split at h
    · cases h
    · rename_i c cs hcs
      split at h
      · rename_i hc
        rw [Cursor.past_eq_beyond] at h
        exact ⟨[c], cs, [], hcs, ⟨⟨c, rfl, hc⟩, rfl⟩, h⟩
      · cases h
  | anchor a =>
    rw [read] at h
    split at h
    · rename_i ha
      exact ⟨[], r.place.rest, [], rfl, ⟨⟨rfl, (anchor_holds_offset a r.place).trans ha⟩, rfl⟩, h⟩
    · cases h
  | seq p q ihp ihq =>
    obtain ⟨u, rest, parts, hu, hp, hq⟩ := ihp _ _ h
    obtain ⟨v, rest', parts', hv, hq, hnext⟩ := ihq _ _ hq
    have hv : rest = v ++ rest' := hv
    subst hv
    refine ⟨u ++ v, rest', parts' ++ parts, by rw [hu, List.append_assoc], ⟨u, v, parts, parts', rfl, rfl, hp, hq⟩, ?_⟩
    rwa [Cursor.beyond_beyond, ← List.append_assoc] at hnext
  | either p q ihp ihq =>
    rcases orElse_eq_some h with h | h
    · obtain ⟨s, rest, parts, hs, hp, hnext⟩ := ihp _ _ h
      exact ⟨s, rest, parts, hs, .inl hp, hnext⟩
    · obtain ⟨s, rest, parts, hs, hq, hnext⟩ := ihq _ _ h
      exact ⟨s, rest, parts, hs, .inr hq, hnext⟩
  | span ok spare =>
    obtain ⟨w, rest, hw, hok, hstop, hlen⟩ := Text.exists_run ok r.place.rest
    rw [read, hlen] at h
    split at h
    · rename_i hspare
      have hsplit : r.place.rest = w.take (w.length - spare) ++ (w.drop (w.length - spare) ++ rest) := by
        rw [← List.append_assoc, List.take_append_drop, hw]
      have hskip := Cursor.skip_eq_beyond r.place hsplit
      rw [List.length_take, Nat.min_eq_left (Nat.sub_le _ _)] at hskip
      rw [hskip] at h
      refine ⟨_, _, [], hsplit, ⟨⟨w.drop (w.length - spare), rest, rfl, ?_, ?_, hstop⟩, rfl⟩, h⟩
      · rw [List.length_drop, Nat.sub_sub_self hspare]
      · rwa [List.take_append_drop]
    · cases h
  | many eager p ih => exact repeatReading_parts (fun next r h => ih next r h) eager next _ r h
  | part slot p ih =>
    obtain ⟨s, rest, parts, hs, hp, hnext⟩ := ih _ _ h
    refine ⟨s, rest, ⟨slot, r.place, r.place.beyond s rest⟩ :: parts, hs, ⟨parts, ?_, hp⟩, hnext⟩
    rw [← hs]
    rfl

theorem ReadsParts.reads {p : Pattern} {place : Cursor} {s rest : List Char} {parts : List Part}
    (h : p.ReadsParts place s rest parts) : p.Reads place.before s rest := by
  induction p generalizing place s rest parts with
  | empty | one | anchor | span => exact h.1
  | seq p q ihp ihq =>
    obtain ⟨u, v, ps, qs, rfl, -, hp, hq⟩ := h
    exact ⟨u, v, rfl, ihp hp, ihq hq⟩
  | either p q ihp ihq => exact h.imp ihp ihq
  | many eager p ih =>
    have hmany : RepeatsParts (fun place s rest parts => p.ReadsParts place s rest parts) place s rest parts := h
    show Repeats (fun before s rest => p.Reads before s rest) place.before s rest
    induction hmany with
    | done => exact .done
    | more hp _ iht => exact .more (ih hp) (iht ‹_›)
  | part slot p ih =>
    obtain ⟨ps, -, hp⟩ := h
    exact ih hp

theorem read_sound (p : Pattern) (next : Reading → Option β) (r : Reading) (h : p.read next r = some x) :
    ReadsOn p.Reads next x r := by
  obtain ⟨s, rest, parts, hs, hp, hnext⟩ := read_parts p next r h
  exact ⟨s, rest, _, hs, hp.reads, hnext⟩

def Unread (p : Pattern) (before : Option Char) (t : List Char) : Prop :=
  ∀ s rest, t = s ++ rest → ¬ p.Reads before s rest

theorem read_eq_none {p : Pattern} {next : Reading → Option β} {r : Reading}
    (h : p.Unread r.place.before r.place.rest) : p.read next r = none := by
  rw [Option.eq_none_iff_forall_ne_some]
  intro x hx
  obtain ⟨s, rest, _, hs, hp, -⟩ := read_sound p _ _ hx
  exact h s rest hs hp

end Sound

section Reads

variable {before : Option Char} {s rest : List Char}

theorem reads_text {t : String} : (text t).Reads before s rest ↔ s = t.toList := by
  rw [text]
  generalize t.toList = cs
  induction cs generalizing s before with
  | nil => rfl
  | cons c cs ih => simp [Reads, ih]

theorem reads_run {ok : Char → Bool} : (run ok).Reads before s rest ↔ (∀ c ∈ s, ok c = true) ∧ Stops ok rest := by
  simp only [run, Reads]
  constructor
  · rintro ⟨kept, rest', rfl, hkept, hok, hstop⟩
    rw [List.eq_nil_of_length_eq_zero hkept] at hok ⊢
    exact ⟨fun c hc => hok c (List.mem_append_left [] hc), hstop⟩
  · rintro ⟨hok, hstop⟩
    exact ⟨[], rest, rfl, rfl, by rwa [List.append_nil], hstop⟩

theorem reads_run1 {ok : Char → Bool} :
    (run1 ok).Reads before s rest ↔ s ≠ [] ∧ (∀ c ∈ s, ok c = true) ∧ Stops ok rest := by
  simp only [run1, Reads, reads_run]
  constructor
  · rintro ⟨u, v, rfl, ⟨c, rfl, hc⟩, hv, hstop⟩
    simpa [hc] using ⟨hv, hstop⟩
  · rintro ⟨hne, hok, hstop⟩
    obtain ⟨c, cs, rfl⟩ := List.exists_cons_of_ne_nil hne
    obtain ⟨hc, hcs⟩ := List.forall_mem_cons.mp hok
    exact ⟨[c], cs, rfl, ⟨c, rfl, hc⟩, hcs, hstop⟩

theorem reads_inOrder_cons {p : Pattern} {ps : List Pattern} :
    (inOrder (p :: ps)).Reads before s rest ↔
      ∃ u v, s = u ++ v ∧ p.Reads before u (v ++ rest) ∧ (inOrder ps).Reads (u.getLast?.or before) v rest :=
  Iff.rfl

theorem Unread.seq {p : Pattern} {t : List Char} (h : p.Unread before t) (q : Pattern) :
    (Pattern.seq p q).Unread before t := by
  rintro s rest rfl ⟨u, v, rfl, hu, -⟩
  exact h u (v ++ rest) (by rw [List.append_assoc]) hu

def Opens (p : Pattern) (openers : List String) : Prop :=
  ∀ before s rest, p.Reads before s rest → ∃ w ∈ openers, w.toList <+: s

section Openers

variable {p q : Pattern} {openers openers' : List String}

theorem opens_text (w : String) : (text w).Opens [w] :=
  fun _ _ _ h => ⟨w, List.mem_singleton_self w, reads_text.mp h ▸ List.prefix_rfl⟩

theorem opens_char {c : Char} {w : String} (hw : w.toList = [c]) : (one (· == c)).Opens [w] := by
  rintro before s rest ⟨d, rfl, hd⟩
  exact ⟨w, List.mem_singleton_self w, hw ▸ beq_iff_eq.mp hd ▸ List.prefix_rfl⟩

theorem Opens.seq (hp : p.Opens openers) (q : Pattern) : (Pattern.seq p q).Opens openers := by
  rintro before s rest ⟨u, v, rfl, hu, -⟩
  obtain ⟨w, hw, hwu⟩ := hp _ _ _ hu
  exact ⟨w, hw, hwu.trans (List.prefix_append u v)⟩

theorem Opens.either (hp : p.Opens openers) (hq : q.Opens openers') :
    (Pattern.either p q).Opens (openers ++ openers') := by
  rintro before s rest (h | h)
  · obtain ⟨w, hw, hws⟩ := hp _ _ _ h
    exact ⟨w, List.mem_append_left _ hw, hws⟩
  · obtain ⟨w, hw, hws⟩ := hq _ _ _ h
    exact ⟨w, List.mem_append_right _ hw, hws⟩

theorem Opens.optional_seq (hp : p.Opens openers) (hq : q.Opens openers') :
    (Pattern.seq (optional p) q).Opens (openers ++ openers') := by
  rintro before s rest ⟨u, v, rfl, hu | rfl, hv⟩
  · obtain ⟨w, hw, hwu⟩ := hp _ _ _ hu
    exact ⟨w, List.mem_append_left _ hw, hwu.trans (List.prefix_append u v)⟩
  · obtain ⟨w, hw, hwv⟩ := hq _ _ _ hv
    exact ⟨w, List.mem_append_right _ hw, hwv⟩

theorem Opens.anchor_seq (hp : p.Opens openers) (a : Anchor) : (Pattern.seq (.anchor a) p).Opens openers := by
  rintro before s rest ⟨u, v, rfl, ⟨rfl, -⟩, hv⟩
  exact hp _ _ _ hv

theorem Opens.unread {t : List Char} (hp : p.Opens openers) (h : ∀ w ∈ openers, ¬ w.toList <+: t) :
    p.Unread before t := by
  intro s rest ht hread
  obtain ⟨w, hw, hws⟩ := hp _ _ _ hread
  exact h w hw (ht ▸ hws.trans (List.prefix_append s rest))

theorem Opens.unread_cons {c : Char} {t : List Char} (hp : p.Opens openers)
    (h : ∀ w ∈ openers, ∃ d ∈ w.toList.head?, d ≠ c) : p.Unread before (c :: t) := by
  refine hp.unread fun w hw hwt => ?_
  obtain ⟨d, hd, hne⟩ := h w hw
  obtain ⟨cs, hcs⟩ := List.head?_eq_some_iff.mp hd
  rw [hcs] at hwt
  exact hne (List.cons_prefix_cons.mp hwt).1

end Openers

end Reads

section Forced

variable {β : Type} {next : Reading → Option β} {place : Cursor} {u w rest : List Char} {parts : List Part}

theorem read_seq (p q : Pattern) (next : Reading → Option β) (r : Reading) :
    (seq p q).read next r = p.read (q.read next) r := rfl

theorem read_part (slot : Slot) (p : Pattern) (next : Reading → Option β) (r : Reading) :
    (part slot p).read next r =
      p.read (fun r' => next { r' with parts := ⟨slot, r.place, r'.place⟩ :: r'.parts }) r := rfl

theorem read_inOrder_cons (p : Pattern) (ps : List Pattern) (next : Reading → Option β) (r : Reading) :
    (inOrder (p :: ps)).read next r = p.read ((inOrder ps).read next) r := rfl

theorem read_inOrder_nil (next : Reading → Option β) (r : Reading) : (inOrder []).read next r = next r := rfl

theorem exists_read_either {p q : Pattern} {r : Reading} {ok : β → Prop} (h : ∃ x, p.read next r = some x ∧ ok x) :
    ∃ x, (either p q).read next r = some x ∧ ok x := by
  obtain ⟨x, hx, hok⟩ := h
  refine ⟨x, ?_, hok⟩
  rw [read, hx]
  rfl

theorem read_either_of_some {p q : Pattern} {r : Reading} {x : β} (h : p.read next r = some x) :
    (either p q).read next r = some x := by
  rw [read, h]
  rfl

theorem read_either_of_none {p q : Pattern} {r : Reading} (h : p.read next r = none) :
    (either p q).read next r = q.read next r := by
  rw [read, h]
  rfl

theorem read_either_of_eq {p q : Pattern} {r : Reading} (h : p.read next r = q.read next r) :
    (either p q).read next r = q.read next r := by
  rw [read, h]
  cases q.read next r <;> rfl

theorem read_either_of_right_none {p q : Pattern} {r : Reading} (h : q.read next r = none) :
    (either p q).read next r = p.read next r := by
  rw [read, h]
  cases p.read next r <;> rfl

theorem read_optional_of_none {p : Pattern} {r : Reading} (h : p.read next r = none) :
    (optional p).read next r = next r :=
  read_either_of_none h

theorem read_one {ok : Char → Bool} {c : Char} (hc : ok c = true) :
    (one ok).read next ⟨place.beyond u (c :: rest), parts⟩ = next ⟨place.beyond (u ++ [c]) rest, parts⟩ := by
  have hread : (one ok).read next ⟨place.beyond u (c :: rest), parts⟩ =
      if ok c then next ⟨(place.beyond u (c :: rest)).past c rest, parts⟩ else none := rfl
  rw [hread, if_pos hc, Cursor.past_eq_beyond, Cursor.beyond_beyond]

theorem read_char (c : Char) :
    (one (· == c)).read next ⟨place.beyond u (c :: rest), parts⟩ = next ⟨place.beyond (u ++ [c]) rest, parts⟩ :=
  read_one (beq_self_eq_true c)

theorem read_text (s : String) :
    (text s).read next ⟨place.beyond u (s.toList ++ rest), parts⟩ =
      next ⟨place.beyond (u ++ s.toList) rest, parts⟩ := by
  rw [text]
  generalize s.toList = cs
  induction cs generalizing u with
  | nil => rw [List.nil_append, List.append_nil]; rfl
  | cons c cs ih =>
    rw [List.foldr_cons, List.cons_append, read_seq, read_char, ih, List.append_assoc, List.singleton_append]

theorem read_run {ok : Char → Bool} (hw : ∀ c ∈ w, ok c = true) (hrest : Stops ok rest) :
    (run ok).read next ⟨place.beyond u (w ++ rest), parts⟩ = next ⟨place.beyond (u ++ w) rest, parts⟩ := by
  have hread : (run ok).read next ⟨place.beyond u (w ++ rest), parts⟩ =
      next ⟨(place.beyond u (w ++ rest)).skip (Text.runLength ok (w ++ rest)), parts⟩ := rfl
  rw [hread, Text.runLength_eq hw hrest, Cursor.skip_eq_beyond _ rfl, Cursor.beyond_beyond]

theorem read_run1 {ok : Char → Bool} (hne : w ≠ []) (hw : ∀ c ∈ w, ok c = true) (hrest : Stops ok rest) :
    (run1 ok).read next ⟨place.beyond u (w ++ rest), parts⟩ = next ⟨place.beyond (u ++ w) rest, parts⟩ := by
  obtain ⟨c, cs, rfl⟩ := List.exists_cons_of_ne_nil hne
  obtain ⟨hc, hcs⟩ := List.forall_mem_cons.mp hw
  rw [run1, read_seq, List.cons_append, read_one hc, read_run hcs hrest, List.append_assoc, List.singleton_append]

theorem read_blanks1_space (hrest : Stops Text.isBlank rest) :
    blanks1.read next ⟨place.beyond u (' ' :: rest), parts⟩ = next ⟨place.beyond (u ++ [' ']) rest, parts⟩ :=
  @read_run1 β next place u [' '] rest parts _ (by simp) (by decide) hrest

theorem read_blanks_space (hrest : Stops Text.isBlank rest) :
    blanks.read next ⟨place.beyond u (' ' :: rest), parts⟩ = next ⟨place.beyond (u ++ [' ']) rest, parts⟩ :=
  @read_run β next place u [' '] rest parts _ (by decide) hrest

theorem read_blanks_none (hrest : Stops Text.isBlank rest) :
    blanks.read next ⟨place.beyond u rest, parts⟩ = next ⟨place.beyond u rest, parts⟩ := by
  have h := @read_run β next place u [] rest parts Text.isBlank (by simp) hrest
  rwa [List.append_nil] at h

theorem matchStart_eq (p : Pattern) (s : List Char) :
    p.matchStart s = p.read (fun r => some ⟨0, r.place.offset, r.parts⟩) ⟨(Cursor.start s).beyond [] s, []⟩ := rfl

theorem repeatReading_of_none {step : (Reading → Option β) → Reading → Option β} {r : Reading}
    (h : ∀ next, step next r = none) (eager : Bool) (fuel : Nat) : repeatReading step eager next fuel r = next r := by
  cases fuel with
  | zero => rfl
  | succ fuel =>
    rw [repeatReading, h]
    cases eager <;> simp

theorem read_many_of_none {p : Pattern} {r : Reading} (h : ∀ next : Reading → Option β, p.read next r = none)
    (eager : Bool) : (many eager p).read next r = next r :=
  repeatReading_of_none h eager _

theorem exists_read_many_once {p : Pattern} {r r' : Reading} {ok : β → Prop} (hrest : r.place.rest ≠ [])
    (hstep : ∀ next : Reading → Option β, p.read next r = next r') (hmove : r.place.offset < r'.place.offset)
    (hstop : ∀ next : Reading → Option β, p.read next r' = none) (h : ∃ x, next r' = some x ∧ ok x) :
    ∃ x, (many true p).read next r = some x ∧ ok x := by
  obtain ⟨x, hx, hok⟩ := h
  obtain ⟨c, cs, hcs⟩ := List.exists_cons_of_ne_nil hrest
  have hread : (many true p).read next r =
      repeatReading (fun k => p.read k) true next r.place.rest.length r := rfl
  refine ⟨x, ?_, hok⟩
  rw [hread, hcs, List.length_cons, repeatReading, if_pos rfl, hstep, if_pos hmove, repeatReading_of_none hstop, hx]
  rfl

section Repeated

variable {ok : Char → Bool} {x : β}

theorem repeatReading_step {next' : Reading → Option β} {c : Char} (hc : ok c = true) :
    (one ok).read (fun r' => if (place.beyond u (c :: rest)).offset < r'.place.offset then next' r' else none)
        ⟨place.beyond u (c :: rest), parts⟩ = next' ⟨place.beyond (u ++ [c]) rest, parts⟩ := by
  have hsize := c.utf8Size_pos
  have hlt : (place.beyond u (c :: rest)).offset < (place.beyond (u ++ [c]) rest).offset := by
    simp only [Cursor.beyond_offset, Text.byteLength_append, byteLength]
    omega
  rw [read_one hc, if_pos hlt]

/-- A lazy repetition goes on at the first place where what follows can be read. -/
theorem repeatReading_lazy {fuel : Nat} (hfuel : w.length ≤ fuel) (hw : ∀ c ∈ w, ok c = true)
    (hnone : ∀ v v', w = v ++ v' → v' ≠ [] → next ⟨place.beyond (u ++ v) (v' ++ rest), parts⟩ = none)
    (hend : next ⟨place.beyond (u ++ w) rest, parts⟩ = some x) :
    repeatReading (fun k => (one ok).read k) false next fuel ⟨place.beyond u (w ++ rest), parts⟩ = some x := by
  induction w generalizing u fuel with
  | nil =>
    rw [List.append_nil] at hend
    cases fuel with
    | zero => exact hend
    | succ fuel =>
      rw [repeatReading, List.nil_append, hend]
      rfl
  | cons c w ih =>
    obtain ⟨hc, hw⟩ := List.forall_mem_cons.mp hw
    cases fuel with
    | zero => simp at hfuel
    | succ fuel =>
      have hfirst := hnone [] (c :: w) rfl (List.cons_ne_nil c w)
      rw [List.append_nil, List.cons_append] at hfirst
      rw [repeatReading, List.cons_append, hfirst]
      refine (repeatReading_step hc).trans (ih (Nat.le_of_succ_le_succ hfuel) hw (fun v v' hv hne => ?_) ?_)
      · have h := hnone (c :: v) v' (by rw [hv]; rfl) hne
        rwa [← List.singleton_append, ← List.append_assoc] at h
      · rwa [← List.singleton_append, ← List.append_assoc] at hend

theorem repeatReading_eager {fuel : Nat} (hfuel : w.length ≤ fuel) (hw : ∀ c ∈ w, ok c = true) (hrest : Stops ok rest)
    (hend : next ⟨place.beyond (u ++ w) rest, parts⟩ = some x) :
    repeatReading (fun k => (one ok).read k) true next fuel ⟨place.beyond u (w ++ rest), parts⟩ = some x := by
  induction w generalizing u fuel with
  | nil =>
    rw [List.append_nil] at hend
    refine (repeatReading_of_none (fun next' => read_eq_none ?_) true fuel).trans hend
    rintro s t hs ⟨c, rfl, hc⟩
    have hs : rest = c :: t := hs
    rw [hs] at hrest
    rw [Text.stops_cons.mp hrest] at hc
    cases hc
  | cons c w ih =>
    obtain ⟨hc, hw⟩ := List.forall_mem_cons.mp hw
    cases fuel with
    | zero => simp at hfuel
    | succ fuel =>
      rw [← List.singleton_append, ← List.append_assoc] at hend
      have hmore := (@repeatReading_step β place u (w ++ rest) parts ok _ c hc).trans
        (ih (Nat.le_of_succ_le_succ hfuel) hw hend)
      rw [repeatReading, if_pos rfl, List.cons_append]
      exact (congrArg (Option.orElse · _) hmore).trans rfl

theorem read_lazyRun1 (hne : w ≠ []) (hw : ∀ c ∈ w, ok c = true)
    (hnone : ∀ v v', w = v ++ v' → v ≠ [] → v' ≠ [] → next ⟨place.beyond (u ++ v) (v' ++ rest), parts⟩ = none)
    (hend : next ⟨place.beyond (u ++ w) rest, parts⟩ = some x) :
    (lazyRun1 ok).read next ⟨place.beyond u (w ++ rest), parts⟩ = some x := by
  obtain ⟨c, w, rfl⟩ := List.exists_cons_of_ne_nil hne
  obtain ⟨hc, hw⟩ := List.forall_mem_cons.mp hw
  rw [lazyRun1, read_seq, List.cons_append, read_one hc]
  refine repeatReading_lazy (by simp) hw (fun v v' hv hne => ?_) ?_
  · have h := hnone (c :: v) v' (by rw [hv]; rfl) (List.cons_ne_nil c v) hne
    rwa [← List.singleton_append, ← List.append_assoc] at h
  · rwa [← List.singleton_append, ← List.append_assoc] at hend

theorem read_eagerRun1 (hne : w ≠ []) (hw : ∀ c ∈ w, ok c = true) (hrest : Stops ok rest)
    (hend : next ⟨place.beyond (u ++ w) rest, parts⟩ = some x) :
    (eagerRun1 ok).read next ⟨place.beyond u (w ++ rest), parts⟩ = some x := by
  obtain ⟨c, w, rfl⟩ := List.exists_cons_of_ne_nil hne
  obtain ⟨hc, hw⟩ := List.forall_mem_cons.mp hw
  rw [eagerRun1, read_seq, List.cons_append, read_one hc]
  rw [← List.singleton_append, ← List.append_assoc] at hend
  exact repeatReading_eager (by simp) hw hrest hend

end Repeated

end Forced

section Matches

variable {p : Pattern} {before : Option Char} {offset resume : Nat} {w rest : List Char}

theorem unread_tail {c : Char}
    (h : ∀ u v, c :: w = u ++ v → u ≠ [] → v ≠ [] → p.Unread (u.getLast?.or before) (v ++ rest)) :
    ∀ u v, w = u ++ v → v ≠ [] → p.Unread (u.getLast?.or (some c)) (v ++ rest) := by
  intro u v hw hv
  have hread := h (c :: u) v (by rw [hw]; rfl) (List.cons_ne_nil c u) hv
  rwa [← List.singleton_append, List.getLast?_append, Option.or_assoc] at hread

theorem matchesFrom_of_unread (h : ∀ u v, w = u ++ v → v ≠ [] → p.Unread (u.getLast?.or before) (v ++ rest)) :
    p.matchesFrom before offset resume (w ++ rest) =
      p.matchesFrom (w.getLast?.or before) (offset + byteLength w) resume rest := by
  induction w generalizing before offset with
  | nil => rfl
  | cons c w ih =>
    have hnone : p.matchAt ⟨offset, before, c :: (w ++ rest)⟩ = none :=
      read_eq_none (h [] (c :: w) rfl (List.cons_ne_nil c w))
    rw [List.cons_append, matchesFrom, hnone, ite_self]
    refine (ih (unread_tail fun u v hw _ hv => h u v hw hv)).trans ?_
    rw [byteLength, Nat.add_assoc, ← List.singleton_append, List.getLast?_append, Option.or_assoc]
    rfl

theorem matchesFrom_skip (h : offset + byteLength w ≤ resume) :
    p.matchesFrom before offset resume (w ++ rest) =
      p.matchesFrom (w.getLast?.or before) (offset + byteLength w) resume rest := by
  induction w generalizing before offset with
  | nil => rfl
  | cons c w ih =>
    have hsize := c.utf8Size_pos
    rw [byteLength] at h
    have hlt : offset < resume := by omega
    rw [List.cons_append, matchesFrom, if_pos hlt]
    refine (ih (by omega)).trans ?_
    rw [byteLength, Nat.add_assoc, ← List.singleton_append, List.getLast?_append, Option.or_assoc]
    rfl

theorem matchesFrom_of_match {m : Match} (hresume : resume ≤ offset) (hne : w ≠ [])
    (hm : p.matchAt ⟨offset, before, w ++ rest⟩ = some m) (hstop : m.stop = offset + byteLength w) :
    p.matchesFrom before offset resume (w ++ rest) =
      m :: p.matchesFrom (w.getLast?.or before) (offset + byteLength w) (offset + byteLength w) rest := by
  obtain ⟨c, w, rfl⟩ := List.exists_cons_of_ne_nil hne
  have hskip := @matchesFrom_skip p (some c) (offset + c.utf8Size) m.stop w rest
    (by rw [hstop, byteLength, Nat.add_assoc])
  rw [List.cons_append] at hm ⊢
  rw [matchesFrom, if_neg (Nat.not_lt.mpr hresume), hm]
  refine congrArg (m :: ·) (hskip.trans ?_)
  rw [hstop, byteLength, Nat.add_assoc, ← List.singleton_append, List.getLast?_append, Option.or_assoc]
  rfl

theorem matchesFrom_resume (h : resume ≤ offset) :
    p.matchesFrom before offset resume rest = p.matchesFrom before offset 0 rest := by
  induction rest generalizing before offset with
  | nil => rw [matchesFrom, matchesFrom, if_neg (Nat.not_lt.mpr h), if_neg (Nat.not_lt_zero offset)]
  | cons c cs ih =>
    have hnext := @ih (some c) (offset + c.utf8Size) (Nat.le_add_right_of_le h)
    rw [matchesFrom, matchesFrom, if_neg (Nat.not_lt.mpr h), if_neg (Nat.not_lt_zero offset), hnext]

theorem matchesFrom_of_front {m : Match} (hne : w ≠ []) (hm : p.matchAt ⟨offset, before, w ++ rest⟩ = some m)
    (hstop : m.stop ≤ offset + byteLength w)
    (h : ∀ u v, w = u ++ v → u ≠ [] → v ≠ [] → p.Unread (u.getLast?.or before) (v ++ rest)) :
    p.matchesFrom before offset 0 (w ++ rest) =
      m :: p.matchesFrom (w.getLast?.or before) (offset + byteLength w) 0 rest := by
  obtain ⟨c, w, rfl⟩ := List.exists_cons_of_ne_nil hne
  have htail := @matchesFrom_of_unread p (some c) (offset + c.utf8Size) m.stop w rest (unread_tail h)
  rw [List.cons_append] at hm ⊢
  rw [matchesFrom, if_neg (Nat.not_lt_zero offset), hm]
  refine congrArg (m :: ·) (htail.trans ?_)
  rw [byteLength, ← Nat.add_assoc] at hstop
  rw [matchesFrom_resume hstop, byteLength, Nat.add_assoc, ← List.singleton_append, List.getLast?_append,
    Option.or_assoc]
  rfl

theorem matchesIn_eq_nil {t : List Char}
    (h : ∀ before u v s rest, t = u ++ v → v = s ++ rest → ¬ p.Reads before s rest) : p.matchesIn t = [] := by
  have hall := @matchesFrom_of_unread p none 0 0 t [] fun u v ht _ s rest hv =>
    h _ u v s rest ht (by rwa [List.append_nil] at hv)
  have hend : p.matchAt ⟨0 + byteLength t, t.getLast?.or none, []⟩ = none :=
    read_eq_none fun s rest hs => h _ t [] s rest (List.append_nil t).symm hs
  rw [List.append_nil] at hall
  rw [matchesIn, hall, matchesFrom, hend]
  exact ite_self _

end Matches

end Pattern

end ModuleGraph
