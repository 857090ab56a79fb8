import ModuleGraph.Proofs.PatternReading

namespace ModuleGraph

open Text (byteLength Stops)

namespace Pattern

section Parts

variable {place : Cursor} {s rest : List Char} {parts : List Part}

def slots : Pattern → List Slot
  | .empty | .one _ | .anchor _ | .span _ _ => []
  | .seq p q | .either p q => p.slots ++ q.slots
  | .many _ p => p.slots
  | .part slot p => slot :: p.slots

theorem slots_text (w : String) : (text w).slots = [] := by
  rw [text]
  induction w.toList with
  | nil => rfl
  | cons c cs ih => rw [List.foldr_cons, slots, ih, slots, List.nil_append]

theorem ReadsParts.slot_mem {p : Pattern} (h : p.ReadsParts place s rest parts) :
    ∀ part ∈ parts, part.slot ∈ p.slots := by
  induction p generalizing place s rest parts with
  | empty | one | anchor | span => simp [h.2]
  | seq p q ihp ihq =>
    obtain ⟨u, v, ps, qs, -, rfl, hp, hq⟩ := h
    intro part hpart
    rcases List.mem_append.mp hpart with hpart | hpart
    · exact List.mem_append_right _ (ihq hq part hpart)
    · exact List.mem_append_left _ (ihp hp part hpart)
  | either p q ihp ihq =>
    intro part hpart
    rcases h with h | h
    · exact List.mem_append_left _ (ihp h part hpart)
    · exact List.mem_append_right _ (ihq h part hpart)
  | many eager p ih =>
    have hmany : RepeatsParts (fun place s rest parts => p.ReadsParts place s rest parts) place s rest parts := h
    show ∀ part ∈ parts, part.slot ∈ p.slots
    clear h
    induction hmany with
    | done => simp
    | more hp _ iht =>
      intro part hpart
      rcases List.mem_append.mp hpart with hpart | hpart
      · exact iht part hpart
      · exact ih hp part hpart
  | part slot p ih =>
    obtain ⟨ps, rfl, hp⟩ := h
    intro part hpart
    rcases List.mem_cons.mp hpart with rfl | hpart
    · exact List.mem_cons_self
    · exact List.mem_cons_of_mem _ (ih hp part hpart)

theorem ReadsParts.parts_eq_nil {p : Pattern} (h : p.ReadsParts place s rest parts) (hp : p.slots = []) :
    parts = [] := by
  rw [List.eq_nil_iff_forall_not_mem]
  intro part hpart
  have hmem := h.slot_mem part hpart
  rw [hp] at hmem
  cases hmem

theorem readsParts_inOrder_cons {p : Pattern} {ps : List Pattern} :
    (inOrder (p :: ps)).ReadsParts place s rest parts ↔
      ∃ u v xs ys, s = u ++ v ∧ parts = ys ++ xs ∧ p.ReadsParts place u (v ++ rest) xs ∧
        (inOrder ps).ReadsParts (place.beyond u (v ++ rest)) v rest ys :=
  Iff.rfl

theorem ReadsParts.find?_append {p : Pattern} {slot : Slot} {xs ys : List Part} (h : p.ReadsParts place s rest ys)
    (hslot : slot ∉ p.slots) : (ys ++ xs).find? (·.slot = slot) = xs.find? (·.slot = slot) := by
  have hnone : ys.find? (·.slot = slot) = none := by
    rw [List.find?_eq_none]
    rintro part hpart heq
    exact hslot (of_decide_eq_true heq ▸ h.slot_mem part hpart)
  rw [List.find?_append, hnone, Option.none_or]

def fixedSlots : Pattern → List Slot
  | .empty | .one _ | .anchor _ | .span _ _ | .either _ _ | .many _ _ => []
  | .seq p q => p.fixedSlots ++ q.fixedSlots
  | .part slot p => slot :: p.fixedSlots

theorem ReadsParts.exists_part {p : Pattern} {slot : Slot} (h : p.ReadsParts place s rest parts)
    (hslot : slot ∈ p.fixedSlots) : ∃ part ∈ parts, part.slot = slot := by
  induction p generalizing place s rest parts with
  | empty | one | anchor | span | either | many => cases hslot
  | seq p q ihp ihq =>
    obtain ⟨u, v, ps, qs, -, rfl, hp, hq⟩ := h
    rcases List.mem_append.mp hslot with hslot | hslot
    · obtain ⟨part, hpart, heq⟩ := ihp hp hslot
      exact ⟨part, List.mem_append_right _ hpart, heq⟩
    · obtain ⟨part, hpart, heq⟩ := ihq hq hslot
      exact ⟨part, List.mem_append_left _ hpart, heq⟩
  | part slot' p ih =>
    obtain ⟨ps, rfl, hp⟩ := h
    rcases List.mem_cons.mp hslot with rfl | hslot
    · exact ⟨_, List.mem_cons_self, rfl⟩
    · obtain ⟨part, hpart, heq⟩ := ih hp hslot
      exact ⟨part, List.mem_cons_of_mem _ hpart, heq⟩

def PartWithin (place : Cursor) (s rest : List Char) (part : Part) : Prop :=
  ∃ u w v, s = u ++ (w ++ v) ∧ part.first = place.beyond u (w ++ (v ++ rest)) ∧
    part.last = place.beyond (u ++ w) (v ++ rest)

theorem PartWithin.append_left {u v : List Char} {part : Part} (h : PartWithin place u (v ++ rest) part) :
    PartWithin place (u ++ v) rest part := by
  obtain ⟨u, w, v', rfl, hfirst, hlast⟩ := h
  refine ⟨u, w, v' ++ v, by simp, ?_, ?_⟩
  · rw [hfirst, List.append_assoc]
  · rw [hlast, List.append_assoc]

theorem PartWithin.append_right {u v : List Char} {part : Part}
    (h : PartWithin (place.beyond u (v ++ rest)) v rest part) : PartWithin place (u ++ v) rest part := by
  obtain ⟨u', w, v', rfl, hfirst, hlast⟩ := h
  refine ⟨u ++ u', w, v', by simp, ?_, ?_⟩
  · rw [hfirst, Cursor.beyond_beyond]
  · rw [hlast, Cursor.beyond_beyond, List.append_assoc]

theorem ReadsParts.partWithin {p : Pattern} (h : p.ReadsParts place s rest parts) :
    ∀ part ∈ parts, PartWithin place s rest part := by
  induction p generalizing place s rest parts with
  | empty | one | anchor | span => simp [h.2]
  | seq p q ihp ihq =>
    obtain ⟨u, v, ps, qs, rfl, rfl, hp, hq⟩ := h
    intro part hpart
    rcases List.mem_append.mp hpart with hpart | hpart
    · exact (ihq hq part hpart).append_right
    · exact (ihp hp part hpart).append_left
  | either p q ihp ihq =>
    rcases h with h | h
    · exact ihp h
    · exact ihq h
  | many eager p ih =>
    have hmany : RepeatsParts (fun place s rest parts => p.ReadsParts place s rest parts) place s rest parts := h
    clear h
    induction hmany with
    | done => simp
    | more hp _ iht =>
      intro part hpart
      rcases List.mem_append.mp hpart with hpart | hpart
      · exact (iht part hpart).append_right
      · exact (ih hp part hpart).append_left
  | part slot p ih =>
    obtain ⟨ps, rfl, hp⟩ := h
    intro part hpart
    rcases List.mem_cons.mp hpart with rfl | hpart
    · exact ⟨[], s, [], by simp, rfl, rfl⟩
    · exact ih hp part hpart

end Parts

section Complete

variable {β : Type} {next : Reading → Option β}

theorem isSome_orElse_left {a b : Option β} (h : a.isSome = true) : (a.orElse fun _ => b).isSome = true := by
  cases a with
  | none => cases h
  | some x => rfl

theorem isSome_orElse_right {a b : Option β} (h : b.isSome = true) : (a.orElse fun _ => b).isSome = true := by
  cases a with
  | none => exact h
  | some x => rfl

/-- A repetition goes on after whatever its steps can be read as. The induction is on the steps; one that reads nothing
is left out, and every other one leaves less text than there is fuel. -/
theorem isSome_repeatReading {step : (Reading → Option β) → Reading → Option β}
    {reads : Option Char → List Char → List Char → Prop}
    (hstep : ∀ next place s rest parts, reads place.before s rest → place.rest = s ++ rest →
      (∀ parts, (next ⟨place.beyond s rest, parts⟩).isSome = true) → (step next ⟨place, parts⟩).isSome = true)
    (eager : Bool) {before : Option Char} {s rest : List Char} (h : Repeats reads before s rest) (fuel : Nat)
    {place : Cursor} (parts : List Part) (hbefore : place.before = before) (hrest : place.rest = s ++ rest)
    (hfuel : s.length ≤ fuel) (hnext : ∀ parts, (next ⟨place.beyond s rest, parts⟩).isSome = true) :
    (repeatReading step eager next fuel ⟨place, parts⟩).isSome = true := by
  induction h generalizing fuel place parts with
  | done =>
    have hhere : (next ⟨place, parts⟩).isSome = true := by
      have h := hnext parts
      rw [List.nil_append] at hrest
      rwa [← hrest, Cursor.beyond_nil] at h
    cases fuel with
    | zero => exact hhere
    | succ fuel =>
      rw [repeatReading]
      split
      · exact isSome_orElse_right hhere
      · exact isSome_orElse_left hhere
  | @more before s t rest hs ht ih =>
    have hsplit : place.rest = s ++ (t ++ rest) := by rw [hrest, List.append_assoc]
    cases s with
    | nil => exact ih fuel parts hbefore hrest hfuel hnext
    | cons c s =>
      cases fuel with
      | zero => simp at hfuel
      | succ fuel =>
        have hlength : t.length ≤ fuel := by
          rw [List.cons_append, List.length_cons, List.length_append] at hfuel
          omega
        have hfurther : (step (fun r' => if place.offset < r'.place.offset then
            repeatReading step eager next fuel r' else none) ⟨place, parts⟩).isSome = true := by
          refine hstep _ place (c :: s) (t ++ rest) parts (hbefore ▸ hs) hsplit fun parts' => ?_
          have hlt : place.offset < (place.beyond (c :: s) (t ++ rest)).offset := by
            have hsize := c.utf8Size_pos
            rw [Cursor.beyond_offset, byteLength]
            omega
          dsimp only
          rw [if_pos hlt]
          refine ih fuel parts' ?_ rfl hlength fun parts => ?_
          · rw [← hbefore]
            rfl
          · rw [Cursor.beyond_beyond]
            exact hnext parts
        rw [repeatReading]
        split
        · exact isSome_orElse_left hfurther
        · exact isSome_orElse_right hfurther

theorem isSome_read (p : Pattern) (next : Reading → Option β) (place : Cursor) (s rest : List Char) (parts : List Part)
    (h : p.Reads place.before s rest) (hrest : place.rest = s ++ rest)
    (hnext : ∀ parts, (next ⟨place.beyond s rest, parts⟩).isSome = true) :
    (p.read next ⟨place, parts⟩).isSome = true := by
  induction p generalizing next place s rest parts with
  | empty =>
    obtain rfl : s = [] := h
    have hhere := hnext parts
    rw [List.nil_append] at hrest
    rwa [← hrest] at hhere
  | one ok =>
    obtain ⟨c, rfl, hc⟩ := h
    have hread : (one ok).read next ⟨place, parts⟩ = next ⟨place.beyond [c] rest, parts⟩ := by
      rw [read]
      simp only [hrest, List.singleton_append, hc, if_true, Cursor.past_eq_beyond]
    rw [hread]
    exact hnext parts
  | anchor a =>
    obtain ⟨rfl, ha⟩ := h
    have hhere := hnext parts
    rw [List.nil_append] at hrest
    rw [← hrest, anchor_holds_offset] at ha
    rw [← hrest, Cursor.beyond_nil] at hhere
    rwa [read, if_pos ha]
  | seq p q ihp ihq =>
    obtain ⟨u, v, rfl, hp, hq⟩ := h
    refine ihp _ place u (v ++ rest) parts hp (by rw [hrest, List.append_assoc]) fun parts => ?_
    refine ihq _ _ v rest parts hq rfl fun parts => ?_
    rw [Cursor.beyond_beyond]
    exact hnext parts
  | either p q ihp ihq =>
    rcases h with h | h
    · exact isSome_orElse_left (ihp _ place s rest parts h hrest hnext)
    · exact isSome_orElse_right (ihq _ place s rest parts h hrest hnext)
  | span ok spare =>
    obtain ⟨kept, rest', rfl, hkept, hok, hstop⟩ := h
    have hlength : Text.runLength ok place.rest = s.length + spare := by
      rw [hrest, ← List.append_assoc, Text.runLength_eq hok hstop, List.length_append, hkept]
    have hread : (span ok spare).read next ⟨place, parts⟩ = next ⟨place.beyond s (kept ++ rest'), parts⟩ := by
      rw [read]
      simp only [hlength, Nat.le_add_left, if_true, Nat.add_sub_cancel, Cursor.skip_eq_beyond place hrest]
    rw [hread]
    exact hnext parts
  | many eager p ih =>
    have hfuel : s.length ≤ place.rest.length := by simp [hrest]
    exact isSome_repeatReading (fun next place s rest parts => ih next place s rest parts) eager h _ parts rfl hrest hfuel
      hnext
  | part slot p ih => exact ih _ place s rest parts h hrest fun parts => hnext _

/-- Where going on always succeeds, a pattern fails only if there is nothing to read it as. -/
theorem unread_of_read_none {p : Pattern} {r : Reading} (hnext : ∀ r, (next r).isSome = true)
    (h : p.read next r = none) : p.Unread r.place.before r.place.rest := by
  intro s rest hrest hread
  have hsome := isSome_read p next r.place s rest r.parts hread hrest fun parts => hnext _
  rw [h] at hsome
  cases hsome

/-- Where going on always succeeds, a pattern that may be absent is left out only if there is nothing to read it as. -/
theorem read_optional_cases {p : Pattern} {r : Reading} {x : β} (hnext : ∀ r, (next r).isSome = true)
    (h : (optional p).read next r = some x) :
    p.read next r = some x ∨ p.Unread r.place.before r.place.rest ∧ next r = some x := by
  have h : ((p.read next r).orElse fun _ => next r) = some x := h
  cases hp : p.read next r with
  | none =>
    rw [hp] at h
    exact .inr ⟨unread_of_read_none hnext hp, h⟩
  | some y =>
    rw [hp] at h
    exact .inl h

end Complete

section Matches

variable {p : Pattern} {t : List Char} {m : Match}

/-- A match of a pattern that starts behind the beginning `u` of a text and goes as far as `s`. -/
structure Covers (p : Pattern) (m : Match) (u s rest : List Char) : Prop where
  start : m.start = byteLength u
  stop : m.stop = byteLength (u ++ s)
  reads : p.ReadsParts (.after u (s ++ rest)) s rest m.parts

theorem exists_covers {u v : List Char} (h : p.matchAt (.after u v) = some m) :
    ∃ s rest, v = s ++ rest ∧ p.Covers m u s rest := by
  obtain ⟨s, rest, parts, hv, hreads, hm⟩ := read_parts p _ _ h
  have hv : v = s ++ rest := hv
  subst hv
  cases hm
  refine ⟨s, rest, rfl, rfl, ?_, ?_⟩
  · rw [Cursor.after_beyond]
    rfl
  · rw [List.append_nil]
    exact hreads

theorem mem_matchesFrom {u v : List Char} {resume : Nat}
    (h : m ∈ p.matchesFrom u.getLast? (byteLength u) resume v) :
    ∃ u' v', u ++ v = u' ++ v' ∧ p.matchAt (.after u' v') = some m := by
  induction v generalizing u resume with
  | nil =>
    rw [matchesFrom] at h
    split at h
    · cases h
    · exact ⟨u, [], rfl, Option.mem_toList.mp h⟩
  | cons c v ih =>
    have hnext : ∀ {resume}, m ∈ p.matchesFrom (some c) (byteLength u + c.utf8Size) resume v →
        ∃ u' v', u ++ c :: v = u' ++ v' ∧ p.matchAt (.after u' v') = some m := by
      intro resume hm
      have hlength : byteLength (u ++ [c]) = byteLength u + c.utf8Size := Text.byteLength_append u [c]
      rw [← hlength, ← @List.getLast?_concat Char u c] at hm
      obtain ⟨u', v', heq, hmatch⟩ := ih hm
      exact ⟨u', v', by rw [← heq, List.append_assoc]; rfl, hmatch⟩
    rw [matchesFrom] at h
    split at h
    · exact hnext h
    · rename_i found hfound
      rcases List.mem_cons.mp h with rfl | h
      · rw [Option.ite_none_left_eq_some] at hfound
        exact ⟨u, c :: v, rfl, hfound.2⟩
      · exact hnext h

theorem exists_matchAt (h : m ∈ p.matchesIn t) : ∃ u v, t = u ++ v ∧ p.matchAt (.after u v) = some m :=
  @mem_matchesFrom p m [] t 0 h

theorem exists_of_mem_matchesIn (h : m ∈ p.matchesIn t) : ∃ u s rest, t = u ++ (s ++ rest) ∧ p.Covers m u s rest := by
  obtain ⟨u, v, ht, hmatch⟩ := exists_matchAt h
  obtain ⟨s, rest, rfl, hcovers⟩ := exists_covers hmatch
  exact ⟨u, s, rest, ht, hcovers⟩

theorem isSome_text? {slot : Slot} (h : m ∈ p.matchesIn t) (hslot : slot ∈ p.fixedSlots) :
    (m.text? slot).isSome = true := by
  obtain ⟨u, s, rest, -, hcovers⟩ := exists_of_mem_matchesIn h
  obtain ⟨part, hpart, rfl⟩ := hcovers.reads.exists_part hslot
  rw [Match.text?, Option.isSome_map, Match.part?, List.find?_isSome]
  exact ⟨part, hpart, decide_eq_true rfl⟩

theorem exists_startOf (h : m ∈ p.matchesIn t) (slot : Slot) : ∃ u v, t = u ++ v ∧ m.startOf slot = byteLength u := by
  obtain ⟨u, s, rest, ht, hcovers⟩ := exists_of_mem_matchesIn h
  rw [Match.startOf]
  split
  next part hpart =>
    obtain ⟨w, w', v, rfl, hfirst, -⟩ := hcovers.reads.partWithin part (List.mem_of_find?_eq_some hpart)
    refine ⟨u ++ w, w' ++ (v ++ rest), by simp [ht], ?_⟩
    rw [hfirst, Cursor.after_beyond]
    rfl
  next => exact ⟨u, s ++ rest, ht, hcovers.start⟩

theorem start_of_matchAt {u v : List Char} (h : p.matchAt (.after u v) = some m) : m.start = byteLength u := by
  obtain ⟨s, rest, -, hcovers⟩ := exists_covers h
  exact hcovers.start

section Order

variable {before : Option Char} {offset resume : Nat} {v : List Char}

theorem matchAt_bounds {place : Cursor} (h : p.matchAt place = some m) : m.start = place.offset ∧ m.start ≤ m.stop := by
  obtain ⟨s, rest, parts, -, -, hm⟩ := read_sound p _ _ h
  cases hm
  exact ⟨rfl, Nat.le_add_right _ _⟩

theorem resume_le_start (h : m ∈ p.matchesFrom before offset resume v) : resume ≤ m.start := by
  induction v generalizing before offset resume with
  | nil =>
    rw [matchesFrom] at h
    split at h
    · cases h
    next hlt =>
      rw [(matchAt_bounds (Option.mem_toList.mp h)).1]
      exact Nat.not_lt.mp hlt
  | cons c v ih =>
    rw [matchesFrom] at h
    split at h
    · exact ih h
    next found hfound =>
      obtain ⟨hlt, hfound⟩ := Option.ite_none_left_eq_some.mp hfound
      obtain ⟨hstart, hstop⟩ := matchAt_bounds hfound
      have hresume : resume ≤ found.start := hstart ▸ Nat.not_lt.mp hlt
      rcases List.mem_cons.mp h with rfl | h
      · exact hresume
      · exact hresume.trans (hstop.trans (ih h))

theorem matchesFrom_pairwise :
    (p.matchesFrom before offset resume v).Pairwise fun m m' => m.stop ≤ m'.start := by
  induction v generalizing before offset resume with
  | nil =>
    rw [matchesFrom]
    split
    · exact .nil
    · cases p.matchAt ⟨offset, before, []⟩ with
      | none => exact .nil
      | some m => exact List.pairwise_singleton _ m
  | cons c v ih =>
    rw [matchesFrom]
    split
    · exact ih
    · exact List.pairwise_cons.mpr ⟨fun m' hm' => resume_le_start hm', ih⟩

theorem matchesIn_pairwise : (p.matchesIn t).Pairwise fun m m' => m.stop ≤ m'.start :=
  matchesFrom_pairwise

end Order

/-- The place behind some text is looked at, unless a match goes beyond it. -/
theorem exists_match_behind {w u s rest : List Char} {resume : Nat} (h : p.Reads (w ++ u).getLast? s rest) :
    byteLength (w ++ u) < resume ∨
      ∃ m ∈ p.matchesFrom w.getLast? (byteLength w) resume (u ++ (s ++ rest)),
        p.matchAt (.after (w ++ u) (s ++ rest)) = some m ∨
          m.start < byteLength (w ++ u) ∧ byteLength (w ++ u) < m.stop := by
  induction u generalizing w resume with
  | nil =>
    rw [List.append_nil] at h ⊢
    by_cases hlt : byteLength w < resume
    · exact .inl hlt
    have hsome : (p.matchAt (.after w (s ++ rest))).isSome = true :=
      isSome_read p _ (.after w (s ++ rest)) s rest [] h rfl fun _ => rfl
    obtain ⟨m, hm⟩ := Option.isSome_iff_exists.mp hsome
    refine .inr ⟨m, ?_, .inl hm⟩
    unfold Cursor.after at hm
    rw [List.nil_append]
    cases hrest : s ++ rest with
    | nil =>
      rw [hrest] at hm
      rw [matchesFrom, if_neg hlt, hm]
      exact List.mem_singleton_self m
    | cons c v =>
      rw [hrest] at hm
      rw [matchesFrom, if_neg hlt, hm]
      exact List.mem_cons_self
  | cons c u ih =>
    have hsplit : w ++ c :: u = w ++ [c] ++ u := by simp
    have hlength : byteLength (w ++ [c]) = byteLength w + c.utf8Size := Text.byteLength_append w [c]
    rw [hsplit] at h ⊢
    have hnext : ∀ resume, byteLength (w ++ [c] ++ u) < resume ∨
        ∃ m ∈ p.matchesFrom (some c) (byteLength w + c.utf8Size) resume (u ++ (s ++ rest)),
          p.matchAt (.after (w ++ [c] ++ u) (s ++ rest)) = some m ∨
            m.start < byteLength (w ++ [c] ++ u) ∧ byteLength (w ++ [c] ++ u) < m.stop := by
      intro resume
      have hih := @ih (w ++ [c]) resume h
      rwa [hlength, List.getLast?_concat] at hih
    rw [List.cons_append, matchesFrom]
    split
    · exact hnext resume
    next found hfound =>
      -- A match that starts here reaches beyond the place, or the search resumes before it.
      obtain ⟨-, hfound⟩ := Option.ite_none_left_eq_some.mp hfound
      have hstart : found.start = byteLength w := start_of_matchAt hfound
      rcases hnext found.stop with hlt | ⟨m, hm, hplace⟩
      · refine .inr ⟨found, List.mem_cons_self, .inr ⟨?_, hlt⟩⟩
        have hsize := c.utf8Size_pos
        rw [hstart, Text.byteLength_append, hlength]
        omega
      · exact .inr ⟨m, List.mem_cons_of_mem _ hm, hplace⟩

theorem exists_match_of_reads {u s rest : List Char} (h : p.Reads u.getLast? s rest) :
    ∃ m ∈ p.matchesIn (u ++ (s ++ rest)), p.matchAt (.after u (s ++ rest)) = some m ∨
      m.start < byteLength u ∧ byteLength u < m.stop := by
  rcases @exists_match_behind p [] u s rest 0 h with hlt | hmatch
  · exact absurd hlt (Nat.not_lt_zero _)
  · exact hmatch

end Matches

end Pattern

end ModuleGraph
