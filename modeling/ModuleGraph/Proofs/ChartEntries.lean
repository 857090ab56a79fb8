import ModuleGraph.Export.Mermaid
import ModuleGraph.Proofs.TextPieces
import Mathlib.Data.Set.Function

namespace ModuleGraph.Mermaid

open Text (Stops)

/-- An entry of a flowchart text. -/
inductive Entry where
  | box (number : Nat) (label : List Char)
  | arrow (source : Nat) (dotted : Bool) (target : Nat)
  deriving DecidableEq, Repr

namespace Entry

def text : Entry → List Char
  | .box number label => "    n".toList ++ (Nat.toDigits 10 number ++ ("[\"".toList ++ (label ++ "\"]\n".toList)))
  | .arrow source dotted target =>
    "    n".toList ++ (Nat.toDigits 10 source ++ ((if dotted then " -.-> n" else " --> n").toList
      ++ (Nat.toDigits 10 target ++ "\n".toList)))

def Plain : Entry → Prop
  | .box _ label => '"' ∉ label
  | .arrow .. => True

end Entry

/-- A text is the header of a chart with some entries after it. -/
def Spells (text : List Char) (entries : List Entry) : Prop :=
  (∀ e ∈ entries, e.Plain) ∧ text = "graph TD\n".toList ++ entries.flatMap Entry.text

namespace Entry

theorem text_box (number : Nat) (label : List Char) : (box number label).text =
    "    n".toList ++ (Nat.toDigits 10 number ++ ("[\"".toList ++ (label ++ "\"]\n".toList))) := by
  unfold text
  with_reducible rfl

theorem text_arrow (source : Nat) (dotted : Bool) (target : Nat) : (arrow source dotted target).text =
    "    n".toList ++ (Nat.toDigits 10 source ++ ((if dotted then " -.-> n" else " --> n").toList
      ++ (Nat.toDigits 10 target ++ "\n".toList))) := by
  unfold text
  with_reducible rfl

theorem toDigits_append_inj {i j : Nat} {r r' : List Char} (h : Nat.toDigits 10 i ++ r = Nat.toDigits 10 j ++ r')
    (hr : Stops Char.isDigit r) (hr' : Stops Char.isDigit r') : i = j ∧ r = r' := by
  have hdigits : ∀ n, ∀ c ∈ Nat.toDigits 10 n, c.isDigit = true :=
    fun n c hc => Nat.isDigit_of_mem_toDigits (by decide) (by decide) hc
  obtain ⟨hij, hrest⟩ := Text.run_unique h (hdigits i) hr (hdigits j) hr'
  have hvalue := congrArg (Nat.ofDigitChars 10 · 0) hij
  simp only [Nat.ofDigitChars_ten_toDigits] at hvalue
  exact ⟨hvalue, hrest⟩

theorem label_append_inj {label label' r r' : List Char} (h : label ++ '"' :: r = label' ++ '"' :: r')
    (hlabel : '"' ∉ label) (hlabel' : '"' ∉ label') : label = label' ∧ r = r' := by
  have hstop : ∀ t, Stops (· != '"') ('"' :: t) := fun _ => Text.stops_cons.mpr rfl
  have hplain : ∀ {w : List Char}, '"' ∉ w → ∀ c ∈ w, (c != '"') = true := by
    intro w hw c hc
    rw [bne_iff_ne]
    rintro rfl
    exact hw hc
  obtain ⟨heq, hrest⟩ := Text.run_unique h (hplain hlabel) (hstop r) (hplain hlabel') (hstop r')
  exact ⟨heq, List.tail_eq_of_cons_eq hrest⟩

theorem stops_bracket (r : List Char) : Stops Char.isDigit ("[\"".toList ++ r) :=
  Text.stops_cons.mpr rfl

theorem stops_arrow (dotted : Bool) (r : List Char) :
    Stops Char.isDigit ((if dotted then " -.-> n" else " --> n").toList ++ r) := by
  cases dotted <;> exact Text.stops_cons.mpr rfl

theorem arrow_append_inj {dotted dotted' : Bool} {r r' : List Char}
    (h : (if dotted then " -.-> n" else " --> n").toList ++ r = (if dotted' then " -.-> n" else " --> n").toList ++ r') :
    dotted = dotted' ∧ r = r' := by
  cases dotted <;> cases dotted' <;> simp at h ⊢ <;> exact h

theorem box_append_ne_arrow {i j k : Nat} {label : List Char} {dotted : Bool} {r r' : List Char} :
    (box i label).text ++ r ≠ (arrow j dotted k).text ++ r' := by
  intro h
  simp only [text_box, text_arrow, List.append_assoc] at h
  obtain ⟨-, htail⟩ := toDigits_append_inj (List.append_cancel_left h) (stops_bracket _) (stops_arrow dotted _)
  cases dotted <;> simp at htail

theorem text_append_inj {e e' : Entry} (he : e.Plain) (he' : e'.Plain) {r r' : List Char}
    (h : e.text ++ r = e'.text ++ r') : e = e' ∧ r = r' := by
  cases e with
  | box i label =>
    cases e' with
    | box j label' =>
      simp only [text_box, List.append_assoc] at h
      obtain ⟨rfl, htail⟩ := toDigits_append_inj (List.append_cancel_left h) (stops_bracket _) (stops_bracket _)
      obtain ⟨rfl, hrest⟩ := label_append_inj (List.append_cancel_left htail) he he'
      exact ⟨rfl, by simpa using hrest⟩
    | arrow j dotted k => exact absurd h box_append_ne_arrow
  | arrow i dotted k =>
    cases e' with
    | box j label => exact absurd h.symm box_append_ne_arrow
    | arrow j dotted' l =>
      simp only [text_arrow, List.append_assoc] at h
      obtain ⟨rfl, htail⟩ := toDigits_append_inj (List.append_cancel_left h) (stops_arrow dotted _) (stops_arrow dotted' _)
      obtain ⟨rfl, hend⟩ := arrow_append_inj htail
      obtain ⟨rfl, hrest⟩ := toDigits_append_inj hend (Text.stops_cons.mpr rfl) (Text.stops_cons.mpr rfl)
      exact ⟨rfl, List.append_cancel_left hrest⟩

theorem text_ne_nil (e : Entry) : e.text ≠ [] := by
  cases e <;> simp [text_box, text_arrow]

end Entry

theorem flatMap_text_inj {entries entries' : List Entry} (hplain : ∀ e ∈ entries, e.Plain)
    (hplain' : ∀ e ∈ entries', e.Plain) (h : entries.flatMap Entry.text = entries'.flatMap Entry.text) :
    entries = entries' := by
  induction entries generalizing entries' with
  | nil =>
    cases entries' with
    | nil => rfl
    | cons e' entries' => simp [e'.text_ne_nil] at h
  | cons e entries ih =>
    cases entries' with
    | nil => simp [e.text_ne_nil] at h
    | cons e' entries' =>
      rw [List.forall_mem_cons] at hplain hplain'
      rw [List.flatMap_cons, List.flatMap_cons] at h
      obtain ⟨rfl, hrest⟩ := Entry.text_append_inj hplain.1 hplain'.1 h
      rw [ih hplain.2 hplain'.2 hrest]

theorem Spells.unique {text : List Char} {entries entries' : List Entry} (h : Spells text entries)
    (h' : Spells text entries') : entries = entries' :=
  flatMap_text_inj h.1 h'.1 (List.append_cancel_left (h.2.symm.trans h'.2))

section Label

/-- An id with a name in the place of each of its quotes. -/
def label (id : String) : List Char :=
  "#quot;".toList.intercalate (Text.pieces (· == '"') id.toList)

theorem intercalate_pieces (s : List Char) :
    "#quot;".toList.intercalate (Text.pieces (· == '"') s) = s.flatMap escapeChar := by
  induction s with
  | nil => rfl
  | cons c s ih =>
    obtain ⟨w, ws, hs⟩ := Text.exists_pieces (· == '"') s
    rw [hs] at ih
    rw [List.flatMap_cons, ← ih]
    by_cases hc : c = '"'
    · rw [@Text.pieces_sep _ (· == '"') c (beq_iff_eq.mpr hc), hs, List.intercalate_cons_cons, escapeChar, if_pos hc]
      rfl
    · rw [@Text.pieces_cons _ (· == '"') c s w ws (beq_eq_false_iff_ne.mpr hc) hs, escapeChar, if_neg hc]
      cases ws with
      | nil => simp
      | cons v ws => simp [List.intercalate_cons_cons]

theorem quote_not_mem_label (id : String) : '"' ∉ label id := by
  rw [label, intercalate_pieces, List.mem_flatMap]
  rintro ⟨c, -, hc⟩
  unfold escapeChar at hc
  split at hc
  case isTrue => exact absurd hc (by decide)
  case isFalse hne => exact hne (List.mem_singleton.mp hc).symm

end Label

theorem rank?_eq_some {shown : List String} {id : String} {i : Nat} (h : rank? shown id = some i) :
    shown[i]? = some id := by
  obtain ⟨before, after, hsplit, -⟩ := List.lookup_eq_some_iff.mp h
  have hmem : (id, i) ∈ shown.zipIdx := List.mem_reverse.mp (by rw [hsplit]; simp)
  exact List.mem_zipIdx_iff_getElem?.mp hmem

theorem rank?_ne_none_iff {shown : List String} {id : String} : rank? shown id ≠ none ↔ id ∈ shown := by
  constructor
  · intro h
    obtain ⟨i, hi⟩ := Option.ne_none_iff_exists'.mp h
    exact List.mem_of_getElem? (rank?_eq_some hi)
  · intro hid hnone
    obtain ⟨i, hi⟩ := List.mem_iff_getElem?.mp hid
    have hmem : (id, i) ∈ shown.zipIdx.reverse := List.mem_reverse.mpr (List.mem_zipIdx_iff_getElem?.mpr hi)
    have hne := List.lookup_eq_none_iff.mp hnone (id, i) hmem
    simp at hne

def numberOf (shown : List String) (id : String) : Nat :=
  (rank? shown id).getD 0

theorem rank?_eq_numberOf {shown : List String} {id : String} (h : id ∈ shown) :
    rank? shown id = some (numberOf shown id) := by
  obtain ⟨i, hi⟩ := Option.ne_none_iff_exists'.mp (rank?_ne_none_iff.mpr h)
  rw [numberOf, hi]
  rfl

variable {K : Type}

def shown (g : Graph K) (maxNodes : Nat) : List String :=
  g.rankings.byImportance.take maxNodes

def drawn (g : Graph K) (maxNodes : Nat) : List (Edge K) :=
  g.edges.filter fun e => e.source ∈ shown g maxNodes ∧ e.target ∈ shown g maxNodes

theorem nodeLine_eq (id : String) (rank : Nat) : nodeLine id rank = (Entry.box rank (label id)).text := by
  unfold nodeLine nodeName
  rw [Entry.text_box, label, intercalate_pieces]
  simp

theorem edgeLine_of_mem {ids : List String} {e : Edge K} (hs : e.source ∈ ids) (ht : e.target ∈ ids) :
    edgeLine ids e = (Entry.arrow (numberOf ids e.source) e.isTypeOnly (numberOf ids e.target)).text := by
  unfold edgeLine
  simp only [rank?_eq_numberOf hs, rank?_eq_numberOf ht, nodeName, Entry.text_arrow]
  cases e.isTypeOnly <;> simp

theorem edgeLine_of_not_mem {ids : List String} {e : Edge K} (h : ¬ (e.source ∈ ids ∧ e.target ∈ ids)) :
    edgeLine ids e = [] := by
  unfold edgeLine
  split
  case h_1 source target hs ht =>
    refine absurd ⟨rank?_ne_none_iff.mp ?_, rank?_ne_none_iff.mp ?_⟩ h
    · rw [hs]
      exact Option.some_ne_none source
    · rw [ht]
      exact Option.some_ne_none target
  case h_2 => rfl

theorem flatMap_edgeLine_eq (ids : List String) (edges : List (Edge K)) :
    edges.flatMap (edgeLine ids) =
      ((edges.filter fun e => e.source ∈ ids ∧ e.target ∈ ids).map fun e =>
        Entry.arrow (numberOf ids e.source) e.isTypeOnly (numberOf ids e.target)).flatMap Entry.text := by
  induction edges with
  | nil => rfl
  | cons e edges ih =>
    rw [List.flatMap_cons, ih]
    by_cases h : e.source ∈ ids ∧ e.target ∈ ids
    · rw [List.filter_cons_of_pos (by simpa using h), List.map_cons, List.flatMap_cons, edgeLine_of_mem h.1 h.2]
    · rw [List.filter_cons_of_neg (by simpa using h), edgeLine_of_not_mem h, List.nil_append]

theorem flatMap_nodeLine_eq (ids : List String) :
    (ids.zipIdx.flatMap fun (id, rank) => nodeLine id rank) =
      (ids.mapIdx fun i id => Entry.box i (label id)).flatMap Entry.text := by
  rw [List.mapIdx_eq_zipIdx_map, List.flatMap_map]
  simp only [nodeLine_eq]

theorem plain_of_mem_boxes {ids : List String} {e : Entry} (h : e ∈ ids.mapIdx fun i id => Entry.box i (label id)) :
    e.Plain := by
  obtain ⟨i, hi, rfl⟩ := List.mem_mapIdx.mp h
  exact quote_not_mem_label _

theorem plain_of_mem_arrows {edges : List (Edge K)} {number : String → Nat} {e : Entry}
    (h : e ∈ edges.map fun e => Entry.arrow (number e.source) e.isTypeOnly (number e.target)) : e.Plain := by
  obtain ⟨edge, -, rfl⟩ := List.mem_map.mp h
  trivial

theorem spells_render (g : Graph K) (maxNodes : Nat) :
    Spells (render g maxNodes)
      (((shown g maxNodes).mapIdx fun i id => Entry.box i (label id)) ++
        (drawn g maxNodes).map fun e =>
          Entry.arrow (numberOf (shown g maxNodes) e.source) e.isTypeOnly (numberOf (shown g maxNodes) e.target)) := by
  constructor
  · intro e he
    exact (List.mem_append.mp he).elim plain_of_mem_boxes plain_of_mem_arrows
  · rw [List.flatMap_append, ← flatMap_nodeLine_eq, drawn, ← flatMap_edgeLine_eq, ← List.append_assoc]
    rfl

/-- A chart has no dangling and no misdirected arrow. Its text is the header, a box for each id shown, numbered in their
order, and an arrow for each edge between two of them, in the order of the edges and dotted where only types need the
edge; it can be read in no other way. The two numbers of an arrow are those of boxes made for the ends of its edge, and
different ids have different numbers. -/
theorem render_draws_edges (g : Graph K) (maxNodes : Nat) :
    ∃ number : String → Nat,
      (∀ id ∈ shown g maxNodes, (shown g maxNodes)[number id]? = some id) ∧
      Set.InjOn number {id | id ∈ shown g maxNodes} ∧
      ∀ entries, Spells (render g maxNodes) entries ↔
        entries = ((shown g maxNodes).mapIdx fun i id => .box i (label id)) ++
          (drawn g maxNodes).map fun e => .arrow (number e.source) e.isTypeOnly (number e.target) := by
  have hplace : ∀ id ∈ shown g maxNodes, (shown g maxNodes)[numberOf (shown g maxNodes) id]? = some id :=
    fun id hid => rank?_eq_some (rank?_eq_numberOf hid)
  refine ⟨numberOf (shown g maxNodes), hplace, ?_, fun entries => ⟨?_, ?_⟩⟩
  · intro id hid id' hid' heq
    have hid := hplace id hid
    rw [heq, hplace id' hid'] at hid
    exact (Option.some.inj hid).symm
  · intro h
    exact h.unique (spells_render g maxNodes)
  · rintro rfl
    exact spells_render g maxNodes

-- An id that is listed twice has two boxes; arrows lead to the later one.
example :
    render (⟨[], [⟨"a", "b", [], true, ()⟩, ⟨"b", "c", [], false, ()⟩], [], [], { byImportance := ["a", "b", "a", "c"] },
      ⟨3, 2, (), (), 0, 0⟩⟩ : Graph Unit) 3 =
        "graph TD\n    n0[\"a\"]\n    n1[\"b\"]\n    n2[\"a\"]\n    n2 -.-> n1\n".toList := by
  decide +kernel

end ModuleGraph.Mermaid
