import ModuleGraph.Proofs.Blanking
import ModuleGraph.Proofs.CurlyLineEnds
import ModuleGraph.Proofs.MatchPlaces
import ModuleGraph.Proofs.PublicNames
import ModuleGraph.Proofs.TypeBlocks

namespace ModuleGraph

open Text (byteLength)
open Declarations (dropMark ofSource)

section Newlines

/-- The line, counted from one, of a byte offset in a source: one more than the number of newline bytes before it. -/
def sourceLine (source : List Char) (offset : Nat) : Nat :=
  ((Utf8.bytes source).take offset).count 0x0A + 1

theorem Utf8.length_bytes (s : List Char) : (bytes s).length = byteLength s := by
  rw [bytes]
  induction s with
  | nil => rfl
  | cons c s ih => rw [List.flatMap_cons, List.length_append, String.length_utf8EncodeChar, ih, byteLength]

theorem Utf8.count_newline_bytes (s : List Char) : (bytes s).count 0x0A = s.count '\n' := by
  induction s with
  | nil => rw [bytes, List.flatMap_nil, List.count_nil, List.count_nil]
  | cons c s ih =>
    rw [← List.singleton_append, bytes_append, List.count_append, List.count_append, ih]
    by_cases hc : c = '\n'
    · have hnewline : String.utf8EncodeChar '\n' = [0x0A] := rfl
      rw [hc, bytes, List.flatMap_singleton, hnewline, List.count_singleton_self, List.count_singleton_self]
    · rw [List.count_eq_zero.mpr (not_mem_bytes_of_ne (x := 0x0A) rfl hc), List.count_singleton, if_neg (by simpa using hc)]

namespace Comment

theorem Covers.newline_iff {out byte : UInt8} (h : Covers out byte) : (out == 0x0A) = (byte == 0x0A) := by
  rcases h with rfl | ⟨rfl, hbyte⟩
  · rfl
  · rw [beq_eq_false_iff_ne.mpr hbyte]
    rfl

theorem count_newline_of_covers {out bytes : List UInt8} (h : List.Forall₂ Covers out bytes) :
    out.count 0x0A = bytes.count 0x0A := by
  induction h with
  | nil => rfl
  | cons hbyte _ ih => rw [List.count_cons, List.count_cons, ih, hbyte.newline_iff]

/-- Blanking moves no newline: there are as many before a place of the blanked text as before its offset in the text. -/
theorem sourceLine_of_strip {family : Family} {source u v : List Char} (h : strip family source = u ++ v) :
    sourceLine source (byteLength u) = u.count '\n' + 1 := by
  obtain ⟨xs, hxs⟩ := exists_splits family source
  have hcovers := List.forall₂_take (byteLength u) (covers_strip hxs)
  have hu : (Utf8.bytes (u ++ v)).take (byteLength u) = Utf8.bytes u := by
    rw [Utf8.bytes_append, List.take_left' (Utf8.length_bytes u)]
  rw [h, hu] at hcovers
  rw [sourceLine, ← count_newline_of_covers hcovers, Utf8.count_newline_bytes]

theorem count_newline_strip (family : Family) (s : List Char) : (strip family s).count '\n' = s.count '\n' := by
  obtain ⟨xs, hxs⟩ := exists_splits family s
  rw [← Utf8.count_newline_bytes, ← Utf8.count_newline_bytes, count_newline_of_covers (covers_strip hxs)]

theorem byteLength_strip (family : Family) (s : List Char) : byteLength (strip family s) = byteLength s := by
  obtain ⟨xs, hxs⟩ := exists_splits family s
  rw [← Utf8.length_bytes, ← Utf8.length_bytes, (covers_strip hxs).length_eq]

end Comment

theorem sourceLine_mono (source : List Char) {x y : Nat} (h : x ≤ y) : sourceLine source x ≤ sourceLine source y :=
  Nat.succ_le_succ ((List.take_sublist_take_left h).count_le 0x0A)

theorem sourceLine_le (source : List Char) (offset : Nat) : sourceLine source offset ≤ source.count '\n' + 1 := by
  have hcount := (List.take_sublist offset (Utf8.bytes source)).count_le 0x0A
  rw [Utf8.count_newline_bytes] at hcount
  exact Nat.succ_le_succ hcount

theorem count_newline_dropMark (s : List Char) : (dropMark s).count '\n' = s.count '\n' := by
  cases s with
  | nil => rfl
  | cons c s =>
    rw [dropMark]
    split
    next hc => rw [List.count_cons_of_ne (by rw [hc]; decide)]
    next => rfl

/-- Lines of a text, counted from one, that never go back. -/
structure LinesOf (s : List Char) (lines : List Nat) : Prop where
  bounds : ∀ n ∈ lines, 1 ≤ n ∧ n ≤ s.count '\n' + 1
  ordered : lines.Pairwise (· ≤ ·)

theorem LinesOf.of_dropMark {s : List Char} {lines : List Nat} (h : LinesOf (dropMark s) lines) : LinesOf s lines :=
  ⟨count_newline_dropMark s ▸ h.bounds, h.ordered⟩

end Newlines

namespace Curly

section Collected

variable {text : List Char}

structure CollectedBy (text : List Char) (f : Form) (m : Match) (line offset : Nat) : Prop where
  found : m ∈ f.pattern.matchesIn text
  offset_eq : offset = m.startOf f.slot
  line_eq : line = Text.lineAt text offset

def importForms : List Form :=
  [.clauseImport, .effectImport, .requireCall, .importCall, .exportNames, .exportStar]

theorem line_bindRequired (i : Import) (binding : Option (List Char)) : (bindRequired i binding).line = i.line := by
  unfold bindRequired
  split
  · rfl
  · split <;> rfl

theorem source_bindRequired (i : Import) (binding : Option (List Char)) :
    (bindRequired i binding).source = i.source := by
  unfold bindRequired
  split
  · rfl
  · split <;> rfl

theorem mem_foundImports {x : Found Import} (h : x ∈ foundImports text) :
    ∃ f ∈ importForms, ∃ m, CollectedBy text f m x.item.line x.offset ∧
      ∃ source, m.text? .source = some source ∧ x.item.source = String.ofList source := by
  have hsource : ∀ {p : Pattern} {m : Match}, m ∈ p.matchesIn text → Slot.source ∈ p.fixedSlots →
      m.text? .source = some (m.textOf .source) := by
    intro p m hm hslot
    obtain ⟨source, hsource⟩ := Option.isSome_iff_exists.mp (Pattern.isSome_text? hm hslot)
    rw [Match.textOf, hsource, Option.getD_some]
  simp only [foundImports, List.mem_append, or_assoc] at h
  rcases h with h | h | h | h | h | h
  · obtain ⟨m, hm, rfl⟩ := List.mem_map.mp h
    exact ⟨.clauseImport, by decide, m, ⟨hm, rfl, rfl⟩, _, hsource hm (by decide), rfl⟩
  · obtain ⟨m, hm, rfl⟩ := List.mem_map.mp h
    exact ⟨.effectImport, by decide, m, ⟨hm, rfl, rfl⟩, _, hsource hm (by decide), rfl⟩
  · obtain ⟨m, hm, rfl⟩ := List.mem_map.mp h
    exact ⟨.requireCall, by decide, m, ⟨hm, rfl, line_bindRequired _ _⟩, _, hsource hm (by decide),
      source_bindRequired _ _⟩
  · obtain ⟨m, hm, rfl⟩ := List.mem_map.mp h
    exact ⟨.importCall, by decide, m, ⟨hm, rfl, rfl⟩, _, hsource hm (by decide), rfl⟩
  · obtain ⟨m, hm, h⟩ := List.mem_filterMap.mp h
    obtain ⟨source, htext, rfl⟩ := Option.map_eq_some_iff.mp h
    exact ⟨.exportNames, by decide, m, ⟨hm, rfl, rfl⟩, source, htext, rfl⟩
  · obtain ⟨m, hm, rfl⟩ := List.mem_map.mp h
    exact ⟨.exportStar, by decide, m, ⟨hm, rfl, rfl⟩, _, hsource hm (by decide), rfl⟩

theorem mem_foundExports {x : Found Export} (h : x ∈ foundExports text) :
    ∃ f m, CollectedBy text f m x.item.line x.offset := by
  simp only [foundExports, List.mem_append, or_assoc] at h
  rcases h with h | h | h | h | h | h
  · obtain ⟨m, hm, rfl⟩ := List.mem_map.mp h
    exact ⟨.exportDefault, m, hm, rfl, rfl⟩
  · obtain ⟨form, hform, h⟩ := List.mem_flatMap.mp h
    obtain ⟨d, hd⟩ := exists_declarator hform
    obtain ⟨m, hm, rfl⟩ := List.mem_map.mp h
    have hm := (List.mem_filter.mp hm).1
    rw [hd] at hm
    exact ⟨.declaration d, m, hm, rfl, rfl⟩
  · obtain ⟨m, hm, h⟩ := List.mem_flatMap.mp h
    obtain ⟨n, -, rfl⟩ := List.mem_map.mp h
    refine ⟨.exportNames, m, hm, rfl, ?_⟩
    unfold listedExport
    split <;> rfl
  · obtain ⟨m, hm, rfl⟩ := List.mem_map.mp h
    exact ⟨.exportStar, m, hm, rfl, rfl⟩
  · obtain ⟨m, hm, h⟩ := List.mem_flatMap.mp h
    unfold assignedExports at h
    split at h
    · obtain ⟨key, -, rfl⟩ := List.mem_map.mp h
      exact ⟨.moduleAssignment, m, hm, rfl, rfl⟩
    · cases List.mem_singleton.mp h
      exact ⟨.moduleAssignment, m, hm, rfl, rfl⟩
  · obtain ⟨m, hm, rfl⟩ := List.mem_map.mp h
    exact ⟨.propertyAssignment, m, hm, rfl, rfl⟩

/-- What is collected in the blanked text of a source stands at an offset of the source, and on its line there. -/
theorem CollectedBy.line_in_source {source : List Char} {f : Form} {m : Match} {line offset : Nat}
    (h : CollectedBy (Comment.stripCurly source) f m line offset) :
    offset ≤ byteLength source ∧ line = sourceLine source offset := by
  obtain ⟨u, v, htext, hstart⟩ := Pattern.exists_startOf h.found f.slot
  rw [h.line_eq, h.offset_eq, hstart, htext, Text.lineAt_append]
  have hstrip : Comment.strip .curly source = u ++ v := htext
  have hlength : byteLength (Comment.stripCurly source) = byteLength source := Comment.byteLength_strip .curly source
  refine ⟨?_, (Comment.sourceLine_of_strip hstrip).symm⟩
  rw [← hlength, htext]
  exact Text.byteLength_mono (List.prefix_append u v)

theorem inSourceOrder_perm {α : Type} (found : List (Found α)) : (inSourceOrder found).Perm (found.map (·.item)) :=
  (sortOn_perm _ found).map _

theorem lines_inSourceOrder {α : Type} {source : List Char} {found : List (Found α)} {line : α → Nat}
    (h : ∀ x ∈ found, line x.item = sourceLine source x.offset) :
    LinesOf source ((inSourceOrder found).map line) := by
  constructor
  · intro n hn
    obtain ⟨item, hitem, rfl⟩ := List.mem_map.mp hn
    obtain ⟨x, hx, rfl⟩ := List.mem_map.mp ((inSourceOrder_perm found).subset hitem)
    rw [h x hx]
    exact ⟨Nat.succ_pos _, sourceLine_le source x.offset⟩
  · have hall : found.Pairwise fun _ _ => True := List.pairwise_of_forall fun _ _ => trivial
    rw [inSourceOrder, List.map_map, List.pairwise_map]
    refine (sortOn_keyThen hall).imp_of_mem fun {x y} hx hy hle => ?_
    have hx := (sortOn_perm _ found).subset hx
    have hy := (sortOn_perm _ found).subset hy
    rw [Function.comp_apply, Function.comp_apply, h x hx, h y hy]
    apply sourceLine_mono
    rcases hle with hlt | ⟨heq, -⟩
    · exact Nat.le_of_lt hlt
    · exact Nat.le_of_eq heq

/-- Items that were collected at byte offsets of a source: they come in the order of the offsets, which are those of
parts of matches in the blanked text, and each one's line is that of its offset in the source itself. -/
structure CollectedFrom {α : Type} (source : List Char) (line : α → Nat) (found : List (Found α)) (items : List α) :
    Prop where
  ordered : items = inSourceOrder found
  places : ∀ x ∈ found, ∃ f : Form, ∃ m ∈ f.pattern.matchesIn (Comment.stripCurly source), x.offset = m.startOf f.slot
  inside : ∀ x ∈ found, x.offset ≤ (Utf8.bytes source).length
  lines : ∀ x ∈ found, line x.item = sourceLine source x.offset

theorem collectedFrom {α : Type} {source : List Char} {line : α → Nat} {found : List (Found α)}
    (h : ∀ x ∈ found, ∃ f m, CollectedBy (Comment.stripCurly source) f m (line x.item) x.offset) :
    CollectedFrom source line found (inSourceOrder found) := by
  refine ⟨rfl, fun x hx => ?_, fun x hx => ?_, fun x hx => ?_⟩ <;> obtain ⟨f, m, hcollected⟩ := h x hx
  · exact ⟨f, m, hcollected.found, hcollected.offset_eq⟩
  · rw [Utf8.length_bytes]
    exact hcollected.line_in_source.1
  · exact hcollected.line_in_source.2

theorem collectedFrom_imports (source : List Char) : CollectedFrom source Import.line
    (foundImports (Comment.stripCurly source)) (extract source).imports := by
  refine collectedFrom fun x hx => ?_
  obtain ⟨f, -, m, hcollected, -⟩ := mem_foundImports hx
  exact ⟨f, m, hcollected⟩

theorem collectedFrom_exports (source : List Char) : CollectedFrom source Export.line
    (foundExports (Comment.stripCurly source)) (extract source).exports :=
  collectedFrom fun _ hx => mem_foundExports hx

theorem CollectedFrom.linesOf {α : Type} {source : List Char} {line : α → Nat} {found : List (Found α)} {items : List α}
    (h : CollectedFrom source line found items) : LinesOf source (items.map line) :=
  h.ordered ▸ lines_inSourceOrder h.lines

end Collected

end Curly

namespace Indent

variable (source : List Char)

theorem line_of_mem_imports_scanned {ls : List LogicalLine} {i : Import} (hi : i ∈ (scanned ls).imports) :
    ∃ l ∈ ls, i.line = l.line := by
  obtain ⟨added, himports, hadded⟩ := imports_scanned_append [] ls
  rw [List.nil_append, show (scanned []).imports = [] from rfl, List.nil_append] at himports
  exact hadded i (himports ▸ hi)

theorem lines_imports_scanned {ls : List LogicalLine} (h : (ls.map (·.line)).Pairwise (· < ·)) :
    ((scanned ls).imports.map (·.line)).Pairwise (· ≤ ·) := by
  induction ls using List.reverseRecOn with
  | nil => exact .nil
  | append_singleton ls l ih =>
    rw [List.map_append, List.pairwise_append] at h
    rw [scanned_concat, Scan.step_eq, List.map_append, List.pairwise_append]
    refine ⟨ih h.1, ?_, ?_⟩
    · rw [List.pairwise_map]
      refine List.pairwise_of_forall_mem_list fun i hi j hj => ?_
      rw [(LogicalLine.mem_imports hi).1, (LogicalLine.mem_imports hj).1]
    · rw [List.forall_mem_map]
      intro i hi
      rw [List.forall_mem_map]
      intro j hj
      obtain ⟨m, hm, hline⟩ := line_of_mem_imports_scanned hi
      rw [hline, (LogicalLine.mem_imports hj).1]
      exact Nat.le_of_lt (h.2.2 m.line (List.mem_map_of_mem hm) l.line (List.mem_singleton_self _))

theorem length_lines_le (s : List Char) : (Text.lines s).length ≤ s.count '\n' + 1 := by
  have hlength := Text.length_pieces '\n' s
  unfold Text.lines
  dsimp only
  split <;> simp <;> omega

theorem logicalLine_bounds {l : LogicalLine} (hl : l ∈ logicalLines (Comment.stripHash source)) :
    1 ≤ l.line ∧ l.line ≤ source.count '\n' + 1 := by
  have hbounds := line_bounds _ l hl
  have hlength := length_lines_le (Comment.stripHash source)
  have hcount : (Comment.stripHash source).count '\n' = source.count '\n' := Comment.count_newline_strip .indent source
  omega

theorem linesOf_imports : LinesOf source ((extract source).imports.map (·.line)) := by
  refine ⟨?_, lines_imports_scanned (line_increasing _)⟩
  rw [List.forall_mem_map]
  intro i hi
  obtain ⟨l, hl, hline⟩ := line_of_mem_imports_scanned hi
  rw [hline]
  exact logicalLine_bounds source hl

theorem linesOf_exports : LinesOf source ((extract source).exports.map (·.line)) := by
  constructor
  · rw [List.forall_mem_map]
    intro e he
    obtain ⟨l, hl, hline⟩ := line_of_mem_exports he
    rw [hline]
    exact logicalLine_bounds source hl
  · rw [List.pairwise_map]
    refine (exports_ordered (scanned (logicalLines (Comment.stripHash source)))).imp fun {a b} hle => ?_
    rcases hle with hlt | ⟨heq, -⟩
    · exact Nat.le_of_lt hlt
    · exact Nat.le_of_eq heq

end Indent

/-- In both families imports and exports come in the order of their lines, each on a line that the text has. In the
curly-brace family every one is on the line of the byte offset that it was collected at, as the source itself counts it,
although the offset was found in the blanked text. -/
theorem ofSource_lines (s : List Char) :
    (∀ family, LinesOf s ((ofSource family s).imports.map (·.line)) ∧
      LinesOf s ((ofSource family s).exports.map (·.line))) ∧
    Curly.CollectedFrom (dropMark s) Import.line (Curly.foundImports (Comment.stripCurly (dropMark s)))
      (ofSource .curly s).imports ∧
    Curly.CollectedFrom (dropMark s) Export.line (Curly.foundExports (Comment.stripCurly (dropMark s)))
      (ofSource .curly s).exports := by
  have himports := Curly.collectedFrom_imports (dropMark s)
  have hexports := Curly.collectedFrom_exports (dropMark s)
  refine ⟨fun family => ?_, himports, hexports⟩
  cases family with
  | curly => exact ⟨himports.linesOf.of_dropMark, hexports.linesOf.of_dropMark⟩
  | indent => exact ⟨(Indent.linesOf_imports _).of_dropMark, (Indent.linesOf_exports _).of_dropMark⟩

end ModuleGraph
