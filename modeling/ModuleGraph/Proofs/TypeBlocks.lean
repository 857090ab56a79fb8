import ModuleGraph.Extract
import ModuleGraph.Proofs.LineScan

namespace ModuleGraph.Indent

/-- Some header comes before a line, and everything since then is deeper than it. -/
def Inside (before : List LogicalLine) (l : LogicalLine) : Prop :=
  ∃ start header rest, before = start ++ header :: rest ∧ header.IsHeader ∧
    ∀ m ∈ rest ++ [l], header.indent < m.indent

/-- The block of the last header before a line is closed, by that line or earlier. -/
def LastClosed (before : List LogicalLine) (l : LogicalLine) : Prop :=
  ∃ start header rest, before = start ++ header :: rest ∧ header.IsHeader ∧ (∀ m ∈ rest, ¬m.IsHeader) ∧
    ∃ m ∈ rest ++ [l], m.indent ≤ header.indent

theorem openBlock_eq_some_iff {block : Option Nat} {indent w : Nat} :
    openBlock block indent = some w ↔ block = some w ∧ w < indent := by
  simp [openBlock, Option.filter_eq_some_iff]

theorem typeBlock_scanned_iff {ls : List LogicalLine} {w : Nat} :
    (scanned ls).typeBlock = some w ↔ ∃ start header rest, ls = start ++ header :: rest ∧ header.IsHeader ∧
      header.indent = w ∧ ∀ m ∈ rest, ¬m.IsHeader ∧ w < m.indent := by
  induction ls using List.reverseRecOn with
  | nil => simp [scanned]
  | append_singleton ls l ih =>
    rw [scanned_concat, Scan.step_eq]
    dsimp only
    constructor
    · intro h
      split at h
      case isTrue hheader => exact ⟨ls, l, [], rfl, hheader, Option.some.inj h, by simp⟩
      case isFalse hheader =>
        obtain ⟨hblock, hlt⟩ := openBlock_eq_some_iff.mp h
        obtain ⟨start, header, rest, rfl, hhead, hindent, hrest⟩ := ih.mp hblock
        refine ⟨start, header, rest ++ [l], by simp, hhead, hindent, ?_⟩
        rw [List.forall_mem_append, List.forall_mem_singleton]
        exact ⟨hrest, hheader, hlt⟩
    · rintro ⟨start, header, rest, hls, hhead, hindent, hrest⟩
      -- The last line is the header itself or one of the lines after it.
      rcases List.eq_nil_or_concat rest with rfl | ⟨rest, m, rfl⟩
      · obtain ⟨rfl, rfl⟩ := List.append_inj' hls rfl |>.imp_right fun h => List.singleton_inj.mp h
        rw [if_pos hhead, hindent]
      · have hsplit : ls ++ [l] = (start ++ header :: rest) ++ [m] := by simpa using hls
        obtain ⟨rfl, hl⟩ := List.append_inj' hsplit rfl
        obtain rfl : l = m := List.singleton_inj.mp hl
        rw [List.concat_eq_append, List.forall_mem_append, List.forall_mem_singleton] at hrest
        rw [if_neg hrest.2.1]
        exact openBlock_eq_some_iff.mpr ⟨ih.mpr ⟨start, header, rest, rfl, hhead, hindent, hrest.1⟩, hrest.2.2⟩

theorem exists_last_header {ls : List LogicalLine} (h : ∃ l ∈ ls, l.IsHeader) :
    ∃ start header rest, ls = start ++ header :: rest ∧ header.IsHeader ∧ ∀ m ∈ rest, ¬m.IsHeader := by
  induction ls with
  | nil => simp at h
  | cons m ls ih =>
    by_cases hlater : ∃ l ∈ ls, l.IsHeader
    · obtain ⟨start, header, rest, rfl, hheader, hrest⟩ := ih hlater
      exact ⟨m :: start, header, rest, rfl, hheader, hrest⟩
    · push Not at hlater
      obtain ⟨l, hl, hheader⟩ := h
      rcases List.mem_cons.mp hl with rfl | hl
      · exact ⟨[], l, ls, rfl, hheader, hlater⟩
      · exact absurd hheader (hlater l hl)

theorem last_header_unique {start start' rest rest' : List LogicalLine} {header header' : LogicalLine}
    (heq : start ++ header :: rest = start' ++ header' :: rest') (h : header.IsHeader) (h' : header'.IsHeader)
    (hrest : ∀ m ∈ rest, ¬m.IsHeader) (hrest' : ∀ m ∈ rest', ¬m.IsHeader) : header = header' ∧ rest = rest' := by
  rcases List.append_eq_append_iff.mp heq with ⟨u, -, hu⟩ | ⟨u, -, hu⟩
  · cases u with
    | nil => exact List.cons_eq_cons.mp hu
    | cons x u =>
      obtain ⟨-, rfl⟩ := List.cons_eq_cons.mp hu
      exact absurd h' (hrest header' (by simp))
  · cases u with
    | nil => exact (List.cons_eq_cons.mp hu).imp Eq.symm Eq.symm
    | cons x u =>
      obtain ⟨-, rfl⟩ := List.cons_eq_cons.mp hu
      exact absurd h (hrest' header (by simp))

/-- A block counts as open on a line that lies inside one, unless the last block has been closed. -/
theorem openBlock_scanned_iff {before : List LogicalLine} {l : LogicalLine} :
    (openBlock (scanned before).typeBlock l.indent).isSome = true ↔ Inside before l ∧ ¬LastClosed before l := by
  constructor
  · intro h
    obtain ⟨w, hw⟩ := Option.isSome_iff_exists.mp h
    obtain ⟨hblock, hlt⟩ := openBlock_eq_some_iff.mp hw
    obtain ⟨start, header, rest, rfl, hheader, rfl, hrest⟩ := typeBlock_scanned_iff.mp hblock
    have hdeeper : ∀ m ∈ rest ++ [l], header.indent < m.indent := by
      rw [List.forall_mem_append, List.forall_mem_singleton]
      exact ⟨fun m hm => (hrest m hm).2, hlt⟩
    refine ⟨⟨start, header, rest, rfl, hheader, hdeeper⟩, ?_⟩
    rintro ⟨start', header', rest', heq, hheader', hrest', m, hm, hle⟩
    obtain ⟨rfl, rfl⟩ := last_header_unique heq hheader hheader' (fun m hm => (hrest m hm).1) hrest'
    have hlt := hdeeper m hm
    omega
  · rintro ⟨⟨start, header, rest, hbefore, hheader, -⟩, hopen⟩
    have hmem : header ∈ before := by simp [hbefore]
    obtain ⟨start', header', rest', rfl, hheader', hrest'⟩ := exists_last_header ⟨header, hmem, hheader⟩
    have hdeeper : ∀ m ∈ rest' ++ [l], header'.indent < m.indent := by
      intro m hm
      by_contra hle
      exact hopen ⟨start', header', rest', rfl, hheader', hrest', m, hm, by omega⟩
    rw [List.forall_mem_append, List.forall_mem_singleton] at hdeeper
    have hblock : (scanned (start' ++ header' :: rest')).typeBlock = some header'.indent :=
      typeBlock_scanned_iff.mpr ⟨start', header', rest', rfl, hheader', rfl,
        fun m hm => ⟨hrest' m hm, hdeeper.1 m hm⟩⟩
    rw [openBlock_eq_some_iff.mpr ⟨hblock, hdeeper.2⟩]
    rfl

theorem statementImports_line {line : Nat} {typeOnly : Bool} {s : List Char} {i : Import}
    (hi : i ∈ statementImports line typeOnly s) : i.line = line ∧ i.isDynamic = false ∧ i.isTypeOnly = typeOnly := by
  unfold statementImports at hi
  split at hi
  · cases List.mem_singleton.mp hi
    exact ⟨rfl, rfl, rfl⟩
  · split at hi
    · obtain ⟨source, -, rfl⟩ := List.mem_map.mp hi
      exact ⟨rfl, rfl, rfl⟩
    · cases hi

theorem dynamicImports_line {line : Nat} {s : List Char} {i : Import} (hi : i ∈ dynamicImports line s) :
    i.line = line ∧ i.isDynamic = true := by
  obtain ⟨m, -, rfl⟩ := List.mem_map.mp hi
  exact ⟨rfl, rfl⟩

theorem LogicalLine.mem_imports {l : LogicalLine} {typeOnly : Bool} {i : Import} (hi : i ∈ l.imports typeOnly) :
    i.line = l.line ∧ (i.isDynamic = false → i.isTypeOnly = typeOnly) := by
  unfold imports at hi
  split at hi
  · cases hi
  · rcases List.mem_append.mp hi with hi | hi
    · obtain ⟨s, -, hi⟩ := List.mem_flatMap.mp hi
      obtain ⟨hline, -, htype⟩ := statementImports_line hi
      exact ⟨hline, fun _ => htype⟩
    · obtain ⟨hline, hdynamic⟩ := dynamicImports_line hi
      refine ⟨hline, fun hstatic => ?_⟩
      rw [hdynamic] at hstatic
      cases hstatic

theorem imports_scanned_append (ls more : List LogicalLine) :
    ∃ added, (scanned (ls ++ more)).imports = (scanned ls).imports ++ added ∧
      ∀ i ∈ added, ∃ m ∈ more, i.line = m.line := by
  induction more using List.reverseRecOn with
  | nil => exact ⟨[], by simp, by simp⟩
  | append_singleton more l ih =>
    obtain ⟨added, himports, hadded⟩ := ih
    rw [← List.append_assoc, scanned_concat, Scan.step_eq]
    refine ⟨added ++ l.imports _, by rw [himports, List.append_assoc], ?_⟩
    intro i hi
    rcases List.mem_append.mp hi with hi | hi
    · obtain ⟨m, hm, hline⟩ := hadded i hi
      exact ⟨m, List.mem_append_left _ hm, hline⟩
    · exact ⟨l, by simp, (LogicalLine.mem_imports hi).1⟩

theorem filter_line_eq_nil {ls : List LogicalLine} {imports : List Import} {n : Nat}
    (hlines : ∀ i ∈ imports, ∃ m ∈ ls, i.line = m.line) (hne : ∀ m ∈ ls, m.line ≠ n) :
    imports.filter (·.line = n) = [] := by
  rw [List.filter_eq_nil_iff]
  intro i hi
  obtain ⟨m, hm, hline⟩ := hlines i hi
  rw [decide_eq_true_eq, hline]
  exact hne m hm

theorem filter_imports_scanned {before after : List LogicalLine} {l : LogicalLine}
    (h : ((before ++ l :: after).map (·.line)).Pairwise (· < ·)) :
    (scanned (before ++ l :: after)).imports.filter (·.line = l.line) =
      l.imports (openBlock (scanned before).typeBlock l.indent).isSome := by
  obtain ⟨hafter, hbefore⟩ : (∀ m ∈ after, l.line < m.line) ∧ ∀ m ∈ before, m.line < l.line := by
    rw [List.map_append, List.map_cons, List.pairwise_append, List.pairwise_cons] at h
    simp only [List.forall_mem_map, List.forall_mem_cons] at h
    exact ⟨h.2.1.1, fun m hm => (h.2.2 m hm).1⟩
  obtain ⟨earlier, hearlier, hlines⟩ := imports_scanned_append [] before
  obtain ⟨later, hlater, hlines'⟩ := imports_scanned_append (before ++ [l]) after
  rw [List.nil_append, show (scanned []).imports = [] from rfl, List.nil_append] at hearlier
  have hnone : earlier.filter (·.line = l.line) = [] :=
    filter_line_eq_nil hlines fun m hm => Nat.ne_of_lt (hbefore m hm)
  have hnone' : later.filter (·.line = l.line) = [] :=
    filter_line_eq_nil hlines' fun m hm => Nat.ne_of_gt (hafter m hm)
  rw [List.append_cons, hlater, scanned_concat, Scan.step_eq, List.filter_append, List.filter_append, hearlier, hnone,
    hnone', List.nil_append, List.append_nil, List.filter_eq_self]
  exact fun i hi => decide_eq_true (LogicalLine.mem_imports hi).1

/-- Every import stands on a logical line, and the imports on a line are those that its statements and calls make.
A static one is marked as type-only just when its line lies inside a block for type checkers, unless the last block
before it is closed already: that is so where a block inside the open one has ended. -/
theorem static_imports_marked (text : List Char) :
    let lines := logicalLines (Comment.stripHash (Declarations.dropMark text))
    let imports := (Declarations.ofSource .indent text).imports
    (∀ i ∈ imports, ∃ l ∈ lines, i.line = l.line) ∧
    ∀ before l after, lines = before ++ l :: after →
      (∀ i ∈ imports, i.line = l.line → i.isDynamic = false →
        (i.isTypeOnly = true ↔ Inside before l ∧ ¬LastClosed before l)) ∧
      ∀ typeOnly, (typeOnly = true ↔ Inside before l ∧ ¬LastClosed before l) →
        imports.filter (·.line = l.line) = l.imports typeOnly := by
  intro lines imports
  have himports : imports = (scanned lines).imports := rfl
  refine ⟨fun i hi => ?_, fun before l after hlines => ?_⟩
  · obtain ⟨added, hadded, hall⟩ := imports_scanned_append [] lines
    rw [himports, ← List.nil_append lines, hadded] at hi
    exact hall i hi
  · have hincreasing : ((before ++ l :: after).map (·.line)).Pairwise (· < ·) := hlines ▸ line_increasing _
    have hfilter := filter_imports_scanned hincreasing
    rw [← hlines, ← himports] at hfilter
    rw [← openBlock_scanned_iff]
    refine ⟨fun i hi hline hstatic => ?_, fun typeOnly htype => ?_⟩
    · have hmem : i ∈ imports.filter (·.line = l.line) := List.mem_filter.mpr ⟨hi, decide_eq_true hline⟩
      rw [hfilter] at hmem
      rw [(LogicalLine.mem_imports hmem).2 hstatic]
    · rw [hfilter, Bool.eq_iff_iff.mpr htype]

/-- After a block inside a block, an import of the outer one is not marked. -/
theorem mark_lost_after_inner_block :
    let text := "if TYPE_CHECKING:\n    if TYPE_CHECKING:\n        import a\n    import b\n".toList
    ∃ before l after i, logicalLines (Comment.stripHash (Declarations.dropMark text)) = before ++ l :: after ∧
      Inside before l ∧ i ∈ (Declarations.ofSource .indent text).imports ∧ i.line = l.line ∧ i.isDynamic = false ∧
        i.isTypeOnly = false := by
  intro text
  let outer : LogicalLine := ⟨1, 0, "if TYPE_CHECKING:".toList⟩
  let rest : List LogicalLine := [⟨2, 4, "if TYPE_CHECKING:".toList⟩, ⟨3, 8, "import a".toList⟩]
  let last : LogicalLine := ⟨4, 4, "import b".toList⟩
  let i : Import := { source := "b", origin := .package, names := ["*"], hasNamespace := true, line := 4 }
  refine ⟨outer :: rest, last, [], i, by decide +kernel, ?_, by decide +kernel, rfl, rfl, rfl⟩
  exact ⟨[], outer, rest, rfl, by decide +kernel, by decide⟩

end ModuleGraph.Indent
