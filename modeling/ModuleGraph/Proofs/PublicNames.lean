import ModuleGraph.Extract
import ModuleGraph.Proofs.IndentVisibility
import ModuleGraph.Proofs.LineScan

namespace ModuleGraph.Indent

def boundIn (ls : List LogicalLine) : List Binding :=
  ls.flatMap (·.bound)

def listedIn (ls : List LogicalLine) : List String :=
  ls.flatMap fun l => l.listed?.getD []

def lastList? (ls : List LogicalLine) : Option LogicalLine :=
  (ls.filter (·.listed?.isSome)).getLast?

/-- The place of a name in the order of the bindings, or after all bindings in the order of the lists. -/
def rankIn (ls : List LogicalLine) (name : String) : Nat :=
  ((boundIn ls).map (·.name) ++ listedIn ls).idxOf name

/-- What a module shows of the names in its lines. -/
structure Shows (ls : List LogicalLine) (exports : List Export) : Prop where
  nodup : (exports.map (·.name)).Nodup
  names : ∀ name, name ∈ exports.map (·.name) ↔
    (name ∈ (boundIn ls).map (·.name) ∧ IsPublic name) ∨ name ∈ listedIn ls
  bound : ∀ e ∈ exports, ∀ b, (boundIn ls).find? (·.name = e.name) = some b → e = .named b.name b.kind b.line
  unbound : ∀ e ∈ exports, e.name ∉ (boundIn ls).map (·.name) →
    ∃ l, lastList? ls = some l ∧ e = .named e.name .unknown l.line
  line_pos : ∀ e ∈ exports, 1 ≤ e.line
  ordered : exports.Pairwise (KeyThen (·.line) fun a b => rankIn ls a.name < rankIn ls b.name)

section Scanned

variable (ls : List LogicalLine)

theorem bound_scanned : (scanned ls).bound = boundIn ls := by
  induction ls using List.reverseRecOn with
  | nil => rfl
  | append_singleton ls l ih => simp [scanned_concat, Scan.step_eq, ih, boundIn]

theorem listed_scanned : (scanned ls).listed = listedIn ls := by
  induction ls using List.reverseRecOn with
  | nil => rfl
  | append_singleton ls l ih => simp [scanned_concat, Scan.step_eq, ih, listedIn]

theorem listLine_scanned : (scanned ls).listLine = ((lastList? ls).map (·.line)).getD 0 := by
  induction ls using List.reverseRecOn with
  | nil => rfl
  | append_singleton ls l ih =>
    rw [scanned_concat, Scan.step_eq, lastList?, List.filter_append]
    by_cases hlist : l.listed?.isSome = true
    · simp [hlist]
    · simp [hlist, ih, lastList?]

end Scanned

theorem line_of_mem_bindings {line : Nat} {s : List Char} {b : Binding} (hb : b ∈ bindings line s) : b.line = line := by
  unfold bindings at hb
  dsimp only at hb
  split at hb
  · cases List.mem_singleton.mp hb
    rfl
  split at hb
  · cases List.mem_singleton.mp hb
    rfl
  split at hb
  · split at hb
    · cases hb
    · cases List.mem_singleton.mp hb
      rfl
  split at hb
  · obtain ⟨n, -, rfl⟩ := List.mem_map.mp hb
    rfl
  · cases hb

theorem LogicalLine.line_of_mem_bound {l : LogicalLine} {b : Binding} (hb : b ∈ l.bound) : b.line = l.line := by
  unfold bound visible? at hb
  split at hb
  · rename_i bs hbs
    split at hbs
    · unfold visibleOf at hbs
      split at hbs
      · cases hbs
      · cases hbs
        exact line_of_mem_bindings hb
    · cases hbs
  · cases hb

section Exports

variable {scan : Scan}

theorem mem_exports_iff {e : Export} : e ∈ scan.exports ↔
    (∃ b ∈ publicBindings scan.listed [] scan.bound, e = .named b.name b.kind b.line) ∨
    ∃ n ∈ unboundNames ((publicBindings scan.listed [] scan.bound).map (·.name)) scan.listed,
      e = .named n .unknown scan.listLine := by
  rw [Scan.exports, (sortOn_perm _ _).mem_iff, List.mem_append, List.mem_map, List.mem_map]
  simp only [eq_comm]

theorem not_mem_bound_of_unbound {n : String}
    (hn : n ∈ unboundNames ((publicBindings scan.listed [] scan.bound).map (·.name)) scan.listed) :
    n ∉ scan.bound.map (·.name) := by
  obtain ⟨hshown, hlisted⟩ := mem_unboundNames.mp hn
  exact fun hbound => hshown (mem_publicBindings.mpr ⟨List.not_mem_nil, hbound, .inr hlisted⟩)

theorem exports_ordered (scan : Scan) : scan.exports.Pairwise (KeyThen (·.line) fun a b =>
    (scan.bound.map (·.name) ++ scan.listed).idxOf a.name < (scan.bound.map (·.name) ++ scan.listed).idxOf b.name) := by
  have hbound : ∀ b ∈ publicBindings scan.listed [] scan.bound, b.name ∈ scan.bound.map (·.name) :=
    fun b hb => (mem_publicBindings.mp (List.mem_map_of_mem hb)).2.1
  refine sortOn_keyThen (List.pairwise_append.mpr ⟨?_, ?_, ?_⟩)
  · refine List.pairwise_map.mpr ((List.pairwise_map.mp (publicBindings_ordered scan.bound)).imp_of_mem ?_)
    intro a b ha hb hlt
    simp only [Export.named]
    rwa [List.idxOf_append_of_mem (hbound a ha), List.idxOf_append_of_mem (hbound b hb)]
  · refine List.pairwise_map.mpr ((unboundNames_ordered scan.listed).imp_of_mem ?_)
    intro m n hm hn hlt
    simp only [Export.named]
    rw [List.idxOf_append_of_notMem (not_mem_bound_of_unbound hm),
      List.idxOf_append_of_notMem (not_mem_bound_of_unbound hn)]
    omega
  · intro x hx y hy
    obtain ⟨b, hb, rfl⟩ := List.mem_map.mp hx
    obtain ⟨n, hn, rfl⟩ := List.mem_map.mp hy
    simp only [Export.named]
    rw [List.idxOf_append_of_mem (hbound b hb), List.idxOf_append_of_notMem (not_mem_bound_of_unbound hn)]
    have hlt := List.idxOf_lt_length_of_mem (hbound b hb)
    omega

end Exports

theorem exists_lastList {ls : List LogicalLine} {n : String} (hn : n ∈ listedIn ls) :
    ∃ l ∈ ls, lastList? ls = some l := by
  obtain ⟨l, hl, hn⟩ := List.mem_flatMap.mp hn
  have hlist : l.listed?.isSome = true := by
    cases hnames : l.listed? with
    | none => simp [hnames] at hn
    | some names => rfl
  have hne : ls.filter (·.listed?.isSome) ≠ [] := List.ne_nil_of_mem (List.mem_filter.mpr ⟨hl, hlist⟩)
  have hlast := List.getLast_mem hne
  exact ⟨_, (List.mem_filter.mp hlast).1, List.getLast?_eq_some_getLast hne⟩

/-- An export shows the first binding of its name; a name that is not bound has only the line of the last list. -/
theorem mem_exports_scanned {ls : List LogicalLine} {e : Export} (he : e ∈ (scanned ls).exports) :
    (∃ b ∈ boundIn ls, (boundIn ls).find? (·.name = e.name) = some b ∧ e = .named b.name b.kind b.line) ∨
    e.name ∉ (boundIn ls).map (·.name) ∧ ∃ l ∈ ls, lastList? ls = some l ∧ e = .named e.name .unknown l.line := by
  rcases mem_exports_iff.mp he with ⟨b, hb, rfl⟩ | ⟨n, hn, rfl⟩
  · have hfirst := find?_of_mem_publicBindings hb
    rw [bound_scanned] at hfirst
    exact .inl ⟨b, List.mem_of_find?_eq_some hfirst, hfirst, rfl⟩
  · have hbound := not_mem_bound_of_unbound hn
    have hlisted := (mem_unboundNames.mp hn).2
    rw [bound_scanned] at hbound
    rw [listed_scanned] at hlisted
    obtain ⟨l, hl, hlast⟩ := exists_lastList hlisted
    refine .inr ⟨hbound, l, hl, hlast, ?_⟩
    rw [listLine_scanned, hlast]
    rfl

theorem line_of_mem_exports {ls : List LogicalLine} {e : Export} (he : e ∈ (scanned ls).exports) :
    ∃ l ∈ ls, e.line = l.line := by
  rcases mem_exports_scanned he with ⟨b, hb, -, heq⟩ | ⟨-, l, hl, -, heq⟩
  · obtain ⟨l, hl, hb⟩ := List.mem_flatMap.mp hb
    exact ⟨l, hl, by rw [heq]; exact LogicalLine.line_of_mem_bound hb⟩
  · exact ⟨l, hl, by rw [heq]; rfl⟩

/-- A module exports its public names and all names that it lists, each once and under its first binding, in the order
of lines; on one line bindings come in their order and before names that are only listed. -/
theorem exports_shown (text : List Char) :
    Shows (logicalLines (Comment.stripHash (Declarations.dropMark text)))
      (Declarations.ofSource .indent text).exports := by
  have hexports : (Declarations.ofSource .indent text).exports =
      (scanned (logicalLines (Comment.stripHash (Declarations.dropMark text)))).exports := rfl
  have hbounds := line_bounds (Comment.stripHash (Declarations.dropMark text))
  rw [hexports]
  generalize logicalLines (Comment.stripHash (Declarations.dropMark text)) = ls at hbounds ⊢
  have hname : ∀ b n, (boundIn ls).find? (·.name = n) = some b → n ∈ (boundIn ls).map (·.name) := by
    intro b n hb
    have hn : b.name = n := by simpa using List.find?_some hb
    exact hn ▸ List.mem_map_of_mem (List.mem_of_find?_eq_some hb)
  refine ⟨Scan.exports_names_nodup _, fun name => ?_, fun e he b hb => ?_, fun e he hunbound => ?_, fun e he => ?_, ?_⟩
  · rw [Scan.mem_exports_names, bound_scanned, listed_scanned]
  · rcases mem_exports_scanned he with ⟨b', -, hfirst, heq⟩ | ⟨hbound, -⟩
    · cases Option.some.inj (hfirst.symm.trans hb)
      exact heq
    · exact absurd (hname b _ hb) hbound
  · rcases mem_exports_scanned he with ⟨b, -, hfirst, -⟩ | ⟨-, l, -, hlast, heq⟩
    · exact absurd (hname b _ hfirst) hunbound
    · exact ⟨l, hlast, heq⟩
  · obtain ⟨l, hl, hline⟩ := line_of_mem_exports he
    rw [hline]
    exact (hbounds l hl).1
  · have hordered := exports_ordered (scanned ls)
    rwa [bound_scanned, listed_scanned] at hordered

end ModuleGraph.Indent
