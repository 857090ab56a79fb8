import ModuleGraph.Proofs.StraightPath

namespace ModuleGraph

open Text (pieces)

namespace Path

def IsStep (c : Component) : Prop :=
  c = .up ∨ ∃ n, IsEntryName n ∧ c = .name n

theorem isStep_of_mem_stepsOf {s : List UInt8} {c : Component} (h : c ∈ stepsOf s) : IsStep c := by
  obtain ⟨w, hw, hc⟩ := List.mem_filterMap.mp h
  rcases ofPiece?_eq_some hc with rfl | ⟨hname, rfl⟩
  · exact .inl rfl
  · have hsep : slash ∉ w := fun hmem => absurd (Text.mem_pieces hw slash hmem).2 (by decide)
    exact .inr ⟨_, hname.isEntryName hsep, rfl⟩

theorem IsStep.ofPiece?_raw {c : Component} (h : IsStep c) :
    slash ∉ c.raw.toList ∧ Component.ofPiece? c.raw.toList = some c := by
  rcases h with rfl | ⟨n, hn, rfl⟩
  · exact ⟨by decide, rfl⟩
  · exact ⟨hn.2.2.2, hn.ofPiece?_eq⟩

theorem components_of_isAbsolute {p : Path} (h : p.isAbsolute = true) :
    p.components = .root :: stepsOf p.raw.toList := by
  simp [components, h, stepsOf]

theorem components_ofComponents {cs : List Component} (h : ∀ c ∈ cs, IsStep c) :
    (ofComponents (.root :: cs)).raw.toList ≠ [] ∧ (ofComponents (.root :: cs)).components = .root :: cs := by
  induction cs using List.reverseRecOn with
  | nil => decide
  | append_singleton cs c ih =>
    rw [List.forall_mem_append, List.forall_mem_singleton] at h
    obtain ⟨htext, hcomponents⟩ := ih h.1
    obtain ⟨hsep, hpiece⟩ := h.2.ofPiece?_raw
    rw [← List.cons_append, ofComponents_concat]
    refine ⟨join_ne_nil htext (not_isAbsolute hsep), ?_⟩
    rw [components_join_name hsep htext hpiece, hcomponents]

section Parent

variable {cs : List Component}

theorem parent?_root : (ofComponents [.root]).parent? = none := by
  rw [parent?, (components_ofComponents (by simp)).2]
  rfl

theorem parentOf?_concat {c : Component} (hc : c ≠ .root) : parentOf? (cs ++ [c]) = some cs := by
  unfold parentOf?
  rw [List.getLast?_concat, List.dropLast_concat]
  cases c <;> simp_all

theorem IsStep.ne_root {c : Component} (h : IsStep c) : c ≠ .root := by
  rcases h with rfl | ⟨n, -, rfl⟩ <;> simp

theorem parent?_ofComponents {c : Component} (h : ∀ d ∈ cs ++ [c], IsStep d) :
    (ofComponents (.root :: (cs ++ [c]))).parent? = some (ofComponents (.root :: cs)) := by
  have hc : IsStep c := h c (by simp)
  rw [parent?, (components_ofComponents h).2, ← List.cons_append, parentOf?_concat hc.ne_root, Option.map_some]

end Parent

section Clean

inductive RootedStack : List Component → Prop
  | root : RootedStack [.root]
  | name {n : RawText} {s : List Component} : IsEntryName n → RootedStack s → RootedStack (.name n :: s)

theorem RootedStack.cleanStep {s : List Component} (hs : RootedStack s) {c : Component} (hc : IsStep c) :
    RootedStack (cleanStep s c) := by
  rcases hc with rfl | ⟨n, hn, rfl⟩
  · cases hs with
    | root => exact .root
    | name _ hs => exact hs
  · rw [cleanStep_name]
    exact .name hn hs

theorem RootedStack.foldl_cleanStep {s cs : List Component} (hs : RootedStack s) (hcs : ∀ c ∈ cs, IsStep c) :
    RootedStack (cs.foldl Path.cleanStep s) := by
  induction cs generalizing s with
  | nil => exact hs
  | cons c cs ih =>
    obtain ⟨hc, hcs⟩ := List.forall_mem_cons.mp hcs
    exact ih (hs.cleanStep hc) hcs

theorem RootedStack.foldl_reverse {s : List Component} (hs : RootedStack s) :
    s.reverse.foldl Path.cleanStep [] = s := by
  induction hs with
  | root => rfl
  | @name n s _ _ ih => rw [List.reverse_cons, List.foldl_append, ih, List.foldl_cons, List.foldl_nil, cleanStep_name]

theorem RootedStack.exists_steps {s : List Component} (hs : RootedStack s) :
    ∃ cs, s.reverse = .root :: cs ∧ (∀ c ∈ cs, IsStep c) ∧ .up ∉ cs := by
  induction hs with
  | root => exact ⟨[], rfl, by simp⟩
  | @name n s hn _ ih =>
    obtain ⟨cs, hcs, hsteps, hup⟩ := ih
    refine ⟨cs ++ [.name n], by rw [List.reverse_cons, hcs, List.cons_append], ?_, by simpa using hup⟩
    rw [List.forall_mem_append, List.forall_mem_singleton]
    exact ⟨hsteps, .inr ⟨n, hn, rfl⟩⟩

theorem foldl_cleanStep_names {s cs : List Component} (hcs : ∀ c ∈ cs, IsStep c) (hup : .up ∉ cs) :
    cs.foldl cleanStep s = cs.reverse ++ s := by
  induction cs generalizing s with
  | nil => rfl
  | cons c cs ih =>
    obtain ⟨hc, hrest⟩ := List.forall_mem_cons.mp hcs
    rw [List.mem_cons, not_or] at hup
    rcases hc with rfl | ⟨n, -, rfl⟩
    · exact absurd rfl hup.1
    · rw [List.foldl_cons, cleanStep_name, ih hrest hup.2, List.reverse_cons, List.append_assoc, List.singleton_append]

theorem RootedStack.length_cleanStep_up {s : List Component} (hs : RootedStack s) :
    (Path.cleanStep s .up).length ≤ s.length := by
  cases hs with
  | root => exact Nat.le_refl _
  | name _ _ => exact Nat.le_succ _

theorem RootedStack.length_foldl_le {s cs : List Component} (hs : RootedStack s) (hcs : ∀ c ∈ cs, IsStep c) :
    (cs.foldl Path.cleanStep s).length ≤ s.length + cs.length := by
  induction cs generalizing s with
  | nil => exact Nat.le_refl _
  | cons c cs ih =>
    obtain ⟨hc, hcs⟩ := List.forall_mem_cons.mp hcs
    have hrest := ih (hs.cleanStep hc) hcs
    have hstep : (Path.cleanStep s c).length ≤ s.length + 1 := by
      rcases hc with rfl | ⟨n, -, rfl⟩
      · exact Nat.le_succ_of_le hs.length_cleanStep_up
      · rw [cleanStep_name, List.length_cons]
    rw [List.foldl_cons, List.length_cons]
    omega

theorem RootedStack.length_foldl_lt {s cs : List Component} (hs : RootedStack s) (hcs : ∀ c ∈ cs, IsStep c)
    (hup : .up ∈ cs) : (cs.foldl Path.cleanStep s).length < s.length + cs.length := by
  obtain ⟨before, after, rfl⟩ := List.append_of_mem hup
  rw [List.forall_mem_append, List.forall_mem_cons] at hcs
  have hbefore := hs.foldl_cleanStep hcs.1
  have hlength := hs.length_foldl_le hcs.1
  have hstep := hbefore.length_cleanStep_up
  have hrest := (hbefore.cleanStep hcs.2.1).length_foldl_le hcs.2.2
  rw [List.foldl_append, List.foldl_cons, List.length_append, List.length_cons]
  omega

def stackOf (cs : List Component) : List Component :=
  cs.foldl cleanStep [.root]

theorem stackOf_append (cs ds : List Component) : stackOf (cs ++ ds) = ds.foldl cleanStep (stackOf cs) :=
  List.foldl_append

theorem rootedStack_stackOf {cs : List Component} (h : ∀ c ∈ cs, IsStep c) : RootedStack (stackOf cs) :=
  RootedStack.root.foldl_cleanStep h

theorem stackOf_concat_name (cs : List Component) (n : RawText) : stackOf (cs ++ [.name n]) = .name n :: stackOf cs := by
  rw [stackOf_append, List.foldl_cons, List.foldl_nil, cleanStep_name]

theorem stackOf_names {cs : List Component} (hcs : ∀ c ∈ cs, IsStep c) (hup : .up ∉ cs) :
    stackOf cs = cs.reverse ++ [.root] :=
  foldl_cleanStep_names hcs hup

structure CleansTo (cs ds : List Component) : Prop where
  steps : ∀ c ∈ cs, IsStep c
  names : ∀ c ∈ ds, IsStep c
  no_up : .up ∉ ds
  same : stackOf ds = stackOf cs

theorem exists_cleansTo {cs : List Component} (h : ∀ c ∈ cs, IsStep c) :
    ∃ ds, (stackOf cs).reverse = .root :: ds ∧ CleansTo cs ds := by
  have hstack := rootedStack_stackOf h
  obtain ⟨ds, hds, hnames, hup⟩ := hstack.exists_steps
  have hsame := hstack.foldl_reverse
  rw [hds] at hsame
  exact ⟨ds, hds, h, hnames, hup, hsame⟩

namespace CleansTo

variable {cs ds before after : List Component}

theorem stackOf_eq (h : CleansTo cs ds) : stackOf cs = ds.reverse ++ [.root] := by
  rw [← h.same, stackOf_names h.names h.no_up]

theorem length_le (h : CleansTo cs ds) : ds.length ≤ cs.length := by
  have hlength : (stackOf cs).length ≤ 1 + cs.length := RootedStack.root.length_foldl_le h.steps
  rw [h.stackOf_eq, List.length_append, List.length_reverse, List.length_singleton] at hlength
  omega

theorem exists_append (h : CleansTo (before ++ after) ds) (hup : .up ∉ after) :
    ∃ rest, CleansTo before rest ∧ ds = rest ++ after := by
  obtain ⟨hbefore, hafter⟩ := List.forall_mem_append.mp h.steps
  obtain ⟨rest, hrest, hcleans⟩ := exists_cleansTo hbefore
  refine ⟨rest, hcleans, ?_⟩
  have hstack := h.stackOf_eq
  rw [stackOf_append, foldl_cleanStep_names hafter hup, hcleans.stackOf_eq] at hstack
  simpa using congrArg List.reverse hstack.symm

end CleansTo

theorem clean_of_components {p : Path} {cs : List Component} (hp : p.components = .root :: cs)
    (hcs : ∀ c ∈ cs, IsStep c) : p.clean = ofComponents (stackOf cs).reverse := by
  have hclean : cleanComponents p.components = (stackOf cs).reverse := by
    rw [hp]
    rfl
  obtain ⟨ds, hds, -⟩ := (rootedStack_stackOf hcs).exists_steps
  rw [clean, hclean, hds]

theorem components_clean {p : Path} {cs : List Component} (hp : p.components = .root :: cs)
    (hcs : ∀ c ∈ cs, IsStep c) : p.clean.components = (stackOf cs).reverse := by
  obtain ⟨ds, hds, hsteps, -⟩ := (rootedStack_stackOf hcs).exists_steps
  rw [clean_of_components hp hcs, hds]
  exact (components_ofComponents hsteps).2

theorem clean_eq_iff {p q : Path} {cs ds : List Component} (hp : p.components = .root :: cs)
    (hq : q.components = .root :: ds) (hcs : ∀ c ∈ cs, IsStep c) (hds : ∀ c ∈ ds, IsStep c) :
    p.clean = q.clean ↔ stackOf cs = stackOf ds := by
  constructor
  · intro h
    have hcomponents := congrArg components h
    rw [components_clean hp hcs, components_clean hq hds] at hcomponents
    exact List.reverse_injective hcomponents
  · intro h
    rw [clean_of_components hp hcs, clean_of_components hq hds, h]

end Clean

end Path

end ModuleGraph
