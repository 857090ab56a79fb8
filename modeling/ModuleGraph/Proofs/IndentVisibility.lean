import ModuleGraph.Indent.Extract
import ModuleGraph.Proofs.SortOrder

namespace ModuleGraph.Indent

def IsPublic (name : String) : Prop :=
  name.toList.head? ≠ some '_'

theorem isPublic_iff {name : String} : IsPublic name ↔ Text.startsWith name.toList ['_'] = false := by
  rw [IsPublic, Text.startsWith]
  cases name.toList with
  | nil => simp
  | cons c cs =>
    rw [List.head?_cons, List.isPrefixOf_cons_cons, List.isPrefixOf_nil_left, Bool.and_true, beq_eq_false_iff_ne, ne_eq,
      Option.some_inj, eq_comm]

theorem mem_publicBindings {listed : List String} {bs : List Binding} {seen : List String} {name : String} :
    name ∈ (publicBindings listed seen bs).map (·.name) ↔
      name ∉ seen ∧ name ∈ bs.map (·.name) ∧ (IsPublic name ∨ name ∈ listed) := by
  induction bs generalizing seen with
  | nil => simp [publicBindings]
  | cons b bs ih =>
    rw [publicBindings]
    split
    case isTrue h =>
      have hb : (IsPublic b.name ∨ b.name ∈ listed) ∧ b.name ∉ seen := by simpa [isPublic_iff] using h
      rw [List.map_cons, List.mem_cons, ih, List.map_cons, List.mem_cons, List.mem_cons]
      by_cases hname : name = b.name
      · subst hname
        simp [hb]
      · simp [hname]
    case isFalse h =>
      have hb : IsPublic b.name ∨ b.name ∈ listed → b.name ∈ seen := by simpa [isPublic_iff] using h
      rw [ih, List.map_cons, List.mem_cons]
      by_cases hname : name = b.name
      · subst hname
        constructor
        · rintro ⟨hseen, -, hpublic⟩
          exact absurd (hb hpublic) hseen
        · rintro ⟨hseen, -, hpublic⟩
          exact absurd (hb hpublic) hseen
      · simp [hname]

theorem publicBindings_nodup (listed : List String) (bs : List Binding) (seen : List String) :
    ((publicBindings listed seen bs).map (·.name)).Nodup := by
  induction bs generalizing seen with
  | nil => simp [publicBindings]
  | cons b bs ih =>
    rw [publicBindings]
    split
    · rw [List.map_cons, List.nodup_cons]
      exact ⟨fun hmem => (mem_publicBindings.mp hmem).1 List.mem_cons_self, ih _⟩
    · exact ih seen

theorem mem_unboundNames {ns seen : List String} {name : String} :
    name ∈ unboundNames seen ns ↔ name ∉ seen ∧ name ∈ ns := by
  induction ns generalizing seen with
  | nil => simp [unboundNames]
  | cons n ns ih =>
    rw [unboundNames]
    split
    case isTrue h =>
      rw [ih, List.mem_cons]
      by_cases hname : name = n
      · subst hname
        simp [h]
      · simp [hname]
    case isFalse h =>
      rw [List.mem_cons, ih, List.mem_cons, List.mem_cons]
      by_cases hname : name = n
      · subst hname
        simp [h]
      · simp [hname]

theorem unboundNames_nodup (ns seen : List String) : (unboundNames seen ns).Nodup := by
  induction ns generalizing seen with
  | nil => simp [unboundNames]
  | cons n ns ih =>
    rw [unboundNames]
    split
    · exact ih seen
    · rw [List.nodup_cons]
      exact ⟨fun hmem => (mem_unboundNames.mp hmem).1 List.mem_cons_self, ih _⟩

section FirstOccurrence

variable {listed seen : List String}

theorem publicBindings_cons (b : Binding) (bs : List Binding) :
    ∃ front seen', publicBindings listed seen (b :: bs) = front ++ publicBindings listed seen' bs ∧
      (front = [b] ∨ front = []) ∧ ∀ n ∈ (publicBindings listed seen' bs).map (·.name), n ≠ b.name := by
  rw [publicBindings]
  split
  case isTrue h =>
    refine ⟨[b], b.name :: seen, rfl, .inl rfl, ?_⟩
    rintro n hn rfl
    exact (mem_publicBindings.mp hn).1 List.mem_cons_self
  case isFalse h =>
    refine ⟨[], seen, rfl, .inr rfl, ?_⟩
    rintro n hn rfl
    obtain ⟨hseen, -, hpublic⟩ := mem_publicBindings.mp hn
    exact h (by simpa [isPublic_iff, hseen] using hpublic)

theorem find?_of_mem_publicBindings {bs : List Binding} {b : Binding} (h : b ∈ publicBindings listed seen bs) :
    bs.find? (·.name = b.name) = some b := by
  induction bs generalizing seen with
  | nil => simp [publicBindings] at h
  | cons b' bs ih =>
    obtain ⟨front, seen', hsplit, hfront, hne⟩ := @publicBindings_cons listed seen b' bs
    rw [hsplit, List.mem_append] at h
    rcases h with h | h
    · rcases hfront with rfl | rfl
      · cases List.mem_singleton.mp h
        simp
      · cases h
    · rw [List.find?_cons_of_neg (by simpa using (hne _ (List.mem_map_of_mem h)).symm)]
      exact ih h

theorem idxOf_cons_lt {n m n' : String} {ns : List String} (hm : m ≠ n) (hn : n' ≠ n) (h : ns.idxOf m < ns.idxOf n') :
    (n :: ns).idxOf m < (n :: ns).idxOf n' := by
  rw [List.idxOf_cons_ne _ hm.symm, List.idxOf_cons_ne _ hn.symm]
  omega

theorem idxOf_cons_self_lt {n m : String} (ns : List String) (hm : m ≠ n) : (n :: ns).idxOf n < (n :: ns).idxOf m := by
  rw [List.idxOf_cons_self, List.idxOf_cons_ne _ hm.symm]
  omega

theorem publicBindings_ordered (bs : List Binding) :
    ((publicBindings listed seen bs).map (·.name)).Pairwise
      fun m n => (bs.map (·.name)).idxOf m < (bs.map (·.name)).idxOf n := by
  induction bs generalizing seen with
  | nil => simp [publicBindings]
  | cons b bs ih =>
    obtain ⟨front, seen', hsplit, hfront, hne⟩ := @publicBindings_cons listed seen b bs
    have hrest : ((publicBindings listed seen' bs).map (·.name)).Pairwise fun m n =>
        ((b :: bs).map (·.name)).idxOf m < ((b :: bs).map (·.name)).idxOf n :=
      (@ih seen').imp_of_mem fun hm hn hlt => idxOf_cons_lt (hne _ hm) (hne _ hn) hlt
    rw [hsplit]
    rcases hfront with rfl | rfl
    · exact List.pairwise_cons.mpr ⟨fun n hn => idxOf_cons_self_lt _ (hne n hn), hrest⟩
    · exact hrest

theorem unboundNames_ordered (ns : List String) :
    (unboundNames seen ns).Pairwise fun m n => ns.idxOf m < ns.idxOf n := by
  induction ns generalizing seen with
  | nil => simp [unboundNames]
  | cons n ns ih =>
    have hrest : ∀ seen', n ∈ seen' → (unboundNames seen' ns).Pairwise fun m m' =>
        (n :: ns).idxOf m < (n :: ns).idxOf m' := by
      intro seen' hn
      refine (@ih seen').imp_of_mem fun {m m'} hm hm' hlt => ?_
      exact idxOf_cons_lt (fun heq => (mem_unboundNames.mp hm).1 (heq ▸ hn))
        (fun heq => (mem_unboundNames.mp hm').1 (heq ▸ hn)) hlt
    rw [unboundNames]
    split
    case isTrue h => exact hrest seen h
    case isFalse h =>
      refine List.pairwise_cons.mpr ⟨fun m hm => idxOf_cons_self_lt _ ?_, hrest _ List.mem_cons_self⟩
      rintro rfl
      exact (mem_unboundNames.mp hm).1 List.mem_cons_self

end FirstOccurrence

namespace Scan

theorem exports_names_perm (scan : Scan) :
    (scan.exports.map (·.name)).Perm ((publicBindings scan.listed [] scan.bound).map (·.name) ++
      unboundNames ((publicBindings scan.listed [] scan.bound).map (·.name)) scan.listed) := by
  refine ((sortOn_perm _ _).map _).trans (List.Perm.of_eq ?_)
  rw [List.map_append, List.map_map, List.map_map]
  exact congrArg _ (List.map_id _)

theorem exports_names_nodup (scan : Scan) : (scan.exports.map (·.name)).Nodup := by
  refine scan.exports_names_perm.nodup_iff.mpr (List.nodup_append.mpr ⟨publicBindings_nodup _ _ _,
    unboundNames_nodup _ _, ?_⟩)
  rintro a ha b hb rfl
  exact (mem_unboundNames.mp hb).1 ha

theorem mem_exports_names (scan : Scan) (name : String) :
    name ∈ scan.exports.map (·.name) ↔ (name ∈ scan.bound.map (·.name) ∧ IsPublic name) ∨ name ∈ scan.listed := by
  rw [scan.exports_names_perm.mem_iff, List.mem_append, mem_unboundNames, mem_publicBindings]
  by_cases hlisted : name ∈ scan.listed
  · by_cases hbound : name ∈ scan.bound.map (·.name)
    · simp [hlisted, hbound]
    · simp [hlisted, hbound]
  · simp [hlisted]

end Scan

end ModuleGraph.Indent
