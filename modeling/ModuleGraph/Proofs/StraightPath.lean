import ModuleGraph.Proofs.TreePath

namespace ModuleGraph

open Text (pieces)

namespace Path

def IsName (piece : List UInt8) : Prop :=
  piece ≠ [] ∧ piece ≠ [dot] ∧ piece ≠ [dot, dot]

instance (piece : List UInt8) : Decidable (IsName piece) :=
  inferInstanceAs (Decidable (_ ∧ _ ∧ _))

def Straight (p : Path) : Prop :=
  (pieces (· == slash) p.raw.toList).Pairwise fun a b => IsName a → IsName b

def Direct (p : Path) : Prop :=
  (pieces (· == slash) p.raw.toList).Pairwise fun a b => IsName a → b ≠ [dot, dot]

def EndsUp (p : Path) : Prop :=
  ∃ before, pieces (· == slash) p.raw.toList = before ++ [[dot, dot]]

theorem IsName.ofPiece?_eq {piece : List UInt8} (h : IsName piece) :
    Component.ofPiece? piece = some (.name ⟨piece⟩) := by
  rw [Component.ofPiece?, if_neg (not_or.mpr ⟨h.1, h.2.1⟩), if_neg h.2.2]

theorem ofPiece?_eq_some {piece : List UInt8} {c : Component} (h : Component.ofPiece? piece = some c) :
    c = .up ∨ IsName piece ∧ c = .name ⟨piece⟩ := by
  unfold Component.ofPiece? at h
  split at h
  · cases h
  · rename_i hdot
    rw [not_or] at hdot
    split at h
    · exact .inl (Option.some.inj h).symm
    · rename_i hup
      exact .inr ⟨⟨hdot.1, hdot.2, hup⟩, (Option.some.inj h).symm⟩

theorem IsName.append {piece : List UInt8} (h : IsName piece) (s : List UInt8) : IsName (piece ++ s) := by
  obtain ⟨hnil, hdot, hup⟩ := h
  refine ⟨fun heq => hnil (List.append_eq_nil_iff.mp heq).1, fun heq => ?_, fun heq => ?_⟩
  · rcases List.append_eq_singleton_iff.mp heq with ⟨hw, -⟩ | ⟨hw, -⟩
    · exact hnil hw
    · exact hdot hw
  · match piece, heq with
    | [], _ => exact hnil rfl
    | [a], heq => exact hdot (by simp_all)
    | [a, b], heq => exact hup (by simp_all)

theorem straight_iff {p : Path} {before : List (List UInt8)} {last : List UInt8}
    (h : pieces (· == slash) p.raw.toList = before ++ [last]) :
    p.Straight ↔ (before.Pairwise fun a b => IsName a → IsName b) ∧ ∀ a ∈ before, IsName a → IsName last := by
  rw [Straight, h, List.pairwise_append]
  simp

theorem straight_of_no_names {p : Path} (h : ∀ w ∈ pieces (· == slash) p.raw.toList, ¬IsName w) : p.Straight :=
  List.pairwise_of_forall_mem_list fun a ha _ _ hname => absurd hname (h a ha)

theorem Straight.direct {p : Path} (h : p.Straight) : p.Direct :=
  List.Pairwise.imp (fun hab ha => (hab ha).2.2) h

theorem Straight.append {p : Path} (h : p.Straight) {s : RawText}
    (hs : ∀ w ∈ (pieces (· == slash) s.toList).tail, w ≠ [dot, dot]) : Direct ⟨p.raw ++ s⟩ := by
  obtain ⟨-, before, last, -, hpieces, -⟩ := Text.exists_last_piece (· == slash) p.raw.toList
  obtain ⟨first, rest, hrest⟩ := Text.exists_pieces (· == slash) s.toList
  obtain ⟨hbefore, hlast⟩ := (straight_iff hpieces).mp h
  rw [hrest, List.tail_cons] at hs
  rw [Direct, RawText.toList_append, Text.pieces_append, hpieces, hrest, Text.joinEnds_concat, List.pairwise_append,
    List.pairwise_cons]
  refine ⟨hbefore.imp fun hab ha => (hab ha).2.2, ⟨fun w hw _ => hs w hw, ?_⟩, fun a ha w hw hname => ?_⟩
  · exact List.pairwise_of_forall_mem_list fun _ _ w hw _ => hs w hw
  · rcases List.mem_cons.mp hw with rfl | hw
    · exact ((hlast a ha hname).append first).2.2
    · exact hs w hw

theorem Straight.withSuffix {p : Path} (h : p.Straight) {extension : String}
    (he : ∀ w ∈ (pieces (· == slash) (RawText.ofString extension).toList).tail, w ≠ [dot, dot]) :
    (p.withSuffix extension).Direct := by
  rw [Path.withSuffix, RawText.append_assoc]
  refine h.append ?_
  obtain ⟨first, rest, hrest⟩ := Text.exists_pieces (· == slash) (RawText.ofString extension).toList
  have hdot : (RawText.ofString "." ++ RawText.ofString extension).toList = dot :: (RawText.ofString extension).toList := rfl
  rw [hrest] at he
  rwa [hdot, Text.pieces_cons (by decide) hrest]

theorem withSuffix_join {n : RawText} (hname : n.toList ≠ []) (p : Path) (extension : String) :
    (p.join ⟨n⟩).withSuffix extension = p.join ⟨n ++ "." ++ extension⟩ := by
  rw [RawText.append_assoc, join_append hname, withSuffix, RawText.append_assoc]

theorem Straight.join {p : Path} (h : p.Straight) (hp : p.raw.toList ≠ []) {n : RawText} (hn : slash ∉ n.toList)
    (hname : IsName n.toList) : (p.join ⟨n⟩).Straight := by
  obtain ⟨before, last, hpieces, -, -, hjoin⟩ := pieces_join_name hn hp
  rw [Straight, hpieces] at h
  exact (straight_iff hjoin).mpr ⟨(List.pairwise_append.mp h).1, fun _ _ _ => hname⟩

section Clean

/-- Cleaned components, last first: names, and below them a root or some steps up. -/
inductive CleanStack : List Component → Prop
  | nil : CleanStack []
  | root : CleanStack [.root]
  | up (k : Nat) : CleanStack (List.replicate (k + 1) .up)
  | name {n : RawText} {cs : List Component} : IsEntryName n → CleanStack cs → CleanStack (.name n :: cs)

theorem IsName.isEntryName {w : List UInt8} (h : IsName w) (hw : slash ∉ w) : IsEntryName ⟨w⟩ :=
  ⟨h.1, h.2.1, h.2.2, hw⟩

theorem cleanStep_name (cs : List Component) (n : RawText) : cleanStep cs (.name n) = .name n :: cs := by
  cases cs with
  | nil => rfl
  | cons c cs => cases c <;> rfl

theorem CleanStack.cleanStep {cs : List Component} (h : CleanStack cs) {w : List UInt8} (hw : slash ∉ w) {c : Component}
    (hc : Component.ofPiece? w = some c) : CleanStack (cleanStep cs c) := by
  rcases ofPiece?_eq_some hc with rfl | ⟨hname, rfl⟩
  · cases h with
    | nil => exact .up 0
    | root => exact .root
    | up k => exact .up (k + 1)
    | name _ h => exact h
  · rw [cleanStep_name]
    exact .name (hname.isEntryName hw) h

theorem CleanStack.foldl_cleanStep {cs : List Component} (h : CleanStack cs) {ws : List (List UInt8)}
    (hws : ∀ w ∈ ws, slash ∉ w) : CleanStack ((ws.filterMap Component.ofPiece?).foldl Path.cleanStep cs) := by
  induction ws generalizing cs with
  | nil => exact h
  | cons w ws ih =>
    obtain ⟨hw, hws⟩ := List.forall_mem_cons.mp hws
    cases hc : Component.ofPiece? w with
    | none =>
      rw [List.filterMap_cons_none hc]
      exact ih h hws
    | some c =>
      rw [List.filterMap_cons_some hc, List.foldl_cons]
      exact ih (h.cleanStep hw hc) hws

theorem cleanStack_components (p : Path) : CleanStack (p.components.foldl cleanStep []) := by
  have hpieces : ∀ w ∈ pieces (· == slash) p.raw.toList, slash ∉ w := by
    intro w hw hmem
    exact absurd (Text.mem_pieces hw slash hmem).2 (by decide)
  rw [components, List.foldl_append]
  refine CleanStack.foldl_cleanStep ?_ hpieces
  split
  · exact .root
  · split
    · exact .nil
    · exact .nil

theorem ofComponents_concat (cs : List Component) (c : Component) :
    ofComponents (cs ++ [c]) = (ofComponents cs).join ⟨c.raw⟩ := by
  rw [ofComponents, List.foldl_append]
  rfl

theorem ofComponents_singleton (c : Component) : ofComponents [c] = ⟨c.raw⟩ := by
  change join ⟨""⟩ ⟨c.raw⟩ = ⟨c.raw⟩
  unfold join
  split
  · rfl
  · rw [if_pos (.inl rfl)]
    rfl

theorem ofComponents_ups (k : Nat) : (ofComponents (List.replicate (k + 1) .up)).raw.toList ≠ [] ∧
    ∀ w ∈ pieces (· == slash) (ofComponents (List.replicate (k + 1) .up)).raw.toList, ¬IsName w := by
  have hsep : slash ∉ Component.up.raw.toList := by decide
  have hup : ¬IsName Component.up.raw.toList := fun h => h.2.2 rfl
  induction k with
  | zero =>
    rw [List.replicate_one, ofComponents_singleton, pieces_of_not_mem hsep]
    exact ⟨by decide, by simpa using hup⟩
  | succ k ih =>
    rw [List.replicate_succ', ofComponents_concat]
    obtain ⟨before, last, hpieces, -, -, hjoin⟩ := pieces_join_name hsep ih.1
    refine ⟨join_ne_nil ih.1 (not_isAbsolute hsep), ?_⟩
    rw [hjoin, List.forall_mem_append]
    rw [hpieces] at ih
    exact ⟨fun w hw => ih.2 w (List.mem_append_left _ hw), by simpa using hup⟩

theorem CleanStack.straight {cs : List Component} (h : CleanStack cs) (hne : cs ≠ []) :
    (ofComponents cs.reverse).raw.toList ≠ [] ∧ (ofComponents cs.reverse).Straight := by
  induction h with
  | nil => exact absurd rfl hne
  | root =>
    rw [List.reverse_singleton, ofComponents_singleton]
    exact ⟨by decide, straight_of_no_names (by decide)⟩
  | up k =>
    rw [List.reverse_replicate]
    obtain ⟨hnonempty, hups⟩ := ofComponents_ups k
    exact ⟨hnonempty, straight_of_no_names hups⟩
  | @name n cs hn h ih =>
    have hname : IsName n.toList := ⟨hn.1, hn.2.1, hn.2.2.1⟩
    by_cases hcs : cs = []
    · rw [hcs, List.reverse_singleton, ofComponents_singleton, Straight, Component.raw, pieces_of_not_mem hn.2.2.2]
      exact ⟨hn.1, List.pairwise_singleton _ _⟩
    · rw [List.reverse_cons, ofComponents_concat]
      obtain ⟨hnonempty, hstraight⟩ := ih hcs
      exact ⟨join_ne_nil hnonempty (not_isAbsolute hn.2.2.2), hstraight.join hnonempty hn.2.2.2 hname⟩

theorem straight_clean (p : Path) : p.clean.raw.toList ≠ [] ∧ p.clean.Straight := by
  have hstack := cleanStack_components p
  unfold clean cleanComponents
  split
  · exact ⟨by decide, straight_of_no_names (by decide)⟩
  · rename_i hne
    exact hstack.straight fun hnil => hne (by rw [hnil]; rfl)

end Clean

section Extension

theorem splitName_eq_some {n old : RawText} (h : (splitName n).2 = some old) :
    ∃ stem, stem ≠ [] ∧ n.toList = stem ++ dot :: old.toList := by
  unfold splitName at h
  dsimp only at h
  split at h
  · rename_i d b stem hdrop
    have hparts := List.takeWhile_append_dropWhile (p := (· != dot)) (l := n.toList.reverse)
    have hdot : d = dot := by
      have hhead := List.head?_dropWhile_not (· != dot) n.toList.reverse
      simpa [hdrop] using hhead
    rw [hdrop, hdot] at hparts
    cases h
    refine ⟨(b :: stem).reverse, by simp, ?_⟩
    simpa using (congrArg List.reverse hparts).symm
  · cases h

theorem extension?_eq_some {p : Path} {old : String} (h : p.extension? = some old) :
    ∃ n stem, p.fileName? = some n ∧ stem ≠ [] ∧ n.toList = stem ++ dot :: (RawText.ofString old).toList := by
  obtain ⟨n, hn, hsplit⟩ := Option.bind_eq_some_iff.mp h
  obtain ⟨ending, hending, htext⟩ := Option.bind_eq_some_iff.mp hsplit
  rw [RawText.text?_eq_some_iff.mp htext] at hending
  obtain ⟨stem, hstem, hname⟩ := splitName_eq_some hending
  exact ⟨n, stem, hn, hstem, hname⟩

theorem fileName?_eq_some_iff {p : Path} {n : RawText} : p.fileName? = some n ↔ p.components.getLast? = some (.name n) := by
  unfold fileName?
  split
  · rename_i m hm
    simp [hm]
  · rename_i hm
    simpa using hm n

theorem getLast?_components {p : Path} {before : List (List UInt8)} {last : List UInt8} {c : Component}
    (hpieces : pieces (· == slash) p.raw.toList = before ++ [last]) (hc : Component.ofPiece? last = some c) :
    p.components.getLast? = some c := by
  rw [components, hpieces, List.filterMap_append]
  simp [hc]

theorem Straight.last_eq_fileName {p : Path} (h : p.Straight) {before : List (List UInt8)} {last : List UInt8}
    (hpieces : pieces (· == slash) p.raw.toList = before ++ [last]) {n : RawText} (hn : p.fileName? = some n) :
    last = n.toList := by
  rw [fileName?_eq_some_iff] at hn
  by_cases hlast : IsName last
  · rw [getLast?_components hpieces hlast.ofPiece?_eq] at hn
    cases hn
    rfl
  · -- A straight path that does not end in a name has none.
    exfalso
    have hmem : Component.name n ∈ p.components := List.mem_of_getLast? hn
    rw [components, List.mem_append, List.mem_filterMap] at hmem
    rcases hmem with hstart | ⟨w, hw, hc⟩
    · split at hstart
      · simp at hstart
      · split at hstart <;> simp at hstart
    · rcases ofPiece?_eq_some hc with hup | ⟨hname, -⟩
      · cases hup
      · rw [hpieces, List.mem_append, List.mem_singleton] at hw
        rcases hw with hw | rfl
        · exact hlast (((straight_iff hpieces).mp h).2 w hw hname)
        · exact hlast hname

theorem Straight.swapExtension {p : Path} (h : p.Straight) {old new : String} (hold : p.extension? = some old)
    (hnew : ∀ w ∈ (pieces (· == slash) (RawText.ofString new).toList).tail, w ≠ [dot, dot]) :
    (p.swapExtension old new).Direct ∨ (p.swapExtension old new).EndsUp := by
  obtain ⟨n, stem, hn, hstem, hname⟩ := extension?_eq_some hold
  obtain ⟨start, before, last, htext, hpieces, hany⟩ := Text.exists_last_piece (· == slash) p.raw.toList
  have hlast : last = stem ++ dot :: (RawText.ofString old).toList := (h.last_eq_fileName hpieces hn).trans hname
  have hcut : p.raw.toList.take (p.raw.toList.length - (RawText.ofString old).toList.length) = start ++ (stem ++ [dot]) := by
    have hparts : p.raw.toList = start ++ (stem ++ [dot]) ++ (RawText.ofString old).toList := by simp [htext, hlast]
    have hlength : p.raw.toList.length - (RawText.ofString old).toList.length = (start ++ (stem ++ [dot])).length := by
      rw [hparts, List.length_append, Nat.add_sub_cancel]
    rw [hlength, hparts, List.take_left]
  have hsep : ∀ c ∈ stem ++ [dot], (c == slash) = false := by
    intro c hc
    refine (Text.mem_pieces (hpieces ▸ List.mem_concat_self) c ?_).2
    rw [hlast, List.append_cons]
    exact List.mem_append_left _ hc
  obtain ⟨short, htake, hswap⟩ : ∃ short : Path, short.raw.toList = 
      p.raw.toList.take (p.raw.toList.length - (RawText.ofString old).toList.length) ∧
      p.swapExtension old new = if short.fileName?.isSome then ⟨short.raw ++ new⟩ else short :=
    ⟨_, rfl, rfl⟩
  have hshort : pieces (· == slash) short.raw.toList = before ++ [stem ++ [dot]] := by
    rw [htake, hcut, hany _ hsep]
  rw [hswap]
  by_cases hdots : IsName (stem ++ [dot])
  · have hstraight : short.Straight := (straight_iff hshort).mpr ⟨((straight_iff hpieces).mp h).1, fun _ _ _ => hdots⟩
    left
    split
    · exact hstraight.append hnew
    · exact hstraight.direct
  · have hup : stem ++ [dot] = [dot, dot] := by
      by_contra hup
      exact hdots ⟨by simp, by simpa using hstem, hup⟩
    rw [hup] at hshort
    have hnone : short.fileName? = none := by
      rw [fileName?, getLast?_components hshort rfl]
    right
    rw [hnone]
    exact ⟨before, hshort⟩

end Extension

end Path

end ModuleGraph
