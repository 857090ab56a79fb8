import ModuleGraph.Order.StableSort
import Mathlib.Data.List.Sort

namespace ModuleGraph

variable {α : Type} {precedes : α → α → Bool}

/-- A strict comparison in which being inseparable is transitive. -/
structure IsPrecedence (precedes : α → α → Bool) : Prop where
  asymm : ∀ a b, precedes a b = true → precedes b a = false
  trans : ∀ a b c, precedes a b = false → precedes b c = false → precedes a c = false

theorem insertBackward_perm (x : α) (ys : List α) : (insertBackward precedes x ys).Perm (x :: ys) := by
  induction ys with
  | nil => exact List.Perm.refl _
  | cons y ys ih =>
    rw [insertBackward]
    split
    · exact (ih.cons y).trans (List.Perm.swap x y ys)
    · exact List.Perm.refl _

theorem foldl_insertBackward_perm (xs sorted : List α) :
    (xs.foldl (fun sorted x => insertBackward precedes x sorted) sorted).Perm (xs ++ sorted) := by
  induction xs generalizing sorted with
  | nil => exact List.Perm.refl _
  | cons x xs ih =>
    refine (ih _).trans ?_
    exact ((insertBackward_perm x sorted).append_left xs).trans List.perm_middle

theorem stableSort_perm (precedes : α → α → Bool) (xs : List α) : (stableSort precedes xs).Perm xs := by
  have h : (xs.foldl (fun sorted x => insertBackward precedes x sorted) []).Perm (xs ++ []) :=
    foldl_insertBackward_perm xs []
  rw [List.append_nil] at h
  exact (List.reverse_perm _).trans h

theorem sortOn_perm (key : α → Nat) (xs : List α) : (sortOn key xs).Perm xs :=
  stableSort_perm _ xs

/-- Among some elements, a comparison decides between the two directions of a transitive relation. -/
structure SortsBy (precedes : α → α → Bool) (related : α → α → Prop) (among : α → Prop) : Prop where
  of_precedes : ∀ a b, among a → among b → precedes a b = true → related a b
  of_not_precedes : ∀ a b, among a → among b → precedes a b = false → related b a
  trans : ∀ a b c, among a → among b → among c → related a b → related b c → related a c

namespace SortsBy

variable {related : α → α → Prop} {among : α → Prop} (hs : SortsBy precedes related among)
include hs

theorem insertBackward_pairwise {x : α} (hx : among x) {ys : List α} (hys : ∀ y ∈ ys, among y)
    (h : ys.Pairwise fun a b => related b a) :
    (insertBackward precedes x ys).Pairwise fun a b => related b a := by
  induction ys with
  | nil => exact List.pairwise_singleton _ _
  | cons y ys ih =>
    obtain ⟨hyx, hrest⟩ := List.pairwise_cons.mp h
    obtain ⟨hy, hys⟩ := List.forall_mem_cons.mp hys
    rw [insertBackward]
    split
    case isTrue hxy =>
      refine List.pairwise_cons.mpr ⟨?_, ih hys hrest⟩
      intro z hz
      rcases List.mem_cons.mp ((insertBackward_perm x ys).subset hz) with hzx | hz
      · exact hzx ▸ hs.of_precedes x y hx hy hxy
      · exact hyx z hz
    case isFalse hxy =>
      have hxy := hs.of_not_precedes x y hx hy (Bool.eq_false_iff.mpr hxy)
      refine List.pairwise_cons.mpr ⟨?_, h⟩
      intro z hz
      rcases List.mem_cons.mp hz with hzy | hz
      · exact hzy ▸ hxy
      · exact hs.trans z y x (hys z hz) hy hx (hyx z hz) hxy

theorem foldl_insertBackward_pairwise {xs : List α} (hxs : ∀ x ∈ xs, among x) {sorted : List α}
    (hsorted : ∀ y ∈ sorted, among y) (h : sorted.Pairwise fun a b => related b a) :
    (xs.foldl (fun sorted x => insertBackward precedes x sorted) sorted).Pairwise fun a b => related b a := by
  induction xs generalizing sorted with
  | nil => exact h
  | cons x xs ih =>
    obtain ⟨hx, hxs⟩ := List.forall_mem_cons.mp hxs
    refine ih hxs ?_ (hs.insertBackward_pairwise hx hsorted h)
    intro y hy
    rcases List.mem_cons.mp ((insertBackward_perm x sorted).subset hy) with hyx | hy
    · exact hyx ▸ hx
    · exact hsorted y hy

theorem stableSort_pairwise {xs : List α} (hxs : ∀ x ∈ xs, among x) : (stableSort precedes xs).Pairwise related :=
  List.pairwise_reverse.mpr (hs.foldl_insertBackward_pairwise hxs (by simp) List.Pairwise.nil)

end SortsBy

namespace IsPrecedence

variable (hp : IsPrecedence precedes)
include hp

theorem sortsBy : SortsBy precedes (fun a b => precedes b a = false) fun _ => True where
  of_precedes a b _ _ hab := hp.asymm a b hab
  of_not_precedes _ _ _ _ hab := hab
  trans a b c _ _ _ hab hbc := hp.trans c b a hbc hab

theorem stableSort_pairwise (xs : List α) :
    (stableSort precedes xs).Pairwise fun a b => precedes b a = false :=
  hp.sortsBy.stableSort_pairwise fun _ _ => trivial

theorem stableSort_eq_of_perm {xs ys : List α} (h : xs.Perm ys)
    (hsep : ∀ a ∈ xs, ∀ b ∈ xs, precedes a b = false → precedes b a = false → a = b) :
    stableSort precedes xs = stableSort precedes ys := by
  have hxs := stableSort_perm precedes xs
  have hys := stableSort_perm precedes ys
  refine List.Perm.eq_of_pairwise ?_ (hp.stableSort_pairwise xs) (hp.stableSort_pairwise ys)
    (hxs.trans (h.trans hys.symm))
  intro a b ha hb hba hab
  exact hsep a (hxs.subset ha) b (h.symm.subset (hys.subset hb)) hab hba

end IsPrecedence

theorem isPrecedence_of_cmp (cmp : α → α → Ordering) [Std.TransCmp cmp] :
    IsPrecedence fun a b => cmp a b == .lt := by
  have hle : ∀ a b, (cmp a b == .lt) = false ↔ (cmp b a).isLE := by
    intro a b
    have hswap : cmp b a = (cmp a b).swap := Std.OrientedCmp.eq_swap
    rw [hswap]
    cases cmp a b <;> simp
  constructor
  · intro a b hab
    have hgt : cmp b a = .gt := Std.OrientedCmp.gt_of_lt (beq_iff_eq.mp hab)
    simp [hgt]
  · intro a b c hab hbc
    exact (hle a c).mpr (Std.TransCmp.isLE_trans ((hle b c).mp hbc) ((hle a b).mp hab))

section Stable

theorem insertBackward_append_right {x : α} {ys zs : List α} (h : ∀ y ∈ ys, precedes x y = true) :
    insertBackward precedes x (ys ++ zs) = ys ++ insertBackward precedes x zs := by
  induction ys with
  | nil => rfl
  | cons y ys ih =>
    obtain ⟨hy, hys⟩ := List.forall_mem_cons.mp h
    rw [List.cons_append, insertBackward, if_pos hy, ih hys, List.cons_append]

theorem insertBackward_append_left {x : α} {ys zs : List α} (h : ∀ z ∈ zs, precedes x z = false) :
    insertBackward precedes x (ys ++ zs) = insertBackward precedes x ys ++ zs := by
  induction ys with
  | nil =>
    cases zs with
    | nil => rfl
    | cons z zs => simp [insertBackward, h z List.mem_cons_self]
  | cons y ys ih =>
    rw [List.cons_append, insertBackward, insertBackward, ih]
    split <;> rfl

variable {key : α → Nat}

theorem foldl_insertBackward_split (bound : Nat) (xs : List α) {high low : List α} (hhigh : ∀ y ∈ high, bound < key y)
    (hlow : ∀ y ∈ low, key y ≤ bound) :
    xs.foldl (fun sorted x => insertBackward (key · < key ·) x sorted) (high ++ low) =
      (xs.filter (bound < key ·)).foldl (fun sorted x => insertBackward (key · < key ·) x sorted) high ++
        (xs.filter (key · ≤ bound)).foldl (fun sorted x => insertBackward (key · < key ·) x sorted) low := by
  induction xs generalizing high low with
  | nil => rfl
  | cons x xs ih =>
    rw [List.foldl_cons]
    by_cases hx : key x ≤ bound
    · -- The element passes all of the upper part.
      have hlowx : (x :: xs).filter (key · ≤ bound) = x :: xs.filter (key · ≤ bound) :=
        List.filter_cons_of_pos (by simpa using hx)
      have hhighx : (x :: xs).filter (bound < key ·) = xs.filter (bound < key ·) :=
        List.filter_cons_of_neg (by simpa using hx)
      rw [insertBackward_append_right fun y hy => decide_eq_true (Nat.lt_of_le_of_lt hx (hhigh y hy)), hlowx, hhighx,
        List.foldl_cons]
      refine ih hhigh fun y hy => ?_
      rcases List.mem_cons.mp ((insertBackward_perm x low).subset hy) with rfl | hy
      · exact hx
      · exact hlow y hy
    · -- The element stops in the upper part.
      have hx' : bound < key x := Nat.lt_of_not_le hx
      have hlowx : (x :: xs).filter (key · ≤ bound) = xs.filter (key · ≤ bound) :=
        List.filter_cons_of_neg (by simpa using hx')
      have hhighx : (x :: xs).filter (bound < key ·) = x :: xs.filter (bound < key ·) :=
        List.filter_cons_of_pos (by simpa using hx')
      have hnot : ∀ y ∈ low, decide (key x < key y) = false := fun y hy =>
        decide_eq_false (Nat.not_lt.mpr (Nat.le_of_lt (Nat.lt_of_le_of_lt (hlow y hy) hx')))
      rw [insertBackward_append_left hnot, hlowx, hhighx, List.foldl_cons]
      refine ih (fun y hy => ?_) hlow
      rcases List.mem_cons.mp ((insertBackward_perm x high).subset hy) with rfl | hy
      · exact hx'
      · exact hhigh y hy

theorem sortOn_split (bound : Nat) (xs : List α) :
    sortOn key xs = sortOn key (xs.filter (key · ≤ bound)) ++ sortOn key (xs.filter (bound < key ·)) := by
  have h := @foldl_insertBackward_split _ key bound xs [] [] (by simp) (by simp)
  rw [List.append_nil] at h
  rw [sortOn, sortOn, sortOn, stableSort, stableSort, stableSort, h, List.reverse_append]

theorem foldl_insertBackward_of_pairwise {xs sorted : List α} (hxs : xs.Pairwise (key · ≤ key ·))
    (hsorted : ∀ x ∈ xs, ∀ y ∈ sorted, key y ≤ key x) :
    xs.foldl (fun sorted x => insertBackward (key · < key ·) x sorted) sorted = xs.reverse ++ sorted := by
  induction xs generalizing sorted with
  | nil => rfl
  | cons x xs ih =>
    obtain ⟨hx, hxs⟩ := List.pairwise_cons.mp hxs
    obtain ⟨hsx, hsorted⟩ := List.forall_mem_cons.mp hsorted
    have hinsert : insertBackward (key · < key ·) x sorted = x :: sorted := by
      cases sorted with
      | nil => rfl
      | cons y sorted => simp [insertBackward, Nat.not_lt.mpr (hsx y List.mem_cons_self)]
    have hnext : ∀ z ∈ xs, ∀ y ∈ x :: sorted, key y ≤ key z :=
      fun z hz => List.forall_mem_cons.mpr ⟨hx z hz, hsorted z hz⟩
    rw [List.foldl_cons, hinsert, ih hxs hnext, List.reverse_cons, List.append_assoc, List.singleton_append]

theorem sortOn_of_pairwise {xs : List α} (h : xs.Pairwise (key · ≤ key ·)) : sortOn key xs = xs := by
  rw [sortOn, stableSort, foldl_insertBackward_of_pairwise h (by simp), List.append_nil, List.reverse_reverse]

theorem sortOn_of_forall_eq {k : Nat} {xs : List α} (h : ∀ x ∈ xs, key x = k) : sortOn key xs = xs := by
  apply sortOn_of_pairwise
  apply List.pairwise_of_forall_mem_list
  intro x hx y hy
  rw [h x hx, h y hy]

theorem filter_insertBackward (k : Nat) (x : α) (ys : List α) :
    (insertBackward (key · < key ·) x ys).filter (key · = k) = (x :: ys).filter (key · = k) := by
  induction ys with
  | nil => rfl
  | cons y ys ih =>
    rw [insertBackward]
    split
    case isTrue hlt =>
      have hne : key x ≠ key y := Nat.ne_of_lt (of_decide_eq_true hlt)
      rw [List.filter_cons, ih, List.filter_cons, List.filter_cons, List.filter_cons]
      by_cases hx : key x = k
      · have hy : key y ≠ k := fun hy => hne (hx.trans hy.symm)
        simp [hx, hy]
      · simp [hx]
    case isFalse => rfl

theorem filter_sortOn (k : Nat) (xs : List α) : (sortOn key xs).filter (key · = k) = xs.filter (key · = k) := by
  have hfold : ∀ sorted : List α, (xs.foldl (fun sorted x => insertBackward (key · < key ·) x sorted) sorted).filter
      (key · = k) = (xs.reverse ++ sorted).filter (key · = k) := by
    induction xs with
    | nil => exact fun _ => rfl
    | cons x xs ih =>
      intro sorted
      rw [List.foldl_cons, ih, List.reverse_cons, List.append_assoc, List.filter_append, filter_insertBackward,
        List.filter_append, List.singleton_append]
  rw [sortOn, stableSort, List.filter_reverse, hfold, List.append_nil, ← List.filter_reverse, List.reverse_reverse]

theorem sublist_sortOn {k : Nat} {xs ys : List α} (h : ys.Sublist xs) (hkey : ∀ y ∈ ys, key y = k) :
    ys.Sublist (sortOn key xs) := by
  have hys : ys.filter (key · = k) = ys := List.filter_eq_self.mpr fun y hy => decide_eq_true (hkey y hy)
  have hfilter := h.filter (key · = k)
  rw [hys, ← filter_sortOn] at hfilter
  exact hfilter.trans List.filter_sublist

/-- In the order of the keys, or in a given order where the keys are the same. -/
def KeyThen (key : α → Nat) (earlier : α → α → Prop) (a b : α) : Prop :=
  key a < key b ∨ key a = key b ∧ earlier a b

theorem insertBackward_keyThen {earlier : α → α → Prop} {x : α} {ys : List α}
    (hys : ys.Pairwise fun a b => KeyThen key earlier b a) (hx : ∀ y ∈ ys, earlier y x) :
    (insertBackward (key · < key ·) x ys).Pairwise fun a b => KeyThen key earlier b a := by
  induction ys with
  | nil => exact List.pairwise_singleton _ _
  | cons y ys ih =>
    obtain ⟨hy, hrest⟩ := List.pairwise_cons.mp hys
    obtain ⟨hyx, hxs⟩ := List.forall_mem_cons.mp hx
    rw [insertBackward]
    split
    case isTrue hlt =>
      refine List.pairwise_cons.mpr ⟨fun z hz => ?_, ih hrest hxs⟩
      rcases List.mem_cons.mp ((insertBackward_perm x ys).subset hz) with rfl | hz
      · exact .inl (of_decide_eq_true hlt)
      · exact hy z hz
    case isFalse hlt =>
      refine List.pairwise_cons.mpr ⟨fun z hz => ?_, hys⟩
      have hle : key z ≤ key y := by
        rcases List.mem_cons.mp hz with rfl | hz
        · exact Nat.le_refl _
        · rcases hy z hz with h | ⟨h, -⟩ <;> omega
      rw [decide_eq_true_eq] at hlt
      by_cases heq : key z = key x
      · exact .inr ⟨heq, hx z hz⟩
      · exact .inl (by omega)

theorem foldl_insertBackward_keyThen {earlier : α → α → Prop} {xs sorted : List α} (hxs : xs.Pairwise earlier)
    (hsorted : sorted.Pairwise fun a b => KeyThen key earlier b a) (hlater : ∀ y ∈ sorted, ∀ x ∈ xs, earlier y x) :
    (xs.foldl (fun sorted x => insertBackward (key · < key ·) x sorted) sorted).Pairwise
      fun a b => KeyThen key earlier b a := by
  induction xs generalizing sorted with
  | nil => exact hsorted
  | cons x xs ih =>
    obtain ⟨hx, hxs⟩ := List.pairwise_cons.mp hxs
    refine ih hxs (insertBackward_keyThen hsorted fun y hy => hlater y hy x List.mem_cons_self) fun y hy z hz => ?_
    rcases List.mem_cons.mp ((insertBackward_perm x sorted).subset hy) with rfl | hy
    · exact hx z hz
    · exact hlater y hy z (List.mem_cons_of_mem _ hz)

theorem sortOn_keyThen {earlier : α → α → Prop} {xs : List α} (h : xs.Pairwise earlier) :
    (sortOn key xs).Pairwise (KeyThen key earlier) :=
  List.pairwise_reverse.mpr (foldl_insertBackward_keyThen h List.Pairwise.nil (by simp))

variable {β γ : Type} [DecidableEq γ] {group : β → γ} {items : β → List α}

theorem flatMap_group {groups : List γ} (hgroups : groups.Nodup) {x : β} (hx : items x ≠ [] → group x ∈ groups) :
    (groups.flatMap fun g => if group x = g then items x else []) = items x := by
  induction groups with
  | nil =>
    by_contra hne
    exact absurd (hx (Ne.symm hne)) List.not_mem_nil
  | cons g groups ih =>
    obtain ⟨hg, hgroups⟩ := List.nodup_cons.mp hgroups
    by_cases hxg : group x = g
    · have hrest : (groups.flatMap fun g => if group x = g then items x else []) = [] := by
        rw [List.flatMap_eq_nil_iff]
        intro g' hg'
        rw [if_neg]
        rintro rfl
        exact hg (hxg ▸ hg')
      rw [List.flatMap_cons, if_pos hxg, hrest, List.append_nil]
    · rw [List.flatMap_cons, if_neg hxg, List.nil_append]
      exact ih hgroups fun hne => (List.mem_cons.mp (hx hne)).resolve_left hxg

theorem flatMap_filter_cons (x : β) (xs : List β) (g : γ) :
    ((x :: xs).filter (group · = g)).flatMap items =
      (if group x = g then items x else []) ++ (xs.filter (group · = g)).flatMap items := by
  by_cases hg : group x = g
  · simp [hg]
  · simp [hg]

/-- What was collected group by group is put back into the order that it came in, if that is the order of the
keys. -/
theorem sortOn_flatMap_groups {groups : List γ} (hgroups : groups.Nodup) {xs : List β} {position : β → Nat}
    (hmem : ∀ x ∈ xs, items x ≠ [] → group x ∈ groups) (hkey : ∀ x ∈ xs, ∀ a ∈ items x, key a = position x)
    (hsorted : xs.Pairwise fun x y => position x < position y) :
    sortOn key (groups.flatMap fun g => (xs.filter (group · = g)).flatMap items) = xs.flatMap items := by
  induction xs with
  | nil =>
    have hnil : (groups.flatMap fun g => (([] : List β).filter (group · = g)).flatMap items) = [] := by simp
    rw [hnil]
    rfl
  | cons x xs ih =>
    obtain ⟨hx, hxs⟩ := List.forall_mem_cons.mp hmem
    obtain ⟨hkx, hkxs⟩ := List.forall_mem_cons.mp hkey
    obtain ⟨hlt, hsorted⟩ := List.pairwise_cons.mp hsorted
    have hhigh : ∀ g, ∀ a ∈ (xs.filter (group · = g)).flatMap items, position x < key a := by
      intro g a ha
      obtain ⟨y, hy, ha⟩ := List.mem_flatMap.mp ha
      have hy := (List.mem_filter.mp hy).1
      rw [hkxs y hy a ha]
      exact hlt y hy
    -- The list is cut at the position of the first element: what that gave, in whichever group, comes first.
    have hfirst : (groups.flatMap fun g => ((x :: xs).filter (group · = g)).flatMap items).filter
        (key · ≤ position x) = items x := by
      rw [List.filter_flatMap, ← flatMap_group hgroups hx]
      refine List.flatMap_congr fun g _ => ?_
      have hnone : ((xs.filter (group · = g)).flatMap items).filter (key · ≤ position x) = [] :=
        List.filter_eq_nil_iff.mpr fun a ha => by simpa using hhigh g a ha
      rw [flatMap_filter_cons, List.filter_append, hnone, List.append_nil]
      split
      · exact List.filter_eq_self.mpr fun a ha => by simp [hkx a ha]
      · rfl
    have hrest : (groups.flatMap fun g => ((x :: xs).filter (group · = g)).flatMap items).filter
        (position x < key ·) = groups.flatMap fun g => (xs.filter (group · = g)).flatMap items := by
      rw [List.filter_flatMap]
      refine List.flatMap_congr fun g _ => ?_
      have hnone : (if group x = g then items x else []).filter (position x < key ·) = [] := by
        rw [List.filter_eq_nil_iff]
        intro a ha
        split at ha
        · simp [hkx a ha]
        · cases ha
      rw [flatMap_filter_cons, List.filter_append, hnone, List.nil_append]
      exact List.filter_eq_self.mpr fun a ha => decide_eq_true (hhigh g a ha)
    rw [sortOn_split (position x), hfirst, hrest, sortOn_of_forall_eq hkx, ih hxs hkxs hsorted, List.flatMap_cons]

end Stable

end ModuleGraph
