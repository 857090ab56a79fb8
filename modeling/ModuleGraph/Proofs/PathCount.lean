import ModuleGraph.Proofs.BreadthFirst
import ModuleGraph.Proofs.Walks
import Mathlib.Data.List.Perm.Subperm
import Mathlib.Data.Nat.Cast.Order.Basic

namespace ModuleGraph.Betweenness

namespace Search

variable {t : Topology ℚ} {source v w x y d e : Nat} {ws ws' : List Nat} {s s₁ s₂ : Search ℚ}

instance (s : Search ℚ) (x d : Nat) : Decidable (s.MetAt x d) :=
  inferInstanceAs (Decidable (_ = _))

theorem MetAt.unique (h : s.MetAt x d) (h' : s.MetAt x e) : d = e :=
  Option.some.inj (h.symm.trans h')

theorem MetAt.ne_none (h : s.MetAt x d) : s.distance.getD x none ≠ none := by
  intro hnone
  rw [MetAt, hnone] at h
  cases h

theorem exists_metAt (h : s.distance.getD x none ≠ none) : ∃ d, s.MetAt x d :=
  Option.ne_none_iff_exists'.mp h

section Follow

/-- What following edges from a node at distance `d` to some nodes does. -/
structure Followed (v d : Nat) (ws : List Nat) (s s₁ : Search ℚ) : Prop where
  taken_eq : s₁.taken = s.taken
  distance_size : s₁.distance.size = s.distance.size
  paths_size : s₁.paths.size = s.paths.size
  parents_size : s₁.parents.size = s.parents.size
  metAt_iff : ∀ x e, s₁.MetAt x e ↔ s.MetAt x e ∨ s.distance.getD x none = none ∧ x ∈ ws ∧ e = d + 1
  queue_eq : ∃ fresh, s₁.queue = s.queue ++ fresh ∧ fresh.Nodup ∧
    ∀ x, x ∈ fresh ↔ s.distance.getD x none = none ∧ x ∈ ws
  paths_eq : ∀ x, s₁.paths.getD x 0 =
    s.paths.getD x 0 + if s₁.MetAt x (d + 1) then ws.count x * s.paths.getD v 0 else 0
  parents_eq : ∀ x, s₁.parents.getD x [] =
    (if s₁.MetAt x (d + 1) then List.replicate (ws.count x) v else []) ++ s.parents.getD x []

theorem followed_nil (v d : Nat) (s : Search ℚ) : Followed v d [] s s where
  taken_eq := rfl
  distance_size := rfl
  paths_size := rfl
  parents_size := rfl
  metAt_iff x e := by simp
  queue_eq := ⟨[], by simp⟩
  paths_eq x := by simp
  parents_eq x := by simp

theorem link_of_near (h : s.MetAt w (d + 1)) : s.link v d w =
    { s with paths := s.paths.modify w (· + s.paths.getD v Scalar.zero), parents := s.parents.modify w (v :: ·) } :=
  if_pos h

theorem link_of_far (h : ¬ s.MetAt w (d + 1)) : s.link v d w = s :=
  if_neg h

theorem metAt_link : (s.link v d w).MetAt x e ↔ s.MetAt x e := by
  rw [MetAt, MetAt, link, apply_ite Search.distance, ite_self]

theorem paths_meet : (s.meet d w).paths = s.paths := by
  unfold meet
  rw [apply_ite Search.paths, ite_self]

theorem paths_link (hw : w < s.paths.size) (x : Nat) : (s.link v d w).paths.getD x 0 =
    s.paths.getD x 0 + if s.MetAt x (d + 1) then [w].count x * s.paths.getD v 0 else 0 := by
  by_cases hx : w = x
  · subst hx
    rw [List.count_singleton_self, Nat.cast_one, one_mul]
    by_cases hnear : s.MetAt w (d + 1)
    · rw [if_pos hnear, link_of_near hnear]
      exact getD_modify_self hw _ _
    · rw [if_neg hnear, link_of_far hnear, add_zero]
  · have hcount : [w].count x = 0 := List.count_eq_zero.mpr (by simpa using Ne.symm hx)
    rw [hcount, Nat.cast_zero, zero_mul, ite_self, add_zero]
    by_cases hnear : s.MetAt w (d + 1)
    · rw [link_of_near hnear]
      exact getD_modify_of_ne hx _ _ _
    · rw [link_of_far hnear]

theorem parents_link (hw : w < s.parents.size) (x : Nat) : (s.link v d w).parents.getD x [] =
    (if s.MetAt x (d + 1) then List.replicate ([w].count x) v else []) ++ s.parents.getD x [] := by
  by_cases hx : w = x
  · subst hx
    rw [List.count_singleton_self]
    by_cases hnear : s.MetAt w (d + 1)
    · rw [if_pos hnear, link_of_near hnear]
      exact getD_modify_self hw _ _
    · rw [if_neg hnear, link_of_far hnear, List.nil_append]
  · have hcount : [w].count x = 0 := List.count_eq_zero.mpr (by simpa using Ne.symm hx)
    rw [hcount, List.replicate_zero, ite_self, List.nil_append]
    by_cases hnear : s.MetAt w (d + 1)
    · rw [link_of_near hnear]
      exact getD_modify_of_ne hx _ _ _
    · rw [link_of_far hnear]

theorem queue_meet : ∃ fresh, (s.meet d w).queue = s.queue ++ fresh ∧ fresh.Nodup ∧
    ∀ x, x ∈ fresh ↔ s.distance.getD x none = none ∧ x ∈ [w] := by
  by_cases hnew : s.distance.getD w none = none
  · refine ⟨[w], ?_, List.nodup_singleton w, fun x => ?_⟩
    · rw [meet_of_new hnew]
    · rw [List.mem_singleton]
      exact ⟨fun hx => ⟨hx ▸ hnew, hx⟩, fun hx => hx.2⟩
  · refine ⟨[], ?_, List.nodup_nil, fun x => ?_⟩
    · rw [meet_of_met hnew, List.append_nil]
    · rw [List.mem_singleton]
      exact ⟨fun hx => absurd hx List.not_mem_nil, fun hx => absurd (hx.2 ▸ hx.1) hnew⟩

theorem followed_follow (hw : w < s.distance.size) (hpaths : w < s.paths.size) (hparents : w < s.parents.size) :
    Followed v d [w] s (follow v d s w) := by
  rw [follow_eq]
  refine
    { taken_eq := ?_
      distance_size := ?_
      paths_size := ?_
      parents_size := ?_
      metAt_iff := ?_
      queue_eq := ?_
      paths_eq := ?_
      parents_eq := ?_ }
  · rw [link, apply_ite Search.taken, ite_self, taken_meet]
  · rw [link, apply_ite Search.distance, ite_self, size_meet]
  · rw [link, apply_ite fun s : Search ℚ => s.paths.size, Array.size_modify, ite_self, paths_meet]
  · rw [link, apply_ite fun s : Search ℚ => s.parents.size, Array.size_modify, ite_self, parents_meet]
  · intro x e
    rw [metAt_link, metAt_meet hw, List.mem_singleton]
    constructor
    · rintro (hx | ⟨hnone, rfl, he⟩)
      · exact .inl hx
      · exact .inr ⟨hnone, rfl, he⟩
    · rintro (hx | ⟨hnone, rfl, he⟩)
      · exact .inl hx
      · exact .inr ⟨hnone, rfl, he⟩
  · rw [link, apply_ite Search.queue, ite_self]
    exact queue_meet
  · intro x
    simp only [metAt_link]
    rw [paths_link (by rw [paths_meet]; exact hpaths), paths_meet]
  · intro x
    simp only [metAt_link]
    rw [parents_link (by rw [parents_meet]; exact hparents), parents_meet]

namespace Followed

theorem metAt (h : Followed v d ws s s₁) (hx : s.MetAt x e) : s₁.MetAt x e :=
  (h.metAt_iff x e).mpr (.inl hx)

theorem unmet_iff (h : Followed v d ws s s₁) :
    s₁.distance.getD x none = none ↔ s.distance.getD x none = none ∧ x ∉ ws := by
  constructor
  · intro hnone
    have hold : s.distance.getD x none = none := by
      by_contra hmet
      obtain ⟨e, he⟩ := exists_metAt hmet
      exact (h.metAt he).ne_none hnone
    exact ⟨hold, fun hx => ((h.metAt_iff x (d + 1)).mpr (.inr ⟨hold, hx, rfl⟩)).ne_none hnone⟩
  · rintro ⟨hnone, hx⟩
    by_contra hmet
    obtain ⟨e, he⟩ := exists_metAt hmet
    rcases (h.metAt_iff x e).mp he with he | he
    · exact he.ne_none hnone
    · exact hx he.2.1

theorem near_of_mem (h : Followed v d ws s s₁) (h' : Followed v d ws' s₁ s₂) (hx : x ∈ ws) :
    s₂.MetAt x (d + 1) ↔ s₁.MetAt x (d + 1) := by
  rw [h'.metAt_iff, or_iff_left]
  rintro ⟨hnone, _⟩
  exact (h.unmet_iff.mp hnone).2 hx

theorem trans (hv : s.MetAt v d) (h : Followed v d ws s s₁) (h' : Followed v d ws' s₁ s₂) :
    Followed v d (ws ++ ws') s s₂ := by
  have hnear : ∀ x, s₁.MetAt x (d + 1) → s₂.MetAt x (d + 1) := fun x hx => h'.metAt hx
  have hlate : ∀ x, ¬ s₁.MetAt x (d + 1) → s₂.MetAt x (d + 1) → ws.count x = 0 := by
    intro x hx₁ hx₂
    rw [List.count_eq_zero]
    exact fun hx => hx₁ ((near_of_mem h h' hx).mp hx₂)
  have hfar : ¬ s₁.MetAt v (d + 1) := fun hnear => by
    have := (h.metAt hv).unique hnear
    omega
  refine
    { taken_eq := h'.taken_eq.trans h.taken_eq
      distance_size := h'.distance_size.trans h.distance_size
      paths_size := h'.paths_size.trans h.paths_size
      parents_size := h'.parents_size.trans h.parents_size
      metAt_iff := ?_
      queue_eq := ?_
      paths_eq := ?_
      parents_eq := ?_ }
  · intro x e
    rw [h'.metAt_iff, h.metAt_iff, h.unmet_iff, List.mem_append]
    by_cases hx : x ∈ ws <;> simp [hx]
  · obtain ⟨fresh, hqueue, hnodup, hfresh⟩ := h.queue_eq
    obtain ⟨fresh', hqueue', hnodup', hfresh'⟩ := h'.queue_eq
    refine ⟨fresh ++ fresh', ?_, ?_, ?_⟩
    · rw [hqueue', hqueue, List.append_assoc]
    · refine List.nodup_append.mpr ⟨hnodup, hnodup', ?_⟩
      rintro x hx _ hx' rfl
      exact (h.unmet_iff.mp ((hfresh' x).mp hx').1).2 ((hfresh x).mp hx).2
    · intro x
      rw [List.mem_append, hfresh, hfresh', h.unmet_iff, List.mem_append]
      by_cases hx : x ∈ ws <;> simp [hx]
  · intro x
    rw [h'.paths_eq, h.paths_eq, h.paths_eq v, if_neg hfar, add_zero, List.count_append, Nat.cast_add, add_mul]
    by_cases hx₁ : s₁.MetAt x (d + 1)
    · rw [if_pos hx₁, if_pos (hnear x hx₁), if_pos (hnear x hx₁), add_assoc]
    · rw [if_neg hx₁, add_zero]
      by_cases hx₂ : s₂.MetAt x (d + 1)
      · rw [if_pos hx₂, if_pos hx₂, hlate x hx₁ hx₂, Nat.cast_zero, zero_mul, zero_add]
      · rw [if_neg hx₂, if_neg hx₂]
  · intro x
    rw [h'.parents_eq, h.parents_eq, List.count_append]
    by_cases hx₁ : s₁.MetAt x (d + 1)
    · rw [if_pos hx₁, if_pos (hnear x hx₁), if_pos (hnear x hx₁), ← List.append_assoc,
        List.replicate_append_replicate, Nat.add_comm]
    · rw [if_neg hx₁, List.nil_append]
      by_cases hx₂ : s₂.MetAt x (d + 1)
      · rw [if_pos hx₂, if_pos hx₂, hlate x hx₁ hx₂, Nat.zero_add]
      · rw [if_neg hx₂, if_neg hx₂]

end Followed

theorem followed_foldl (hv : s.MetAt v d)
    (hws : ∀ w ∈ ws, w < s.distance.size ∧ w < s.paths.size ∧ w < s.parents.size) :
    Followed v d ws s (ws.foldl (follow v d) s) := by
  induction ws generalizing s with
  | nil => exact followed_nil v d s
  | cons w ws ih =>
    obtain ⟨⟨hdistance, hpaths, hparents⟩, hws⟩ := List.forall_mem_cons.mp hws
    have hfirst := followed_follow (v := v) (d := d) hdistance hpaths hparents
    rw [List.foldl_cons]
    refine hfirst.trans hv (ih (hfirst.metAt hv) ?_)
    rw [hfirst.distance_size, hfirst.paths_size, hfirst.parents_size]
    exact hws

end Follow

/-- The nodes met so far are those taken up and those in the queue, each once and in the order of their distance. The
queue spans two distances at most, and the successors of a node taken up are met. -/
structure Levelled (t : Topology ℚ) (source : Nat) (s : Search ℚ) : Prop extends Traced t source s where
  paths_size : s.paths.size = t.size
  parents_size : s.parents.size = t.size
  met_listed : ∀ x d, s.MetAt x d → x ∈ s.taken ∨ x ∈ s.queue
  nodup : (s.taken.reverse ++ s.queue).Nodup
  rising : (s.taken.reverse ++ s.queue).Pairwise fun x y => ∀ d e, s.MetAt x d → s.MetAt y e → d ≤ e
  span : ∀ v ∈ s.queue.head?, ∀ x d e, s.MetAt v d → s.MetAt x e → e ≤ d + 1
  source_met : s.MetAt source 0
  explored : ∀ v ∈ s.taken, ∀ w ∈ t.successors v, ∀ d, s.MetAt v d → ∃ e ≤ d + 1, s.MetAt w e

theorem metAt_start (hsource : source < t.size) :
    (Search.start t.size source : Search ℚ).MetAt x d ↔ x = source ∧ d = 0 := by
  rw [MetAt, Search.start, getD_modify, Array.size_replicate]
  by_cases hx : source = x
  · subst hx
    simp [hsource, eq_comm]
  · have hnone : (Array.replicate t.size (none : Option Nat)).getD x none = none := by
      by_cases hlt : x < t.size <;> simp [hlt]
    rw [if_neg fun h => hx h.1, hnone]
    simp [Ne.symm hx]

theorem levelled_start (hsource : source < t.size) : Levelled t source (.start t.size source) where
  toTraced := .start hsource
  paths_size := by simp [Search.start]
  parents_size := by simp [Search.start]
  met_listed x d hx := by
    obtain ⟨rfl, _⟩ := (metAt_start hsource).mp hx
    exact .inr (List.mem_singleton_self x)
  nodup := List.nodup_singleton source
  rising := List.pairwise_singleton _ source
  span v _ x d e _ hx := by
    obtain ⟨_, rfl⟩ := (metAt_start hsource).mp hx
    omega
  source_met := (metAt_start hsource).mpr ⟨rfl, rfl⟩
  explored v hv := absurd hv List.not_mem_nil

namespace Levelled

theorem walks_pos (h : Levelled t source s) (hx : s.MetAt x d) : 0 < t.walks d source x := by
  induction d generalizing x with
  | zero =>
    by_cases hsource : x = source
    · rw [hsource, t.walks_zero_self]
      omega
    · obtain ⟨u, e, _, _, he⟩ := h.entered x 0 hx hsource
      omega
  | succ d ih =>
    have hsource : x ≠ source := by
      rintro rfl
      have := hx.unique h.source_met
      omega
    obtain ⟨u, e, hu, hmet, he⟩ := h.entered x (d + 1) hx hsource
    obtain rfl : d = e := by omega
    exact Topology.walks_pos_trans (ih hmet) (Topology.walks_one_pos hu)

theorem exists_metAt_of_walks_pos (ht : t.Bounded) (h : Levelled t source s) {bound : Nat}
    (htaken : ∀ x e, s.MetAt x e → e < bound → x ∈ s.taken) {k : Nat} (hk : k ≤ bound) (hx : 0 < t.walks k source x) :
    ∃ e ≤ k, s.MetAt x e := by
  induction k generalizing x with
  | zero => exact ⟨0, Nat.le_refl 0, Topology.eq_of_walks_zero_pos hx ▸ h.source_met⟩
  | succ k ih =>
    obtain ⟨u, hu, hedge⟩ := Topology.exists_last_edge ht hx
    obtain ⟨e, he, hmet⟩ := ih (by omega) hu
    obtain ⟨l, hl, hmet'⟩ := h.explored u (htaken u e hmet (by omega)) x hedge e hmet
    exact ⟨l, by omega, hmet'⟩

theorem distance_eq (ht : t.Bounded) (h : Levelled t source s) {bound : Nat}
    (htaken : ∀ x e, s.MetAt x e → e < bound → x ∈ s.taken) (hd : d ≤ bound) (hx : s.MetAt x d) :
    t.distance source x = d := by
  apply Topology.eq_distance (h.walks_pos hx)
  intro l hl
  by_contra hlt
  obtain ⟨e, he, hmet⟩ := h.exists_metAt_of_walks_pos ht htaken (by omega : l ≤ bound) hl
  have := hx.unique hmet
  omega

theorem taken_of_lt (h : Levelled t source s) {rest : List Nat} (hq : s.queue = v :: rest) (hv : s.MetAt v d)
    (hx : s.MetAt x e) (hlt : e < d) : x ∈ s.taken := by
  rcases h.met_listed x e hx with htaken | hqueue
  · exact htaken
  · have hrising := (List.pairwise_append.mp h.rising).2.1
    rw [hq] at hqueue hrising
    rcases List.mem_cons.mp hqueue with rfl | hrest
    · have := hx.unique hv
      omega
    · have := (List.pairwise_cons.mp hrising).1 x hrest d e hv hx
      omega

theorem not_mem_taken (h : Levelled t source s) {rest : List Nat} (hq : s.queue = v :: rest) : v ∉ s.taken := by
  intro hv
  have hdisjoint := (List.nodup_append.mp h.nodup).2.2
  exact hdisjoint v (List.mem_reverse.mpr hv) v (by rw [hq]; exact List.mem_cons_self) rfl

section Step

variable (ht : t.Bounded) (h : Levelled t source s) {rest : List Nat} (hq : s.queue = v :: rest) (hv : s.MetAt v d)
include ht h hq hv

theorem followed_step :
    Followed v d (t.successors v) { s with taken := v :: s.taken, queue := rest } (s.step t) := by
  have hstep : s.step t =
      (t.successors v).foldl (follow v d) { s with taken := v :: s.taken, queue := rest } := by
    have hdv : s.distance.getD v none = some d := hv
    simp only [Search.step, hq, hdv]
  have hnext : MetAt { s with taken := v :: s.taken, queue := rest } v d := hv
  rw [hstep]
  apply followed_foldl hnext
  intro w hw
  have hlt := ht v w hw
  exact ⟨h.size_eq ▸ hlt, h.paths_size ▸ hlt, h.parents_size ▸ hlt⟩

theorem metAt_step : (s.step t).MetAt x e ↔
    s.MetAt x e ∨ s.distance.getD x none = none ∧ x ∈ t.successors v ∧ e = d + 1 :=
  (h.followed_step ht hq hv).metAt_iff x e

theorem le_of_metAt_step (hx : (s.step t).MetAt x e) : e ≤ d + 1 := by
  rcases (h.metAt_step ht hq hv).mp hx with hx | ⟨_, _, rfl⟩
  · exact h.span v (by simp [hq]) x d e hv hx
  · exact Nat.le_refl _

theorem metAt_of_listed (hlisted : x ∈ s.taken ∨ x ∈ s.queue) (hx : (s.step t).MetAt x e) : s.MetAt x e := by
  obtain ⟨l, hl⟩ := h.listed x hlisted
  exact ((h.metAt_step ht hq hv).mp hx).resolve_right fun hnew => hl.ne_none hnew.1

theorem listed_step : ∃ fresh,
    (s.step t).taken.reverse ++ (s.step t).queue = (s.taken.reverse ++ s.queue) ++ fresh ∧ fresh.Nodup ∧
      ∀ x, x ∈ fresh ↔ s.distance.getD x none = none ∧ x ∈ t.successors v := by
  have hfollowed := h.followed_step ht hq hv
  obtain ⟨fresh, hqueue, hfresh⟩ := hfollowed.queue_eq
  refine ⟨fresh, ?_, hfresh⟩
  rw [hfollowed.taken_eq, hqueue, hq]
  simp

theorem met_listed_step (hx : (s.step t).MetAt x e) : x ∈ (s.step t).taken ∨ x ∈ (s.step t).queue := by
  obtain ⟨fresh, hlist, _, hfresh⟩ := h.listed_step ht hq hv
  have hmem : x ∈ (s.taken.reverse ++ s.queue) ++ fresh := by
    rw [List.mem_append, List.mem_append, List.mem_reverse]
    rcases (h.metAt_step ht hq hv).mp hx with hx | ⟨hnone, hedge, _⟩
    · exact .inl (h.met_listed x e hx)
    · exact .inr ((hfresh x).mpr ⟨hnone, hedge⟩)
  rw [← hlist, List.mem_append, List.mem_reverse] at hmem
  exact hmem

theorem nodup_step : ((s.step t).taken.reverse ++ (s.step t).queue).Nodup := by
  obtain ⟨fresh, hlist, hnodup, hfresh⟩ := h.listed_step ht hq hv
  rw [hlist]
  refine List.nodup_append.mpr ⟨h.nodup, hnodup, ?_⟩
  rintro x hx _ hx' rfl
  rw [List.mem_append, List.mem_reverse] at hx
  obtain ⟨e, he⟩ := h.listed x hx
  exact he.ne_none ((hfresh x).mp hx').1

theorem rising_step : ((s.step t).taken.reverse ++ (s.step t).queue).Pairwise
    fun x y => ∀ d e, (s.step t).MetAt x d → (s.step t).MetAt y e → d ≤ e := by
  obtain ⟨fresh, hlist, _, hfresh⟩ := h.listed_step ht hq hv
  have hnew : ∀ y ∈ fresh, ∀ e, (s.step t).MetAt y e → e = d + 1 := by
    intro y hy e he
    rcases (h.metAt_step ht hq hv).mp he with he | ⟨_, _, he⟩
    · exact absurd ((hfresh y).mp hy).1 he.ne_none
    · exact he
  have hlate : ∀ x, ∀ y ∈ fresh, ∀ k l, (s.step t).MetAt x k → (s.step t).MetAt y l → k ≤ l := by
    intro x y hy k l hk hl
    rw [hnew y hy l hl]
    exact h.le_of_metAt_step ht hq hv hk
  rw [hlist]
  refine List.pairwise_append.mpr ⟨?_, ?_, ?_⟩
  · refine h.rising.imp_of_mem ?_
    intro x y hx hy hxy k l hk hl
    rw [List.mem_append, List.mem_reverse] at hx hy
    exact hxy k l (h.metAt_of_listed ht hq hv hx hk) (h.metAt_of_listed ht hq hv hy hl)
  · exact List.pairwise_of_forall_mem_list fun x _ y hy => hlate x y hy
  · exact fun x _ y hy => hlate x y hy

theorem le_of_mem_queue_step (hx : x ∈ (s.step t).queue) (hmet : (s.step t).MetAt x e) : d ≤ e := by
  have hrising := h.rising_step ht hq hv
  have hvt : v ∈ (s.step t).taken.reverse := by
    rw [(h.followed_step ht hq hv).taken_eq, List.mem_reverse]
    exact List.mem_cons_self
  exact (List.pairwise_append.mp hrising).2.2 v hvt x hx d e ((h.metAt_step ht hq hv).mpr (.inl hv)) hmet

theorem explored_step (hu : y ∈ (s.step t).taken) (hw : w ∈ t.successors y) (hmet : (s.step t).MetAt y e) :
    ∃ l ≤ e + 1, (s.step t).MetAt w l := by
  rw [(h.followed_step ht hq hv).taken_eq] at hu
  rcases List.mem_cons.mp hu with rfl | hu
  · obtain rfl : d = e := ((h.metAt_step ht hq hv).mpr (.inl hv)).unique hmet
    have hwmet : ∃ l, (s.step t).MetAt w l := by
      by_cases hnone : s.distance.getD w none = none
      · exact ⟨d + 1, (h.metAt_step ht hq hv).mpr (.inr ⟨hnone, hw, rfl⟩)⟩
      · obtain ⟨l, hl⟩ := exists_metAt hnone
        exact ⟨l, (h.metAt_step ht hq hv).mpr (.inl hl)⟩
    obtain ⟨l, hl⟩ := hwmet
    exact ⟨l, h.le_of_metAt_step ht hq hv hl, hl⟩
  · obtain ⟨l, hle, hl⟩ := h.explored y hu w hw e (h.metAt_of_listed ht hq hv (.inl hu) hmet)
    exact ⟨l, hle, (h.metAt_step ht hq hv).mpr (.inl hl)⟩

end Step

theorem step (ht : t.Bounded) (h : Levelled t source s) : Levelled t source (s.step t) := by
  cases hq : s.queue with
  | nil => simpa only [Search.step, hq] using h
  | cons v rest =>
    obtain ⟨d, hv⟩ := h.listed v (.inr (by simp [hq]))
    have hfollowed := h.followed_step ht hq hv
    exact
      { toTraced := h.toTraced.step ht
        paths_size := hfollowed.paths_size.trans h.paths_size
        parents_size := hfollowed.parents_size.trans h.parents_size
        met_listed := fun x e hx => h.met_listed_step ht hq hv hx
        nodup := h.nodup_step ht hq hv
        rising := h.rising_step ht hq hv
        span := by
          intro u hu x k l hk hl
          have hle := h.le_of_mem_queue_step ht hq hv (List.mem_of_mem_head? hu) hk
          have := h.le_of_metAt_step ht hq hv hl
          omega
        source_met := hfollowed.metAt h.source_met
        explored := fun y hy w hw e hmet => h.explored_step ht hq hv hy hw hmet }

end Levelled

/-- The parents of a node are taken up, each listed once for every edge to a node one step farther; and the paths
counted for a node are one for the source and those of its parents. -/
structure Counted (t : Topology ℚ) (source : Nat) (s : Search ℚ) : Prop where
  parent_taken : ∀ u w, u ∈ s.parents.getD w [] → u ∈ s.taken
  count_eq : ∀ u ∈ s.taken, ∀ w d, s.MetAt u d → s.MetAt w (d + 1) →
    (s.parents.getD w []).count u = (t.successors u).count w
  paths_eq : ∀ w, s.paths.getD w 0 =
    (if w = source then 1 else 0) + ((s.parents.getD w []).map fun u => (t.walks (t.distance source u) source u : ℚ)).sum

theorem counted_start (hsource : source < t.size) : Counted t source (.start t.size source) := by
  have hparents : ∀ w, (Search.start t.size source : Search ℚ).parents.getD w [] = [] := by
    intro w
    by_cases hw : w < t.size <;> simp [Search.start, hw]
  refine { parent_taken := ?_, count_eq := ?_, paths_eq := ?_ }
  · intro u w hu
    rw [hparents] at hu
    exact absurd hu List.not_mem_nil
  · intro u hu
    exact absurd hu List.not_mem_nil
  · intro w
    rw [hparents, List.map_nil, List.sum_nil, add_zero, Search.start, getD_modify, Array.size_replicate]
    by_cases hw : source = w
    · rw [if_pos ⟨hw, hw ▸ hsource⟩, if_pos hw.symm]
      exact Nat.cast_one
    · rw [if_neg fun h => hw h.1, if_neg (Ne.symm hw)]
      by_cases hlt : w < t.size <;> simp [hlt]

namespace Counted

section Nearer

variable (ht : t.Bounded) (hl : Levelled t source s) (h : Counted t source s) {bound : Nat}
  (htaken : ∀ x e, s.MetAt x e → e < bound → x ∈ s.taken)
include ht hl h htaken

/-- The parents of a node are the nodes from which a shortest path to it takes its last edge. -/
theorem count_mul_walks (hd : d + 1 ≤ bound) (hx : s.MetAt x (d + 1)) (u : Nat) :
    (s.parents.getD x []).count u * t.walks (t.distance source u) source u =
      t.walks d source u * (t.successors u).count x := by
  by_cases hu : u ∈ s.parents.getD x []
  · obtain ⟨_, e, hue, hxe⟩ := hl.parent u x hu
    have he := hx.unique hxe
    obtain rfl : d = e := by omega
    rw [h.count_eq u (h.parent_taken u x hu) x d hue hx, hl.distance_eq ht htaken (by omega) hue, Nat.mul_comm]
  · rw [List.count_eq_zero.mpr hu, Nat.zero_mul]
    by_contra hne
    obtain ⟨hwalk, hcount⟩ := Nat.mul_ne_zero_iff.mp (Ne.symm hne)
    have hedge := List.count_pos_iff.mp (Nat.pos_of_ne_zero hcount)
    obtain ⟨e, he, hue⟩ := hl.exists_metAt_of_walks_pos ht htaken (by omega) (Nat.pos_of_ne_zero hwalk)
    -- A node that is nearer still would give a shorter walk.
    have hdistance := hl.distance_eq ht htaken hd hx
    have hle := Topology.distance_le (Topology.walks_pos_trans (hl.walks_pos hue) (Topology.walks_one_pos hedge))
    obtain rfl : d = e := by omega
    have hparent := h.count_eq u (htaken u d hue (by omega)) x d hue hx
    rw [List.count_eq_zero.mpr hu] at hparent
    exact hcount hparent.symm

theorem paths_of_metAt (hd : d ≤ bound) (hx : s.MetAt x d) : s.paths.getD x 0 = t.walks d source x := by
  cases d with
  | zero =>
    have hsource := Topology.eq_of_walks_zero_pos (hl.walks_pos hx)
    have hnone : s.parents.getD x [] = [] := by
      rw [List.eq_nil_iff_forall_not_mem]
      intro u hu
      obtain ⟨_, e, _, he⟩ := hl.parent u x hu
      have := hx.unique he
      omega
    rw [h.paths_eq, if_pos hsource.symm, hnone, hsource, t.walks_zero_self, List.map_nil, List.sum_nil, add_zero,
      Nat.cast_one]
  | succ d =>
    have hsource : x ≠ source := by
      rintro rfl
      have := hx.unique hl.source_met
      omega
    have hlt : ∀ u ∈ s.parents.getD x [], u < t.size :=
      fun u hu => Topology.lt_size_of_mem_successors (hl.parent u x hu).1
    rw [h.paths_eq, if_neg hsource, zero_add, Topology.sum_map_eq_sum_range hlt, Topology.walks_succ_last ht,
      Nat.cast_sum]
    refine Finset.sum_congr rfl fun u _ => ?_
    rw [nsmul_eq_mul, ← h.count_mul_walks ht hl htaken hd hx u, Nat.cast_mul]

end Nearer

section Step

variable (ht : t.Bounded) (hl : Levelled t source s) (h : Counted t source s) {rest : List Nat}
  (hq : s.queue = v :: rest) (hv : s.MetAt v d)
include ht hl h hq hv

theorem parent_taken_step {u : Nat} (hu : u ∈ (s.step t).parents.getD w []) : u ∈ (s.step t).taken := by
  have hfollowed := hl.followed_step ht hq hv
  rw [hfollowed.parents_eq, List.mem_append] at hu
  rw [hfollowed.taken_eq]
  rcases hu with hu | hu
  · by_cases hnear : (s.step t).MetAt w (d + 1)
    · rw [if_pos hnear] at hu
      exact List.eq_of_mem_replicate hu ▸ List.mem_cons_self
    · rw [if_neg hnear] at hu
      exact absurd hu List.not_mem_nil
  · exact List.mem_cons_of_mem v (h.parent_taken u w hu)

theorem count_step_self (hw : (s.step t).MetAt w (d + 1)) :
    ((s.step t).parents.getD w []).count v = (t.successors v).count w := by
  have hnone : v ∉ s.parents.getD w [] := fun hmem => hl.not_mem_taken hq (h.parent_taken v w hmem)
  rw [(hl.followed_step ht hq hv).parents_eq, if_pos hw, List.count_append, List.count_replicate_self]
  exact (congrArg _ (List.count_eq_zero.mpr hnone)).trans (Nat.add_zero _)

theorem count_step_of_taken {u : Nat} (hu : u ∈ s.taken) (hue : (s.step t).MetAt u e)
    (hwe : (s.step t).MetAt w (e + 1)) :
    ((s.step t).parents.getD w []).count u = (t.successors u).count w := by
  have hne : v ≠ u := by
    rintro rfl
    exact hl.not_mem_taken hq hu
  have hue := hl.metAt_of_listed ht hq hv (.inl hu) hue
  have hold : ((s.step t).parents.getD w []).count u = (s.parents.getD w []).count u := by
    rw [(hl.followed_step ht hq hv).parents_eq, List.count_append]
    by_cases hnear : (s.step t).MetAt w (d + 1)
    · rw [if_pos hnear, List.count_replicate, if_neg (by simpa using hne), Nat.zero_add]
    · rw [if_neg hnear, List.count_nil, Nat.zero_add]
  rw [hold]
  rcases (hl.metAt_step ht hq hv).mp hwe with hwe | ⟨hnone, _⟩
  · exact h.count_eq u hu w e hue hwe
  · -- A node met just now is no successor of a node taken up before.
    have hparent : u ∉ s.parents.getD w [] := by
      intro hmem
      obtain ⟨_, _, _, hw⟩ := hl.parent u w hmem
      exact hw.ne_none hnone
    have hedge : w ∉ t.successors u := by
      intro hmem
      obtain ⟨_, _, hw⟩ := hl.explored u hu w hmem e hue
      exact hw.ne_none hnone
    rw [List.count_eq_zero.mpr hparent, List.count_eq_zero.mpr hedge]

theorem paths_eq_step (w : Nat) : (s.step t).paths.getD w 0 = (if w = source then 1 else 0) +
    (((s.step t).parents.getD w []).map fun u => (t.walks (t.distance source u) source u : ℚ)).sum := by
  have hfollowed := hl.followed_step ht hq hv
  have hnearer := fun x e (hx : s.MetAt x e) (he : e < d) => hl.taken_of_lt hq hv hx he
  have hpaths : s.paths.getD v 0 = t.walks d source v := h.paths_of_metAt ht hl hnearer (Nat.le_refl d) hv
  have hdistance : t.distance source v = d := hl.distance_eq ht hnearer (Nat.le_refl d) hv
  rw [hfollowed.parents_eq, hfollowed.paths_eq, List.map_append, List.sum_append]
  show s.paths.getD w 0 + (if (s.step t).MetAt w (d + 1) then (t.successors v).count w * s.paths.getD v 0 else 0) = _
  rw [h.paths_eq w, hpaths]
  by_cases hnear : (s.step t).MetAt w (d + 1)
  · rw [if_pos hnear, if_pos hnear, List.map_replicate, List.sum_replicate, nsmul_eq_mul, hdistance, add_assoc]
    exact congrArg _ (add_comm _ _)
  · rw [if_neg hnear, if_neg hnear, List.map_nil, List.sum_nil, add_zero, zero_add]

end Step

theorem step (ht : t.Bounded) (hl : Levelled t source s) (h : Counted t source s) : Counted t source (s.step t) := by
  cases hq : s.queue with
  | nil => simpa only [Search.step, hq] using h
  | cons v rest =>
    obtain ⟨d, hv⟩ := hl.listed v (.inr (by simp [hq]))
    refine { parent_taken := ?_, count_eq := ?_, paths_eq := ?_ }
    · exact fun u w hu => h.parent_taken_step ht hl hq hv hu
    · intro u hu w e hue hwe
      have hfollowed := hl.followed_step ht hq hv
      rw [hfollowed.taken_eq] at hu
      rcases List.mem_cons.mp hu with rfl | hu
      · obtain rfl : d = e := (hfollowed.metAt hv).unique hue
        exact h.count_step_self ht hl hq hv hwe
      · exact h.count_step_of_taken ht hl hq hv hu hue hwe
    · exact h.paths_eq_step ht hl hq hv

end Counted

theorem run_of_queue_nil (hq : s.queue = []) (left : Nat) : run t left s = s := by
  induction left with
  | zero => rfl
  | succ left ih =>
    have hstep : s.step t = s := by simp only [Search.step, hq]
    rw [run, hstep, ih]

theorem Levelled.run (ht : t.Bounded) (h : Levelled t source s) (left : Nat) :
    Levelled t source (Search.run t left s) := by
  induction left generalizing s with
  | zero => exact h
  | succ left ih => exact ih (h.step ht)

theorem Counted.run (ht : t.Bounded) (hl : Levelled t source s) (h : Counted t source s) (left : Nat) :
    Counted t source (Search.run t left s) := by
  induction left generalizing s with
  | zero => exact h
  | succ left ih => exact ih (hl.step ht) (h.step ht hl)

theorem Levelled.length_listed_le (h : Levelled t source s) : s.taken.length + s.queue.length ≤ t.size := by
  have hsubset : s.taken.reverse ++ s.queue ⊆ List.range t.size := by
    intro x hx
    rw [List.mem_append, List.mem_reverse] at hx
    obtain ⟨d, hd⟩ := h.listed x hx
    rw [List.mem_range, ← h.size_eq]
    by_contra hlt
    exact hd.ne_none (by simp [hlt])
  have hle := (h.nodup.subperm hsubset).length_le
  rw [List.length_append, List.length_reverse, List.length_range] at hle
  exact hle

theorem Levelled.queue_run (ht : t.Bounded) (h : Levelled t source s) {left : Nat}
    (hleft : t.size ≤ left + s.taken.length) : (Search.run t left s).queue = [] := by
  induction left generalizing s with
  | zero =>
    have hle := h.length_listed_le
    exact List.eq_nil_of_length_eq_zero (by show s.queue.length = 0; omega)
  | succ left ih =>
    cases hq : s.queue with
    | nil => rw [run_of_queue_nil hq, hq]
    | cons v rest =>
      obtain ⟨d, hv⟩ := h.listed v (.inr (by simp [hq]))
      refine ih (h.step ht) ?_
      rw [(h.followed_step ht hq hv).taken_eq, List.length_cons]
      omega

section Over

variable (ht : t.Bounded) (h : Levelled t source s) (hq : s.queue = [])
include h hq

theorem Levelled.taken_of_queue_nil (hx : s.MetAt x d) : x ∈ s.taken := by
  rcases h.met_listed x d hx with htaken | hqueue
  · exact htaken
  · rw [hq] at hqueue
    exact absurd hqueue List.not_mem_nil

include ht

theorem Levelled.metAt_iff : s.MetAt x d ↔ t.Reaches source x ∧ t.distance source x = d := by
  have hall : ∀ {bound : Nat} (x e), s.MetAt x e → e < bound → x ∈ s.taken :=
    fun _ _ hx _ => h.taken_of_queue_nil hq hx
  constructor
  · intro hx
    exact ⟨Topology.reaches_of_walks_pos (h.walks_pos hx), h.distance_eq ht hall (Nat.le_refl d) hx⟩
  · rintro ⟨hreach, rfl⟩
    obtain ⟨e, _, he⟩ := h.exists_metAt_of_walks_pos ht hall (Nat.le_refl _) (Topology.walks_distance_pos hreach)
    rw [h.distance_eq ht hall (Nat.le_refl e) he]
    exact he

end Over

end Search

variable {t : Topology ℚ} {source : Nat} {s : Search ℚ}

/-- A search that is over: it has taken up the nodes that can be reached, the latest first and no later one nearer,
and it knows the distance of each, the number of shortest paths to it, and its parents, the nodes one step nearer with
an edge to it, once for every edge. -/
structure CountsPaths (t : Topology ℚ) (source : Nat) (s : Search ℚ) : Prop where
  nodup : s.taken.Nodup
  mem_taken : ∀ x, x ∈ s.taken ↔ t.Reaches source x
  falling : s.taken.Pairwise fun x y => t.distance source y ≤ t.distance source x
  metAt_iff : ∀ x d, s.MetAt x d ↔ t.Reaches source x ∧ t.distance source x = d
  paths_eq : ∀ x, t.Reaches source x → s.paths.getD x 0 = t.walks (t.distance source x) source x
  nearer : ∀ v w, v ∈ s.parents.getD w [] →
    t.Reaches source v ∧ t.Reaches source w ∧ t.distance source w = t.distance source v + 1
  count_eq : ∀ v w, t.Reaches source v → t.Reaches source w → t.distance source w = t.distance source v + 1 →
    (s.parents.getD w []).count v = (t.successors v).count w

open Search in
theorem countsPaths_of_queue_nil (ht : t.Bounded) (hl : Levelled t source s) (hc : Counted t source s)
    (hq : s.queue = []) : CountsPaths t source s := by
  have hmet : ∀ x d, s.MetAt x d ↔ t.Reaches source x ∧ t.distance source x = d := fun x d => hl.metAt_iff ht hq
  have hat : ∀ x, t.Reaches source x → s.MetAt x (t.distance source x) := fun x hx => (hmet x _).mpr ⟨hx, rfl⟩
  have htaken : ∀ x, x ∈ s.taken ↔ t.Reaches source x := by
    intro x
    constructor
    · intro hx
      obtain ⟨d, hd⟩ := hl.listed x (.inl hx)
      exact ((hmet x d).mp hd).1
    · exact fun hx => hl.taken_of_queue_nil hq (hat x hx)
  have hnodup := hl.nodup
  have hrising := hl.rising
  rw [hq, List.append_nil] at hnodup hrising
  refine
    { nodup := List.nodup_reverse.mp hnodup
      mem_taken := htaken
      falling := ?_
      metAt_iff := hmet
      paths_eq := ?_
      nearer := ?_
      count_eq := ?_ }
  · refine (List.pairwise_reverse.mp hrising).imp_of_mem ?_
    intro x y hx hy hle
    exact hle _ _ (hat y ((htaken y).mp hy)) (hat x ((htaken x).mp hx))
  · intro x hx
    exact hc.paths_of_metAt ht hl (fun y e hy _ => hl.taken_of_queue_nil hq hy) (Nat.le_refl _) (hat x hx)
  · intro v w hv
    obtain ⟨_, d, hvd, hwd⟩ := hl.parent v w hv
    obtain ⟨hv, rfl⟩ := (hmet v d).mp hvd
    obtain ⟨hw, hdistance⟩ := (hmet w _).mp hwd
    exact ⟨hv, hw, hdistance⟩
  · intro v w hv hw hdistance
    exact hc.count_eq v ((htaken v).mpr hv) w _ (hat v hv) (hdistance ▸ hat w hw)

theorem levelled_search (ht : t.Bounded) (hsource : source < t.size) : Search.Levelled t source (search t source) :=
  (Search.levelled_start hsource).run ht t.size

theorem counted_search (ht : t.Bounded) (hsource : source < t.size) : Search.Counted t source (search t source) :=
  (Search.counted_start hsource).run ht (Search.levelled_start hsource) t.size

theorem queue_search (ht : t.Bounded) (hsource : source < t.size) : (search t source).queue = [] :=
  (Search.levelled_start hsource).queue_run ht (Nat.le_add_right t.size _)

theorem search_countsPaths (ht : t.Bounded) (hsource : source < t.size) : CountsPaths t source (search t source) :=
  countsPaths_of_queue_nil ht (levelled_search ht hsource) (counted_search ht hsource) (queue_search ht hsource)

end ModuleGraph.Betweenness
