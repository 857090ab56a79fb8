import ModuleGraph.Resolve.Alias
import ModuleGraph.Proofs.DocumentRoundTrip
import ModuleGraph.Proofs.SortOrder
import ModuleGraph.Proofs.TextPieces
import Mathlib.Data.List.Perm.Basic

namespace ModuleGraph

section Readings

variable {α β γ δ : Type}

theorem rel_bind {r : α → β → Prop} {s : γ → δ → Prop} {x : Option α} {y : Option β} (h : Option.Rel r x y)
    {f : α → Option γ} {g : β → Option δ} (hfg : ∀ a b, r a b → Option.Rel s (f a) (g b)) :
    Option.Rel s (x.bind f) (y.bind g) := by
  cases h with
  | some hab => exact hfg _ _ hab
  | none => exact .none

theorem rel_refl {r : α → α → Prop} (h : ∀ a, r a a) (x : Option α) : Option.Rel r x x := by
  cases x with
  | some a => exact .some (h a)
  | none => exact .none

theorem rel_imp {r s : α → β → Prop} {x : Option α} {y : Option β} (h : Option.Rel r x y)
    (hrs : ∀ a b, r a b → s a b) : Option.Rel s x y := by
  cases h with
  | some hab => exact .some (hrs _ _ hab)
  | none => exact .none

theorem eq_of_rel {x y : Option α} (h : Option.Rel Eq x y) : x = y := by
  cases h with
  | some hab => rw [hab]
  | none => rfl

theorem rel_and {r : α → β → Prop} {p : α → Prop} {x : Option α} {y : Option β} (h : Option.Rel r x y)
    (hx : ∀ a, x = some a → p a) : Option.Rel (fun a b => r a b ∧ p a) x y := by
  cases h with
  | some hab => exact .some ⟨hab, hx _ rfl⟩
  | none => exact .none

theorem mapM_eq_some_iff {f : α → Option β} {xs : List α} {ys : List β} :
    xs.mapM f = some ys ↔ List.Forall₂ (fun x y => f x = some y) xs ys := by
  induction xs generalizing ys with
  | nil => cases ys <;> simp
  | cons x xs ih =>
    rw [List.mapM_cons, List.forall₂_cons_left_iff]
    constructor
    · intro h
      obtain ⟨y, hy, h⟩ := Option.bind_eq_some_iff.mp h
      obtain ⟨zs, hzs, h⟩ := Option.bind_eq_some_iff.mp h
      exact ⟨y, zs, hy, ih.mp hzs, (Option.some.inj h).symm⟩
    · rintro ⟨y, zs, hy, hzs, rfl⟩
      rw [hy, ih.mpr hzs]
      rfl

theorem mapM_rel_perm (f : α → Option β) {xs xs' : List α} (h : xs.Perm xs') :
    Option.Rel List.Perm (xs.mapM f) (xs'.mapM f) := by
  have hread : ∀ {us vs : List α} {ws : List β}, us.Perm vs → vs.mapM f = some ws →
      ∃ zs, us.mapM f = some zs ∧ zs.Perm ws := by
    intro us vs ws hperm hws
    obtain ⟨zs, hzs, hp⟩ := List.perm_comp_forall₂ hperm (mapM_eq_some_iff.mp hws)
    exact ⟨zs, mapM_eq_some_iff.mpr hzs, hp⟩
  cases hxs' : xs'.mapM f with
  | some ws =>
    obtain ⟨zs, hzs, hp⟩ := hread h hxs'
    rw [hzs]
    exact .some hp
  | none =>
    cases hxs : xs.mapM f with
    | none => exact .none
    | some zs =>
      obtain ⟨ws, hws, -⟩ := hread h.symm hxs
      exact absurd (hxs'.symm.trans hws) nofun

end Readings

namespace Json

/-- Two records that differ in nothing but the value of one field, in either of the two forms of a record. -/
inductive FieldDiffers (names : List String) (name : String) (differs : Json → Json → Prop) : Json → Json → Prop
  | member {before after : List (List Char × Json)} {key : List Char} {value value' : Json} :
      (unescape? key).map String.ofList = some name → differs value value' →
      FieldDiffers names name differs (.object (before ++ (key, value) :: after))
        (.object (before ++ (key, value') :: after))
  | item {before after : List Json} {value value' : Json} :
      names[before.length]? = some name → differs value value' →
      FieldDiffers names name differs (.array (before ++ value :: after)) (.array (before ++ value' :: after))

/-- Two objects with the same members in another order, no two of them with the same key. -/
inductive MembersPermuted : Json → Json → Prop
  | object {members members' : List (List Char × Json)} : members.Perm members' →
      (members.filterMap fun m => unescape? m.1).Nodup → MembersPermuted (.object members) (.object members')

variable {names : List String} {name : String} {differs : Json → Json → Prop}

inductive FieldAlike (name : String) (differs : Json → Json → Prop) (n : String) : Option Json → Option Json → Prop
  | same (field : Option Json) : FieldAlike name differs n field field
  | changed {value value' : Json} : n = name → differs value value' →
      FieldAlike name differs n (some value) (some value')

inductive FieldsAlike (name : String) (differs : Json → Json → Prop) :
    List String → List (Option Json) → List (Option Json) → Prop
  | nil : FieldsAlike name differs [] [] []
  | cons {n : String} {names : List String} {field field' : Option Json} {fields fields' : List (Option Json)} :
      FieldAlike name differs n field field' → FieldsAlike name differs names fields fields' →
      FieldsAlike name differs (n :: names) (field :: fields) (field' :: fields')

theorem members?_differs {before after : List (List Char × Json)} {key : List Char} (value value' : Json)
    (hkey : (unescape? key).map String.ofList = some name) :
    Option.Rel (fun ms ms' => ∃ b a, ms = b ++ (name, value) :: a ∧ ms' = b ++ (name, value') :: a)
      (members? (.object (before ++ (key, value) :: after))) (members? (.object (before ++ (key, value') :: after))) := by
  obtain ⟨text, htext, rfl⟩ := Option.map_eq_some_iff.mp hkey
  simp only [members?, List.mapM_append, List.mapM_cons, htext, Option.map_some]
  cases before.mapM fun m : List Char × Json => (unescape? m.1).map fun key => (String.ofList key, m.2) with
  | none => exact .none
  | some b =>
    cases after.mapM fun m : List Char × Json => (unescape? m.1).map fun key => (String.ofList key, m.2) with
    | none => exact .none
    | some a => exact .some ⟨b, a, rfl, rfl⟩

theorem uniqueField?_differs (before after : List (String × Json)) {value value' : Json} (hv : differs value value')
    (n : String) : Option.Rel (FieldAlike name differs n) (uniqueField? (before ++ (name, value) :: after) n)
      (uniqueField? (before ++ (name, value') :: after) n) := by
  unfold uniqueField?
  rw [List.filter_append, List.filter_append]
  by_cases hn : n = name
  · subst hn
    have hself : ∀ v : Json, ((n, v) :: after).filter (·.1 == n) = (n, v) :: after.filter (·.1 == n) := fun v =>
      List.filter_cons_of_pos (beq_self_eq_true n)
    rw [hself, hself]
    -- A second member of the name makes the record unreadable on both sides.
    generalize before.filter (·.1 == n) = first
    generalize after.filter (·.1 == n) = last
    rcases first with _ | ⟨m, _ | ⟨m', first⟩⟩
    · rcases last with _ | ⟨m, last⟩
      · exact .some (.changed rfl hv)
      · exact .none
    · exact .none
    · exact .none
  · have hother : ∀ v : Json, ((name, v) :: after).filter (·.1 == n) = after.filter (·.1 == n) := fun v =>
      List.filter_cons_of_neg (by simpa using Ne.symm hn)
    rw [hother, hother]
    generalize before.filter (·.1 == n) ++ after.filter (·.1 == n) = found
    rcases found with _ | ⟨m, _ | ⟨m', found⟩⟩
    · exact .some (.same _)
    · exact .some (.same _)
    · exact .none

theorem mapM_fieldsAlike {f f' : String → Option (Option Json)}
    (h : ∀ n, Option.Rel (FieldAlike name differs n) (f n) (f' n)) (names : List String) :
    Option.Rel (FieldsAlike name differs names) (names.mapM f) (names.mapM f') := by
  induction names with
  | nil => exact .some .nil
  | cons n names ih =>
    rw [List.mapM_cons, List.mapM_cons]
    exact rel_bind (h n) fun _ _ hn => rel_bind ih fun _ _ hnames => .some (.cons hn hnames)

theorem fieldsAlike_items {before after : List Json} {value value' : Json} (hv : differs value value')
    (hlength : (before ++ value :: after).length = names.length) (hname : names[before.length]? = some name) :
    FieldsAlike name differs names ((before ++ value :: after).map some) ((before ++ value' :: after).map some) := by
  have hsame : ∀ {ns : List String} {items : List Json}, items.length = ns.length →
      FieldsAlike name differs ns (items.map some) (items.map some) := by
    intro ns items h
    induction items generalizing ns with
    | nil =>
      obtain rfl : ns = [] := List.eq_nil_of_length_eq_zero h.symm
      exact .nil
    | cons item items ih =>
      obtain ⟨n, ns, rfl⟩ := List.exists_cons_of_length_eq_add_one h.symm
      exact .cons (.same _) (ih (Nat.succ.inj h))
  induction before generalizing names with
  | nil =>
    obtain ⟨n, ns, rfl⟩ := List.exists_cons_of_length_eq_add_one hlength.symm
    have hn : n = name := by simpa using hname
    exact .cons (.changed hn hv) (hsame (Nat.succ.inj hlength))
  | cons item before ih =>
    obtain ⟨n, ns, rfl⟩ := List.exists_cons_of_length_eq_add_one hlength.symm
    exact .cons (.same _) (ih (Nat.succ.inj hlength) (by simpa using hname))

theorem fields?_alike {j j' : Json} (h : FieldDiffers names name differs j j') :
    Option.Rel (FieldsAlike name differs names) (fields? names j) (fields? names j') := by
  cases h with
  | @member before after key value value' hkey hv =>
    refine rel_bind (members?_differs value value' hkey) ?_
    rintro _ _ ⟨b, a, rfl, rfl⟩
    exact mapM_fieldsAlike (uniqueField?_differs b a hv) names
  | @item before after value value' hname hv =>
    have hlength : (before ++ value' :: after).length = (before ++ value :: after).length := by simp
    rw [fields?, fields?, hlength]
    split
    next h => exact .some (fieldsAlike_items hv h hname)
    next => exact .none

end Json

namespace AliasTable

/-- Two configurations that list the same patterns with the same targets in another order. -/
def PathsPermuted : Json → Json → Prop :=
  Json.FieldDiffers ["compilerOptions"] "compilerOptions"
    (Json.FieldDiffers ["baseUrl", "paths"] "paths" Json.MembersPermuted)

/-- The longer of two patterns stands before the other one, and of two that are as long the smaller one. -/
def Before (a b : String × List Path) : Prop :=
  b.1.utf8ByteSize < a.1.utf8ByteSize ∨ a.1.utf8ByteSize = b.1.utf8ByteSize ∧ a.1 < b.1

theorem precedes_iff {a b : String × List Path} : precedes a b = true ↔ Before a b := by
  simp [precedes, Before]

theorem precedes_eq_false_iff {a b : String × List Path} : precedes a b = false ↔ ¬Before a b := by
  rw [← precedes_iff, Bool.not_eq_true]

theorem before_of_not_before {a b : String × List Path} (h : ¬Before b a) (hne : a.1 ≠ b.1) : Before a b := by
  unfold Before at h ⊢
  rcases Nat.lt_trichotomy a.1.utf8ByteSize b.1.utf8ByteSize with hlt | heq | hlt
  · exact absurd (.inl hlt) h
  · refine .inr ⟨heq, ?_⟩
    by_contra hnot
    have hle : ¬b.1 < a.1 := fun hlt => h (.inr ⟨heq.symm, hlt⟩)
    exact hne (String.le_antisymm (String.not_lt.mp hle) (String.not_lt.mp hnot))
  · exact .inl hlt

theorem Before.asymm {a b : String × List Path} (h : Before a b) : ¬Before b a := by
  rcases h with hlt | ⟨heq, hlt⟩
  · rintro (hgt | ⟨heq, -⟩) <;> omega
  · rintro (hgt | ⟨-, hgt⟩)
    · omega
    · exact String.lt_asymm hlt hgt

theorem Before.trans {a b c : String × List Path} (hab : Before a b) (hbc : Before b c) : Before a c := by
  unfold Before at *
  rcases hab with hab | ⟨hab, hlt⟩
  · rcases hbc with hbc | ⟨hbc, -⟩ <;> exact .inl (by omega)
  · rcases hbc with hbc | ⟨hbc, hlt'⟩
    · exact .inl (by omega)
    · exact .inr ⟨by omega, String.lt_trans hlt hlt'⟩

theorem not_before_trans {a b c : String × List Path} (hab : ¬Before a b) (hbc : ¬Before b c) : ¬Before a c := by
  intro hac
  by_cases heq : a.1 = b.1
  · exact hbc (by simpa only [Before, heq] using hac)
  · exact hbc ((before_of_not_before hab (Ne.symm heq)).trans hac)

theorem isPrecedence : IsPrecedence precedes where
  asymm _ _ h := precedes_eq_false_iff.mpr (precedes_iff.mp h).asymm
  trans _ _ _ hab hbc :=
    precedes_eq_false_iff.mpr (not_before_trans (precedes_eq_false_iff.mp hab) (precedes_eq_false_iff.mp hbc))

def entriesUnder (base : Path) (entries : List (String × List String)) : List (String × List Path) :=
  entries.map fun e => (e.1, e.2.map fun target : String => base.join ⟨target⟩)

theorem map_fst_entriesUnder (base : Path) (entries : List (String × List String)) :
    (entriesUnder base entries).map (·.1) = entries.map (·.1) := by
  simp [entriesUnder, Function.comp_def]

theorem stableSort_before {entries : List (String × List Path)} (h : (entries.map (·.1)).Nodup) :
    (stableSort precedes entries).Pairwise Before := by
  have hperm := stableSort_perm precedes entries
  have hne : (stableSort precedes entries).Pairwise fun a b => a.1 ≠ b.1 :=
    List.pairwise_map.mp ((hperm.map Prod.fst).nodup_iff.mpr h)
  refine ((isPrecedence.stableSort_pairwise entries).and hne).imp fun {a b} hab => ?_
  exact before_of_not_before (precedes_eq_false_iff.mp hab.1) hab.2

theorem stableSort_eq_of_perm {entries entries' : List (String × List Path)} (h : entries.Perm entries')
    (hkeys : (entries.map (·.1)).Nodup) : stableSort precedes entries = stableSort precedes entries' := by
  refine isPrecedence.stableSort_eq_of_perm h fun a ha b hb hab hba => ?_
  have hkey : a.1 = b.1 := by
    by_contra hne
    exact precedes_eq_false_iff.mp hab (before_of_not_before (precedes_eq_false_iff.mp hba) hne)
  exact List.inj_on_of_nodup_map hkeys ha hb hkey

theorem ofOptions_eq_of_perm (root : Path) (baseUrl : Option String) {entries entries' : List (String × List String)}
    (h : entries.Perm entries') (hkeys : (entries.map (·.1)).Nodup) :
    ofOptions root ⟨baseUrl, some entries⟩ = ofOptions root ⟨baseUrl, some entries'⟩ := by
  have hpaths : ∀ base, stableSort precedes (entriesUnder base entries) = stableSort precedes (entriesUnder base entries') :=
    fun base => stableSort_eq_of_perm (h.map _) (by rwa [map_fst_entriesUnder])
  exact congrArg (AliasTable.mk _) (hpaths _)

section Reading

theorem nodup_foldl_latest {β : Type} {entries kept : List (String × β)} (h : (kept.map (·.1)).Nodup) :
    ((entries.foldl (fun kept e => kept.filter (·.1 ≠ e.1) ++ [e]) kept).map (·.1)).Nodup := by
  induction entries generalizing kept with
  | nil => exact h
  | cons e entries ih =>
    refine ih ?_
    rw [List.map_append, List.nodup_append]
    refine ⟨h.sublist (List.filter_sublist.map _), List.nodup_singleton _, ?_⟩
    intro key hkey key' hself hsame
    obtain ⟨k, hk, rfl⟩ := List.mem_map.mp hkey
    have hne : k.1 ≠ e.1 := of_decide_eq_true (List.mem_filter.mp hk).2
    exact hne (hsame.trans (List.mem_singleton.mp hself))

theorem foldl_latest_eq {β : Type} {entries kept : List (String × β)} (h : ((kept ++ entries).map (·.1)).Nodup) :
    entries.foldl (fun kept e => kept.filter (·.1 ≠ e.1) ++ [e]) kept = kept ++ entries := by
  induction entries generalizing kept with
  | nil => rw [List.foldl_nil, List.append_nil]
  | cons e entries ih =>
    have hkept : kept.filter (·.1 ≠ e.1) = kept := by
      refine List.filter_eq_self.mpr fun k hk => ?_
      rw [List.map_append, List.nodup_append] at h
      simpa using h.2.2 k.1 (List.mem_map_of_mem hk) e.1 (by simp)
    have hnext : kept ++ e :: entries = kept ++ [e] ++ entries := by simp
    rw [List.foldl_cons, hkept, hnext]
    exact ih (by rwa [← hnext])

theorem members?_permuted {j j' : Json} (h : Json.MembersPermuted j j') :
    Option.Rel (fun ms ms' => ms.Perm ms' ∧ (ms.map (·.1)).Nodup) j.members? j'.members? := by
  cases h with
  | @object members members' hperm hkeys =>
    refine rel_and (mapM_rel_perm _ hperm) fun ms hms => ?_
    have hread := mapM_eq_some_iff.mp hms
    have hnames : ms.map (·.1) = (members.filterMap fun m => Json.unescape? m.1).map String.ofList := by
      clear hperm hkeys hms
      induction hread with
      | nil => rfl
      | cons hm _ ih =>
        obtain ⟨key, hkey, rfl⟩ := Option.map_eq_some_iff.mp hm
        simp [hkey, ih]
    rw [hnames]
    exact hkeys.map fun _ _ => String.ofList_inj.mp

theorem readPaths?_permuted {j j' : Json} (h : Json.MembersPermuted j j') :
    Option.Rel (fun es es' => es.Perm es' ∧ (es.map (·.1)).Nodup) (readPaths? j) (readPaths? j') := by
  refine rel_bind (members?_permuted h) ?_
  rintro ms ms' ⟨hperm, hkeys⟩
  have hentries : Option.Rel (fun es es' => es.Perm es' ∧ (es.map (·.1)).Nodup)
      (ms.mapM fun m => (Json.list? Json.text? m.2).map (m.1, ·))
      (ms'.mapM fun m => (Json.list? Json.text? m.2).map (m.1, ·)) := by
    refine rel_and (mapM_rel_perm _ hperm) fun es hes => ?_
    have hread := mapM_eq_some_iff.mp hes
    have hnames : es.map (·.1) = ms.map (·.1) := by
      clear hperm hkeys hes
      induction hread with
      | nil => rfl
      | cons hm _ ih =>
        obtain ⟨targets, -, rfl⟩ := Option.map_eq_some_iff.mp hm
        rw [List.map_cons, List.map_cons, ih]
    rwa [hnames]
  refine rel_bind hentries ?_
  rintro es es' ⟨hperm, hkeys⟩
  have hkeys' : (es'.map (·.1)).Nodup := (hperm.map Prod.fst).nodup_iff.mp hkeys
  rw [@foldl_latest_eq _ es [] hkeys, @foldl_latest_eq _ es' [] hkeys']
  exact .some ⟨hperm, hkeys⟩

theorem optional_alike {α : Type} {read : Json → Option α} {r : α → α → Prop} {name n : String}
    {differs : Json → Json → Prop} {field field' : Option Json} (hrefl : ∀ a, r a a)
    (hread : ∀ {j j'}, differs j j' → j ≠ .null ∧ j' ≠ .null ∧ Option.Rel r (read j) (read j'))
    (h : Json.FieldAlike name differs n field field') :
    Option.Rel (Option.Rel r) (Json.optional read field) (Json.optional read field') := by
  cases h with
  | same => exact rel_refl (rel_refl hrefl) _
  | changed _ hdiffers =>
    obtain ⟨hj, hj', hrel⟩ := hread hdiffers
    have hsome : ∀ {j : Json}, j ≠ .null → Json.optional read (some j) = (read j).bind (some ∘ some) := by
      intro j hj
      cases j with
      | null => exact absurd rfl hj
      | _ => exact Option.map_eq_bind
    rw [hsome hj, hsome hj']
    exact rel_bind hrel fun _ _ hab => .some (.some hab)

theorem membersPermuted_ne_null {j j' : Json} (h : Json.MembersPermuted j j') : j ≠ .null ∧ j' ≠ .null := by
  cases h
  exact ⟨nofun, nofun⟩

theorem fieldDiffers_ne_null {names : List String} {name : String} {differs : Json → Json → Prop} {j j' : Json}
    (h : Json.FieldDiffers names name differs j j') : j ≠ .null ∧ j' ≠ .null := by
  cases h <;> exact ⟨nofun, nofun⟩

def SameTable (root : Path) (entries entries' : List (String × List String)) : Prop :=
  ∀ baseUrl, ofOptions root ⟨baseUrl, some entries⟩ = ofOptions root ⟨baseUrl, some entries'⟩

theorem optional_readPaths?_alike (root : Path) {n : String} {field field' : Option Json}
    (h : Json.FieldAlike "paths" Json.MembersPermuted n field field') :
    Option.Rel (Option.Rel (SameTable root)) (Json.optional readPaths? field) (Json.optional readPaths? field') := by
  refine optional_alike (fun _ _ => rfl) ?_ h
  intro j j' hperm
  obtain ⟨hj, hj'⟩ := membersPermuted_ne_null hperm
  exact ⟨hj, hj', rel_imp (readPaths?_permuted hperm) fun _ _ h baseUrl => ofOptions_eq_of_perm root baseUrl h.1 h.2⟩

theorem readOptions?_permuted (root : Path) {j j' : Json}
    (h : Json.FieldDiffers ["baseUrl", "paths"] "paths" Json.MembersPermuted j j') :
    Option.Rel (fun o o' => ofOptions root o = ofOptions root o') (readOptions? j) (readOptions? j') := by
  refine rel_bind (Json.fields?_alike h) ?_
  rintro _ _ (_ | ⟨hbase, _ | ⟨hpaths, ⟨⟩⟩⟩)
  cases hbase with
  | changed hname => exact absurd hname (by decide)
  | same =>
    refine rel_bind (rel_refl (fun _ => Eq.refl _) _) ?_
    rintro baseUrl _ rfl
    refine rel_bind (optional_readPaths?_alike root hpaths) fun paths paths' hsame => .some ?_
    cases hsame with
    | some hsame => exact hsame baseUrl
    | none => rfl

theorem parse?_eq_of_permuted (root : Path) {text text' : List Char} {j j' : Json}
    (hj : Json.parse? (Comment.stripCurly text) = some j) (hj' : Json.parse? (Comment.stripCurly text') = some j')
    (h : PathsPermuted j j') : parse? root text = parse? root text' := by
  unfold parse?
  rw [hj, hj']
  apply eq_of_rel
  refine rel_bind (Json.fields?_alike h) ?_
  rintro _ _ (_ | ⟨hfield, ⟨⟩⟩)
  refine rel_bind (optional_alike (r := fun o o' => ofOptions root o = ofOptions root o') (fun _ => rfl) ?_ hfield)
    fun _ _ hoptions => rel_bind hoptions fun _ _ hsame => .some hsame
  intro options options' hdiffers
  obtain ⟨hne, hne'⟩ := fieldDiffers_ne_null hdiffers
  exact ⟨hne, hne', readOptions?_permuted root hdiffers⟩

theorem nodup_of_readPaths? {j : Json} {entries : List (String × List String)} (h : readPaths? j = some entries) :
    (entries.map (·.1)).Nodup := by
  obtain ⟨ms, -, h⟩ := Option.bind_eq_some_iff.mp h
  obtain ⟨es, -, h⟩ := Option.bind_eq_some_iff.mp h
  rw [← Option.some.inj h]
  exact nodup_foldl_latest List.nodup_nil

theorem optional_eq_some_some {α : Type} {read : Json → Option α} {field : Option Json} {a : α}
    (h : Json.optional read field = some (some a)) : ∃ j, read j = some a := by
  unfold Json.optional at h
  split at h
  next => cases h
  next => cases h
  next j _ => exact ⟨j, by simpa using h⟩

theorem nodup_of_readOptions? {j : Json} {options : CompilerOptions} (h : readOptions? j = some options) :
    ((options.paths.getD []).map (·.1)).Nodup := by
  obtain ⟨fields, -, h⟩ := Option.bind_eq_some_iff.mp h
  rcases fields with _ | ⟨field, _ | ⟨paths, _ | _⟩⟩ <;> try cases h
  obtain ⟨baseUrl, -, h⟩ := Option.bind_eq_some_iff.mp h
  obtain ⟨entries, hentries, h⟩ := Option.bind_eq_some_iff.mp h
  cases Option.some.inj h
  cases entries with
  | none => exact List.nodup_nil
  | some entries =>
    obtain ⟨j, hj⟩ := optional_eq_some_some hentries
    exact nodup_of_readPaths? hj

theorem exists_options_of_parse? {root : Path} {text : List Char} {table : AliasTable}
    (h : parse? root text = some table) :
    ∃ options : CompilerOptions, ((options.paths.getD []).map (·.1)).Nodup ∧ table = ofOptions root options := by
  obtain ⟨j, -, h⟩ := Option.bind_eq_some_iff.mp h
  obtain ⟨fields, -, h⟩ := Option.bind_eq_some_iff.mp h
  rcases fields with _ | ⟨field, _ | _⟩ <;> try cases h
  obtain ⟨found, hfound, h⟩ := Option.bind_eq_some_iff.mp h
  obtain ⟨options, rfl, h⟩ := Option.bind_eq_some_iff.mp h
  obtain ⟨j, hj⟩ := optional_eq_some_some hfound
  exact ⟨options, nodup_of_readOptions? hj, (Option.some.inj h).symm⟩

end Reading

section Search

variable {pattern spec : String} {matched : List Char}

/-- What a pattern leaves of a specifier. A pattern with a star at its end matches what starts with the rest of it, and
any other pattern matches itself alone. -/
inductive Matches : String → String → List Char → Prop
  | star {pattern spec : String} {beginning matched : List Char} : pattern.toList = beginning ++ ['*'] →
      spec.toList = beginning ++ matched → Matches pattern spec matched
  | itself {pattern : String} : ¬['*'] <:+ pattern.toList → Matches pattern pattern []

theorem match?_eq_some_iff : match? pattern spec = some matched ↔ Matches pattern spec matched := by
  unfold match?
  split
  next beginning hpattern =>
    have hstar : pattern.toList = beginning.reverse ++ ['*'] := by
      rw [← List.reverse_reverse pattern.toList, hpattern, List.reverse_cons]
    rw [Text.after?_eq_some]
    constructor
    · exact .star hstar
    · rintro (⟨hother, hspec⟩ | hother)
      · rw [List.append_cancel_right (hstar.symm.trans hother), hspec]
      · exact absurd ⟨_, hstar.symm⟩ hother
  next hpattern =>
    have hother : ¬['*'] <:+ pattern.toList := by
      rintro ⟨beginning, hstar⟩
      exact hpattern beginning.reverse (by rw [← hstar, List.reverse_append]; rfl)
    constructor
    · intro h
      obtain ⟨rfl, hmatched⟩ := Option.ite_none_right_eq_some.mp h
      cases hmatched
      exact .itself hother
    · rintro (⟨hstar, -⟩ | -)
      · exact absurd ⟨_, hstar.symm⟩ hother
      · exact if_pos rfl

/-- A text with another one in the place of each of its stars: what stands between the stars, joined by the other one. -/
def filled (matched target : List Char) : List Char :=
  matched.intercalate (Text.pieces (· == '*') target)

theorem filled_eq_flatMap (matched target : List Char) :
    filled matched target = target.flatMap fun c => if c = '*' then matched else [c] := by
  induction target with
  | nil => rfl
  | cons c target ih =>
    obtain ⟨w, ws, hpieces⟩ := Text.exists_pieces (· == '*') target
    rw [List.flatMap_cons, ← ih, filled, filled, hpieces]
    by_cases hc : c = '*'
    · rw [Text.pieces_sep (by simpa using hc), hpieces, if_pos hc, List.intercalate_cons_cons, List.nil_append]
    · rw [Text.pieces_cons (by simpa using hc) hpieces, if_neg hc]
      cases ws with
      | nil => rfl
      | cons v ws => rw [List.intercalate_cons_cons, List.intercalate_cons_cons]; rfl

/-- The path of a target with the matched part in the place of its stars. A target without stars stays as it is, also
where not all of it can be shown. -/
def filledPath (matched : List Char) (target : Path) : Path :=
  if '*' ∈ target.text.toList then ⟨String.ofList (filled matched target.text.toList)⟩ else target

theorem expand_eq_filledPath (target : Path) (matched : List Char) : expand target matched = filledPath matched target := by
  rw [expand, filledPath, filled_eq_flatMap]

/-- What is found for a specifier under some patterns: the filled targets of all patterns that match it, in the order of
the patterns. -/
inductive Found (spec : String) : List (String × List Path) → List Path → Prop
  | nil : Found spec [] []
  | hit {pattern : String} {targets : List Path} {matched : List Char} {paths : List (String × List Path)}
      {found : List Path} : Matches pattern spec matched → Found spec paths found →
      Found spec ((pattern, targets) :: paths) (targets.map (filledPath matched) ++ found)
  | miss {pattern : String} {targets : List Path} {paths : List (String × List Path)} {found : List Path} :
      (∀ matched, ¬Matches pattern spec matched) → Found spec paths found → Found spec ((pattern, targets) :: paths) found

theorem exists_found (spec : String) (baseUrl : Option Path) (paths : List (String × List Path)) :
    ∃ found, Found spec paths found ∧
      candidates ⟨baseUrl, paths⟩ spec = found ++ (baseUrl.map fun base => base.join ⟨spec⟩).toList := by
  induction paths with
  | nil => exact ⟨[], .nil, rfl⟩
  | cons entry paths ih =>
    obtain ⟨pattern, targets⟩ := entry
    obtain ⟨found, hfound, hcandidates⟩ := ih
    simp only [candidates, List.flatMap_cons, List.append_assoc] at hcandidates ⊢
    rw [hcandidates]
    cases hmatch : match? pattern spec with
    | some matched =>
      refine ⟨targets.map (filledPath matched) ++ found, .hit (match?_eq_some_iff.mp hmatch) hfound, ?_⟩
      simp only [expand_eq_filledPath, List.append_assoc]
    | none =>
      refine ⟨found, .miss (fun matched hm => ?_) hfound, rfl⟩
      exact absurd (hmatch.symm.trans (match?_eq_some_iff.mpr hm)) nofun

end Search

/-- The table of a configuration does not depend on the order in which the configuration lists its patterns, nor on the
order in which a map of them hands them out. Its patterns all differ and stand in strict order, longer ones first. The
candidates of a specifier are the filled targets of exactly the patterns that match it, in this order, and at last the
specifier under the base directory, if there is one. -/
theorem table_ordered (root : Path) :
    (∀ text text' j j', Json.parse? (Comment.stripCurly text) = some j →
      Json.parse? (Comment.stripCurly text') = some j' → PathsPermuted j j' →
      parse? root text = parse? root text') ∧
    (∀ baseUrl entries entries', entries.Perm entries' → (entries.map Prod.fst).Nodup →
      ofOptions root ⟨baseUrl, some entries⟩ = ofOptions root ⟨baseUrl, some entries'⟩) ∧
    ∀ text table, parse? root text = some table → table.paths.Pairwise Before ∧
      ∀ spec, ∃ found, Found spec table.paths found ∧
        table.candidates spec = found ++ (table.baseUrl.map fun base => base.join ⟨spec⟩).toList := by
  refine ⟨fun _ _ _ _ hj hj' h => parse?_eq_of_permuted root hj hj' h,
    fun baseUrl _ _ h hkeys => ofOptions_eq_of_perm root baseUrl h hkeys, fun text table htable => ⟨?_, fun spec => ?_⟩⟩
  · obtain ⟨options, hkeys, rfl⟩ := exists_options_of_parse? htable
    exact stableSort_before (by rwa [← map_fst_entriesUnder] at hkeys)
  · exact exists_found spec table.baseUrl table.paths

def configuration (paths : List (String × List String)) : Json :=
  .ofMembers [("compilerOptions", .ofMembers [("baseUrl", .ofText "."),
    ("paths", .ofMembers (paths.map fun e => (e.1, .ofTexts e.2)))])]

theorem wellSpelled_configuration (paths : List (String × List String)) : (configuration paths).WellSpelled := by
  unfold configuration
  refine Json.wellSpelled_ofMembers (List.forall_mem_singleton.mpr (Json.wellSpelled_ofMembers ?_))
  refine List.forall_mem_cons.mpr ⟨Json.wellSpelled_ofText _, List.forall_mem_singleton.mpr ?_⟩
  refine Json.wellSpelled_ofMembers fun m hm => ?_
  obtain ⟨e, -, rfl⟩ := List.mem_map.mp hm
  exact Json.wellSpelled_ofTexts e.2

/-- Two patterns make the same table in both orders, and the longer one comes first. -/
theorem table_ordered_of_two :
    let j := configuration [("@/*", ["src/*"]), ("@ui/*", ["ui/*", "lib/ui/*"])]
    let j' := configuration [("@ui/*", ["ui/*", "lib/ui/*"]), ("@/*", ["src/*"])]
    PathsPermuted j j' ∧ parse? ⟨"/repo"⟩ j.pretty = parse? ⟨"/repo"⟩ j'.pretty ∧
      (parse? ⟨"/repo"⟩ j.pretty).map (fun table => table.paths.map Prod.fst) = some ["@ui/*", "@/*"] := by
  intro j j'
  have hj : Json.parse? (Comment.stripCurly j.pretty) = some j := by
    have hstrip : Comment.stripCurly j.pretty = j.pretty := by decide +kernel
    rw [hstrip]
    exact (wellSpelled_configuration _).parse?_pretty
  have hj' : Json.parse? (Comment.stripCurly j'.pretty) = some j' := by
    have hstrip : Comment.stripCurly j'.pretty = j'.pretty := by decide +kernel
    rw [hstrip]
    exact (wellSpelled_configuration _).parse?_pretty
  have hperm : PathsPermuted j j' :=
    @Json.FieldDiffers.member _ _ _ [] [] _ _ _ (by decide +kernel)
      (@Json.FieldDiffers.member _ _ _ [_] [] _ _ _ (by decide +kernel) (.object (.swap _ _ _) (by decide +kernel)))
  exact ⟨hperm, (table_ordered ⟨"/repo"⟩).1 _ _ j j' hj hj' hperm, by decide +kernel⟩

end AliasTable

end ModuleGraph
