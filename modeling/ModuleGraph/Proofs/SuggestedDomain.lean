import ModuleGraph.Proofs.ClusterPartition
import ModuleGraph.Proofs.TextPieces

namespace ModuleGraph.Cluster

section CommonStart

/-- The longest segments that all of some directories start with. -/
structure IsLongestStart (directories start : List String) : Prop where
  shared : ∀ d ∈ directories, start <+: filledSegments d
  longest : ∀ other, (∀ d ∈ directories, other <+: filledSegments d) → other <+: start

theorem IsLongestStart.unique {directories start start' : List String} (h : IsLongestStart directories start)
    (h' : IsLongestStart directories start') : start = start' := by
  have hle := h'.longest start h.shared
  have hge := h.longest start' h'.shared
  exact hle.eq_of_length (Nat.le_antisymm hle.length_le hge.length_le)

theorem prefix_commonStart_iff {p as bs : List String} : p <+: commonStart as bs ↔ p <+: as ∧ p <+: bs := by
  induction as generalizing p bs with
  | nil =>
    simp only [commonStart, List.prefix_nil]
    exact ⟨fun h => ⟨h, h ▸ List.nil_prefix⟩, And.left⟩
  | cons a as ih =>
    cases bs with
    | nil =>
      simp only [commonStart, List.prefix_nil]
      exact ⟨fun h => ⟨h ▸ List.nil_prefix, h⟩, And.right⟩
    | cons b bs =>
      cases p with
      | nil => simp
      | cons x p =>
        by_cases hab : a = b
        · simp only [commonStart, hab, if_true, List.cons_prefix_cons, ih]
          tauto
        · simp only [commonStart, hab, if_false, List.prefix_nil, List.cons_prefix_cons]
          constructor
          · intro h
            cases h
          · rintro ⟨⟨rfl, -⟩, hxb, -⟩
            exact absurd hxb hab

theorem prefix_foldl_commonStart_iff {p start : List String} {ds : List String} :
    p <+: ds.foldl (fun shared d => commonStart shared (filledSegments d)) start ↔
      p <+: start ∧ ∀ d ∈ ds, p <+: filledSegments d := by
  induction ds generalizing start with
  | nil => simp
  | cons d ds ih => rw [List.foldl_cons, ih, prefix_commonStart_iff, List.forall_mem_cons, and_assoc]

theorem sharedStart_isLongestStart {directories : List String} (hne : directories ≠ []) :
    IsLongestStart directories (sharedStart directories) := by
  obtain ⟨first, rest, rfl⟩ := List.exists_cons_of_ne_nil hne
  have hiff : ∀ p, p <+: sharedStart (first :: rest) ↔ ∀ d ∈ first :: rest, p <+: filledSegments d := by
    intro p
    rw [sharedStart, prefix_foldl_commonStart_iff, List.forall_mem_cons]
  exact ⟨(hiff _).mp (List.prefix_refl _), fun other => (hiff other).mpr⟩

end CommonStart

section Segments

theorem mem_filledSegments {d s : String} : s ∈ filledSegments d ↔ s ∈ segments d ∧ s ≠ "" := by
  simp [filledSegments]

theorem no_slash_of_mem_segments {d s : String} (hs : s ∈ segments d) : ∀ c ∈ s.toList, (c == '/') = false := by
  obtain ⟨w, hw, rfl⟩ := List.mem_map.mp hs
  rw [String.toList_ofList]
  exact fun c hc => (Text.mem_pieces hw c hc).2

theorem segments_of_no_slash {s : String} (h : ∀ c ∈ s.toList, (c == '/') = false) : segments s = [s] := by
  rw [segments, Text.pieces_of_forall h, List.map_singleton, String.ofList_toList]

theorem key_mem_filledSegments {d : String} (h : key d ≠ rootName) : key d ∈ filledSegments d := by
  unfold key at h ⊢
  cases hfound : (segments d).find? fun s => s ≠ "" ∧ s ≠ rootName with
  | none =>
    rw [hfound] at h
    exact absurd rfl h
  | some s =>
    have hs := List.find?_some hfound
    simp only [decide_eq_true_eq] at hs
    exact mem_filledSegments.mpr ⟨List.mem_of_find?_eq_some hfound, hs.1⟩

theorem key_ne_empty (d : String) : key d ≠ "" := by
  by_cases h : key d = rootName
  · rw [h]
    decide
  · exact (mem_filledSegments.mp (key_mem_filledSegments h)).2

theorem segments_key (d : String) : segments (key d) = [key d] := by
  by_cases h : key d = rootName
  · rw [h]
    decide
  · exact segments_of_no_slash (no_slash_of_mem_segments (mem_filledSegments.mp (key_mem_filledSegments h)).1)

end Segments

section Letters

/-- Two characters are the same, or one is the small form of the other, an ASCII capital. -/
def SameLetter (c d : Char) : Prop :=
  c = d ∨ c.isUpper ∧ d.toNat = c.toNat + 32 ∨ d.isUpper ∧ c.toNat = d.toNat + 32

theorem isUpper_iff {c : Char} : c.isUpper = true ↔ 65 ≤ c.toNat ∧ c.toNat ≤ 90 :=
  decide_eq_true_iff

theorem toNat_toLower (c : Char) : c.toLower.toNat = if c.isUpper then c.toNat + 32 else c.toNat := by
  unfold Char.toLower
  by_cases hc : c.isUpper
  · have hbounds := isUpper_iff.mp hc
    rw [if_pos hc, dif_pos (show c.val ≥ 'A'.val ∧ c.val ≤ 'Z'.val from hbounds)]
    have hdistance : ('a'.val - 'A'.val).toNat = 32 := by decide
    have hsum := UInt32.toNat_add c.val ('a'.val - 'A'.val)
    simp only [Char.toNat] at hbounds ⊢
    omega
  · rw [if_neg hc, dif_neg (show ¬(c.val ≥ 'A'.val ∧ c.val ≤ 'Z'.val) from mt isUpper_iff.mpr hc)]

theorem toLower_eq_iff {c d : Char} : c.toLower = d.toLower ↔ SameLetter c d := by
  rw [← Char.toNat_inj, toNat_toLower, toNat_toLower, SameLetter, ← Char.toNat_inj]
  simp only [isUpper_iff]
  split <;> split <;> omega

/-- A segment is generic: it is one of the generic ones, but for the case of ASCII letters. -/
def Generic (generic : List String) (s : String) : Prop :=
  ∃ g ∈ generic, List.Forall₂ SameLetter g.toList s.toList

theorem isGeneric_iff {generic : List String} {s : String} : isGeneric generic s = true ↔ Generic generic s := by
  have hlowered : ∀ g, lowered g = lowered s ↔ List.Forall₂ SameLetter g.toList s.toList := by
    intro g
    rw [lowered, lowered, String.ofList_inj, ← List.forall₂_eq_eq_eq, List.forall₂_map_left_iff,
      List.forall₂_map_right_iff]
    simp only [toLower_eq_iff]
  simp only [isGeneric, List.any_eq_true, beq_iff_eq, hlowered, Generic]

end Letters

section Domain

/-- A segment is the last one of some segments that is not generic. -/
def IsLastMeaningful (generic segments : List String) (s : String) : Prop :=
  ∃ before after, segments = before ++ s :: after ∧ ¬Generic generic s ∧ ∀ t ∈ after, Generic generic t

def keyDomain (generic : List String) (name : String) : String :=
  if name = rootName ∨ isGeneric generic name then fallbackDomain else name

variable {generic : List String}

theorem find?_reverse_eq_some_iff {segments : List String} {s : String} :
    (segments.reverse.find? fun s => !isGeneric generic s) = some s ↔ IsLastMeaningful generic segments s := by
  simp only [List.find?_eq_some_iff_append, Bool.not_eq_true', Bool.not_not, IsLastMeaningful, ← isGeneric_iff,
    Bool.not_eq_true]
  constructor
  · rintro ⟨hs, after, before, hsegments, hafter⟩
    refine ⟨before.reverse, after.reverse, ?_, hs, fun t ht => hafter t (List.mem_reverse.mp ht)⟩
    rw [← List.reverse_reverse segments, hsegments]
    simp
  · rintro ⟨before, after, rfl, hs, hafter⟩
    exact ⟨hs, after.reverse, before.reverse, by simp, fun t ht => hafter t (List.mem_reverse.mp ht)⟩

theorem find?_reverse_eq_none_iff {segments : List String} :
    (segments.reverse.find? fun s => !isGeneric generic s) = none ↔ ∀ s ∈ segments, Generic generic s := by
  simp [List.find?_eq_none, ← isGeneric_iff]

theorem suggestDomain_of_last {directories : List String} {s : String} (key : String)
    (h : IsLastMeaningful generic (sharedStart directories) s) : suggestDomain directories key generic = s := by
  simp [suggestDomain, find?_reverse_eq_some_iff.mpr h]

theorem suggestDomain_of_generic {directories : List String} {name : String} (hname : segments name = [name])
    (hne : name ≠ "") (h : ∀ s ∈ sharedStart directories, Generic generic s) :
    suggestDomain directories name generic = keyDomain generic name := by
  simp only [suggestDomain, find?_reverse_eq_none_iff.mpr h, hname, keyDomain]
  by_cases hroot : name = rootName
  · simp [hroot]
  · by_cases hgeneric : isGeneric generic name
    · simp [hgeneric]
    · simp [hne, hroot, hgeneric]

theorem exists_isLastMeaningful {segments : List String} (h : ∃ s ∈ segments, ¬Generic generic s) :
    ∃ s, IsLastMeaningful generic segments s := by
  cases hfound : segments.reverse.find? fun s => !isGeneric generic s with
  | none =>
    obtain ⟨s, hs, hnot⟩ := h
    exact absurd (find?_reverse_eq_none_iff.mp hfound s hs) hnot
  | some s => exact ⟨s, find?_reverse_eq_some_iff.mp hfound⟩

theorem IsLastMeaningful.mem {segments : List String} {s : String} (h : IsLastMeaningful generic segments s) :
    s ∈ segments := by
  obtain ⟨before, after, rfl, -⟩ := h
  simp

theorem IsLastMeaningful.not_generic {segments : List String} {s : String} (h : IsLastMeaningful generic segments s) :
    ¬Generic generic s := by
  obtain ⟨_, _, _, hs, _⟩ := h
  exact hs

theorem keyDomain_eq_fallback_or (generic : List String) (name : String) :
    keyDomain generic name = fallbackDomain ∨
      keyDomain generic name = name ∧ name ≠ rootName ∧ ¬Generic generic name := by
  unfold keyDomain
  split
  case isTrue => exact .inl rfl
  case isFalse h =>
    rw [not_or, isGeneric_iff] at h
    exact .inr ⟨rfl, h⟩

/-- A domain fits some directories with a common key: it is the fallback, or it means something and stands in all of
them; and it is the last meaningful segment of their longest start where that has one, else what the key suggests. -/
structure IsDomain (generic : List String) (name : String) (directories : List String) (domain : String) : Prop where
  shared : domain = fallbackDomain ∨ ¬Generic generic domain ∧ ∀ d ∈ directories, domain ∈ filledSegments d
  last_of_start : ∀ start, IsLongestStart directories start → (∃ s ∈ start, ¬Generic generic s) →
    IsLastMeaningful generic start domain
  of_key : ∀ start, IsLongestStart directories start → (∀ s ∈ start, Generic generic s) →
    domain = keyDomain generic name

theorem suggestDomain_isDomain {directories : List String} {name : String} (hne : directories ≠ [])
    (hkey : ∀ d ∈ directories, key d = name) :
    IsDomain generic name directories (suggestDomain directories name generic) := by
  have hstart := sharedStart_isLongestStart hne
  obtain ⟨d, hd⟩ := List.exists_mem_of_ne_nil directories hne
  have hsegments : segments name = [name] := hkey d hd ▸ segments_key d
  have hfilled : name ≠ "" := hkey d hd ▸ key_ne_empty d
  by_cases hall : ∀ s ∈ sharedStart directories, Generic generic s
  · have hdomain := suggestDomain_of_generic hsegments hfilled hall
    rw [hdomain]
    refine ⟨?_, ?_, fun _ _ _ => rfl⟩
    · rcases keyDomain_eq_fallback_or generic name with hfallback | ⟨hname, hroot, hgeneric⟩
      · exact .inl hfallback
      · rw [hname]
        refine .inr ⟨hgeneric, fun d hd => ?_⟩
        have hmem : key d ∈ filledSegments d := key_mem_filledSegments (hkey d hd ▸ hroot)
        rwa [hkey d hd] at hmem
    · rintro start hlongest ⟨s, hs, hnot⟩
      exact absurd (hall s (hlongest.unique hstart ▸ hs)) hnot
  · push Not at hall
    obtain ⟨s, hs⟩ := exists_isLastMeaningful hall
    rw [suggestDomain_of_last name hs]
    refine ⟨.inr ⟨hs.not_generic, fun d hd => (hstart.shared d hd).mem hs.mem⟩, ?_, ?_⟩
    · intro start hlongest _
      rwa [hlongest.unique hstart]
    · intro start hlongest hgeneric
      exact absurd (hgeneric s (hlongest.unique hstart ▸ hs.mem)) hs.not_generic

def membersOf (members : List Member) (name : String) : List Member :=
  members.filter fun m => key m.directory == name

def directoriesOf (members : List Member) (name : String) : List String :=
  (membersOf members name).map Member.directory

theorem key_of_mem_directoriesOf {members : List Member} {name d : String} (hd : d ∈ directoriesOf members name) :
    key d = name := by
  obtain ⟨m, hm, rfl⟩ := List.mem_map.mp hd
  exact beq_iff_eq.mp (List.mem_filter.mp hm).2

theorem directoriesOf_ne_nil {members : List Member} {name : String} (h : name ∈ keysOf members) :
    directoriesOf members name ≠ [] := by
  obtain ⟨m, hm, rfl⟩ := List.mem_map.mp h
  have hmem : m ∈ membersOf members (key m.directory) := List.mem_filter.mpr ⟨hm, beq_self_eq_true _⟩
  exact List.ne_nil_of_mem (List.mem_map_of_mem hmem)

/-- Directories start with the same segments whatever their order, and these are the longest there are; the domain of
every cluster fits the directories of its members. -/
theorem group_domains_fit (directories : List String) (hne : directories ≠ []) (members : List Member)
    (edges : List (Nat × Nat)) (generic : List String) :
    IsLongestStart directories (sharedStart directories) ∧
      (∀ reordered, reordered.Perm directories → sharedStart reordered = sharedStart directories) ∧
      ∀ c ∈ (group members edges generic).1, c.nodes = (membersOf members c.name).map Member.id ∧
        IsDomain generic c.name (directoriesOf members c.name) c.suggestedDomain := by
  refine ⟨sharedStart_isLongestStart hne, fun _ h => sharedStart_eq_of_perm h, ?_⟩
  intro c hc
  obtain ⟨name, hname, rfl⟩ := List.mem_map.mp hc
  exact ⟨rfl, suggestDomain_isDomain (directoriesOf_ne_nil (mem_names.mp hname)) fun _ => key_of_mem_directoriesOf⟩

/-- A cluster with a generic key whose directories share a segment behind it, and one without any shared segment that
means something. -/
theorem group_domains_fit_of_two :
    let members : List Member := [⟨"SRC/auth/session/a.ts", "SRC/auth/session"⟩, ⟨"lib/db/b.ts", "lib/db"⟩,
      ⟨"SRC/auth/c.ts", "SRC/auth"⟩, ⟨"lib/web/d.ts", "lib/web"⟩]
    let generic := ["src", "lib"]
    sharedStart ["SRC/auth/session", "SRC/auth"] = ["SRC", "auth"] ∧
      (group members [] generic).1.map (fun c => (c.name, c.suggestedDomain)) = [("SRC", "auth"), ("lib", "core")] ∧
      IsLongestStart ["SRC/auth/session", "SRC/auth"] (sharedStart ["SRC/auth/session", "SRC/auth"]) ∧
      ∀ c ∈ (group members [] generic).1,
        IsDomain generic c.name (directoriesOf members c.name) c.suggestedDomain := by
  intro members generic
  obtain ⟨hstart, -, hdomains⟩ :=
    group_domains_fit ["SRC/auth/session", "SRC/auth"] (List.cons_ne_nil _ _) members [] generic
  exact ⟨by decide +kernel, by decide +kernel, hstart, fun c hc => (hdomains c hc).2⟩

end Domain

end ModuleGraph.Cluster
