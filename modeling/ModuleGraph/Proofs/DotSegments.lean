import ModuleGraph.Proofs.SuggestedDomain

namespace ModuleGraph.Cluster

def dotted (directory : String) : String :=
  "./" ++ directory

section Segments

theorem segments_dotted (d : String) : segments (dotted d) = rootName :: segments d := by
  have htext : (dotted d).toList = ['.'] ++ '/' :: d.toList := by
    rw [dotted, String.toList_append]
    rfl
  rw [segments, segments, htext, Text.pieces_append_sep (by rfl), List.map_append]
  rfl

theorem filledSegments_dotted (d : String) : filledSegments (dotted d) = rootName :: filledSegments d := by
  rw [filledSegments, segments_dotted]
  exact List.filter_cons_of_pos (by decide)

theorem key_dotted (d : String) : key (dotted d) = key d := by
  rw [key, segments_dotted, List.find?_cons_of_neg (by decide)]
  rfl

theorem foldl_commonStart_dotted (ds start : List String) :
    (ds.map dotted).foldl (fun shared d => commonStart shared (filledSegments d)) (rootName :: start) =
      rootName :: ds.foldl (fun shared d => commonStart shared (filledSegments d)) start := by
  induction ds generalizing start with
  | nil => rfl
  | cons d ds ih =>
    rw [List.map_cons, List.foldl_cons, List.foldl_cons, filledSegments_dotted, commonStart, if_pos rfl, ih]

theorem sharedStart_dotted {ds : List String} (hne : ds ≠ []) :
    sharedStart (ds.map dotted) = rootName :: sharedStart ds := by
  obtain ⟨first, rest, rfl⟩ := List.exists_cons_of_ne_nil hne
  rw [List.map_cons, sharedStart, filledSegments_dotted, foldl_commonStart_dotted, sharedStart]

end Segments

section Uneven

def leadingDots (directory : String) : Nat :=
  ((filledSegments directory).takeWhile (· = rootName)).length

def Uneven (directories : List String) : Prop :=
  ∃ d ∈ directories, ∃ e ∈ directories, leadingDots d ≠ leadingDots e

theorem leadingDots_pos_iff {d : String} : 0 < leadingDots d ↔ [rootName] <+: filledSegments d := by
  unfold leadingDots
  cases filledSegments d with
  | nil => simp
  | cons s rest =>
    by_cases hs : s = rootName
    · simp [hs]
    · simp [hs, Ne.symm hs]

theorem leadingDots_eq {d s : String} {dots rest : List String} (hdots : ∀ t ∈ dots, t = rootName) (hs : s ≠ rootName)
    (hd : dots ++ s :: rest <+: filledSegments d) : leadingDots d = dots.length := by
  obtain ⟨more, hmore⟩ := hd
  rw [leadingDots, ← hmore, List.append_assoc, List.takeWhile_append_of_pos (by simpa using hdots)]
  simp [hs]

variable {directories : List String} {generic : List String}

theorem Uneven.eq_rootName (h : Uneven directories) {s : String} (hs : s ∈ sharedStart directories) :
    s = rootName := by
  obtain ⟨d, hd, e, he, hne⟩ := h
  have hstart := sharedStart_isLongestStart (List.ne_nil_of_mem hd)
  by_contra hroot
  -- The first segment that is no dot would end the dots of all directories at the same place.
  obtain ⟨t, ht⟩ : ∃ t, (sharedStart directories).find? (· ≠ rootName) = some t :=
    Option.isSome_iff_exists.mp (List.find?_isSome.mpr ⟨s, hs, decide_eq_true hroot⟩)
  obtain ⟨hroot', dots, rest, hsplit, hdots⟩ := List.find?_eq_some_iff_append.mp ht
  have hall : ∀ d ∈ directories, leadingDots d = dots.length := by
    intro d hd
    have hshared : dots ++ t :: rest <+: filledSegments d := hsplit ▸ hstart.shared d hd
    exact leadingDots_eq (by simpa using hdots) (of_decide_eq_true hroot') hshared
  exact hne ((hall d hd).trans (hall e he).symm)

theorem rootName_mem_sharedStart (h : Uneven directories) :
    rootName ∈ sharedStart directories ↔ ∀ d ∈ directories, 0 < leadingDots d := by
  obtain ⟨d₀, hd₀, -⟩ := id h
  have hstart := sharedStart_isLongestStart (List.ne_nil_of_mem hd₀)
  constructor
  · intro hmem d hd
    obtain ⟨s, rest, hcons⟩ := List.exists_cons_of_ne_nil (List.ne_nil_of_mem hmem)
    have hs : s = rootName := h.eq_rootName (hcons ▸ List.mem_cons_self)
    have hfirst : [rootName] <+: sharedStart directories := by
      rw [hcons, hs]
      exact ⟨rest, rfl⟩
    exact leadingDots_pos_iff.mpr (hfirst.trans (hstart.shared d hd))
  · intro hdots
    have hfirst := hstart.longest [rootName] fun d hd => leadingDots_pos_iff.mp (hdots d hd)
    exact hfirst.mem List.mem_cons_self

/-- Of directories with different numbers of leading dots the domain sees only whether all have a dot. -/
theorem Uneven.suggestDomain_eq (h : Uneven directories) {name : String} (hkey : ∀ d ∈ directories, key d = name) :
    (((∀ d ∈ directories, 0 < leadingDots d) ∧ ¬Generic generic rootName) →
        suggestDomain directories name generic = rootName) ∧
      (¬((∀ d ∈ directories, 0 < leadingDots d) ∧ ¬Generic generic rootName) →
        suggestDomain directories name generic = keyDomain generic name) := by
  obtain ⟨d, hd, -⟩ := id h
  have hne := List.ne_nil_of_mem hd
  have hdomain := @suggestDomain_isDomain generic directories name hne hkey
  rw [← rootName_mem_sharedStart h]
  constructor
  · rintro ⟨hmem, hgeneric⟩
    exact h.eq_rootName (hdomain.last_of_start _ (sharedStart_isLongestStart hne) ⟨_, hmem, hgeneric⟩).mem
  · intro hnot
    refine hdomain.of_key _ (sharedStart_isLongestStart hne) fun s hs => ?_
    by_contra hgeneric
    have hroot := h.eq_rootName hs
    exact hnot ⟨hroot ▸ hs, hroot ▸ hgeneric⟩

end Uneven

section Domain

variable {directories : List String} {generic : List String} {name : String}

theorem keyDomain_ne_rootName (generic : List String) (name : String) : keyDomain generic name ≠ rootName := by
  rcases keyDomain_eq_fallback_or generic name with h | ⟨h, hroot, -⟩
  · rw [h]
    decide
  · rwa [h]

theorem IsLastMeaningful.cons {segments : List String} {s : String} (h : IsLastMeaningful generic segments s)
    (t : String) : IsLastMeaningful generic (t :: segments) s := by
  obtain ⟨before, after, rfl, hs, hafter⟩ := h
  exact ⟨t :: before, after, rfl, hs, hafter⟩

/-- With a dot in front of all directories the domain stays the same just if they share a segment that means something,
or if the dot is generic. -/
theorem suggestDomain_dotted_iff (hne : directories ≠ []) (hkey : ∀ d ∈ directories, key d = name) :
    suggestDomain (directories.map dotted) name generic = suggestDomain directories name generic ↔
      (∃ s ∈ sharedStart directories, ¬Generic generic s) ∨ Generic generic rootName := by
  have hdomain := @suggestDomain_isDomain generic directories name hne hkey
  have hstart := sharedStart_isLongestStart hne
  have hkey' : ∀ d ∈ directories.map dotted, key d = name := by
    intro _ hmem
    obtain ⟨d, hd, rfl⟩ := List.mem_map.mp hmem
    rw [key_dotted, hkey d hd]
  have hne' : directories.map dotted ≠ [] := fun h => hne (List.map_eq_nil_iff.mp h)
  have hdomain' := @suggestDomain_isDomain generic (directories.map dotted) name hne' hkey'
  have hstart' := sharedStart_isLongestStart hne'
  rw [sharedStart_dotted hne] at hstart'
  by_cases hmeans : ∃ s ∈ sharedStart directories, ¬Generic generic s
  · have hlast := hdomain.last_of_start _ hstart hmeans
    have hsame := suggestDomain_of_last name (sharedStart_dotted hne ▸ hlast.cons rootName)
    exact iff_of_true hsame (.inl hmeans)
  · have hgeneric : ∀ s ∈ sharedStart directories, Generic generic s := by
      intro s hs
      by_contra hnot
      exact hmeans ⟨s, hs, hnot⟩
    rw [hdomain.of_key _ hstart hgeneric]
    by_cases hroot : Generic generic rootName
    · have hall := List.forall_mem_cons.mpr ⟨hroot, hgeneric⟩
      exact iff_of_true (hdomain'.of_key _ hstart' hall) (.inr hroot)
    · have hdot : suggestDomain (directories.map dotted) name generic = rootName :=
        suggestDomain_of_last name ⟨[], sharedStart directories, sharedStart_dotted hne, hroot, hgeneric⟩
      rw [hdot]
      exact iff_of_false (keyDomain_ne_rootName generic name).symm (not_or.mpr ⟨hmeans, hroot⟩)

theorem suggestDomain_eq_rootName_iff (hne : directories ≠ []) (hkey : ∀ d ∈ directories, key d = name) :
    suggestDomain directories name generic = rootName ↔
      IsLastMeaningful generic (sharedStart directories) rootName := by
  have hdomain := @suggestDomain_isDomain generic directories name hne hkey
  have hstart := sharedStart_isLongestStart hne
  constructor
  · intro hroot
    rw [← hroot]
    refine hdomain.last_of_start _ hstart ?_
    by_contra hnone
    push Not at hnone
    exact keyDomain_ne_rootName generic name ((hdomain.of_key _ hstart hnone).symm.trans hroot)
  · exact suggestDomain_of_last name

end Domain

section Grouping

/-- A member whose directory may have got a dot segment in front. -/
structure MayBeDotted (m m' : Member) : Prop where
  id : m'.id = m.id
  directory : m'.directory = m.directory ∨ m'.directory = dotted m.directory

theorem MayBeDotted.key_eq {m m' : Member} (h : MayBeDotted m m') : key m'.directory = key m.directory := by
  rcases h.directory with hd | hd
  · rw [hd]
  · rw [hd, key_dotted]

/-- What dots in front of directories do to a cluster. Name, members and counts stay, and the domain fits the directories
as they are now. It stays if no directory of the cluster is changed. If all of them are, it stays just when they share a
segment that means something or the dot is generic. If the directories end up with different numbers of dots, it is the
dot or what the key suggests. It is the dot just when the last meaningful segment that the directories share is one. -/
structure Redotted (generic directories directories' : List String) (c c' : Cluster) : Prop where
  name : c'.name = c.name
  nodes : c'.nodes = c.nodes
  internalEdges : c'.internalEdges = c.internalEdges
  externalEdges : c'.externalEdges = c.externalEdges
  domain_fits : IsDomain generic c.name directories' c'.suggestedDomain
  none_dotted : directories' = directories → c'.suggestedDomain = c.suggestedDomain
  all_dotted : directories' = directories.map dotted → (c'.suggestedDomain = c.suggestedDomain ↔
    (∃ s ∈ sharedStart directories, ¬Generic generic s) ∨ Generic generic rootName)
  uneven : Uneven directories' →
    (((∀ d ∈ directories', 0 < leadingDots d) ∧ ¬Generic generic rootName) → c'.suggestedDomain = rootName) ∧
      (¬((∀ d ∈ directories', 0 < leadingDots d) ∧ ¬Generic generic rootName) →
        c'.suggestedDomain = keyDomain generic c.name)
  dot_iff : c'.suggestedDomain = rootName ↔ IsLastMeaningful generic (sharedStart directories') rootName

variable {members members' : List Member} (h : List.Forall₂ MayBeDotted members members')
include h

theorem keysOf_dotted : keysOf members' = keysOf members := by
  induction h with
  | nil => rfl
  | cons hm _ ih => exact congrArg₂ List.cons hm.key_eq ih

theorem membersOf_dotted (name : String) :
    List.Forall₂ MayBeDotted (membersOf members name) (membersOf members' name) := by
  refine List.rel_filter ?_ h
  intro m m' hm
  simp only [hm.key_eq]

theorem map_id_dotted : members'.map Member.id = members.map Member.id := by
  induction h with
  | nil => rfl
  | cons hm _ ih => exact congrArg₂ List.cons hm.id ih

/-- With dots in front of some directories the members have the same keys, and the clusters are the same but for the
domains, of which each is known. -/
theorem group_of_dotted (edges : List (Nat × Nat)) (generic : List String) :
    (group members' edges generic).2 = (group members edges generic).2 ∧
      List.Forall₂ (fun c c' => Redotted generic (directoriesOf members c.name) (directoriesOf members' c.name) c c')
        (group members edges generic).1 (group members' edges generic).1 := by
  have hkeys := keysOf_dotted h
  refine ⟨hkeys, ?_⟩
  rw [group_eq, group_eq, hkeys, List.forall₂_map_left_iff, List.forall₂_map_right_iff, List.forall₂_same]
  intro name hname
  have hmem := mem_names.mp hname
  have hne := directoriesOf_ne_nil hmem
  have hne' := directoriesOf_ne_nil (hkeys ▸ hmem)
  refine
    { name := rfl
      nodes := map_id_dotted (membersOf_dotted h name)
      internalEdges := ?_
      externalEdges := ?_
      domain_fits := suggestDomain_isDomain hne' fun _ => key_of_mem_directoriesOf
      none_dotted := ?_
      all_dotted := ?_
      uneven := fun huneven => huneven.suggestDomain_eq fun _ => key_of_mem_directoriesOf
      dot_iff := suggestDomain_eq_rootName_iff hne' fun _ => key_of_mem_directoriesOf }
  · exact congrArg (countInternal · edges name) hkeys
  · exact congrArg (countExternal · edges name) hkeys
  · intro hsame
    exact congrArg (suggestDomain · name generic) hsame
  · intro (hall : directoriesOf members' name = (directoriesOf members name).map dotted)
    have hiff := @suggestDomain_dotted_iff _ generic name hne fun _ => key_of_mem_directoriesOf
    rw [← hall] at hiff
    exact hiff

end Grouping

/-- A dot in front of both directories of a cluster that share a segment with a meaning changes nothing. -/
theorem group_of_dotted_auth :
    let members : List Member := [⟨"src/auth/a.ts", "src/auth"⟩, ⟨"src/auth/b.ts", "src/auth"⟩]
    let members' : List Member := [⟨"src/auth/a.ts", "./src/auth"⟩, ⟨"src/auth/b.ts", "./src/auth"⟩]
    List.Forall₂ MayBeDotted members members' ∧ group members' [(0, 1)] ["src"] = group members [(0, 1)] ["src"] ∧
      (group members' [(0, 1)] ["src"]).2 = (group members [(0, 1)] ["src"]).2 ∧
      List.Forall₂ (fun c c' => Redotted ["src"] (directoriesOf members c.name) (directoriesOf members' c.name) c c')
        (group members [(0, 1)] ["src"]).1 (group members' [(0, 1)] ["src"]).1 := by
  intro members members'
  have hdotted : List.Forall₂ MayBeDotted members members' :=
    .cons ⟨rfl, .inr rfl⟩ (.cons ⟨rfl, .inr rfl⟩ .nil)
  exact ⟨hdotted, by decide +kernel, group_of_dotted hdotted [(0, 1)] ["src"]⟩

/-- A dot in front of the only directory of a cluster becomes its domain, and one in front of one of two equal
directories hides the segment that they share. -/
theorem domains_changed_by_dots :
    let members : List Member := [⟨"lib/a.ts", "lib"⟩, ⟨"src/auth/b.ts", "src/auth"⟩, ⟨"src/auth/c.ts", "src/auth"⟩]
    let members' : List Member :=
      [⟨"lib/a.ts", "./lib"⟩, ⟨"src/auth/b.ts", "./src/auth"⟩, ⟨"src/auth/c.ts", "src/auth"⟩]
    List.Forall₂ MayBeDotted members members' ∧
      (group members [] ["src", "lib"]).1.map (·.suggestedDomain) = ["core", "auth"] ∧
      (group members' [] ["src", "lib"]).1.map (·.suggestedDomain) = [".", "core"] := by
  intro members members'
  have hdotted : List.Forall₂ MayBeDotted members members' :=
    .cons ⟨rfl, .inr rfl⟩ (.cons ⟨rfl, .inr rfl⟩ (.cons ⟨rfl, .inl rfl⟩ .nil))
  exact ⟨hdotted, by decide +kernel, by decide +kernel⟩

end ModuleGraph.Cluster
