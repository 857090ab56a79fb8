import ModuleGraph.FileTree.Discovery
import ModuleGraph.Proofs.Encoding
import ModuleGraph.Proofs.Reading
import ModuleGraph.Proofs.TextPieces
import Mathlib.Data.List.Induction

namespace ModuleGraph

open Text (pieces)

/-- A name that an entry of a directory can have. -/
def IsEntryName (n : RawText) : Prop :=
  n.toList ≠ [] ∧ n.toList ≠ [Path.dot] ∧ n.toList ≠ [Path.dot, Path.dot] ∧ Path.slash ∉ n.toList

instance (n : RawText) : Decidable (IsEntryName n) :=
  inferInstanceAs (Decidable (_ ∧ _ ∧ _ ∧ _))

theorem IsEntryName.ofPiece?_eq {n : RawText} (h : IsEntryName n) : Path.Component.ofPiece? n.toList = some (.name n) := by
  rw [Path.Component.ofPiece?, if_neg (not_or.mpr ⟨h.1, h.2.1⟩), if_neg h.2.2.1]

namespace Path

theorem bytes_slash : Utf8.bytes ['/'] = [slash] := rfl

theorem bytes_dot : Utf8.bytes ['.'] = [dot] := rfl

theorem isAbsolute_ofList_cons {c : Char} {s : List Char} : isAbsolute ⟨String.ofList (c :: s)⟩ = true ↔ c = '/' := by
  rw [isAbsolute, RawText.toList_ofString, String.toList_ofList, Utf8.bytes_cons,
    Text.startsWith_iff]
  constructor
  · rintro ⟨rest, hrest⟩
    by_contra hc
    obtain ⟨b, bs, hbytes⟩ := List.exists_cons_of_ne_nil (show Utf8.bytes [c] ≠ [] by simp)
    have hslash : slash ∉ Utf8.bytes [c] := Utf8.not_mem_bytes_of_ne bytes_slash hc
    rw [hbytes] at hrest hslash
    exact hslash ((List.cons.inj hrest).1 ▸ List.mem_cons_self)
  · rintro rfl
    exact ⟨Utf8.bytes s, rfl⟩

def stepsOf (s : List UInt8) : List Component :=
  (pieces (· == slash) s).filterMap Component.ofPiece?

theorem join_append {q : RawText} (hq : q.toList ≠ []) (p : Path) (s : RawText) :
    p.join ⟨q ++ s⟩ = ⟨(p.join ⟨q⟩).raw ++ s⟩ := by
  have habsolute : isAbsolute ⟨q ++ s⟩ = isAbsolute ⟨q⟩ := by
    obtain ⟨c, cs, hcs⟩ := List.exists_cons_of_ne_nil hq
    simp [isAbsolute, hcs, Text.startsWith, List.isPrefixOf]
  unfold join
  rw [habsolute]
  split
  · rfl
  · split <;> simp only [RawText.append_assoc]

section Join

variable {p q : Path} (hp : p.raw.toList ≠ []) (hq : q.isAbsolute = false)
include hp hq

theorem toList_join : (∃ s, p.raw.toList = s ++ [slash] ∧ (p.join q).raw.toList = p.raw.toList ++ q.raw.toList) ∨
    (p.join q).raw.toList = p.raw.toList ++ slash :: q.raw.toList := by
  rw [join, hq, if_neg Bool.false_ne_true]
  by_cases hend : Text.endsWith p.raw.toList [slash] = true
  · obtain ⟨s, hs⟩ := List.isSuffixOf_iff_suffix.mp hend
    rw [if_pos (.inr hend)]
    exact .inl ⟨s, hs.symm, rfl⟩
  · rw [if_neg (not_or.mpr ⟨hp, hend⟩)]
    refine .inr ?_
    rw [RawText.toList_append, RawText.toList_append, List.append_assoc]
    rfl

/-- The pieces of a relative path are put behind those of a path; an empty piece at the end makes room for them. -/
theorem pieces_join : ∃ before last, pieces (· == slash) p.raw.toList = before ++ last ∧ before ≠ [] ∧
    (last = [] ∨ last = [[]]) ∧
      pieces (· == slash) (p.join q).raw.toList = before ++ pieces (· == slash) q.raw.toList := by
  rcases toList_join hp hq with ⟨s, hs, hjoin⟩ | hjoin
  · obtain ⟨w, ws, hw⟩ := Text.exists_pieces (· == slash) s
    refine ⟨pieces (· == slash) s, [[]], ?_, by simp [hw], .inr rfl, ?_⟩
    · rw [hs, Text.pieces_append_sep (by rfl)]
      rfl
    · rw [hjoin, hs, List.append_assoc, List.singleton_append, Text.pieces_append_sep (by rfl)]
  · obtain ⟨w, ws, hw⟩ := Text.exists_pieces (· == slash) p.raw.toList
    refine ⟨pieces (· == slash) p.raw.toList, [], (List.append_nil _).symm, by simp [hw], .inl rfl, ?_⟩
    rw [hjoin, Text.pieces_append_sep (by rfl)]

theorem isAbsolute_join : (p.join q).isAbsolute = p.isAbsolute := by
  obtain ⟨c, cs, hc⟩ := List.exists_cons_of_ne_nil hp
  rcases toList_join hp hq with ⟨s, -, hjoin⟩ | hjoin <;>
    simp [isAbsolute, Text.startsWith, hjoin, hc, List.isPrefixOf]

theorem join_ne_nil : (p.join q).raw.toList ≠ [] := by
  intro hempty
  rcases toList_join hp hq with ⟨s, -, hjoin⟩ | hjoin <;> simp [hempty, hp] at hjoin

theorem components_join : (p.join q).components = p.components ++ stepsOf q.raw.toList := by
  obtain ⟨before, last, hpieces, hne, hlast, hjoin⟩ := pieces_join hp hq
  have hhead : ∀ x, (before ++ x).head? = before.head? := by
    intro x
    exact List.head?_append_of_ne_nil _ hne
  have hnone : last.filterMap Component.ofPiece? = [] := by
    rcases hlast with rfl | rfl <;> rfl
  simp only [components, stepsOf, isAbsolute_join hp hq, hpieces, hjoin, hhead, List.filterMap_append, hnone,
    List.append_nil, List.append_assoc]

end Join

section JoinName

variable {p : Path} {n : RawText} (hn : slash ∉ n.toList)
include hn

theorem pieces_of_not_mem : pieces (· == slash) n.toList = [n.toList] :=
  Text.pieces_of_forall (Text.forall_beq_of_not_mem hn)

theorem not_isAbsolute : isAbsolute ⟨n⟩ = false := by
  rw [isAbsolute, Bool.eq_false_iff]
  intro hstart
  obtain ⟨cs, hcs⟩ := Text.startsWith_iff.mp hstart
  exact hn (by rw [← hcs]; simp)

theorem pieces_join_name (hp : p.raw.toList ≠ []) : ∃ before last, pieces (· == slash) p.raw.toList = before ++ last ∧
    before ≠ [] ∧ (last = [] ∨ last = [[]]) ∧ pieces (· == slash) (p.join ⟨n⟩).raw.toList = before ++ [n.toList] := by
  rw [← pieces_of_not_mem hn]
  exact pieces_join hp (not_isAbsolute hn)

theorem components_join_name (hp : p.raw.toList ≠ []) {c : Component} (hc : Component.ofPiece? n.toList = some c) :
    (p.join ⟨n⟩).components = p.components ++ [c] := by
  have hsteps : stepsOf n.toList = [c] := by
    rw [stepsOf, pieces_of_not_mem hn, List.filterMap_cons_some hc, List.filterMap_nil]
  rw [components_join hp (not_isAbsolute hn), hsteps]

end JoinName

end Path

namespace FileTree

variable {t : FileTree}

theorem follow?_name {l : Location} (hl : t.hasDirectory l = true) {n : RawText} (hn : IsEntryName n)
    (hentry : (t.entryAt? (l ++ [n])).isSome) : t.follow? l n.toList = some (l ++ [n]) := by
  refine follow?_eq_some_iff.mpr ⟨hl, ?_, fun _ _ => hentry⟩
  rw [hn.ofPiece?_eq]
  rfl

theorem locate?_join {p : Path} {l : Location} (hp : t.locate? p = some l) (hl : t.hasDirectory l = true) {n : RawText}
    (hn : IsEntryName n) (hentry : (t.entryAt? (l ++ [n])).isSome) : t.locate? (p.join ⟨n⟩) = some (l ++ [n]) := by
  unfold locate? at hp
  split at hp
  · cases hp
  · rename_i hne
    obtain ⟨before, last, hpieces, -, hlast, hjoin⟩ := Path.pieces_join_name hn.2.2.2 hne
    rw [hpieces, List.foldlM_append] at hp
    obtain ⟨m, hm, hml⟩ := Option.bind_eq_some_iff.mp hp
    have hplace : m = l := by
      rcases hlast with rfl | rfl
      · exact Option.some.inj hml
      · have hplace := foldlM_follow?_place hml
        exact hplace.symm
    have hrelative : Path.isAbsolute ⟨n⟩ = false := Path.not_isAbsolute hn.2.2.2
    rw [locate?, if_neg (Path.join_ne_nil hne hrelative), Path.isAbsolute_join hne hrelative, hjoin,
      List.foldlM_append]
    refine Option.bind_eq_some_iff.mpr ⟨m, hm, ?_⟩
    rw [hplace, List.foldlM_cons, follow?_name hl hn hentry]
    rfl

/-- A tree that can exist: entries have proper names, no two files share a place, no file stands at the place of a
directory, and every place above a file is a directory. -/
structure WellFormed (t : FileTree) : Prop where
  names : ∀ f ∈ t.files, ∀ n ∈ f.1, IsEntryName n
  nodup : (t.files.map (·.1)).Nodup
  apart : ∀ f ∈ t.files, t.hasDirectory f.1 = false
  above : ∀ f ∈ t.files, ∀ i < f.1.length, t.hasDirectory (f.1.take i) = true

theorem find?_of_nodup_keys {α β : Type} [DecidableEq β] {key : α → β} {xs : List α} (h : (xs.map key).Nodup) {x : α}
    (hx : x ∈ xs) : xs.find? (fun y => key y = key x) = some x := by
  induction xs with
  | nil => exact absurd hx List.not_mem_nil
  | cons y ys ih =>
    obtain ⟨hy, hys⟩ := List.nodup_cons.mp h
    rcases List.mem_cons.mp hx with rfl | hx
    · simp
    · have hne : key y ≠ key x := fun heq => hy (heq ▸ List.mem_map_of_mem hx)
      rw [List.find?_cons_of_neg (by simpa using hne), ih hys hx]

namespace WellFormed

variable (ht : t.WellFormed)
include ht

theorem entryAt?_file {l : Location} {bytes : List UInt8} (h : (l, bytes) ∈ t.files) :
    t.entryAt? l = some (.file bytes) := by
  have hfind : t.files.find? (·.1 = l) = some (l, bytes) := find?_of_nodup_keys ht.nodup h
  rw [entryAt?, ht.apart _ h, bytesAt?, hfind]
  rfl

theorem hasDirectory_above {l : Location} {bytes : List UInt8} {names rest : List RawText} {n : RawText}
    (h : (l ++ (names ++ n :: rest), bytes) ∈ t.files) : t.hasDirectory (l ++ names) = true := by
  have hdir := ht.above _ h (l ++ names).length (by simp)
  rwa [← List.append_assoc, List.take_left] at hdir

theorem entryAt?_above {l : Location} {bytes : List UInt8} {names rest : List RawText}
    (h : (l ++ (names ++ rest), bytes) ∈ t.files) : (t.entryAt? (l ++ names)).isSome := by
  cases rest with
  | nil =>
    rw [List.append_nil] at h
    simp [ht.entryAt?_file h]
  | cons n rest =>
    simp [entryAt?, ht.hasDirectory_above h]

end WellFormed

theorem pathBelow_concat (root : Path) (names : List RawText) (n : RawText) :
    pathBelow root (names ++ [n]) = (pathBelow root names).join ⟨n⟩ := by
  rw [pathBelow, List.foldl_append]
  rfl

section PathBelow

variable {root : Path} {names : List RawText} (hroot : root.raw.toList ≠ []) (hnames : ∀ n ∈ names, IsEntryName n)
include hroot hnames

theorem pathBelow_ne_nil : (pathBelow root names).raw.toList ≠ [] := by
  induction names using List.reverseRecOn with
  | nil => exact hroot
  | append_singleton names n ih =>
    rw [pathBelow_concat]
    exact Path.join_ne_nil (ih fun m hm => hnames m (by simp [hm]))
      (Path.not_isAbsolute (hnames n (by simp)).2.2.2)

theorem components_pathBelow : (pathBelow root names).components = root.components ++ names.map .name := by
  induction names using List.reverseRecOn with
  | nil => exact (List.append_nil _).symm
  | append_singleton names n ih =>
    have hrest : ∀ m ∈ names, IsEntryName m := fun m hm => hnames m (by simp [hm])
    have hn := hnames n (by simp)
    rw [pathBelow_concat, Path.components_join_name hn.2.2.2 (pathBelow_ne_nil hroot hrest) hn.ofPiece?_eq, ih hrest]
    simp

end PathBelow

theorem WellFormed.locate?_pathBelow (ht : t.WellFormed) {root : Path} {l : Location} (hroot : t.locate? root = some l)
    {names rest : List RawText} {bytes : List UInt8} (hfile : (l ++ (names ++ rest), bytes) ∈ t.files) :
    t.locate? (pathBelow root names) = some (l ++ names) := by
  induction names using List.reverseRecOn generalizing rest with
  | nil => rwa [List.append_nil]
  | append_singleton names n ih =>
    have hn : IsEntryName n := ht.names _ hfile n (by simp)
    have hentry := ht.entryAt?_above hfile
    rw [List.append_assoc, List.singleton_append] at hfile
    rw [← List.append_assoc] at hentry
    rw [pathBelow_concat, locate?_join (ih hfile) (ht.hasDirectory_above hfile) hn hentry, List.append_assoc]

theorem WellFormed.read?_pathBelow (ht : t.WellFormed) {root : Path} {l : Location} (hroot : t.locate? root = some l)
    {names : List RawText} {bytes : List UInt8} (hfile : (l ++ names, bytes) ∈ t.files) :
    t.read? (pathBelow root names) = some bytes := by
  have hplace : (l ++ (names ++ []), bytes) ∈ t.files := by rwa [List.append_nil]
  exact read?_eq_some_iff.mpr ⟨_, ht.locate?_pathBelow hroot hplace, ht.entryAt?_file hfile⟩

end FileTree

end ModuleGraph
