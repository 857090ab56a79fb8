import ModuleGraph.Proofs.StraightPath
import Mathlib.Tactic.MkIffOfInductiveProp

namespace ModuleGraph

open Text (pieces)
open ModuleGraph.Path (slash dot)

namespace FileTree

def eraseFile (t : FileTree) (l : Location) : FileTree :=
  { t with files := t.files.filter (·.1 ≠ l) }

structure Gains (l : Location) (t t' : FileTree) : Prop where
  workingDirectory : t.workingDirectory = t'.workingDirectory
  directories : ∀ d, t.hasDirectory d = true → t'.hasDirectory d = true
  apart : ∀ d, (t.bytesAt? d).isSome → t'.hasDirectory d = true → t.hasDirectory d = true
  kept : ∀ m, (t.bytesAt? m).isSome → (t'.bytesAt? m).isSome
  new : ∀ m, m ≠ l → (t'.bytesAt? m).isSome → (t.bytesAt? m).isSome

theorem bytesAt?_eraseFile {t : FileTree} {l m : Location} (hm : m ≠ l) : (t.eraseFile l).bytesAt? m = t.bytesAt? m := by
  have hfind : (t.files.filter (·.1 ≠ l)).find? (·.1 = m) = t.files.find? (·.1 = m) := by
    rw [List.find?_filter]
    refine congrArg (List.find? · t.files) (funext fun f => ?_)
    by_cases hf : f.1 = m
    · simp [hf, hm]
    · simp [hf]
  rw [bytesAt?, eraseFile, hfind, bytesAt?]

theorem bytesAt?_eraseFile_self (t : FileTree) (l : Location) : (t.eraseFile l).bytesAt? l = none := by
  simp [bytesAt?, eraseFile]

theorem bytesAt?_putFile {t : FileTree} {l m : Location} {bytes : List UInt8} :
    (t.putFile l bytes).bytesAt? m = if m = l then some bytes else t.bytesAt? m := by
  have happend : (t.putFile l bytes).bytesAt? m =
      (((t.eraseFile l).files.find? (·.1 = m)).or ([(l, bytes)].find? (·.1 = m))).map (·.2) := by
    rw [← List.find?_append]
    rfl
  rw [happend, Option.map_or]
  change ((t.eraseFile l).bytesAt? m).or _ = _
  by_cases hm : m = l
  · simp [hm, bytesAt?_eraseFile_self]
  · simp [hm, Ne.symm hm, bytesAt?_eraseFile]

theorem gains_putFile (t : FileTree) (l : Location) (bytes : List UInt8) : Gains l t (t.putFile l bytes) where
  workingDirectory := rfl
  directories _ hd := hd
  apart _ _ hd := hd
  kept m hm := by
    rw [bytesAt?_putFile]
    split
    · rfl
    · exact hm
  new m hne hm := by rwa [bytesAt?_putFile, if_neg hne] at hm

theorem gains_eraseFile (t : FileTree) (l : Location) : Gains l (t.eraseFile l) t where
  workingDirectory := rfl
  directories _ hd := hd
  apart _ _ hd := hd
  kept m hm := by
    by_cases hne : m = l
    · rw [hne, bytesAt?_eraseFile_self] at hm
      cases hm
    · rwa [bytesAt?_eraseFile hne] at hm
  new m hne hm := by rwa [bytesAt?_eraseFile hne]

theorem foldlM_follow?_transfer {t t' : FileTree} {pieces : List (List UInt8)} {s m : Location}
    (h : pieces.foldlM t.follow? s = some m) (hm : (t'.entryAt? m).isSome = true)
    (hway : ∀ before piece after d, pieces = before ++ piece :: after → before.foldlM t.follow? s = some d →
      t.hasDirectory d = true → t'.hasDirectory d = true) : pieces.foldlM t'.follow? s = some m := by
  induction pieces using List.reverseRecOn generalizing m with
  | nil => exact h
  | append_singleton pieces piece ih =>
    rw [List.foldlM_append] at h ⊢
    obtain ⟨d, hd, hlast⟩ := Option.bind_eq_some_iff.mp h
    have hfollow : t.follow? d piece = some m := by simpa using hlast
    obtain ⟨hsource, hplace, -⟩ := follow?_eq_some_iff.mp hfollow
    have hdir := hway pieces piece [] d rfl hd hsource
    have hearlier := ih hd (entryAt?_isSome_iff.mpr (.inl hdir)) fun before w after e hsplit =>
      hway before w (after ++ [piece]) e (by rw [hsplit, List.append_assoc, List.cons_append])
    refine Option.bind_eq_some_iff.mpr ⟨d, hearlier, ?_⟩
    simpa using follow?_eq_some_iff.mpr ⟨hdir, hplace, fun _ _ => hm⟩

section Grounded

/-- Every entry stands in a directory, and so does whoever works in the tree. -/
@[mk_iff]
structure Grounded (t : FileTree) : Prop where
  working : t.hasDirectory t.workingDirectory = true
  directories : ∀ d ∈ t.directories, t.hasDirectory d.dropLast = true
  files : ∀ f ∈ t.files, t.hasDirectory f.1.dropLast = true

instance (t : FileTree) : Decidable t.Grounded :=
  decidable_of_iff _ (grounded_iff t).symm

theorem hasDirectory_iff {t : FileTree} {l : Location} : t.hasDirectory l = true ↔ l = [] ∨ l ∈ t.directories := by
  simp [hasDirectory]

theorem mem_files_of_bytesAt? {t : FileTree} {l : Location} (h : (t.bytesAt? l).isSome = true) :
    ∃ f ∈ t.files, f.1 = l := by
  rw [bytesAt?, Option.isSome_map, List.find?_isSome] at h
  simpa using h

theorem bytesAt?_isSome_of_mem {t : FileTree} {f : Location × List UInt8} (h : f ∈ t.files) :
    (t.bytesAt? f.1).isSome = true := by
  rw [bytesAt?, Option.isSome_map, List.find?_isSome]
  exact ⟨f, h, by simp⟩

variable {t : FileTree} (ht : t.Grounded)
include ht

theorem Grounded.hasDirectory_dropLast {l : Location} (h : (t.entryAt? l).isSome = true) :
    t.hasDirectory l.dropLast = true := by
  rcases entryAt?_isSome_iff.mp h with hdir | hbytes
  · rcases hasDirectory_iff.mp hdir with rfl | hmem
    · exact hdir
    · exact ht.directories l hmem
  · obtain ⟨f, hf, rfl⟩ := mem_files_of_bytesAt? hbytes
    exact ht.files f hf

theorem Grounded.hasDirectory_above {d l : Location} (h : (t.entryAt? l).isSome = true) (habove : d <+: l)
    (hne : d ≠ l) : t.hasDirectory d = true := by
  obtain ⟨names, rfl⟩ := habove
  induction names using List.reverseRecOn with
  | nil => exact absurd (List.append_nil d).symm hne
  | append_singleton names n ih =>
    have hparent := ht.hasDirectory_dropLast h
    rw [← List.append_assoc, List.dropLast_concat] at hparent
    by_cases hnames : names = []
    · rwa [hnames, List.append_nil] at hparent
    · exact ih (entryAt?_isSome_iff.mpr (.inl hparent)) (by simpa using hnames)

theorem Grounded.hasDirectory_start {d : Location} (p : Path)
    (h : d <+: if p.isAbsolute then [] else t.workingDirectory) : t.hasDirectory d = true := by
  split at h
  · rw [List.prefix_nil.mp h]
    rfl
  · by_cases hd : d = t.workingDirectory
    · rw [hd]
      exact ht.working
    · exact ht.hasDirectory_above (entryAt?_isSome_iff.mpr (.inl ht.working)) h hd

theorem Grounded.isFile_of_endsUp {p : Path} (h : p.EndsUp) : t.isFile p = false := by
  obtain ⟨before, hpieces⟩ := h
  rw [Bool.eq_false_iff]
  intro hfile
  obtain ⟨m, hm, hdir, -⟩ := isFile_iff.mp hfile
  unfold locate? at hm
  split at hm
  · cases hm
  · rw [hpieces, List.foldlM_append] at hm
    obtain ⟨d, -, hlast⟩ := Option.bind_eq_some_iff.mp hm
    have hfollow : t.follow? d [dot, dot] = some m := by simpa using hlast
    obtain ⟨hd, hplace, -⟩ := follow?_eq_some_iff.mp hfollow
    have hparent := ht.hasDirectory_dropLast (entryAt?_isSome_iff.mpr (.inl hd))
    rw [hplace] at hdir
    exact Bool.false_ne_true (hdir.symm.trans hparent)

end Grounded

section Direct

variable {t : FileTree} {s d m : Location}

theorem foldlM_follow?_no_names {ws : List (List UInt8)} (hws : ∀ w ∈ ws, ¬Path.IsName w)
    (h : ws.foldlM t.follow? s = some d) : d <+: s := by
  induction ws generalizing s with
  | nil =>
    cases h
    exact List.prefix_rfl
  | cons w ws ih =>
    obtain ⟨hw, hws⟩ := List.forall_mem_cons.mp hws
    rw [List.foldlM_cons] at h
    obtain ⟨next, hnext, h⟩ := Option.bind_eq_some_iff.mp h
    obtain ⟨-, hplace, -⟩ := follow?_eq_some_iff.mp hnext
    refine (ih hws h).trans ?_
    cases hc : Path.Component.ofPiece? w with
    | none =>
      rw [hplace, hc]
      exact List.prefix_rfl
    | some c =>
      rcases Path.ofPiece?_eq_some hc with rfl | ⟨hname, -⟩
      · rw [hplace, hc]
        exact List.dropLast_prefix s
      · exact absurd hname hw

theorem foldlM_follow?_no_ups {ws : List (List UInt8)} (hws : ∀ w ∈ ws, w ≠ [dot, dot])
    (h : ws.foldlM t.follow? d = some m) : d <+: m := by
  induction ws generalizing d with
  | nil =>
    cases h
    exact List.prefix_rfl
  | cons w ws ih =>
    obtain ⟨hw, hws⟩ := List.forall_mem_cons.mp hws
    rw [List.foldlM_cons] at h
    obtain ⟨next, hnext, h⟩ := Option.bind_eq_some_iff.mp h
    obtain ⟨-, hplace, -⟩ := follow?_eq_some_iff.mp hnext
    refine List.IsPrefix.trans ?_ (ih hws h)
    rw [hplace]
    unfold Path.Component.ofPiece?
    rw [if_neg hw]
    split
    · exact List.prefix_rfl
    · exact List.prefix_append _ _

/-- A direct path goes through no places but those above its start and those above its end. -/
theorem direct_way {p : Path} (h : p.Direct)
    (hm : (pieces (· == slash) p.raw.toList).foldlM t.follow? s = some m) {before after : List (List UInt8)}
    {piece : List UInt8} (hsplit : pieces (· == slash) p.raw.toList = before ++ piece :: after)
    (hd : before.foldlM t.follow? s = some d) : d <+: s ∨ d <+: m := by
  rw [Path.Direct, hsplit, List.pairwise_append] at h
  by_cases hnames : ∃ w ∈ before, Path.IsName w
  · obtain ⟨w, hw, hname⟩ := hnames
    have hrest : ∀ v ∈ piece :: after, v ≠ [dot, dot] := fun v hv => h.2.2 w hw v hv hname
    rw [hsplit, List.foldlM_append, hd] at hm
    exact .inr (foldlM_follow?_no_ups hrest hm)
  · have hbefore : ∀ w ∈ before, ¬Path.IsName w := fun w hw hname => hnames ⟨w, hw, hname⟩
    exact .inl (foldlM_follow?_no_names hbefore hd)

end Direct

namespace Gains

variable {l : Location} {t t' : FileTree} (h : Gains l t t')
include h

theorem entryAt?_isSome {m : Location} (hm : (t.entryAt? m).isSome = true) : (t'.entryAt? m).isSome = true := by
  rw [entryAt?_isSome_iff] at hm ⊢
  exact hm.imp (h.directories m) (h.kept m)

theorem locate?_of_locate? {p : Path} {m : Location} (hm : (t.entryAt? m).isSome = true) (hp : t.locate? p = some m) :
    t'.locate? p = some m := by
  unfold locate? at hp ⊢
  split at hp
  · cases hp
  · rename_i hne
    rw [if_neg hne, ← h.workingDirectory]
    exact foldlM_follow?_transfer hp (h.entryAt?_isSome hm) fun _ _ _ d _ _ hd => h.directories d hd

theorem isFile_of_isFile {p : Path} (hp : t.isFile p = true) : t'.isFile p = true := by
  obtain ⟨m, hm, hdir, hbytes⟩ := isFile_iff.mp hp
  have hentry : (t.entryAt? m).isSome = true := entryAt?_isSome_iff.mpr (.inr hbytes)
  refine isFile_iff.mpr ⟨m, h.locate?_of_locate? hentry hm, ?_, h.kept m hbytes⟩
  rw [Bool.eq_false_iff]
  intro hdir'
  exact Bool.false_ne_true (hdir.symm.trans (h.apart m hbytes hdir'))

theorem isFile_of_way {p : Path} (hp : t'.isFile p = true) (hl : t'.locate? p ≠ some l)
    (hway : ∀ before piece after d, pieces (· == slash) p.raw.toList = before ++ piece :: after →
      before.foldlM t'.follow? (if p.isAbsolute then [] else t'.workingDirectory) = some d →
      t'.hasDirectory d = true → t.hasDirectory d = true) : t.isFile p = true := by
  obtain ⟨m, hm, hdir, hbytes⟩ := isFile_iff.mp hp
  have hne : m ≠ l := fun heq => hl (heq ▸ hm)
  have hold : (t.bytesAt? m).isSome = true := h.new m hne hbytes
  refine isFile_iff.mpr ⟨m, ?_, ?_, hold⟩
  · unfold locate? at hm ⊢
    split at hm
    · cases hm
    · rename_i htext
      rw [if_neg htext, h.workingDirectory]
      exact foldlM_follow?_transfer hm (entryAt?_isSome_iff.mpr (.inr hold)) hway
  · rw [Bool.eq_false_iff] at hdir ⊢
    exact fun hd => hdir (h.directories m hd)

theorem isFile_of_direct (ht : t.Grounded) {p : Path} (hdirect : p.Direct) (hp : t'.isFile p = true)
    (hl : t'.locate? p ≠ some l) : t.isFile p = true := by
  obtain ⟨m, hm, hfile, hbytes⟩ := isFile_iff.mp hp
  have hne : m ≠ l := fun heq => hl (heq ▸ hm)
  have hentry : (t.entryAt? m).isSome = true := entryAt?_isSome_iff.mpr (.inr (h.new m hne hbytes))
  refine h.isFile_of_way hp hl fun before piece after d hsplit hd hdir => ?_
  unfold locate? at hm
  split at hm
  · cases hm
  · rcases direct_way hdirect hm hsplit hd with hstart | habove
    · rw [← h.workingDirectory] at hstart
      exact ht.hasDirectory_start p hstart
    · refine ht.hasDirectory_above hentry habove ?_
      rintro rfl
      exact Bool.false_ne_true (hfile.symm.trans hdir)

end Gains

section Write

theorem Gains.refl (l : Location) (t : FileTree) : Gains l t t where
  workingDirectory := rfl
  directories _ hd := hd
  apart _ _ hd := hd
  kept _ hm := hm
  new _ _ hm := hm

theorem Gains.trans {l : Location} {t t' t'' : FileTree} (h : Gains l t t') (h' : Gains l t' t'') : Gains l t t'' where
  workingDirectory := h.workingDirectory.trans h'.workingDirectory
  directories d hd := h'.directories d (h.directories d hd)
  apart d hd hd' := h.apart d hd (h'.apart d (h.kept d hd) hd')
  kept m hm := h'.kept m (h.kept m hm)
  new m hne hm := h.new m hne (h'.new m hne hm)

theorem Grounded.make {t : FileTree} (ht : t.Grounded) {d : Location} (hd : t.hasDirectory d = true) {n : RawText}
    (hnone : t.entryAt? (d ++ [n]) = none) (l : Location) :
    Gains l t { t with directories := (d ++ [n]) :: t.directories } ∧
      Grounded { t with directories := (d ++ [n]) :: t.directories } := by
  have hlarger : ∀ e, t.hasDirectory e = true →
      hasDirectory { t with directories := (d ++ [n]) :: t.directories } e = true := by
    intro e he
    rw [hasDirectory_iff] at he ⊢
    exact he.imp_right (List.mem_cons_of_mem _)
  refine ⟨⟨rfl, hlarger, fun e hbytes he => ?_, fun _ hm => hm, fun _ _ hm => hm⟩, hlarger _ ht.working, fun e he => ?_,
    fun f hf => hlarger _ (ht.files f hf)⟩
  · rw [hasDirectory_iff, List.mem_cons] at he
    rcases he with he | rfl | he
    · exact hasDirectory_iff.mpr (.inl he)
    · have hentry : (t.entryAt? (d ++ [n])).isSome = true := entryAt?_isSome_iff.mpr (.inr hbytes)
      rw [hnone] at hentry
      cases hentry
    · exact hasDirectory_iff.mpr (.inr he)
  · rcases List.mem_cons.mp he with rfl | he
    · rw [List.dropLast_concat]
      exact hlarger d hd
    · exact hlarger _ (ht.directories e he)

theorem enterOrMake?_gains {t t' : FileTree} {d d' : Location} {piece : List UInt8} (l : Location) (ht : t.Grounded)
    (hd : t.hasDirectory d = true) (h : enterOrMake? (t, d) piece = some (t', d')) :
    Gains l t t' ∧ t'.Grounded ∧ t'.hasDirectory d' = true := by
  unfold enterOrMake? at h
  dsimp only at h
  split at h
  · cases h
    exact ⟨.refl l t, ht, hd⟩
  · split at h
    · cases h
      exact ⟨.refl l t, ht, ht.hasDirectory_dropLast (entryAt?_isSome_iff.mpr (.inl hd))⟩
    · split at h
      · rename_i hentry
        cases h
        refine ⟨.refl l t, ht, ?_⟩
        unfold entryAt? at hentry
        split at hentry
        · assumption
        · cases hbytes : t.bytesAt? (d ++ [⟨piece⟩]) <;> simp [hbytes] at hentry
      · cases h
      · rename_i hentry
        cases h
        obtain ⟨hgains, hgrounded⟩ := ht.make hd hentry l
        exact ⟨hgains, hgrounded, hasDirectory_iff.mpr (.inr List.mem_cons_self)⟩

theorem foldlM_enterOrMake?_gains {ws : List (List UInt8)} {t t' : FileTree} {d d' : Location} (l : Location)
    (ht : t.Grounded) (hd : t.hasDirectory d = true) (h : ws.foldlM enterOrMake? (t, d) = some (t', d')) :
    Gains l t t' ∧ t'.Grounded ∧ t'.hasDirectory d' = true := by
  induction ws generalizing t d with
  | nil =>
    cases h
    exact ⟨.refl l _, ht, hd⟩
  | cons w ws ih =>
    rw [List.foldlM_cons] at h
    obtain ⟨⟨next, e⟩, hnext, h⟩ := Option.bind_eq_some_iff.mp h
    obtain ⟨hgains, hgrounded, he⟩ := enterOrMake?_gains l ht hd hnext
    obtain ⟨hgains', hrest⟩ := ih hgrounded he h
    exact ⟨hgains.trans hgains', hrest⟩

theorem Grounded.makeDirectories?_gains {t t' : FileTree} (ht : t.Grounded) {p : Path} {d : Location} (l : Location)
    (h : t.makeDirectories? p = some (t', d)) : Gains l t t' ∧ t'.Grounded ∧ t'.hasDirectory d = true :=
  foldlM_enterOrMake?_gains l ht (ht.hasDirectory_start p List.prefix_rfl) h

theorem Grounded.putFile {t : FileTree} (ht : t.Grounded) {d : Location} (hd : t.hasDirectory d = true) (n : RawText)
    (bytes : List UInt8) : (t.putFile (d ++ [n]) bytes).Grounded where
  working := ht.working
  directories := ht.directories
  files f hf := by
    rcases List.mem_append.mp hf with hf | hf
    · exact ht.files f (List.mem_of_mem_filter hf)
    · rw [List.mem_singleton.mp hf, List.dropLast_concat]
      exact hd

def target? (t : FileTree) (p : Path) : Option Location := do
  let (_, above) ← t.makeDirectories? (← p.parent?)
  return above ++ [← p.fileName?]

theorem Grounded.write?_gains {t t' : FileTree} (ht : t.Grounded) {p : Path} {bytes : List UInt8}
    (h : t.write? p bytes = some t') : ∃ l, t.target? p = some l ∧ Gains l t t' ∧ t'.Grounded := by
  unfold write? at h
  obtain ⟨parent, hparent, h⟩ := Option.bind_eq_some_iff.mp h
  obtain ⟨⟨made, above⟩, hmade, h⟩ := Option.bind_eq_some_iff.mp h
  obtain ⟨n, hn, h⟩ := Option.bind_eq_some_iff.mp h
  obtain ⟨hgains, hgrounded, habove⟩ := ht.makeDirectories?_gains (above ++ [n]) hmade
  obtain ⟨-, hput⟩ := Option.ite_none_left_eq_some.mp h
  cases hput
  refine ⟨above ++ [n], ?_, hgains.trans (gains_putFile made _ bytes), hgrounded.putFile habove n bytes⟩
  simp [target?, hparent, hmade, hn]

theorem Grounded.remove?_file {t : FileTree} (ht : t.Grounded) {p : Path} {l : Location} (hp : t.locate? p = some l)
    (hl : t.hasDirectory l = false) : t.remove? p = some (t.eraseFile l) := by
  have hbelow : ∀ m, (t.entryAt? m).isSome = true → l <+: m → m = l := by
    intro m hm hlm
    by_contra hne
    exact Bool.false_ne_true (hl.symm.trans (ht.hasDirectory_above hm hlm (Ne.symm hne)))
  have hfiles : (t.files.filter fun f => !l.isPrefixOf f.1) = t.files.filter (·.1 ≠ l) := by
    refine List.filter_congr fun f hf => ?_
    rw [Bool.eq_iff_iff, Bool.not_eq_true', Bool.eq_false_iff, decide_eq_true_eq, ne_eq, List.isPrefixOf_iff_prefix]
    have hentry : (t.entryAt? f.1).isSome = true := entryAt?_isSome_iff.mpr (.inr (bytesAt?_isSome_of_mem hf))
    exact not_congr ⟨hbelow f.1 hentry, fun heq => heq ▸ List.prefix_rfl⟩
  have hdirectories : (t.directories.filter fun d => !l.isPrefixOf d) = t.directories := by
    refine List.filter_eq_self.mpr fun d hd => ?_
    rw [Bool.not_eq_true', Bool.eq_false_iff, ne_eq, List.isPrefixOf_iff_prefix]
    intro hld
    have hdir : t.hasDirectory d = true := hasDirectory_iff.mpr (.inr hd)
    rw [hbelow d (entryAt?_isSome_iff.mpr (.inl hdir)) hld] at hdir
    exact Bool.false_ne_true (hl.symm.trans hdir)
  rw [remove?, hp, Option.map_some, hfiles, hdirectories]
  rfl

end Write

end FileTree

end ModuleGraph
