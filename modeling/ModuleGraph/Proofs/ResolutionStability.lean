import ModuleGraph.Proofs.ResolutionOrder
import ModuleGraph.Proofs.TreeGrowth

namespace ModuleGraph

open FileTree (Gains Grounded)
open ModuleGraph.Path (dot slash)
open Text (pieces)

namespace Resolver

/-- An extension with a step up in it, behind the dots it starts with. -/
def StepsUp (extension : String) : Prop :=
  [dot, dot] ∈ pieces (· == slash) (RawText.ofString (bare extension)).toList

instance (extension : String) : Decidable (StepsUp extension) :=
  inferInstanceAs (Decidable (_ ∈ _))

section Candidates

variable {options : ResolveOptions} {family : Family} {base p : Path} {form : Form} {k : Nat}
  (hext : ∀ e ∈ options.extensions, ¬StepsUp e)
include hext

theorem tail_pieces_bare {e : String} (hk : options.extensions[k]? = some e) :
    ∀ w ∈ (pieces (· == slash) (RawText.ofString (bare e)).toList).tail, w ≠ [dot, dot] := by
  rintro w hw rfl
  exact hext e (List.mem_of_getElem? hk) (List.mem_of_mem_tail hw)

/-- What is looked for is a direct path. The one exception is a name of two dots and an extension, of which a step up
is left. -/
theorem Offers.direct (h : Offers options family base form k p) : p.Direct ∨ p.EndsUp := by
  obtain ⟨htext, hclean⟩ := Path.straight_clean base
  cases h with
  | itself => exact .inl hclean.direct
  | extended hk => exact .inl (hclean.withSuffix (tail_pieces_bare hext hk))
  | @swapped _ emitted source _ hemitted hk =>
    have hswaps : ∀ s ∈ swaps, ∀ w ∈ (pieces (· == slash) (RawText.ofString s.2).toList).tail, w ≠ [dot, dot] := by
      decide
    exact hclean.swapExtension hemitted (hswaps (emitted, source) (List.mem_of_getElem? hk))
  | @index _ e hk =>
    have hstem : Path.IsName (RawText.ofString family.indexStem).toList ∧
        slash ∉ (RawText.ofString family.indexStem).toList := by
      cases family <;> decide
    rw [← Path.withSuffix_join hstem.1.1]
    exact .inl ((hclean.join htext hstem.2 hstem.1).withSuffix (tail_pieces_bare hext hk))

theorem direct_of_mem_candidates {aliases : Option AliasTable} {importer : Path} {spec : String}
    (hp : p ∈ candidates ⟨options, aliases⟩ family importer spec) : p.Direct ∨ p.EndsUp := by
  obtain ⟨place, base, -, hoffers⟩ := mem_candidates_iff.mp hp
  exact hoffers.direct hext

end Candidates

section Growth

variable {l : Location} {t t' : FileTree} (h : Gains l t t') {r : Resolver} {family : Family} {importer : Path}
  {spec : String}
include h

/-- If all files but the new one were files before, none but the new one can be another result. -/
theorem resolveAs?_of_gains (hback : ∀ p ∈ r.candidates family importer spec, t'.isFile p = true →
      t'.locate? p ≠ some l → t.isFile p = true)
    (hother : ∀ p, r.resolveAs? t' family importer spec = some p → t'.locate? p ≠ some l) :
    r.resolveAs? t family importer spec = r.resolveAs? t' family importer spec := by
  cases hr : r.resolveAs? t' family importer spec with
  | none =>
    rw [resolveAs?, List.find?_eq_none] at hr ⊢
    exact fun p hp hfile => hr p hp (h.isFile_of_isFile hfile)
  | some p =>
    have hplace := hother p hr
    have hmem : p ∈ r.candidates family importer spec := List.mem_of_find?_eq_some hr
    obtain ⟨hfile, before, after, hsplit, hbefore⟩ := List.find?_eq_some_iff_append.mp hr
    refine List.find?_eq_some_iff_append.mpr ⟨hback p hmem hfile hplace, before, after, hsplit, fun q hq => ?_⟩
    have hmiss := hbefore q hq
    rw [Bool.not_eq_true', Bool.eq_false_iff] at hmiss ⊢
    exact fun hfile => hmiss (h.isFile_of_isFile hfile)

theorem resolveAs?_of_same_directories (hsame : t'.directories = t.directories)
    (hother : ∀ p, r.resolveAs? t' family importer spec = some p → t'.locate? p ≠ some l) :
    r.resolveAs? t family importer spec = r.resolveAs? t' family importer spec := by
  refine resolveAs?_of_gains h (fun p _ hfile hplace => ?_) hother
  refine h.isFile_of_way hfile hplace fun _ _ _ d _ _ hd => ?_
  rwa [FileTree.hasDirectory, ← hsame]

theorem resolveAs?_of_grounded (ht : t.Grounded) (ht' : t'.Grounded)
    (hext : ∀ e ∈ r.options.extensions, ¬StepsUp e)
    (hother : ∀ p, r.resolveAs? t' family importer spec = some p → t'.locate? p ≠ some l) :
    r.resolveAs? t family importer spec = r.resolveAs? t' family importer spec := by
  refine resolveAs?_of_gains h (fun p hp hfile hplace => ?_) hother
  rcases direct_of_mem_candidates hext hp with hdirect | hup
  · exact h.isFile_of_direct ht hdirect hfile hplace
  · rw [ht'.isFile_of_endsUp hup] at hfile
    cases hfile

end Growth

theorem eq_or_locate? {t t' : FileTree} {l : Location} {r : Resolver} {family : Family} {importer : Path} {spec : String}
    (h : (∀ p, r.resolveAs? t' family importer spec = some p → t'.locate? p ≠ some l) →
      r.resolveAs? t family importer spec = r.resolveAs? t' family importer spec) :
    r.resolveAs? t' family importer spec = r.resolveAs? t family importer spec ∨
      ∃ p, r.resolveAs? t' family importer spec = some p ∧ t'.locate? p = some l := by
  by_cases hnew : ∃ p, r.resolveAs? t' family importer spec = some p ∧ t'.locate? p = some l
  · exact .inr hnew
  · exact .inl (h fun p hp hl => hnew ⟨p, hp, hl⟩).symm

/-- A file that is added leaves the result of a resolution as it is, or is the result; a file that is removed leaves it
as it is unless it was the result. Where directories are made for the new file, no extension may step up: else a path may
go through such a directory and up again to another file. -/
theorem resolution_stable (r : Resolver) (family : Family) (importer : Path) (spec : String) (t : FileTree) :
    (∀ l bytes, r.resolveAs? (t.putFile l bytes) family importer spec = r.resolveAs? t family importer spec ∨
      ∃ p, r.resolveAs? (t.putFile l bytes) family importer spec = some p ∧ (t.putFile l bytes).locate? p = some l) ∧
    (∀ l, (∀ p, r.resolveAs? t family importer spec = some p → t.locate? p ≠ some l) →
      r.resolveAs? (t.eraseFile l) family importer spec = r.resolveAs? t family importer spec) ∧
    (t.Grounded → (∀ e ∈ r.options.extensions, ¬StepsUp e) → ∀ f bytes t', t.write? f bytes = some t' →
      r.resolveAs? t' family importer spec = r.resolveAs? t family importer spec ∨
        ∃ p l, r.resolveAs? t' family importer spec = some p ∧ t.target? f = some l ∧ t'.locate? p = some l) ∧
    (t.Grounded → ∀ f, t.isFile f = true →
      (∀ p, r.resolveAs? t family importer spec = some p → t.locate? p ≠ t.locate? f) →
      ∃ t', t.remove? f = some t' ∧ r.resolveAs? t' family importer spec = r.resolveAs? t family importer spec) := by
  refine ⟨fun l bytes => ?_, fun l hother => ?_, fun ht hext f bytes t' hwrite => ?_, fun ht f hf hother => ?_⟩
  · exact eq_or_locate? (resolveAs?_of_same_directories (t.gains_putFile l bytes) rfl)
  · exact resolveAs?_of_same_directories (t.gains_eraseFile l) rfl hother
  · obtain ⟨l, htarget, hgains, ht'⟩ := ht.write?_gains hwrite
    refine (eq_or_locate? (resolveAs?_of_grounded hgains ht ht' hext)).imp_right ?_
    rintro ⟨p, hp, hl⟩
    exact ⟨p, l, hp, htarget, hl⟩
  · obtain ⟨l, hl, hdir, -⟩ := isFile_iff.mp hf
    rw [hl] at hother
    exact ⟨t.eraseFile l, ht.remove?_file hl hdir, resolveAs?_of_same_directories (t.gains_eraseFile l) rfl hother⟩

theorem resolution_stable_of_script :
    let t : FileTree := ⟨[(["p", "a.ts"], []), (["p", "b.js"], [])], [["p"]], []⟩
    let r : Resolver := ⟨.ofBase ⟨"/p"⟩, none⟩
    t.Grounded ∧ (∀ e ∈ r.options.extensions, ¬StepsUp e) ∧ t.isFile ⟨"/p/a.ts"⟩ = true ∧
      r.resolveAs? t .curly ⟨"/p/a.ts"⟩ "./b" = some ⟨"/p/b.js"⟩ ∧
      (∃ t', t.write? ⟨"/p/b/index.ts"⟩ [] = some t' ∧
        (r.resolveAs? t' .curly ⟨"/p/a.ts"⟩ "./b" = r.resolveAs? t .curly ⟨"/p/a.ts"⟩ "./b" ∨
          ∃ p l, r.resolveAs? t' .curly ⟨"/p/a.ts"⟩ "./b" = some p ∧ t.target? ⟨"/p/b/index.ts"⟩ = some l ∧
            t'.locate? p = some l)) ∧
      r.resolveAs? (t.eraseFile ["p", "a.ts"]) .curly ⟨"/p/a.ts"⟩ "./b" = some ⟨"/p/b.js"⟩ ∧
      ∃ t', t.remove? ⟨"/p/a.ts"⟩ = some t' ∧ r.resolveAs? t' .curly ⟨"/p/a.ts"⟩ "./b" = some ⟨"/p/b.js"⟩ := by
  intro t r
  have ht : t.Grounded := by decide
  have hext : ∀ e ∈ r.options.extensions, ¬StepsUp e := by decide +kernel
  have hfile : t.isFile ⟨"/p/a.ts"⟩ = true := by decide +kernel
  have hbefore : r.resolveAs? t .curly ⟨"/p/a.ts"⟩ "./b" = some ⟨"/p/b.js"⟩ := by decide +kernel
  have hplace : t.locate? ⟨"/p/b.js"⟩ = some (["p", "b.js"] : Location) := by decide +kernel
  have hother : ∀ p, r.resolveAs? t .curly ⟨"/p/a.ts"⟩ "./b" = some p → t.locate? p ≠ some (["p", "a.ts"] : Location) := by
    intro p hp
    cases hbefore.symm.trans hp
    rw [hplace]
    decide
  have hother' : ∀ p, r.resolveAs? t .curly ⟨"/p/a.ts"⟩ "./b" = some p → t.locate? p ≠ t.locate? ⟨"/p/a.ts"⟩ := by
    have hself : t.locate? ⟨"/p/a.ts"⟩ = some (["p", "a.ts"] : Location) := by decide +kernel
    rwa [hself]
  have hwrite : (t.write? ⟨"/p/b/index.ts"⟩ []).isSome = true := by decide +kernel
  obtain ⟨t', ht'⟩ := Option.isSome_iff_exists.mp hwrite
  obtain ⟨-, herase, hwritten, hremove⟩ := resolution_stable r .curly ⟨"/p/a.ts"⟩ "./b" t
  refine ⟨ht, hext, hfile, hbefore, ⟨t', ht', hwritten ht hext _ _ t' ht'⟩, ?_, ?_⟩
  · rw [herase _ hother, hbefore]
  · rw [← hbefore]
    exact hremove ht _ hfile hother'

/-- The directory made for a new file opens the way of an extension that steps up to a file that was there. -/
theorem resolution_unstable_of_step_up :
    let t : FileTree := ⟨[(["p", "b.ts"], []), (["p", "main.ts"], [])], [["p"]], []⟩
    let r : Resolver := ⟨⟨⟨"/p"⟩, [".x/../b.ts"], true⟩, none⟩
    r.resolveAs? t .curly ⟨"/p/main.ts"⟩ "./a" = none ∧ ∃ t', t.write? ⟨"/p/a.x/new.ts"⟩ [] = some t' ∧
      r.resolveAs? t' .curly ⟨"/p/main.ts"⟩ "./a" = some ⟨"/p/a.x/../b.ts"⟩ ∧
      t'.locate? ⟨"/p/a.x/../b.ts"⟩ = some (["p", "b.ts"] : Location) ∧
      t'.locate? ⟨"/p/a.x/new.ts"⟩ = some (["p", "a.x", "new.ts"] : Location) := by
  intro t r
  have hwrite : t.write? ⟨"/p/a.x/new.ts"⟩ [] =
      some ⟨t.files ++ [((["p", "a.x", "new.ts"] : Location), [])], [["p", "a.x"], ["p"]], []⟩ := by decide +kernel
  exact ⟨by decide +kernel, _, hwrite, by decide +kernel, by decide +kernel, by decide +kernel⟩

end Resolver

end ModuleGraph
