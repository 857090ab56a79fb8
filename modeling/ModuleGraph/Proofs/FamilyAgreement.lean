import ModuleGraph.FileTree.Discovery
import ModuleGraph.Proofs.Encoding
import ModuleGraph.Proofs.Reading
import ModuleGraph.Proofs.TextPieces

namespace ModuleGraph

namespace FileTree

theorem firstLine_append_newline {a : List UInt8} (ha : 0x0A ∉ a) (b : List UInt8) :
    firstLine (a ++ 0x0A :: b) = a ++ [0x0A] := by
  induction a with
  | nil => rfl
  | cons x a ih =>
    obtain ⟨hx, ha⟩ := not_or.mp (mt List.mem_cons.mpr ha)
    rw [List.cons_append, firstLine, if_neg (Ne.symm hx), ih ha, List.cons_append]

theorem firstLine_of_not_mem {bytes : List UInt8} (h : 0x0A ∉ bytes) : firstLine bytes = bytes := by
  induction bytes with
  | nil => rfl
  | cons x bytes ih =>
    obtain ⟨hx, h⟩ := not_or.mp (mt List.mem_cons.mpr h)
    rw [firstLine, if_neg (Ne.symm hx), ih h]

end FileTree

namespace Family

theorem ofShebang?_append_newline (s t : List Char) : ofShebang? (s ++ '\n' :: t) = ofShebang? (s ++ ['\n']) := by
  have hdrop : ∀ t : List Char, (s ++ '\n' :: t).dropWhile (· == byteOrderMark) =
      s.dropWhile (· == byteOrderMark) ++ '\n' :: t := by
    intro t
    rw [List.dropWhile_append]
    split
    · rename_i h
      rw [List.isEmpty_iff.mp h]
      rfl
    · rfl
  have hhead : ∀ t : List Char, (Text.lines (s.dropWhile (· == byteOrderMark) ++ '\n' :: t)).head? =
      ((Text.pieces (· == '\n') (s.dropWhile (· == byteOrderMark))).map Text.dropReturn).head? := by
    intro t
    obtain ⟨w, ws, hs⟩ := Text.exists_pieces (· == '\n') (s.dropWhile (· == byteOrderMark))
    rw [Text.lines_append_newline, hs]
    rfl
  rw [ofShebang?, ofShebang?, hdrop, hdrop, hhead, hhead]

end Family

namespace FileTree

/-- A first line that can be read strictly names the interpreter that the whole text names. -/
theorem ofShebang?_firstLine {bytes : List UInt8} {line : List Char} (h : Utf8.decode? (firstLine bytes) = some line) :
    Family.ofShebang? line = Family.ofShebang? (Utf8.decodeLossy bytes) := by
  by_cases hb : 0x0A ∈ bytes
  · obtain ⟨a, b, rfl, ha⟩ := List.eq_append_cons_of_mem hb
    rw [firstLine_append_newline ha] at h
    obtain ⟨u, v, hu, hv, rfl⟩ := (Utf8.decode?_append_ascii_iff (by decide)).mp h
    obtain rfl : [] = v := Option.some.inj hv
    rw [Utf8.decodeLossy_append_ascii (by decide), Utf8.decodeLossy_of_decode? hu]
    exact (Family.ofShebang?_append_newline u _).symm
  · rw [firstLine_of_not_mem hb] at h
    rw [Utf8.decodeLossy_of_decode? h]

theorem isSome_decode?_firstLine {bytes : List UInt8} (h : (Utf8.decode? bytes).isSome) :
    (Utf8.decode? (firstLine bytes)).isSome := by
  by_cases hb : 0x0A ∈ bytes
  · obtain ⟨a, b, rfl, ha⟩ := List.eq_append_cons_of_mem hb
    obtain ⟨s, hs⟩ := Option.isSome_iff_exists.mp h
    obtain ⟨u, v, hu, -, -⟩ := (Utf8.decode?_append_ascii_iff (by decide)).mp hs
    rw [firstLine_append_newline ha, Option.isSome_iff_exists]
    exact ⟨_, (Utf8.decode?_append_ascii_iff (by decide)).mpr ⟨u, [], hu, rfl, rfl⟩⟩
  · rwa [firstLine_of_not_mem hb]

variable {t : FileTree} {p : Path} {bytes : List UInt8}

theorem family?_eq_of_read? (hread : t.read? p = some bytes) :
    t.family? p = if p.extension?.isSome || (Utf8.decode? (firstLine bytes)).isSome then
      Family.detect? p.extension? (Utf8.decodeLossy bytes) else none := by
  unfold family? Family.detect?
  cases p.extension? with
  | some extension => rfl
  | none =>
    cases hline : Utf8.decode? (firstLine bytes) with
    | none => simp [hread, hline]
    | some line => simp [hread, hline, ofShebang?_firstLine hline]

theorem isSource_eq_of_read? (hread : t.read? p = some bytes) :
    t.isSource p = ((p.extension?.isSome || (Utf8.decode? bytes).isSome) &&
      (Family.detect? p.extension? (Utf8.decodeLossy bytes)).isSome) := by
  unfold isSource Family.detect?
  cases p.extension? with
  | some extension => simp
  | none =>
    cases htext : Utf8.decode? bytes with
    | none => simp [readText?, hread, htext]
    | some text => simp [readText?, hread, htext, Utf8.decodeLossy_of_decode? htext]

end FileTree

namespace Extraction

theorem isParsed_ofSource (family : Family) (text : List Char) :
    (Declarations.ofSource family text).isParsed = true := by
  cases family <;> rfl

theorem isParsed_ofFile {t : FileTree} {p : Path} {bytes : List UInt8} (hread : t.read? p = some bytes) :
    (ofFile t p).declarations.isParsed = (Family.detect? p.extension? (Utf8.decodeLossy bytes)).isSome := by
  cases hx : p.extension?.any fun e => (Family.ofExtension? e).isNone with
  | true =>
    rw [ofFile, if_pos hx]
    cases he : p.extension? with
    | none => simp [he] at hx
    | some e =>
      rw [he, Option.any_some, Option.isNone_iff_eq_none] at hx
      rw [Family.detect?, hx]
      rfl
  | false =>
    rw [ofFile_of_read? hx hread, ofBytes]
    cases Family.detect? p.extension? (Utf8.decodeLossy bytes) with
    | none => rfl
    | some family => exact isParsed_ofSource family _

end Extraction

/-- Declarations are taken from a file exactly when its leniently decoded text has a family. The family by the first
line is the same, and so is the decision to list the file, exactly for a file with an extension, one whose bytes up
to the end of the line or of the file are all characters, and one without a family. -/
theorem families_agree_iff {t : FileTree} {p : Path} {bytes : List UInt8} (hread : t.read? p = some bytes) :
    let family := Family.detect? p.extension? (Utf8.decodeLossy bytes)
    (Extraction.ofFile t p).declarations.isParsed = family.isSome ∧
    (t.family? p = family ↔
      p.extension?.isSome ∨ (Utf8.decode? (FileTree.firstLine bytes)).isSome ∨ family = none) ∧
    (t.family? p = family ∧ t.isSource p = family.isSome ↔
      p.extension?.isSome ∨ (Utf8.decode? bytes).isSome ∨ family = none) := by
  intro family
  have hfamily : t.family? p =
      if p.extension?.isSome || (Utf8.decode? (FileTree.firstLine bytes)).isSome then family else none :=
    FileTree.family?_eq_of_read? hread
  have hsource : t.isSource p = ((p.extension?.isSome || (Utf8.decode? bytes).isSome) && family.isSome) :=
    FileTree.isSource_eq_of_read? hread
  have hline := @FileTree.isSome_decode?_firstLine bytes
  refine ⟨Extraction.isParsed_ofFile hread, ?_, ?_⟩
  · rw [hfamily]
    cases hf : family with
    | none => simp
    | some f => cases p.extension?.isSome <;> simp [Option.isSome_iff_ne_none]
  · rw [hfamily, hsource]
    cases hf : family with
    | none => simp
    | some f =>
      cases p.extension?.isSome with
      | true => simp
      | false => simpa [Option.isSome_iff_ne_none] using hline

/-- A script whose bytes are all characters has one family in every way of telling it. -/
theorem families_agree_of_script :
    let bytes := Utf8.encode "\uFEFF#!/usr/bin/env python3\r\nimport os\n"
    let t : FileTree := { files := [(["tool"], bytes)] }
    t.read? ⟨"/tool"⟩ = some bytes ∧ (Utf8.decode? bytes).isSome ∧ t.family? ⟨"/tool"⟩ = some .indent ∧
      t.isSource ⟨"/tool"⟩ = true ∧ (Extraction.ofFile t ⟨"/tool"⟩).declarations.isParsed = true := by
  intro bytes t
  have hread : t.read? ⟨"/tool"⟩ = some bytes := by decide +kernel
  have hdecode : (Utf8.decode? bytes).isSome := by decide +kernel
  have hdetect : Family.detect? (Path.extension? ⟨"/tool"⟩) (Utf8.decodeLossy bytes) = some .indent := by
    decide +kernel
  obtain ⟨hparsed, -, hagree⟩ := families_agree_iff hread
  obtain ⟨hfamily, hsource⟩ := hagree.mpr (.inr (.inl hdecode))
  rw [hdetect] at hparsed hfamily hsource
  exact ⟨hread, hdecode, hfamily, hsource, hparsed⟩

/-- A byte that is no character hides a script from the search, and in the first line also from resolution, though
its declarations are taken. -/
theorem families_differ_of_foreign_byte :
    let late := Utf8.encode "#!python\n" ++ [0xFF]
    let early := Utf8.encode "#!python " ++ [0xFF, 0x0A]
    let t : FileTree := { files := [(["late"], late), (["early"], early)] }
    (Extraction.ofFile t ⟨"/late"⟩).declarations.isParsed = true ∧ t.family? ⟨"/late"⟩ = some .indent ∧
      t.isSource ⟨"/late"⟩ = false ∧
    (Extraction.ofFile t ⟨"/early"⟩).declarations.isParsed = true ∧
      Family.detect? (Path.extension? ⟨"/early"⟩) (Utf8.decodeLossy early) = some .indent ∧
      t.family? ⟨"/early"⟩ = none := by
  decide +kernel

end ModuleGraph
