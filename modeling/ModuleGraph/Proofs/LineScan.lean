import ModuleGraph.Proofs.IndentForms
import ModuleGraph.Proofs.LineJoining

namespace ModuleGraph.Indent

open Pattern

section Header

/-- The first line of a block for type checkers. -/
def IsTypeHeader (s : List Char) : Prop :=
  ∃ gap qualifier gap' rest, Text.IsGap gap ∧ gap ≠ [] ∧ (qualifier = "typing." ∨ qualifier = "") ∧ Text.IsGap gap' ∧
    s = "if".toList ++ gap ++ qualifier.toList ++ "TYPE_CHECKING".toList ++ gap' ++ ':' :: rest

theorem isTypeHeader_of_isSome {s : List Char} (h : (typeCheckingHeader.matchStart s).isSome = true) :
    IsTypeHeader s := by
  obtain ⟨m, hm⟩ := Option.isSome_iff_exists.mp h
  obtain ⟨s', rest, -, hs, hr, -⟩ := read_sound _ _ _ hm
  obtain ⟨u, s', rfl, hif, hr⟩ := reads_inOrder_cons.mp hr
  obtain ⟨q, s', rfl, hq, hr⟩ := reads_inOrder_cons.mp hr
  obtain ⟨t, s', rfl, ht, hr⟩ := reads_inOrder_cons.mp hr
  obtain ⟨gap', s', rfl, hgap', hr⟩ := reads_inOrder_cons.mp hr
  obtain ⟨colon, s', rfl, ⟨c, rfl, hc⟩, rfl⟩ := reads_inOrder_cons.mp hr
  obtain ⟨gap, rfl, hne, hgap, -⟩ := reads_keyword.mp hif
  obtain ⟨qualifier, hqualifier, rfl⟩ : ∃ qualifier : String, (qualifier = "typing." ∨ qualifier = "") ∧
      q = qualifier.toList := by
    rcases hq with hq | rfl
    · exact ⟨_, .inl rfl, reads_text.mp hq⟩
    · exact ⟨_, .inr rfl, rfl⟩
  cases reads_text.mp ht
  cases beq_iff_eq.mp hc
  refine ⟨gap, qualifier, gap', rest, hgap, hne, hqualifier, (reads_run.mp hgap').1, ?_⟩
  exact hs.trans (by simp only [List.append_assoc, List.singleton_append])

variable {β : Type} {next : Reading → Option β} {place : Cursor} {gap rest : List Char} {parts : List Part}

theorem read_typeChecking (hgap : Text.IsGap gap) (u : List Char) :
    (inOrder [text "TYPE_CHECKING", blanks, .one (· == ':')]).read next
      ⟨place.beyond u ("TYPE_CHECKING".toList ++ (gap ++ ':' :: rest)), parts⟩ =
        next ⟨place.beyond (u ++ "TYPE_CHECKING".toList ++ gap ++ [':']) rest, parts⟩ := by
  have hstop : Text.Stops Text.isBlank (':' :: rest) := Text.stops_cons.mpr (by decide)
  rw [read_inOrder_cons, read_text, read_inOrder_cons, blanks, read_run hgap hstop, read_inOrder_cons, read_char,
    read_inOrder_nil]

theorem read_qualified {qualifier : String} (hq : qualifier = "typing." ∨ qualifier = "") (hgap : Text.IsGap gap)
    (hnext : ∀ r, (next r).isSome = true) (u : List Char) :
    ((inOrder [optional (text "typing."), text "TYPE_CHECKING", blanks, .one (· == ':')]).read next
      ⟨place.beyond u (qualifier.toList ++ ("TYPE_CHECKING".toList ++ (gap ++ ':' :: rest))), parts⟩).isSome = true := by
  rw [read_inOrder_cons]
  rcases hq with rfl | rfl
  · obtain ⟨x, hx⟩ := Option.isSome_iff_exists.mp (hnext _)
    rw [Pattern.optional, read_either_of_some (by rw [read_text, read_typeChecking hgap]; exact hx)]
    rfl
  · have hunread : (text "typing.").read ((inOrder [text "TYPE_CHECKING", blanks, .one (· == ':')]).read next)
        ⟨place.beyond u ("TYPE_CHECKING".toList ++ (gap ++ ':' :: rest)), parts⟩ = none := rfl
    rw [show "".toList = [] from rfl, List.nil_append, read_optional_of_none hunread, read_typeChecking hgap]
    exact hnext _

theorem isSome_of_isTypeHeader {s : List Char} (h : IsTypeHeader s) :
    (typeCheckingHeader.matchStart s).isSome = true := by
  obtain ⟨gap, qualifier, gap', rest, hgap, hne, hq, hgap', rfl⟩ := h
  have hstop : Text.Stops Text.isBlank (qualifier.toList ++ ("TYPE_CHECKING".toList ++ (gap' ++ ':' :: rest))) := by
    rcases hq with rfl | rfl <;> exact Text.stops_cons.mpr (by decide)
  simp only [List.append_assoc]
  rw [matchStart_eq, typeCheckingHeader, read_inOrder_cons, keyword, read_seq, read_text, blanks1,
    read_run1 hne hgap hstop]
  exact read_qualified hq hgap' (fun _ => rfl) _

instance (s : List Char) : Decidable (IsTypeHeader s) :=
  decidable_of_iff _ ⟨isTypeHeader_of_isSome, isSome_of_isTypeHeader⟩

end Header


namespace LogicalLine

def IsHeader (l : LogicalLine) : Prop :=
  IsTypeHeader (Text.trim l.text)

instance (l : LogicalLine) : Decidable l.IsHeader :=
  inferInstanceAs (Decidable (IsTypeHeader _))

/-- The imports of a line, of which those of its statements are marked as type-only or not. -/
def imports (l : LogicalLine) (typeOnly : Bool) : List Import :=
  if l.IsHeader then []
  else (splitStatements (Text.trim l.text)).flatMap (statementImports l.line typeOnly)
    ++ dynamicImports l.line (Text.trim l.text)

/-- What a line makes visible, if it stands at the top level. -/
def visible? (l : LogicalLine) : Option Visible :=
  if l.indent = 0 ∧ ¬l.IsHeader then some (visibleOf l.line (Text.trim l.text)) else none

def bound (l : LogicalLine) : List Binding :=
  match l.visible? with
  | some (.bound bs) => bs
  | _ => []

def listed? (l : LogicalLine) : Option (List String) :=
  match l.visible? with
  | some (.listed _ names) => some names
  | _ => none

end LogicalLine

namespace Scan

theorem line_of_listed {line line' : Nat} {s : List Char} {names : List String}
    (h : visibleOf line s = .listed line' names) : line' = line := by
  unfold visibleOf at h
  split at h
  · injection h with hline
    exact hline.symm
  · cases h

theorem step_eq (scan : Scan) (l : LogicalLine) : scan.step l =
    { imports := scan.imports ++ l.imports (openBlock scan.typeBlock l.indent).isSome
      bound := scan.bound ++ l.bound
      listed := scan.listed ++ l.listed?.getD []
      listLine := if l.listed?.isSome then l.line else scan.listLine
      typeBlock := if l.IsHeader then some l.indent else openBlock scan.typeBlock l.indent } := by
  unfold step
  by_cases hheader : l.IsHeader
  · have hvisible : l.visible? = none := if_neg fun h => h.2 hheader
    rw [if_pos (isSome_of_isTypeHeader hheader)]
    simp [LogicalLine.imports, LogicalLine.bound, LogicalLine.listed?, hheader, hvisible]
  · rw [if_neg fun h => hheader (isTypeHeader_of_isSome h)]
    by_cases hindent : l.indent > 0
    · have hvisible : l.visible? = none := if_neg fun h => by omega
      simp [LogicalLine.imports, LogicalLine.bound, LogicalLine.listed?, hheader, hvisible, hindent]
    · have hvisible : l.visible? = some (visibleOf l.line (Text.trim l.text)) := if_pos ⟨by omega, hheader⟩
      cases hv : visibleOf l.line (Text.trim l.text) with
      | bound bs =>
        simp [LogicalLine.imports, LogicalLine.bound, LogicalLine.listed?, hheader, hvisible, hindent, hv, see]
      | listed line names =>
        simp [LogicalLine.imports, LogicalLine.bound, LogicalLine.listed?, hheader, hvisible, hindent, hv, see,
          line_of_listed hv]

end Scan

def scanned (ls : List LogicalLine) : Scan :=
  ls.foldl Scan.step {}

theorem scanned_concat (ls : List LogicalLine) (l : LogicalLine) : scanned (ls ++ [l]) = (scanned ls).step l := by
  rw [scanned, List.foldl_append]
  rfl

end ModuleGraph.Indent
