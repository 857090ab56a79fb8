import ModuleGraph.Json.Decode
import ModuleGraph.Json.Write
import Mathlib.Data.List.TakeDrop
import Mathlib.Data.List.TakeWhile

namespace ModuleGraph.Json

theorem hexValue?_hexDigit {n : Nat} (h : n < 16) : Text.hexValue? (Text.hexDigit n) = some n := by
  revert n
  decide

theorem hexNumber?_control {n : Nat} (h : n < 0x20) :
    Text.hexNumber? ['0', '0', Text.hexDigit (n / 16), Text.hexDigit (n % 16)] = some n := by
  have hhigh := hexValue?_hexDigit (show n / 16 < 16 by omega)
  have hlow := hexValue?_hexDigit (show n % 16 < 16 by omega)
  have hzero : Text.hexValue? '0' = some 0 := rfl
  simp only [Text.hexNumber?, List.foldlM_cons, List.foldlM_nil, hzero, hhigh, hlow]
  simp [Nat.div_add_mod]

theorem escapeChar_cases (c : Char) :
    (∃ d, escapeChar c = ['\\', d] ∧ shortEscape? d = some c) ∨
    (c.toNat < 0x20 ∧ escapeChar c =
      ['\\', 'u', '0', '0', Text.hexDigit (c.toNat / 16), Text.hexDigit (c.toNat % 16)]) ∨
    (escapeChar c = [c] ∧ c ≠ '"' ∧ c ≠ '\\' ∧ ¬ c.toNat < 0x20) := by
  unfold escapeChar
  by_cases hshort : c = '"' ∨ c = '\\' ∨ c = '\n' ∨ c = '\r' ∨ c = '\t' ∨ c = '\x08' ∨ c = '\x0c'
  · left
    rcases hshort with rfl | rfl | rfl | rfl | rfl | rfl | rfl <;> exact ⟨_, rfl, rfl⟩
  · right
    simp only [not_or] at hshort
    by_cases hcontrol : c.toNat < 0x20 <;> simp [hshort, hcontrol]

theorem shortEscape?_ne_u {d c : Char} (h : shortEscape? d = some c) : d ≠ 'u' := by
  rintro rfl
  simp [shortEscape?] at h

theorem unescape?_escapeChar (c : Char) (rest : List Char) :
    unescape? (escapeChar c ++ rest) = (unescape? rest).map (c :: ·) := by
  rcases escapeChar_cases c with ⟨d, hc, hd⟩ | ⟨hlt, hc⟩ | ⟨hc, -, hslash, -⟩
  · have hu := shortEscape?_ne_u hd
    rw [hc]
    cases hr : unescape? rest <;> simp [unescape?, hu, hd, hr]
  · have hlow : isLowSurrogate c.toNat = false := by simp only [isLowSurrogate]; grind
    have hhigh : isHighSurrogate c.toNat = false := by simp only [isHighSurrogate]; grind
    rw [hc]
    cases hr : unescape? rest <;> simp [unescape?, hexNumber?_control hlt, hlow, hhigh, hr]
  · rw [hc]
    cases hr : unescape? rest <;> simp [unescape?, hslash, hr]

theorem unescape?_escape (s : List Char) : unescape? (escape s) = some s := by
  induction s with
  | nil => rfl
  | cons c s ih =>
    have hstep := unescape?_escapeChar c (escape s)
    rw [ih] at hstep
    exact hstep

/-- The spelling of a text: characters that stand for themselves, short escapes, and escapes by number. A quote,
a backslash and the control characters never stand for themselves. -/
inductive IsSpelling : List Char → Prop
  | nil : IsSpelling []
  | plain {c : Char} {rest : List Char} :
      c ≠ '"' → c ≠ '\\' → 0x20 ≤ c.toNat → IsSpelling rest → IsSpelling (c :: rest)
  | short {c : Char} {rest : List Char} :
      c ∈ ['"', '\\', '/', 'b', 'f', 'n', 'r', 't'] → IsSpelling rest → IsSpelling ('\\' :: c :: rest)
  | numbered {a b c d : Char} {rest : List Char} :
      (∀ digit ∈ [a, b, c, d], (Text.hexValue? digit).isSome) → IsSpelling rest →
      IsSpelling ('\\' :: 'u' :: a :: b :: c :: d :: rest)

theorem isSome_shortEscape? {c : Char} :
    (shortEscape? c).isSome ↔ c ∈ ['"', '\\', '/', 'b', 'f', 'n', 'r', 't'] := by
  simp only [shortEscape?, List.mem_cons, List.not_mem_nil, or_false]
  split_ifs <;> grind

theorem isSome_hexNumber? {digits : List Char} :
    (Text.hexNumber? digits).isSome ↔ ∀ d ∈ digits, (Text.hexValue? d).isSome := by
  have hfrom : ∀ n, (digits.foldlM (fun n d => (Text.hexValue? d).map (16 * n + ·)) n).isSome ↔
      ∀ d ∈ digits, (Text.hexValue? d).isSome := by
    induction digits with
    | nil => simp
    | cons d digits ih => intro n; cases h : Text.hexValue? d <;> simp [h, ih]
  exact hfrom 0

theorem readSpelling_eq_some {s spelling rest : List Char} (h : readSpelling s = some (spelling, rest)) :
    IsSpelling spelling ∧ s = spelling ++ '"' :: rest := by
  fun_induction readSpelling s generalizing spelling with
  | case1 => simp at h
  | case2 tail =>
    obtain ⟨rfl, rfl⟩ := Prod.mk.inj (Option.some.inj h)
    exact ⟨.nil, rfl⟩
  | case3 a b c d tail ih =>
    obtain ⟨n, hn, h⟩ := Option.bind_eq_some_iff.mp h
    obtain ⟨⟨inner, rest'⟩, hread, h⟩ := Option.bind_eq_some_iff.mp h
    obtain ⟨rfl, rfl⟩ := Prod.mk.inj (Option.some.inj h)
    obtain ⟨hinner, rfl⟩ := ih hread
    exact ⟨.numbered (isSome_hexNumber?.mp (by simp [hn])) hinner, rfl⟩
  | case4 c tail _ ih =>
    obtain ⟨n, hn, h⟩ := Option.bind_eq_some_iff.mp h
    obtain ⟨⟨inner, rest'⟩, hread, h⟩ := Option.bind_eq_some_iff.mp h
    obtain ⟨rfl, rfl⟩ := Prod.mk.inj (Option.some.inj h)
    obtain ⟨hinner, rfl⟩ := ih hread
    exact ⟨.short (isSome_shortEscape?.mp (by simp [hn])) hinner, rfl⟩
  | case5 => simp at h
  | case6 c tail hquote _ _ hc ih =>
    obtain ⟨⟨inner, rest'⟩, hread, h⟩ := Option.bind_eq_some_iff.mp h
    obtain ⟨rfl, rfl⟩ := Prod.mk.inj (Option.some.inj h)
    obtain ⟨hinner, rfl⟩ := ih hread
    obtain ⟨hslash, hcontrol⟩ := not_or.mp hc
    exact ⟨.plain hquote hslash (Nat.le_of_not_lt hcontrol) hinner, rfl⟩

theorem IsSpelling.readSpelling_append {spelling : List Char} (h : IsSpelling spelling) (rest : List Char) :
    readSpelling (spelling ++ '"' :: rest) = some (spelling, rest) := by
  induction h with
  | nil => rfl
  | plain hquote hslash hcontrol _ ih => simp [readSpelling, hslash, Nat.not_lt.mpr hcontrol, ih]
  | short hc _ ih =>
    obtain ⟨d, hd⟩ := Option.isSome_iff_exists.mp (isSome_shortEscape?.mpr hc)
    have hu := shortEscape?_ne_u hd
    simp [readSpelling, hu, hd, ih]
  | numbered hdigits _ ih =>
    obtain ⟨n, hn⟩ := Option.isSome_iff_exists.mp (isSome_hexNumber?.mpr hdigits)
    simp [readSpelling, hn, ih]

theorem isSpelling_escape (s : List Char) : IsSpelling (escape s) := by
  induction s with
  | nil => exact .nil
  | cons c s ih =>
    rw [escape, List.flatMap_cons]
    rcases escapeChar_cases c with ⟨d, hc, hd⟩ | ⟨hlt, hc⟩ | ⟨hc, hquote, hslash, hge⟩
    · rw [hc]
      exact .short (isSome_shortEscape?.mp (by simp [hd])) ih
    · rw [hc]
      exact .numbered (isSome_hexNumber?.mp (by simp [hexNumber?_control hlt])) ih
    · rw [hc]
      exact .plain hquote hslash (Nat.le_of_not_lt hge) ih

def IsDigits (ds : List Char) : Prop :=
  ds ≠ [] ∧ ∀ c ∈ ds, c.isDigit = true

def EndsNumber (rest : List Char) : Prop :=
  ∀ c ∈ rest.head?, c.isDigit = false ∧ c ≠ '.' ∧ c ≠ 'e' ∧ c ≠ 'E'

theorem readDigits_append {ds rest : List Char} (hds : IsDigits ds)
    (hrest : ∀ c ∈ rest.head?, c.isDigit = false) : readDigits (ds ++ rest) = some (ds, rest) := by
  have hspan : spanDigits (ds ++ rest) = (ds, rest) := by
    have htake : rest.takeWhile Char.isDigit = [] := by
      cases rest with
      | nil => rfl
      | cons c rest => simp [hrest c (by simp)]
    have hdrop : rest.dropWhile Char.isDigit = rest := by
      cases rest with
      | nil => rfl
      | cons c rest => simp [hrest c (by simp)]
    rw [spanDigits, List.span_eq_takeWhile_dropWhile, List.takeWhile_append_of_pos hds.2,
      List.dropWhile_append_of_pos hds.2, htake, hdrop, List.append_nil]
  unfold readDigits
  rw [hspan]
  split
  next h => exact absurd (Prod.mk.inj h).1 hds.1
  next => rfl

/-- The spelling of a number, cut into its parts: digits without a needless zero in front, a point with digits,
and a power of ten, with or without a sign. -/
structure IsNumeral (sign whole fraction exponent : List Char) : Prop where
  signForm : sign = [] ∨ sign = ['-']
  wholeForm : IsDigits whole
  wholeStart : whole = ['0'] ∨ whole.head? ≠ some '0'
  fractionForm : fraction = [] ∨ ∃ ds, fraction = '.' :: ds ∧ IsDigits ds
  exponentForm : exponent = [] ∨ ∃ e s ds, exponent = e :: s ++ ds ∧ (e = 'e' ∨ e = 'E') ∧
    (s = [] ∨ s = ['+'] ∨ s = ['-']) ∧ IsDigits ds

namespace IsNumeral

variable {sign whole fraction exponent rest : List Char}

theorem readExponent_append (h : IsNumeral sign whole fraction exponent) (hrest : EndsNumber rest) :
    readExponent (exponent ++ rest) = some (exponent, rest) := by
  rcases h.exponentForm with rfl | ⟨e, s, ds, rfl, he, hs, hds⟩
  · cases rest with
    | nil => rfl
    | cons c rest =>
      obtain ⟨-, -, he, hE⟩ := hrest c (by simp)
      simp [readExponent, he, hE]
  · have hread := readDigits_append hds fun c hc => (hrest c hc).1
    have hsign : readSign (s ++ (ds ++ rest)) = (s, ds ++ rest) := by
      rcases hs with rfl | rfl | rfl
      · obtain ⟨d, ds, rfl⟩ := List.exists_cons_of_ne_nil hds.1
        have hd := hds.2 d (by simp)
        have hplus : d ≠ '+' := by rintro rfl; exact absurd hd (by decide)
        have hminus : d ≠ '-' := by rintro rfl; exact absurd hd (by decide)
        simp [readSign, hplus, hminus]
      · rfl
      · rfl
    simp [readExponent, he, hsign, hread]

theorem readFraction_append (h : IsNumeral sign whole fraction exponent) (hrest : EndsNumber rest) :
    readFraction (fraction ++ (exponent ++ rest)) = some (fraction, exponent ++ rest) := by
  have hend : ∀ c ∈ (exponent ++ rest).head?, c.isDigit = false ∧ c ≠ '.' := by
    intro c hc
    rcases h.exponentForm with rfl | ⟨e, s, ds, rfl, he, -⟩
    · exact ⟨(hrest c hc).1, (hrest c hc).2.1⟩
    · have hc : e = c := by simpa using hc
      subst c
      rcases he with rfl | rfl <;> decide
  rcases h.fractionForm with rfl | ⟨ds, rfl, hds⟩
  · cases hr : exponent ++ rest with
    | nil => rfl
    | cons c tail =>
      have hpoint := (hend c (by simp [hr])).2
      simp [readFraction, hpoint]
  · have hread := readDigits_append hds fun c hc => (hend c hc).1
    simp [readFraction, hread]

theorem readWhole_append (h : IsNumeral sign whole fraction exponent) (hrest : EndsNumber rest) :
    readWhole (whole ++ (fraction ++ (exponent ++ rest))) = some (whole, fraction ++ (exponent ++ rest)) := by
  have hend : ∀ c ∈ (fraction ++ (exponent ++ rest)).head?, c.isDigit = false := by
    intro c hc
    rcases h.fractionForm with rfl | ⟨ds, rfl, -⟩
    · rcases h.exponentForm with rfl | ⟨e, s, ds, rfl, he, -⟩
      · exact (hrest c hc).1
      · have hc : e = c := by simpa using hc
        subst c
        rcases he with rfl | rfl <;> rfl
    · have he : '.' = c := by simpa using hc
      subst c
      rfl
  unfold readWhole
  rw [readDigits_append h.wholeForm hend]
  split
  next d ds tail heq =>
    obtain ⟨hw, -⟩ := Prod.mk.inj (Option.some.inj heq)
    rcases h.wholeStart with hz | hz
    · simp [hz] at hw
    · simp [hw] at hz
  next => rfl

theorem readNumber_append (h : IsNumeral sign whole fraction exponent) (hrest : EndsNumber rest) :
    readNumber (sign ++ whole ++ fraction ++ exponent ++ rest) =
      some (sign ++ whole ++ fraction ++ exponent, rest) := by
  have hwhole := h.readWhole_append hrest
  have hfraction := h.readFraction_append hrest
  have hexponent := h.readExponent_append hrest
  unfold readNumber
  rcases h.signForm with rfl | rfl
  · obtain ⟨d, ds, rfl⟩ := List.exists_cons_of_ne_nil h.wholeForm.1
    have hminus : d ≠ '-' := by
      rintro rfl
      exact absurd (h.wholeForm.2 '-' (by simp)) (by decide)
    simp only [List.nil_append, List.append_assoc, List.cons_append] at hwhole ⊢
    simp [hminus, hwhole, hfraction, hexponent]
  · simp [hwhole, hfraction, hexponent]

theorem head (h : IsNumeral sign whole fraction exponent) :
    ∃ c tail, sign ++ whole ++ fraction ++ exponent = c :: tail ∧ (c = '-' ∨ c.isDigit = true) := by
  rcases h.signForm with rfl | rfl
  · obtain ⟨d, ds, rfl⟩ := List.exists_cons_of_ne_nil h.wholeForm.1
    exact ⟨d, ds ++ fraction ++ exponent, rfl, .inr (h.wholeForm.2 d (by simp))⟩
  · exact ⟨'-', whole ++ fraction ++ exponent, rfl, .inl rfl⟩

end IsNumeral

section ReadParts

variable {s found rest : List Char}

theorem readDigits_eq_some (h : readDigits s = some (found, rest)) : IsDigits found ∧ s = found ++ rest := by
  unfold readDigits spanDigits at h
  rw [List.span_eq_takeWhile_dropWhile] at h
  split at h
  next => simp at h
  next ds hne =>
    obtain ⟨rfl, rfl⟩ := Prod.mk.inj (Option.some.inj h)
    refine ⟨⟨fun hnil => hne _ (by rw [hnil]), fun c hc => List.mem_takeWhile_imp hc⟩, ?_⟩
    exact List.takeWhile_append_dropWhile.symm

theorem readWhole_eq_some (h : readWhole s = some (found, rest)) :
    IsDigits found ∧ (found = ['0'] ∨ found.head? ≠ some '0') ∧ s = found ++ rest := by
  unfold readWhole at h
  split at h
  next => simp at h
  next hstart =>
    obtain ⟨hdigits, hs⟩ := readDigits_eq_some h
    refine ⟨hdigits, ?_, hs⟩
    by_contra hzero
    obtain ⟨hne, hhead⟩ := not_or.mp hzero
    obtain ⟨tail, rfl⟩ := List.head?_eq_some_iff.mp (not_not.mp hhead)
    cases tail with
    | nil => exact hne rfl
    | cons d tail => exact hstart d tail rest h

theorem readFraction_eq_some (h : readFraction s = some (found, rest)) :
    (found = [] ∨ ∃ ds, found = '.' :: ds ∧ IsDigits ds) ∧ s = found ++ rest := by
  unfold readFraction at h
  split at h
  next tail =>
    obtain ⟨⟨ds, rest'⟩, hread, heq⟩ := Option.map_eq_some_iff.mp h
    obtain ⟨rfl, rfl⟩ := Prod.mk.inj heq
    obtain ⟨hdigits, rfl⟩ := readDigits_eq_some hread
    exact ⟨.inr ⟨ds, rfl, hdigits⟩, rfl⟩
  next =>
    obtain ⟨rfl, rfl⟩ := Prod.mk.inj (Option.some.inj h)
    exact ⟨.inl rfl, rfl⟩

theorem readSign_eq (h : readSign s = (found, rest)) :
    (found = [] ∨ found = ['+'] ∨ found = ['-']) ∧ s = found ++ rest := by
  unfold readSign at h
  split at h <;> obtain ⟨rfl, rfl⟩ := Prod.mk.inj h <;> simp

theorem readExponent_eq_some (h : readExponent s = some (found, rest)) :
    (found = [] ∨ ∃ e sign ds, found = e :: sign ++ ds ∧ (e = 'e' ∨ e = 'E') ∧
      (sign = [] ∨ sign = ['+'] ∨ sign = ['-']) ∧ IsDigits ds) ∧ s = found ++ rest := by
  unfold readExponent at h
  split at h
  next =>
    obtain ⟨rfl, rfl⟩ := Prod.mk.inj (Option.some.inj h)
    exact ⟨.inl rfl, rfl⟩
  next e tail =>
    split at h
    next he =>
      rcases hread : readSign tail with ⟨sign, tail'⟩
      obtain ⟨hsign, rfl⟩ := readSign_eq hread
      rw [hread] at h
      obtain ⟨⟨ds, rest'⟩, hread, heq⟩ := Option.map_eq_some_iff.mp h
      obtain ⟨rfl, rfl⟩ := Prod.mk.inj heq
      obtain ⟨hdigits, rfl⟩ := readDigits_eq_some hread
      exact ⟨.inr ⟨e, sign, ds, rfl, he, hsign, hdigits⟩, by simp⟩
    next =>
      obtain ⟨rfl, rfl⟩ := Prod.mk.inj (Option.some.inj h)
      exact ⟨.inl rfl, rfl⟩

theorem readNumber_eq_some (h : readNumber s = some (found, rest)) :
    (∃ sign whole fraction exponent, found = sign ++ whole ++ fraction ++ exponent ∧
      IsNumeral sign whole fraction exponent) ∧ s = found ++ rest := by
  unfold readNumber at h
  split at h
  next sign tail heq =>
  have hsign : (sign = [] ∨ sign = ['-']) ∧ s = sign ++ tail := by
    split at heq <;> obtain ⟨rfl, rfl⟩ := Prod.mk.inj heq <;> simp
  obtain ⟨⟨whole, s₁⟩, hw, h⟩ := Option.bind_eq_some_iff.mp h
  obtain ⟨⟨fraction, s₂⟩, hf, h⟩ := Option.bind_eq_some_iff.mp h
  obtain ⟨⟨exponent, s₃⟩, he, h⟩ := Option.bind_eq_some_iff.mp h
  obtain ⟨rfl, rfl⟩ := Prod.mk.inj (Option.some.inj h)
  obtain ⟨hwhole, hstart, rfl⟩ := readWhole_eq_some hw
  obtain ⟨hfraction, rfl⟩ := readFraction_eq_some hf
  obtain ⟨hexponent, rfl⟩ := readExponent_eq_some he
  exact ⟨⟨sign, whole, fraction, exponent, rfl, hsign.1, hwhole, hstart, hfraction, hexponent⟩, by simp [hsign.2]⟩

end ReadParts

/-- A document whose texts, keys and numbers are spelled as JSON allows. -/
inductive WellSpelled : Json → Prop
  | null : WellSpelled .null
  | bool (b : Bool) : WellSpelled (.bool b)
  | number {sign whole fraction exponent : List Char} :
      IsNumeral sign whole fraction exponent → WellSpelled (.number (sign ++ whole ++ fraction ++ exponent))
  | string {spelling : List Char} : IsSpelling spelling → WellSpelled (.string spelling)
  | array {items : List Json} : (∀ j ∈ items, WellSpelled j) → WellSpelled (.array items)
  | object {members : List (List Char × Json)} :
      (∀ m ∈ members, IsSpelling m.1) → (∀ m ∈ members, WellSpelled m.2) → WellSpelled (.object members)

end ModuleGraph.Json
