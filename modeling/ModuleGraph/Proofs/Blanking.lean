import ModuleGraph.Proofs.Encoding
import ModuleGraph.Proofs.LexemeReading
import Mathlib.Data.List.Forall2

namespace ModuleGraph.Comment

theorem strip_nil (family : Family) : strip family [] = [] := by
  cases family <;> rfl

section Bytes

/-- What may stand in the place of a byte: the byte itself, or a space unless the byte is a newline. -/
def Covers (out byte : UInt8) : Prop :=
  out = byte ∨ out = 0x20 ∧ byte ≠ 0x0A

theorem covers_refl (bytes : List UInt8) : List.Forall₂ Covers bytes bytes :=
  List.forall₂_same.mpr fun _ _ => .inl rfl

theorem covers_spaces {bytes : List UInt8} (h : 0x0A ∉ bytes) :
    List.Forall₂ Covers (List.replicate bytes.length 0x20) bytes := by
  induction bytes with
  | nil => exact .nil
  | cons b bytes ih =>
    obtain ⟨hb, h⟩ := not_or.mp (List.mem_cons.not.mp h)
    exact .cons (.inr ⟨rfl, fun he => hb he.symm⟩) (ih h)

theorem covers_blank (c : Char) : List.Forall₂ Covers (Utf8.bytes (blank c)) (Utf8.bytes [c]) := by
  by_cases hc : c = '\n'
  · subst hc
    exact covers_refl _
  · have hlength : (Utf8.bytes [c]).length = c.utf8Size := by
      rw [Utf8.bytes, List.flatMap_singleton, String.length_utf8EncodeChar]
    have hspaces : ∀ n, Utf8.bytes (List.replicate n ' ') = List.replicate n 0x20 := by
      intro n
      have hspace : String.utf8EncodeChar ' ' = [0x20] := rfl
      rw [Utf8.bytes, List.flatMap_replicate, hspace, List.flatten_replicate_singleton]
    rw [blank, if_neg hc, hspaces, ← hlength]
    exact covers_spaces (Utf8.not_mem_bytes_of_ne rfl hc)

theorem covers_flatMap_blank (s : List Char) :
    List.Forall₂ Covers (Utf8.bytes (s.flatMap blank)) (Utf8.bytes s) := by
  induction s with
  | nil => exact covers_refl _
  | cons c s ih =>
    rw [List.flatMap_cons, ← List.singleton_append, Utf8.bytes_append, Utf8.bytes_append]
    exact List.rel_append (covers_blank c) ih

theorem covers_blanked (x : Lexeme) : List.Forall₂ Covers (Utf8.bytes x.blanked) (Utf8.bytes x.text) := by
  cases x with
  | code => exact covers_refl _
  | literal => exact covers_refl _
  | comment => exact covers_flatMap_blank _

theorem covers_strip {family : Family} {s : List Char} {xs : List Lexeme} (h : Splits family.IsLexeme s xs) :
    List.Forall₂ Covers (Utf8.bytes (strip family s)) (Utf8.bytes s) := by
  induction h with
  | nil =>
    rw [strip_nil]
    exact covers_refl _
  | @cons x rest xs hx _ ih =>
    rw [strip_lexeme hx, Utf8.bytes_append, Utf8.bytes_append]
    exact List.rel_append (covers_blanked x) ih

end Bytes

section Again

variable {family : Family} {s rest : List Char} {x : Lexeme} {xs : List Lexeme}

theorem blank_eq_cons (c : Char) : ∃ d out, blank c = d :: out ∧ (d = c ∨ d = ' ') := by
  unfold blank
  split
  next hc => exact ⟨'\n', [], rfl, .inl hc.symm⟩
  next =>
    obtain ⟨n, hn⟩ := Nat.exists_eq_add_one_of_ne_zero c.utf8Size_pos.ne'
    exact ⟨' ', List.replicate n ' ', by rw [hn]; rfl, .inr rfl⟩

theorem eq_of_mem_blank {c d : Char} (h : d ∈ blank c) : d = ' ' ∨ d = '\n' := by
  unfold blank at h
  split at h
  · exact .inr (List.mem_singleton.mp h)
  · exact .inl (List.eq_of_mem_replicate h)

theorem blanked_eq_cons {c : Char} {tail : List Char} (h : x.text = c :: tail) :
    ∃ d out, x.blanked = d :: out ∧ (d = c ∨ d = ' ') := by
  cases x with
  | code => exact ⟨c, tail, h, .inl rfl⟩
  | literal => exact ⟨c, tail, h, .inl rfl⟩
  | comment opener interior closer =>
    obtain ⟨d, out, hblank, hd⟩ := blank_eq_cons c
    have htext : opener ++ interior ++ closer = c :: tail := h
    refine ⟨d, out ++ tail.flatMap blank, ?_, hd⟩
    rw [Lexeme.blanked, htext, List.flatMap_cons, hblank, List.cons_append]

theorem strip_eq_cons (family : Family) (c : Char) (cs : List Char) :
    ∃ d out, strip family (c :: cs) = d :: out ∧ (d = c ∨ d = ' ') := by
  obtain ⟨x, rest, htext, hx⟩ := exists_first family c cs
  obtain ⟨e, tail, hcons, _⟩ := lexeme_text_eq_cons hx
  have hsame : e = c := by
    rw [hcons] at htext
    exact (List.cons.inj htext).1
  obtain ⟨d, out, hblanked, hd⟩ := blanked_eq_cons hcons
  rw [← htext, strip_lexeme hx, hblanked, ← hsame]
  exact ⟨d, out ++ strip family rest, rfl, hd⟩

theorem prefix_of_prefix_strip {q : Char} (hq : q ≠ ' ') (h : [q] <+: strip family rest) : [q] <+: rest := by
  cases rest with
  | nil =>
    rw [strip_nil] at h
    exact h
  | cons c cs =>
    obtain ⟨d, out, hstrip, hd⟩ := strip_eq_cons family c cs
    rw [hstrip] at h
    obtain rfl : q = d := (List.cons_prefix_cons.mp h).1
    obtain rfl := hd.resolve_right hq
    exact List.prefix_append [q] cs

theorem literalTail_of_rest {ends : Char → Prop} {tail rest rest' : List Char} (h : LiteralTail ends tail rest)
    (hrest : rest = [] → rest' = []) : LiteralTail ends tail rest' := by
  induction h with
  | closed hc he => exact .closed hc he
  | unclosed =>
    rw [hrest rfl]
    exact .unclosed
  | loneBackslash =>
    rw [hrest rfl]
    exact .loneBackslash
  | escaped _ ih => exact .escaped (ih hrest)
  | plain hc he _ ih => exact .plain hc he (ih hrest)

/-- A lexeme that is kept may stand before the blanked rest: blanking brings no quote, slash or star to its end. -/
theorem isLexeme_strip (h : family.IsLexeme x rest)
    (hkept : ∀ opener interior closer, x ≠ .comment opener interior closer) :
    family.IsLexeme x (strip family rest) := by
  have hempty : rest = [] → strip family rest = [] := by
    rintro rfl
    exact strip_nil family
  cases family with
  | curly =>
    cases h with
    | code hq hs =>
      refine .code hq fun hc => ⟨?_, ?_⟩
      · exact fun hp => (hs hc).1 (prefix_of_prefix_strip (by decide) hp)
      · exact fun hp => (hs hc).2 (prefix_of_prefix_strip (by decide) hp)
    | literal hq ht => exact .literal hq (literalTail_of_rest ht hempty)
    | lineComment => exact absurd rfl (hkept _ _ _)
    | blockComment => exact absurd rfl (hkept _ _ _)
    | openComment => exact absurd rfl (hkept _ _ _)
  | indent =>
    cases h with
    | code hq hc => exact .code hq hc
    | @literal q tail _ hq hp ht =>
      refine .literal hq (fun hpair => hp ?_) (literalTail_of_rest ht hempty)
      -- Only an empty literal reaches into the rest: a third quote there would have opened a triple-quoted string.
      match tail with
      | [] =>
        cases ht
        exact hpair
      | [c] =>
        obtain ⟨rfl, hnext⟩ := List.cons_prefix_cons.mp hpair
        have hspace : q ≠ ' ' := by rcases hq with rfl | rfl <;> decide
        exact List.cons_prefix_cons.mpr ⟨rfl, prefix_of_prefix_strip hspace hnext⟩
      | c :: d :: tail => simpa using hpair
    | lineComment => exact absurd rfl (hkept _ _ _)
    | tripleQuoted => exact absurd rfl (hkept _ _ _)
    | openTripleQuoted => exact absurd rfl (hkept _ _ _)

theorem isLexeme_of_blank (family : Family) {c : Char} (hc : c = ' ' ∨ c = '\n') (rest : List Char) :
    family.IsLexeme (.code c) rest := by
  have hslash : c ≠ '/' := by rcases hc with rfl | rfl <;> decide
  have hhash : c ≠ '#' := by rcases hc with rfl | rfl <;> decide
  have hcurly : ¬IsCurlyQuote c := by rcases hc with rfl | rfl <;> decide
  have hindent : ¬IsIndentQuote c := by rcases hc with rfl | rfl <;> decide
  cases family with
  | curly => exact .code hcurly fun he => absurd he hslash
  | indent => exact .code hindent hhash

theorem splits_blanks_append (hs : Splits family.IsLexeme s xs) {blanks : List Char}
    (hblanks : ∀ c ∈ blanks, c = ' ' ∨ c = '\n') :
    Splits family.IsLexeme (blanks ++ s) (blanks.map .code ++ xs) := by
  induction blanks with
  | nil => exact hs
  | cons c blanks ih =>
    obtain ⟨hc, hblanks⟩ := List.forall_mem_cons.mp hblanks
    exact .cons (x := .code c) (isLexeme_of_blank family hc _) (ih hblanks)

/-- What is read in the place of a lexeme after blanking: a comment is as many characters of code as it has bytes. -/
def leftover : Lexeme → List Lexeme
  | .comment opener interior closer => ((opener ++ interior ++ closer).flatMap blank).map .code
  | x => [x]

theorem flatMap_blanked_leftover (x : Lexeme) : (leftover x).flatMap Lexeme.blanked = x.blanked := by
  cases x with
  | code c => rfl
  | literal t => exact List.append_nil t
  | comment opener interior closer =>
    rw [leftover, List.flatMap_map]
    exact List.flatMap_singleton' _

theorem splits_strip (h : Splits family.IsLexeme s xs) :
    Splits family.IsLexeme (strip family s) (xs.flatMap leftover) := by
  induction h with
  | nil =>
    rw [strip_nil]
    exact .nil
  | @cons x rest xs hx _ ih =>
    rw [strip_lexeme hx, List.flatMap_cons]
    cases x with
    | code c => exact .cons (x := .code c) (isLexeme_strip hx (by simp)) ih
    | literal t => exact .cons (x := .literal t) (isLexeme_strip hx (by simp)) ih
    | comment opener interior closer =>
      refine splits_blanks_append ih fun c hc => ?_
      obtain ⟨d, _, hd⟩ := List.mem_flatMap.mp hc
      exact eq_of_mem_blank hd

end Again

/-- Blanking a blanked text changes nothing. -/
theorem strip_strip (family : Family) (s : List Char) : strip family (strip family s) = strip family s := by
  obtain ⟨xs, hsplits⟩ := exists_splits family s
  rw [strip_of_splits (splits_strip hsplits), strip_of_splits hsplits, List.flatMap_assoc]
  simp only [flatMap_blanked_leftover]

end ModuleGraph.Comment
