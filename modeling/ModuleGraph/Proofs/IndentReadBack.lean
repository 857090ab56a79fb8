import ModuleGraph.Extract
import ModuleGraph.Proofs.IndentForms
import ModuleGraph.Proofs.IndentVisibility
import ModuleGraph.Proofs.Lexeme

namespace ModuleGraph.Indent

open Text (isAsciiWord ne_of_class Gap)

section Written

/-- Statements one after the other, each from the start of a line. The last line may have no end. -/
def written (ended : Bool) : List Statement → List Char
  | [] => []
  | [s] => s.text ++ if ended then ['\n'] else []
  | s :: s' :: ss => s.text ++ '\n' :: written ended (s' :: ss)

theorem Statement.OneLine.inline {s : Statement} {t : List Char} (h : s.OneLine t)
    (hs : ∀ ns, s ≠ .publicNames ns) : ∀ c ∈ t, isInline c = true := by
  have hdefinition : ∀ (n : Name) (rest : List Char), (∀ c ∈ rest, isInline c = true) →
      ∀ c ∈ n.text ++ rest, isInline c = true :=
    fun n rest hrest => List.forall_mem_append.mpr ⟨n.inline, hrest⟩
  cases s with
  | importModules first rest =>
    obtain rfl : t = _ := h
    exact forall_mem_keyword "import" (by decide) (by decide) (listed_modules_inline first rest)
  | fromImport source names =>
    obtain ⟨u, rfl, hu⟩ := h
    have hsource : ∀ c ∈ source.text, isInline c = true := fun c hc => isInline_of_dotted (source.chars c hc)
    have himport : ∀ c ∈ ' ' :: ("import".toList ++ ' ' :: u), isInline c = true :=
      List.forall_mem_cons.mpr ⟨by decide, forall_mem_keyword "import" (by decide) (by decide) hu.inline⟩
    exact forall_mem_keyword "from" (by decide) (by decide) (List.forall_mem_append.mpr ⟨hsource, himport⟩)
  | function isAsync n =>
    obtain rfl : t = _ := h
    have hdef := forall_mem_keyword "def" (by decide) (by decide) (hdefinition n "(): pass".toList (by decide))
    cases isAsync with
    | false => exact hdef
    | true => exact forall_mem_keyword "async" (by decide) (by decide) hdef
  | classDefinition n =>
    obtain rfl : t = _ := h
    exact forall_mem_keyword "class" (by decide) (by decide) (hdefinition n ": pass".toList (by decide))
  | assign n => exact (h : t = _) ▸ hdefinition n " = 1".toList (by decide)
  | annotate n => exact (h : t = _) ▸ hdefinition n ": int = 1".toList (by decide)
  | unpack a b =>
    obtain rfl : t = _ := h
    exact hdefinition a _ (List.forall_mem_append.mpr ⟨by decide, hdefinition b " = 1, 2".toList (by decide)⟩)
  | publicNames ns => exact absurd rfl (hs ns)

theorem Statement.OneLine.chars {s : Statement} {t : List Char} (h : s.OneLine t) :
    ∀ c ∈ t, c ≠ '\n' ∧ c ≠ '\\' := by
  by_cases hs : ∃ ns, s = .publicNames ns
  · obtain ⟨ns, rfl⟩ := hs
    exact fun c hc => (publicNames_chars ns c ((h : t = _) ▸ hc)).2.2
  · have hinline := h.inline fun ns hns => hs ⟨ns, hns⟩
    exact fun c hc => ⟨ne_of_class (hinline c hc) (by decide), ne_of_class (hinline c hc) (by decide)⟩

end Written

section Strip

open Comment

def isCode (c : Char) : Bool :=
  !Text.isQuote c && c != '#'

theorem stripHash_code {u : List Char} (h : ∀ c ∈ u, isCode c = true) (rest : List Char) :
    stripHash (u ++ rest) = u ++ stripHash rest := by
  induction u with
  | nil => rfl
  | cons c u ih =>
    obtain ⟨hc, hu⟩ := List.forall_mem_cons.mp h
    have hquote : ¬IsIndentQuote c := by
      rintro (rfl | rfl)
      · exact absurd hc (by decide)
      · exact absurd hc (by decide)
    rw [List.cons_append, stripHash, stripHashFrom_code hquote (ne_of_class hc (by decide))]
    exact congrArg (c :: ·) (ih hu)

theorem isCode_of_isPlain {c : Char} (h : isPlain c = true) : isCode c = true := by
  have hhash : c ≠ '#' := ne_of_class h (by decide)
  simp [isCode, isQuote_of_isPlain h, hhash]

theorem literalTail_name {w : List Char} (h : ∀ c ∈ w, isAsciiWord c = true) (rest : List Char) :
    LiteralTail (fun c => c = '\'' ∨ c = '\n') (w ++ ['\'']) rest := by
  induction w with
  | nil => exact .closed (by decide) (.inl rfl)
  | cons c w ih =>
    obtain ⟨hc, hw⟩ := List.forall_mem_cons.mp h
    refine .plain (ne_of_class hc (by decide)) ?_ (ih hw)
    rintro (he | he)
    · exact ne_of_class hc (by decide) he
    · exact ne_of_class hc (by decide) he

theorem stripHash_quoted (n : Name) (rest : List Char) :
    stripHash (quotedText n ++ rest) = quotedText n ++ stripHash rest := by
  obtain ⟨c, cs, hn, hc, -⟩ := n.exists_cons
  have hword := Text.isAsciiWord_of_isNameStart hc
  refine @stripHash_lexeme (.literal (quotedText n)) rest (.literal (.inl rfl) ?_ (literalTail_name n.parts rest))
  rw [hn]
  intro hprefix
  exact absurd (List.cons_prefix_cons.mp hprefix).1 (ne_of_class hword (by decide)).symm

theorem stripHash_quotedList (ns : List Name) (rest : List Char) :
    stripHash (quotedList ns ++ rest) = quotedList ns ++ stripHash rest := by
  refine @quotedList_induction (fun t => ∀ rest, stripHash (t ++ rest) = t ++ stripHash rest) (fun _ => rfl) ?_
    (stripHash_code (by decide)) stripHash_quoted ns rest
  intro u v hu hv rest
  rw [List.append_assoc, hu, hv, List.append_assoc]

theorem NameList.plain_text (names : NameList) : ∀ c ∈ names.text, isPlain c = true := by
  cases names with
  | plain first rest =>
    have hline : (NameList.plain first rest).OneLine (NameList.plain first rest).text := rfl
    exact fun c hc => isPlain_of_isInline (hline.inline c hc)
  | parenthesised first rest trailingComma =>
    have hitems := parenthesisedText_itemChars first rest trailingComma
    refine List.forall_mem_cons.mpr ⟨by decide, List.forall_mem_append.mpr ⟨fun c hc => ?_, by decide⟩⟩
    exact isPlain_of_isItemChar (hitems c hc)
  | star => decide

theorem Statement.plain_text (s : Statement) (hs : ∀ ns, s ≠ .publicNames ns) : ∀ c ∈ s.text, isPlain c = true := by
  by_cases hfrom : ∃ source names, s = .fromImport source names
  · obtain ⟨source, names, rfl⟩ := hfrom
    have hsource : ∀ c ∈ source.text, isPlain c = true :=
      fun c hc => isPlain_of_isInline (isInline_of_dotted (source.chars c hc))
    have himport := forall_mem_keyword "import" (by decide) (by decide) names.plain_text
    exact forall_mem_keyword "from" (by decide) (by decide)
      (List.forall_mem_append.mpr ⟨hsource, List.forall_mem_cons.mpr ⟨by decide, himport⟩⟩)
  · have hline : s.OneLine s.text := by
      cases s with
      | fromImport source names => exact absurd ⟨source, names, rfl⟩ hfrom
      | _ => exact rfl
    exact fun c hc => isPlain_of_isInline (hline.inline hs c hc)

theorem stripHash_text (s : Statement) (rest : List Char) : stripHash (s.text ++ rest) = s.text ++ stripHash rest := by
  by_cases hs : ∃ ns, s = .publicNames ns
  · obtain ⟨ns, rfl⟩ := hs
    have hopen : ∀ c ∈ "__all__ = [".toList, isCode c = true := by decide +kernel
    have hclose : ∀ c ∈ "]".toList, isCode c = true := by decide
    have htext : (Statement.publicNames ns).text = "__all__ = [".toList ++ (quotedList ns ++ "]".toList) := rfl
    rw [htext, List.append_assoc, List.append_assoc, stripHash_code hopen, stripHash_quotedList, stripHash_code hclose,
      List.append_assoc, List.append_assoc]
  · have hplain := s.plain_text fun ns hns => hs ⟨ns, hns⟩
    exact stripHash_code (fun c hc => isCode_of_isPlain (hplain c hc)) rest

end Strip

section Brackets

def Balanced (t : List Char) : Prop :=
  ∀ v, bracketDelta (t ++ v) = bracketDelta v

def isNeutral (c : Char) : Bool :=
  !Text.isQuote c && bracketStep c == 0

theorem Balanced.append {u v : List Char} (hu : Balanced u) (hv : Balanced v) : Balanced (u ++ v) := by
  intro w
  rw [List.append_assoc, hu, hv]

theorem bracketDelta_cons {c : Char} (h : Text.isQuote c = false) (v : List Char) :
    bracketDelta (c :: v) = bracketStep c + bracketDelta v := by
  simp [bracketDelta, bracketDeltaFrom, QuoteState.next, h]

theorem balanced_of_neutral {t : List Char} (h : ∀ c ∈ t, isNeutral c = true) : Balanced t := by
  intro v
  induction t with
  | nil => rfl
  | cons c t ih =>
    obtain ⟨hc, ht⟩ := List.forall_mem_cons.mp h
    simp only [isNeutral, Bool.and_eq_true, Bool.not_eq_true', beq_iff_eq] at hc
    rw [List.cons_append, bracketDelta_cons hc.1, hc.2, Int32.zero_add, ih ht]

theorem Balanced.enclosed {t : List Char} (h : Balanced t) {c d : Char} (hc : Text.isQuote c = false)
    (hd : Text.isQuote d = false) (hsum : bracketStep c + bracketStep d = 0) : Balanced (c :: (t ++ [d])) := by
  intro v
  rw [List.cons_append, List.append_assoc, bracketDelta_cons hc, h, List.singleton_append, bracketDelta_cons hd,
    ← Int32.add_assoc, hsum, Int32.zero_add]

theorem bracketDeltaFrom_inside {w : List Char} (h : ∀ c ∈ w, isAsciiWord c = true) (v : List Char) :
    bracketDeltaFrom (.inside '\'') (w ++ '\'' :: v) = bracketDelta v := by
  induction w with
  | nil => simp [bracketDeltaFrom, QuoteState.next, bracketDelta]
  | cons c w ih =>
    obtain ⟨hc, hw⟩ := List.forall_mem_cons.mp h
    have hbackslash : c ≠ '\\' := ne_of_class hc (by decide)
    have hquote : c ≠ '\'' := ne_of_class hc (by decide)
    simp [bracketDeltaFrom, QuoteState.next, hbackslash, hquote, ih hw]

theorem balanced_quotedText (n : Name) : Balanced (quotedText n) := by
  intro v
  have hopen : bracketDelta (quotedText n ++ v) = 0 + bracketDeltaFrom (.inside '\'') (n.text ++ '\'' :: v) := by
    simp [quotedText, bracketDelta, bracketDeltaFrom, QuoteState.next, Text.isQuote, bracketStep]
  rw [hopen, bracketDeltaFrom_inside n.parts, Int32.zero_add]

theorem balanced_quotedList (ns : List Name) : Balanced (quotedList ns) :=
  quotedList_induction (fun _ => rfl) Balanced.append (balanced_of_neutral (by decide)) balanced_quotedText ns

theorem isNeutral_of_isItemChar {c : Char} (h : isItemChar c = true) : isNeutral c = true := by
  have hround : c ≠ '(' ∧ c ≠ ')' := ⟨ne_of_class h (by decide), ne_of_class h (by decide)⟩
  have hsquare : c ≠ '[' ∧ c ≠ ']' := ⟨ne_of_class h (by decide), ne_of_class h (by decide)⟩
  have hcurly : c ≠ '{' ∧ c ≠ '}' := ⟨ne_of_class h (by decide), ne_of_class h (by decide)⟩
  simp [isNeutral, isQuote_of_isPlain (isPlain_of_isItemChar h), bracketStep, hround, hsquare, hcurly]

theorem balanced_name (n : Name) : Balanced n.text :=
  balanced_of_neutral fun c hc => isNeutral_of_isItemChar (isItemChar_of_isAsciiWord (n.parts c hc))

theorem isNeutral_of_dotted {c : Char} (h : isAsciiWord c = true ∨ c = '.') : isNeutral c = true := by
  rcases h with h | rfl
  · exact isNeutral_of_isItemChar (isItemChar_of_isAsciiWord h)
  · decide

theorem balanced_names {names : NameList} {u : List Char} (h : names.OneLine u) : Balanced u := by
  cases names with
  | plain first rest =>
    obtain rfl : u = _ := h
    refine balanced_of_neutral fun c hc => ?_
    rcases listed_nameItems_chars first rest c hc with (hc | rfl) | rfl
    · exact isNeutral_of_isItemChar (isItemChar_of_isAsciiWord hc)
    · decide
    · decide
  | parenthesised first rest trailingComma =>
    obtain ⟨inner, rfl, hinner, -⟩ := h
    have hitems := balanced_of_neutral fun c hc => isNeutral_of_isItemChar (hinner c hc).1
    exact hitems.enclosed (by decide) (by decide) (by decide)
  | star =>
    obtain rfl : u = _ := h
    exact balanced_of_neutral (by decide)

theorem balanced_modules (first : ModuleItem) (rest : List ModuleItem) :
    Balanced (listed first.text (rest.map ModuleItem.text)) := by
  have hitem : ∀ i : ModuleItem, Balanced i.text := by
    refine fun i => balanced_of_neutral fun c hc => ?_
    rcases i.chars c hc with (hc | rfl) | rfl
    · exact isNeutral_of_isItemChar (isItemChar_of_isAsciiWord hc)
    · decide
    · decide
  refine listed_induction (fun _ => rfl) Balanced.append (balanced_of_neutral (by decide)) (hitem first) fun t ht => ?_
  obtain ⟨i, -, rfl⟩ := List.mem_map.mp ht
  exact hitem i

theorem balanced_keyword (kw : String) {rest : List Char} (hkw : ∀ c ∈ kw.toList, isNeutral c = true)
    (hrest : Balanced rest) : Balanced (kw.toList ++ ' ' :: rest) := by
  have hspace : Balanced [' '] := balanced_of_neutral (by decide)
  exact (balanced_of_neutral hkw).append (hspace.append hrest)

theorem Statement.OneLine.balanced {s : Statement} {t : List Char} (h : s.OneLine t) : Balanced t := by
  have hspace : Balanced [' '] := balanced_of_neutral (by decide)
  have hpass : Balanced "(): pass".toList := by
    have hempty : Balanced ['(', ')'] := (balanced_of_neutral (by simp) : Balanced []).enclosed
      (by decide) (by decide) (by decide)
    exact hempty.append (balanced_of_neutral (by decide) : Balanced ": pass".toList)
  cases s with
  | importModules first rest =>
    obtain rfl : t = _ := h
    exact balanced_keyword "import" (by decide) (balanced_modules first rest)
  | fromImport source names =>
    obtain ⟨u, rfl, hu⟩ := h
    have hsource : Balanced source.text := balanced_of_neutral fun c hc => isNeutral_of_dotted (source.chars c hc)
    have himport := balanced_keyword "import" (by decide) (balanced_names hu)
    exact balanced_keyword "from" (by decide) (hsource.append (hspace.append himport))
  | function isAsync n =>
    obtain rfl : t = _ := h
    have hdef := balanced_keyword "def" (by decide) ((balanced_name n).append hpass)
    cases isAsync with
    | false => exact hdef
    | true => exact balanced_keyword "async" (by decide) hdef
  | classDefinition n =>
    obtain rfl : t = _ := h
    exact balanced_keyword "class" (by decide) ((balanced_name n).append (balanced_of_neutral (by decide)))
  | assign n => exact (h : t = _) ▸ (balanced_name n).append (balanced_of_neutral (by decide))
  | annotate n => exact (h : t = _) ▸ (balanced_name n).append (balanced_of_neutral (by decide))
  | unpack a b =>
    obtain rfl : t = _ := h
    exact (balanced_name a).append ((balanced_of_neutral (by decide)).append
      ((balanced_name b).append (balanced_of_neutral (by decide))))
  | publicNames ns =>
    obtain rfl : t = _ := h
    have hopen : Balanced "__all__ = ".toList := balanced_of_neutral (by decide)
    exact hopen.append ((balanced_quotedList ns).enclosed (by decide) (by decide) (by decide))

end Brackets

section Joining

theorem ofRaw_dropReturn {raw : List Char} (h : ∀ c ∈ raw, c ≠ '\\') :
    PhysicalLine.ofRaw (Text.dropReturn raw) = ⟨Text.trimEnd raw, false⟩ := by
  have hbody : Text.dropEndWhile (· == '\\') (Text.trimEnd raw) = Text.trimEnd raw := by
    refine Text.dropEndWhile_eq_self fun c hc => beq_false_of_ne (h c ?_)
    exact Text.mem_of_mem_trimEnd (List.mem_of_getLast? hc)
  have hend : Text.endsWith (Text.trimEnd raw) ['\\'] = false := by
    rw [Bool.eq_false_iff]
    intro hend
    have hmem : '\\' ∈ Text.trimEnd raw := (List.isSuffixOf_iff_suffix.mp hend).subset (List.mem_singleton_self _)
    exact h _ (Text.mem_of_mem_trimEnd hmem) rfl
  rw [PhysicalLine.ofRaw, Text.trimEnd_dropReturn]
  simp only [hbody, hend]

theorem joinLines_cons {state : Joining} {number : Nat} {raw : List Char} {rest : List (List Char)}
    {current : LogicalLine} (h : ∀ c ∈ raw, c ≠ '\\')
    (hcurrent : LogicalLine.extend? state.pending number (Text.trimEnd raw) = some current) :
    joinLines state number (Text.dropReturn raw :: rest) =
      if state.depth + bracketDelta (Text.trimEnd raw) > 0 then
        joinLines ⟨state.depth + bracketDelta (Text.trimEnd raw), some current⟩ (number + 1) rest
      else current :: joinLines {} (number + 1) rest := by
  simp [joinLines, ofRaw_dropReturn h, hcurrent]

theorem extend?_none {t : List Char} (hstart : Text.StartsSolid t) (hend : Text.EndsSolid t) (number : Nat) :
    LogicalLine.extend? none number t = some ⟨number, 0, t⟩ := by
  have htrim : Text.trim t = t := (Text.trimmed_of_solid hstart hend).trim_eq
  obtain ⟨c, cs, rfl, hc⟩ := hstart
  simp [LogicalLine.extend?, htrim, indentOf, hc, Text.byteLength]

theorem Balanced.delta_eq {t : List Char} (h : Balanced t) : bracketDelta t = 0 := by
  have hnil := h []
  rwa [List.append_nil] at hnil

theorem joinLines_oneLine {s : Statement} {t : List Char} (h : s.OneLine t) (number : Nat) (rest : List (List Char)) :
    joinLines {} number (Text.dropReturn t :: rest) = ⟨number, 0, t⟩ :: joinLines {} (number + 1) rest := by
  have hread := h.readAs number
  have htrim := hread.ends.trimEnd_eq
  have hcurrent : LogicalLine.extend? none number (Text.trimEnd t) = some ⟨number, 0, t⟩ := by
    rw [htrim]
    exact extend?_none hread.start hread.ends number
  rw [joinLines_cons (fun c hc => (h.chars c hc).2) hcurrent, htrim, h.balanced.delta_eq]
  rfl

def isSpacedChar (c : Char) : Bool :=
  isItemChar c && c != '\n'

theorem isNeutral_of_isSpacedChar {c : Char} (h : isSpacedChar c = true) : isNeutral c = true :=
  isNeutral_of_isItemChar (Bool.and_eq_true _ _ ▸ h).1

theorem joinLines_closing {head : List Char} {number : Nat} (rest : List (List Char)) (ls : List (List Char))
    {l taken : List Char} {next : Nat} (hl : ∀ t ∈ l :: ls, ∀ c ∈ t, isSpacedChar c = true)
    (htaken : ∀ c ∈ taken, isSpacedChar c = true) :
    ∃ inner, (∀ c ∈ inner, isSpacedChar c = true) ∧
      Text.itemWords inner = Text.itemWords (taken ++ '\n' :: (l ++ ls.flatMap ('\n' :: ·))) ∧
      joinLines ⟨1, some ⟨number, 0, head ++ taken⟩⟩ next
          ((Text.joinEnds (l :: ls) [[')']]).map Text.dropReturn ++ rest) =
        ⟨number, 0, head ++ (inner ++ [')'])⟩ :: joinLines {} (next + (ls.length + 1)) rest := by
  -- The induction takes in one line at a time; the words of what was taken so far stay those of the text.
  induction ls generalizing l taken next with
  | nil =>
    have hl : ∀ c ∈ l, isSpacedChar c = true := hl l List.mem_cons_self
    refine ⟨taken ++ ' ' :: Text.trimStart l, ?_, ?_, ?_⟩
    · refine List.forall_mem_append.mpr ⟨htaken, List.forall_mem_cons.mpr ⟨by decide, fun c hc => ?_⟩⟩
      exact hl c (Text.mem_of_mem_trimStart hc)
    · rw [Text.itemWords_append_blank (by decide), Text.itemWords_trimStart, List.flatMap_nil, List.append_nil,
        Text.itemWords_append_blank (by decide)]
    · have hbackslash : ∀ c ∈ l ++ [')'], c ≠ '\\' :=
        List.forall_mem_append.mpr ⟨fun c hc => ne_of_class (hl c hc) (by decide), by decide⟩
      have htrim : Text.trimEnd (l ++ [')']) = l ++ [')'] := Text.EndsSolid.trimEnd_eq ⟨l, ')', rfl, by decide⟩
      have hdelta : bracketDelta (l ++ [')']) = -1 := by
        rw [balanced_of_neutral fun c hc => isNeutral_of_isSpacedChar (hl c hc)]
        decide
      have hjoin := @joinLines_cons ⟨1, some ⟨number, 0, head ++ taken⟩⟩ next (l ++ [')']) rest _ hbackslash rfl
      rw [htrim, hdelta, Text.trim_append_solid (by decide)] at hjoin
      simpa [Text.joinEnds] using hjoin
  | cons l' ls ih =>
    obtain ⟨hhead, hls⟩ := List.forall_mem_cons.mp hl
    have htrimmed : ∀ c ∈ Text.trim (Text.trimEnd l), isSpacedChar c = true :=
      fun c hc => hhead c (Text.mem_of_mem_trimEnd (Text.mem_of_mem_trim hc))
    have hnext : ∀ c ∈ taken ++ ' ' :: Text.trim (Text.trimEnd l), isSpacedChar c = true :=
      List.forall_mem_append.mpr ⟨htaken, List.forall_mem_cons.mpr ⟨by decide, htrimmed⟩⟩
    obtain ⟨inner, hinner, hwords, hjoin⟩ := @ih l' (taken ++ ' ' :: Text.trim (Text.trimEnd l)) (next + 1) hls hnext
    refine ⟨inner, hinner, ?_, ?_⟩
    · have hform : taken ++ '\n' :: (l ++ (l' :: ls).flatMap ('\n' :: ·)) =
          (taken ++ '\n' :: l) ++ '\n' :: (l' ++ ls.flatMap ('\n' :: ·)) := by simp
      have hsame : Text.itemWords (taken ++ ' ' :: Text.trim (Text.trimEnd l)) = Text.itemWords (taken ++ '\n' :: l) := by
        rw [Text.itemWords_append_blank (by decide), Text.itemWords_append_blank (by decide), Text.itemWords_trim,
          Text.itemWords_trimEnd]
      have hnewline : Text.isBlank '\n' = true := by decide
      rw [hwords, hform, Text.itemWords_append_blank hnewline, Text.itemWords_append_blank hnewline (taken ++ '\n' :: l),
        hsame]
    · have hbackslash : ∀ c ∈ l, c ≠ '\\' := fun c hc => ne_of_class (hhead c hc) (by decide)
      have hdelta : bracketDelta (Text.trimEnd l) = 0 := by
        refine (balanced_of_neutral fun c hc => ?_).delta_eq
        exact isNeutral_of_isSpacedChar (hhead c (Text.mem_of_mem_trimEnd hc))
      have hstep := @joinLines_cons ⟨1, some ⟨number, 0, head ++ taken⟩⟩ next l
        ((Text.joinEnds (l' :: ls) [[')']]).map Text.dropReturn ++ rest) _ hbackslash rfl
      rw [hdelta, Int32.add_zero, if_pos (by decide : (0 : Int32) < 1), List.append_assoc, hjoin] at hstep
      refine hstep.trans ?_
      rw [List.length_cons, Nat.add_assoc, Nat.add_comm 1]

def openingText (source : ImportSource) : List Char :=
  "from".toList ++ ' ' :: (source.text ++ ' ' :: ("import".toList ++ ' ' :: ['(']))

theorem openingText_append (source : ImportSource) (t : List Char) :
    openingText source ++ t = "from".toList ++ ' ' :: (source.text ++ ' ' :: ("import".toList ++ ' ' :: '(' :: t)) := by
  simp [openingText]

theorem bracketDelta_openingText (source : ImportSource) (t : List Char) :
    bracketDelta (openingText source ++ t) = 1 + bracketDelta t := by
  have hsource : Balanced source.text := balanced_of_neutral fun c hc => isNeutral_of_dotted (source.chars c hc)
  have hspace : Balanced [' '] := balanced_of_neutral (by decide)
  have himport : Balanced ("import".toList ++ [' ']) := balanced_of_neutral (by decide)
  have hfrom : Balanced ("from".toList ++ [' ']) := balanced_of_neutral (by decide)
  have hform : openingText source ++ t = ("from".toList ++ [' ']) ++ (source.text ++ ([' '] ++
      (("import".toList ++ [' ']) ++ '(' :: t))) := by simp [openingText]
  rw [hform, hfrom, hsource, hspace, himport, bracketDelta_cons (by decide)]
  rfl

theorem openingText_chars (source : ImportSource) : ∀ c ∈ openingText source, isInline c = true := by
  have hsource : ∀ c ∈ source.text, isInline c = true := fun c hc => isInline_of_dotted (source.chars c hc)
  have himport := forall_mem_keyword "import" (by decide) (by decide) (by decide : ∀ c ∈ ['('], isInline c = true)
  exact forall_mem_keyword "from" (by decide) (by decide)
    (List.forall_mem_append.mpr ⟨hsource, List.forall_mem_cons.mpr ⟨by decide, himport⟩⟩)

theorem openingText_endsSolid (source : ImportSource) : Text.EndsSolid (openingText source) := by
  have hopen : Text.EndsSolid ['('] := ⟨[], '(', rfl, by decide⟩
  exact (((((hopen.cons ' ').append _).cons ' ').append _).cons ' ').append _

theorem joinLines_opening (source : ImportSource) {w : List Char} (hw : ∀ c ∈ w, isSpacedChar c = true) (number : Nat)
    (rest : List (List Char)) :
    joinLines {} number (Text.dropReturn (openingText source ++ w) :: rest) =
      joinLines ⟨1, some ⟨number, 0, openingText source ++ Text.trimEnd w⟩⟩ (number + 1) rest := by
  have hsolid := openingText_endsSolid source
  have hbackslash : ∀ c ∈ openingText source ++ w, c ≠ '\\' := List.forall_mem_append.mpr
    ⟨fun c hc => ne_of_class (openingText_chars source c hc) (by decide),
      fun c hc => ne_of_class (hw c hc) (by decide)⟩
  have htrim := hsolid.trimEnd_append w
  have hcurrent : LogicalLine.extend? none number (Text.trimEnd (openingText source ++ w)) =
      some ⟨number, 0, openingText source ++ Text.trimEnd w⟩ := by
    rw [htrim]
    exact extend?_none ⟨'f', _, rfl, by decide⟩ (hsolid.append_trimEnd w) number
  have hdelta : bracketDelta (Text.trimEnd (openingText source ++ w)) = 1 := by
    rw [htrim, bracketDelta_openingText, (balanced_of_neutral fun c hc =>
      isNeutral_of_isSpacedChar (hw c (Text.mem_of_mem_trimEnd hc))).delta_eq]
    rfl
  have hstep := @joinLines_cons {} number (openingText source ++ w) rest _ hbackslash hcurrent
  rwa [hdelta, if_pos (by decide)] at hstep

theorem oneLine_parenthesised (source : ImportSource) (first : SpacedItem) (items : List SpacedItem)
    (trailingComma : Option Gap) {inner : List Char} (hinner : ∀ c ∈ inner, isSpacedChar c = true)
    (hwords : Text.itemWords inner = Text.itemWords (parenthesisedText first items trailingComma)) :
    (Statement.fromImport source (.parenthesised first items trailingComma)).OneLine
      (openingText source ++ (inner ++ [')'])) := by
  refine ⟨'(' :: (inner ++ [')']), openingText_append source _, inner, rfl, fun c hc => ?_, hwords⟩
  have h : isItemChar c = true ∧ (c != '\n') = true := Bool.and_eq_true _ _ ▸ hinner c hc
  exact ⟨h.1, bne_iff_ne.mp h.2⟩

theorem joinLines_parenthesised (source : ImportSource) (first : SpacedItem) (items : List SpacedItem)
    (trailingComma : Option Gap) (number : Nat) (rest : List (List Char)) :
    ∃ t, (Statement.fromImport source (.parenthesised first items trailingComma)).OneLine t ∧
      joinLines {} number ((Text.pieces (· == '\n') (openingText source ++
          (parenthesisedText first items trailingComma ++ [')']))).map Text.dropReturn ++ rest) =
        ⟨number, 0, t⟩ :: joinLines {} (number + ((parenthesisedText first items trailingComma).count '\n' + 1)) rest := by
  obtain ⟨w, ws, hcut⟩ := Text.exists_pieces (· == '\n') (parenthesisedText first items trailingComma)
  have hbody := Text.eq_flatMap_pieces hcut
  have hchars : ∀ t ∈ w :: ws, ∀ c ∈ t, isSpacedChar c = true := by
    intro t ht c hc
    rw [← hcut] at ht
    obtain ⟨hmem, hline⟩ := Text.mem_pieces ht c hc
    have hline : c ≠ '\n' := beq_eq_false_iff_ne.mp hline
    simp [isSpacedChar, parenthesisedText_itemChars first items trailingComma c hmem, hline]
  have hopening : Text.pieces (· == '\n') (openingText source) = [openingText source] :=
    Text.pieces_of_forall fun c hc => beq_false_of_ne (ne_of_class (openingText_chars source c hc) (by decide))
  have hclosing : Text.pieces (· == '\n') [')'] = [[')']] := rfl
  have hcount : (parenthesisedText first items trailingComma).count '\n' = ws.length := by
    have hlen := Text.length_pieces '\n' (parenthesisedText first items trailingComma)
    rw [hcut, List.length_cons] at hlen
    omega
  rw [Text.pieces_append, Text.pieces_append, hopening, hclosing, hcut, hcount]
  cases ws with
  | nil =>
    rw [List.flatMap_nil, List.append_nil] at hbody
    have hline := oneLine_parenthesised source first items trailingComma (hchars w List.mem_cons_self)
      (congrArg Text.itemWords hbody.symm)
    exact ⟨_, hline, joinLines_oneLine hline number rest⟩
  | cons w' ws =>
    obtain ⟨hw, hws⟩ := List.forall_mem_cons.mp hchars
    have htrimmed : ∀ c ∈ Text.trimEnd w, isSpacedChar c = true := fun c hc => hw c (Text.mem_of_mem_trimEnd hc)
    obtain ⟨inner, hinner, hwords, hjoin⟩ := @joinLines_closing (openingText source) number rest ws w' (Text.trimEnd w)
      (number + 1) hws htrimmed
    have hline := oneLine_parenthesised source first items trailingComma hinner (by
      rw [hwords, hbody, Text.itemWords_append_blank (by decide), Text.itemWords_trimEnd, List.flatMap_cons,
        List.cons_append, Text.itemWords_append_blank (by decide)])
    refine ⟨_, hline, ?_⟩
    have hstep := joinLines_opening source hw number ((Text.joinEnds (w' :: ws) [[')']]).map Text.dropReturn ++ rest)
    refine hstep.trans (hjoin.trans ?_)
    rw [List.length_cons, Nat.add_assoc, Nat.add_comm 1]

theorem text_parenthesised (source : ImportSource) (first : SpacedItem) (items : List SpacedItem)
    (trailingComma : Option Gap) :
    (Statement.fromImport source (.parenthesised first items trailingComma)).text =
      openingText source ++ (parenthesisedText first items trailingComma ++ [')']) :=
  (openingText_append source _).symm

theorem eq_parenthesised_of_not_oneLine {s : Statement} (hs : ¬ s.OneLine s.text) :
    ∃ source first items trailingComma, s = .fromImport source (.parenthesised first items trailingComma) := by
  cases s with
  | fromImport source names =>
    cases names with
    | plain first items => exact absurd ⟨_, rfl, rfl⟩ hs
    | parenthesised first items trailingComma => exact ⟨source, first, items, trailingComma, rfl⟩
    | star => exact absurd ⟨_, rfl, rfl⟩ hs
  | _ => exact absurd rfl hs

theorem joinLines_statement (s : Statement) (number : Nat) (rest : List (List Char)) :
    ∃ t, s.OneLine t ∧
      joinLines {} number ((Text.pieces (· == '\n') s.text).map Text.dropReturn ++ rest) =
        ⟨number, 0, t⟩ :: joinLines {} (number + s.height) rest := by
  by_cases hs : s.OneLine s.text
  · have hline : ∀ c ∈ s.text, (c == '\n') = false := fun c hc => beq_false_of_ne (hs.chars c hc).1
    have hheight : s.height = 1 := by
      rw [Statement.height, List.count_eq_zero.mpr fun hmem => (hs.chars _ hmem).1 rfl]
    refine ⟨s.text, hs, ?_⟩
    rw [Text.pieces_of_forall hline, hheight]
    exact joinLines_oneLine hs number rest
  · obtain ⟨source, first, items, trailingComma, rfl⟩ := eq_parenthesised_of_not_oneLine hs
    have hopening : (openingText source).count '\n' = 0 :=
      List.count_eq_zero.mpr fun hmem => ne_of_class (openingText_chars source _ hmem) (by decide) rfl
    have hheight : (Statement.fromImport source (.parenthesised first items trailingComma)).height =
        (parenthesisedText first items trailingComma).count '\n' + 1 := by
      rw [Statement.height, text_parenthesised, List.count_append, List.count_append, hopening]
      simp
    rw [hheight, text_parenthesised]
    exact joinLines_parenthesised source first items trailingComma number rest

end Joining

section Scanned

def Scan.takeIn (scan : Scan) (line : Nat) : List Statement → Scan
  | [] => scan
  | s :: ss => (Scan.see { scan with imports := scan.imports ++ s.imports line } (s.visible line)).takeIn
      (line + s.height) ss

/-- The imports of statements that start on the given line. -/
def importsFrom (line : Nat) : List Statement → List Import
  | [] => []
  | s :: ss => s.imports line ++ importsFrom (line + s.height) ss

theorem Scan.see_typeBlock (scan : Scan) (v : Visible) : (scan.see v).typeBlock = scan.typeBlock := by
  cases v <;> rfl

theorem Scan.see_imports (scan : Scan) (v : Visible) : (scan.see v).imports = scan.imports := by
  cases v <;> rfl

theorem Statement.text_endsSolid (s : Statement) : Text.EndsSolid s.text := by
  by_cases hs : s.OneLine s.text
  · exact (hs.readAs 0).ends
  · obtain ⟨source, first, items, trailingComma, rfl⟩ := eq_parenthesised_of_not_oneLine hs
    rw [text_parenthesised]
    exact ⟨openingText source ++ parenthesisedText first items trailingComma, ')', by simp, by decide⟩

theorem lines_written_cons (ended : Bool) (s : Statement) (ss : List Statement) :
    Text.lines (written ended (s :: ss)) =
      (Text.pieces (· == '\n') s.text).map Text.dropReturn ++ Text.lines (written ended ss) := by
  cases ss with
  | nil =>
    cases ended with
    | true => exact Text.lines_append_newline s.text []
    | false =>
      have hnil : Text.lines (written false []) = [] := rfl
      rw [hnil, List.append_nil, ← s.text_endsSolid.lines_eq]
      exact congrArg Text.lines (List.append_nil s.text)
  | cons s' ss => exact Text.lines_append_newline s.text (written ended (s' :: ss))

theorem foldl_step_written (ended : Bool) (ss : List Statement) (line : Nat) {scan : Scan}
    (hblock : scan.typeBlock = none) :
    (joinLines {} line (Text.lines (written ended ss))).foldl Scan.step scan = scan.takeIn line ss := by
  induction ss generalizing line scan with
  | nil => rfl
  | cons s ss ih =>
    obtain ⟨t, ht, hjoin⟩ := joinLines_statement s line (Text.lines (written ended ss))
    rw [lines_written_cons, hjoin, List.foldl_cons, (ht.readAs line).step hblock]
    exact ih _ (by rw [Scan.see_typeBlock]; exact hblock)

theorem Scan.takeIn_imports (ss : List Statement) (scan : Scan) (line : Nat) :
    (scan.takeIn line ss).imports = scan.imports ++ importsFrom line ss := by
  induction ss generalizing scan line with
  | nil => exact (List.append_nil _).symm
  | cons s ss ih => rw [takeIn, ih, Scan.see_imports, importsFrom, List.append_assoc]

theorem Scan.takeIn_bound (ss : List Statement) (scan : Scan) (line : Nat) :
    (scan.takeIn line ss).bound.map (·.name) =
      scan.bound.map (·.name) ++ ss.flatMap fun s => s.bound.map fun n => String.ofList n.text := by
  induction ss generalizing scan line with
  | nil => exact (List.append_nil _).symm
  | cons s ss ih =>
    rw [takeIn, ih, List.flatMap_cons, ← List.append_assoc]
    cases s <;> simp [Statement.visible, Scan.see, Statement.bound]

theorem Scan.takeIn_listed (ss : List Statement) (scan : Scan) (line : Nat) :
    (scan.takeIn line ss).listed =
      scan.listed ++ ss.flatMap fun s => s.listedNames.map fun n => String.ofList n.text := by
  induction ss generalizing scan line with
  | nil => exact (List.append_nil _).symm
  | cons s ss ih =>
    rw [takeIn, ih, List.flatMap_cons, ← List.append_assoc]
    cases s <;> simp [Statement.visible, Scan.see, Statement.listedNames]

theorem stripHash_written (ended : Bool) (ss : List Statement) :
    Comment.stripHash (written ended ss) = written ended ss := by
  have hend : ∀ e : Bool, Comment.stripHash (if e then ['\n'] else []) = if e then ['\n'] else [] := by
    intro e
    cases e <;> rfl
  induction ss with
  | nil => rfl
  | cons s ss ih =>
    cases ss with
    | nil => exact (stripHash_text s _).trans (congrArg (s.text ++ ·) (hend ended))
    | cons s' ss =>
      have hnewline : ∀ c ∈ ['\n'], isCode c = true := by decide
      refine (stripHash_text s _).trans (congrArg (s.text ++ ·) ?_)
      exact (stripHash_code hnewline _).trans (congrArg ('\n' :: ·) ih)

theorem Statement.exists_cons (s : Statement) : ∃ c cs, s.text = c :: cs ∧ isAsciiWord c = true := by
  have hname : ∀ (n : Name) (rest : List Char), ∃ c cs, n.text ++ rest = c :: cs ∧ isAsciiWord c = true := by
    intro n rest
    obtain ⟨c, cs, hn, hc, -⟩ := n.exists_cons
    exact ⟨c, cs ++ rest, by rw [hn]; rfl, Text.isAsciiWord_of_isNameStart hc⟩
  cases s with
  | importModules first rest => exact ⟨'i', _, rfl, by decide⟩
  | fromImport source names => exact ⟨'f', _, rfl, by decide⟩
  | function isAsync n =>
    cases isAsync with
    | false => exact ⟨'d', _, rfl, by decide⟩
    | true => exact ⟨'a', _, rfl, by decide⟩
  | classDefinition n => exact ⟨'c', _, rfl, by decide⟩
  | assign n => exact hname n _
  | annotate n => exact hname n _
  | unpack a b => exact hname a _
  | publicNames ns => exact ⟨'_', _, rfl, by decide⟩

theorem dropMark_written (ended : Bool) (ss : List Statement) :
    Declarations.dropMark (written ended ss) = written ended ss := by
  cases ss with
  | nil => rfl
  | cons s ss =>
    obtain ⟨c, cs, hs, hc⟩ := s.exists_cons
    obtain ⟨rest, hrest⟩ : ∃ rest, written ended (s :: ss) = c :: rest := by
      cases ss with
      | nil => exact ⟨_, by rw [written, hs, List.cons_append]⟩
      | cons s' ss => exact ⟨_, by rw [written, hs, List.cons_append]⟩
    rw [hrest, Declarations.dropMark, if_neg]
    exact ne_of_class hc (by decide)

end Scanned

/-- Statements written one after the other are read back: there are no errors, each imported module and each
from-import is an import on the line that its statement starts on, in the order of the statements, and the exported
names are, each once, the bound names that do not start with an underscore and all listed names. -/
theorem declarations_of_written_statements (ended : Bool) (ss : List Statement) :
    let d := Declarations.ofSource .indent (written ended ss)
    d.errors = [] ∧ d.imports = importsFrom 1 ss ∧ (d.exports.map (·.name)).Nodup ∧
      ∀ name, name ∈ d.exports.map (·.name) ↔
        ((∃ s ∈ ss, ∃ n ∈ s.bound, String.ofList n.text = name) ∧ name.toList.head? ≠ some '_') ∨
          ∃ s ∈ ss, ∃ n ∈ s.listedNames, String.ofList n.text = name := by
  have hscan : Declarations.ofSource .indent (written ended ss) =
      { imports := (Scan.takeIn {} 1 ss).imports, exports := (Scan.takeIn {} 1 ss).exports } := by
    rw [Declarations.ofSource, dropMark_written, extract, stripHash_written, logicalLines,
      foldl_step_written ended ss 1 rfl]
  intro d
  refine ⟨congrArg Declarations.errors hscan, ?_, ?_, fun name => ?_⟩
  · exact (congrArg Declarations.imports hscan).trans (Scan.takeIn_imports ss {} 1)
  · rw [show d.exports = _ from congrArg Declarations.exports hscan]
    exact Scan.exports_names_nodup _
  · rw [show d.exports = _ from congrArg Declarations.exports hscan, Scan.mem_exports_names, Scan.takeIn_bound,
      Scan.takeIn_listed]
    simp [IsPublic]

end ModuleGraph.Indent
