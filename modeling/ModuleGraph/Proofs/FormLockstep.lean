import ModuleGraph.Proofs.CurlyReadBack
import ModuleGraph.Proofs.LockstepReading

namespace ModuleGraph.Curly

open Text (Widened IsFiller Uniform Solid Stops uniform_of_eq solid_of_eq)
open Pattern

section Blocks

variable {T T' : List Char}

theorem solid_isNameChar : Solid Text.isNameChar :=
  solid_of_eq (by decide) (by decide) (by decide)

theorem solid_isQuote : Solid Text.isQuote :=
  solid_of_eq (by decide) (by decide) (by decide)

theorem lockstep_blanks : blanks.Lockstep (InStep T T') (InStep T T') :=
  lockstep_run Text.uniform_isBlank

theorem lockstep_blanks1 : blanks1.Lockstep (InStep T T') (InStep T T') :=
  lockstep_run1 Text.uniform_isBlank

theorem lockstep_name (slot : Slot) : (name slot).Lockstep (InStep T T') (InStep T T') :=
  lockstep_word solid_isNameChar slot

theorem lockstep_keyword {s : String} (hs : Text.IsPlainWord s.toList) :
    (keyword s).Lockstep (InStep T T') (InStep T T') :=
  (lockstep_text hs).seq lockstep_blanks1

theorem lockstep_wholeWord {s : String} (hs : Text.IsPlainWord s.toList) :
    (wholeWord s).Lockstep (InStep T T') (InStep T T') :=
  (lockstep_text hs).seq (lockstep_anchor .wordEdge)

theorem lockstep_char {c : Char} (hc : Text.IsPlainWord [c]) :
    (Pattern.one (· == c)).Lockstep (InStep T T') (InStep T T') := by
  obtain ⟨hne, hf⟩ := hc c (List.mem_singleton_self c)
  refine lockstep_one ⟨beq_eq_false_iff_ne.mpr hne.symm, fun f hf' => beq_eq_false_iff_ne.mpr ?_⟩
  rintro rfl
  exact hf hf'

theorem lockstep_braced {inner : Pattern → Pattern}
    (h : (inner (run (· != '}'))).Lockstep (InStep T T') (InStep T T')) :
    (braced inner).Lockstep (InStep T T') (InStep T T') := by
  refine lockstep_inOrder ?_
  simpa using ⟨lockstep_char (by decide), h, lockstep_char (by decide)⟩

theorem lockstep_body : (run (· != '}')).Lockstep (InStep T T') (InStep T T') :=
  lockstep_run (uniform_of_eq (by decide) (by decide))

/-- A place where a statement may start is found in both texts; white space up to the end of a line leads to no
statement. -/
theorem lockstep_statementStart : statementStart.Lockstep (InStep T T') (SideBySide T T' (Near T T')) :=
  ((lockstep_anchor .lineStart).either (lockstep_char (by decide))).seq (lockstep_run_near (by decide))

theorem lockstep_statement {w : String} (hw : Text.IsPlainWord w.toList) (hne : ∃ d ∈ w.toList.head?, d ≠ '\n')
    {ps : List Pattern} (h : (inOrder ps).Lockstep (InStep T T') (InStep T T')) :
    (inOrder (statementStart :: .part .keyword (text w) :: ps)).Lockstep (InStep T T') (InStep T T') := by
  refine lockstep_statementStart.seq (Lockstep.near (((lockstep_text hw).part .keyword rfl).seq h) ?_)
  intro before cs
  refine Opens.unread_cons (Opens.seq (opens_text w) _) ?_
  simpa using hne

theorem lockstep_quotedSource : quotedSource.Lockstep (InStep T T') (InStep T T') :=
  (lockstep_one solid_isQuote).seq (lockstep_enclosed (by decide) solid_isQuote .source)

theorem lockstep_fromSource : fromSource.Lockstep (InStep T T') (InStep T T') := by
  refine lockstep_inOrder ?_
  simpa using ⟨lockstep_blanks, lockstep_text (by decide), lockstep_blanks, lockstep_quotedSource⟩

theorem lockstep_callOfSource : callOfSource.Lockstep (InStep T T') (InStep T T') := by
  refine lockstep_inOrder ?_
  simpa using ⟨lockstep_blanks, lockstep_char (by decide), lockstep_blanks, lockstep_quotedSource, lockstep_blanks,
    lockstep_char (by decide)⟩

theorem lockstep_export {ps : List Pattern} (h : ∀ p ∈ ps, p.Lockstep (InStep T T') (InStep T T')) :
    (inOrder (exportHead :: ps)).Lockstep (InStep T T') (InStep T T') := by
  refine Lockstep.seq (lockstep_statement (by decide) (by decide) ?_) (lockstep_inOrder h)
  exact lockstep_inOrder (by simpa using lockstep_blanks1)

end Blocks

section Forms

variable {T T' : List Char}

theorem lockstep_declareMark : declareMark.Lockstep (InStep T T') (InStep T T') :=
  (lockstep_keyword (by decide)).optional

theorem Declarator.lockstep (d : Declarator) : d.pattern.Lockstep (InStep T T') (InStep T T') := by
  have hname : (name .name).Lockstep (InStep T T') (InStep T T') := lockstep_name .name
  have hmark : declareMark.Lockstep (InStep T T') (InStep T T') := lockstep_declareMark
  cases d with
  | constant =>
    refine lockstep_export ?_
    have hword : (oneOf (text "const") [text "let", text "var"]).Lockstep (InStep T T') (InStep T T') :=
      lockstep_oneOf (by simpa using ⟨lockstep_text (by decide), lockstep_text (by decide), lockstep_text (by decide)⟩)
    simpa using ⟨hmark, hword, lockstep_blanks1, hname⟩
  | function =>
    refine lockstep_export ?_
    simpa using ⟨hmark, (lockstep_keyword (by decide)).optional, lockstep_text (by decide), lockstep_blanks,
      (lockstep_char (by decide)).optional, lockstep_blanks, hname⟩
  | classDefinition =>
    refine lockstep_export ?_
    simpa using ⟨hmark, (lockstep_keyword (by decide)).optional, lockstep_keyword (by decide), hname⟩
  | type =>
    refine lockstep_export ?_
    simpa using ⟨hmark, lockstep_keyword (by decide), hname⟩
  | interface =>
    refine lockstep_export ?_
    simpa using ⟨hmark, lockstep_keyword (by decide), hname⟩
  | enum =>
    refine lockstep_export ?_
    simpa using ⟨hmark, (lockstep_keyword (by decide)).optional, lockstep_keyword (by decide), hname⟩

theorem lockstep_sideEffectImport : sideEffectImport.Lockstep (InStep T T') (InStep T T') :=
  lockstep_statement (by decide) (by decide)
    (lockstep_inOrder (by simpa using ⟨lockstep_blanks, lockstep_quotedSource⟩))

theorem lockstep_requireCall : requireCall.Lockstep (InStep T T') (InStep T T') := by
  have hword : (oneOf (text "const") [text "let", text "var"]).Lockstep (InStep T T') (InStep T T') :=
    lockstep_oneOf (by simpa using ⟨lockstep_text (by decide), lockstep_text (by decide), lockstep_text (by decide)⟩)
  have hbinding : (Pattern.part .binding (.either (braced id) (run1 Text.isNameChar))).Lockstep (InStep T T')
      (InStep T T') :=
    ((lockstep_braced lockstep_body).either (lockstep_run1 solid_isNameChar.uniform)).part .binding rfl
  have hlead : (inOrder [oneOf (text "const") [text "let", text "var"], blanks1,
      .part .binding (.either (braced id) (run1 Text.isNameChar)), blanks, .one (· == '='), blanks]).Lockstep
      (InStep T T') (InStep T T') :=
    lockstep_inOrder (by
      simpa using ⟨hword, lockstep_blanks1, hbinding, lockstep_blanks, lockstep_char (by decide), lockstep_blanks⟩)
  refine lockstep_inOrder ?_
  simpa using ⟨hlead.optional, lockstep_anchor .wordEdge, lockstep_text (by decide), lockstep_callOfSource⟩

theorem lockstep_dynamicImport : dynamicImport.Lockstep (InStep T T') (InStep T T') := by
  refine lockstep_inOrder ?_
  simpa using ⟨lockstep_anchor .wordEdge, lockstep_text (by decide), lockstep_callOfSource⟩

theorem lockstep_function :
    (Pattern.seq (keyword "async") (wholeWord "function")).Lockstep (InStep T T') (InStep T T') :=
  (lockstep_keyword (by decide)).seq (lockstep_wholeWord (by decide))

theorem lockstep_exportDefault : exportDefault.Lockstep (InStep T T') (InStep T T') := by
  have hsubject : (oneOf (.seq (keyword "async") (wholeWord "function")) [wholeWord "function",
      .seq (keyword "abstract") (wholeWord "class"), wholeWord "class"]).Lockstep (InStep T T') (InStep T T') :=
    lockstep_oneOf (by
      simpa using ⟨lockstep_function, lockstep_wholeWord (by decide),
        (lockstep_keyword (by decide)).seq (lockstep_wholeWord (by decide)), lockstep_wholeWord (by decide)⟩)
  refine lockstep_export ?_
  simpa using ⟨lockstep_keyword (by decide), (hsubject.part .subject rfl).optional⟩

theorem lockstep_exportList : exportList.Lockstep (InStep T T') (InStep T T') := by
  refine lockstep_export ?_
  simpa using ⟨((lockstep_keyword (by decide)).part .typeMark rfl).optional,
    lockstep_braced (lockstep_body.part .names rfl), lockstep_fromSource.optional⟩

theorem lockstep_exportStar : exportStar.Lockstep (InStep T T') (InStep T T') := by
  have hname : (inOrder [blanks1, text "as", blanks1, .part .name (eagerRun1 Text.isNameChar)]).Lockstep (InStep T T')
      (InStep T T') :=
    lockstep_inOrder (by
      simpa using ⟨lockstep_blanks1, lockstep_text (by decide), lockstep_blanks1,
        lockstep_eagerWord solid_isNameChar .name⟩)
  refine lockstep_export ?_
  simpa using ⟨lockstep_char (by decide), hname.optional, lockstep_fromSource⟩

theorem lockstep_moduleExports : moduleExports.Lockstep (InStep T T') (InStep T T') := by
  have hvalue : (oneOf (braced id) [.seq (keyword "async") (wholeWord "function"), wholeWord "function",
      wholeWord "class"]).Lockstep (InStep T T') (InStep T T') :=
    lockstep_oneOf (by
      simpa using ⟨lockstep_braced lockstep_body, lockstep_function, lockstep_wholeWord (by decide),
        lockstep_wholeWord (by decide)⟩)
  refine lockstep_statement (by decide) (by decide) (lockstep_inOrder ?_)
  simpa using ⟨lockstep_blanks, lockstep_char (by decide), lockstep_blanks, (hvalue.part .value rfl).optional⟩

variable (T T') in
/-- The parts of an assignment to a property. Its value runs to the end of the line, so it may take the filler of the
line end with it. -/
def ValueAlike (ps ps' : List Part) : Prop :=
  ∃ a a' b b' qs qs', ps = ⟨.value, a, b⟩ :: qs ∧ ps' = ⟨.value, a', b'⟩ :: qs' ∧ Aligned T T' a a' ∧ Near T T' b b' ∧
    List.Forall₂ (PartAlike T T') qs qs'

variable (T T') in
/-- Readings that have read the value of a property to the end of its line. -/
def ValueRead (r r' : Reading) : Prop :=
  Near T T' r.place r'.place ∧ ValueAlike T T' r.parts r'.parts

theorem lockstep_value {ok : Char → Bool} (hok : Solid ok) :
    (Pattern.part .value (.seq (.one ok) (run (· != '\n')))).Lockstep (InStep T T') (ValueRead T T') := by
  have hline : (Pattern.seq (.one ok) (run (· != '\n'))).Lockstep (InStep T T') (SideBySide T T' (Near T T')) :=
    (lockstep_one hok).seq (lockstep_run_near (by decide))
  intro β γ V never next next' r r' hr hnever h
  refine hline β γ V _ _ _ r r' hr hnever fun a b hab hn => h _ _ ⟨hab.place, ?_⟩ hn
  exact ⟨_, _, _, _, _, _, rfl, rfl, hr.place, hab.place, hab.parts⟩

theorem lockstep_exportsProperty : exportsProperty.Lockstep (InStep T T') (ValueRead T T') := by
  have hsolid : Solid fun c : Char => c != '=' && !Text.isBlank c := solid_of_eq (by decide) (by decide) (by decide)
  have hkeyword : (Pattern.part .keyword (.seq (optional (text "module.")) (text "exports"))).Lockstep (InStep T T')
      (InStep T T') :=
    ((lockstep_text (by decide)).optional.seq (lockstep_text (by decide))).part .keyword rfl
  have hdot : (Pattern.one (· == '.')).Lockstep (InStep T T') (InStep T T') := lockstep_char (by decide)
  have hsign : (Pattern.one (· == '=')).Lockstep (InStep T T') (InStep T T') := lockstep_char (by decide)
  have hvalue := lockstep_blanks.seq (hsign.seq (lockstep_blanks.seq ((lockstep_value hsolid).seq lockstep_empty)))
  have hproperty := hkeyword.seq (hdot.seq ((lockstep_name .name).seq hvalue))
  refine lockstep_statementStart.seq (hproperty.near fun before cs => ?_)
  exact Opens.unread_cons (Opens.seq ((opens_text "module.").optional_seq (opens_text "exports")) _) (by simp)

end Forms

end ModuleGraph.Curly
