import ModuleGraph.Proofs.IndentStatement

namespace ModuleGraph.Indent

open Text (isAsciiWord ne_of_class Gap)

section Leads

def Leads (w t : List Char) : Prop :=
  ∃ t', t = w ++ t' ∧ (∀ c ∈ w, isAsciiWord c = true) ∧ Text.Stops isAsciiWord t'

theorem stops_isAsciiWord_of_blank {c : Char} (hc : Text.isBlank c = true) (cs : List Char) :
    Text.Stops isAsciiWord (c :: cs) := by
  rw [Text.stops_cons, Bool.eq_false_iff]
  intro hword
  rw [Text.isBlank_of_isAsciiWord hword] at hc
  cases hc

theorem Leads.eq_of_append {w t w' t' : List Char} (h : Leads w t) (ht : t = w' ++ t')
    (hw' : ∀ c ∈ w', isAsciiWord c = true) (ht' : Text.Stops isAsciiWord t') : w = w' := by
  obtain ⟨t'', rfl, hw, hstop⟩ := h
  exact (Text.run_unique ht hw hstop hw' ht').1

end Leads

section Unread

open Pattern

variable {before : Option Char} {s rest t w : List Char}

theorem reads_keyword {kw : String} :
    (keyword kw).Reads before s rest ↔
      ∃ g, s = kw.toList ++ g ∧ g ≠ [] ∧ Text.IsGap g ∧ Text.Stops Text.isBlank rest := by
  simp only [keyword, Reads, reads_text, blanks1, reads_run1]
  constructor
  · rintro ⟨u, g, rfl, rfl, hne, hg, hstop⟩
    exact ⟨g, rfl, hne, hg, hstop⟩
  · rintro ⟨g, rfl, hne, hg, hstop⟩
    exact ⟨_, g, rfl, rfl, hne, hg, hstop⟩

theorem Leads.eq_keyword {kw : String} (h : Leads w t) (hk : (keyword kw).Reads before s rest) (ht : t = s ++ rest)
    (hkw : ∀ c ∈ kw.toList, isAsciiWord c = true) : w = kw.toList := by
  obtain ⟨g, rfl, hne, hg, -⟩ := reads_keyword.mp hk
  obtain ⟨c, g, rfl⟩ := List.exists_cons_of_ne_nil hne
  rw [List.append_assoc] at ht
  exact h.eq_of_append ht hkw (stops_isAsciiWord_of_blank (hg c List.mem_cons_self) _)

theorem matchStart_eq_none {p : Pattern} (h : ∀ s rest, t = s ++ rest → ¬ p.Reads none s rest) :
    p.matchStart t = none :=
  read_eq_none h

theorem fromImport_eq_none (h : Leads w t) (hw : w ≠ "from".toList) : fromImport.matchStart t = none := by
  refine matchStart_eq_none fun s rest ht hr => hw ?_
  obtain ⟨u, v, rfl, hk, -⟩ := reads_inOrder_cons.mp hr
  exact h.eq_keyword hk (by rw [ht, List.append_assoc]) (by decide)

theorem plainImport_eq_none (h : Leads w t) (hw : w ≠ "import".toList) : plainImport.matchStart t = none := by
  refine matchStart_eq_none fun s rest ht hr => hw ?_
  obtain ⟨u, v, rfl, hk, -⟩ := hr
  exact h.eq_keyword hk (by rw [ht, List.append_assoc]) (by decide)

theorem typeCheckingHeader_eq_none (h : Leads w t) (hw : w ≠ "if".toList) :
    typeCheckingHeader.matchStart t = none := by
  refine matchStart_eq_none fun s rest ht hr => hw ?_
  obtain ⟨u, v, rfl, hk, -⟩ := reads_inOrder_cons.mp hr
  exact h.eq_keyword hk (by rw [ht, List.append_assoc]) (by decide)

theorem functionDefinition_eq_none (h : Leads w t) (hasync : w ≠ "async".toList) (hdef : w ≠ "def".toList) :
    functionDefinition.matchStart t = none := by
  refine matchStart_eq_none fun s rest ht hr => ?_
  obtain ⟨u, v, rfl, hopt, hr⟩ := reads_inOrder_cons.mp hr
  rcases hopt with hk | rfl
  · exact hasync (h.eq_keyword hk (by rw [ht, List.append_assoc]) (by decide))
  · obtain ⟨u', v', rfl, hk, -⟩ := reads_inOrder_cons.mp hr
    exact hdef (h.eq_keyword hk (by rw [ht, List.nil_append, List.append_assoc]) (by decide))

theorem classDefinition_eq_none (h : Leads w t) (hw : w ≠ "class".toList) : classDefinition.matchStart t = none := by
  refine matchStart_eq_none fun s rest ht hr => hw ?_
  obtain ⟨u, v, rfl, hk, -⟩ := hr
  exact h.eq_keyword hk (by rw [ht, List.append_assoc]) (by decide)

/-- What a list of public names is read as: its name, something that starts with no word character, and an
opening bracket inside. -/
theorem reads_publicNames (h : publicNames.Reads before s rest) :
    ∃ v, s = "__all__".toList ++ v ∧ Text.Stops isAsciiWord (v ++ rest) ∧ ∃ c ∈ v, c = '[' ∨ c = '(' := by
  obtain ⟨u, v, rfl, hall, h⟩ := reads_inOrder_cons.mp h
  obtain ⟨g, v, rfl, hg, h⟩ := reads_inOrder_cons.mp h
  obtain ⟨o, v, rfl, ho, h⟩ := reads_inOrder_cons.mp h
  obtain ⟨e, v, rfl, he, h⟩ := reads_inOrder_cons.mp h
  obtain ⟨g', v, rfl, -, h⟩ := reads_inOrder_cons.mp h
  obtain ⟨b, v, rfl, ⟨c, rfl, hc⟩, -⟩ := reads_inOrder_cons.mp h
  refine ⟨_, by rw [reads_text.mp hall], ?_, c, by simp, by simpa using hc⟩
  obtain ⟨hg, -⟩ := reads_run.mp hg
  cases g with
  | cons d g => exact stops_isAsciiWord_of_blank (hg d List.mem_cons_self) _
  | nil =>
    rcases ho with ⟨colon, type, rfl, ⟨d, rfl, hd⟩, -⟩ | rfl
    · rw [beq_iff_eq.mp hd]
      exact Text.stops_cons.mpr (by decide)
    · rcases he with he | he
      · rw [reads_text.mp he]
        exact Text.stops_cons.mpr (by decide)
      · rw [reads_text.mp he]
        exact Text.stops_cons.mpr (by decide)

theorem publicNames_eq_none_of_leads (h : Leads w t) (hw : w ≠ "__all__".toList) : publicNames.matchStart t = none := by
  refine matchStart_eq_none fun s rest ht hr => hw ?_
  obtain ⟨v, rfl, hstop, -⟩ := reads_publicNames hr
  exact h.eq_of_append (by rw [ht, List.append_assoc]) (by decide) hstop

theorem publicNames_eq_none_of_brackets (h : ∀ c ∈ t, c ≠ '[' ∧ c ≠ '(') : publicNames.matchStart t = none := by
  refine matchStart_eq_none fun s rest ht hr => ?_
  obtain ⟨v, rfl, -, c, hc, hb⟩ := reads_publicNames hr
  have hmem : c ∈ t := by
    rw [ht]
    exact List.mem_append_left _ (List.mem_append_right _ hc)
  rcases hb with hb | hb
  · exact (h c hmem).1 hb
  · exact (h c hmem).2 hb

theorem reads_identifier (h : identifier.Reads before s rest) :
    (∀ c ∈ s, Text.isWord c = true) ∧ Text.Stops Text.isWord rest := by
  obtain ⟨u, v, rfl, ⟨c, rfl, hc⟩, hv⟩ := h
  obtain ⟨hv, hstop⟩ := reads_run.mp hv
  exact ⟨List.forall_mem_cons.mpr ⟨Text.isWord_of_isNameStart hc, hv⟩, hstop⟩

structure GoesOn (w t : List Char) (c : Char) : Prop where
  isWord : ∀ d ∈ w, Text.isWord d = true
  split : ∃ g t', t = w ++ (g ++ c :: t') ∧ Text.IsGap g ∧ Text.Stops Text.isWord (g ++ c :: t')
  notBlank : Text.isBlank c = false

theorem GoesOn.eq_of_reads {c d : Char} {u v g : List Char} (h : GoesOn w t c)
    (hu : identifier.Reads before u v) (ht : t = u ++ v) (hv : ∃ t', v = g ++ d :: t') (hg : Text.IsGap g)
    (hd : Text.isBlank d = false) : c = d := by
  obtain ⟨g', t'', rfl, hg', hstop⟩ := h.split
  obtain ⟨t', hv⟩ := hv
  obtain ⟨hu, hv'⟩ := reads_identifier hu
  obtain ⟨-, hrest⟩ := Text.run_unique ht h.isWord hstop hu hv'
  rw [hv] at hrest
  obtain ⟨-, hc⟩ := Text.run_unique hrest hg' (Text.stops_cons.mpr h.notBlank) hg (Text.stops_cons.mpr hd)
  exact (List.cons.inj hc).1

theorem annotatedAssignment_eq_none {c : Char} (h : GoesOn w t c) (hc : c ≠ ':') :
    annotatedAssignment.matchStart t = none := by
  refine matchStart_eq_none fun s rest ht hr => hc ?_
  obtain ⟨u, v, rfl, hu, hr⟩ := reads_inOrder_cons.mp hr
  obtain ⟨g, v, rfl, hg, hr⟩ := reads_inOrder_cons.mp hr
  obtain ⟨x, v, rfl, ⟨d, rfl, hd⟩, -⟩ := reads_inOrder_cons.mp hr
  rw [beq_iff_eq.mp hd] at *
  rw [List.append_assoc] at ht
  exact h.eq_of_reads hu ht ⟨v ++ rest, by simp⟩ (reads_run.mp hg).1 (by decide)

theorem assignment_eq_none {c : Char} (h : GoesOn w t c) (heq : c ≠ '=') (hcomma : c ≠ ',') :
    assignment.matchStart t = none := by
  refine matchStart_eq_none fun s rest ht hr => ?_
  obtain ⟨p, v, rfl, ⟨u, q, rfl, hu, hq⟩, hr⟩ := reads_inOrder_cons.mp hr
  obtain ⟨g, v, rfl, hg, hr⟩ := reads_inOrder_cons.mp hr
  obtain ⟨x, v, rfl, ⟨e, f, rfl, ⟨d, rfl, hd⟩, -⟩, -⟩ := reads_inOrder_cons.mp hr
  rw [beq_iff_eq.mp hd] at *
  -- either the equals sign follows the name, or a comma does
  cases hq with
  | done =>
    exact heq (h.eq_of_reads hu (by simpa using ht) ⟨f ++ (v ++ rest), by simp⟩ (reads_run.mp hg).1 (by decide))
  | more hq _ =>
    obtain ⟨g', v', rfl, hg', hq⟩ := reads_inOrder_cons.mp hq
    obtain ⟨x', v', rfl, ⟨d', rfl, hd'⟩, -⟩ := reads_inOrder_cons.mp hq
    rw [beq_iff_eq.mp hd'] at *
    exact hcomma (h.eq_of_reads hu (by simpa using ht) ⟨_, by simp; rfl⟩ (reads_run.mp hg').1 (by decide))

theorem dynamicImport_matchesIn_eq_nil (h : '(' ∉ t ∨ ∀ c ∈ t, Text.isQuote c = false) :
    dynamicImport.matchesIn t = [] := by
  refine matchesIn_eq_nil fun before u v s rest ht hv hr => ?_
  obtain ⟨f, v₁, rfl, -, hr⟩ := reads_inOrder_cons.mp hr
  obtain ⟨g, v₂, rfl, -, hr⟩ := reads_inOrder_cons.mp hr
  obtain ⟨b, v₃, rfl, ⟨c, rfl, hc⟩, hr⟩ := reads_inOrder_cons.mp hr
  obtain ⟨g', v₄, rfl, -, hr⟩ := reads_inOrder_cons.mp hr
  obtain ⟨q, v₅, rfl, ⟨d, rfl, hd⟩, -⟩ := reads_inOrder_cons.mp hr
  rw [beq_iff_eq.mp hc] at hv
  rw [hv] at ht
  rcases h with h | h
  · exact h (by rw [ht]; simp)
  · rw [h d (by rw [ht]; simp)] at hd
    cases hd

end Unread

section Read

open Pattern

variable {β : Type} {next : Reading → Option β} {place : Cursor} {u rest : List Char} {parts : List Part}

theorem read_keyword (kw : String) (hrest : Text.Stops Text.isBlank rest) :
    (keyword kw).read next ⟨place.beyond u (kw.toList ++ ' ' :: rest), parts⟩ =
      next ⟨place.beyond (u ++ kw.toList ++ [' ']) rest, parts⟩ := by
  rw [keyword, read_seq, read_text, read_blanks1_space hrest]

theorem read_identifier (n : Name) (hrest : Text.Stops Text.isWord rest) :
    identifier.read next ⟨place.beyond u (n.text ++ rest), parts⟩ = next ⟨place.beyond (u ++ n.text) rest, parts⟩ := by
  obtain ⟨c, cs, hn, hc, hcs⟩ := n.exists_cons
  rw [hn, identifier, read_seq, List.cons_append, read_one hc, read_run hcs hrest, List.append_assoc,
    List.singleton_append]

theorem read_restOfLine (slot : Slot) {w : List Char} (hne : w ≠ []) (hw : ∀ c ∈ w, c ≠ '\n') :
    (restOfLine slot).read next ⟨place.beyond u w, parts⟩ =
      next ⟨place.beyond (u ++ w) [], ⟨slot, place.beyond u w, place.beyond (u ++ w) []⟩ :: parts⟩ := by
  have hrun := fun next' : Reading → Option β => @read_run1 β next' place u w [] parts (fun c => !isNewline c) hne
    (fun c hc => by simp [isNewline, hw c hc]) (Text.stops_nil _)
  rw [List.append_nil] at hrun
  rw [restOfLine, read_seq, read_part, hrun]
  rfl

theorem read_modulePath (source : ImportSource) (hrest : Text.Stops isDottedChar rest) :
    modulePath.read next ⟨place.beyond u (source.text ++ rest), parts⟩ =
      next ⟨place.beyond (u ++ source.text) rest,
        ⟨.source, place.beyond u (source.text ++ rest), place.beyond (u ++ source.text) rest⟩ :: parts⟩ := by
  have hdotted : ∀ c ∈ source.text, isDottedChar c = true := by
    intro c hc
    rcases source.chars c hc with hc | rfl
    · simp [isDottedChar, Text.isWord_of_isAsciiWord hc]
    · rfl
  have hwhole : ∀ next' : Reading → Option β,
      (run1 isDottedChar).read next' ⟨place.beyond u (source.text ++ rest), parts⟩ =
        next' ⟨place.beyond (u ++ source.text) rest, parts⟩ :=
    fun next' => read_run1 source.text_ne_nil hdotted hrest
  rw [modulePath, read_part]
  cases source with
  | absolute path =>
    obtain ⟨c, cs, hpath, hc⟩ := path.exists_cons
    rw [read_either_of_none, hwhole]
    refine read_eq_none ?_
    rintro s t hst ⟨dots, v, rfl, hdots, -⟩
    obtain ⟨hne, hdots, -⟩ := reads_run1.mp hdots
    obtain ⟨d, dots, rfl⟩ := List.exists_cons_of_ne_nil hne
    have hd : d = '.' := beq_iff_eq.mp (hdots d List.mem_cons_self)
    have hcd : c = d := by
      have h : c :: (cs ++ rest) = d :: (dots ++ v ++ t) := by simpa [ImportSource.text, hpath] using hst
      exact (List.cons.inj h).1
    rw [hcd, hd] at hc
    exact absurd hc (by decide)
  | relative moreDots path =>
    have hpath : Text.Stops (· == '.') (path.elim [] Dotted.text ++ rest) := by
      cases path with
      | none =>
        intro c hc
        rw [Bool.eq_false_iff]
        intro hdot
        have hstop := hrest c hc
        rw [beq_iff_eq.mp hdot] at hstop
        exact absurd hstop (by decide)
      | some path =>
        obtain ⟨c, cs, hpath, hc⟩ := path.exists_cons
        rw [Option.elim_some, hpath]
        exact Text.stops_cons.mpr (beq_false_of_ne (ne_of_class hc (by decide)))
    have hsplit : (ImportSource.relative moreDots path).text ++ rest =
        List.replicate (moreDots + 1) '.' ++ (path.elim [] Dotted.text ++ rest) := List.append_assoc _ _ _
    rw [read_either_of_eq, hwhole]
    rw [hwhole, hsplit, read_seq, read_run1 (by simp) (by simp) hpath, read_run ?_ hrest, List.append_assoc]
    · rfl
    · intro c hc
      exact hdotted c (List.mem_append_right _ hc)

theorem ImportSource.startsSolid (source : ImportSource) : Text.StartsSolid source.text := by
  obtain ⟨c, cs, h⟩ := List.exists_cons_of_ne_nil source.text_ne_nil
  exact ⟨c, cs, h, isBlank_of_dotted (source.chars c (by simp [h]))⟩

theorem fromImport_match (source : ImportSource) {t : List Char} (hstart : Text.StartsSolid t)
    (hline : ∀ c ∈ t, c ≠ '\n') :
    ∃ m, fromImport.matchStart ("from".toList ++ ' ' :: (source.text ++ ' ' :: ("import".toList ++ ' ' :: t))) =
        some m ∧ m.textOf .source = source.text ∧ m.textOf .names = t := by
  have hsource := (source.startsSolid.append (' ' :: ("import".toList ++ ' ' :: t))).stops
  have hspace : Text.Stops isDottedChar (' ' :: ("import".toList ++ ' ' :: t)) := Text.stops_cons.mpr (by decide)
  have himport : Text.Stops Text.isBlank ("import".toList ++ ' ' :: t) := Text.stops_cons.mpr (by decide)
  rw [matchStart_eq, fromImport, read_inOrder_cons, read_keyword "from" hsource, read_inOrder_cons,
    read_modulePath source hspace, read_inOrder_cons, read_blanks1_space himport, read_inOrder_cons,
    read_keyword "import" hstart.stops, read_inOrder_cons, read_restOfLine .names hstart.ne_nil hline, read_inOrder_nil]
  refine ⟨_, rfl, ?_, ?_⟩
  · simp [Match.textOf, Match.text?, Match.part?]
  · simp [Match.textOf, Match.text?, Match.part?]

theorem plainImport_match {t : List Char} (hstart : Text.StartsSolid t) (hline : ∀ c ∈ t, c ≠ '\n') :
    ∃ m, plainImport.matchStart ("import".toList ++ ' ' :: t) = some m ∧ m.textOf .names = t := by
  rw [matchStart_eq, plainImport, read_seq, read_keyword "import" hstart.stops,
    read_restOfLine .names hstart.ne_nil hline]
  refine ⟨_, rfl, ?_⟩
  simp [Match.textOf, Match.text?, Match.part?]

theorem functionDefinition_match (n : Name) :
    ∃ m, functionDefinition.matchStart ("def".toList ++ ' ' :: (n.text ++ "(): pass".toList)) = some m ∧
      m.textOf .name = n.text := by
  have hname := (n.startsSolid.append "(): pass".toList).stops
  have hstop : Text.Stops Text.isWord "(): pass".toList := Text.stops_cons.mpr (by decide)
  have hlead : Leads "def".toList ("def".toList ++ ' ' :: (n.text ++ "(): pass".toList)) :=
    ⟨_, rfl, by decide, Text.stops_cons.mpr (by decide)⟩
  rw [matchStart_eq, functionDefinition, read_inOrder_cons, read_optional_of_none, read_inOrder_cons,
    read_keyword "def" hname, read_inOrder_cons, read_part, read_identifier n hstop, read_inOrder_nil]
  · refine ⟨_, rfl, ?_⟩
    simp [Match.textOf, Match.text?, Match.part?]
  · refine read_eq_none fun s rest hs hr => ?_
    exact absurd (hlead.eq_keyword hr hs (by decide)) (by decide)

theorem functionDefinition_match_async (n : Name) :
    ∃ m, functionDefinition.matchStart ("async".toList ++ ' ' :: ("def".toList ++ ' ' :: (n.text ++ "(): pass".toList))) =
        some m ∧ m.textOf .name = n.text := by
  have hname := (n.startsSolid.append "(): pass".toList).stops
  have hstop : Text.Stops Text.isWord "(): pass".toList := Text.stops_cons.mpr (by decide)
  have hdef : Text.Stops Text.isBlank ("def".toList ++ ' ' :: (n.text ++ "(): pass".toList)) :=
    Text.stops_cons.mpr (by decide)
  rw [matchStart_eq, functionDefinition, read_inOrder_cons, Pattern.optional]
  apply exists_read_either
  rw [read_keyword "async" hdef, read_inOrder_cons, read_keyword "def" hname, read_inOrder_cons, read_part,
    read_identifier n hstop, read_inOrder_nil]
  refine ⟨_, rfl, ?_⟩
  simp [Match.textOf, Match.text?, Match.part?]

theorem classDefinition_match (n : Name) :
    ∃ m, classDefinition.matchStart ("class".toList ++ ' ' :: (n.text ++ ": pass".toList)) = some m ∧
      m.textOf .name = n.text := by
  have hname := (n.startsSolid.append ": pass".toList).stops
  have hstop : Text.Stops Text.isWord ": pass".toList := Text.stops_cons.mpr (by decide)
  rw [matchStart_eq, classDefinition, read_seq, read_keyword "class" hname, read_part, read_identifier n hstop]
  refine ⟨_, rfl, ?_⟩
  simp [Match.textOf, Match.text?, Match.part?]

theorem exists_read_assignSign {ok : β → Prop}
    (h : ∃ x, next ⟨place.beyond (u ++ ['='] ++ [' ']) rest, parts⟩ = some x ∧ ok x) :
    ∃ x, assignSign.read next ⟨place.beyond u ('=' :: ' ' :: rest), parts⟩ = some x ∧ ok x := by
  rw [assignSign, read_seq, read_char]
  apply exists_read_either
  have hspace := @read_one β next place (u ++ ['=']) rest parts (· != '=') ' ' (by decide)
  rwa [hspace]

theorem annotatedAssignment_match (n : Name) :
    ∃ m, annotatedAssignment.matchStart (n.text ++ ": int = 1".toList) = some m ∧ m.textOf .name = n.text := by
  have hform : ": int = 1".toList = ':' :: (" int ".toList ++ '=' :: ' ' :: ['1']) := rfl
  have hstop : Text.Stops Text.isWord (':' :: (" int ".toList ++ '=' :: ' ' :: ['1'])) := Text.stops_cons.mpr (by decide)
  have hblank : Text.Stops Text.isBlank (':' :: (" int ".toList ++ '=' :: ' ' :: ['1'])) :=
    Text.stops_cons.mpr (by decide)
  have htype : ∀ c ∈ " int ".toList, (c != '=') = true := by decide
  have hsign : Text.Stops (· != '=') ('=' :: ' ' :: ['1']) := Text.stops_cons.mpr (by decide)
  rw [hform, matchStart_eq, annotatedAssignment, read_inOrder_cons, read_part, read_identifier n hstop,
    read_inOrder_cons, read_blanks_none hblank, read_inOrder_cons, read_char, read_inOrder_cons, read_run htype hsign,
    read_inOrder_cons]
  apply exists_read_assignSign
  rw [read_inOrder_nil]
  refine ⟨_, rfl, ?_⟩
  simp [Match.textOf, Match.text?, Match.part?]

def furtherName : Pattern :=
  inOrder [blanks, .one (· == ','), blanks, identifier]

theorem assignment_eq : assignment =
    inOrder [.part .names (.seq identifier (.many true furtherName)), blanks, assignSign] := rfl

theorem furtherName_eq_none {β : Type} (next : Reading → Option β) {r : Reading} {t : List Char}
    (h : r.place.rest = ' ' :: '=' :: t) : furtherName.read next r = none := by
  refine read_eq_none fun s rest hs hr => ?_
  obtain ⟨g, v, rfl, hg, hr⟩ := reads_inOrder_cons.mp hr
  obtain ⟨x, v, rfl, ⟨c, rfl, hc⟩, -⟩ := reads_inOrder_cons.mp hr
  rw [beq_iff_eq.mp hc] at *
  have hsplit : [' '] ++ '=' :: t = g ++ ',' :: (v ++ rest) := by
    rw [List.singleton_append, ← h, hs]
    simp
  obtain ⟨-, hrest⟩ := Text.run_unique hsplit (by decide : ∀ c ∈ [' '], Text.isBlank c = true)
    (Text.stops_cons.mpr (by decide)) (reads_run.mp hg).1 (Text.stops_cons.mpr (by decide))
  exact absurd (List.cons.inj hrest).1 (by decide)

theorem assignment_match_one (n : Name) :
    ∃ m, assignment.matchStart (n.text ++ " = 1".toList) = some m ∧ m.textOf .names = n.text := by
  have hform : " = 1".toList = ' ' :: '=' :: ' ' :: ['1'] := rfl
  have hstop : Text.Stops Text.isWord (' ' :: '=' :: ' ' :: ['1']) := Text.stops_cons.mpr (by decide)
  have hsign : Text.Stops Text.isBlank ('=' :: ' ' :: ['1']) := Text.stops_cons.mpr (by decide)
  rw [hform, matchStart_eq, assignment_eq, read_inOrder_cons, read_part, read_seq, read_identifier n hstop,
    read_many_of_none fun next => furtherName_eq_none next rfl, read_inOrder_cons, read_blanks_space hsign,
    read_inOrder_cons]
  apply exists_read_assignSign
  rw [read_inOrder_nil]
  refine ⟨_, rfl, ?_⟩
  simp [Match.textOf, Match.text?, Match.part?]

theorem read_furtherName {β : Type} (next : Reading → Option β) {place : Cursor} {u rest : List Char}
    {parts : List Part} (n : Name) (hrest : Text.Stops Text.isWord rest) :
    furtherName.read next ⟨place.beyond u (',' :: ' ' :: (n.text ++ rest)), parts⟩ =
      next ⟨place.beyond (u ++ [','] ++ [' '] ++ n.text) rest, parts⟩ := by
  rw [furtherName, read_inOrder_cons, read_blanks_none (Text.stops_cons.mpr (by decide)), read_inOrder_cons, read_char,
    read_inOrder_cons, read_blanks_space (n.startsSolid.append rest).stops, read_inOrder_cons, read_identifier n hrest,
    read_inOrder_nil]

theorem assignment_match_two (a b : Name) :
    ∃ m, assignment.matchStart (a.text ++ (", ".toList ++ (b.text ++ " = 1, 2".toList))) = some m ∧
      m.textOf .names = a.text ++ ',' :: ' ' :: b.text := by
  have hform : a.text ++ (", ".toList ++ (b.text ++ " = 1, 2".toList)) =
      a.text ++ (',' :: ' ' :: (b.text ++ (' ' :: '=' :: ' ' :: "1, 2".toList))) := rfl
  have hstop : Text.Stops Text.isWord (',' :: ' ' :: (b.text ++ (' ' :: '=' :: ' ' :: "1, 2".toList))) :=
    Text.stops_cons.mpr (by decide)
  have hstop' : Text.Stops Text.isWord (' ' :: '=' :: ' ' :: "1, 2".toList) := Text.stops_cons.mpr (by decide)
  have hsign : Text.Stops Text.isBlank ('=' :: ' ' :: "1, 2".toList) := Text.stops_cons.mpr (by decide)
  have hmove : 0 < Text.byteLength (',' :: ' ' :: b.text) := Nat.add_pos_left (Char.utf8Size_pos ',') _
  rw [hform, matchStart_eq, assignment_eq, read_inOrder_cons, read_part, read_seq, read_identifier a hstop]
  refine exists_read_many_once (by simp) (fun next => read_furtherName next b hstop')
    (by simpa [Text.byteLength_append, Text.byteLength] using hmove) (fun next => furtherName_eq_none next rfl) ?_
  rw [read_inOrder_cons, read_blanks_space hsign, read_inOrder_cons]
  apply exists_read_assignSign
  rw [read_inOrder_nil]
  refine ⟨_, rfl, ?_⟩
  have hsplit : a.text ++ (',' :: ' ' :: (b.text ++ (' ' :: '=' :: ' ' :: "1, 2".toList))) =
      (a.text ++ ',' :: ' ' :: b.text) ++ (' ' :: '=' :: ' ' :: "1, 2".toList) := by simp
  rw [hsplit]
  exact Cursor.textTo_beyond _ _ _ _ _ _

theorem quotedName_matchAt (n : Name) (offset : Nat) (before : Option Char) (rest : List Char) :
    ∃ m, quotedName.matchAt ⟨offset, before, quotedText n ++ rest⟩ = some m ∧
      m.stop = offset + Text.byteLength (quotedText n) ∧ m.textOf .name = n.text := by
  have hform : quotedText n ++ rest = '\'' :: (n.text ++ '\'' :: rest) := by simp [quotedText]
  have hstop : Text.Stops Text.isWord ('\'' :: rest) := Text.stops_cons.mpr (by decide)
  have hread : quotedName.matchAt ⟨offset, before, '\'' :: (n.text ++ '\'' :: rest)⟩ =
      quotedName.read (fun r => some ⟨offset, r.place.offset, r.parts⟩)
        ⟨Cursor.beyond ⟨offset, before, []⟩ [] ('\'' :: (n.text ++ '\'' :: rest)), []⟩ := rfl
  rw [hform, hread, quotedName, read_inOrder_cons, read_one (by decide), read_inOrder_cons, read_part,
    read_identifier n hstop, read_inOrder_cons, read_one (by decide), read_inOrder_nil]
  refine ⟨_, rfl, ?_, ?_⟩
  · simp [quotedText]
  · simp [Match.textOf, Match.text?, Match.part?]

theorem quotedName_reads_quote {before : Option Char} {s rest : List Char} (h : quotedName.Reads before s rest) :
    ∃ c cs, s = c :: cs ∧ Text.isQuote c = true := by
  obtain ⟨u, v, rfl, ⟨c, rfl, hc⟩, -⟩ := reads_inOrder_cons.mp h
  exact ⟨c, v, rfl, hc⟩

theorem quotedName_matchesFrom (ns : List Name) (before : Option Char) {offset resume : Nat}
    (hresume : resume ≤ offset) :
    (quotedName.matchesFrom before offset resume
      (((ns.map quotedText).map (' ' :: ·)).flatMap (',' :: ·))).map (fun q => q.textOf .name) =
      ns.map Name.text := by
  induction ns generalizing before offset resume with
  | nil =>
    have hnone : quotedName.matchAt ⟨offset, before, []⟩ = none := read_eq_none fun s rest hs hr => by
      obtain ⟨c, cs, rfl, -⟩ := quotedName_reads_quote hr
      cases hs
    simp [matchesFrom, hnone, Nat.not_lt.mpr hresume]
  | cons n ns ih =>
    have hunread := @matchesFrom_of_unread quotedName before offset resume [',', ' ']
      (quotedText n ++ ((ns.map quotedText).map (' ' :: ·)).flatMap (',' :: ·)) ?_
    rotate_left
    · intro u v hw hv s t hst hr
      obtain ⟨c, cs, rfl, hc⟩ := quotedName_reads_quote hr
      obtain ⟨d, v, rfl⟩ := List.exists_cons_of_ne_nil hv
      have hmem : d ∈ [',', ' '] := by rw [hw]; simp
      rw [← (List.cons.inj hst).1] at hc
      rcases List.mem_cons.mp hmem with rfl | hmem
      · exact absurd hc (by decide)
      · rw [List.mem_singleton.mp hmem] at hc
        exact absurd hc (by decide)
    obtain ⟨m, hm, hstop, hname⟩ := quotedName_matchAt n (offset + Text.byteLength [',', ' '])
      ([',', ' '].getLast?.or before) (((ns.map quotedText).map (' ' :: ·)).flatMap (',' :: ·))
    have hmatch := matchesFrom_of_match (Nat.le_trans hresume (Nat.le_add_right _ _)) (by simp [quotedText]) hm hstop
    have hform : (((n :: ns).map quotedText).map (' ' :: ·)).flatMap (',' :: ·) =
        [',', ' '] ++ (quotedText n ++ ((ns.map quotedText).map (' ' :: ·)).flatMap (',' :: ·)) := rfl
    rw [hform, hunread, hmatch, List.map_cons, hname, ih _ (Nat.le_refl _), List.map_cons]

theorem quotedName_matchesIn (ns : List Name) :
    (quotedName.matchesIn (quotedList ns)).map (fun q => q.textOf .name) = ns.map Name.text := by
  cases ns with
  | nil => exact quotedName_matchesFrom [] none (Nat.le_refl 0)
  | cons n ns =>
    obtain ⟨m, hm, hstop, hname⟩ := quotedName_matchAt n 0 none
      (((ns.map quotedText).map (' ' :: ·)).flatMap (',' :: ·))
    have hmatch := matchesFrom_of_match (Nat.le_refl 0) (by simp [quotedText]) hm hstop
    rw [matchesIn, quotedList, listed, hmatch, List.map_cons, hname, quotedName_matchesFrom ns _ (Nat.le_refl _),
      List.map_cons]

def isQuotedListChar (c : Char) : Bool :=
  isAsciiWord c || ['\'', ',', ' '].contains c

theorem quotedList_chars (ns : List Name) : ∀ c ∈ quotedList ns, isQuotedListChar c = true := by
  refine @quotedList_induction (fun t => ∀ c ∈ t, isQuotedListChar c = true) (by simp)
    (fun hu hv => List.forall_mem_append.mpr ⟨hu, hv⟩) (by decide) (fun n => ?_) ns
  refine List.forall_mem_cons.mpr ⟨by decide, List.forall_mem_append.mpr ⟨fun c hc => ?_, by decide⟩⟩
  rw [isQuotedListChar, n.parts c hc, Bool.true_or]

theorem publicNames_chars (ns : List Name) :
    ∀ c ∈ (Statement.publicNames ns).text, c ≠ ';' ∧ c ≠ '(' ∧ c ≠ '\n' ∧ c ≠ '\\' := by
  refine List.forall_mem_append.mpr ⟨by decide, List.forall_mem_append.mpr ⟨fun c hc => ?_, by decide⟩⟩
  have hclass := quotedList_chars ns c hc
  exact ⟨ne_of_class hclass (by decide), ne_of_class hclass (by decide), ne_of_class hclass (by decide),
    ne_of_class hclass (by decide)⟩

theorem publicNames_match (ns : List Name) :
    ∃ m, publicNames.matchStart ("__all__ = [".toList ++ (quotedList ns ++ "]".toList)) = some m ∧
      m.textOf .body = quotedList ns := by
  have hform : "__all__ = [".toList ++ (quotedList ns ++ "]".toList) =
      "__all__".toList ++ (' ' :: ("=".toList ++ (' ' :: '[' :: (quotedList ns ++ [']'])))) := rfl
  have hsign : Text.Stops Text.isBlank ("=".toList ++ (' ' :: '[' :: (quotedList ns ++ [']']))) :=
    Text.stops_cons.mpr (by decide)
  have hopen : Text.Stops Text.isBlank ('[' :: (quotedList ns ++ [']'])) := Text.stops_cons.mpr (by decide)
  have hbody : ∀ c ∈ quotedList ns, (c != ']' && c != ')') = true := by
    intro c hc
    have hsquare : c ≠ ']' := ne_of_class (quotedList_chars ns c hc) (by decide)
    have hround : c ≠ ')' := ne_of_class (quotedList_chars ns c hc) (by decide)
    simp [hsquare, hround]
  have hclose : Text.Stops (fun c => c != ']' && c != ')') [']'] := Text.stops_cons.mpr (by decide)
  have htype : (seq (one (· == ':')) (run (· != '='))).Opens [":"] := (opens_char (by decide)).seq _
  rw [hform, matchStart_eq, publicNames, read_inOrder_cons, read_text, read_inOrder_cons, read_blanks_space hsign,
    read_inOrder_cons, read_optional_of_none (read_eq_none (htype.unread_cons (by decide))), read_inOrder_cons,
    read_either_of_none (read_eq_none ((opens_text "+=").unread_cons (by decide))), read_text, read_inOrder_cons,
    read_blanks_space hopen, read_inOrder_cons, read_one (by decide), read_inOrder_cons, read_part,
    read_run hbody hclose, read_inOrder_nil]
  refine ⟨_, rfl, ?_⟩
  simp [Match.textOf, Match.text?, Match.part?]

end Read

section Step

def Statement.OneLine : Statement → List Char → Prop
  | .fromImport source names, t =>
    ∃ u, t = "from".toList ++ ' ' :: (source.text ++ ' ' :: ("import".toList ++ ' ' :: u)) ∧ names.OneLine u
  | s, t => t = s.text

def Statement.kind : Statement → ExportKind
  | .function _ _ => .function
  | .classDefinition _ => .classDefinition
  | _ => .variable

def Statement.visible (line : Nat) (s : Statement) : Visible :=
  match s with
  | .publicNames names => .listed line (names.map fun n => String.ofList n.text)
  | s => .bound (s.bound.map fun n => ⟨String.ofList n.text, s.kind, line⟩)

variable {s : Statement} {t : List Char}

theorem importedModules_listed (first : ModuleItem) (rest : List ModuleItem) :
    importedModules (listed first.text (rest.map ModuleItem.text)) = (first :: rest).map fun i => i.path.text := by
  have hcomma : ∀ i : ModuleItem, ∀ c ∈ i.text, c ≠ ',' := by
    intro i c hc
    rcases i.chars c hc with (hc | rfl) | rfl
    · exact ne_of_class hc (by decide)
    · decide
    · decide
  have hcut := @pieces_listed first.text (rest.map ModuleItem.text) (hcomma first) fun t ht => by
    obtain ⟨i, -, rfl⟩ := List.mem_map.mp ht
    exact hcomma i
  have hword : ∀ i : ModuleItem, Text.firstWord (Text.trim i.text) = i.path.text :=
    fun i => Text.firstWord_trim i.head?_words
  have hword' : ∀ i : ModuleItem, Text.firstWord (Text.trim (' ' :: i.text)) = i.path.text :=
    fun i => Text.firstWord_trim (by rw [words_space, i.head?_words])
  have hkeep : ∀ i : ModuleItem, (!i.path.text.isEmpty &&
      i.path.text.all fun c => Text.isAlphanumeric c || c == '_' || c == '.') = true := by
    intro i
    have hall : ∀ c ∈ i.path.text, (Text.isAlphanumeric c || c == '_' || c == '.') = true := by
      intro c hc
      rcases i.path.chars c hc with hc | rfl
      · rw [Text.isAlphanumeric_of_isAsciiWord hc, Bool.true_or]
      · decide
    rw [List.all_eq_true.mpr hall, Bool.and_true]
    simpa using i.path.text_ne_nil
  rw [importedModules, hcut]
  simp only [List.map_cons, List.map_map, hword]
  rw [List.filter_eq_self.mpr]
  · refine congrArg (_ :: ·) (List.map_congr_left fun i _ => hword' i)
  · intro m hm
    rcases List.mem_cons.mp hm with rfl | hm
    · exact hkeep first
    · obtain ⟨i, -, rfl⟩ := List.mem_map.mp hm
      rw [Function.comp_apply, Function.comp_apply, hword']
      exact hkeep i

theorem splitStatements_eq (hsemicolon : ∀ c ∈ t, c ≠ ';') (hstart : Text.StartsSolid t) (hend : Text.EndsSolid t) :
    splitStatements t = [t] := by
  rw [splitStatements]
  split
  · rfl
  · rw [Text.pieces_of_forall fun c hc => beq_false_of_ne (hsemicolon c hc), List.map_singleton,
      (Text.trimmed_of_solid hstart hend).trim_eq]
    simp [hstart.ne_nil]

/-- What a line that holds one statement is read as. -/
structure ReadAs (line : Nat) (t : List Char) (imports : List Import) (visible : Visible) : Prop where
  start : Text.StartsSolid t
  ends : Text.EndsSolid t
  semicolon : ∀ c ∈ t, c ≠ ';'
  header : typeCheckingHeader.matchStart t = none
  imports : statementImports line false t = imports
  dynamic : '(' ∉ t ∨ ∀ c ∈ t, Text.isQuote c = false
  visible : visibleOf line t = visible

theorem ReadAs.step {line : Nat} {imports : List Import} {visible : Visible} (h : ReadAs line t imports visible)
    {scan : Scan} (hblock : scan.typeBlock = none) :
    scan.step ⟨line, 0, t⟩ = Scan.see { scan with imports := scan.imports ++ imports } visible := by
  have htrim : Text.trim t = t := (Text.trimmed_of_solid h.start h.ends).trim_eq
  have hdynamic : dynamicImports line t = [] := by
    rw [dynamicImports, dynamicImport_matchesIn_eq_nil h.dynamic]
    rfl
  obtain ⟨oldImports, bound, listed, listLine, typeBlock⟩ := scan
  obtain rfl : typeBlock = none := hblock
  simp [Scan.step, htrim, h.header, splitStatements_eq h.semicolon h.start h.ends, h.imports, hdynamic, h.visible,
    openBlock]

theorem inline_semicolon (h : ∀ c ∈ t, isInline c = true) : ∀ c ∈ t, c ≠ ';' :=
  fun c hc => ne_of_class (h c hc) (by decide)

theorem inline_quote (h : ∀ c ∈ t, isInline c = true) : ∀ c ∈ t, Text.isQuote c = false :=
  fun c hc => isQuote_of_isPlain (isPlain_of_isInline (h c hc))

theorem inline_newline (h : ∀ c ∈ t, isInline c = true) : ∀ c ∈ t, c ≠ '\n' :=
  fun c hc => ne_of_class (h c hc) (by decide)

theorem statementImports_of_plain {m : Match} (hfrom : fromImport.matchStart t = none)
    (hplain : plainImport.matchStart t = some m) (line : Nat) (typeOnly : Bool) :
    statementImports line typeOnly t = (importedModules (m.textOf .names)).map fun source =>
      { (importOn line source).whole with isTypeOnly := typeOnly } := by
  rw [statementImports, hfrom, hplain]

theorem statementImports_of_from {m : Match} (hfrom : fromImport.matchStart t = some m) (line : Nat) (typeOnly : Bool) :
    statementImports line typeOnly t =
      [{ importOn line (m.textOf .source) with
        names := (importedNames (m.textOf .names)).map String.ofList
        hasNamespace := ((importedNames (m.textOf .names)).map String.ofList).any (· == "*")
        isTypeOnly := typeOnly }] := by
  rw [statementImports, hfrom]

theorem statementImports_eq_nil {w : List Char} (h : Leads w t) (hfrom : w ≠ "from".toList)
    (himport : w ≠ "import".toList) (line : Nat) (typeOnly : Bool) : statementImports line typeOnly t = [] := by
  rw [statementImports, fromImport_eq_none h hfrom, plainImport_eq_none h himport]

section Bindings

variable {m : Match} (line : Nat)

theorem visibleOf_bindings (h : publicNames.matchStart t = none) : visibleOf line t = .bound (bindings line t) := by
  rw [visibleOf, h]

theorem bindings_of_function (h : functionDefinition.matchStart t = some m) :
    bindings line t = [⟨String.ofList (m.textOf .name), .function, line⟩] := by
  rw [bindings, h]

theorem bindings_of_class (hfunction : functionDefinition.matchStart t = none)
    (h : classDefinition.matchStart t = some m) :
    bindings line t = [⟨String.ofList (m.textOf .name), .classDefinition, line⟩] := by
  rw [bindings, hfunction, h]

theorem bindings_of_annotated (hfunction : functionDefinition.matchStart t = none)
    (hclass : classDefinition.matchStart t = none) (h : annotatedAssignment.matchStart t = some m)
    (hhead : String.ofList (m.textOf .name) ∉ compoundHeads) :
    bindings line t = [⟨String.ofList (m.textOf .name), .variable, line⟩] := by
  rw [bindings, hfunction, hclass, h]
  exact if_neg hhead

theorem bindings_of_assignment (hfunction : functionDefinition.matchStart t = none)
    (hclass : classDefinition.matchStart t = none) (hannotated : annotatedAssignment.matchStart t = none)
    (h : assignment.matchStart t = some m) :
    bindings line t = (Text.pieces (· == ',') (m.textOf .names)).map fun n =>
      ⟨String.ofList (Text.trim n), .variable, line⟩ := by
  rw [bindings, hfunction, hclass, hannotated, h]

theorem visibleOf_eq_nil {w : List Char} {c : Char} (h : Leads w t) (hgoes : GoesOn w t c)
    (hw : w ∉ ["__all__".toList, "async".toList, "def".toList, "class".toList]) (hc : c ∉ [':', '=', ',']) :
    visibleOf line t = .bound [] := by
  simp only [List.mem_cons, List.not_mem_nil, or_false, not_or] at hw hc
  obtain ⟨hall, hasync, hdef, hclass⟩ := hw
  obtain ⟨hcolon, hequal, hcomma⟩ := hc
  rw [visibleOf_bindings line (publicNames_eq_none_of_leads h hall), bindings,
    functionDefinition_eq_none h hasync hdef, classDefinition_eq_none h hclass,
    annotatedAssignment_eq_none hgoes hcolon, assignment_eq_none hgoes hequal hcomma]

end Bindings

theorem leads_keyword (kw : String) (rest : List Char) (hkw : ∀ c ∈ kw.toList, isAsciiWord c = true) :
    Leads kw.toList (kw.toList ++ ' ' :: rest) :=
  ⟨_, rfl, hkw, Text.stops_cons.mpr (by decide)⟩

theorem goesOn_keyword (kw : String) {c : Char} {rest cs : List Char} (hkw : ∀ c ∈ kw.toList, isAsciiWord c = true)
    (hrest : rest = c :: cs) (hc : Text.isBlank c = false) : GoesOn kw.toList (kw.toList ++ ' ' :: rest) c where
  isWord d hd := Text.isWord_of_isAsciiWord (hkw d hd)
  split := ⟨[' '], cs, by rw [hrest]; rfl, by simp [Text.IsGap, Text.isBlank], Text.stops_cons.mpr (by decide)⟩
  notBlank := hc

theorem Dotted.endsSolid (d : Dotted) : Text.EndsSolid d.text :=
  Text.endsSolid_of_forall d.text_ne_nil fun c hc => isBlank_of_dotted (d.chars c hc)

theorem readAs_importModules (line : Nat) (first : ModuleItem) (rest : List ModuleItem) :
    ReadAs line (Statement.importModules first rest).text ((Statement.importModules first rest).imports line)
      (.bound []) := by
  have hinline := listed_modules_inline first rest
  have hall := forall_mem_keyword "import" (by decide) (by decide) hinline
  have hends : Text.EndsSolid (listed first.text (rest.map ModuleItem.text)) := by
    refine listed_endsSolid (localName_endsSolid first.path.endsSolid _) fun t ht => ?_
    obtain ⟨i, -, rfl⟩ := List.mem_map.mp ht
    exact localName_endsSolid i.path.endsSolid _
  obtain ⟨c, cs, hpath, hc⟩ := first.path.exists_cons
  have hword := Text.isAsciiWord_of_isNameStart hc
  obtain ⟨ds, hlist⟩ : ∃ ds, listed first.text (rest.map ModuleItem.text) = c :: ds := by
    rw [listed, ModuleItem.text, hpath]
    exact ⟨_, rfl⟩
  have hblank := Text.isBlank_of_isAsciiWord hword
  have hlead := leads_keyword "import" (listed first.text (rest.map ModuleItem.text)) (by decide)
  constructor
  case start => exact ⟨'i', _, rfl, by decide⟩
  case ends => exact (hends.cons ' ').append _
  case semicolon => exact inline_semicolon hall
  case header => exact typeCheckingHeader_eq_none hlead (by decide)
  case imports =>
    obtain ⟨m, hm, hnames⟩ := plainImport_match ⟨c, ds, hlist, hblank⟩ (inline_newline hinline)
    refine (statementImports_of_plain (fromImport_eq_none hlead (by decide)) hm line false).trans ?_
    rw [hnames, importedModules_listed, List.map_map]
    simp [Statement.imports, importOn, Import.whole]
  case dynamic => exact .inr (inline_quote hall)
  case visible =>
    refine visibleOf_eq_nil line hlead (goesOn_keyword "import" (by decide) hlist hblank) (by decide) ?_
    simp only [List.mem_cons, List.not_mem_nil, or_false, not_or]
    exact ⟨ne_of_class hword (by decide), ne_of_class hword (by decide), ne_of_class hword (by decide)⟩

theorem readAs_fromImport (line : Nat) (source : ImportSource) {names : NameList} {u : List Char}
    (hu : names.OneLine u) :
    ReadAs line ("from".toList ++ ' ' :: (source.text ++ ' ' :: ("import".toList ++ ' ' :: u)))
      ((Statement.fromImport source names).imports line) (.bound []) := by
  have hsource : ∀ c ∈ source.text, isInline c = true := fun c hc => isInline_of_dotted (source.chars c hc)
  have hnames : ∀ c ∈ ' ' :: ("import".toList ++ ' ' :: u), isInline c = true :=
    List.forall_mem_cons.mpr ⟨by decide, forall_mem_keyword "import" (by decide) (by decide) hu.inline⟩
  have hall := forall_mem_keyword "from" (by decide) (by decide) (List.forall_mem_append.mpr ⟨hsource, hnames⟩)
  obtain ⟨c, cs, htext⟩ := List.exists_cons_of_ne_nil source.text_ne_nil
  have hdotted := source.chars c (by simp [htext])
  have hlead := leads_keyword "from" (source.text ++ ' ' :: ("import".toList ++ ' ' :: u)) (by decide)
  constructor
  case start => exact ⟨'f', _, rfl, by decide⟩
  case ends => exact (((((hu.endsSolid.cons ' ').append _).cons ' ').append _).cons ' ').append _
  case semicolon => exact inline_semicolon hall
  case header => exact typeCheckingHeader_eq_none hlead (by decide)
  case imports =>
    obtain ⟨m, hm, htextOf, hnames⟩ := fromImport_match source hu.startsSolid (inline_newline hu.inline)
    refine (statementImports_of_from hm line false).trans ?_
    rw [htextOf, hnames, importedNames_of_oneLine hu, NameList.any_star]
    simp [Statement.imports, importOn]
  case dynamic => exact .inr (inline_quote hall)
  case visible =>
    have hlist : source.text ++ ' ' :: ("import".toList ++ ' ' :: u) =
        c :: (cs ++ ' ' :: ("import".toList ++ ' ' :: u)) := by rw [htext]; rfl
    refine visibleOf_eq_nil line hlead (goesOn_keyword "from" (by decide) hlist (isBlank_of_dotted hdotted)) (by decide) ?_
    simp only [List.mem_cons, List.not_mem_nil, or_false, not_or]
    rcases hdotted with hword | rfl
    · exact ⟨ne_of_class hword (by decide), ne_of_class hword (by decide), ne_of_class hword (by decide)⟩
    · decide

theorem leads_name (n : Name) {c : Char} (hc : isAsciiWord c = false) (rest : List Char) :
    Leads n.text (n.text ++ c :: rest) :=
  ⟨_, rfl, n.parts, Text.stops_cons.mpr hc⟩

theorem readAs_definition (line : Nat) (kw : String) {t : List Char} (n : Name) {kind : ExportKind} {rest : List Char}
    (ht : t = kw.toList ++ ' ' :: rest) (hkw : ∀ c ∈ kw.toList, isAsciiWord c = true)
    (hnot : kw.toList ∉ ["if".toList, "from".toList, "import".toList, "__all__".toList])
    (hrest : ∀ c ∈ rest, isInline c = true) (hends : Text.EndsSolid rest) (hne : kw.toList ≠ [])
    (hbind : bindings line t = [⟨String.ofList n.text, kind, line⟩]) :
    ReadAs line t [] (.bound [⟨String.ofList n.text, kind, line⟩]) := by
  have hall : ∀ c ∈ t, isInline c = true := by
    rw [ht]
    exact forall_mem_keyword kw (fun c hc => isInline_of_isAsciiWord (hkw c hc)) (by decide) hrest
  have hlead : Leads kw.toList t := by
    rw [ht]
    exact leads_keyword kw rest hkw
  simp only [List.mem_cons, List.not_mem_nil, or_false, not_or] at hnot
  obtain ⟨hif, hfrom, himport, hlist⟩ := hnot
  obtain ⟨c, cs, hcs⟩ := List.exists_cons_of_ne_nil hne
  constructor
  case start => exact ⟨c, cs ++ ' ' :: rest, by rw [ht, hcs]; rfl,
    Text.isBlank_of_isAsciiWord (hkw c (by simp [hcs]))⟩
  case ends => exact ht ▸ (hends.cons ' ').append _
  case semicolon => exact inline_semicolon hall
  case header => exact typeCheckingHeader_eq_none hlead hif
  case imports => exact statementImports_eq_nil hlead hfrom himport line false
  case dynamic => exact .inr (inline_quote hall)
  case visible => rw [visibleOf_bindings line (publicNames_eq_none_of_leads hlead hlist), hbind]

theorem readAs_function (line : Nat) (isAsync : Bool) (n : Name) :
    ReadAs line (Statement.function isAsync n).text [] (.bound [⟨String.ofList n.text, .function, line⟩]) := by
  have hrest : ∀ c ∈ n.text ++ "(): pass".toList, isInline c = true :=
    List.forall_mem_append.mpr ⟨n.inline, by decide⟩
  have hpass : Text.EndsSolid "(): pass".toList := ⟨"(): pas".toList, 's', rfl, by decide⟩
  have hends := hpass.append n.text
  cases isAsync with
  | false =>
    obtain ⟨m, hm, hname⟩ := functionDefinition_match n
    refine readAs_definition line "def" n rfl (by decide) (by decide) hrest hends (by decide) ?_
    exact (bindings_of_function line hm).trans (by rw [hname])
  | true =>
    obtain ⟨m, hm, hname⟩ := functionDefinition_match_async n
    refine readAs_definition line "async" n rfl (by decide) (by decide) (forall_mem_keyword "def" (by decide) (by decide) hrest)
      ((hends.cons ' ').append _) (by decide) ?_
    exact (bindings_of_function line hm).trans (by rw [hname])

theorem readAs_classDefinition (line : Nat) (n : Name) :
    ReadAs line (Statement.classDefinition n).text [] (.bound [⟨String.ofList n.text, .classDefinition, line⟩]) := by
  have hrest : ∀ c ∈ n.text ++ ": pass".toList, isInline c = true :=
    List.forall_mem_append.mpr ⟨n.inline, by decide⟩
  have hpass : Text.EndsSolid ": pass".toList := ⟨": pas".toList, 's', rfl, by decide⟩
  have hends := hpass.append n.text
  obtain ⟨m, hm, hname⟩ := classDefinition_match n
  refine readAs_definition line "class" n rfl (by decide) (by decide) hrest hends (by decide) ?_
  have hlead := leads_keyword "class" (n.text ++ ": pass".toList) (by decide)
  exact (bindings_of_class line (functionDefinition_eq_none hlead (by decide) (by decide)) hm).trans (by rw [hname])

theorem readAs_assigned (line : Nat) (n : Name) {t rest : List Char} {c : Char} {bs : List Binding}
    (ht : t = n.text ++ c :: rest) (hc : isAsciiWord c = false) (hrest : ∀ d ∈ c :: rest, isInline d = true ∧ d ≠ '(')
    (hends : Text.EndsSolid (c :: rest)) (hbind : bindings line t = bs) : ReadAs line t [] (.bound bs) := by
  have hall : ∀ d ∈ t, isInline d = true := by
    rw [ht]
    exact List.forall_mem_append.mpr ⟨n.inline, fun d hd => (hrest d hd).1⟩
  have hround : ∀ d ∈ t, d ≠ '(' := by
    rw [ht]
    exact List.forall_mem_append.mpr ⟨fun d hd => ne_of_class (n.parts d hd) (by decide), fun d hd => (hrest d hd).2⟩
  have hlead : Leads n.text t := by
    rw [ht]
    exact leads_name n hc rest
  constructor
  case start => exact ht ▸ n.startsSolid.append _
  case ends => exact ht ▸ hends.append _
  case semicolon => exact inline_semicolon hall
  case header => exact typeCheckingHeader_eq_none hlead (n.ne_of_mem_reserved (by decide))
  case imports =>
    exact statementImports_eq_nil hlead (n.ne_of_mem_reserved (by decide)) (n.ne_of_mem_reserved (by decide)) line false
  case dynamic => exact .inr (inline_quote hall)
  case visible =>
    rw [visibleOf_bindings line (publicNames_eq_none_of_brackets fun d hd => ⟨ne_of_class (hall d hd) (by decide), hround d hd⟩),
      hbind]

theorem readAs_assign (line : Nat) (n : Name) :
    ReadAs line (Statement.assign n).text [] (.bound [⟨String.ofList n.text, .variable, line⟩]) := by
  have hlead := leads_name n (c := ' ') (by decide) "= 1".toList
  have hgoes : GoesOn n.text (n.text ++ " = 1".toList) '=' :=
    ⟨n.isWord, ⟨[' '], " 1".toList, rfl, by simp [Text.IsGap, Text.isBlank], Text.stops_cons.mpr (by decide)⟩, by decide⟩
  obtain ⟨m, hm, hnames⟩ := assignment_match_one n
  have hbind := bindings_of_assignment line (functionDefinition_eq_none hlead (n.ne_of_mem_reserved (by decide))
    (n.ne_of_mem_reserved (by decide))) (classDefinition_eq_none hlead (n.ne_of_mem_reserved (by decide)))
    (annotatedAssignment_eq_none hgoes (by decide)) hm
  refine readAs_assigned line n rfl (by decide) (by decide) ⟨" = ".toList, '1', rfl, by decide⟩ (hbind.trans ?_)
  have hcomma : ∀ c ∈ n.text, (c == ',') = false :=
    fun c hc => beq_false_of_ne (ne_of_class (n.parts c hc) (by decide))
  rw [hnames, Text.pieces_of_forall hcomma, List.map_singleton,
    (Text.trimmed_of_solid n.startsSolid n.endsSolid).trim_eq]

theorem readAs_annotate (line : Nat) (n : Name) :
    ReadAs line (Statement.annotate n).text [] (.bound [⟨String.ofList n.text, .variable, line⟩]) := by
  have hlead := leads_name n (c := ':') (by decide) " int = 1".toList
  have hheads : ∀ w ∈ compoundHeads, w ∈ reservedWords := by decide
  obtain ⟨m, hm, hname⟩ := annotatedAssignment_match n
  have hbind := bindings_of_annotated line (functionDefinition_eq_none hlead (n.ne_of_mem_reserved (by decide))
    (n.ne_of_mem_reserved (by decide))) (classDefinition_eq_none hlead (n.ne_of_mem_reserved (by decide))) hm
    (by rw [hname]; exact fun h => n.free (hheads _ h))
  refine readAs_assigned line n rfl (by decide) (by decide) ⟨": int = ".toList, '1', rfl, by decide⟩ (hbind.trans ?_)
  rw [hname]

theorem readAs_unpack (line : Nat) (a b : Name) :
    ReadAs line (Statement.unpack a b).text []
      (.bound [⟨String.ofList a.text, .variable, line⟩, ⟨String.ofList b.text, .variable, line⟩]) := by
  have hlead := leads_name a (c := ',') (by decide) (' ' :: (b.text ++ " = 1, 2".toList))
  have hgoes : GoesOn a.text (a.text ++ (", ".toList ++ (b.text ++ " = 1, 2".toList))) ',' :=
    ⟨a.isWord, ⟨[], ' ' :: (b.text ++ " = 1, 2".toList), rfl, by simp [Text.IsGap], Text.stops_cons.mpr (by decide)⟩,
      by decide⟩
  obtain ⟨m, hm, hnames⟩ := assignment_match_two a b
  have hbind := bindings_of_assignment line (functionDefinition_eq_none hlead (a.ne_of_mem_reserved (by decide))
    (a.ne_of_mem_reserved (by decide))) (classDefinition_eq_none hlead (a.ne_of_mem_reserved (by decide)))
    (annotatedAssignment_eq_none hgoes (by decide)) hm
  have hone : Text.EndsSolid " = 1, 2".toList := ⟨" = 1, ".toList, '2', rfl, by decide⟩
  have hrest : ∀ d ∈ ',' :: ' ' :: (b.text ++ " = 1, 2".toList), isInline d = true ∧ d ≠ '(' := by
    refine List.forall_mem_cons.mpr ⟨by decide, List.forall_mem_cons.mpr ⟨by decide, ?_⟩⟩
    refine List.forall_mem_append.mpr ⟨fun d hd => ⟨b.inline d hd, ne_of_class (b.parts d hd) (by decide)⟩, by decide⟩
  refine readAs_assigned line a rfl (by decide) hrest (((hone.append b.text).cons ' ').cons ',') (hbind.trans ?_)
  have hcomma : ∀ n : Name, ∀ c ∈ n.text, (c == ',') = false :=
    fun n c hc => beq_false_of_ne (ne_of_class (n.parts c hc) (by decide))
  have hspace : Text.trim (' ' :: b.text) = Text.trim b.text := rfl
  rw [hnames, Text.pieces_append_sep (by rfl), Text.pieces_of_forall (hcomma a),
    Text.pieces_of_forall (List.forall_mem_cons.mpr ⟨by decide, hcomma b⟩), List.singleton_append, List.map_cons,
    List.map_singleton, hspace, (Text.trimmed_of_solid a.startsSolid a.endsSolid).trim_eq,
    (Text.trimmed_of_solid b.startsSolid b.endsSolid).trim_eq]

theorem readAs_publicNames (line : Nat) (ns : List Name) :
    ReadAs line (Statement.publicNames ns).text [] (.listed line (ns.map fun n => String.ofList n.text)) := by
  have hlead : Leads "__all__".toList (Statement.publicNames ns).text :=
    ⟨" = [".toList ++ (quotedList ns ++ "]".toList), rfl, by decide, Text.stops_cons.mpr (by decide)⟩
  have hclose : Text.EndsSolid "]".toList := ⟨[], ']', rfl, by decide⟩
  constructor
  case start => exact ⟨'_', _, rfl, by decide⟩
  case ends => exact (hclose.append _).append _
  case semicolon => exact fun c hc => (publicNames_chars ns c hc).1
  case header => exact typeCheckingHeader_eq_none hlead (by decide)
  case imports => exact statementImports_eq_nil hlead (by decide) (by decide) line false
  case dynamic => exact .inl fun h => (publicNames_chars ns _ h).2.1 rfl
  case visible =>
    obtain ⟨m, hm, hbody⟩ := publicNames_match ns
    have hnames := congrArg (List.map String.ofList) (quotedName_matchesIn ns)
    rw [List.map_map, List.map_map] at hnames
    have hlisted : ∀ t : List Char, publicNames.matchStart t = some m →
        visibleOf line t = .listed line ((quotedName.matchesIn (m.textOf .body)).map fun q =>
          String.ofList (q.textOf .name)) := by
      intro t ht
      rw [visibleOf, ht]
    refine (hlisted _ hm).trans (congrArg (Visible.listed line) ?_)
    rw [hbody]
    exact hnames

theorem Statement.OneLine.readAs {s : Statement} {t : List Char} (h : s.OneLine t) (line : Nat) :
    ReadAs line t (s.imports line) (s.visible line) := by
  cases s with
  | importModules first rest => exact (h : t = _) ▸ readAs_importModules line first rest
  | fromImport source names =>
    obtain ⟨u, rfl, hu⟩ := h
    exact readAs_fromImport line source hu
  | function isAsync n => exact (h : t = _) ▸ readAs_function line isAsync n
  | classDefinition n => exact (h : t = _) ▸ readAs_classDefinition line n
  | assign n => exact (h : t = _) ▸ readAs_assign line n
  | annotate n => exact (h : t = _) ▸ readAs_annotate line n
  | unpack a b => exact (h : t = _) ▸ readAs_unpack line a b
  | publicNames ns => exact (h : t = _) ▸ readAs_publicNames line ns

end Step

end ModuleGraph.Indent
