import ModuleGraph.Proofs.FormLockstep

namespace ModuleGraph.Curly

open Text (Widened IsFiller Stops IsGap)
open Pattern

def directSource : Pattern :=
  inOrder [text "from", blanks, quotedSource]

def clauseAndSource : Pattern :=
  inOrder [.part .clause (lazyRun1 isClauseChar), fromSource]

def importBody : Pattern :=
  .seq (optional (.part .typeMark (.seq (text "type") looseBlanks1))) clauseAndSource

def newlineAndSource : Pattern :=
  .seq (.one (· == '\n')) directSource

def hollowEnd : Pattern :=
  .seq (optional (.seq blanks1 (text "type"))) newlineAndSource

/-- An import, perhaps of types, whose clause would be a single newline. -/
def hollowImport : Pattern :=
  inOrder [statementStart, .part .keyword (text "import"), hollowEnd]

section Reading

variable {β : Type} {next : Reading → Option β} {u rest : List Char} {parts parts' : List Part}

theorem read_fromSource_gap {g : List Char} (hg : IsGap g) (hrest : Stops Text.isBlank rest) :
    fromSource.read next ⟨.after u (g ++ rest), parts⟩ = directSource.read next ⟨.after (u ++ g) rest, parts⟩ := by
  have hread : fromSource.read next ⟨.after u (g ++ rest), parts⟩ =
      blanks.read (directSource.read next) ⟨.after u (g ++ rest), parts⟩ := rfl
  rw [hread, blanks, read_run_after hg hrest]

def afterClause (next : Reading → Option β) (first : Cursor) (r : Reading) : Option β :=
  fromSource.read next ⟨r.place, ⟨.clause, first, r.place⟩ :: r.parts⟩

/-- Reads on in a clause that starts at a place, as far as it has to. -/
def moreClause (next : Reading → Option β) (first : Cursor) (fuel : Nat) (r : Reading) : Option β :=
  repeatReading (fun k => (one isClauseChar).read k) false (afterClause next first) fuel r

theorem read_clauseAndSource (c : Char) :
    clauseAndSource.read next ⟨.after u (c :: rest), parts⟩ =
      if isClauseChar c then moreClause next (.after u (c :: rest)) rest.length ⟨.after (u ++ [c]) rest, parts⟩
      else none := by
  have hread : clauseAndSource.read next ⟨.after u (c :: rest), parts⟩ =
      (one isClauseChar).read (fun r => moreClause next (.after u (c :: rest)) r.place.rest.length r)
        ⟨.after u (c :: rest), parts⟩ := rfl
  rw [hread, read_one_after]
  rfl

theorem moreClause_cons (first : Cursor) {c : Char} (hc : isClauseChar c = true) (fuel : Nat) :
    moreClause next first (fuel + 1) ⟨.after u (c :: rest), parts⟩ =
      (afterClause next first ⟨.after u (c :: rest), parts⟩).orElse fun _ =>
        moreClause next first fuel ⟨.after (u ++ [c]) rest, parts⟩ := by
  rw [moreClause, repeatReading, if_neg Bool.false_ne_true]
  exact congrArg (Option.orElse _) (funext fun _ => read_further_after hc)

theorem moreClause_stops (first : Cursor) (hrest : Stops isClauseChar rest) (fuel : Nat) :
    moreClause next first fuel ⟨.after u rest, parts⟩ = afterClause next first ⟨.after u rest, parts⟩ :=
  repeatReading_stops hrest false fuel

theorem read_span_spare {w : List Char} {b : Char} {ok : Char → Bool} (hw : ∀ c ∈ w, ok c = true) (hb : ok b = true)
    (hrest : Stops ok rest) :
    (span ok 1).read next ⟨.after u (w ++ b :: rest), parts⟩ = next ⟨.after (u ++ w) (b :: rest), parts⟩ := by
  have hrun : Text.runLength ok (w ++ b :: rest) = w.length + 1 := by
    rw [List.append_cons, Text.runLength_eq _ hrest, List.length_append, List.length_singleton]
    exact List.forall_mem_append.mpr ⟨hw, List.forall_mem_singleton.mpr hb⟩
  have hread : (span ok 1).read next ⟨.after u (w ++ b :: rest), parts⟩ =
      if 1 ≤ Text.runLength ok (w ++ b :: rest) then
        next ⟨(Cursor.after u (w ++ b :: rest)).skip (Text.runLength ok (w ++ b :: rest) - 1), parts⟩
      else none := rfl
  rw [hread, hrun, if_pos (Nat.le_add_left 1 _), Nat.add_sub_cancel, Cursor.skip_eq_beyond _ rfl, Cursor.after_beyond]

theorem read_span_spare_of_stops {ok : Char → Bool} (hrest : Stops ok rest) :
    (span ok 1).read next ⟨.after u rest, parts⟩ = none := by
  have hrun : Text.runLength ok rest = 0 := @Text.runLength_eq ok [] rest (by simp) hrest
  have hread : (span ok 1).read next ⟨.after u rest, parts⟩ =
      if 1 ≤ Text.runLength ok rest then next ⟨(Cursor.after u rest).skip (Text.runLength ok rest - 1), parts⟩
      else none := rfl
  rw [hread, hrun, if_neg (by decide)]

/-- White space is read as a whole, or else without its last character if something is left of it. -/
theorem read_looseBlanks1 {g : List Char} {b : Char} (hg : IsGap g) (hb : Text.isBlank b = true)
    (hrest : Stops Text.isBlank rest) :
    looseBlanks1.read next ⟨.after u (g ++ b :: rest), parts⟩ =
      (next ⟨.after (u ++ (g ++ [b])) rest, parts⟩).orElse fun _ =>
        if g = [] then none else next ⟨.after (u ++ g) (b :: rest), parts⟩ := by
  cases g with
  | nil =>
    have hwhole := @read_run_after Text.isBlank β next (u ++ [b]) [] rest parts (by simp) hrest
    rw [List.nil_append, List.append_nil] at hwhole
    rw [looseBlanks1, read_seq, List.nil_append, read_one_after, if_pos hb, Pattern.read,
      read_span_spare_of_stops hrest, if_pos rfl]
    exact congrArg (Option.orElse · _) hwhole
  | cons c g =>
    obtain ⟨hc, hg⟩ := List.forall_mem_cons.mp hg
    have hgb : ∀ d ∈ g ++ [b], Text.isBlank d = true :=
      List.forall_mem_append.mpr ⟨hg, List.forall_mem_singleton.mpr hb⟩
    have hwhole := @read_run_after Text.isBlank β next (u ++ [c]) (g ++ [b]) rest parts hgb hrest
    rw [List.append_assoc, List.singleton_append, List.append_assoc, List.singleton_append] at hwhole
    rw [looseBlanks1, read_seq, List.cons_append, read_one_after, if_pos hc, Pattern.read, read_span_spare hg hb hrest,
      if_neg (List.cons_ne_nil c g), List.append_assoc, List.singleton_append]
    exact congrArg (Option.orElse · _) hwhole

theorem read_looseBlanks1_of_stops (hrest : Stops Text.isBlank rest) :
    looseBlanks1.read next ⟨.after u rest, parts⟩ = none := by
  cases rest with
  | nil => rfl
  | cons c rest =>
    rw [looseBlanks1, read_seq, read_one_after, if_neg]
    simp [Text.stops_cons.mp hrest]

end Reading

section Total

variable {β : Type} {next : Reading → Option β} (hnext : ∀ r, (next r).isSome) {u rest : List Char}
  {parts parts' parts'' : List Part}
include hnext

theorem read_fromSource_past {b : Char} (hb : Text.isBlank b = true)
    (h : fromSource.read next ⟨.after u (b :: rest), parts⟩ = none) :
    fromSource.read next ⟨.after (u ++ [b]) rest, parts'⟩ = none := by
  obtain ⟨g, x, rfl, hg, hx, -⟩ := Text.exists_run Text.isBlank rest
  have hbg : IsGap (b :: g) := List.forall_mem_cons.mpr ⟨hb, hg⟩
  rw [← List.cons_append, read_fromSource_gap hbg hx] at h
  rw [read_fromSource_gap hg hx, List.append_assoc, List.singleton_append]
  refine read_eq_none_of_samePlace hnext hnext ?_ h
  rfl

theorem moreClause_eq_none {a a' : Cursor} {fuel : Nat} {r r' : Reading} (hr : SamePlace r r')
    (h : moreClause next a fuel r = none) : moreClause next a' fuel r' = none := by
  refine eq_none_of_rel (V := fun _ _ => True) ?_ h
  have hnever := repeatReading_never (one isClauseChar) false fuel r
  refine repeatReading_samePlace (lockstep_samePlace (one isClauseChar)) (fun x y hxy _ => ?_) false fuel hr hnever
  exact read_rel_of_samePlace hnext hnext hxy

theorem read_clauseAndSource_newline
    (hsource : fromSource.read next ⟨.after (u ++ ['\n']) rest, parts'⟩ = none)
    (hclause : clauseAndSource.read next ⟨.after (u ++ ['\n']) rest, parts''⟩ = none) :
    clauseAndSource.read next ⟨.after u ('\n' :: rest), parts⟩ = none := by
  have hhere : afterClause next (.after u ('\n' :: rest)) ⟨.after (u ++ ['\n']) rest, parts⟩ = none := by
    refine read_eq_none_of_samePlace hnext hnext ?_ hsource
    rfl
  rw [read_clauseAndSource, if_pos (by decide)]
  cases rest with
  | nil => rwa [moreClause_stops _ (Text.stops_nil _)]
  | cons c rest =>
    by_cases hc : isClauseChar c = true
    · rw [read_clauseAndSource, if_pos hc] at hclause
      rw [List.length_cons, moreClause_cons _ hc, hhere]
      refine moreClause_eq_none hnext ?_ hclause
      rfl
    · rwa [moreClause_stops _ (Text.stops_cons.mpr (Bool.not_eq_true _ ▸ hc))]

end Total

section Alike

variable {T T' : List Char}

variable (T T') in
def ClausePlace (a b : Cursor) : Prop :=
  Aligned T T' a b ∧ a.rest.head? ≠ some '\n' ∨ Between T T' a b

theorem ClausePlace.near {a b : Cursor} (h : ClausePlace T T' a b) : Near T T' a b :=
  h.imp And.left id

theorem clausePlace_of_stops {a b : Cursor} (h : Aligned T T' a b) (hstop : Stops Text.isBlank a.rest) :
    ClausePlace T T' a b := by
  refine .inl ⟨h, fun hhead => ?_⟩
  exact Bool.false_ne_true ((hstop '\n' hhead).symm.trans (by decide))

variable {β γ : Type} {V : β → γ → Prop} {next : Reading → Option β} {next' : Reading → Option γ}

/-- White space in front of something is read alike, unless it is a single newline whose filler makes a difference. -/
theorem looseBlanks1_alike {u v g g' rest rest' : List Char} {parts parts' : List Part} (hT : T = u ++ (g ++ rest))
    (hT' : T' = v ++ (g' ++ rest')) (hu : Widened u v) (hg : IsGap g) (hgg : Widened g g')
    (hstop : Stops Text.isBlank rest) (hrest : Widened rest rest')
    (hwhole : g ≠ [] →
      Option.Rel V (next ⟨.after (u ++ g) rest, parts⟩) (next' ⟨.after (v ++ g') rest', parts'⟩))
    (hloose : ∀ a b, ClausePlace T T' a b → ¬Stops Text.isBlank a.rest →
      Option.Rel V (next ⟨a, parts⟩) (next' ⟨b, parts'⟩))
    (hlone : g = ['\n'] → ∀ f, g' = [f, '\n'] → next' ⟨.after (v ++ g') rest', parts'⟩ = none →
      next' ⟨.after (v ++ [f]) ('\n' :: rest'), parts'⟩ = none) :
    Option.Rel V (looseBlanks1.read next ⟨.after u (g ++ rest), parts⟩)
      (looseBlanks1.read next' ⟨.after v (g' ++ rest'), parts'⟩) := by
  have hstop' := hrest.stops Text.uniform_isBlank hstop
  rcases List.eq_nil_or_concat g with rfl | ⟨g, b, rfl⟩
  · rw [hgg.nil_iff.mpr rfl, List.nil_append, List.nil_append, read_looseBlanks1_of_stops hstop,
      read_looseBlanks1_of_stops hstop']
    exact .none
  · rw [List.concat_eq_append] at hg hgg hwhole hlone hT ⊢
    obtain ⟨hinit, hlast⟩ := List.forall_mem_append.mp hg
    have hb : Text.isBlank b = true := hlast b (List.mem_singleton_self b)
    obtain ⟨g', b', rfl, hgg', hbb⟩ := hgg.exists_append
    have hinit' : IsGap g' := hgg'.forall_mem Text.uniform_isBlank hinit
    rw [List.append_assoc, List.singleton_append] at hT ⊢
    rw [← List.append_assoc] at hT
    have hwhole' := hwhole (by simp)
    have hnotStops : ¬Stops Text.isBlank (b :: rest) := by simp [Text.stops_cons, hb]
    rw [read_looseBlanks1 hinit hb hstop]
    cases hbb with
    | cons hne hnil =>
      cases hnil
      rw [List.append_assoc, List.singleton_append] at hT' ⊢
      rw [read_looseBlanks1 hinit' hb hstop']
      refine rel_orElse hwhole' fun _ _ => ?_
      rw [if_congr hgg'.nil_iff rfl rfl]
      split
      · exact .none
      · refine hloose _ _ (.inl ⟨⟨_, _, _, _, rfl, rfl, hT, ?_, hu.append hgg', .cons hne hrest⟩, ?_⟩) hnotStops
        · rw [hT', List.append_assoc]
        · simpa [Cursor.after] using hne
    | @newline f _ _ hf hnil =>
      cases hnil
      have hgap : IsGap (g' ++ [f]) := List.forall_mem_append.mpr ⟨hinit', List.forall_mem_singleton.mpr hf.isBlank⟩
      have hne : g' ++ [f] ≠ [] := List.append_ne_nil_of_right_ne_nil g' (List.cons_ne_nil f [])
      have hsplit : g' ++ [f, '\n'] = g' ++ [f] ++ ['\n'] := List.append_cons g' f ['\n']
      have hsplit' : g' ++ [f, '\n'] ++ rest' = g' ++ [f] ++ '\n' :: rest' := by simp
      rw [hsplit', read_looseBlanks1 hgap (by decide) hstop', if_neg hne, ← hsplit]
      refine rel_orElse hwhole' fun _ hnone => ?_
      split
      next hnil =>
        subst hnil
        obtain rfl : g' = [] := hgg'.nil_iff.mpr rfl
        rw [List.nil_append, hlone rfl f rfl hnone]
        exact .none
      next =>
        rw [← List.append_assoc]
        refine hloose _ _ (.inr ⟨_, _, f, _, _, rfl, rfl, hT, ?_, hu.append hgg', hf, hrest⟩) hnotStops
        rw [hT', hsplit']
        simp

theorem read_fromSource_of_newline (hnext' : ∀ r, (next' r).isSome) {u v x x' : List Char} {parts parts' : List Part}
    (hstop : Stops Text.isBlank x) (hplace : Aligned T T' (.after (u ++ ['\n']) x) (.after v x'))
    (h : newlineAndSource.read (fun _ => some ()) ⟨.after u ('\n' :: x), parts⟩ = none) :
    fromSource.read next' ⟨.after v x', parts'⟩ = none := by
  have hsome : ∀ r : Reading, ((fun _ => some () : Reading → Option Unit) r).isSome := fun _ => rfl
  have hdirect : directSource.read (fun _ => some ()) ⟨.after (u ++ ['\n']) x, parts⟩ = none := by
    rw [newlineAndSource, read_seq, read_one_after, if_pos (by decide)] at h
    exact h
  have hsource : fromSource.read (fun _ => some ()) ⟨.after (u ++ ['\n']) x, []⟩ = none := by
    have hgap := @read_fromSource_gap Unit (fun _ => some ()) (u ++ ['\n']) x parts [] (by simp [IsGap]) hstop
    rw [List.nil_append, List.append_nil, hdirect] at hgap
    refine read_eq_none_of_samePlace hsome hsome ?_ hgap
    rfl
  have hrel := lockstep_fromSource Unit γ (fun _ _ => True) (fun _ => none) (fun _ => some ()) next' ⟨_, []⟩ ⟨_, []⟩
    ⟨hplace, .nil⟩ (read_never _ _) fun a b _ _ => rel_true_of_isSome rfl (hnext' b)
  refine read_eq_none_of_samePlace hnext' hnext' ?_ (eq_none_of_rel hrel hsource)
  rfl

variable (hnext' : ∀ r, (next' r).isSome) (h : ∀ a b, InStep T T' a b → Option.Rel V (next a) (next' b))
include hnext' h

/-- A clause ends at the same place in both texts, since its source is not nearer behind the filler of a newline. -/
theorem moreClause_alike {a a' : Cursor} (hnear : Near T T' a a') {u v rest rest' : List Char}
    (hrest : Widened rest rest') {parts parts' : List Part} {fuel fuel' : Nat} (hT : T = u ++ rest)
    (hT' : T' = v ++ rest') (hu : Widened u v) (hparts : List.Forall₂ (PartAlike T T') parts parts')
    (hfuel : rest.length ≤ fuel) (hfuel' : rest'.length ≤ fuel') :
    Option.Rel V (moreClause next a fuel ⟨.after u rest, parts⟩)
      (moreClause next' a' fuel' ⟨.after v rest', parts'⟩) := by
  have hhere : ∀ {u v rest rest'}, T = u ++ rest → T' = v ++ rest' → Widened u v → Widened rest rest' →
      Option.Rel V (afterClause next a ⟨.after u rest, parts⟩) (afterClause next' a' ⟨.after v rest', parts'⟩) := by
    intro u v rest rest' hT hT' hu hrest
    have hplace : Aligned T T' (.after u rest) (.after v rest') := ⟨_, _, _, _, rfl, rfl, hT, hT', hu, hrest⟩
    exact lockstep_fromSource β γ V (fun _ => none) next next' _ _ ⟨hplace, .cons (.clause hnear hplace) hparts⟩
      (read_never _ _) fun x y hxy _ => h x y hxy
  induction hrest generalizing u v fuel fuel' with
  | nil =>
    rw [moreClause_stops _ (Text.stops_nil _), moreClause_stops _ (Text.stops_nil _)]
    exact hhere hT hT' hu .nil
  | @cons c s t hc hst ih =>
    by_cases hclause : isClauseChar c = true
    · rw [List.length_cons] at hfuel hfuel'
      obtain ⟨fuel, rfl⟩ : ∃ n, fuel = n + 1 := ⟨fuel - 1, by omega⟩
      obtain ⟨fuel', rfl⟩ : ∃ n, fuel' = n + 1 := ⟨fuel' - 1, by omega⟩
      rw [moreClause_cons _ hclause, moreClause_cons _ hclause]
      refine rel_orElse (hhere hT hT' hu (.cons hc hst)) fun _ _ => ?_
      exact ih (hT.trans (List.append_cons u c s)) (hT'.trans (List.append_cons v c t)) (hu.append (.cons hc .nil))
        (Nat.le_of_succ_le_succ hfuel) (Nat.le_of_succ_le_succ hfuel')
    · have hstop : ∀ x, Stops isClauseChar (c :: x) := fun x => Text.stops_cons.mpr (Bool.not_eq_true _ ▸ hclause)
      rw [moreClause_stops _ (hstop s), moreClause_stops _ (hstop t)]
      exact hhere hT hT' hu (.cons hc hst)
  | @newline f s t hf hst ih =>
    have hnewline : isClauseChar '\n' = true := by decide
    have hfiller : isClauseChar f = true := by rcases hf with rfl | rfl <;> decide
    rw [List.length_cons] at hfuel
    rw [List.length_cons, List.length_cons] at hfuel'
    obtain ⟨fuel, rfl⟩ : ∃ n, fuel = n + 1 := ⟨fuel - 1, by omega⟩
    obtain ⟨fuel', rfl⟩ : ∃ n, fuel' = n + 1 + 1 := ⟨fuel' - 2, by omega⟩
    rw [moreClause_cons _ hnewline, moreClause_cons _ hfiller, moreClause_cons _ hnewline]
    refine rel_orElse (hhere hT hT' hu (.newline hf hst)) fun _ hnone => ?_
    have hbetween : afterClause next' a' ⟨.after (v ++ [f]) ('\n' :: t), parts'⟩ = none :=
      read_fromSource_past hnext' hf.isBlank hnone
    rw [hbetween]
    refine ih (hT.trans (List.append_cons u _ s)) ?_ ?_ (Nat.le_of_succ_le_succ hfuel) ?_
    · rw [hT']
      simp
    · rw [List.append_assoc]
      exact hu.append (.newline hf .nil)
    · omega

theorem clauseAndSource_alike {r r' : Reading} (hr : SideBySide T T' (ClausePlace T T') r r') :
    Option.Rel V (clauseAndSource.read next r) (clauseAndSource.read next' r') := by
  obtain ⟨place, parts⟩ := r
  obtain ⟨place', parts'⟩ := r'
  obtain ⟨hplace, hparts⟩ := hr
  have hnear := ClausePlace.near hplace
  rcases hplace with ⟨⟨u, v, rest, rest', rfl, rfl, hT, hT', hu, hrest⟩, hhead⟩ |
    ⟨u, v, f, rest, rest', rfl, rfl, hT, hT', hu, hf, hrest⟩
  · cases hrest with
    | nil => exact .none
    | @cons c s t hc hst =>
      rw [read_clauseAndSource, read_clauseAndSource]
      split
      · exact moreClause_alike hnext' h hnear hst (hT.trans (List.append_cons u c s))
          (hT'.trans (List.append_cons v c t)) (hu.append (.cons hc .nil)) hparts (Nat.le_refl _) (Nat.le_refl _)
      · exact .none
    | newline => exact absurd rfl hhead
  · rw [read_clauseAndSource, read_clauseAndSource, if_pos (by decide), if_pos (by decide)]
    refine moreClause_alike hnext' h hnear hrest (hT.trans (List.append_cons u _ rest)) ?_ ?_ hparts (Nat.le_refl _)
      (Nat.le_refl _)
    · rw [hT']
      simp
    · rw [List.append_assoc]
      exact hu.append (.newline hf .nil)

theorem importBody_alike {r r' : Reading} (hr : SideBySide T T' (ClausePlace T T') r r')
    (hhollow : (text "type").read (newlineAndSource.read fun _ => some ()) r = none) :
    Option.Rel V (importBody.read next r) (importBody.read next' r') := by
  have hword : (text "type").Lockstep (SideBySide T T' (Near T T')) (InStep T T') :=
    (lockstep_text (by decide)).near fun _ _ => Opens.unread_cons (opens_text "type") (by simp)
  refine rel_orElse ?_ fun _ _ => clauseAndSource_alike hnext' h hr
  refine hword β γ V _ _ _ r r' ⟨hr.place.near, hr.parts⟩ hhollow ?_
  rintro ⟨_, parts⟩ ⟨_, parts'⟩ ⟨⟨u, v, rest, rest', rfl, rfl, hT, hT', hu, hrest⟩, hparts⟩ hnone
  obtain ⟨g, x, rfl, hg, hstop, -⟩ := Text.exists_run Text.isBlank rest
  obtain ⟨g', x', rfl, hgg, hxx⟩ := hrest.exists_append
  have hbody : ∀ {a b : Cursor}, ClausePlace T T' a b →
      Option.Rel V (clauseAndSource.read next ⟨a, ⟨.typeMark, r.place, a⟩ :: parts⟩)
        (clauseAndSource.read next' ⟨b, ⟨.typeMark, r'.place, b⟩ :: parts'⟩) := fun hab =>
    clauseAndSource_alike hnext' h ⟨hab, .cons (.typeMark hr.place.near hab.near) hparts⟩
  have hplace := aligned_after hT hT' hu hgg hxx
  refine looseBlanks1_alike hT hT' hu hg hgg hstop hxx ?_ ?_ ?_
  · exact fun _ => hbody (clausePlace_of_stops hplace hstop)
  · exact fun a b hab _ => hbody hab
  · rintro rfl f rfl hclause
    have hcons : v ++ [f, '\n'] = v ++ [f] ++ ['\n'] := List.append_cons v f ['\n']
    rw [hcons] at hplace hclause
    have hsource : fromSource.read next' ⟨.after (v ++ [f] ++ ['\n']) x', []⟩ = none :=
      read_fromSource_of_newline hnext' hstop hplace hnone
    exact read_clauseAndSource_newline hnext' hsource hclause

theorem importTail_alike {r r' : Reading} (hr : InStep T T' r r')
    (hhollow : hollowEnd.read (fun _ => some ()) r = none) :
    Option.Rel V ((Pattern.seq looseBlanks1 importBody).read next r)
      ((Pattern.seq looseBlanks1 importBody).read next' r') := by
  obtain ⟨hword, hnewline⟩ := orElse_eq_none hhollow
  obtain ⟨_, parts⟩ := r
  obtain ⟨_, parts'⟩ := r'
  obtain ⟨⟨u, v, rest, rest', rfl, rfl, hT, hT', hu, hrest⟩, hparts⟩ := hr
  obtain ⟨g, x, rfl, hg, hstop, -⟩ := Text.exists_run Text.isBlank rest
  obtain ⟨g', x', rfl, hgg, hxx⟩ := hrest.exists_append
  have hplace := aligned_after hT hT' hu hgg hxx
  refine looseBlanks1_alike hT hT' hu hg hgg hstop hxx ?_ ?_ ?_
  · intro hne
    refine importBody_alike hnext' h ⟨clausePlace_of_stops hplace hstop, hparts⟩ ?_
    rw [read_seq, blanks1, read_run1_after hne hg hstop] at hword
    exact hword
  · intro a b hab hblank
    refine importBody_alike hnext' h ⟨hab, hparts⟩ (read_eq_none ?_)
    obtain ⟨c, cs, hcs, hc⟩ : ∃ c cs, a.rest = c :: cs ∧ Text.isBlank c = true := by
      cases hrest : a.rest with
      | nil => exact absurd (hrest ▸ Text.stops_nil _) hblank
      | cons c cs => exact ⟨c, cs, rfl, by simpa [hrest, Text.stops_cons] using hblank⟩
    rw [hcs]
    refine Opens.unread_cons (opens_text "type") ?_
    simpa using (Text.ne_of_class hc (by decide)).symm
  · rintro rfl f rfl hbody
    have hcons : v ++ [f, '\n'] = v ++ [f] ++ ['\n'] := List.append_cons v f ['\n']
    rw [hcons] at hplace hbody
    have hclause := (orElse_eq_none hbody).2
    have hsource : fromSource.read next' ⟨.after (v ++ [f] ++ ['\n']) x', []⟩ = none :=
      read_fromSource_of_newline hnext' hstop hplace hnewline
    rw [importBody, read_seq, read_optional_of_none]
    · exact read_clauseAndSource_newline hnext' hsource hclause
    · exact read_eq_none (Opens.unread_cons (Opens.seq (opens_text "type") _) (by simp))

end Alike

section Import

variable {T T' : List Char}

/-- Both texts have an import with a clause at corresponding places or neither does, if there is no import whose clause
would be a single newline. -/
theorem staticImport_alike (hhollow : hollowImport.matchesIn T = []) {a b : Cursor} (h : Aligned T T' a b) :
    Option.Rel (MatchAlike T T' (List.Forall₂ (PartAlike T T'))) (staticImport.matchAt a) (staticImport.matchAt b) := by
  have hhead : (Pattern.seq statementStart (.part .keyword (text "import"))).Lockstep (InStep T T') (InStep T T') := by
    refine lockstep_statementStart.seq (((lockstep_text (by decide)).part .keyword rfl).near fun _ _ => ?_)
    exact Opens.unread_cons (opens_text "import") (by simp)
  have hnone : hollowImport.read (fun _ => some ()) ⟨a, []⟩ = none := by
    obtain ⟨u, v, rest, rest', rfl, rfl, hT, -⟩ := h
    rw [hT] at hhollow
    refine read_eq_none_of_samePlace (fun _ => rfl) (fun _ => rfl) ?_ (matchAt_eq_none hhollow)
    rfl
  refine hhead _ _ _ (hollowEnd.read fun _ => some ()) _ _ ⟨a, []⟩ ⟨b, []⟩ ⟨h, .nil⟩ hnone fun r r' hr hend => ?_
  refine importTail_alike (fun _ => rfl) (fun x y hxy => .some ⟨?_, ?_, hxy.parts⟩) hr hend
  · exact ⟨a, b, h, rfl, rfl⟩
  · exact Near.sameBound (.inl hxy.place)

end Import

end ModuleGraph.Curly
