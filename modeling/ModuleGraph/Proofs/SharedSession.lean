import ModuleGraph.Config
import ModuleGraph.Proofs.Reading

namespace ModuleGraph

/-- A request for the declarations of a path, by how far it has come. -/
inductive Call where
  | started (p : Path)
  | missed (p : Path)
  | parsed (p : Path) (e : Extraction)
  | returned (p : Path) (d : Declarations)
  deriving DecidableEq

namespace Call

def path : Call → Path
  | .started p | .missed p | .parsed p _ | .returned p _ => p

/-- One step of a call: it looks its path up, reads and parses the file, or remembers what it parsed. -/
def advance (t : FileTree) (s : Session) : Call → Call × Session
  | .started p =>
    match s.lookup? p with
    | some d => (.returned p d, s)
    | none => (.missed p, s)
  | .missed p => (.parsed p (Extraction.ofFile t p), s)
  | .parsed p e => (.returned p e.declarations, s.remember p e)
  | .returned p d => (.returned p d, s)

/-- A call that is not interrupted takes three steps at most. -/
def runAlone (t : FileTree) (s : Session) (c : Call) : Call × Session :=
  let (c, s) := c.advance t s
  let (c, s) := c.advance t s
  c.advance t s

theorem runAlone_started (t : FileTree) (s : Session) (p : Path) :
    runAlone t s (.started p) = (.returned p (s.extract t p).1, (s.extract t p).2) := by
  unfold runAlone Session.extract
  cases h : s.lookup? p <;> simp [advance, h]

end Call

structure Pool where
  session : Session := {}
  calls : List Call := []

/-- The pools that calls, their steps and clearings lead to, in any order. -/
inductive Pool.Reachable (t : FileTree) : Pool → Prop
  | idle : Reachable t {}
  | start {s : Session} {calls : List Call} (p : Path) :
      Reachable t ⟨s, calls⟩ → Reachable t ⟨s, calls ++ [.started p]⟩
  | advance {s : Session} {before after : List Call} {c : Call} :
      Reachable t ⟨s, before ++ c :: after⟩ →
      Reachable t ⟨(c.advance t s).2, before ++ (c.advance t s).1 :: after⟩
  | clear {s : Session} {calls : List Call} : Reachable t ⟨s, calls⟩ → Reachable t ⟨{}, calls⟩

namespace Extraction

/-- The declarations are those of a file that can be read under the given components. -/
def ReadAs (t : FileTree) (cs : List Path.Component) (d : Declarations) : Prop :=
  ∃ q : Path, q.components = cs ∧ (ofFile t q).keep = true ∧ d = (ofFile t q).declarations

/-- The declarations are those of one of some paths, which can be read and has the given components. -/
def ReadAmong (t : FileTree) (paths : List Path) (cs : List Path.Component) (d : Declarations) : Prop :=
  ∃ q ∈ paths, q.components = cs ∧ (ofFile t q).keep = true ∧ d = (ofFile t q).declarations

theorem ReadAmong.readAs {t : FileTree} {paths : List Path} {cs : List Path.Component} {d : Declarations}
    (h : ReadAmong t paths cs d) : ReadAs t cs d := by
  obtain ⟨q, -, hread⟩ := h
  exact ⟨q, hread⟩

theorem ReadAmong.mono {t : FileTree} {paths paths' : List Path} {cs : List Path.Component} {d : Declarations}
    (hsub : paths ⊆ paths') (h : ReadAmong t paths cs d) : ReadAmong t paths' cs d := by
  obtain ⟨q, hq, hread⟩ := h
  exact ⟨q, hsub hq, hread⟩

theorem ReadAs.eq_own {t : FileTree} {p : Path} {d : Declarations} (h : ReadAs t p.components d)
    (hp : (ofFile t p).keep = true) : d = (ofFile t p).declarations := by
  obtain ⟨q, hc, hq, rfl⟩ := h
  rw [ofFile_eq_of_components hc hq hp]

/-- The path can be read as it is spelled, or cannot be read under any spelling. -/
def ReadsAsSpelled (t : FileTree) (p : Path) : Prop :=
  (ofFile t p).keep = true ∨ ∀ q : Path, q.components = p.components → (ofFile t q).keep = false

theorem exists_spelling_of_not_readsAsSpelled {t : FileTree} {p : Path} (h : ¬ReadsAsSpelled t p) :
    (ofFile t p).keep = false ∧ ∃ q : Path, q.components = p.components ∧ (ofFile t q).keep = true := by
  simpa only [ReadsAsSpelled, not_or, Bool.not_eq_true, not_forall, Bool.not_eq_false, exists_prop] using h

theorem ReadAs.eq_of_readsAsSpelled {t : FileTree} {p : Path} {d : Declarations}
    (h : ReadAs t p.components d) (hp : ReadsAsSpelled t p) : d = (ofFile t p).declarations := by
  rcases hp with hp | hp
  · exact h.eq_own hp
  · obtain ⟨q, hc, hq, -⟩ := h
    rw [hp q hc] at hq
    contradiction

theorem declarations_ne_unreadable {t : FileTree} {p : Path} (h : (ofFile t p).keep = true) :
    (ofFile t p).declarations ≠ unreadable := by
  obtain ⟨hx, bytes, hr⟩ := ofFile_keep_iff.mp h
  rw [ofFile_of_read? hx hr]
  simp only [ofBytes]
  split
  next family _ =>
    cases family <;> simp [Declarations.ofSource, Curly.extract, Indent.extract, unreadable, Declarations.failed]
  next => decide

/-- An unreadable spelling of a file that can be read has declarations of its own. -/
theorem declarations_ne_of_spelling {t : FileTree} {p q : Path} (h : q.components = p.components)
    (hq : (ofFile t q).keep = true) (hp : (ofFile t p).keep = false) :
    (ofFile t q).declarations ≠ (ofFile t p).declarations := by
  obtain ⟨hx, -⟩ := ofFile_keep_iff.mp hq
  rw [extension?_eq_of_components h] at hx
  have hr : t.read? p = none := by
    cases hr : t.read? p with
    | none => rfl
    | some bytes => simp [ofFile_of_read? hx hr] at hp
  have hown : (ofFile t p).declarations = unreadable := by simp [ofFile, hx, hr]
  rw [hown]
  exact declarations_ne_unreadable hq

end Extraction

open Extraction

/-- Everything that a session remembers was read from a file of one of the given paths. -/
def Session.Faithful (t : FileTree) (paths : List Path) (s : Session) : Prop :=
  ∀ cs d, s.entries.lookup cs = some d → ReadAmong t paths cs d

namespace Session

theorem faithful_empty (t : FileTree) (paths : List Path) : Faithful t paths {} := by
  intro cs d h
  simp at h

theorem Faithful.mono {t : FileTree} {paths paths' : List Path} {s : Session} (hsub : paths ⊆ paths')
    (h : s.Faithful t paths) : s.Faithful t paths' :=
  fun cs d hd => (h cs d hd).mono hsub

theorem Faithful.remember {t : FileTree} {paths : List Path} {s : Session} (h : s.Faithful t paths) {p : Path}
    (hp : p ∈ paths) : (s.remember p (ofFile t p)).Faithful t paths := by
  unfold Session.remember
  split
  next hk =>
    intro cs d hd
    rw [lookup_insert] at hd
    split at hd
    next hc => exact ⟨p, hp, hc, hk, (Option.some.inj hd).symm⟩
    next => exact h cs d hd
  next => exact h

theorem Faithful.extract {t : FileTree} {paths : List Path} {s : Session} (h : s.Faithful t paths) (p : Path) :
    (s.extract t p).2.Faithful t (p :: paths) ∧
      (ReadsAsSpelled t p → (s.extract t p).1 = (ofFile t p).declarations) := by
  have hmore : s.Faithful t (p :: paths) := h.mono (List.subset_cons_self p paths)
  unfold Session.extract
  split
  next d hl => exact ⟨hmore, fun hp => (h p.components d hl).readAs.eq_of_readsAsSpelled hp⟩
  next => exact ⟨hmore.remember List.mem_cons_self, fun _ => rfl⟩

end Session

/-- What a call may hold: an extraction of its own path, or in the end the declarations of a path with the same
components. -/
def Call.Sound (t : FileTree) (paths : List Path) : Call → Prop
  | .started _ => True
  | .missed _ => True
  | .parsed p e => e = ofFile t p
  | .returned p d => d = (ofFile t p).declarations ∨ ReadAmong t paths p.components d

theorem Call.Sound.mono {t : FileTree} {paths paths' : List Path} {c : Call} (hsub : paths ⊆ paths')
    (h : c.Sound t paths) : c.Sound t paths' := by
  cases c with
  | started p => trivial
  | missed p => trivial
  | parsed p e => exact h
  | returned p d => exact h.imp_right (ReadAmong.mono hsub)

theorem Call.path_advance (t : FileTree) (s : Session) (c : Call) : (c.advance t s).1.path = c.path := by
  cases c with
  | started p => cases hl : s.lookup? p <;> simp [Call.advance, hl, Call.path]
  | _ => rfl

theorem Call.Sound.advance {t : FileTree} {paths : List Path} {s : Session} {c : Call} (hs : s.Faithful t paths)
    (hp : c.path ∈ paths) (hc : c.Sound t paths) :
    (c.advance t s).1.Sound t paths ∧ (c.advance t s).2.Faithful t paths := by
  cases c with
  | started p =>
    cases hl : s.lookup? p with
    | some d =>
      have hread : ReadAmong t paths p.components d := hs p.components d hl
      simpa [Call.advance, hl, Call.Sound] using ⟨.inr hread, hs⟩
    | none => simpa [Call.advance, hl, Call.Sound] using hs
  | missed p => exact ⟨rfl, hs⟩
  | parsed p e =>
    have he : e = ofFile t p := hc
    subst e
    exact ⟨.inl rfl, hs.remember hp⟩
  | returned p d => exact ⟨hc, hs⟩

namespace Pool

def paths (pool : Pool) : List Path :=
  pool.calls.map Call.path

theorem Reachable.sound {t : FileTree} {pool : Pool} (h : Reachable t pool) :
    pool.session.Faithful t pool.paths ∧ ∀ c ∈ pool.calls, c.Sound t pool.paths := by
  induction h with
  | idle => exact ⟨Session.faithful_empty t _, by simp⟩
  | @start s calls p _ ih =>
    have hsub : paths ⟨s, calls⟩ ⊆ paths ⟨s, calls ++ [.started p]⟩ := by
      intro q hq
      rw [paths, List.map_append]
      exact List.mem_append_left _ hq
    refine ⟨ih.1.mono hsub, fun c hc => ?_⟩
    rcases List.mem_append.mp hc with hc | hc
    · exact (ih.2 c hc).mono hsub
    · rw [List.mem_singleton.mp hc]
      trivial
  | @advance s before after c _ ih =>
    obtain ⟨hs, hcalls⟩ := ih
    have hsame : paths ⟨(c.advance t s).2, before ++ (c.advance t s).1 :: after⟩ = paths ⟨s, before ++ c :: after⟩ := by
      simp [paths, Call.path_advance]
    have hstep := Call.Sound.advance hs (List.mem_map_of_mem (by simp)) (hcalls c (by simp))
    rw [hsame]
    refine ⟨hstep.2, fun d hd => ?_⟩
    rcases List.mem_append.mp hd with hd | hd
    · exact hcalls d (by simp [hd])
    · rcases List.mem_cons.mp hd with rfl | hd
      · exact hstep.1
      · exact hcalls d (by simp [hd])
  | clear _ ih => exact ⟨Session.faithful_empty t _, ih.2⟩

theorem Reachable.returned_eq {t : FileTree} {pool : Pool} (h : Reachable t pool) {p : Path}
    {d : Declarations} (hd : .returned p d ∈ pool.calls) (hp : ReadsAsSpelled t p) :
    d = (ofFile t p).declarations := by
  rcases h.sound.2 _ hd with he | he
  · exact he
  · exact he.readAs.eq_of_readsAsSpelled hp

theorem Reachable.call {t : FileTree} {s : Session} {calls : List Call} (h : Reachable t ⟨s, calls⟩)
    (p : Path) :
    Reachable t ⟨(s.extract t p).2, calls ++ [.returned p (s.extract t p).1]⟩ := by
  have hrun := (((h.start p).advance).advance).advance
  have halone := Call.runAlone_started t s p
  simp only [Call.runAlone] at halone
  rw [halone] at hrun
  exact hrun

/-- A path that can be read under another spelling only is returned with the declarations of that spelling,
once it was read. -/
theorem exists_returned_ne {t : FileTree} {p : Path} (h : ¬ ReadsAsSpelled t p) :
    ∃ pool d, Reachable t pool ∧ .returned p d ∈ pool.calls ∧ d ≠ (ofFile t p).declarations := by
  obtain ⟨hp, q, hc, hq⟩ := exists_spelling_of_not_readsAsSpelled h
  have hpool := ((Reachable.idle (t := t)).call q).call p
  refine ⟨_, _, hpool, List.mem_append_right _ (List.mem_singleton_self _), ?_⟩
  have hread : (Session.extract t {} q).2 = Session.insert {} q (ofFile t q).declarations := by
    simp [Session.extract, Session.lookup?, Session.remember, hq]
  have hl : (Session.insert {} q (ofFile t q).declarations).lookup? p = some (ofFile t q).declarations := by
    rw [Session.lookup?, Session.lookup_insert, if_pos hc]
  have hhit : ((Session.insert {} q (ofFile t q).declarations).extract t p).1 = (ofFile t q).declarations := by
    simp [Session.extract, hl]
  rw [hread, hhit]
  exact declarations_ne_of_spelling hc hq hp

end Pool

namespace Graph

variable {K : Type}

/-- The graph of files whose declarations were taken by calls of their own. -/
def ofDeclarations [Scalar K] (t : FileTree) (files : List (FileRecord K)) (options : BuildOptions K)
    (ds : List Declarations) : Graph K :=
  assemble options (List.zipWith (fun f d => ⟨f, d, resolveFile t (.ofOptions t options.resolve)
    (.ofPaths (files.map (·.absolutePath))) f.absolutePath d⟩) files ds)

def extractAll (t : FileTree) : Session → List (FileRecord K) → List Declarations
  | _, [] => []
  | s, f :: fs => (s.extract t f.absolutePath).1 :: extractAll t (s.extract t f.absolutePath).2 fs

theorem parseFiles_eq_zipWith (t : FileTree) (resolver : Resolver) (index : NodeIndex) (s : Session)
    (files : List (FileRecord K)) :
    (parseFiles t resolver index s files).1 = List.zipWith
      (fun f d => ⟨f, d, resolveFile t resolver index f.absolutePath d⟩) files (extractAll t s files) := by
  induction files generalizing s with
  | nil => rfl
  | cons f files ih => simp [parseFiles, extractAll, ih]

theorem buildIn_eq_ofDeclarations [Scalar K] (t : FileTree) (s : Session) (files : List (FileRecord K))
    (options : BuildOptions K) :
    (buildIn t s files options).1 = ofDeclarations t files options (extractAll t s files) := by
  simp [buildIn, ofDeclarations, parseFiles_eq_zipWith]

theorem extractAll_eq_own {t : FileTree} {paths : List Path} {s : Session} (hs : s.Faithful t paths)
    {files : List (FileRecord K)} (h : ∀ f ∈ files, ReadsAsSpelled t f.absolutePath) :
    extractAll t s files = files.map fun f => (ofFile t f.absolutePath).declarations := by
  induction files generalizing paths s with
  | nil => rfl
  | cons f files ih =>
    obtain ⟨hnext, hown⟩ := hs.extract f.absolutePath
    rw [extractAll, List.map_cons, hown (h f (by simp)), ih hnext fun g hg => h g (by simp [hg])]

theorem declarations_eq_own {t : FileTree} {pool : Pool} (hpool : pool.Reachable t)
    {files : List (FileRecord K)} (h : ∀ f ∈ files, ReadsAsSpelled t f.absolutePath) {ds : List Declarations}
    (hds : List.Forall₂ (fun f d => .returned f.absolutePath d ∈ pool.calls) files ds) :
    ds = files.map fun f => (ofFile t f.absolutePath).declarations := by
  induction hds with
  | nil => rfl
  | cons hd _ ih =>
    rw [List.map_cons, hpool.returned_eq hd (h _ (by simp)), ih fun g hg => h g (by simp [hg])]

end Graph

/-- However calls and clearings come between each other, what is remembered for components was read from a
file under them, and a call returns what it would return alone for exactly those paths that can be read as they
are spelled or under no spelling. Over such paths a build gives the same graph after and beside anything else:
one after the other over the session, or with a call for each file. -/
theorem shared_session_transparent (t : FileTree) :
    (∀ pool : Pool, pool.Reachable t →
      (∀ (p : Path) d, pool.session.lookup? p = some d →
        (ReadsAsSpelled t p → d = (ofFile t p).declarations) ∧ ReadAs t p.components d)) ∧
    (∀ p, ReadsAsSpelled t p ↔
      ∀ (pool : Pool) d, pool.Reachable t → .returned p d ∈ pool.calls → d = (ofFile t p).declarations) ∧
    ∀ {K : Type} [Scalar K] (files : List (FileRecord K)) (options : BuildOptions K) (pool : Pool),
      pool.Reachable t → (∀ f ∈ files, ReadsAsSpelled t f.absolutePath) →
      (Graph.buildIn t pool.session files options).1 = Graph.build t files options ∧
      ∀ ds, List.Forall₂ (fun f d => .returned f.absolutePath d ∈ pool.calls) files ds →
        Graph.ofDeclarations t files options ds = Graph.build t files options := by
  refine ⟨fun pool hpool p d hd => ?_, fun p => ⟨fun hp pool d hpool hd => hpool.returned_eq hd hp, fun h => ?_⟩,
    fun files options pool hpool hfiles => ?_⟩
  · have hread := hpool.sound.1 _ _ hd
    exact ⟨hread.readAs.eq_of_readsAsSpelled, hread.readAs⟩
  · by_contra hp
    obtain ⟨pool, d, hpool, hd, hne⟩ := Pool.exists_returned_ne hp
    exact hne (h pool d hpool hd)
  · have hbuild : Graph.build t files options = Graph.ofDeclarations t files options
        (files.map fun f => (ofFile t f.absolutePath).declarations) := by
      rw [Graph.build, Graph.buildIn_eq_ofDeclarations,
        Graph.extractAll_eq_own (Session.faithful_empty t []) hfiles]
    refine ⟨?_, fun ds hds => ?_⟩
    · rw [hbuild, Graph.buildIn_eq_ofDeclarations, Graph.extractAll_eq_own hpool.sound.1 hfiles]
    · rw [hbuild, Graph.declarations_eq_own hpool hfiles hds]

/-- Two calls that both find nothing, with a clearing between their steps, return the same declarations, and a
build after them gives the graph of a build alone. -/
theorem shared_session_transparent_of_two_misses :
    let t : FileTree := { files := [(["f.ts"], [])] }
    let p : Path := ⟨"/f.ts"⟩
    let files : List (FileRecord Float) := [.ofPath ⟨"/"⟩ p 0.0]
    let pool : Pool := ⟨.insert {} p {}, [.returned p {}, .returned p {}]⟩
    pool.Reachable t ∧ ReadsAsSpelled t p ∧ {} = (ofFile t p).declarations ∧
      (Graph.buildIn t pool.session files (.ofConfig ⟨"/"⟩ {})).1 = Graph.build t files (.ofConfig ⟨"/"⟩ {}) := by
  intro t p files pool
  have hmissed : Pool.Reachable t ⟨{}, [.missed p, .missed p]⟩ :=
    @Pool.Reachable.advance t {} [.missed p] [] (.started p)
      (@Pool.Reachable.advance t {} [] [.started p] (.started p)
        (.start p (.start p .idle)))
  have hfile : ofFile t p = ⟨{}, true⟩ := by decide +kernel
  have hparsed : Pool.Reachable t ⟨{}, [.parsed p ⟨{}, true⟩, .parsed p ⟨{}, true⟩]⟩ := by
    rw [← hfile]
    exact @Pool.Reachable.advance t {} [.parsed p (ofFile t p)] [] (.missed p)
      (@Pool.Reachable.advance t {} [] [.missed p] (.missed p) hmissed)
  have hcleared : Pool.Reachable t ⟨{}, [.returned p {}, .parsed p ⟨{}, true⟩]⟩ :=
    .clear (@Pool.Reachable.advance t {} [] [.parsed p ⟨{}, true⟩] (.parsed p ⟨{}, true⟩) hparsed)
  have hpool : pool.Reachable t :=
    @Pool.Reachable.advance t {} [.returned p {}] [] (.parsed p ⟨{}, true⟩) hcleared
  have hread : ReadsAsSpelled t p := .inl (by decide)
  obtain ⟨-, hreturned, hbuild⟩ := shared_session_transparent t
  have hfiles : ∀ f ∈ files, ReadsAsSpelled t f.absolutePath := by
    intro f hf
    rw [List.mem_singleton.mp hf]
    exact hread
  exact ⟨hpool, hread, (hreturned p).mp hread pool {} hpool (by simp [pool]), (hbuild files _ pool hpool hfiles).1⟩

/-- A path with a separator at its end names no file, but finds what was remembered for the file. -/
theorem returned_ne_of_trailing_separator :
    let t : FileTree := { files := [(["f.ts"], [])] }
    ∃ pool d, Pool.Reachable t pool ∧ .returned ⟨"/f.ts/"⟩ d ∈ pool.calls ∧
      d ≠ (ofFile t ⟨"/f.ts/"⟩).declarations := by
  intro t
  have hspelling : ¬ ReadsAsSpelled t ⟨"/f.ts/"⟩ := by
    rintro (h | h)
    · exact absurd h (by decide)
    · exact absurd (h ⟨"/f.ts"⟩ (by decide)) (by decide)
  exact Pool.exists_returned_ne hspelling

end ModuleGraph
