import ModuleGraph.Proofs.SharedSession

namespace ModuleGraph

/-- What happens to a tree of files and to what is remembered of it. -/
inductive Event where
  | write (p : Path) (bytes : List UInt8)
  | remove (p : Path)
  | extract (p : Path)
  | clear

namespace Event

/-- The tree after an event. What cannot be written or removed leaves it as it is. -/
def changed (t : FileTree) : Event → FileTree
  | .write p bytes => (t.write? p bytes).getD t
  | .remove p => (t.remove? p).getD t
  | .extract _ => t
  | .clear => t

def remembered (t : FileTree) (s : Session) : Event → Session
  | .write _ _ => s
  | .remove _ => s
  | .extract p => (s.extract t p).2
  | .clear => {}

end Event

structure Project where
  tree : FileTree
  session : Session := {}

namespace Project

def after (w : Project) (e : Event) : Project :=
  ⟨e.changed w.tree, e.remembered w.tree w.session⟩

/-- A project, of which nothing is remembered at first, after some events. -/
def run (t : FileTree) (events : List Event) : Project :=
  events.foldl after ⟨t, {}⟩

def extract (w : Project) (p : Path) : Declarations × Session :=
  w.session.extract w.tree p

end Project

/-- A call for the declarations of a path, with the tree as it was then. -/
structure Visit where
  tree : FileTree
  path : Path

namespace Extraction

/-- The bytes that a path is read for: those of its file, unless the extension is a foreign one. -/
def content? (t : FileTree) (p : Path) : Option (List UInt8) :=
  if p.extension?.any fun e => (Family.ofExtension? e).isNone then none else t.read? p

theorem ofFile_of_content? {t : FileTree} {p : Path} {bytes : List UInt8} (h : content? t p = some bytes) :
    ofFile t p = ⟨ofBytes p.extension? bytes, true⟩ := by
  obtain ⟨hx, hr⟩ := Option.ite_none_left_eq_some.mp h
  exact ofFile_of_read? (Bool.eq_false_iff.mpr hx) hr

theorem keep_iff_content? {t : FileTree} {p : Path} : (ofFile t p).keep = true ↔ (content? t p).isSome = true := by
  rw [ofFile_keep_iff, Option.isSome_iff_exists]
  simp only [content?, Option.ite_none_left_eq_some, Bool.not_eq_true, exists_and_left]

theorem content?_eq_none_iff {t : FileTree} {p : Path} : content? t p = none ↔ (ofFile t p).keep = false := by
  rw [← Bool.not_eq_true, keep_iff_content?, Bool.not_eq_true, Option.isSome_eq_false_iff, Option.isNone_iff_eq_none]

theorem content?_eq_of_components {t : FileTree} {p q : Path} {bytes bytes' : List UInt8}
    (h : p.components = q.components) (hp : content? t p = some bytes) (hq : content? t q = some bytes') :
    bytes = bytes' :=
  read?_eq_of_components h (Option.ite_none_left_eq_some.mp hp).2 (Option.ite_none_left_eq_some.mp hq).2

theorem content?_of_foreign {t : FileTree} {p q : Path} (h : q.components = p.components)
    (hx : (p.extension?.any fun e => (Family.ofExtension? e).isNone) = true) : content? t q = none := by
  rw [content?, extension?_eq_of_components h, if_pos hx]

end Extraction

open Extraction

namespace Visit

def content? (v : Visit) : Option (List UInt8) :=
  Extraction.content? v.tree v.path

end Visit

/-- The calls since the last clearing, the earliest first, when there are some before the events. -/
def visitsFrom (earlier : List Visit) (t : FileTree) : List Event → List Visit
  | [] => earlier
  | .write p bytes :: events => visitsFrom earlier (Event.changed t (.write p bytes)) events
  | .remove p :: events => visitsFrom earlier (Event.changed t (.remove p)) events
  | .extract p :: events => visitsFrom (earlier ++ [⟨t, p⟩]) t events
  | .clear :: events => visitsFrom [] t events

/-- The calls since the last clearing, or since the start, the earliest first. -/
def visits (t : FileTree) (events : List Event) : List Visit :=
  visitsFrom [] t events

/-- What the earliest of some calls under the given components found that could read its file. -/
def snapshot? (calls : List Visit) (cs : List Path.Component) : Option (List UInt8) :=
  (calls.filter (·.path.components = cs)).findSome? Visit.content?

/-- What a path itself held at the earliest of some calls under its components that could read their file, among those
at which it could be read as it is spelled. -/
def ownSnapshot? (calls : List Visit) (p : Path) : Option (List UInt8) :=
  (calls.filter (·.path.components = p.components)).findSome? fun v => v.content?.bind fun _ => content? v.tree p

theorem snapshot?_append_singleton (calls : List Visit) (v : Visit) (cs : List Path.Component) :
    snapshot? (calls ++ [v]) cs = (snapshot? calls cs).or (if v.path.components = cs then v.content? else none) := by
  unfold snapshot?
  rw [List.filter_append, List.findSome?_append]
  by_cases h : v.path.components = cs
  · simp [h, List.findSome?_singleton]
  · simp [h]

theorem snapshot?_of_foreign (calls : List Visit) {p : Path}
    (hx : (p.extension?.any fun e => (Family.ofExtension? e).isNone) = true) :
    snapshot? calls p.components = none := by
  rw [snapshot?, List.findSome?_eq_none_iff]
  intro v hv
  exact content?_of_foreign (by simpa using (List.mem_filter.mp hv).2) hx

def Session.Remembers (calls : List Visit) (s : Session) : Prop :=
  ∀ p : Path, s.lookup? p = (snapshot? calls p.components).map (ofBytes p.extension?)

namespace Session

theorem remembers_empty : Remembers [] {} := fun _ => rfl

theorem extract_of_snapshot? {calls : List Visit} {s : Session} (h : s.Remembers calls) (t : FileTree) {p : Path}
    {bytes : List UInt8} (hb : snapshot? calls p.components = some bytes) :
    s.extract t p = (ofBytes p.extension? bytes, s) := by
  have hl : s.lookup? p = some (ofBytes p.extension? bytes) := by rw [h p, hb, Option.map_some]
  simp only [extract, hl]

theorem extract_of_no_snapshot? {calls : List Visit} {s : Session} (h : s.Remembers calls) (t : FileTree) {p : Path}
    (hb : snapshot? calls p.components = none) :
    s.extract t p = ((ofFile t p).declarations, s.remember p (ofFile t p)) := by
  have hl : s.lookup? p = none := by rw [h p, hb, Option.map_none]
  simp only [extract, hl]

theorem Remembers.extract {calls : List Visit} {s : Session} (h : s.Remembers calls) (t : FileTree) (p : Path) :
    (s.extract t p).2.Remembers (calls ++ [⟨t, p⟩]) := by
  intro q
  rw [snapshot?_append_singleton]
  cases hb : snapshot? calls p.components with
  | some bytes =>
    rw [extract_of_snapshot? h t hb, h q]
    -- What was found before stays, also for the path that is called now.
    by_cases hc : p.components = q.components
    · rw [← hc, hb, Option.some_or]
    · rw [if_neg hc, Option.or_none]
  | none =>
    rw [extract_of_no_snapshot? h t hb]
    cases hread : content? t p with
    | none =>
      have hv : Visit.content? ⟨t, p⟩ = none := hread
      rw [remember, if_neg (Bool.eq_false_iff.mp (content?_eq_none_iff.mp hread)), h q, hv, ite_self, Option.or_none]
    | some bytes =>
      have hv : Visit.content? ⟨t, p⟩ = some bytes := hread
      rw [ofFile_of_content? hread, remember, if_pos rfl, lookup?, lookup_insert]
      by_cases hc : p.components = q.components
      · rw [if_pos hc, if_pos hc, ← hc, hb, Option.none_or, hv, Option.map_some, extension?_eq_of_components hc]
      · rw [if_neg hc, if_neg hc, Option.or_none]
        exact h q

end Session

theorem remembers_foldl {calls : List Visit} {w : Project} (h : w.session.Remembers calls) (events : List Event) :
    (events.foldl Project.after w).session.Remembers (visitsFrom calls w.tree events) := by
  induction events generalizing calls w with
  | nil => exact h
  | cons e events ih =>
    cases e with
    | write p bytes => exact ih h
    | remove p => exact ih h
    | extract p => exact ih (h.extract w.tree p)
    | clear => exact ih Session.remembers_empty

theorem remembers_run (t : FileTree) (events : List Event) :
    (Project.run t events).session.Remembers (visits t events) :=
  remembers_foldl Session.remembers_empty events

/-- Where a path can be read as it is spelled, or under no spelling, the calls under its components found what it held
itself. -/
theorem ownSnapshot?_eq {calls : List Visit} {p : Path} (h : ∀ v ∈ calls, ReadsAsSpelled v.tree p) :
    ownSnapshot? calls p = snapshot? calls p.components := by
  unfold ownSnapshot? snapshot?
  rw [← List.head?_filterMap, ← List.head?_filterMap]
  refine congrArg List.head? (List.filterMap_congr fun v hv => ?_)
  obtain ⟨hmem, hc⟩ := List.mem_filter.mp hv
  have hc : v.path.components = p.components := by simpa using hc
  cases hv : v.content? with
  | none => rfl
  | some bytes =>
    rw [Option.bind_some]
    rcases h v hmem with hp | hp
    · obtain ⟨own, hown⟩ := Option.isSome_iff_exists.mp (keep_iff_content?.mp hp)
      rw [hown, content?_eq_of_components hc hv hown]
    · have hkeep : (ofFile v.tree v.path).keep = true := keep_iff_content?.mpr (Option.isSome_iff_exists.mpr ⟨bytes, hv⟩)
      rw [hp v.path hc] at hkeep
      contradiction

/-- What would be returned for a path if only those calls counted at which it could be read as it is spelled. -/
def ownAnswer (t : FileTree) (events : List Event) (p : Path) : Declarations :=
  ((ownSnapshot? (visits t events) p).map (ofBytes p.extension?)).getD
    (ofFile (Project.run t events).tree p).declarations

theorem extract_eq_ownAnswer {t : FileTree} {events : List Event} {p : Path}
    (h : ∀ v ∈ visits t events, ReadsAsSpelled v.tree p) :
    ((Project.run t events).extract p).1 = ownAnswer t events p := by
  have hmemory := remembers_run t events
  rw [ownAnswer, ownSnapshot?_eq h]
  cases hb : snapshot? (visits t events) p.components with
  | some bytes => rw [Project.extract, Session.extract_of_snapshot? hmemory _ hb, Option.map_some, Option.getD_some]
  | none => rw [Project.extract, Session.extract_of_no_snapshot? hmemory _ hb, Option.map_none, Option.getD_none]

/-- A path that can be read under another spelling only is returned with what that spelling was read for. -/
theorem extract_ne_ownAnswer {t : FileTree} {p : Path} (h : ¬ReadsAsSpelled t p) :
    ∃ events, ((Project.run t events).extract p).1 ≠ ownAnswer t events p := by
  obtain ⟨hp, q, hc, hq⟩ := exists_spelling_of_not_readsAsSpelled h
  obtain ⟨bytes, hbytes⟩ := Option.isSome_iff_exists.mp (keep_iff_content?.mp hq)
  have hv : Visit.content? ⟨t, q⟩ = some bytes := hbytes
  have hnone : content? t p = none := content?_eq_none_iff.mpr hp
  have hfound : snapshot? (visits t [.extract q]) p.components = some bytes := by
    simp [visits, visitsFrom, snapshot?, hc, hv]
  have hown : ownSnapshot? (visits t [.extract q]) p = none := by
    simp [visits, visitsFrom, ownSnapshot?, hc, hv, hnone]
  refine ⟨[.extract q], ?_⟩
  rw [ownAnswer, hown, Project.extract, Session.extract_of_snapshot? (remembers_run t _) _ hfound, Option.map_none,
    Option.getD_none]
  have hdeclarations := declarations_ne_of_spelling hc hq hp
  rwa [ofFile_of_content? hbytes, extension?_eq_of_components hc] at hdeclarations

/-- Whatever was written, removed, asked for and forgotten before, a path is returned with the declarations of what the
earliest call under its components since the last clearing found that could read its file, and nothing more is
remembered; where there was no such call, with those of the file as it is now. A call that finds nothing remembered and
no file returns one error and leaves the memory as it was, and so does every call with a foreign extension. If the
path was called by no other spelling, the calls are those of the path itself; and in all histories it is returned with
what it held itself exactly if it is a path that can be read as it is spelled or under no spelling. -/
theorem extract_returns_snapshot (t : FileTree) (events : List Event) (p : Path) :
    (∀ bytes, snapshot? (visits t events) p.components = some bytes →
      (Project.run t events).extract p = (ofBytes p.extension? bytes, (Project.run t events).session)) ∧
    (snapshot? (visits t events) p.components = none →
      ((Project.run t events).extract p).1 = (ofFile (Project.run t events).tree p).declarations) ∧
    (snapshot? (visits t events) p.components = none →
      (p.extension?.any fun e => (Family.ofExtension? e).isNone) = false →
      (Project.run t events).tree.read? p = none →
      (Project.run t events).extract p = (.failed "Failed to read file", (Project.run t events).session)) ∧
    ((p.extension?.any fun e => (Family.ofExtension? e).isNone) = true →
      (Project.run t events).extract p = (.failed "Unsupported file type", (Project.run t events).session)) ∧
    ((∀ v ∈ visits t events, v.path.components = p.components → v.path = p) →
      snapshot? (visits t events) p.components =
        ((visits t events).filter (·.path = p)).findSome? Visit.content?) ∧
    ((∀ t', ReadsAsSpelled t' p) ↔
      ∀ t' events', ((Project.run t' events').extract p).1 = ownAnswer t' events' p) := by
  have hmemory := remembers_run t events
  refine ⟨fun bytes hb => Session.extract_of_snapshot? hmemory _ hb, fun hb => ?_, fun hb hx hr => ?_, fun hx => ?_,
    fun hspelling => ?_, fun h t' events' => extract_eq_ownAnswer fun v _ => h v.tree, fun h t' => ?_⟩
  · rw [Project.extract, Session.extract_of_no_snapshot? hmemory _ hb]
  · have hfile : ofFile (Project.run t events).tree p = ⟨unreadable, false⟩ := by simp [ofFile, hx, hr]
    rw [Project.extract, Session.extract_of_no_snapshot? hmemory _ hb, hfile]
    rfl
  · have hfile : ofFile (Project.run t events).tree p = ⟨unsupported, false⟩ := by simp [ofFile, hx]
    rw [Project.extract, Session.extract_of_no_snapshot? hmemory _ (snapshot?_of_foreign _ hx), hfile]
    rfl
  · refine congrArg (List.findSome? _) (List.filter_congr fun v hv => ?_)
    rw [decide_eq_decide]
    exact ⟨hspelling v hv, fun he => he ▸ rfl⟩
  · by_contra hread
    obtain ⟨events', hne⟩ := extract_ne_ownAnswer hread
    exact hne (h t' events')

/-- A file that was read, written over and removed is returned as it was when it was read. -/
theorem extract_returns_snapshot_of_removed :
    let p : Path := ⟨"/lib/f.py"⟩
    let events : List Event :=
      [.write p (Utf8.encode "import os\n"), .extract p, .write p (Utf8.encode "import re\n"), .remove p]
    snapshot? (visits {} events) p.components = some (Utf8.encode "import os\n") ∧
      (Project.run {} events).extract p =
        (ofBytes (some "py") (Utf8.encode "import os\n"), (Project.run {} events).session) := by
  intro p events
  have hb : snapshot? (visits {} events) p.components = some (Utf8.encode "import os\n") := by decide +kernel
  have hx : p.extension? = some "py" := by decide +kernel
  have hreturned := (extract_returns_snapshot {} events p).1 _ hb
  rw [hx] at hreturned
  exact ⟨hb, hreturned⟩

/-- A path with a separator at its end was never called and names no file, but is returned with the declarations of the
file that was called without the separator, and not with the one error of a file that cannot be read. -/
theorem extract_ne_of_trailing_separator :
    let t : FileTree := { files := [(["f.ts"], [])] }
    let events : List Event := [.extract ⟨"/f.ts"⟩]
    (visits t events).filter (·.path = ⟨"/f.ts/"⟩) = [] ∧ (Project.run t events).tree.read? ⟨"/f.ts/"⟩ = none ∧
      ((Project.run t events).extract ⟨"/f.ts/"⟩).1 ≠ (ofFile (Project.run t events).tree ⟨"/f.ts/"⟩).declarations := by
  decide +kernel

end ModuleGraph
