import StackLang.Library
import StackLang.Proofs.Files.Canonical
import StackLang.Proofs.Token.Bounded

/-!
# Loading a file again

A library notes a file as loaded when its text has been read, before the text is evaluated.  So a
file that fails while it is evaluated is skipped from then on, and a load can be made again after a
failure exactly if the failure came before that.

* `Call`, `serve`: calls that load files, made one after the other, and what is noted of them.
* `fetched_of_resolved`: a canonical path stands for the file that it was resolved to.
* `Note.Possible`: the ways in which a call comes back, and `serves_serve` for all calls.
* `Retriable`: what makes it safe to load a file again.
* `retriable_iff`: which runs are retriable, and what is loaded and skipped in any of them.
-/

namespace StackLang.Library

open FileTree (pathOf)

/-! ## Calls -/

/-- A call that loads a file. -/
inductive Call where
  | load (name : String)
  | loadOnce (name : String)

namespace Call

def name : Call → String
  | load name | loadOnce name => name

section Access

variable {m : Type → Type} [Monad m] [FileAccess m]

/-- Make a call.  Was a file evaluated? -/
def run (fuel : Nat) (l : Library) (s : Session) :
    Call → m (Library × EStateM.Result Fault Session Bool)
  | load name =>
    return match ← l.load fuel s name with
      | (l, .ok () s) => (l, .ok true s)
      | (l, .error fault s) => (l, .error fault s)
  | loadOnce name => l.loadOnce fuel s name

end Access

end Call

/-- A call that has come back. -/
structure Note where
  call : Call
  before : Library
  answer : Except ScriptError Bool
  after : Library

/-- What is noted of a call, if it comes back. -/
def noted? (c : Call) (before : Library) :
    Library × EStateM.Result Fault Session Bool → Option (Note × Session)
  | (after, .ok evaluated s) => some (⟨c, before, .ok evaluated, after⟩, s)
  | (after, .error (.script e) s) => some (⟨c, before, .error e, after⟩, s)
  | (_, .error (.breach _) _) | (_, .error .outOfFuel _) => none

/-- Make calls for one session, one after the other, up to one that does not come back. -/
def serve (fuel : Nat) : List Call → Library → Session → FileTree → List Note
  | [], _, _, _ => []
  | c :: calls, l, s, files =>
    let made := (c.run fuel l s : StateM FileTree _).run files
    match noted? c l made.1 with
    | some (n, s) => n :: serve fuel calls n.after s made.2
    | none => []

/-! ## Names -/

section Fixed

variable (files : FileTree) (l : Library) (name : String)

/-- What a name is resolved to. -/
def resolved : Except Cause String :=
  ((l.resolve name : StateM FileTree _).run files).1

/-- What is fetched under a name. -/
def fetched : Except Cause (String × String) :=
  ((l.fetch name : StateM FileTree _).run files).1

end Fixed

section Fixed

variable {files : FileTree} {l : Library} {name path : String}

theorem run_firstFile (paths : List String) :
    (firstFile paths : StateM FileTree _).run files = (paths.find? files.isFile, files) := by
  induction paths with
  | nil => rfl
  | cons path paths ih =>
    rw [List.find?_cons]
    change (if files.isFile path = true then pure (some path) else firstFile paths :
      StateM FileTree _).run files = _
    cases files.isFile path with
    | true => rfl
    | false => exact ih

/-- A name is resolved by the first of its candidates that is a file. -/
theorem run_resolve : (l.resolve name : StateM FileTree _).run files =
    (match (l.candidates name).find? files.isFile with
    | some path => ((files.locate path).map pathOf).mapError (Cause.io ·.text)
    | none => .error (.io s!"File {name} not found."), files) := by
  rw [resolve, StateT.run_bind, run_firstFile]
  cases (l.candidates name).find? files.isFile <;> rfl

theorem run_resolve_eq :
    (l.resolve name : StateM FileTree _).run files = (resolved files l name, files) := by
  rw [resolved, run_resolve]

theorem run_fetch : (l.fetch name : StateM FileTree _).run files =
    (match resolved files l name with
    | .ok path => ((files.read path).map (path, ·)).mapError (Cause.io ·.text)
    | .error cause => .error cause, files) := by
  rw [fetch, StateT.run_bind, run_resolve_eq]
  cases resolved files l name <;> rfl

theorem run_fetch_eq :
    (l.fetch name : StateM FileTree _).run files = (fetched files l name, files) := by
  rw [fetched, run_fetch]

theorem fetched_of_ok (h : resolved files l name = .ok path) :
    fetched files l name = ((files.read path).map (path, ·)).mapError (Cause.io ·.text) := by
  rw [fetched, run_fetch, h]

theorem fetched_of_error {cause : Cause} (h : resolved files l name = .error cause) :
    fetched files l name = .error cause := by
  rw [fetched, run_fetch, h]

theorem resolved_of_fetched {source : String} (h : fetched files l name = .ok (path, source)) :
    resolved files l name = .ok path := by
  cases hr : resolved files l name with
  | error cause =>
    rw [fetched_of_error hr] at h
    cases h
  | ok other =>
    rw [fetched_of_ok hr] at h
    cases hread : files.read other with
    | error problem =>
      rw [hread] at h
      cases h
    | ok text =>
      rw [hread] at h
      cases h
      rfl

/-- What a name is resolved to is the path of a place that is reached without detours. -/
theorem exists_of_resolved (hfiles : files.Proper) (h : resolved files l name = .ok path) :
    ∃ place, (∀ n ∈ place, IsProper n) ∧ path = pathOf place := by
  rw [resolved, run_resolve] at h
  split at h
  · rename_i found _
    cases hl : files.locate found with
    | error problem =>
      rw [hl] at h
      cases h
    | ok place =>
      rw [hl] at h
      cases h
      exact ⟨place, FileTree.proper_of_locate hfiles hl, rfl⟩
  · cases h

theorem isFile_of_read {text : String} (h : files.read path = .ok text) :
    files.isFile path = true := by
  unfold FileTree.read at h
  unfold FileTree.isFile
  cases hl : files.locate path with
  | error problem =>
    rw [hl] at h
    cases h
  | ok place =>
    rw [hl] at h
    dsimp only [bind, Except.bind] at h
    split at h
    · rename_i hf
      simp [hf, FileNode.isDirectory]
    · cases h
    · cases h

/-- An absolute path has no candidates but itself. -/
theorem find?_candidates (h : isAbsolute path = true) :
    (l.candidates path).find? files.isFile =
      if files.isFile path = true then some path else none := by
  have hsame : l.candidates path = List.replicate (l.searchPaths.length + 1) path := by
    rw [candidates, List.replicate_succ, funext (joinPath_of_absolute h), List.map_const']
  rw [hsame, List.find?_replicate]
  simp

/-- The path of a place is resolved to itself if a file is there. -/
theorem resolved_pathOf {place : Place} (hn : ∀ n ∈ place, IsProper n) :
    resolved files l (pathOf place) = if files.isFile (pathOf place) = true
      then .ok (pathOf place) else .error (.io s!"File {pathOf place} not found.") := by
  rw [resolved, run_resolve, find?_candidates (FileTree.isAbsolute_pathOf place)]
  by_cases hf : files.isFile (pathOf place) = true
  · rw [if_pos hf, if_pos hf]
    unfold FileTree.isFile at hf
    cases hl : files.locate (pathOf place) with
    | error problem =>
      rw [hl] at hf
      cases hf
    | ok q =>
      obtain rfl := FileTree.eq_of_locate_pathOf hn hl
      dsimp only
      rw [hl]
      rfl
  · rw [if_neg hf, if_neg hf]

/-- What is fetched under the path that a name was resolved to is what is fetched under the name. -/
theorem fetched_of_resolved (hfiles : files.Proper) (h : resolved files l name = .ok path) :
    (fetched files l path).toOption = (fetched files l name).toOption := by
  obtain ⟨place, hproper, rfl⟩ := exists_of_resolved hfiles h
  have hagain : resolved files l (pathOf place) = _ := resolved_pathOf hproper
  by_cases hf : files.isFile (pathOf place) = true
  · rw [if_pos hf] at hagain
    rw [fetched_of_ok hagain, fetched_of_ok h]
  · rw [if_neg hf] at hagain
    rw [fetched_of_ok h, fetched_of_error hagain]
    cases hread : files.read (pathOf place) with
    | error problem => rfl
    | ok text => exact absurd (isFile_of_read hread) hf

/-! ## Single calls -/

variable {fuel : Nat} {s t : Session} {c : Call} {n : Note}

/-- What comes of loading a file. -/
def loading (fuel : Nat) (files : FileTree) (l : Library) (s : Session) (name : String) :
    Library × EStateM.Result Fault Session Bool :=
  match fetched files l name with
  | .ok (path, source) =>
    (l.insert path, (Action.processSource fuel path source).map (fun _ => true) s)
  | .error cause => (l, .error (.ofCause cause) s)

theorem run_load : ((Call.load name).run fuel l s : StateM FileTree _).run files =
    (loading fuel files l s name, files) := by
  have hload : (l.load fuel s name : StateM FileTree _).run files =
      (match fetched files l name with
      | .ok (path, source) => (l.insert path, Action.processSource fuel path source s)
      | .error cause => (l, .error (.ofCause cause) s), files) := by
    rw [load, StateT.run_bind, run_fetch_eq]
    cases fetched files l name <;> rfl
  rw [Call.run, StateT.run_bind, hload]
  unfold loading
  cases fetched files l name with
  | error cause => rfl
  | ok file =>
    dsimp only [EStateM.map]
    cases Action.processSource fuel file.1 file.2 s <;> rfl

theorem run_loadOnce : ((Call.loadOnce name).run fuel l s : StateM FileTree _).run files =
    (match resolved files l name with
    | .ok path =>
      if l.isLoaded path then (l, .ok false s) else loading fuel files l s path
    | .error cause => (l, .error (.ofCause cause) s), files) := by
  change (l.loadOnce fuel s name : StateM FileTree _).run files = _
  rw [loadOnce, StateT.run_bind, run_resolve_eq]
  cases resolved files l name with
  | error cause => rfl
  | ok path =>
    change (if l.isLoaded path = true then _ else _ : StateM FileTree _).run files = _
    dsimp only
    split
    · rfl
    · exact run_load

end Fixed

namespace Note

section Fixed

variable (n : Note) (files : FileTree)

/-- The canonical path of the file that the call named, if it was found. -/
def path? : Option String :=
  (resolved files n.before n.call.name).toOption

/-- The canonical path of the file that the call named, if its text could be read. -/
def readable? : Option String :=
  (fetched files n.before n.call.name).toOption.map Prod.fst

end Fixed

/-- The ways in which a call comes back. -/
inductive Possible (files : FileTree) : Note → Prop where
  /-- The file is not found, or cannot be read. -/
  | unread {c : Call} {l : Library} (e : ScriptError)
      (h : readable? ⟨c, l, .error e, l⟩ files = none) : Possible files ⟨c, l, .error e, l⟩
  /-- The file was loaded before. -/
  | skipped {c : Call} {l : Library} {path : String}
      (h : path? ⟨c, l, .ok false, l⟩ files = some path) (hl : path ∈ l.loaded) :
      Possible files ⟨c, l, .ok false, l⟩
  /-- The file was evaluated, or failed while it was. -/
  | loaded {c : Call} {l : Library} {path : String} {answer : Except ScriptError Bool}
      (h : readable? ⟨c, l, answer, l.insert path⟩ files = some path) (ha : answer ≠ .ok false) :
      Possible files ⟨c, l, answer, l.insert path⟩

variable {files : FileTree} {n : Note} {path : String}

theorem path?_of_readable? (h : n.readable? files = some path) : n.path? files = some path := by
  obtain ⟨⟨_, source⟩, hf, rfl⟩ := Option.map_eq_some_iff.1 h
  unfold path?
  cases hfetched : fetched files n.before n.call.name with
  | error cause =>
    rw [hfetched] at hf
    cases hf
  | ok file =>
    rw [hfetched] at hf
    cases hf
    rw [resolved_of_fetched hfetched]
    rfl

/-- The file whose text a call can read joins the files that are loaded, and no other does. -/
theorem Possible.mem_loaded_after (h : n.Possible files) : path ∈ n.after.loaded ↔
    path ∈ n.before.loaded ∨ n.readable? files = some path := by
  cases h with
  | unread e h =>
    rw [h]
    simp
  | skipped h hl =>
    refine ⟨.inl, fun hp => hp.elim id fun hread => ?_⟩
    obtain rfl := Option.some.inj (h.symm.trans (path?_of_readable? hread))
    exact hl
  | loaded h =>
    rw [h, mem_loaded_insert, Option.some.injEq, or_comm, eq_comm]

/-- What is skipped was loaded before. -/
theorem Possible.mem_of_skipped (h : n.Possible files) (ha : n.answer = .ok false) :
    ∃ path, n.path? files = some path ∧ path ∈ n.before.loaded := by
  cases h with
  | unread => cases ha
  | skipped h hl => exact ⟨_, h, hl⟩
  | loaded _ hne => exact absurd ha hne

end Note

section Fixed

variable {files : FileTree} {l : Library} {name path : String} {fuel : Nat} {s t : Session}
  {c : Call} {n : Note}

theorem possible_of_loading
    (hsame : (fetched files l path).toOption = (fetched files l c.name).toOption)
    (h : noted? c l (loading fuel files l s path) = some (n, t)) : n.Possible files := by
  unfold loading at h
  cases hf : fetched files l path with
  | error cause =>
    rw [hf] at h hsame
    cases h
    refine .unread _ ?_
    rw [Note.readable?, ← hsame]
    rfl
  | ok file =>
    rw [hf] at h hsame
    have hread : (fetched files l c.name).toOption.map Prod.fst = some file.1 :=
      congrArg (Option.map Prod.fst) hsame.symm
    dsimp only [EStateM.map] at h
    cases hp : Action.processSource fuel file.1 file.2 s with
    | ok _ u =>
      rw [hp] at h
      cases h
      exact .loaded hread nofun
    | error fault u =>
      rw [hp] at h
      cases fault with
      | script e =>
        cases h
        exact .loaded hread nofun
      | breach | outOfFuel => cases h

theorem snd_run : ((c.run fuel l s : StateM FileTree _).run files).2 = files := by
  cases c with
  | load name => rw [run_load]
  | loadOnce name => rw [run_loadOnce]

theorem possible_of_run (hfiles : files.Proper)
    (h : noted? c l ((c.run fuel l s : StateM FileTree _).run files).1 = some (n, t)) :
    n.Possible files := by
  cases c with
  | load name =>
    rw [run_load] at h
    exact possible_of_loading rfl h
  | loadOnce name =>
    rw [run_loadOnce] at h
    cases hr : resolved files l name with
    | error cause =>
      rw [hr] at h
      cases h
      have hread : (fetched files l (Call.loadOnce name).name).toOption.map Prod.fst = none :=
        congrArg (·.toOption.map Prod.fst) (fetched_of_error hr)
      exact .unread _ hread
    | ok path =>
      rw [hr] at h
      dsimp only at h
      split at h
      · rename_i hl
        cases h
        have hpath : (resolved files l (Call.loadOnce name).name).toOption = some path :=
          congrArg Except.toOption hr
        have hmem : path ∈ l.loaded := by simpa [isLoaded] using hl
        exact .skipped hpath hmem
      · -- The load is given the path, and resolves it once more.
        exact possible_of_loading (c := .loadOnce name) (fetched_of_resolved hfiles hr) h

/-! ## Calls one after the other -/

/-- What calls come back with one after the other, of a library at first. -/
inductive Serves (files : FileTree) : Library → List Note → Prop where
  | nil (l : Library) : Serves files l []
  | cons {n : Note} {notes : List Note} (hn : n.Possible files) (h : Serves files n.after notes) :
      Serves files n.before (n :: notes)

theorem before_of_noted? {made : Library × EStateM.Result Fault Session Bool}
    (h : noted? c l made = some (n, t)) : n.before = l := by
  unfold noted? at h
  split at h <;> cases h <;> rfl

theorem serves_serve (hfiles : files.Proper) (fuel : Nat) (calls : List Call) (l : Library)
    (s : Session) : Serves files l (serve fuel calls l s files) := by
  induction calls generalizing l s with
  | nil => exact .nil l
  | cons c calls ih =>
    rw [serve, snd_run]
    cases hn : noted? c l ((c.run fuel l s : StateM FileTree _).run files).1 with
    | none => exact .nil l
    | some made =>
      obtain ⟨n, t⟩ := made
      dsimp only
      rw [← before_of_noted? hn]
      exact .cons (possible_of_run hfiles hn) (ih n.after t)

/-- The first call for a file evaluates it. -/
theorem serve_loadOnce_of_fetched {calls : List Call} {source : String}
    (hf : fetched files l path = .ok (path, source)) (hl : path ∉ l.loaded) :
    serve fuel (.loadOnce path :: calls) l s files =
      match noted? (.loadOnce path) l
        (l.insert path, (Action.processSource fuel path source).map (fun _ => true) s) with
      | some (n, t) => n :: serve fuel calls n.after t files
      | none => [] := by
  have hrun : ((Call.loadOnce path).run fuel l s : StateM FileTree _).run files =
      ((l.insert path, (Action.processSource fuel path source).map (fun _ => true) s), files) := by
    have hnew : l.isLoaded path = false := by simpa [isLoaded] using hl
    rw [run_loadOnce, resolved_of_fetched hf]
    dsimp only
    rw [hnew, loading, hf]
    rfl
  rw [serve, hrun]

/-- A call for a file that is loaded skips it. -/
theorem serve_loadOnce_of_loaded {calls : List Call} (hr : resolved files l name = .ok path)
    (hl : path ∈ l.loaded) : serve fuel (.loadOnce name :: calls) l s files =
      ⟨.loadOnce name, l, .ok false, l⟩ :: serve fuel calls l s files := by
  have hrun : ((Call.loadOnce name).run fuel l s : StateM FileTree _).run files =
      ((l, .ok false s), files) := by
    have hold : l.isLoaded path = true := by simpa [isLoaded] using hl
    rw [run_loadOnce, hr]
    dsimp only
    rw [hold]
    rfl
  rw [serve, hrun]
  rfl

namespace Serves

variable {notes earlier later : List Note}

theorem possible_of_mem (h : Serves files l notes) (hn : n ∈ notes) : n.Possible files := by
  induction h with
  | nil => cases hn
  | cons hfirst _ ih =>
    rcases List.mem_cons.1 hn with rfl | hn
    · exact hfirst
    · exact ih hn

/-- What is loaded before a call was there to begin with, or was loaded by a call before. -/
theorem exists_of_mem_before (h : Serves files l (earlier ++ n :: later))
    (hp : path ∈ n.before.loaded) :
    path ∈ l.loaded ∨ ∃ e ∈ earlier, path ∉ e.before.loaded ∧ e.readable? files = some path := by
  induction earlier generalizing l with
  | nil =>
    cases h
    exact .inl hp
  | cons e earlier ih =>
    cases h with
    | cons he h =>
      rcases ih h with hafter | ⟨x, hx, hnew⟩
      · by_cases hb : path ∈ e.before.loaded
        · exact .inl hb
        · exact .inr ⟨e, List.mem_cons_self, hb, (he.mem_loaded_after.1 hafter).resolve_left hb⟩
      · exact .inr ⟨x, List.mem_cons_of_mem _ hx, hnew⟩

/-- What is skipped was there to begin with, or was loaded by a call before. -/
theorem exists_of_skipped (h : Serves files l (earlier ++ n :: later))
    (ha : n.answer = .ok false) : ∃ path, n.path? files = some path ∧
      (path ∈ l.loaded ∨
        ∃ e ∈ earlier, path ∉ e.before.loaded ∧ e.readable? files = some path) := by
  have hn : n.Possible files := h.possible_of_mem (List.mem_append_right _ List.mem_cons_self)
  obtain ⟨path, hpath, hmem⟩ := hn.mem_of_skipped ha
  exact ⟨path, hpath, h.exists_of_mem_before hmem⟩

end Serves

/-- A load that has failed can be made again. -/
structure Retriable (files : FileTree) (l : Library) (notes : List Note) : Prop where
  /-- What is skipped was there to begin with, or was loaded with success before. -/
  skips : ∀ earlier n later, notes = earlier ++ n :: later → n.answer = .ok false →
    ∃ path, n.path? files = some path ∧
      (path ∈ l.loaded ∨ ∃ e ∈ earlier, e.path? files = some path ∧ e.answer = .ok true)
  /-- A call that fails leaves the set of loaded files. -/
  keeps : ∀ n ∈ notes, ∀ e, n.answer = .error e →
    ∀ path, path ∈ n.after.loaded ↔ path ∈ n.before.loaded

/-- Calls can be made again if none fails while a new file is evaluated. -/
theorem Serves.retriable {notes : List Note} (h : Serves files l notes)
    (hfails : ∀ n ∈ notes, ∀ e path, n.answer = .error e → n.readable? files = some path →
      path ∈ n.before.loaded) : Retriable files l notes where
  skips := by
    rintro earlier n later rfl ha
    obtain ⟨path, hpath, hl | ⟨e, he, hnew, hread⟩⟩ := h.exists_of_skipped ha
    · exact ⟨path, hpath, .inl hl⟩
    have hmem : e ∈ earlier ++ n :: later := List.mem_append_left _ he
    refine ⟨path, hpath, .inr ⟨e, he, Note.path?_of_readable? hread, ?_⟩⟩
    -- The file was new to this call, so the call neither failed nor skipped it.
    cases hanswer : e.answer with
    | error x => exact absurd (hfails e hmem x path hanswer hread) hnew
    | ok evaluated =>
      cases evaluated with
      | true => rfl
      | false =>
        obtain ⟨other, hother, hl⟩ := (h.possible_of_mem hmem).mem_of_skipped hanswer
        rw [Note.path?_of_readable? hread] at hother
        exact absurd (Option.some.inj hother ▸ hl) hnew
  keeps := fun n hn e ha path =>
    (h.possible_of_mem hn).mem_loaded_after.trans (or_iff_left_of_imp (hfails n hn e path ha))

end Fixed

/-- Calls that load files, in any order and under any names, while the files stay as they are.  They
can be made again after a failure exactly if no call fails that has read a file which was not loaded
before.  In any case a file joins those that are loaded exactly if its text is read, so a failure
before that changes nothing, and only what has been read before is skipped. -/
theorem retriable_iff {files : FileTree} (hfiles : files.Proper) (fuel : Nat) (calls : List Call)
    (l : Library) (s : Session) :
    let notes := serve fuel calls l s files
    (Retriable files l notes ↔ ∀ n ∈ notes, ∀ e path, n.answer = .error e →
      n.readable? files = some path → path ∈ n.before.loaded) ∧
    (∀ n ∈ notes, ∀ path, path ∈ n.after.loaded ↔
      path ∈ n.before.loaded ∨ n.readable? files = some path) ∧
    ∀ earlier n later, notes = earlier ++ n :: later → n.answer = .ok false →
      ∃ path, n.path? files = some path ∧
        (path ∈ l.loaded ∨ ∃ e ∈ earlier, e.readable? files = some path) := by
  intro notes
  have h : Serves files l notes := serves_serve hfiles fuel calls l s
  refine ⟨⟨fun hr n hn e path ha hread => ?_, h.retriable⟩,
    fun n hn path => (h.possible_of_mem hn).mem_loaded_after, ?_⟩
  · exact (hr.keeps n hn e ha path).1 ((h.possible_of_mem hn).mem_loaded_after.2 (.inr hread))
  · intro earlier n later hnotes ha
    rw [hnotes] at h
    obtain ⟨path, hpath, hl | ⟨e, he, -, hread⟩⟩ := h.exists_of_skipped ha
    · exact ⟨path, hpath, .inl hl⟩
    · exact ⟨path, hpath, .inr ⟨e, he, hread⟩⟩

/-- A tree with one file. -/
def rootFile (name text : String) : FileTree :=
  ⟨[([name], .file text.toUTF8)], []⟩

/-- Does an evaluation come back, and with success? -/
def success? : EStateM.Result Fault Session Unit → Option Bool
  | .ok _ _ => some true
  | .error (.script _) _ => some false
  | .error (.breach _) _ | .error .outOfFuel _ => none

theorem exists_of_success? {r : EStateM.Result Fault Session Unit} {b : Bool}
    (h : success? r = some b) :
    (b = true ∧ ∃ t, r = .ok () t) ∨ (b = false ∧ ∃ e t, r = .error (.script e) t) := by
  unfold success? at h
  split at h <;> cases h
  · exact .inl ⟨rfl, _, rfl⟩
  · exact .inr ⟨rfl, _, _, rfl⟩

/-- A file is evaluated under one name and skipped under the other, and nothing fails. -/
theorem retriable_iff_two_names :
    let files := rootFile "a.f" "1"
    let notes := serve 10 [.loadOnce "/a.f", .loadOnce "a.f"] empty (.ofConfig .standard) files
    files.Proper ∧ notes.map (·.answer) = [.ok true, .ok false] ∧ Retriable files empty notes := by
  intro files notes
  have hproper : files.Proper := nofun
  have hf : fetched files empty "/a.f" = .ok ("/a.f", "1") := by decide +kernel
  have hr : resolved files (empty.insert "/a.f") "a.f" = .ok "/a.f" := by decide +kernel
  have hview : success? (Action.processSource 10 "/a.f" "1" (.ofConfig .standard)) = some true := by
    simp only [Action.processSource, Action.enqueue]
    rw [Pending.ofSource_eq 10 (by decide)]
    decide +kernel
  obtain ⟨-, t, ht⟩ | ⟨hb, -⟩ := exists_of_success? hview
  · have hnotes : notes.map (·.answer) = [.ok true, .ok false] := by
      dsimp only [notes]
      rw [serve_loadOnce_of_fetched hf List.not_mem_nil, EStateM.map, ht]
      dsimp only [noted?]
      rw [serve_loadOnce_of_loaded hr List.mem_cons_self]
      rfl
    refine ⟨hproper, hnotes, (retriable_iff hproper 10 _ empty _).1.2 fun n hn e path ha => ?_⟩
    have hmem : n.answer ∈ notes.map (·.answer) := List.mem_map_of_mem hn
    rw [hnotes, ha] at hmem
    simp at hmem
  · cases hb

/-- A file that fails while it is evaluated is skipped when it is asked for again. -/
theorem not_retriable_of_unknown_word :
    let files := rootFile "bad.f" "NOPE"
    let notes := serve 20 [.loadOnce "/bad.f", .loadOnce "/bad.f"] empty (.ofConfig .standard) files
    files.Proper ∧ (∃ e, notes.map (·.answer) = [.error e, .ok false]) ∧
      ¬ Retriable files empty notes := by
  intro files notes
  have hf : fetched files empty "/bad.f" = .ok ("/bad.f", "NOPE") := by decide +kernel
  have hr : resolved files (empty.insert "/bad.f") "/bad.f" = .ok "/bad.f" := by decide +kernel
  have hview : success? (Action.processSource 20 "/bad.f" "NOPE" (.ofConfig .standard)) =
      some false := by
    simp only [Action.processSource, Action.enqueue]
    rw [Pending.ofSource_eq 20 (by decide)]
    decide +kernel
  obtain ⟨hb, -⟩ | ⟨-, e, t, ht⟩ := exists_of_success? hview
  · cases hb
  · have hnotes : notes = [⟨.loadOnce "/bad.f", empty, .error e, empty.insert "/bad.f"⟩,
        ⟨.loadOnce "/bad.f", empty.insert "/bad.f", .ok false, empty.insert "/bad.f"⟩] := by
      dsimp only [notes]
      rw [serve_loadOnce_of_fetched hf List.not_mem_nil, EStateM.map, ht]
      dsimp only [noted?]
      rw [serve_loadOnce_of_loaded hr List.mem_cons_self]
      rfl
    refine ⟨nofun, ⟨e, by rw [hnotes]; rfl⟩, fun h => ?_⟩
    have hkept := h.keeps _ (hnotes ▸ List.mem_cons_self) e rfl "/bad.f"
    exact absurd (hkept.1 List.mem_cons_self) List.not_mem_nil

end StackLang.Library
