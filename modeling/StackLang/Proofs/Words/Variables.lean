import StackLang.Proofs.Words.Moves

/-!
# The cells of variables

Every variable has a cell of its own.  Entries and cells are given back apart from each other, so
this can end in one way only: a reset keeps a variable and gives back its cell.  That takes a
dictionary that `FORGET` has made shorter than the session mark.

* `Dictionary.Unaliased`: every variable has a cell of its own.
* `unaliased_iff_keepsCells`: what keeps it so in a run.
* `fetch?_put_of_unaliased`: a store through one variable does not change another.
-/

namespace StackLang

namespace Dictionary

/-- The entry at an index was made by `VARIABLE`, with this cell. -/
def HasVariable (d : Dictionary) (i a : Nat) : Prop :=
  ∃ e, d.get? i = some e ∧ e.origin = some (.variable a)

/-- Every variable has a cell of its own, and pushes its address. -/
structure Unaliased (d : Dictionary) (here : Nat) : Prop where
  allotted : ∀ i a, d.HasVariable i a → a < here
  distinct : ∀ i j a, d.HasVariable i a → d.HasVariable j a → i = j
  pushes : ∀ i e a, d.get? i = some e → e.origin = some (.variable a) →
    ∃ location, e.body =
      .compiled #[⟨some location, .push (.address (UInt64.ofNat a))⟩, ⟨none, .exit⟩]

variable {d d' : Dictionary} {here : Nat}

theorem Unaliased.mono {here' : Nat} (h : d.Unaliased here) (hh : here ≤ here') :
    d.Unaliased here' :=
  ⟨fun i a hv => Nat.lt_of_lt_of_le (h.allotted i a hv) hh, h.distinct, h.pushes⟩

/-- With the same variables at most, all of them have cells of their own. -/
theorem Unaliased.of_variables (h : d.Unaliased here)
    (hd : ∀ i e a, d'.get? i = some e → e.origin = some (.variable a) →
      ∃ e', d.get? i = some e' ∧ e'.origin = some (.variable a) ∧ e'.body = e.body) :
    d'.Unaliased here := by
  have same {i a : Nat} (hv : d'.HasVariable i a) : d.HasVariable i a := by
    obtain ⟨e, he, ho⟩ := hv
    obtain ⟨e', he', ho', -⟩ := hd i e a he ho
    exact ⟨e', he', ho'⟩
  refine ⟨fun i a hv => h.allotted i a (same hv),
    fun i j a hi hj => h.distinct i j a (same hi) (same hj), fun i e a he ho => ?_⟩
  obtain ⟨e', he', ho', hb⟩ := hd i e a he ho
  exact hb ▸ h.pushes i e' a he' ho'

theorem Unaliased.forgetBackTo (h : d.Unaliased here) (mark : Nat) :
    (d.forgetBackTo mark).Unaliased here :=
  h.of_variables fun _ e _ he ho => ⟨e, get?_forgetBackTo he, ho, rfl⟩

theorem Unaliased.filled (h : d.Unaliased here) (index : Nat) (code : Code) (source : String) :
    (d.modify index (Entry.filled code source)).Unaliased here := by
  refine h.of_variables fun i e a he ho => ?_
  rcases get?_modify he with he | ⟨e', -, -, rfl⟩
  · exact ⟨e, he, ho, rfl⟩
  · cases ho

theorem Unaliased.madeImmediate (h : d.Unaliased here) (index : Nat) :
    (d.modify index fun e => { e with immediate := true }).Unaliased here := by
  refine h.of_variables fun i e a he ho => ?_
  rcases get?_modify he with he | ⟨e', -, he', rfl⟩
  · exact ⟨e, he, ho, rfl⟩
  · exact ⟨e', he', ho, rfl⟩

/-- An entry that is no variable. -/
theorem Unaliased.insert (h : d.Unaliased here) {e : Entry}
    (he : ∀ a, e.origin ≠ some (.variable a)) : (d.insert e).2.Unaliased here := by
  refine h.of_variables fun i x a hx ho => ?_
  rcases get?_insert hx with hx | rfl
  · exact ⟨x, hx, ho, rfl⟩
  · exact (he a ho).elim

theorem hasVariable_insert {location : Location} {name : String} {v : Value} {signature : String}
    {a i b : Nat}
    (h : (d.insert (DefiningWord.valueEntry location name v signature (.variable a))).2.HasVariable
      i b) : d.HasVariable i b ∨ i = d.size ∧ b = a := by
  obtain ⟨e, he, ho⟩ := h
  rw [get?_insert_eq] at he
  split at he
  · rename_i hi
    obtain rfl := Option.some.inj he
    exact .inr ⟨hi, (Origin.variable.inj (Option.some.inj ho)).symm⟩
  · exact .inl ⟨e, he, ho⟩

/-- A new variable has the next cell, which no other one has. -/
theorem Unaliased.insert_variable (h : d.Unaliased here) (location : Location) (name : String)
    (signature : String) :
    (d.insert (DefiningWord.valueEntry location name (.address (UInt64.ofNat here)) signature
      (.variable here))).2.Unaliased (here + 1) := by
  refine ⟨fun i a hv => ?_, fun i j a hi hj => ?_, fun i e a he ho => ?_⟩
  · rcases hasVariable_insert hv with hv | ⟨-, rfl⟩
    · exact Nat.lt_succ_of_lt (h.allotted i a hv)
    · exact Nat.lt_succ_self _
  · rcases hasVariable_insert hi with hi | ⟨rfl, rfl⟩ <;>
      rcases hasVariable_insert hj with hj | ⟨rfl, ha⟩
    · exact h.distinct i j a hi hj
    · exact absurd (h.allotted i a hi) (ha ▸ Nat.lt_irrefl _)
    · exact absurd (h.allotted j _ hj) (Nat.lt_irrefl _)
    · rfl
  · rcases get?_insert he with he | rfl
    · exact h.pushes i e a he ho
    · obtain rfl := Origin.variable.inj (Option.some.inj ho)
      exact ⟨location, rfl⟩

theorem hasVariable_forgetBackTo {mark i a : Nat} :
    (d.forgetBackTo mark).HasVariable i a ↔ i < mark ∧ d.HasVariable i a := by
  unfold HasVariable
  rw [get?_forgetBackTo_eq]
  split <;> simp [*]

/-- Cutting back both the entries and the cells is right if the entries that are kept have cells
that are kept. -/
theorem Unaliased.restored_iff (h : d.Unaliased here) (mark cell : Nat) :
    (d.forgetBackTo mark).Unaliased (min cell here) ↔
      ∀ i a, i < mark → d.HasVariable i a → a < cell := by
  constructor
  · intro hr i a hi hv
    exact Nat.lt_of_lt_of_le (hr.allotted i a (hasVariable_forgetBackTo.2 ⟨hi, hv⟩))
      (Nat.min_le_left cell here)
  · intro hk
    have hc := h.forgetBackTo mark
    refine ⟨fun i a hv => ?_, hc.distinct, hc.pushes⟩
    obtain ⟨hi, hv⟩ := hasVariable_forgetBackTo.1 hv
    exact Nat.lt_min.2 ⟨hk i a hi hv, h.allotted i a hv⟩

/-- A store to the cell of one variable does not change that of another. -/
theorem fetch?_put_of_unaliased {cells : CellStore} (h : d.Unaliased cells.here) {i j a b : Nat}
    (hi : d.HasVariable i a) (hj : d.HasVariable j b) (hne : i ≠ j) (v : Value) :
    (cells.put a v).fetch? a = some v ∧ (cells.put a v).fetch? b = cells.fetch? b := by
  have ha : cells.holds a = true := decide_eq_true (h.allotted i a hi)
  have hb : b ≠ a := fun hab => hne (h.distinct i j a hi (hab ▸ hj))
  rw [CellStore.fetch?_put ha, CellStore.fetch?_put ha, if_pos rfl, if_neg hb]
  exact ⟨rfl, rfl⟩

end Dictionary

namespace Session

open StackLang.Action

variable {s t : Session}

/-- Every variable has a cell of its own. -/
abbrev Unaliased (s : Session) : Prop :=
  s.dictionary.Unaliased s.cells.here

/-- The variables that a reset keeps have cells that it keeps. -/
def KeepsCells (s : Session) : Prop :=
  ∀ i a, i < s.sessionMark → s.dictionary.HasVariable i a → a < s.cellMark

/-- Of the dictionary and the memory only that is left which lies before the marks. -/
def ResetsTo (s t : Session) : Prop :=
  t.dictionary = s.dictionary.forgetBackTo s.sessionMark ∧
    t.cells.here = min s.cellMark s.cells.here

theorem unaliased_builtins : builtins.Unaliased 0 := by
  have none {i a : Nat} (hv : Dictionary.empty.HasVariable i a) : False := by
    obtain ⟨e, he, -⟩ := hv
    simp [Dictionary.get?, Dictionary.empty] at he
  exact builtins_induct (P := (·.Unaliased 0))
    ⟨fun _ _ hv => (none hv).elim, fun _ _ _ hv => (none hv).elim,
      fun _ e _ he ho => (none ⟨e, he, ho⟩).elim⟩
    fun _ _ hd => hd.insert fun _ h => by cases h

/-- A built-in word gives every variable a cell of its own, unless it is a reset. -/
theorem unaliased_of_revision {next? : Option String} {w : Builtin} {o o' : Outline}
    (h : Revision next? o w o') (ho : o.dictionary.Unaliased o.here) :
    o'.dictionary.Unaliased o'.here ∨ o' = o.restored := by
  cases h with
  | keeps here hw hh => exact .inl (ho.mono hh)
  | opens location name => exact .inl (ho.insert fun a => nofun)
  | closes source => exact .inl (ho.filled _ _ source)
  | constant location name v => exact .inl (ho.insert fun a => nofun)
  | «variable» location name => exact .inl (ho.insert_variable location name _)
  | makesImmediate => exact .inl (ho.madeImmediate _)
  | forgets => exact .inl (ho.forgetBackTo _)
  | resets => exact .inr rfl
  | builds => exact .inl ho

theorem unaliased_of_turn {b : Option (Builtin × Option String)} {name? : Option String}
    {o o' : Outline}
    (h : Turn b name? o o') (ho : o.dictionary.Unaliased o.here) :
    o'.dictionary.Unaliased o'.here ∨ o' = o.restored := by
  cases b with
  | none => cases (h : Passage _ o o') <;> exact .inl ho
  | some found => exact unaliased_of_revision h ho

/-- A move gives every variable a cell of its own, unless it acts as a reset. -/
theorem unaliased_or_resetsTo {m : Move} (h : Changed s m t) (hs : s.Unaliased) :
    t.Unaliased ∨ s.ResetsTo t := by
  have of_restored {o : Outline} (ht : t.outline = o)
      (ho : o.dictionary = s.outline.restored.dictionary ∧ o.here = s.outline.restored.here) :
      s.ResetsTo t :=
    ⟨(congrArg Outline.dictionary ht).trans ho.1, (congrArg Outline.here ht).trans ho.2⟩
  show t.outline.dictionary.Unaliased t.outline.here ∨ _
  cases h with
  | steps _ h => exact (unaliased_of_turn h hs).imp_right fun hr => of_restored hr ⟨rfl, rfl⟩
  | stays _ h => exact .inl (h ▸ hs)
  | fails _ h =>
    refine .inl ?_
    rw [h]
    unfold Outline.rolledBack
    dsimp only
    split
    · exact hs.forgetBackTo _
    · exact hs
  | marks => exact .inl hs
  | resets => exact .inr (of_restored s.outline_reset ⟨rfl, rfl⟩)
  | restores => exact .inr (of_restored s.outline_resetDefinitions ⟨rfl, rfl⟩)

/-- A new variable goes behind all other entries. -/
theorem hasVariable_of_revision {next? : Option String} {w : Builtin} {o o' : Outline}
    (h : Revision next? o w o') {i a : Nat} (hv : o'.dictionary.HasVariable i a) :
    o.dictionary.HasVariable i a ∨ i = o.dictionary.size := by
  obtain ⟨e, he, ho⟩ := hv
  have insert {x : Entry} (he : (o.dictionary.insert x).2.get? i = some e) :
      o.dictionary.HasVariable i a ∨ i = o.dictionary.size := by
    rw [Dictionary.get?_insert_eq] at he
    split at he
    · exact .inr ‹_›
    · exact .inl ⟨e, he, ho⟩
  cases h with
  | keeps | builds => exact .inl ⟨e, he, ho⟩
  | opens | constant | «variable» => exact insert he
  | closes source =>
    rcases Dictionary.get?_modify he with he | ⟨x, -, -, rfl⟩
    · exact .inl ⟨e, he, ho⟩
    · cases ho
  | makesImmediate =>
    rcases Dictionary.get?_modify he with he | ⟨x, -, hx, rfl⟩
    · exact .inl ⟨e, he, ho⟩
    · exact .inl ⟨x, hx, ho⟩
  | forgets | resets => exact .inl ⟨e, Dictionary.get?_forgetBackTo he, ho⟩

theorem hasVariable_of_turn {b : Option (Builtin × Option String)} {name? : Option String}
    {o o' : Outline}
    (h : Turn b name? o o') {i a : Nat} (hv : o'.dictionary.HasVariable i a) :
    o.dictionary.HasVariable i a ∨ i = o.dictionary.size := by
  cases b with
  | none => cases (h : Passage _ o o') <;> exact .inl hv
  | some found => exact hasVariable_of_revision h hv

/-- While the dictionary is not shorter than the session mark, what lies before the mark is what lay
there when the mark was set. -/
theorem keepsCells_of_changed {m : Move} (h : Changed s m t) (hs : s.Unaliased)
    (hk : s.KeepsCells) (hm : s.sessionMark ≤ s.dictionary.size) : t.KeepsCells := by
  have kept {o : Outline} (ht : t.outline = o)
      (hmarks : o.sessionMark = s.sessionMark ∧ o.cellMark = s.cellMark)
      (hv : ∀ i a, o.dictionary.HasVariable i a →
        s.dictionary.HasVariable i a ∨ i = s.dictionary.size) : t.KeepsCells := by
    subst ht
    intro i a hi hva
    rw [show t.sessionMark = s.sessionMark from hmarks.1] at hi
    rw [show t.cellMark = s.cellMark from hmarks.2]
    refine hk i a hi ((hv i a hva).resolve_right fun hsize => ?_)
    omega
  have cut {n i a : Nat} (hv : (s.dictionary.forgetBackTo n).HasVariable i a) :
      s.dictionary.HasVariable i a ∨ i = s.dictionary.size :=
    .inl (Dictionary.hasVariable_forgetBackTo.1 hv).2
  cases h with
  | steps _ h => exact kept rfl (marks_of_turn h) fun i a => hasVariable_of_turn h
  | stays _ h => exact kept h ⟨rfl, rfl⟩ fun i a hv => .inl hv
  | fails _ h =>
    refine kept h ⟨rfl, rfl⟩ fun i a hv => ?_
    unfold Outline.rolledBack at hv
    dsimp only at hv
    split at hv
    · exact cut hv
    · exact .inl hv
  | marks => exact fun i a _ hv => hs.allotted i a hv
  | resets => exact kept s.outline_reset ⟨rfl, rfl⟩ fun i a => cut
  | restores => exact kept s.outline_resetDefinitions ⟨rfl, rfl⟩ fun i a => cut

/-! ## Runs -/

section

variable {config : Config} {moves : List Move}

theorem unaliased_of_visits
    (h : ∀ m s t, Passes moves (ofConfig config) m s t → s.ResetsTo t → s.KeepsCells)
    (hs : Visits moves (ofConfig config) s) : s.Unaliased := by
  refine hs.induct unaliased_builtins fun m u v hp hu => ?_
  obtain ⟨-, -, -, -, hm⟩ := id hp
  have hv := hp.before.valid (valid_ofConfig config nofun)
  rcases unaliased_or_resetsTo (changed_of_move hv hm) hu with ht | ⟨hd, hh⟩
  · exact ht
  · have hk := h m u v hp ⟨hd, hh⟩
    unfold Unaliased
    rw [hd, hh]
    exact (hu.restored_iff u.sessionMark u.cellMark).2 hk

theorem keepsCells_of_visits
    (h : ∀ s, Visits moves (ofConfig config) s → s.sessionMark ≤ s.dictionary.size)
    (hs : Visits moves (ofConfig config) s) : s.Unaliased ∧ s.KeepsCells := by
  have start : (ofConfig config).KeepsCells := fun i a _ hv =>
    unaliased_builtins.allotted i a hv
  refine hs.induct (P := fun s => s.Unaliased ∧ s.KeepsCells) ⟨unaliased_builtins, start⟩
    fun m u v hp ⟨hu, hk⟩ => ?_
  obtain ⟨-, -, -, -, hm⟩ := id hp
  have hc := changed_of_move (hp.before.valid (valid_ofConfig config nofun)) hm
  refine ⟨?_, keepsCells_of_changed hc hu hk (h u hp.before)⟩
  rcases unaliased_or_resetsTo hc hu with ht | ⟨hd, hh⟩
  · exact ht
  · unfold Unaliased
    rw [hd, hh]
    exact (hu.restored_iff u.sessionMark u.cellMark).2 hk

end

/-- In a run of a fresh session every variable always has a cell of its own exactly if no reset
keeps a variable and gives back its cell; and none does while the dictionary is never shorter than
the session mark.  Then a store through one variable does not change another.  Every sequence of
requests is such a run. -/
theorem unaliased_iff_keepsCells (config : Config) (moves : List Move) :
    ((∀ s, Visits moves (ofConfig config) s → s.Unaliased) ↔
      ∀ m s t, Passes moves (ofConfig config) m s t → s.ResetsTo t → s.KeepsCells) ∧
    ((∀ s, Visits moves (ofConfig config) s → s.sessionMark ≤ s.dictionary.size) →
      ∀ s, Visits moves (ofConfig config) s → s.Unaliased) ∧
    (∀ s : Session, s.Unaliased → ∀ i j a b v, s.dictionary.HasVariable i a →
      s.dictionary.HasVariable j b → i ≠ j →
      (s.cells.put a v).fetch? a = some v ∧ (s.cells.put a v).fetch? b = s.cells.fetch? b) ∧
    ∀ fuel requests, ∃ moves,
      play moves (ofConfig config) = perform fuel requests (ofConfig config) := by
  refine ⟨⟨fun h m s t hp hr => ?_, fun h s => unaliased_of_visits h⟩,
    fun h s hs => (keepsCells_of_visits h hs).1,
    fun s hs i j a b v hi hj hne => Dictionary.fetch?_put_of_unaliased hs hi hj hne v,
    fun fuel requests => exists_play_eq_perform fuel requests _⟩
  have ht := h t hp.after
  unfold Unaliased at ht
  rw [hr.1, hr.2] at ht
  exact ((h s hp.before).restored_iff s.sessionMark s.cellMark).1 ht

/-- The cells of two entries. -/
def cellsAt (i j : Nat) (s : Session) : Option Origin × Option Origin :=
  ((s.dictionary.get? i).bind (·.origin), (s.dictionary.get? j).bind (·.origin))

/-- `FORGET` goes below the session mark, `X` takes the place of `A` there, and the reset keeps `X`
but not its cell, which `Y` gets, too. -/
theorem perform_variable_below_mark : ∃ s,
    perform 30 [.evaluate ": A ;", .move .mark, .evaluate "FORGET A VARIABLE X", .move .reset,
      .evaluate "VARIABLE Y"] (ofConfig .standard) = .ok s ∧ ¬ s.Unaliased := by
  have hrun : (perform 30 [.evaluate ": A ;", .move .mark, .evaluate "FORGET A VARIABLE X",
      .move .reset, .evaluate "VARIABLE Y"] (ofConfig .standard)).toOption.map (cellsAt 96 97) =
        some (some (.variable 0), some (.variable 0)) := by
    simp only [perform, Request.run, evaluate, processSource, enqueue]
    rw [Pending.ofSource_eq 20 (by decide), Pending.ofSource_eq 30 (by decide),
      Pending.ofSource_eq 20 (by decide)]
    decide +kernel
  obtain ⟨s, hs, hview⟩ := Option.map_eq_some_iff.1 hrun
  obtain ⟨hx, hy⟩ := Prod.mk.inj hview
  obtain ⟨x, hx, hox⟩ := Option.bind_eq_some_iff.1 hx
  obtain ⟨y, hy, hoy⟩ := Option.bind_eq_some_iff.1 hy
  exact ⟨s, eq_ok_of_toOption hs,
    fun h => absurd (h.distinct 96 97 0 ⟨x, hx, hox⟩ ⟨y, hy, hoy⟩) (by decide)⟩

end Session

end StackLang
