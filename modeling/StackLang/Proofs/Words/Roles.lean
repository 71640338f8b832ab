import StackLang.Proofs.Words.Moves

/-!
# When words run

A built-in word runs when its specification says, and no other word is for definitions only.  So it
was at the start, and so it stays: the flags of a built-in word never change, and those of another
word only as it becomes immediate.

* `Dictionary.Roles`: the flags of all entries are as they should be.
* `roles_of_visits`: they are so everywhere in a run.
-/

namespace StackLang

/-- The flags of the entry say when its word runs. -/
structure Entry.Role (e : Entry) : Prop where
  spec : ∀ w, e.body = .builtin w →
    e.immediate = (w.spec.role != .plain) ∧ e.compileOnly = (w.spec.role == .compileOnly)
  compiled : e.isBuiltin = false → e.compileOnly = false

/-- A word that is compiled inside of a definition may be run outside. -/
theorem Entry.Role.compileOnly_of_plain {e : Entry} (h : e.Role) (hi : e.immediate = false) :
    e.compileOnly = false := by
  cases hb : e.body with
  | builtin w =>
    obtain ⟨himmediate, honly⟩ := h.spec w hb
    rw [hi] at himmediate
    rw [honly, show w.spec.role = .plain by simpa using himmediate.symm]
    rfl
  | compiled code => exact h.compiled (by rw [isBuiltin, hb])

namespace Dictionary

/-- The flags of all entries are as they should be. -/
def Roles (d : Dictionary) : Prop :=
  ∀ i e, d.get? i = some e → e.Role

variable {d : Dictionary} {index : Nat}

theorem Roles.insert (h : d.Roles) {e : Entry} (he : e.Role) : (d.insert e).2.Roles := by
  intro i x hx
  rcases get?_insert hx with hx | rfl
  · exact h i x hx
  · exact ⟨he.spec, he.compiled⟩

theorem Roles.forgetBackTo (h : d.Roles) (mark : Nat) : (d.forgetBackTo mark).Roles :=
  fun i e he => h i e (get?_forgetBackTo he)

/-- The changed entry is that of no built-in word, before and after. -/
theorem Roles.modify (h : d.Roles) {f : Entry → Entry}
    (hb : ∀ e, d.get? index = some e → e.isBuiltin = false)
    (hf : ∀ e, e.isBuiltin = false → (f e).isBuiltin = false ∧ (f e).compileOnly = e.compileOnly) :
    (d.modify index f).Roles := by
  intro i e he
  rcases get?_modify he with he | ⟨x, rfl, hx, rfl⟩
  · exact h i e he
  · obtain ⟨hbuiltin, honly⟩ := hf x (hb x hx)
    refine ⟨fun w hw => ?_, fun _ => honly.trans ((h _ x hx).compiled (hb x hx))⟩
    rw [Entry.isBuiltin, hw] at hbuiltin
    cases hbuiltin

theorem isBuiltin_of_latestUserWord? (h : d.latestUserWord? = some index) {e : Entry}
    (he : d.get? index = some e) : e.isBuiltin = false := by
  obtain ⟨⟨i, x⟩, hl, rfl⟩ := Option.map_eq_some_iff.1 h
  obtain ⟨-, hx, hp, -⟩ := lastBelow_eq_some_iff.1 hl
  simp only [Bool.and_eq_true, Bool.not_eq_true'] at hp
  rw [he] at hx
  cases hx
  exact hp.2

end Dictionary

namespace Session

variable {s t : Session} {o o' : Outline}

theorem role_ofBuiltin (w : Builtin) : (Entry.ofBuiltin w).Role where
  spec := by
    rintro _ ⟨⟩
    exact ⟨rfl, rfl⟩
  compiled := fun h => by cases h

/-- A new word that is compiled is not immediate yet, and is for every place. -/
theorem role_of_compiled {e : Entry} {code : Code} (hb : e.body = .compiled code)
    (hc : e.compileOnly = false) : e.Role where
  spec := fun w hw => by
    rw [hb] at hw
    cases hw
  compiled := fun _ => hc

theorem roles_builtins : builtins.Roles :=
  builtins_induct (fun _ _ he => by simp [Dictionary.get?, Dictionary.empty] at he)
    fun _ w hd => hd.insert (role_ofBuiltin w)

/-- The entry of the open definition is that of no built-in word. -/
def Outline.OwnWord (o : Outline) : Prop :=
  ∀ index code e, o.definition = some (index, code) → o.dictionary.get? index = some e →
    e.isBuiltin = false

theorem Consistent.ownWord (hs : s.Consistent) : s.outline.OwnWord := by
  intro index code e hd he
  obtain ⟨d, hopen, hx⟩ := Option.map_eq_some_iff.1 hd
  cases hx
  exact hs.reserved d e hopen he

/-- The entry that `IMMEDIATE` is for is that of no built-in word. -/
theorem Outline.OwnWord.isBuiltin_of_latest? {index : Nat} {e : Entry} (hr : o.OwnWord)
    (h : o.latest? = some index) (he : o.dictionary.get? index = some e) : e.isBuiltin = false := by
  unfold Outline.latest? at h
  cases hd : o.definition with
  | some found =>
    rw [hd] at h
    cases h
    exact hr found.1 found.2 e hd he
  | none =>
    rw [hd] at h
    exact Dictionary.isBuiltin_of_latestUserWord? h he

theorem roles_of_revision {next? : Option String} {w : Builtin} (h : Revision next? o w o')
    (ho : o.dictionary.Roles) (hr : o.OwnWord) : o'.dictionary.Roles := by
  cases h with
  | keeps | builds => exact ho
  | opens | constant | «variable» => exact ho.insert (role_of_compiled rfl rfl)
  | closes source h => exact ho.modify (fun e => hr _ _ e h) fun _ _ => ⟨rfl, rfl⟩
  | makesImmediate h => exact ho.modify (fun _ => hr.isBuiltin_of_latest? h) fun _ hb => ⟨hb, rfl⟩
  | forgets | resets => exact ho.forgetBackTo _

theorem roles_of_turn {b : Option (Builtin × Option String)} {name? : Option String}
    (h : Turn b name? o o') (ho : o.dictionary.Roles) (hr : o.OwnWord) :
    o'.dictionary.Roles := by
  cases b with
  | none => cases (h : Passage _ o o') <;> exact ho
  | some found => exact roles_of_revision h ho hr

theorem roles_of_changed {m : Move} (h : Changed s m t) (hs : s.dictionary.Roles)
    (hv : s.Consistent) : t.dictionary.Roles := by
  show t.outline.dictionary.Roles
  cases h with
  | steps _ h => exact roles_of_turn h hs hv.ownWord
  | stays _ h => exact h ▸ hs
  | fails _ h =>
    rw [h]
    unfold Outline.rolledBack
    dsimp only
    split
    · exact hs.forgetBackTo _
    · exact hs
  | marks => exact hs
  | resets | restores => exact hs.forgetBackTo _

/-- Words run when they should everywhere in a run. -/
theorem roles_of_visits {config : Config} {moves : List Move}
    (hs : Visits moves (ofConfig config) s) : s.dictionary.Roles := by
  refine hs.induct (P := fun t => t.dictionary.Roles) roles_builtins fun m u v hp hu => ?_
  have hv := valid_of_visits hp.before
  obtain ⟨-, -, -, -, hm⟩ := id hp
  exact roles_of_changed (changed_of_move hv hm) hu hv.toConsistent

end Session

end StackLang
