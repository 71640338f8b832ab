import StackLang.Proofs.Fault.Settled

/-!
# What an action makes of a session

The running words and what has been told to the outside change with every call, but nothing that
succeeds depends on them.  Up to these, an action makes one session of another.

* `Session.Beside`: sessions that differ in nothing else.
* `Action.Yields`, `Action.Stops`: the session that an action leads to, or that it fails.
* `yields_word`: a name runs the built-in word that it stands for.
-/

namespace StackLang

/-- The second session has told something else. -/
def Session.Beside (s t : Session) : Prop :=
  ∃ builtin calls output observers, t = { s with builtin, calls, output, observers }

theorem Session.Beside.refl (s : Session) : s.Beside s :=
  ⟨s.builtin, s.calls, s.output, s.observers, rfl⟩

theorem Session.Beside.trans {s t u : Session} (h : s.Beside t) (h' : t.Beside u) : s.Beside u := by
  obtain ⟨_, _, _, _, rfl⟩ := h
  obtain ⟨builtin, calls, output, observers, rfl⟩ := h'
  exact ⟨builtin, calls, output, observers, rfl⟩

theorem Session.Beside.dictionary {s t : Session} (h : s.Beside t) :
    t.dictionary = s.dictionary := by
  obtain ⟨_, _, _, _, rfl⟩ := h
  rfl

theorem Session.Beside.frame {s t : Session} (h : s.Beside t) : t.frame = s.frame := by
  obtain ⟨_, _, _, _, rfl⟩ := h
  rfl

theorem Session.Beside.sources {s t : Session} (h : s.Beside t) : t.sources = s.sources := by
  obtain ⟨_, _, _, _, rfl⟩ := h
  rfl

theorem Session.Beside.returns {s t : Session} (h : s.Beside t) : t.returns = s.returns := by
  obtain ⟨_, _, _, _, rfl⟩ := h
  rfl

theorem Session.Beside.definition? {s t : Session} (h : s.Beside t) :
    t.definition? = s.definition? := by
  obtain ⟨_, _, _, _, rfl⟩ := h
  rfl

theorem Session.Beside.isCompiling {s t : Session} (h : s.Beside t) :
    t.isCompiling = s.isCompiling :=
  congrArg Option.isSome h.definition?

namespace Action

open Session

variable {α β : Type} {s t u : Session} {a : α}

/-- Whatever the session has told, the action succeeds and leads to `t`. -/
def Yields (p : Action α) (s : Session) (a : α) (t : Session) : Prop :=
  ∀ s', s.Beside s' → ∃ t', p s' = .ok a t' ∧ t.Beside t'

/-- Whatever the session has told, the action fails. -/
def Stops (p : Action α) (s : Session) : Prop :=
  ∀ s', s.Beside s' → ∃ f t', p s' = .error f t'

namespace Yields

/-- What an action leads to from the session itself. -/
theorem of_ok {p : Action α} (h : Yields p s a t) {b : α} (hp : p s = .ok b u) :
    b = a ∧ t.Beside u := by
  obtain ⟨t', ht, hb⟩ := h s (.refl s)
  rw [hp] at ht
  cases ht
  exact ⟨rfl, hb⟩

theorem pure (s : Session) (a : α) : Yields (Pure.pure a) s a s :=
  fun s' hs => ⟨s', rfl, hs⟩

theorem bind {p : Action α} {q : α → Action β} {b : β} (hp : Yields p s a t)
    (hq : Yields (q a) t b u) : Yields (p >>= q) s b u := by
  intro s' hs
  obtain ⟨t', ht, hb⟩ := hp s' hs
  obtain ⟨u', hu, hb'⟩ := hq t' hb
  exact ⟨u', by rw [bind_apply, ht]; exact hu, hb'⟩

theorem discard {p : Action α} (h : Yields p s a t) :
    Yields (Functor.discard p) s () t :=
  h.bind (pure t ())

/-- What is looked at may not be what has been told. -/
theorem view {q : Session → Action β} {b : β}
    (h : ∀ s', s.Beside s' → Yields (q s') s b t) : Yields (get >>= q) s b t :=
  fun s' hs => h s' hs s' hs

theorem modify {f : Session → Session} (h : ∀ s', s.Beside s' → t.Beside (f s')) :
    Yields (modify f) s () t :=
  fun s' hs => ⟨f s', rfl, h s' hs⟩

end Yields

namespace Stops

theorem not_ok {p : Action α} (h : Stops p s) : p s ≠ .ok a t := by
  intro hp
  obtain ⟨f, t', ht⟩ := h s (.refl s)
  rw [hp] at ht
  cases ht

theorem bind {p : Action α} (h : Stops p s) (q : α → Action β) : Stops (p >>= q) s := by
  intro s' hs
  obtain ⟨f, t', ht⟩ := h s' hs
  exact ⟨f, t', by rw [bind_apply, ht]⟩

theorem after {p : Action α} {q : α → Action β} (hp : Yields p s a t) (hq : Stops (q a) t) :
    Stops (p >>= q) s := by
  intro s' hs
  obtain ⟨t', ht, hb⟩ := hp s' hs
  obtain ⟨f, u', hu⟩ := hq t' hb
  exact ⟨f, u', by rw [bind_apply, ht]; exact hu⟩

theorem view {q : Session → Action β} (h : ∀ s', s.Beside s' → Stops (q s') s) :
    Stops (get >>= q) s :=
  fun s' hs => h s' hs s' hs

end Stops

/-! ## Single actions -/

theorem yields_operands {p : Operand α} {stack : DataStack} (h : p s.stack = .ok a stack) :
    Yields (operands p) s a { s with stack } := by
  rintro s' ⟨builtin, calls, output, observers, rfl⟩
  exact ⟨_, operands_ok h, builtin, calls, output, observers, rfl⟩

theorem yields_print (s : Session) (text : String) : Yields (print text) s () s :=
  Yields.modify fun s' hs => hs.trans
    ⟨s'.builtin, s'.calls, s'.output ++ text, s'.observers.record (.output text), rfl⟩

theorem yields_notify (s : Session) (e : Event) : Yields (notify e) s () s :=
  Yields.modify fun s' hs => hs.trans
    ⟨s'.builtin, s'.calls, s'.output, s'.observers.record e, rfl⟩

theorem yields_finishWord (s : Session) (name : String) : Yields (finishWord name) s () s := by
  intro s' hs
  obtain ⟨observers, ho⟩ := exists_finishWord name s'
  exact ⟨_, ho, hs.trans ⟨s'.builtin, s'.calls, s'.output, observers, rfl⟩⟩

theorem yields_callBuiltin {w : Builtin} (h : Yields w.run s () t) (name : String) :
    Yields (callBuiltin name w) s () t := by
  refine Yields.bind (Yields.modify fun s' hs => hs.trans
    ⟨some name, _, s'.output, s'.observers, rfl⟩) (h.bind ?_)
  exact Yields.bind (Yields.modify fun t' ht => ht.trans
    ⟨none, t'.calls.tail, t'.output, t'.observers, rfl⟩) (yields_finishWord t name)

theorem yields_call {index : Nat} {e : Entry} {w : Builtin}
    (he : s.dictionary.get? index = some e) (hb : e.body = .builtin w)
    (h : Yields w.run s () t) : Yields (call index) s () t := by
  refine Yields.view fun s' hs => ?_
  rw [hs.dictionary, he]
  refine (yields_notify s _).bind ?_
  rw [hb]
  exact yields_callBuiltin h e.name

theorem stops_call {index : Nat} {e : Entry} {w : Builtin}
    (he : s.dictionary.get? index = some e) (hb : e.body = .builtin w) (h : Stops w.run s) :
    Stops (call index) s := by
  refine Stops.view fun s' hs => ?_
  rw [hs.dictionary, he]
  refine Stops.after (yields_notify s _) ?_
  rw [hb]
  refine Stops.after (Yields.modify fun s' hs => hs.trans
    ⟨some e.name, _, s'.output, s'.observers, rfl⟩) (h.bind _)

/-! ## Words -/

variable {l : Location} {name : String} {index : Nat} {e : Entry}

/-- A name that is not to be compiled runs the built-in word that it stands for. -/
theorem yields_word {w : Builtin} (hf : s.dictionary.find? name = some (index, e))
    (hb : e.body = .builtin w) (hc : e.compileOnly = true → s.isCompiling = true)
    (hi : s.isCompiling = true → e.immediate = true) (h : Yields w.run s () t) :
    Yields (word l name) s () t := by
  intro s' hs
  have hcall := yields_call (Dictionary.find?_eq_some_iff.1 hf).2.1 hb h s' hs
  rw [word_of_find? (hs.dictionary ▸ hf), hs.isCompiling, if_neg, if_neg]
  · exact hcall
  · cases hcomp : s.isCompiling <;> simp_all
  · cases honly : e.compileOnly <;> simp_all

theorem stops_word_of_none (hf : s.dictionary.find? name = none) : Stops (word l name) s := by
  intro s' hs
  unfold word
  rw [bind_apply]
  unfold lookup
  rw [hs.dictionary, hf]
  exact ⟨_, s', rfl⟩

theorem stops_word {w : Builtin} (hf : s.dictionary.find? name = some (index, e))
    (hb : e.body = .builtin w) (hi : s.isCompiling = true → e.immediate = true)
    (h : Stops w.run s) :
    Stops (word l name) s := by
  intro s' hs
  have hcall := stops_call (Dictionary.find?_eq_some_iff.1 hf).2.1 hb h s' hs
  rw [word_of_find? (hs.dictionary ▸ hf)]
  split
  · exact ⟨_, _, rfl⟩
  · rw [hs.isCompiling, if_neg]
    · exact hcall
    · cases hcomp : s.isCompiling <;> simp_all

end Action

end StackLang
