import StackLang.Proofs.Blur.Building

/-!
# Sessions that look alike

Two sessions that are the same but for what a blur makes alike.  The source that is read may have
more tokens in the second one: a run that gets to the end of the first has then nothing to tell.

* `Near`: the sessions look alike.
* `Tracks`: from sessions that look alike the two actions end alike.
* `tracks_nextName`, `tracks_edit`, `tracks_lookup`: the actions that words are made of.
-/

namespace StackLang

/-- The sources with more tokens at the end of the first one. -/
def Pending.extend (more : List Token) : List Pending → List Pending
  | [] => []
  | p :: rest => { p with tokens := p.tokens ++ more } :: rest

/-- The sessions look alike, with `more` tokens in the second one. -/
structure Near (b : Blur) (more : List Token) (s t : Session) : Prop where
  config : t.config = s.config
  mode : t.mode = s.mode
  stack : t.stack = s.stack
  builtin : t.builtin = s.builtin
  cells : t.cells = s.cells
  sessionMark : t.sessionMark = s.sessionMark
  cellMark : t.cellMark = s.cellMark
  output : t.output = s.output
  cancelled : t.cancelled = s.cancelled
  returns : b.returns t.returns = b.returns s.returns
  location : t.location.map b.place = s.location.map b.place
  calls : t.calls.map b.callItem = s.calls.map b.callItem
  dictionary : b.dictionary t.dictionary = b.dictionary s.dictionary
  frame : t.frame.map b.frame = s.frame.map b.frame
  sources : t.sources.map b.pending = Pending.extend more (s.sources.map b.pending)

theorem Near.refl (b : Blur) (s : Session) : Near b [] s s := by
  refine ⟨rfl, rfl, rfl, rfl, rfl, rfl, rfl, rfl, rfl, rfl, rfl, rfl, rfl, rfl, ?_⟩
  cases s.sources <;> simp [Pending.extend]

namespace Near

variable {b : Blur} {more : List Token} {s t : Session} (h : Near b more s t)
include h

theorem currentWord : t.currentWord = s.currentWord := by
  have hn : t.frame.map (·.name) = s.frame.map (·.name) := by
    have hf := congrArg (Option.map CallFrame.name) h.frame
    rwa [Option.map_map, Option.map_map] at hf
  rw [Session.currentWord, Session.currentWord, h.builtin, hn]

/-- No word runs in either session. -/
theorem frame_eq_none (hf : s.frame = none) : t.frame = none := by
  have hn := h.frame
  rw [hf] at hn
  exact Option.map_eq_none_iff.1 hn

theorem error {c c' : Cause} (hc : b.cause c' = b.cause c) :
    b.error (t.error c') = b.error (s.error c) := by
  simp only [Blur.error, Session.error, h.location, hc, Option.map_some, h.calls]

/-- There is a source in both sessions, or in neither of them. -/
theorem source : s.sources = [] ∧ t.sources = [] ∨ ∃ p rest p' rest', s.sources = p :: rest ∧
    t.sources = p' :: rest' ∧ p'.tokens.map b.token = p.tokens.map b.token ++ more ∧
    p'.definition.map b.definition = p.definition.map b.definition ∧
    rest'.map b.pending = rest.map b.pending := by
  have hs := h.sources
  cases hp : s.sources with
  | nil =>
    rw [hp] at hs
    exact .inl ⟨rfl, List.map_eq_nil_iff.1 hs⟩
  | cons p rest =>
    cases hp' : t.sources with
    | nil =>
      rw [hp, hp'] at hs
      cases hs
    | cons p' rest' =>
      rw [hp, hp', List.map_cons, List.map_cons, Pending.extend, List.cons.injEq] at hs
      exact .inr ⟨p, rest, p', rest', rfl, rfl, congrArg Pending.tokens hs.1,
        congrArg Pending.definition hs.1, hs.2⟩

theorem definition? : t.definition?.map b.definition = s.definition?.map b.definition := by
  unfold Session.definition?
  obtain ⟨hs, ht⟩ | ⟨p, rest, p', rest', hs, ht, -, hd, -⟩ := h.source
  · rw [hs, ht]
  · rw [hs, ht]
    exact hd

theorem isCompiling : t.isCompiling = s.isCompiling := by
  have hd := congrArg Option.isSome h.definition?
  rwa [Option.isSome_map, Option.isSome_map] at hd

theorem find? {name name' : String} (hn : b.text name' = b.text name) :
    (t.dictionary.find? name').map b.found = (s.dictionary.find? name).map b.found := by
  rw [← b.find?_dictionary, ← b.find?_dictionary, h.dictionary, ← b.find?_text, hn, b.find?_text]

theorem suggest {name name' : String} (hn : b.text name' = b.text name) :
    t.dictionary.suggest name' = s.dictionary.suggest name := by
  rw [← b.suggest_dictionary, h.dictionary, b.suggest_dictionary, ← b.suggest_text, hn,
    b.suggest_text]

theorem get? (i : Nat) :
    (t.dictionary.get? i).map b.entry = (s.dictionary.get? i).map b.entry := by
  rw [← b.get?_dictionary, ← b.get?_dictionary, h.dictionary]

/-- The sources in front look alike, whatever definitions are open in them now. -/
theorem setSource {p p' : Pending} {rest rest' : List Pending}
    (hp : p'.tokens.map b.token = p.tokens.map b.token ++ more)
    (hd : p'.definition.map b.definition = p.definition.map b.definition)
    (hr : rest'.map b.pending = rest.map b.pending) :
    Near b more { s with sources := p :: rest } { t with sources := p' :: rest' } := by
  refine { h with sources := ?_ }
  simp only [List.map_cons, Pending.extend, Blur.pending, hp, hd, hr]

end Near

namespace Blur

/-- The two runs end alike.  If the first one fails, the other one may go on with more tokens. -/
inductive Matches {α : Type} (b : Blur) (more : List Token) (V : α → α → Prop) :
    EStateM.Result Fault Session α → EStateM.Result Fault Session α → Prop where
  | ok {a a' : α} {s t : Session} (ha : V a a') (h : Near b more s t) :
    Matches b more V (.ok a s) (.ok a' t)
  | error {f f' : Fault} {s t : Session} (hf : b.fault f' = b.fault f) (h : Near b more s t) :
    Matches b more V (.error f s) (.error f' t)
  | lost (hm : more ≠ []) (f : Fault) (s : Session) (r : EStateM.Result Fault Session α) :
    Matches b more V (.error f s) r

/-- From sessions that look alike the second action ends like the first. -/
def Tracks {α : Type} (b : Blur) (more : List Token) (V : α → α → Prop) (p q : Action α) : Prop :=
  ∀ s t, Near b more s t → b.Matches more V (p s) (q t)

variable {b : Blur} {more : List Token} {α β : Type} {V : α → α → Prop} {W : β → β → Prop}

theorem Matches.bind {p p' : Action α} {q q' : α → Action β} {s t : Session}
    (hp : b.Matches more V (p s) (p' t))
    (hq : ∀ a a', V a a' → ∀ s t, Near b more s t → b.Matches more W (q a s) (q' a' t)) :
    b.Matches more W ((p >>= q) s) ((p' >>= q') t) := by
  rw [bind_apply, bind_apply]
  generalize p s = r at hp
  generalize p' t = r' at hp
  cases hp with
  | ok ha h => exact hq _ _ ha _ _ h
  | error hf h => exact .error hf h
  | lost hm f s => exact .lost hm f s _

namespace Tracks

theorem bind {p p' : Action α} {q q' : α → Action β} (hp : b.Tracks more V p p')
    (hq : ∀ a a', V a a' → b.Tracks more W (q a) (q' a')) :
    b.Tracks more W (p >>= q) (p' >>= q') :=
  fun s t h => (hp s t h).bind hq

/-- Both go on with the same result. -/
theorem bindSame {p p' : Action α} {q q' : α → Action β} (hp : b.Tracks more Eq p p')
    (hq : ∀ a, b.Tracks more W (q a) (q' a)) : b.Tracks more W (p >>= q) (p' >>= q') :=
  hp.bind fun a _ ha => ha ▸ hq a

theorem pure {a a' : α} (h : V a a') :
    b.Tracks more V (Pure.pure a : Action α) (Pure.pure a') :=
  fun _ _ hst => .ok h hst

theorem view {q q' : Session → Action β}
    (h : ∀ s t, Near b more s t → b.Tracks more W (q s) (q' t)) :
    b.Tracks more W (get >>= q) (get >>= q') :=
  fun s t hst => h s t hst s t hst

theorem modify {f g : Session → Session} (h : ∀ s t, Near b more s t → Near b more (f s) (g t)) :
    b.Tracks more Eq (modify f : Action Unit) (modify g) :=
  fun s t hst => .ok rfl (h s t hst)

theorem discard {p p' : Action α} (h : b.Tracks more V p p') :
    b.Tracks more Eq (Functor.discard p) (Functor.discard p') :=
  h.bind fun _ _ _ => pure rfl

end Tracks

open Action

/-! ## Errors -/

theorem tracks_raise {c c' : Cause} (hc : b.cause c' = b.cause c) :
    b.Tracks more V (raise c : Action α) (raise c') :=
  fun _ _ h => .error (congrArg Fault.script (h.error hc)) h

theorem tracks_raise_bind {c c' : Cause} (hc : b.cause c' = b.cause c) (q q' : α → Action β) :
    b.Tracks more W (raise c >>= q) (raise c' >>= q') :=
  fun _ _ h => .error (congrArg Fault.script (h.error hc)) h

theorem tracks_breach (x : Breach) : b.Tracks more V (breach x : Action α) (breach x) :=
  fun _ _ h => .error rfl h

/-! ## Values and texts -/

theorem tracks_operands (p : Operand α) : b.Tracks more Eq (operands p) (operands p) := by
  intro s t h
  unfold operands
  rw [h.stack, h.currentWord]
  cases p s.stack with
  | ok a stack => exact .ok rfl { h with stack := rfl }
  | error fault stack => exact .error (congrArg Fault.script (h.error rfl)) { h with stack := rfl }

theorem tracks_push (v : Value) : b.Tracks more Eq (push v) (push v) :=
  tracks_operands _

theorem tracks_notify (e e' : Event) : b.Tracks more Eq (notify e) (notify e') :=
  Tracks.modify fun _ _ h => { h with }

theorem tracks_print (text : String) : b.Tracks more Eq (print text) (print text) :=
  Tracks.modify fun s t h =>
    { h with output := show t.output ++ text = s.output ++ text by rw [h.output] }

theorem tracks_pushReturn {i i' : ReturnItem} (hi : b.item i' = b.item i) :
    b.Tracks more Eq (pushReturn i) (pushReturn i') := by
  intro s t h
  have hr : (t.returns.push? i').map b.returns = (s.returns.push? i).map b.returns := by
    rw [← b.push?_returns, ← b.push?_returns, h.returns, hi]
  have hl : t.returns.limit = s.returns.limit := ((b.returns_eq_iff).1 h.returns).2
  unfold pushReturn
  obtain ⟨hs, ht⟩ | ⟨r, r', hs, ht, hr⟩ := exists_of_map_eq hr
  · rw [hs, ht, hl]
    exact tracks_raise rfl s t h
  · rw [hs, ht]
    exact .ok rfl { h with returns := hr }

/-! ## The source -/

/-- The first session has a token, and the same follows in the second one; or it has none, as the
second one unless more tokens follow there. -/
theorem matches_nextToken? {s t : Session} (h : Near b more s t) :
    (∃ x x' u u', nextToken? s = .ok (some x) u ∧ nextToken? t = .ok (some x') u' ∧
      b.token x' = b.token x ∧ Near b more u u') ∨
    nextToken? s = .ok none s ∧ (more = [] ∨ s.sources = [] → nextToken? t = .ok none t) := by
  unfold nextToken?
  obtain ⟨hs, ht⟩ | ⟨p, rest, p', rest', hs, ht, htokens, hd, hr⟩ := h.source
  · rw [hs, ht]
    exact .inr ⟨rfl, fun _ => rfl⟩
  · obtain ⟨tokens, d⟩ := p
    obtain ⟨tokens', d'⟩ := p'
    simp only [hs, ht, Pending.nextToken?]
    cases tokens with
    | nil =>
      refine .inr ⟨rfl, fun hm => ?_⟩
      rcases hm with rfl | hm
      · rw [List.map_eq_nil_iff.1 (show tokens'.map b.token = [] from htokens)]
      · cases hm
    | cons x tokens =>
      cases tokens' with
      | nil => cases htokens
      | cons x' tokens' =>
        obtain ⟨hx, htokens⟩ := List.cons.inj htokens
        exact .inl ⟨x, x', _, _, rfl, rfl, hx, h.setSource htokens hd hr⟩

/-- The same name follows, from a place that looks alike. -/
def SameName (b : Blur) (x x' : Location × String) : Prop :=
  b.place x'.1 = b.place x.1 ∧ b.text x'.2 = b.text x.2

theorem tracks_missingName :
    b.Tracks more V (do raise (.missingName (← get).currentWord) : Action α)
      (do raise (.missingName (← get).currentWord)) :=
  Tracks.view fun s t h => by
    rw [h.currentWord]
    exact tracks_raise rfl

theorem tracks_nextName : b.Tracks more b.SameName nextName nextName := by
  intro s t h
  unfold nextName
  rw [bind_apply, bind_apply]
  obtain ⟨x, x', u, u', hs, ht, hx, hu⟩ | ⟨hs, ht⟩ := matches_nextToken? h
  · rw [hs, ht]
    have hn := b.name?_eq_of_lexeme (congrArg Token.lexeme hx)
    dsimp only
    obtain ⟨hn, hn'⟩ | ⟨name, name', hn, hn', hname⟩ := exists_of_map_eq hn
    · rw [show x.name? = none from hn, show x'.name? = none from hn']
      exact tracks_missingName u u' hu
    · rw [show x.name? = some name from hn, show x'.name? = some name' from hn']
      exact .ok ⟨congrArg Token.location hx, hname⟩ hu
  · rw [hs]
    by_cases hm : more = []
    · rw [ht (.inl hm)]
      exact tracks_missingName s t h
    · exact .lost hm _ _ _

theorem tracks_currentSource :
    b.Tracks more Eq (discard currentSource) (discard currentSource) := by
  refine Tracks.discard (V := fun _ _ => True) fun s t h => ?_
  unfold currentSource
  obtain ⟨hs, ht⟩ | ⟨p, rest, p', rest', hs, ht, -⟩ := h.source
  · rw [hs, ht, h.currentWord]
    exact tracks_raise rfl s t h
  · rw [hs, ht]
    exact .ok trivial h

theorem tracks_setDefinition {d d' : Option Definition}
    (hd : d'.map b.definition = d.map b.definition) :
    b.Tracks more Eq (setDefinition d) (setDefinition d') := by
  refine Tracks.modify fun s t h => ?_
  obtain ⟨hs, ht⟩ | ⟨p, rest, p', rest', hs, ht, htokens, -, hr⟩ := h.source
  · rw [hs, ht]
    exact h
  · rw [hs, ht]
    exact h.setSource htokens hd hr

theorem tracks_keepDefinition {d d' : Definition} (hd : b.definition d' = b.definition d) :
    b.Tracks more Eq (setDefinition (some d)) (setDefinition (some d')) :=
  tracks_setDefinition (congrArg some hd :)

theorem tracks_currentDefinition :
    b.Tracks more (fun d d' => b.definition d' = b.definition d) currentDefinition
      currentDefinition := by
  intro s t h
  unfold currentDefinition
  obtain ⟨hs, ht⟩ | ⟨d, d', hs, ht, hd⟩ := exists_of_map_eq h.definition?
  · rw [hs, ht, h.currentWord]
    exact tracks_raise rfl s t h
  · rw [hs, ht]
    exact .ok hd h

/-- Two steps of building that are the same one once they are blurred. -/
theorem tracks_edit {g : α → β} {p p' : Definition.Edit α} {q : Definition.Edit β}
    (hp : b.Goes g p q) (hp' : b.Goes g p' q) :
    b.Tracks more (fun a a' => g a' = g a) (edit p) (edit p') := by
  refine tracks_currentDefinition.bind fun d d' hd => ?_
  have hr : b.edited g (p' d') = b.edited g (p d) := by rw [← hp, ← hp', hd]
  cases hs : p d with
  | ok a x =>
    cases ht : p' d' with
    | ok a' x' =>
      rw [hs, ht] at hr
      obtain ⟨ha, hx⟩ := EStateM.Result.ok.inj hr
      exact (tracks_keepDefinition hx).bind fun _ _ _ => Tracks.pure ha
    | error c' x' =>
      rw [hs, ht] at hr
      cases hr
  | error c x =>
    cases ht : p' d' with
    | ok a' x' =>
      rw [hs, ht] at hr
      cases hr
    | error c' x' =>
      rw [hs, ht] at hr
      obtain ⟨rfl, hx⟩ := EStateM.Result.error.inj hr
      exact (tracks_keepDefinition hx).bind fun _ _ _ => tracks_raise rfl

theorem tracks_compile {l l' : Option Location} (hl : l'.map b.place = l.map b.place) (op : Op) :
    b.Tracks more Eq (compile l op) (compile l' op) := by
  have hp' := goes_emit (b := b) l' op
  rw [hl] at hp'
  exact (tracks_edit (goes_emit l op) hp').discard

/-! ## Memory and dictionary -/

theorem tracks_allot (count : Nat) : b.Tracks more Eq (allot count) (allot count) := by
  intro s t h
  unfold allot
  rw [h.cells, h.currentWord]
  split
  · exact .ok rfl { h with cells := rfl }
  · exact tracks_raise rfl s t h

theorem tracks_define {e e' : Entry} (he : b.entry e' = b.entry e) :
    b.Tracks more Eq (define e) (define e') := by
  intro s t h
  have hi : ((t.dictionary.insert e').1, b.dictionary (t.dictionary.insert e').2) =
      ((s.dictionary.insert e).1, b.dictionary (s.dictionary.insert e).2) := by
    rw [← b.insert_dictionary, ← b.insert_dictionary, h.dictionary, he]
  obtain ⟨hi, hd⟩ := Prod.mk.inj hi
  exact .ok hi.symm { h with dictionary := hd }

theorem tracks_lookup {name name' : String} (hn : b.text name' = b.text name) :
    b.Tracks more (fun x x' => b.found x' = b.found x) (lookup name) (lookup name') := by
  intro s t h
  unfold lookup
  obtain ⟨hs, ht⟩ | ⟨x, x', hs, ht, hx⟩ := exists_of_map_eq (h.find? hn)
  · rw [hs, ht]
    refine tracks_raise ?_ s t h
    simp only [cause, hn, h.suggest hn]
  · rw [hs, ht]
    exact .ok hx h

/-- Changes of the entry at an index that look alike. -/
theorem tracks_modifyEntry {f f' : Entry → Entry}
    (hf : ∀ e e', b.entry e' = b.entry e → b.entry (f' e') = b.entry (f e)) (i : Nat) :
    b.Tracks more Eq
      (modify fun s => { s with dictionary := s.dictionary.modify i f } : Action Unit)
      (modify fun s => { s with dictionary := s.dictionary.modify i f' }) :=
  Tracks.modify fun _ _ h => { h with dictionary := b.modify_dictionary h.dictionary hf i }

theorem tracks_forgetBackTo (mark : Nat) :
    b.Tracks more Eq
      (modify fun s => { s with dictionary := s.dictionary.forgetBackTo mark } : Action Unit)
      (modify fun s => { s with dictionary := s.dictionary.forgetBackTo mark }) := by
  refine Tracks.modify fun s t h => { h with dictionary := ?_ }
  show b.dictionary (t.dictionary.forgetBackTo mark) = b.dictionary (s.dictionary.forgetBackTo mark)
  rw [← b.forgetBackTo_dictionary, ← b.forgetBackTo_dictionary, h.dictionary]

end Blur

end StackLang
