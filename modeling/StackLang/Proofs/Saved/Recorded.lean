import StackLang.Proofs.Saved.Compiling
import StackLang.Proofs.Saved.Reading

/-!
# What an entry says of its word

An entry keeps how its word was made.  Read behind the same words, the lexemes that it keeps of a
colon definition make the same code again.  Those among them that run a word add nothing to it; what
is known of such words is a parameter.

* `Entry.Recorded`: an entry that tells how its word was made.
* `Definition.Underway`: a definition whose lexemes so far are recorded.
* `Underway.extend`, `Underway.interrupt`, `Underway.recorded_filled`: a definition from its first
  lexeme to its end.
* `Underway.exists_build`: what is assembled can be built.
-/

namespace StackLang

/-! ## Stray branches -/

theorem Definition.strayTarget?_unplaced (code : Code) :
    strayTarget? code.unplaced = strayTarget? code := by
  unfold strayTarget?
  rw [Code.size_unplaced, Code.unplaced, Array.toList_map, List.zipIdx_map, List.findSome?_map]
  rfl

/-! ## Entries -/

/-- The entry of a constant. -/
def Entry.ofConstant (location : Location) (name : String) (v : Value) : Entry :=
  DefiningWord.valueEntry location name v " -- value" (.constant v)

/-- The entry of a variable with this cell. -/
def Entry.ofVariable (location : Location) (name : String) (address : Nat) : Entry :=
  DefiningWord.valueEntry location name (.address (UInt64.ofNat address)) " -- address"
    (.variable address)

theorem Entry.like_ofConstant (location : Location) (name : String) (v : Value) (index : Nat) :
    ((ofConstant location name v).inserted index).Like (ofConstant .unspecified "" v) index := by
  simp [Like, inserted, unplaced, ofConstant, DefiningWord.valueEntry, ofBody, Body.unplaced,
    Code.unplaced, Instruction.unplaced]

/-- The text of the lexemes of a body. -/
def Lexeme.bodyText (xs : List Lexeme) : String :=
  " ".intercalate (xs.map text)

/-- The lexemes run only words of which this is known. -/
def Dictionary.RunsOnly (A : Dictionary → Nat → Prop) (d : Dictionary) (xs : List Lexeme) : Prop :=
  ∀ x ∈ xs, ∀ i, x.interlude? d = some i → A d i

theorem Dictionary.RunsOnly.snoc {A : Dictionary → Nat → Prop} {d : Dictionary} {xs : List Lexeme}
    {x : Lexeme} (h : d.RunsOnly A xs) (hx : ∀ i, x.interlude? d = some i → A d i) :
    d.RunsOnly A (xs ++ [x]) :=
  List.forall_mem_append.2 ⟨h, List.forall_mem_singleton.2 hx⟩

/-- The entry tells how its word was made behind the words of the dictionary. -/
inductive Entry.Recorded (A : Dictionary → Nat → Prop) (d : Dictionary) (e : Entry) : Prop
  /-- The lexemes of its body make its code again, and make it immediate only if it is. -/
  | colon {xs : List Lexeme} {y : Definition} {m : Bool} (hxs : ∀ x ∈ xs, x.Written)
    (hruns : d.RunsOnly A xs)
    (hy : d.assemble? (d.proper xs) (.bare, false) = some (y, m)) (hc : y.control = [])
    (ht : Definition.strayTarget? (y.code.push ⟨none, .exit⟩) = none)
    (hm : m = true → e.immediate = true)
    (he : e.Like (Entry.filled (y.code.push ⟨none, .exit⟩) (Lexeme.bodyText xs)
      (Entry.reserved .unspecified "")) d.size)
  | constant {v : Value} (he : e.Like (Entry.ofConstant .unspecified "" v) d.size)
  | «variable» (he : e.Like (Entry.ofVariable .unspecified "" 0) d.size)

namespace Entry.Recorded

variable {A : Dictionary → Nat → Prop} {d d' : Dictionary} {e : Entry}

theorem visible (h : e.Recorded A d) : e.visible = true := by
  cases h with
  | colon _ _ _ _ _ _ he => exact he.visible
  | constant he => exact he.visible
  | «variable» he => exact he.visible

theorem isBuiltin (h : e.Recorded A d) : e.isBuiltin = false := by
  cases h with
  | colon _ _ _ _ _ _ he => exact he.isBuiltin
  | constant he => exact he.isBuiltin
  | «variable» he => exact he.isBuiltin

/-- A recorded word may become immediate. -/
theorem madeImmediate (h : e.Recorded A d) : Entry.Recorded A d { e with immediate := true } := by
  cases h with
  | colon hxs hruns hy hc ht hm he =>
    exact .colon hxs hruns hy hc ht (fun _ => rfl) (he.setImmediate true)
  | constant he => exact .constant (he.setImmediate true)
  | «variable» he => exact .variable (he.setImmediate true)

end Entry.Recorded

/-! ## Definitions -/

/-- The definition is that of the last entry, which is hidden, and the lexemes have made it what it
is. -/
structure Definition.Underway (d : Dictionary) (x : Definition) (xs : List Lexeme) : Prop where
  size : x.word + 1 = d.size
  entry : ∃ e, d.get? x.word = some e ∧ e.name = x.name ∧
    e.Like (Entry.reserved .unspecified "") x.word ∧
    (d.forgetBackTo x.word).assemble? ((d.forgetBackTo x.word).proper xs) (.bare, false) =
      some (x.skeleton, e.immediate)
  recorded : x.recorded.toList = xs.map Lexeme.text

namespace Definition.Underway

variable {A : Dictionary → Nat → Prop} {d : Dictionary} {x x' : Definition} {xs : List Lexeme}

theorem opened (d : Dictionary) (location : Location) (name : String) :
    Underway (d.insert (Entry.reserved location name)).2
      (.opened d.size (Text.uppercase name) location) [] where
  size := (d.size_insert _).symm
  entry := ⟨_, d.get?_insert_self _, rfl, rfl, by rw [skeleton_opened]; rfl⟩
  recorded := rfl

theorem size_below (h : Underway d x xs) : (d.forgetBackTo x.word).size = x.word := by
  have := h.size
  rw [Dictionary.size_forgetBackTo]
  omega

/-- What names stand for does not depend on the definition that is open. -/
theorem find?_below (h : Underway d x xs) (name : String) :
    (d.forgetBackTo x.word).find? name = d.find? name := by
  obtain ⟨e, he, -, hl, -⟩ := h.entry
  exact Dictionary.find?_forgetBackTo_of_hidden h.size.symm he hl.visible name

theorem effect?_below (h : Underway d x xs) (z : Lexeme) :
    z.effect? (d.forgetBackTo x.word) = z.effect? d :=
  Lexeme.effect?_of_find? (fun name => by
    rw [Dictionary.find?_unplaced, Dictionary.find?_unplaced, h.find?_below]) z

theorem interlude?_below (h : Underway d x xs) (z : Lexeme) :
    z.interlude? (d.forgetBackTo x.word) = z.interlude? d :=
  Dictionary.interlude?_of_find? (fun name => by
    rw [Dictionary.find?_unplaced, Dictionary.find?_unplaced, h.find?_below]) z

/-- The words behind which the definition was opened, and its entry behind them. -/
theorem exists_push (h : Underway d x xs) : ∃ e, d = (d.forgetBackTo x.word).push e ∧
    e.Like (Entry.reserved .unspecified "") x.word := by
  obtain ⟨e, he, -, hl, -⟩ := h.entry
  have hbelow : (d.forgetBackTo x.word).size = x.word := h.size_below
  exact ⟨e, Dictionary.eq_push (by rw [hbelow, h.size]) (by rw [hbelow]) (by rw [hbelow, he]), hl⟩

/-- A lexeme that runs a word is recorded, and adds nothing. -/
theorem interrupt (h : Underway d x xs) {z : Lexeme} {i : Nat} (hz : z.interlude? d = some i) :
    Underway d (x.record z.text) (xs ++ [z]) := by
  refine ⟨h.size, ?_, by simp [record, h.recorded]⟩
  obtain ⟨e, he, hname, hl, ha⟩ := h.entry
  rw [← h.interlude?_below] at hz
  refine ⟨e, he, hname, hl, ?_⟩
  show (d.forgetBackTo x.word).assemble? ((d.forgetBackTo x.word).proper (xs ++ [z])) _ =
    some (x.skeleton, _)
  rwa [Dictionary.proper_append, Dictionary.proper_cons_of_some hz, Dictionary.proper_nil,
    List.append_nil]

/-- One more lexeme. -/
theorem extend (h : Underway d x xs) {z : Lexeme} {ws : List BodyWord} {marks : Bool}
    {l : Option Location} (hz : z.effect? d = some (ws, marks))
    (hb : build (placed l ws) x = .ok () x') :
    Underway (d.marking x.word marks) (x'.record z.text) (xs ++ [z]) := by
  obtain ⟨hw, hn, hr⟩ := same_of_build hb
  obtain ⟨e, he, hname, hl, ha⟩ := h.entry
  have hbelow : (d.marking x.word marks).forgetBackTo x.word = d.forgetBackTo x.word :=
    d.forgetBackTo_modify _ _
  refine ⟨?_, ?_, ?_⟩
  · show x'.word + 1 = _
    rw [hw, h.size, Dictionary.marking, Dictionary.size_modify]
  · show ∃ e, (d.marking x.word marks).get? x'.word = some e ∧ e.name = x'.name ∧
      e.Like _ x'.word ∧ ((d.marking x.word marks).forgetBackTo x'.word).assemble?
        (((d.marking x.word marks).forgetBackTo x'.word).proper (xs ++ [z])) _ =
          some (x'.skeleton, _)
    have hadds : z.interlude? (d.forgetBackTo x.word) = none := by
      rw [h.interlude?_below, Dictionary.interlude?_of_effect? hz]
    rw [hw, hn, hbelow, Dictionary.proper_append, Dictionary.proper_cons_of_none hadds,
      Dictionary.assemble?_append, ha]
    refine ⟨{ e with immediate := e.immediate || marks }, ?_, hname, ?_, ?_⟩
    · rw [Dictionary.marking, Dictionary.get?_modify_eq, if_pos rfl, he]
      rfl
    · show ({ e.unplaced with immediate := e.immediate || marks } : Entry) = _
      rw [hl]
    · have hz' := h.effect?_below z
      rw [hz] at hz'
      rw [Option.bind_some, Dictionary.assemble?_cons, Dictionary.extend?_skeleton _ _ _ _ l, hz']
      simp only [Option.bind_some, hb, Dictionary.proper_nil, Dictionary.assemble?_nil]
  · simp [record, hr, h.recorded]

/-- A lexeme that is assembled next has an effect that can be built. -/
theorem exists_build (h : Underway d x xs) {z : Lexeme} {zs : List Lexeme}
    {r : Definition × Bool} (hz : z.interlude? d = none)
    (ha : (d.forgetBackTo x.word).assemble? ((d.forgetBackTo x.word).proper (xs ++ z :: zs))
      (.bare, false) = some r) (l : Option Location) :
    ∃ ws marks x', z.effect? d = some (ws, marks) ∧ build (placed l ws) x = .ok () x' := by
  obtain ⟨e, -, -, -, hdone⟩ := h.entry
  rw [← h.interlude?_below] at hz
  rw [Dictionary.proper_append, Dictionary.proper_cons_of_none hz, Dictionary.assemble?_append,
    hdone, Option.bind_some, Dictionary.assemble?_cons, Dictionary.extend?_skeleton _ _ _ _ l,
    h.effect?_below] at ha
  cases he : z.effect? d with
  | none =>
    rw [he] at ha
    cases ha
  | some effect =>
    obtain ⟨ws, marks⟩ := effect
    rw [he] at ha
    cases hb : build (placed l ws) x with
    | error c x' =>
      simp only [Option.bind_some, hb] at ha
      cases ha
    | ok a x' => exact ⟨ws, marks, x', rfl, hb⟩

/-- The entry of a definition that is closed. -/
theorem filled (h : Underway d x xs) : ∃ e,
    (d.modify x.word (Entry.filled (x.code.push ⟨none, .exit⟩) x.source)).get? x.word = some e ∧
      e.name = x.name ∧
      (d.forgetBackTo x.word).assemble? ((d.forgetBackTo x.word).proper xs) (.bare, false) =
        some (x.skeleton, e.immediate) ∧
      e.Like (Entry.filled (x.skeleton.code.push ⟨none, .exit⟩) (Lexeme.bodyText xs)
        (Entry.reserved .unspecified "")) x.word := by
  obtain ⟨e, he, hname, hl, ha⟩ := h.entry
  refine ⟨Entry.filled (x.code.push ⟨none, .exit⟩) x.source e, ?_, hname, ha, ?_⟩
  · rw [Dictionary.get?_modify_eq, if_pos rfl, he]
    rfl
  · have hsource : x.source = Lexeme.bodyText xs := by
      rw [source, h.recorded]
      rfl
    have hcode : x.skeleton.code.push ⟨none, .exit⟩ = Code.unplaced (x.code.push ⟨none, .exit⟩) :=
      (Code.unplaced_push _ _ _).symm
    rw [hcode, hsource]
    show ({ e.unplaced with
      body := .compiled (Code.unplaced (x.code.push ⟨none, .exit⟩))
      visible := true
      origin := some (.colon (Lexeme.bodyText xs)) } : Entry) = _
    rw [hl]
    simp only [Entry.filled, Entry.unplaced, Body.unplaced, Code.unplaced_unplaced]
    rfl

theorem strayTarget?_skeleton (x : Definition) :
    strayTarget? (x.skeleton.code.push ⟨none, .exit⟩) =
      strayTarget? (x.code.push ⟨none, .exit⟩) := by
  have hcode : x.skeleton.code.push ⟨none, .exit⟩ = Code.unplaced (x.code.push ⟨none, .exit⟩) :=
    (Code.unplaced_push _ _ _).symm
  rw [hcode, strayTarget?_unplaced]

/-- A definition that is closed is recorded. -/
theorem recorded_filled (h : Underway d x xs) (hxs : ∀ z ∈ xs, z.Written)
    (hruns : (d.forgetBackTo x.word).RunsOnly A xs) (hc : x.control = [])
    (ht : strayTarget? (x.code.push ⟨none, .exit⟩) = none) :
    ∃ e, (d.modify x.word (Entry.filled (x.code.push ⟨none, .exit⟩) x.source)).get? x.word =
        some e ∧ e.Recorded A (d.forgetBackTo x.word) := by
  obtain ⟨e, he, -, ha, hl⟩ := h.filled
  refine ⟨e, he, .colon hxs hruns ha hc ?_ id ?_⟩
  · rw [strayTarget?_skeleton, ht]
  · rwa [h.size_below]

end Definition.Underway

end StackLang
