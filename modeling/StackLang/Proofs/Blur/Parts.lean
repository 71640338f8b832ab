import StackLang.Proofs.Words.Outline

/-!
# Differences that no word sees

The place in a source that a word comes from shows in errors only, and of the letters of a name only
their upper-case forms count.  A blur makes places and letters alike; what a session is made of goes
blurred through all that words do with it.

* `Blur`: the places and letters that are taken for the same.
* `find?_dictionary`, `suggest_dictionary`, `describe_dictionary`: what a dictionary says.
* `push?_returns`, `popLoop?_returns`, `exitCall_returns`: what is done to a return stack.
-/

namespace StackLang

/-- Two options that look alike hold something, or neither of them does. -/
theorem exists_of_map_eq {α β : Type} {f : α → β} {o o' : Option α} (h : o'.map f = o.map f) :
    o = none ∧ o' = none ∨ ∃ a a', o = some a ∧ o' = some a' ∧ f a' = f a := by
  cases o <;> cases o' <;> simp_all

/-- What is taken for the same when sessions are compared. -/
structure Blur where
  place : Location → Location
  char : Char → Char
  /-- Letters that are alike have one form in upper case. -/
  upper : ∀ c, Text.upperChar (char c) = Text.upperChar c

namespace Blur

variable (b : Blur)

/-! ## The parts of a session -/

def text (s : String) : String :=
  s.map b.char

def instruction (x : Instruction) : Instruction :=
  { x with location := x.location.map b.place }

def code (c : Code) : Code :=
  Array.map b.instruction c

def body : Body → Body
  | .builtin word => .builtin word
  | .compiled code => .compiled (b.code code)

def origin : Origin → Origin
  | .colon source => .colon (b.text source)
  | .constant v => .constant v
  | .variable address => .variable address

def entry (e : Entry) : Entry :=
  { e with
    body := b.body e.body
    origin := e.origin.map b.origin
    location := e.location.map b.place }

def dictionary (d : Dictionary) : Dictionary :=
  ⟨d.entries.map b.entry⟩

/-- What a name means, blurred. -/
def found (x : Nat × Entry) : Nat × Entry :=
  (x.1, b.entry x.2)

def callItem (c : CallItem) : CallItem :=
  { c with location := b.place c.location }

def frame (f : CallFrame) : CallFrame :=
  { f with code := b.code f.code }

def item : ReturnItem → ReturnItem
  | .value v => .value v
  | .loop frame => .loop frame
  | .call caller => .call (caller.map b.frame)

def returns (r : ReturnStack) : ReturnStack :=
  ⟨r.items.map b.item, r.limit, r.depth, by simp [r.depth_eq]⟩

def definition (d : Definition) : Definition :=
  { d with
    location := b.place d.location
    code := b.code d.code
    recorded := d.recorded.map b.text }

def lexeme : Lexeme → Lexeme
  | .number value => .number value
  | .string form text => .string form text
  | .word name => .word (b.text name)

def token (t : Token) : Token :=
  ⟨b.place t.location, b.lexeme t.lexeme⟩

def pending (p : Pending) : Pending :=
  ⟨p.tokens.map b.token, p.definition.map b.definition⟩

/-- Only the error of an unknown word shows how a name was written. -/
def cause : Cause → Cause
  | .unknownWord name suggestions => .unknownWord (b.text name) suggestions
  | cause => cause

def error (e : ScriptError) : ScriptError :=
  ⟨e.location.map b.place, b.cause e.cause, e.calls.map (·.map b.callItem)⟩

def fault : Fault → Fault
  | .script e => .script (b.error e)
  | f => f

/-! ## Texts -/

theorem text_append (s t : String) : b.text (s ++ t) = b.text s ++ b.text t := by
  apply String.toList_inj.1
  simp [text]

theorem text_intercalate (sep : String) (l : List String) :
    b.text (sep.intercalate l) = (b.text sep).intercalate (l.map b.text) := by
  induction l with
  | nil => simp [text]
  | cons s l ih =>
    cases l with
    | nil => simp
    | cons t l =>
      rw [String.intercalate_cons_cons, text_append, text_append, ih]
      simp [String.intercalate_cons_cons]

@[simp] theorem uppercase_text (s : String) : Text.uppercase (b.text s) = Text.uppercase s := by
  apply String.toList_inj.1
  simp [text, List.flatMap_map, b.upper]

theorem uppercase_eq {s t : String} (h : b.text s = b.text t) :
    Text.uppercase s = Text.uppercase t := by
  rw [← b.uppercase_text, h, b.uppercase_text]

/-- Lexemes that are alike are written alike. -/
theorem text_eq_of_lexeme {x y : Lexeme} (h : b.lexeme x = b.lexeme y) :
    b.text x.text = b.text y.text := by
  cases x <;> cases y <;> simp_all [lexeme, Lexeme.text]

theorem name?_eq_of_lexeme {x y : Lexeme} (h : b.lexeme x = b.lexeme y) :
    x.name?.map b.text = y.name?.map b.text := by
  cases x <;> cases y <;> simp_all [lexeme, Lexeme.name?]

theorem source_eq_of_definition {d d' : Definition} (h : b.definition d = b.definition d') :
    b.text d.source = b.text d'.source := by
  have hr : d.recorded.map b.text = d'.recorded.map b.text := congrArg Definition.recorded h
  rw [Definition.source, Definition.source, text_intercalate, text_intercalate,
    ← Array.toList_map, ← Array.toList_map, hr]

/-! ## Code -/

@[simp] theorem op_instruction (x : Instruction) : (b.instruction x).op = x.op := rfl

@[simp] theorem size_code (c : Code) : (b.code c).size = c.size := by
  simp [code]

theorem getElem?_code (x : Code) (i : Nat) : (b.code x)[i]? = x[i]?.map b.instruction := by
  simp [code]

theorem push_code (c : Code) (l : Option Location) (op : Op) :
    (b.code c).push ⟨l.map b.place, op⟩ = b.code (c.push ⟨l, op⟩) := by
  simp [code, instruction]

theorem modify_code (x : Code) (i : Nat) (f : Op → Op) :
    ((b.code x).modify i fun y => { y with op := f y.op }) =
      b.code (x.modify i fun y => { y with op := f y.op }) := by
  refine Array.ext_getElem? fun j => ?_
  simp only [getElem?_code, Array.getElem?_modify]
  split <;> cases x[j]? <;> rfl

theorem back?_code (c : Code) : (b.code c).back? = c.back?.map b.instruction := by
  simp [code, Array.back?_eq_getElem?]

theorem strayTarget?_code (c : Code) :
    Definition.strayTarget? (b.code c) = Definition.strayTarget? c := by
  unfold Definition.strayTarget?
  rw [b.size_code, code, Array.toList_map, List.zipIdx_map, List.findSome?_map]
  rfl

theorem listing_code (c : Code) (note : Op → String) :
    (b.code c).listing note = c.listing note := by
  unfold Code.listing
  rw [code, Array.toList_map, List.zipIdx_map, List.map_map]
  rfl

/-! ## Dictionaries -/

section dictionary

variable (d : Dictionary)

@[simp] theorem size_dictionary : (b.dictionary d).size = d.size := by
  simp [dictionary, Dictionary.size]

theorem get?_dictionary (i : Nat) : (b.dictionary d).get? i = (d.get? i).map b.entry := by
  simp [dictionary, Dictionary.get?]

theorem insert_dictionary (e : Entry) :
    (b.dictionary d).insert (b.entry e) = ((d.insert e).1, b.dictionary (d.insert e).2) := by
  simp [Dictionary.insert, dictionary, Dictionary.size, entry]

/-- Changes of entries that look alike, at the same place. -/
theorem modify_dictionary {d d' : Dictionary} (hd : b.dictionary d' = b.dictionary d)
    {f f' : Entry → Entry} (hf : ∀ e e', b.entry e' = b.entry e → b.entry (f' e') = b.entry (f e))
    (i : Nat) : b.dictionary (d'.modify i f') = b.dictionary (d.modify i f) := by
  ext1 j
  have hj : (d'.get? j).map b.entry = (d.get? j).map b.entry := by
    rw [← get?_dictionary, hd, get?_dictionary]
  simp only [get?_dictionary, Dictionary.get?_modify_eq]
  split
  · obtain ⟨hs, ht⟩ | ⟨e, e', hs, ht, he⟩ := exists_of_map_eq hj
    · rw [hs, ht]
      rfl
    · rw [hs, ht]
      exact congrArg some (hf e e' he)
  · exact hj

theorem forgetBackTo_dictionary (mark : Nat) :
    (b.dictionary d).forgetBackTo mark = b.dictionary (d.forgetBackTo mark) := by
  ext1 i
  simp only [get?_dictionary, Dictionary.get?_forgetBackTo_eq]
  split <;> rfl

theorem lastBelow_dictionary {p : Entry → Bool} (hp : ∀ e, p (b.entry e) = p e) (bound : Nat) :
    (b.dictionary d).lastBelow p bound = (d.lastBelow p bound).map b.found := by
  induction bound with
  | zero => rfl
  | succ n ih =>
    have hn : (b.dictionary d).entries[n]? = d.entries[n]?.map b.entry := by simp [dictionary]
    unfold Dictionary.lastBelow
    rw [hn]
    cases d.entries[n]? with
    | none => exact ih
    | some e =>
      simp only [Option.map_some]
      rw [hp]
      split
      · rfl
      · exact ih

theorem find?_dictionary (name : String) :
    (b.dictionary d).find? name = (d.find? name).map b.found := by
  unfold Dictionary.find?
  rw [size_dictionary]
  exact b.lastBelow_dictionary d (fun _ => rfl) _

theorem isBuiltin_entry (e : Entry) : (b.entry e).isBuiltin = e.isBuiltin := by
  unfold Entry.isBuiltin entry
  cases e.body <;> rfl

theorem latestUserWord?_dictionary :
    (b.dictionary d).latestUserWord? = d.latestUserWord? := by
  unfold Dictionary.latestUserWord?
  rw [size_dictionary, b.lastBelow_dictionary d (fun e => by rw [isBuiltin_entry]; rfl),
    Option.map_map]
  rfl

theorem names_dictionary : (b.dictionary d).names = d.names := by
  unfold Dictionary.names
  simp only [find?_dictionary]
  rw [dictionary, Array.toList_map, List.zipIdx_map, List.filter_map, List.map_map]
  refine congrArg (List.map _) (List.filter_congr fun x _ => ?_)
  simp only [Function.comp_apply, Prod.map_fst, Prod.map_snd, Option.any_map]
  rfl

theorem suggest_dictionary (name : String) : (b.dictionary d).suggest name = d.suggest name := by
  unfold Dictionary.suggest
  rw [names_dictionary]

theorem find?_text (name : String) : d.find? (b.text name) = d.find? name := by
  unfold Dictionary.find?
  rw [uppercase_text]

theorem suggest_text (name : String) : d.suggest (b.text name) = d.suggest name := by
  unfold Dictionary.suggest
  rw [uppercase_text]

theorem listing_dictionary : (b.dictionary d).listing = d.listing := by
  unfold Dictionary.listing
  rw [names_dictionary]

theorem calledName_dictionary (op : Op) : (b.dictionary d).calledName op = d.calledName op := by
  cases op <;> try rfl
  all_goals
    simp only [Dictionary.calledName, get?_dictionary]
    cases d.get? _ <;> rfl

theorem describe_dictionary (e : Entry) :
    (b.dictionary d).describe (b.entry e) = d.describe e := by
  have hcalled : (b.dictionary d).calledName = d.calledName := funext (b.calledName_dictionary d)
  unfold Dictionary.describe
  rw [hcalled, show (b.entry e).body = b.body e.body from rfl]
  cases e.body with
  | builtin word => rfl
  | compiled code =>
    dsimp only [body]
    rw [listing_code]
    rfl

end dictionary

/-! ## Return stacks -/

section returns

variable (r : ReturnStack)

theorem returns_eq_iff {r r' : ReturnStack} :
    b.returns r = b.returns r' ↔ r.items.map b.item = r'.items.map b.item ∧ r.limit = r'.limit := by
  refine ⟨fun h => ⟨congrArg ReturnStack.items h, (congrArg ReturnStack.limit h :)⟩,
    fun ⟨hi, hl⟩ => ?_⟩
  have hd : r.depth = r'.depth := by
    rw [r.depth_eq, r'.depth_eq, ← List.length_map b.item, hi, List.length_map]
  simp only [returns, hi, hl, hd]

theorem push?_returns (i : ReturnItem) :
    (b.returns r).push? (b.item i) = (r.push? i).map b.returns := by
  unfold ReturnStack.push?
  show (if r.limit ≤ r.depth then none else _) = _
  split <;> rfl

theorem peekValue?_returns : (b.returns r).peekValue? = r.peekValue? := by
  obtain ⟨items, limit, depth, h⟩ := r
  rcases items with _ | ⟨_ | _ | _, rest⟩ <;> rfl

theorem popValue?_returns :
    (b.returns r).popValue? = r.popValue?.map fun (v, rest) => (v, b.returns rest) := by
  obtain ⟨items, limit, depth, h⟩ := r
  rcases items with _ | ⟨_ | _ | _, rest⟩ <;> rfl

theorem loop?_returns (depth : Nat) : (b.returns r).loop? depth = r.loop? depth := by
  have hloops (items : List ReturnItem) :
      ReturnStack.loopsOf (items.map b.item) = ReturnStack.loopsOf items := by
    induction items with
    | nil => rfl
    | cons i items ih => cases i <;> simp_all [item, ReturnStack.loopsOf]
  unfold ReturnStack.loop?
  rw [show (b.returns r).items = r.items.map b.item from rfl, hloops]

theorem replaceLoop_returns (new : LoopFrame) :
    (b.returns r).replaceLoop new = b.returns (r.replaceLoop new) := by
  have hset (items : List ReturnItem) : ReturnStack.setLoop new (items.map b.item) =
      (ReturnStack.setLoop new items).map b.item := by
    induction items with
    | nil => rfl
    | cons i items ih => cases i <;> simp_all [item, ReturnStack.setLoop]
  simp only [ReturnStack.replaceLoop, returns, hset]

theorem takeLoop?_item (items : List ReturnItem) :
    ReturnStack.takeLoop? (items.map b.item) =
      (ReturnStack.takeLoop? items).map fun (frame, rest) => (frame, rest.map b.item) := by
  induction items with
  | nil => rfl
  | cons i items ih =>
    cases i with
    | value v =>
      simp only [List.map_cons, item, ReturnStack.takeLoop?, ih, Option.map_map]
      rfl
    | loop frame => rfl
    | call caller => rfl

theorem popLoop?_returns :
    (b.returns r).popLoop? = r.popLoop?.map fun (frame, rest) => (frame, b.returns rest) := by
  have ht := b.takeLoop?_item r.items
  unfold ReturnStack.popLoop?
  split
  · rename_i frame rest h
    rw [show (b.returns r).items = r.items.map b.item from rfl, ht] at h
    split
    · rename_i frame' rest' h'
      rw [h'] at h
      cases h
      rfl
    · rename_i h'
      rw [h'] at h
      cases h
  · rename_i h
    rw [show (b.returns r).items = r.items.map b.item from rfl, ht] at h
    split
    · rename_i h'
      rw [h'] at h
      cases h
    · rfl

theorem unwind_item (items : List ReturnItem) (depth : Nat) :
    ReturnStack.unwind (items.map b.item) depth =
      ((ReturnStack.unwind items depth).1.map (·.map b.frame),
        (ReturnStack.unwind items depth).2.1.map b.item,
        (ReturnStack.unwind items depth).2.2) := by
  induction items generalizing depth with
  | nil => rfl
  | cons i items ih => cases i <;> simp_all [item, ReturnStack.unwind]

theorem exitCall_returns :
    (b.returns r).exitCall =
      (r.exitCall.1.map (·.map b.frame), b.returns r.exitCall.2) := by
  have hu := b.unwind_item r.items r.depth
  unfold ReturnStack.exitCall
  simp only [returns, hu]

theorem clear_returns : (b.returns r).clear = b.returns r.clear := rfl

end returns

end Blur

end StackLang
