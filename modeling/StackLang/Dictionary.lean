import StackLang.Builtin
import StackLang.Code
import StackLang.Text.Uppercase

/-!
# The dictionary

The words of a session in the order of their definition.  A name means the newest visible entry
that carries it; names are compared in upper case.  Compiled code refers to an entry by its index,
so entries are never rearranged, and they are removed from the end only.

* `find?_eq_some_iff`: what a name means is the last visible entry with the name.
* `entries_forgetBackTo`: forgetting keeps the entries before the mark.
-/

namespace StackLang

/-- What runs when a word is executed. -/
inductive Body where
  | builtin (word : Builtin)
  | compiled (code : Code)
deriving DecidableEq

/-- How a word was made, kept so that it can be written back as source. -/
inductive Origin where
  /-- By a colon definition with this body. -/
  | colon (body : String)
  | constant (value : Value)
  /-- By `VARIABLE`, with the cell that it reserved. -/
  | variable (address : Nat)
deriving DecidableEq

structure Entry where
  /-- The name, in upper case. -/
  name : String
  body : Body
  /-- Does the word run while a definition is being compiled? -/
  immediate : Bool
  /-- Is the word meaningless outside of a definition? -/
  compileOnly : Bool
  /-- Can the word be found?  It cannot while it is being built. -/
  visible : Bool
  summary : String
  signature : String
  /-- The index of the entry. -/
  mark : Nat
  origin : Option Origin
  /-- Where the word was defined, unless it is built in. -/
  location : Option Location
deriving DecidableEq

namespace Entry

/-- A visible word that runs when it is executed. -/
def ofBody (location : Option Location) (name : String) (body : Body) : Entry where
  name := Text.uppercase name
  body := body
  immediate := false
  compileOnly := false
  visible := true
  summary := ""
  signature := ""
  mark := 0
  origin := none
  location := location

/-- The entry of a built-in word. -/
def ofBuiltin (word : Builtin) : Entry :=
  { ofBody none word.spec.name (.builtin word) with
    immediate := word.spec.role != .plain
    compileOnly := word.spec.role == .compileOnly
    summary := word.spec.summary
    signature := word.spec.signature }

def isBuiltin (e : Entry) : Bool :=
  match e.body with
  | .builtin _ => true
  | .compiled _ => false

end Entry

structure Dictionary where
  entries : Array Entry
deriving DecidableEq

namespace Dictionary

def empty : Dictionary :=
  ⟨#[]⟩

/-- The number of entries, hidden and shadowed ones included. -/
def size (d : Dictionary) : Nat :=
  d.entries.size

/-- The entry at an index, visible or not. -/
def get? (d : Dictionary) (index : Nat) : Option Entry :=
  d.entries[index]?

/-- Append an entry and give its index. -/
def insert (d : Dictionary) (e : Entry) : Nat × Dictionary :=
  (d.size, ⟨d.entries.push { e with name := Text.uppercase e.name, mark := d.size }⟩)

/-- Change the entry at an index, if there is one. -/
def modify (d : Dictionary) (index : Nat) (f : Entry → Entry) : Dictionary :=
  ⟨d.entries.modify index f⟩

/-- Remove every entry from the mark on. -/
def forgetBackTo (d : Dictionary) (mark : Nat) : Dictionary :=
  ⟨d.entries.take mark⟩

/-! ## Looking up -/

/-- Does the entry answer to the name? -/
def answers (name : String) (e : Entry) : Bool :=
  e.visible && e.name == name

/-- The last index below `bound` whose entry has the property. -/
def lastBelow (d : Dictionary) (p : Entry → Bool) : (bound : Nat) → Option (Nat × Entry)
  | 0 => none
  | n + 1 =>
    match d.entries[n]? with
    | some e => if p e then some (n, e) else d.lastBelow p n
    | none => d.lastBelow p n

/-- What a name means: the newest visible entry with the name, in any letter case, and its
index. -/
def find? (d : Dictionary) (name : String) : Option (Nat × Entry) :=
  d.lastBelow (answers (Text.uppercase name)) d.size

/-- Does the name mean anything? -/
def contains (d : Dictionary) (name : String) : Bool :=
  (d.find? name).isSome

/-- The newest visible word that is not built in. -/
def latestUserWord? (d : Dictionary) : Option Nat :=
  (d.lastBelow (fun e => e.visible && !e.isBuiltin) d.size).map (·.1)

/-- The visible entries from the mark on, shadowed ones included. -/
def visibleSince (d : Dictionary) (mark : Nat) : List Entry :=
  (d.entries.toList.drop mark).filter (·.visible)

/-- The visible names, each once, in the order of their newest definitions. -/
def names (d : Dictionary) : List String :=
  (d.entries.toList.zipIdx.filter fun (e, index) =>
    (d.find? e.name).any (·.1 == index)).map (·.1.name)

/-- How many visible entries carry the name. -/
def countNamed (d : Dictionary) (name : String) : Nat :=
  d.entries.toList.countP (answers (Text.uppercase name))

/-! ## Laws -/

theorem lastBelow_eq_some_iff {d : Dictionary} {p : Entry → Bool} {bound index : Nat}
    {e : Entry} :
    d.lastBelow p bound = some (index, e) ↔
      index < bound ∧ d.get? index = some e ∧ p e ∧
        ∀ i f, index < i → i < bound → d.get? i = some f → p f = false := by
  have step {n : Nat} (hn : ∀ f, d.entries[n]? = some f → p f = false) :
      (index < n ∧ d.get? index = some e ∧ p e ∧
        ∀ i f, index < i → i < n → d.get? i = some f → p f = false) ↔
      (index < n + 1 ∧ d.get? index = some e ∧ p e ∧
        ∀ i f, index < i → i < n + 1 → d.get? i = some f → p f = false) := by
    constructor
    · rintro ⟨hi, he, hp, hr⟩
      refine ⟨by omega, he, hp, fun i f hl hu hf => ?_⟩
      by_cases h : i = n
      · exact hn f (h ▸ hf)
      · exact hr i f hl (by omega) hf
    · rintro ⟨hi, he, hp, hr⟩
      have hne : index ≠ n := by
        rintro rfl
        simp [hn e he] at hp
      exact ⟨by omega, he, hp, fun i f hl hu hf => hr i f hl (by omega) hf⟩
  induction bound with
  | zero => simp [lastBelow]
  | succ n ih =>
    unfold lastBelow
    split
    · rename_i f hf
      split
      · rename_i hp
        constructor
        · intro h
          cases h
          exact ⟨by omega, hf, hp, fun i f hl hu _ => by omega⟩
        · rintro ⟨hi, he, hp', hr⟩
          by_cases h : index = n
          · subst h
            simp_all [get?]
          · have := hr n f (by omega) (by omega) hf
            simp_all
      · rename_i hp
        exact ih.trans (step fun g hg => by simp_all)
    · rename_i hf
      exact ih.trans (step fun g hg => by simp_all)

theorem find?_eq_some_iff {d : Dictionary} {name : String} {index : Nat} {e : Entry} :
    d.find? name = some (index, e) ↔
      index < d.size ∧ d.get? index = some e ∧ answers (Text.uppercase name) e ∧
        ∀ i f, index < i → i < d.size → d.get? i = some f →
          answers (Text.uppercase name) f = false :=
  lastBelow_eq_some_iff

@[simp] theorem entries_forgetBackTo (d : Dictionary) (mark : Nat) :
    (d.forgetBackTo mark).entries.toList = d.entries.toList.take mark := by
  simp [forgetBackTo]

@[simp] theorem get?_insert_self (d : Dictionary) (e : Entry) :
    (d.insert e).2.get? (d.insert e).1 =
      some { e with name := Text.uppercase e.name, mark := d.size } := by
  simp [insert, get?, size]

end Dictionary

end StackLang
