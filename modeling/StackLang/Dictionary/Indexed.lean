import StackLang.Dictionary
import Std.Data.HashMap

/-!
# A dictionary with an index of names

Beside its entries the dictionary keeps, for every name, the places of the entries that carry it,
oldest first.  Names are looked up in this index, so that no search has to pass through all of the
entries; the index has to follow whatever is done to the entries.

* `Indexed`: the entries and the index of their names.
* `Change`: what is done to a dictionary.
* `Responses`: the answers to all that a dictionary can be asked.
-/

namespace StackLang

namespace Dictionary

/-- The entries in the order of their definition, and for each name the places of those that carry
it, oldest first.  A name that no entry carries is not listed. -/
structure Indexed where
  entries : Array Entry
  places : Std.HashMap String (List Nat)

namespace Indexed

def empty : Indexed :=
  ⟨#[], ∅⟩

def size (x : Indexed) : Nat :=
  x.entries.size

/-- The entry at an index, visible or not. -/
def get? (x : Indexed) (index : Nat) : Option Entry :=
  x.entries[index]?

/-- Append an entry, give its index and list it under its name. -/
def insert (x : Indexed) (e : Entry) : Nat × Indexed :=
  let name := Text.uppercase e.name
  (x.size, ⟨x.entries.push { e with name := name, mark := x.size },
    x.places.insert name (x.places.getD name [] ++ [x.size])⟩)

/-- Change the entry at an index, if there is one.  The index of names is as it was. -/
def modify (x : Indexed) (index : Nat) (f : Entry → Entry) : Indexed :=
  ⟨x.entries.modify index f, x.places⟩

/-- Strike out the places from the mark on under one name, and the name if none is left. -/
def strike (mark : Nat) (places : Std.HashMap String (List Nat)) (name : String) :
    Std.HashMap String (List Nat) :=
  match places[name]? with
  | none => places
  | some listed =>
    let kept := listed.filter (· < mark)
    if kept.isEmpty then places.erase name else places.insert name kept

/-- Remove every entry from the mark on, and strike out the places of each under its name. -/
def forgetBackTo (x : Indexed) (mark : Nat) : Indexed :=
  ⟨x.entries.take mark,
    ((x.entries.toList.drop mark).map (·.name)).foldl (strike mark) x.places⟩

/-- What a name means: the last of its places whose entry is visible. -/
def find? (x : Indexed) (name : String) : Option (Nat × Entry) :=
  (x.places[Text.uppercase name]?).bind fun listed => listed.reverse.findSome? fun index =>
    ((x.get? index).filter (·.visible)).map (index, ·)

/-- The visible names, each once, in the order of their newest definitions. -/
def names (x : Indexed) : List String :=
  (x.entries.toList.zipIdx.filter fun (e, index) =>
    (x.find? e.name).any (·.1 == index)).map (·.1.name)

/-- How many visible entries carry the name. -/
def countNamed (x : Indexed) (name : String) : Nat :=
  ((x.places[Text.uppercase name]?).map fun listed =>
    listed.countP fun index => (x.get? index).any (·.visible)).getD 0

end Indexed

/-! ## Changes -/

/-- What of an entry is changed after it was inserted. -/
inductive Edit where
  | visibility (visible : Bool)
  | immediacy (immediate : Bool)
  | body (body : Body)
  | origin (origin : Option Origin)

def Edit.apply : Edit → Entry → Entry
  | visibility visible, e => { e with visible := visible }
  | immediacy immediate, e => { e with immediate := immediate }
  | body b, e => { e with body := b }
  | origin o, e => { e with origin := o }

@[simp] theorem Edit.apply_name (w : Edit) (e : Entry) : (w.apply e).name = e.name := by
  cases w <;> rfl

@[simp] theorem Edit.apply_mark (w : Edit) (e : Entry) : (w.apply e).mark = e.mark := by
  cases w <;> rfl

inductive Change where
  | insert (e : Entry)
  | edit (index : Nat) (what : Edit)
  | forgetBackTo (mark : Nat)

/-- The entries below the bound are left alone. -/
def Change.Spares (bound : Nat) : Change → Prop
  | insert _ => True
  | edit index _ => bound ≤ index
  | forgetBackTo _ => False

/-- The dictionary after a change. -/
def change (d : Dictionary) : Change → Dictionary
  | .insert e => (d.insert e).2
  | .edit index what => d.modify index what.apply
  | .forgetBackTo mark => d.forgetBackTo mark

/-- The dictionary after some changes. -/
def after (d : Dictionary) (changes : List Change) : Dictionary :=
  changes.foldl change d

namespace Indexed

def change (x : Indexed) : Change → Indexed
  | .insert e => (x.insert e).2
  | .edit index what => x.modify index what.apply
  | .forgetBackTo mark => x.forgetBackTo mark

def after (x : Indexed) (changes : List Change) : Indexed :=
  changes.foldl change x

end Indexed

/-! ## Questions -/

/-- The answers to what a dictionary can be asked.  Listings and the suggestions for an unknown name
are made from the names. -/
structure Responses where
  size : Nat
  get? : Nat → Option Entry
  find? : String → Option (Nat × Entry)
  names : List String
  countNamed : String → Nat
  latestUserWord? : Option Nat
  visibleSince : Nat → List Entry

def responses (d : Dictionary) : Responses where
  size := d.size
  get? := d.get?
  find? := d.find?
  names := d.names
  countNamed := d.countNamed
  latestUserWord? := d.latestUserWord?
  visibleSince := d.visibleSince

/-- Only names are looked up in the index. -/
def Indexed.responses (x : Indexed) : Responses where
  size := x.size
  get? := x.get?
  find? := x.find?
  names := x.names
  countNamed := x.countNamed
  latestUserWord? := latestUserWord? ⟨x.entries⟩
  visibleSince := visibleSince ⟨x.entries⟩

end Dictionary

end StackLang
