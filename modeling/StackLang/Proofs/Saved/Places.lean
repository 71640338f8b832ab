import StackLang.Proofs.Words.Outline

/-!
# Words without their places

Two sessions that have read the same definitions from different sources have the same words, but for
the places in the sources that the words come from, and the places of variables in the memory.

* `Code.ops`: the operations of code, which have no places.
* `Dictionary.unplaced`: a dictionary without these places.
* `find?_unplaced`: what a name stands for does not depend on them.
* `Entry.Like`: an entry that another one has become, but for its places.
-/

namespace StackLang

def Instruction.unplaced (x : Instruction) : Instruction :=
  { x with location := none }

namespace Code

def unplaced (code : Code) : Code :=
  Array.map Instruction.unplaced code

@[simp] theorem size_unplaced (code : Code) : Array.size code.unplaced = Array.size code := by
  simp [unplaced]

@[simp] theorem unplaced_unplaced (code : Code) : code.unplaced.unplaced = code.unplaced := by
  simp [unplaced, Function.comp_def, Instruction.unplaced]

@[simp] theorem unplaced_push (code : Code) (l : Option Location) (op : Op) :
    unplaced (code.push ⟨l, op⟩) = code.unplaced.push ⟨none, op⟩ := by
  simp [unplaced, Instruction.unplaced]

theorem unplaced_modify (code : Code) (index : Nat) (f : Op → Op) :
    unplaced (code.modify index fun x => { x with op := f x.op }) =
      code.unplaced.modify index fun x => { x with op := f x.op } := by
  refine Array.ext_getElem? fun i => ?_
  simp only [unplaced, Array.getElem?_map, Array.getElem?_modify]
  split <;> cases code[i]? <;> rfl

@[simp] theorem unplaced_retarget (code : Code) (target index : Nat) :
    (code.retarget target index).unplaced = code.unplaced.retarget target index :=
  unplaced_modify code index _

@[simp] theorem unplaced_retargetAll (code : Code) (target : Nat) (indices : List Nat) :
    (code.retargetAll target indices).unplaced = code.unplaced.retargetAll target indices := by
  induction indices generalizing code with
  | nil => rfl
  | cons index indices ih =>
    show ((code.retarget target index).retargetAll target indices).unplaced = _
    rw [ih, unplaced_retarget]
    rfl

@[simp] theorem unplaced_settle (code : Code) (direction : LoopDirection) (behind marker : Nat) :
    (code.settle direction behind marker).unplaced =
      code.unplaced.settle direction behind marker :=
  unplaced_modify code marker _

theorem map_op_unplaced (code : Code) : code.unplaced.map (·.op) = code.map (·.op) := by
  rw [unplaced, Array.map_map]
  rfl

/-- The operations of code, in their order. -/
def ops (code : Code) : List Op :=
  code.toList.map (·.op)

@[simp] theorem ops_unplaced (code : Code) : code.unplaced.ops = code.ops := by
  simp [ops, unplaced, Function.comp_def, Instruction.unplaced]

/-- The operation at an index, and those behind it. -/
theorem exists_of_drop {code : Code} {n : Nat} {op : Op} {rest : List Op}
    (h : code.ops.drop n = op :: rest) :
    ∃ l, code[n]? = some ⟨l, op⟩ ∧ code.ops.drop (n + 1) = rest := by
  have hget : code.ops[n]? = some op := by rw [← List.head?_drop, h, List.head?_cons]
  unfold ops at hget
  rw [List.getElem?_map, Array.getElem?_toList] at hget
  obtain ⟨⟨l, _⟩, hx, rfl⟩ := Option.map_eq_some_iff.1 hget
  exact ⟨l, hx, by rw [← List.tail_drop, h, List.tail_cons]⟩

theorem back?_unplaced (code : Code) :
    Array.back? code.unplaced = (Array.back? code).map Instruction.unplaced := by
  simp [unplaced, Array.back?_eq_getElem?]

end Code

/-- A variable, whatever its cell. -/
def Origin.unplaced : Origin → Origin
  | .variable _ => .variable 0
  | origin => origin

/-- The code of a variable says nothing but where its cell is. -/
def Body.unplaced (origin : Option Origin) : Body → Body
  | builtin w => builtin w
  | compiled code =>
    match origin with
    | some (.variable _) => compiled #[]
    | _ => compiled code.unplaced

def Entry.unplaced (e : Entry) : Entry :=
  { e with
    body := e.body.unplaced e.origin
    origin := e.origin.map Origin.unplaced
    location := none }

/-- The entry as the dictionary has it at an index. -/
def Entry.inserted (e : Entry) (index : Nat) : Entry :=
  { e with name := Text.uppercase e.name, mark := index }

/-- The entry is the other one, but for its name, its place in the dictionary, whether it is
immediate, and the places in sources and memory. -/
def Entry.Like (e x : Entry) (index : Nat) : Prop :=
  e.unplaced = { x.unplaced with name := e.name, immediate := e.immediate, mark := index }

theorem Body.unplaced_eq_builtin {origin : Option Origin} {b : Body} {w : Builtin} :
    b.unplaced origin = builtin w ↔ b = builtin w := by
  cases b with
  | builtin w' => exact Iff.rfl
  | compiled code =>
    unfold unplaced
    dsimp only
    split <;> simp

theorem Entry.body_unplaced_eq_builtin {e : Entry} {w : Builtin} :
    e.unplaced.body = .builtin w ↔ e.body = .builtin w :=
  Body.unplaced_eq_builtin

theorem Entry.isBuiltin_unplaced (e : Entry) : e.unplaced.isBuiltin = e.isBuiltin := by
  unfold isBuiltin
  cases hb : e.body with
  | builtin w => rw [body_unplaced_eq_builtin.2 hb]
  | compiled code =>
    cases hu : e.unplaced.body with
    | builtin w =>
      rw [body_unplaced_eq_builtin, hb] at hu
      cases hu
    | compiled code' => rfl

namespace Entry

variable {e e' x : Entry} {index : Nat}

theorem Like.visible (h : e.Like x index) : e.visible = x.visible := by
  have hv := congrArg Entry.visible (show e.unplaced = _ from h)
  exact hv

theorem Like.compileOnly (h : e.Like x index) : e.compileOnly = x.compileOnly := by
  have hc := congrArg Entry.compileOnly (show e.unplaced = _ from h)
  exact hc

theorem Like.isBuiltin (h : e.Like x index) : e.isBuiltin = x.isBuiltin := by
  rw [← e.isBuiltin_unplaced, h, ← x.isBuiltin_unplaced]
  rfl

/-- Whether it is immediate is left open. -/
theorem Like.setImmediate (h : e.Like x index) (immediate : Bool) :
    Like { e with immediate } x index := by
  show ({ e.unplaced with immediate } : Entry) = _
  rw [h]

/-- Entries that are both like another one differ in their places only. -/
theorem Like.unplaced_eq (h : e.Like x index) (h' : e'.Like x index) (hname : e'.name = e.name)
    (hi : e'.immediate = e.immediate) : e'.unplaced = e.unplaced := by
  rw [show e.unplaced = _ from h, show e'.unplaced = _ from h', hname, hi]

theorem Like.origin {o : Origin} (h : e.Like x index) (hx : x.origin = some o) :
    ∃ o', e.origin = some o' ∧ o'.unplaced = o.unplaced := by
  have ho : e.origin.map Origin.unplaced = x.origin.map Origin.unplaced :=
    congrArg Entry.origin (show e.unplaced = _ from h)
  rw [hx] at ho
  exact Option.map_eq_some_iff.1 ho

theorem Like.colon {body : String} (h : e.Like x index) (hx : x.origin = some (.colon body)) :
    e.origin = some (.colon body) := by
  obtain ⟨o, ho, hcolon⟩ := h.origin hx
  cases o <;> cases hcolon
  exact ho

theorem Like.constant {v : Value} (h : e.Like x index) (hx : x.origin = some (.constant v)) :
    e.origin = some (.constant v) := by
  obtain ⟨o, ho, hconstant⟩ := h.origin hx
  cases o <;> cases hconstant
  exact ho

theorem Like.variable {a : Nat} (h : e.Like x index) (hx : x.origin = some (.variable a)) :
    ∃ b, e.origin = some (.variable b) := by
  obtain ⟨o, ho, hvariable⟩ := h.origin hx
  cases o <;> cases hvariable
  exact ⟨_, ho⟩

/-- The entry of a colon definition has its code, but for places. -/
theorem Like.compiled {code : Code} {body : String} (h : e.Like x index)
    (hx : x.body = .compiled code) (ho : x.origin = some (.colon body)) :
    ∃ code' : Code, e.body = .compiled code' ∧ code'.unplaced = code.unplaced := by
  have hbody : e.body.unplaced e.origin = x.body.unplaced x.origin :=
    congrArg Entry.body (show e.unplaced = _ from h)
  rw [h.colon ho, ho, hx] at hbody
  cases hb : e.body with
  | builtin w =>
    rw [hb] at hbody
    cases hbody
  | compiled code' =>
    rw [hb] at hbody
    exact ⟨code', rfl, Body.compiled.inj hbody⟩

/-- Two entries that differ in their places only have the same instructions, if they are no
variables. -/
theorem ops_of_unplaced {code code' : Code} (h : e'.unplaced = e.unplaced)
    (ho : ∀ a, e.origin ≠ some (.variable a)) (hb : e.body = .compiled code)
    (hb' : e'.body = .compiled code') : code'.ops = code.ops := by
  have compiled {o : Option Origin} (ho : ∀ a, o ≠ some (.variable a)) (code : Code) :
      (Body.compiled code).unplaced o = .compiled code.unplaced := by
    unfold Body.unplaced
    dsimp only
    split
    · exact (ho _ rfl).elim
    · rfl
  have ho' (a : Nat) (ha : e'.origin = some (.variable a)) : False := by
    have horigin : e'.origin.map Origin.unplaced = e.origin.map Origin.unplaced :=
      congrArg Entry.origin h
    rw [ha] at horigin
    obtain ⟨o, heo, hvariable⟩ := Option.map_eq_some_iff.1 horigin.symm
    cases o <;> cases hvariable
    exact ho _ heo
  have hbody : e'.body.unplaced e'.origin = e.body.unplaced e.origin := congrArg Entry.body h
  rw [hb, hb', compiled ho, compiled ho'] at hbody
  rw [← code'.ops_unplaced, Body.compiled.inj hbody, code.ops_unplaced]

end Entry

namespace Dictionary

/-- The same words, without their places. -/
def unplaced (d : Dictionary) : Dictionary :=
  ⟨d.entries.map Entry.unplaced⟩

variable {d d' : Dictionary}

@[simp] theorem size_unplaced (d : Dictionary) : d.unplaced.size = d.size := by
  simp [unplaced, size]

@[simp] theorem get?_unplaced (d : Dictionary) (i : Nat) :
    d.unplaced.get? i = (d.get? i).map Entry.unplaced := by
  simp [unplaced, get?]

theorem unplaced_forgetBackTo (d : Dictionary) (mark : Nat) :
    (d.forgetBackTo mark).unplaced = d.unplaced.forgetBackTo mark := by
  ext1 i
  simp only [get?_unplaced, get?_forgetBackTo_eq]
  split <;> rfl

theorem unplaced_modify {f g : Entry → Entry} (h : ∀ e, (f e).unplaced = g e.unplaced)
    (d : Dictionary) (i : Nat) : (d.modify i f).unplaced = d.unplaced.modify i g := by
  ext1 j
  simp only [get?_unplaced, get?_modify_eq]
  split
  · cases d.get? j <;> simp [h]
  · rfl

/-- What a name stands for does not depend on places. -/
theorem find?_unplaced (d : Dictionary) (name : String) :
    d.unplaced.find? name = (d.find? name).map fun (i, e) => (i, e.unplaced) := by
  have main (bound : Nat) :
      d.unplaced.lastBelow (answers (Text.uppercase name)) bound =
        (d.lastBelow (answers (Text.uppercase name)) bound).map fun (i, e) => (i, e.unplaced) := by
    induction bound with
    | zero => rfl
    | succ n ih =>
      have hn : d.unplaced.entries[n]? = d.entries[n]?.map Entry.unplaced := by simp [unplaced]
      unfold lastBelow
      rw [hn]
      cases d.entries[n]? with
      | none => exact ih
      | some e =>
        simp only [Option.map_some]
        have hanswers : answers (Text.uppercase name) e.unplaced =
            answers (Text.uppercase name) e := rfl
        rw [hanswers]
        split
        · rfl
        · exact ih
  unfold find?
  rw [main, size_unplaced]

/-! ## The last entry -/

/-- The dictionary with this entry at its end, as it is. -/
def push (d : Dictionary) (e : Entry) : Dictionary :=
  ⟨d.entries.push e⟩

theorem insert_eq_push (d : Dictionary) (e : Entry) :
    (d.insert e).2 = d.push (e.inserted d.size) :=
  rfl

@[simp] theorem size_push (d : Dictionary) (e : Entry) : (d.push e).size = d.size + 1 := by
  simp [push, size]

theorem get?_push (d : Dictionary) (e : Entry) (i : Nat) :
    (d.push e).get? i = if i = d.size then some e else d.get? i :=
  Array.getElem?_push

@[simp] theorem get?_push_self (d : Dictionary) (e : Entry) : (d.push e).get? d.size = some e := by
  rw [get?_push, if_pos rfl]

@[simp] theorem forgetBackTo_push (d : Dictionary) (e : Entry) :
    (d.push e).forgetBackTo d.size = d := by
  ext1 i
  have hnone (h : d.size ≤ i) : d.get? i = none := get?_eq_none_iff.2 h
  rw [get?_forgetBackTo_eq, get?_push]
  grind

@[simp] theorem unplaced_push (d : Dictionary) (e : Entry) :
    (d.push e).unplaced = d.unplaced.push e.unplaced := by
  simp [push, unplaced]

theorem modify_push (d : Dictionary) (e : Entry) (f : Entry → Entry) :
    (d.push e).modify d.size f = d.push (f e) := by
  ext1 i
  rw [get?_modify_eq, get?_push, get?_push]
  grind

/-- A dictionary with one more entry than another. -/
theorem eq_push {e : Entry} (hs : d'.size = d.size + 1) (hd : d'.forgetBackTo d.size = d)
    (he : d'.get? d.size = some e) : d' = d.push e := by
  ext1 i
  have hi := get?_forgetBackTo_eq d' d.size i
  have hnone (h : d'.size ≤ i) : d'.get? i = none := get?_eq_none_iff.2 h
  have hnone' (h : d.size ≤ i) : d.get? i = none := get?_eq_none_iff.2 h
  rw [hd] at hi
  rw [get?_push]
  grind

theorem forgetBackTo_succ {i : Nat} {e : Entry} (h : d.get? i = some e) :
    d.forgetBackTo (i + 1) = (d.forgetBackTo i).push e := by
  have hlt := lt_size_of_get? h
  have hi : (d.forgetBackTo i).size = i := by
    rw [size_forgetBackTo]
    omega
  refine eq_push ?_ ?_ ?_
  · rw [hi, size_forgetBackTo]
    omega
  · rw [hi, forgetBackTo_forgetBackTo, Nat.min_eq_right (Nat.le_succ i)]
  · rw [hi, get?_forgetBackTo_eq, if_pos (Nat.lt_succ_self i), h]

/-- Below the bound, entries from the mark on are not looked at. -/
theorem lastBelow_forgetBackTo (d : Dictionary) (p : Entry → Bool) {bound mark : Nat}
    (h : bound ≤ mark) : (d.forgetBackTo mark).lastBelow p bound = d.lastBelow p bound := by
  induction bound with
  | zero => rfl
  | succ n ih =>
    have hn : (d.forgetBackTo mark).entries[n]? = d.entries[n]? := by
      have := get?_forgetBackTo_eq d mark n
      rwa [if_pos (by omega)] at this
    rw [lastBelow, lastBelow, hn, ih (by omega)]

theorem lastBelow_push (d : Dictionary) (e : Entry) (p : Entry → Bool) :
    (d.push e).lastBelow p (d.push e).size =
      if p e = true then some (d.size, e) else d.lastBelow p d.size := by
  have he : (d.push e).entries[d.size]? = some e := get?_push_self d e
  have hd : (d.push e).lastBelow p d.size = d.lastBelow p d.size := by
    rw [← lastBelow_forgetBackTo (d.push e) p (Nat.le_refl d.size), forgetBackTo_push]
  rw [size_push, lastBelow, he]
  simp only [hd]

theorem find?_push (d : Dictionary) (e : Entry) (name : String) :
    (d.push e).find? name =
      if answers (Text.uppercase name) e = true then some (d.size, e) else d.find? name :=
  lastBelow_push d e _

/-- A hidden word at the end is not found, so what is found lies before it. -/
theorem find?_forgetBackTo_of_hidden {n : Nat} {e : Entry} (hs : d.size = n + 1)
    (he : d.get? n = some e) (hv : e.visible = false) (name : String) :
    (d.forgetBackTo n).find? name = d.find? name := by
  have hd : d = (d.forgetBackTo n).push e := by
    rw [← forgetBackTo_succ he, forgetBackTo_of_le (Nat.le_of_eq hs)]
  conv => rhs; rw [hd, find?_push]
  rw [if_neg]
  simp [answers, hv]

theorem latestUserWord?_push {e : Entry} (hv : e.visible = true) (hb : e.isBuiltin = false)
    (d : Dictionary) : (d.push e).latestUserWord? = some d.size := by
  rw [latestUserWord?, lastBelow_push, if_pos (by rw [hv, hb]; rfl)]
  rfl

theorem exists_of_unplaced_push {e : Entry} (h : d'.unplaced = d.push e) :
    ∃ (d₁ : Dictionary) (e₁ : Entry), d' = d₁.push e₁ ∧ d₁.unplaced = d ∧ e₁.unplaced = e := by
  have he := congrArg (·.get? d.size) h
  simp only [get?_unplaced, get?_push_self] at he
  obtain ⟨e₁, he₁, rfl⟩ := Option.map_eq_some_iff.1 he
  have hs : d'.size = d.size + 1 := by rw [← size_unplaced, h, size_push]
  refine ⟨d'.forgetBackTo d.size, e₁, ?_, ?_, rfl⟩
  · rw [← forgetBackTo_succ he₁, forgetBackTo_of_le (Nat.le_of_eq hs)]
  · rw [unplaced_forgetBackTo, h, forgetBackTo_push]

end Dictionary

end StackLang
