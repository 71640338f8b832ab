import Mathlib.Data.Set.Card
import Mathlib.Order.Bounds.Defs
import StackLang.Dictionary.Indexed
import StackLang.Proofs.Text.Uppercase

/-!
# Names are shadowed

A name means the newest visible entry that carries it.  An index of names is kept beside the
entries, and says of each name where the entries are that carry it; it has to say the same after
each change, in particular when entries are removed and those that they shadowed come back.

* `Indexed.Agrees`: the index says of each name where the entries are that carry it.
* `Agrees.responses_eq`: then every question is answered as by a search through the entries.
* `Agrees.after`: the index agrees after any changes.
* `shadowing_after`: what the answers are, after any changes, and that forgetting what was added
  brings them back.
-/

namespace StackLang

namespace Dictionary

/-- The places of the entries that carry the name, oldest first, visible or not. -/
def placesOf (entries : Array Entry) (name : String) : List Nat :=
  (List.range entries.size).filter fun i => (entries[i]?).any (·.name == name)

section

variable {entries : Array Entry} {e : Entry} {name : String} {i mark : Nat}

theorem mem_placesOf : i ∈ placesOf entries name ↔ ∃ e, entries[i]? = some e ∧ e.name = name := by
  simp only [placesOf, List.mem_filter, List.mem_range, Option.any_eq_true, beq_iff_eq]
  refine ⟨fun h => h.2, fun ⟨e, he, hn⟩ => ⟨?_, e, he, hn⟩⟩
  exact (Array.getElem?_eq_some_iff.1 he).1

theorem placesOf_push :
    placesOf (entries.push e) name =
      placesOf entries name ++ if e.name = name then [entries.size] else [] := by
  have hbelow : (List.range entries.size).filter
      (fun i => ((entries.push e)[i]?).any (·.name == name)) = placesOf entries name :=
    List.filter_congr fun i hi => by
      rw [Array.getElem?_push, if_neg (Nat.ne_of_lt (List.mem_range.1 hi))]
  rw [placesOf, Array.size_push, List.range_succ, List.filter_append, hbelow]
  congr 1
  by_cases h : e.name = name <;> simp [h]

theorem placesOf_modify {f : Entry → Entry} (hf : ∀ e, (f e).name = e.name) :
    placesOf (entries.modify i f) name = placesOf entries name := by
  unfold placesOf
  rw [Array.size_modify]
  refine List.filter_congr fun j _ => ?_
  rw [Array.getElem?_modify]
  split
  · cases entries[j]? <;> simp [hf]
  · rfl

theorem getElem?_take :
    (entries.take mark)[i]? = if i < mark then entries[i]? else none := by
  simp only [Array.take_eq_extract, Array.getElem?_extract]
  grind

theorem placesOf_take :
    placesOf (entries.take mark) name = (placesOf entries name).filter (· < mark) := by
  refine List.Pairwise.eq_of_mem_iff (r := (· < ·)) (List.pairwise_lt_range.filter _)
    ((List.pairwise_lt_range.filter _).filter _) fun i => ?_
  simp only [List.mem_filter, mem_placesOf, decide_eq_true_eq, getElem?_take]
  by_cases hi : i < mark <;> simp [hi]

theorem lastBelow_answers (bound : Nat) :
    lastBelow ⟨entries⟩ (answers name) bound =
      ((List.range bound).filter fun i => (entries[i]?).any (·.name == name)).reverse.findSome?
        fun i => ((entries[i]?).filter (·.visible)).map (i, ·) := by
  induction bound with
  | zero => rfl
  | succ n ih =>
    rw [List.range_succ, List.filter_append, List.reverse_append, List.findSome?_append, ← ih,
      lastBelow]
    cases he : entries[n]? with
    | none => simp [he]
    | some e =>
      by_cases hn : e.name = name <;> cases hv : e.visible <;>
        simp [he, answers, hn, hv, Option.filter_some]

theorem map_getElem?_range :
    (List.range entries.size).map (entries[·]?) = entries.toList.map some :=
  List.ext_getElem? fun i => by
    simp only [List.getElem?_map, Array.getElem?_toList]
    grind

theorem countP_toList (p : Entry → Bool) :
    entries.toList.countP p = (List.range entries.size).countP fun i => (entries[i]?).any p := by
  calc entries.toList.countP p = (entries.toList.map some).countP (·.any p) := by
        rw [List.countP_map]
        rfl
    _ = _ := by
        rw [← map_getElem?_range, List.countP_map]
        rfl

end

namespace Indexed

/-- What is kept under a name with these places. -/
def listed (places : List Nat) : Option (List Nat) :=
  if places = [] then none else some places

theorem bind_listed (p : Nat → Bool) (places : List Nat) :
    ((listed places).bind fun l => listed (l.filter p)) = listed (places.filter p) := by
  by_cases h : places = [] <;> simp [listed, h]

/-- The index says of each name where the entries are that carry it, and says nothing of a name that
none carries.  Names are in upper case, and each entry knows where it is. -/
structure Agrees (x : Indexed) : Prop where
  places : ∀ name, x.places[name]? = listed (placesOf x.entries name)
  upper : ∀ i e, x.get? i = some e → Text.uppercase e.name = e.name
  mark : ∀ i e, x.get? i = some e → e.mark = i

section

variable {x : Indexed} {name : String} {mark : Nat}

/-! ## What the index says -/

/-- What is listed under a name is what is found by a search. -/
theorem Agrees.getD_places (h : x.Agrees) (name : String) :
    x.places.getD name [] = placesOf x.entries name := by
  rw [Std.HashMap.getD_eq_getD_getElem?, h.places, listed]
  split
  · rename_i hnil
    exact hnil.symm
  · rfl

theorem Agrees.find?_eq (h : x.Agrees) (name : String) :
    x.find? name = Dictionary.find? ⟨x.entries⟩ name := by
  rw [Dictionary.find?, lastBelow_answers, Indexed.find?, h.places, listed]
  show _ = (placesOf x.entries (Text.uppercase name)).reverse.findSome? _
  split
  · rename_i hnil
    rw [hnil]
    rfl
  · rfl

theorem Agrees.countNamed_eq (h : x.Agrees) (name : String) :
    x.countNamed name = Dictionary.countNamed ⟨x.entries⟩ name := by
  have hcount : (placesOf x.entries (Text.uppercase name)).countP
      (fun i => (x.get? i).any (·.visible)) = Dictionary.countNamed ⟨x.entries⟩ name := by
    rw [Dictionary.countNamed, countP_toList, placesOf, List.countP_filter]
    refine List.countP_congr fun i _ => ?_
    cases hi : x.entries[i]? <;> simp [answers, Indexed.get?, hi]
  rw [← hcount, Indexed.countNamed, h.places, listed]
  split
  · rename_i hnil
    rw [hnil]
    rfl
  · rfl

/-- Every question is answered as by a search through the entries. -/
theorem Agrees.responses_eq (h : x.Agrees) : x.responses = Dictionary.responses ⟨x.entries⟩ := by
  have hfind : x.find? = Dictionary.find? ⟨x.entries⟩ := funext h.find?_eq
  have hcount : x.countNamed = Dictionary.countNamed ⟨x.entries⟩ := funext h.countNamed_eq
  have hnames : x.names = Dictionary.names ⟨x.entries⟩ := by
    rw [Indexed.names, Dictionary.names, hfind]
  rw [Indexed.responses, Dictionary.responses, hfind, hcount, hnames]
  rfl

/-! ## What changes keep -/

theorem agrees_empty : empty.Agrees where
  places _ := by simp [empty, placesOf, listed]
  upper _ _ h := by simp [empty, Indexed.get?] at h
  mark _ _ h := by simp [empty, Indexed.get?] at h

theorem Agrees.insert (h : x.Agrees) (e : Entry) : (x.insert e).2.Agrees where
  places name := by
    show (x.places.insert _ _)[name]? = _
    rw [Std.HashMap.getElem?_insert, h.getD_places, Indexed.insert, placesOf_push]
    by_cases hn : Text.uppercase e.name = name
    · simp [hn, size, listed]
    · simp [hn, h.places]
  upper i f hf := by
    rw [Indexed.get?, Indexed.insert, Array.getElem?_push] at hf
    split at hf
    · cases hf
      exact Text.uppercase_uppercase e.name
    · exact h.upper i f hf
  mark i f hf := by
    rw [Indexed.get?, Indexed.insert, Array.getElem?_push] at hf
    split at hf
    · rename_i hi
      cases hf
      exact hi.symm
    · exact h.mark i f hf

theorem Agrees.modify (h : x.Agrees) (index : Nat) {f : Entry → Entry}
    (hname : ∀ e, (f e).name = e.name) (hmark : ∀ e, (f e).mark = e.mark) :
    (x.modify index f).Agrees := by
  have hget {i : Nat} {e : Entry} (he : (x.modify index f).get? i = some e) :
      ∃ e', x.get? i = some e' ∧ e.name = e'.name ∧ e.mark = e'.mark := by
    rw [Indexed.get?, Indexed.modify, Array.getElem?_modify] at he
    split at he
    · obtain ⟨e', he', rfl⟩ := Option.map_eq_some_iff.1 he
      exact ⟨e', he', hname e', hmark e'⟩
    · exact ⟨e, he, rfl, rfl⟩
  refine ⟨fun name => ?_, fun i e he => ?_, fun i e he => ?_⟩
  · rw [Indexed.modify, placesOf_modify hname]
    exact h.places name
  · obtain ⟨e', he', hn, -⟩ := hget he
    rw [hn, h.upper i e' he']
  · obtain ⟨e', he', -, hm⟩ := hget he
    rw [hm, h.mark i e' he']

theorem getElem?_strike (mark : Nat) (places : Std.HashMap String (List Nat)) (struck : String) :
    (strike mark places struck)[name]? =
      if struck = name then (places[name]?).bind fun l => listed (l.filter (· < mark))
      else places[name]? := by
  unfold strike
  split
  · rename_i hnone
    split
    · rename_i heq
      rw [← heq, hnone]
      rfl
    · rfl
  · rename_i l hsome
    by_cases heq : struck = name
    · subst heq
      rw [if_pos rfl, hsome, Option.bind_some, listed]
      by_cases hnil : l.filter (· < mark) = []
      · simp [hnil]
      · simp [hnil, List.isEmpty_iff]
    · dsimp only
      rw [if_neg heq]
      split
      · rw [Std.HashMap.getElem?_erase, if_neg (by simpa using heq)]
      · rw [Std.HashMap.getElem?_insert, if_neg (by simpa using heq)]

/-- Striking out the places under some names leaves those before the mark, under any of them. -/
theorem getElem?_strikes (mark : Nat) (struck : List String)
    (places : Std.HashMap String (List Nat)) :
    (struck.foldl (strike mark) places)[name]? =
      if name ∈ struck then (places[name]?).bind fun l => listed (l.filter (· < mark))
      else places[name]? := by
  induction struck generalizing places with
  | nil => rfl
  | cons first rest ih =>
    rw [List.foldl_cons, ih, getElem?_strike]
    by_cases hfirst : first = name
    · have htwice : ((places[name]?).bind fun l => listed (l.filter (· < mark))).bind
          (fun l => listed (l.filter (· < mark))) =
          (places[name]?).bind fun l => listed (l.filter (· < mark)) := by
        rw [Option.bind_assoc]
        simp only [bind_listed, List.filter_filter, Bool.and_self]
      rw [if_pos hfirst, htwice, ite_self, if_pos (hfirst ▸ List.mem_cons_self)]
    · simp [hfirst, Ne.symm hfirst]

/-- A name that none of the removed entries carries stands before the mark everywhere. -/
theorem Agrees.forgetBackTo (h : x.Agrees) (mark : Nat) : (x.forgetBackTo mark).Agrees where
  places name := by
    show (List.foldl (strike mark) x.places _)[name]? = listed (placesOf (x.entries.take mark) name)
    rw [getElem?_strikes, placesOf_take, h.places]
    split
    · exact bind_listed _ _
    · rename_i hnot
      refine congrArg listed (List.filter_eq_self.2 fun i hi => ?_).symm
      obtain ⟨e, he, rfl⟩ := mem_placesOf.1 hi
      rw [decide_eq_true_eq]
      by_contra hge
      refine hnot (List.mem_map_of_mem (List.mem_of_getElem? (i := i - mark) ?_))
      rw [List.getElem?_drop, Array.getElem?_toList, Nat.add_sub_cancel' (Nat.le_of_not_lt hge), he]
  upper i e he := by
    rw [Indexed.get?, Indexed.forgetBackTo, getElem?_take] at he
    split at he
    · exact h.upper i e he
    · cases he
  mark i e he := by
    rw [Indexed.get?, Indexed.forgetBackTo, getElem?_take] at he
    split at he
    · exact h.mark i e he
    · cases he

theorem Agrees.change (h : x.Agrees) (c : Change) : (x.change c).Agrees := by
  cases c with
  | insert e => exact h.insert e
  | edit index what => exact h.modify index what.apply_name what.apply_mark
  | forgetBackTo mark => exact h.forgetBackTo mark

theorem Agrees.after (h : x.Agrees) (changes : List Change) : (x.after changes).Agrees := by
  induction changes generalizing x with
  | nil => exact h
  | cons c rest ih => exact ih (h.change c)

/-- The entries are changed as they are without an index. -/
theorem entries_after (x : Indexed) (changes : List Change) :
    ⟨(x.after changes).entries⟩ = Dictionary.after ⟨x.entries⟩ changes := by
  induction changes generalizing x with
  | nil => rfl
  | cons c rest ih => exact (ih _).trans (by cases c <;> rfl)

/-! ## Going back -/

/-- A change that spares the entries before the mark leaves them as they are. -/
theorem get?_change {c : Change} (hc : c.Spares mark) (hm : mark ≤ x.size) :
    (∀ i < mark, (x.change c).get? i = x.get? i) ∧ mark ≤ (x.change c).size := by
  cases c with
  | insert e =>
    refine ⟨fun i hi => ?_, ?_⟩
    · exact (Array.getElem?_push ..).trans (if_neg (Nat.ne_of_lt (Nat.lt_of_lt_of_le hi hm)))
    · exact (Nat.le_succ_of_le hm).trans_eq (Array.size_push ..).symm
  | edit index what =>
    refine ⟨fun i hi => ?_, hm.trans_eq (Array.size_modify ..).symm⟩
    exact Array.getElem?_modify.trans (if_neg (Nat.ne_of_gt (Nat.lt_of_lt_of_le hi hc)))
  | forgetBackTo mark => exact hc.elim

theorem get?_after {changes : List Change} (hc : ∀ c ∈ changes, c.Spares mark)
    (hm : mark ≤ x.size) : ∀ i < mark, (x.after changes).get? i = x.get? i := by
  induction changes generalizing x with
  | nil => exact fun _ _ => rfl
  | cons c rest ih =>
    obtain ⟨hget, hle⟩ := get?_change (hc c List.mem_cons_self) hm
    exact fun i hi =>
      (ih (fun c h => hc c (List.mem_cons_of_mem _ h)) hle i hi).trans (hget i hi)

/-- Forgetting whatever was added leaves the entries that there were. -/
theorem entries_forgetBackTo_after {changes : List Change} (hc : ∀ c ∈ changes, c.Spares x.size) :
    ((x.after changes).forgetBackTo x.size).entries = x.entries := by
  refine Array.ext_getElem? fun i => ?_
  rw [Indexed.forgetBackTo, getElem?_take]
  split
  · rename_i hi
    exact get?_after hc (Nat.le_refl _) i hi
  · rename_i hi
    exact (Array.getElem?_eq_none (Nat.le_of_not_lt hi)).symm

/-! ## Answers -/

/-- The entry at the index is visible and carries the name. -/
def Shows (x : Indexed) (name : String) (index : Nat) : Prop :=
  ∃ e, x.get? index = some e ∧ e.visible = true ∧ e.name = name

/-- What the dictionary answers, by its entries. -/
structure Shadowing (x : Indexed) : Prop where
  /-- A name means the newest of the visible entries that carry it. -/
  newest : ∀ name index e, x.find? name = some (index, e) ↔
    x.get? index = some e ∧ IsGreatest {i | x.Shows (Text.uppercase name) i} index
  unknown : ∀ name, x.find? name = none ↔ ∀ i, ¬ x.Shows (Text.uppercase name) i
  mark : ∀ i e, x.get? i = some e → e.mark = i
  count : ∀ name, x.countNamed name = {i | x.Shows (Text.uppercase name) i}.ncard
  named : ∀ name, name ∈ x.names ↔ ∃ i, x.Shows name i
  once : x.names.Nodup
  /-- The names stand in the order of their newest entries. -/
  ordered : x.names.Pairwise fun name name' => ∃ i e i' e',
    x.find? name = some (i, e) ∧ x.find? name' = some (i', e') ∧ i < i'

theorem shows_iff {i : Nat} : x.Shows name i ↔ (x.get? i).any (answers name) = true := by
  simp [Shows, answers, Option.any_eq_true]

theorem Agrees.find?_eq_some_iff (h : x.Agrees) {index : Nat} {e : Entry} :
    x.find? name = some (index, e) ↔
      x.get? index = some e ∧ IsGreatest {i | x.Shows (Text.uppercase name) i} index := by
  rw [h.find?_eq, Dictionary.find?_eq_some_iff]
  constructor
  · rintro ⟨-, he, hp, hlast⟩
    refine ⟨he, shows_iff.2 (by rw [show x.get? index = some e from he]; exact hp), ?_⟩
    intro i hi
    obtain ⟨f, hf, hf'⟩ := (Option.any_eq_true ..).1 (shows_iff.1 hi)
    by_contra hlt
    rw [hlast i f (Nat.lt_of_not_le hlt) (Array.getElem?_eq_some_iff.1 hf).1 hf] at hf'
    cases hf'
  · rintro ⟨he, hshows, hlast⟩
    have hp := shows_iff.1 hshows
    rw [he] at hp
    refine ⟨(Array.getElem?_eq_some_iff.1 he).1, he, hp, fun i f hlt _ hf => ?_⟩
    rw [Bool.eq_false_iff]
    intro hf'
    refine Nat.not_le_of_lt hlt (hlast (shows_iff.2 ?_))
    rw [show x.get? i = some f from hf]
    exact hf'

theorem Agrees.find?_eq_none_iff (h : x.Agrees) :
    x.find? name = none ↔ ∀ i, ¬ x.Shows (Text.uppercase name) i := by
  rw [h.find?_eq, Dictionary.find?, lastBelow_answers, List.findSome?_eq_none_iff]
  simp only [List.mem_reverse, Option.map_eq_none_iff]
  show (∀ i ∈ placesOf x.entries (Text.uppercase name), _) ↔ _
  simp only [mem_placesOf]
  refine ⟨fun hnone i ⟨e, he, hv, hn⟩ => ?_, fun hnone i ⟨e, he, hn⟩ => ?_⟩
  · have := hnone i ⟨e, he, hn⟩
    rw [show x.entries[i]? = some e from he, Option.filter_some, if_pos hv] at this
    cases this
  · rw [he, Option.filter_some, if_neg fun hv => hnone i ⟨e, he, hv, hn⟩]

theorem Agrees.countNamed_eq_ncard (h : x.Agrees) :
    x.countNamed name = {i | x.Shows (Text.uppercase name) i}.ncard := by
  have hset : {i | x.Shows (Text.uppercase name) i} = ↑((List.range x.size).filter
      fun i => (x.get? i).any (answers (Text.uppercase name))).toFinset := by
    ext i
    rw [List.coe_toFinset]
    refine Iff.trans shows_iff
      ⟨fun hi => List.mem_filter.2 ⟨?_, hi⟩, fun hi => (List.mem_filter.1 hi).2⟩
    obtain ⟨e, he, -⟩ := (Option.any_eq_true ..).1 hi
    exact List.mem_range.2 (Array.getElem?_eq_some_iff.1 he).1
  rw [h.countNamed_eq, Dictionary.countNamed, countP_toList, hset, Set.ncard_coe_finset,
    List.toFinset_card_of_nodup (List.nodup_range.filter _), List.countP_eq_length_filter]
  rfl

theorem mem_zipIdx_iff {i : Nat} {e : Entry} :
    (e, i) ∈ x.entries.toList.zipIdx ↔ x.get? i = some e := by
  rw [List.mem_zipIdx_iff_getElem?, Array.getElem?_toList]
  rfl

/-- The names stand in the order of their newest entries. -/
theorem names_ordered (x : Indexed) : x.names.Pairwise fun name name' => ∃ i e i' e',
    x.find? name = some (i, e) ∧ x.find? name' = some (i', e') ∧ i < i' := by
  have hplaces : x.entries.toList.zipIdx.Pairwise (·.2 < ·.2) := by
    have hrange : (x.entries.toList.zipIdx.map (·.2)).Pairwise (· < ·) := by
      rw [List.zipIdx_map_snd]
      exact List.pairwise_lt_range'
    exact List.pairwise_map.1 hrange
  have hfind {e : Entry} {i : Nat} (h : (x.find? e.name).any (·.1 == i) = true) :
      ∃ f, x.find? e.name = some (i, f) := by
    obtain ⟨⟨j, f⟩, hf, hj⟩ := (Option.any_eq_true ..).1 h
    obtain rfl : j = i := beq_iff_eq.1 hj
    exact ⟨f, hf⟩
  refine List.pairwise_map.2 ((hplaces.filter _).imp_of_mem ?_)
  rintro ⟨e, i⟩ ⟨e', i'⟩ hi hi' hlt
  obtain ⟨f, hf⟩ := hfind (List.mem_filter.1 hi).2
  obtain ⟨f', hf'⟩ := hfind (List.mem_filter.1 hi').2
  exact ⟨i, f, i', f', hf, hf', hlt⟩

theorem Agrees.mem_names_iff (h : x.Agrees) : name ∈ x.names ↔ ∃ i, x.Shows name i := by
  simp only [Indexed.names, List.mem_map, List.mem_filter, Prod.exists, mem_zipIdx_iff,
    Option.any_eq_true, beq_iff_eq]
  constructor
  · rintro ⟨e, i, ⟨he, j, f, hf, rfl⟩, rfl⟩
    obtain ⟨hget, hgreatest⟩ := h.find?_eq_some_iff.1 hf
    exact ⟨j, h.upper j e he ▸ hgreatest.1⟩
  · rintro ⟨i, hi⟩
    have hupper : Text.uppercase name = name := by
      obtain ⟨e, he, -, rfl⟩ := hi
      exact h.upper i e he
    cases hfind : x.find? name with
    | none => exact (h.find?_eq_none_iff.1 hfind i (hupper.symm ▸ hi)).elim
    | some found =>
      obtain ⟨j, e⟩ := found
      obtain ⟨he, ⟨f, hf, -, hname⟩, -⟩ := h.find?_eq_some_iff.1 hfind
      obtain rfl := Option.some.inj (he.symm.trans hf)
      rw [hupper] at hname
      exact ⟨e, j, ⟨he, j, e, hname.symm ▸ hfind, rfl⟩, hname⟩

theorem Agrees.shadowing (h : x.Agrees) : x.Shadowing where
  newest _ _ _ := h.find?_eq_some_iff
  unknown _ := h.find?_eq_none_iff
  mark := h.mark
  count _ := h.countNamed_eq_ncard
  named _ := h.mem_names_iff
  once := x.names_ordered.imp fun ⟨i, e, i', e', hi, hi', hlt⟩ heq => by
    rw [heq, hi'] at hi
    cases hi
    exact Nat.lt_irrefl _ hlt
  ordered := x.names_ordered

end

end Indexed

/-- After any changes a name means the newest visible entry that carries it, and the index answers
as a search does.  What was added can be forgotten, so that every answer is as before. -/
theorem shadowing_after (changes : List Change) :
    let x := Indexed.empty.after changes
    let d := empty.after changes
    x.Shadowing ∧ x.responses = d.responses ∧ ∀ later : List Change,
      (∀ c ∈ later, c.Spares x.size) →
        ((x.after later).forgetBackTo x.size).responses = x.responses ∧
        (d.after later).forgetBackTo d.size = d := by
  intro x d
  have hagrees : x.Agrees := Indexed.agrees_empty.after changes
  have hd : ⟨x.entries⟩ = d := Indexed.empty.entries_after changes
  refine ⟨hagrees.shadowing, hd ▸ hagrees.responses_eq, fun later hlater => ?_⟩
  have hback : ((x.after later).forgetBackTo x.size).entries = x.entries :=
    Indexed.entries_forgetBackTo_after hlater
  constructor
  · rw [((hagrees.after later).forgetBackTo x.size).responses_eq, hagrees.responses_eq, hback]
  · have hlater : ⟨(x.after later).entries⟩ = d.after later := hd ▸ x.entries_after later
    rw [← hlater, ← hd]
    exact congrArg Dictionary.mk hback

/-- `A` is defined twice around `B`. -/
def redefinition : List Change :=
  ["a", "b", "A"].map fun name => .insert (.ofBody none name (.compiled #[]))

/-- Another `B`, hidden until its definition is finished. -/
def hiddenUntilFinished : List Change :=
  [.insert { Entry.ofBody none "b" (.compiled #[]) with visible := false },
    .edit 3 (.origin (some (.colon ""))), .edit 3 (.visibility true)]

theorem shadowing_after_redefinition :
    let x := Indexed.empty.after redefinition
    (∀ c ∈ hiddenUntilFinished, c.Spares x.size) ∧ x.names = ["B", "A"] ∧
      (x.find? "a").map (·.1) = some 2 ∧ x.countNamed "A" = 2 ∧
      (x.after hiddenUntilFinished).names = ["A", "B"] ∧
      ((x.after hiddenUntilFinished).forgetBackTo x.size).responses = x.responses := by
  intro x
  obtain ⟨-, hresponses, hback⟩ := shadowing_after redefinition
  obtain ⟨-, hlater, -⟩ := shadowing_after (redefinition ++ hiddenUntilFinished)
  have hspares : ∀ c ∈ hiddenUntilFinished, c.Spares x.size := by
    simp [hiddenUntilFinished, Change.Spares, x, redefinition, Indexed.after, Indexed.change,
      Indexed.insert, Indexed.size, Indexed.empty]
  refine ⟨hspares, ?_, ?_, ?_, ?_, (hback _ hspares).1⟩
  · exact (congrArg Responses.names hresponses).trans (by decide +kernel)
  · rw [show x.find? = _ from congrArg Responses.find? hresponses]
    decide +kernel
  · rw [show x.countNamed = _ from congrArg Responses.countNamed hresponses]
    decide +kernel
  · have happend : x.after hiddenUntilFinished =
        Indexed.empty.after (redefinition ++ hiddenUntilFinished) := List.foldl_append.symm
    rw [happend]
    exact (congrArg Responses.names hlater).trans (by decide +kernel)

end Dictionary

end StackLang
