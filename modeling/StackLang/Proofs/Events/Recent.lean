import Mathlib.Data.List.Induction
import StackLang.Event

/-!
# A queue forgets the oldest events only

A bounded queue is shared by its clones: some of them record events, others take events out, and
they do so in any order.  What has been recorded is numbered from 0 on; the queue always reaches
from some number to the newest event, so what is taken out comes in the order of the numbers, and
what has been passed over is too old for the capacity.

* `EventQueue.History`: the clones of a queue, with all that was recorded and taken out.
* `History.Reaches`: the number from which on the queue has the events.
* `exists_reaches_use`: whatever is done through a clone moves that number forward.
* `delivers_recent`: what is delivered, what waits and what is lost, at any time.
-/

namespace StackLang.EventQueue

/-- What is done through a clone of a queue. -/
inductive Use where
  | clone
  | record (e : Event)
  | poll
  | drain

/-- The clones of one queue, and what was done through them. -/
structure History where
  /-- The events that all of the clones have in common. -/
  events : Array Event
  /-- The capacity of each clone. -/
  clones : List { capacity : Nat // 0 < capacity }
  /-- All events that were recorded, the oldest first. -/
  recorded : List Event
  /-- All events that were taken out, in the order in which they were. -/
  delivered : List Event

namespace History

/-- A new queue, which is the only clone of itself. -/
def start (capacity : Nat) : History :=
  let q := ofCapacity capacity
  ⟨q.events, [⟨q.capacity, q.capacity_pos⟩], [], []⟩

/-- A clone, as a queue. -/
def clone? (h : History) (i : Nat) : Option EventQueue :=
  h.clones[i]?.map fun n => ⟨h.events, n.1, n.2⟩

/-- Do something through a clone, if there is such a clone.  The events that it leaves are those of
all of the clones. -/
def use (h : History) (i : Nat) (u : Use) : History :=
  match h.clone? i with
  | none => h
  | some q =>
    match u with
    | .clone => { h with clones := h.clones ++ [⟨q.capacity, q.capacity_pos⟩] }
    | .record e => { h with
        events := (q.record e).events
        recorded := h.recorded ++ [e] }
    | .poll =>
      match q.poll? with
      | none => h
      | some (e, rest) => { h with
          events := rest.events
          delivered := h.delivered ++ [e] }
    | .drain => { h with
        events := q.drain.2.events
        delivered := h.delivered ++ q.drain.1 }

/-- A new queue, used through one clone or another. -/
def after (capacity : Nat) (uses : List (Nat × Use)) : History :=
  uses.foldl (fun h (i, u) => h.use i u) (start capacity)

theorem after_concat (capacity : Nat) (uses : List (Nat × Use)) (i : Nat) (u : Use) :
    after capacity (uses ++ [(i, u)]) = (after capacity uses).use i u :=
  List.foldl_append ..

end History

/-! ## Single operations -/

theorem poll?_of_nil {q : EventQueue} (h : q.events.toList = []) : q.poll? = none := by
  simp [poll?, ← Array.getElem?_toList, h]

theorem poll?_of_cons {q : EventQueue} {e : Event} {rest : List Event}
    (h : q.events.toList = e :: rest) :
    ∃ left, q.poll? = some (e, left) ∧ left.events.toList = rest := by
  refine ⟨{ q with events := q.events.extract 1 }, ?_, ?_⟩
  · simp [poll?, ← Array.getElem?_toList, h]
  · have hsize : q.events.size = rest.length + 1 := by
      rw [← Array.length_toList, h, List.length_cons]
    simp [Array.toList_extract, h, hsize]

/-- Neighbouring elements of a list, by their indices. -/
theorem map_some_take_drop {xs : List Event} {next count : Nat} (h : next + count ≤ xs.length) :
    ((xs.drop next).take count).map some = (List.range' next count).map (xs[·]?) := by
  refine List.ext_getElem? fun i => ?_
  by_cases hi : i < count
  · have hlt : next + i < xs.length := by omega
    simp [hi, List.getElem?_eq_getElem hlt]
  · have htake : (((xs.drop next).take count).map some).length ≤ i := by
      rw [List.length_map, List.length_take]
      omega
    have hrange : ((List.range' next count).map (xs[·]?)).length ≤ i := by
      simpa using hi
    rw [List.getElem?_eq_none htake, List.getElem?_eq_none hrange]

/-! ## What the queue reaches back to -/

namespace History

/-- The queue has the events from the number `next` on.  The events with the numbers `seen` have
been delivered, and what is older than `next` and was not delivered is too old for the capacity. -/
structure Reaches (capacity : Nat) (h : History) (seen : List Nat) (next : Nat) : Prop where
  clones : ∀ n ∈ h.clones, n.1 = max capacity 1
  next_le : next ≤ h.recorded.length
  length_le : h.recorded.length ≤ next + max capacity 1
  events : h.events.toList = h.recorded.drop next
  delivered : h.delivered.map some = seen.map (h.recorded[·]?)
  ordered : seen.Pairwise (· < ·)
  seen_lt : ∀ i ∈ seen, i < next
  lost : ∀ i < next, i ∉ seen → i + max capacity 1 < h.recorded.length

variable {capacity next : Nat} {h : History} {seen : List Nat}

theorem reaches_start (capacity : Nat) : (start capacity).Reaches capacity [] 0 where
  clones := List.forall_mem_singleton.2 rfl
  next_le := Nat.zero_le _
  length_le := Nat.zero_le _
  events := rfl
  delivered := rfl
  ordered := .nil
  seen_lt := nofun
  lost := nofun

namespace Reaches

theorem length_seen (hr : h.Reaches capacity seen next) : seen.length = h.delivered.length := by
  simpa using (congrArg List.length hr.delivered).symm

theorem length_events (hr : h.Reaches capacity seen next) :
    h.events.size = h.recorded.length - next := by
  rw [← Array.length_toList, hr.events, List.length_drop]

/-- Every clone is the queue that has these events. -/
theorem clone? (hr : h.Reaches capacity seen next) {i : Nat} {q : EventQueue}
    (hq : h.clone? i = some q) : q.events = h.events ∧ q.capacity = max capacity 1 := by
  obtain ⟨n, hn, rfl⟩ := Option.map_eq_some_iff.1 hq
  exact ⟨rfl, hr.clones n (List.mem_of_getElem? hn)⟩

/-- What is recorded is the newest event, and may push out the oldest one. -/
theorem record (hr : h.Reaches capacity seen next) {q : EventQueue} (hq : q.events = h.events)
    (hc : q.capacity = max capacity 1) (e : Event) :
    ∃ next', Reaches capacity { h with
      events := (q.record e).events
      recorded := h.recorded ++ [e] } seen next' := by
  have hnext := hr.next_le
  have hlength := hr.length_le
  have hsize : q.size = h.recorded.length - next := by rw [size, hq, hr.length_events]
  -- Nothing is pushed out until the queue is full.
  refine ⟨next + (h.recorded.length - next + 1 - max capacity 1), {
    clones := hr.clones
    ordered := hr.ordered
    next_le := ?_
    length_le := ?_
    events := ?_
    delivered := ?_
    seen_lt := fun i hi => Nat.lt_add_right _ (hr.seen_lt i hi)
    lost := fun i hi hseen => ?_ }⟩
  · rw [List.length_append, List.length_singleton]
    omega
  · rw [List.length_append, List.length_singleton]
    omega
  · rw [toList_record _ _ (by omega), hsize, hc, hq, hr.events,
      ← List.drop_append_of_le_length hnext, List.drop_drop]
  · rw [hr.delivered]
    refine List.map_congr_left fun i hi => ?_
    have := hr.seen_lt i hi
    exact (List.getElem?_append_left (by omega)).symm
  · rw [List.length_append, List.length_singleton]
    by_cases hold : i < next
    · have := hr.lost i hold hseen
      omega
    · omega

/-- Some of the oldest events of the queue are delivered. -/
theorem deliver (hr : h.Reaches capacity seen next) (count : Nat) {events : Array Event}
    (hcount : next + count ≤ h.recorded.length)
    (hevents : events.toList = h.recorded.drop (next + count)) :
    Reaches capacity { h with
      events := events
      delivered := h.delivered ++ (h.recorded.drop next).take count }
      (seen ++ List.range' next count) (next + count) where
  clones := hr.clones
  next_le := hcount
  length_le := Nat.le_trans hr.length_le (by omega)
  events := hevents
  delivered := by
    rw [List.map_append, List.map_append, hr.delivered, map_some_take_drop hcount]
  ordered := by
    refine List.pairwise_append.2 ⟨hr.ordered, List.pairwise_lt_range', fun i hi j hj => ?_⟩
    exact Nat.lt_of_lt_of_le (hr.seen_lt i hi) (List.mem_range'_1.1 hj).1
  seen_lt := by
    intro i hi
    rcases List.mem_append.1 hi with hi | hi
    · exact Nat.lt_add_right _ (hr.seen_lt i hi)
    · exact (List.mem_range'_1.1 hi).2
  lost := by
    intro i hi hseen
    rw [List.mem_append, List.mem_range'_1, not_or] at hseen
    exact hr.lost i (by omega) hseen.1

end Reaches

/-- Whatever is done through a clone, the queue has the events from some number on, and what it
delivers are those that it reached back to before. -/
theorem exists_reaches_use (hr : h.Reaches capacity seen next) (i : Nat) (u : Use) :
    ∃ more next', (h.use i u).Reaches capacity (seen ++ more) next' := by
  have stays : ∃ more next', h.Reaches capacity (seen ++ more) next' :=
    ⟨[], next, by rwa [List.append_nil]⟩
  unfold use
  cases hq : h.clone? i with
  | none => exact stays
  | some q =>
    obtain ⟨hevents, hcapacity⟩ := hr.clone? hq
    cases u with
    | clone =>
      have hclones : ∀ n ∈ h.clones ++ [⟨q.capacity, q.capacity_pos⟩], n.1 = max capacity 1 :=
        List.forall_mem_append.2 ⟨hr.clones, List.forall_mem_singleton.2 hcapacity⟩
      exact ⟨[], next, by rw [List.append_nil]; exact { hr with clones := hclones }⟩
    | record e =>
      obtain ⟨next', hr'⟩ := hr.record hevents hcapacity e
      exact ⟨[], next', by rwa [List.append_nil]⟩
    | poll =>
      have htail : q.events.toList = h.recorded.drop next := hevents ▸ hr.events
      cases hdrop : h.recorded.drop next with
      | nil =>
        simp only [poll?_of_nil (htail.trans hdrop)]
        exact stays
      | cons e rest =>
        obtain ⟨left, hpoll, hleft⟩ := poll?_of_cons (htail.trans hdrop)
        simp only [hpoll]
        have hlt : next < h.recorded.length := by
          refine Nat.lt_of_not_le fun hle => ?_
          rw [List.drop_of_length_le hle] at hdrop
          cases hdrop
        have hbehind : left.events.toList = h.recorded.drop (next + 1) := by
          rw [hleft, ← List.drop_drop, hdrop]
          rfl
        have hr' := hr.deliver 1 hlt hbehind
        rw [hdrop] at hr'
        exact ⟨_, _, hr'⟩
    | drain =>
      have hnext := hr.next_le
      have hall : next + (h.recorded.length - next) = h.recorded.length := by omega
      have hempty : #[].toList = h.recorded.drop (next + (h.recorded.length - next)) := by
        rw [hall, List.drop_length]
      have hr' := hr.deliver (h.recorded.length - next) (Nat.le_of_eq hall) hempty
      rw [List.take_of_length_le (Nat.le_of_eq List.length_drop), ← hr.events, ← hevents] at hr'
      exact ⟨_, _, hr'⟩

/-! ## Runs -/

/-- The deliveries of a run have numbers, of which those of its beginnings are the first. -/
theorem exists_reaches (capacity : Nat) (uses : List (Nat × Use)) :
    ∃ positions, (∃ next, (after capacity uses).Reaches capacity positions next) ∧
      ∀ before later, uses = before ++ later → ∃ next, (after capacity before).Reaches capacity
        (positions.take (after capacity before).delivered.length) next := by
  induction uses using List.reverseRecOn with
  | nil =>
    refine ⟨[], ⟨0, reaches_start capacity⟩, fun before later h => ⟨0, ?_⟩⟩
    obtain ⟨rfl, -⟩ := List.append_eq_nil_iff.1 h.symm
    exact reaches_start capacity
  | append_singleton uses x ih =>
    obtain ⟨positions, ⟨next, hr⟩, hbefore⟩ := ih
    obtain ⟨more, next', hr'⟩ := exists_reaches_use hr x.1 x.2
    rw [← after_concat] at hr'
    refine ⟨positions ++ more, ⟨next', hr'⟩, fun before later h => ?_⟩
    rcases List.eq_nil_or_concat later with rfl | ⟨later, y, rfl⟩
    · rw [List.append_nil] at h
      rw [← h, List.take_of_length_le (Nat.le_of_eq hr'.length_seen)]
      exact ⟨next', hr'⟩
    · rw [List.concat_eq_append, ← List.append_assoc] at h
      obtain ⟨h, -⟩ := List.append_inj' h rfl
      obtain ⟨next, hr⟩ := hbefore before later h
      have hle : (after capacity before).delivered.length ≤ positions.length := by
        have := hr.length_seen
        rw [List.length_take] at this
        omega
      rw [List.take_append_of_le_length hle]
      exact ⟨next, hr⟩

end History

/-- The numbers of the newest events, as many as a capacity, that have not been delivered. -/
def History.waiting (h : History) (capacity : Nat) (seen : List Nat) : List Nat :=
  (List.range h.recorded.length).filter fun i =>
    i ∉ seen ∧ h.recorded.length ≤ i + max capacity 1

/-- The queue has all of the newest events that have not been delivered. -/
theorem History.Reaches.waiting_eq {capacity next : Nat} {h : History} {seen : List Nat}
    (hr : h.Reaches capacity seen next) :
    h.waiting capacity seen = List.range' next (h.recorded.length - next) := by
  have hnext := hr.next_le
  have hlength := hr.length_le
  have hsplit : List.range h.recorded.length =
      List.range' 0 next ++ List.range' (0 + next) (h.recorded.length - next) := by
    rw [List.range'_append_1, Nat.add_sub_cancel' hnext, List.range_eq_range']
  have hold : (List.range' 0 next).filter (fun i =>
      i ∉ seen ∧ h.recorded.length ≤ i + max capacity 1) = [] := by
    refine List.filter_eq_nil_iff.2 fun i hi hkept => ?_
    obtain ⟨hseen, hrecent⟩ := of_decide_eq_true hkept
    have := hr.lost i (by simpa using (List.mem_range'_1.1 hi).2) hseen
    omega
  have hnew : (List.range' next (h.recorded.length - next)).filter (fun i =>
      i ∉ seen ∧ h.recorded.length ≤ i + max capacity 1) =
      List.range' next (h.recorded.length - next) := by
    refine List.filter_eq_self.2 fun i hi => decide_eq_true ⟨fun hseen => ?_, ?_⟩
    · have := hr.seen_lt i hseen
      have := (List.mem_range'_1.1 hi).1
      omega
    · have := (List.mem_range'_1.1 hi).1
      omega
  rw [waiting, hsplit, List.filter_append, Nat.zero_add, hold, hnew, List.nil_append]

/-- Whatever is done through the clones of a queue of any capacity, its deliveries can be numbered
by what was recorded, in ascending order, so that at any time

* what has been delivered are the recorded events with the first of these numbers;
* what waits in the queue are, in their order, the recorded events that have not been delivered and
  that belong to the newest ones, as many as the capacity, or one if that is zero;
* behind an event that neither has been delivered nor waits, so many more have been recorded. -/
theorem delivers_recent (capacity : Nat) (uses : List (Nat × Use)) :
    ∃ positions : List Nat, positions.Pairwise (· < ·) ∧
      ∀ before later, uses = before ++ later →
        let h := History.after capacity before
        let seen := positions.take h.delivered.length
        let waiting := h.waiting capacity seen
        h.delivered.map some = seen.map (h.recorded[·]?) ∧
          h.events.toList.map some = waiting.map (h.recorded[·]?) ∧
          ∀ i < h.recorded.length, i ∉ seen → i ∉ waiting →
            max capacity 1 ≤ (h.recorded.drop (i + 1)).length := by
  obtain ⟨positions, ⟨_, hr⟩, hbefore⟩ := History.exists_reaches capacity uses
  refine ⟨positions, hr.ordered, fun before later h => ?_⟩
  obtain ⟨next, hr⟩ := hbefore before later h
  intro h seen waiting
  replace hr : h.Reaches capacity seen next := hr
  have hnext := hr.next_le
  have hwaiting : waiting = List.range' next (h.recorded.length - next) := hr.waiting_eq
  refine ⟨hr.delivered, ?_, fun i hi hseen hw => ?_⟩
  · rw [hwaiting, ← map_some_take_drop (by omega),
      List.take_of_length_le (Nat.le_of_eq List.length_drop), hr.events]
  · rw [hwaiting, List.mem_range'_1] at hw
    have := hr.lost i (by omega) hseen
    rw [List.length_drop]
    omega

end StackLang.EventQueue
