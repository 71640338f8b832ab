import StackLang.Error

/-!
# Events

What an observer of an evaluation is told: the words that start and end, the text that is printed,
and the failure that ends the evaluation.  Events go to a bounded queue, which forgets its oldest
event when it is full, or to a journal, which keeps them all.

* `toList_record`: a queue holds the most recent events, in the order in which they were recorded.
-/

namespace StackLang

inductive Event where
  /-- A word is about to run. -/
  | starting (name signature : String)
  /-- A word has ended, with the data stack behind it, the top first. -/
  | complete (name : String) (stack : List Value)
  /-- A text was printed. -/
  | output (text : String)
  /-- The evaluation failed. -/
  | failed (error : ScriptError)
  /-- The evaluation waits until the end of a word is acknowledged. -/
  | acknowledge (name : String)
deriving DecidableEq

/-- A bounded queue of events, the oldest first. -/
structure EventQueue where
  events : Array Event
  capacity : Nat
  capacity_pos : 0 < capacity

namespace EventQueue

/-- An empty queue.  Every queue has room for one event at least. -/
def ofCapacity (capacity : Nat) : EventQueue :=
  ⟨#[], max capacity 1, by omega⟩

def size (q : EventQueue) : Nat :=
  q.events.size

/-- The queue with one more event.  A full queue drops its oldest event. -/
def record (q : EventQueue) (e : Event) : EventQueue :=
  if q.events.size < q.capacity then { q with events := q.events.push e }
  else { q with events := (q.events.extract 1).push e }

/-- The oldest event, and the queue without it. -/
def poll? (q : EventQueue) : Option (Event × EventQueue) :=
  q.events[0]?.map fun e => (e, { q with events := q.events.extract 1 })

/-- All the events, and the empty queue. -/
def drain (q : EventQueue) : List Event × EventQueue :=
  (q.events.toList, { q with events := #[] })

theorem toList_record (q : EventQueue) (e : Event) (h : q.size ≤ q.capacity) :
    (q.record e).events.toList =
      (q.events.toList ++ [e]).drop (q.size + 1 - q.capacity) := by
  have hpos := q.capacity_pos
  unfold record
  simp only [size] at h ⊢
  split
  · rename_i hlt
    simp [show q.events.size + 1 - q.capacity = 0 by omega]
  · have hsize : q.events.size + 1 - q.capacity = 1 := by omega
    have hle : 1 ≤ q.events.toList.length := by
      rw [Array.length_toList]
      omega
    rw [hsize, List.drop_append_of_le_length hle]
    simp [Array.toList_extract, List.take_of_length_le]

end EventQueue

/-- Where the events of a session go. -/
inductive Channel where
  | queue
  | journal
deriving Repr, DecidableEq

/-- The observers of a session.  The queue that was attached last can still be read after another
channel has taken its place. -/
structure Observers where
  active : Option Channel
  queue : Option EventQueue
  journal : Array Event

namespace Observers

def none : Observers :=
  ⟨.none, .none, #[]⟩

/-- Is nobody watching? -/
def isSilent (o : Observers) : Bool :=
  o.active.isNone

/-- Tell the active observer.  A queue does not keep requests to acknowledge. -/
def record (o : Observers) (e : Event) : Observers :=
  match o.active, e with
  | .none, _ => o
  | some .queue, .acknowledge _ => o
  | some .queue, e => { o with queue := o.queue.map (·.record e) }
  | some .journal, e => { o with journal := o.journal.push e }

/-- Attach a new queue. -/
def attachQueue (o : Observers) (capacity : Nat) : Observers :=
  { o with active := some .queue, queue := some (.ofCapacity capacity) }

/-- Attach the journal. -/
def attachJournal (o : Observers) : Observers :=
  { o with active := some .journal }

/-- Stop observing. -/
def detach (o : Observers) : Observers :=
  { o with active := .none }

end Observers

end StackLang
