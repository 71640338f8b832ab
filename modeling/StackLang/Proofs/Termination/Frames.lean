import StackLang.Proofs.Call.Loops
import StackLang.Proofs.Definition.Scopes
import StackLang.Proofs.Structured.Instructions
import StackLang.Proofs.Termination.Weights

/-!
# The weight of the calls in flight

The running words weigh what each of them has still to do, and a step of the innermost one makes the
whole lighter.  It goes forward in its text, or its innermost open loop comes nearer to its end, or
it is left; and the word that it calls may make fewer calls than itself, since the marker of the
call takes room on the return stack.

* `Standing`: the loops that are open where a word stands, and those around it in the text.
* `Standing.lighter`: an operation that does not call or leave makes the word lighter.
* `Weighs`: what the words in flight weigh.
* `Weighs.step`: a step of the running word makes them lighter.
-/

namespace StackLang

open ReturnStack
open Multiset (IsDershowitzMannaLT)

/-- A place behind the last one that control can reach. -/
def Code.span (code : Code) : ℕ :=
  2 * Array.size code + 2

/-- At the instruction `i` these are the loops around it in the text, with the ones that are
open. -/
structure Standing (scopes : List (List ℕ)) (i : ℕ) (loops : List LoopFrame) (scope : List ℕ)
    (slots : List (Option LoopFrame)) : Prop where
  here : scopes[i]? = some scope
  length : slots.length = scope.length
  loops : slots.reduceOption = loops

/-- A loop that goes on has one turn less left. -/
theorem turnsLeft_stepped {x : LoopFrame} (h : Action.loopContinues (x.stepped 1) 1 = true) :
    turnsLeft (some (x.stepped 1)) < turnsLeft (some x) := by
  rw [LoopFrame.stepped, loopContinues_stepIndex, decide_eq_true_eq] at h
  have hlimit := x.limit.toInt_lt
  simp only [turnsLeft, LoopFrame.stepped, toInt_stepIndex_one]
  omega

/-! ## One word -/

namespace Standing

variable {code : Code} {scopes : List (List ℕ)} {i j room : ℕ} {loops loops' : List LoopFrame}
  {scope : List ℕ} {slots : List (Option LoopFrame)} {op : Op}

/-- Some loops and some of their slots make the word at `j` lighter than it is at `i`. -/
def Lightens (code : Code) (scopes : List (List ℕ)) (room i : ℕ) (scope : List ℕ)
    (slots : List (Option LoopFrame)) (j : ℕ) (loops' : List LoopFrame) : Prop :=
  ∃ scope' slots', Standing scopes j loops' scope' slots' ∧
    IsDershowitzMannaLT (weights room code.span (2 * j) scope' slots')
      (weights room code.span (2 * i) scope slots)

/-- The scope with its slots. -/
theorem length_le (hc : code.Scoped scopes) (h : Standing scopes i loops scope slots)
    (hi : i < Array.size code) : scope.length < code.span := by
  have := hc.length_le h.here
  unfold Code.span
  omega

theorem advance (h : Standing scopes i loops scope slots) (hi : i < Array.size code) (hj : i < j)
    (here : scopes[j]? = some scope) : Lightens code scopes room i scope slots j loops :=
  ⟨scope, slots, ⟨here, h.length, h.loops⟩,
    weights_advance (by omega) (by unfold Code.span; omega)⟩

theorem enter (hc : code.Scoped scopes) (h : Standing scopes i loops scope slots)
    (hi : i < Array.size code) (here : scopes[j]? = some (i :: scope)) (x : LoopFrame) :
    Lightens code scopes room i scope slots j (x :: loops) :=
  ⟨i :: scope, some x :: slots, ⟨here, congrArg (· + 1) h.length, by
    rw [List.reduceOption_cons_of_some, h.loops]⟩,
    weights_enter (by unfold Code.span; omega) (h.length_le hc hi)⟩

/-- The innermost open loop is stepped, or it is dropped. -/
theorem nearer (hc : code.Scoped scopes) {x : LoopFrame} {rest : List LoopFrame}
    (h : Standing scopes i (x :: rest) scope slots) (hi : i < Array.size code)
    (here : scopes[j]? = some scope) (y : Option LoopFrame)
    (hy : turnsLeft y < turnsLeft (some x)) :
    Lightens code scopes room i scope slots j (y.toList ++ rest) := by
  obtain ⟨slots', hn, hlen, hl⟩ := Nearer.exists_of_loops h.loops y hy
  exact ⟨scope, slots', ⟨here, hlen.trans h.length, hl⟩,
    weights_nearer hn h.length (Nat.le_of_lt (h.length_le hc hi))⟩

/-- Control goes on behind the innermost loop of the text, and the innermost open loop is
dropped. -/
theorem leave (hc : code.Scoped scopes) {x : LoopFrame}
    (h : Standing scopes i (x :: loops) scope slots) (hi : i < Array.size code) (hj : i < j)
    (hs : scope ≠ []) (here : scopes[j]? = some scope.tail) :
    Lightens code scopes room i scope slots j loops := by
  cases scope with
  | nil => exact (hs rfl).elim
  | cons m scope =>
    cases slots with
    | nil => cases h.length
    | cons z slots =>
      have hm := hc.earlier h.here m List.mem_cons_self
      have hlen : slots.length = scope.length := Nat.succ.inj h.length
      have hspan := h.length_le hc hi
      have hloops := h.loops
      cases z with
      | some z =>
        rw [List.reduceOption_cons_of_some] at hloops
        exact ⟨scope, slots, ⟨here, hlen, (List.cons.inj hloops).2⟩,
          weights_leave (by omega) (by unfold Code.span; omega) _⟩
      | none =>
        rw [List.reduceOption_cons_of_none] at hloops
        obtain ⟨slots', hn, hlen', hl⟩ :=
          Nearer.exists_of_loops hloops none (Nearer.turnsLeft_none_lt x)
        rw [List.length_cons] at hspan
        exact ⟨scope, slots', ⟨here, hlen'.trans hlen, hl⟩,
          (weights_nearer hn hlen (by omega)).trans (lighter_cons _ _)⟩

/-- An operation that goes on in the word makes it lighter. -/
theorem lighter (hc : code.Scoped scopes) (h : Standing scopes i loops scope slots)
    (hi : i < Array.size code) (hop : op.Heads scopes i scope) (hs : op.Shifts i loops j loops') :
    Lightens code scopes room i scope slots j loops' := by
  cases op with
  | branch t =>
    obtain ⟨rfl, rfl⟩ := hs
    obtain ⟨hj, here⟩ := hop j rfl
    exact h.advance hi hj here
  | branchIfFalse t =>
    obtain ⟨rfl | rfl, rfl⟩ := hs
    · exact h.advance hi (Nat.lt_succ_self i) hop.1
    · obtain ⟨hj, here⟩ := hop.2 j rfl
      exact h.advance hi hj here
  | exit => exact hs.elim
  | callBuiltin _ | callWord _ | push _ | loopIndex _ | recurse =>
    obtain ⟨rfl, rfl⟩ := hs
    exact h.advance hi (Nat.lt_succ_self i) hop
  | loop kind t =>
    cases kind with
    | start direction =>
      obtain ⟨rfl, x, rfl⟩ := hs
      exact h.enter hc hi hop x
    | startUnlessEqual direction =>
      rcases hs with ⟨rfl, x, rfl⟩ | ⟨rfl, rfl⟩
      · exact h.enter hc hi hop.1 x
      · obtain ⟨hj, here⟩ := hop.2 j rfl
        exact h.advance hi hj here
    | next =>
      obtain ⟨x, rest, rfl, ⟨hx, rfl, rfl⟩ | ⟨rfl, rfl⟩⟩ := hs
      · exact h.nearer hc hi (hop.2.2 j rfl) (some _) (turnsLeft_stepped hx)
      · exact h.leave hc hi (Nat.lt_succ_self i) hop.2.1 hop.1
    | nextBy => exact hop.elim
    | leave =>
      obtain ⟨rfl, x, rfl⟩ := hs
      obtain ⟨hj, here⟩ := hop.2 j rfl
      exact h.leave hc hi hj hop.1 here
    | unloop =>
      obtain ⟨rfl, x, rfl⟩ := hs
      exact h.nearer hc hi hop none (Nearer.turnsLeft_none_lt x)

end Standing

/-! ## The words in flight -/

/-- What the running word and its callers weigh, one below the other on the return stack. -/
inductive Weighs (limit : ℕ) : Option CallFrame → List ReturnItem → Multiset Weight → Prop
  | idle {items : List ReturnItem} : Weighs limit none items 0
  | running {f : CallFrame} {items below : List ReturnItem} {caller : Option CallFrame}
    {scopes : List (List ℕ)} {scope : List ℕ} {slots : List (Option LoopFrame)}
    {M : Multiset Weight} (code : f.code.Scoped scopes)
    (stands : Standing scopes f.next (loopsOf items) scope slots)
    (marker : fromMarker items = .call caller :: below) (rest : Weighs limit caller below M) :
    Weighs limit (some f) items
      (weights (limit - markers below) f.code.span (2 * f.next) scope slots + M)

namespace Weighs

variable {limit : ℕ} {f g : CallFrame} {items : List ReturnItem} {M : Multiset Weight}
  {caller : Option CallFrame} {s t : Session}

/-- A word that has just been called is at its beginning, outside of all loops. -/
theorem called (hg : g.code.Counting) (hnext : g.next = 0) (h : Weighs limit caller items M) :
    ∃ K, Weighs limit (some g) (.call caller :: items) (K + M) ∧
      ∀ w ∈ K, ∀ room > limit - markers items, ∀ i t a, w < .of room i t a := by
  obtain ⟨scopes, hc, hstart⟩ := hg
  have stands : Standing scopes g.next (loopsOf (.call caller :: items)) [] [] :=
    ⟨hnext ▸ hstart, rfl, rfl⟩
  exact ⟨_, .running hc stands rfl h,
    fun w hw room hr i t a => lt_of_mem_weights hr hw⟩

/-- A step of the running word makes the words in flight lighter. -/
theorem step {x : Instruction} (h : Weighs limit (some f) items M)
    (hx : f.code[f.next]? = some x) (hi : s.returns.items = items) (hl : s.returns.limit = limit)
    (hp : Session.Proceeds f x.op s t)
    (hg : ∀ g, t.frame = some g → g.next = 0 → g.code.Counting) :
    ∃ M', Weighs limit t.frame t.returns.items M' ∧ IsDershowitzMannaLT M' M := by
  subst hi
  obtain ⟨hlt, -⟩ := Array.getElem?_eq_some_iff.1 hx
  cases h with
  | @running _ _ below caller scopes scope slots M code stands marker rest =>
    have hop := code.heads hx stands.here
    cases hp with
    | goesOn frame hb shifts =>
      obtain ⟨scope', slots', hstands, hlighter⟩ := stands.lighter code hlt hop shifts
      rw [frame]
      exact ⟨_, .running (f := { f with next := _ }) code hstands (hb.marker.trans marker) rest,
        lighter_add hlighter M⟩
    | calls hc hroom hcallee =>
      have here : scopes[f.next + 1]? = some scope := by
        cases hxop : x.op <;> rw [hxop] at hop hcallee <;> first | exact hop | cases hcallee
      have hcaller : Weighs limit (some { f with next := f.next + 1 }) s.returns.items _ :=
        .running (f := { f with next := f.next + 1 }) code ⟨here, stands.length, stands.loops⟩
          marker rest
      obtain ⟨g, hframe, hnext⟩ := hc.frame
      obtain ⟨K, hK, hless⟩ := hcaller.called (hg g hframe hnext) hnext
      rw [hframe, hc.items]
      refine ⟨_, hK, ?_⟩
      rw [← add_assoc]
      refine lighter_add (weights_calls (show 2 * f.next < 2 * (f.next + 1) by omega)
        (show 2 * f.next < 2 * Array.size f.code + 2 by omega) fun w hw => hless w hw _ ?_) M
      have hmarkers : markers s.returns.items = markers below + 1 := by
        rw [← markers_fromMarker, marker]
        rfl
      have hle : markers s.returns.items ≤ s.returns.items.length := by
        rw [← length_held]
        exact List.length_filterMap_le _ _
      omega
    | leaves hexit hleaves =>
      have hm := hleaves.marker
      rw [marker] at hm
      obtain ⟨hcaller, hbelow⟩ := List.cons.inj hm
      rw [← hbelow, ← ReturnItem.call.inj hcaller]
      refine ⟨M, rest, ?_⟩
      have hlighter := lighter_add (lighter_zero (weights_ne_zero (limit - markers below)
        f.code.span (2 * f.next) scope slots)) M
      rwa [zero_add] at hlighter

end Weighs

end StackLang
