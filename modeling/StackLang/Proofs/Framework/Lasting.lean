import StackLang.Proofs.Framework.Respects

/-!
# What a built-in word does not take away

A property of sessions that does not depend on what a built-in word works on lasts while the word
runs, whatever word it is.  Two copies of one session with the property are a pair that the words
cannot tell apart, so nothing is left to prove for any single word.

* `Steady.congruence`: such a property, as a relation that the built-in words respect.
* `Lasting.callBuiltin`: it holds behind a built-in word that ran from a session with it.
-/

namespace StackLang

open Action

/-- The sources are what is left of the tokens of others. -/
def Pending.LeftOver (sources others : List Pending) : Prop :=
  ∀ p ∈ sources, ∃ q ∈ others, p.tokens <:+ q.tokens

theorem Pending.leftOver_cons {p q : Pending} {rest : List Pending} (h : p.tokens <:+ q.tokens) :
    LeftOver (p :: rest) (q :: rest) := by
  intro r hr
  rcases List.mem_cons.1 hr with rfl | hr
  · exact ⟨q, List.mem_cons_self, h⟩
  · exact ⟨r, List.mem_cons_of_mem _ hr, List.suffix_refl _⟩

theorem Pending.suffix_of_nextToken? {p behind : Pending} {t : Token}
    (h : p.nextToken? = some (t, behind)) : behind.tokens <:+ p.tokens := by
  unfold nextToken? at h
  split at h
  · cases h
  · rename_i ht
    cases h
    rw [ht]
    exact List.suffix_cons _ _

/-- A property that does not depend on the workspace and the observers, nor on values that are put
on the return stack, and that stays when tokens of the first source are used up. -/
structure Steady (P : Session → Prop) : Prop where
  write : ∀ {s : Session} (w : Workspace), P s → P (s.setWorkspace w)
  record : ∀ {s : Session} (e : Event), P s → P { s with observers := s.observers.record e }
  source : ∀ {s : Session} {p q : Pending} {rest : List Pending}, s.sources = p :: rest →
    q.tokens <:+ p.tokens → P s → P { s with sources := q :: rest }
  putAside : ∀ {s : Session} {v : Value} {returns : ReturnStack},
    s.returns.push? (.value v) = some returns → P s → P { s with returns }
  takeBack : ∀ {s : Session} {v : Value} {returns : ReturnStack},
    s.returns.popValue? = some (v, returns) → P s → P { s with returns }

/-- Two copies of a session with the property cannot be told apart. -/
theorem Steady.congruence {P : Session → Prop} (hP : Steady P) :
    Congruence fun s t => t = s ∧ P s where
  agree := by
    rintro s t ⟨rfl, -⟩
    exact ⟨rfl, rfl, rfl, rfl, rfl, rfl⟩
  write := by
    rintro s t ⟨rfl, h⟩ w
    exact ⟨rfl, hP.write w h⟩
  record := by
    rintro s t ⟨rfl, h⟩ e
    exact ⟨rfl, hP.record e h⟩
  source := by
    refine Respects.discard ?_
    rintro s t ⟨rfl, h⟩
    unfold currentSource
    cases t.sources with
    | nil => exact .error _ ⟨rfl, h⟩
    | cons source rest => exact .ok _ ⟨rfl, h⟩
  token := by
    rintro s t ⟨rfl, h⟩
    unfold nextToken?
    split
    · exact .ok _ ⟨rfl, h⟩
    · rename_i source rest hs
      split
      · rename_i token behind ht
        exact .ok _ ⟨rfl, hP.source hs (Pending.suffix_of_nextToken? ht) h⟩
      · exact .ok _ ⟨rfl, h⟩
  setDefinition := by
    refine fun d => Respects.modify ?_
    rintro s t ⟨rfl, h⟩
    refine ⟨rfl, ?_⟩
    split
    · rename_i source rest hs
      exact hP.source hs (List.suffix_refl _) h
    · exact h
  pushValue := by
    rintro v s t ⟨rfl, h⟩
    unfold pushReturn
    cases hr : t.returns.push? (.value v) with
    | some returns => exact .ok _ ⟨rfl, hP.putAside hr h⟩
    | none => exact .error _ ⟨rfl, h⟩
  popValue := by
    rintro s t ⟨rfl, h⟩ v returns hr
    exact ⟨returns, hr, rfl, hP.takeBack hr h⟩
  finishWord := by
    rintro name s t ⟨rfl, h⟩
    unfold finishWord
    rw [StackLang.get_bind]
    have hn := hP.record (.complete name t.stack) h
    split
    · exact .ok _ ⟨rfl, hP.record (.acknowledge name) hn⟩
    · exact .ok _ ⟨rfl, hn⟩

/-- A property that does not depend on the workspace and the observers, nor on values that are put
on the return stack, and that stays when tokens of the sources are used up. -/
structure Lasting (P : Session → Prop) : Prop where
  write : ∀ {s : Session} (w : Workspace), P s → P (s.setWorkspace w)
  record : ∀ {s : Session} (e : Event), P s → P { s with observers := s.observers.record e }
  sources : ∀ {s : Session} {sources : List Pending}, Pending.LeftOver sources s.sources → P s →
    P { s with sources }
  putAside : ∀ {s : Session} {v : Value} {returns : ReturnStack},
    s.returns.push? (.value v) = some returns → P s → P { s with returns }
  takeBack : ∀ {s : Session} {v : Value} {returns : ReturnStack},
    s.returns.popValue? = some (v, returns) → P s → P { s with returns }

namespace Lasting

variable {P : Session → Prop} (hP : Lasting P)
include hP

theorem steady : Steady P where
  write := hP.write
  record := hP.record
  source := by
    intro s p q rest hs hq
    refine hP.sources ?_
    rw [hs]
    exact Pending.leftOver_cons hq
  putAside := hP.putAside
  takeBack := hP.takeBack

theorem congruence : Congruence fun s t => t = s ∧ P s :=
  hP.steady.congruence

/-- A built-in word does not take the property away. -/
theorem callBuiltin {name : String} {word : Builtin} {s t : Session} (h : P s)
    (ht : callBuiltin name word s = .ok () t) : P t :=
  (hP.congruence.respects_callBuiltin name word).keeps h ht

end Lasting

end StackLang
