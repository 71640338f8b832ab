import StackLang.Proofs.Saved.Consuming

/-!
# Built-in words in their places

A saved session is written with built-in words, so it can only be read where those are found by
their names.

* `Dictionary.Standard`: every built-in word is found by its name.
* `standard_push`: other names do not hide them.
-/

namespace StackLang

open Session

namespace Dictionary

/-- The name of the built-in word means that word. -/
def Finds (d : Dictionary) (w : Builtin) : Prop :=
  ∃ index e, d.find? w.spec.name = some (index, e) ∧ e.body = .builtin w ∧
    e.immediate = (w.spec.role != .plain) ∧ e.compileOnly = (w.spec.role == .compileOnly)

/-- Every built-in word is found by its name. -/
def Standard (d : Dictionary) : Prop :=
  ∀ w, d.Finds w

variable {d : Dictionary} {w : Builtin}

theorem uppercase_specName (w : Builtin) : Text.uppercase w.spec.name = w.spec.name := by
  have h : ∀ w ∈ Builtin.all, Text.uppercase w.spec.name = w.spec.name := by decide +kernel
  exact h w (Builtin.mem_all w)

theorem finds_push (h : d.Finds w) {e : Entry} (hn : e.name ≠ w.spec.name) :
    (d.push e).Finds w := by
  obtain ⟨index, x, hf, hx⟩ := h
  refine ⟨index, x, ?_, hx⟩
  rw [find?_push, if_neg, hf]
  simp [answers, uppercase_specName, hn]

theorem finds_insert (d : Dictionary) (w : Builtin) : (d.insert (.ofBuiltin w)).2.Finds w := by
  rw [insert_eq_push]
  refine ⟨d.size, (Entry.ofBuiltin w).inserted d.size, ?_, rfl, rfl, rfl⟩
  rw [find?_push, if_pos]
  simp [answers, Entry.inserted, Entry.ofBuiltin, Entry.ofBody, uppercase_specName]

theorem standard_builtins : builtins.Standard := by
  have kept (words : List Builtin) (d : Dictionary) (w : Builtin) (h : d.Finds w)
      (hn : w.spec.name ∉ words.map (·.spec.name)) :
      Finds (words.foldl (fun d word => (d.insert (.ofBuiltin word)).2) d) w := by
    induction words generalizing d with
    | nil => exact h
    | cons word words ih =>
      rw [List.map_cons, List.mem_cons, not_or] at hn
      refine ih _ (finds_push h ?_) hn.2
      simpa [Entry.ofBuiltin, Entry.ofBody, uppercase_specName] using Ne.symm hn.1
  have found (words : List Builtin) (d : Dictionary) (h : (words.map (·.spec.name)).Nodup)
      (w : Builtin) (hw : w ∈ words) :
      Finds (words.foldl (fun d word => (d.insert (.ofBuiltin word)).2) d) w := by
    induction words generalizing d with
    | nil => cases hw
    | cons word words ih =>
      rw [List.map_cons, List.nodup_cons] at h
      rcases List.mem_cons.1 hw with rfl | hw
      · exact kept words _ w (finds_insert d w) h.1
      · exact ih _ h.2 hw
  exact fun w => found _ _ Builtin.nodup_names w (Builtin.mem_all w)

/-- A word of another name hides no built-in one. -/
theorem standard_push (h : d.Standard) {e : Entry} (hn : ∀ w : Builtin, e.name ≠ w.spec.name) :
    (d.push e).Standard :=
  fun w => finds_push (h w) (hn w)

/-- Places do not matter. -/
theorem standard_unplaced : d.unplaced.Standard ↔ d.Standard := by
  refine forall_congr' fun w => ⟨fun h => ?_, fun h => ?_⟩
  · obtain ⟨index, x, hf, hb, hi, hc⟩ := h
    rw [find?_unplaced] at hf
    obtain ⟨⟨j, e⟩, he, hx⟩ := Option.map_eq_some_iff.1 hf
    cases hx
    exact ⟨_, e, he, Entry.body_unplaced_eq_builtin.1 hb, hi, hc⟩
  · obtain ⟨index, e, hf, hb, hi, hc⟩ := h
    refine ⟨index, e.unplaced, ?_, Entry.body_unplaced_eq_builtin.2 hb, hi, hc⟩
    rw [find?_unplaced, hf]
    rfl

end Dictionary

namespace Action

variable {s : Session} {token : Token} {w : Builtin}

theorem runs_of_finds (h : s.dictionary.Finds w) (hx : token.lexeme = .word w.spec.name)
    (hw : w.spec.role ≠ .compileOnly) : Runs s token w := by
  obtain ⟨index, e, hf, hb, -, hc⟩ := h
  exact ⟨_, index, e, hx, hf, hb, hc.trans (beq_eq_false_iff_ne.2 hw)⟩

theorem runs_of_standard (hd : s.dictionary.Standard) (hx : token.lexeme = .word w.spec.name)
    (hw : w.spec.role ≠ .compileOnly) : Runs s token w :=
  runs_of_finds (hd w) hx hw

end Action

end StackLang
