import CoEdit.Proofs.Interleaving

/-!
# Runs in any order

`Run s₀ log s`: from `s₀` the state `s` is reached by acts in some order, and `log` lists the submits
that were made on the way. A submit shows in the server's counters, whatever becomes of it. What holds of
every run that starts from nothing (`Fresh`) is derived from the invariant.
-/

namespace CoEdit.Simulation

variable {R : Type}

/-- Nothing has happened yet: the clients have sites and sessions of their own and never connected. -/
structure Fresh (s : Simulation R) : Prop where
  network : ∃ faults random, s.network = .start faults (s.editors.map (·.session)) random
  pristine : ∀ e ∈ s.editors, e.channel = {} ∧ e.doc = {} ∧ e.made = 0 ∧ e.acked = [] ∧ e.errors = []
  sites : (s.editors.map (·.site)).Nodup
  sessions : (s.editors.map (·.session)).Nodup

theorem Fresh.inv {s : Simulation R} (h : s.Fresh) : Inv (s.editors.map Editor.face) s quiet := by
  obtain ⟨faults, random, hn⟩ := h.network
  refine ⟨rfl, ?_, ?_, ?_, fun d hd => ?_, fun i e he => ⟨{}, { session := e.session }, ?_, ?_, rfl, ?_⟩⟩
  · rw [List.map_map]; exact h.sites
  · rw [List.map_map]; exact h.sessions
  · rw [hn]; exact ⟨rfl, (fun _ _ h => nomatch h), rfl, rfl⟩
  · rw [hn] at hd; cases hd
  · rw [hn]
    show ((s.editors.map _).map _)[i]? = _
    rw [List.getElem?_map, List.getElem?_map, he]; rfl
  · rw [hn]
    show ((s.editors.map _).map _)[i]? = _
    rw [List.getElem?_map, List.getElem?_map, he]; rfl
  · obtain ⟨hc, hd, hm, ha, he⟩ := h.pristine e (List.mem_of_getElem? he)
    refine .inr ⟨rfl, rfl, ⟨hc, hd, hm, ha, he, Timeline.sound_empty, rfl⟩, ?_⟩
    rw [hn]; exact absent_nil

/-- A submit of a client, by the labels of the operations in its batch. -/
structure Submission where
  client : Nat
  batch : List (Nat × Nat)
  /-- The client's channel counted it as a resend. -/
  again : Bool
  /-- It was dropped before it was applied. -/
  lost : Bool
  /-- What the history went on by. -/
  applied : List (Nat × Nat)
deriving DecidableEq, Repr

/-- The submit that an act of client `i` led to, if any. -/
def submitted (s : Simulation R) (i : Nat) (s' : Simulation R) : List Submission :=
  let before := s.network.server
  let after := s'.network.server
  match s.editors[i]?, s'.editors[i]? with
  | some e, some e' =>
    if after.stats.submits = before.stats.submits then []
    else [{
      client := i
      batch := e'.channel.queue.unacked.map CharOp.label
      again := e'.channel.stats.resends ≠ e.channel.stats.resends
      lost := after.stats.droppedBeforeApply ≠ before.stats.droppedBeforeApply
      applied := (after.history.drop before.history.length).map (·.op.label) }]
  | _, _ => []

variable [RandomSource R] {s₀ s s' : Simulation R} {log : List Submission} {i : Nat} {e : Editor R}

inductive Run (s₀ : Simulation R) : List Submission → Simulation R → Prop
  | start : Run s₀ [] s₀
  | act {log s s' a} : Run s₀ log s → s.Allowed a → s.act a = .ok s' →
    Run s₀ (log ++ s.submitted a.client s') s'

theorem Run.inv (h : Run s₀ log s) (h₀ : s₀.Fresh) : Inv (s₀.editors.map Editor.face) s quiet := by
  induction h with
  | start => exact h₀.inv
  | act _ ha hact ih => exact ((ih.act ha).of_ok hact).inv

/-! ### Runs that are computed -/

/-- The log and the state that acts lead to, if all of them are allowed and none ends the run. -/
def follow (s : Simulation R) : List (Act R) → Option (List Submission × Simulation R)
  | [] => some ([], s)
  | a :: as =>
    if s.Allowed a then
      match s.act a with
      | .ok s' => (s'.follow as).map fun (log, s'') => (s.submitted a.client s' ++ log, s'')
      | .error _ => none
    else none

theorem Run.follow (h : Run s₀ log s) {as : List (Act R)} {more : List Submission}
    (hf : s.follow as = some (more, s')) : Run s₀ (log ++ more) s' := by
  induction as generalizing log s more with
  | nil => cases hf; rwa [List.append_nil]
  | cons a as ih =>
    unfold Simulation.follow at hf
    split at hf
    · rename_i ha
      cases hact : s.act a with
      | error f => rw [hact] at hf; cases hf
      | ok s₁ =>
        rw [hact] at hf
        obtain ⟨⟨rest, s₂⟩, hrest, heq⟩ := Option.map_eq_some_iff.1 hf
        cases heq
        rw [← List.append_assoc]
        exact ih (h.act ha hact) hrest
    · cases hf

/-- What can be checked of a run that is computed. -/
theorem Run.exists_of_follow (s₀ : Simulation R) (as : List (Act R)) (i : Nat)
    (P : List Submission → Simulation R → Editor R → Bool)
    (h : (s₀.follow as).any (fun r => r.2.editors[i]?.any (P r.1 r.2)) = true) :
    ∃ log s e, Run s₀ log s ∧ s.editors[i]? = some e ∧ P log s e = true := by
  cases hf : s₀.follow as with
  | none => rw [hf] at h; cases h
  | some r =>
    rw [hf] at h
    cases he : r.2.editors[i]? with
    | none => rw [Option.any_some, he] at h; cases h
    | some e =>
      rw [Option.any_some, he] at h
      exact ⟨r.1, r.2, e, Run.start.follow hf, he, h⟩

/-- A source that draws one word again and again. -/
structure Steady where
  word : UInt32
deriving Repr

instance : RandomSource Steady where
  next r := (r.word, r)

/-- Two clients that have not connected yet. All fractions drawn are `word` of `2 ^ 32`. -/
def pair (word : UInt32) : Simulation Steady where
  workload := {}
  network := .start {} [sessionOf 1, sessionOf 2] ⟨word⟩
  editors := [1, 2].map fun site =>
    { site, session := sessionOf site, backoff := { policy := {}, random := ⟨word⟩ }, nextEdit := none }
  random := ⟨word⟩

theorem fresh_pair (word : UInt32) : (pair word).Fresh := by
  refine ⟨⟨_, _, rfl⟩, fun e he => ?_, ?_, ?_⟩
  · obtain ⟨site, -, rfl⟩ := List.mem_map.1 he
    exact ⟨rfl, rfl, rfl, rfl, rfl⟩
  · show [1, 2].Nodup
    decide
  · show [sessionOf 1, sessionOf 2].Nodup
    decide

end CoEdit.Simulation
