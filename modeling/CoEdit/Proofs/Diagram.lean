import CoEdit.Proofs.QueueSteps

/-!
# The diagram of a queue

Operations of type `M` change documents of type `D` where they can (`act`). A transformer converges
if the two ways around a pair of lists end in one document (`Transformer.Converges`). A queue then
keeps the diagram

    base —unacked, queued→ · ←pending— local

(`Queue.Meets`): what follows the confirmed document on the client's side and what the client has not
taken in yet end in one document. Every operation on a queue keeps the diagram, with the confirmed or
the local document moved on as the operation says. Nothing here depends on what operations are.
-/

namespace CoEdit

variable {D M ε : Type} {act : D → M → Except ε D}

theorem Except.bind_eq_ok_iff {α β : Type} {x : Except ε α} {f : α → Except ε β} {b : β} :
    x >>= f = .ok b ↔ ∃ a, x = .ok a ∧ f a = .ok b := by
  cases x with
  | error e => exact ⟨nofun, fun ⟨_, h, _⟩ => nomatch h⟩
  | ok a => exact ⟨fun h => ⟨a, rfl, h⟩, fun ⟨_, h, h'⟩ => by cases h; exact h'⟩

/-- Lets operations act one after another. -/
def acts (act : D → M → Except ε D) (d : D) (ops : List M) : Except ε D := ops.foldlM act d

@[simp] theorem acts_nil {d : D} : acts act d [] = .ok d := rfl

theorem acts_cons_eq_ok_iff {d d' : D} {op : M} {ops : List M} :
    acts act d (op :: ops) = .ok d' ↔ ∃ d₁, act d op = .ok d₁ ∧ acts act d₁ ops = .ok d' := by
  unfold acts; rw [List.foldlM_cons, Except.bind_eq_ok_iff]

theorem acts_append_eq_ok_iff {d d' : D} {as bs : List M} :
    acts act d (as ++ bs) = .ok d' ↔ ∃ d₁, acts act d as = .ok d₁ ∧ acts act d₁ bs = .ok d' := by
  unfold acts; rw [List.foldlM_append, Except.bind_eq_ok_iff]

theorem acts_singleton_eq_ok_iff {d d' : D} {op : M} :
    acts act d [op] = .ok d' ↔ act d op = .ok d' := by
  simp [acts_cons_eq_ok_iff]

namespace Transformer

/-- The two ways around lists that act on one document end in one document. -/
def Converges (act : D → M → Except ε D) (x : Transformer M) : Prop :=
  ∀ {d dc ds : D} {client server : List M} {t : Transformed M}, x client server = .ok t →
    acts act d client = .ok dc → acts act d server = .ok ds →
    ∃ d', acts act dc t.server = .ok d' ∧ acts act ds t.client = .ok d'

/-- `t` is the two lists moved past each other, where an empty list leaves the other as it is. -/
def Moves (x : Transformer M) (client server : List M) (t : Transformed M) : Prop :=
  x client server = .ok t ∨ (client = [] ∨ server = []) ∧ t = ⟨client, server⟩

variable {x : Transformer M} {client server : List M} {t : Transformed M}

theorem Converges.moves (hx : x.Converges act) {d dc ds : D} (ht : x.Moves client server t)
    (hc : acts act d client = .ok dc) (hs : acts act d server = .ok ds) :
    ∃ d', acts act dc t.server = .ok d' ∧ acts act ds t.client = .ok d' := by
  rcases ht with ht | ⟨rfl | rfl, rfl⟩
  · exact hx ht hc hs
  · cases hc; exact ⟨ds, hs, rfl⟩
  · cases hs; exact ⟨dc, rfl, hc⟩

theorem Passes.moves (h : x.Passes client server t) : x.Moves client server t := by
  rcases h with ⟨rfl, rfl⟩ | ⟨-, ht⟩
  · exact .inr ⟨.inl rfl, rfl⟩
  · exact .inl ht

end Transformer

namespace Queue

open Transformer

variable {x : Transformer M} {q : Queue M} {base doc : D} {op : M} {revision : Revision}

theorem Stages.moves {t : Transformed M} (h : q.Stages x op t) : x.Moves [op] q.pending t := by
  rcases h with ⟨hp, rfl⟩ | ⟨-, ht⟩
  · exact .inr ⟨.inr hp, by rw [hp]⟩
  · exact .inl ht

/-- The confirmed document followed by the client's operations and the local document followed by the
pending ones are one document. -/
def Meets (act : D → M → Except ε D) (q : Queue M) (base doc : D) : Prop :=
  ∃ d, acts act base (q.unacked ++ q.queued) = .ok d ∧ acts act doc q.pending = .ok d

namespace Meets

variable {base' doc' : D} {t flight rest : Transformed M}

theorem of_eq {q' : Queue M} (h : q.Meets act base doc)
    (hl : q'.unacked ++ q'.queued = q.unacked ++ q.queued) (hp : q'.pending = q.pending) :
    q'.Meets act base doc := by
  obtain ⟨d, h₁, h₂⟩ := h
  exact ⟨d, by rw [hl]; exact h₁, by rw [hp]; exact h₂⟩

/-- A new local operation, with the pending ones moved past it. -/
theorem clientOp (hx : x.Converges act) (h : q.Meets act base doc) (hop : act doc op = .ok doc')
    (ht : x.Moves [op] q.pending t) :
    Meets act { q with queued := q.queued ++ t.client, pending := t.server } base doc' := by
  obtain ⟨d, h₁, h₂⟩ := h
  obtain ⟨d', h₃, h₄⟩ := hx.moves ht (acts_singleton_eq_ok_iff.2 hop) h₂
  refine ⟨d', ?_, h₃⟩
  rw [← List.append_assoc]
  exact acts_append_eq_ok_iff.2 ⟨d, h₁, h₄⟩

/-- The next operation of another client, moved past the batch in flight and past what is queued. -/
theorem serverOp (hx : x.Converges act) (h : q.Meets act base doc) (hop : act base op = .ok base')
    (hf : x.Moves q.unacked [op] flight) (hr : x.Moves q.queued flight.server rest) :
    Meets act { q with
      revision
      unacked := flight.client
      queued := rest.client
      pending := q.pending ++ rest.server } base' doc := by
  obtain ⟨d, h₁, h₂⟩ := h
  obtain ⟨d₁, hu, hq⟩ := acts_append_eq_ok_iff.1 h₁
  obtain ⟨d₂, h₃, h₄⟩ := hx.moves hf hu (acts_singleton_eq_ok_iff.2 hop)
  obtain ⟨d₃, h₅, h₆⟩ := hx.moves hr hq h₃
  exact ⟨d₃, acts_append_eq_ok_iff.2 ⟨d₂, h₄, h₆⟩, acts_append_eq_ok_iff.2 ⟨d, h₂, h₅⟩⟩

theorem ack {as bs : List M} {n : Nat} (h : q.Meets act base doc) (hu : q.unacked = as ++ bs)
    (hb : acts act base as = .ok base') :
    Meets act { q with revision, unacked := bs, expectedEchoes := n } base' doc := by
  obtain ⟨d, h₁, h₂⟩ := h
  rw [hu, List.append_assoc] at h₁
  obtain ⟨d₁, h₃, h₄⟩ := acts_append_eq_ok_iff.1 h₁
  rw [hb] at h₃; cases h₃
  exact ⟨d, h₄, h₂⟩

theorem drain (h : q.Meets act base doc) :
    ∃ d, acts act doc q.pending = .ok d ∧ Meets act { q with pending := [] } base d := by
  obtain ⟨d, h₁, h₂⟩ := h
  exact ⟨d, h₂, d, h₁, rfl⟩

theorem unacked (h : q.Meets act base doc) : ∃ d, acts act base q.unacked = .ok d := by
  obtain ⟨d, h₁, -⟩ := h
  obtain ⟨d₁, h₃, -⟩ := acts_append_eq_ok_iff.1 h₁
  exact ⟨d₁, h₃⟩

end Meets

end Queue

end CoEdit
