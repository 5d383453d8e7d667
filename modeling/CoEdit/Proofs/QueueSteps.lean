import CoEdit.Proofs.Yields
import CoEdit.Queue

/-!
# What the operations on a queue do

One lemma for each operation on a queue: what it answers to any argument and the queue that it leaves,
whatever the transformer. The only fault is a sum that leaves its range.

An operation that the server applied is taken in, by `serverOp` or by `ackOldest`, if it is timely
(`Queue.Timely`): no echo is due before it and its revision is the next one.
-/

namespace CoEdit

variable {M : Type}

theorem Revision.next_counts {r : Revision} :
    r.next.Counts fun s => r.number + 1 < Checked.limit ∧ s.number = r.number + 1 := by
  unfold Revision.next
  exact Checked.within_map.2 Checked.counts_add

namespace Transformer

variable {x : Transformer M} {client server : List M} {t : Transformed M}

/-- `t` is the client's operations moved past the server's; without any of the client's, the server's
operations stay as they are. -/
def Passes (x : Transformer M) (client server : List M) (t : Transformed M) : Prop :=
  client = [] ∧ t = ⟨[], server⟩ ∨ client ≠ [] ∧ x client server = .ok t

/-- There are operations of a client's to move, and the transformer rejects that. -/
def Refuses (x : Transformer M) (client server : List M) (e : TransformError) : Prop :=
  client ≠ [] ∧ x client server = .error (.rejected e)

theorem Passes.not_refuses {e : TransformError} (h : x.Passes client server t) :
    ¬ x.Refuses client server e := by
  rintro ⟨hne, he⟩
  rcases h with ⟨hnil, -⟩ | ⟨-, ht⟩
  · exact hne hnil
  · rw [ht] at he; cases he

theorem Refuses.unique {e e' : TransformError} (h : x.Refuses client server e)
    (h' : x.Refuses client server e') : e' = e := by
  have heq := h.2
  rw [h'.2] at heq
  cases heq; rfl

theorem Passes.unique {t' : Transformed M} (h : x.Passes client server t)
    (h' : x.Passes client server t') : t' = t := by
  rcases h with ⟨hnil, rfl⟩ | ⟨hne, ht⟩ <;> rcases h' with ⟨hnil', rfl⟩ | ⟨hne', ht'⟩
  · rfl
  · exact absurd hnil hne'
  · exact absurd hnil' hne
  · rw [ht] at ht'; cases ht'; rfl

/-- A list of a client's operations may be changed or grow, but does not become empty. -/
def KeepsClients (x : Transformer M) : Prop :=
  ∀ ⦃client server : List M⦄ ⦃t : Transformed M⦄, x client server = .ok t → client ≠ [] →
    t.client ≠ []

theorem Passes.client_eq_nil (h : x.Passes client server t) (hc : client = []) : t.client = [] := by
  rcases h with ⟨-, rfl⟩ | ⟨hne, -⟩
  · rfl
  · exact absurd hc hne

theorem Passes.client_ne_nil (h : x.Passes client server t) (hx : x.KeepsClients)
    (hc : client ≠ []) : t.client ≠ [] := by
  rcases h with ⟨hnil, -⟩ | ⟨-, ht⟩
  · exact absurd hnil hc
  · exact hx ht hc

theorem run_counts : (x.run client server).Counts fun r =>
    (∃ t, x client server = .ok t ∧ r = .ok t) ∨
      ∃ e, x client server = .error (.rejected e) ∧ r = .error e := by
  unfold run
  cases x client server with
  | ok t => exact .inl ⟨t, rfl, rfl⟩
  | error f =>
    cases f with
    | rejected e => exact .inr ⟨e, rfl, rfl⟩
    | overflow => exact rfl

theorem past_counts : (x.past client server).Counts fun r =>
    (∃ t, x.Passes client server t ∧ r = .ok t) ∨
      ∃ e, x.Refuses client server e ∧ r = .error e := by
  unfold past; split
  · exact .inl ⟨_, .inl ⟨List.isEmpty_iff.1 ‹_›, rfl⟩, rfl⟩
  · have hne : client ≠ [] := by simpa using ‹¬ client.isEmpty = true›
    refine run_counts.mono fun r h => ?_
    rcases h with ⟨t, ht, rfl⟩ | ⟨e, he, rfl⟩
    · exact .inl ⟨t, .inr ⟨hne, ht⟩, rfl⟩
    · exact .inr ⟨e, ⟨hne, he⟩, rfl⟩

end Transformer

namespace Queue

open Transformer

variable {x : Transformer M} {q : Queue M} {op : M} {revision : Revision}

/-- `t` is a new local operation and the pending ones, moved past each other. -/
def Stages (x : Transformer M) (q : Queue M) (op : M) (t : Transformed M) : Prop :=
  q.pending = [] ∧ t = ⟨[op], []⟩ ∨ q.pending ≠ [] ∧ x [op] q.pending = .ok t

theorem Stages.client_ne_nil {t : Transformed M} (h : q.Stages x op t) (hx : x.KeepsClients) :
    t.client ≠ [] := by
  rcases h with ⟨-, rfl⟩ | ⟨-, ht⟩
  · simp
  · exact hx ht (by simp)

theorem clientOp_counts : (q.clientOp x op).Counts fun r =>
    (∃ t, q.Stages x op t ∧
      r = (.ok (), { q with queued := q.queued ++ t.client, pending := t.server })) ∨
    ∃ e, (q.pending ≠ [] ∧ x [op] q.pending = .error (.rejected e)) ∧
      r = (.error (.transform e), { q with pending := [] }) := by
  unfold clientOp; split
  · have hp : q.pending = [] := List.isEmpty_iff.1 ‹_›
    exact .inl ⟨⟨[op], []⟩, .inl ⟨hp, rfl⟩, by rw [hp]⟩
  · have hne : q.pending ≠ [] := by simpa using ‹¬ q.pending.isEmpty = true›
    refine run_counts.bind fun r hr => ?_
    rcases hr with ⟨t, ht, rfl⟩ | ⟨e, he, rfl⟩
    · exact .inl ⟨t, .inr ⟨hne, ht⟩, rfl⟩
    · exact .inr ⟨e, ⟨hne, he⟩, rfl⟩

theorem launch_of_nil (h : q.unacked = []) :
    q.launch = .ok { q with queued := [], unacked := q.queued } := by
  unfold launch; rw [h]; rfl

/-- An operation with this revision is the next one to take in. -/
def Timely (q : Queue M) (revision : Revision) : Prop :=
  q.expectedEchoes = 0 ∧ revision.number = q.revision.number + 1

/-- What an operation is refused for that is not the next one. -/
def Untimely (q : Queue M) (revision : Revision) (e : QueueError) : Prop :=
  q.expectedEchoes ≠ 0 ∧ e = .echoesOutstanding q.expectedEchoes q.revision ∨
    q.expectedEchoes = 0 ∧ ∃ expected, expected.number = q.revision.number + 1 ∧
      revision ≠ expected ∧ e = .revisionGap expected revision

theorem Timely.not_untimely {e : QueueError} (h : q.Timely revision) : ¬ q.Untimely revision e := by
  rintro (⟨hne, -⟩ | ⟨-, expected, hexp, hne, -⟩)
  · exact hne h.1
  · exact hne (Revision.ext (h.2.trans hexp.symm))

theorem Untimely.unique {e e' : QueueError} (h : q.Untimely revision e)
    (h' : q.Untimely revision e') : e' = e := by
  rcases h with ⟨hne, rfl⟩ | ⟨hzero, expected, hexp, -, rfl⟩ <;>
    rcases h' with ⟨hne', rfl⟩ | ⟨hzero', expected', hexp', -, rfl⟩
  · rfl
  · exact absurd hzero' hne
  · exact absurd hzero hne'
  · rw [Revision.ext (hexp.trans hexp'.symm)]

theorem next_counts {α : Type} {k : Checked (Reply M α)} {Q : Reply M α → Prop}
    (hk : q.Timely revision → k.Counts Q) (hu : ∀ e, q.Untimely revision e → Q (.error e, q)) :
    (q.withoutEchoes (q.atNext revision k)).Counts Q := by
  unfold withoutEchoes
  by_cases he : q.expectedEchoes = 0
  · rw [if_pos he]
    unfold atNext
    refine Revision.next_counts.bind fun expected hexp => ?_
    by_cases hr : revision = expected
    · rw [if_pos hr]
      exact hk ⟨he, hr ▸ hexp.2⟩
    · rw [if_neg hr]
      exact hu _ (.inr ⟨he, expected, hexp.2, hr, rfl⟩)
  · rw [if_neg he]
    exact hu _ (.inl ⟨he, rfl⟩)

/-- A transform that stands between an operation of the server and the buffers is rejected. -/
def Rejects (x : Transformer M) (q : Queue M) (op : M) (e : TransformError) : Prop :=
  x.Refuses q.unacked [op] e ∨
    ∃ flight, x.Passes q.unacked [op] flight ∧ x.Refuses q.queued flight.server e

theorem Rejects.not_passes {e : TransformError} {flight rest : Transformed M} (h : q.Rejects x op e)
    (hf : x.Passes q.unacked [op] flight) : ¬ x.Passes q.queued flight.server rest := by
  intro hr
  rcases h with he | ⟨flight', hf', he⟩
  · exact hf.not_refuses he
  · obtain rfl := hf.unique hf'
    exact hr.not_refuses he

theorem Rejects.unique {e e' : TransformError} (h : q.Rejects x op e) (h' : q.Rejects x op e') :
    e' = e := by
  rcases h with he | ⟨flight, hf, he⟩ <;> rcases h' with he' | ⟨flight', hf', he'⟩
  · exact he.unique he'
  · exact absurd he hf'.not_refuses
  · exact absurd he' hf.not_refuses
  · obtain rfl := hf.unique hf'
    exact he.unique he'

theorem serverOp_counts : (q.serverOp x revision op).Counts fun r =>
    (∃ flight rest, q.Timely revision ∧ x.Passes q.unacked [op] flight ∧
      x.Passes q.queued flight.server rest ∧ r = (.ok (), { q with
        revision
        unacked := flight.client
        queued := rest.client
        pending := q.pending ++ rest.server })) ∨
    (∃ e, q.Untimely revision e ∧ r = (.error e, q)) ∨
    ∃ e q', q.Timely revision ∧ q.Rejects x op e ∧ r = (.error (.transform e), q') := by
  unfold serverOp
  refine next_counts (fun ht => ?_) fun e he => .inr (.inl ⟨e, he, rfl⟩)
  refine past_counts.bind fun r₁ h₁ => ?_
  rcases h₁ with ⟨flight, hf, rfl⟩ | ⟨e, he, rfl⟩
  · refine past_counts.bind fun r₂ h₂ => ?_
    rcases h₂ with ⟨rest, hr, rfl⟩ | ⟨e, he, rfl⟩
    · exact .inl ⟨flight, rest, ht, hf, hr, rfl⟩
    · exact .inr (.inr ⟨e, _, ht, .inr ⟨flight, hf, he⟩, rfl⟩)
  · exact .inr (.inr ⟨e, _, ht, .inl he, rfl⟩)

/-- The next echo due is that of the oldest operation confirmed by a response. -/
theorem takeEcho_counts (h : q.expectedEchoes ≤ q.revision.number + 1) :
    (q.takeEcho revision).Counts fun r =>
      q.expectedEchoes = 0 ∧ r = (.ok false, q) ∨
      (∃ k, q.expectedEchoes = k + 1 ∧ revision.number + k = q.revision.number ∧
        r = (.ok true, { q with expectedEchoes := k })) ∨
      ∃ expected, q.expectedEchoes ≠ 0 ∧
        expected.number + q.expectedEchoes = q.revision.number + 1 ∧ revision ≠ expected ∧
        r = (.error (.unexpectedEcho expected revision), q) := by
  unfold takeEcho
  by_cases he : q.expectedEchoes = 0
  · rw [if_pos he]
    exact .inl ⟨he, rfl⟩
  · rw [if_neg he]
    refine Checked.counts_add.bind fun m hm => ?_
    refine (Checked.counts_sub (by omega)).bind fun n hn => ?_
    dsimp only
    by_cases hr : revision = ⟨n⟩
    · rw [if_pos hr]
      have hnum : revision.number = n := congrArg Revision.number hr
      exact .inr (.inl ⟨q.expectedEchoes - 1, by omega, by omega, rfl⟩)
    · rw [if_neg hr]
      exact .inr (.inr ⟨⟨n⟩, he, show n + _ = _ by omega, hr, rfl⟩)

theorem takeEcho_of_zero (he : q.expectedEchoes = 0) : q.takeEcho revision = .ok (.ok false, q) := by
  unfold takeEcho; rw [if_pos he]

theorem takeEcho_of_due {k : Nat} (he : q.expectedEchoes = k + 1)
    (hr : revision.number + k = q.revision.number) : (q.takeEcho revision).Counts fun r =>
      r = (.ok true, { q with expectedEchoes := k }) := by
  refine (takeEcho_counts (by omega)).mono fun r h => ?_
  rcases h with ⟨h0, -⟩ | ⟨k', hk, -, rfl⟩ | ⟨expected, -, hexp, hne, -⟩
  · omega
  · obtain rfl : k' = k := by omega
    rfl
  · exact absurd (Revision.ext (by omega)) hne

theorem ackOldest_counts : (q.ackOldest revision).Counts fun r =>
    (∃ op rest, q.Timely revision ∧ q.unacked = op :: rest ∧
      r = (.ok rest.isEmpty, { q with revision, unacked := rest })) ∨
    (∃ e, q.Untimely revision e ∧ r = (.error e, q)) ∨
    q.Timely revision ∧ q.unacked = [] ∧ r = (.error (.nothingToAck revision), q) := by
  unfold ackOldest
  refine next_counts (fun ht => ?_) fun e he => .inr (.inl ⟨e, he, rfl⟩)
  cases hu : q.unacked with
  | nil => exact .inr (.inr ⟨ht, rfl, rfl⟩)
  | cons op rest => exact .inl ⟨op, rest, ht, rfl, rfl⟩

theorem ackOldest_of_timely {rest : List M} (ht : q.Timely revision) (hu : q.unacked = op :: rest) :
    (q.ackOldest revision).Counts fun r =>
      r = (.ok rest.isEmpty, { q with revision, unacked := rest }) := by
  refine ackOldest_counts.mono fun r h => ?_
  rcases h with ⟨op', rest', -, hu', rfl⟩ | ⟨e, he, -⟩ | ⟨-, hnil, -⟩
  · rw [hu] at hu'; cases hu'; rfl
  · exact absurd he ht.not_untimely
  · rw [hu] at hnil; cases hnil

/-- A batch is confirmed by its response exactly if it reaches from the confirmed revision to the
revision of the response. -/
theorem ackBatch_counts : (q.ackBatch revision).Counts fun r =>
    r = (none, q) ∧ (q.unacked = [] ∨ revision.number ≠ q.revision.number + q.unacked.length) ∨
    q.unacked ≠ [] ∧ revision.number = q.revision.number + q.unacked.length ∧
      r = (some q.unacked, { q with
        revision
        unacked := []
        expectedEchoes := q.expectedEchoes + q.unacked.length }) := by
  unfold ackBatch; split
  · rename_i h
    simp only [Bool.or_eq_true, List.isEmpty_iff, bne_iff_ne, ne_eq, Revision.since_eq_some_iff] at h
    exact .inl ⟨rfl, h⟩
  · rename_i h
    simp only [Bool.or_eq_true, List.isEmpty_iff, bne_iff_ne, not_or, Decidable.not_not,
      Revision.since_eq_some_iff] at h
    refine Checked.counts_add.bind fun n hn => .inr ⟨h.1, h.2, ?_⟩
    rw [hn.2]

end Queue

end CoEdit
