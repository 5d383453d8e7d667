import CoEdit.Proofs.Coherence
import CoEdit.Proofs.Reconciliation

/-!
# What keeps a channel in range

`y.InRange P`: the computation `y` gives an answer with `P`, or ends in a fault that is no sum out of
range. What a call may add up is the number of its next token, the echoes that a response makes due, and
the number after the confirmed revision, which only a delivery calls for (`OutOfRevisions`). If these stay
in range, and so do the positions of the operations that the call moves past each other
(`Call.MovesInRange`), then so does the call (`call_inRange`), and it has an answer (`Run.exists_call`).
-/

namespace CoEdit

variable {M : Type}

namespace Checked

variable {α : Type} {y : Checked α} {P Q : α → Prop}

/-- No sum leaves the range of a counter. -/
abbrev InRange (y : Checked α) (P : α → Prop) : Prop := y.Within (· ≠ .addOverflow) P

theorem InRange.and (h : y.InRange P) (hy : y.Counts Q) : y.InRange fun a => P a ∧ Q a := by
  cases y with
  | ok a => exact ⟨h, hy⟩
  | error f => exact absurd hy h

theorem InRange.exists_ok (h : y.InRange P) (hy : y.Counts Q) : ∃ a, y = .ok a ∧ Q a := by
  cases y with
  | ok a => exact ⟨a, rfl, hy⟩
  | error f => exact absurd hy h

end Checked

theorem TokenSource.mint_inRange {s : TokenSource} (h : s.next + 1 < Checked.limit) :
    s.mint.InRange fun _ => True := by
  rw [mint_eq_ok_iff.2 ⟨h, rfl, rfl⟩]; trivial

namespace Transformer

variable {x : Transformer M} {client server : List M}

theorem run_inRange (hx : x client server ≠ .error .overflow) :
    (x.run client server).InRange fun _ => True := by
  unfold run
  cases h : x client server with
  | ok t => trivial
  | error f =>
    cases f with
    | rejected e => trivial
    | overflow => exact absurd h hx

theorem past_inRange (hx : client ≠ [] → x client server ≠ .error .overflow) :
    (x.past client server).InRange fun _ => True := by
  unfold past; split
  · trivial
  · rename_i hne
    exact run_inRange (hx (by simpa using hne))

end Transformer

namespace Queue

/-- No operation leaves the range of positions when `op` is staged. -/
def StagesInRange (x : Transformer M) (q : Queue M) (op : M) : Prop :=
  q.pending ≠ [] → x [op] q.pending ≠ .error .overflow

/-- No operation leaves the range of positions when `op` is moved past what is in flight and queued. -/
def PassesInRange (x : Transformer M) (q : Queue M) (op : M) : Prop :=
  (q.unacked ≠ [] → x q.unacked [op] ≠ .error .overflow) ∧
    ∀ flight, x.Passes q.unacked [op] flight → q.queued ≠ [] →
      x q.queued flight.server ≠ .error .overflow

variable {x : Transformer M} {q : Queue M} {revision : Revision} {op : M}

theorem PassesInRange.of_empty (hu : q.unacked = []) (hq : q.queued = []) :
    q.PassesInRange x op :=
  ⟨fun h => absurd hu h, fun _ _ h => absurd hq h⟩

theorem clientOp_inRange (hx : q.StagesInRange x op) : (q.clientOp x op).InRange fun _ => True := by
  unfold clientOp; split
  · trivial
  · rename_i hne
    refine (Transformer.run_inRange (hx (by simpa using hne))).bind fun r _ => ?_
    cases r <;> trivial

theorem next_inRange {α : Type} {k : Checked (Reply M α)}
    (hr : q.expectedEchoes = 0 → q.revision.number + 1 < Checked.limit)
    (hk : k.InRange fun _ => True) :
    (q.withoutEchoes (q.atNext revision k)).InRange fun _ => True := by
  unfold withoutEchoes atNext; split
  · rename_i he
    rw [Revision.next_eq_ok_iff.2 ⟨hr he, rfl⟩]
    show Checked.InRange (if revision = ⟨q.revision.number + 1⟩ then k else _) _
    split
    · exact hk
    · trivial
  · trivial

theorem next_overflow {α : Type} {k : Checked (Reply M α)} (he : q.expectedEchoes = 0)
    (hr : Checked.limit ≤ q.revision.number + 1) :
    q.withoutEchoes (q.atNext revision k) = .error .addOverflow := by
  unfold withoutEchoes atNext Revision.next Checked.add
  rw [if_pos he, if_neg (Nat.not_lt.2 hr)]
  rfl

theorem serverOp_inRange (hx : q.PassesInRange x op)
    (hr : q.expectedEchoes = 0 → q.revision.number + 1 < Checked.limit) :
    (q.serverOp x revision op).InRange fun _ => True := by
  unfold serverOp
  refine next_inRange hr ?_
  refine ((Transformer.past_inRange hx.1).and Transformer.past_counts).bind fun r hr => ?_
  rcases hr.2 with ⟨flight, hf, rfl⟩ | ⟨e, -, rfl⟩
  · refine (Transformer.past_inRange (hx.2 flight hf)).bind fun r _ => ?_
    cases r <;> trivial
  · trivial

theorem takeEcho_inRange (he : q.expectedEchoes ≤ q.revision.number)
    (hr : q.revision.number + 1 < Checked.limit) : (q.takeEcho revision).InRange fun _ => True := by
  obtain ⟨r, hr⟩ := exists_takeEcho revision he hr
  rw [hr]; trivial

theorem takeEcho_overflow (he : q.expectedEchoes ≠ 0)
    (hr : ¬ q.revision.number + 1 < Checked.limit) : q.takeEcho revision = .error .addOverflow := by
  unfold takeEcho Checked.add
  rw [if_neg he, if_neg hr]
  rfl

theorem ackOldest_inRange (hr : q.revision.number + 1 < Checked.limit) :
    (q.ackOldest revision).InRange fun _ => True := by
  unfold ackOldest
  refine next_inRange (fun _ => hr) ?_
  split <;> trivial

theorem ackBatch_inRange (he : q.expectedEchoes ≤ q.revision.number)
    (hr : revision.number < Checked.limit) : (q.ackBatch revision).InRange fun _ => True := by
  obtain ⟨r, hr⟩ := exists_ackBatch he hr
  rw [hr]; trivial

end Queue

/-! ### Channels -/

namespace Channel

/-- No operation leaves the range of positions in the transforms that a call needs. -/
def Call.MovesInRange (x : Transformer M) (c : Channel M) : Call M → Prop
  | .send op => c.queue.StagesInRange x op
  | .handle (.incoming _ (.ok d)) => c.session? ≠ some d.session → c.queue.PassesInRange x d.op
  | _ => True

/-- The event is a delivery that the channel cannot place without the number after its revision, and that
number is out of range. -/
def OutOfRevisions (c : Channel M) (event : Event M) : Prop :=
  ∃ token d, event = .incoming token (.ok d) ∧ c.Awaits event ∧
    Checked.limit ≤ c.queue.revision.number + 1 ∧
    (c.session? = some d.session ∨ c.queue.expectedEchoes = 0)

theorem not_outOfRevisions {c : Channel M} {event : Event M}
    (h : c.queue.revision.number + 1 < Checked.limit) : ¬ c.OutOfRevisions event :=
  fun ⟨_, _, _, _, hlimit, _⟩ => Nat.not_lt.2 hlimit h

section
variable {x : Transformer M} {c : Channel M} {phase : Phase} {token id : Token} {revision : Revision}
  {op : M}

theorem enter_inRange : (c.enter phase).InRange fun c' => c' = { c with phase } := by
  unfold enter
  dsimp only; split
  · split
    · exact rfl
    · exact nofun
  · exact nofun

theorem fail_inRange {error : Error} : (c.fail error).InRange fun _ => True := by
  rw [fail_eq]; trivial

theorem transmit_inRange (ht : c.tokens.next + 1 < Checked.limit) : c.transmit.InRange fun _ => True := by
  unfold transmit
  exact (TokenSource.mint_inRange ht).bind fun r _ => enter_inRange.bind fun c' _ => trivial

theorem scheduleSend_inRange (ht : c.tokens.next + 1 < Checked.limit) :
    c.scheduleSend.InRange fun r => r.1.state = c.state := by
  unfold scheduleSend; split
  · rename_i hp
    split
    · exact rfl
    · refine (TokenSource.mint_inRange ht).bind fun r _ => ?_
      show State.allAcked = c.state
      rw [state, hp]; rfl
  · exact rfl

theorem allAcknowledged_inRange (ht : c.tokens.next + 1 < Checked.limit) :
    c.allAcknowledged.InRange fun r => r.1.state = .allAcked := by
  unfold allAcknowledged
  refine enter_inRange.bind fun c' hc' => ?_
  rw [hc']
  exact Checked.Within.bind (scheduleSend_inRange ht) fun r hr => hr

theorem maybeSend_inRange (ht : c.tokens.next + 1 < Checked.limit) :
    (c.maybeSend id).InRange fun _ => True := by
  unfold maybeSend; split
  · split
    · trivial
    · dsimp only; split
      · trivial
      · unfold Queue.launch; split
        · exact transmit_inRange ht
        · exact nofun
  · trivial

theorem scheduleResync_inRange (ht : c.tokens.next + 1 < Checked.limit) :
    c.scheduleResync.InRange fun _ => True := by
  unfold scheduleResync
  exact (TokenSource.mint_inRange ht).bind fun r _ => enter_inRange.bind fun c' _ => trivial

theorem startProbe_inRange (ht : c.tokens.next + 1 < Checked.limit) :
    (c.startProbe id).InRange fun _ => True := by
  unfold startProbe; split
  · split
    · trivial
    · exact (TokenSource.mint_inRange ht).bind fun r _ => enter_inRange.bind fun c' _ => trivial
  · trivial

theorem maybeSynced_of_state (hs : c.state = .allAcked) : c.maybeSynced = c.idle := by
  unfold maybeSynced; split
  · rename_i hp
    rw [state, hp] at hs; cases hs
  · rfl

theorem maybeSynced_inRange (ht : c.tokens.next + 1 < Checked.limit) :
    c.maybeSynced.InRange fun _ => True := by
  unfold maybeSynced; split
  · split
    · trivial
    · split
      · exact (allAcknowledged_inRange ht).mono fun r _ => trivial
      · exact Checked.Within.bind (transmit_inRange ht) fun r _ => trivial
  · trivial

theorem onFailure_inRange {e : ServiceError} (ht : c.tokens.next + 1 < Checked.limit) :
    (c.onFailure e).InRange fun _ => True := by
  cases e with
  | retryable message => exact scheduleResync_inRange ht
  | fatal message => exact fail_inRange

theorem acknowledgeEagerly_inRange {applied base : Revision} {batch : Nat}
    (he : c.queue.expectedEchoes ≤ c.queue.revision.number) (ha : applied.number < Checked.limit)
    (ht : c.tokens.next + 1 < Checked.limit) :
    (c.acknowledgeEagerly applied base batch).InRange fun _ => True := by
  unfold acknowledgeEagerly; split
  · trivial
  · refine (Queue.ackBatch_inRange he ha).bind fun r _ => ?_
    obtain ⟨ops, queue⟩ := r
    cases ops with
    | none => trivial
    | some ops => exact Checked.Within.bind (allAcknowledged_inRange ht) fun r _ => trivial

theorem onSubmitResponse_inRange {result : Except ServiceError Revision}
    (he : c.queue.expectedEchoes ≤ c.queue.revision.number)
    (ha : ∀ applied, result = .ok applied → applied.number < Checked.limit)
    (ht : c.tokens.next + 1 < Checked.limit) :
    (c.onSubmitResponse token result).InRange fun _ => True := by
  unfold onSubmitResponse; split
  · split
    · trivial
    · cases result with
      | ok applied => exact acknowledgeEagerly_inRange he (ha _ rfl) ht
      | error e => exact onFailure_inRange ht
  · trivial

theorem onProbeResponse_inRange {result : Except ServiceError Revision}
    (ht : c.tokens.next + 1 < Checked.limit) :
    (c.onProbeResponse token result).InRange fun _ => True := by
  unfold onProbeResponse; split
  · split
    · trivial
    · cases result with
      | ok revision => exact maybeSynced_inRange ht
      | error e => exact onFailure_inRange ht
  · trivial

theorem onEcho_inRange (he : c.queue.expectedEchoes ≤ c.queue.revision.number)
    (hr : c.queue.revision.number + 1 < Checked.limit) (ht : c.tokens.next + 1 < Checked.limit) :
    (c.onEcho revision op).InRange fun r =>
      r.2.1.state = .allAcked ∨ r.2.1.tokens.next + 1 < Checked.limit := by
  unfold onEcho
  refine ((Queue.takeEcho_inRange he hr).and
    (Queue.takeEcho_counts (Nat.le_succ_of_le he))).bind fun r hr' => ?_
  rcases hr'.2 with ⟨-, rfl⟩ | ⟨k, -, -, rfl⟩ | ⟨expected, -, -, -, rfl⟩
  · refine (Queue.ackOldest_inRange hr).bind fun r _ => ?_
    obtain ⟨answer, queue⟩ := r
    cases answer with
    | error e => exact .inr ht
    | ok emptied =>
      cases emptied with
      | true => exact Checked.Within.bind (allAcknowledged_inRange ht) fun r hs => .inl hs
      | false => exact .inr ht
  · exact .inr ht
  · exact .inr ht

theorem onRemote_inRange (hx : c.queue.PassesInRange x op)
    (hr : c.queue.expectedEchoes = 0 → c.queue.revision.number + 1 < Checked.limit) :
    (c.onRemote x revision op).InRange fun r => r.2.1.tokens = c.tokens := by
  unfold onRemote
  refine (Queue.serverOp_inRange hx hr).bind fun r _ => ?_
  obtain ⟨answer, queue⟩ := r
  cases answer <;> exact rfl

theorem onIncoming_inRange {message : Except ServiceError (Delivery M)}
    (hx : ∀ d, message = .ok d → c.session? ≠ some d.session → c.queue.PassesInRange x d.op)
    (he : c.queue.expectedEchoes ≤ c.queue.revision.number)
    (hr : ¬ c.OutOfRevisions (.incoming token message)) (ht : c.tokens.next + 1 < Checked.limit) :
    (c.onIncoming x token message).InRange fun _ => True := by
  by_cases hl : c.Awaits (.incoming token message)
  · have hlive := hl
    obtain ⟨me, hc⟩ := hl
    cases message with
    | error e =>
      unfold onIncoming
      rw [hc]; dsimp only
      rw [if_neg (not_not_intro rfl)]
      exact fail_inRange
    | ok d =>
      have hnext (hd : c.session? = some d.session ∨ c.queue.expectedEchoes = 0) :
          c.queue.revision.number + 1 < Checked.limit :=
        Nat.lt_of_not_le fun hlimit => hr ⟨token, d, rfl, hlive, hlimit, hd⟩
      have hreceives : (if d.session = me then c.onEcho d.revision d.op
          else c.onRemote x d.revision d.op).InRange fun r =>
            r.2.1.state = .allAcked ∨ r.2.1.tokens.next + 1 < Checked.limit := by
        split
        · rename_i hd
          exact onEcho_inRange he (hnext (.inl (by rw [session?, hc, hd]; rfl))) ht
        · rename_i hd
          have hx := hx d rfl (by simpa [session?, hc, eq_comm] using hd)
          refine (onRemote_inRange hx fun he => hnext (.inr he)).mono fun r htokens => .inr ?_
          rwa [htokens]
      refine onIncoming_within hc hreceives (fun r hs => ?_) fun e r _ => ?_
      · rcases hs with hs | ht
        · rw [maybeSynced_of_state hs]
          trivial
        · exact (maybeSynced_inRange ht).mono fun _ _ => trivial
      · exact fail_inRange.mono fun _ _ => trivial
  · show (c.handle x (.incoming token message)).InRange _
    rw [handle_of_not_awaits hl]
    trivial

/-- The transformer matters only where a delivery of another session comes. -/
theorem handle_inRange {event : Event M}
    (hx : ∀ token d, event = .incoming token (.ok d) → c.session? ≠ some d.session →
      c.queue.PassesInRange x d.op)
    (he : c.queue.expectedEchoes ≤ c.queue.revision.number) (hr : ¬ c.OutOfRevisions event)
    (ht : c.tokens.next + 1 < Checked.limit)
    (ha : ∀ token applied, event = .submitResponse token (.ok applied) →
      applied.number < Checked.limit) : (c.handle x event).InRange fun _ => True := by
  cases event with
  | task task =>
    obtain ⟨id, kind⟩ := task
    cases kind with
    | maybeSend => exact maybeSend_inRange ht
    | resync => exact startProbe_inRange ht
  | submitResponse token result =>
    exact onSubmitResponse_inRange he (fun applied h => ha token applied (by rw [h])) ht
  | probeResponse token result => exact onProbeResponse_inRange ht
  | incoming token message =>
    exact onIncoming_inRange (fun d h => hx token d (by rw [h])) he hr ht

theorem Coherent.exists_handle (h : c.Coherent) (event : Event M)
    (hu : c.state.InFlight → c.queue.unacked ≠ [])
    (hx : ∀ token d, event = .incoming token (.ok d) → c.session? ≠ some d.session →
      c.queue.PassesInRange x d.op)
    (hr : ¬ c.OutOfRevisions event) (ht : c.tokens.next + 1 < Checked.limit)
    (ha : ∀ token applied, event = .submitResponse token (.ok applied) →
      applied.number < Checked.limit) : ∃ r, c.handle x event = .ok r ∧ Reacts x c event r :=
  (handle_inRange hx h.echoes hr ht ha).exists_ok
    ((handle_within h).weaken fun _ hf => hf.eq_addOverflow hu)

theorem connect_inRange {session : Session} (ht : c.tokens.next + 1 < Checked.limit) :
    (c.connect revision session).InRange fun _ => True := by
  unfold connect; split
  · trivial
  · exact (TokenSource.mint_inRange ht).bind fun r _ => enter_inRange.bind fun c' _ => trivial

theorem send_inRange (hx : c.queue.StagesInRange x op) (ht : c.tokens.next + 1 < Checked.limit) :
    (c.send x op).InRange fun _ => True := by
  unfold send; split
  · refine (Queue.clientOp_inRange hx).bind fun r _ => ?_
    obtain ⟨answer, queue⟩ := r
    cases answer with
    | error e => trivial
    | ok u =>
      exact Checked.Within.bind (scheduleSend_inRange (c := { c with queue }) ht) fun r _ => trivial
  · trivial

theorem call_inRange {call : Call M} (hx : call.MovesInRange x c)
    (he : c.queue.expectedEchoes ≤ c.queue.revision.number)
    (hr : ∀ event, call = .handle event → ¬ c.OutOfRevisions event)
    (ht : c.tokens.next + 1 < Checked.limit)
    (ha : ∀ token applied, call = .handle (.submitResponse token (.ok applied)) →
      applied.number < Checked.limit) : (c.call x call).InRange fun _ => True := by
  cases call with
  | connect revision session => exact Checked.within_map.2 (connect_inRange ht)
  | disconnect =>
    refine Checked.within_map.2 ?_
    unfold disconnect; split <;> trivial
  | send op => exact Checked.within_map.2 (send_inRange hx ht)
  | peek => trivial
  | receive => trivial
  | handle event =>
    refine Checked.within_map.2 ?_
    refine handle_inRange (fun token d heq hd => ?_) he (hr event rfl) ht fun token applied h => ?_
    · rw [heq] at hx
      exact hx hd
    · exact ha token applied (by rw [h])

/-- As long as there is another token to give out, and another revision if a delivery calls for it, every
call is answered. -/
theorem Run.exists_call {log : List (Turn M)} {call : Call M} (h : Run x log c) (hk : x.KeepsClients)
    (hx : call.MovesInRange x c) (hr : ∀ event, call = .handle event → ¬ c.OutOfRevisions event)
    (ht : c.tokens.next + 1 < Checked.limit)
    (ha : ∀ token applied, call = .handle (.submitResponse token (.ok applied)) →
      applied.number < Checked.limit) :
    ∃ r, c.call x call = .ok r ∧ Does x c call r.1 r.2 :=
  (call_inRange hx h.coherent.echoes hr ht ha).exists_ok (h.coherent.call_counts (h.fed hk) call)

end

end Channel

end CoEdit
