import CoEdit.Proofs.EchoRace
import CoEdit.Proofs.Isolation

/-!
# Revisions up to the last one

A channel confirms no revision that it was not told: by its caller when it connected, in a response or in
a delivery (`Does.revision_eq`). So if it is told 64-bit numbers, its revision is one
(`Run.revision_lt`), however far responses and deliveries take it.

Whatever the revisions are, a call is then answered, an echo of what a response confirmed is recognised,
and a delivery that does not fit ends the session with a report (`Withstands`). The one exception is a
delivery that the channel places by the number after its own revision when that is the last one there is
(`Run.withstands_iff`): an own delivery, or any one while no echoes are due.
-/

namespace CoEdit

variable {M : Type}

namespace Channel

/-- The revision that a call brings to a channel. -/
def Call.revision? : Call M → Option Revision
  | .connect revision _ => some revision
  | .handle (.submitResponse _ (.ok revision)) => some revision
  | .handle (.probeResponse _ (.ok revision)) => some revision
  | .handle (.incoming _ (.ok d)) => some d.revision
  | _ => none

/-- What a call brings as a revision is a 64-bit number. -/
def Call.Sized (call : Call M) : Prop :=
  ∀ revision ∈ call.revision?, revision.number < Checked.limit

instance (call : Call M) : Decidable call.Sized :=
  inferInstanceAs (Decidable (∀ revision ∈ call.revision?, revision.number < Checked.limit))

/-- The call is answered. If it hands over a delivery of the session, the echo of what a response
confirmed only makes one echo less due, and anything out of place ends the session with a report. -/
structure Withstands (x : Transformer M) (c : Channel M) (call : Call M) : Prop where
  answers : ∃ r, c.call x call = .ok r ∧ Does x c call r.1 r.2
  recognises : ∀ link d k, c.connection = some link → call = .handle (.incoming link.token (.ok d)) →
    d.session = link.session → c.queue.expectedEchoes = k + 1 →
    d.revision.number + k = c.queue.revision.number →
    c.call x call = .ok (.handled, { c with
      queue := { c.queue with expectedEchoes := k }
      stats := { c.stats with duplicateAcks := c.stats.duplicateAcks + 1 } }, [])
  reports : ∀ link d error, c.connection = some link →
    call = .handle (.incoming link.token (.ok d)) → Breaks x c.queue link.session (.ok d) error →
    c.call x call = .ok (.handled, c.closed, c.phase.release ++ [.unsubscribe, .failed error])
  misplaced : ∀ link d, c.connection = some link → call = .handle (.incoming link.token (.ok d)) →
    ¬ c.queue.Timely d.revision → (d.session = link.session → ∀ k, c.queue.expectedEchoes = k + 1 →
      d.revision.number + k ≠ c.queue.revision.number) →
    ∃ e, c.call x call =
      .ok (.handled, c.closed, c.phase.release ++ [.unsubscribe, .failed (.queue e)])

section
variable {x : Transformer M} {c : Channel M} {r : Reaction M} {me : Session} {d : Delivery M}
  {event : Event M} {call : Call M} {reply : Reply M} {log : List (Turn M)}

theorem Syncs.revision_eq (h : c.Syncs r) : r.1.queue.revision = c.queue.revision := by
  cases h <;> rfl

theorem Accepts.revision_eq (h : Accepts x c me d r) :
    r.1.queue.revision = c.queue.revision ∨ r.1.queue.revision = d.revision := by
  cases h with
  | recognises => exact .inl rfl
  | _ => exact .inr rfl

theorem Reacts.revision_eq (h : Reacts x c event r) :
    r.1.queue.revision = c.queue.revision ∨ r.1.queue.revision = .zero ∨
      (Call.handle event).revision? = some r.1.queue.revision := by
  cases h with
  | confirms => exact .inr (.inr rfl)
  | learns hp hs => exact .inl hs.revision_eq
  | givesUp => exact .inr (.inl rfl)
  | breaks => exact .inr (.inl rfl)
  | accepts hc ha hs =>
    dsimp only
    rw [hs.revision_eq]
    exact ha.revision_eq.imp id fun hd => .inr (congrArg some hd.symm)
  | _ => exact .inl rfl

/-- A call leaves the revision as it is, ends the session, or moves to the revision that it brings. -/
theorem Does.revision_eq (h : Does x c call reply r) :
    r.1.queue.revision = c.queue.revision ∨ r.1.queue.revision = .zero ∨
      call.revision? = some r.1.queue.revision := by
  cases h with
  | connects => exact .inr (.inr rfl)
  | disconnects => exact .inr (.inl rfl)
  | rejects => exact .inr (.inl rfl)
  | reacts h => exact h.revision_eq
  | _ => exact .inl rfl

theorem Run.revision_lt (h : Run x log c) (hlog : ∀ t ∈ log, t.call.Sized) :
    c.queue.revision.number < Checked.limit := by
  induction h with
  | new => exact (by decide : 0 < Checked.limit)
  | @turn log c reply c' es call h hcall ih =>
    have hd : Does x c call reply (c', es) := (call_within h.coherent call).of_ok hcall
    have hsized : call.Sized := hlog _ (List.mem_append_right _ (.head _))
    rcases hd.revision_eq with heq | heq | heq
    · rw [heq]
      exact ih fun t ht => hlog t (List.mem_append_left _ ht)
    · rw [heq]
      decide
    · exact hsized _ heq

theorem exists_breaks {q : Queue M} (he : q.expectedEchoes ≤ q.revision.number)
    (ht : ¬ q.Timely d.revision) (hdue : d.session = me → ∀ k, q.expectedEchoes = k + 1 →
      d.revision.number + k ≠ q.revision.number) : ∃ e, Breaks x q me (.ok d) (.queue e) := by
  by_cases hnone : q.expectedEchoes = 0
  · refine ⟨_, .untimely (fun _ => hnone) (.inr ⟨hnone, ⟨q.revision.number + 1⟩, rfl, ?_, rfl⟩)⟩
    intro heq
    exact ht ⟨hnone, congrArg Revision.number heq⟩
  · by_cases hd : d.session = me
    · let expected : Revision := ⟨q.revision.number + 1 - q.expectedEchoes⟩
      have hexp : expected.number + q.expectedEchoes = q.revision.number + 1 :=
        Nat.sub_add_cancel (Nat.le_succ_of_le he)
      refine ⟨_, .strayEcho hd hnone hexp fun heq => ?_⟩
      refine hdue hd (q.expectedEchoes - 1) (by omega) ?_
      rw [heq]
      omega
    · exact ⟨_, .untimely (fun hme => absurd hme hd) (.inl ⟨hnone, rfl⟩)⟩

theorem handle_of_outOfRevisions (h : c.OutOfRevisions event) :
    c.handle x event = .error .addOverflow := by
  obtain ⟨token, d, rfl, ⟨me, hc⟩, hlimit, hplace⟩ := h
  show c.onIncoming x token (.ok d) = _
  have hsession : c.session? = some me := by rw [session?, hc]; rfl
  unfold onIncoming
  rw [hc]; dsimp only
  rw [if_neg (not_not_intro rfl)]
  by_cases hd : d.session = me
  · rw [if_pos hd]
    unfold onEcho
    by_cases he : c.queue.expectedEchoes = 0
    · have hack : c.queue.ackOldest d.revision = .error .addOverflow := Queue.next_overflow he hlimit
      rw [Queue.takeEcho_of_zero he]
      show (c.queue.ackOldest d.revision >>= _) >>= _ = _
      rw [hack]; rfl
    · rw [Queue.takeEcho_overflow he (Nat.not_lt.2 hlimit)]
      rfl
  · rw [if_neg hd]
    have he : c.queue.expectedEchoes = 0 := by
      refine hplace.resolve_left fun heq => hd ?_
      rw [hsession] at heq
      cases heq; rfl
    have hserver : c.queue.serverOp x d.revision d.op = .error .addOverflow :=
      Queue.next_overflow he hlimit
    unfold onRemote
    rw [hserver]; rfl

theorem Coherent.withstands (h : c.Coherent)
    (hr : ∃ r, c.call x call = .ok r ∧ Does x c call r.1 r.2) : Withstands x c call := by
  have hreports (link d error) (hc : c.connection = some link)
      (hcall : call = .handle (.incoming link.token (.ok d)))
      (hb : Breaks x c.queue link.session (.ok d) error) : c.call x call =
        .ok (.handled, c.closed, c.phase.release ++ [.unsubscribe, .failed error]) := by
    obtain ⟨⟨reply, r⟩, hr, hd⟩ := hr
    subst hcall
    have heq := ((h.ends hc).breaks _ _ hb).of_ok hr
    cases hd with
    | unconnected hconn => rw [hc] at hconn; cases hconn
    | reacts => rw [hr, ← heq]
  refine ⟨hr, fun link d k hc hcall hd he hk => ?_, hreports, fun link d hc hcall ht hdue => ?_⟩
  · obtain ⟨⟨reply, r⟩, hr, hdoes⟩ := hr
    subst hcall
    cases hdoes with
    | unconnected hconn => rw [hc] at hconn; cases hconn
    | reacts hreacts =>
      obtain ⟨revision, session, op⟩ := d
      obtain rfl : session = link.session := hd
      obtain rfl : r = _ := hreacts.of_expected_echo hc he hk h.lags
      exact hr
  · obtain ⟨e, hb⟩ := exists_breaks (x := x) h.echoes ht hdue
    exact ⟨e, hreports link d _ hc hcall hb⟩

/-- Whatever revisions a channel was told and is told now, it withstands every call, unless it is at the
last revision there is and is handed a delivery that it places by the number after that. -/
theorem Run.withstands_iff (h : Run x log c) (hlog : ∀ t ∈ log, t.call.Sized) (hk : x.KeepsLengths)
    (hx : call.MovesInRange x c) (hcall : call.Sized) (ht : c.tokens.next + 1 < Checked.limit) :
    c.queue.revision.number < Checked.limit ∧
    (Withstands x c call ↔ ∀ event, call = .handle event → ¬ c.OutOfRevisions event) ∧
    ∀ event, c.OutOfRevisions event → c.call x (.handle event) = .error .addOverflow := by
  have hfault (event) (hout : c.OutOfRevisions event) :
      c.call x (.handle event) = .error .addOverflow := by
    show (Reply.handled, ·) <$> c.handle x event = _
    rw [handle_of_outOfRevisions hout]; rfl
  refine ⟨h.revision_lt hlog, ⟨fun hs event heq hout => ?_, fun hr => ?_⟩, hfault⟩
  · obtain ⟨r, hr, -⟩ := hs.answers
    rw [heq, hfault event hout] at hr
    cases hr
  · refine h.coherent.withstands (h.exists_call hk.keepsClients hx hr ht fun token applied heq => ?_)
    exact hcall applied (by rw [heq]; rfl)

end

/-- A response took the channel to the last revision there is. It refuses a delivery of another session,
as an echo is still due, and the session ends. -/
theorem withstands_at_last_revision : ∃ log c d, Run CharOp.transform log c ∧
    (∀ t ∈ log, t.call.Sized) ∧ c.queue.revision = ⟨18446744073709551615⟩ ∧
    c.queue.expectedEchoes = 1 ∧ d.session = ⟨"b", by decide⟩ ∧
    Withstands CharOp.transform c (.handle (.incoming ⟨1⟩ (.ok d))) ∧
    c.call CharOp.transform (.handle (.incoming ⟨1⟩ (.ok d))) = .ok (.handled, c.closed,
      [.unsubscribe, .failed (.queue (.echoesOutstanding 1 ⟨18446744073709551615⟩))]) := by
  let d : Delivery CharOp := ⟨⟨18446744073709551615⟩, ⟨"b", by decide⟩, ⟨0, 2, .insert 0 'y'⟩⟩
  have h₀ : Run CharOp.transform [] {} := .new
  have h₁ := h₀.turn (.connect ⟨18446744073709551614⟩ ⟨"a", by decide⟩) rfl
  have h₂ := h₁.turn (.send ⟨0, 1, .insert 0 'x'⟩) rfl
  have h₃ := h₂.turn (.handle (.task ⟨⟨2⟩, .maybeSend⟩)) rfl
  have h₄ := h₃.turn (.handle (.submitResponse ⟨3⟩ (.ok ⟨18446744073709551615⟩))) rfl
  have hmoves (c : Channel CharOp) (hu : c.queue.unacked = []) (hq : c.queue.queued = []) :
      Call.MovesInRange CharOp.transform c (.handle (.incoming ⟨1⟩ (.ok d))) :=
    fun _ => .of_empty hu hq
  obtain ⟨-, hiff, -⟩ := h₄.withstands_iff (by decide) CharOp.transform_keepsLengths
    (hmoves _ rfl rfl) (by decide) (by decide)
  have hs := hiff.2 (by
    rintro event ⟨⟩ ⟨token, d', ⟨⟩, -, -, hplace⟩
    rcases hplace with hsession | hnone
    · exact absurd hsession (by decide)
    · cases hnone)
  refine ⟨_, _, d, h₄, by decide, rfl, rfl, rfl, hs, ?_⟩
  exact hs.reports ⟨⟨"a", by decide⟩, ⟨1⟩⟩ d _ rfl rfl
    (.untimely (fun h => absurd h (by decide)) (.inl ⟨by decide, rfl⟩))

/-- At the last revision there is, the echo that is due ends the channel in a fault. -/
theorem not_withstands_due_echo : ∃ log c d, Run CharOp.transform log c ∧
    (∀ t ∈ log, t.call.Sized) ∧ c.tokens.next = 4 ∧
    c.connection = some ⟨d.session, ⟨1⟩⟩ ∧ c.queue.expectedEchoes = 1 ∧
    d.revision = c.queue.revision ∧ Call.Sized (.handle (.incoming ⟨1⟩ (.ok d))) ∧
    c.call CharOp.transform (.handle (.incoming ⟨1⟩ (.ok d))) = .error .addOverflow := by
  have h₀ : Run CharOp.transform [] {} := .new
  have h₁ := h₀.turn (.connect ⟨18446744073709551614⟩ ⟨"a", by decide⟩) rfl
  have h₂ := h₁.turn (.send ⟨0, 1, .insert 0 'x'⟩) rfl
  have h₃ := h₂.turn (.handle (.task ⟨⟨2⟩, .maybeSend⟩)) rfl
  have h₄ := h₃.turn (.handle (.submitResponse ⟨3⟩ (.ok ⟨18446744073709551615⟩))) rfl
  exact ⟨_, _, ⟨⟨18446744073709551615⟩, ⟨"a", by decide⟩, ⟨0, 1, .insert 0 'x'⟩⟩, h₄, by decide, rfl,
    rfl, rfl, rfl, by decide, rfl⟩

end Channel

end CoEdit
