import CoEdit.Proofs.Ledger
import CoEdit.Proofs.Tokens

/-!
# When a response confirms a batch

While a batch awaits its response the effects of the channel tell what became of it: it was submitted
under a token that was never used before, and of what came since then every confirmation was one of its
operations (`Batch`, `Run.batched`). So the revision moved from the base of the batch by what was confirmed
and what other sessions did, and the rest of the batch is still unconfirmed.

Hence the two measures that the channel takes of a response, from the base over the whole batch and from
its revision over the rest, agree with each other exactly if no other session came in between
(`Run.confirms_iff`). For that the transformer has to keep the number of operations that it moves.
-/

namespace CoEdit

variable {M : Type}

namespace Transformer

/-- Operations are changed, but none is added or dropped. -/
def KeepsLengths (x : Transformer M) : Prop :=
  ∀ ⦃client server : List M⦄ ⦃t : Transformed M⦄, x client server = .ok t →
    t.client.length = client.length ∧ t.server.length = server.length

variable {x : Transformer M} {client server : List M} {t : Transformed M}

theorem KeepsLengths.keepsClients (hx : x.KeepsLengths) : x.KeepsClients := by
  intro client server t ht hne hnil
  have hlen := (hx ht).1
  rw [hnil] at hlen
  exact hne (List.length_eq_zero_iff.1 hlen.symm)

theorem Passes.length_client (h : x.Passes client server t) (hx : x.KeepsLengths) :
    t.client.length = client.length := by
  rcases h with ⟨rfl, rfl⟩ | ⟨-, ht⟩
  · rfl
  · exact (hx ht).1

end Transformer

theorem CharOp.transform_keepsLengths : Transformer.KeepsLengths CharOp.transform := fun _ _ _ ht =>
  ⟨(CharOp.length_of_labels (CharOp.transform_labels ht).1),
    (CharOp.length_of_labels (CharOp.transform_labels ht).2)⟩

namespace Channel

/-- What a reaction after which a batch is out under `token` has to do with the batch. -/
inductive Carries (x : Transformer M) (c : Channel M) (token : Token) (base : Revision) (batch : Nat)
    (r : Reaction M) : Prop
  /-- It was out before, and what is confirmed is taken off it. -/
  | on {answered} (hp : c.phase = .waitingAck token base batch answered)
      (hes : ∀ e ∈ r.2, e.ticket? = none)
      (hrev : r.1.queue.revision.number =
        c.queue.revision.number + (Effect.acks r.2).length + (Effect.remotes r.2).length)
      (hleft : x.KeepsLengths →
        (Effect.acks r.2).length + r.1.queue.unacked.length = c.queue.unacked.length)
  /-- It was just submitted. -/
  | anew {front} (hes : r.2 = front ++ [.submit token base r.1.queue.unacked])
      (hfront : ∀ e ∈ front, e.ticket? = none) (hbase : base = r.1.queue.revision)
      (hbatch : batch = r.1.queue.unacked.length) (hne : r.1.queue.unacked ≠ [])

section
variable {x : Transformer M} {c : Channel M} {r : Reaction M} {token : Token} {base : Revision}
  {batch : Nat} {answered : Bool}

theorem Carries.refl (hp : c.phase = .waitingAck token base batch answered) :
    Carries x c token base batch (c, []) :=
  .on hp nofun rfl fun _ => Nat.zero_add _

theorem Accepts.carries {me : Session} {d : Delivery M} {r' : Reaction M} (h : Accepts x c me d r)
    (hs : Syncs r.1 r') (hp : r'.1.phase = .waitingAck token base batch answered) :
    Carries x c token base batch (r'.1, r.2 ++ r'.2) := by
  cases hs with
  | lags hlags =>
    rw [List.append_nil]
    cases h with
    | recognises hd he hr => exact .on hp (by simp) rfl fun _ => Nat.zero_add _
    | confirms hd ht hu hne =>
      refine .on hp (by simp [Effect.ticket?]) ht.2 fun _ => ?_
      rw [hu]
      exact Nat.add_comm _ _
    | confirmsLast hd ht hu hs => cases hp
    | takesIn hd ht hf hr =>
      refine .on hp (by simp [Effect.ticket?]) ht.2 fun hx => ?_
      exact (Nat.zero_add _).trans (hf.length_client hx)
  | resends hsync hr hu =>
    cases hp
    have hnews : ∀ e ∈ r.2, e.ticket? = none := by
      cases h with
      | recognises hd he hr => simp
      | confirmsLast hd ht hu hs => cases hsync
      | _ => simp [Effect.ticket?]
    refine .anew (List.append_cons r.2 .resetBackoff [_]) (fun e he => ?_) rfl rfl hu
    rcases List.mem_append.1 he with he | he
    · exact hnews e he
    · rw [List.mem_singleton.1 he]; rfl
  | finishes hsync hr hu hs => cases hp

theorem Reacts.carries {event : Event M} (h : Reacts x c event r)
    (hp : r.1.phase = .waitingAck token base batch answered) : Carries x c token base batch r := by
  cases h with
  | stale h => exact .refl hp
  | submits hphase hu hq => cases hp; exact .anew (List.nil_append _).symm nofun rfl rfl hq
  | defers hphase hr => cases hp; exact .on hphase nofun rfl fun _ => Nat.zero_add _
  | learns hphase hs =>
    cases hs with
    | lags hlags => cases hp
    | resends hsync hr hu =>
      cases hp
      exact .anew List.singleton_append.symm (by simp [Effect.ticket?]) rfl rfl hu
    | finishes hsync hr hu hs => cases hp
  | accepts hc h hs => exact h.carries hs hp
  | _ => cases hp

theorem Does.carries {call : Call M} {reply : Reply M} (h : Does x c call reply r)
    (hp : r.1.phase = .waitingAck token base batch answered) :
    Carries x c token base batch r := by
  cases h with
  | connected hconn => exact .refl hp
  | unconnected hconn hr => exact .refl hp
  | stages hconn hphase ht => exact .on hp nofun rfl fun _ => Nat.zero_add _
  | peeks hconn => exact .refl hp
  | receives hconn => exact .on hp nofun rfl fun _ => Nat.zero_add _
  | reacts h => exact h.carries hp
  | _ => cases hp

end

/-- Of the effects `es`, `since` are those after the one submit under `token`, which was of `ops` at
`base`. The revision and the unconfirmed operations of `q` are what these effects tell. -/
structure Batch (es : List (Effect M)) (q : Queue M) (token : Token) (base : Revision) (ops : List M)
    (since : List (Effect M)) : Prop where
  once : ∃ before, es = before ++ .submit token base ops :: since ∧
    ∀ e ∈ before ++ since, e.ticket? ≠ some (.submit token)
  revision : q.revision.number =
    base.number + (Effect.acks since).length + (Effect.remotes since).length
  left : (Effect.acks since).length + q.unacked.length = ops.length

section
variable {x : Transformer M} {c : Channel M} {r : Reaction M} {log : List (Turn M)} {token : Token}
  {base applied : Revision} {batch : Nat} {answered : Bool} {es since : List (Effect M)} {ops : List M}

theorem Run.batch_ne_zero (h : Run x log c) (hp : c.phase = .waitingAck token base batch answered) :
    batch ≠ 0 := by
  induction h generalizing answered with
  | new => cases hp
  | @turn log c reply c' es call h hcall ih =>
    have hd : Does x c call reply (c', es) := (call_within h.coherent call).of_ok hcall
    have hcarries := hd.carries hp
    cases hcarries with
    | on hp' hes hrev hleft => exact ih hp'
    | anew hes hfront hbase hbatch hne => simpa [hbatch] using hne

theorem Run.asked_lt (h : Run x log c) :
    ∀ e ∈ effects log, ∀ k, e.ticket? = some k → k.token.number < c.tokens.next := by
  induction h with
  | new => nofun
  | turn call h hcall ih =>
    have ht := ((call_within h.coherent call).of_ok hcall).turnover
    intro e he k hk
    rw [effects_append, effects_singleton] at he
    rcases List.mem_append.1 he with he | he
    · exact Nat.lt_of_lt_of_le (ih e he k hk) ht.next_le
    · exact (ht.asks e he k hk).2

theorem Batch.on (h : Batch es c.queue token base ops since) (hes : ∀ e ∈ r.2, e.ticket? = none)
    (hrev : r.1.queue.revision.number =
      c.queue.revision.number + (Effect.acks r.2).length + (Effect.remotes r.2).length)
    (hleft : (Effect.acks r.2).length + r.1.queue.unacked.length = c.queue.unacked.length) :
    Batch (es ++ r.2) r.1.queue token base ops (since ++ r.2) := by
  obtain ⟨⟨before, rfl, honce⟩, hrev', hleft'⟩ := h
  refine ⟨⟨before, by simp, fun e he => ?_⟩, ?_, ?_⟩
  · rw [← List.append_assoc] at he
    rcases List.mem_append.1 he with he | he
    · exact honce e he
    · rw [hes e he]; nofun
  · rw [hrev, hrev', Effect.acks_append, Effect.remotes_append, List.length_append, List.length_append]
    omega
  · rw [← hleft', ← hleft, Effect.acks_append, List.length_append]
    omega

theorem Batch.anew {q : Queue M} {front : List (Effect M)} (hq : base = q.revision)
    (hfront : ∀ e ∈ es ++ front, e.ticket? ≠ some (.submit token)) :
    Batch (es ++ (front ++ [.submit token base q.unacked])) q token base q.unacked [] :=
  ⟨⟨es ++ front, by simp, by simpa using hfront⟩, by rw [hq]; rfl, Nat.zero_add _⟩

theorem Run.batched (h : Run x log c) (hx : x.KeepsLengths)
    (hp : c.phase = .waitingAck token base batch answered) :
    ∃ ops since, batch = ops.length ∧ Batch (effects log) c.queue token base ops since := by
  induction h generalizing answered with
  | new => cases hp
  | @turn log c reply c' es call h hcall ih =>
    have hd : Does x c call reply (c', es) := (call_within h.coherent call).of_ok hcall
    have ht := hd.turnover
    have hcarries := hd.carries hp
    rw [effects_append, effects_singleton]
    cases hcarries with
    | on hp' hes hrev hleft =>
      obtain ⟨ops, since, hbatch, hb⟩ := ih hp'
      exact ⟨ops, _, hbatch, hb.on hes hrev (hleft hx)⟩
    | anew hes hfront hbase hbatch hne =>
      dsimp only at hes hbase
      subst hes
      have hfresh := (ht.asks _ (List.mem_append_right _ (.head _)) _ rfl).1
      refine ⟨_, [], hbatch, .anew hbase fun e he hk => ?_⟩
      rcases List.mem_append.1 he with he | he
      · exact absurd (h.asked_lt e he _ hk) (Nat.not_lt.2 hfresh)
      · rw [hfront e he] at hk; cases hk

/-- The way from the revision over the rest of the batch is the way from its base over all of it, but for
the operations of other sessions in between. -/
theorem Batch.measures_agree_iff {q : Queue M} (h : Batch es q token base ops since)
    (ha : applied.number = base.number + ops.length) :
    applied.number = q.revision.number + q.unacked.length ↔ Effect.remotes since = [] := by
  have hrevision := h.revision
  have hleft := h.left
  rw [← List.length_eq_zero_iff]
  omega

/-- The response to a batch is handled while the channel waits for it, whether the batch was submitted
for the first time or again. It confirms all that is left of the batch, in order and with their echoes
still to come, if it tells the revision that the batch reaches from its base and no other session's
operation was taken in since the batch was submitted; otherwise it is only noted that it came. -/
theorem Run.confirms_iff (h : Run x log c) (hx : x.KeepsLengths)
    (hl : c.Awaits (.submitResponse token (.ok applied))) :
    ∃ base ops since, c.phase = .waitingAck token base ops.length false ∧
      Batch (effects log) c.queue token base ops since ∧ c.queue.unacked ≠ [] ∧
      (c.handle x (.submitResponse token (.ok applied))).Counts fun r =>
        (applied.number = base.number + ops.length ∧ Effect.remotes since = [] →
          (∃ task tokens effects, c.Schedules task tokens effects ∧ r = ({ c with
              queue := { c.queue with
                revision := applied
                unacked := []
                expectedEchoes := c.queue.expectedEchoes + c.queue.unacked.length }
              tokens
              stats := { c.stats with eagerAcks := c.stats.eagerAcks + c.queue.unacked.length }
              phase := .allAcked task },
            .resetBackoff :: effects ++ ackedAll c.queue.queued.isEmpty c.queue.unacked)) ∧
          (Effect.acks r.2).map Prod.fst = c.queue.unacked) ∧
        (¬ (applied.number = base.number + ops.length ∧ Effect.remotes since = []) →
          r = ({ c with phase := .waitingAck token base ops.length true }, [])) := by
  obtain ⟨base, batch, hp⟩ := Phase.ticket?_eq_submit_iff.1 hl
  obtain ⟨ops, since, rfl, hb⟩ := h.batched hx hp
  have hf := h.fed hx.keepsClients
  have hu : c.queue.unacked ≠ [] := hf.flight (by rw [state, hp]; trivial)
  refine ⟨base, ops, since, hp, hb, hu, (h.coherent.handle_counts hf).mono fun r hr => ?_⟩
  cases hr with
  | stale hl' => exact absurd hl hl'
  | retries hl he => cases he
  | givesUp hl he => cases he
  | confirms hp' ha hne hr hs =>
    rw [hp] at hp'
    cases hp'
    refine ⟨fun _ => ⟨⟨_, _, _, hs, rfl⟩, ?_⟩, fun hnot => ?_⟩
    · simp [hs.acks, Effect.map_fst_acks_ackedAll]
    · exact absurd ⟨ha, (hb.measures_agree_iff ha).1 hr⟩ hnot
  | defers hp' hr =>
    rw [hp] at hp'
    cases hp'
    refine ⟨fun hall => ?_, fun _ => rfl⟩
    obtain ⟨ha, hnone⟩ := hall
    rcases hr with hr | hr | hr
    · exact absurd ha hr
    · exact absurd hr hu
    · exact absurd ((hb.measures_agree_iff ha).2 hnone) hr

end

/-- A batch of two is submitted again after another session's operation came, and the echo of its first
operation is ahead of the response. The response then confirms the second one. -/
theorem confirms_resent : ∃ log c, Run CharOp.transform log c ∧ c.stats.resends = 1 ∧
    c.stats.remoteOps = 1 ∧ c.stats.directAcks = 1 ∧ c.queue.unacked.length = 1 ∧
    c.Awaits (.submitResponse ⟨6⟩ (.ok ⟨8⟩)) ∧
    ∃ base ops since, Batch (effects log) c.queue ⟨6⟩ base ops since ∧
      8 = base.number + ops.length ∧ Effect.remotes since = [] ∧
      (c.handle CharOp.transform (.submitResponse ⟨6⟩ (.ok ⟨8⟩))).Counts fun r =>
        r.1.queue.revision = ⟨8⟩ ∧ (Effect.acks r.2).map Prod.fst = c.queue.unacked := by
  let c : Channel CharOp := {
    queue := {
      revision := ⟨7⟩
      unacked := [⟨1, 1, .insert 1 'y'⟩]
      pending := [⟨0, 2, .insert 2 'z'⟩] }
    connection := some ⟨⟨"a", by decide⟩, ⟨1⟩⟩
    phase := .waitingAck ⟨6⟩ ⟨6⟩ 2 false
    tokens := ⟨7⟩
    stats := {
      submits := 1, resends := 1, probes := 1, retryableFailures := 1, directAcks := 1, remoteOps := 1 } }
  have h₀ : Run CharOp.transform [] {} := .new
  have h₁ := h₀.turn (.connect ⟨5⟩ ⟨"a", by decide⟩) rfl
  have h₂ := h₁.turn (.send ⟨0, 1, .insert 0 'x'⟩) rfl
  have h₃ := h₂.turn (.send ⟨1, 1, .insert 1 'y'⟩) rfl
  have h₄ := h₃.turn (.handle (.task ⟨⟨2⟩, .maybeSend⟩)) rfl
  have h₅ := h₄.turn (.handle (.submitResponse ⟨3⟩ (.error (.retryable "timeout")))) rfl
  have h₆ := h₅.turn (.handle (.task ⟨⟨4⟩, .resync⟩)) rfl
  have h₇ := h₆.turn (.handle (.incoming ⟨1⟩ (.ok ⟨⟨6⟩, ⟨"b", by decide⟩, ⟨0, 2, .insert 0 'z'⟩⟩))) rfl
  have h₈ := h₇.turn (.handle (.probeResponse ⟨5⟩ (.ok ⟨6⟩))) rfl
  have h₉ : Run _ _ c :=
    h₈.turn (.handle (.incoming ⟨1⟩ (.ok ⟨⟨7⟩, ⟨"a", by decide⟩, ⟨0, 1, .insert 0 'x'⟩⟩))) rfl
  have hl : c.Awaits (.submitResponse ⟨6⟩ (.ok ⟨8⟩)) := rfl
  obtain ⟨base, ops, since, hp, hb, -, hcounts⟩ := h₉.confirms_iff CharOp.transform_keepsLengths hl
  have hbatch : c.phase = .waitingAck ⟨6⟩ ⟨6⟩ 2 false := rfl
  rw [hp] at hbatch
  injection hbatch with _ hbase hlength
  have hreach : (⟨8⟩ : Revision).number = base.number + ops.length := by rw [hbase, hlength]
  have hnone : Effect.remotes since = [] := (hb.measures_agree_iff hreach).1 rfl
  refine ⟨_, c, h₉, rfl, rfl, rfl, rfl, hl, base, ops, since, hb, hreach, hnone, ?_⟩
  refine hcounts.mono fun r hr => ?_
  obtain ⟨⟨task, tokens, effects, -, hr⟩, hacks⟩ := hr.1 ⟨hreach, hnone⟩
  exact ⟨by rw [hr], hacks⟩

end Channel

end CoEdit
