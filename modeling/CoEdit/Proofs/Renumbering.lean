import Mathlib.Data.List.Forall2
import CoEdit.Proofs.Inertness
import CoEdit.Proofs.Range

/-!
# Tokens may be renumbered

A channel only compares tokens with each other and hands out the next one. So a channel whose tokens are
all greater by `k` does the same under tokens that are greater by `k`, and counts that start elsewhere
make no difference either (`call_shift`), as long as there is room for the tokens that a call takes.
-/

namespace CoEdit

variable {M : Type}

namespace Checked

variable {α α' β β' : Type} {P : Prop} {f : α → α'} {F : β → β'} {y : Checked α} {y' : Checked α'}

/-- `y'` is the image of `y` under `f`. Otherwise a sum is out of range in `y'` alone, which happens only
if `P`. -/
def Follows (P : Prop) (f : α → α') (y' : Checked α') (y : Checked α) : Prop :=
  y' = f <$> y ∨ P ∧ y' = .error .addOverflow

theorem Follows.same (h : y' = f <$> y) : y'.Follows P f y := .inl h

theorem Follows.bind {g : α → Checked β} {g' : α' → Checked β'} (hy : y'.Follows P f y)
    (hg : ∀ a, y = .ok a → (g' (f a)).Follows P F (g a)) : (y' >>= g').Follows P F (y >>= g) := by
  rcases hy with rfl | ⟨hP, rfl⟩
  · cases y with
    | ok a => exact hg a rfl
    | error e => exact .inl rfl
  · exact .inr ⟨hP, rfl⟩

theorem Follows.bind_same {g : α → Checked β} {g' : α → Checked β'}
    (hg : ∀ a, y = .ok a → (g' a).Follows P F (g a)) : (y >>= g').Follows P F (y >>= g) :=
  Follows.bind (f := fun a => a) (.inl (LawfulFunctor.id_map y).symm) hg

theorem Follows.map {g : α → β} {g' : α' → β'} (hy : y'.Follows P f y)
    (hg : ∀ a, g' (f a) = F (g a)) : Follows P F (g' <$> y') (g <$> y) := by
  rcases hy with rfl | ⟨hP, rfl⟩
  · cases y with
    | ok a => exact .inl (congrArg Except.ok (hg a))
    | error e => exact .inl rfl
  · exact .inr ⟨hP, rfl⟩

end Checked

/-- The token that is greater by `k`. -/
def Token.shift (k : Nat) (t : Token) : Token := ⟨k + t.number⟩

/-- The token that is smaller by `k`, if it can be. -/
def Token.back (k : Nat) (t : Token) : Token := ⟨t.number - k⟩

def TokenSource.shift (k : Nat) (s : TokenSource) : TokenSource := ⟨k + s.next⟩

def Task.renumber (f : Token → Token) (t : Task) : Task := ⟨f t.id, t.kind⟩

def Event.renumber (f : Token → Token) : Event M → Event M
  | .task t => .task (t.renumber f)
  | .submitResponse token result => .submitResponse (f token) result
  | .probeResponse token result => .probeResponse (f token) result
  | .incoming connection message => .incoming (f connection) message

def Effect.renumber (f : Token → Token) : Effect M → Effect M
  | .submit token base ops => .submit (f token) base ops
  | .probe token => .probe (f token)
  | .disregard token => .disregard (f token)
  | .subscribe connection revision => .subscribe (f connection) revision
  | .schedule t => .schedule (t.renumber f)
  | .scheduleAfterDelay t => .scheduleAfterDelay (t.renumber f)
  | .cancel id => .cancel (f id)
  | e => e

namespace Channel

def Phase.renumber (f : Token → Token) : Phase → Phase
  | .uninitialised => .uninitialised
  | .allAcked task => .allAcked (task.map f)
  | .waitingAck submit base batch answered => .waitingAck (f submit) base batch answered
  | .delayResync timer => .delayResync (f timer)
  | .waitingSync probe answered target => .waitingSync (f probe) answered target

def Connection.renumber (f : Token → Token) (connection : Connection) : Connection :=
  ⟨connection.session, f connection.token⟩

def Call.renumber (f : Token → Token) : Call M → Call M
  | .handle event => .handle (event.renumber f)
  | call => call

/-- Counts that go on from `s₀`. -/
def Stats.after (s₀ s : Stats) : Stats where
  submits := s₀.submits + s.submits
  resends := s₀.resends + s.resends
  probes := s₀.probes + s.probes
  retryableFailures := s₀.retryableFailures + s.retryableFailures
  eagerAcks := s₀.eagerAcks + s.eagerAcks
  directAcks := s₀.directAcks + s.directAcks
  duplicateAcks := s₀.duplicateAcks + s.duplicateAcks
  remoteOps := s₀.remoteOps + s.remoteOps

/-- The channel with tokens that are greater by `k` and counts that go on from `s₀`. -/
def shift (k : Nat) (s₀ : Stats) (c : Channel M) : Channel M where
  queue := c.queue
  connection := c.connection.map (·.renumber (Token.shift k))
  phase := c.phase.renumber (Token.shift k)
  tokens := c.tokens.shift k
  stats := s₀.after c.stats

def Reaction.shift (k : Nat) (s₀ : Stats) (r : Reaction M) : Reaction M :=
  (r.1.shift k s₀, r.2.map (·.renumber (Token.shift k)))

/-- There is room for `n` more tokens, each greater by `k`. -/
def Room (k n : Nat) (c : Channel M) : Prop := k + c.tokens.next + n < Checked.limit

end Channel

section
variable {k : Nat} {t u : Token}

@[simp] theorem Token.shift_inj : t.shift k = u.shift k ↔ t = u := by
  cases t; cases u
  simp [shift]

theorem Token.shift_back (h : k ≤ t.number) : (t.back k).shift k = t := by
  obtain ⟨n⟩ := t
  simp only [back, shift, mk.injEq]
  dsimp only at h
  omega

theorem Token.back_of_lt (h : ¬ k ≤ t.number) : t.back k = ⟨0⟩ := by
  simp only [back, mk.injEq]
  omega

theorem Event.token_renumber {event : Event M} {f : Token → Token} :
    (event.renumber f).token = f event.token := by
  cases event <;> rfl

theorem Event.shift_back {event : Event M} (h : k ≤ event.token.number) :
    (event.renumber (Token.back k)).renumber (Token.shift k) = event := by
  cases event with
  | task task =>
    obtain ⟨id, kind⟩ := task
    exact congrArg (fun t => Event.task ⟨t, kind⟩) (Token.shift_back h)
  | submitResponse token result => exact congrArg (Event.submitResponse · result) (Token.shift_back h)
  | probeResponse token result => exact congrArg (Event.probeResponse · result) (Token.shift_back h)
  | incoming token message => exact congrArg (Event.incoming · message) (Token.shift_back h)

theorem TokenSource.mint_shift {P : Prop} {s : TokenSource}
    (h : ¬ k + s.next + 1 < Checked.limit → P) :
    (s.shift k).mint.Follows P (Prod.map (·.shift k) (·.shift k)) s.mint := by
  by_cases hroom : k + s.next + 1 < Checked.limit
  · have hmint : s.mint = .ok (⟨s.next⟩, ⟨s.next + 1⟩) := mint_eq_ok_iff.2 ⟨by omega, rfl, rfl⟩
    rw [hmint]
    exact .same (mint_eq_ok_iff.2 ⟨hroom, rfl, rfl⟩)
  · refine .inr ⟨h hroom, ?_⟩
    unfold mint shift Checked.add
    rw [if_neg hroom]
    rfl

theorem renumber_ackedAll {f : Token → Token} {clean : Bool} {ops : List M} :
    (ackedAll clean ops).map (·.renumber f) = ackedAll clean ops := by
  refine (List.map_congr_left fun e he => ?_).trans (List.map_id _)
  obtain ⟨op, clean', rfl⟩ := mem_ackedAll he
  rfl

end

namespace Channel

section
variable {x : Transformer M} {c : Channel M} {k : Nat} {s₀ : Stats} {token : Token} {P : Prop}

@[simp] theorem Phase.state_shift (phase : Phase) : (phase.renumber (Token.shift k)).state = phase.state := by
  cases phase <;> rfl

@[simp] theorem Phase.release_shift (phase : Phase) :
    ((phase.renumber (Token.shift k)).release : List (Effect M)) = phase.release.map (·.renumber (Token.shift k)) := by
  cases phase with
  | uninitialised => rfl
  | allAcked task => cases task <;> rfl
  | waitingAck submit base batch answered => cases answered <;> rfl
  | delayResync timer => rfl
  | waitingSync probe answered target => cases answered <;> rfl

@[simp] theorem state_shift : (c.shift k s₀).state = c.state := c.phase.state_shift

@[simp] theorem violation_shift : (c.shift k s₀).violation = c.violation := by
  obtain ⟨queue, connection, phase, tokens, stats⟩ := c
  cases phase with
  | allAcked task => cases task <;> cases connection <;> rfl
  | _ => cases connection <;> rfl

@[simp] theorem phase_shift : (c.shift k s₀).phase = c.phase.renumber (Token.shift k) := rfl

@[simp] theorem queue_shift : (c.shift k s₀).queue = c.queue := rfl

@[simp] theorem tokens_shift : (c.shift k s₀).tokens = c.tokens.shift k := rfl

@[simp] theorem connection_shift :
    (c.shift k s₀).connection = c.connection.map (·.renumber (Token.shift k)) := rfl

@[simp] theorem isConnected_shift : (c.shift k s₀).isConnected = c.isConnected :=
  Option.isSome_map

theorem enter_shift (c : Channel M) (k : Nat) (s₀ : Stats) (phase : Phase) :
    (c.shift k s₀).enter (phase.renumber (Token.shift k)) = (·.shift k s₀) <$> c.enter phase := by
  have hviolation : violation { c.shift k s₀ with phase := phase.renumber (Token.shift k) } =
      violation { c with phase } := violation_shift (c := { c with phase })
  have hstate : state { c.shift k s₀ with phase := phase.renumber (Token.shift k) } = state { c with phase } :=
    state_shift (c := { c with phase })
  unfold enter
  simp only [state_shift, hviolation, hstate]
  split
  · split
    · rfl
    · rfl
  · rfl

theorem shutdown_shift : (c.shift k s₀).shutdown = Reaction.shift k s₀ <$> c.shutdown := by
  rw [shutdown_eq, shutdown_eq]
  show Except.ok (_, (c.phase.renumber (Token.shift k)).release ++ _) = Except.ok (_, _)
  rw [Phase.release_shift, List.map_append]
  rfl

theorem fail_shift {error : Error} :
    (c.shift k s₀).fail error = Reaction.shift k s₀ <$> c.fail error := by
  rw [fail_eq, fail_eq]
  show Except.ok (_, (c.phase.renumber (Token.shift k)).release ++ _) = Except.ok (_, _)
  rw [Phase.release_shift, List.map_append]
  rfl

theorem scheduleSend_shift (h : ¬ c.Room k 1 → P) :
    (c.shift k s₀).scheduleSend.Follows P (Reaction.shift k s₀) c.scheduleSend := by
  unfold scheduleSend
  rw [phase_shift, queue_shift]
  cases c.phase with
  | allAcked task =>
    cases task with
    | some id => exact .same rfl
    | none =>
      simp only [Phase.renumber, Option.map_none]
      by_cases hq : (c.queue.queued.isEmpty || !c.queue.unacked.isEmpty) = true
      · rw [if_pos hq, if_pos hq]
        exact .same rfl
      · rw [if_neg hq, if_neg hq]
        exact (TokenSource.mint_shift h).bind fun r _ => .same rfl
  | _ => exact .same rfl

theorem transmit_shift (h : ¬ c.Room k 1 → P) :
    (c.shift k s₀).transmit.Follows P (Reaction.shift k s₀) c.transmit := by
  refine (TokenSource.mint_shift h).bind fun r _ => ?_
  have henter := enter_shift { c with tokens := r.2 } k s₀
    (.waitingAck r.1 c.queue.revision c.queue.unacked.length false)
  exact Checked.Follows.bind (.same henter) fun c' _ => .same rfl

theorem scheduleResync_shift (h : ¬ c.Room k 1 → P) :
    (c.shift k s₀).scheduleResync.Follows P (Reaction.shift k s₀) c.scheduleResync := by
  refine (TokenSource.mint_shift h).bind fun r _ => ?_
  have henter := enter_shift { c with tokens := r.2 } k s₀ (.delayResync r.1)
  exact Checked.Follows.bind (.same henter) fun c' _ => .same rfl

theorem allAcknowledged_shift (h : ¬ c.Room k 1 → P) :
    (c.shift k s₀).allAcknowledged.Follows P (Reaction.shift k s₀) c.allAcknowledged := by
  refine Checked.Follows.bind (.same (enter_shift c k s₀ (.allAcked none))) fun c₁ hc₁ => ?_
  have hroom : ¬ c₁.Room k 1 → P := by
    obtain rfl := enter_inRange.of_ok hc₁
    exact h
  refine (scheduleSend_shift hroom).bind fun r _ => .same ?_
  show Except.ok (_, (c.phase.renumber (Token.shift k)).release ++ _) = Except.ok (_, _)
  rw [Phase.release_shift, List.map_append]
  rfl

theorem maybeSend_shift {id : Token} (h : ¬ c.Room k 1 → P) :
    ((c.shift k s₀).maybeSend (id.shift k)).Follows P (Reaction.shift k s₀) (c.maybeSend id) := by
  unfold maybeSend
  rw [phase_shift, queue_shift]
  cases c.phase with
  | allAcked task =>
    cases task with
    | none => exact .same rfl
    | some live =>
      simp only [Phase.renumber, Option.map_some, ne_eq, Token.shift_inj]
      by_cases hid : live = id
      · rw [if_neg (not_not_intro hid), if_neg (not_not_intro hid)]
        by_cases hq : (!c.queue.unacked.isEmpty || c.queue.queued.isEmpty) = true
        · rw [if_pos hq, if_pos hq]
          exact .same rfl
        · rw [if_neg hq, if_neg hq]
          refine .bind_same fun queue _ => ?_
          exact transmit_shift (c := { c with
            phase := .allAcked none
            queue
            stats := { c.stats with submits := c.stats.submits + 1 } }) h
      · rw [if_pos hid, if_pos hid]
        exact .same rfl
  | _ => exact .same rfl

theorem startProbe_shift {id : Token} (h : ¬ c.Room k 1 → P) :
    ((c.shift k s₀).startProbe (id.shift k)).Follows P (Reaction.shift k s₀) (c.startProbe id) := by
  unfold startProbe
  rw [phase_shift]
  cases c.phase with
  | delayResync timer =>
    simp only [Phase.renumber, ne_eq, Token.shift_inj]
    by_cases hid : timer = id
    · rw [if_neg (not_not_intro hid), if_neg (not_not_intro hid)]
      refine (TokenSource.mint_shift h).bind fun r _ => ?_
      have henter := enter_shift { c with
        phase := .delayResync timer
        tokens := r.2
        stats := { c.stats with probes := c.stats.probes + 1 } } k s₀ (.waitingSync r.1 false none)
      exact Checked.Follows.bind (.same henter) fun c' _ => .same rfl
    · rw [if_pos hid, if_pos hid]
      exact .same rfl
  | _ => exact .same rfl

theorem acknowledgeEagerly_shift {applied base : Revision} {batch : Nat} (h : ¬ c.Room k 1 → P) :
    ((c.shift k s₀).acknowledgeEagerly applied base batch).Follows P (Reaction.shift k s₀)
      (c.acknowledgeEagerly applied base batch) := by
  unfold acknowledgeEagerly
  by_cases hb : applied.since base ≠ some batch
  · rw [if_pos hb, if_pos hb]
    exact .same rfl
  · rw [if_neg hb, if_neg hb]
    refine .bind_same fun q _ => ?_
    obtain ⟨ops, queue⟩ := q
    cases ops with
    | none => exact .same rfl
    | some ops =>
      have hstats : { (c.shift k s₀).stats with
          eagerAcks := (c.shift k s₀).stats.eagerAcks + ops.length } =
          s₀.after { c.stats with eagerAcks := c.stats.eagerAcks + ops.length } := by
        simp [shift, Stats.after, Nat.add_assoc]
      dsimp only
      rw [hstats]
      refine (allAcknowledged_shift (c := { c with
        queue
        stats := { c.stats with eagerAcks := c.stats.eagerAcks + ops.length } }) h).bind
          fun r _ => .same ?_
      show Except.ok (_, r.2.map _ ++ ackedAll _ ops) = Except.ok (_, (r.2 ++ _).map _)
      rw [List.map_append, renumber_ackedAll]
      rfl

theorem onFailure_shift {e : ServiceError} (h : ¬ c.Room k 1 → P) :
    ((c.shift k s₀).onFailure e).Follows P (Reaction.shift k s₀) (c.onFailure e) := by
  cases e with
  | retryable message => exact scheduleResync_shift (c := { c with
      stats := { c.stats with retryableFailures := c.stats.retryableFailures + 1 } }) h
  | fatal message => exact .same fail_shift

theorem onSubmitResponse_shift {result : Except ServiceError Revision} (h : ¬ c.Room k 1 → P) :
    ((c.shift k s₀).onSubmitResponse (token.shift k) result).Follows P (Reaction.shift k s₀)
      (c.onSubmitResponse token result) := by
  unfold onSubmitResponse
  rw [phase_shift]
  cases c.phase with
  | waitingAck submit base batch answered =>
    cases answered with
    | true => exact .same rfl
    | false =>
      simp only [Phase.renumber, ne_eq, Token.shift_inj]
      by_cases hid : submit = token
      · rw [if_neg (not_not_intro hid), if_neg (not_not_intro hid)]
        cases result with
        | ok applied =>
          exact acknowledgeEagerly_shift (c := { c with phase := .waitingAck submit base batch true }) h
        | error e =>
          exact onFailure_shift (c := { c with phase := .waitingAck submit base batch true }) h
      · rw [if_pos hid, if_pos hid]
        exact .same rfl
  | _ => exact .same rfl

theorem maybeSynced_shift (h : ¬ c.Room k 1 → P) :
    (c.shift k s₀).maybeSynced.Follows P (Reaction.shift k s₀) c.maybeSynced := by
  unfold maybeSynced
  rw [phase_shift, queue_shift]
  cases c.phase with
  | waitingSync probe answered target =>
    cases target with
    | none => exact .same rfl
    | some target =>
      simp only [Phase.renumber]
      by_cases hr : c.queue.revision < target
      · rw [if_pos hr, if_pos hr]
        exact .same rfl
      · rw [if_neg hr, if_neg hr]
        by_cases hu : c.queue.unacked.isEmpty = true
        · rw [if_pos hu, if_pos hu]
          exact allAcknowledged_shift h
        · rw [if_neg hu, if_neg hu]
          exact (transmit_shift (c := { c with
            phase := .waitingSync probe answered (some target)
            stats := { c.stats with resends := c.stats.resends + 1 } }) h).bind fun r _ => .same rfl
  | _ => exact .same rfl

theorem onProbeResponse_shift {result : Except ServiceError Revision} (h : ¬ c.Room k 1 → P) :
    ((c.shift k s₀).onProbeResponse (token.shift k) result).Follows P (Reaction.shift k s₀)
      (c.onProbeResponse token result) := by
  unfold onProbeResponse
  rw [phase_shift]
  cases c.phase with
  | waitingSync probe answered target =>
    cases answered with
    | true => exact .same rfl
    | false =>
      simp only [Phase.renumber, ne_eq, Token.shift_inj]
      by_cases hid : probe = token
      · rw [if_neg (not_not_intro hid), if_neg (not_not_intro hid)]
        cases result with
        | ok revision =>
          exact maybeSynced_shift (c := { c with phase := .waitingSync probe true (some revision) }) h
        | error e =>
          exact onFailure_shift (c := { c with phase := .waitingSync probe true none }) h
      · rw [if_pos hid, if_pos hid]
        exact .same rfl
  | _ => exact .same rfl

theorem onEcho_shift {revision : Revision} {op : M} (h : ¬ c.Room k 1 → P) :
    ((c.shift k s₀).onEcho revision op).Follows P (Prod.map id (Reaction.shift k s₀))
      (c.onEcho revision op) := by
  refine .bind_same fun q _ => ?_
  obtain ⟨taken, queue⟩ := q
  cases taken with
  | error e => exact .same rfl
  | ok recognised =>
    cases recognised with
    | true => exact .same rfl
    | false =>
      refine .bind_same fun q _ => ?_
      obtain ⟨confirmed, queue⟩ := q
      cases confirmed with
      | error e => exact .same rfl
      | ok emptied =>
        cases emptied with
        | false => exact .same rfl
        | true =>
          refine (allAcknowledged_shift (c := { c with
            queue
            stats := { c.stats with directAcks := c.stats.directAcks + 1 } }) h).bind
              fun r _ => .same ?_
          show Except.ok (_, _, r.2.map _ ++ [_]) = Except.ok (_, _, (r.2 ++ _).map _)
          rw [List.map_append]
          rfl

theorem onRemote_shift {revision : Revision} {op : M} :
    ((c.shift k s₀).onRemote x revision op).Follows P (Prod.map id (Reaction.shift k s₀))
      (c.onRemote x revision op) := by
  refine .bind_same fun q _ => ?_
  obtain ⟨taken, queue⟩ := q
  cases taken with
  | error e => exact .same rfl
  | ok _ => exact .same rfl

theorem Receives.next_le {me : Session} {d : Delivery M} {r : Except QueueError Unit × Reaction M}
    (h : Receives x c me d r) : r.2.1.tokens.next ≤ c.tokens.next + 1 := by
  rcases h with ⟨e, q, -, rfl⟩ | ⟨r, ha, rfl⟩
  · exact Nat.le_succ _
  · cases ha with
    | confirmsLast hd ht hu hs =>
      rcases hs with ⟨-, -, rfl, -⟩ | ⟨-, -, rfl, -⟩
      · exact Nat.le_succ _
      · exact Nat.le_refl _
    | _ => exact Nat.le_succ _

theorem Reaction.shift_append {r r' : Reaction M} :
    Reaction.shift k s₀ (r'.1, r.2 ++ r'.2) =
      ((Reaction.shift k s₀ r').1, (Reaction.shift k s₀ r).2 ++ (Reaction.shift k s₀ r').2) := by
  simp [Reaction.shift]

theorem onIncoming_shift {message : Except ServiceError (Delivery M)} (hc : c.Coherent)
    (h : ¬ c.Room k 2 → P) : ((c.shift k s₀).onIncoming x (token.shift k) message).Follows P
      (Reaction.shift k s₀) (c.onIncoming x token message) := by
  unfold onIncoming
  rw [connection_shift]
  cases c.connection with
  | none => exact .same rfl
  | some live =>
    simp only [Option.map_some, Connection.renumber, ne_eq, Token.shift_inj]
    by_cases hid : live.token = token
    · rw [if_neg (not_not_intro hid), if_neg (not_not_intro hid)]
      cases message with
      | error e => exact .same fail_shift
      | ok d =>
        have hfirst : Checked.Follows P (Prod.map id (Reaction.shift k s₀))
            (if d.session = live.session then (c.shift k s₀).onEcho d.revision d.op
              else (c.shift k s₀).onRemote x d.revision d.op)
            (if d.session = live.session then c.onEcho d.revision d.op
              else c.onRemote x d.revision d.op) := by
          split
          · exact onEcho_shift fun hroom => h (mt Nat.lt_of_succ_lt hroom)
          · exact onRemote_shift
        have hroom (r) (hr : (if d.session = live.session then c.onEcho d.revision d.op
            else c.onRemote x d.revision d.op) = .ok r) : ¬ r.2.1.Room k 1 → P := by
          have hreceives : Receives x c live.session d r := by
            split at hr
            · rename_i hme; exact (onEcho_counts hc hme).of_ok hr
            · rename_i hme; exact (onRemote_counts hme).of_ok hr
          have hnext := hreceives.next_le
          intro hno
          refine h fun hroom => hno ?_
          unfold Room at *
          omega
        dsimp only
        by_cases hme : d.session = live.session
        all_goals
          simp only [hme, if_true, if_false] at hfirst hroom ⊢
          refine hfirst.bind fun r hr => ?_
          obtain ⟨result, r⟩ := r
          cases result with
          | ok _ =>
            exact (maybeSynced_shift (hroom _ hr)).bind fun r' _ =>
              .same (congrArg Except.ok Reaction.shift_append.symm)
          | error e =>
            exact Checked.Follows.bind (.same fail_shift) fun r' _ =>
              .same (congrArg Except.ok Reaction.shift_append.symm)
    · rw [if_pos hid, if_pos hid]
      exact .same rfl

/-! ### Calls -/

theorem handle_shift {event : Event M} (hc : c.Coherent) (h : ¬ c.Room k 2 → P) :
    ((c.shift k s₀).handle x (event.renumber (Token.shift k))).Follows P (Reaction.shift k s₀) (c.handle x event) := by
  have hroom : ¬ c.Room k 1 → P := fun hroom => h (mt Nat.lt_of_succ_lt hroom)
  cases event with
  | task task =>
    obtain ⟨id, kind⟩ := task
    cases kind with
    | maybeSend => exact maybeSend_shift hroom
    | resync => exact startProbe_shift hroom
  | submitResponse token result => exact onSubmitResponse_shift hroom
  | probeResponse token result => exact onProbeResponse_shift hroom
  | incoming connection message => exact onIncoming_shift hc h

theorem connect_shift {revision : Revision} {session : Session} (h : ¬ c.Room k 1 → P) :
    ((c.shift k s₀).connect revision session).Follows P (Prod.map id (Reaction.shift k s₀))
      (c.connect revision session) := by
  unfold connect
  rw [isConnected_shift]
  by_cases hc : c.isConnected = true
  · rw [if_pos hc, if_pos hc]
    exact .same rfl
  · rw [if_neg hc, if_neg hc]
    refine (TokenSource.mint_shift h).bind fun r _ => ?_
    have henter := enter_shift (M := M) { c with
      tokens := r.2
      connection := some ⟨session, r.1⟩
      queue := .start (M := M) revision } k s₀ (.allAcked none)
    exact Checked.Follows.bind (.same henter) fun c' _ => .same rfl

theorem disconnect_shift :
    (c.shift k s₀).disconnect.Follows P (Prod.map id (Reaction.shift k s₀)) c.disconnect := by
  unfold disconnect
  rw [isConnected_shift]
  by_cases hc : c.isConnected = true
  · rw [if_pos hc, if_pos hc]
    exact Checked.Follows.bind (.same shutdown_shift) fun r _ => .same rfl
  · rw [if_neg hc, if_neg hc]
    exact .same rfl

theorem send_shift {op : M} (h : ¬ c.Room k 1 → P) :
    ((c.shift k s₀).send x op).Follows P (Prod.map id (Reaction.shift k s₀)) (c.send x op) := by
  unfold send
  rw [isConnected_shift]
  by_cases hc : c.isConnected = true
  · rw [if_pos hc, if_pos hc]
    refine .bind_same fun q _ => ?_
    obtain ⟨taken, queue⟩ := q
    cases taken with
    | error e =>
      exact Checked.Follows.bind (.same (shutdown_shift (c := { c with queue })))
        fun r _ => .same rfl
    | ok _ => exact (scheduleSend_shift (c := { c with queue }) h).bind fun r _ => .same rfl
  · rw [if_neg hc, if_neg hc]
    exact .same rfl

theorem peek_shift : (c.shift k s₀).peek = c.peek := by
  unfold peek
  rw [isConnected_shift, queue_shift]

theorem receive_shift : (c.shift k s₀).receive = Prod.map id (·.shift k s₀) c.receive := by
  unfold receive
  rw [isConnected_shift, queue_shift]
  split <;> rfl

/-- A call under tokens that are greater by `k` is the same call, unless the tokens run out. -/
theorem call_shift (k : Nat) (s₀ : Stats) (hc : c.Coherent) (call : Call M) :
    ((c.shift k s₀).call x (call.renumber (Token.shift k))).Follows (¬ c.Room k 2)
      (Prod.map id (Reaction.shift k s₀)) (c.call x call) := by
  have hroom : ¬ c.Room k 1 → ¬ c.Room k 2 := mt Nat.lt_of_succ_lt
  cases call with
  | connect revision session => exact (connect_shift hroom).map fun r => rfl
  | disconnect => exact disconnect_shift.map fun r => rfl
  | send op => exact (send_shift hroom).map fun r => rfl
  | peek =>
    refine .same ?_
    show Except.ok (Reply.got (c.shift k s₀).peek, _, _) = Except.ok (_, _)
    rw [peek_shift]
    rfl
  | receive =>
    refine .same ?_
    show Except.ok (Reply.got (c.shift k s₀).receive.1, (c.shift k s₀).receive.2, _) = Except.ok (_, _)
    rw [receive_shift]
    rfl
  | handle event => exact (handle_shift hc id).map fun r => rfl

/-! ### Arbitrary tokens -/

theorem Run.live_pos {log : List (Turn M)} (h : Run x log c) :
    0 < c.tokens.next ∧ ∀ t, c.Live t → 0 < t.number := by
  induction h with
  | new => exact ⟨Nat.one_pos, by rintro t (⟨ticket, hk, -⟩ | ⟨me, hme⟩) <;> contradiction⟩
  | @turn log c reply c' effects call h hcall ih =>
    obtain ⟨hnext, hlive⟩ := ih
    have ht := ((call_within h.coherent call).of_ok hcall).turnover
    have hle := ht.next_le
    refine ⟨Nat.lt_of_lt_of_le hnext hle, fun t htoken => ?_⟩
    rcases ht.live htoken with htoken | hmints
    · exact hlive t htoken
    · exact Nat.lt_of_lt_of_le hnext hmints.1

theorem Live.of_shift (h : (c.shift k s₀).Live token) : ∃ t, c.Live t ∧ token = t.shift k := by
  rcases h with ⟨ticket, hk, rfl⟩ | ⟨me, hme⟩
  · have hk : (c.phase.renumber (Token.shift k)).ticket? = some ticket := hk
    have hlive (ticket' : Ticket) (hk' : c.phase.ticket? = some ticket') : c.Live ticket'.token :=
      .inl ⟨ticket', hk', rfl⟩
    cases hp : c.phase with
    | uninitialised => rw [hp] at hk; cases hk
    | allAcked task =>
      rw [hp] at hk hlive
      cases task with
      | none => cases hk
      | some id => cases hk; exact ⟨id, hlive _ rfl, rfl⟩
    | waitingAck submit base batch answered =>
      rw [hp] at hk hlive
      cases answered with
      | true => cases hk
      | false => cases hk; exact ⟨submit, hlive _ rfl, rfl⟩
    | delayResync timer =>
      rw [hp] at hk hlive
      cases hk
      exact ⟨timer, hlive _ rfl, rfl⟩
    | waitingSync probe answered target =>
      rw [hp] at hk hlive
      cases answered with
      | true => cases hk
      | false => cases hk; exact ⟨probe, hlive _ rfl, rfl⟩
  · rw [connection_shift, Option.map_eq_some_iff] at hme
    obtain ⟨⟨session, t⟩, hconn, heq⟩ := hme
    cases heq
    exact ⟨t, .inr ⟨session, hconn⟩, rfl⟩

/-- A call with whatever tokens is the same call with all of them smaller by `k`: those that are not even
greater than `k` are not live. -/
theorem call_back (k : Nat) (s₀ : Stats) (hc : c.Coherent) (hpos : ∀ t, c.Live t → 0 < t.number)
    (call : Call M) :
    ((c.shift k s₀).call x call).Follows (¬ c.Room k 2)
      (Prod.map id (Reaction.shift k s₀)) (c.call x (call.renumber (Token.back k))) := by
  cases call with
  | handle event =>
    by_cases hk : k ≤ event.token.number
    · have h := call_shift (x := x) k s₀ hc (.handle (event.renumber (Token.back k)))
      rwa [Call.renumber, Event.shift_back hk] at h
    · -- The token is of an earlier session and becomes 0 here, so it is live on neither side.
      have hstale : ¬ (c.shift k s₀).Awaits event := by
        intro hl
        obtain ⟨t, -, heq⟩ := Live.of_shift hl.live
        have hnumber : event.token.number = k + t.number := congrArg Token.number heq
        omega
      have hstale' : ¬ c.Awaits (event.renumber (Token.back k)) := by
        intro hl
        have hlt := hpos _ hl.live
        rw [Event.token_renumber, Token.back_of_lt hk] at hlt
        exact Nat.lt_irrefl 0 hlt
      rw [Call.renumber, call_of_not_awaits hstale, call_of_not_awaits hstale']
      exact .same rfl
  | connect revision session => exact call_shift k s₀ hc (.connect revision session)
  | disconnect => exact call_shift k s₀ hc .disconnect
  | send op => exact call_shift k s₀ hc (.send op)
  | peek => exact call_shift k s₀ hc .peek
  | receive => exact call_shift k s₀ hc .receive

end

/-- The turn `t` is the turn `t'` under tokens that are greater by `k`, but for tokens in the call that no
channel waits for. -/
structure Turn.Matches (k : Nat) (t t' : Turn M) : Prop where
  call : t'.call = t.call.renumber (Token.back k)
  reply : t'.reply = t.reply
  effects : t.effects = t'.effects.map (·.renumber (Token.shift k))

def Turn.shift (k : Nat) (t : Turn M) : Turn M :=
  ⟨t.call.renumber (Token.shift k), t.reply, t.effects.map (·.renumber (Token.shift k))⟩

section
variable {x : Transformer M} {c c' : Channel M} {k : Nat} {s₀ : Stats} {log later : List (Turn M)}

/-- What a channel that is like a new one does is what a new one does. -/
theorem Run.as_new (h₀ : Run x log (shift k s₀ {})) (h : Run x (log ++ later) c) :
    ∃ fresh d, Run x fresh d ∧ List.Forall₂ (Turn.Matches k) later fresh ∧ c = d.shift k s₀ := by
  induction later using List.reverseRecOn generalizing c with
  | nil =>
    rw [List.append_nil] at h
    exact ⟨[], {}, .new, .nil, h.unique h₀⟩
  | append_singleton later t ih =>
    rw [← List.append_assoc] at h
    obtain ⟨c₁, h₁, hcall⟩ := run_concat_iff.1 h
    obtain ⟨fresh, d, hd, hmatches, rfl⟩ := ih h₁
    rcases call_back (x := x) k s₀ hd.coherent hd.live_pos.2 t.call with heq | ⟨-, herr⟩
    · rw [hcall] at heq
      cases hd' : d.call x (t.call.renumber (Token.back k)) with
      | error e => rw [hd'] at heq; cases heq
      | ok r =>
        obtain ⟨reply, d', es⟩ := r
        rw [hd'] at heq
        obtain ⟨hreply, hreaction⟩ := Prod.mk.inj (Except.ok.inj heq)
        obtain ⟨hc, hes⟩ := Prod.mk.inj hreaction
        refine ⟨_, d', hd.turn _ hd', List.rel_append hmatches (.cons ⟨rfl, ?_, hes⟩ .nil), hc⟩
        exact hreply.symm
    · rw [hcall] at herr
      cases herr

/-- What a new channel does is what a channel that is like a new one does, as long as its tokens last. -/
theorem Run.as_shifted {fresh : List (Turn M)} {d : Channel M} (h₀ : Run x log (shift k s₀ {}))
    (h : Run x fresh d) (hroom : d.Room k 2) :
    Run x (log ++ fresh.map (·.shift k)) (d.shift k s₀) := by
  induction h with
  | new => simpa using h₀
  | @turn fresh d reply d' effects call h hcall ih =>
    have hnext := ((call_within h.coherent call).of_ok hcall).turnover.next_le
    have hroom : d.Room k 2 := by
      unfold Room at *
      dsimp only at hnext
      omega
    rw [List.map_append, ← List.append_assoc]
    rcases call_shift (x := x) k s₀ h.coherent call with heq | ⟨hno, -⟩
    · rw [hcall] at heq
      exact (ih hroom).turn _ heq
    · exact absurd hroom hno

end

end Channel

end CoEdit
