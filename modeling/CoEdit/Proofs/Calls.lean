import CoEdit.Proofs.Moves

/-!
# Everything that a call of a channel does

A channel takes calls (`Channel.Call`) in any order and with any arguments, events among them that nobody
sent or that come late. `Reacts` lists what an event can lead to and `Does` what a call can, each with
the channel after it and its effects. Whatever the transformer, a call does one of these or ends in a
fault (`call_within`): a sum leaves its range, or the transformer emptied the batch in flight and the
channel notices (`Stops`).

The lists say what the channel does at all; what it keeps is then read off case by case, without
opening the channel's functions again. `Channel.Run` is a new channel after any calls, with a record of
them.
-/

namespace CoEdit

/-- The failure that a response reports. -/
def Event.failure? {M : Type} : Event M → Option ServiceError
  | .submitResponse _ (.error e) | .probeResponse _ (.error e) => some e
  | _ => none

namespace Channel

variable {M : Type}

/-- A channel after its session. -/
def closed (c : Channel M) : Channel M :=
  { c with connection := none, queue := {}, phase := .uninitialised }

/-- The event brings what the channel waits for or comes over its connection. -/
def Awaits (c : Channel M) : Event M → Prop
  | .task task => c.phase.ticket? = some (.task task)
  | .submitResponse token _ => c.phase.ticket? = some (.submit token)
  | .probeResponse token _ => c.phase.ticket? = some (.probe token)
  | .incoming token _ => ∃ me, c.connection = some ⟨me, token⟩

/-- What a phase says of the data of a channel, whatever its transformer. -/
def Phase.Fits (connection : Option Connection) (q : Queue M) : Phase → Prop
  | .uninitialised => connection = none ∧ q = {}
  | .allAcked task => connection.isSome ∧ q.unacked = [] ∧ (task = none → q.queued = [])
  | .waitingAck .. | .delayResync _ => connection.isSome
  | .waitingSync _ answered target => connection.isSome ∧ answered = target.isSome

/-- What the data of a channel are like between its calls, and before `maybeSynced` except that it may
have come up to the revision that it waits for. -/
structure Fitting (c : Channel M) : Prop where
  fits : c.phase.Fits c.connection c.queue
  echoes : c.queue.expectedEchoes ≤ c.queue.revision.number

structure Coherent (c : Channel M) : Prop extends c.Fitting where
  lags : c.Lags

section
variable {c : Channel M}

theorem Fitting.inFlight (h : c.Fitting) (hu : c.queue.unacked ≠ []) : c.state.InFlight := by
  have hfits := h.fits
  unfold state
  cases hp : c.phase with
  | uninitialised =>
    rw [hp] at hfits
    rw [hfits.2] at hu
    exact hu rfl
  | allAcked task =>
    rw [hp] at hfits
    exact hu hfits.2.1
  | _ => trivial

theorem Fitting.eq_uninitialised (h : c.Fitting) (hc : c.connection = none) :
    c.phase = .uninitialised := by
  have hfits := h.fits
  cases hp : c.phase with
  | uninitialised => rfl
  | allAcked task => rw [hp, hc] at hfits; cases hfits.1
  | waitingAck => rw [hp, hc] at hfits; cases hfits
  | delayResync => rw [hp, hc] at hfits; cases hfits
  | waitingSync => rw [hp, hc] at hfits; cases hfits.1

theorem Fitting.connection_eq_none (h : c.Fitting) (hs : c.state = .uninitialised) :
    c.connection = none := by
  have hfits := h.fits
  unfold state at hs
  cases hp : c.phase with
  | uninitialised => rw [hp] at hfits; exact hfits.1
  | _ => rw [hp] at hs; cases hs

theorem Fitting.isSome (h : c.Fitting) (hs : c.state.InFlight) : c.connection.isSome := by
  have hfits := h.fits
  unfold state at hs
  cases hp : c.phase with
  | uninitialised =>
    rw [hp] at hs
    exact hs.elim
  | allAcked task =>
    rw [hp] at hs
    exact hs.elim
  | waitingAck => rwa [hp] at hfits
  | delayResync => rwa [hp] at hfits
  | waitingSync =>
    rw [hp] at hfits
    exact hfits.1

end

/-- What ends the session `me` when it is received. -/
inductive Breaks (x : Transformer M) (q : Queue M) (me : Session) :
    Except ServiceError (Delivery M) → Error → Prop
  | lost (e) : Breaks x q me (.error e) (.receiveFailed e.text)
  | strayEcho {d expected} (hd : d.session = me) (he : q.expectedEchoes ≠ 0)
      (hexp : expected.number + q.expectedEchoes = q.revision.number + 1)
      (hr : d.revision ≠ expected) :
      Breaks x q me (.ok d) (.queue (.unexpectedEcho expected d.revision))
  | untimely {d e} (hd : d.session = me → q.expectedEchoes = 0) (h : q.Untimely d.revision e) :
      Breaks x q me (.ok d) (.queue e)
  | unmatched {d} (hd : d.session = me) (ht : q.Timely d.revision) (hu : q.unacked = []) :
      Breaks x q me (.ok d) (.queue (.nothingToAck d.revision))
  | rejected {d e} (hd : d.session ≠ me) (ht : q.Timely d.revision) (h : q.Rejects x d.op e) :
      Breaks x q me (.ok d) (.queue (.transform e))

/-- What the session `me` does with a delivery that it accepts. -/
inductive Accepts (x : Transformer M) (c : Channel M) (me : Session) (d : Delivery M) :
    Reaction M → Prop
  /-- It is the echo of an operation that a response confirmed. -/
  | recognises {k} (hd : d.session = me) (he : c.queue.expectedEchoes = k + 1)
      (hr : d.revision.number + k = c.queue.revision.number) : Accepts x c me d ({ c with
        queue := { c.queue with expectedEchoes := k }
        stats := { c.stats with duplicateAcks := c.stats.duplicateAcks + 1 } }, [])
  /-- It confirms the oldest operation of several. -/
  | confirms {op rest} (hd : d.session = me) (ht : c.queue.Timely d.revision)
      (hu : c.queue.unacked = op :: rest) (hne : rest ≠ []) : Accepts x c me d ({ c with
        queue := { c.queue with revision := d.revision, unacked := rest }
        stats := { c.stats with directAcks := c.stats.directAcks + 1 } },
      [.acked d.op false])
  /-- It confirms the last operation of the batch. -/
  | confirmsLast {op task tokens effects} (hd : d.session = me) (ht : c.queue.Timely d.revision)
      (hu : c.queue.unacked = [op]) (hs : c.Schedules task tokens effects) : Accepts x c me d ({ c with
        queue := { c.queue with revision := d.revision, unacked := [] }
        tokens
        stats := { c.stats with directAcks := c.stats.directAcks + 1 }
        phase := .allAcked task },
      c.phase.release ++ .resetBackoff :: effects ++ [.acked d.op c.queue.queued.isEmpty])
  /-- It is of another session and moved past what is in flight and queued. -/
  | takesIn {flight rest} (hd : d.session ≠ me) (ht : c.queue.Timely d.revision)
      (hf : x.Passes c.queue.unacked [d.op] flight)
      (hr : x.Passes c.queue.queued flight.server rest) : Accepts x c me d ({ c with
        queue := { c.queue with
          revision := d.revision
          unacked := flight.client
          queued := rest.client
          pending := c.queue.pending ++ rest.server }
        stats := { c.stats with remoteOps := c.stats.remoteOps + 1 } },
      [.remote d.op])

/-- What a channel does when it is handed an event. -/
inductive Reacts (x : Transformer M) (c : Channel M) : Event M → Reaction M → Prop
  | stale {event} (h : ¬ c.Awaits event) : Reacts x c event (c, [])
  /-- What is queued is submitted for the first time. -/
  | submits {id} (hp : c.phase = .allAcked (some id)) (hu : c.queue.unacked = [])
      (hq : c.queue.queued ≠ []) : Reacts x c (.task ⟨id, .maybeSend⟩) ({ c with
        queue := { c.queue with queued := [], unacked := c.queue.queued }
        tokens := ⟨c.tokens.next + 1⟩
        stats := { c.stats with submits := c.stats.submits + 1 }
        phase := .waitingAck ⟨c.tokens.next⟩ c.queue.revision c.queue.queued.length false },
      [.submit ⟨c.tokens.next⟩ c.queue.revision c.queue.queued])
  | lapses {id} (hp : c.phase = .allAcked (some id)) (hq : c.queue.queued = []) :
      Reacts x c (.task ⟨id, .maybeSend⟩) ({ c with phase := .allAcked none }, [])
  | probes {timer} (hp : c.phase = .delayResync timer) : Reacts x c (.task ⟨timer, .resync⟩) ({ c with
        tokens := ⟨c.tokens.next + 1⟩
        stats := { c.stats with probes := c.stats.probes + 1 }
        phase := .waitingSync ⟨c.tokens.next⟩ false none },
      [.probe ⟨c.tokens.next⟩])
  /-- The response confirms what is left of the batch. -/
  | confirms {submit base batch applied task tokens effects}
      (hp : c.phase = .waitingAck submit base batch false) (hb : applied.number = base.number + batch)
      (hu : c.queue.unacked ≠ []) (hr : applied.number = c.queue.revision.number + c.queue.unacked.length)
      (hs : c.Schedules task tokens effects) :
      Reacts x c (.submitResponse submit (.ok applied)) ({ c with
        queue := { c.queue with
          revision := applied
          unacked := []
          expectedEchoes := c.queue.expectedEchoes + c.queue.unacked.length }
        tokens
        stats := { c.stats with eagerAcks := c.stats.eagerAcks + c.queue.unacked.length }
        phase := .allAcked task },
      .resetBackoff :: effects ++ ackedAll c.queue.queued.isEmpty c.queue.unacked)
  /-- The response leaves it to the echoes to confirm the batch. -/
  | defers {submit base batch applied} (hp : c.phase = .waitingAck submit base batch false)
      (hr : applied.number ≠ base.number + batch ∨ c.queue.unacked = [] ∨
        applied.number ≠ c.queue.revision.number + c.queue.unacked.length) :
      Reacts x c (.submitResponse submit (.ok applied))
        ({ c with phase := .waitingAck submit base batch true }, [])
  /-- The probe tells which revision to wait for. -/
  | learns {probe target revision r} (hp : c.phase = .waitingSync probe false target)
      (hs : Syncs { c with phase := .waitingSync probe true (some revision) } r) :
      Reacts x c (.probeResponse probe (.ok revision)) r
  | retries {event message} (h : c.Awaits event) (he : event.failure? = some (.retryable message)) :
      Reacts x c event ({ c with
        tokens := ⟨c.tokens.next + 1⟩
        stats := { c.stats with retryableFailures := c.stats.retryableFailures + 1 }
        phase := .delayResync ⟨c.tokens.next⟩ },
      [.scheduleAfterDelay ⟨⟨c.tokens.next⟩, .resync⟩])
  | givesUp {event message} (h : c.Awaits event) (he : event.failure? = some (.fatal message)) :
      Reacts x c event (c.closed, [.unsubscribe, .failed (.server message)])
  | breaks {me token message error} (hc : c.connection = some ⟨me, token⟩)
      (h : Breaks x c.queue me message error) : Reacts x c (.incoming token message)
        (c.closed, c.phase.release ++ [.unsubscribe, .failed error])
  | accepts {me token d r₁ r} (hc : c.connection = some ⟨me, token⟩) (h : Accepts x c me d r₁)
      (hs : Syncs r₁.1 r) : Reacts x c (.incoming token (.ok d)) (r.1, r₁.2 ++ r.2)

section
variable {x : Transformer M} {c : Channel M} {event : Event M} {phase : Phase} {me : Session}
  {token id : Token} {d : Delivery M}

theorem shutdown_eq : c.shutdown = .ok (c.closed, c.phase.release ++ [.unsubscribe]) := rfl

theorem fail_eq (error : Error) :
    c.fail error = .ok (c.closed, c.phase.release ++ [.unsubscribe, .failed error]) := by
  unfold fail
  rw [shutdown_eq]
  show Except.ok _ = _
  rw [List.append_assoc]; rfl

theorem scheduleSend_of_ne (hp : c.phase ≠ .allAcked none) : c.scheduleSend = .ok (c, []) := by
  unfold scheduleSend; split
  · exact absurd ‹_› hp
  · rfl

theorem maybeSend_counts (h : c.Coherent) (hp : c.phase = .allAcked (some id)) :
    (c.maybeSend id).Counts (Reacts x c (.task ⟨id, .maybeSend⟩)) := by
  have hfits := h.fits
  rw [hp] at hfits
  obtain ⟨hc, hu, -⟩ := hfits
  unfold maybeSend
  rw [hp]; dsimp only
  rw [if_neg (not_not_intro rfl)]
  by_cases hq : c.queue.queued = []
  · rw [if_pos (by simp [hq])]
    exact Reacts.lapses hp hq
  · rw [if_neg (by simp [hu, hq]), Queue.launch_of_nil hu]
    refine (transmit_counts ?_ ?_ rfl).mono fun r hr => ?_
    · exact hc
    · exact hq
    · rw [hr]
      exact .submits hp hu hq

theorem acknowledgeEagerly_counts {base applied : Revision} {batch : Nat} (hc : c.connection.isSome)
    (hp : c.phase = .waitingAck token base batch false) :
    (acknowledgeEagerly { c with phase := .waitingAck token base batch true } applied base
      batch).Counts (Reacts x c (.submitResponse token (.ok applied))) := by
  unfold acknowledgeEagerly
  split
  · rename_i hb
    exact Reacts.defers hp (.inl (mt Revision.since_eq_some_iff.2 hb))
  · rename_i hb
    have hb := Revision.since_eq_some_iff.1 (Decidable.not_not.1 hb)
    refine Queue.ackBatch_counts.bind fun r hr => ?_
    rcases hr with ⟨rfl, hr⟩ | ⟨hu, hr, rfl⟩
    · exact Reacts.defers hp (.inr hr)
    · refine Checked.Within.bind (allAcknowledged_counts ?_ rfl rfl) fun r hs => ?_
      · exact hc
      obtain ⟨task, tokens, effects, hs, rfl⟩ := hs
      have h := Reacts.confirms (x := x) hp hb hu hr hs
      rw [← Bool.and_true c.queue.queued.isEmpty] at h
      exact h

theorem onFailure_within {e : ServiceError} (hl : c.Awaits event) (he : event.failure? = some e)
    (hs : c.state.InFlight) (hc : c.connection.isSome)
    (hm : phase.state.canMoveTo .delayResync) (hr : phase.release (M := M) = []) :
    (onFailure { c with phase } e).Within c.Stops (Reacts x c event) := by
  cases e with
  | retryable message =>
    refine ((scheduleResync_within ?_ ?_).weaken fun f hf => ?_).mono fun r hr => ?_
    · exact hc
    · exact hm
    · exact hf.imp id fun hf => ⟨hs, hf.2⟩
    · rw [hr]
      exact .retries hl he
  | fatal message =>
    show (fail { c with phase } (.server message)).Within _ _
    rw [fail_eq, hr]
    exact Reacts.givesUp hl he

theorem onSubmitResponse_within {base : Revision} {batch : Nat}
    {result : Except ServiceError Revision} (hc : c.connection.isSome)
    (hp : c.phase = .waitingAck token base batch false) :
    (c.onSubmitResponse token result).Within c.Stops (Reacts x c (.submitResponse token result)) := by
  have hl : c.Awaits (.submitResponse token result) := by rw [Awaits, hp]; rfl
  unfold onSubmitResponse
  rw [hp]; dsimp only
  rw [if_neg (not_not_intro rfl)]
  cases result with
  | ok applied => exact (acknowledgeEagerly_counts hc hp).weaken fun _ => .inl
  | error e => exact onFailure_within hl rfl (by rw [state, hp]; trivial) hc rfl rfl

theorem onProbeResponse_within {target : Option Revision} {result : Except ServiceError Revision}
    (hc : c.connection.isSome) (hp : c.phase = .waitingSync token false target) :
    (c.onProbeResponse token result).Within c.Stops (Reacts x c (.probeResponse token result)) := by
  have hl : c.Awaits (.probeResponse token result) := by rw [Awaits, hp]; rfl
  unfold onProbeResponse
  rw [hp]; dsimp only
  rw [if_neg (not_not_intro rfl)]
  cases result with
  | ok revision =>
    refine (Checked.Within.weaken (maybeSynced_counts ?_) fun _ => .inl).mono fun r hr => ?_
    · exact hc
    · exact .learns hp hr
  | error e => exact onFailure_within hl rfl (by rw [state, hp]; trivial) hc rfl rfl

/-! ### Deliveries -/

/-- A delivery is refused with a reason, or accepted. -/
def Receives (x : Transformer M) (c : Channel M) (me : Session) (d : Delivery M)
    (r : Except QueueError Unit × Reaction M) : Prop :=
  (∃ e q, Breaks x c.queue me (.ok d) (.queue e) ∧ r = (.error e, { c with queue := q }, [])) ∨
    ∃ r₁, Accepts x c me d r₁ ∧ r = (.ok (), r₁)

theorem onEcho_counts (h : c.Coherent) (hd : d.session = me) :
    (c.onEcho d.revision d.op).Counts (Receives x c me d) := by
  unfold onEcho
  refine (Queue.takeEcho_counts (Nat.le_succ_of_le h.echoes)).bind fun r hr => ?_
  rcases hr with ⟨he, rfl⟩ | ⟨k, hk, hr, rfl⟩ | ⟨expected, he, hexp, hr, rfl⟩
  · refine Queue.ackOldest_counts.bind fun r hr => ?_
    rcases hr with ⟨op, rest, ht, hu, rfl⟩ | ⟨e, hu, rfl⟩ | ⟨ht, hu, rfl⟩
    · dsimp only
      by_cases hne : rest = []
      · subst hne
        have hs : c.state.InFlight := h.inFlight (by simp [hu])
        refine Checked.Within.bind (allAcknowledged_counts ?_ rfl ?_) fun r hs => ?_
        · exact h.isSome hs
        · exact hs.canMoveTo_allAcked
        obtain ⟨task, tokens, effects, hs, rfl⟩ := hs
        have h := Accepts.confirmsLast (x := x) hd ht hu hs
        rw [← Bool.and_true c.queue.queued.isEmpty] at h
        exact .inr ⟨_, h, rfl⟩
      · rw [if_neg (by simpa using hne)]
        have hclean : (c.queue.queued.isEmpty && rest.isEmpty) = false := by simp [hne]
        refine .inr ⟨_, .confirms hd ht hu hne, ?_⟩
        rw [← hclean]; rfl
    · exact .inl ⟨e, _, .untimely (fun _ => he) hu, rfl⟩
    · exact .inl ⟨_, _, .unmatched hd ht hu, rfl⟩
  · exact .inr ⟨_, .recognises hd hk hr, rfl⟩
  · exact .inl ⟨_, _, .strayEcho hd he hexp hr, rfl⟩

theorem onRemote_counts (hd : d.session ≠ me) :
    (c.onRemote x d.revision d.op).Counts (Receives x c me d) := by
  unfold onRemote
  refine Queue.serverOp_counts.bind fun r hr => ?_
  rcases hr with ⟨flight, rest, ht, hf, hr, rfl⟩ | ⟨e, hu, rfl⟩ | ⟨e, q, ht, hr, rfl⟩
  · exact .inr ⟨_, .takesIn hd ht hf hr, rfl⟩
  · exact .inl ⟨e, _, .untimely (fun h => absurd h hd) hu, rfl⟩
  · exact .inl ⟨_, q, .rejected hd ht hr, rfl⟩

theorem Accepts.connection_eq {r : Reaction M} (h : Accepts x c me d r) :
    r.1.connection = c.connection := by
  cases h <;> rfl

theorem onIncoming_within {F : Fault → Prop} {P : Except QueueError Unit × Reaction M → Prop}
    {Q : Reaction M → Prop} (hc : c.connection = some ⟨me, token⟩)
    (hd : (if d.session = me then c.onEcho d.revision d.op
      else c.onRemote x d.revision d.op).Within F P)
    (hok : ∀ r, P (.ok (), r) → r.1.maybeSynced.Within F fun r' => Q (r'.1, r.2 ++ r'.2))
    (herror : ∀ e r, P (.error e, r) →
      (r.1.fail (.queue e)).Within F fun r' => Q (r'.1, r.2 ++ r'.2)) :
    (c.onIncoming x token (.ok d)).Within F Q := by
  unfold onIncoming
  rw [hc]; dsimp only
  rw [if_neg (not_not_intro rfl)]
  by_cases hme : d.session = me
  all_goals
    simp only [hme, if_true, if_false] at hd ⊢
    refine hd.bind fun r hr => ?_
    obtain ⟨result, r⟩ := r
    cases result with
    | ok u => exact (hok r hr).bind fun r' hr' => hr'
    | error e => exact (herror e r hr).bind fun r' hr' => hr'

theorem onIncoming_counts {message : Except ServiceError (Delivery M)} (h : c.Coherent)
    (hc : c.connection = some ⟨me, token⟩) :
    (c.onIncoming x token message).Counts (Reacts x c (.incoming token message)) := by
  cases message with
  | error e =>
    unfold onIncoming
    rw [hc]; dsimp only
    rw [if_neg (not_not_intro rfl), fail_eq]
    exact Reacts.breaks hc (.lost e)
  | ok d =>
    have hreceives : (if d.session = me then c.onEcho d.revision d.op
        else c.onRemote x d.revision d.op).Counts (Receives x c me d) := by
      split
      · rename_i hd; exact onEcho_counts h hd
      · rename_i hd; exact onRemote_counts hd
    refine onIncoming_within hc hreceives (fun r hr => ?_) fun e r hr => ?_
    · rcases hr with ⟨e, q, hb, heq⟩ | ⟨r₁, ha, heq⟩
      · cases heq
      · cases heq
        refine (maybeSynced_counts ?_).mono fun r' hr' => .accepts hc ha hr'
        rw [ha.connection_eq, hc]; rfl
    · rcases hr with ⟨e, q, hb, heq⟩ | ⟨r₁, ha, heq⟩
      · cases heq
        rw [fail_eq]
        exact Reacts.breaks hc hb
      · cases heq

theorem handle_of_not_awaits (hl : ¬ c.Awaits event) : c.handle x event = c.idle := by
  cases event with
  | incoming connection message =>
    show c.onIncoming x connection message = _
    unfold onIncoming; split
    · rfl
    · rename_i live hc
      exact if_pos (by rintro rfl; exact hl ⟨live.session, hc⟩)
  | _ => exact handle_of_stale rfl hl

/-- Whatever a coherent channel is handed, it does one of the things of the list. -/
theorem handle_within (h : c.Coherent) : (c.handle x event).Within c.Stops (Reacts x c event) := by
  have hfits := h.fits
  by_cases hl : c.Awaits event
  · cases event with
    | task task =>
      obtain ⟨id, kind⟩ := task
      cases kind with
      | maybeSend =>
        exact (maybeSend_counts h (Phase.ticket?_eq_send_iff.1 hl)).weaken fun _ => .inl
      | resync =>
        have hp := Phase.ticket?_eq_resync_iff.1 hl
        rw [hp] at hfits
        refine (startProbe_within hp hfits).mono fun r hr => ?_
        rw [hr]
        exact .probes hp
    | submitResponse token result =>
      obtain ⟨base, batch, hp⟩ := Phase.ticket?_eq_submit_iff.1 hl
      rw [hp] at hfits
      exact onSubmitResponse_within hfits hp
    | probeResponse token result =>
      obtain ⟨target, hp⟩ := Phase.ticket?_eq_probe_iff.1 hl
      rw [hp] at hfits
      exact onProbeResponse_within hfits.1 hp
    | incoming connection message =>
      obtain ⟨me, hc⟩ := hl
      exact (onIncoming_counts h hc).weaken fun _ => .inl
  · rw [handle_of_not_awaits hl]
    exact Reacts.stale hl

end

/-- What a channel can be called for. -/
inductive Call (M : Type) where
  | connect (revision : Revision) (session : Session)
  | disconnect
  | send (op : M)
  | peek
  | receive
  | handle (event : Event M)

/-- What a call answers. -/
inductive Reply (M : Type) where
  | done (result : Except Error Unit)
  | got (result : Except Error (Option M))
  | handled

def call (x : Transformer M) (c : Channel M) : Call M → Checked (Reply M × Reaction M)
  | .connect revision session => Prod.map .done id <$> c.connect revision session
  | .disconnect => Prod.map .done id <$> c.disconnect
  | .send op => Prod.map .done id <$> c.send x op
  | .peek => .ok (.got c.peek, c, [])
  | .receive => .ok (.got c.receive.1, c.receive.2, [])
  | .handle event => (.handled, ·) <$> c.handle x event

/-- The answer to a call that needs a session. -/
def Call.unconnected : Call M → Option (Reply M)
  | .disconnect | .send _ => some (.done (.error .notConnected))
  | .peek | .receive => some (.got (.error .notConnected))
  | .connect .. | .handle _ => none

/-- What a channel does when it is called. -/
inductive Does (x : Transformer M) (c : Channel M) : Call M → Reply M → Reaction M → Prop
  | connects {revision session} (hc : c.connection = none) :
      Does x c (.connect revision session) (.done (.ok ())) ({ c with
        queue := .start revision
        connection := some ⟨session, ⟨c.tokens.next⟩⟩
        tokens := ⟨c.tokens.next + 1⟩
        phase := .allAcked none },
      [.resetBackoff, .subscribe ⟨c.tokens.next⟩ revision])
  | connected {revision session} (hc : c.connection.isSome) :
      Does x c (.connect revision session) (.done (.error .alreadyConnected)) (c, [])
  | unconnected {call reply} (hc : c.connection = none) (hr : call.unconnected = some reply) :
      Does x c call reply (c, [])
  | disconnects (hc : c.connection.isSome) :
      Does x c .disconnect (.done (.ok ())) (c.closed, c.phase.release ++ [.unsubscribe])
  /-- An operation is queued, and its transmission scheduled if nothing is in flight. -/
  | schedules {op t task tokens effects} (hp : c.phase = .allAcked none) (ht : c.queue.Stages x op t)
      (hs : Schedules { c with
        queue := { c.queue with queued := c.queue.queued ++ t.client, pending := t.server } }
        task tokens effects) : Does x c (.send op) (.done (.ok ())) ({ c with
        queue := { c.queue with queued := c.queue.queued ++ t.client, pending := t.server }
        tokens
        phase := .allAcked task }, effects)
  | stages {op t} (hc : c.connection.isSome) (hp : c.phase ≠ .allAcked none)
      (ht : c.queue.Stages x op t) : Does x c (.send op) (.done (.ok ())) ({ c with
        queue := { c.queue with queued := c.queue.queued ++ t.client, pending := t.server } }, [])
  | rejects {op e} (hc : c.connection.isSome)
      (he : c.queue.pending ≠ [] ∧ x [op] c.queue.pending = .error (.rejected e)) :
      Does x c (.send op) (.done (.error (.queue (.transform e))))
        (c.closed, c.phase.release ++ [.unsubscribe])
  | peeks (hc : c.connection.isSome) :
      Does x c .peek (.got (.ok c.queue.pending.head?)) (c, [])
  | receives (hc : c.connection.isSome) : Does x c .receive (.got (.ok c.queue.pending.head?))
      ({ c with queue := { c.queue with pending := c.queue.pending.tail } }, [])
  | reacts {event r} (h : Reacts x c event r) : Does x c (.handle event) .handled r

section
variable {x : Transformer M} {c : Channel M} {op : M}

theorem connection_eq_none_of_not (h : ¬ c.isConnected) : c.connection = none := by
  simpa [isConnected] using h

theorem connect_counts {revision : Revision} {session : Session} (h : c.Coherent) :
    (c.connect revision session).Counts fun r =>
      Does x c (.connect revision session) (.done r.1) r.2 := by
  unfold connect
  by_cases hc : c.isConnected
  · rw [if_pos hc]
    exact Does.connected hc
  · rw [if_neg hc]
    have hc := connection_eq_none_of_not hc
    have hp : c.phase = .uninitialised := h.eq_uninitialised hc
    refine TokenSource.mint_counts.bind fun r hr => ?_
    rw [hr]; dsimp only
    refine Checked.Within.bind (enter_counts ?_ ?_) fun c' hc' => ?_
    · show c.state.canMoveTo .allAcked
      rw [state, hp]; rfl
    · rfl
    · rw [hc']
      exact Does.connects hc

theorem disconnect_counts : c.disconnect.Counts fun r => Does x c .disconnect (.done r.1) r.2 := by
  unfold disconnect
  by_cases hc : c.isConnected
  · rw [if_pos hc, shutdown_eq]
    exact Does.disconnects hc
  · rw [if_neg hc]
    exact Does.unconnected (connection_eq_none_of_not hc) rfl

theorem send_counts (h : c.Coherent) :
    (c.send x op).Counts fun r => Does x c (.send op) (.done r.1) r.2 := by
  unfold send
  by_cases hc : c.isConnected
  · rw [if_pos hc]
    refine Queue.clientOp_counts.bind fun r hr => ?_
    rcases hr with ⟨t, ht, rfl⟩ | ⟨e, he, rfl⟩
    · dsimp only
      by_cases hp : c.phase = .allAcked none
      · have hfits := h.fits
        rw [hp] at hfits
        refine Checked.Within.bind (scheduleSend_counts ?_ ?_) fun r hs => ?_
        · exact hp
        · exact hfits.2.1
        · obtain ⟨task, tokens, effects, hs, rfl⟩ := hs
          exact .schedules hp ht hs
      · rw [scheduleSend_of_ne (by exact hp)]
        exact Does.stages hc hp ht
    · dsimp only
      rw [shutdown_eq]
      exact Does.rejects hc he
  · rw [if_neg hc]
    exact Does.unconnected (connection_eq_none_of_not hc) rfl

theorem peek_does : Does x c .peek (.got c.peek) (c, []) := by
  unfold peek
  by_cases hc : c.isConnected
  · rw [if_pos hc]
    exact .peeks hc
  · rw [if_neg hc]
    exact .unconnected (connection_eq_none_of_not hc) rfl

theorem receive_does : Does x c .receive (.got c.receive.1) (c.receive.2, []) := by
  unfold receive
  by_cases hc : c.isConnected
  · rw [if_pos hc]
    exact .receives hc
  · rw [if_neg hc]
    exact .unconnected (connection_eq_none_of_not hc) rfl

/-- Whatever a coherent channel is called for, it does one of the things of the list. -/
theorem call_within (h : c.Coherent) (call : Call M) :
    (c.call x call).Within c.Stops fun r => Does x c call r.1 r.2 := by
  have hcounts {α : Type} {y : Checked α} {Q : α → Prop} (hy : y.Counts Q) : y.Within c.Stops Q :=
    hy.weaken fun _ => .inl
  cases call with
  | connect revision session => exact Checked.within_map.2 (hcounts (connect_counts h))
  | disconnect => exact Checked.within_map.2 (hcounts disconnect_counts)
  | send op => exact Checked.within_map.2 (hcounts (send_counts h))
  | peek => exact peek_does
  | receive => exact receive_does
  | handle event => exact Checked.within_map.2 ((handle_within h).mono fun r hr => .reacts hr)

end

/-- A call with what came of it. -/
structure Turn (M : Type) where
  call : Call M
  reply : Reply M
  effects : List (Effect M)

/-- `c` is a new channel after the calls of `log`. -/
inductive Run (x : Transformer M) : List (Turn M) → Channel M → Prop
  | new : Run x [] {}
  | turn {log c reply c' effects} (call : Call M) : Run x log c →
      c.call x call = .ok (reply, c', effects) → Run x (log ++ [⟨call, reply, effects⟩]) c'

end Channel

end CoEdit
