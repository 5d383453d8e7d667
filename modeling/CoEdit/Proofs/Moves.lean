import CoEdit.Channel.Basic
import CoEdit.Proofs.Diagram

/-!
# The moves of a channel

What each move between two phases yields when the data of the channel allow it: the phase it leads to,
the tokens it takes and the effects it asks for. The checks that a channel makes on itself (`enter`,
`launch`) never fail here, so a move ends in a fault only if the tokens run out. Without a batch to move
on with, a channel in flight stops (`Stops`).

A phase that waits for something holds a ticket for it (`Phase.ticket?`): for a task, for the response
to a submit or for the response to a probe. Effects ask for what a ticket stands for and events bring
it.
-/

namespace CoEdit

variable {M : Type}

theorem TokenSource.mint_counts {s : TokenSource} :
    s.mint.Counts fun r => r = (⟨s.next⟩, ⟨s.next + 1⟩) := by
  unfold TokenSource.mint
  refine Checked.counts_add.bind fun n hn => ?_
  rw [hn.2]; rfl

/-- Something to wait for. -/
inductive Ticket where
  | task (task : Task)
  | submit (token : Token)
  | probe (token : Token)
deriving DecidableEq, Repr

def Ticket.token : Ticket → Token
  | .task t => t.id
  | .submit t | .probe t => t

/-- What an event brings. -/
def Event.ticket? : Event M → Option Ticket
  | .task t => some (.task t)
  | .submitResponse token _ => some (.submit token)
  | .probeResponse token _ => some (.probe token)
  | .incoming .. => none

/-- What an effect leads to. -/
def Effect.ticket? : Effect M → Option Ticket
  | .schedule t | .scheduleAfterDelay t => some (.task t)
  | .submit token .. => some (.submit token)
  | .probe token => some (.probe token)
  | _ => none

theorem ackedAll_cons_cons {clean : Bool} {op op' : M} {ops : List M} :
    ackedAll clean (op :: op' :: ops) = .acked op false :: ackedAll clean (op' :: ops) := rfl

theorem mem_ackedAll {clean : Bool} {e : Effect M} : ∀ {ops : List M},
    e ∈ ackedAll clean ops → ∃ op clean', e = .acked op clean'
  | [], h => nomatch h
  | [op], h => ⟨op, clean, List.mem_singleton.1 h⟩
  | op :: _ :: _, h => by
    rw [ackedAll_cons_cons] at h
    rcases List.mem_cons.1 h with rfl | h
    · exact ⟨op, false, rfl⟩
    · exact mem_ackedAll h

namespace Channel

/-- The states in which a batch is in flight. -/
def State.InFlight : State → Prop
  | .waitingAck | .delayResync | .waitingSync => True
  | .uninitialised | .allAcked => False

theorem State.inFlight_of_canMoveTo {s : State} (h : s.canMoveTo .delayResync) : s.InFlight := by
  cases s with
  | uninitialised => cases h
  | allAcked => cases h
  | _ => trivial

theorem State.InFlight.canMoveTo_allAcked {s : State} (h : s.InFlight) : s.canMoveTo .allAcked := by
  cases s with
  | uninitialised => exact h.elim
  | allAcked => exact h.elim
  | _ => rfl

/-- What a phase waits for. -/
def Phase.ticket? : Phase → Option Ticket
  | .allAcked (some id) => some (.task ⟨id, .maybeSend⟩)
  | .waitingAck submit _ _ false => some (.submit submit)
  | .delayResync timer => some (.task ⟨timer, .resync⟩)
  | .waitingSync probe false _ => some (.probe probe)
  | _ => none

variable {c : Channel M} {phase : Phase}

theorem enter_counts (hm : c.state.canMoveTo phase.state) (hv : violation { c with phase } = none) :
    (c.enter phase).Counts fun c' => c' = { c with phase } := by
  unfold enter
  dsimp only
  rw [if_pos (show c.state.canMoveTo (state { c with phase }) from hm), hv]
  rfl

theorem violation_of_flight (hp : phase.state.InFlight) (hc : c.connection.isSome) :
    violation { c with phase } =
      if c.queue.unacked.isEmpty then some .flightWithoutBatch else none := by
  obtain ⟨connection, hc⟩ := Option.isSome_iff_exists.1 hc
  cases phase with
  | uninitialised => exact hp.elim
  | allAcked task => exact hp.elim
  | _ => simp [violation, hc]

theorem violation_of_acked {task : Option Token} (hc : c.connection.isSome)
    (hu : c.queue.unacked = []) (hq : task.isSome → c.queue.queued ≠ []) :
    violation { c with phase := .allAcked task } = none := by
  obtain ⟨connection, hc⟩ := Option.isSome_iff_exists.1 hc
  cases task <;> simp_all [violation]

theorem enter_within {F : Fault → Prop} (hm : c.state.canMoveTo phase.state)
    (hp : phase.state.InFlight) (hc : c.connection.isSome)
    (hF : c.queue.unacked = [] → F (.violated .flightWithoutBatch phase.state)) :
    (c.enter phase).Within F fun c' => c' = { c with phase } := by
  unfold enter
  dsimp only
  rw [if_pos (show c.state.canMoveTo (state { c with phase }) from hm), violation_of_flight hp hc]
  by_cases hu : c.queue.unacked = []
  · rw [if_pos (List.isEmpty_iff.2 hu)]
    exact hF hu
  · rw [if_neg (mt List.isEmpty_iff.1 hu)]
    exact rfl

theorem transmit_counts (hc : c.connection.isSome) (hu : c.queue.unacked ≠ [])
    (hm : c.state.canMoveTo .waitingAck) : c.transmit.Counts fun r =>
    r = ({ c with
        tokens := ⟨c.tokens.next + 1⟩
        phase := .waitingAck ⟨c.tokens.next⟩ c.queue.revision c.queue.unacked.length false },
      [.submit ⟨c.tokens.next⟩ c.queue.revision c.queue.unacked]) := by
  unfold transmit
  refine TokenSource.mint_counts.bind fun r hr => ?_
  rw [hr]; dsimp only
  refine Checked.Within.bind (enter_within hm ?_ hc fun h => absurd h hu) fun c' hc' => ?_
  · trivial
  · rw [hc']; rfl

/-- What a channel with a batch in flight may end in when it moves on: the tokens run out, or the batch
was emptied. -/
def Stops (c : Channel M) (f : Fault) : Prop :=
  f = .addOverflow ∨ c.state.InFlight ∧ c.queue.unacked = [] ∧
    ∃ state, f = .violated .flightWithoutBatch state

theorem Stops.eq_addOverflow {f : Fault} (h : c.Stops f) (hu : c.state.InFlight → c.queue.unacked ≠ []) :
    f = .addOverflow := by
  rcases h with rfl | ⟨hs, hnil, -⟩
  · rfl
  · exact absurd hnil (hu hs)

theorem scheduleResync_within (hc : c.connection.isSome) (hm : c.state.canMoveTo .delayResync) :
    c.scheduleResync.Within c.Stops fun r =>
      r = ({ c with tokens := ⟨c.tokens.next + 1⟩, phase := .delayResync ⟨c.tokens.next⟩ },
        [.scheduleAfterDelay ⟨⟨c.tokens.next⟩, .resync⟩]) := by
  have hs := State.inFlight_of_canMoveTo hm
  unfold scheduleResync
  refine (TokenSource.mint_counts.weaken fun _ => .inl).bind fun r hr => ?_
  rw [hr]; dsimp only
  refine Checked.Within.bind (enter_within hm ?_ hc fun hu => ?_) fun c' hc' => ?_
  · trivial
  · exact .inr ⟨hs, hu, _, rfl⟩
  · rw [hc']; rfl

theorem scheduleResync_counts (hc : c.connection.isSome) (hu : c.queue.unacked ≠ [])
    (hm : c.state.canMoveTo .delayResync) : c.scheduleResync.Counts fun r =>
    r = ({ c with tokens := ⟨c.tokens.next + 1⟩, phase := .delayResync ⟨c.tokens.next⟩ },
      [.scheduleAfterDelay ⟨⟨c.tokens.next⟩, .resync⟩]) :=
  (scheduleResync_within hc hm).weaken fun _ hf => hf.eq_addOverflow fun _ => hu

theorem startProbe_within {timer : Token} (hp : c.phase = .delayResync timer)
    (hc : c.connection.isSome) : (c.startProbe timer).Within c.Stops fun r =>
    r = ({ c with
        tokens := ⟨c.tokens.next + 1⟩
        stats := { c.stats with probes := c.stats.probes + 1 }
        phase := .waitingSync ⟨c.tokens.next⟩ false none },
      [.probe ⟨c.tokens.next⟩]) := by
  have hstate : c.state = .delayResync := by rw [state, hp]; rfl
  unfold startProbe
  rw [hp]; dsimp only
  rw [if_neg (not_not_intro rfl)]
  refine (TokenSource.mint_counts.weaken fun _ => .inl).bind fun r hr => ?_
  rw [hr, ← hp]; dsimp only
  refine Checked.Within.bind (enter_within ?_ ?_ hc fun hu => ?_) fun c' hc' => ?_
  · show c.state.canMoveTo .waitingSync
    rw [hstate]; rfl
  · trivial
  · exact .inr ⟨by rw [hstate]; trivial, hu, _, rfl⟩
  · rw [hc']; rfl

theorem startProbe_counts {timer : Token} (hp : c.phase = .delayResync timer)
    (hc : c.connection.isSome) (hu : c.queue.unacked ≠ []) : (c.startProbe timer).Counts fun r =>
    r = ({ c with
        tokens := ⟨c.tokens.next + 1⟩
        stats := { c.stats with probes := c.stats.probes + 1 }
        phase := .waitingSync ⟨c.tokens.next⟩ false none },
      [.probe ⟨c.tokens.next⟩]) :=
  (startProbe_within hp hc).weaken fun _ hf => hf.eq_addOverflow fun _ => hu

/-- Whether a transmission is scheduled when everything in flight is confirmed, with the tokens and the
effects that go with it: it is exactly if something is queued. -/
def Schedules (c : Channel M) (task : Option Token) (tokens : TokenSource)
    (effects : List (Effect M)) : Prop :=
  c.queue.queued = [] ∧ task = none ∧ tokens = c.tokens ∧ effects = [] ∨
  c.queue.queued ≠ [] ∧ task = some ⟨c.tokens.next⟩ ∧ tokens = ⟨c.tokens.next + 1⟩ ∧
    effects = [.schedule ⟨⟨c.tokens.next⟩, .maybeSend⟩]

section
variable {task : Option Token} {tokens : TokenSource} {effects : List (Effect M)}

theorem Schedules.task_eq_none_iff (h : c.Schedules task tokens effects) :
    task = none ↔ c.queue.queued = [] := by
  rcases h with ⟨hq, rfl, -, -⟩ | ⟨hq, rfl, -, -⟩ <;> simp [hq]

theorem Schedules.next_le (h : c.Schedules task tokens effects) : c.tokens.next ≤ tokens.next := by
  rcases h with ⟨-, -, rfl, -⟩ | ⟨-, -, rfl, -⟩
  · exact Nat.le_refl _
  · exact Nat.le_succ _

theorem Schedules.of_mem {e : Effect M} (h : c.Schedules task tokens effects) (he : e ∈ effects) :
    e = .schedule ⟨⟨c.tokens.next⟩, .maybeSend⟩ ∧ c.tokens.next < tokens.next := by
  rcases h with ⟨-, -, -, rfl⟩ | ⟨-, -, rfl, rfl⟩
  · cases he
  · exact ⟨List.mem_singleton.1 he, Nat.lt_succ_self _⟩

/-- What a channel asks for when everything in flight is confirmed: it lets go of what `phase` waits for,
and `news` is told last. -/
theorem Schedules.forall_mem_confirmed {P : Effect M → Prop} {news : List (Effect M)}
    (h : c.Schedules task tokens effects) (hrelease : ∀ e ∈ phase.release, P e)
    (hreset : P .resetBackoff) (hschedule : P (.schedule ⟨⟨c.tokens.next⟩, .maybeSend⟩))
    (hnews : ∀ e ∈ news, P e) : ∀ e ∈ phase.release ++ .resetBackoff :: effects ++ news, P e := by
  intro e he
  simp only [List.mem_append, List.mem_cons] at he
  rcases he with (he | rfl | he) | he
  · exact hrelease e he
  · exact hreset
  · rw [(h.of_mem he).1]
    exact hschedule
  · exact hnews e he

theorem Schedules.of_ticket {k : Ticket} (h : c.Schedules task tokens effects)
    (hk : Phase.ticket? (.allAcked task) = some k) :
    k.token = ⟨c.tokens.next⟩ ∧ c.tokens.next < tokens.next ∧ ∃ e ∈ effects, e.ticket? = some k := by
  rcases h with ⟨-, rfl, -, -⟩ | ⟨-, rfl, rfl, rfl⟩
  · cases hk
  · cases hk; exact ⟨rfl, Nat.lt_succ_self _, _, .head _, rfl⟩

end

theorem scheduleSend_counts (hp : c.phase = .allAcked none) (hu : c.queue.unacked = []) :
    c.scheduleSend.Counts fun r => ∃ task tokens effects, c.Schedules task tokens effects ∧
      r = ({ c with phase := .allAcked task, tokens }, effects) := by
  unfold scheduleSend
  rw [hp]; dsimp only
  by_cases hq : c.queue.queued = []
  · rw [if_pos (by simp [hq])]
    exact ⟨none, c.tokens, [], .inl ⟨hq, rfl, rfl, rfl⟩, by rw [← hp]⟩
  · rw [if_neg (by simp [hq, hu])]
    refine TokenSource.mint_counts.bind fun r hr => ?_
    rw [hr]
    exact ⟨_, _, _, .inr ⟨hq, rfl, rfl, rfl⟩, rfl⟩

theorem allAcknowledged_counts (hc : c.connection.isSome) (hu : c.queue.unacked = [])
    (hm : c.state.canMoveTo .allAcked) : c.allAcknowledged.Counts fun r =>
    ∃ task tokens effects, c.Schedules task tokens effects ∧
      r = ({ c with phase := .allAcked task, tokens },
        c.phase.release ++ .resetBackoff :: effects) := by
  unfold allAcknowledged
  refine (enter_counts hm (violation_of_acked hc hu (by simp))).bind fun c' hc' => ?_
  rw [hc']
  refine (scheduleSend_counts (c := { c with phase := .allAcked none }) rfl hu).bind fun r hr => ?_
  obtain ⟨task, tokens, effects, hs, rfl⟩ := hr
  exact ⟨task, tokens, effects, hs, rfl⟩

/-- A channel that has not yet caught up with the revision it waits for. -/
def Lags (c : Channel M) : Prop :=
  ∀ probe answered target, c.phase = .waitingSync probe answered (some target) →
    c.queue.revision < target

/-- What a channel does when it may have come up to the revision that it waits for. -/
inductive Syncs (c : Channel M) : Reaction M → Prop
  | lags (h : c.Lags) : Syncs c (c, [])
  /-- The batch was not applied and goes out again. -/
  | resends {probe answered target} (hp : c.phase = .waitingSync probe answered (some target))
      (hr : ¬ c.queue.revision < target) (hu : c.queue.unacked ≠ []) : Syncs c ({ c with
        tokens := ⟨c.tokens.next + 1⟩
        stats := { c.stats with resends := c.stats.resends + 1 }
        phase := .waitingAck ⟨c.tokens.next⟩ c.queue.revision c.queue.unacked.length false },
      [.resetBackoff, .submit ⟨c.tokens.next⟩ c.queue.revision c.queue.unacked])
  | finishes {probe answered target task tokens effects}
      (hp : c.phase = .waitingSync probe answered (some target)) (hr : ¬ c.queue.revision < target)
      (hu : c.queue.unacked = []) (hs : c.Schedules task tokens effects) :
      Syncs c ({ c with phase := .allAcked task, tokens },
        c.phase.release ++ .resetBackoff :: effects)

theorem maybeSynced_counts (hc : c.connection.isSome) : c.maybeSynced.Counts c.Syncs := by
  unfold maybeSynced
  split
  · rename_i probe answered target hp
    by_cases hr : c.queue.revision < target
    · rw [if_pos hr]
      refine Syncs.lags fun probe' answered' target' hp' => ?_
      rw [hp] at hp'; cases hp'
      exact hr
    rw [if_neg hr]
    by_cases hu : c.queue.unacked = []
    · have hm : c.state.canMoveTo .allAcked := by rw [state, hp]; rfl
      rw [if_pos (by simp [hu])]
      refine (allAcknowledged_counts hc hu hm).mono fun r hs => ?_
      obtain ⟨task, tokens, effects, hs, rfl⟩ := hs
      exact .finishes hp hr hu hs
    · rw [if_neg (by simp [hu])]
      refine Checked.Within.bind (transmit_counts ?_ ?_ ?_) fun r ht => ?_
      · exact hc
      · exact hu
      · show c.state.canMoveTo .waitingAck
        rw [state, hp]; rfl
      · rw [ht]
        exact Syncs.resends hp hr hu
  · rename_i hn
    exact Syncs.lags fun probe answered target hp => absurd hp (hn probe answered target)

/-! ### Tickets -/

namespace Phase

theorem mem_release {e : Effect M} (h : e ∈ phase.release) :
    (∃ id kind, e = .cancel id ∧ phase.ticket? = some (.task ⟨id, kind⟩)) ∨
      ∃ token, e = .disregard token := by
  unfold release at h
  split at h
  · exact .inl ⟨_, _, List.mem_singleton.1 h, rfl⟩
  · exact .inr ⟨_, List.mem_singleton.1 h⟩
  · exact .inl ⟨_, _, List.mem_singleton.1 h, rfl⟩
  · exact .inr ⟨_, List.mem_singleton.1 h⟩
  · cases h

theorem ticket?_eq_send_iff {id : Token} :
    phase.ticket? = some (.task ⟨id, .maybeSend⟩) ↔ phase = .allAcked (some id) := by
  unfold ticket?; split <;> simp_all

theorem ticket?_eq_resync_iff {id : Token} :
    phase.ticket? = some (.task ⟨id, .resync⟩) ↔ phase = .delayResync id := by
  unfold ticket?; split <;> simp_all

theorem ticket?_eq_submit_iff {token : Token} : phase.ticket? = some (.submit token) ↔
    ∃ base batch, phase = .waitingAck token base batch false := by
  unfold ticket?; split <;> simp_all

theorem ticket?_eq_probe_iff {token : Token} : phase.ticket? = some (.probe token) ↔
    ∃ target, phase = .waitingSync token false target := by
  unfold ticket?; split <;> simp_all

end Phase

/-- An event that the channel does not wait for changes nothing. -/
theorem handle_of_stale {x : Transformer M} {event : Event M} {k : Ticket}
    (he : event.ticket? = some k) (hk : c.phase.ticket? ≠ some k) : c.handle x event = c.idle := by
  cases event with
  | task task =>
    obtain ⟨id, kind⟩ := task
    cases he
    cases kind with
    | maybeSend =>
      rw [ne_eq, Phase.ticket?_eq_send_iff] at hk
      show c.maybeSend id = _
      unfold maybeSend; split
      · exact if_pos (by rintro rfl; exact hk ‹_›)
      · rfl
    | resync =>
      rw [ne_eq, Phase.ticket?_eq_resync_iff] at hk
      show c.startProbe id = _
      unfold startProbe; split
      · exact if_pos (by rintro rfl; exact hk ‹_›)
      · rfl
  | submitResponse token result =>
    cases he
    rw [ne_eq, Phase.ticket?_eq_submit_iff] at hk
    show c.onSubmitResponse token result = _
    unfold onSubmitResponse; split
    · exact if_pos (by rintro rfl; exact hk ⟨_, _, ‹_›⟩)
    · rfl
  | probeResponse token result =>
    cases he
    rw [ne_eq, Phase.ticket?_eq_probe_iff] at hk
    show c.onProbeResponse token result = _
    unfold onProbeResponse; split
    · exact if_pos (by rintro rfl; exact hk ⟨_, ‹_›⟩)
    · rfl
  | incoming connection message => cases he

end Channel

end CoEdit
