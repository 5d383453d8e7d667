import CoEdit.Endpoint
import CoEdit.Proofs.Coherence
import CoEdit.Proofs.Tasks
import CoEdit.Random.ChaCha

/-!
# A channel and its timeline

An endpoint is a channel with a timeline of its own. Events other than tasks are put on the timeline, or
handed to the channel, at any time and in any number; tasks are scheduled by the channel alone, and an
event leaves the timeline only by being handed over or cancelled (`Endpoint.Run`).

Then a channel that has something to do always has someone to wake it up (`Run.nothing_stranded`): in every
phase the task that waits on the timeline is the one that the phase waits for, a transmission is
scheduled exactly if something is queued and nothing is in flight, and a channel that learned which
revision to wait for has not come up to it yet. A task that is handed over is never stale.

Every reaction keeps account of the task (`Reacts.tends`, `Does.tends`): its effects schedule and cancel
just what makes the phase before it into the phase after.
-/

namespace CoEdit

variable {M : Type}

namespace Channel

/-- The task that a phase waits for. -/
def Phase.task? : Phase → Option Task
  | .allAcked (some id) => some ⟨id, .maybeSend⟩
  | .delayResync timer => some ⟨timer, .resync⟩
  | _ => none

section
variable {x : Transformer M} {c : Channel M} {r : Reaction M} {event : Event M} {task : Task}

theorem Phase.ticket?_of_task {phase : Phase} (h : phase.task? = some task) :
    phase.ticket? = some (.task task) := by
  unfold task? at h; split at h <;> cases h <;> rfl

theorem Phase.task?_of_ticket {phase : Phase} {k : Ticket} (h : phase.ticket? = some k)
    (hk : ∀ task, k ≠ .task task) : phase.task? = none := by
  cases ht : phase.task? with
  | none => rfl
  | some task =>
    rw [Phase.ticket?_of_task ht] at h
    cases h
    exact absurd rfl (hk task)

theorem Phase.release_tends (phase : Phase) :
    Tends phase.task? (phase.release : List (Effect M)) none := by
  unfold release; split
  · exact .cancel .nil
  · exact .other id .nil
  · exact .cancel .nil
  · exact .other id .nil
  · rename_i h₁ h₂ h₃ h₄
    cases phase with
    | allAcked task =>
      cases task with
      | none => exact .nil
      | some id => exact absurd rfl (h₁ id)
    | delayResync timer => exact absurd rfl (h₃ timer)
    | _ => exact .nil

theorem Schedules.tends {sendTask : Option Token} {tokens : TokenSource} {effects : List (Effect M)}
    (h : c.Schedules sendTask tokens effects) :
    Tends none effects (Phase.allAcked sendTask).task? := by
  rcases h with ⟨-, rfl, -, rfl⟩ | ⟨-, rfl, -, rfl⟩
  · exact .nil
  · exact .schedule .nil

theorem Syncs.tends (h : c.Syncs r) : Tends c.phase.task? r.2 r.1.phase.task? := by
  cases h with
  | lags h => exact .nil
  | resends hp hr hu => rw [hp]; exact .other id (.other id .nil)
  | finishes hp hr hu hs => exact c.phase.release_tends.append (.other id hs.tends)

theorem Accepts.tends {me : Session} {d : Delivery M} (h : Accepts x c me d r) :
    Tends c.phase.task? r.2 r.1.phase.task? := by
  cases h with
  | recognises hd he hr => exact .nil
  | confirms hd ht hu hne => exact .other id .nil
  | confirmsLast hd ht hu hs =>
    exact (c.phase.release_tends.append (.other id hs.tends)).append (.other id .nil)
  | takesIn hd ht hf hr => exact .other id .nil

theorem Awaits.task?_eq_none {e : ServiceError} (h : c.Awaits event)
    (he : event.failure? = some e) : c.phase.task? = none := by
  cases event with
  | task task => cases he
  | submitResponse token result => exact Phase.task?_of_ticket h nofun
  | probeResponse token result => exact Phase.task?_of_ticket h nofun
  | incoming token message => cases he

/-- A task that the phase waits for was just taken off the timeline. -/
theorem Reacts.tends_task (h : Reacts x c (.task task) r) (ht : c.phase.task? = some task) :
    Tends none r.2 r.1.phase.task? := by
  cases h with
  | stale h => exact absurd (Phase.ticket?_of_task ht) h
  | submits hp hu hq => exact .other id .nil
  | lapses hp hq => exact .nil
  | probes hp => exact .other id .nil
  | retries h he => cases he
  | givesUp h he => cases he

theorem Reacts.tends (h : Reacts x c event r) (he : event.task? = none) :
    Tends c.phase.task? r.2 r.1.phase.task? := by
  cases h with
  | stale h => exact .nil
  | submits hp hu hq => cases he
  | lapses hp hq => cases he
  | probes hp => cases he
  | confirms hp hb hu hr hs =>
    rw [hp]
    refine (Tends.other id hs.tends).append (.of_others fun e he => ?_)
    obtain ⟨op, clean, rfl⟩ := mem_ackedAll he
    exact id
  | defers hp hr => rw [hp]; exact .nil
  | learns hp hs => rw [hp]; exact hs.tends
  | retries h hf => rw [h.task?_eq_none hf]; exact .delay .nil
  | givesUp h hf => rw [h.task?_eq_none hf]; exact .other id (.other id .nil)
  | breaks hc h => exact c.phase.release_tends.append (.other id (.other id .nil))
  | accepts hc h hs => exact h.tends.append hs.tends

theorem Does.tends {call : Call M} {reply : Reply M} (h : Does x c call reply r) (hc : c.Coherent)
    (hcall : ∀ task, call ≠ .handle (.task task)) : Tends c.phase.task? r.2 r.1.phase.task? := by
  cases h with
  | connects hconn =>
    rw [hc.eq_uninitialised hconn]
    exact .other id (.other id .nil)
  | connected hconn => exact .nil
  | unconnected hconn hr => exact .nil
  | disconnects hconn => exact c.phase.release_tends.append (.other id .nil)
  | schedules hp ht hs => rw [hp]; exact hs.tends
  | stages hconn hp ht => exact .nil
  | rejects hconn he => exact c.phase.release_tends.append (.other id .nil)
  | peeks hconn => exact .nil
  | receives hconn => exact .nil
  | @reacts event r h =>
    refine h.tends ?_
    cases event with
    | task task => exact absurd rfl (hcall task)
    | _ => rfl

end

end Channel

namespace Endpoint

variable {R : Type}

/-! ### Runs -/

/-- Something that happens to an endpoint. -/
inductive Act (M : Type) where
  | call (call : Channel.Call M)
  /-- An event is put on the timeline. -/
  | post (due : Nat) (event : Event M)
  /-- The next event on the timeline is handed over. -/
  | step
  | advanceTo (time : Nat)

/-- Tasks come from the channel alone. -/
def Act.Allowed : Act M → Prop
  | .call (.handle event) | .post _ event => event.task? = none
  | _ => True

section
variable [RandomSource R]

def act (x : Transformer M) (p : Endpoint M R) : Act M → Checked (Endpoint M R)
  | .call call => (·.2.2) <$> p.call (p.channel.call x call)
  | .post due event => .ok (p.withTimeline (p.timeline.deliverAt due event))
  | .step => (·.2.2) <$> p.step x
  | .advanceTo time => .ok (p.withTimeline (p.timeline.advanceTo time))

/-- A new channel with an empty timeline, and what becomes of it. -/
inductive Run (x : Transformer M) : Endpoint M R → Prop
  | new (backoff : Backoff R) : Run x { agenda := { backoff } }
  | act {p p'} (act : Act M) : Run x p → act.Allowed → p.act x act = .ok p' → Run x p'

end

/-- Whenever there is something to do, something waits on the timeline or is on its way. -/
structure Attentive (p : Endpoint M R) : Prop where
  /-- A transmission is scheduled exactly if something is queued. -/
  scheduled : ∀ task, p.channel.phase = .allAcked task →
    (task.isSome ↔ p.channel.queue.queued ≠ [])
  /-- A probe that was answered told a revision which the channel has not come up to. -/
  awaited : ∀ probe answered target, p.channel.phase = .waitingSync probe answered target →
    (answered ↔ target.isSome) ∧ ∀ r ∈ target, p.channel.queue.revision < r
  /-- The tasks on the timeline are the one that the phase waits for. -/
  waiting : p.timeline.waiting = p.channel.phase.task?.toList
  fresh : ∀ task t, p.timeline.advance = some (.task task, t) → p.channel.phase.task? = some task

structure Minds (p : Endpoint M R) : Prop where
  coherent : p.channel.Coherent
  fed : p.channel.Fed
  holds : p.timeline.Holds p.channel.phase.task?

theorem Minds.attentive {p : Endpoint M R} (h : p.Minds) : p.Attentive := by
  have hfits := h.coherent.fits
  refine ⟨fun task hp => ?_, fun probe answered target hp => ⟨?_, fun r hr => ?_⟩, h.holds.waiting,
    fun task t ht => (h.holds.advance_task ht).1⟩
  · rw [hp] at hfits
    cases task with
    | none => simp [hfits.2.2 rfl]
    | some id => simp [h.fed.scheduled id hp]
  · rw [hp] at hfits
    rw [hfits.2]
  · cases hr
    exact h.coherent.lags _ _ _ hp

section
variable [RandomSource R] {x : Transformer M} {p : Endpoint M R}

theorem Minds.settle {k : Option Task} {r : Channel.Reaction M} (h : p.timeline.Holds k)
    (hc : r.1.Coherent) (hf : r.1.Fed) (ht : Tends k r.2 r.1.phase.task?) :
    (p.settle r).Yields fun r => r.2.Minds := by
  unfold Endpoint.settle
  exact (Agenda.performAll_yields ht h).bind fun _ ha => ⟨hc, hf, ha⟩

theorem Minds.call (h : p.Minds) (hx : x.KeepsClients) {call : Channel.Call M}
    (hcall : ∀ task, call ≠ .handle (.task task)) :
    (p.call (p.channel.call x call)).Yields fun r => r.2.2.Minds := by
  unfold Endpoint.call
  refine (h.coherent.call_counts h.fed call).yields.bind fun r hr => ?_
  exact (Minds.settle h.holds (hr.coherent h.coherent) (hr.fed hx h.fed)
    (hr.tends h.coherent hcall)).bind fun _ h => h

theorem Minds.handle {t : Timeline M} {event : Event M} (h : p.Minds) (hx : x.KeepsClients)
    (ht : p.timeline.advance = some (event, t)) :
    ((p.withTimeline t).handle x event).Yields fun r => r.2.Minds := by
  unfold Endpoint.handle
  refine (h.coherent.handle_counts h.fed).yields.bind fun r hr => ?_
  have hc := hr.coherent h.coherent
  have hf := hr.fed hx h.fed
  cases event with
  | task task =>
    obtain ⟨htask, hholds⟩ := h.holds.advance_task ht
    exact Minds.settle hholds hc hf (hr.tends_task htask)
  | _ => exact Minds.settle (h.holds.advance ht rfl) hc hf (hr.tends rfl)

theorem Minds.act {act : Act M} (h : p.Minds) (hx : x.KeepsClients) (ha : act.Allowed) :
    (p.act x act).Yields Minds := by
  cases act with
  | call call =>
    refine Checked.yields_map.2 (h.call hx ?_)
    rintro task rfl
    cases ha
  | post due event => exact ⟨h.coherent, h.fed, h.holds.deliverAt_other ha⟩
  | step =>
    refine Checked.yields_map.2 ?_
    unfold Endpoint.step
    cases ht : p.timeline.advance with
    | none => exact h
    | some et => exact (h.handle hx ht).bind fun _ h => h
  | advanceTo time => exact ⟨h.coherent, h.fed, h.holds.advanceTo⟩

theorem Run.minds (h : p.Run x) (hx : x.KeepsClients) : p.Minds := by
  induction h with
  | new backoff =>
    exact ⟨Channel.Run.new (x := x) |>.coherent, (Channel.Run.new (x := x)).fed hx, Timeline.holds_empty⟩
  | act act _ ha hact ih => exact (ih.act hx ha).of_ok hact

/-- With a transformer that empties no list of a client's, a channel is attentive after everything that
may happen to it and its timeline, and nothing that happens next but a number out of range keeps it from
staying so. -/
theorem Run.nothing_stranded (h : p.Run x) (hx : x.KeepsClients) : p.Attentive ∧
    ∀ act : Act M, act.Allowed → (p.act x act).Yields Attentive :=
  ⟨(h.minds hx).attentive, fun _ ha => ((h.minds hx).act hx ha).mono fun _ h => h.attentive⟩

end

/-- While an operation is in flight another one is queued; then the response comes, and one that nobody
asked for is still to come. -/
theorem nothing_stranded_confirmed : ∃ p : Endpoint CharOp ChaCha, p.Run CharOp.transform ∧
    p.channel.queue.queued = [⟨1, 1, .insert 1 'y'⟩] ∧
    p.timeline.waiting = [⟨⟨4⟩, .maybeSend⟩] ∧ p.timeline.pending = 2 ∧ p.Attentive := by
  have h₀ : Run CharOp.transform { agenda := { backoff := { policy := {}, random := ChaCha.ofSeed 0 } } } :=
    .new _
  have h₁ := h₀.act (.call (.connect ⟨0⟩ ⟨"a", by decide⟩)) trivial rfl
  have h₂ := h₁.act (.call (.send ⟨0, 1, .insert 0 'x'⟩)) trivial rfl
  have h₃ := h₂.act .step trivial rfl
  have h₄ := h₃.act (.call (.send ⟨1, 1, .insert 1 'y'⟩)) trivial rfl
  have h₅ := h₄.act (.post 9 (.probeResponse ⟨7⟩ (.ok ⟨3⟩))) rfl rfl
  have h₆ := h₅.act (.post 5 (.submitResponse ⟨3⟩ (.ok ⟨1⟩))) rfl rfl
  have h₇ := h₆.act .step trivial rfl
  exact ⟨_, h₇, rfl, rfl, rfl, (h₇.nothing_stranded CharOp.transform_keepsClients).1⟩

end Endpoint

end CoEdit
