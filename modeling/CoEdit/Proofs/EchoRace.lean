import CoEdit.Proofs.EagerAck
import CoEdit.Proofs.Inertness
import CoEdit.Proofs.Range

/-!
# The response and the echoes of a batch

A batch was submitted and applied right at its base. Its echoes come in order, and the response to the
submit comes anywhere among them or never; it tells the revision of the last operation or a failure that
is worth another attempt. The channel ends up in the same way (`Concludes`): the batch is confirmed, each
of its operations is reported once and in order, and what is queued is left to a new transmission. A
response that comes first confirms what is left and makes the echoes that follow superfluous; one that
fails makes the channel wait for a probe, which the echoes call off.

There is one exception. While a response that confirmed the batch is ahead of an echo, the channel works
out the place of the echo from the number after its revision. If the batch ends at the last revision there
is, that number is out of range, and the channel ends in a fault (`Run.concludes_iff`).
-/

namespace CoEdit

variable {M : Type}

/-- What an effect can be while a batch is confirmed: no request, no news of others and no failure. -/
def Effect.Aside : Effect M → Prop
  | .acked .. | .disregard _ | .resetBackoff | .schedule _ | .scheduleAfterDelay _ | .cancel _ => True
  | _ => False

namespace Effect

theorem aside_of_mem_ackedAll {clean : Bool} {ops : List M} {e : Effect M}
    (he : e ∈ ackedAll clean ops) : e.Aside := by
  obtain ⟨op, clean', rfl⟩ := mem_ackedAll he
  trivial

/-- Of operations confirmed together only the last can leave the channel clean. -/
theorem acks_ackedAll (clean : Bool) : ∀ {ops : List M}, ops ≠ [] → ∃ front last,
    ops = front ++ [last] ∧ acks (ackedAll clean ops) = front.map (·, false) ++ [(last, clean)]
  | [], h => absurd rfl h
  | [op], _ => ⟨[], op, rfl, rfl⟩
  | op :: op' :: rest, _ => by
    obtain ⟨front, last, hops, hacks⟩ := acks_ackedAll clean (List.cons_ne_nil op' rest)
    refine ⟨op :: front, last, congrArg (op :: ·) hops, ?_⟩
    rw [ackedAll_cons_cons, acks_cons, hacks]
    rfl

end Effect

namespace Channel

/-- Hands events over, one after another. -/
def handleAll (x : Transformer M) (c : Channel M) : List (Event M) → Checked (Reaction M)
  | [] => c.idle
  | event :: events => do
    let (c, effects) ← c.handle x event
    let (c, more) ← c.handleAll x events
    return (c, effects ++ more)

/-- The echoes of operations that were applied right after `base`. -/
def echoes (link : Connection) (base : Revision) : List M → List (Event M)
  | [] => []
  | op :: ops =>
    .incoming link.token (.ok ⟨⟨base.number + 1⟩, link.session, op⟩) ::
      echoes link ⟨base.number + 1⟩ ops

/-- The response comes between the echoes of `early` and those of `late`. -/
def answeredAmid (link : Connection) (base : Revision) (token : Token) (early late : List M)
    (result : Except ServiceError Revision) : List (Event M) :=
  echoes link base early ++
    .submitResponse token result :: echoes link ⟨base.number + early.length⟩ late

/-- The batch that `c` had in flight is confirmed: each operation was reported once and in order, only
the last one possibly as leaving the channel clean, and nothing else changed but that a transmission is
scheduled if something is queued. -/
structure Concludes (c : Channel M) (r : Reaction M) : Prop where
  queue : r.1.queue = { c.queue with
    revision := ⟨c.queue.revision.number + c.queue.unacked.length⟩
    unacked := [] }
  connection : r.1.connection = c.connection
  phase : ∃ task, r.1.phase = .allAcked task ∧ (task.isSome ↔ c.queue.queued ≠ [])
  acks : ∃ front last, c.queue.unacked = front ++ [last] ∧
    Effect.acks r.2 = front.map (·, false) ++ [(last, c.queue.queued.isEmpty)]
  aside : ∀ e ∈ r.2, e.Aside
  tasks : r.2.foldl (Effect.requeue fun _ => false) c.phase.task?.toList = r.1.phase.task?.toList

section
variable {x : Transformer M} {c c₁ c₂ : Channel M} {r : Reaction M} {link : Connection} {token : Token}
  {event : Event M} {events : List (Event M)} {es es' : List (Effect M)} {op : M}
  {rest early late : List M} {base revision : Revision} {batch : Nat}

theorem handleAll_cons (h : c.handle x event = .ok (c₁, es))
    (h' : c₁.handleAll x events = .ok (c₂, es')) :
    c.handleAll x (event :: events) = .ok (c₂, es ++ es') := by
  show (c.handle x event >>= _) = _
  rw [h]
  show (c₁.handleAll x events >>= _) = _
  rw [h']; rfl

theorem handleAll_of_error {f : Fault} (h : c.handle x event = .error f) :
    c.handleAll x (event :: events) = .error f := by
  show (c.handle x event >>= _) = _
  rw [h]; rfl

theorem handleAll_singleton (h : c.handle x event = .ok r) : c.handleAll x [event] = .ok r := by
  have hall : c.handleAll x [event] = .ok (r.1, r.2 ++ []) := handleAll_cons h rfl
  rwa [List.append_nil] at hall

theorem handleAll_cons_error {f : Fault} (h : c.handle x event = .ok (c₁, es))
    (h' : c₁.handleAll x events = .error f) : c.handleAll x (event :: events) = .error f := by
  show (c.handle x event >>= _) = _
  rw [h]
  show (c₁.handleAll x events >>= _) = _
  rw [h']; rfl

/-- The oldest of several operations is confirmed. -/
def confirmed (c : Channel M) (rest : List M) : Channel M := { c with
  queue := { c.queue with revision := ⟨c.queue.revision.number + 1⟩, unacked := rest }
  stats := { c.stats with directAcks := c.stats.directAcks + 1 } }

/-- The whole batch is confirmed. -/
def settled (c : Channel M) (revision : Revision) (expected : Nat) (tokens : TokenSource) (stats : Stats)
    (task : Option Token) : Channel M := { c with
  queue := { c.queue with revision, unacked := [], expectedEchoes := expected }
  tokens
  stats
  phase := .allAcked task }

theorem Reacts.of_echo
    (h : Reacts x c (.incoming link.token (.ok ⟨⟨c.queue.revision.number + 1⟩, link.session, op⟩)) r)
    (hc : c.connection = some link) (he : c.queue.expectedEchoes = 0)
    (hu : c.queue.unacked = op :: rest) (hs : c.state ≠ .waitingSync) :
    rest ≠ [] ∧ r = (c.confirmed rest, [.acked op false]) ∨
    rest = [] ∧ ∃ task tokens effects stats, c.Schedules task tokens effects ∧
      r = (c.settled ⟨c.queue.revision.number + 1⟩ c.queue.expectedEchoes tokens stats task,
        c.phase.release ++ .resetBackoff :: effects ++ [.acked op c.queue.queued.isEmpty]) := by
  have ht : c.queue.Timely ⟨c.queue.revision.number + 1⟩ := ⟨he, rfl⟩
  have hsync {phase : Phase} (hp : phase = c.phase) (probe answered target) :
      phase ≠ .waitingSync probe answered (some target) := by
    rintro rfl
    exact hs (by rw [state, ← hp]; rfl)
  obtain ⟨me, token⟩ := link
  dsimp only at h
  cases h with
  | stale hl => exact absurd ⟨me, hc⟩ hl
  | retries hl hf => cases hf
  | givesUp hl hf => cases hf
  | breaks hc' hb =>
    rw [hc] at hc'
    cases hc'
    cases hb with
    | strayEcho hd hne hexp hr => exact absurd he hne
    | untimely hd h => exact absurd h ht.not_untimely
    | unmatched hd ht hnil => rw [hu] at hnil; cases hnil
    | rejected hd ht h => exact absurd rfl hd
  | accepts hc' ha hs' =>
    rw [hc] at hc'
    cases hc'
    cases ha with
    | recognises hd hk hr => rw [he] at hk; cases hk
    | confirms hd ht hu' hne =>
      rw [hu] at hu'
      cases hu'
      rw [hs'.eq_of_ne (hsync rfl)]
      exact .inl ⟨hne, rfl⟩
    | confirmsLast hd ht hu' hschedules =>
      rw [hu] at hu'
      cases hu'
      rw [hs'.eq_of_ne (by rintro _ _ _ ⟨⟩), List.append_nil]
      exact .inr ⟨rfl, _, _, _, _, hschedules, rfl⟩
    | takesIn hd ht hf hr => exact absurd rfl hd

theorem Reacts.of_expected_echo {k : Nat}
    (h : Reacts x c (.incoming link.token (.ok ⟨revision, link.session, op⟩)) r)
    (hc : c.connection = some link) (he : c.queue.expectedEchoes = k + 1)
    (hr : revision.number + k = c.queue.revision.number) (hlags : c.Lags) :
    r = ({ c with
      queue := { c.queue with expectedEchoes := k }
      stats := { c.stats with duplicateAcks := c.stats.duplicateAcks + 1 } }, []) := by
  have hnot : ¬ c.queue.Timely revision := by
    intro ht
    rw [ht.1] at he
    cases he
  obtain ⟨me, token⟩ := link
  dsimp only at h
  cases h with
  | stale hl => exact absurd ⟨me, hc⟩ hl
  | retries hl hf => cases hf
  | givesUp hl hf => cases hf
  | breaks hc' hb =>
    rw [hc] at hc'
    cases hc'
    cases hb with
    | strayEcho hd hne hexp hr' => exact absurd (Revision.ext (by dsimp only; omega)) hr'
    | untimely hd h => rw [hd rfl] at he; cases he
    | unmatched hd ht hnil => exact absurd ht hnot
    | rejected hd ht h => exact absurd rfl hd
  | accepts hc' ha hs' =>
    rw [hc] at hc'
    cases hc'
    cases ha with
    | recognises hd hk hr' =>
      rw [he] at hk
      cases hk
      cases hs' with
      | lags => rfl
      | resends hp hsync => exact absurd (hlags _ _ _ hp) hsync
      | finishes hp hsync => exact absurd (hlags _ _ _ hp) hsync
    | confirms hd ht hu hne => exact absurd ht hnot
    | confirmsLast hd ht hu hschedules => exact absurd ht hnot
    | takesIn hd ht hf hr' => exact absurd rfl hd

theorem Coherent.exists_own_echo (h : c.Coherent) (hu : c.state.InFlight → c.queue.unacked ≠ [])
    (hc : c.connection = some link) (hr : c.queue.revision.number + 1 < Checked.limit)
    (ht : c.tokens.next + 1 < Checked.limit) (revision : Revision) (op : M) :
    ∃ r, c.handle x (.incoming link.token (.ok ⟨revision, link.session, op⟩)) = .ok r ∧
      Reacts x c (.incoming link.token (.ok ⟨revision, link.session, op⟩)) r := by
  refine h.exists_handle _ hu (fun token d heq hne => ?_) (not_outOfRevisions hr) ht nofun
  cases heq
  exact absurd (by rw [session?, hc]; rfl) hne

theorem handle_expected_echo_overflow (hc : c.connection = some link) (he : c.queue.expectedEchoes ≠ 0)
    (hlimit : ¬ c.queue.revision.number + 1 < Checked.limit) :
    c.handle x (.incoming link.token (.ok ⟨revision, link.session, op⟩)) = .error .addOverflow := by
  show c.onIncoming x link.token (.ok ⟨revision, link.session, op⟩) = _
  unfold onIncoming
  rw [hc]; dsimp only
  rw [if_neg (not_not_intro rfl), if_pos rfl]
  unfold onEcho
  rw [Queue.takeEcho_overflow he hlimit]
  rfl

theorem Phase.aside_of_mem_release {phase : Phase} {e : Effect M} (he : e ∈ phase.release) : e.Aside := by
  rcases Phase.mem_release he with ⟨id, kind, rfl, -⟩ | ⟨token, rfl⟩ <;> trivial

theorem Schedules.aside_of_mem {task : Option Token} {tokens : TokenSource} {effects : List (Effect M)}
    {e : Effect M} (h : c.Schedules task tokens effects) (he : e ∈ effects) : e.Aside := by
  rw [(h.of_mem he).1]; trivial

theorem Schedules.isSome_iff {task : Option Token} {tokens : TokenSource} {effects : List (Effect M)}
    (h : c.Schedules task tokens effects) : task.isSome ↔ c.queue.queued ≠ [] := by
  rw [ne_eq, ← h.task_eq_none_iff]
  cases task <;> simp

/-- A batch is in flight that no response confirmed yet, and there are revisions for all of it. -/
structure Due (link : Connection) (c : Channel M) : Prop where
  coherent : c.Coherent
  connection : c.connection = some link
  expected : c.queue.expectedEchoes = 0
  unacked : c.queue.unacked ≠ []
  limit : c.queue.revision.number + c.queue.unacked.length < Checked.limit
  state : c.state = .waitingAck ∨ c.state = .delayResync

theorem Due.state_ne (h : Due link c) : c.state ≠ .waitingSync := by
  rcases h.state with hs | hs <;> rw [hs] <;> decide

theorem Due.next_lt (h : Due link c) : c.queue.revision.number + 1 < Checked.limit := by
  have hlimit := h.limit
  have hlength := List.length_pos_iff.2 h.unacked
  omega

theorem Due.echo (h : Due link c) (hu : c.queue.unacked = op :: rest) (hne : rest ≠ [])
    (ht : c.tokens.next + 1 < Checked.limit) :
    c.handle x (.incoming link.token (.ok ⟨⟨c.queue.revision.number + 1⟩, link.session, op⟩)) =
      .ok (c.confirmed rest, [.acked op false]) ∧ Due link (c.confirmed rest) := by
  obtain ⟨r, hr, hreacts⟩ := h.coherent.exists_own_echo (x := x) (fun _ => h.unacked) h.connection
    h.next_lt ht ⟨c.queue.revision.number + 1⟩ op
  have hcoherent := hreacts.coherent h.coherent
  rcases hreacts.of_echo h.connection h.expected hu h.state_ne with ⟨-, rfl⟩ | ⟨hnil, -⟩
  · refine ⟨hr, hcoherent, h.connection, h.expected, hne, ?_, h.state⟩
    have hlimit := h.limit
    rw [hu, List.length_cons] at hlimit
    show c.queue.revision.number + 1 + rest.length < _
    omega
  · exact absurd hnil hne

theorem Due.last (h : Due link c) (hu : c.queue.unacked = [op]) (ht : c.tokens.next + 1 < Checked.limit) :
    ∃ r, c.handle x (.incoming link.token (.ok ⟨⟨c.queue.revision.number + 1⟩, link.session, op⟩)) =
      .ok r ∧ Concludes c r := by
  obtain ⟨r, hr, hreacts⟩ := h.coherent.exists_own_echo (x := x) (fun _ => h.unacked) h.connection
    h.next_lt ht ⟨c.queue.revision.number + 1⟩ op
  have htends := hreacts.tends rfl
  refine ⟨r, hr, ?_⟩
  rcases hreacts.of_echo h.connection h.expected hu h.state_ne with
    ⟨hne, -⟩ | ⟨-, task, tokens, effects, stats, hs, rfl⟩
  · exact absurd rfl hne
  refine ⟨?_, rfl, ⟨task, rfl, hs.isSome_iff⟩, ⟨[], op, hu, ?_⟩, ?_, htends.foldl_requeue⟩
  · rw [hu]; rfl
  · simp [hs.acks]
  · simp only [List.forall_mem_append, List.forall_mem_cons]
    exact ⟨⟨fun e => Phase.aside_of_mem_release, trivial, fun e => hs.aside_of_mem⟩, trivial, nofun⟩

/-- With the echo of the first of several operations, the rest of the batch is left to conclude. -/
theorem Concludes.after_echo (h : Concludes (c.confirmed rest) r) (hu : c.queue.unacked = op :: rest) :
    Concludes c (r.1, .acked op false :: r.2) := by
  obtain ⟨hqueue, hconn, hphase, ⟨front, last, hrest, hacks⟩, haside, htasks⟩ := h
  refine ⟨?_, hconn, hphase, ⟨op :: front, last, ?_, ?_⟩, ?_, htasks⟩
  · rw [hu]
    refine hqueue.trans ?_
    simp only [confirmed, List.length_cons, Nat.add_assoc, Nat.add_comm 1]
  · exact hu.trans (congrArg (op :: ·) hrest)
  · rw [Effect.acks_cons, hacks]; rfl
  · exact List.forall_mem_cons.2 ⟨trivial, haside⟩

/-- The echoes of what is in flight confirm it, whether its response is still to come or a probe is. -/
theorem Due.concludes_echoes (h : Due link c) (ht : c.tokens.next + 1 < Checked.limit) :
    ∃ r, c.handleAll x (echoes link c.queue.revision c.queue.unacked) = .ok r ∧ Concludes c r := by
  induction hu : c.queue.unacked generalizing c with
  | nil => exact absurd hu h.unacked
  | cons op rest ih =>
    by_cases hne : rest = []
    · subst hne
      obtain ⟨r, hr, hconcludes⟩ := h.last (x := x) hu ht
      exact ⟨r, handleAll_singleton hr, hconcludes⟩
    · obtain ⟨hr, hdue⟩ := h.echo (x := x) hu hne ht
      obtain ⟨r, hr', hconcludes⟩ := ih hdue ht rfl
      exact ⟨_, handleAll_cons hr hr', hconcludes.after_echo hu⟩

/-! ### A response among the echoes -/

theorem handleAll_expected {ops : List M} (h : c.Coherent) (hc : c.connection = some link)
    (hs : c.state = .allAcked) (he : c.queue.expectedEchoes = ops.length)
    (hr : base.number + ops.length = c.queue.revision.number)
    (hlimit : c.queue.revision.number + 1 < Checked.limit) (ht : c.tokens.next + 1 < Checked.limit) :
    ∃ stats, c.handleAll x (echoes link base ops) =
      .ok ({ c with queue := { c.queue with expectedEchoes := 0 }, stats }, []) := by
  induction ops generalizing c base with
  | nil => exact ⟨c.stats, by rw [← List.length_nil (α := M), ← he]; rfl⟩
  | cons op ops ih =>
    rw [List.length_cons] at he hr
    obtain ⟨r, hr', hreacts⟩ := h.exists_own_echo (x := x)
      (fun hflight => absurd hflight (by rw [hs]; exact id)) hc hlimit ht ⟨base.number + 1⟩ op
    have hcoherent := hreacts.coherent h
    obtain rfl := hreacts.of_expected_echo hc he (by dsimp only; omega) h.lags
    obtain ⟨stats, hrest⟩ := ih hcoherent hc hs rfl
      (show base.number + 1 + ops.length = _ by dsimp only; omega) hlimit ht
    exact ⟨stats, handleAll_cons hr' hrest⟩

theorem Due.confirm (h : Due link c) (hp : c.phase = .waitingAck token base batch false)
    (hb : base.number + batch = c.queue.revision.number + c.queue.unacked.length)
    (ht : c.tokens.next + 1 < Checked.limit) :
    ∃ task tokens effects stats r, c.Schedules task tokens effects ∧
      r = (c.settled ⟨base.number + batch⟩ c.queue.unacked.length tokens stats task,
        .resetBackoff :: effects ++ ackedAll c.queue.queued.isEmpty c.queue.unacked) ∧
      c.handle x (.submitResponse token (.ok ⟨base.number + batch⟩)) = .ok r ∧
      Reacts x c (.submitResponse token (.ok ⟨base.number + batch⟩)) r := by
  have hlimit := h.limit
  obtain ⟨r, hr, hreacts⟩ := h.coherent.exists_handle (x := x)
    (.submitResponse token (.ok ⟨base.number + batch⟩)) (fun _ => h.unacked) nofun
    (not_outOfRevisions h.next_lt) ht (by rintro token applied ⟨⟩; dsimp only; omega)
  have hreacts' := hreacts
  cases hreacts with
  | stale hl => exact absurd (Phase.ticket?_eq_submit_iff.2 ⟨_, _, hp⟩) hl
  | retries hl he => cases he
  | givesUp hl he => cases he
  | @confirms _ _ _ _ task tokens effects hp' hb' hu hr' hs =>
    rw [h.expected, Nat.zero_add] at hr hreacts'
    exact ⟨task, tokens, effects, _, _, hs, rfl, hr, hreacts'⟩
  | defers hp' hr' =>
    rw [hp] at hp'
    cases hp'
    rcases hr' with hr' | hr' | hr'
    · exact absurd rfl hr'
    · exact absurd hr' h.unacked
    · exact absurd hb hr'

theorem Due.retry (h : Due link c) (hp : c.phase = .waitingAck token base batch false)
    (ht : c.tokens.next + 1 < Checked.limit) (message : String) :
    ∃ c₁ : Channel M, Due link c₁ ∧ c₁.queue = c.queue ∧ c₁.connection = c.connection ∧
      c₁.tokens.next = c.tokens.next + 1 ∧ c₁.phase = .delayResync ⟨c.tokens.next⟩ ∧
      c.handle x (.submitResponse token (.error (.retryable message))) =
        .ok (c₁, [.scheduleAfterDelay ⟨⟨c.tokens.next⟩, .resync⟩]) := by
  obtain ⟨r, hr, hreacts⟩ := h.coherent.exists_handle (x := x)
    (.submitResponse token (.error (.retryable message))) (fun _ => h.unacked) nofun
    (not_outOfRevisions h.next_lt) ht nofun
  have hcoherent := hreacts.coherent h.coherent
  cases hreacts with
  | stale hl => exact absurd (Phase.ticket?_eq_submit_iff.2 ⟨_, _, hp⟩) hl
  | retries hl he =>
    exact ⟨_, ⟨hcoherent, h.connection, h.expected, h.unacked, h.limit, .inr rfl⟩, rfl, rfl, rfl, rfl, hr⟩
  | givesUp hl he => cases he

/-- A channel that waits for a probe concludes for one that waited for the response before. -/
theorem Concludes.after_retry {timer : Token} (h : Concludes c₁ r) (hq : c₁.queue = c.queue)
    (hc : c₁.connection = c.connection) (hp₁ : c₁.phase = .delayResync timer)
    (hp : c.phase.task? = none) : Concludes c (r.1, .scheduleAfterDelay ⟨timer, .resync⟩ :: r.2) := by
  obtain ⟨hqueue, hconn, hphase, hacks, haside, htasks⟩ := h
  rw [hq] at hqueue hphase hacks
  refine ⟨hqueue, hconn.trans hc, hphase, hacks, List.forall_mem_cons.2 ⟨trivial, haside⟩, ?_⟩
  rw [hp₁] at htasks
  rw [hp]
  exact htasks

theorem Concludes.not_awaits {result : Except ServiceError Revision} (h : Concludes c r) :
    ¬ r.1.Awaits (.submitResponse token result) := by
  obtain ⟨task, hp, -⟩ := h.phase
  intro hl
  obtain ⟨base, batch, hp'⟩ := Phase.ticket?_eq_submit_iff.1 hl
  rw [hp] at hp'
  cases hp'

/-- The response confirms what is left before its echoes come. -/
theorem Due.concludes_confirmed (h : Due link c) (hp : c.phase = .waitingAck token base batch false)
    (hb : base.number + batch = c.queue.revision.number + c.queue.unacked.length)
    (hlimit : base.number + batch + 1 < Checked.limit) (ht : c.tokens.next + 2 < Checked.limit) :
    ∃ r, c.handleAll x (.submitResponse token (.ok ⟨base.number + batch⟩) ::
      echoes link c.queue.revision c.queue.unacked) = .ok r ∧ Concludes c r := by
  obtain ⟨task, tokens, effects, stats, r, hs, rfl, hr, hreacts⟩ :=
    h.confirm (x := x) hp hb (Nat.lt_of_succ_lt ht)
  have htokens : tokens.next ≤ c.tokens.next + 1 := by
    rcases hs with ⟨-, -, rfl, -⟩ | ⟨-, -, rfl, -⟩
    · exact Nat.le_succ _
    · exact Nat.le_refl _
  obtain ⟨stats', hrest⟩ := handleAll_expected (x := x) (hreacts.coherent h.coherent) h.connection rfl rfl
    hb.symm hlimit (show tokens.next + 1 < _ by omega)
  obtain ⟨front, last, hu, hacks⟩ := Effect.acks_ackedAll c.queue.queued.isEmpty h.unacked
  have hall := handleAll_cons hr hrest
  rw [List.append_nil] at hall
  refine ⟨_, hall, ?_, rfl, ⟨task, rfl, hs.isSome_iff⟩, ⟨front, last, hu, ?_⟩, ?_,
    (hreacts.tends rfl).foldl_requeue⟩
  · simp [settled, hb, h.expected]
  · simp [hs.acks, hacks]
  · simp only [List.forall_mem_append, List.forall_mem_cons]
    exact ⟨⟨trivial, fun e => hs.aside_of_mem⟩, fun e => Effect.aside_of_mem_ackedAll⟩

theorem answeredAmid_cons {result : Except ServiceError Revision} :
    answeredAmid link base token (op :: early) late result =
      .incoming link.token (.ok ⟨⟨base.number + 1⟩, link.session, op⟩) ::
        answeredAmid link ⟨base.number + 1⟩ token early late result := by
  rw [answeredAmid, answeredAmid, echoes, List.length_cons, Nat.add_comm early.length, ← Nat.add_assoc]
  rfl

theorem confirmed_reach (hb : base.number + batch = c.queue.revision.number + c.queue.unacked.length)
    (hu : c.queue.unacked = op :: rest) : base.number + batch =
      (c.confirmed rest).queue.revision.number + (c.confirmed rest).queue.unacked.length := by
  rw [hb, hu, List.length_cons, Nat.add_comm rest.length, ← Nat.add_assoc]
  rfl

theorem Due.concludes_answered {result : Except ServiceError Revision} (h : Due link c)
    (hp : c.phase = .waitingAck token base batch false)
    (hb : base.number + batch = c.queue.revision.number + c.queue.unacked.length)
    (hu : c.queue.unacked = early ++ late) (ht : c.tokens.next + 2 < Checked.limit)
    (hresult : result = .ok ⟨base.number + batch⟩ ∧
        (late ≠ [] → base.number + batch + 1 < Checked.limit) ∨
      ∃ message, result = .error (.retryable message)) :
    ∃ r, c.handleAll x (answeredAmid link c.queue.revision token early late result) = .ok r ∧
      Concludes c r := by
  induction early generalizing c with
  | nil =>
    obtain rfl : c.queue.unacked = late := hu
    rcases hresult with ⟨rfl, hlimit⟩ | ⟨message, rfl⟩
    · exact h.concludes_confirmed hp hb (hlimit h.unacked) ht
    · obtain ⟨c₁, hdue, hqueue, hconn, htokens, hphase, hr⟩ :=
        h.retry (x := x) hp (Nat.lt_of_succ_lt ht) message
      obtain ⟨r, hr', hconcludes⟩ := hdue.concludes_echoes (x := x) (by omega)
      rw [hqueue] at hr'
      exact ⟨_, handleAll_cons hr hr', hconcludes.after_retry hqueue hconn hphase (by rw [hp]; rfl)⟩
  | cons op early ih =>
    rw [answeredAmid_cons]
    rw [List.cons_append] at hu
    by_cases hne : early ++ late = []
    · rw [hne] at hu
      obtain ⟨rfl, rfl⟩ := List.append_eq_nil_iff.1 hne
      obtain ⟨r, hr, hconcludes⟩ := h.last (x := x) hu (Nat.lt_of_succ_lt ht)
      have hstale : r.1.handleAll x [.submitResponse token result] = .ok (r.1, []) :=
        handleAll_singleton (handle_of_not_awaits hconcludes.not_awaits)
      have hall := handleAll_cons hr hstale
      rw [List.append_nil] at hall
      exact ⟨r, hall, hconcludes⟩
    · obtain ⟨hr, hdue⟩ := h.echo (x := x) hu hne (Nat.lt_of_succ_lt ht)
      obtain ⟨r, hr', hconcludes⟩ := ih hdue hp (confirmed_reach hb hu) rfl ht
      exact ⟨_, handleAll_cons hr hr', hconcludes.after_echo hu⟩

/-- The response is ahead of an echo, and there is no revision after the last of the batch. -/
theorem Due.overflows (h : Due link c) (hp : c.phase = .waitingAck token base batch false)
    (hb : base.number + batch = c.queue.revision.number + c.queue.unacked.length)
    (hu : c.queue.unacked = early ++ late) (hne : late ≠ [])
    (hlimit : ¬ base.number + batch + 1 < Checked.limit) (ht : c.tokens.next + 2 < Checked.limit) :
    c.handleAll x (answeredAmid link c.queue.revision token early late
      (.ok ⟨base.number + batch⟩)) = .error .addOverflow := by
  induction early generalizing c with
  | nil =>
    obtain ⟨op, rest, rfl⟩ := List.exists_cons_of_ne_nil hne
    obtain ⟨task, tokens, effects, stats, r, hs, rfl, hr, -⟩ :=
      h.confirm (x := x) hp hb (Nat.lt_of_succ_lt ht)
    have hdue : c.queue.unacked.length ≠ 0 := by simpa using h.unacked
    exact handleAll_cons_error hr
      (handleAll_of_error (handle_expected_echo_overflow h.connection hdue hlimit))
  | cons op early ih =>
    have hne' : early ++ late ≠ [] := List.append_ne_nil_of_right_ne_nil _ hne
    obtain ⟨hr, hdue⟩ := h.echo (x := x) hu hne' (Nat.lt_of_succ_lt ht)
    rw [answeredAmid_cons]
    exact handleAll_cons_error hr (ih hdue hp (confirmed_reach hb hu) rfl ht)

/-- A batch is in flight as it was submitted, no echoes are due from before, and nothing comes but its
echoes in order, with the response to its submit anywhere among them or not at all. Then the batch is
concluded. The only exception is a response that confirms a batch up to the last revision there is while
an echo is still to come. -/
theorem Run.concludes_iff {log : List (Turn M)} (h : Run x log c) (hc : c.connection = some link)
    (hp : c.phase = .waitingAck token c.queue.revision c.queue.unacked.length false)
    (he : c.queue.expectedEchoes = 0)
    (hlimit : c.queue.revision.number + c.queue.unacked.length < Checked.limit)
    (ht : c.tokens.next + 2 < Checked.limit) :
    (∃ r, c.handleAll x (echoes link c.queue.revision c.queue.unacked) = .ok r ∧ Concludes c r) ∧
    ∀ early late, c.queue.unacked = early ++ late →
      (∀ message, ∃ r, c.handleAll x (answeredAmid link c.queue.revision token early late
        (.error (.retryable message))) = .ok r ∧ Concludes c r) ∧
      ((∃ r, c.handleAll x (answeredAmid link c.queue.revision token early late
          (.ok ⟨c.queue.revision.number + c.queue.unacked.length⟩)) = .ok r ∧ Concludes c r) ↔
        (late ≠ [] → c.queue.revision.number + c.queue.unacked.length + 1 < Checked.limit)) := by
  have hu : c.queue.unacked ≠ [] := by simpa using h.batch_ne_zero hp
  have hdue : Due link c := ⟨h.coherent, hc, he, hu, hlimit, .inl (by rw [state, hp]; rfl)⟩
  refine ⟨hdue.concludes_echoes (Nat.lt_of_succ_lt ht), fun early late hsplit => ⟨fun message => ?_, ?_⟩⟩
  · exact hdue.concludes_answered hp rfl hsplit ht (.inr ⟨message, rfl⟩)
  · constructor
    · rintro ⟨r, hr, -⟩ hne
      by_contra hover
      rw [hdue.overflows hp rfl hsplit hne hover ht] at hr
      cases hr
    · exact fun hroom => hdue.concludes_answered hp rfl hsplit ht (.inl ⟨rfl, hroom⟩)

end

/-- Of two operations in flight one is confirmed by its echo and the other by the response, ahead of its
echo; a third one is queued. -/
theorem concludes_overtaken : ∃ log c, Run CharOp.transform log c ∧
    c.queue.unacked = [⟨0, 1, .insert 0 'x'⟩, ⟨1, 1, .insert 1 'y'⟩] ∧
    c.queue.queued = [⟨2, 1, .insert 2 'z'⟩] ∧
    ∃ r, c.handleAll CharOp.transform (answeredAmid ⟨⟨"a", by decide⟩, ⟨1⟩⟩ ⟨5⟩ ⟨3⟩
      [⟨0, 1, .insert 0 'x'⟩] [⟨1, 1, .insert 1 'y'⟩] (.ok ⟨7⟩)) = .ok r ∧ Concludes c r := by
  let c : Channel CharOp := {
    queue := {
      revision := ⟨5⟩
      queued := [⟨2, 1, .insert 2 'z'⟩]
      unacked := [⟨0, 1, .insert 0 'x'⟩, ⟨1, 1, .insert 1 'y'⟩] }
    connection := some ⟨⟨"a", by decide⟩, ⟨1⟩⟩
    phase := .waitingAck ⟨3⟩ ⟨5⟩ 2 false
    tokens := ⟨4⟩
    stats := { submits := 1 } }
  have h₀ : Run CharOp.transform [] {} := .new
  have h₁ := h₀.turn (.connect ⟨5⟩ ⟨"a", by decide⟩) rfl
  have h₂ := h₁.turn (.send ⟨0, 1, .insert 0 'x'⟩) rfl
  have h₃ := h₂.turn (.send ⟨1, 1, .insert 1 'y'⟩) rfl
  have h₄ := h₃.turn (.handle (.task ⟨⟨2⟩, .maybeSend⟩)) rfl
  have h₅ : Run _ _ c := h₄.turn (.send ⟨2, 1, .insert 2 'z'⟩) rfl
  obtain ⟨-, hanswered⟩ := h₅.concludes_iff rfl rfl rfl (by decide) (by decide)
  obtain ⟨-, hok⟩ := hanswered [⟨0, 1, .insert 0 'x'⟩] [⟨1, 1, .insert 1 'y'⟩] rfl
  exact ⟨_, c, h₅, rfl, rfl, hok.2 fun _ => by decide⟩

/-- One operation is in flight to the last revision there is. Its echo alone confirms it, but if the
response comes first the echo ends the channel in a fault. -/
theorem concludes_not_at_last_revision : ∃ log c, Run CharOp.transform log c ∧
    c.connection = some ⟨⟨"a", by decide⟩, ⟨1⟩⟩ ∧
    c.phase = .waitingAck ⟨3⟩ c.queue.revision c.queue.unacked.length false ∧
    c.queue.expectedEchoes = 0 ∧ c.queue.revision = ⟨18446744073709551614⟩ ∧
    c.queue.unacked = [⟨0, 1, .insert 0 'x'⟩] ∧
    (c.handleAll CharOp.transform
      [.incoming ⟨1⟩ (.ok ⟨⟨18446744073709551615⟩, ⟨"a", by decide⟩, ⟨0, 1, .insert 0 'x'⟩⟩)]).isOk ∧
    c.handleAll CharOp.transform
      [.submitResponse ⟨3⟩ (.ok ⟨18446744073709551615⟩),
        .incoming ⟨1⟩ (.ok ⟨⟨18446744073709551615⟩, ⟨"a", by decide⟩, ⟨0, 1, .insert 0 'x'⟩⟩)] =
      .error .addOverflow := by
  have h₀ : Run CharOp.transform [] {} := .new
  have h₁ := h₀.turn (.connect ⟨18446744073709551614⟩ ⟨"a", by decide⟩) rfl
  have h₂ := h₁.turn (.send ⟨0, 1, .insert 0 'x'⟩) rfl
  have h₃ := h₂.turn (.handle (.task ⟨⟨2⟩, .maybeSend⟩)) rfl
  exact ⟨_, _, h₃, rfl, rfl, rfl, rfl, rfl, rfl, rfl⟩

end Channel

end CoEdit
