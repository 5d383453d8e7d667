import CoEdit.Proofs.Calls
import CoEdit.Proofs.CharConvergence

/-!
# The phase of a channel agrees with its data

A channel is coherent after any calls, whatever its transformer (`Run.coherent`). If the transformer
never empties a list of a client's, a batch in flight is never empty and a transmission is scheduled only
if there is something to transmit (`Run.fed`). Then none of the checks that a channel makes on itself
can fail, whatever it is called for and whatever it is handed (`Run.sane`): it makes no move between
states but the allowed ones, it never puts a batch in flight over another one, and its phase agrees with
its data after every call.
-/

namespace CoEdit

theorem CharOp.transform_keepsClients : Transformer.KeepsClients CharOp.transform := by
  intro client server t ht hne hnil
  have hlen := CharOp.length_of_labels (CharOp.transform_labels ht).1
  rw [hnil] at hlen
  exact hne (List.length_eq_zero_iff.1 hlen.symm)

namespace Channel

variable {M : Type}

section
variable {x : Transformer M} {c : Channel M} {r : Reaction M}

theorem closed_coherent : c.closed.Coherent := ⟨⟨⟨rfl, rfl⟩, Nat.le_refl _⟩, nofun⟩

theorem Schedules.fits {task : Option Token} {tokens : TokenSource} {effects : List (Effect M)}
    (h : c.Schedules task tokens effects) : task = none → c.queue.queued = [] :=
  h.task_eq_none_iff.1

theorem Syncs.coherent (h : c.Syncs r) (hc : c.Fitting) : r.1.Coherent := by
  cases h with
  | lags h => exact ⟨hc, h⟩
  | resends hp hr hu =>
    have hfits := hc.isSome (hc.inFlight hu)
    exact ⟨⟨hfits, hc.echoes⟩, by rintro _ _ _ ⟨⟩⟩
  | finishes hp hr hu hs =>
    have hfits := hc.isSome (by rw [state, hp]; trivial)
    exact ⟨⟨⟨hfits, hu, hs.fits⟩, hc.echoes⟩, by rintro _ _ _ ⟨⟩⟩

theorem Phase.Fits.mono {phase : Phase} {connection : Option Connection} {q q' : Queue M}
    (h : phase.Fits connection q) (hc : connection.isSome) (hu : q.unacked = [] → q'.unacked = [])
    (hq : phase = .allAcked none → q.queued = [] → q'.queued = []) : phase.Fits connection q' := by
  cases phase with
  | uninitialised => rw [h.1] at hc; cases hc
  | allAcked task => exact ⟨hc, hu h.2.1, fun ht => hq (by rw [ht]) (h.2.2 ht)⟩
  | _ => exact h

theorem Accepts.fitting {me : Session} {d : Delivery M} (h : Accepts x c me d r) (hc : c.Fitting)
    (hs : c.connection.isSome) : r.1.Fitting := by
  have hechoes := hc.echoes
  cases h with
  | recognises hd he hr =>
    refine ⟨hc.fits.mono hs id fun _ => id, ?_⟩
    dsimp only; omega
  | confirms hd ht hu hne =>
    refine ⟨hc.fits.mono hs (fun h => ?_) fun _ => id, ?_⟩
    · rw [hu] at h; cases h
    · exact ht.1 ▸ Nat.zero_le _
  | confirmsLast hd ht hu hs' => exact ⟨⟨hs, rfl, hs'.fits⟩, ht.1 ▸ Nat.zero_le _⟩
  | takesIn hd ht hf hr =>
    exact ⟨hc.fits.mono hs hf.client_eq_nil fun _ => hr.client_eq_nil, ht.1 ▸ Nat.zero_le _⟩

theorem Awaits.inFlight {event : Event M} {e : ServiceError} (h : c.Awaits event)
    (he : event.failure? = some e) : c.state.InFlight := by
  cases event with
  | task task => cases he
  | submitResponse token result =>
    obtain ⟨base, batch, hp⟩ := Phase.ticket?_eq_submit_iff.1 h
    rw [state, hp]; trivial
  | probeResponse token result =>
    obtain ⟨target, hp⟩ := Phase.ticket?_eq_probe_iff.1 h
    rw [state, hp]; trivial
  | incoming token message => cases he

theorem Reacts.coherent {event : Event M} (h : Reacts x c event r) (hc : c.Coherent) :
    r.1.Coherent := by
  have hfits := hc.fits
  cases h with
  | stale h => exact hc
  | submits hp hu hq =>
    rw [hp] at hfits
    exact ⟨⟨hfits.1, hc.echoes⟩, nofun⟩
  | lapses hp hq =>
    rw [hp] at hfits
    exact ⟨⟨⟨hfits.1, hfits.2.1, fun _ => hq⟩, hc.echoes⟩, nofun⟩
  | probes hp =>
    rw [hp] at hfits
    exact ⟨⟨⟨hfits, rfl⟩, hc.echoes⟩, nofun⟩
  | confirms hp hb hu hr hs =>
    rw [hp] at hfits
    refine ⟨⟨⟨hfits, rfl, hs.fits⟩, ?_⟩, nofun⟩
    have := hc.echoes
    dsimp only; omega
  | defers hp hr =>
    rw [hp] at hfits
    exact ⟨⟨hfits, hc.echoes⟩, nofun⟩
  | learns hp hs =>
    rw [hp] at hfits
    exact hs.coherent ⟨⟨hfits.1, rfl⟩, hc.echoes⟩
  | retries h he => exact ⟨⟨hc.isSome (h.inFlight he), hc.echoes⟩, nofun⟩
  | givesUp h he => exact closed_coherent
  | breaks hconn h => exact closed_coherent
  | accepts hconn h hs => exact hs.coherent (h.fitting hc.toFitting (by rw [hconn]; rfl))

theorem Does.coherent {call : Call M} {reply : Reply M} (h : Does x c call reply r)
    (hc : c.Coherent) : r.1.Coherent := by
  have hfits := hc.fits
  cases h with
  | connects hconn => exact ⟨⟨⟨rfl, rfl, fun _ => rfl⟩, Nat.zero_le _⟩, nofun⟩
  | connected hconn => exact hc
  | unconnected hconn hr => exact hc
  | disconnects hconn => exact closed_coherent
  | schedules hp ht hs =>
    rw [hp] at hfits
    exact ⟨⟨⟨hfits.1, hfits.2.1, hs.fits⟩, hc.echoes⟩, nofun⟩
  | stages hconn hp ht =>
    exact ⟨⟨hfits.mono hconn id fun h => absurd h hp, hc.echoes⟩, hc.lags⟩
  | rejects hconn he => exact closed_coherent
  | peeks hconn => exact hc
  | receives hconn => exact ⟨⟨hfits.mono hconn id fun _ => id, hc.echoes⟩, hc.lags⟩
  | reacts h => exact h.coherent hc

theorem Run.coherent {log : List (Turn M)} (h : Run x log c) : c.Coherent := by
  induction h with
  | new => exact ⟨⟨⟨rfl, rfl⟩, Nat.le_refl _⟩, nofun⟩
  | turn call _ hcall ih => exact ((call_within ih call).of_ok hcall).coherent ih

end

/-- There is a batch in flight when the phase says so, and something queued when its transmission is
scheduled. -/
structure Fed (c : Channel M) : Prop where
  flight : c.state.InFlight → c.queue.unacked ≠ []
  scheduled : ∀ id, c.phase = .allAcked (some id) → c.queue.queued ≠ []

section
variable {x : Transformer M} {c : Channel M} {r : Reaction M}

theorem Schedules.queued_ne_nil {task : Option Token} {tokens : TokenSource}
    {effects : List (Effect M)} (h : c.Schedules task tokens effects) (id : Token)
    (hid : Phase.allAcked task = .allAcked (some id)) : c.queue.queued ≠ [] := by
  intro hq
  rw [h.task_eq_none_iff.2 hq] at hid
  cases hid

theorem closed_fed : c.closed.Fed := ⟨False.elim, by rintro _ ⟨⟩⟩

/-- While a batch is in flight no transmission is scheduled. -/
theorem Fed.of_inFlight (hs : c.state.InFlight) (hu : c.queue.unacked ≠ []) : c.Fed := by
  refine ⟨fun _ => hu, fun id hp => ?_⟩
  rw [state, hp] at hs
  exact hs.elim

theorem Syncs.fed (h : c.Syncs r) (hc : c.Fed) : r.1.Fed := by
  cases h with
  | lags h => exact hc
  | resends hp hr hu => exact .of_inFlight trivial hu
  | finishes hp hr hu hs => exact ⟨False.elim, hs.queued_ne_nil⟩

theorem Accepts.fed {me : Session} {d : Delivery M} (h : Accepts x c me d r) (hx : x.KeepsClients)
    (hc : c.Fed) : r.1.Fed := by
  cases h with
  | recognises hd he hr => exact ⟨hc.flight, hc.scheduled⟩
  | confirms hd ht hu hne => exact ⟨fun _ => hne, hc.scheduled⟩
  | confirmsLast hd ht hu hs => exact ⟨False.elim, hs.queued_ne_nil⟩
  | takesIn hd ht hf hr =>
    exact ⟨fun h => hf.client_ne_nil hx (hc.flight h),
      fun id h => hr.client_ne_nil hx (hc.scheduled id h)⟩

theorem Reacts.fed {event : Event M} (h : Reacts x c event r) (hx : x.KeepsClients) (hc : c.Fed) :
    r.1.Fed := by
  have hflight {phase : Phase} (hp : c.phase = phase) (hs : phase.state.InFlight) :
      c.queue.unacked ≠ [] := hc.flight (by rw [state, hp]; exact hs)
  cases h with
  | stale h => exact hc
  | submits hp hu hq => exact .of_inFlight trivial hq
  | lapses hp hq => exact ⟨False.elim, by rintro _ ⟨⟩⟩
  | probes hp => exact .of_inFlight trivial (hflight hp trivial)
  | confirms hp hb hu hr hs => exact ⟨False.elim, hs.queued_ne_nil⟩
  | defers hp hr => exact .of_inFlight trivial (hflight hp trivial)
  | learns hp hs => exact hs.fed (.of_inFlight trivial (hflight hp trivial))
  | retries h he => exact .of_inFlight trivial (hc.flight (h.inFlight he))
  | givesUp h he => exact closed_fed
  | breaks hconn h => exact closed_fed
  | accepts hconn h hs => exact hs.fed (h.fed hx hc)

theorem Does.fed {call : Call M} {reply : Reply M} (h : Does x c call reply r)
    (hx : x.KeepsClients) (hc : c.Fed) : r.1.Fed := by
  cases h with
  | connects hconn => exact ⟨False.elim, nofun⟩
  | connected hconn => exact hc
  | unconnected hconn hr => exact hc
  | disconnects hconn => exact closed_fed
  | schedules hp ht hs => exact ⟨False.elim, hs.queued_ne_nil⟩
  | stages hconn hp ht =>
    exact ⟨hc.flight, fun _ _ => List.append_ne_nil_of_right_ne_nil _ (ht.client_ne_nil hx)⟩
  | rejects hconn he => exact closed_fed
  | peeks hconn => exact hc
  | receives hconn => exact ⟨hc.flight, hc.scheduled⟩
  | reacts h => exact h.fed hx hc

theorem Run.fed {log : List (Turn M)} (h : Run x log c) (hx : x.KeepsClients) : c.Fed := by
  induction h with
  | new => exact ⟨False.elim, nofun⟩
  | turn call h hcall ih => exact ((call_within h.coherent call).of_ok hcall).fed hx ih

/-! ### The checks of a channel -/

theorem State.inFlight_iff {s : State} :
    s.InFlight ↔ s = .waitingAck ∨ s = .delayResync ∨ s = .waitingSync := by
  cases s <;> simp [InFlight]

theorem Coherent.violation_eq_none (h : c.Coherent) (hf : c.Fed) : c.violation = none := by
  by_cases hs : c.state.InFlight
  · refine (violation_of_flight hs (h.isSome hs)).trans (if_neg ?_)
    simpa using hf.flight hs
  · have hfits := h.fits
    unfold state at hs
    cases hp : c.phase with
    | uninitialised =>
      rw [hp] at hfits
      simp [violation, hp, hfits.1, isClean, Queue.isClean, hfits.2]
    | allAcked task =>
      have hself : c = { c with phase := .allAcked task } := by rw [← hp]
      rw [hp] at hfits
      rw [hself]
      refine violation_of_acked hfits.1 hfits.2.1 fun htask => ?_
      obtain ⟨id, rfl⟩ := Option.isSome_iff_exists.1 htask
      exact hf.scheduled id hp
    | _ => exact absurd (by rw [hp]; trivial) hs

theorem Coherent.handle_counts (h : c.Coherent) (hf : c.Fed) {event : Event M} :
    (c.handle x event).Counts (Reacts x c event) :=
  (handle_within h).weaken fun _ hstops => hstops.eq_addOverflow hf.flight

theorem Coherent.call_counts (h : c.Coherent) (hf : c.Fed) (call : Call M) :
    (c.call x call).Counts fun r => Does x c call r.1 r.2 :=
  (call_within h call).weaken fun _ hstops => hstops.eq_addOverflow hf.flight

/-- With a transformer that empties no list of a client's, the data of a channel agree with its phase
after any calls, and no further call ends in a fault unless a sum leaves its range. -/
theorem Run.sane {log : List (Turn M)} (h : Run x log c) (hx : x.KeepsClients) :
    c.violation = none ∧
    (c.queue.unacked ≠ [] ↔
      c.state = .waitingAck ∨ c.state = .delayResync ∨ c.state = .waitingSync) ∧
    (c.state = .uninitialised ↔ c.connection = none) ∧
    ∀ call, (c.call x call).Counts fun r => r.2.1.violation = none := by
  have hc := h.coherent
  have hf := h.fed hx
  refine ⟨hc.violation_eq_none hf, ?_, ?_, fun call => ?_⟩
  · rw [← State.inFlight_iff]
    exact ⟨hc.inFlight, hf.flight⟩
  · exact ⟨hc.connection_eq_none, fun hconn => by rw [state, hc.eq_uninitialised hconn]; rfl⟩
  · exact (hc.call_counts hf call).mono fun r hr => (hr.coherent hc).violation_eq_none (hr.fed hx hf)

end

/-- A channel is handed a task that it did not schedule and an operation that its own operation has to be
moved past, and its submit fails. -/
theorem sane_disturbed : ∃ log c, Run CharOp.transform log c ∧ c.state = .delayResync ∧
    c.queue.unacked = [⟨0, 1, .insert 0 'x'⟩] ∧ c.violation = none ∧
    ∀ call, (c.call CharOp.transform call).Counts fun r => r.2.1.violation = none := by
  have h₀ : Run CharOp.transform [] {} := .new
  have h₁ := h₀.turn (.connect ⟨0⟩ ⟨"a", by decide⟩) rfl
  have h₂ := h₁.turn (.send ⟨0, 1, .insert 0 'x'⟩) rfl
  have h₃ := h₂.turn (.handle (.task ⟨⟨7⟩, .resync⟩)) rfl
  have h₄ := h₃.turn (.handle (.task ⟨⟨2⟩, .maybeSend⟩)) rfl
  have h₅ := h₄.turn (.handle (.incoming ⟨1⟩ (.ok ⟨⟨1⟩, ⟨"b", by decide⟩, ⟨0, 2, .insert 0 'y'⟩⟩))) rfl
  have h₆ := h₅.turn (.handle (.submitResponse ⟨3⟩ (.error (.retryable "timeout")))) rfl
  obtain ⟨hv, -, -, hcall⟩ := h₆.sane CharOp.transform_keepsClients
  exact ⟨_, _, h₆, rfl, rfl, hv, hcall⟩

end Channel

end CoEdit
