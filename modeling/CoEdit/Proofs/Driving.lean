import CoEdit.Mailbox.Drive
import CoEdit.Proofs.Costs
import CoEdit.Proofs.Sleepers

/-!
# Drives

`d.Ends x done limit isFirst effects result`: the loop that hands events to the channel ends with the result
after finitely many events, and then that is what it answers (`Ends.loop_eq`).

Every drive ends if the transformer adds and drops no operation (`Run.driveFor_ends`). The server's script
tells of finitely many failures, each of which leads to one more attempt (`Event.surcharge`), and for
everything else what the channel holds has to pay (`Channel.toCome`). With every event there is less of it
(`InOrder.outstanding_lt`).
-/

namespace CoEdit

variable {M R : Type}

/-- What a failure that is worth another attempt costs on top. -/
def Event.surcharge (k : Nat) (event : Event M) : Nat :=
  match event.failure? with
  | some (.retryable _) => k
  | _ => 0

theorem ServiceError.surcharge_le (k : Nat) (e : ServiceError) (token : Token) :
    Event.surcharge k (M := M) (.submitResponse token (.error e)) ≤ k ∧
      Event.surcharge k (M := M) (.probeResponse token (.error e)) ≤ k := by
  cases e with
  | retryable => exact ⟨Nat.le_refl _, Nat.le_refl _⟩
  | fatal => exact ⟨Nat.zero_le _, Nat.zero_le _⟩

namespace Channel

variable {x : Transformer M} {c : Channel M} {k l : Nat} {r : Reaction M} {me : Session} {d : Delivery M}
  {event : Event M}

/-- What a resync leads to besides what waits already: the response to the probe, and another attempt. -/
def Phase.upkeep (unacked : Nat) : Phase → Nat
  | .delayResync _ => unacked + 2
  | .waitingSync .. => unacked + 1
  | _ => 0

theorem Phase.upkeep_mono {phase : Phase} (h : k ≤ l) : phase.upkeep k ≤ phase.upkeep l := by
  cases phase with
  | delayResync | waitingSync => exact Nat.add_le_add_right h _
  | uninitialised | allAcked | waitingAck => exact Nat.le_refl _

/-- How many events what the channel holds leads to, at most. -/
def toCome (c : Channel M) : Nat := c.backlog 1 + c.phase.upkeep c.queue.unacked.length

/-- How many operations the channel holds. -/
def held (c : Channel M) : Nat := c.queue.unacked.length + c.queue.queued.length

/-- A reaction leads to no more than `k` events, now and later, and adds no operation. -/
structure Pays (c : Channel M) (k : Nat) (r : Reaction M) : Prop where
  spend : ∃ l, Effect.Spend 1 r.2 l ∧ r.1.toCome + l ≤ k
  held : r.1.held ≤ c.held

theorem Affords.pays (h : Affords 1 k r) (hheld : r.1.held ≤ c.held)
    (hup : r.1.phase.upkeep r.1.queue.unacked.length ≤ l) : Pays c (k + l) r := by
  obtain ⟨n, hspend, hle⟩ := h
  refine ⟨⟨n, hspend, ?_⟩, hheld⟩
  unfold toCome
  omega

theorem Pays.mono (h : Pays c k r) (hle : k ≤ l) : Pays c l r := by
  obtain ⟨⟨n, hspend, hn⟩, hheld⟩ := h
  exact ⟨⟨n, hspend, Nat.le_trans hn hle⟩, hheld⟩

theorem Pays.idle (c : Channel M) : Pays c c.toCome (c, []) :=
  ⟨⟨0, .of_free (List.forall_mem_nil _), Nat.le_refl _⟩, Nat.le_refl _⟩

theorem Pays.closed {effects : List (Effect M)} (h : ∀ effect ∈ effects, effect.Free) :
    Pays c k (c.closed, effects) :=
  (Affords.pays (k := 0) (l := 0) (.closed h) (Nat.zero_le _) (Nat.le_refl _)).mono (Nat.zero_le _)

theorem Syncs.pays (h : c.Syncs r) : Pays c c.toCome r := by
  cases h with
  | lags => exact .idle c
  | resends hp hr hu =>
    have hreset : Effect.Spend 1 [(.resetBackoff : Effect M)] _ := .one rfl
    refine ⟨⟨_, hreset.append (.one rfl), ?_⟩, Nat.le_refl _⟩
    unfold toCome backlog Effect.cost Phase.upkeep
    rw [hp]
    dsimp only
    omega
  | finishes hp hr hu hs =>
    refine Affords.pays ?_ (Nat.le_refl _) (Nat.zero_le _)
    rw [← List.append_nil (_ ++ _)]
    refine hs.affords_confirmed Phase.free_release (List.forall_mem_nil _) rfl rfl fun id hp' => ?_
    rw [hp] at hp'
    cases hp'

theorem Accepts.pays (h : Accepts x c me d r) (hx : x.KeepsLengths) (hc : c.Fitting) : Pays c c.toCome r := by
  have hall := h.affords (n := 1) hx hc
  cases h with
  | recognises => exact hall.pays (Nat.le_refl _) (Nat.le_refl _)
  | confirms hd ht hu =>
    have hfewer : c.queue.unacked.length = _ + 1 := congrArg List.length hu
    refine hall.pays ?_ (Phase.upkeep_mono ?_)
    · unfold held
      dsimp only
      omega
    · dsimp only
      omega
  | confirmsLast => exact hall.pays (Nat.add_le_add_right (Nat.zero_le _) _) (Nat.zero_le _)
  | takesIn hd ht hf hr =>
    have hflight := hf.length_client hx
    have hrest := hr.length_client hx
    refine hall.pays ?_ (Phase.upkeep_mono (Nat.le_of_eq hflight))
    unfold held
    dsimp only
    omega

/-- Only a failure that is worth another attempt leads to more than was to come. -/
theorem Reacts.pays (h : Reacts x c event r) (hx : x.KeepsLengths) (hc : c.Coherent) (hk : c.held + 4 ≤ k) :
    Pays c (c.toCome + event.surcharge k) r := by
  have hle : c.toCome ≤ c.toCome + event.surcharge k := Nat.le_add_right ..
  cases h with
  | stale => exact (Pays.idle c).mono hle
  | submits hp hu hq =>
    have hpos := List.length_pos_iff.2 hq
    refine ⟨⟨_, .one rfl, Nat.le_trans ?_ hle⟩, ?_⟩
    · unfold toCome backlog Effect.cost Phase.upkeep
      rw [hp]
      dsimp only [List.length_nil]
      omega
    · unfold held
      dsimp only [List.length_nil]
      omega
  | lapses hp hq =>
    refine ⟨⟨0, .of_free (List.forall_mem_nil _), Nat.le_trans ?_ hle⟩, Nat.le_refl _⟩
    unfold toCome backlog Phase.upkeep
    rw [hp, hq]
    exact Nat.le_refl _
  | probes hp =>
    refine ⟨⟨_, .one rfl, Nat.le_trans ?_ hle⟩, Nat.le_refl _⟩
    unfold toCome backlog Effect.cost Phase.upkeep
    rw [hp]
    dsimp only
    omega
  | confirms hp hb hu hr hs =>
    refine Pays.mono (Affords.pays (k := c.backlog 1) (l := 0) ?_ ?_ (Nat.zero_le _)) ?_
    · refine hs.affords_confirmed (List.forall_mem_nil _) free_ackedAll rfl rfl fun id hp' => ?_
      rw [hp] at hp'
      cases hp'
    · exact Nat.add_le_add_right (Nat.zero_le _) _
    · exact Nat.le_trans (Nat.le_add_right ..) hle
  | defers hp =>
    refine ⟨⟨0, .of_free (List.forall_mem_nil _), Nat.le_trans (Nat.le_of_eq ?_) hle⟩, Nat.le_refl _⟩
    unfold toCome backlog Phase.upkeep
    rw [hp]
    rfl
  | learns hp hs =>
    obtain ⟨hspend, hheld⟩ := hs.pays
    refine Pays.mono ⟨hspend, hheld⟩ (Nat.le_trans (Nat.le_of_eq ?_) hle)
    unfold toCome backlog Phase.upkeep
    rw [hp]
  | retries h he =>
    refine ⟨⟨_, .one rfl, ?_⟩, Nat.le_refl _⟩
    have hcost : event.surcharge k = k := by
      unfold Event.surcharge
      rw [he]
    rw [hcost]
    -- a transmission that was scheduled would be one event less
    have hone : c.queue.queued.length * (1 + 2) ≤ c.backlog 1 + 1 := by
      unfold backlog
      split <;> omega
    unfold held at hk
    unfold toCome
    rw [backlog_of_not_scheduled fun id hp => by cases hp]
    unfold Effect.cost Phase.upkeep
    dsimp only
    omega
  | givesUp => exact .closed (by simp [Effect.Free])
  | breaks => exact .closed (List.forall_mem_append.2 ⟨Phase.free_release, by simp [Effect.Free]⟩)
  | accepts hconn h hs =>
    obtain ⟨⟨l, hspend, hl⟩, hheld⟩ := h.pays hx hc.toFitting
    obtain ⟨⟨m, hspend', hm⟩, hheld'⟩ := hs.pays
    refine ⟨⟨l + m, hspend.append hspend', ?_⟩, Nat.le_trans hheld' hheld⟩
    dsimp only at hm ⊢
    omega

end Channel

/-! ### What waits in a mailbox -/

namespace Mailbox

variable {m m' m'' : Mailbox (Event M)} {k n n' : Nat} {event : Event M}

/-- How many events wait and are to be posted, with what their failures cost. -/
def load (k : Nat) (m : Mailbox (Event M)) : Nat :=
  (m.events.map fun e => e.surcharge k + 1).sum + (m.sleepers.map fun s => s.event.surcharge k + 1).sum

theorem Move.load_le {parting : Option (Parting (Event M))} (hm : m.Move parting m') (h : m.Tidy) :
    m'.load k ≤ m.load k := by
  unfold load
  cases parting with
  | none =>
    obtain ⟨hp, -, hevents, -⟩ := hm.quiet
    rw [hevents, (hp.map _).sum_nat]
  | some parting =>
    cases parting with
    | posted e =>
      obtain ⟨s, -, he, -, hp, -, -, hevents⟩ := h.move_posted hm
      rw [hevents, (hp.map _).sum_nat, List.map_append, List.sum_append]
      simp only [List.map_cons, List.map_nil, List.sum_cons, List.sum_nil, he]
      omega
    | left e =>
      obtain ⟨s, -, he, -, hp, -, -, hevents⟩ := hm.left
      rw [hevents, (hp.map _).sum_nat, List.map_cons, List.sum_cons]
      omega

theorem Passes.load_le (hp : m.Passes m') (h : m.Tidy) : m'.load k ≤ m.load k := by
  induction hp with
  | refl => exact Nat.le_refl _
  | tail hp hm ih =>
    obtain ⟨parting, hm⟩ := hm
    exact Nat.le_trans (hm.load_le (h.passes hp)) ih

/-- A mailbox is tidy as before, and `n` more wait at most. -/
structure Takes (k n : Nat) (m m' : Mailbox (Event M)) : Prop where
  tidy : m.Tidy → m'.Tidy
  load : m.Tidy → m'.load k ≤ m.load k + n

theorem Takes.refl (m : Mailbox (Event M)) : Takes k 0 m m := ⟨id, fun _ => Nat.le_refl _⟩

theorem Takes.trans (h : Takes k n m m') (h' : Takes k n' m' m'') : Takes k (n + n') m m'' := by
  refine ⟨fun hm => h'.tidy (h.tidy hm), fun hm => ?_⟩
  have hone := h.load hm
  have htwo := h'.load (h.tidy hm)
  omega

theorem Takes.mono (h : Takes k n m m') (hle : n ≤ n') : Takes k n' m m' :=
  ⟨h.tidy, fun hm => Nat.le_trans (h.load hm) (Nat.add_le_add_left hle _)⟩

theorem takes_post (m : Mailbox (Event M)) (event : Event M) :
    Takes k (event.surcharge k + 1) m (m.post event) := by
  refine ⟨fun h => ?_, fun h => ?_⟩
  · rw [h.post_eq]
    exact h.withEvents _
  · rw [h.post_eq]
    show ((m.events ++ [event]).map _).sum + (m.sleepers.map _).sum ≤ m.load k + _
    unfold load
    rw [List.map_append, List.sum_append, List.map_singleton, List.sum_singleton]
    omega

theorem takes_start (m : Mailbox (Event M)) (delay : Nat) (event : Event M) :
    Takes k (event.surcharge k + 1) m (m.start delay event).2 := by
  refine ⟨fun h => h.start delay event, fun _ => ?_⟩
  unfold load
  rw [((m.sleepers_start_perm delay event).map _).sum_nat, List.map_cons, List.sum_cons]
  show (m.events.map _).sum + _ ≤ _
  dsimp only
  omega

theorem takes_dismiss (m : Mailbox (Event M)) (serial : Nat) : Takes k 0 m (m.dismiss serial) := by
  refine ⟨fun h => h.dismiss serial, fun _ => Nat.le_of_eq ?_⟩
  unfold load
  rw [((m.sleepers_dismiss_perm serial).map _).sum_nat, List.map_map, dismiss_events]
  simp [Function.comp_def]

theorem Tidy.receive_load (h : m.Tidy) (limit : Nat) (isFirst : Bool) :
    (m.receive limit isFirst).mailbox.Tidy ∧
      (m.receive limit isFirst).mailbox.load k +
        ((m.receive limit isFirst).taken.map fun e => e.surcharge k + 1).sum ≤ m.load k := by
  have hp := h.receive_passes limit isFirst
  refine ⟨(h.passes hp).withEvents (m.receive limit isFirst).mailbox.events, ?_⟩
  have hle := hp.load_le (k := k) h
  unfold load Receipt.before at hle
  dsimp only at hle
  rw [List.map_append, List.sum_append] at hle
  unfold load
  unfold sleepers at hle ⊢
  dsimp only at hle
  omega

theorem limit_le_of_timeUp {limit : Nat} {isFirst : Bool} (h : m.receive limit isFirst = .timeUp m') :
    limit ≤ m'.now := by
  unfold receive at h
  split at h
  · rename_i hgivesUp
    cases h
    exact hgivesUp.2.2
  · dsimp only at h
    split at h
    · cases h
    · unfold await at h
      split at h
      · cases h
        assumption
      · dsimp only at h
        split at h
        · cases h
        · cases h
          exact Nat.le_refl _

end Mailbox

namespace Loopback

variable {s s' : Loopback M} {m : Mailbox (Event M)} {k n n' : Nat}

/-- How many fates of requests the script tells of. -/
def script (s : Loopback M) : Nat := s.submits.length + s.probes.length

/-- The server makes the mailbox take `n` more, of which it has put by for failures. -/
structure Posts (k n : Nat) (s : Loopback M) (m : Mailbox (Event M))
    (r : Loopback M × Mailbox (Event M)) : Prop where
  tidy : m.Tidy → r.2.Tidy
  load : m.Tidy → r.2.load k + k * r.1.script ≤ m.load k + k * s.script + n

theorem Posts.of_takes {m' : Mailbox (Event M)} (h : m.Takes k n m') (hs : s'.script = s.script) :
    Posts k n s m (s', m') := by
  refine ⟨h.tidy, fun hm => ?_⟩
  have := h.load hm
  dsimp only
  rw [hs]
  omega

theorem Posts.of_told {m' : Mailbox (Event M)} (h : m.Takes k (n + k) m') (hs : s'.script + 1 = s.script) :
    Posts k n s m (s', m') := by
  refine ⟨h.tidy, fun hm => ?_⟩
  have := h.load hm
  dsimp only
  rw [← hs, Nat.mul_succ]
  omega

theorem takes_apply (session : Session) (s : Loopback M) (m : Mailbox (Event M)) (op : M) :
    m.Takes k 1 (s.apply session m op).2 ∧ (s.apply session m op).1.script = s.script := by
  unfold apply
  dsimp only
  split
  · exact ⟨(m.takes_post _).mono (Nat.le_refl _), rfl⟩
  · exact ⟨(Mailbox.Takes.refl m).mono (Nat.zero_le _), rfl⟩

theorem takes_applyAll (session : Session) (s : Loopback M) (m : Mailbox (Event M)) (ops : List M) :
    m.Takes k ops.length (s.applyAll session m ops).2 ∧ (s.applyAll session m ops).1.script = s.script := by
  induction ops generalizing s m with
  | nil => exact ⟨.refl m, rfl⟩
  | cons op ops ih =>
    obtain ⟨hone, hscript⟩ := takes_apply (k := k) session s m op
    obtain ⟨hrest, hscript'⟩ := ih (s.apply session m op).1 (s.apply session m op).2
    refine ⟨(hone.trans hrest).mono ?_, hscript'.trans hscript⟩
    rw [List.length_cons]
    omega

theorem posts_submit (s : Loopback M) (m : Mailbox (Event M)) (token : Token) (base : Revision) (ops : List M) :
    Posts k (ops.length + 1) s m (s.submit m token base ops) := by
  unfold submit answer
  cases hsubmits : s.submits with
  | nil =>
    have hscript : Loopback.script { s with submits := [] } = s.script := by
      unfold script
      rw [hsubmits]
    dsimp only [List.head?_nil, Option.getD_none, List.tail_nil]
    split
    · obtain ⟨htakes, hsame⟩ := takes_applyAll (k := k) s.session { s with submits := [] } m ops
      exact .of_takes ((htakes.trans (Mailbox.takes_start ..)).mono (Nat.le_refl _)) (hsame.trans hscript)
    · exact .of_takes ((Mailbox.takes_start ..).mono (by exact Nat.le_add_left ..)) hscript
  | cons fate rest =>
    have hscript : Loopback.script { s with submits := rest } + 1 = s.script := by
      unfold script
      rw [hsubmits, List.length_cons]
      dsimp only
      omega
    dsimp only [List.head?_cons, Option.getD_some, List.tail_cons]
    obtain ⟨htakes, hsame⟩ := takes_applyAll (k := k) s.session { s with submits := rest } m ops
    have hsame := (congrArg (· + 1) hsame).trans hscript
    cases fate with
    | failed e =>
      refine .of_told ((Mailbox.takes_start ..).mono ?_) hscript
      have := (e.surcharge_le (M := M) k token).1
      omega
    | lost =>
      refine .of_told ((htakes.trans (Mailbox.takes_start ..)).mono ?_) hsame
      have := (responseLost.surcharge_le (M := M) k token).1
      omega
    | served =>
      dsimp only
      split
      · exact .of_told ((htakes.trans (Mailbox.takes_start ..)).mono (by exact Nat.le_add_right ..)) hsame
      · refine .of_told ((Mailbox.takes_start ..).mono ?_) hscript
        have := ((staleBase base).surcharge_le (M := M) k token).1
        omega

theorem posts_probe (s : Loopback M) (m : Mailbox (Event M)) (token : Token) :
    Posts k 1 s m (s.probe m token) := by
  unfold probe answer
  cases hprobes : s.probes with
  | nil =>
    refine .of_takes ((Mailbox.takes_start ..).mono (Nat.le_refl _)) ?_
    unfold script
    rw [hprobes]
    rfl
  | cons fate rest =>
    have hscript : Loopback.script { s with probes := rest } + 1 = s.script := by
      unfold script
      rw [hprobes, List.length_cons]
      rfl
    dsimp only [List.head?_cons, Option.getD_some, List.tail_cons]
    split
    · rename_i e
      refine .of_told ((Mailbox.takes_start ..).mono ?_) hscript
      have := (e.surcharge_le (M := M) k token).2
      omega
    · exact .of_told ((Mailbox.takes_start ..).mono (by exact Nat.le_add_right ..)) hscript

theorem posts_serve (s : Loopback M) (m : Mailbox (Event M)) (effect : Effect M) :
    Posts k (effect.cost 1) s m (s.serve m effect) := by
  unfold serve
  split
  · unfold Effect.cost
    dsimp only
    rw [Nat.mul_one]
    exact s.posts_submit ..
  · exact s.posts_probe ..
  · exact .of_takes (.refl m) rfl
  · exact .of_takes (.refl m) rfl
  · exact .of_takes ((Mailbox.Takes.refl m).mono (Nat.zero_le _)) rfl

end Loopback

/-! ### Drives -/

namespace Drive

variable [RandomSource R] {d d' : Drive M R} {x : Transformer M} {done : Channel M → Bool} {k limit : Nat}
  {isFirst : Bool} {effects more : List (Effect M)}

/-- The loop ends after finitely many events. -/
inductive Ends (x : Transformer M) (done : Channel M → Bool) (limit : Nat) :
    Bool → List (Effect M) → Drive M R → Checked (Bool × List (Effect M) × Drive M R) → Prop
  | holds {isFirst : Bool} {effects : List (Effect M)} {d : Drive M R} (hdone : done d.channel) :
      Ends x done limit isFirst effects d (.ok (true, effects, d))
  | timeUp {isFirst : Bool} {effects : List (Effect M)} {d : Drive M R} {mailbox : Mailbox (Event M)}
      (hdone : ¬ done d.channel) (hr : d.alarms.mailbox.receive limit isFirst = .timeUp mailbox) :
      Ends x done limit isFirst effects d (.ok (false, effects, d.withMailbox mailbox))
  | faults {isFirst : Bool} {effects : List (Effect M)} {d : Drive M R} {mailbox : Mailbox (Event M)}
      {event : Event M} {fault : Fault} (hdone : ¬ done d.channel)
      (hr : d.alarms.mailbox.receive limit isFirst = .event event mailbox)
      (hh : (d.withMailbox mailbox).handle x event = .error fault) :
      Ends x done limit isFirst effects d (.error fault)
  | handles {isFirst : Bool} {effects more : List (Effect M)} {d d' : Drive M R}
      {mailbox : Mailbox (Event M)} {event : Event M} {result : Checked (Bool × List (Effect M) × Drive M R)}
      (hdone : ¬ done d.channel) (hr : d.alarms.mailbox.receive limit isFirst = .event event mailbox)
      (hh : (d.withMailbox mailbox).handle x event = .ok (more, d'))
      (h : Ends x done limit false (effects ++ more) d' result) :
      Ends x done limit isFirst effects d result

theorem Ends.loop_eq {result : Checked (Bool × List (Effect M) × Drive M R)}
    (h : Ends x done limit isFirst effects d result) : d.loop x done limit isFirst effects = result := by
  induction h with
  | holds hdone => rw [Drive.loop_eq, if_pos hdone]
  | timeUp hdone hr => rw [Drive.loop_eq, if_neg hdone, hr]
  | faults hdone hr hh =>
    rw [Drive.loop_eq, if_neg hdone, hr]
    dsimp only
    rw [hh]
    rfl
  | handles hdone hr hh _ ih =>
    rw [Drive.loop_eq, if_neg hdone, hr]
    dsimp only
    rw [hh]
    exact ih

/-- The channel's data agree with its phase, and its mailbox is tidy. -/
structure InOrder (d : Drive M R) : Prop where
  coherent : d.channel.Coherent
  tidy : d.alarms.mailbox.Tidy

/-- How many events there are still to come, with what their failures cost. -/
def outstanding (k : Nat) (d : Drive M R) : Nat :=
  d.alarms.mailbox.load k + k * d.server.script + d.channel.toCome

/-- Effects are carried out, at a cost of `n` events. -/
structure Costs (k n : Nat) (d d' : Drive M R) : Prop where
  channel : d'.channel = d.channel
  tidy : d.alarms.mailbox.Tidy → d'.alarms.mailbox.Tidy
  load : d.alarms.mailbox.Tidy → d'.alarms.mailbox.load k + k * d'.server.script ≤
    d.alarms.mailbox.load k + k * d.server.script + n

omit [RandomSource R] in
theorem Costs.of_takes {a : Alarms M} {backoff : Backoff R} {n : Nat}
    (h : d.alarms.mailbox.Takes k n a.mailbox) : Costs k n d { d with alarms := a, backoff } := by
  refine ⟨rfl, h.tidy, fun hm => ?_⟩
  have := h.load hm
  dsimp only
  omega

theorem costs_perform {effect : Effect M} (h : d.perform effect = .ok d') : Costs k (effect.cost 1) d d' := by
  unfold perform at h
  split at h
  · cases h
    exact .of_takes ((Mailbox.takes_post ..).mono (Nat.le_refl _))
  · obtain ⟨⟨delay, backoff⟩, -, h⟩ := Checked.bind_eq_ok_iff.1 h
    cases h
    exact .of_takes ((Mailbox.takes_start ..).mono (Nat.le_refl _))
  · cases h
    refine .of_takes ?_
    unfold Alarms.cancel
    split
    · exact .refl _
    · exact Mailbox.takes_dismiss ..
  · cases h
    exact .of_takes (.refl _)
  · cases h
    have hposts := d.server.posts_serve (k := k) d.alarms.mailbox effect
    exact ⟨rfl, hposts.tidy, hposts.load⟩

theorem costs_performAll (h : effects.foldlM perform d = .ok d') :
    Costs k (effects.map (Effect.cost 1)).sum d d' := by
  induction effects generalizing d with
  | nil =>
    cases h
    exact ⟨rfl, id, fun _ => Nat.le_refl _⟩
  | cons effect effects ih =>
    rw [List.foldlM_cons] at h
    obtain ⟨d₁, hone, h⟩ := Checked.bind_eq_ok_iff.1 h
    have hfirst := costs_perform (k := k) hone
    have hrest := ih h
    refine ⟨hrest.channel.trans hfirst.channel, fun hm => hrest.tidy (hfirst.tidy hm), fun hm => ?_⟩
    have := hfirst.load hm
    have := hrest.load (hfirst.tidy hm)
    rw [List.map_cons, List.sum_cons]
    omega

theorem InOrder.settle {r : Channel.Reaction M} (h : d.InOrder) (hr : r.1.Coherent)
    (hs : d.settle r = .ok d') : d'.InOrder := by
  obtain ⟨hchannel, htidy, -⟩ := costs_performAll (k := 0) hs
  exact ⟨hchannel ▸ hr, htidy h.tidy⟩

theorem InOrder.handle {event : Event M} (h : d.InOrder) (hx : x.KeepsLengths) (hk : d.channel.held + 4 ≤ k)
    (hh : d.handle x event = .ok (more, d')) :
    d'.InOrder ∧ d'.channel.held ≤ d.channel.held ∧
      d'.outstanding k ≤ d.outstanding k + event.surcharge k := by
  unfold Drive.handle at hh
  obtain ⟨r, hr, hh⟩ := Checked.bind_eq_ok_iff.1 hh
  obtain ⟨d₁, hd, hh⟩ := Checked.bind_eq_ok_iff.1 hh
  cases hh
  have hreacts := (Channel.handle_within h.coherent).of_ok hr
  obtain ⟨⟨l, hspend, hl⟩, hheld⟩ := hreacts.pays hx h.coherent hk
  obtain ⟨hchannel, -, hload⟩ := costs_performAll (k := k) hd
  have hcost := hspend.cost
  have hload := hload h.tidy
  refine ⟨h.settle (hreacts.coherent h.coherent) hd, hchannel ▸ hheld, ?_⟩
  unfold outstanding
  rw [hchannel]
  dsimp only at hload ⊢
  omega

omit [RandomSource R] in
theorem InOrder.receive {event : Event M} {mailbox : Mailbox (Event M)} (h : d.InOrder)
    (hr : d.alarms.mailbox.receive limit isFirst = .event event mailbox) :
    (d.withMailbox mailbox).InOrder ∧
      (d.withMailbox mailbox).outstanding k + (event.surcharge k + 1) ≤ d.outstanding k := by
  obtain ⟨htidy, hle⟩ := h.tidy.receive_load (k := k) limit isFirst
  rw [hr] at htidy hle
  refine ⟨⟨h.coherent, htidy⟩, ?_⟩
  change mailbox.load k + ([event].map _).sum ≤ _ at hle
  rw [List.map_singleton, List.sum_singleton] at hle
  show mailbox.load k + k * d.server.script + d.channel.toCome + _ ≤ _
  unfold outstanding
  omega

/-- With every event that is handled there is less to come. -/
theorem InOrder.outstanding_lt {event : Event M} {mailbox : Mailbox (Event M)} (h : d.InOrder)
    (hx : x.KeepsLengths) (hk : d.channel.held + 4 ≤ k)
    (hr : d.alarms.mailbox.receive limit isFirst = .event event mailbox)
    (hh : (d.withMailbox mailbox).handle x event = .ok (more, d')) :
    d'.InOrder ∧ d'.channel.held + 4 ≤ k ∧ d'.outstanding k < d.outstanding k := by
  obtain ⟨horder, hless⟩ := h.receive (k := k) hr
  obtain ⟨horder', hheld, hle⟩ := horder.handle hx hk hh
  have hheld : d'.channel.held ≤ d.channel.held := hheld
  exact ⟨horder', by omega, by omega⟩

theorem InOrder.exists_ends (h : d.InOrder) (hx : x.KeepsLengths) (hk : d.channel.held + 4 ≤ k) :
    ∃ result, Ends x done limit isFirst effects d result := by
  -- `k` pays for any failure to come, since the channel never holds more than at the beginning
  generalize hn : d.outstanding k = n
  induction n using Nat.strong_induction_on generalizing d isFirst effects with
  | h n ih =>
    by_cases hdone : done d.channel
    · exact ⟨_, .holds hdone⟩
    cases hr : d.alarms.mailbox.receive limit isFirst with
    | timeUp mailbox => exact ⟨_, .timeUp hdone hr⟩
    | event event mailbox =>
      cases hh : (d.withMailbox mailbox).handle x event with
      | error fault => exact ⟨_, .faults hdone hr hh⟩
      | ok r =>
        obtain ⟨more, d'⟩ := r
        obtain ⟨horder, hk', hless⟩ := h.outstanding_lt hx hk hr hh
        obtain ⟨result, hends⟩ := ih _ (hn ▸ hless) horder hk' rfl
        exact ⟨result, .handles hdone hr hh hends⟩

/-- Every drive ends. -/
theorem InOrder.driveFor_ends (h : d.InOrder) (hx : x.KeepsLengths) (done : Channel M → Bool)
    (duration : Nat) : Ends x done (d.now + duration) true [] d (d.driveFor x done duration) := by
  obtain ⟨result, hends⟩ : ∃ result, Ends x done (d.now + duration) true [] d result :=
    h.exists_ends hx (Nat.le_refl _)
  have hanswer : d.driveFor x done duration = result := hends.loop_eq
  rwa [hanswer]

/-- Whether the condition holds is answered truly, and if it does not then the time is up. -/
theorem Ends.stops {held : Bool} (h : Ends x done limit isFirst effects d (.ok (held, more, d'))) :
    done d'.channel = held ∧ (held = false → limit ≤ d'.now) := by
  generalize hresult : Except.ok (held, more, d') = result at h
  induction h with
  | holds hdone =>
    cases hresult
    exact ⟨hdone, nofun⟩
  | timeUp hdone hr =>
    cases hresult
    exact ⟨Bool.eq_false_iff.2 hdone, fun _ => Mailbox.limit_le_of_timeUp hr⟩
  | faults => cases hresult
  | handles _ _ _ _ ih => exact ih hresult

theorem Ends.inOrder {held : Bool} (h : Ends x done limit isFirst effects d (.ok (held, more, d')))
    (hx : x.KeepsLengths) (hd : d.InOrder) : d'.InOrder := by
  generalize hresult : Except.ok (held, more, d') = result at h
  induction h with
  | holds =>
    cases hresult
    exact hd
  | timeUp hdone hr =>
    cases hresult
    have htidy : (Mailbox.Receipt.timeUp _).mailbox.Tidy := hr ▸ (hd.tidy.receive_load (k := 0) _ _).1
    exact ⟨hd.coherent, htidy⟩
  | faults => cases hresult
  | handles hdone hr hh _ ih =>
    exact ih ((hd.outstanding_lt hx (Nat.le_refl _) hr hh).1) hresult

/-- What was done with a drive since it was new: its channel was called for something, an operation of others
was applied at the server, time passed, or the channel was driven. -/
inductive Run (x : Transformer M) : Drive M R → Prop
  | new (backoff : Backoff R) (server : Loopback M) : Run x { backoff, server }
  | calls {d d' : Drive M R} {call : Channel.Call M} {reply : Channel.Reply M} {effects : List (Effect M)}
      (hc : d.call (d.channel.call x call) = .ok (reply, effects, d')) (h : Run x d) : Run x d'
  | applies {d : Drive M R} (session : Session) (op : M) (h : Run x d) : Run x (d.applyRemote session op)
  | sleeps {d : Drive M R} (delay : Nat) (h : Run x d) : Run x (d.sleep delay)
  | drives {d d' : Drive M R} {done : Channel M → Bool} {duration : Nat} {held : Bool}
      {effects : List (Effect M)} (hd : d.driveFor x done duration = .ok (held, effects, d')) (h : Run x d) :
      Run x d'

theorem InOrder.call {call : Channel.Call M} {reply : Channel.Reply M} (h : d.InOrder)
    (hc : d.call (d.channel.call x call) = .ok (reply, effects, d')) : d'.InOrder := by
  unfold Drive.call at hc
  obtain ⟨⟨answer, r⟩, hr, hc⟩ := Checked.bind_eq_ok_iff.1 hc
  obtain ⟨d₁, hs, hc⟩ := Checked.bind_eq_ok_iff.1 hc
  cases hc
  have hdoes := (Channel.call_within h.coherent call).of_ok hr
  exact h.settle (hdoes.coherent h.coherent) hs

theorem Run.inOrder (h : Run x d) (hx : x.KeepsLengths) : d.InOrder := by
  induction h with
  | new => exact ⟨Channel.closed_coherent (c := {}), Mailbox.tidy_new _ _⟩
  | calls hc _ ih => exact ih.call hc
  | @applies d session op _ ih =>
    have htakes := Loopback.takes_apply (k := 0) session d.server d.alarms.mailbox op
    exact ⟨ih.coherent, htakes.1.tidy ih.tidy⟩
  | sleeps delay _ ih => exact ⟨ih.coherent, ih.tidy.passes (ih.tidy.sleep_passes delay)⟩
  | @drives _ _ done duration _ _ hd _ ih =>
    have hends := ih.driveFor_ends hx done duration
    rw [hd] at hends
    exact hends.inOrder hx ih

/-- Whatever was done before, a drive ends after finitely many events. It answers truly whether the condition
came to hold, and gives up no earlier than when the time is up. -/
theorem Run.driveFor_ends (h : Run x d) (hx : x.KeepsLengths) (done : Channel M → Bool) (duration : Nat) :
    Ends x done (d.now + duration) true [] d (d.driveFor x done duration) ∧
    ∀ held effects d', d.driveFor x done duration = .ok (held, effects, d') →
      done d'.channel = held ∧ (held = false → d.now + duration ≤ d'.now) := by
  have hends := (h.inOrder hx).driveFor_ends hx done duration
  refine ⟨hends, fun held effects d' hd => ?_⟩
  rw [hd] at hends
  exact hends.stops

end Drive

end CoEdit
