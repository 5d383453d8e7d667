import CoEdit.Endpoint
import CoEdit.Proofs.Coherence
import CoEdit.Proofs.Dispatch
import CoEdit.Proofs.Tasks
import CoEdit.Random.ChaCha

/-!
# Handing over everything that is due

An endpoint hands over the events of its timeline one after another, and each of them can put new ones
there. That this comes to an end is due to what the channel does: a task leads to no other task, and any
other event to one at most (`Reacts.countP_schedules`). So a timeline that weighs one for each task and two
for each other event gets lighter with every event that is handed over (`Ready.step`).

`p.Hands x wanted dues o` is the loop itself, without a limit: from `p` on, events are handed over as long
as the next one is `wanted`. They were due at `dues`, and the loop ends in `o`. `runFor` and
`runUntilIdle` are this loop (`Ready.runWhile`).
-/

namespace CoEdit

variable {M : Type}

/-- The effect puts a task on the timeline. -/
def Effect.schedules : Effect M → Bool
  | .schedule _ | .scheduleAfterDelay _ => true
  | _ => false

/-- A number leaves its range, or the transformer emptied the batch in flight and the channel notices. -/
def Fault.Ends (f : Fault) : Prop := f.IsRange ∨ ∃ state, f = .violated .flightWithoutBatch state

namespace Channel

variable {x : Transformer M} {c : Channel M} {phase : Phase} {r : Reaction M} {me : Session}
  {d : Delivery M} {task : Option Token} {tokens : TokenSource} {effects : List (Effect M)}

theorem Phase.countP_release : (phase.release (M := M)).countP Effect.schedules = 0 := by
  refine List.countP_eq_zero.2 fun e he => ?_
  rcases mem_release he with ⟨id, kind, rfl, -⟩ | ⟨token, rfl⟩ <;> exact Bool.false_ne_true

theorem countP_ackedAll {clean : Bool} {ops : List M} :
    (ackedAll clean ops).countP Effect.schedules = 0 := by
  refine List.countP_eq_zero.2 fun e he => ?_
  obtain ⟨op, clean, rfl⟩ := mem_ackedAll he
  exact Bool.false_ne_true

theorem Schedules.countP_le (h : c.Schedules task tokens effects) :
    effects.countP Effect.schedules ≤ 1 := by
  rcases h with ⟨-, -, -, rfl⟩ | ⟨-, -, -, rfl⟩
  · exact Nat.zero_le _
  · exact Nat.le_refl _

theorem Syncs.countP_le (h : c.Syncs r) : r.2.countP Effect.schedules ≤ 1 := by
  cases h with
  | lags h => exact Nat.zero_le _
  | resends hp hr hu => exact Nat.zero_le _
  | finishes hp hr hu hs =>
    rw [List.countP_append, Phase.countP_release, Nat.zero_add]
    exact hs.countP_le

theorem Syncs.effects_eq_nil {target : Option Token} (h : c.Syncs r) (hp : c.phase = .allAcked target) :
    r.2 = [] := by
  cases h with
  | lags h => rfl
  | resends hp' => rw [hp] at hp'; cases hp'
  | finishes hp' => rw [hp] at hp'; cases hp'

theorem Accepts.countP_le (h : Accepts x c me d r) : r.2.countP Effect.schedules = 0 ∨
    r.2.countP Effect.schedules ≤ 1 ∧ ∃ task, r.1.phase = .allAcked task := by
  cases h with
  | recognises | confirms | takesIn => exact .inl rfl
  | confirmsLast hd ht hu hs =>
    refine .inr ⟨?_, _, rfl⟩
    rw [List.append_assoc, List.countP_append, Phase.countP_release, Nat.zero_add, List.cons_append,
      List.countP_cons, List.countP_append]
    exact hs.countP_le

/-- A task leads to no other task, and any other event to one at most. -/
theorem Reacts.countP_schedules {event : Event M} (h : Reacts x c event r) :
    r.2.countP Effect.schedules ≤ if event.task?.isSome then 0 else 1 := by
  cases h with
  | stale h => exact Nat.zero_le _
  | submits hp hu hq => exact Nat.le_refl _
  | lapses hp hq => exact Nat.le_refl _
  | probes hp => exact Nat.le_refl _
  | confirms hp hb hu hr hs =>
    rw [List.cons_append, List.countP_cons, List.countP_append, countP_ackedAll]
    exact hs.countP_le
  | defers hp hr => exact Nat.zero_le _
  | learns hp hs => exact hs.countP_le
  | retries h he =>
    cases event with
    | submitResponse | probeResponse => exact Nat.le_refl _
    | task | incoming => cases he
  | givesUp h he => exact Nat.zero_le _
  | breaks hc h =>
    rw [List.countP_append, Phase.countP_release]
    exact Nat.zero_le _
  | accepts hc h hs =>
    show _ ≤ 1
    rw [List.countP_append]
    rcases h.countP_le with hnone | ⟨hone, task, hp⟩
    · rw [hnone, Nat.zero_add]
      exact hs.countP_le
    · rw [hs.effects_eq_nil hp]
      exact hone

end Channel

namespace Timeline

variable {t t' t'' : Timeline M} {n n' : Nat}

/-- Whatever was done with a new timeline. -/
inductive Used : Timeline M → Prop
  | new : Used {}
  | act {t t' : Timeline M} {a : Act M} {returned : Option (Event M)} (h : Used t)
      (hact : t.act a = .ok (returned, t')) : Used t'

theorem Sound.act {a : Act M} {returned : Option (Event M)} (h : t.Sound)
    (hact : t.act a = .ok (returned, t')) : t'.Sound := by
  have hafter {delay : Nat} {event : Event M} (hact : (do
      return (none, ← t.deliverAfter delay event) : Checked (Option (Event M) × Timeline M)) =
      .ok (returned, t')) : t'.Sound := by
    obtain ⟨t₁, hafter, heq⟩ := Checked.bind_eq_ok_iff.1 hact
    cases heq
    obtain ⟨due, -, heq⟩ := Checked.bind_eq_ok_iff.1 hafter
    cases heq
    exact h.deliverAt
  cases a with
  | deliver event => cases hact; exact h.deliverAt
  | deliverAfter delay event => exact hafter hact
  | deliverAt due event => cases hact; exact h.deliverAt
  | schedule task => cases hact; exact h.deliverAt
  | scheduleAfter delay task => exact hafter hact
  | cancel id => cases hact; exact h.cancel
  | advance =>
    unfold Timeline.act at hact
    dsimp only at hact
    split at hact
    · cases hact; exact h
    · rename_i ha
      cases hact
      rw [advance_eq_pick] at ha
      exact h.pick ha
  | advanceTo time => cases hact; exact h.advanceTo

theorem Used.sound (h : t.Used) : t.Sound := by
  induction h with
  | new => exact sound_empty
  | act _ hact ih => exact ih.act hact

/-- Nothing that waits is due before `floor`. -/
def NotBefore (floor : Nat) (t : Timeline M) : Prop := ∀ e ∈ t.entries, floor ≤ e.slot.due

/-- How many events that are no tasks wait. -/
def others (t : Timeline M) : Nat := t.entries.countP (·.event.task?.isNone)

theorem weight_eq (t : Timeline M) : Endpoint.weight t = t.waiting.length + 2 * t.others := by
  have hsplit : ∀ es : List (Entry M), es.length =
      (es.filterMap (·.event.task?)).length + es.countP (·.event.task?.isNone) := by
    intro es
    induction es with
    | nil => rfl
    | cons e es ih =>
      rw [List.filterMap_cons, List.countP_cons, List.length_cons, ih]
      cases e.event.task? <;> simp <;> omega
  have := hsplit t.entries
  unfold Endpoint.weight others
  rw [waiting_eq]
  omega

/-- `t'` is `t` after at most `n` tasks were put on it, due no earlier than the clock, and any were
cancelled. -/
structure Gains (t : Timeline M) (n : Nat) (t' : Timeline M) : Prop where
  sound : t'.Sound
  now : t'.now = t.now
  weight : Endpoint.weight t' ≤ Endpoint.weight t + n
  notBefore : ∀ floor ≤ t.now, t.NotBefore floor → t'.NotBefore floor

theorem Gains.refl (h : t.Sound) : t.Gains 0 t := ⟨h, rfl, Nat.le_refl _, fun _ _ => id⟩

theorem Gains.trans (h : t.Gains n t') (h' : t'.Gains n' t'') : t.Gains (n + n') t'' := by
  refine ⟨h'.sound, h'.now.trans h.now, ?_, fun floor hle hfloor => ?_⟩
  · have := h.weight
    have := h'.weight
    omega
  · exact h'.notBefore floor (h.now ▸ hle) (h.notBefore floor hle hfloor)

theorem Sound.gains_deliverAt {due : Nat} {task : Task} (h : t.Sound) :
    t.Gains 1 (t.deliverAt due (.task task)) := by
  refine ⟨h.deliverAt, rfl, ?_, fun floor hle hfloor e he => ?_⟩
  · obtain ⟨before, behind, hes, hp, -, -⟩ :=
      place_split (e := ⟨⟨max due t.now, t.count⟩, .task task⟩) h.sorted
    show (place _ t.entries).length + (place _ t.entries).countP _ ≤
      t.entries.length + t.entries.countP _ + 1
    rw [hp, hes]
    simp only [List.length_append, List.length_cons, List.countP_append, List.countP_cons, Event.task?,
      Option.isNone_some, Bool.false_eq_true, if_false]
    omega
  · rcases (mem_place h.sorted).1 he with rfl | he
    · exact Nat.le_trans hle (Nat.le_max_right ..)
    · exact hfloor e he

theorem Sound.gains_cancel {id : Token} (h : t.Sound) : t.Gains 0 (t.cancel id) := by
  obtain ⟨keep, hes, -⟩ := h.cancel_entries id
  have hsub : (t.entries.filter keep).Sublist t.entries := List.filter_sublist
  refine ⟨h.cancel, ?_, ?_, fun floor _ hfloor e he => ?_⟩
  · unfold Timeline.cancel; split <;> rfl
  · unfold Endpoint.weight
    rw [hes, Nat.add_zero]
    exact Nat.add_le_add hsub.length_le hsub.countP_le
  · rw [hes] at he
    exact hfloor e (hsub.subset he)

theorem Sound.advance_first {event : Event M} (h : t.Sound) (ha : t.advance = some (event, t')) :
    ∃ due, t.nextDue = some due ∧ t'.Sound ∧ t'.now = max t.now due ∧ t'.NotBefore due ∧
      Endpoint.weight t = Endpoint.weight t' + if event.task?.isSome then 1 else 2 := by
  have hsound := h.pick (advance_eq_pick t ▸ ha)
  have hsorted := h.sorted
  unfold Timeline.advance at ha
  unfold nextDue NotBefore Endpoint.weight
  cases hes : t.entries with
  | nil => rw [hes] at ha; cases ha
  | cons e rest =>
    rw [hes] at ha hsorted
    cases ha
    refine ⟨e.slot.due, rfl, hsound, rfl, (List.pairwise_cons.1 hsorted).1, ?_⟩
    rw [List.length_cons, List.countP_cons]
    cases e.event.task? <;> simp <;> omega

theorem nextDue_eq_none_iff : t.nextDue = none ↔ t.entries = [] := by
  unfold nextDue
  cases t.entries <;> simp

theorem NotBefore.le_nextDue {floor due : Nat} (h : t.NotBefore floor) (hdue : t.nextDue = some due) :
    floor ≤ due := by
  obtain ⟨e, he, rfl⟩ := Option.map_eq_some_iff.1 hdue
  exact h e (List.mem_of_mem_head? he)

theorem Sound.forall_not_wanted {limit : Nat} (h : t.Sound)
    (hn : t.nextDue.any (fun due => decide (due ≤ limit)) = false) :
    ∀ e ∈ t.entries, limit < e.slot.due := by
  have hsorted := h.sorted
  unfold nextDue at hn
  cases hes : t.entries with
  | nil => exact nofun
  | cons e rest =>
    rw [hes] at hn hsorted
    have he : limit < e.slot.due := by simpa using hn
    intro f hf
    rcases List.mem_cons.1 hf with rfl | hf
    · exact he
    · exact Nat.lt_of_lt_of_le he ((List.pairwise_cons.1 hsorted).1 f hf)

end Timeline

variable {R : Type} [RandomSource R]

omit [RandomSource R] in
theorem Agenda.Leads.gains {t t' : Timeline M} {effect : Effect M} (h : Leads t effect t')
    (hs : t.Sound) : t.Gains (if effect.schedules then 1 else 0) t' := by
  cases effect with
  | schedule | scheduleAfterDelay =>
    obtain ⟨due, rfl⟩ := h
    exact hs.gains_deliverAt
  | cancel id =>
    obtain rfl : t' = t.cancel id := h
    exact hs.gains_cancel
  | _ =>
    obtain rfl : t' = t := h
    exact .refl hs

theorem Agenda.performAll_gains {a : Agenda M R} {es : List (Effect M)} (h : a.timeline.Sound) :
    (a.performAll es).Yields fun r => a.timeline.Gains (es.countP Effect.schedules) r.2.timeline := by
  induction es generalizing a with
  | nil => exact .refl h
  | cons effect es ih =>
    refine perform_yields.bind fun r hr => ?_
    have hone := hr.gains h
    refine (ih hone.sound).bind fun r' hr' => ?_
    rw [List.countP_cons, Nat.add_comm]
    exact hone.trans hr'

namespace Endpoint

variable {x : Transformer M} {wanted : Nat → Bool} {p p' : Endpoint M R} {dues : List Nat} {due : Nat}
  {o : Checked (Endpoint M R)}

structure Ready (p : Endpoint M R) : Prop where
  coherent : p.channel.Coherent
  sound : p.timeline.Sound

/-- The event that is due next was handed over, and what follows is due no earlier. -/
structure Advances (p : Endpoint M R) (due : Nat) (p' : Endpoint M R) : Prop where
  ready : p'.Ready
  now : p'.timeline.now = max p.timeline.now due
  notBefore : p'.timeline.NotBefore due
  weight : weight p'.timeline < weight p.timeline

theorem Ready.step (h : p.Ready) (hdue : p.timeline.nextDue = some due) :
    (p.step x).Within Fault.Ends fun r => p.Advances due r.2.2 := by
  unfold Endpoint.step
  cases ha : p.timeline.advance with
  | none =>
    unfold Timeline.advance at ha
    split at ha
    · rename_i hes
      rw [Timeline.nextDue_eq_none_iff.2 hes] at hdue
      cases hdue
    · cases ha
  | some et =>
    obtain ⟨event, t⟩ := et
    obtain ⟨due', hdue', hsound, hnow, hfloor, hweight⟩ := h.sound.advance_first ha
    rw [hdue] at hdue'
    cases hdue'
    dsimp only
    rw [Checked.within_bind]
    show ((p.withTimeline t).handle x event).Within Fault.Ends fun r => p.Advances due r.2
    unfold Endpoint.handle Endpoint.settle
    refine Checked.Within.bind ((Channel.handle_within h.coherent).weaken fun f hf => ?_) fun r hr => ?_
    · rcases hf with rfl | ⟨-, -, hf⟩
      · exact .inl trivial
      · exact .inr hf
    · have hgains : ((p.withTimeline t).agenda.performAll r.2).Yields _ := Agenda.performAll_gains hsound
      refine Checked.Within.bind (Checked.Within.weaken hgains fun f hf => .inl hf) fun r' hr' => ?_
      refine ⟨⟨hr.coherent h.coherent, hr'.sound⟩, hr'.now.trans hnow, ?_, ?_⟩
      · exact hr'.notBefore due (hnow ▸ Nat.le_max_right ..) hfloor
      · have hless := hr'.weight
        have hcount := hr.countP_schedules
        have htimeline : (p.withTimeline t).agenda.timeline = t := rfl
        rw [htimeline] at hless
        show Endpoint.weight r'.2.timeline < _
        split at hcount <;> rename_i htask
        · rw [if_pos htask] at hweight
          omega
        · rw [if_neg htask] at hweight
          omega

/-! ### One event after another -/

/-- Events are handed over as long as the next one is wanted. -/
inductive Hands (x : Transformer M) (wanted : Nat → Bool) :
    Endpoint M R → List Nat → Checked (Endpoint M R) → Prop
  | rests {p : Endpoint M R} (h : p.timeline.nextDue.any wanted = false) : Hands x wanted p [] (.ok p)
  | fails {p : Endpoint M R} {due : Nat} {fault : Fault} (hdue : p.timeline.nextDue = some due)
      (hw : wanted due) (hs : p.step x = .error fault) : Hands x wanted p [due] (.error fault)
  | hands {p : Endpoint M R} {due : Nat} {r : Option (Event M) × List (Deed M) × Endpoint M R}
      {dues : List Nat} {o : Checked (Endpoint M R)} (hdue : p.timeline.nextDue = some due)
      (hw : wanted due) (hs : p.step x = .ok r) (h : Hands x wanted r.2.2 dues o) :
      Hands x wanted p (due :: dues) o

omit [RandomSource R] in
theorem weight_pos (hdue : p.timeline.nextDue = some due) : 0 < weight p.timeline := by
  have hne : p.timeline.entries ≠ [] := fun hnil => by
    rw [Timeline.nextDue_eq_none_iff.2 hnil] at hdue
    cases hdue
  exact Nat.lt_of_lt_of_le (List.length_pos_iff.2 hne) (Nat.le_add_right ..)

/-- The loop hands over no more events than the timeline weighs. -/
theorem Hands.length_le (h : p.Hands x wanted dues o) (hp : p.Ready) : dues.length ≤ weight p.timeline := by
  induction h with
  | rests h => exact Nat.zero_le _
  | fails hdue hw hs => exact weight_pos hdue
  | hands hdue hw hs h ih =>
    have hadvances := (hp.step hdue).of_ok hs
    exact Nat.lt_of_le_of_lt (ih hadvances.ready) hadvances.weight

theorem Hands.forall_wanted (h : p.Hands x wanted dues o) : ∀ due ∈ dues, wanted due := by
  induction h with
  | rests h => exact nofun
  | fails hdue hw hs => exact List.forall_mem_singleton.2 hw
  | hands hdue hw hs h ih => exact List.forall_mem_cons.2 ⟨hw, ih⟩

theorem Hands.forall_le {floor : Nat} (h : p.Hands x wanted dues o) (hp : p.Ready)
    (hfloor : p.timeline.NotBefore floor) : ∀ due ∈ dues, floor ≤ due := by
  induction h generalizing floor with
  | rests h => exact nofun
  | fails hdue hw hs => exact List.forall_mem_singleton.2 (hfloor.le_nextDue hdue)
  | hands hdue hw hs h ih =>
    have hadvances := (hp.step hdue).of_ok hs
    have hle := hfloor.le_nextDue hdue
    exact List.forall_mem_cons.2
      ⟨hle, fun due hmem => Nat.le_trans hle (ih hadvances.ready hadvances.notBefore due hmem)⟩

theorem Hands.pairwise (h : p.Hands x wanted dues o) (hp : p.Ready) : dues.Pairwise (· ≤ ·) := by
  induction h with
  | rests h => exact .nil
  | fails hdue hw hs => exact List.pairwise_singleton ..
  | hands hdue hw hs h ih =>
    have hadvances := (hp.step hdue).of_ok hs
    exact List.pairwise_cons.2 ⟨h.forall_le hadvances.ready hadvances.notBefore, ih hadvances.ready⟩

/-- The loop ends when nothing is wanted any more. The clock is then at what was handed over last. -/
theorem Hands.within (h : p.Hands x wanted dues o) (hp : p.Ready) : o.Within Fault.Ends fun p' =>
    p'.Ready ∧ p'.timeline.nextDue.any wanted = false ∧ p'.timeline.now = dues.foldl max p.timeline.now := by
  induction h with
  | rests h => exact ⟨hp, h, rfl⟩
  | @fails p due fault hdue hw hs =>
    have hends := hp.step (x := x) hdue
    rw [hs] at hends
    exact hends
  | hands hdue hw hs h ih =>
    have hadvances := (hp.step hdue).of_ok hs
    rw [List.foldl_cons, ← hadvances.now]
    exact ih hadvances.ready

/-- A limit that is no less than the weight of the timeline is not reached. -/
theorem Ready.runWhile {limit : Nat} (hp : p.Ready) (hlimit : weight p.timeline ≤ limit) :
    (runWhile x wanted limit p).Within (fun f => ∃ dues, p.Hands x wanted dues (.error f)) fun r =>
      ∃ dues, p.Hands x wanted dues (.ok r.2.2) ∧ r.1 = dues.length := by
  induction limit generalizing p with
  | zero =>
    refine ⟨[], .rests ?_, rfl⟩
    cases hdue : p.timeline.nextDue with
    | none => rfl
    | some due => exact absurd (weight_pos hdue) (Nat.not_lt.2 hlimit)
  | succ limit ih =>
    unfold Endpoint.runWhile
    split
    · rename_i hany
      obtain ⟨due, hdue, hw⟩ := (Option.any_eq_true ..).1 hany
      have hstep := hp.step (x := x) hdue
      cases hs : p.step x with
      | error fault => exact ⟨[due], .fails hdue hw hs⟩
      | ok r =>
        have hadvances := hstep.of_ok hs
        have hrest := ih hadvances.ready (Nat.le_of_lt_succ (Nat.lt_of_lt_of_le hadvances.weight hlimit))
        refine (hrest.weaken fun f hf => ?_).bind fun r' hr' => ?_
        · obtain ⟨dues, hdues⟩ := hf
          exact ⟨due :: dues, .hands hdue hw hs hdues⟩
        · obtain ⟨dues, hdues, hlen⟩ := hr'
          exact ⟨due :: dues, .hands hdue hw hs hdues, congrArg (· + 1) hlen⟩
    · rename_i hany
      exact ⟨[], .rests (Bool.eq_false_iff.2 hany), rfl⟩

theorem foldl_max_le {now limit : Nat} (hnow : now ≤ limit) (h : ∀ due ∈ dues, due ≤ limit) :
    dues.foldl max now ≤ limit := by
  induction dues generalizing now with
  | nil => exact hnow
  | cons due dues ih =>
    obtain ⟨hdue, hdues⟩ := List.forall_mem_cons.1 h
    exact ih (Nat.max_le.2 ⟨hnow, hdue⟩) hdues

/-- Everything due by `deadline` was handed over, with `r` as the result. It was due at `dues`. -/
structure Exhausts (x : Transformer M) (p : Endpoint M R) (deadline : Nat) (dues : List Nat)
    (r : Nat × List (Deed M) × Endpoint M R) : Prop where
  hands : ∃ p', p.Hands x (· ≤ deadline) dues (.ok p') ∧
    r.2.2 = p'.withTimeline (p'.timeline.advanceTo deadline)
  handled : r.1 = dues.length
  bounded : dues.length ≤ p.timeline.waiting.length + 2 * p.timeline.others
  ordered : dues.Pairwise (· ≤ ·)
  now : r.2.2.timeline.now = deadline
  left : ∀ e ∈ r.2.2.timeline.entries, deadline < e.slot.due

theorem Ready.runFor (hp : p.Ready) (duration : Nat) : (p.runFor x duration).Within
    (fun f => (f = .timeOverflow ∧ Checked.timeLimit ≤ p.timeline.now + duration) ∨
      f.Ends ∧ ∃ dues, p.Hands x (· ≤ p.timeline.now + duration) dues (.error f))
    fun r => ∃ dues, p.Exhausts x (p.timeline.now + duration) dues r := by
  unfold Endpoint.runFor Checked.addTime
  by_cases hlt : p.timeline.now + duration < Checked.timeLimit
  · rw [if_pos hlt, Checked.within_bind]
    refine Checked.Within.bind ((hp.runWhile (Nat.le_refl _)).weaken fun f hf => ?_) fun r hr => ?_
    · obtain ⟨dues, hdues⟩ := hf
      exact .inr ⟨hdues.within hp, dues, hdues⟩
    · obtain ⟨dues, hdues, hlen⟩ := hr
      obtain ⟨hready, hrests, hnow⟩ := hdues.within hp
      have hwanted := hdues.forall_wanted
      have hle : r.2.2.timeline.now ≤ p.timeline.now + duration :=
        hnow ▸ foldl_max_le (Nat.le_add_right ..) fun due hdue => of_decide_eq_true (hwanted due hdue)
      refine ⟨dues, ⟨r.2.2, hdues, rfl⟩, hlen, ?_, hdues.pairwise hp, Nat.max_eq_right hle,
        hready.sound.forall_not_wanted hrests⟩
      exact Timeline.weight_eq p.timeline ▸ hdues.length_le hp
  · rw [if_neg hlt]
    exact .inl ⟨rfl, Nat.not_lt.1 hlt⟩

theorem Ready.runUntilIdle {limit : Nat} (hp : p.Ready) (hlimit : weight p.timeline ≤ limit) :
    (p.runUntilIdle x limit).Within
      (fun f => f.Ends ∧ ∃ dues, p.Hands x (fun _ => true) dues (.error f))
      fun r => r.2.2.timeline.entries = [] ∧
        ∃ dues, p.Hands x (fun _ => true) dues (.ok r.2.2) ∧ r.1 = dues.length := by
  refine ((hp.runWhile hlimit).weaken fun f hf => ?_).mono fun r hr => ?_
  · obtain ⟨dues, hdues⟩ := hf
    exact ⟨hdues.within hp, dues, hdues⟩
  · obtain ⟨dues, hdues, hlen⟩ := hr
    refine ⟨Timeline.nextDue_eq_none_iff.1 ?_, dues, hdues, hlen⟩
    have hrests := (hdues.within hp).2.1
    cases hdue : r.2.2.timeline.nextDue with
    | none => rfl
    | some due => rw [hdue] at hrests; cases hrests

/-- Whatever was done with a channel and with a timeline, an endpoint of both hands over everything due
within a time, in the order in which it is due, and no more events than one for each task on the timeline
and two for each other event. A run with a limit that is no less leaves nothing on the timeline. A fault
ends either only if it ends the loop without a limit, or if the end of the time is out of range. -/
theorem runFor_exhausts {log : List (Channel.Turn M)} (hc : Channel.Run x log p.channel)
    (ht : p.timeline.Used) :
    (∀ duration, (p.runFor x duration).Within
      (fun f => (f = .timeOverflow ∧ Checked.timeLimit ≤ p.timeline.now + duration) ∨
        f.Ends ∧ ∃ dues, p.Hands x (· ≤ p.timeline.now + duration) dues (.error f))
      fun r => ∃ dues, p.Exhausts x (p.timeline.now + duration) dues r) ∧
    ∀ limit, p.timeline.waiting.length + 2 * p.timeline.others ≤ limit →
      (p.runUntilIdle x limit).Within
        (fun f => f.Ends ∧ ∃ dues, p.Hands x (fun _ => true) dues (.error f))
        fun r => r.2.2.timeline.entries = [] ∧
          ∃ dues, p.Hands x (fun _ => true) dues (.ok r.2.2) ∧ r.1 = dues.length := by
  have hp : p.Ready := ⟨hc.coherent, ht.sound⟩
  exact ⟨hp.runFor, fun limit hlimit => hp.runUntilIdle (Timeline.weight_eq p.timeline ▸ hlimit)⟩

/-- An operation is in flight and its submit is about to fail, a task waits that nobody wants any more, and
no delay is any time at all. -/
def hurried : Endpoint CharOp ChaCha where
  channel := {
    queue := { unacked := [⟨0, 1, .insert 0 'x'⟩] }
    connection := some ⟨⟨"a", by decide⟩, ⟨1⟩⟩
    phase := .waitingAck ⟨3⟩ ⟨0⟩ 1 false
    tokens := ⟨4⟩
    stats := { submits := 1 } }
  agenda := {
    timeline := (Timeline.deliverAt {} 5 (.submitResponse ⟨3⟩ (.error (.retryable "timeout")))).deliver
      (.task ⟨⟨2⟩, .maybeSend⟩)
    backoff := { policy := { initialMs := 0, jitter := 0 }, random := ChaCha.ofSeed 0 } }

/-- The resync that the response schedules is handed over in the same run, as the third event: there is one
for the task and two for the response. -/
theorem runFor_exhausts_hurried : ∃ log r, Channel.Run CharOp.transform log hurried.channel ∧
    hurried.timeline.Used ∧ hurried.timeline.waiting.length + 2 * hurried.timeline.others = 3 ∧
    hurried.runFor CharOp.transform 5 = .ok r ∧ r.1 = 3 ∧ r.2.2.channel.state = .waitingSync ∧
    ∃ dues, hurried.Exhausts CharOp.transform 5 dues r := by
  have h₀ : Channel.Run CharOp.transform [] {} := .new
  have h₁ := h₀.turn (.connect ⟨0⟩ ⟨"a", by decide⟩) rfl
  have h₂ := h₁.turn (.send ⟨0, 1, .insert 0 'x'⟩) rfl
  have h₃ : Channel.Run CharOp.transform _ hurried.channel :=
    h₂.turn (.handle (.task ⟨⟨2⟩, .maybeSend⟩)) rfl
  have ht₀ : Timeline.Used ({} : Timeline CharOp) := .new
  have ht₁ := ht₀.act (a := .deliverAt 5 (.submitResponse ⟨3⟩ (.error (.retryable "timeout")))) rfl
  have ht₂ : hurried.timeline.Used := ht₁.act (a := .schedule ⟨⟨2⟩, .maybeSend⟩) rfl
  obtain ⟨r, hr, hresult⟩ := Checked.exists_of_any (x := hurried.runFor CharOp.transform 5)
    (p := fun r => r.1 = 3 && r.2.2.channel.state = .waitingSync) (by decide +kernel)
  simp only [Bool.and_eq_true, decide_eq_true_eq] at hresult
  exact ⟨_, r, h₃, ht₂, rfl, hr, hresult.1, hresult.2, ((runFor_exhausts h₃ ht₂).1 5).of_ok hr⟩

end Endpoint

end CoEdit
