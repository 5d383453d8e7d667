import CoEdit.Proofs.Draws
import CoEdit.Proofs.Fates
import CoEdit.Proofs.Invariant

/-!
# How late a simulation is

`s.OnTime c now latest`: in a simulation of the scenario `c` no clock is past `now`, and nothing waits,
was promised or is planned for a time after `latest`. An effect puts nothing off by more than `c.longest`,
so it keeps this if there is that much time left (`perform_within`). It ends in a fault only if time runs
out, which takes that `latest` is out of range (`Fault.Late`), or if a counter does: a request of the
server has to leave room in its history (`Server.HasRoom`).
-/

namespace CoEdit

/-- Time runs out, and it does before `latest`. -/
def Fault.Late (latest : Nat) (f : Fault) : Prop := f = .timeOverflow ∧ Checked.timeLimit ≤ latest

theorem Fault.lt_or_late {a latest : Nat} (h : a ≤ latest) :
    a < Checked.timeLimit ∨ Late latest .timeOverflow :=
  (Nat.lt_or_ge a Checked.timeLimit).imp_right fun hle => ⟨rfl, Nat.le_trans hle h⟩

theorem Fault.Late.mono {a latest : Nat} {f : Fault} (h : f.Late a) (hle : a ≤ latest) : f.Late latest :=
  ⟨h.1, Nat.le_trans h.2 hle⟩

theorem forall_mem_modify {α : Type} {P : α → Prop} {l : List α} {f : α → α} (h : ∀ a ∈ l, P a)
    (hf : ∀ a, P a → P (f a)) (i : Nat) : ∀ a ∈ l.modify i f, P a := by
  intro a ha
  obtain ⟨j, hj⟩ := List.mem_iff_getElem?.1 ha
  rw [List.getElem?_modify] at hj
  obtain ⟨b, hb, rfl⟩ := Option.map_eq_some_iff.1 hj
  have hPb := h b (List.mem_of_getElem? hb)
  split
  · exact hf b hPb
  · exact hPb

theorem forall_mem_set {α : Type} {P : α → Prop} {l : List α} {b : α} (h : ∀ a ∈ l, P a) (hb : P b)
    (i : Nat) : ∀ a ∈ l.set i b, P a := by
  intro a ha
  rcases List.mem_or_eq_of_mem_set ha with ha | rfl
  · exact h a ha
  · exact hb

namespace Timeline

variable {M : Type} {t t' : Timeline M} {now latest due : Nat} {ev : Event M}

structure OnTime (now latest : Nat) (t : Timeline M) : Prop where
  now : t.now ≤ now
  due : ∀ e ∈ t.entries, e.slot.due ≤ latest

theorem mem_of_mem_place {e e' : Entry M} {es : List (Entry M)} (h : e' ∈ place e es) :
    e' = e ∨ e' ∈ es := by
  induction es with
  | nil => exact .inl (List.mem_singleton.1 h)
  | cons f es ih =>
    unfold place at h
    split at h
    · exact List.mem_cons.1 h
    · rcases List.mem_cons.1 h with rfl | h
      · exact .inr (List.mem_cons_self ..)
      · exact (ih h).imp_right (List.mem_cons_of_mem _)

theorem onTime_empty : OnTime now latest ({} : Timeline M) := ⟨Nat.zero_le _, List.forall_mem_nil _⟩

theorem OnTime.mono {now' latest' : Nat} (h : t.OnTime now latest) (hnow : now ≤ now')
    (hle : latest ≤ latest') : t.OnTime now' latest' :=
  ⟨Nat.le_trans h.now hnow, fun e he => Nat.le_trans (h.due e he) hle⟩

theorem OnTime.deliverAt (h : t.OnTime now latest) (hnow : now ≤ latest) (hdue : due ≤ latest) :
    (t.deliverAt due ev).OnTime now latest := by
  refine ⟨h.now, fun e he => ?_⟩
  rcases mem_of_mem_place he with rfl | he
  · exact Nat.max_le.2 ⟨hdue, Nat.le_trans h.now hnow⟩
  · exact h.due e he

theorem OnTime.cancel {id : Token} (h : t.OnTime now latest) : (t.cancel id).OnTime now latest := by
  unfold Timeline.cancel; split
  · exact h
  · exact ⟨h.now, fun e he => h.due e (List.mem_filter.1 he).1⟩

theorem now_cancel {id : Token} : (t.cancel id).now = t.now := by
  unfold Timeline.cancel; split <;> rfl

theorem OnTime.advanceTo {time : Nat} (h : t.OnTime now latest) (htime : time ≤ now) :
    (t.advanceTo time).OnTime now latest :=
  ⟨Nat.max_le.2 ⟨h.now, htime⟩, h.due⟩

/-- Taking something off moves the clock to when it was due. -/
theorem OnTime.pick {k : Nat} (h : t.OnTime now now) (hk : t.pick k = some (ev, t')) :
    t'.OnTime now now := by
  obtain ⟨e, he, -, rfl⟩ := pick_eq_some_iff.1 hk
  exact ⟨Nat.max_le.2 ⟨h.now, h.due e (List.mem_of_getElem? he)⟩,
    fun e' he' => h.due e' (List.mem_of_mem_eraseIdx he')⟩

end Timeline

variable {R : Type} [RandomSource R] {now latest : Nat}

theorem Agenda.perform_within {M : Type} {a : Agenda M R} {effect : Effect M}
    (h : a.timeline.OnTime now latest) (hp : a.backoff.policy.problem = none)
    (hle : now + a.backoff.policy.longestMs ≤ latest) :
    (a.perform effect).Within (Fault.Late latest) fun r => r.2.timeline.OnTime now latest ∧
      r.2.timeline.now = a.timeline.now ∧ r.2.backoff.policy = a.backoff.policy := by
  have hnow : now ≤ latest := Nat.le_trans (Nat.le_add_right ..) hle
  have hclock := h.now
  unfold perform
  split
  · exact ⟨h.deliverAt hnow (Nat.le_trans hclock hnow), rfl, rfl⟩
  · obtain ⟨delay, b, hnext, hdelay, hpolicy⟩ := Backoff.exists_next hp
    have hdue : a.timeline.now + delay ≤ latest := by omega
    rw [hnext]
    show (Checked.Within _ (a.timeline.deliverAfter delay (.task _) >>= _) _)
    unfold Timeline.deliverAfter
    rw [Checked.within_bind, Checked.within_bind]
    refine (Checked.addTime_within (Fault.lt_or_late hdue)).mono fun due hadd => ?_
    exact ⟨h.deliverAt hnow (hadd ▸ hdue), rfl, hpolicy⟩
  · exact ⟨h.cancel, Timeline.now_cancel, rfl⟩
  · exact ⟨h, rfl, rfl⟩
  · exact ⟨h, rfl, rfl⟩

namespace Server

variable {s : Server R} {client : Nat} {effect : Effect CharOp}

omit [RandomSource R] in
variable (s) in
/-- What an effect adds to the history fits in, and so do the positions of what it submits. -/
def HasRoom : Effect CharOp → Prop
  | .submit _ base ops => s.history.length + ops.length < Checked.limit ∧
      CharOp.transform ops (delivered (s.history.drop base.number)) ≠ .error .overflow
  | .subscribe .. => s.history.length < Checked.limit
  | _ => True

omit [RandomSource R] in
theorem Faults.latencies_of_problem {f : Faults} (h : f.problem = none) :
    f.minLatencyMs ≤ f.maxLatencyMs := by
  refine Nat.not_lt.1 fun hlt => ?_
  unfold Faults.problem at h
  rw [if_pos hlt] at h
  repeat' split at h
  all_goals cases h

theorem serve_within (hf : s.faults.problem = none) (hroom : s.HasRoom effect)
    (hle : now + s.faults.maxLatencyMs ≤ latest) :
    (s.serve client now effect).Within (Fault.Late latest) fun o => ∃ n, s.Adds now n o := by
  have hlat : s.faults.minLatencyMs ≤ s.faults.maxLatencyMs ∨ Fault.Late latest .emptyRange :=
    .inl (Faults.latencies_of_problem hf)
  have ht := Fault.lt_or_late hle
  unfold serve
  split
  · exact (submit_within hlat ht (.inl hroom.1) (.inl hroom.2)).mono fun o ⟨_, ho⟩ => ⟨_, ho.adds⟩
  · exact (probe_within hlat ht).mono fun o ho => ⟨_, ho.adds⟩
  · exact ⟨0, .of_links rfl rfl rfl⟩
  · exact (subscribe_within hlat ht (.inl hroom)).mono fun o ho => ⟨_, ho⟩
  · refine ⟨0, rfl, rfl, fun latest _ hlinks => ⟨List.forall_mem_nil _, ?_⟩⟩
    exact forall_mem_modify (f := fun l => { l with connection := none }) hlinks (fun _ h => h) client
  · exact ⟨0, .of_links rfl rfl rfl⟩

end Server

/-! ### Simulations -/

namespace Simulation

variable {c : Scenario} {s s' : Simulation R} {i : Nat} {e : Editor R} {t : Timeline CharOp}
  {effect : Effect CharOp}

/-- The longest time that anything is put off by, in milliseconds. -/
def Scenario.longest (c : Scenario) : Nat :=
  max (max c.workload.longestGap c.faults.maxLatencyMs) c.backoff.longestMs

theorem Scenario.problem_eq_none_iff : c.problem = none ↔
    c.workload.problem = none ∧ c.faults.problem = none ∧ c.backoff.problem = none := by
  unfold Scenario.problem
  cases c.workload.problem <;> cases c.faults.problem <;> simp

structure Editor.OnTime (c : Scenario) (latest : Nat) (e : Editor R) : Prop where
  policy : e.backoff.policy = c.backoff
  nextEdit : ∀ due ∈ e.nextEdit, due ≤ latest

structure OnTime (c : Scenario) (now latest : Nat) (s : Simulation R) : Prop where
  faults : s.network.server.faults = c.faults
  links : ∀ l ∈ s.network.server.links, l.lastDelivery ≤ latest
  timelines : ∀ t ∈ s.network.timelines, t.OnTime now latest
  editors : ∀ e ∈ s.editors, e.OnTime c latest

omit [RandomSource R] in
theorem OnTime.mono {now' latest' : Nat} (h : s.OnTime c now latest) (hnow : now ≤ now')
    (hle : latest ≤ latest') : s.OnTime c now' latest' :=
  ⟨h.faults, fun l hl => Nat.le_trans (h.links l hl) hle, fun t ht => (h.timelines t ht).mono hnow hle,
    fun e he => ⟨(h.editors e he).policy,
      fun due hdue => Nat.le_trans ((h.editors e he).nextEdit due hdue) hle⟩⟩

omit [RandomSource R] in
theorem OnTime.withEditor (h : s.OnTime c now latest) (he : e.OnTime c latest) (i : Nat) :
    (s.withEditor i e).OnTime c now latest :=
  ⟨h.faults, h.links, h.timelines, forall_mem_set h.editors he i⟩

omit [RandomSource R] in
theorem forall_onTime_foldl_post {posts : List Server.Posting} {n : Network R}
    (h : ∀ t ∈ n.timelines, t.OnTime now latest) (hnow : now ≤ latest)
    (hp : ∀ p ∈ posts, p.due ≤ latest) :
    ∀ t ∈ (posts.foldl Network.post n).timelines, t.OnTime now latest := by
  induction posts generalizing n with
  | nil => exact h
  | cons p posts ih =>
    refine ih (n := n.post p) ?_ fun q hq => hp q (List.mem_cons_of_mem _ hq)
    exact forall_mem_modify h (fun t ht => ht.deliverAt hnow (hp p (List.mem_cons_self ..))) _

omit [RandomSource R] in
theorem Editor.OnTime.hear (h : e.OnTime c latest) {backoff : Backoff R}
    (hp : backoff.policy = c.backoff) : Editor.OnTime c latest { e.hear effect with backoff } := by
  have hnext : (e.hear effect).nextEdit = e.nextEdit := by cases effect <;> rfl
  exact ⟨hp, fun due hdue => h.nextEdit due (hnext ▸ hdue)⟩

theorem perform_within (h : s.OnTime c now latest) (hc : c.problem = none)
    (hle : now + c.longest ≤ latest) (he : s.editors[i]? = some e)
    (ht : s.network.timelines[i]? = some t) (hroom : s.network.server.HasRoom effect) :
    (s.perform i effect).Within (Fault.Late latest) (OnTime c now latest) := by
  obtain ⟨-, hfaults, hbackoff⟩ := Scenario.problem_eq_none_iff.1 hc
  have hlatency : c.faults.maxLatencyMs ≤ c.longest :=
    Nat.le_trans (Nat.le_max_right ..) (Nat.le_max_left ..)
  have hdelay : c.backoff.longestMs ≤ c.longest := Nat.le_max_right ..
  have hnow : now ≤ latest := Nat.le_trans (Nat.le_add_right ..) hle
  have htime := h.timelines t (List.mem_of_getElem? ht)
  have hplan := h.editors e (List.mem_of_getElem? he)
  unfold perform
  rw [he, ht]
  refine (Agenda.perform_within (a := ⟨t, e.backoff⟩) htime (hplan.policy ▸ hbackoff)
    (by dsimp only; rw [hplan.policy]; omega)).bind fun r hr => ?_
  obtain ⟨deed, agenda⟩ := r
  obtain ⟨htime', hsame, hpolicy⟩ := hr
  dsimp only at htime' hsame hpolicy ⊢
  have htimelines : ∀ t' ∈ s.network.timelines.modify i fun _ => agenda.timeline,
      t'.OnTime now latest := forall_mem_modify h.timelines (fun _ _ => htime') i
  have hclock : (s.network.modify i fun _ => agenda.timeline).now i = t.now := by
    show ((s.network.timelines.modify i _)[i]?).elim 0 _ = _
    rw [List.getElem?_modify_eq, ht]; exact hsame
  have hlate : t.now + s.network.server.faults.maxLatencyMs ≤ latest := by
    have hpassed := htime.now
    rw [h.faults]; omega
  unfold Network.serve
  rw [hclock, Checked.within_bind, Checked.within_bind]
  refine (Server.serve_within (h.faults ▸ hfaults) hroom hlate).mono fun o ho => ?_
  obtain ⟨posts, server⟩ := o
  obtain ⟨n, hadds⟩ := ho
  obtain ⟨hposts, hlinks⟩ := hadds.due latest hlate h.links
  let network : Network R := posts.foldl Network.post
    { (s.network.modify i fun _ => agenda.timeline) with server }
  refine OnTime.withEditor (s := { s with network }) ⟨?_, ?_, ?_, h.editors⟩
    (hplan.hear (hpolicy.trans hplan.policy)) i
  · dsimp only
    rw [(foldl_post posts _).1]
    exact hadds.faults.trans h.faults
  · dsimp only
    rw [(foldl_post posts _).1]
    exact hlinks
  · exact forall_onTime_foldl_post htimelines hnow hposts

end Simulation

end CoEdit
