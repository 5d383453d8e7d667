import CoEdit.Proofs.Costs
import CoEdit.Proofs.Handling

/-!
# How many events a run takes

As long as no request is lost, nothing happens in a run that an edit does not account for. The edit is an
event itself, and its operation is queued and leads to others in turn (`Channel.backlog`).

`s.outstanding n edits` bounds the events that are still to come: what waits on the timelines, what the
queues and the edits that are not made yet lead to. With every event there is less of it
(`Handles.outstanding_lt`), so a run comes to rest before the limit if that is no less than what is
outstanding at first.
-/

namespace CoEdit

variable {M R : Type} [RandomSource R]

section
omit [RandomSource R]

theorem sum_map_set {α : Type} {f : α → Nat} {l : List α} {i : Nat} {a b : α} (h : l[i]? = some a) :
    ((l.set i b).map f).sum + f a = (l.map f).sum + f b := by
  induction l generalizing i with
  | nil => cases h
  | cons c l ih =>
    cases i with
    | zero =>
      cases h
      simp only [List.set_cons_zero, List.map_cons, List.sum_cons]
      omega
    | succ i =>
      have := ih h
      simp only [List.set_cons_succ, List.map_cons, List.sum_cons]
      omega

theorem sum_map_modify_le {α : Type} {f : α → Nat} {g : α → α} {l : List α} {i k : Nat}
    (h : ∀ a, l[i]? = some a → f (g a) ≤ f a + k) : ((l.modify i g).map f).sum ≤ (l.map f).sum + k := by
  rw [List.modify_eq_set_getElem?]
  cases ha : l[i]? with
  | none => exact Nat.le_add_right ..
  | some a =>
    have hsum := sum_map_set (f := f) (b := g a) ha
    have hle := h a ha
    show ((l.set i (g a)).map f).sum ≤ _
    omega

namespace Timeline

variable {t t' : Timeline M} {due : Nat} {event : Event M} {effect : Effect M}

/-- Nothing that waits asks for another attempt. -/
def Spared (t : Timeline M) : Prop := ∀ e ∈ t.entries, ¬ e.event.Retries

theorem length_place {e : Entry M} {es : List (Entry M)} : (place e es).length = es.length + 1 := by
  induction es with
  | nil => rfl
  | cons f es ih =>
    unfold place; split
    · rfl
    · rw [List.length_cons, List.length_cons, ih]

theorem pending_deliverAt : (t.deliverAt due event).pending = t.pending + 1 := length_place

theorem Spared.deliverAt (h : t.Spared) (hev : ¬ event.Retries) : (t.deliverAt due event).Spared := by
  intro e he
  rcases mem_of_mem_place he with rfl | he
  · exact hev
  · exact h e he

theorem advance_pending (h : t.advance = some (event, t')) : t.pending = t'.pending + 1 := by
  unfold Timeline.advance at h
  unfold pending
  cases hes : t.entries with
  | nil => rw [hes] at h; cases h
  | cons e rest => rw [hes] at h; cases h; rfl

theorem Spared.advance (h : t.Spared) (ha : t.advance = some (event, t')) :
    ¬ event.Retries ∧ t'.Spared := by
  unfold Timeline.advance at ha
  unfold Spared at h
  cases hes : t.entries with
  | nil => rw [hes] at ha; cases ha
  | cons e rest =>
    rw [hes] at ha h
    cases ha
    exact List.forall_mem_cons.1 h

end Timeline

theorem Agenda.Leads.pending_le {t t' : Timeline M} {effect : Effect M} (h : Leads t effect t') :
    t'.pending ≤ t.pending + if effect.schedules then 1 else 0 := by
  cases effect with
  | schedule | scheduleAfterDelay =>
    obtain ⟨due, rfl⟩ := h
    exact Nat.le_of_eq Timeline.pending_deliverAt
  | cancel id =>
    obtain rfl : t' = t.cancel id := h
    unfold Timeline.cancel; split
    · exact Nat.le_refl _
    · exact List.length_filter_le ..
  | _ =>
    obtain rfl : t' = t := h
    exact Nat.le_refl _

theorem Agenda.Leads.spared {t t' : Timeline M} {effect : Effect M} (h : Leads t effect t')
    (ht : t.Spared) : t'.Spared := by
  cases effect with
  | schedule | scheduleAfterDelay =>
    obtain ⟨due, rfl⟩ := h
    exact ht.deliverAt fun ⟨message, hmessage⟩ => nomatch hmessage
  | cancel id =>
    obtain rfl : t' = t.cancel id := h
    unfold Timeline.cancel; split
    · exact ht
    · exact fun e he => ht e (List.mem_filter.1 he).1
  | _ =>
    obtain rfl : t' = t := h
    exact ht

namespace Network

variable {n n' : Network R} {i k : Nat} {effects : List (Effect CharOp)} {posts : List Server.Posting}
  {placed : List Placed}

/-- How many events wait for all clients together. -/
def load (n : Network R) : Nat := (n.timelines.map Timeline.pending).sum

/-- Nothing that waits asks for another attempt. -/
def Spared (n : Network R) : Prop := ∀ t ∈ n.timelines, t.Spared

theorem load_foldl_post : (posts.foldl post n).load ≤ n.load + posts.length := by
  induction posts generalizing n with
  | nil => exact Nat.le_refl _
  | cons p posts ih =>
    have hone : (n.post p).load ≤ n.load + 1 :=
      sum_map_modify_le fun t _ => Nat.le_of_eq Timeline.pending_deliverAt
    refine Nat.le_trans (ih (n := n.post p)) ?_
    rw [List.length_cons]
    omega

theorem Spared.foldl_post (h : n.Spared) (hp : ∀ p ∈ posts, ¬ p.event.Retries) :
    (posts.foldl post n).Spared := by
  induction posts generalizing n with
  | nil => exact h
  | cons p posts ih =>
    obtain ⟨hfirst, hp⟩ := List.forall_mem_cons.1 hp
    exact ih (n := n.post p) (forall_mem_modify h (fun t ht => ht.deliverAt hfirst) _) hp

end Network

end

namespace Network

variable {n n' : Network R} {i k : Nat} {effects : List (Effect CharOp)} {placed : List Placed}

/-- While nothing gets lost, nothing that asks for another attempt is put on a timeline. -/
theorem Carries.spared (h : Carries i n effects placed n') :
    n'.server.links.length = n.server.links.length ∧ n.server.stats.lost ≤ n'.server.stats.lost ∧
      (n'.server.stats.lost = n.server.stats.lost → n.Spared → n'.Spared) := by
  induction h with
  | nil => exact ⟨rfl, Nat.le_refl _, fun _ => id⟩
  | @cons n n' t t' effect effects posts server placed ht hl hs h ih =>
    have hposts := Server.serve_posts.of_ok hs
    obtain ⟨hlinks, hlost, hspared⟩ := ih
    rw [foldl_post_server] at hlinks hlost hspared
    have hlost₁ : n.server.stats.lost ≤ server.stats.lost := hposts.lost
    refine ⟨hlinks.trans hposts.links, Nat.le_trans hlost₁ hlost, fun heq hn => ?_⟩
    dsimp only at hlost hspared
    refine hspared (by omega) ?_
    refine Spared.foldl_post (n := { (n.modify i fun _ => t') with server }) ?_ (hposts.spared ?_)
    · exact forall_mem_modify hn (fun _ _ => hl.spared (hn t (List.mem_of_getElem? ht))) i
    · dsimp only; omega

theorem Carries.load_le (h : Carries i n effects placed n')
    (hk : Effect.Spend n.server.links.length effects k) : n'.load ≤ n.load + k := by
  induction h generalizing k with
  | nil => exact Nat.le_add_right ..
  | @cons n n' t t' effect effects posts server placed ht hl hs h ih =>
    obtain ⟨hfirst, hbounded⟩ := List.forall_mem_cons.1 hk.bounded
    have hcost := hk.cost
    rw [List.map_cons, List.sum_cons] at hcost
    have hposts := Server.serve_posts.of_ok hs
    have hlength : posts.length ≤ n.server.most effect := hposts.length
    have hmost := n.server.most_eq hfirst
    have hown : (n.modify i fun _ => t').load ≤ n.load + if effect.schedules then 1 else 0 :=
      sum_map_modify_le fun t₁ ht₁ => by
        rw [ht] at ht₁; cases ht₁
        exact hl.pending_le
    have hall : (posts.foldl post { (n.modify i fun _ => t') with server }).load ≤ _ := load_foldl_post
    have hrest := ih (k := k - effect.cost n.server.links.length) ?_
    · have hload : ({ (n.modify i fun _ => t') with server } : Network R).load =
          (n.modify i fun _ => t').load := rfl
      omega
    · rw [foldl_post_server]
      refine ⟨hbounded, ?_⟩
      rw [show server.links.length = n.server.links.length from hposts.links]
      omega

end Network

namespace Simulation

variable {s s' : Simulation R} {n edits : Nat} {x : Item} {placed : List Network.Placed}

/-- Events that are still to come because of a client, if it is to make `edits` edits and there are `n`
clients. -/
def Core.outstanding (n edits : Nat) (core : Core) : Nat :=
  (edits - core.made) * (n + 3) + core.channel.backlog n

/-- How many events are still to come at most. -/
def outstanding (n edits : Nat) (s : Simulation R) : Nat :=
  (s.cores.map (Core.outstanding n edits)).sum + s.network.load

def lost (s : Simulation R) : Nat := s.network.server.stats.lost

/-- No request failed so far, and none is known to fail. -/
structure Smooth (n edits : Nat) (s : Simulation R) : Prop where
  paired : s.Paired
  workload : s.workload.editsPerClient = edits
  links : s.network.server.links.length = n
  spared : s.network.Spared
  cores : ∀ core ∈ s.cores, core.channel.Smooth ∧ (core.nextEdit.isSome → core.made < edits)

omit [RandomSource R] in
theorem Smooth.outstanding_pos (h : s.Smooth n edits) (hx : s.next = some x) :
    0 < s.outstanding n edits := by
  refine Nat.pos_of_ne_zero fun hzero => ?_
  obtain ⟨hcores, hload⟩ := Nat.add_eq_zero_iff.1 hzero
  rw [List.sum_eq_zero_iff_forall_eq_nat, List.forall_mem_map] at hcores
  unfold Network.load at hload
  rw [List.sum_eq_zero_iff_forall_eq_nat, List.forall_mem_map] at hload
  obtain ⟨t, e, ht, he, ⟨-, hdue⟩ | ⟨-, hdue⟩⟩ := mem_items.1 (earliest_mem hx)
  · have hnil := List.length_eq_zero_iff.1 (hload t (List.mem_of_getElem? ht))
    rw [Timeline.nextDue_eq_none_iff.2 hnil] at hdue
    cases hdue
  · have hcore : e.core ∈ s.cores := List.mem_map_of_mem (List.mem_of_getElem? he)
    have hmade : e.core.made < edits := (h.cores _ hcore).2 (Option.isSome_iff_exists.2 ⟨_, hdue⟩)
    have hmul := (Nat.add_eq_zero_iff.1 (hcores _ hcore)).1
    rcases Nat.mul_eq_zero.1 hmul with hleft | hleft <;> omega

theorem Handles.lost_le (h : s.Handles x placed s') : s.lost ≤ s'.lost := by
  cases h with
  | event he ht hdue ha hr hc hcores => exact hc.spared.2.1
  | edit he ht hdue hdrain hr hplan hc hcores => exact hc.spared.2.1

theorem outstanding_lt_of_carries {n₁ : Network R} {i k : Nat} {core core' : Core}
    {effects : List (Effect CharOp)} (hc : Network.Carries i n₁ effects placed s'.network)
    (hn : n₁.server.links.length = n) (hspend : Effect.Spend n effects k)
    (hcore : s.cores[i]? = some core) (hcores : s'.cores = s.cores.set i core')
    (hlt : core'.outstanding n edits + k + n₁.load < core.outstanding n edits + s.network.load) :
    s'.outstanding n edits < s.outstanding n edits := by
  have hload := hc.load_le (hn ▸ hspend)
  have hsum := sum_map_set (f := Core.outstanding n edits) (b := core') hcore
  unfold outstanding
  rw [hcores]
  omega

theorem Handles.outstanding_lt (h : s.Handles x placed s') (hs : s.Smooth n edits) (hp : s'.Paired)
    (hw : s'.workload = s.workload) (hlost : s'.lost = s.lost) :
    s'.Smooth n edits ∧ s'.outstanding n edits < s.outstanding n edits := by
  have hedits := (congrArg Workload.editsPerClient hw).trans hs.workload
  have hcore {e : Editor R} (he : s.editors[x.client]? = some e) :
      s.cores[x.client]? = some e.core := by
    unfold Simulation.cores
    rw [List.getElem?_map, he]; rfl
  cases h with
  | @event e t t' event r he ht hdue ha hr hc hcores =>
    obtain ⟨hsmooth, hplan⟩ := hs.cores _ (List.mem_of_getElem? (hcore he))
    obtain ⟨hev, ht'⟩ := (hs.spared t (List.mem_of_getElem? ht)).advance ha
    have hreacts := (Channel.handle_within hsmooth.coherent).of_ok hr
    obtain ⟨hsmooth', k, hspend, hk⟩ :=
      hreacts.smooth (n := n) CharOp.transform_keepsLengths hsmooth hev
    obtain ⟨hlinks, -, hspared⟩ := hc.spared
    refine ⟨⟨hp, hedits, hlinks.trans hs.links, hspared hlost ?_, ?_⟩, ?_⟩
    · exact forall_mem_set hs.spared ht' _
    · rw [hcores]
      refine forall_mem_set hs.cores ?_ _
      exact ⟨hsmooth', hplan⟩
    · refine outstanding_lt_of_carries hc hs.links hspend (hcore he) hcores ?_
      have hload := sum_map_set (f := Timeline.pending) (b := t') ht
      have hpending := Timeline.advance_pending ha
      show (edits - e.made) * (n + 3) + r.1.backlog n + k + _ <
        (edits - e.made) * (n + 3) + e.channel.backlog n + _
      unfold Network.load
      dsimp only [Editor.core] at hk ⊢
      omega
  | @edit e t c r plan he ht hdue hdrain hr hplan hc hcores =>
    obtain ⟨hsmooth, hmade⟩ := hs.cores _ (List.mem_of_getElem? (hcore he))
    have hmade : e.made < edits := hmade (Option.isSome_iff_exists.2 ⟨_, hdue⟩)
    obtain ⟨hsmooth₁, hbacklog⟩ : c.Smooth ∧ c.backlog n = e.channel.backlog n := by
      rcases hdrain with rfl | rfl
      · exact ⟨hsmooth, rfl⟩
      · exact hsmooth.receiveAll
    obtain ⟨hsmooth', k, hspend, hk⟩ : r.1.Smooth ∧ Channel.Affords n (c.backlog n + (n + 2)) r := by
      rcases hr with rfl | ⟨op, answer, hr⟩
      · exact ⟨hsmooth₁, .idle (Nat.le_add_right ..) (List.forall_mem_nil _)⟩
      · exact ((Channel.send_counts hsmooth₁.coherent).of_ok hr).send_smooth
          CharOp.transform_keepsLengths hsmooth₁
    obtain ⟨hlinks, -, hspared⟩ := hc.spared
    refine ⟨⟨hp, hedits, hlinks.trans hs.links, hspared hlost ?_, ?_⟩, ?_⟩
    · refine forall_mem_modify hs.spared ?_ _
      exact fun t ht => ht
    · rw [hcores]
      refine forall_mem_set hs.cores ?_ _
      refine ⟨hsmooth', fun hsome => ?_⟩
      obtain ⟨due, hdue⟩ := Option.isSome_iff_exists.1 hsome
      exact hs.workload ▸ (hplan due hdue).2
    · refine outstanding_lt_of_carries hc hs.links hspend (hcore he) hcores ?_
      have hload : (s.network.modify x.client (·.advanceTo x.due)).load ≤ s.network.load + 0 :=
        sum_map_modify_le fun t _ => Nat.le_refl _
      have hstep : (edits - e.made) * (n + 3) = (edits - (e.made + 1)) * (n + 3) + (n + 3) := by
        rw [← Nat.succ_mul]
        congr 1
        omega
      show (edits - (e.made + 1)) * (n + 3) + r.1.backlog n + k + _ <
        (edits - e.made) * (n + 3) + e.channel.backlog n + _
      omega

/-! ### A whole run -/

/-- While nothing gets lost, a run takes no more events than are outstanding, and comes to rest if it may
take as many. -/
theorem runFor_smooth {p p' : Progress R} {limit : Nat} (h : runFor limit p = .ok p')
    (hp : p.simulation.Paired) : p.simulation.lost ≤ p'.simulation.lost ∧
      (p'.simulation.lost = p.simulation.lost → p.simulation.Smooth n edits →
        p'.simulation.Smooth n edits ∧
        p'.events + p'.simulation.outstanding n edits ≤ p.events + p.simulation.outstanding n edits ∧
        (p.simulation.outstanding n edits ≤ limit → p'.simulation.next = none)) := by
  induction limit generalizing p with
  | zero =>
    cases h
    refine ⟨Nat.le_refl _, fun _ hs => ⟨hs, Nat.le_refl _, fun hle => ?_⟩⟩
    cases hx : p'.simulation.next with
    | none => rfl
    | some x => exact absurd (hs.outstanding_pos hx) (Nat.not_lt.2 hle)
  | succ limit ih =>
    unfold runFor at h
    cases hx : p.simulation.next with
    | none =>
      rw [hx] at h
      cases h
      exact ⟨Nat.le_refl _, fun _ hs => ⟨hs, Nat.le_refl _, fun _ => hx⟩⟩
    | some x =>
      rw [hx] at h
      obtain ⟨s₁, hstep, h⟩ := Checked.bind_eq_ok_iff.1 h
      obtain ⟨placed, hh, hp₁, hw⟩ := step_handles hstep hp hx
      have hfirst := hh.lost_le
      obtain ⟨hrest, hsmooth⟩ := ih h hp₁
      refine ⟨Nat.le_trans hfirst hrest, fun heq hs => ?_⟩
      dsimp only at hrest hsmooth
      obtain ⟨hs₁, hlt⟩ := hh.outstanding_lt hs hp₁ hw (by omega)
      obtain ⟨hs', hle, hnone⟩ := hsmooth (by omega) hs₁
      exact ⟨hs', by omega, fun hlimit => hnone (by omega)⟩

variable {seeded : Nat → R} {c : Scenario}

/-- What all edits of a scenario may come to. -/
def Workload.budget (w : Workload) : Nat := w.clients * w.editsPerClient * (w.clients + 3)

theorem start_smooth (h : start seeded c = .ok s) :
    s.Smooth c.workload.clients c.workload.editsPerClient ∧
      s.outstanding c.workload.clients c.workload.editsPerClient = c.workload.budget := by
  have hcalm : Calm c s := (start_within seeded c).of_ok h
  have hnew : ∀ core ∈ s.cores, (core.channel.Smooth ∧
      (core.nextEdit.isSome → core.made < c.workload.editsPerClient)) ∧
      core.outstanding c.workload.clients c.workload.editsPerClient =
        c.workload.editsPerClient * (c.workload.clients + 3) := by
    refine List.forall_mem_map.2 fun e he => ?_
    obtain ⟨hchannel, -, hmade, -, hnext⟩ := hcalm.editors e he
    have hcount := hcalm.paced.editors e he
    refine ⟨⟨⟨hcount.coherent, hcount.fed, ?_, ?_⟩, fun hsome => ?_⟩, ?_⟩
    · show e.channel.state ≠ _ ∧ e.channel.state ≠ _
      rcases hchannel with hc | hc <;> rw [hc] <;> exact ⟨nofun, nofun⟩
    · show e.channel.stats.probes = 0 ∧ e.channel.stats.resends = 0 ∧ e.channel.stats.retryableFailures = 0
      rcases hchannel with hc | hc <;> rw [hc] <;> exact ⟨rfl, rfl, rfl⟩
    · show e.made < _
      have hsome : e.nextEdit.isSome := hsome
      rw [hnext] at hsome
      rw [hmade]
      split at hsome
      · assumption
      · cases hsome
    · show (c.workload.editsPerClient - e.made) * _ + e.channel.backlog _ = _
      have hbacklog : e.channel.backlog c.workload.clients = 0 := by
        rcases hchannel with hc | hc <;> rw [hc] <;> exact Nat.zero_mul _
      rw [hmade, hbacklog]; rfl
  have hlinks : (Network.start c.faults ((c.editors seeded).map (·.session))
      (seeded c.workload.seed)).server.links.length = c.workload.clients := by
    simp [Network.start, Server.start, Scenario.editors]
  obtain ⟨hlinks, hp⟩ := start_keeps (P := fun n => n.server.links.length = c.workload.clients) h
    hlinks fun hn hc => hc.spared.1.trans hn
  refine ⟨⟨hp, congrArg Workload.editsPerClient hcalm.workload, hlinks, fun t ht => ?_,
    fun core hcore => (hnew core hcore).1⟩, ?_⟩
  · rw [hcalm.timelines t ht]
    exact List.forall_mem_nil _
  · have hload : s.network.load = 0 := by
      refine List.sum_eq_zero_iff_forall_eq_nat.2 (List.forall_mem_map.2 fun t ht => ?_)
      rw [hcalm.timelines t ht]; rfl
    unfold outstanding Workload.budget
    rw [List.map_eq_replicate_iff.2 fun core hcore => (hnew core hcore).2, List.sum_replicate_nat,
      length_cores, hcalm.length.2, hload, Nat.add_zero, Nat.mul_assoc]

theorem run_faults (hc : c.problem = none) (seeded : Nat → R) :
    (Simulation.run seeded c).Within (fun f => f = .addOverflow ∨ f = .timeOverflow) fun _ => True := by
  by_cases hgap : 0 < c.workload.editsPerClient → c.workload.longestGap < Checked.limit
  · exact (run_within hc hgap seeded).weaken fun f hf => .inr hf.1
  · obtain ⟨hedits, hgap⟩ := Classical.not_imp.1 hgap
    have hclients : c.workload.clients ≠ 0 := by
      intro hzero
      have hworkload := (Scenario.problem_eq_none_iff.1 hc).1
      unfold Workload.problem at hworkload
      rw [if_pos hzero] at hworkload
      cases hworkload
    rw [run_overflow seeded hclients hedits hgap]
    exact .inl rfl

omit [RandomSource R] in
theorem Smooth.stats {p : Progress R} (h : p.simulation.Smooth n edits) :
    ∀ client ∈ p.report.clients,
      client.stats.probes = 0 ∧ client.stats.resends = 0 ∧ client.stats.retryableFailures = 0 := by
  refine List.forall_mem_map.2 fun e he => ?_
  have hsmooth : e.channel.Smooth := (h.cores _ (List.mem_map_of_mem he)).1
  have hchannel : e.drain.channel = e.channel.receiveAll.2 := congrArg Core.channel e.drain_core
  show e.drain.channel.stats.probes = 0 ∧ e.drain.channel.stats.resends = 0 ∧
    e.drain.channel.stats.retryableFailures = 0
  rw [hchannel]
  exact (hsmooth.receiveAll (n := n)).1.stats

/-- A run in which nothing gets lost comes to rest and succeeds if the edits of its scenario come to no
more events than a run may take, and no client ever makes a request again. -/
theorem run_settles (hc : c.problem = none) (hbudget : c.workload.budget ≤ stepLimit) (seeded : Nat → R) :
    (Simulation.run seeded c).Within (fun f => f = .addOverflow ∨ f = .timeOverflow) fun report =>
      report.server.droppedBeforeApply = 0 → report.server.droppedAfterApply = 0 →
      report.server.failedProbes = 0 →
      report.events ≤ c.workload.budget ∧ report.settled ∧ report.isSuccess ∧
        report.clients.length = c.workload.clients ∧ ∀ client ∈ report.clients,
          client.stats.probes = 0 ∧ client.stats.resends = 0 ∧ client.stats.retryableFailures = 0 := by
  have hfaults := run_faults hc seeded
  cases hrun : Simulation.run seeded c with
  | error f => rw [hrun] at hfaults; exact hfaults
  | ok report =>
    intro hbefore hafter hprobes
    obtain ⟨s, hstart, hfor⟩ := Checked.bind_eq_ok_iff.1 hrun
    obtain ⟨p, hp, hreport⟩ := Checked.bind_eq_ok_iff.1 hfor
    cases hreport
    obtain ⟨hsmooth, houtstanding⟩ := start_smooth hstart
    obtain ⟨hlost, hrest⟩ := runFor_smooth (p := { simulation := s }) hp hsmooth.paired
    have hzero : p.simulation.lost = 0 := by
      show p.report.server.droppedBeforeApply + p.report.server.droppedAfterApply +
        p.report.server.failedProbes = 0
      omega
    obtain ⟨hsmooth', hevents, hnone⟩ :=
      hrest (hzero.trans (Nat.le_zero.1 (hzero ▸ hlost)).symm) hsmooth
    have hnone := hnone (houtstanding ▸ hbudget)
    have hrunning := (Running.runFor (p := { simulation := s })
      ((start_yields seeded c).of_ok hstart) stepLimit).of_ok hp
    have hsettled : p.report.settled := Option.isNone_iff_eq_none.2 hnone
    have hcomplete : ∀ client ∈ p.report.clients,
        client.Complete c.workload.editsPerClient p.report.document := by
      refine List.forall_mem_map.2 fun e he => ?_
      obtain ⟨i, hi⟩ := List.mem_iff_getElem?.1 he
      exact (hrunning.settled hnone hi).1
    refine ⟨?_, hsettled, isSuccess_of_complete hsettled hcomplete, ?_, hsmooth'.stats⟩
    · show p.events ≤ _
      dsimp only at hevents
      omega
    · have hcast := congrArg List.length hrunning.inv.cast
      rw [List.length_map, List.length_map] at hcast
      exact (List.length_map _).trans (hcast.trans (by simp [Scenario.editors]))

/-- Two clients make two edits each, and the server loses nothing. -/
theorem run_settles_pair : ∃ c : Scenario, c.workload.clients = 2 ∧ c.workload.editsPerClient = 2 ∧
    c.problem = none ∧ ∃ report, Simulation.run (fun _ => (⟨2147483648⟩ : Steady)) c = .ok report ∧
      report.events ≤ 20 ∧ report.isSuccess := by
  let c : Scenario :=
    { workload := { clients := 2, editsPerClient := 2 }
      faults := { dropBeforeApply := 0, dropAfterApply := 0 } }
  have hc : c.problem = none := Option.isNone_iff_eq_none.1 (by decide +kernel)
  obtain ⟨report, hrun, hlost⟩ := Checked.exists_of_any
    (x := Simulation.run (fun _ => (⟨2147483648⟩ : Steady)) c)
    (p := fun report => report.server.droppedBeforeApply = 0 ∧ report.server.droppedAfterApply = 0 ∧
      report.server.failedProbes = 0) (by decide +kernel)
  obtain ⟨hbefore, hafter, hprobes⟩ := of_decide_eq_true hlost
  obtain ⟨hevents, -, hsuccess, -⟩ :=
    (run_settles hc (by decide) _).of_ok hrun hbefore hafter hprobes
  exact ⟨c, rfl, rfl, hc, report, hrun, hevents, hsuccess⟩

end Simulation

end CoEdit
