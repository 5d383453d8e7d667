import CoEdit.Proofs.Exhaustion
import CoEdit.Proofs.Handling
import CoEdit.Proofs.Lateness

/-!
# One order of time

Every client has a clock of its own, the server reckons with the clock of whoever asks, and an edit moves a
clock without taking anything off a timeline. A run is in one order of time all the same. `s.Current now`:
no clock of the simulation is past `now`, and nothing waits or is planned for an earlier time. What is due
first takes its client to that time (`Current.next`), and whatever follows from it is due no earlier: a task
waits from the client's clock on, and so does what the server posts, since it starts from the same clock
(`Server.serve_due`). So no clock is ever past what is put on its timeline.

`Trace s turns s'` follows a run item by item, with the states before and after each and with what the
server put on timelines meanwhile.
-/

namespace CoEdit

namespace Timeline

variable {M : Type} {t t' : Timeline M} {now due : Nat} {event : Event M} {effect : Effect M}

/-- The clock is not past `now`, and nothing waits that was due before. -/
structure Current (now : Nat) (t : Timeline M) : Prop where
  sound : t.Sound
  clock : t.now ≤ now
  notBefore : t.NotBefore now

theorem Current.deliverAt (h : t.Current now) (hdue : now ≤ due) : (t.deliverAt due event).Current now := by
  refine ⟨h.sound.deliverAt, h.clock, fun e he => ?_⟩
  rcases (mem_place h.sound.sorted).1 he with rfl | he
  · exact Nat.le_trans hdue (Nat.le_max_left ..)
  · exact h.notBefore e he

theorem Current.leads (h : t.Current now) (hnow : t.now = now) (hl : Agenda.Leads t effect t') :
    t'.Current now ∧ t'.now = now := by
  have hgains := hl.gains h.sound
  have hclock := hgains.now.trans hnow
  exact ⟨⟨hgains.sound, Nat.le_of_eq hclock, hgains.notBefore now (Nat.le_of_eq hnow.symm) h.notBefore⟩,
    hclock⟩

theorem Current.advance (h : t.Current due) (ha : t.advance = some (event, t'))
    (hdue : t.nextDue = some due) : t'.Current due ∧ t'.now = due := by
  obtain ⟨due', hdue', hsound, hnow, hfloor, -⟩ := h.sound.advance_first ha
  rw [hdue] at hdue'
  cases hdue'
  have hclock : t'.now = due := hnow.trans (Nat.max_eq_right h.clock)
  exact ⟨⟨hsound, Nat.le_of_eq hclock, hfloor⟩, hclock⟩

theorem Current.advanceTo (h : t.Current now) :
    (t.advanceTo now).Current now ∧ (t.advanceTo now).now = now := by
  have hclock : (t.advanceTo now).now = now := Nat.max_eq_right h.clock
  exact ⟨⟨h.sound.advanceTo, Nat.le_of_eq hclock, h.notBefore⟩, hclock⟩

theorem Current.mono (h : t.Current now) (hle : now ≤ due) (hdue : ∀ d ∈ t.nextDue, due ≤ d) :
    t.Current due := by
  refine ⟨h.sound, Nat.le_trans h.clock hle, fun e he => ?_⟩
  have hsorted := h.sound.sorted
  unfold nextDue at hdue
  cases hes : t.entries with
  | nil => rw [hes] at he; cases he
  | cons f rest =>
    rw [hes] at he hsorted hdue
    have hfirst : due ≤ f.slot.due := hdue _ rfl
    rcases List.mem_cons.1 he with rfl | he
    · exact hfirst
    · exact Nat.le_trans hfirst ((List.pairwise_cons.1 hsorted).1 e he)

end Timeline

variable {R : Type} [RandomSource R]

namespace Server

variable {s : Server R} {client now : Nat} {session : Session}

/-- Whatever else comes of a request, what is posted is due after it. -/
abbrev PostsFrom (now : Nat) (x : Checked (Outcome R)) : Prop :=
  x.Within (fun _ => True) fun o => ∀ p ∈ o.1, now ≤ p.due

theorem respond_due {event : Event CharOp} : PostsFrom now (s.respond client now event) := by
  unfold respond
  refine (Checked.within_any _).bind fun r _ => ?_
  refine Checked.Within.bind (Checked.addTime_within (.inr trivial)) fun due hdue => ?_
  exact List.forall_mem_singleton.2 (hdue ▸ Nat.le_add_right ..)

theorem relay_due {d : Delivery CharOp} : PostsFrom now (s.relay client now d) := by
  unfold relay
  refine (Checked.within_any _).bind fun r _ => ?_
  dsimp only
  split
  · refine Checked.Within.bind (Checked.addTime_within (.inr trivial)) fun due hdue => ?_
    refine List.forall_mem_singleton.2 (Nat.le_trans ?_ (Nat.le_max_left ..))
    exact hdue ▸ Nat.le_add_right ..
  · exact List.forall_mem_nil _

omit [RandomSource R] in
theorem each_due {α : Type} {step : Server R → α → Checked (Outcome R)} {l : List α}
    (h : ∀ s a, PostsFrom now (step s a)) : PostsFrom now (each step s l) := by
  induction l generalizing s with
  | nil => exact List.forall_mem_nil _
  | cons a l ih =>
    refine (h s a).bind fun r hr => Checked.Within.bind ih fun r' hr' => ?_
    exact List.forall_mem_append.2 ⟨hr, hr'⟩

theorem append_due {op : CharOp} : PostsFrom now (s.append now session op) := by
  unfold append
  exact (Checked.within_any _).bind fun revision _ => each_due fun _ _ => relay_due

theorem apply_due {base : Revision} {ops : List CharOp} : (s.apply now session base ops).Within
    (fun _ => True) fun r => ∀ p ∈ r.2.1, now ≤ p.due := by
  unfold apply
  refine (Checked.within_any _).bind fun r _ => ?_
  split
  · exact List.forall_mem_nil _
  · exact (each_due fun _ _ => append_due).bind fun r hr => hr

theorem submit_due {token : Token} {base : Revision} {ops : List CharOp} :
    PostsFrom now (s.submit client now session token base ops) := by
  unfold submit
  dsimp only
  split
  · exact respond_due
  · refine apply_due.bind fun r hr => respond_due.bind fun r' hr' => ?_
    exact List.forall_mem_append.2 ⟨hr, hr'⟩

theorem serve_due {effect : Effect CharOp} : PostsFrom now (s.serve client now effect) := by
  unfold serve
  split
  · exact submit_due
  · unfold probe
    dsimp only
    split <;> exact respond_due
  · exact List.forall_mem_nil _
  · exact each_due fun _ _ => relay_due
  · exact List.forall_mem_nil _
  · exact List.forall_mem_nil _

end Server

namespace Network

variable {n n' : Network R} {i : Nat} {now : Nat} {effects : List (Effect CharOp)}

/-- No clock is past `now` and nothing waits that was due before. -/
def Current (now : Nat) (n : Network R) : Prop := ∀ t ∈ n.timelines, t.Current now

omit [RandomSource R] in
theorem Current.foldl_post {posts : List Server.Posting} (h : n.Current now)
    (hp : ∀ p ∈ posts, now ≤ p.due) : (posts.foldl post n).Current now := by
  induction posts generalizing n with
  | nil => exact h
  | cons p posts ih =>
    obtain ⟨hdue, hp⟩ := List.forall_mem_cons.1 hp
    exact ih (n := n.post p) (forall_mem_modify h (fun t ht => ht.deliverAt hdue) _) hp

omit [RandomSource R] in
theorem now_foldl_post {posts : List Server.Posting} (i : Nat) :
    (posts.foldl post n).now i = n.now i := by
  have hsame : ∀ (t : Timeline CharOp) (es : List (Nat × Event CharOp)), (t.deliverAll es).now = t.now := by
    intro t es
    induction es generalizing t with
    | nil => rfl
    | cons e es ih => exact ih _
  unfold Network.now
  rw [(Simulation.foldl_post posts n).2 i]
  cases n.timelines[i]? with
  | none => rfl
  | some t => exact hsame t _

omit [RandomSource R] in
theorem Current.now_le (h : n.Current now) (i : Nat) : n.now i ≤ now := by
  unfold Network.now
  cases ht : n.timelines[i]? with
  | none => exact Nat.zero_le _
  | some t => exact (h t (List.mem_of_getElem? ht)).clock

/-- Nothing is put on a timeline for a time that its clock has passed. -/
theorem Carries.current {placed : List Placed} (h : Carries i n effects placed n') (hn : n.Current now)
    (hi : n.now i = now) :
    n'.Current now ∧ ∀ p ∈ placed, now ≤ p.posting.due ∧ p.clock ≤ p.posting.due := by
  induction h with
  | nil => exact ⟨hn, List.forall_mem_nil _⟩
  | @cons n n' t t' effect effects posts server placed ht hl hs h ih =>
    have hclock : t.now = now := by
      unfold Network.now at hi
      rwa [ht] at hi
    obtain ⟨htime, hclock'⟩ := (hn t (List.mem_of_getElem? ht)).leads hclock hl
    have hposts : ∀ p ∈ posts, now ≤ p.due := hclock ▸ Server.serve_due.of_ok hs
    have hmodify : (n.modify i fun _ => t').Current now := forall_mem_modify hn (fun _ _ => htime) i
    have hi' : Network.now { (n.modify i fun _ => t') with server } i = now := by
      show ((n.timelines.modify i _)[i]?).elim 0 _ = _
      rw [List.getElem?_modify_eq, ht]
      exact hclock'
    obtain ⟨hn', hplaced⟩ := ih (Current.foldl_post (n := { (n.modify i fun _ => t') with server }) hmodify
      hposts) ((now_foldl_post i).trans hi')
    refine ⟨hn', List.forall_mem_append.2 ⟨fun p hp => ?_, hplaced⟩⟩
    obtain ⟨posting, hposting, rfl⟩ := List.mem_map.1 hp
    exact ⟨hposts _ hposting, Nat.le_trans (hn.now_le _) (hposts _ hposting)⟩

end Network

namespace Simulation

variable {s s' : Simulation R} {now : Nat} {x y : Item} {items : List Item}
  {placed : List Network.Placed}

/-- No clock of the simulation is past `now`, and nothing waits or is planned for an earlier time. -/
structure Current (now : Nat) (s : Simulation R) : Prop where
  network : s.network.Current now
  plans : ∀ core ∈ s.cores, ∀ due ∈ core.nextEdit, now ≤ due

theorem earliest_le (h : earliest items = some x) (hy : y ∈ items) : x.due ≤ y.due := by
  induction items generalizing x with
  | nil => cases hy
  | cons z items ih =>
    unfold earliest at h
    split at h
    · rename_i j hj
      have hrest : y ∈ items → j.due ≤ y.due := ih hj
      split at h <;> cases h
      · rcases List.mem_cons.1 hy with rfl | hy
        · exact Nat.le_of_lt ‹_›
        · exact hrest hy
      · rcases List.mem_cons.1 hy with rfl | hy
        · exact Nat.le_refl _
        · exact Nat.le_trans (Nat.not_lt.1 ‹_›) (hrest hy)
    · rename_i hnone
      cases h
      rw [earliest_eq_none hnone, List.mem_singleton] at hy
      exact Nat.le_of_eq (congrArg Item.due hy.symm)

omit [RandomSource R] in
theorem Current.next (h : s.Current now) (hp : s.Paired) (hx : s.next = some x) :
    now ≤ x.due ∧ s.Current x.due := by
  have hlen : s.network.timelines.length = s.editors.length := hp
  have hle : now ≤ x.due := by
    obtain ⟨t, e, ht, he, ⟨-, hdue⟩ | ⟨-, hdue⟩⟩ := mem_items.1 (earliest_mem hx)
    · exact (h.network t (List.mem_of_getElem? ht)).notBefore.le_nextDue hdue
    · exact h.plans _ (List.mem_map_of_mem (List.mem_of_getElem? he)) _ hdue
  refine ⟨hle, fun t ht => ?_, fun core hcore due hdue => ?_⟩
  · obtain ⟨i, hi⟩ := List.mem_iff_getElem?.1 ht
    obtain ⟨e, he⟩ := hp.exists_editor (List.getElem?_eq_some_iff.1 hi).1
    refine (h.network t ht).mono hle fun due hdue => ?_
    exact earliest_le hx ((mem_items (x := ⟨due, i, false⟩)).2 ⟨t, e, hi, he, .inl ⟨rfl, hdue⟩⟩)
  · obtain ⟨e, he, rfl⟩ := List.mem_map.1 hcore
    obtain ⟨i, hi⟩ := List.mem_iff_getElem?.1 he
    have hlt : i < s.network.timelines.length := hlen ▸ (List.getElem?_eq_some_iff.1 hi).1
    exact earliest_le hx ((mem_items (x := ⟨due, i, true⟩)).2
      ⟨_, e, List.getElem?_eq_getElem hlt, hi, .inr ⟨rfl, hdue⟩⟩)

/-- An item of a run, the states before and after it, and what the server put on timelines meanwhile. -/
structure Moment (R : Type) where
  item : Item
  before : Simulation R
  placed : List Network.Placed
  after : Simulation R

/-- The item came at its time: no clock was past it, nothing else was due before it, nothing that followed
from it is due before it, and nothing was put where the clock was later. -/
structure Moment.Causal (m : Moment R) : Prop where
  before : m.before.Current m.item.due
  placed : ∀ p ∈ m.placed, m.item.due ≤ p.posting.due ∧ p.clock ≤ p.posting.due
  after : m.after.Current m.item.due

/-- One item after another is handled, always the one that is due first. -/
inductive Trace : Simulation R → List (Moment R) → Simulation R → Prop
  | nil {s : Simulation R} : Trace s [] s
  | cons {s s₁ s' : Simulation R} {x : Item} {placed : List Network.Placed} {moments : List (Moment R)}
      (hx : s.next = some x) (hs : s.step x = .ok s₁) (hh : s.Handles x placed s₁)
      (h : Trace s₁ moments s') : Trace s (⟨x, s, placed, s₁⟩ :: moments) s'

/-- What follows from an item is due no earlier, and nothing is put where the clock is later. -/
theorem Handles.causal (h : s.Handles x placed s') (hs : s.Current x.due) :
    Moment.Causal ⟨x, s, placed, s'⟩ := by
  cases h with
  | @event e t t' event r he ht hdue ha hr hc hcores =>
    obtain ⟨htime, hclock⟩ := (hs.network t (List.mem_of_getElem? ht)).advance ha hdue
    have hi : Network.now { s.network with timelines := s.network.timelines.set x.client t' } x.client =
        x.due := by
      show ((s.network.timelines.set x.client t')[x.client]?).elim 0 _ = _
      rw [List.getElem?_set_self (List.getElem?_eq_some_iff.1 ht).1]
      exact hclock
    obtain ⟨hnetwork, hplaced⟩ := hc.current (forall_mem_set hs.network htime _) hi
    refine ⟨hs, hplaced, hnetwork, ?_⟩
    rw [hcores]
    refine forall_mem_set hs.plans ?_ _
    exact hs.plans e.core (List.mem_map_of_mem (List.mem_of_getElem? he))
  | @edit e t c r plan he ht hdue hdrain hr hplan hc hcores =>
    obtain ⟨-, hclock⟩ := (hs.network t (List.mem_of_getElem? ht)).advanceTo
    have hi : (s.network.modify x.client (·.advanceTo x.due)).now x.client = x.due := by
      show ((s.network.timelines.modify x.client _)[x.client]?).elim 0 _ = _
      rw [List.getElem?_modify_eq, ht]
      exact hclock
    obtain ⟨hnetwork, hplaced⟩ :=
      hc.current (forall_mem_modify hs.network (fun t ht => ht.advanceTo.1) _) hi
    refine ⟨hs, hplaced, hnetwork, ?_⟩
    rw [hcores]
    exact forall_mem_set hs.plans (fun due hdue => (hplan due hdue).1) _

/-- When the last item was due. -/
def lastDue (moments : List (Moment R)) : Nat := moments.getLast?.elim 0 (·.item.due)

theorem foldl_max_eq {dues : List Nat} (h : dues.Pairwise (· ≤ ·)) (hnow : ∀ due ∈ dues, now ≤ due) :
    dues.foldl max now = dues.getLast?.getD now := by
  induction dues generalizing now with
  | nil => rfl
  | cons due dues ih =>
    obtain ⟨hfirst, hrest⟩ := List.pairwise_cons.1 h
    rw [List.foldl_cons, Nat.max_eq_right (hnow due (.head _)), ih hrest hfirst, List.getLast?_cons]
    rfl

/-- A run handles its items in the order in which they are due. -/
theorem runFor_traces {p p' : Progress R} {limit : Nat} (h : runFor limit p = .ok p')
    (hs : p.simulation.Current now) (hp : p.simulation.Paired) :
    ∃ moments, Trace p.simulation moments p'.simulation ∧ (∀ m ∈ moments, m.Causal) ∧
      (moments.map (·.item.due)).Pairwise (· ≤ ·) ∧ (∀ m ∈ moments, now ≤ m.item.due) ∧
      p'.events = p.events + moments.length ∧
      p'.time = (moments.map (·.item.due)).foldl max p.time := by
  induction limit generalizing p now with
  | zero => cases h; exact ⟨[], .nil, List.forall_mem_nil _, .nil, List.forall_mem_nil _, rfl, rfl⟩
  | succ limit ih =>
    unfold runFor at h
    cases hx : p.simulation.next with
    | none =>
      rw [hx] at h
      cases h
      exact ⟨[], .nil, List.forall_mem_nil _, .nil, List.forall_mem_nil _, rfl, rfl⟩
    | some x =>
      rw [hx] at h
      obtain ⟨s₁, hstep, h⟩ := Checked.bind_eq_ok_iff.1 h
      obtain ⟨hle, hbefore⟩ := hs.next hp hx
      obtain ⟨placed, hh, hp₁, -⟩ := step_handles hstep hp hx
      have hcausal := hh.causal hbefore
      obtain ⟨moments, htrace, hcausals, hsorted, hfrom, hevents, htime⟩ := ih h hcausal.after hp₁
      refine ⟨_, .cons hx hstep hh htrace, List.forall_mem_cons.2 ⟨hcausal, hcausals⟩,
        List.pairwise_cons.2 ⟨fun due hdue => ?_, hsorted⟩, List.forall_mem_cons.2 ⟨hle, fun m hm => ?_⟩,
        ?_, htime⟩
      · obtain ⟨m, hm, rfl⟩ := List.mem_map.1 hdue
        exact hfrom m hm
      · exact Nat.le_trans hle (hfrom m hm)
      · rw [hevents, List.length_cons]
        dsimp only; omega

/-! ### A whole run -/

variable {seeded : Nat → R} {c : Scenario} {report : Report}

theorem start_current (h : start seeded c = .ok s) : s.Current 0 ∧ s.Paired := by
  have hempty : Network.Current 0
      (.start c.faults ((c.editors seeded).map (·.session)) (seeded c.workload.seed)) := by
    intro t ht
    obtain ⟨session, -, rfl⟩ := List.mem_map.1 ht
    exact ⟨Timeline.sound_empty, Nat.le_refl _, List.forall_mem_nil _⟩
  obtain ⟨hnetwork, hp⟩ := start_keeps h hempty
    fun hn hc => (hc.current hn (Nat.le_zero.1 (hn.now_le _))).1
  exact ⟨⟨hnetwork, fun _ _ _ _ => Nat.zero_le _⟩, hp⟩

/-- A run is in one order of time, whatever its scenario and its random draws: what it handles is due in
this order, and each item comes at its time. The time it took is when the last item was due, as far as this
can be reported. -/
theorem run_causal (hrun : Simulation.run seeded c = .ok report) :
    ∃ s₀ moments s, start seeded c = .ok s₀ ∧ Trace s₀ moments s ∧
      report = Progress.report ⟨s, moments.length, lastDue moments⟩ ∧
      (moments.map (·.item.due)).Pairwise (· ≤ ·) ∧ (∀ m ∈ moments, m.Causal) ∧
      report.elapsedMs = min (lastDue moments) (Checked.limit - 1) := by
  obtain ⟨s₀, hstart, h⟩ := Checked.bind_eq_ok_iff.1 hrun
  obtain ⟨p, hp, hreport⟩ := Checked.bind_eq_ok_iff.1 h
  cases hreport
  obtain ⟨hcurrent, hpaired⟩ := start_current hstart
  obtain ⟨moments, htrace, hcausal, hsorted, hfrom, hevents, htime⟩ :=
    runFor_traces (p := { simulation := s₀ }) hp hcurrent hpaired
  have hlast : p.time = lastDue moments := by
    rw [htime, foldl_max_eq hsorted fun _ _ => Nat.zero_le _]
    unfold lastDue
    rw [List.getLast?_map]
    cases moments.getLast? <;> rfl
  have hp : p = ⟨p.simulation, moments.length, lastDue moments⟩ := by
    rw [← hlast, ← Nat.zero_add moments.length, ← hevents]
  refine ⟨s₀, moments, p.simulation, hstart, htrace, congrArg Progress.report hp, hsorted, hcausal, ?_⟩
  rw [← hlast]; rfl

/-- Two clients make two edits each. -/
theorem run_causal_pair : ∃ c : Scenario, c.problem = none ∧ c.workload.clients = 2 ∧ ∃ report,
    Simulation.run (fun _ => (⟨2147483648⟩ : Steady)) c = .ok report ∧ 4 < report.events ∧
    ∃ (s₀ s : Simulation Steady) (moments : List (Moment Steady)), Trace s₀ moments s ∧
      moments.length = report.events ∧ (moments.map (·.item.due)).Pairwise (· ≤ ·) ∧
      ∀ m ∈ moments, m.Causal := by
  let c : Scenario := { workload := { clients := 2, editsPerClient := 2 } }
  obtain ⟨report, hrun, hevents⟩ := Checked.exists_of_any
    (x := Simulation.run (fun _ => (⟨2147483648⟩ : Steady)) c) (p := fun report => 4 < report.events)
    (by decide +kernel)
  obtain ⟨s₀, moments, s, -, htrace, hreport, hsorted, hcausal, -⟩ := run_causal hrun
  refine ⟨c, Option.isNone_iff_eq_none.1 (by decide +kernel), rfl, report, hrun,
    of_decide_eq_true hevents, s₀, s, moments, htrace, ?_, hsorted, hcausal⟩
  rw [hreport]; rfl

end Simulation

end CoEdit
