import CoEdit.Mailbox.Moves
import Mathlib.Data.List.Nodup

/-!
# Sleepers

What the moves at a mailbox keep, and that the reader's sleeps and waits consist of such moves. A sleep of the
reader ends after as many moments as there are sleepers left to wake up, for whoever was woken does not go
back to sleep (`Mailbox.still`).

A mailbox is `Tidy`: whoever is ready was not due before the time, and whoever sleeps is due later and was not
told to leave. So a sleeper posts at the moment at which it is due.
-/

namespace CoEdit.Mailbox

variable {E : Type} {m m' m'' : Mailbox E} {s : Sleeper E} {front rest : List (Sleeper E)} {time : Nat}
  {e : E} {parting : Option (Parting E)}

def sleepers (m : Mailbox E) : List (Sleeper E) := m.ready ++ m.asleep

theorem Move.toPasses (h : m.Move parting m') : m.Passes m' := .single ⟨parting, h⟩

theorem Passes.trans (h : m.Passes m') (h' : m'.Passes m'') : m.Passes m'' := Relation.ReflTransGen.trans h h'

theorem passes_draws (m : Mailbox E) (steps : Nat) (draws : List Bool) : m.Passes { m with steps, draws } :=
  (Move.draws steps draws).toPasses

theorem passes_steps (m : Mailbox E) (steps : Nat) : m.Passes { m with steps } := m.passes_draws steps m.draws

@[simp] theorem post_now : (m.post e).now = m.now := by
  unfold post; split <;> rfl

@[simp] theorem post_asleep : (m.post e).asleep = m.asleep := by
  unfold post; split <;> rfl

theorem post_withReady (ready : List (Sleeper E)) : post { m with ready } e = { m.post e with ready } := by
  unfold post; split <;> rfl

theorem post_withDraws (draws : List Bool) : post { m with draws } e = { m.post e with draws } := by
  unfold post; split <;> rfl

theorem post_draws : (m.post e).draws = m.draws := by
  unfold post; split <;> rfl

/-- The order of turns is one of those that are open. -/
theorem exists_goesOn (m : Mailbox E) (s : Sleeper E) :
    ∃ parting m' draws, GoesOn m s parting m' ∧ m.goOn s = { m' with draws } := by
  unfold goOn
  split
  · rename_i hover
    split
    · rename_i htold
      unfold race
      dsimp only
      split
      · exact ⟨_, _, _, .leaves htold, rfl⟩
      · exact ⟨_, _, _, .posts hover, post_withDraws _⟩
    · exact ⟨_, _, m.draws, .posts hover, by rw [← post_draws (m := m) (e := s.event)]⟩
  · rename_i hearly
    split
    · rename_i htold
      exact ⟨_, _, m.draws, .leaves htold, rfl⟩
    · rename_i hkept
      exact ⟨_, _, m.draws, .sleeps hearly hkept, rfl⟩

theorem goOn_withReady (ready : List (Sleeper E)) : goOn { m with ready } s = { m.goOn s with ready } := by
  unfold goOn race
  dsimp only
  split
  · split
    · split
      · rfl
      · exact post_withReady (m := { m with draws := m.draws.tail }) ready
    · exact post_withReady ready
  · split <;> rfl

theorem GoesOn.now (h : GoesOn m s parting m') : m'.now = m.now := by
  cases h with
  | posts => exact post_now
  | leaves | sleeps => rfl

theorem goOn_now : (m.goOn s).now = m.now := by
  obtain ⟨parting, m', draws, h, heq⟩ := m.exists_goesOn s
  rw [heq]
  exact h.now

theorem passes_foldl {first : List (Sleeper E)} (hr : m.ready = first ++ rest) :
    m.Passes (first.foldl goOn { m with ready := rest }) := by
  induction first generalizing m with
  | nil =>
    obtain rfl : m.ready = rest := hr
    exact .refl
  | cons s first ih =>
    obtain ⟨parting, m', draws, h, heq⟩ := exists_goesOn { m with ready := first ++ rest } s
    have hready : m.ready = [] ++ s :: (first ++ rest) := hr
    have hfirst : m.Passes (goOn { m with ready := first ++ rest } s) := by
      rw [heq]
      exact (Move.goesOn hready h).toPasses.trans (m'.passes_draws m'.steps draws)
    have hrest := ih (m := goOn { m with ready := first ++ rest } s) (goOn_ready ..)
    rw [← goOn_withReady] at hrest
    exact hfirst.trans hrest

theorem passes_turn (m : Mailbox E) : m.Passes m.turn :=
  passes_foldl (List.take_append_drop ..).symm

theorem passes_turns (stop : Mailbox E → Bool) (m : Mailbox E) : m.Passes (turns stop m) := by
  induction m using turns.induct stop with
  | case1 m h =>
    unfold turns
    rw [if_pos h]
    exact .refl
  | case2 m h ih =>
    unfold turns
    rw [if_neg h]
    exact m.passes_turn.trans ih

theorem foldl_goOn_now (ss : List (Sleeper E)) (m : Mailbox E) : (ss.foldl goOn m).now = m.now := by
  induction ss generalizing m with
  | nil => rfl
  | cons s ss ih => exact (ih _).trans goOn_now

theorem turn_now (m : Mailbox E) : m.turn.now = m.now := foldl_goOn_now ..

theorem turns_now (stop : Mailbox E → Bool) (m : Mailbox E) : (turns stop m).now = m.now := by
  induction m using turns.induct stop with
  | case1 m h =>
    unfold turns
    rw [if_pos h]
  | case2 m h ih =>
    unfold turns
    rw [if_neg h, ih, turn_now]

theorem turns_ready (stop : Mailbox E → Bool) (m : Mailbox E) :
    stop (turns stop m) ∨ (turns stop m).ready = [] := by
  induction m using turns.induct stop with
  | case1 m h =>
    unfold turns
    rw [if_pos h]
    simpa [or_comm] using h
  | case2 m h ih =>
    unfold turns
    rwa [if_neg h]

/-- How many sleepers are still to wake up. -/
def still (m : Mailbox E) : Nat := m.asleep.length + m.ready.countP (m.now < ·.due)

theorem place_perm (s : Sleeper E) (ss : List (Sleeper E)) : (place s ss).Perm (s :: ss) := by
  induction ss with
  | nil => exact .refl _
  | cons t ss ih =>
    unfold place; split
    · exact .refl _
    · exact (ih.cons t).trans (.swap s t ss)

theorem still_wakeAt (hr : m.ready = []) :
    (m.wakeAt time).still = (m.asleep.dropWhile (·.due ≤ time)).length := by
  unfold still wakeAt
  dsimp only
  rw [hr, List.nil_append, List.countP_eq_zero.2 fun s hs => ?_, Nat.add_zero]
  have hdue := List.all_takeWhile (p := fun s : Sleeper E => decide (s.due ≤ time)) (l := m.asleep)
  have := List.all_eq_true.1 hdue s hs
  simpa using this

theorem Move.still_le (h : m.Move parting m') : m'.still ≤ m.still := by
  cases h with
  | @goesOn _ front rest s _ hr h =>
    unfold still
    rw [h.now, hr, List.countP_append, List.countP_cons]
    cases h with
    | posts =>
      rw [post_ready, post_asleep, List.countP_append]
      dsimp only
      omega
    | leaves =>
      dsimp only
      rw [List.countP_append]
      omega
    | sleeps hearly =>
      dsimp only
      rw [(place_perm ..).length_eq, List.length_cons, List.countP_append,
        if_pos (decide_eq_true (Nat.not_le.1 hearly))]
      omega
  | passes h =>
    rw [still_wakeAt h.idle]
    exact Nat.le_trans (List.dropWhile_sublist _).length_le (Nat.le_add_right ..)
  | draws => exact Nat.le_refl _

theorem Passes.still_le (h : m.Passes m') : m'.still ≤ m.still := by
  induction h with
  | refl => exact Nat.le_refl _
  | tail _ h ih =>
    obtain ⟨parting, h⟩ := h
    exact Nat.le_trans h.still_le ih

/-! ### What a move keeps -/

/-- Nobody is ready who was due before the time, whoever sleeps is due later, and everyone has a serial
number. -/
structure Tidy (m : Mailbox E) : Prop where
  isOpen : m.isOpen
  ready : ∀ s ∈ m.ready, m.now ≤ s.due
  asleep : ∀ s ∈ m.asleep, m.now < s.due
  kept : ∀ s ∈ m.asleep, s.isDismissed = false
  sorted : m.asleep.Pairwise (·.due ≤ ·.due)
  serials : (m.sleepers.map (·.serial)).Nodup
  started : ∀ s ∈ m.sleepers, s.serial < m.started

theorem tidy_new (longest : Option Nat) (draws : List Bool) : ({ longest, draws } : Mailbox E).Tidy :=
  ⟨rfl, List.forall_mem_nil _, List.forall_mem_nil _, List.forall_mem_nil _, .nil, .nil, List.forall_mem_nil _⟩

theorem Tidy.withEvents (h : m.Tidy) (events : List E) : Tidy { m with events } :=
  ⟨h.isOpen, h.ready, h.asleep, h.kept, h.sorted, h.serials, h.started⟩

theorem Tidy.post_eq (h : m.Tidy) (e : E) : m.post e = { m with events := m.events ++ [e] } :=
  if_pos h.isOpen

theorem append_place_perm (s : Sleeper E) (rest ss : List (Sleeper E)) :
    (rest ++ place s ss).Perm (s :: (rest ++ ss)) :=
  ((place_perm s ss).append_left rest).trans List.perm_middle

theorem sorted_place {ss : List (Sleeper E)} (h : ss.Pairwise (·.due ≤ ·.due)) :
    (place s ss).Pairwise (·.due ≤ ·.due) := by
  induction ss with
  | nil => exact List.pairwise_singleton _ _
  | cons t ss ih =>
    obtain ⟨ht, hss⟩ := List.pairwise_cons.1 h
    unfold place; split
    · rename_i hlt
      refine List.pairwise_cons.2 ⟨fun u hu => ?_, h⟩
      rcases List.mem_cons.1 hu with rfl | hu
      · exact Nat.le_of_lt hlt
      · exact Nat.le_of_lt (Nat.lt_of_lt_of_le hlt (ht u hu))
    · rename_i hle
      refine List.pairwise_cons.2 ⟨fun u hu => ?_, ih hss⟩
      rcases List.mem_cons.1 ((place_perm s ss).subset hu) with rfl | hu
      · exact Nat.not_lt.1 hle
      · exact ht u hu

theorem sleepers_split (hr : m.ready = front ++ s :: rest) :
    m.sleepers.Perm (s :: sleepers { m with ready := front ++ rest }) := by
  unfold sleepers
  rw [hr]
  dsimp only
  have hmiddle : (front ++ s :: rest).Perm (s :: (front ++ rest)) := List.perm_middle
  exact hmiddle.append_right m.asleep

theorem Tidy.without (h : m.Tidy) (hr : m.ready = front ++ s :: rest) :
    Tidy { m with ready := front ++ rest } := by
  have hsplit := sleepers_split hr
  have hsub : front ++ rest ⊆ m.ready := by
    rw [hr]
    exact ((List.sublist_cons_self s rest).append_left front).subset
  refine ⟨h.isOpen, fun t ht => h.ready t (hsub ht), h.asleep, h.kept, h.sorted, ?_, fun t ht => ?_⟩
  · exact (List.nodup_cons.1 ((hsplit.map (·.serial)).nodup_iff.1 h.serials)).2
  · exact h.started t (hsplit.symm.subset (.tail _ ht))

theorem sleepers_wakeAt (hr : m.ready = []) : (m.wakeAt time).sleepers = m.sleepers := by
  unfold sleepers wakeAt
  dsimp only
  rw [hr, List.nil_append, List.nil_append, List.takeWhile_append_dropWhile]

theorem due_of_mem_dropWhile {ss : List (Sleeper E)} (h : ss.Pairwise (·.due ≤ ·.due))
    (hs : s ∈ ss.dropWhile (·.due ≤ time)) : time < s.due := by
  induction ss with
  | nil => cases hs
  | cons t ss ih =>
    obtain ⟨ht, hss⟩ := List.pairwise_cons.1 h
    rw [List.dropWhile_cons] at hs
    split at hs
    · exact ih hss hs
    · rename_i hlate
      have hlate : time < t.due := by simpa using hlate
      rcases List.mem_cons.1 hs with rfl | hs
      · exact hlate
      · exact Nat.lt_of_lt_of_le hlate (ht s hs)

theorem Tidy.wakeAt (h : m.Tidy) (hm : m.MayPass time) : (m.wakeAt time).Tidy := by
  refine ⟨h.isOpen, fun s hs => ?_, fun s hs => ?_, fun s hs => ?_, ?_, ?_, ?_⟩
  · have hs : s ∈ m.asleep.takeWhile (·.due ≤ time) := by
      unfold Mailbox.wakeAt at hs
      rwa [hm.idle] at hs
    exact hm.due s ((List.takeWhile_sublist _).subset hs)
  · exact due_of_mem_dropWhile h.sorted hs
  · exact h.kept s ((List.dropWhile_sublist _).subset hs)
  · exact h.sorted.sublist (List.dropWhile_sublist _)
  · rw [sleepers_wakeAt hm.idle]
    exact h.serials
  · rw [sleepers_wakeAt hm.idle]
    exact h.started

theorem Tidy.move (h : m.Tidy) (hm : m.Move parting m') : m'.Tidy := by
  cases hm with
  | @goesOn _ front rest s _ hr hgo =>
    have hleft := h.without hr
    cases hgo with
    | posts =>
      rw [hleft.post_eq]
      exact hleft.withEvents _
    | leaves => exact hleft
    | sleeps hearly hkept =>
      have hperm := append_place_perm s (front ++ rest) m.asleep
      have hall := hperm.trans (sleepers_split hr).symm
      refine ⟨h.isOpen, hleft.ready, fun t ht => ?_, fun t ht => ?_, sorted_place h.sorted, ?_, fun t ht => ?_⟩
      · rcases List.mem_cons.1 ((place_perm s _).subset ht) with rfl | ht
        · exact Nat.not_le.1 hearly
        · exact h.asleep t ht
      · rcases List.mem_cons.1 ((place_perm s _).subset ht) with rfl | ht
        · exact Bool.not_eq_true _ ▸ hkept
        · exact h.kept t ht
      · exact (hall.map _).nodup_iff.2 h.serials
      · exact h.started t (hall.subset ht)
  | passes hm => exact h.wakeAt hm
  | draws => exact ⟨h.isOpen, h.ready, h.asleep, h.kept, h.sorted, h.serials, h.started⟩

theorem Tidy.passes (h : m.Tidy) (hp : m.Passes m') : m'.Tidy := by
  induction hp with
  | refl => exact h
  | tail _ hm ih =>
    obtain ⟨parting, hm⟩ := hm
    exact ih.move hm

theorem Tidy.move_posted (h : m.Tidy) (hm : m.Move (some (.posted e)) m') :
    ∃ s ∈ m.ready, s.event = e ∧ s.due = m.now ∧ m.sleepers.Perm (s :: m'.sleepers) ∧ m'.now = m.now ∧
      m'.started = m.started ∧ m'.events = m.events ++ [e] := by
  cases hm with
  | @goesOn _ front rest s _ hr hgo =>
    have hmem : s ∈ m.ready := hr ▸ List.mem_append_right _ (.head _)
    cases hgo with
    | posts hover =>
      refine ⟨s, hmem, rfl, Nat.le_antisymm hover (h.ready s hmem), ?_⟩
      rw [(h.without hr).post_eq]
      exact ⟨sleepers_split hr, rfl, rfl, rfl⟩

theorem Move.left (hm : m.Move (some (.left e)) m') :
    ∃ s ∈ m.ready, s.event = e ∧ s.isDismissed ∧ m.sleepers.Perm (s :: m'.sleepers) ∧ m'.now = m.now ∧
      m'.started = m.started ∧ m'.events = m.events := by
  cases hm with
  | @goesOn _ front rest s _ hr hgo =>
    cases hgo with
    | leaves htold =>
      exact ⟨s, hr ▸ List.mem_append_right _ (.head _), rfl, htold, sleepers_split hr, rfl, rfl, rfl⟩

theorem Move.quiet (hm : m.Move none m') :
    m'.sleepers.Perm m.sleepers ∧ m'.started = m.started ∧ m'.events = m.events ∧
      (m'.now = m.now ∨ m.MayPass m'.now) := by
  cases hm with
  | @goesOn _ front rest s _ hr hgo =>
    cases hgo with
    | sleeps =>
      exact ⟨(append_place_perm s _ m.asleep).trans (sleepers_split hr).symm, rfl, rfl, .inl rfl⟩
  | passes h => exact ⟨.of_eq (sleepers_wakeAt h.idle), rfl, rfl, .inr h⟩
  | draws => exact ⟨.refl _, rfl, rfl, .inl rfl⟩

/-! ### Sleeps and waits of the reader -/

theorem Tidy.le_of_head {due : Nat} (h : m.Tidy) (hdue : m.nextDue = some due) :
    ∀ s ∈ m.asleep, due ≤ s.due := by
  have hsorted := h.sorted
  unfold nextDue at hdue
  cases hes : m.asleep with
  | nil => exact List.forall_mem_nil _
  | cons s rest =>
    rw [hes] at hdue hsorted
    cases hdue
    exact List.forall_mem_cons.2 ⟨Nat.le_refl _, (List.pairwise_cons.1 hsorted).1⟩

theorem Tidy.now_lt_nextDue {due : Nat} (h : m.Tidy) (hdue : m.nextDue = some due) : m.now < due := by
  obtain ⟨s, hs, rfl⟩ := Option.map_eq_some_iff.1 hdue
  exact h.asleep s (List.mem_of_mem_head? hs)

theorem still_wakeAt_lt {due : Nat} (hr : m.ready = []) (hdue : m.nextDue = some due) :
    (m.wakeAt due).still < m.still := by
  rw [still_wakeAt hr]
  unfold nextDue at hdue
  unfold still
  cases hes : m.asleep with
  | nil => rw [hes] at hdue; cases hdue
  | cons s rest =>
    rw [hes] at hdue
    cases hdue
    have hle := (List.dropWhile_sublist (l := rest) fun t : Sleeper E => decide (t.due ≤ s.due)).length_le
    have hfirst : decide (s.due ≤ s.due) = true := decide_eq_true (Nat.le_refl _)
    rw [List.dropWhile_cons, if_pos hfirst, List.length_cons]
    dsimp only
    omega

/-- As many moments as sleepers are left to wake up are enough. -/
theorem Tidy.passes_passTo {stop : Mailbox E → Bool} {limit : Nat} (h : m.Tidy) (hle : m.still ≤ limit)
    (hnow : m.now ≤ time) :
    m.Passes (passTo stop time limit m) ∧
      (stop (passTo stop time limit m) ∨ (passTo stop time limit m).MayPass time) := by
  induction limit generalizing m with
  | zero =>
    -- nobody is left to wake up, so the turns at this moment are the last ones
    have hturns := m.passes_turns stop
    have hstill := Nat.le_zero.1 (Nat.le_trans hturns.still_le hle)
    have hnone := List.length_eq_zero_iff.1 (Nat.add_eq_zero_iff.1 hstill).1
    refine ⟨hturns, (turns_ready stop m).imp_right fun hready => ⟨hready, ?_, ?_⟩⟩
    · exact (turns_now stop m).symm ▸ hnow
    · unfold passTo
      rw [hnone]
      exact List.forall_mem_nil _
  | succ limit ih =>
    have hturns := m.passes_turns stop
    have htidy := h.passes hturns
    have hready := turns_ready stop m
    have hsame := turns_now stop m
    have hstill := hturns.still_le
    unfold passTo
    dsimp only
    generalize turns stop m = m₁ at *
    by_cases hstop : stop m₁
    · rw [if_pos hstop]
      exact ⟨hturns, .inl hstop⟩
    rw [if_neg hstop]
    have hready := hready.resolve_left hstop
    cases hdue : m₁.nextDue with
    | none =>
      have hnone : m₁.asleep = [] := by
        unfold nextDue at hdue
        simpa using hdue
      refine ⟨hturns, .inr ⟨hready, hsame.symm ▸ hnow, ?_⟩⟩
      rw [hnone]
      exact List.forall_mem_nil _
    | some due =>
      dsimp only
      have hfirst := htidy.le_of_head hdue
      split
      · rename_i hlt
        have hlater := htidy.now_lt_nextDue hdue
        have hmay : m₁.MayPass due := ⟨hready, Nat.le_of_lt hlater, hfirst⟩
        rw [Nat.max_eq_right (Nat.le_of_lt hlater)]
        have hless := still_wakeAt_lt hready hdue
        obtain ⟨hpasses, hrest⟩ := ih (htidy.wakeAt hmay) (by omega) (Nat.le_of_lt hlt)
        exact ⟨hturns.trans ((Move.passes hmay).toPasses.trans hpasses), hrest⟩
      · rename_i hle
        refine ⟨hturns, .inr ⟨hready, hsame.symm ▸ hnow, fun s hs => ?_⟩⟩
        exact Nat.le_trans (Nat.not_lt.1 hle) (hfirst s hs)

theorem Tidy.passes_pass (stop : Mailbox E → Bool) (h : m.Tidy) (hnow : m.now ≤ time) :
    m.Passes (pass stop time m) ∧ (stop (pass stop time m) ∨ (pass stop time m).MayPass time) := by
  refine h.passes_passTo ?_ hnow
  have := List.countP_le_length (p := fun s => decide (m.now < s.due)) (l := m.ready)
  unfold still
  omega

theorem passes_rested (m : Mailbox E) : m.Passes m.rested := by
  unfold rested
  split
  · exact m.passes_turn.trans (passes_steps _ _)
  · exact .refl

/-- While the reader sleeps, sleepers go on and time passes, and nothing else happens. -/
theorem Tidy.sleep_passes (h : m.Tidy) (delay : Nat) : m.Passes (m.sleep delay) := by
  have hrested := m.passes_rested
  unfold sleep
  dsimp only
  split
  · exact hrested.trans (passes_steps _ _)
  · obtain ⟨hpasses, hstop⟩ := (h.passes hrested).passes_pass (fun _ => false) (Nat.le_add_right _ _)
    have hmay := hstop.resolve_left Bool.false_ne_true
    exact hrested.trans (hpasses.trans ((Move.passes hmay).toPasses.trans (passes_steps _ _)))

/-- The event that the reader takes. -/
def Receipt.taken : Receipt E → List E
  | event e _ => [e]
  | timeUp _ => []

def Receipt.mailbox : Receipt E → Mailbox E
  | event _ m | timeUp m => m

/-- The mailbox just before the reader takes the event. -/
def Receipt.before (r : Receipt E) : Mailbox E := { r.mailbox with events := r.taken ++ r.mailbox.events }

theorem passes_event {events : List E} (steps : Nat) (hes : m.events = e :: events) :
    m.Passes (Receipt.event e { m with events, steps }).before := by
  have hbefore : (Receipt.event e { m with events, steps }).before = { m with steps } := by
    show { m with events := e :: events, steps } = { m with steps }
    rw [← hes]
  rw [hbefore]
  exact passes_steps m steps

theorem Tidy.await_passes (limit : Nat) (h : m.Tidy) : m.Passes (m.await limit).before := by
  unfold await
  split
  · exact passes_steps _ _
  · rename_i hlate
    obtain ⟨hpasses, hstop⟩ := h.passes_pass hasEvent (Nat.le_of_lt (Nat.not_le.1 hlate))
    dsimp only
    generalize pass hasEvent limit m = m₁ at *
    split
    · rename_i e events hes
      exact hpasses.trans (passes_event _ hes)
    · rename_i hnone
      have hempty : ¬ hasEvent m₁ := by
        unfold hasEvent
        rw [hnone]
        exact Bool.false_ne_true
      exact hpasses.trans ((Move.passes (hstop.resolve_left hempty)).toPasses.trans (passes_steps _ _))

/-- The reader waits for an event, takes it if one comes, and nothing else happens. -/
theorem Tidy.receive_passes (h : m.Tidy) (limit : Nat) (isFirst : Bool) :
    m.Passes (m.receive limit isFirst).before := by
  have hrested := m.passes_rested
  unfold receive
  split
  · exact .refl
  · dsimp only
    split
    · rename_i e events hes
      exact hrested.trans (passes_event _ hes)
    · exact hrested.trans ((h.passes hrested).await_passes limit)

theorem sleepers_start_perm (m : Mailbox E) (delay : Nat) (e : E) :
    (m.start delay e).2.sleepers.Perm
      ({ due := m.wakeTime delay, serial := m.started, event := e } :: m.sleepers) := by
  show (m.ready ++ [_] ++ m.asleep).Perm _
  rw [List.append_assoc]
  exact List.perm_middle

theorem Tidy.start (h : m.Tidy) (delay : Nat) (e : E) : (m.start delay e).2.Tidy := by
  have hperm := sleepers_start_perm m delay e
  refine ⟨h.isOpen, List.forall_mem_append.2 ⟨h.ready, ?_⟩, h.asleep, h.kept, h.sorted, ?_, fun s hs => ?_⟩
  · exact List.forall_mem_singleton.2 (Nat.le_add_right ..)
  · refine (hperm.map _).nodup_iff.2 (List.nodup_cons.2 ⟨fun hmem => ?_, h.serials⟩)
    obtain ⟨s, hs, heq⟩ := List.mem_map.1 hmem
    exact Nat.lt_irrefl _ (heq ▸ h.started s hs)
  · show s.serial < m.started + 1
    rcases List.mem_cons.1 (hperm.subset hs) with rfl | hs
    · exact Nat.lt_succ_self _
    · exact Nat.lt_succ_of_lt (h.started s hs)

@[simp] theorem Sleeper.dismiss_serial {serial : Nat} : (s.dismiss serial).serial = s.serial := by
  unfold Sleeper.dismiss; split <;> rfl

@[simp] theorem Sleeper.dismiss_due {serial : Nat} : (s.dismiss serial).due = s.due := by
  unfold Sleeper.dismiss; split <;> rfl

@[simp] theorem Sleeper.dismiss_event {serial : Nat} : (s.dismiss serial).event = s.event := by
  unfold Sleeper.dismiss; split <;> rfl

theorem Sleeper.dismiss_of_ne {serial : Nat} (h : s.serial ≠ serial) : s.dismiss serial = s := if_neg h

theorem dismiss_eq (m : Mailbox E) (serial : Nat) : m.dismiss serial = { m with
    ready := m.ready.map (·.dismiss serial) ++ (m.asleep.filter (·.serial == serial)).map (·.dismiss serial)
    asleep := m.asleep.filter fun s => !(s.serial == serial) } := by
  unfold dismiss
  rw [List.partition_eq_filter_filter]
  rfl

theorem dismiss_now (m : Mailbox E) (serial : Nat) : (m.dismiss serial).now = m.now := by
  rw [dismiss_eq]

theorem dismiss_events (m : Mailbox E) (serial : Nat) : (m.dismiss serial).events = m.events := by
  rw [dismiss_eq]

theorem sleepers_dismiss_perm (m : Mailbox E) (serial : Nat) :
    (m.dismiss serial).sleepers.Perm (m.sleepers.map (·.dismiss serial)) := by
  have hkept : (m.asleep.filter fun s => !(s.serial == serial)).map (·.dismiss serial) =
      m.asleep.filter fun s => !(s.serial == serial) := by
    refine (List.map_congr_left fun s hs => ?_).trans (List.map_id _)
    exact Sleeper.dismiss_of_ne (by simpa using (List.mem_filter.1 hs).2)
  have hsplit := (List.filter_append_perm (fun s => s.serial == serial) m.asleep).map (·.dismiss serial)
  rw [dismiss_eq]
  show (_ ++ _ ++ _ : List (Sleeper E)).Perm ((m.ready ++ m.asleep).map _)
  rw [List.append_assoc, List.map_append, ← hkept, ← List.map_append]
  exact hsplit.append_left _

theorem Tidy.dismiss (h : m.Tidy) (serial : Nat) : (m.dismiss serial).Tidy := by
  have hperm := sleepers_dismiss_perm m serial
  have hserials : ((m.dismiss serial).sleepers.map (·.serial)).Perm (m.sleepers.map (·.serial)) := by
    refine (hperm.map _).trans ?_
    rw [List.map_map]
    exact .of_eq (List.map_congr_left fun s _ => Sleeper.dismiss_serial)
  refine ⟨?_, fun s hs => ?_, fun s hs => ?_, fun s hs => ?_, ?_, hserials.nodup_iff.2 h.serials, fun s hs => ?_⟩
  · rw [dismiss_eq]
    exact h.isOpen
  · rw [dismiss_eq] at hs ⊢
    rcases List.mem_append.1 hs with hs | hs
    · obtain ⟨t, ht, rfl⟩ := List.mem_map.1 hs
      rw [Sleeper.dismiss_due]
      exact h.ready t ht
    · obtain ⟨t, ht, rfl⟩ := List.mem_map.1 hs
      rw [Sleeper.dismiss_due]
      exact Nat.le_of_lt (h.asleep t (List.mem_filter.1 ht).1)
  · rw [dismiss_eq] at hs ⊢
    exact h.asleep s (List.mem_filter.1 hs).1
  · rw [dismiss_eq] at hs
    exact h.kept s (List.mem_filter.1 hs).1
  · rw [dismiss_eq]
    exact h.sorted.sublist List.filter_sublist
  · obtain ⟨t, ht, rfl⟩ := List.mem_map.1 (hperm.subset hs)
    rw [dismiss_eq, Sleeper.dismiss_serial]
    exact h.started t ht

theorem isPending_iff {serial : Nat} :
    m.isPending serial ↔ ∃ s ∈ m.sleepers, s.serial = serial ∧ s.isDismissed = false := by
  unfold isPending sleepers Sleeper.isPending
  simp only [Bool.or_eq_true, List.any_eq_true, Bool.and_eq_true, beq_iff_eq, Bool.not_eq_true',
    List.mem_append]
  constructor
  · rintro (⟨s, hs, h⟩ | ⟨s, hs, h⟩)
    · exact ⟨s, .inl hs, h⟩
    · exact ⟨s, .inr hs, h⟩
  · rintro ⟨s, hs | hs, h⟩
    · exact .inl ⟨s, hs, h⟩
    · exact .inr ⟨s, hs, h⟩

end CoEdit.Mailbox
