import CoEdit.Proofs.Mail
import CoEdit.Proofs.Yields
import Mathlib.Data.List.Nodup

/-!
# In which order a timeline hands out its events

A timeline is a stable priority queue. To say so, a ledger is kept beside it: everything that was ever put
on the timeline, in this order, with the time at which it was due then, and what was returned and what was
cancelled of it (`Ledger`). What may happen to a ledger is said without a queue (`Ledger.Step`): of what is
pending, an advance returns what is due first and was put there first among equals; a cancel strikes out the
one pending task with the id; the clock moves forward to what is returned.

Whatever is done with a timeline, as long as no task is put there while another one with its id waits, there
is a ledger to show for it (`Run.dispatches`), and nothing is lost on the way: what was put on the timeline
was returned once, was cancelled, or waits.
-/

namespace CoEdit.Timeline

variable {M : Type}

inductive Act (M : Type) where
  | deliver (event : Event M)
  | deliverAfter (delay : Nat) (event : Event M)
  | deliverAt (due : Nat) (event : Event M)
  | schedule (task : Task)
  | scheduleAfter (delay : Nat) (task : Task)
  | cancel (id : Token)
  | advance
  | advanceTo (time : Nat)

namespace Act

/-- What is put on the timeline. -/
def event? : Act M → Option (Event M)
  | deliver event | deliverAfter _ event | deliverAt _ event => some event
  | schedule task | scheduleAfter _ task => some (.task task)
  | cancel _ | advance | advanceTo _ => none

/-- When it is asked to be due. -/
def due (now : Nat) : Act M → Nat
  | deliverAfter delay _ | scheduleAfter delay _ => now + delay
  | deliverAt due _ => due
  | _ => now

def delay? : Act M → Option Nat
  | deliverAfter delay _ | scheduleAfter delay _ => some delay
  | _ => none

/-- The end of the delay is out of range. -/
def Overruns (a : Act M) (now : Nat) (fault : Fault) : Prop :=
  fault = .timeOverflow ∧ ∃ delay, a.delay? = some delay ∧ Checked.timeLimit ≤ now + delay

end Act

/-- An act, and the event that it returned. -/
structure Turn (M : Type) where
  act : Act M
  returned : Option (Event M)

def act (t : Timeline M) : Act M → Checked (Option (Event M) × Timeline M)
  | .deliver event => .ok (none, t.deliver event)
  | .deliverAfter delay event => do return (none, ← t.deliverAfter delay event)
  | .deliverAt due event => .ok (none, t.deliverAt due event)
  | .schedule task => .ok (none, t.deliver (.task task))
  | .scheduleAfter delay task => do return (none, ← t.deliverAfter delay (.task task))
  | .cancel id => .ok (none, t.cancel id)
  | .advance =>
    match t.advance with
    | none => .ok (none, t)
    | some (event, t) => .ok (some event, t)
  | .advanceTo time => .ok (none, t.advanceTo time)

/-- No task is put on the timeline while one with its id waits there. -/
def Allows (t : Timeline M) (a : Act M) : Prop :=
  ∀ event ∈ a.event?, ∀ task ∈ event.task?, ∀ e ∈ t.entries, ∀ queued ∈ e.event.task?, queued.id ≠ task.id

instance (t : Timeline M) (a : Act M) : Decidable (t.Allows a) :=
  inferInstanceAs (Decidable (∀ event ∈ a.event?, ∀ task ∈ event.task?, ∀ e ∈ t.entries,
    ∀ queued ∈ e.event.task?, queued.id ≠ task.id))

inductive Run : List (Turn M) → Timeline M → Prop
  | new : Run [] {}
  | act {log : List (Turn M)} {t t' : Timeline M} {a : Act M} {returned : Option (Event M)}
      (h : Run log t) (ha : t.Allows a) (hact : t.act a = .ok (returned, t')) :
      Run (log ++ [⟨a, returned⟩]) t'

/-- An event that was put on a timeline, and when it was due from then on. -/
structure Note (M : Type) where
  due : Nat
  event : Event M

/-- An account of what was done with a timeline. -/
structure Ledger (M : Type) where
  now : Nat := 0
  /-- What was put on the timeline, in this order. -/
  notes : List (Note M) := []
  /-- The places of the notes whose events were returned, in this order. -/
  returned : List Nat := []
  /-- The places of the notes whose events were cancelled, in this order. -/
  cancelled : List Nat := []

namespace Ledger

/-- The event of the note at place `k` was neither returned nor cancelled. -/
def Pending (l : Ledger M) (k : Nat) (n : Note M) : Prop :=
  l.notes[k]? = some n ∧ k ∉ l.returned ∧ k ∉ l.cancelled

/-- What an act does to a ledger, and the event that it returns. -/
inductive Step (l : Ledger M) : Act M → Option (Event M) → Ledger M → Prop
  /-- Nothing is due before the clock. -/
  | put {a : Act M} {event : Event M} (h : a.event? = some event) :
    Step l a none { l with notes := l.notes ++ [⟨max (a.due l.now) l.now, event⟩] }
  /-- Of what is pending, the event is returned that is due first, and among equals was put there first. -/
  | next {k : Nat} {n : Note M} (h : l.Pending k n)
      (hfirst : ∀ j m, l.Pending j m → n.due < m.due ∨ n.due = m.due ∧ k ≤ j) :
    Step l .advance (some n.event) { l with now := max l.now n.due, returned := l.returned ++ [k] }
  | idle (h : ∀ k n, ¬ l.Pending k n) : Step l .advance none l
  /-- The one pending task with the id is struck out. -/
  | cancel {id : Token} {kind : TaskKind} {k : Nat} {n : Note M} (h : l.Pending k n)
      (hn : n.event = .task ⟨id, kind⟩)
      (hone : ∀ j m kind', l.Pending j m → m.event = .task ⟨id, kind'⟩ → j = k) :
    Step l (.cancel id) none { l with cancelled := l.cancelled ++ [k] }
  | unknown {id : Token} (h : ∀ k n kind, l.Pending k n → n.event ≠ .task ⟨id, kind⟩) :
    Step l (.cancel id) none l
  | advanceTo {time : Nat} : Step l (.advanceTo time) none { l with now := max l.now time }

/-- The ledger is kept from the first act on. -/
inductive Records : List (Turn M) → Ledger M → Prop
  | new : Records [] {}
  | step {log : List (Turn M)} {l l' : Ledger M} {a : Act M} {returned : Option (Event M)}
      (h : Records log l) (hs : l.Step a returned l') : Records (log ++ [⟨a, returned⟩]) l'

/-- What was put on the timeline and what was returned is in the ledger, each once. -/
structure Accounts (l : Ledger M) (log : List (Turn M)) : Prop where
  inserted : l.notes.map (·.event) = log.filterMap (·.act.event?)
  returned : l.returned.map (fun k => l.notes[k]?.map (·.event)) = (log.filterMap (·.returned)).map some
  known : ∀ k ∈ l.returned ++ l.cancelled, k < l.notes.length
  once : (l.returned ++ l.cancelled).Nodup

variable {l l' : Ledger M} {a : Act M} {log : List (Turn M)} {event : Option (Event M)} {k : Nat}
  {n : Note M}

theorem Step.now_le (h : l.Step a event l') : l.now ≤ l'.now := by
  cases h with
  | next => exact Nat.le_max_left ..
  | advanceTo => exact Nat.le_max_left ..
  | put | idle | cancel | unknown => exact Nat.le_refl _

theorem Pending.lt (h : l.Pending k n) : k < l.notes.length := (List.getElem?_eq_some_iff.1 h.1).1

theorem returned_perm (l : Ledger M) (k : Nat) :
    (l.returned ++ [k] ++ l.cancelled).Perm (k :: (l.returned ++ l.cancelled)) := by
  rw [List.append_assoc]
  exact List.perm_middle

theorem cancelled_perm (l : Ledger M) (k : Nat) :
    (l.returned ++ (l.cancelled ++ [k])).Perm (k :: (l.returned ++ l.cancelled)) := by
  rw [← List.append_assoc]
  exact List.perm_append_singleton ..

theorem Pending.once (hp : l.Pending k n) (hknown : ∀ k ∈ l.returned ++ l.cancelled, k < l.notes.length)
    (honce : (l.returned ++ l.cancelled).Nodup) {gone : List Nat}
    (hgone : gone.Perm (k :: (l.returned ++ l.cancelled))) :
    (∀ k ∈ gone, k < l.notes.length) ∧ gone.Nodup := by
  constructor
  · intro j hj
    rcases List.mem_cons.1 (hgone.mem_iff.1 hj) with rfl | hj
    · exact hp.lt
    · exact hknown j hj
  · rw [hgone.nodup_iff, List.nodup_cons, List.mem_append]
    exact ⟨not_or.2 hp.2, honce⟩

theorem Step.accounts (hs : l.Step a event l') (h : l.Accounts log) :
    l'.Accounts (log ++ [⟨a, event⟩]) := by
  obtain ⟨hinserted, hreturned, hknown, honce⟩ := h
  cases hs with
  | @put _ event he =>
    refine ⟨?_, ?_, fun k hk => ?_, honce⟩
    · simp [hinserted, he]
    · have hsame : (log ++ [(⟨a, none⟩ : Turn M)]).filterMap (·.returned) =
          log.filterMap (·.returned) := by simp
      rw [hsame, ← hreturned]
      refine List.map_congr_left fun k hk => ?_
      rw [List.getElem?_append_left (hknown k (List.mem_append_left _ hk))]
    · rw [List.length_append]
      exact Nat.lt_of_lt_of_le (hknown k hk) (Nat.le_add_right ..)
  | @next k n hp hfirst =>
    obtain ⟨hknown, honce⟩ := hp.once hknown honce (returned_perm l k)
    refine ⟨by simp [hinserted, Act.event?], ?_, hknown, honce⟩
    simp [hreturned, hp.1]
  | idle => exact ⟨by simp [hinserted, Act.event?], by simp [hreturned], hknown, honce⟩
  | @cancel id kind k n hp hn hone =>
    obtain ⟨hknown, honce⟩ := hp.once hknown honce (cancelled_perm l k)
    exact ⟨by simp [hinserted, Act.event?], by simp [hreturned], hknown, honce⟩
  | unknown => exact ⟨by simp [hinserted, Act.event?], by simp [hreturned], hknown, honce⟩
  | advanceTo => exact ⟨by simp [hinserted, Act.event?], by simp [hreturned], hknown, honce⟩

theorem Records.accounts (h : Records log l) : l.Accounts log := by
  induction h with
  | new => exact ⟨rfl, rfl, nofun, List.nodup_nil⟩
  | step _ hs ih => exact hs.accounts ih

end Ledger

/-! ### A timeline and its ledger -/

def Entry.note (e : Entry M) : Note M := ⟨e.slot.due, e.event⟩

/-- The slot `s` comes before `s'`. -/
def Slot.Before (s s' : Slot) : Prop := s.due < s'.due ∨ s.due = s'.due ∧ s.serial < s'.serial

theorem Slot.Before.ne {s s' : Slot} (h : s.Before s') : s ≠ s' := by
  rintro rfl
  rcases h with hlt | ⟨-, hlt⟩
  · exact Nat.lt_irrefl _ hlt
  · exact Nat.lt_irrefl _ hlt

/-- On the timeline waits what is pending in the ledger, in the order in which it is due, and the index has
the tasks among it, each under an id of its own. -/
structure Shows (t : Timeline M) (l : Ledger M) : Prop where
  now : t.now = l.now
  count : t.count = l.notes.length
  entries : ∀ e, e ∈ t.entries ↔ l.Pending e.slot.serial e.note
  sorted : t.entries.Pairwise fun e f => e.slot.Before f.slot
  indexed : ∀ id slot, (id, slot) ∈ t.tasks ↔ ∃ kind, ⟨slot, .task ⟨id, kind⟩⟩ ∈ t.entries
  distinct : ∀ id slot slot', (id, slot) ∈ t.tasks → (id, slot') ∈ t.tasks → slot = slot'

variable {t t' : Timeline M} {l l' : Ledger M} {a : Act M} {e f : Entry M} {event : Event M} {id : Token}
  {due k : Nat} {n : Note M}

theorem shows_empty : Shows ({} : Timeline M) {} :=
  ⟨rfl, rfl, fun _ => iff_of_false nofun nofun, .nil, fun _ _ => iff_of_false nofun nofun, nofun⟩

theorem Shows.mem_of_pending (h : t.Shows l) (hp : l.Pending k n) :
    (⟨⟨n.due, k⟩, n.event⟩ : Entry M) ∈ t.entries := (h.entries _).2 hp

theorem Shows.listed_of_pending {kind : TaskKind} (h : t.Shows l) (hp : l.Pending k n)
    (hn : n.event = .task ⟨id, kind⟩) : (id, ⟨n.due, k⟩) ∈ t.tasks := by
  have hmem := h.mem_of_pending hp
  rw [hn] at hmem
  exact (h.indexed id _).2 ⟨kind, hmem⟩

theorem Shows.eq_of_serial (h : t.Shows l) (he : e ∈ t.entries) (hf : f ∈ t.entries)
    (hserial : e.slot.serial = f.slot.serial) : e = f := by
  have hnote := ((h.entries e).1 he).1
  rw [hserial, ((h.entries f).1 hf).1] at hnote
  obtain ⟨⟨due, serial⟩, event⟩ := e
  cases hserial
  cases hnote
  rfl

theorem Shows.serial_lt (h : t.Shows l) (he : e ∈ t.entries) : e.slot.serial < t.count := by
  rw [h.count]
  exact ((h.entries e).1 he).lt

theorem Shows.pairwise_due (h : t.Shows l) :
    t.entries.Pairwise fun e f => e.slot.due ≤ f.slot.due := by
  refine h.sorted.imp fun hbefore => ?_
  rcases hbefore with hlt | ⟨heq, -⟩
  · exact Nat.le_of_lt hlt
  · exact Nat.le_of_eq heq

theorem Shows.place_sorted (h : t.Shows l) (he : t.count ≤ e.slot.serial) :
    (place e t.entries).Pairwise fun e f => e.slot.Before f.slot := by
  obtain ⟨before, behind, hes, hp, hbefore, hbehind⟩ := place_split (e := e) h.pairwise_due
  have hsorted := h.sorted
  rw [hes, List.pairwise_append] at hsorted
  obtain ⟨hb, hg, hcross⟩ := hsorted
  rw [hp, List.pairwise_append, List.pairwise_cons]
  refine ⟨hb, ⟨fun f hf => .inl (hbehind f hf), hg⟩, fun f hf g hg => ?_⟩
  rcases List.mem_cons.1 hg with rfl | hg
  · -- what is due at the same time was put there before
    have hserial : f.slot.serial < t.count := h.serial_lt (by rw [hes]; exact List.mem_append_left _ hf)
    rcases Nat.lt_or_eq_of_le (hbefore f hf) with hlt | heq
    · exact .inl hlt
    · exact .inr ⟨heq, Nat.lt_of_lt_of_le hserial he⟩
  · exact hcross f hf g hg

theorem Ledger.pending_append {m : Note M} (hknown : ∀ k ∈ l.returned ++ l.cancelled, k < l.notes.length) :
    Ledger.Pending { l with notes := l.notes ++ [n] } k m ↔
      k = l.notes.length ∧ m = n ∨ l.Pending k m := by
  unfold Pending
  rcases Nat.lt_trichotomy k l.notes.length with hlt | heq | hgt
  · rw [List.getElem?_append_left hlt, or_iff_right fun h => Nat.ne_of_lt hlt h.1]
  · have hnew : k ∉ l.returned ∧ k ∉ l.cancelled := by
      rw [← not_or, ← List.mem_append]
      exact fun hk => Nat.ne_of_lt (hknown k hk) heq
    subst heq
    simp [hnew, eq_comm]
  · rw [List.getElem?_eq_none (by rw [List.length_append]; exact hgt),
      List.getElem?_eq_none (Nat.le_of_lt hgt)]
    simp [Nat.ne_of_gt hgt]

theorem mem_tasks_deliverAt
    (ha : ∀ task ∈ event.task?, ∀ slot, (task.id, slot) ∉ t.tasks) (id : Token) (slot : Slot) :
    (id, slot) ∈ (t.deliverAt due event).tasks ↔
      (∃ kind, event = .task ⟨id, kind⟩) ∧ slot = ⟨max due t.now, t.count⟩ ∨ (id, slot) ∈ t.tasks := by
  cases event with
  | task task =>
    have hid : (∃ kind, Event.task task = Event.task (M := M) ⟨id, kind⟩) ↔ id = task.id := by
      constructor
      · rintro ⟨kind, heq⟩
        cases heq
        rfl
      · rintro rfl
        exact ⟨task.kind, rfl⟩
    have hold : (id, slot) ∈ forget task.id t.tasks ↔ (id, slot) ∈ t.tasks := by
      rw [mem_forget, and_iff_left_iff_imp]
      rintro hmem rfl
      exact ha task rfl slot hmem
    show (id, slot) ∈ (task.id, _) :: forget task.id t.tasks ↔ _
    rw [List.mem_cons, hold, hid, Prod.mk.injEq]
  | submitResponse => exact (or_iff_right nofun).symm
  | probeResponse => exact (or_iff_right nofun).symm
  | incoming => exact (or_iff_right nofun).symm

theorem Shows.put (h : t.Shows l) (hknown : ∀ k ∈ l.returned ++ l.cancelled, k < l.notes.length)
    (ha : ∀ task ∈ event.task?, ∀ e ∈ t.entries, ∀ queued ∈ e.event.task?, queued.id ≠ task.id) :
    (t.deliverAt due event).Shows { l with notes := l.notes ++ [⟨max due l.now, event⟩] } := by
  have hmem : ∀ e, e ∈ (t.deliverAt due event).entries ↔
      e = ⟨⟨max due t.now, t.count⟩, event⟩ ∨ e ∈ t.entries := fun e => mem_place h.pairwise_due
  have hnone : ∀ task ∈ event.task?, ∀ slot, (task.id, slot) ∉ t.tasks := by
    intro task htask slot hslot
    obtain ⟨kind, he⟩ := (h.indexed task.id slot).1 hslot
    exact ha task htask _ he ⟨task.id, kind⟩ rfl rfl
  have hindexed : ∀ id slot, (id, slot) ∈ (t.deliverAt due event).tasks ↔ _ := mem_tasks_deliverAt hnone
  refine ⟨h.now, ?_, fun e => ?_, ?_, fun id slot => ?_, fun id slot slot' hslot hslot' => ?_⟩
  · show t.count + 1 = _
    rw [h.count, List.length_append]
    rfl
  · rw [hmem, h.entries, Ledger.pending_append hknown, ← h.now, ← h.count]
    refine or_congr_left ?_
    constructor
    · rintro rfl
      exact ⟨rfl, rfl⟩
    · rintro ⟨hserial, hnote⟩
      obtain ⟨⟨due, serial⟩, event⟩ := e
      cases hserial
      cases hnote
      rfl
  · exact h.place_sorted (Nat.le_refl _)
  · rw [hindexed, h.indexed]
    simp only [hmem, Entry.mk.injEq, exists_or]
    refine or_congr_left ?_
    constructor
    · rintro ⟨⟨kind, rfl⟩, rfl⟩
      exact ⟨kind, rfl, rfl⟩
    · rintro ⟨kind, rfl, rfl⟩
      exact ⟨⟨kind, rfl⟩, rfl⟩
  · rcases (hindexed id slot).1 hslot with ⟨⟨kind, rfl⟩, rfl⟩ | hold
    · rcases (hindexed id slot').1 hslot' with ⟨-, rfl⟩ | hold'
      · rfl
      · exact absurd hold' (hnone ⟨id, kind⟩ rfl slot')
    · rcases (hindexed id slot').1 hslot' with ⟨⟨kind, rfl⟩, rfl⟩ | hold'
      · exact absurd hold (hnone ⟨id, kind⟩ rfl slot)
      · exact h.distinct id slot slot' hold hold'

theorem task?_eq_some_iff {task : Task} : event.task? = some task ↔ event = .task task := by
  cases event <;> simp [Event.task?]

/-- The index without an entry that was taken off. -/
def unlisted (t : Timeline M) (e : Entry M) : List (Token × Slot) :=
  match e.event.task? with
  | some task => forget task.id t.tasks
  | none => t.tasks

theorem Shows.mem_unlisted (h : t.Shows l) (he : e ∈ t.entries) (id : Token) (slot : Slot) :
    (id, slot) ∈ t.unlisted e ↔ (id, slot) ∈ t.tasks ∧ slot ≠ e.slot := by
  have hslot {kind : TaskKind} (hmem : (⟨slot, .task ⟨id, kind⟩⟩ : Entry M) ∈ t.entries)
      (heq : slot = e.slot) : e.event = .task ⟨id, kind⟩ := by
    rw [h.eq_of_serial he hmem (by rw [heq])]
  unfold unlisted
  cases htask : e.event.task? with
  | none =>
    rw [iff_self_and]
    intro hmem heq
    obtain ⟨kind, hmem⟩ := (h.indexed id slot).1 hmem
    rw [hslot hmem heq] at htask
    cases htask
  | some task =>
    have hevent : e.event = .task task := task?_eq_some_iff.1 htask
    have hlisted : (task.id, e.slot) ∈ t.tasks := by
      refine (h.indexed task.id e.slot).2 ⟨task.kind, ?_⟩
      rw [← hevent]
      exact he
    rw [mem_forget]
    refine and_congr_right fun hmem => not_congr ?_
    constructor
    · rintro rfl
      exact h.distinct _ _ _ hmem hlisted
    · intro heq
      obtain ⟨kind, hmem⟩ := (h.indexed id slot).1 hmem
      have hsame := hevent.symm.trans (hslot hmem heq)
      cases hsame
      rfl

theorem Shows.remove (h : t.Shows l) (he : e ∈ t.entries)
    (hentries : t'.entries = t.entries.filter (·.slot != e.slot)) (htasks : t'.tasks = t.unlisted e)
    (hcount : t'.count = t.count) (hnow : t'.now = l'.now) (hnotes : l'.notes = l.notes)
    (hgone : (l'.returned ++ l'.cancelled).Perm (e.slot.serial :: (l.returned ++ l.cancelled))) :
    t'.Shows l' := by
  have hmem : ∀ f, f ∈ t'.entries ↔ f ∈ t.entries ∧ f.slot ≠ e.slot := by
    intro f
    rw [hentries, List.mem_filter, bne_iff_ne]
  refine ⟨hnow, by rw [hcount, hnotes, h.count], fun f => ?_, ?_, fun id slot => ?_,
    fun id slot slot' hslot hslot' => ?_⟩
  · have hslot (hf : f ∈ t.entries) : f.slot ≠ e.slot ↔ f.slot.serial ≠ e.slot.serial := by
      refine not_congr ⟨congrArg _, fun hserial => ?_⟩
      rw [h.eq_of_serial hf he hserial]
    rw [hmem, and_congr_right hslot, h.entries]
    simp only [Ledger.Pending, hnotes, ← not_or, ← List.mem_append, hgone.mem_iff, List.mem_cons]
    rw [and_assoc, and_comm (b := _ ≠ _), not_or]
  · rw [hentries]
    exact h.sorted.sublist List.filter_sublist
  · rw [htasks, h.mem_unlisted he, h.indexed]
    simp only [hmem, exists_and_right]
  · rw [htasks, h.mem_unlisted he] at hslot hslot'
    exact h.distinct id slot slot' hslot.1 hslot'.1

/-- The first entry is the event that is due first, and among equals was put there first. -/
theorem Shows.first {rest : List (Entry M)} (h : t.Shows l) (hes : t.entries = e :: rest)
    (hp : l.Pending k n) :
    e.slot.due < n.due ∨ e.slot.due = n.due ∧ e.slot.serial ≤ k := by
  have hmem := h.mem_of_pending hp
  have hsorted := h.sorted
  rw [hes] at hmem hsorted
  rcases List.mem_cons.1 hmem with rfl | hmem
  · exact .inr ⟨rfl, Nat.le_refl _⟩
  · rcases (List.pairwise_cons.1 hsorted).1 _ hmem with hlt | ⟨heq, hlt⟩
    · exact .inl hlt
    · exact .inr ⟨heq, Nat.le_of_lt hlt⟩

theorem Shows.filter_slot {rest : List (Entry M)} (h : t.Shows l) (hes : t.entries = e :: rest) :
    t.entries.filter (·.slot != e.slot) = rest := by
  have hsorted := h.sorted
  rw [hes] at hsorted ⊢
  rw [List.filter_cons_of_neg (by simp), List.filter_eq_self]
  intro f hf
  rw [bne_iff_ne]
  exact ((List.pairwise_cons.1 hsorted).1 f hf).ne.symm

theorem Shows.advance {F : Fault → Prop} (h : t.Shows l) : (t.act .advance).Within F
    fun r => ∃ l', l.Step .advance r.1 l' ∧ r.2.Shows l' := by
  unfold Timeline.act Timeline.advance
  cases hes : t.entries with
  | nil =>
    refine ⟨l, .idle fun k n hp => ?_, h⟩
    have hmem := h.mem_of_pending hp
    rw [hes] at hmem
    cases hmem
  | cons e rest =>
    have he : e ∈ t.entries := by
      rw [hes]
      exact List.mem_cons_self
    refine ⟨_, .next ((h.entries e).1 he) fun j m hm => h.first hes hm, ?_⟩
    exact h.remove he (h.filter_slot hes).symm rfl rfl (congrArg (max · e.slot.due) h.now) rfl
      (l.returned_perm _)

theorem Shows.cancel (h : t.Shows l) :
    ∃ l', l.Step (.cancel id) none l' ∧ (t.cancel id).Shows l' := by
  unfold Timeline.cancel
  cases hl : t.tasks.lookup id with
  | none =>
    refine ⟨l, .unknown fun k n kind hp hn => ?_, h⟩
    have hne := List.lookup_eq_none_iff.1 hl _ (h.listed_of_pending hp hn)
    simp at hne
  | some slot =>
    obtain ⟨l₁, l₂, htasks, -⟩ := List.lookup_eq_some_iff.1 hl
    have hlisted : (id, slot) ∈ t.tasks := by simp [htasks]
    obtain ⟨kind, he⟩ := (h.indexed id slot).1 hlisted
    refine ⟨_, .cancel ((h.entries _).1 he) rfl fun j m kind' hm hn => ?_, ?_⟩
    · rw [h.distinct id _ _ hlisted (h.listed_of_pending hm hn)]
    · exact h.remove he rfl rfl rfl h.now rfl (l.cancelled_perm _)

theorem deliverAfter_within {delay : Nat} : (t.deliverAfter delay event).Within
    (fun fault => fault = .timeOverflow ∧ Checked.timeLimit ≤ t.now + delay)
    fun t' => t' = t.deliverAt (t.now + delay) event := by
  unfold deliverAfter Checked.addTime
  split
  · exact rfl
  · exact ⟨rfl, Nat.not_lt.1 ‹_›⟩

theorem act_of_event (he : a.event? = some event) : (t.act a).Within (a.Overruns t.now)
    fun r => r = (none, t.deliverAt (a.due t.now) event) := by
  have hafter (delay : Nat) (hdelay : a.delay? = some delay) (hdue : a.due t.now = t.now + delay)
      (hact : t.act a = do return (none, ← t.deliverAfter delay event)) :
      (t.act a).Within (a.Overruns t.now) fun r => r = (none, t.deliverAt (a.due t.now) event) := by
    rw [hact, hdue]
    refine (deliverAfter_within.weaken fun fault hf => ⟨hf.1, delay, hdelay, hf.2⟩).bind fun t' ht' => ?_
    rw [ht']
    exact rfl
  cases a with
  | deliver | deliverAt | schedule =>
    cases he
    exact rfl
  | deliverAfter delay | scheduleAfter delay =>
    cases he
    exact hafter delay rfl rfl rfl
  | cancel | advance | advanceTo => cases he

/-- What an act does to a timeline is entered into its ledger. -/
theorem Shows.act_within (h : t.Shows l) (hknown : ∀ k ∈ l.returned ++ l.cancelled, k < l.notes.length)
    (ha : t.Allows a) : (t.act a).Within (a.Overruns t.now) fun r =>
      ∃ l', l.Step a r.1 l' ∧ r.2.Shows l' := by
  cases he : a.event? with
  | some event =>
    refine (act_of_event he).mono fun r hr => ?_
    have hdue : a.due t.now = a.due l.now := by rw [h.now]
    rw [hr, hdue]
    exact ⟨_, .put he, h.put hknown (ha event he)⟩
  | none =>
    cases a with
    | cancel id => exact h.cancel
    | advance => exact h.advance
    | advanceTo time =>
      exact ⟨_, .advanceTo, congrArg (max · time) h.now, h.count, h.entries, h.sorted, h.indexed, h.distinct⟩
    | _ => cases he

theorem Run.exists_ledger {log : List (Turn M)} (h : Run log t) :
    ∃ l : Ledger M, l.Records log ∧ t.Shows l := by
  induction h with
  | new => exact ⟨{}, .new, shows_empty⟩
  | act _ ha hact ih =>
    obtain ⟨l, hl, ht⟩ := ih
    obtain ⟨l', hs, ht'⟩ := (ht.act_within hl.accounts.known ha).of_ok hact
    exact ⟨l', hl.step hs, ht'⟩

/-- What was put on a timeline was returned, was cancelled, or waits. -/
theorem Shows.accounted (h : t.Shows l) {log : List (Turn M)} (hl : l.Accounts log) :
    (l.returned ++ l.cancelled ++ t.entries.map (·.slot.serial)).Perm (List.range l.notes.length) := by
  have hentries : t.entries.Nodup := h.sorted.imp fun hbefore heq => hbefore.ne (congrArg _ heq)
  have hserials : (t.entries.map (·.slot.serial)).Nodup :=
    hentries.map_on fun e he f hf => h.eq_of_serial he hf
  have hnodup : (l.returned ++ l.cancelled ++ t.entries.map (·.slot.serial)).Nodup := by
    refine List.nodup_append'.2 ⟨hl.once, hserials, fun k hk hserial => ?_⟩
    obtain ⟨e, he, rfl⟩ := List.mem_map.1 hserial
    obtain ⟨-, hr, hc⟩ := (h.entries e).1 he
    rcases List.mem_append.1 hk with hk | hk
    · exact hr hk
    · exact hc hk
  refine (List.perm_ext_iff_of_nodup hnodup List.nodup_range).2 fun k => ?_
  rw [List.mem_range, List.mem_append]
  constructor
  · rintro (hk | hk)
    · exact hl.known k hk
    · obtain ⟨e, he, rfl⟩ := List.mem_map.1 hk
      exact ((h.entries e).1 he).lt
  · intro hk
    by_cases hgone : k ∈ l.returned ++ l.cancelled
    · exact .inl hgone
    · have hp : l.Pending k l.notes[k] := by
        rw [List.mem_append, not_or] at hgone
        exact ⟨List.getElem?_eq_getElem hk, hgone⟩
      exact .inr (List.mem_map_of_mem (h.mem_of_pending hp))

/-- Whatever is done with a timeline, there is a ledger to show for it, and it goes on with every act.
Nothing but a delay that ends out of range keeps an act from being carried out. -/
theorem Run.dispatches {log : List (Turn M)} (h : Run log t) :
    ∃ l : Ledger M, l.Records log ∧ t.Shows l ∧
      l.notes.map (·.event) = log.filterMap (·.act.event?) ∧
      l.returned.map (fun k => l.notes[k]?.map (·.event)) = (log.filterMap (·.returned)).map some ∧
      (l.returned ++ l.cancelled ++ t.entries.map (·.slot.serial)).Perm (List.range l.notes.length) ∧
      ∀ a, t.Allows a → (t.act a).Within (a.Overruns t.now) fun r =>
        t.now ≤ r.2.now ∧ ∃ l', l.Step a r.1 l' ∧ r.2.Shows l' := by
  obtain ⟨l, hl, ht⟩ := h.exists_ledger
  have haccounts := hl.accounts
  refine ⟨l, hl, ht, haccounts.inserted, haccounts.returned, ht.accounted haccounts, fun a ha => ?_⟩
  refine (ht.act_within haccounts.known ha).mono fun r hr => ?_
  obtain ⟨l', hs, ht'⟩ := hr
  exact ⟨by rw [ht.now, ht'.now]; exact hs.now_le, l', hs, ht'⟩

/-- A task that is overdue is returned before one that was asked to be due earlier but was put on the
timeline only then, under the id of a task that is gone. The latter waits to be cancelled. -/
theorem Run.dispatches_overdue : ∃ (log : List (Turn Unit)) (t : Timeline Unit) (l : Ledger Unit),
    Run log t ∧ t.now = 60 ∧
    log.filterMap (·.returned) = [.task ⟨⟨2⟩, .maybeSend⟩, .task ⟨⟨1⟩, .resync⟩] ∧
    l.Records log ∧ t.Shows l ∧ (l.returned ++ l.cancelled ++ [2]).Perm (List.range 3) ∧
    (t.act (.cancel ⟨2⟩)).Within (fun _ => False) fun r =>
      r.2.entries = [] ∧ ∃ l', l.Step (.cancel ⟨2⟩) none l' ∧ r.2.Shows l' := by
  have h₀ : Run ([] : List (Turn Unit)) {} := .new
  have h₁ := h₀.act (a := .scheduleAfter 50 ⟨⟨1⟩, .resync⟩) (by decide) rfl
  have h₂ := h₁.act (a := .schedule ⟨⟨2⟩, .maybeSend⟩) (by decide) rfl
  have h₃ := h₂.act (a := .advance) (by decide) rfl
  have h₄ := h₃.act (a := .advanceTo 60) (by decide) rfl
  have h₅ := h₄.act (a := .deliverAt 10 (.task ⟨⟨2⟩, .resync⟩)) (by decide) rfl
  have h₆ := h₅.act (a := .advance) (by decide) rfl
  obtain ⟨l, hl, ht, hinserted, -, hall, hacts⟩ := h₆.dispatches
  have hlen : l.notes.length = 3 := by
    rw [← List.length_map (f := (·.event)), hinserted]
    rfl
  rw [hlen] at hall
  obtain ⟨-, l', hs, ht'⟩ := (hacts (.cancel ⟨2⟩) (by decide)).of_ok rfl
  exact ⟨_, _, l, h₆, rfl, rfl, hl, ht, hall, rfl, l', hs, ht'⟩

end CoEdit.Timeline
