import CoEdit.Timeline
import Mathlib.Data.List.Basic

/-!
# What waits on a timeline

`t.Sound`: the entries of a timeline stand in the order in which they are due, every entry has a
serial number of its own, and the index of tasks points to entries of the task it names.
`t.Carries last ds`: the deliveries that wait on `t` are `ds`, in this order, and none is due later
than `last` or the clock.

Events are put on a timeline (`deliverAt`), taken off at any place (`pick`, of which `advance` is the
first), cancelled (`cancel`), and the clock moves (`advanceTo`). Each of them keeps `Sound`, and each
is described by what it does to the events that wait (`mail`) and to the deliveries among them. A
delivery that is due no earlier than the ones before it is put behind them, whatever else waits.
-/

namespace CoEdit

variable {M : Type}

/-- The connection and the content of a delivery. -/
def Event.delivery? : Event M → Option (Token × Except ServiceError (Delivery M))
  | incoming connection message => some (connection, message)
  | _ => none

namespace Timeline

def mail (t : Timeline M) : List (Event M) := t.entries.map (·.event)

def deliveries (t : Timeline M) : List (Token × Except ServiceError (Delivery M)) :=
  t.mail.filterMap Event.delivery?

/-- Takes the event at place `k` off a timeline and moves the clock to when it was due. -/
def pick (t : Timeline M) (k : Nat) : Option (Event M × Timeline M) :=
  match t.entries[k]? with
  | none => none
  | some e => some (e.event, { t with
      now := max t.now e.slot.due
      entries := t.entries.eraseIdx k
      tasks := match e.event.task? with
        | some task => forget task.id t.tasks
        | none => t.tasks })

theorem advance_eq_pick (t : Timeline M) : t.advance = t.pick 0 := by
  unfold advance pick
  cases t.entries <;> rfl

/-- No delivery waits before place `k`, if a delivery waits there. -/
def Ready (t : Timeline M) (k : Nat) : Prop :=
  ∀ e ∈ t.mail[k]?, e.delivery?.isSome → ∀ f ∈ t.mail.take k, f.delivery? = none

instance (t : Timeline M) (k : Nat) : Decidable (t.Ready k) :=
  inferInstanceAs (Decidable (∀ e ∈ t.mail[k]?, e.delivery?.isSome →
    ∀ f ∈ t.mail.take k, f.delivery? = none))

theorem ready_zero (t : Timeline M) : t.Ready 0 := fun _ _ _ _ hf => by
  rw [List.take_zero] at hf; cases hf

structure Sound (t : Timeline M) : Prop where
  sorted : t.entries.Pairwise fun e f => e.slot.due ≤ f.slot.due
  serial : ∀ e ∈ t.entries, e.slot.serial < t.count
  indexed : ∀ id slot, (id, slot) ∈ t.tasks → slot.serial < t.count ∧
    ∀ e ∈ t.entries, e.slot = slot → ∃ kind, e.event = .task ⟨id, kind⟩

variable {t t' : Timeline M} {e : Entry M} {es : List (Entry M)} {ev x : Event M} {id : Token}
  {due k last : Nat}

theorem sound_empty : Sound ({} : Timeline M) :=
  ⟨.nil, (fun _ h => nomatch h), fun _ _ h => nomatch h⟩

/-- An entry stands behind everything due no later and before everything due later. -/
theorem place_split (h : es.Pairwise fun e f => e.slot.due ≤ f.slot.due) :
    ∃ before behind, es = before ++ behind ∧ place e es = before ++ e :: behind ∧
      (∀ f ∈ before, f.slot.due ≤ e.slot.due) ∧ ∀ f ∈ behind, e.slot.due < f.slot.due := by
  induction es with
  | nil => exact ⟨[], [], rfl, rfl, nofun, nofun⟩
  | cons f es ih =>
    obtain ⟨hf, hes⟩ := List.pairwise_cons.1 h
    by_cases he : e.slot.due < f.slot.due
    · refine ⟨[], f :: es, rfl, by simp [place, he], nofun, fun g hg => ?_⟩
      rcases List.mem_cons.1 hg with rfl | hg
      · exact he
      · exact Nat.lt_of_lt_of_le he (hf g hg)
    · obtain ⟨before, behind, rfl, hp, h₁, h₂⟩ := ih hes
      refine ⟨f :: before, behind, rfl, by simp [place, he, hp], fun g hg => ?_, h₂⟩
      rcases List.mem_cons.1 hg with rfl | hg
      · exact Nat.le_of_not_lt he
      · exact h₁ g hg

theorem mem_place {e e' : Entry M} (h : es.Pairwise fun e f => e.slot.due ≤ f.slot.due) :
    e' ∈ place e es ↔ e' = e ∨ e' ∈ es := by
  obtain ⟨before, behind, hes, hp, -, -⟩ := place_split (e := e) h
  rw [hp, hes]; simp only [List.mem_append, List.mem_cons, or_left_comm]

theorem place_sorted {e : Entry M} (h : es.Pairwise fun e f => e.slot.due ≤ f.slot.due) :
    (place e es).Pairwise fun e f => e.slot.due ≤ f.slot.due := by
  obtain ⟨before, behind, rfl, hp, hb, hg⟩ := place_split (e := e) h
  rw [List.pairwise_append] at h
  rw [hp, List.pairwise_append, List.pairwise_cons]
  refine ⟨h.1, ⟨fun f hf => Nat.le_of_lt (hg f hf), h.2.1⟩, fun g hg' f hf => ?_⟩
  rcases List.mem_cons.1 hf with rfl | hf
  · exact hb g hg'
  · exact h.2.2 g hg' f hf

theorem mem_forget {tasks : List (Token × Slot)} {id' : Token} {slot : Slot} :
    (id', slot) ∈ forget id tasks ↔ (id', slot) ∈ tasks ∧ id' ≠ id := by
  simp [forget, List.mem_filter]

theorem mail_deliverAt (due : Nat) (x : Event M) (h : t.Sound) : ∃ before behind,
    t.mail = before ++ behind ∧ (t.deliverAt due x).mail = before ++ x :: behind := by
  obtain ⟨before, behind, hes, hp, -, -⟩ :=
    place_split (e := ⟨⟨max due t.now, t.count⟩, x⟩) h.sorted
  refine ⟨before.map (·.event), behind.map (·.event), ?_, ?_⟩
  · rw [mail, hes, List.map_append]
  · show (place _ t.entries).map (·.event) = _
    rw [hp, List.map_append, List.map_cons]

theorem mem_mail_deliverAt (h : t.Sound) :
    ev ∈ (t.deliverAt due x).mail ↔ ev = x ∨ ev ∈ t.mail := by
  obtain ⟨before, behind, h₁, h₂⟩ := mail_deliverAt due x h
  rw [h₁, h₂]; simp only [List.mem_append, List.mem_cons, or_left_comm]

theorem deliveries_deliverAt (h : t.Sound) (hx : x.delivery? = none) :
    (t.deliverAt due x).deliveries = t.deliveries := by
  obtain ⟨before, behind, h₁, h₂⟩ := mail_deliverAt due x h
  simp [deliveries, h₁, h₂, List.filterMap_append, hx]

theorem Sound.deliverAt (h : t.Sound) : (t.deliverAt due x).Sound := by
  have hmem : ∀ e, e ∈ (t.deliverAt due x).entries ↔
      e = ⟨⟨max due t.now, t.count⟩, x⟩ ∨ e ∈ t.entries := fun e => mem_place h.sorted
  refine ⟨place_sorted h.sorted, fun e he => ?_, fun id slot hi => ?_⟩
  · show e.slot.serial < t.count + 1
    rcases (hmem e).1 he with rfl | he
    · exact Nat.lt_succ_self _
    · exact Nat.lt_succ_of_lt (h.serial e he)
  · -- a place that was indexed before is not the new one: its serial number is smaller
    have hold : (id, slot) ∈ t.tasks → slot.serial < t.count + 1 ∧
        ∀ e ∈ (t.deliverAt due x).entries, e.slot = slot → ∃ kind, e.event = .task ⟨id, kind⟩ := by
      intro hi
      obtain ⟨hs, he⟩ := h.indexed id slot hi
      refine ⟨Nat.lt_succ_of_lt hs, fun e hmem' hslot => ?_⟩
      rcases (hmem e).1 hmem' with rfl | hmem'
      · rw [← hslot] at hs; exact absurd hs (Nat.lt_irrefl _)
      · exact he e hmem' hslot
    cases x with
    | task task =>
      rcases List.mem_cons.1 hi with hi | hi
      · cases hi
        refine ⟨Nat.lt_succ_self _, fun e he hslot => ?_⟩
        rcases (hmem e).1 he with rfl | he
        · exact ⟨task.kind, rfl⟩
        · have := h.serial e he
          rw [hslot] at this; exact absurd this (Nat.lt_irrefl _)
      · exact hold (mem_forget.1 hi).1
    | submitResponse token result => exact hold hi
    | probeResponse token result => exact hold hi
    | incoming connection message => exact hold hi

theorem pick_eq_some_iff : t.pick k = some (ev, t') ↔ ∃ e, t.entries[k]? = some e ∧ e.event = ev ∧
    t' = { t with
      now := max t.now e.slot.due
      entries := t.entries.eraseIdx k
      tasks := match e.event.task? with
        | some task => forget task.id t.tasks
        | none => t.tasks } := by
  unfold pick
  cases t.entries[k]? with
  | none => simp
  | some e => simp [eq_comm]

theorem mail_pick (h : t.pick k = some (ev, t')) : t.mail[k]? = some ev ∧
    ∃ behind, t.mail = t.mail.take k ++ ev :: behind ∧ t'.mail = t.mail.take k ++ behind := by
  obtain ⟨e, he, rfl, rfl⟩ := pick_eq_some_iff.1 h
  obtain ⟨hlt, rfl⟩ := List.getElem?_eq_some_iff.1 he
  refine ⟨by simp [mail, he], (t.entries.drop (k + 1)).map (·.event), ?_, ?_⟩
  · rw [mail, ← List.map_take, ← List.map_cons, ← List.map_append, ← List.drop_eq_getElem_cons hlt,
      List.take_append_drop]
  · rw [mail, mail, ← List.map_take, ← List.map_append, List.eraseIdx_eq_take_drop_succ]

theorem Sound.pick (h : t.Sound) (hk : t.pick k = some (ev, t')) : t'.Sound := by
  obtain ⟨e, -, rfl, rfl⟩ := pick_eq_some_iff.1 hk
  have hsub : (t.entries.eraseIdx k).Sublist t.entries := List.eraseIdx_sublist ..
  refine ⟨h.sorted.sublist hsub, fun f hf => h.serial f (hsub.subset hf), fun id slot hi => ?_⟩
  have hi' : (id, slot) ∈ t.tasks := by
    dsimp only at hi
    split at hi
    · exact (mem_forget.1 hi).1
    · exact hi
  obtain ⟨hs, he⟩ := h.indexed id slot hi'
  exact ⟨hs, fun f hf => he f (hsub.subset hf)⟩

theorem Sound.cancel_entries (h : t.Sound) (id : Token) : ∃ keep : Entry M → Bool,
    (t.cancel id).entries = t.entries.filter keep ∧
    ∀ e ∈ t.entries, keep e = false → ∃ kind, e.event = .task ⟨id, kind⟩ := by
  unfold Timeline.cancel; split
  · exact ⟨fun _ => true, by simp, fun e _ he => nomatch he⟩
  · rename_i slot hl
    refine ⟨_, rfl, fun e he hk => (h.indexed id slot ?_).2 e he (by simpa using hk)⟩
    obtain ⟨l₁, l₂, htasks, -⟩ := List.lookup_eq_some_iff.1 hl
    rw [htasks]; simp

theorem Sound.cancel (h : t.Sound) : (t.cancel id).Sound := by
  unfold Timeline.cancel; split
  · exact h
  · rename_i slot _
    have hsub : (t.entries.filter (·.slot != slot)).Sublist t.entries := List.filter_sublist
    refine ⟨h.sorted.sublist hsub, fun f hf => h.serial f (hsub.subset hf), fun id' slot' hi => ?_⟩
    obtain ⟨hs, hi⟩ := h.indexed id' slot' (mem_forget.1 hi).1
    exact ⟨hs, fun f hf => hi f (hsub.subset hf)⟩

theorem Sound.mem_mail_of_cancel (h : t.Sound) (hev : ev ∈ (t.cancel id).mail) : ev ∈ t.mail := by
  obtain ⟨keep, hes, -⟩ := h.cancel_entries id
  rw [mail, hes] at hev
  obtain ⟨e, he, rfl⟩ := List.mem_map.1 hev
  exact List.mem_map_of_mem (List.mem_filter.1 he).1

theorem Sound.mem_mail_cancel (h : t.Sound) (hev : ev ∈ t.mail)
    (hne : ∀ kind, ev ≠ .task ⟨id, kind⟩) : ev ∈ (t.cancel id).mail := by
  obtain ⟨keep, hes, hk⟩ := h.cancel_entries id
  obtain ⟨e, he, rfl⟩ := List.mem_map.1 hev
  rw [mail, hes]
  refine List.mem_map_of_mem (List.mem_filter.2 ⟨he, ?_⟩)
  cases hkeep : keep e with
  | true => rfl
  | false =>
    obtain ⟨kind, hkind⟩ := hk e he hkeep
    exact absurd hkind (hne kind)

theorem Sound.advanceTo (h : t.Sound) {time : Nat} : (t.advanceTo time).Sound :=
  ⟨h.sorted, h.serial, h.indexed⟩

/-! ### The deliveries -/

/-- What waits of deliveries is `ds`, none of it due later than `last` or the clock. -/
structure Carries (last : Nat) (ds : List (Token × Except ServiceError (Delivery M)))
    (t : Timeline M) : Prop where
  sound : t.Sound
  deliveries : t.deliveries = ds
  due : ∀ e ∈ t.entries, e.event.delivery?.isSome → e.slot.due ≤ max last t.now

namespace Carries

variable {ds : List (Token × Except ServiceError (Delivery M))}
  {y : Token × Except ServiceError (Delivery M)}

theorem deliverAt (h : t.Carries last ds) (hx : x.delivery? = none) :
    (t.deliverAt due x).Carries last ds := by
  refine ⟨h.sound.deliverAt, by rw [deliveries_deliverAt h.sound hx, h.deliveries], fun e he hd => ?_⟩
  rcases (mem_place h.sound.sorted).1 he with rfl | he
  · simp [hx] at hd
  · exact h.due e he hd

theorem deliver (h : t.Carries last ds) (hx : x.delivery? = some y) (hdue : last ≤ due) :
    (t.deliverAt due x).Carries due (ds ++ [y]) := by
  obtain ⟨before, behind, hes, hp, -, hg⟩ :=
    place_split (e := ⟨⟨max due t.now, t.count⟩, x⟩) h.sound.sorted
  have hbehind : behind.filterMap (·.event.delivery?) = [] := by
    refine List.filterMap_eq_nil_iff.2 fun f hf => ?_
    cases hd : f.event.delivery? with
    | none => rfl
    | some z =>
      have h₁ := h.due f (by simp [hes, hf]) (by simp [hd])
      have h₂ : max due t.now < f.slot.due := hg f hf
      omega
  refine ⟨h.sound.deliverAt, ?_, fun e he hd => ?_⟩
  · have hds := h.deliveries
    simp only [Timeline.deliveries, mail, List.filterMap_map, Function.comp_def] at hds ⊢
    show (place _ t.entries).filterMap _ = _
    rw [hp, ← hds, hes, List.filterMap_append, List.filterMap_append, List.filterMap_cons, hbehind]
    simp [hx]
  · show e.slot.due ≤ max due t.now
    rcases (mem_place h.sound.sorted).1 he with rfl | he
    · exact Nat.le_refl _
    · have := h.due e he hd
      omega

private theorem due_pick (h : t.Carries last ds) (hk : t.pick k = some (ev, t')) :
    ∀ e ∈ t'.entries, e.event.delivery?.isSome → e.slot.due ≤ max last t'.now := by
  intro e he hd
  obtain ⟨e', -, -, rfl⟩ := pick_eq_some_iff.1 hk
  have := h.due e (List.mem_of_mem_eraseIdx he) hd
  dsimp only; omega

theorem pick (h : t.Carries last ds) (hk : t.pick k = some (ev, t')) (hev : ev.delivery? = none) :
    t'.Carries last ds := by
  obtain ⟨-, behind, hm, hm'⟩ := mail_pick hk
  refine ⟨h.sound.pick hk, ?_, h.due_pick hk⟩
  rw [← h.deliveries, Timeline.deliveries, Timeline.deliveries, hm', hm, List.filterMap_append,
    List.filterMap_append, List.filterMap_cons, hev]
  simp [← hm]

/-- The delivery that is taken off is the first one that waits. -/
theorem pick_delivery (h : t.Carries last ds) (hr : t.Ready k) (hk : t.pick k = some (ev, t'))
    (hev : ev.delivery? = some y) : ∃ ds', ds = y :: ds' ∧ t'.Carries last ds' := by
  obtain ⟨hget, behind, hm, hm'⟩ := mail_pick hk
  have hfront : (t.mail.take k).filterMap Event.delivery? = [] :=
    List.filterMap_eq_nil_iff.2 (hr _ hget (by simp [hev]))
  refine ⟨t'.deliveries, ?_, h.sound.pick hk, rfl, h.due_pick hk⟩
  rw [← h.deliveries, Timeline.deliveries, Timeline.deliveries, hm', hm, List.filterMap_append,
    List.filterMap_append, List.filterMap_cons, hev]
  simp [← hm, hfront]

theorem cancel (h : t.Carries last ds) : (t.cancel id).Carries last ds := by
  obtain ⟨keep, hes, hk⟩ := h.sound.cancel_entries id
  have hnow : (t.cancel id).now = t.now := by unfold Timeline.cancel; split <;> rfl
  refine ⟨h.sound.cancel, ?_, fun e he hd => ?_⟩
  · rw [← h.deliveries]
    simp only [Timeline.deliveries, mail, hes, List.filterMap_map, List.filterMap_filter]
    refine List.filterMap_congr fun e he => ?_
    cases hkeep : keep e with
    | true => rfl
    | false =>
      obtain ⟨kind, hkind⟩ := hk e he hkeep
      simp [hkind, Event.delivery?]
  · rw [hes] at he
    exact hnow ▸ h.due e (List.mem_filter.1 he).1 hd

theorem advanceTo (h : t.Carries last ds) {time : Nat} : (t.advanceTo time).Carries last ds := by
  refine ⟨h.sound.advanceTo, h.deliveries, fun e he hd => ?_⟩
  have := h.due e he hd
  show e.slot.due ≤ max last (max t.now time)
  omega

end Carries

end Timeline

end CoEdit
