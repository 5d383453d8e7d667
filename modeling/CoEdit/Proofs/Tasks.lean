import CoEdit.Agenda
import CoEdit.Proofs.Mail
import CoEdit.Proofs.Moves

/-!
# Effects on a timeline

`Agenda.Leads`: what carrying out an effect does to the timeline. A task is put on it or cancelled, and
every other effect leaves it as it is.

`t.Holds k`: of tasks, the timeline `t` holds `k` and nothing else, so that cancelling the id of `k`
takes it off. `Tends k es k'`: the effects `es` schedule a task only while none waits and cancel only the
task that does, and `k'` waits after them if `k` did before. An agenda that carries them out keeps to
this (`performAll_yields`).
-/

namespace CoEdit

namespace Agenda

variable {M R : Type} [RandomSource R]

/-- What carrying out an effect does to a timeline. -/
def Leads (t : Timeline M) (effect : Effect M) (t' : Timeline M) : Prop :=
  match effect with
  | .schedule task | .scheduleAfterDelay task => ∃ due, t' = t.deliverAt due (.task task)
  | .cancel id => t' = t.cancel id
  | _ => t' = t

theorem perform_yields {a : Agenda M R} {effect : Effect M} :
    (a.perform effect).Yields fun r => Leads a.timeline effect r.2.timeline := by
  have hnext : a.backoff.next.Yields fun _ => True := by
    unfold Backoff.next; dsimp only
    split
    · split <;> trivial
    · trivial
  unfold perform
  split
  · exact ⟨_, rfl⟩
  · refine hnext.bind fun r _ => ?_
    unfold Timeline.deliverAfter
    rw [Checked.yields_bind, Checked.yields_bind]
    exact Checked.yields_addTime.mono fun due _ => ⟨due, rfl⟩
  · rfl
  · rfl
  · rename_i h₁ h₂ h₃ h₄
    cases effect with
    | schedule task => exact absurd rfl (h₁ task)
    | scheduleAfterDelay task => exact absurd rfl (h₂ task)
    | cancel id => exact absurd rfl (h₃ id)
    | _ => rfl

omit [RandomSource R]

variable {t t' : Timeline M} {effect : Effect M} {ev : Event M}

/-- A minor effect puts at most the task that it asks for on the timeline. -/
theorem Leads.of_mem_mail (h : Leads t effect t') (hs : t.Sound) (hev : ev ∈ t'.mail) :
    ev ∈ t.mail ∨ ∃ task, ev = .task task ∧ effect.ticket? = some (.task task) := by
  unfold Leads at h
  split at h
  · obtain ⟨due, rfl⟩ := h
    rcases (Timeline.mem_mail_deliverAt hs).1 hev with rfl | hev
    · exact .inr ⟨_, rfl, rfl⟩
    · exact .inl hev
  · obtain ⟨due, rfl⟩ := h
    rcases (Timeline.mem_mail_deliverAt hs).1 hev with rfl | hev
    · exact .inr ⟨_, rfl, rfl⟩
    · exact .inl hev
  · subst h; exact .inl (hs.mem_mail_of_cancel hev)
  · subst h; exact .inl hev

theorem Leads.mem_mail (h : Leads t effect t') (hs : t.Sound) (hev : ev ∈ t.mail)
    (hne : ∀ id kind, effect = .cancel id → ev ≠ .task ⟨id, kind⟩) : ev ∈ t'.mail := by
  unfold Leads at h
  split at h
  · obtain ⟨due, rfl⟩ := h
    exact (Timeline.mem_mail_deliverAt hs).2 (.inr hev)
  · obtain ⟨due, rfl⟩ := h
    exact (Timeline.mem_mail_deliverAt hs).2 (.inr hev)
  · subst h; exact hs.mem_mail_cancel hev fun kind => hne _ kind rfl
  · subst h; exact hev

theorem Leads.carries {last : Nat} {ds : List (Token × Except ServiceError (Delivery M))}
    (h : Leads t effect t') (ht : t.Carries last ds) : t'.Carries last ds := by
  unfold Leads at h
  split at h
  · obtain ⟨due, rfl⟩ := h; exact ht.deliverAt rfl
  · obtain ⟨due, rfl⟩ := h; exact ht.deliverAt rfl
  · subst h; exact ht.cancel
  · subst h; exact ht

theorem Leads.task_mem_mail {task : Task} (h : Leads t effect t') (hs : t.Sound)
    (he : effect.ticket? = some (.task task)) : .task task ∈ t'.mail := by
  cases effect with
  | schedule task =>
    cases he
    obtain ⟨due, rfl⟩ := h
    exact (Timeline.mem_mail_deliverAt hs).2 (.inl rfl)
  | scheduleAfterDelay task =>
    cases he
    obtain ⟨due, rfl⟩ := h
    exact (Timeline.mem_mail_deliverAt hs).2 (.inl rfl)
  | _ => cases he

end Agenda

variable {M : Type}

/-- The effect concerns a task. -/
def Effect.OnTask : Effect M → Prop
  | .schedule _ | .scheduleAfterDelay _ | .cancel _ => True
  | _ => False

/-- Effects after which `k'` is the task that waits, if it was `k` before. -/
inductive Tends : Option Task → List (Effect M) → Option Task → Prop
  | nil {k} : Tends k [] k
  | schedule {task es k} (h : Tends (some task) es k) : Tends none (.schedule task :: es) k
  | delay {task es k} (h : Tends (some task) es k) : Tends none (.scheduleAfterDelay task :: es) k
  | cancel {id kind es k} (h : Tends none es k) : Tends (some ⟨id, kind⟩) (.cancel id :: es) k
  | other {e es k k'} (he : ¬ e.OnTask) (h : Tends k es k') : Tends k (e :: es) k'

section
variable {k k' k'' : Option Task} {es es' : List (Effect M)}

theorem Tends.append (h : Tends k es k') (h' : Tends k' es' k'') : Tends k (es ++ es') k'' := by
  induction h with
  | nil => exact h'
  | schedule _ ih => exact .schedule (ih h')
  | delay _ ih => exact .delay (ih h')
  | cancel _ ih => exact .cancel (ih h')
  | other he _ ih => exact .other he (ih h')

theorem Tends.of_others (h : ∀ e ∈ es, ¬ e.OnTask) : Tends k es k := by
  induction es with
  | nil => exact .nil
  | cons e es ih => exact .other (h e (.head _)) (ih fun e he => h e (.tail _ he))

end

namespace Timeline

variable {t t' : Timeline M} {k : Option Task} {task : Task} {ev : Event M} {due : Nat}

/-- The tasks that wait on a timeline, in the order in which they are due. -/
def waiting (t : Timeline M) : List Task := t.mail.filterMap Event.task?

/-- `k` is the only task that waits, and is found under its id. -/
structure Holds (k : Option Task) (t : Timeline M) : Prop where
  sound : t.Sound
  waiting : t.waiting = k.toList
  found : ∀ task ∈ k, ∃ e ∈ t.entries, e.event = .task task ∧ t.tasks.lookup task.id = some e.slot

theorem waiting_eq (t : Timeline M) : t.waiting = t.entries.filterMap (·.event.task?) := by
  rw [waiting, mail, List.filterMap_map]; rfl

theorem holds_empty : Holds none ({} : Timeline M) := ⟨sound_empty, rfl, nofun⟩

namespace Holds

theorem deliverAt_other (h : t.Holds k) (hev : ev.task? = none) : (t.deliverAt due ev).Holds k := by
  refine ⟨h.sound.deliverAt, ?_, fun task hk => ?_⟩
  · obtain ⟨before, behind, h₁, h₂⟩ := mail_deliverAt due ev h.sound
    rw [← h.waiting, Timeline.waiting, Timeline.waiting, h₁, h₂]
    simp [List.filterMap_append, hev]
  · obtain ⟨e, he, htask, hlookup⟩ := h.found task hk
    refine ⟨e, (mem_place h.sound.sorted).2 (.inr he), htask, ?_⟩
    unfold Timeline.deliverAt
    rw [hev]
    exact hlookup

theorem deliverAt_task (h : t.Holds none) : (t.deliverAt due (.task task)).Holds (some task) := by
  refine ⟨h.sound.deliverAt, ?_, fun task' hk => ?_⟩
  · obtain ⟨before, behind, h₁, h₂⟩ := mail_deliverAt due (.task task) h.sound
    have hnil := h.waiting
    rw [Timeline.waiting, h₁, List.filterMap_append] at hnil
    obtain ⟨hbefore, hbehind⟩ := List.append_eq_nil_iff.1 hnil
    rw [Timeline.waiting, h₂, List.filterMap_append, hbefore, List.filterMap_cons, hbehind]
    rfl
  · cases hk
    refine ⟨⟨⟨max due t.now, t.count⟩, .task task⟩, (mem_place h.sound.sorted).2 (.inl rfl), rfl, ?_⟩
    exact List.lookup_cons_self

theorem cancel (h : t.Holds (some task)) : (t.cancel task.id).Holds none := by
  refine ⟨h.sound.cancel, ?_, nofun⟩
  obtain ⟨e, he, htask, hlookup⟩ := h.found task rfl
  obtain ⟨before, behind, hes⟩ := List.append_of_mem he
  -- no other entry is a task
  have hothers : ∀ f ∈ t.entries, f = e ∨ f.event.task? = none := by
    have hone := h.waiting
    rw [waiting_eq, hes, List.filterMap_append, List.filterMap_cons, htask] at hone
    rcases List.append_eq_singleton_iff.1 hone with ⟨hbefore, hbehind⟩ | ⟨-, hnil⟩
    · rw [List.filterMap_eq_nil_iff] at hbefore
      have hbehind := List.filterMap_eq_nil_iff.1 (List.cons.inj hbehind).2
      intro f hf
      rw [hes, List.mem_append, List.mem_cons] at hf
      rcases hf with hf | rfl | hf
      · exact .inr (hbefore f hf)
      · exact .inl rfl
      · exact .inr (hbehind f hf)
    · cases hnil
  rw [waiting_eq, Timeline.cancel, hlookup]
  refine List.filterMap_eq_nil_iff.2 fun f hf => ?_
  obtain ⟨hf, hslot⟩ := List.mem_filter.1 hf
  rcases hothers f hf with rfl | hnone
  · simp at hslot
  · exact hnone

theorem advance (h : t.Holds k) (ha : t.advance = some (ev, t')) (hev : ev.task? = none) :
    t'.Holds k := by
  rw [advance_eq_pick] at ha
  obtain ⟨-, behind, hm, hm'⟩ := mail_pick ha
  rw [List.take_zero, List.nil_append] at hm hm'
  refine ⟨h.sound.pick ha, ?_, fun task hk => ?_⟩
  · rw [← h.waiting, Timeline.waiting, Timeline.waiting, hm, hm', List.filterMap_cons, hev]
  · obtain ⟨e, he, htask, hlookup⟩ := h.found task hk
    obtain ⟨f, hf, rfl, rfl⟩ := pick_eq_some_iff.1 ha
    refine ⟨e, ?_, htask, ?_⟩
    · cases hes : t.entries with
      | nil => rw [hes] at he; cases he
      | cons g rest =>
        rw [hes] at he hf
        cases hf
        rcases List.mem_cons.1 he with rfl | he
        · rw [htask] at hev; cases hev
        · exact he
    · dsimp only
      rw [hev]
      exact hlookup

theorem advance_task (h : t.Holds k) (ha : t.advance = some (.task task, t')) :
    k = some task ∧ t'.Holds none := by
  rw [advance_eq_pick] at ha
  obtain ⟨-, behind, hm, hm'⟩ := mail_pick ha
  rw [List.take_zero, List.nil_append] at hm hm'
  have hone := h.waiting
  rw [Timeline.waiting, hm, List.filterMap_cons] at hone
  cases k with
  | none => cases hone
  | some task' =>
    obtain ⟨rfl, hnil⟩ := List.cons.inj hone
    exact ⟨rfl, h.sound.pick ha, by rw [Timeline.waiting, hm', hnil]; rfl, nofun⟩

theorem advanceTo (h : t.Holds k) {time : Nat} : (t.advanceTo time).Holds k :=
  ⟨h.sound.advanceTo, h.waiting, h.found⟩

end Holds

end Timeline

namespace Agenda

variable {R : Type} [RandomSource R] {k k' : Option Task} {es : List (Effect M)}

theorem performAll_yields {a : Agenda M R} (h : Tends k es k') (ha : a.timeline.Holds k) :
    (a.performAll es).Yields fun r => r.2.timeline.Holds k' := by
  induction h generalizing a with
  | nil => exact ha
  | schedule _ ih =>
    refine perform_yields.bind fun r hr => ?_
    obtain ⟨due, hr⟩ := hr
    exact (ih (hr ▸ ha.deliverAt_task)).bind fun _ h => h
  | delay _ ih =>
    refine perform_yields.bind fun r hr => ?_
    obtain ⟨due, hr⟩ := hr
    exact (ih (hr ▸ ha.deliverAt_task)).bind fun _ h => h
  | cancel _ ih =>
    refine perform_yields.bind fun r hr => ?_
    have hr : r.2.timeline = a.timeline.cancel _ := hr
    exact (ih (hr ▸ ha.cancel)).bind fun _ h => h
  | @other e _ _ _ he _ ih =>
    refine perform_yields.bind fun r hr => ?_
    have hr : r.2.timeline = a.timeline := by
      cases e with
      | schedule task => exact absurd trivial he
      | scheduleAfterDelay task => exact absurd trivial he
      | cancel id => exact absurd trivial he
      | _ => exact hr
    exact (ih (hr ▸ ha)).bind fun _ h => h

end Agenda

end CoEdit
