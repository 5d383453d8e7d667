import CoEdit.Mailbox.Alarms
import CoEdit.Proofs.AlarmLogs
import CoEdit.Proofs.Sleepers

/-!
# What becomes of an alarm

`Run log taken a` says how alarms came about from new ones on: what the log tells was done with them and
happened to them, and their reader took `taken` meanwhile. Between the calls anything that `Mailbox.Move`
allows may happen, in any order, so whatever is said of every run holds for any runtime that keeps to what
the moves rely on. The turns of a mailbox are one (`Run.passes`).

That the log accounts for every alarm is shown by the sleepers of the mailbox, for they are the alarms that
are not gone (`Shows`).
-/

namespace CoEdit.Alarms

variable {M : Type}

/-- The alarm that a sleeper is. -/
def alarm? (s : Mailbox.Sleeper (Event M)) : Option Alarm :=
  match s.event with
  | .task task => some { deadline := s.due, task, isCancelled := s.isDismissed }
  | _ => none

theorem alarm?_of_event {s : Mailbox.Sleeper (Event M)} {task : Task} (h : s.event = .task task) :
    alarm? s = some { deadline := s.due, task, isCancelled := s.isDismissed } := by
  unfold alarm?
  rw [h]

theorem alarm?_eq_some {s : Mailbox.Sleeper (Event M)} {y : Alarm} (h : alarm? s = some y) :
    s.event = .task y.task ∧ s.due = y.deadline ∧ s.isDismissed = y.isCancelled := by
  unfold alarm? at h
  split at h
  · cases h
    exact ⟨‹_›, rfl, rfl⟩
  · cases h

/-- The sleepers of a mailbox are alarms, and everyone who stands behind an id has it for its own. -/
structure Shows (serials : List (Token × Nat)) (m : Mailbox (Event M)) (alarms : List Alarm) : Prop where
  tidy : m.Tidy
  tasks : ∀ s ∈ m.sleepers, ∃ task, s.event = .task task
  shown : (m.sleepers.filterMap alarm?).Perm alarms
  ids : (serials.map (·.1)).Nodup
  numbers : (serials.map (·.2)).Nodup
  started : ∀ x ∈ serials, x.2 < m.started
  /-- Whoever was not told to leave stands behind the id of its task. -/
  known : ∀ s ∈ m.sleepers, s.isDismissed = false → ∀ task, s.event = .task task →
    (task.id, s.serial) ∈ serials
  /-- Whoever was told to leave stands behind no id. -/
  sent : ∀ s ∈ m.sleepers, s.isDismissed → ∀ x ∈ serials, x.2 ≠ s.serial

section
variable {serials : List (Token × Nat)} {m m' : Mailbox (Event M)} {s : Mailbox.Sleeper (Event M)}
  {alarms : List Alarm} {id : Token} {serial : Nat} {task : Task} {y : Alarm}

theorem shows_new (longest : Option Nat) (draws : List Bool) :
    Shows [] ({ longest, draws } : Mailbox (Event M)) [] :=
  ⟨Mailbox.tidy_new longest draws, List.forall_mem_nil _, .nil, .nil, .nil, List.forall_mem_nil _,
    List.forall_mem_nil _, List.forall_mem_nil _⟩

theorem Shows.of_perm (h : Shows serials m alarms) (hm : m'.Tidy) (hp : m'.sleepers.Perm m.sleepers)
    (hstarted : m.started ≤ m'.started) : Shows serials m' alarms :=
  ⟨hm, fun s hs => h.tasks s (hp.subset hs), (hp.filterMap _).trans h.shown, h.ids, h.numbers,
    fun x hx => Nat.lt_of_lt_of_le (h.started x hx) hstarted, fun s hs => h.known s (hp.subset hs),
    fun s hs => h.sent s (hp.subset hs)⟩

theorem Shows.mem_iff (h : Shows serials m alarms) :
    y ∈ alarms ↔ ∃ s ∈ m.sleepers, s.event = .task y.task ∧ s.due = y.deadline ∧
      s.isDismissed = y.isCancelled := by
  rw [← h.shown.mem_iff, List.mem_filterMap]
  refine exists_congr fun s => and_congr_right fun _ => ⟨alarm?_eq_some, fun ⟨he, hdue, hc⟩ => ?_⟩
  rw [alarm?_of_event he, hdue, hc]

theorem Shows.mem_of_event (h : Shows serials m alarms) (hs : s ∈ m.sleepers) (he : s.event = .task task) :
    { deadline := s.due, task, isCancelled := s.isDismissed } ∈ alarms :=
  h.mem_iff.2 ⟨s, hs, he, rfl, rfl⟩

theorem Shows.id_eq_iff {id' : Token} {serial' : Nat} (h : Shows serials m alarms)
    (hx : (id, serial) ∈ serials) (hy : (id', serial') ∈ serials) : id' = id ↔ serial' = serial :=
  ⟨fun hid => congrArg Prod.snd (List.inj_on_of_nodup_map h.ids hy hx hid),
    fun hserial => congrArg Prod.fst (List.inj_on_of_nodup_map h.numbers hy hx hserial)⟩

/-- Who has a number that stands behind an id is the alarm with the id, and was not cancelled. -/
theorem Shows.exists_waiting (h : Shows serials m alarms) (hx : (id, serial) ∈ serials) (hs : s ∈ m.sleepers)
    (hserial : s.serial = serial) :
    s.isDismissed = false ∧ ∃ task, s.event = .task task ∧ task.id = id ∧ { deadline := s.due, task } ∈ alarms := by
  have hkept : s.isDismissed = false := Bool.eq_false_iff.2 fun htold => h.sent s hs htold _ hx hserial.symm
  obtain ⟨task, he⟩ := h.tasks s hs
  refine ⟨hkept, task, he, (h.id_eq_iff hx (h.known s hs hkept task he)).2 hserial, ?_⟩
  exact hkept ▸ h.mem_of_event hs he

theorem Shows.withEvents (h : Shows serials m alarms) (events : List (Event M)) :
    Shows serials { m with events } alarms :=
  h.of_perm (h.tidy.withEvents events) (.refl _) (Nat.le_refl _)

theorem Shows.start (h : Shows serials m alarms) (delay : Nat) (task : Task)
    (hnew : ∀ y ∈ alarms, y.task.id ≠ task.id) :
    Shows ((task.id, m.started) :: serials.filter (·.1 != task.id)) (m.start delay (.task task)).2
      (alarms ++ [{ deadline := m.wakeTime delay, task }]) := by
  have hperm := Mailbox.sleepers_start_perm m delay (.task task)
  have hkept : ∀ x ∈ serials.filter (·.1 != task.id), x ∈ serials ∧ x.1 ≠ task.id := fun x hx =>
    ⟨(List.mem_filter.1 hx).1, by simpa using (List.mem_filter.1 hx).2⟩
  refine ⟨h.tidy.start delay _, fun s hs => ?_, ?_, ?_, ?_, ?_, fun s hs hs' task' he => ?_,
    fun s hs htold x hx => ?_⟩
  · rcases List.mem_cons.1 (hperm.subset hs) with rfl | hs
    · exact ⟨task, rfl⟩
    · exact h.tasks s hs
  · have hshown := hperm.filterMap alarm?
    rw [List.filterMap_cons_some (alarm?_of_event rfl)] at hshown
    exact (hshown.trans (h.shown.cons _)).trans (List.perm_append_singleton ..).symm
  · refine List.nodup_cons.2 ⟨fun hmem => ?_, h.ids.sublist (List.filter_sublist.map _)⟩
    obtain ⟨x, hx, hid⟩ := List.mem_map.1 hmem
    exact (hkept x hx).2 hid
  · refine List.nodup_cons.2 ⟨fun hmem => ?_, h.numbers.sublist (List.filter_sublist.map _)⟩
    obtain ⟨x, hx, heq⟩ := List.mem_map.1 hmem
    exact Nat.lt_irrefl _ (heq ▸ h.started x (hkept x hx).1)
  · refine List.forall_mem_cons.2 ⟨Nat.lt_succ_self _, fun x hx => ?_⟩
    exact Nat.lt_succ_of_lt (h.started x (hkept x hx).1)
  · rcases List.mem_cons.1 (hperm.subset hs) with rfl | hs
    · cases he
      exact .head _
    · have hne := hnew _ (h.mem_of_event hs he)
      exact .tail _ (List.mem_filter.2 ⟨h.known s hs hs' task' he, by simpa using hne⟩)
  · rcases List.mem_cons.1 (hperm.subset hs) with rfl | hs
    · cases htold
    · rcases List.mem_cons.1 hx with rfl | hx
      · exact Nat.ne_of_gt (h.tidy.started s hs)
      · exact h.sent s hs htold x (hkept x hx).1

theorem Alarm.cancel_of_isCancelled (h : y.isCancelled) : y.cancel id = y := by
  unfold Alarm.cancel
  split
  · cases y
    cases h
    rfl
  · rfl

theorem Shows.alarm?_dismiss (h : Shows serials m alarms) (hx : (id, serial) ∈ serials) (hs : s ∈ m.sleepers) :
    alarm? (s.dismiss serial) = (alarm? s).map (·.cancel id) := by
  obtain ⟨task, he⟩ := h.tasks s hs
  rw [alarm?_of_event he, alarm?_of_event (Mailbox.Sleeper.dismiss_event.trans he),
    Mailbox.Sleeper.dismiss_due, Option.map_some]
  unfold Mailbox.Sleeper.dismiss Alarm.cancel
  cases hkept : s.isDismissed with
  | true => split <;> simp [hkept]
  | false =>
    have hiff := h.id_eq_iff hx (h.known s hs hkept task he)
    by_cases hserial : s.serial = serial
    · rw [if_pos hserial, if_pos (hiff.2 hserial)]
    · rw [if_neg hserial, if_neg (fun hid => hserial (hiff.1 hid)), hkept]

theorem Shows.dismiss (h : Shows serials m alarms) (hx : (id, serial) ∈ serials) :
    Shows (serials.filter (·.1 != id)) (m.dismiss serial) (alarms.map (·.cancel id)) := by
  have hperm := Mailbox.sleepers_dismiss_perm m serial
  have hkept : ∀ x ∈ serials.filter (·.1 != id), x ∈ serials ∧ x.1 ≠ id := fun x hx =>
    ⟨(List.mem_filter.1 hx).1, by simpa using (List.mem_filter.1 hx).2⟩
  refine ⟨h.tidy.dismiss serial, fun s hs => ?_, ?_, h.ids.sublist (List.filter_sublist.map _),
    h.numbers.sublist (List.filter_sublist.map _), fun x hx => ?_, fun s hs hs' task he => ?_,
    fun s hs htold x hx' => ?_⟩
  · obtain ⟨t, ht, rfl⟩ := List.mem_map.1 (hperm.subset hs)
    exact (h.tasks t ht).imp fun task he => Mailbox.Sleeper.dismiss_event.trans he
  · have hcancel : (m.sleepers.map (·.dismiss serial)).filterMap alarm? =
        (m.sleepers.filterMap alarm?).map (·.cancel id) := by
      rw [List.filterMap_map, List.map_filterMap]
      exact List.filterMap_congr fun s hs => h.alarm?_dismiss hx hs
    exact (hperm.filterMap _).trans (hcancel ▸ h.shown.map _)
  · rw [Mailbox.dismiss_eq]
    exact h.started x (hkept x hx).1
  · obtain ⟨t, ht, rfl⟩ := List.mem_map.1 (hperm.subset hs)
    rw [Mailbox.Sleeper.dismiss_event] at he
    rw [Mailbox.Sleeper.dismiss_serial]
    unfold Mailbox.Sleeper.dismiss at hs'
    split at hs'
    · cases hs'
    · rename_i hserial
      have hknown := h.known t ht hs' task he
      exact List.mem_filter.2 ⟨hknown, by simpa [h.id_eq_iff hx hknown] using hserial⟩
  · obtain ⟨t, ht, rfl⟩ := List.mem_map.1 (hperm.subset hs)
    rw [Mailbox.Sleeper.dismiss_serial]
    by_cases hserial : t.serial = serial
    · exact fun heq => (hkept x hx').2 ((h.id_eq_iff hx (hkept x hx').1).2 (heq.trans hserial))
    · rw [Mailbox.Sleeper.dismiss_of_ne hserial] at htold
      exact h.sent t ht htold x (hkept x hx').1

end

section
variable {a : Alarms M} {alarms : List Alarm} {id : Token}

theorem mem_serials_of_lookup {serial : Nat} (h : a.serials.lookup id = some serial) :
    (id, serial) ∈ a.serials := by
  obtain ⟨before, behind, heq, -⟩ := List.lookup_eq_some_iff.1 h
  rw [heq]
  exact List.mem_append_right _ (.head _)

theorem Shows.cancel (h : Shows a.serials a.mailbox alarms) (id : Token) :
    Shows (a.cancel id).serials (a.cancel id).mailbox (alarms.map (·.cancel id)) := by
  unfold Alarms.cancel
  split
  · rename_i hnone
    have hsame : alarms.map (·.cancel id) = alarms := by
      refine (List.map_congr_left fun y hy => ?_).trans (List.map_id _)
      obtain ⟨s, hs, he, -, hc⟩ := h.mem_iff.1 hy
      cases hkept : s.isDismissed with
      | true => exact Alarm.cancel_of_isCancelled (hc ▸ hkept)
      | false =>
        have hne := List.lookup_eq_none_iff.1 hnone _ (h.known s hs hkept _ he)
        exact if_neg (Ne.symm (bne_iff_ne.1 hne))
    rw [hsame]
    exact h
  · rename_i serial hserial
    exact h.dismiss (mem_serials_of_lookup hserial)

theorem Shows.dismissAll {serials : List (Token × Nat)} {m : Mailbox (Event M)} (h : Shows serials m alarms) :
    Shows [] (serials.foldl (fun m (_, serial) => m.dismiss serial) m)
      (alarms.map ({ · with isCancelled := true })) := by
  induction serials generalizing m alarms with
  | nil =>
    have hsame : alarms.map ({ · with isCancelled := true }) = alarms := by
      refine (List.map_congr_left fun y hy => ?_).trans (List.map_id _)
      obtain ⟨s, hs, he, -, hc⟩ := h.mem_iff.1 hy
      cases hkept : s.isDismissed with
      | true =>
        cases y
        obtain rfl : true = _ := hkept.symm.trans hc
        rfl
      | false => cases h.known s hs hkept _ he
    rw [hsame]
    exact h
  | cons x rest ih =>
    obtain ⟨id, serial⟩ := x
    have hrest : ((id, serial) :: rest).filter (·.1 != id) = rest := by
      rw [List.filter_cons_of_neg (by simp)]
      refine List.filter_eq_self.2 fun y hy => ?_
      have hid := (List.nodup_cons.1 h.ids).1
      exact bne_iff_ne.2 fun heq => hid (List.mem_map.2 ⟨y, hy, heq⟩)
    have hsent := h.dismiss (.head _)
    rw [hrest] at hsent
    have hall := ih hsent
    rw [List.map_map] at hall
    have hsame : (({ · with isCancelled := true }) ∘ (·.cancel id) : Alarm → Alarm) =
        ({ · with isCancelled := true }) := by
      funext y
      unfold Alarm.cancel
      dsimp only [Function.comp_apply]
      split <;> rfl
    rwa [hsame] at hall

theorem Shows.live_perm (h : Shows a.serials a.mailbox alarms) (hids : (alarms.map (·.task.id)).Nodup) :
    (a.live.map (·.1)).Perm ((alarms.filter (!·.isCancelled)).map (·.task.id)) := by
  refine (List.perm_ext_iff_of_nodup (h.ids.sublist (List.filter_sublist.map _))
    (hids.sublist (List.filter_sublist.map _))).2 fun id => ?_
  constructor
  · intro hmem
    obtain ⟨⟨id', serial⟩, hx, rfl⟩ := List.mem_map.1 hmem
    obtain ⟨hx, hpending⟩ := List.mem_filter.1 hx
    obtain ⟨s, hs, hserial, -⟩ := Mailbox.isPending_iff.1 hpending
    obtain ⟨-, task, -, htask, hy⟩ := h.exists_waiting hx hs hserial
    exact List.mem_map.2 ⟨_, List.mem_filter.2 ⟨hy, rfl⟩, htask⟩
  · intro hmem
    obtain ⟨y, hy, rfl⟩ := List.mem_map.1 hmem
    obtain ⟨hy, hkept⟩ := List.mem_filter.1 hy
    obtain ⟨s, hs, he, -, hc⟩ := h.mem_iff.1 hy
    have hkept : s.isDismissed = false := hc.trans (by simpa using hkept)
    refine List.mem_map.2 ⟨_, List.mem_filter.2 ⟨h.known s hs hkept _ he, ?_⟩, rfl⟩
    exact Mailbox.isPending_iff.2 ⟨s, hs, rfl, hkept⟩

theorem Shows.pending (h : Shows a.serials a.mailbox alarms) (hids : (alarms.map (·.task.id)).Nodup) :
    a.pending = (alarms.filter (!·.isCancelled)).length := by
  have hlen := (h.live_perm hids).length_eq
  rwa [List.length_map, List.length_map] at hlen

theorem Shows.forget (h : Shows a.serials a.mailbox alarms) : Shows a.live a.mailbox alarms := by
  have hsub : a.live.Sublist a.serials := List.filter_sublist
  refine ⟨h.tidy, h.tasks, h.shown, h.ids.sublist (hsub.map _), h.numbers.sublist (hsub.map _),
    fun x hx => h.started x (hsub.subset hx), fun s hs hkept task he => ?_,
    fun s hs htold x hx => h.sent s hs htold x (hsub.subset hx)⟩
  exact List.mem_filter.2 ⟨h.known s hs hkept task he, Mailbox.isPending_iff.2 ⟨s, hs, rfl, hkept⟩⟩

end

/-! ### Runs -/

/-- The tasks that are posted, in order. -/
def Log.posted (log : Log) : List (Event M) := (log.filterMap (·.2.posted?)).map .task

theorem Log.posted_concat (log : Log) (time : Nat) (x : Incident) :
    posted (log ++ [(time, x)]) = (posted log ++ (x.posted?.map .task).toList : List (Event M)) := by
  unfold posted
  rw [List.filterMap_append, List.map_append]
  cases h : x.posted? <;> simp [h]

/-- What was done with alarms since there were none, what happened to them, and what their reader took. Every
alarm is set under an id of its own, and its deadline is when the delay is over. -/
inductive Run : Log → List (Event M) → Alarms M → Prop
  | new (longest : Option Nat) (draws : List Bool) : Run [] [] { mailbox := { longest, draws } }
  | schedule {log : Log} {taken : List (Event M)} {a : Alarms M} (task : Task) (h : Run log taken a) :
      Run (log ++ [(a.mailbox.now, .scheduled task)]) taken (a.schedule task)
  | scheduleAfter {log : Log} {taken : List (Event M)} {a : Alarms M} (delay : Nat) (task : Task)
      (hnew : ∀ y ∈ log, ∀ task' deadline, y.2 = .set task' deadline → task'.id ≠ task.id)
      (hpunctual : a.mailbox.IsPunctual delay) (h : Run log taken a) :
      Run (log ++ [(a.mailbox.now, .set task (a.mailbox.now + delay))]) taken (a.scheduleAfter delay task)
  | cancel {log : Log} {taken : List (Event M)} {a : Alarms M} (id : Token) (h : Run log taken a) :
      Run (log ++ [(a.mailbox.now, .cancelled id)]) taken (a.cancel id)
  | cancelAll {log : Log} {taken : List (Event M)} {a : Alarms M} (h : Run log taken a) :
      Run (log ++ [(a.mailbox.now, .cancelledAll)]) taken a.cancelAll
  | rings {log : Log} {taken : List (Event M)} {a : Alarms M} {m : Mailbox (Event M)} (task : Task)
      (hm : a.mailbox.Move (some (.posted (.task task))) m) (h : Run log taken a) :
      Run (log ++ [(a.mailbox.now, .rang task)]) taken { a with mailbox := m }
  | leaves {log : Log} {taken : List (Event M)} {a : Alarms M} {m : Mailbox (Event M)} (task : Task)
      (hm : a.mailbox.Move (some (.left (.task task))) m) (h : Run log taken a) :
      Run (log ++ [(a.mailbox.now, .left task)]) taken { a with mailbox := m }
  /-- Nobody goes away, or time passes. -/
  | moves {log : Log} {taken : List (Event M)} {a : Alarms M} {m : Mailbox (Event M)}
      (hm : a.mailbox.Move none m) (h : Run log taken a) : Run log taken { a with mailbox := m }
  /-- The reader takes the first events. -/
  | takes {log : Log} {taken : List (Event M)} {a : Alarms M} {first rest : List (Event M)}
      (hes : a.mailbox.events = first ++ rest) (h : Run log taken a) :
      Run log (taken ++ first) { a with mailbox := { a.mailbox with events := rest } }

/-- What is so after every run. -/
structure Sound (log : Log) (taken : List (Event M)) (a : Alarms M) : Prop where
  shows : Shows a.serials a.mailbox log.alarms
  accounts : log.Accounts a.mailbox.now
  posted : taken ++ a.mailbox.events = log.posted

section
variable {log : Log} {taken : List (Event M)} {a : Alarms M} {m : Mailbox (Event M)} {task : Task}

theorem Sound.schedule (h : Sound log taken a) (task : Task) :
    Sound (log ++ [(a.mailbox.now, .scheduled task)]) taken (a.schedule task) := by
  unfold Alarms.schedule
  rw [h.shows.tidy.post_eq]
  refine ⟨?_, h.accounts.concat nofun nofun nofun, ?_⟩
  · rw [Log.alarms_concat]
    exact h.shows.withEvents _
  · rw [Log.posted_concat, ← h.posted, List.append_assoc]
    rfl

theorem Sound.scheduleAfter (h : Sound log taken a) (delay : Nat) (task : Task)
    (hnew : ∀ y ∈ log, ∀ task' deadline, y.2 = .set task' deadline → task'.id ≠ task.id)
    (hpunctual : a.mailbox.IsPunctual delay) :
    Sound (log ++ [(a.mailbox.now, .set task (a.mailbox.now + delay))]) taken (a.scheduleAfter delay task) := by
  refine ⟨?_, h.accounts.concat nofun nofun fun task' deadline heq => ?_, ?_⟩
  · rw [Log.alarms_concat, ← hpunctual]
    refine h.shows.forget.start delay task fun y hy => ?_
    obtain ⟨time, hset⟩ := h.accounts.wasSet y hy
    exact hnew _ hset _ _ rfl
  · cases heq
    exact ⟨Nat.le_add_right .., hnew⟩
  · rw [Log.posted_concat, ← h.posted, List.append_assoc]
    exact congrArg (taken ++ ·) (List.append_nil _).symm

theorem Sound.cancels {x : Incident} {a' : Alarms M} (h : Sound log taken a)
    (hx : (∃ id, x = .cancelled id) ∨ x = .cancelledAll)
    (hshows : Shows a'.serials a'.mailbox (x.leaves log.alarms)) (hnow : a'.mailbox.now = a.mailbox.now)
    (hevents : a'.mailbox.events = a.mailbox.events) : Sound (log ++ [(a.mailbox.now, x)]) taken a' := by
  have haccounts : Log.Accounts (log ++ [(a.mailbox.now, x)]) a.mailbox.now := by
    rcases hx with ⟨id, rfl⟩ | rfl
    · exact h.accounts.concat nofun nofun nofun
    · exact h.accounts.concat nofun nofun nofun
  have hposted : x.posted? = none := by
    rcases hx with ⟨id, rfl⟩ | rfl
    · rfl
    · rfl
  refine ⟨Log.alarms_concat log _ ▸ hshows, hnow.symm ▸ haccounts, ?_⟩
  rw [Log.posted_concat, ← h.posted, hposted, hevents]
  exact (List.append_nil _).symm

theorem cancel_now (a : Alarms M) (id : Token) : (a.cancel id).mailbox.now = a.mailbox.now := by
  unfold Alarms.cancel
  split
  · rfl
  · exact Mailbox.dismiss_now ..

theorem Sound.cancel (h : Sound log taken a) (id : Token) :
    Sound (log ++ [(a.mailbox.now, .cancelled id)]) taken (a.cancel id) := by
  refine h.cancels (.inl ⟨id, rfl⟩) (h.shows.cancel id) (a.cancel_now id) ?_
  unfold Alarms.cancel
  split
  · rfl
  · exact Mailbox.dismiss_events ..

theorem foldl_dismiss_same (m : Mailbox (Event M)) (serials : List (Token × Nat)) :
    (serials.foldl (fun m (_, serial) => m.dismiss serial) m).now = m.now ∧
      (serials.foldl (fun m (_, serial) => m.dismiss serial) m).events = m.events := by
  induction serials generalizing m with
  | nil => exact ⟨rfl, rfl⟩
  | cons x serials ih =>
    obtain ⟨hnow, hevents⟩ := ih (m.dismiss x.2)
    exact ⟨hnow.trans (m.dismiss_now x.2), hevents.trans (m.dismiss_events x.2)⟩

theorem Sound.cancelAll (h : Sound log taken a) :
    Sound (log ++ [(a.mailbox.now, .cancelledAll)]) taken a.cancelAll := by
  obtain ⟨hnow, hevents⟩ := foldl_dismiss_same a.mailbox a.serials
  exact h.cancels (.inr rfl) h.shows.dismissAll hnow hevents

theorem Sound.without {x : Incident} {s : Mailbox.Sleeper (Event M)} (h : Sound log taken a)
    (hx : x = .rang task ∨ x = .left task) (haccounts : Log.Accounts (log ++ [(a.mailbox.now, x)]) a.mailbox.now)
    (hm : m.Tidy) (he : s.event = .task task) (hp : a.mailbox.sleepers.Perm (s :: m.sleepers))
    (hnow : m.now = a.mailbox.now) (hstarted : m.started = a.mailbox.started)
    (hevents : m.events = a.mailbox.events ++ (x.posted?.map .task).toList) :
    Sound (log ++ [(a.mailbox.now, x)]) taken { a with mailbox := m } := by
  have hmem : ∀ t ∈ m.sleepers, t ∈ a.mailbox.sleepers := fun t ht => hp.symm.subset (.tail _ ht)
  refine ⟨⟨hm, fun t ht => h.shows.tasks t (hmem t ht), ?_, h.shows.ids, h.shows.numbers, hstarted ▸ h.shows.started,
    fun t ht => h.shows.known t (hmem t ht), fun t ht => h.shows.sent t (hmem t ht)⟩, hnow.symm ▸ haccounts, ?_⟩
  · have hleaves : x.leaves log.alarms = log.alarms.filter (·.task.id != task.id) := by
      rcases hx with rfl | rfl <;> rfl
    have hall := h.shows.shown.symm.trans (hp.filterMap alarm?)
    rw [List.filterMap_cons_some (alarm?_of_event he)] at hall
    have hids := (hall.map (·.task.id)).nodup_iff.1 h.accounts.ids
    rw [List.map_cons, List.nodup_cons] at hids
    -- no other alarm has the id, so the rest is all that the log keeps
    have hrest : (m.sleepers.filterMap alarm?).filter (·.task.id != task.id) = m.sleepers.filterMap alarm? :=
      List.filter_eq_self.2 fun y hy => bne_iff_ne.2 fun hid => hids.1 (List.mem_map.2 ⟨y, hy, hid⟩)
    have hfilter := hall.filter (·.task.id != task.id)
    rw [List.filter_cons_of_neg (by simp), hrest] at hfilter
    rw [Log.alarms_concat, hleaves]
    exact hfilter.symm
  · rw [Log.posted_concat, ← h.posted, List.append_assoc]
    exact congrArg (taken ++ ·) hevents

theorem Sound.rings (h : Sound log taken a) (hm : a.mailbox.Move (some (.posted (.task task))) m) :
    Sound (log ++ [(a.mailbox.now, .rang task)]) taken { a with mailbox := m } := by
  obtain ⟨s, hs, he, hdue, hp, hnow, hstarted, hevents⟩ := h.shows.tidy.move_posted hm
  refine h.without (.inl rfl) ?_ (h.shows.tidy.move hm) he hp hnow hstarted hevents
  refine h.accounts.concat (fun task' heq => ?_) nofun nofun
  cases heq
  exact ⟨_, h.shows.mem_of_event (List.mem_append_left _ hs) he, rfl, hdue⟩

theorem Sound.leaves (h : Sound log taken a) (hm : a.mailbox.Move (some (.left (.task task))) m) :
    Sound (log ++ [(a.mailbox.now, .left task)]) taken { a with mailbox := m } := by
  obtain ⟨s, hs, he, htold, hp, hnow, hstarted, hevents⟩ := hm.left
  refine h.without (.inr rfl) ?_ (h.shows.tidy.move hm) he hp hnow hstarted
    (hevents.trans (List.append_nil _).symm)
  refine h.accounts.concat nofun (fun task' heq => ?_) nofun
  cases heq
  exact ⟨_, h.shows.mem_of_event (List.mem_append_left _ hs) he, rfl, htold⟩

theorem Sound.moves (h : Sound log taken a) (hm : a.mailbox.Move none m) :
    Sound log taken { a with mailbox := m } := by
  obtain ⟨hp, hstarted, hevents, hnow⟩ := hm.quiet
  refine ⟨h.shows.of_perm (h.shows.tidy.move hm) hp (Nat.le_of_eq hstarted.symm), ?_, ?_⟩
  · rcases hnow with hnow | hmay
    · exact hnow.symm ▸ h.accounts
    · refine h.accounts.mono hmay.le fun y hy => ?_
      obtain ⟨s, hs, -, hdue, hc⟩ := h.shows.mem_iff.1 hy
      unfold Mailbox.sleepers at hs
      rw [hmay.idle] at hs
      exact ⟨hc.symm.trans (h.shows.tidy.kept s hs), hdue ▸ hmay.due s hs⟩
  · exact hevents.symm ▸ h.posted

theorem Sound.takes {first rest : List (Event M)} (h : Sound log taken a)
    (hes : a.mailbox.events = first ++ rest) :
    Sound log (taken ++ first) { a with mailbox := { a.mailbox with events := rest } } := by
  refine ⟨h.shows.withEvents rest, h.accounts, ?_⟩
  rw [← h.posted, hes, List.append_assoc]

theorem Run.sound (h : Run log taken a) : Sound log taken a := by
  induction h with
  | new longest draws => exact ⟨shows_new longest draws, Log.accounts_new, rfl⟩
  | schedule task _ ih => exact ih.schedule task
  | scheduleAfter delay task hnew hpunctual _ ih => exact ih.scheduleAfter delay task hnew hpunctual
  | cancel id _ ih => exact ih.cancel id
  | cancelAll _ ih => exact ih.cancelAll
  | rings task hm _ ih => exact ih.rings hm
  | leaves task hm _ ih => exact ih.leaves hm
  | moves hm _ ih => exact ih.moves hm
  | takes hes _ ih => exact ih.takes hes

/-- Any moves go on with a run, and every sleeper that goes away is entered. -/
theorem Run.passes (h : Run log taken a) (hp : a.mailbox.Passes m) :
    ∃ more, (∀ y ∈ more, y.2.Happens) ∧ Run (log ++ more) taken { a with mailbox := m } := by
  induction hp with
  | refl => exact ⟨[], List.forall_mem_nil _, (List.append_nil log).symm ▸ h⟩
  | @tail m₁ m₂ _ hm ih =>
    obtain ⟨more, hmore, hrun⟩ := ih
    have hshows := hrun.sound.shows
    have henter {x : Incident} (hx : x.Happens)
        (h : Run ((log ++ more) ++ [(m₁.now, x)]) taken { a with mailbox := m₂ }) :
        ∃ more, (∀ y ∈ more, y.2.Happens) ∧ Run (log ++ more) taken { a with mailbox := m₂ } :=
      ⟨more ++ [(m₁.now, x)], List.forall_mem_append.2 ⟨hmore, List.forall_mem_singleton.2 hx⟩,
        List.append_assoc .. ▸ h⟩
    obtain ⟨_ | e | e, hm⟩ := hm
    · exact ⟨more, hmore, hrun.moves (a := { a with mailbox := m₁ }) hm⟩
    · obtain ⟨s, hs, he, -⟩ := hshows.tidy.move_posted hm
      obtain ⟨task, htask⟩ := hshows.tasks s (List.mem_append_left _ hs)
      obtain rfl := he.symm.trans htask
      exact henter (x := .rang task) trivial (hrun.rings (a := { a with mailbox := m₁ }) task hm)
    · obtain ⟨s, hs, he, -⟩ := hm.left
      obtain ⟨task, htask⟩ := hshows.tasks s (List.mem_append_left _ hs)
      obtain rfl := he.symm.trans htask
      exact henter (x := .left task) trivial (hrun.leaves (a := { a with mailbox := m₁ }) task hm)

/-- An alarm that is cancelled at its deadline before its sleeper goes on may ring, and may leave. -/
theorem Run.either_way (h : Run log taken a) (hw : { deadline := a.mailbox.now, task } ∈ log.waiting) :
    (∃ a', Run (log ++ [(a.mailbox.now, .cancelled task.id), (a.mailbox.now, .rang task)]) taken a') ∧
    ∃ a', Run (log ++ [(a.mailbox.now, .cancelled task.id), (a.mailbox.now, .left task)]) taken a' := by
  have hcancelled := h.cancel task.id
  have hsound := hcancelled.sound
  have hnow := a.cancel_now task.id
  have hy : { deadline := a.mailbox.now, task, isCancelled := true } ∈
      Log.alarms (log ++ [(a.mailbox.now, .cancelled task.id)]) := by
    rw [Log.alarms_concat]
    exact List.mem_map.2 ⟨_, (List.mem_filter.1 hw).1, if_pos rfl⟩
  obtain ⟨s, hs, he, hdue, htold⟩ := hsound.shows.mem_iff.1 hy
  -- whoever is told to leave is woken for it, so it goes on at this moment
  have hready : s ∈ (a.cancel task.id).mailbox.ready := by
    refine (List.mem_append.1 hs).resolve_right fun hasleep => ?_
    have hkept := hsound.shows.tidy.kept s hasleep
    rw [htold] at hkept
    cases hkept
  obtain ⟨front, rest, hr⟩ := List.append_of_mem hready
  have he : s.event = .task task := he
  have hover : s.IsOver { (a.cancel task.id).mailbox with ready := front ++ rest } :=
    Nat.le_of_eq (hdue.trans hnow.symm)
  have hrang := hcancelled.rings task (he ▸ Mailbox.Move.goesOn hr (.posts hover))
  have hleft := hcancelled.leaves task (he ▸ Mailbox.Move.goesOn hr (.leaves htold))
  rw [hnow, List.append_assoc] at hrang hleft
  exact ⟨⟨_, hrang⟩, _, hleft⟩

end

end CoEdit.Alarms
