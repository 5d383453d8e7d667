import CoEdit.Channel.Event
import Mathlib.Data.List.Nodup

/-!
# What a log tells of alarms

A log tells what was done with alarms and what happened to them, with the times. An alarm that was set is in
one of four stages (`Stage`). It waits, or it was cancelled at this moment and is still there; or it is gone,
having rung at its deadline, or having been cancelled. A log that has this property keeps it, whatever is
entered into it, as long as only an alarm that is still there is entered as ringing, when it is due, and only
a cancelled one as leaving (`Log.Accounts.concat`).
-/

namespace CoEdit.Alarms

/-- What is done with alarms, and what happens to them. -/
inductive Incident where
  /-- A task is posted at once. -/
  | scheduled (task : Task)
  | set (task : Task) (deadline : Nat)
  | rang (task : Task)
  /-- A cancelled alarm is gone, and did not ring. -/
  | left (task : Task)
  | cancelled (id : Token)
  | cancelledAll
deriving DecidableEq

namespace Incident

/-- The task that is posted. -/
def posted? : Incident → Option Task
  | scheduled task | rang task => some task
  | set .. | left _ | cancelled _ | cancelledAll => none

/-- An alarm with the id is cancelled. -/
def Cancels (id : Token) : Incident → Prop
  | cancelled id' => id' = id
  | cancelledAll => True
  | _ => False

/-- An alarm with the id rings or is cancelled. -/
def Ends (id : Token) : Incident → Prop
  | rang task => task.id = id
  | x => x.Cancels id

/-- It happens by itself. -/
def Happens : Incident → Prop
  | rang _ | left _ => True
  | _ => False

end Incident

/-- Incidents with their times, the first one first. -/
abbrev Log := List (Nat × Incident)

/-- An alarm that is not gone. -/
structure Alarm where
  deadline : Nat
  task : Task
  isCancelled : Bool := false

def Alarm.cancel (id : Token) (y : Alarm) : Alarm :=
  if y.task.id = id then { y with isCancelled := true } else y

/-- The alarms after an incident. -/
def Incident.leaves (alarms : List Alarm) : Incident → List Alarm
  | scheduled _ => alarms
  | set task deadline => alarms ++ [{ deadline, task }]
  | rang task | left task => alarms.filter (·.task.id != task.id)
  | cancelled id => alarms.map (·.cancel id)
  | cancelledAll => alarms.map ({ · with isCancelled := true })

namespace Log

def alarms (log : Log) : List Alarm := log.foldl (fun alarms x => x.2.leaves alarms) []

/-- The alarms that neither rang nor were cancelled. -/
def waiting (log : Log) : List Alarm := log.alarms.filter (!·.isCancelled)

theorem alarms_concat (log : Log) (x : Nat × Incident) : alarms (log ++ [x]) = x.2.leaves log.alarms := by
  unfold alarms
  rw [List.foldl_append]
  rfl

end Log

/-- What a log tells of an alarm after it was set. A cancellation at the very deadline leaves both endings
open. -/
structure Fate (waiting : List Alarm) (now : Nat) (task : Task) (deadline : Nat) (behind : Log) : Prop where
  waits : { deadline, task } ∈ waiting ↔ ∀ x ∈ behind, ¬ x.2.Ends task.id
  once : behind.countP (·.2 = .rang task) ≤ 1
  punctual : ∀ time, (time, .rang task) ∈ behind → time = deadline
  rings : deadline < now → (∀ x ∈ behind, x.2.Cancels task.id → deadline < x.1) →
    (deadline, .rang task) ∈ behind
  silent : ∀ x ∈ behind, x.2.Cancels task.id → x.1 < deadline → ∀ time, (time, .rang task) ∉ behind

/-- How far it has come with an alarm. -/
inductive Stage (alarms : List Alarm) (now : Nat) (task : Task) (deadline : Nat) (behind : Log) : Prop
  | waits (hw : { deadline, task } ∈ alarms) (hnow : now ≤ deadline) (h : ∀ x ∈ behind, ¬ x.2.Ends task.id)
  | cancelled (hw : { deadline, task, isCancelled := true } ∈ alarms) (hnow : now ≤ deadline)
      (htold : ∃ x ∈ behind, x.2.Cancels task.id) (hall : ∀ x ∈ behind, x.2.Cancels task.id → x.1 = now)
      (hsilent : ∀ time, (time, .rang task) ∉ behind)
  | rang (hgone : ∀ y ∈ alarms, y.task.id ≠ task.id) (hrang : (deadline, .rang task) ∈ behind)
      (hone : behind.countP (·.2 = .rang task) = 1)
      (hpunctual : ∀ time, (time, .rang task) ∈ behind → time = deadline)
      (hall : ∀ x ∈ behind, x.2.Cancels task.id → deadline ≤ x.1)
  | left (hgone : ∀ y ∈ alarms, y.task.id ≠ task.id)
      (htold : ∃ x ∈ behind, x.2.Cancels task.id ∧ x.1 ≤ deadline)
      (hsilent : ∀ time, (time, .rang task) ∉ behind)

section
variable {alarms : List Alarm} {now time deadline : Nat} {task : Task} {log behind : Log} {x : Incident}
  {id : Token} {y z : Alarm}

theorem Incident.ends_of_cancels (h : x.Cancels id) : x.Ends id := by
  cases x with
  | rang => exact h.elim
  | scheduled | set | left | cancelled | cancelledAll => exact h

theorem eq_of_id (h : (alarms.map (·.task.id)).Nodup) (hy : y ∈ alarms) (hz : z ∈ alarms)
    (hid : y.task.id = z.task.id) : y = z := List.inj_on_of_nodup_map h hy hz hid

theorem countP_rang_eq_zero (h : ∀ time, (time, .rang task) ∉ behind) :
    behind.countP (·.2 = .rang task) = 0 := by
  refine List.countP_eq_zero.2 fun x hx heq => ?_
  obtain ⟨time, x⟩ := x
  obtain rfl : x = .rang task := by simpa using heq
  exact h time hx

theorem Stage.fate (h : Stage alarms now task deadline behind) (hids : (alarms.map (·.task.id)).Nodup) :
    Fate (alarms.filter (!·.isCancelled)) now task deadline behind := by
  have hgone (h : ∀ y ∈ alarms, y.task.id ≠ task.id) : { deadline, task } ∉ alarms.filter (!·.isCancelled) :=
    fun hmem => h _ (List.mem_filter.1 hmem).1 rfl
  cases h with
  | waits hw hnow h =>
    have hsilent : ∀ time, (time, .rang task) ∉ behind := fun time hmem => h _ hmem rfl
    refine ⟨iff_of_true (List.mem_filter.2 ⟨hw, rfl⟩) h, ?_, fun time hmem => (hsilent time hmem).elim,
      fun hlate => (Nat.not_lt.2 hnow hlate).elim, fun x hx hc => (h x hx (Incident.ends_of_cancels hc)).elim⟩
    exact (countP_rang_eq_zero hsilent).symm ▸ Nat.zero_le _
  | cancelled hw hnow htold hall hsilent =>
    obtain ⟨x, hx, hcancels⟩ := htold
    refine ⟨iff_of_false (fun hmem => ?_) fun h => h x hx (Incident.ends_of_cancels hcancels), ?_,
      fun time hmem => (hsilent time hmem).elim, fun hlate => (Nat.not_lt.2 hnow hlate).elim,
      fun _ _ _ _ => hsilent⟩
    · cases eq_of_id hids hw (List.mem_filter.1 hmem).1 rfl
    · exact (countP_rang_eq_zero hsilent).symm ▸ Nat.zero_le _
  | rang h hrang hone hpunctual hall =>
    refine ⟨iff_of_false (hgone h) fun h => h _ hrang rfl, Nat.le_of_eq hone, hpunctual, fun _ _ => hrang,
      fun x hx hc hearly => ?_⟩
    exact (Nat.not_lt.2 (hall x hx hc) hearly).elim
  | left h htold hsilent =>
    obtain ⟨x, hx, hcancels, hle⟩ := htold
    refine ⟨iff_of_false (hgone h) fun h => h x hx (Incident.ends_of_cancels hcancels), ?_,
      fun time hmem => (hsilent time hmem).elim, fun _ h => ?_, fun _ _ _ _ => hsilent⟩
    · exact (countP_rang_eq_zero hsilent).symm ▸ Nat.zero_le _
    · exact (Nat.not_lt.2 hle (h x hx hcancels)).elim

/-- The clock moves on when no alarm is due and none was just cancelled. -/
theorem Stage.mono (h : Stage alarms now task deadline behind)
    (hdue : ∀ y ∈ alarms, y.isCancelled = false ∧ time ≤ y.deadline) :
    Stage alarms time task deadline behind := by
  cases h with
  | waits hw hnow h => exact .waits hw (hdue _ hw).2 h
  | cancelled hw => cases (hdue _ hw).1
  | rang hgone hrang hone hpunctual hall => exact .rang hgone hrang hone hpunctual hall
  | left hgone htold hsilent => exact .left hgone htold hsilent

@[simp] theorem Alarm.cancel_task : (y.cancel id).task = y.task := by
  unfold cancel; split <;> rfl

@[simp] theorem Alarm.cancel_deadline : (y.cancel id).deadline = y.deadline := by
  unfold cancel; split <;> rfl

theorem Incident.mem_of_mem_leaves (hy : y ∈ x.leaves alarms) :
    (∃ z ∈ alarms, z.task = y.task ∧ z.deadline = y.deadline) ∨ x = .set y.task y.deadline := by
  cases x with
  | scheduled => exact .inl ⟨y, hy, rfl, rfl⟩
  | set =>
    rcases List.mem_append.1 hy with hy | hy
    · exact .inl ⟨y, hy, rfl, rfl⟩
    · obtain rfl := List.mem_singleton.1 hy
      exact .inr rfl
  | rang | left => exact .inl ⟨y, (List.mem_filter.1 hy).1, rfl, rfl⟩
  | cancelled | cancelledAll =>
    obtain ⟨z, hz, rfl⟩ := List.mem_map.1 hy
    exact .inl ⟨z, hz, by simp, by simp⟩

theorem Incident.leaves_ids (h : ∀ y ∈ alarms, y.task.id ≠ id)
    (hset : ∀ task deadline, x = .set task deadline → task.id ≠ id) :
    ∀ y ∈ x.leaves alarms, y.task.id ≠ id := by
  intro y hy
  rcases mem_of_mem_leaves hy with ⟨z, hz, htask, -⟩ | hx
  · exact htask ▸ h z hz
  · exact hset _ _ hx

theorem leaves_ids_of_gone (alarms : List Alarm) (h : x = .rang task ∨ x = .left task) :
    ∀ y ∈ x.leaves alarms, y.task.id ≠ task.id := by
  rcases h with rfl | rfl <;> exact fun y hy => by simpa using (List.mem_filter.1 hy).2

theorem Incident.leaves_cases (hids : (alarms.map (·.task.id)).Nodup) (hy : y ∈ alarms)
    (hx : ∀ task, x = .rang task ∨ x = .left task → ∃ z ∈ alarms, z.task = task) :
    (x = .rang y.task ∨ x = .left y.task) ∨
    (x.Cancels y.task.id ∧ { y with isCancelled := true } ∈ x.leaves alarms) ∨
    ¬ x.Ends y.task.id ∧ y ∈ x.leaves alarms := by
  have hsame (task : Task) (h : x = .rang task ∨ x = .left task) (hid : task.id = y.task.id) : task = y.task := by
    obtain ⟨z, hz, rfl⟩ := hx task h
    exact congrArg Alarm.task (eq_of_id hids hz hy hid)
  cases x with
  | scheduled => exact .inr (.inr ⟨id, hy⟩)
  | set => exact .inr (.inr ⟨id, List.mem_append_left _ hy⟩)
  | rang task =>
    by_cases hid : task.id = y.task.id
    · exact .inl (.inl (congrArg _ (hsame task (.inl rfl) hid)))
    · exact .inr (.inr ⟨hid, List.mem_filter.2 ⟨hy, bne_iff_ne.2 (Ne.symm hid)⟩⟩)
  | left task =>
    by_cases hid : task.id = y.task.id
    · exact .inl (.inr (congrArg _ (hsame task (.inr rfl) hid)))
    · exact .inr (.inr ⟨id, List.mem_filter.2 ⟨hy, bne_iff_ne.2 (Ne.symm hid)⟩⟩)
  | cancelled id' =>
    by_cases hid : y.task.id = id'
    · exact .inr (.inl ⟨hid.symm, List.mem_map.2 ⟨y, hy, if_pos hid⟩⟩)
    · exact .inr (.inr ⟨fun h => hid h.symm, List.mem_map.2 ⟨y, hy, if_neg hid⟩⟩)
  | cancelledAll => exact .inr (.inl ⟨trivial, List.mem_map.2 ⟨y, hy, rfl⟩⟩)

theorem Incident.nodup_leaves (h : (alarms.map (·.task.id)).Nodup)
    (hnew : ∀ task deadline, x = .set task deadline → ∀ y ∈ alarms, y.task.id ≠ task.id) :
    ((x.leaves alarms).map (·.task.id)).Nodup := by
  cases x with
  | scheduled => exact h
  | set task deadline =>
    show ((alarms ++ [({ deadline, task } : Alarm)]).map (·.task.id)).Nodup
    rw [List.map_append]
    refine h.append (List.nodup_singleton _) (List.disjoint_singleton.2 fun hmem => ?_)
    obtain ⟨y, hy, hid⟩ := List.mem_map.1 hmem
    exact hnew task deadline rfl y hy hid
  | rang | left => exact h.sublist (List.filter_sublist.map _)
  | cancelled | cancelledAll =>
    unfold leaves
    rw [List.map_map]
    simpa [Function.comp_def] using h

theorem not_rang_concat (h : ∀ time, (time, .rang task) ∉ behind) (hx : x ≠ .rang task) :
    ∀ time, (time, .rang task) ∉ behind ++ [(now, x)] := by
  intro time hmem
  rcases List.mem_append.1 hmem with hmem | hmem
  · exact h time hmem
  · exact hx (Prod.mk.inj (List.mem_singleton.1 hmem)).2.symm

/-- An alarm that is still there rings, at its deadline and for the first time. -/
theorem Stage.rings {isCancelled : Bool} (hids : (alarms.map (·.task.id)).Nodup)
    (hw : { deadline, task, isCancelled } ∈ alarms) (hrang : ∃ y ∈ alarms, y.task = task ∧ y.deadline = now)
    (hsilent : ∀ time, (time, .rang task) ∉ behind)
    (hall : ∀ y ∈ behind, y.2.Cancels task.id → y.1 = now) :
    Stage ((Incident.rang task).leaves alarms) now task deadline (behind ++ [(now, .rang task)]) := by
  obtain ⟨y, hy, htask, hnow⟩ := hrang
  cases eq_of_id hids hy hw (congrArg Task.id htask)
  cases hnow
  refine .rang (leaves_ids_of_gone alarms (.inl rfl)) (List.mem_append_right _ (.head _)) ?_ (fun time hmem => ?_) ?_
  · rw [List.countP_append, countP_rang_eq_zero hsilent, List.countP_singleton, if_pos (decide_eq_true rfl)]
  · rcases List.mem_append.1 hmem with hmem | hmem
    · exact (hsilent time hmem).elim
    · exact (Prod.mk.inj (List.mem_singleton.1 hmem)).1
  · refine List.forall_mem_append.2 ⟨fun y hy hc => Nat.le_of_eq (hall y hy hc).symm, ?_⟩
    exact List.forall_mem_singleton.2 fun hc => hc.elim

theorem Stage.concat (h : Stage alarms now task deadline behind) (hids : (alarms.map (·.task.id)).Nodup)
    (hpast : ∀ y ∈ behind, y.1 ≤ now)
    (hrang : ∀ task, x = .rang task → ∃ y ∈ alarms, y.task = task ∧ y.deadline = now)
    (hleft : ∀ task, x = .left task → ∃ y ∈ alarms, y.task = task ∧ y.isCancelled)
    (hset : ∀ task' deadline, x = .set task' deadline → task'.id ≠ task.id) :
    Stage (x.leaves alarms) now task deadline (behind ++ [(now, x)]) := by
  have hknown : ∀ task, x = .rang task ∨ x = .left task → ∃ z ∈ alarms, z.task = task := by
    rintro task (hx | hx)
    · exact (hrang task hx).imp fun z hz => ⟨hz.1, hz.2.1⟩
    · exact (hleft task hx).imp fun z hz => ⟨hz.1, hz.2.1⟩
  have hother (hgone : ∀ y ∈ alarms, y.task.id ≠ task.id) : x ≠ .rang task := fun hx => by
    obtain ⟨y, hy, htask, -⟩ := hrang task hx
    exact hgone y hy (congrArg Task.id htask)
  cases h with
  | waits hw hnow h =>
    have hsilent : ∀ time, (time, .rang task) ∉ behind := fun time hmem => h _ hmem rfl
    have hnone : ∀ y ∈ behind, y.2.Cancels task.id → y.1 = now := fun y hy hc =>
      (h y hy (Incident.ends_of_cancels hc)).elim
    rcases Incident.leaves_cases hids hw hknown with (rfl | hx) | ⟨hx, hw'⟩ | ⟨hx, hw'⟩
    · exact rings hids hw (hrang task rfl) hsilent hnone
    · obtain ⟨y, hy, htask, hcancelled⟩ := hleft task hx
      cases eq_of_id hids hy hw (congrArg Task.id htask)
      cases hcancelled
    · refine .cancelled hw' hnow ⟨_, List.mem_append_right _ (.head _), hx⟩ ?_ (not_rang_concat hsilent ?_)
      · exact List.forall_mem_append.2 ⟨hnone, List.forall_mem_singleton.2 fun _ => rfl⟩
      · rintro rfl
        exact hx
    · exact .waits hw' hnow (List.forall_mem_append.2 ⟨h, List.forall_mem_singleton.2 hx⟩)
  | cancelled hw hnow htold hall hsilent =>
    obtain ⟨y, hy, hc⟩ := htold
    have hstill (hw' : { deadline, task, isCancelled := true } ∈ x.leaves alarms) (hx : x ≠ .rang task) :
        Stage (x.leaves alarms) now task deadline (behind ++ [(now, x)]) := by
      refine .cancelled hw' hnow ⟨y, List.mem_append_left _ hy, hc⟩ ?_ (not_rang_concat hsilent hx)
      exact List.forall_mem_append.2 ⟨hall, List.forall_mem_singleton.2 fun _ => rfl⟩
    rcases Incident.leaves_cases hids hw hknown with (rfl | rfl) | ⟨hx, hw'⟩ | ⟨hx, hw'⟩
    · exact rings hids hw (hrang task rfl) hsilent hall
    · refine .left (leaves_ids_of_gone alarms (.inr rfl)) ⟨y, List.mem_append_left _ hy, hc, ?_⟩ ?_
      · exact (hall y hy hc).symm ▸ hnow
      · exact not_rang_concat hsilent nofun
    · refine hstill hw' ?_
      rintro rfl
      exact hx
    · refine hstill hw' ?_
      rintro rfl
      exact hx rfl
  | rang hgone hmem hone hpunctual hall =>
    refine .rang (Incident.leaves_ids hgone hset) (List.mem_append_left _ hmem) ?_ (fun time hmem' => ?_) ?_
    · rw [List.countP_append, hone, List.countP_singleton, if_neg (by simpa using hother hgone)]
    · rcases List.mem_append.1 hmem' with hmem' | hmem'
      · exact hpunctual time hmem'
      · exact (hother hgone (Prod.mk.inj (List.mem_singleton.1 hmem')).2.symm).elim
    · exact List.forall_mem_append.2 ⟨hall, List.forall_mem_singleton.2 fun _ => hpast _ hmem⟩
  | left hgone htold hsilent =>
    obtain ⟨y, hy, hc⟩ := htold
    exact .left (Incident.leaves_ids hgone hset) ⟨y, List.mem_append_left _ hy, hc⟩
      (not_rang_concat hsilent (hother hgone))

/-! ### Accounts -/

theorem concat_eq_append_cons {α : Type} {l before behind : List α} {x y : α}
    (h : l ++ [x] = before ++ y :: behind) :
    before = l ∧ y = x ∧ behind = [] ∨ ∃ rest, behind = rest ++ [x] ∧ l = before ++ y :: rest := by
  rcases List.eq_nil_or_concat behind with rfl | ⟨rest, z, rfl⟩
  · obtain ⟨rfl, hy⟩ := List.append_inj' h rfl
    cases hy
    exact .inl ⟨rfl, rfl, rfl⟩
  · rw [List.concat_eq_append, ← List.cons_append, ← List.append_assoc] at h
    obtain ⟨rfl, hz⟩ := List.append_inj' h rfl
    cases hz
    exact .inr ⟨rest, List.concat_eq_append, rfl⟩

/-- A log up to the time `now`, in which alarms ring as they should. -/
structure Log.Accounts (log : Log) (now : Nat) : Prop where
  sorted : (log.map (·.1)).Pairwise (· ≤ ·)
  past : ∀ y ∈ log, y.1 ≤ now
  ids : (log.alarms.map (·.task.id)).Nodup
  wasSet : ∀ y ∈ log.alarms, ∃ time, (time, .set y.task y.deadline) ∈ log
  stages : ∀ before time task deadline behind, log = before ++ (time, .set task deadline) :: behind →
    Stage log.alarms now task deadline behind
  rang : ∀ before time task behind, log = before ++ (time, .rang task) :: behind →
    ∃ earlier, (earlier, .set task time) ∈ before

theorem Log.accounts_new : Log.Accounts [] 0 :=
  ⟨.nil, List.forall_mem_nil _, .nil, List.forall_mem_nil _, by simp, by simp⟩

theorem Log.Accounts.mono (h : log.Accounts now) (hle : now ≤ time)
    (hdue : ∀ y ∈ log.alarms, y.isCancelled = false ∧ time ≤ y.deadline) : log.Accounts time :=
  ⟨h.sorted, fun y hy => Nat.le_trans (h.past y hy) hle, h.ids, h.wasSet,
    fun before t task deadline behind heq => (h.stages before t task deadline behind heq).mono hdue, h.rang⟩

/-- What is entered as set has a new id, what rings is due, and what leaves was cancelled. -/
theorem Log.Accounts.concat (h : log.Accounts now)
    (hrang : ∀ task, x = .rang task → ∃ y ∈ log.alarms, y.task = task ∧ y.deadline = now)
    (hleft : ∀ task, x = .left task → ∃ y ∈ log.alarms, y.task = task ∧ y.isCancelled)
    (hset : ∀ task deadline, x = .set task deadline → now ≤ deadline ∧
      ∀ y ∈ log, ∀ task' deadline', y.2 = .set task' deadline' → task'.id ≠ task.id) :
    Log.Accounts (log ++ [(now, x)]) now := by
  have hnew : ∀ task deadline, x = .set task deadline → ∀ y ∈ log.alarms, y.task.id ≠ task.id := by
    intro task deadline hx y hy
    obtain ⟨time, htime⟩ := h.wasSet y hy
    exact (hset task deadline hx).2 _ htime _ _ rfl
  refine ⟨?_, ?_, ?_, ?_, ?_, ?_⟩
  · rw [List.map_append, List.pairwise_append]
    refine ⟨h.sorted, List.pairwise_singleton _ _, fun a ha b hb => ?_⟩
    obtain ⟨y, hy, rfl⟩ := List.mem_map.1 ha
    obtain rfl := List.mem_singleton.1 hb
    exact h.past y hy
  · exact List.forall_mem_append.2 ⟨h.past, List.forall_mem_singleton.2 (Nat.le_refl _)⟩
  · rw [alarms_concat]
    exact Incident.nodup_leaves h.ids hnew
  · rw [alarms_concat]
    intro y hy
    rcases Incident.mem_of_mem_leaves hy with ⟨z, hz, htask, hdeadline⟩ | rfl
    · obtain ⟨time, htime⟩ := h.wasSet z hz
      exact ⟨time, List.mem_append_left _ (htask ▸ hdeadline ▸ htime)⟩
    · exact ⟨now, List.mem_append_right _ (.head _)⟩
  · intro before time task deadline behind heq
    rw [alarms_concat]
    rcases concat_eq_append_cons heq with ⟨rfl, hx, rfl⟩ | ⟨rest, rfl, rfl⟩
    · cases hx
      exact .waits (List.mem_append_right _ (.head _)) (hset task deadline rfl).1 (List.forall_mem_nil _)
    · refine (h.stages before time task deadline rest rfl).concat h.ids (fun y hy => ?_) hrang hleft
        fun task' deadline' hx => ?_
      · exact h.past y (List.mem_append_right _ (.tail _ hy))
      · exact Ne.symm ((hset task' deadline' hx).2 _ (List.mem_append_right _ (.head _)) task deadline rfl)
  · intro before time task behind heq
    rcases concat_eq_append_cons heq with ⟨rfl, hx, rfl⟩ | ⟨rest, rfl, rfl⟩
    · cases hx
      obtain ⟨y, hy, rfl, rfl⟩ := hrang task rfl
      exact h.wasSet y hy
    · exact h.rang before time task rest rfl

end

end CoEdit.Alarms
