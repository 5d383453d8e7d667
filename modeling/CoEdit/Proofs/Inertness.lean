import Mathlib.Data.List.Induction
import CoEdit.Proofs.Attention
import CoEdit.Proofs.Ledger
import CoEdit.Proofs.Tokens

/-!
# Late events are inert

An event whose token is not live does nothing to a channel, and a token that was spent stays spent. So
events that come late or twice can be put into a run at will (`Pads`): nothing that the channel does
before or after changes.

In particular it makes no difference whether a task that was cancelled is handed over all the same.
`Served keeps` is a run whose tasks come from a scheduler that keeps some of the tasks it is told to
cancel; whatever it keeps, the run is one of a scheduler that keeps none, padded with inert events.
-/

namespace CoEdit

variable {M : Type}

/-- The tasks at a scheduler after an effect. A task that is cancelled is taken away, unless the scheduler
keeps it. -/
def Effect.requeue (keeps : Task → Bool) (tasks : List Task) : Effect M → List Task
  | .schedule task | .scheduleAfterDelay task => tasks ++ [task]
  | .cancel id => tasks.filter fun task => task.id != id || keeps task
  | _ => tasks

section
variable {keeps : Task → Bool} {tasks : List Task} {k k' : Option Task} {es : List (Effect M)}

theorem Tends.foldl_requeue (h : Tends k es k') :
    es.foldl (Effect.requeue fun _ => false) k.toList = k'.toList := by
  induction h with
  | nil => rfl
  | schedule _ ih => exact ih
  | delay _ ih => exact ih
  | @cancel id kind es k _ ih =>
    rw [List.foldl_cons, ← ih]
    simp [Effect.requeue]
  | @other e es k k' he _ ih =>
    rw [List.foldl_cons, ← ih]
    cases e with
    | schedule task => exact absurd trivial he
    | scheduleAfterDelay task => exact absurd trivial he
    | cancel id => exact absurd trivial he
    | _ => rfl

theorem Tends.mem_foldl_requeue (h : Tends k es k') (hk : ∀ task ∈ k, task ∈ tasks) :
    ∀ task ∈ k', task ∈ es.foldl (Effect.requeue keeps) tasks := by
  induction h generalizing tasks with
  | nil => exact hk
  | schedule _ ih => exact ih fun task ht => by cases ht; simp [Effect.requeue]
  | delay _ ih => exact ih fun task ht => by cases ht; simp [Effect.requeue]
  | cancel _ ih => exact ih nofun
  | @other e es k k' he _ ih =>
    refine ih ?_
    cases e with
    | schedule task => exact absurd trivial he
    | scheduleAfterDelay task => exact absurd trivial he
    | cancel id => exact absurd trivial he
    | _ => exact hk

end

namespace Channel

section
variable {x : Transformer M} {c c' : Channel M} {log log' : List (Turn M)} {t : Turn M}

theorem Run.unique (h : Run x log c) (h' : Run x log c') : c = c' := by
  induction h generalizing c' with
  | new =>
    generalize hlog : ([] : List (Turn M)) = log at h'
    cases h' with
    | new => rfl
    | turn => simp at hlog
  | @turn log c₀ reply c₁ effects call h hcall ih =>
    generalize hlog : log ++ [⟨call, reply, effects⟩] = log' at h'
    cases h' with
    | new => simp at hlog
    | turn call' h' hcall' =>
      obtain ⟨rfl, heq⟩ := List.append_inj' hlog rfl
      cases heq
      cases ih h'
      rw [hcall] at hcall'
      cases hcall'
      rfl

theorem run_concat_iff : Run x (log ++ [t]) c' ↔
    ∃ c, Run x log c ∧ c.call x t.call = .ok (t.reply, c', t.effects) := by
  constructor
  · intro h
    generalize hlog : log ++ [t] = log' at h
    cases h with
    | new => simp at hlog
    | turn call h hcall =>
      obtain ⟨rfl, heq⟩ := List.append_inj' hlog rfl
      cases heq
      exact ⟨_, h, hcall⟩
  · rintro ⟨c, h, hcall⟩
    exact h.turn t.call hcall

theorem Run.does (h : Run x (log ++ [t]) c') :
    ∃ c, Run x log c ∧ Does x c t.call t.reply (c', t.effects) := by
  obtain ⟨c, h, hcall⟩ := run_concat_iff.1 h
  exact ⟨c, h, (call_within h.coherent t.call).of_ok hcall⟩

theorem Run.before {later : List (Turn M)} (h : Run x (log ++ later) c') : ∃ c, Run x log c := by
  induction later using List.reverseRecOn generalizing c' with
  | nil => exact ⟨c', by rwa [List.append_nil] at h⟩
  | append_singleton later t ih =>
    rw [← List.append_assoc] at h
    obtain ⟨c₁, h₁, -⟩ := run_concat_iff.1 h
    exact ih h₁

theorem Run.keeps {P : Channel M → Prop} {later : List (Turn M)} (h : Run x log c) (hc : P c)
    (hP : ∀ {c r}, Turnover c r → P c → P r.1) (h' : Run x (log ++ later) c') : P c' := by
  induction later using List.reverseRecOn generalizing c' with
  | nil =>
    rw [List.append_nil] at h'
    exact h.unique h' ▸ hc
  | append_singleton later t ih =>
    rw [← List.append_assoc] at h'
    obtain ⟨c₁, h₁, hd⟩ := h'.does
    exact hP hd.turnover (ih h₁)

/-- The event that a token was given out for comes, or the token is given up. -/
inductive Turn.Retires (c : Channel M) (t : Turn M) (token : Token) : Prop
  | handled {event} (ht : t.call = .handle event) (hl : c.Awaits event)
      (hk : event.ticket?.isSome) (htoken : event.token = token)
  | dropped {e} (he : e ∈ t.effects) (hd : e.dropped? = some token)

theorem Does.spent {call : Call M} {reply : Reply M} {r : Reaction M} {token : Token}
    (h : Does x c call reply r) (hc : c.Tokened) (ht : Turn.Retires c ⟨call, reply, r.2⟩ token) :
    r.1.Spent token := by
  cases ht with
  | handled hcall hl hk htoken =>
    obtain ⟨k, hk⟩ := Option.isSome_iff_exists.1 hk
    obtain ⟨hphase, heq⟩ := hl.of_ticket hk
    dsimp only at hcall
    subst hcall
    rw [← htoken, ← heq]
    cases h with
    | unconnected hconn hr => cases hr
    | reacts h => exact h.turnover.spent_of_anew hc hphase (h.moves_on hl hk)
  | dropped he hd => exact h.turnover.spent_of_dropped hc he hd

theorem Run.not_live_of_retires {before after : List (Turn M)} {c₀ : Channel M} {token : Token}
    (h : Run x (before ++ t :: after) c) (h₀ : Run x before c₀) (ht : t.Retires c₀ token) :
    ¬ c.Live token := by
  rw [List.append_cons] at h
  obtain ⟨c₁, h₁⟩ := h.before
  obtain ⟨c₀', h₀', hd⟩ := h₁.does
  cases h₀.unique h₀'
  exact (h₁.keeps (hd.spent h₀.tokened ht) (fun ht => ht.spent) h).2

/-- A token that was live and is not is never live again. -/
theorem Run.not_live_of_lived {before later : List (Turn M)} {c₀ : Channel M} {token : Token}
    (h : Run x (before ++ log) c) (h₀ : Run x before c₀) (hlive : c₀.Live token)
    (hgone : ¬ c.Live token) (h' : Run x (before ++ log ++ later) c') : ¬ c'.Live token := by
  have hlt := h₀.keeps (P := fun c => token.number < c.tokens.next) (h₀.tokened.lt token hlive)
    (fun ht hlt => Nat.lt_of_lt_of_le hlt ht.next_le) h
  exact (h.keeps ⟨hlt, hgone⟩ (fun ht => ht.spent) h').2

theorem Coherent.not_live {token : Token} (h : c.Coherent) (hc : c.connection = none) :
    ¬ c.Live token := by
  rintro (⟨k, hk, -⟩ | ⟨me, hme⟩)
  · rw [h.eq_uninitialised hc] at hk
    cases hk
  · rw [hc] at hme
    cases hme

/-! ### Padding -/

/-- The turn in which an event is handed over and nothing comes of it. -/
def Turn.inert (event : Event M) : Turn M := ⟨.handle event, .handled, []⟩

theorem call_of_not_awaits {event : Event M} (hl : ¬ c.Awaits event) :
    c.call x (.handle event) = .ok (.handled, c, []) := by
  show (Reply.handled, ·) <$> c.handle x event = _
  rw [handle_of_not_awaits hl]
  rfl

end

/-- `log'` is `log` with events in between that the channel does not wait for at that point. -/
inductive Pads (x : Transformer M) : List (Turn M) → List (Turn M) → Prop
  | nil : Pads x [] []
  | turn {log log'} (t : Turn M) : Pads x log log' → Pads x (log ++ [t]) (log' ++ [t])
  | inert {log log' c} (event : Event M) : Pads x log log' → Run x log c → ¬ c.Awaits event →
      Pads x log (log' ++ [.inert event])

section
variable {x : Transformer M} {c : Channel M} {log log' : List (Turn M)}

theorem Pads.effects_eq (h : Pads x log log') : effects log' = effects log := by
  induction h with
  | nil => rfl
  | turn t _ ih => rw [effects_append, effects_append, ih]
  | inert event _ _ _ ih => rw [effects_append, ih, effects_singleton]; exact List.append_nil _

/-- Inert events can be put in and taken out. -/
theorem Pads.run_iff (h : Pads x log log') : Run x log' c ↔ Run x log c := by
  induction h generalizing c with
  | nil => rfl
  | turn t _ ih => simp only [run_concat_iff, ih]
  | @inert log log' c₀ event _ hrun hl ih =>
    rw [run_concat_iff]
    constructor
    · rintro ⟨c₁, h₁, hcall⟩
      cases (ih.1 h₁).unique hrun
      rw [Turn.inert, call_of_not_awaits hl] at hcall
      cases hcall
      exact hrun
    · intro h
      cases h.unique hrun
      exact ⟨_, ih.2 hrun, call_of_not_awaits hl⟩

end

/-! ### Tasks from a scheduler -/

/-- A run in which every task comes from a scheduler: of the tasks at hand any one may be next. -/
inductive Served (x : Transformer M) (keeps : Task → Bool) :
    List (Turn M) → Channel M → List Task → Prop
  | new : Served x keeps [] {} []
  | call {log c tasks reply c' effects} (call : Call M) : Served x keeps log c tasks →
      (∀ task, call ≠ .handle (.task task)) → c.call x call = .ok (reply, c', effects) →
      Served x keeps (log ++ [⟨call, reply, effects⟩]) c' (effects.foldl (Effect.requeue keeps) tasks)
  | task {log c front task back reply c' effects} : Served x keeps log c (front ++ task :: back) →
      c.call x (.handle (.task task)) = .ok (reply, c', effects) →
      Served x keeps (log ++ [⟨.handle (.task task), reply, effects⟩]) c'
        (effects.foldl (Effect.requeue keeps) (front ++ back))

section
variable {x : Transformer M} {keeps : Task → Bool} {c : Channel M} {log : List (Turn M)}
  {tasks : List Task}

theorem Served.run (h : Served x keeps log c tasks) : Run x log c := by
  induction h with
  | new => exact .new
  | call call _ _ hcall ih => exact ih.turn call hcall
  | task _ hcall ih => exact ih.turn _ hcall

theorem awaits_task_iff {task : Task} : c.Awaits (.task task) ↔ c.phase.task? = some task := by
  refine ⟨fun h => ?_, Phase.ticket?_of_task⟩
  obtain ⟨id, kind⟩ := task
  cases kind with
  | maybeSend => rw [Phase.ticket?_eq_send_iff.1 h]; rfl
  | resync => rw [Phase.ticket?_eq_resync_iff.1 h]; rfl

/-- A task that is handed over does nothing, or it is the one that the phase waits for. -/
theorem Run.task {task : Task} {reply : Reply M} {c' : Channel M} {effects : List (Effect M)}
    (h : Run x log c) (hcall : c.call x (.handle (.task task)) = .ok (reply, c', effects)) :
    ¬ c.Awaits (.task task) ∧ reply = .handled ∧ c' = c ∧ effects = [] ∨
      c.phase.task? = some task ∧ Tends none effects c'.phase.task? := by
  by_cases hl : c.Awaits (.task task)
  · have ht := awaits_task_iff.1 hl
    have hd : Does x c _ reply (c', effects) := (call_within h.coherent _).of_ok hcall
    cases hd with
    | unconnected hconn hr => cases hr
    | reacts hr => exact .inr ⟨ht, hr.tends_task ht⟩
  · rw [call_of_not_awaits hl] at hcall
    cases hcall
    exact .inl ⟨hl, rfl, rfl, rfl⟩

theorem Served.task_mem (h : Served x keeps log c tasks) : ∀ task ∈ c.phase.task?, task ∈ tasks := by
  induction h with
  | new => nofun
  | call call h hne hcall ih =>
    have hd := (call_within h.run.coherent call).of_ok hcall
    exact (hd.tends h.run.coherent hne).mem_foldl_requeue ih
  | @task log c front task back reply c' effects h hcall ih =>
    rcases h.run.task hcall with ⟨hl, -, rfl, rfl⟩ | ⟨-, htends⟩
    · intro task' ht
      have hne : task' ≠ task := fun heq => hl (awaits_task_iff.2 (heq ▸ ht))
      have hmem := ih task' ht
      simp only [List.mem_append, List.mem_cons, hne, false_or] at hmem
      exact List.mem_append.2 hmem
    · exact htends.mem_foldl_requeue nofun

theorem Served.tasks_eq (h : Served x (fun _ => false) log c tasks) :
    tasks = c.phase.task?.toList := by
  induction h with
  | new => rfl
  | call call h hne hcall ih =>
    have hd := (call_within h.run.coherent call).of_ok hcall
    rw [ih]
    exact (hd.tends h.run.coherent hne).foldl_requeue
  | @task log c front task back reply c' effects h hcall ih =>
    have ht : c.phase.task? = some task := by
      have hmem : task ∈ c.phase.task?.toList := by rw [← ih]; simp
      simpa using hmem
    have hnil : front = [] ∧ back = [] := by
      rw [ht] at ih
      cases front <;> simp_all
    rcases h.run.task hcall with ⟨hl, -⟩ | ⟨-, htends⟩
    · exact absurd (awaits_task_iff.2 ht) hl
    · rw [hnil.1, hnil.2]
      exact htends.foldl_requeue

/-- What can happen with a scheduler that keeps nothing can happen with every scheduler. -/
theorem Served.keeping (h : Served x (fun _ => false) log c tasks) :
    ∃ tasks', Served x keeps log c tasks' := by
  induction h with
  | new => exact ⟨[], .new⟩
  | call call h hne hcall ih =>
    obtain ⟨tasks', h'⟩ := ih
    exact ⟨_, h'.call call hne hcall⟩
  | @task log c front task back reply c' effects h hcall ih =>
    obtain ⟨tasks', h'⟩ := ih
    have ht : task ∈ c.phase.task?.toList := by rw [← h.tasks_eq]; simp
    obtain ⟨front', back', rfl⟩ := List.append_of_mem (h'.task_mem task (by simpa using ht))
    exact ⟨_, h'.task hcall⟩

/-- What a scheduler keeps makes no difference but for turns in which nothing happens. -/
theorem Served.pads (h : Served x keeps log c tasks) : ∃ log',
    Served x (fun _ => false) log' c c.phase.task?.toList ∧ Pads x log' log := by
  induction h with
  | new => exact ⟨[], .new, .nil⟩
  | @call log c tasks reply c' effects call h hne hcall ih =>
    obtain ⟨log', hserved, hpads⟩ := ih
    have hd := (call_within h.run.coherent call).of_ok hcall
    have hnext := hserved.call call hne hcall
    rw [(hd.tends h.run.coherent hne).foldl_requeue] at hnext
    exact ⟨_, hnext, .turn _ hpads⟩
  | @task log c front task back reply c' effects h hcall ih =>
    obtain ⟨log', hserved, hpads⟩ := ih
    rcases h.run.task hcall with ⟨hl, rfl, rfl, rfl⟩ | ⟨ht, htends⟩
    · exact ⟨log', hserved, .inert _ hpads hserved.run hl⟩
    · have hserved : Served x (fun _ => false) log' c ([] ++ task :: []) := by rwa [ht] at hserved
      have hnext := hserved.task hcall
      rw [List.append_nil, show ([] : List Task) = (none : Option Task).toList from rfl,
        htends.foldl_requeue] at hnext
      exact ⟨_, hnext, .turn _ hpads⟩

/-- An event that the channel does not wait for does nothing, and no channel waits for anything under a
token that came up before and is not live any more, in a later session either: whether it was handled,
given up or lost with its session. Hence runs that differ in such events alone go the same way, with the
same effects, and so do channels on schedulers that differ in what they do about cancelled tasks. -/
theorem Run.late_events_inert (h : Run x log c) :
    (∀ event : Event M, ¬ c.Awaits event → c.handle x event = .ok (c, [])) ∧
    (∀ event : Event M, ¬ c.Live event.token → ¬ c.Awaits event) ∧
    (∀ before t after c₀ token, log = before ++ t :: after → Run x before c₀ →
      t.Retires c₀ token → ¬ c.Live token) ∧
    (c.connection = none → ∀ token, ¬ c.Live token) ∧
    (∀ before after c₀ token, log = before ++ after → Run x before c₀ → c₀.Live token →
      ¬ c.Live token → ∀ later c', Run x (log ++ later) c' → ¬ c'.Live token) ∧
    (∀ log', Pads x log log' → effects log' = effects log ∧ ∀ c', Run x log' c' ↔ c' = c) ∧
    ∀ keeps : Task → Bool,
      (∀ tasks, Served x keeps log c tasks →
        ∃ log', Served x (fun _ => false) log' c c.phase.task?.toList ∧ Pads x log' log) ∧
      ∀ tasks, Served x (fun _ => false) log c tasks → ∃ tasks', Served x keeps log c tasks' := by
  refine ⟨fun event hl => handle_of_not_awaits hl, fun event => mt Awaits.live, ?_,
    fun hc token => h.coherent.not_live hc, ?_, fun log' hpads => ⟨hpads.effects_eq, fun c' => ?_⟩,
    fun keeps => ⟨fun tasks hs => hs.pads, fun tasks hs => hs.keeping⟩⟩
  · rintro before t after c₀ token rfl h₀ ht
    exact h.not_live_of_retires h₀ ht
  · rintro before after c₀ token rfl h₀ hlive hgone later c' h'
    exact h.not_live_of_lived h₀ hlive hgone h'
  · rw [hpads.run_iff]
    exact ⟨fun h' => h'.unique h, fun heq => heq ▸ h⟩

end

/-- A transmission is scheduled, the session ends, and the same session begins again. The scheduler hands
the task over although it was told to cancel it: nothing comes of it, then or later. -/
theorem late_events_inert_reconnected : ∃ log c,
    Served CharOp.transform (·.kind == .maybeSend) log c [] ∧
    c.connection = some ⟨⟨"a", by decide⟩, ⟨3⟩⟩ ∧ .cancel ⟨2⟩ ∈ effects log ∧
    (∃ t ∈ log, t.call = .handle (.task ⟨⟨2⟩, .maybeSend⟩)) ∧
    c.handle CharOp.transform (.task ⟨⟨2⟩, .maybeSend⟩) = .ok (c, []) ∧
    (∀ later c', Run CharOp.transform (log ++ later) c' → ¬ c'.Live ⟨2⟩) ∧
    ∃ log', Served CharOp.transform (fun _ => false) log' c [] ∧ Pads CharOp.transform log' log := by
  let c : Channel CharOp := {
    queue := .start ⟨5⟩
    connection := some ⟨⟨"a", by decide⟩, ⟨3⟩⟩
    phase := .allAcked none
    tokens := ⟨4⟩ }
  have hspent : ¬ c.Live ⟨2⟩ := by rintro (⟨k, ⟨⟩, -⟩ | ⟨me, ⟨⟩⟩)
  have h₀ : Served CharOp.transform (·.kind == .maybeSend) [] {} [] := .new
  have h₁ := h₀.call (.connect ⟨5⟩ ⟨"a", by decide⟩) nofun rfl
  have h₂ := h₁.call (.send ⟨0, 1, .insert 0 'x'⟩) nofun rfl
  have h₃ := h₂.call .disconnect nofun rfl
  have h₄ : Served _ _ _ c ([] ++ ⟨⟨2⟩, .maybeSend⟩ :: []) :=
    h₃.call (.connect ⟨5⟩ ⟨"a", by decide⟩) nofun rfl
  have h₅ : Served _ _ _ c _ := h₄.task rfl
  obtain ⟨hinert, hlive, -, -, hgone, -, hserved⟩ := h₅.run.late_events_inert
  refine ⟨_, c, h₅, rfl, by decide, ⟨_, List.mem_concat_self, rfl⟩, hinert _ (hlive _ hspent), ?_, ?_⟩
  · exact hgone _ _ _ ⟨2⟩ ((List.append_assoc _ _ _).trans (List.append_assoc _ _ _)) h₂.run
      (.inl ⟨_, rfl, rfl⟩) hspent
  · exact (hserved _).1 _ h₅

end Channel

end CoEdit
