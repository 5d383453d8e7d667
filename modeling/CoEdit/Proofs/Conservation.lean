import Mathlib.Data.List.DropRight
import CoEdit.Proofs.EagerAck
import CoEdit.Proofs.Inertness

/-!
# No local operation is lost or counted twice

An operation that `send` accepts stays with the channel, queued or in flight, until it is reported
confirmed. So what a session accepted is what it reported and what it still holds (`InSession.conserved`),
whatever way the operations take through the buffers, if only the transformer neither adds nor drops any.

A confirmation tells whether it leaves the channel clean. Several may come of one call, and the channel
has given up all of them by the time it reports the first. They tell the truth nevertheless: only the one
with which everything that was held before the call is confirmed says that the channel is clean
(`Does.tells`).
-/

namespace CoEdit

variable {M : Type}

/-- How many local operations are not confirmed yet. -/
def Queue.held (q : Queue M) : Nat := q.unacked.length + q.queued.length

@[simp] theorem Queue.held_start (revision : Revision) : (start revision : Queue M).held = 0 := rfl

theorem Queue.Stages.length_client {x : Transformer M} {q : Queue M} {op : M} {t : Transformed M}
    (h : q.Stages x op t) (hx : x.KeepsLengths) : t.client.length = 1 := by
  rcases h with ⟨-, rfl⟩ | ⟨-, ht⟩
  · rfl
  · exact (hx ht).1

theorem Queue.isClean_iff {q : Queue M} : q.isClean = true ↔ q.held = 0 := by
  rw [isClean, held, Bool.and_eq_true, List.isEmpty_iff, List.isEmpty_iff, Nat.add_eq_zero_iff,
    List.length_eq_zero_iff, List.length_eq_zero_iff, and_comm]

namespace Channel

/-- A session begins. -/
def Turn.opens (t : Turn M) : Bool :=
  match t.call, t.reply with
  | .connect .., .done (.ok ()) => true
  | _, _ => false

/-- The local operation that is accepted. -/
def Turn.accepted? (t : Turn M) : Option M :=
  match t.call, t.reply with
  | .send op, .done (.ok ()) => some op
  | _, _ => none

/-- What happened since a session began last. -/
def lastSession (log : List (Turn M)) : List (Turn M) := log.rtakeWhile fun t => !t.opens

/-- The local operations that were accepted, in order. -/
def accepted (log : List (Turn M)) : List M := log.filterMap (·.accepted?)

section
variable {log log' since : List (Turn M)} {t : Turn M}

theorem Turn.opens_iff : t.opens = true ↔ t.Opens := by
  obtain ⟨call, reply, es⟩ := t
  unfold opens Opens
  split
  · rename_i heq heq'
    simp only at heq heq'
    simp [heq, heq']
  · rename_i h
    simp only [Bool.false_eq_true, false_iff]
    rintro ⟨⟨revision, session, hcall⟩, hreply⟩
    exact h revision session hcall hreply

theorem lastSession_concat (ht : ¬ t.Opens) : lastSession (log ++ [t]) = lastSession log ++ [t] :=
  List.rtakeWhile_concat_pos _ _ _ (by simpa [← Turn.opens_iff] using ht)

theorem lastSession_append (h : ∀ t ∈ since, ¬ t.Opens) (ht : t.Opens) :
    lastSession (log ++ t :: since) = since := by
  induction since using List.reverseRecOn with
  | nil => exact List.rtakeWhile_concat_neg _ _ _ (by simpa [← Turn.opens_iff] using ht)
  | append_singleton since t' ih =>
    rw [← List.cons_append, ← List.append_assoc, lastSession_concat (h t' (by simp)),
      ih fun t ht => h t (List.mem_append_left _ ht)]

@[simp] theorem accepted_append : accepted (log ++ log') = accepted log ++ accepted log' :=
  List.filterMap_append

@[simp] theorem accepted_singleton : accepted [t] = t.accepted?.toList := by
  unfold accepted
  cases h : t.accepted? <;> simp [h]

end

/-- When `held` operations were not confirmed yet, these confirmations came: one of them says that the
channel is clean exactly if with it all of them are confirmed. -/
def Tells (held : Nat) (news : List (M × Bool)) : Prop :=
  ∀ earlier op clean later, news = earlier ++ (op, clean) :: later →
    (clean = true ↔ held = earlier.length + 1)

section
variable {x : Transformer M} {c : Channel M} {r r' : Reaction M} {call : Call M} {reply : Reply M}
  {event : Event M} {me : Session} {d : Delivery M} {held : Nat} {clean : Bool} {op : M}

theorem Tells.nil : Tells (M := M) held [] := by
  intro earlier op clean later h
  exact absurd h (by simp)

theorem Tells.single (h : clean = true ↔ held = 1) : Tells held [(op, clean)] := by
  intro earlier op' clean' later heq
  cases earlier with
  | nil => cases heq; exact h
  | cons _ earlier => simp at heq

theorem Tells.all {ops : List M} {more : Nat} (h : clean = true ↔ more = 0) :
    Tells (ops.length + more) (Effect.acks (ackedAll clean ops)) := by
  induction ops with
  | nil => exact .nil
  | cons op ops ih =>
    cases ops with
    | nil => exact .single (by rw [h, List.length_singleton]; omega)
    | cons op' ops =>
      intro earlier op₁ clean₁ later heq
      rw [ackedAll_cons_cons] at heq
      cases earlier with
      | nil =>
        cases heq
        simp
        omega
      | cons first earlier =>
        injection heq with _ htail
        rw [ih earlier op₁ clean₁ later htail]
        simp only [List.length_cons]
        omega

theorem Syncs.conserves (h : c.Syncs r) :
    Effect.acks r.2 = [] ∧ r.1.queue.held = c.queue.held := by
  cases h with
  | lags h => exact ⟨rfl, rfl⟩
  | resends hp hr hu => exact ⟨rfl, rfl⟩
  | finishes hp hr hu hs => exact ⟨by simp [hs.acks], rfl⟩

theorem Accepts.conserves (h : Accepts x c me d r) (hx : x.KeepsLengths) :
    (Effect.acks r.2).length + r.1.queue.held = c.queue.held := by
  cases h with
  | recognises hd he hr => exact Nat.zero_add _
  | confirms hd ht hu hne => simp [Queue.held, hu]; omega
  | confirmsLast hd ht hu hs => simp [Queue.held, hu, hs.acks]
  | takesIn hd ht hf hr =>
    simp [Queue.held, hf.length_client hx, hr.length_client hx]

theorem Accepts.tells (h : Accepts x c me d r) : Tells c.queue.held (Effect.acks r.2) := by
  cases h with
  | recognises hd he hr => exact .nil
  | confirms hd ht hu hne =>
    have hrest := List.length_pos_iff.2 hne
    refine .single ?_
    rw [Queue.held, hu, List.length_cons]
    simp; omega
  | confirmsLast hd ht hu hs =>
    suffices h : Tells c.queue.held [(d.op, c.queue.queued.isEmpty)] by simpa [hs.acks] using h
    refine .single ?_
    rw [Queue.held, hu, List.isEmpty_iff, ← List.length_eq_zero_iff, List.length_singleton]
    omega
  | takesIn hd ht hf hr => exact .nil

/-- A reaction that does not end the session gives up just what it reports. -/
theorem Reacts.conserves (h : Reacts x c event r) (hx : x.KeepsLengths)
    (hlive : r.1.connection.isSome) :
    (Effect.acks r.2).length + r.1.queue.held = c.queue.held := by
  cases h with
  | submits hp hu hq => simp [Queue.held, hu, Effect.acks]
  | confirms hp hb hu hr hs => simp [Queue.held, hs.acks]
  | learns hp hs =>
    obtain ⟨hacks, hheld⟩ := hs.conserves
    rw [hacks, hheld]
    exact Nat.zero_add _
  | givesUp h he => cases hlive
  | breaks hconn h => cases hlive
  | accepts hconn h hs =>
    obtain ⟨hacks, hheld⟩ := hs.conserves
    rw [Effect.acks_append, hacks, List.append_nil, hheld]
    exact h.conserves hx
  | _ => exact Nat.zero_add _

theorem Reacts.tells (h : Reacts x c event r) : Tells c.queue.held (Effect.acks r.2) := by
  cases h with
  | confirms hp hb hu hr hs =>
    suffices h : Tells c.queue.held (Effect.acks (ackedAll c.queue.queued.isEmpty c.queue.unacked)) by
      simpa [hs.acks] using h
    refine .all ?_
    rw [List.isEmpty_iff, ← List.length_eq_zero_iff]
  | learns hp hs => rw [hs.conserves.1]; exact .nil
  | breaks hconn h => simpa using Tells.nil
  | accepts hconn h hs =>
    rw [Effect.acks_append, hs.conserves.1, List.append_nil]
    exact h.tells
  | _ => exact .nil

theorem Does.conserves (h : Does x c call reply r) (hx : x.KeepsLengths)
    (hc : c.connection.isSome) (hlive : r.1.connection.isSome) :
    (Effect.acks r.2).length + r.1.queue.held =
      (Turn.accepted? ⟨call, reply, r.2⟩).toList.length + c.queue.held := by
  cases h with
  | connects hconn => rw [hconn] at hc; cases hc
  | connected hconn => rfl
  | unconnected hconn hr => rw [hconn] at hc; cases hc
  | disconnects hconn => cases hlive
  | schedules hp ht hs =>
    simp [Queue.held, hs.acks, ht.length_client hx, Turn.accepted?]; omega
  | stages hconn hp ht =>
    simp [Queue.held, ht.length_client hx, Turn.accepted?]; omega
  | rejects hconn he => cases hlive
  | peeks hconn => rfl
  | receives hconn => rfl
  | reacts h => exact (h.conserves hx hlive).trans (Nat.zero_add _).symm

/-- Every confirmation tells whether it was the last one of what was held before the call. -/
theorem Does.tells (h : Does x c call reply r) : Tells c.queue.held (Effect.acks r.2) := by
  cases h with
  | disconnects hconn => simpa using Tells.nil
  | schedules hp ht hs => rw [hs.acks]; exact .nil
  | rejects hconn he => simpa using Tells.nil
  | reacts h => exact h.tells
  | _ => exact .nil

theorem Does.awaited (h : Does x c call reply r) (hacks : Effect.acks r.2 ≠ []) :
    ∃ event, call = .handle event ∧ c.Awaits event := by
  cases h with
  | disconnects hconn => simp at hacks
  | schedules hp ht hs => exact absurd hs.acks hacks
  | rejects hconn he => simp at hacks
  | reacts h =>
    cases h with
    | confirms hp hb hu hr hs => exact ⟨_, rfl, Phase.ticket?_eq_submit_iff.2 ⟨_, _, hp⟩⟩
    | learns hp hs => exact absurd hs.conserves.1 hacks
    | breaks hconn h => simp at hacks
    | accepts hconn h hs => exact ⟨_, rfl, _, hconn⟩
    | _ => exact absurd rfl hacks
  | _ => exact absurd rfl hacks

end

section
variable {x : Transformer M} {c : Channel M} {link : Connection} {r₀ : Revision} {s₀ : Stats}
  {log since : List (Turn M)} {t : Turn M}

theorem InSession.conserved (h : InSession x link r₀ s₀ since c) (hx : x.KeepsLengths) :
    (accepted since).length = (Effect.acks (effects since)).length + c.queue.held := by
  induction h with
  | opens hs hc₀ hd hc =>
    cases hd with
    | connects hconn => rfl
    | unconnected hconn hr => cases hr
  | @turn since c call reply r hin hd hc ih =>
    have hstep := hd.conserves hx (by rw [hin.connection_eq]; rfl) (by rw [hc]; rfl)
    simp only [accepted_append, accepted_singleton, effects_append, effects_singleton,
      Effect.acks_append, List.length_append]
    omega

theorem Run.conserved (h : Run x log c) (hx : x.KeepsLengths) (hc : c.isConnected = true) :
    (accepted (lastSession log)).length =
      (Effect.acks (effects (lastSession log))).length + c.queue.held := by
  obtain ⟨link, hc⟩ := Option.isSome_iff_exists.1 hc
  obtain ⟨before, c₀, r₀, opening, since, -, hlog, hlast, hin⟩ := h.inSession hc
  have hopens : Turn.Opens (M := M) ⟨.connect r₀ link.session, .done (.ok ()), opening⟩ :=
    ⟨⟨r₀, link.session, rfl⟩, rfl⟩
  rw [hlog, lastSession_append hlast hopens]
  exact hin.conserved hx

/-- The confirmations of a turn, against the record of the session up to then. -/
theorem Run.tells (h : Run x (log ++ [t]) c) (hx : x.KeepsLengths) {earlier later : List (M × Bool)}
    {op : M} {clean : Bool} (hacks : Effect.acks t.effects = earlier ++ (op, clean) :: later) :
    clean = true ↔ (accepted (lastSession (log ++ [t]))).length =
      (Effect.acks (effects (lastSession log))).length + earlier.length + 1 := by
  obtain ⟨c₀, h₀, hd⟩ := h.does
  obtain ⟨event, hcall, hl⟩ := hd.awaited (by simp [hacks])
  -- What is awaited is awaited within a session, so this turn begins none and accepts nothing.
  have hc₀ : c₀.isConnected = true := by
    by_contra hc₀
    exact h₀.coherent.not_live (connection_eq_none_of_not hc₀) hl.live
  have hsame : lastSession (log ++ [t]) = lastSession log ++ [t] :=
    lastSession_concat (hd.not_opens hc₀)
  have hnone : t.accepted? = none := by rw [Turn.accepted?, hcall]
  rw [hd.tells earlier op clean later hacks, hsame, accepted_append, accepted_singleton, hnone,
    Option.toList_none, List.append_nil, h₀.conserved hx hc₀]
  omega

/-- In every connected state, what was accepted since the channel was connected last is what was reported
confirmed since then, what is in flight and what is queued; the channel is clean exactly if all that was
accepted was confirmed, and never while it waits for a batch. Each confirmation, the `earlier` ones of its
turn counted, says that the channel is clean exactly if by then all that was accepted is confirmed. -/
theorem Run.operations_conserved (h : Run x log c) (hx : x.KeepsLengths) :
    (c.isConnected = true →
      (accepted (lastSession log)).length = (Effect.acks (effects (lastSession log))).length +
        c.queue.unacked.length + c.queue.queued.length ∧
      (c.isClean = true ↔
        (accepted (lastSession log)).length = (Effect.acks (effects (lastSession log))).length)) ∧
    (c.state = .waitingAck ∨ c.state = .delayResync ∨ c.state = .waitingSync → c.isClean = false) ∧
    ∀ before t after, log = before ++ t :: after →
      ∀ earlier op clean later, Effect.acks t.effects = earlier ++ (op, clean) :: later →
        (clean = true ↔ (accepted (lastSession (before ++ [t]))).length =
          (Effect.acks (effects (lastSession before))).length + earlier.length + 1) := by
  refine ⟨fun hc => ?_, fun hs => ?_, ?_⟩
  · have hconserved := h.conserved hx hc
    rw [isClean, Queue.isClean_iff, hconserved, Queue.held]
    constructor <;> omega
  · have hne := (h.fed hx.keepsClients).flight (State.inFlight_iff.2 hs)
    simp [isClean, Queue.isClean, hne]
  · rintro before t after rfl earlier op clean later hacks
    rw [List.append_cons] at h
    obtain ⟨c₁, h₁⟩ := h.before
    exact h₁.tells hx hacks

end

/-- Two operations are in flight and a third one waits when another session's operation is taken in. The
echoes confirm the first two and the response to its own batch the third, and a fourth one is accepted:
all but this one are confirmed, and of the three confirmations only the last says that the channel is
clean. -/
theorem operations_conserved_overtaken : ∃ log c, Run CharOp.transform log c ∧ c.isConnected = true ∧
    accepted (lastSession log) =
      [⟨0, 1, .insert 0 'x'⟩, ⟨1, 1, .insert 1 'y'⟩, ⟨2, 1, .insert 2 'z'⟩, ⟨3, 1, .insert 3 'w'⟩] ∧
    (accepted (lastSession log)).length = (Effect.acks (effects (lastSession log))).length +
      c.queue.unacked.length + c.queue.queued.length ∧
    (Effect.acks (effects (lastSession log))).map Prod.snd = [false, false, true] ∧
    ∃ before t after op, log = before ++ t :: after ∧ Effect.acks t.effects = [(op, true)] ∧
      (accepted (lastSession (before ++ [t]))).length =
        (Effect.acks (effects (lastSession before))).length + 1 := by
  have h₀ : Run CharOp.transform [] {} := .new
  have h₁ := h₀.turn (.connect ⟨5⟩ ⟨"a", by decide⟩) rfl
  have h₂ := h₁.turn (.send ⟨0, 1, .insert 0 'x'⟩) rfl
  have h₃ := h₂.turn (.send ⟨1, 1, .insert 1 'y'⟩) rfl
  have h₄ := h₃.turn (.handle (.task ⟨⟨2⟩, .maybeSend⟩)) rfl
  have h₅ := h₄.turn (.send ⟨2, 1, .insert 2 'z'⟩) rfl
  have h₆ := h₅.turn (.handle (.incoming ⟨1⟩ (.ok ⟨⟨6⟩, ⟨"b", by decide⟩, ⟨0, 2, .insert 0 'v'⟩⟩))) rfl
  have h₇ := h₆.turn (.handle (.incoming ⟨1⟩ (.ok ⟨⟨7⟩, ⟨"a", by decide⟩, ⟨0, 1, .insert 0 'x'⟩⟩))) rfl
  have h₈ := h₇.turn (.handle (.incoming ⟨1⟩ (.ok ⟨⟨8⟩, ⟨"a", by decide⟩, ⟨1, 1, .insert 1 'y'⟩⟩))) rfl
  have h₉ := h₈.turn (.handle (.task ⟨⟨4⟩, .maybeSend⟩)) rfl
  have h₁₀ := h₉.turn (.handle (.submitResponse ⟨5⟩ (.ok ⟨9⟩))) rfl
  have h₁₁ := h₁₀.turn (.send ⟨3, 1, .insert 3 'w'⟩) rfl
  obtain ⟨hcount, -, htells⟩ := h₁₁.operations_conserved CharOp.transform_keepsLengths
  refine ⟨_, _, h₁₁, rfl, rfl, (hcount rfl).1, rfl, _, _, _, _, List.append_assoc _ [_] [_], rfl, ?_⟩
  exact (htells _ _ _ (List.append_assoc _ [_] [_]) [] _ true [] rfl).1 rfl

end Channel

end CoEdit
