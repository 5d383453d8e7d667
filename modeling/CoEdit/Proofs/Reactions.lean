import CoEdit.Proofs.Moves
import CoEdit.Proofs.Tracking

/-!
# What the reactions of a channel keep

A connected channel at a standing in the server's history keeps its books (`Books`: its replica tracks
the history and its counters add up) and rests in a phase that says the truth about the batch in flight
(`Phase.Rests`). In particular a channel whose submit was answered without being confirmed has its batch
ahead, and one that knows the server's revision after a failure has no own operation behind it.

`Answers` says what a reaction keeps of this, provided that the responses a channel waits for are
`Event.Honest`, and what it asks for: no effect ends the session, at most one request is made and it is
the last effect (`Owes`), and what the new phase waits for was either awaited before and did not come now,
or is asked for with a new token. There is one lemma for `send`, one for everything but deliveries, and
one for the next delivery.
-/

namespace CoEdit

/-- The numbers of the operations that effects report as confirmed. -/
def ackedIds (effects : List (Effect CharOp)) : List Nat :=
  effects.filterMap fun
    | .acked op _ => some op.id
    | _ => none

@[simp] theorem ackedIds_nil : ackedIds [] = [] := rfl

@[simp] theorem ackedIds_append {as bs : List (Effect CharOp)} :
    ackedIds (as ++ bs) = ackedIds as ++ ackedIds bs := List.filterMap_append

theorem ackedIds_ackedAll {clean : Bool} : ∀ {ops : List CharOp},
    ackedIds (ackedAll clean ops) = ops.map (·.id)
  | [] => rfl
  | [_] => rfl
  | op :: op' :: ops => by
    have ih : ackedIds (ackedAll clean (op' :: ops)) = (op' :: ops).map (·.id) := ackedIds_ackedAll
    rw [List.map_cons, ← ih]; rfl

variable {tok : Token} {me : Session} {p p' : Standing} {a : Replica} {c c₁ c₂ : Channel CharOp}
  {event : Option Ticket}

/-- A response that says the truth: a submit that was answered is applied, with none of the client's
operations behind it, and a probe tells a revision behind which there is none either. -/
def Event.Honest (me : Session) (p : Standing) : Event CharOp → Prop
  | .submitResponse _ (.ok applied) => applied.number ≤ p.history.length ∧
      Absent me (p.history.drop applied.number) ∧ ¬ Absent me p.rest
  | .probeResponse _ (.ok target) => target.number ≤ p.history.length ∧
      Absent me (p.history.drop target.number)
  | .submitResponse _ (.error e) | .probeResponse _ (.error e) => e.isRetryable
  | .task _ | .incoming .. => True

theorem Standing.rest_eq_drop (p : Standing) : p.rest = p.history.drop p.confirmed.length :=
  (List.drop_left' rfl).symm

theorem Standing.absent_rest {n : Nat} (hn : n ≤ p.confirmed.length)
    (h : Absent me (p.history.drop n)) : Absent me p.rest := by
  rw [p.rest_eq_drop]
  exact fun d hd => h d (List.drop_subset_drop_left _ hn hd)

namespace Channel

/-- What a phase says about the batch in flight. -/
def Phase.Rests (me : Session) (p : Standing) (q : Queue CharOp) : Phase → Prop
  | .uninitialised => False
  | .allAcked task => q.unacked = [] ∧ (task = none ↔ q.queued = [])
  | .waitingAck _ _ _ answered => q.unacked ≠ [] ∧ (answered → ¬ Absent me p.rest)
  | .delayResync _ => q.unacked ≠ []
  | .waitingSync _ answered target => q.unacked ≠ [] ∧ answered = target.isSome ∧
      ∀ t ∈ target, t.number ≤ p.history.length ∧ Absent me (p.history.drop t.number)

theorem Phase.Rests.mono {q q' : Queue CharOp} {phase : Phase} (h : phase.Rests me p q)
    (hu : q'.unacked = [] ↔ q.unacked = []) (hq : q.unacked = [] → (q'.queued = [] ↔ q.queued = []))
    (hh : p'.history = p.history) (hr : ¬ Absent me p.rest → ¬ Absent me p'.rest) :
    phase.Rests me p' q' := by
  cases phase with
  | uninitialised => exact h
  | allAcked task => exact ⟨hu.2 h.1, h.2.trans (hq h.1).symm⟩
  | waitingAck submit base batch answered => exact ⟨mt hu.1 h.1, fun ha => hr (h.2 ha)⟩
  | delayResync timer => exact mt hu.1 h
  | waitingSync probe answered target => exact ⟨mt hu.1 h.1, h.2.1, hh ▸ h.2.2⟩

theorem Phase.Rests.extend {ds : List (Delivery CharOp)} {q : Queue CharOp} {phase : Phase}
    (h : phase.Rests me p q) (hds : phase.ticket? = none → Absent me ds) :
    phase.Rests me (p.extend ds) q := by
  cases phase with
  | uninitialised => exact h
  | allAcked task => exact h
  | waitingAck submit base batch answered =>
    exact ⟨h.1, fun ha hr => h.2 ha fun d hd => hr d (List.mem_append_left _ hd)⟩
  | delayResync timer => exact h
  | waitingSync probe answered target =>
    refine ⟨h.1, h.2.1, fun t ht => ?_⟩
    have hans := h.2.1
    rw [ht] at hans; subst hans
    obtain ⟨hle, ha⟩ := h.2.2 t ht
    rw [p.extend_history, List.length_append, List.drop_append_of_le_length hle]
    exact ⟨by omega, ha.append (hds rfl)⟩

theorem Phase.Rests.of_nil {q : Queue CharOp} {phase : Phase} (h : phase.Rests me p q)
    (hu : q.unacked = []) : ∃ task, phase = .allAcked task ∧ (task = none ↔ q.queued = []) := by
  cases phase with
  | uninitialised => exact h.elim
  | allAcked task => exact ⟨task, rfl, h.2⟩
  | waitingAck submit base batch answered => exact absurd hu h.1
  | delayResync timer => exact absurd hu h
  | waitingSync probe answered target => exact absurd hu h.1

theorem Phase.Rests.canMoveTo_allAcked {q : Queue CharOp} {phase : Phase}
    (h : phase.Rests me p q) (hu : q.unacked ≠ []) : phase.state.canMoveTo .allAcked := by
  cases phase with
  | uninitialised => exact h.elim
  | allAcked task => exact absurd h.1 hu
  | _ => rfl

/-- The queue of a client and its counters, at a standing in the server's history. -/
structure Books (tok : Token) (p : Standing) (a : Replica) (c : Channel CharOp) : Prop where
  connection : c.connection = some ⟨a.session, tok⟩
  tracks : Tracks p { a with queue := c.queue }
  acks : c.stats.eagerAcks + c.stats.directAcks = a.acked.length
  echoes : c.stats.duplicateAcks + p.awaited.length = c.stats.eagerAcks

/-- An effect that makes no request of the server. It cancels no task that the channel waits for. -/
def Minor (c : Channel CharOp) : Effect CharOp → Prop
  | .schedule task | .scheduleAfterDelay task => task.id.number < c.tokens.next
  | .cancel id => id.number < c.tokens.next ∧ ∀ kind, c.phase.ticket? ≠ some (.task ⟨id, kind⟩)
  | .disregard _ | .remote _ | .acked .. | .resetBackoff => True
  | .submit .. | .probe _ | .subscribe .. | .unsubscribe | .failed _ => False

/-- The request that the phase waits for the response of. A batch is submitted at the confirmed
revision, when none of the client's operations is ahead of it. -/
def Requests (me : Session) (p : Standing) (c : Channel CharOp) : Effect CharOp → Prop
  | .submit token base ops => c.phase = .waitingAck token base ops.length false ∧
      base = c.queue.revision ∧ ops = c.queue.unacked ∧ Absent me p.rest
  | .probe token => c.phase = .waitingSync token false none
  | _ => False

/-- The effects that a channel asks for: minor ones, and behind them at most one request. -/
def Owes (me : Session) (p : Standing) (c : Channel CharOp) : List (Effect CharOp) → Prop
  | [] => True
  | e :: es => c.Minor e ∧ Owes me p c es ∨ Requests me p c e ∧ es = []

/-- The batch in flight is the one that was in flight, and none of it is ahead. -/
def Carried (me : Session) (p : Standing) (q q' : Queue CharOp) : Prop :=
  q.unacked ≠ [] ∧ Absent me p.rest ∧ q'.unacked.map CharOp.label = q.unacked.map CharOp.label

/-- What a channel `c` at standing `p` keeps when it reacts, at standing `p'` then. `event` is what the
event brings that it reacts to. -/
structure Answers (tok : Token) (p p' : Standing) (a : Replica) (c : Channel CharOp)
    (event : Option Ticket) (r : Reaction CharOp) : Prop where
  books : Books tok p' { a with acked := a.acked ++ ackedIds r.2 } r.1
  rests : r.1.phase.Rests a.session p' r.1.queue
  owes : Owes a.session p' r.1 r.2
  tokens : c.tokens.next ≤ r.1.tokens.next
  ticket : ∀ k, r.1.phase.ticket? = some k →
    (c.phase.ticket? = some k ∧ event ≠ some k ∧ (∀ e ∈ r.2, e.ticket? ≠ some k) ∧
      (¬ Absent a.session p.rest → ¬ Absent a.session p'.rest)) ∨
    c.tokens.next ≤ k.token.number ∧ k.token.number < r.1.tokens.next ∧
      ∃ e ∈ r.2, e.ticket? = some k
  /-- A batch that stays in flight and is not ahead is the one that was. -/
  kept : (∀ token base ops, .submit token base ops ∉ r.2) → r.1.queue.unacked ≠ [] →
    Absent a.session p'.rest → Carried a.session p c.queue r.1.queue
  resent : r.1.stats.resends = c.stats.resends ∨ r.1.stats.resends = c.stats.resends + 1 ∧
    (∃ token base ops, .submit token base ops ∈ r.2) ∧ Carried a.session p c.queue r.1.queue

theorem Minor.ne_failed {e : Effect CharOp} (h : c.Minor e) (error : Error) : e ≠ .failed error := by
  rintro rfl; exact h

theorem Minor.mono {e : Effect CharOp} (h : c₁.Minor e) (ht : c₁.tokens.next ≤ c₂.tokens.next)
    (hk : ∀ k, c₂.phase.ticket? = some k →
      c₁.phase.ticket? = some k ∨ c₁.tokens.next ≤ k.token.number) : c₂.Minor e := by
  cases e with
  | schedule task => exact Nat.lt_of_lt_of_le h ht
  | scheduleAfterDelay task => exact Nat.lt_of_lt_of_le h ht
  | cancel id =>
    refine ⟨Nat.lt_of_lt_of_le h.1 ht, fun kind hp => ?_⟩
    rcases hk _ hp with hp | hle
    · exact h.2 kind hp
    · exact absurd h.1 (Nat.not_lt.2 hle)
  | _ => exact h

theorem Owes.append {es es₂ : List (Effect CharOp)} (h : Owes me p c₁ es)
    (hr : ∀ e, ¬ Requests me p c₁ e) (hm : ∀ e, c₁.Minor e → c₂.Minor e) (h₂ : Owes me p c₂ es₂) :
    Owes me p c₂ (es ++ es₂) := by
  induction es with
  | nil => exact h₂
  | cons e es ih =>
    rcases h with ⟨he, h⟩ | ⟨he, -⟩
    · exact .inl ⟨hm e he, ih h⟩
    · exact absurd he (hr e)

theorem Owes.mem {es : List (Effect CharOp)} {e : Effect CharOp} (h : Owes me p c es) (he : e ∈ es) :
    c.Minor e ∨ Requests me p c e := by
  induction es with
  | nil => cases he
  | cons e' es ih =>
    rcases h with ⟨h, hes⟩ | ⟨h, rfl⟩
    · rcases List.mem_cons.1 he with rfl | he
      · exact .inl h
      · exact ih hes he
    · exact .inr (List.mem_singleton.1 he ▸ h)

theorem Owes.of_minor {es : List (Effect CharOp)} (h : ∀ e ∈ es, c.Minor e) : Owes me p c es := by
  induction es with
  | nil => trivial
  | cons e es ih => exact .inl ⟨h e (by simp), ih fun e he => h e (List.mem_cons_of_mem _ he)⟩

theorem Books.isSome (h : Books tok p a c) : c.connection.isSome := by rw [h.connection]; rfl

theorem ackedIds_release {phase : Phase} : ackedIds phase.release = [] :=
  List.filterMap_eq_nil_iff.2 fun e he => by
    rcases Phase.mem_release he with ⟨_, _, rfl, -⟩ | ⟨_, rfl⟩ <;> rfl

theorem Schedules.ackedIds_eq_nil {task : Option Token} {tokens : TokenSource}
    {effects : List (Effect CharOp)} (h : c.Schedules task tokens effects) : ackedIds effects = [] :=
  List.filterMap_eq_nil_iff.2 fun e he => by rw [(h.of_mem he).1]

theorem Answers.of_same {r : Reaction CharOp}
    (hb : Books tok p' { a with acked := a.acked ++ ackedIds r.2 } r.1)
    (hr : r.1.phase.Rests a.session p' r.1.queue) (ho : Owes a.session p' r.1 r.2)
    (hp : r.1.phase = c.phase) (ht : r.1.tokens = c.tokens)
    (hres : r.1.stats.resends = c.stats.resends)
    (he : ∀ k, c.phase.ticket? = some k → event ≠ some k) (hsilent : ∀ e ∈ r.2, e.ticket? = none)
    (hrest : ¬ Absent a.session p.rest → ¬ Absent a.session p'.rest)
    (hkept : r.1.queue.unacked ≠ [] → Absent a.session p'.rest →
      Carried a.session p c.queue r.1.queue) : Answers tok p p' a c event r :=
  ⟨hb, hr, ho, Nat.le_of_eq (by rw [ht]), fun k hk => .inl ⟨hp ▸ hk, he k (hp ▸ hk),
    fun e he => by simp [hsilent e he], hrest⟩, fun _ => hkept, .inl hres⟩

theorem Books.idle (h : Books tok p a c) (hr : c.phase.Rests a.session p c.queue)
    (he : ∀ k, c.phase.ticket? = some k → event ≠ some k) : Answers tok p p a c event (c, []) :=
  .of_same (by rwa [ackedIds_nil, List.append_nil]) hr trivial rfl rfl rfl he (by simp) id
    fun hu ha => ⟨hu, ha, rfl⟩

/-- What a phase that was just entered waits for carries a new token. -/
theorem Answers.of_fresh {b : Replica} {r : Reaction CharOp} (hb : Books tok p' b r.1)
    (ha : { a with acked := a.acked ++ ackedIds r.2 } = b)
    (hr : r.1.phase.Rests a.session p' r.1.queue) (ho : Owes a.session p' r.1 r.2)
    (ht : c.tokens.next ≤ r.1.tokens.next)
    (hk : ∀ k, r.1.phase.ticket? = some k → c.tokens.next ≤ k.token.number ∧
      k.token.number < r.1.tokens.next ∧ ∃ e ∈ r.2, e.ticket? = some k)
    (hkept : (∀ token base ops, .submit token base ops ∉ r.2) → r.1.queue.unacked ≠ [] →
      Absent a.session p'.rest → Carried a.session p c.queue r.1.queue)
    (hres : r.1.stats.resends = c.stats.resends ∨ r.1.stats.resends = c.stats.resends + 1 ∧
      (∃ token base ops, .submit token base ops ∈ r.2) ∧ Carried a.session p c.queue r.1.queue) :
    Answers tok p p' a c event r :=
  ⟨ha ▸ hb, hr, ho, ht, fun k h => .inr (hk k h), hkept, hres⟩

/-- After a reaction that may have brought the channel up to the revision it waits for. -/
theorem Answers.synced {e₁ : List (Effect CharOp)} (h : Answers tok p p' a c event (c₁, e₁)) :
    c₁.maybeSynced.Yields fun r => Answers tok p p' a c event (r.1, e₁ ++ r.2) ∧ r.1.Lags := by
  have hconn : c₁.connection.isSome := h.books.isSome
  have hrests := h.rests
  refine (maybeSynced_counts hconn).yields.mono fun r hr => ?_
  cases hr with
  | lags hl => exact ⟨by rwa [List.append_nil], hl⟩
  | finishes hp hge hu hs =>
    rw [hp] at hrests
    exact absurd hu hrests.1
  | resends hp hge hu =>
    rw [hp] at hrests
    obtain ⟨-, -, ht⟩ := hrests
    obtain ⟨hle, habs⟩ := ht _ rfl
    -- everything up to the target was received, so the batch is not ahead and goes out again
    have hrest : Absent a.session p'.rest := by
      refine Standing.absent_rest ?_ habs
      have : c₁.queue.revision.number = p'.confirmed.length := h.books.tracks.revision
      rw [Revision.lt_iff] at hge; omega
    have hreq : ∀ e, ¬ Requests a.session p' c₁ e := by
      intro e he
      cases e <;> simp [Requests, hp] at he
    have hsub : ∀ token base ops, .submit token base ops ∉ e₁ := fun _ _ _ he =>
      (h.owes.mem he).elim id (hreq _)
    have hcar := h.kept hsub hu hrest
    refine ⟨.of_fresh (b := { a with acked := a.acked ++ ackedIds e₁ }) ?_ ?_ ?_ ?_ ?_ ?_ ?_ ?_, ?_⟩
    · exact ⟨h.books.connection, h.books.tracks, h.books.acks, h.books.echoes⟩
    · rw [ackedIds_append]; simp [ackedIds]
    · exact ⟨hu, nofun⟩
    · refine h.owes.append hreq (fun e he => he.mono (Nat.le_succ _) fun k hk => ?_)
        (.inl ⟨trivial, .inr ⟨⟨rfl, rfl, rfl, hrest⟩, rfl⟩⟩)
      cases hk; exact .inr (Nat.le_refl _)
    · exact Nat.le_succ_of_le h.tokens
    · rintro k hk
      cases hk
      exact ⟨h.tokens, Nat.lt_succ_self _, _, List.mem_append_right _ (.tail _ (.head _)), rfl⟩
    · exact fun _ _ _ => hcar
    · refine .inr ⟨?_, ⟨_, _, _, List.mem_append_right _ (.tail _ (.head _))⟩, hcar⟩
      rcases h.resent with hres | ⟨-, ⟨token, base, ops, hmem⟩, -⟩
      · exact congrArg (· + 1) hres
      · exact absurd hmem (hsub token base ops)
    · nofun

variable (p c event) in
/-- A channel whose batch is confirmed has something new to send or nothing to wait for. The news of
the confirmation come last. -/
theorem Books.allAcknowledged {ids : List Nat}
    (h : Books tok p' { a with acked := a.acked ++ ids } c₁) (hu : c₁.queue.unacked = [])
    (hm : c₁.state.canMoveTo .allAcked)
    (hk : ∀ k, c₁.phase.ticket? = some k → k.token.number < c₁.tokens.next)
    (ht : c.tokens.next ≤ c₁.tokens.next) (hres : c₁.stats.resends = c.stats.resends) :
    c₁.allAcknowledged.Yields fun r => r.1.Lags ∧ ∀ {news : List (Effect CharOp)},
      (∀ e ∈ news, ∃ op clean, e = .acked op clean) → ackedIds news = ids →
      Answers tok p p' a c event (r.1, r.2 ++ news) := by
  refine (allAcknowledged_counts h.isSome hu hm).yields.mono fun r hr => ?_
  obtain ⟨task, tokens, effects, hs, rfl⟩ := hr
  refine ⟨nofun, fun {news} hn hids => ?_⟩
  refine .of_fresh (b := { a with acked := a.acked ++ ids }) ?_ ?_ ?_ ?_ ?_ ?_ ?_ ?_
  · exact ⟨h.connection, h.tracks, h.acks, h.echoes⟩
  · have hreset : ackedIds (.resetBackoff :: effects) = [] := hs.ackedIds_eq_nil
    rw [ackedIds_append, ackedIds_append, ackedIds_release, hreset, hids]; rfl
  · exact ⟨hu, hs.task_eq_none_iff⟩
  · refine .of_minor fun e he => ?_
    simp only [List.mem_append, List.mem_cons] at he
    rcases he with (he | rfl | he) | he
    · rcases Phase.mem_release he with ⟨id, kind, rfl, hp⟩ | ⟨_, rfl⟩
      · -- what the new phase waits for has a later token
        refine ⟨Nat.lt_of_lt_of_le (hk _ hp) hs.next_le, fun kind' hp' => ?_⟩
        have := hk _ hp
        have := congrArg Token.number (hs.of_ticket hp').1
        simp only [Ticket.token] at *; omega
      · trivial
    · trivial
    · obtain ⟨rfl, hlt⟩ := hs.of_mem he; exact hlt
    · obtain ⟨op, clean, rfl⟩ := hn e he; trivial
  · exact Nat.le_trans ht hs.next_le
  · intro k hp
    obtain ⟨hk, hlt, e, he, hek⟩ := hs.of_ticket hp
    rw [hk]
    exact ⟨ht, hlt, e, by simp [he], hek⟩
  · exact fun _ h => absurd hu h
  · exact .inl hres

/-- What a connected channel keeps between its reactions. -/
structure Keeps (tok : Token) (p : Standing) (a : Replica) (c : Channel CharOp) : Prop where
  books : Books tok p a c
  rests : c.phase.Rests a.session p c.queue
  fresh : ∀ k, c.phase.ticket? = some k → k.token.number < c.tokens.next
  lags : c.Lags

/-- An answer after which the channel keeps what it has to. -/
def Settles (tok : Token) (p p' : Standing) (a : Replica) (c : Channel CharOp)
    (event : Option Ticket) (r : Reaction CharOp) : Prop :=
  Answers tok p p' a c event r ∧ r.1.Lags

theorem Settles.keeps {r : Reaction CharOp} (h : Settles tok p p' a c event r)
    (hc : ∀ k, c.phase.ticket? = some k → k.token.number < c.tokens.next) :
    Keeps tok p' { a with acked := a.acked ++ ackedIds r.2 } r.1 := by
  refine ⟨h.1.books, h.1.rests, fun k hk => ?_, h.2⟩
  rcases h.1.ticket k hk with ⟨hk, -⟩ | ⟨-, hlt, -⟩
  · exact Nat.lt_of_lt_of_le (hc k hk) h.1.tokens
  · exact hlt

/-- Something was queued: it is sent at once if nothing is in flight and nothing is scheduled. -/
theorem Books.scheduleSend (h : Books tok p a c₁) (hr : c.phase.Rests a.session p c.queue)
    (hl : c.Lags) (hp : c₁.phase = c.phase) (ht : c₁.tokens = c.tokens)
    (hres : c₁.stats.resends = c.stats.resends) (hrev : c₁.queue.revision = c.queue.revision)
    (hu : c₁.queue.unacked = c.queue.unacked) (hq : c₁.queue.queued ≠ []) :
    c₁.scheduleSend.Yields (Settles tok p p a c none) := by
  by_cases hn : c.phase = .allAcked none
  · rw [hn] at hr
    have hu₁ : c₁.queue.unacked = [] := hu.trans hr.1
    refine (scheduleSend_counts (hp.trans hn) hu₁).yields.mono fun r hs => ?_
    obtain ⟨task, tokens, effects, hs, rfl⟩ := hs
    refine ⟨.of_fresh ⟨h.connection, h.tracks, h.acks, h.echoes⟩ ?_ ⟨hu₁, hs.task_eq_none_iff⟩
      (.of_minor fun e he => ?_) (ht ▸ hs.next_le) (fun k hk => ?_) (fun _ h => absurd hu₁ h)
      (.inl hres), nofun⟩
    · dsimp only
      rw [hs.ackedIds_eq_nil, List.append_nil]
    · obtain ⟨rfl, hlt⟩ := hs.of_mem he; exact hlt
    · obtain ⟨hk, hlt, he⟩ := hs.of_ticket hk
      rw [hk, ← ht]; exact ⟨Nat.le_refl _, hlt, he⟩
  · have hidle : c₁.scheduleSend = c₁.idle := by
      unfold Channel.scheduleSend; split
      · exact absurd (hp.symm.trans ‹_›) hn
      · rfl
    rw [hidle]
    refine ⟨.of_same (by rwa [ackedIds_nil, List.append_nil]) ?_ trivial hp ht hres (by simp)
      (by simp) id fun hne ha => ⟨hu ▸ hne, ha, by rw [hu]⟩, fun probe answered target hph => ?_⟩
    · show c₁.phase.Rests a.session p c₁.queue
      rw [hp]
      refine hr.mono (by rw [hu]) (fun hnil => ⟨fun hq' => absurd hq' hq, fun hq' => ?_⟩) rfl id
      -- nothing is in flight and nothing was queued, so the phase is the one excluded
      obtain ⟨task, hph, htask⟩ := hr.of_nil hnil
      exact absurd (htask.2 hq' ▸ hph) hn
    · exact hrev ▸ hl probe answered target (hp ▸ hph)

theorem Books.onFailure {e : ServiceError} (h : Books tok p a c₁) (he : e.isRetryable)
    (hq : c₁.queue = c.queue) (ht : c₁.tokens = c.tokens)
    (hres : c₁.stats.resends = c.stats.resends) (hu : c₁.queue.unacked ≠ [])
    (hm : c₁.state.canMoveTo .delayResync) :
    (c₁.onFailure e).Yields (Settles tok p p a c event) := by
  cases e with
  | fatal message => cases he
  | retryable message =>
    have hc : Channel.connection { c₁ with stats := { c₁.stats with
        retryableFailures := c₁.stats.retryableFailures + 1 } } |>.isSome := h.isSome
    refine (scheduleResync_counts hc hu hm).yields.mono fun r hr => ?_
    rw [hr]
    refine ⟨.of_fresh ⟨h.connection, h.tracks, h.acks, h.echoes⟩ ?_ hu
      (.inl ⟨Nat.lt_succ_self _, trivial⟩) ?_ (fun k hk => ?_) (fun _ _ ha => ?_)
      (.inl hres), nofun⟩
    · simp [ackedIds]
    · rw [← ht]; exact Nat.le_succ _
    · cases hk; rw [← ht]; exact ⟨Nat.le_refl _, Nat.lt_succ_self _, _, .head _, rfl⟩
    · exact ⟨hq ▸ hu, ha, congrArg (fun q : Queue CharOp => q.unacked.map CharOp.label) hq⟩

theorem Books.ackBatch {submit : Token} {applied : Revision} (h : Books tok p a c₁)
    (hrev : applied.number = c₁.queue.revision.number + c₁.queue.unacked.length)
    (hh : Event.Honest a.session p (.submitResponse submit (.ok applied))) :
    ∃ p', p'.history = p.history ∧ p'.ahead = p.ahead ∧
      Books tok p' { a with acked := a.acked ++ c₁.queue.unacked.map (·.id) } { c₁ with
        queue := { c₁.queue with
          revision := applied
          unacked := []
          expectedEchoes := c₁.queue.expectedEchoes + c₁.queue.unacked.length }
        stats := { c₁.stats with eagerAcks := c₁.stats.eagerAcks + c₁.queue.unacked.length } } := by
  obtain ⟨-, habs, hnot⟩ := hh
  obtain ⟨heard, awaited, rest⟩ := p
  have hconf : c₁.queue.revision.number = (heard ++ awaited).length := h.tracks.revision
  have hdrop : Absent a.session (rest.drop c₁.queue.unacked.length) := by
    show Absent a.session ((Standing.mk heard awaited rest).rest.drop _)
    rwa [Standing.rest_eq_drop, List.drop_drop, Standing.confirmed, ← hconf, ← hrev]
  obtain ⟨mine, behind, rfl, htr⟩ := h.tracks.ackBatch (h.tracks.landed_of_not_absent hnot) hrev hdrop
  have hmine : c₁.queue.expectedEchoes + c₁.queue.unacked.length = (awaited ++ mine).length := htr.echoes
  have hawaited : c₁.queue.expectedEchoes = awaited.length := h.tracks.echoes
  have hecho : c₁.stats.duplicateAcks + awaited.length = c₁.stats.eagerAcks := h.echoes
  refine ⟨⟨heard, awaited ++ mine, behind⟩, by simp [Standing.history], by simp [Standing.ahead],
    h.connection, htr, ?_, ?_⟩
  · have := h.acks
    simp only [List.length_append, List.length_map]; omega
  · simp only; omega

/-- A response confirms the batch in flight, or the echoes will. -/
theorem Books.acknowledgeEagerly {submit : Token} {base : Revision} {batch : Nat} {applied : Revision}
    (h : Books tok p a c₁) (hp : c₁.phase = .waitingAck submit base batch true)
    (hq : c₁.queue = c.queue) (ht : c₁.tokens = c.tokens)
    (hres : c₁.stats.resends = c.stats.resends) (hu : c₁.queue.unacked ≠ [])
    (hh : Event.Honest a.session p (.submitResponse submit (.ok applied))) :
    (c₁.acknowledgeEagerly applied base batch).Yields fun r => ∃ p', p'.history = p.history ∧
      p'.ahead = p.ahead ∧ Settles tok p p' a c event r := by
  have hidle : Settles tok p p a c event (c₁, []) := by
    refine ⟨.of_fresh h (by simp) ?_ trivial (Nat.le_of_eq (by rw [ht])) (fun k hk => ?_)
      (fun _ hu ha => ?_) (.inl hres), fun _ _ _ h => ?_⟩
    · rw [hp]; exact ⟨hu, fun _ => hh.2.2⟩
    · rw [hp] at hk; cases hk
    · exact ⟨hq ▸ hu, ha, congrArg (fun q : Queue CharOp => q.unacked.map CharOp.label) hq⟩
    · rw [hp] at h; cases h
  unfold Channel.acknowledgeEagerly
  split
  · exact ⟨p, rfl, rfl, hidle⟩
  · refine Queue.ackBatch_counts.yields.bind fun r hr => ?_
    rcases hr with ⟨rfl, -⟩ | ⟨-, hrev, rfl⟩
    · exact ⟨p, rfl, rfl, hidle⟩
    · dsimp only
      obtain ⟨p', hhist, hahead, hb⟩ := h.ackBatch hrev hh
      refine (hb.allAcknowledged p c event rfl (by rw [state, hp]; rfl) (fun k hk => ?_)
        (Nat.le_of_eq (by rw [← ht])) hres).bind fun r hr => ?_
      · rw [hp] at hk; cases hk
      · exact ⟨p', hhist, hahead, hr.2 (fun e he => mem_ackedAll he) ackedIds_ackedAll, hr.1⟩

namespace Keeps

theorem of_queue {q : Queue CharOp} (h : Keeps tok p a c) : Keeps tok p { a with queue := q } c :=
  ⟨⟨h.books.connection, h.books.tracks, h.books.acks, h.books.echoes⟩, h.rests, h.fresh, h.lags⟩

theorem idle (h : Keeps tok p a c) (he : ∀ k, c.phase.ticket? = some k → event ≠ some k) :
    Settles tok p p a c event (c, []) :=
  ⟨h.books.idle h.rests he, h.lags⟩

theorem extend {ds : List (Delivery CharOp)} (h : Keeps tok p a c)
    (ht : Tracks (p.extend ds) { a with queue := c.queue })
    (hds : c.phase.ticket? = none → Absent a.session ds) : Keeps tok (p.extend ds) a c :=
  ⟨⟨h.books.connection, ht, h.books.acks, h.books.echoes⟩, h.rests.extend hds, h.fresh, h.lags⟩

theorem clientOp (h : Keeps tok p a c) (edit : Edit) :
    (c.queue.clientOp CharOp.transform ⟨a.made, a.site, edit⟩).Yields fun r =>
      ∃ t, Transformer.Moves CharOp.transform [⟨a.made, a.site, edit⟩] c.queue.pending t ∧
        r = (.ok (), { c.queue with queued := c.queue.queued ++ t.client, pending := t.server }) := by
  refine Queue.clientOp_counts.yields.mono fun r hr => ?_
  rcases hr with ⟨t, ht, rfl⟩ | ⟨e, ⟨-, he⟩, -⟩
  · exact ⟨t, ht.moves, rfl⟩
  · obtain ⟨op, hop, s, hs, hsite⟩ := CharOp.exists_site_eq_of_rejected he
    rw [List.mem_singleton.1 hop] at hsite
    exact absurd hsite.symm (h.books.tracks.others s hs)

theorem send (h : Keeps tok p a c) {edit : Edit} {doc : Doc} (hd : a.doc.apply edit = .ok doc) :
    (c.send CharOp.transform ⟨a.made, a.site, edit⟩).Yields fun r => r.1 = .ok () ∧
      Settles tok p p { a with doc, made := a.made + 1 } c none r.2 := by
  unfold Channel.send
  rw [if_pos (show c.isConnected from h.books.isSome)]
  refine (h.clientOp edit).bind fun r hr => ?_
  obtain ⟨t, ht, rfl⟩ := hr
  have hb : Books tok p { a with doc, made := a.made + 1 } { c with
      queue := { c.queue with queued := c.queue.queued ++ t.client, pending := t.server } } :=
    ⟨h.books.connection, h.books.tracks.edit hd ht, h.books.acks, h.books.echoes⟩
  have hne : c.queue.queued ++ t.client ≠ [] := by
    have := CharOp.length_of_labels (CharOp.transform_labels (CharOp.transform_of_moves ht)).1
    intro hnil
    rw [(List.append_eq_nil_iff.1 hnil).2] at this; cases this
  dsimp only
  exact (hb.scheduleSend h.rests h.lags rfl rfl rfl rfl rfl hne).bind fun r hr => ⟨rfl, hr⟩

theorem maybeSend (h : Keeps tok p a c) {id : Token} (hp : c.phase = .allAcked (some id)) :
    (c.maybeSend id).Yields (Settles tok p p a c (some (.task ⟨id, .maybeSend⟩))) := by
  have hr := h.rests
  rw [hp] at hr
  obtain ⟨hu, hq⟩ := hr
  have hq : c.queue.queued ≠ [] := fun h => nomatch hq.2 h
  unfold Channel.maybeSend
  rw [hp]; dsimp only
  rw [if_neg (not_not_intro rfl), if_neg (by simp [hu, hq]), Queue.launch_of_nil hu]
  refine (transmit_counts ?_ ?_ rfl).yields.mono fun r hr => ?_
  · exact h.books.isSome
  · exact hq
  rw [hr]
  refine ⟨.of_fresh ⟨h.books.connection, h.books.tracks.launch hu, h.books.acks, h.books.echoes⟩ ?_
    ⟨hq, nofun⟩ (.inr ⟨⟨rfl, rfl, rfl, h.books.tracks.absent_of_nil hu⟩, rfl⟩) (Nat.le_succ _)
    (fun k hk => ?_) (fun hn => absurd (.head _) (hn _ _ _)) (.inl rfl), nofun⟩
  · simp [ackedIds]
  · cases hk; exact ⟨Nat.le_refl _, Nat.lt_succ_self _, _, .head _, rfl⟩

theorem startProbe (h : Keeps tok p a c) {timer : Token} (hp : c.phase = .delayResync timer) :
    (c.startProbe timer).Yields (Settles tok p p a c (some (.task ⟨timer, .resync⟩))) := by
  have hu := h.rests
  rw [hp] at hu
  refine (startProbe_counts hp h.books.isSome hu).yields.mono fun r hr => ?_
  rw [hr]
  refine ⟨.of_fresh ⟨h.books.connection, h.books.tracks, h.books.acks, h.books.echoes⟩ ?_
    ⟨hu, rfl, nofun⟩ (.inr ⟨rfl, rfl⟩) (Nat.le_succ _) (fun k hk => ?_)
    (fun _ hu ha => ⟨hu, ha, rfl⟩) (.inl rfl), nofun⟩
  · simp [ackedIds]
  · cases hk; exact ⟨Nat.le_refl _, Nat.lt_succ_self _, _, .head _, rfl⟩

theorem onSubmitResponse (h : Keeps tok p a c) {submit : Token} {base : Revision} {batch : Nat}
    {result : Except ServiceError Revision} (hp : c.phase = .waitingAck submit base batch false)
    (hh : Event.Honest a.session p (.submitResponse submit result)) :
    (c.onSubmitResponse submit result).Yields fun r => ∃ p', p'.history = p.history ∧
      p'.ahead = p.ahead ∧ Settles tok p p' a c (some (.submit submit)) r := by
  have hr := h.rests
  rw [hp] at hr
  obtain ⟨hu, -⟩ := hr
  have hb : Books tok p a { c with phase := .waitingAck submit base batch true } :=
    ⟨h.books.connection, h.books.tracks, h.books.acks, h.books.echoes⟩
  unfold Channel.onSubmitResponse
  rw [hp]; dsimp only
  rw [if_neg (not_not_intro rfl)]
  cases result with
  | error e =>
    have hf : (Channel.onFailure { c with phase := .waitingAck submit base batch true } e).Yields
        (Settles tok p p a c (some (.submit submit))) := hb.onFailure hh rfl rfl rfl hu rfl
    exact hf.mono fun r hr => ⟨p, rfl, rfl, hr⟩
  | ok applied => exact hb.acknowledgeEagerly rfl rfl rfl rfl hu hh

theorem onProbeResponse (h : Keeps tok p a c) {probe : Token} {target : Option Revision}
    {result : Except ServiceError Revision} (hp : c.phase = .waitingSync probe false target)
    (hh : Event.Honest a.session p (.probeResponse probe result)) :
    (c.onProbeResponse probe result).Yields (Settles tok p p a c (some (.probe probe))) := by
  have hr := h.rests
  rw [hp] at hr
  obtain ⟨hu, -⟩ := hr
  unfold Channel.onProbeResponse
  rw [hp]; dsimp only
  rw [if_neg (not_not_intro rfl)]
  cases result with
  | error e =>
    have hb : Books tok p a { c with phase := .waitingSync probe true none } :=
      ⟨h.books.connection, h.books.tracks, h.books.acks, h.books.echoes⟩
    exact hb.onFailure hh rfl rfl rfl hu rfl
  | ok revision =>
    have hb : Books tok p a { c with phase := .waitingSync probe true (some revision) } :=
      ⟨h.books.connection, h.books.tracks, h.books.acks, h.books.echoes⟩
    have ha : Answers tok p p a c (some (.probe probe))
        ({ c with phase := .waitingSync probe true (some revision) }, []) := by
      refine .of_fresh hb (by simp) ⟨hu, rfl, fun t ht => ?_⟩ trivial (Nat.le_refl _) nofun
        (fun _ hu ha => ⟨hu, ha, rfl⟩) (.inl rfl)
      cases ht; exact hh
    exact ha.synced

/-- Anything but a delivery, if it says the truth whenever the channel waits for it. -/
theorem handle (h : Keeps tok p a c) {event : Event CharOp} {k : Ticket}
    (hk : event.ticket? = some k) (hh : c.phase.ticket? = some k → event.Honest a.session p) :
    (c.handle CharOp.transform event).Yields fun r => ∃ p', p'.history = p.history ∧
      p'.ahead = p.ahead ∧ Settles tok p p' a c (some k) r := by
  by_cases hp : c.phase.ticket? = some k
  · replace hh := hh hp
    cases event with
    | task task =>
      obtain ⟨id, kind⟩ := task
      cases hk
      cases kind with
      | maybeSend =>
        exact (h.maybeSend (Phase.ticket?_eq_send_iff.1 hp)).mono fun r hr => ⟨p, rfl, rfl, hr⟩
      | resync =>
        exact (h.startProbe (Phase.ticket?_eq_resync_iff.1 hp)).mono fun r hr => ⟨p, rfl, rfl, hr⟩
    | submitResponse token result =>
      cases hk
      obtain ⟨base, batch, hp⟩ := Phase.ticket?_eq_submit_iff.1 hp
      exact h.onSubmitResponse hp hh
    | probeResponse token result =>
      cases hk
      obtain ⟨target, hp⟩ := Phase.ticket?_eq_probe_iff.1 hp
      exact (h.onProbeResponse hp hh).mono fun r hr => ⟨p, rfl, rfl, hr⟩
    | incoming connection message => cases hk
  · rw [handle_of_stale hk hp]
    exact ⟨p, rfl, rfl, h.idle fun k' hk' he => hp (by rw [hk']; exact he.symm)⟩

/-! ### Deliveries -/

section
variable {heard awaited rest ds : List (Delivery CharOp)} {d : Delivery CharOp}

theorem echo (h : Keeps tok ⟨heard, d :: awaited, rest⟩ a c)
    (hrev : d.revision.number = heard.length + 1) :
    (c.onEcho d.revision d.op).Yields fun r => r.1 = .ok () ∧
      Answers tok ⟨heard, d :: awaited, rest⟩ ⟨heard ++ [d], awaited, rest⟩ a c none r.2 := by
  have he : c.queue.expectedEchoes = awaited.length + 1 := h.books.tracks.echoes
  have hq : c.queue.revision.number = heard.length + (awaited.length + 1) := by
    have := h.books.tracks.revision
    simpa [Standing.confirmed] using this
  unfold Channel.onEcho
  refine (Queue.takeEcho_of_due he (by omega)).yields.bind fun r hr => ?_
  rw [hr]
  have hecho : c.stats.duplicateAcks + (awaited.length + 1) = c.stats.eagerAcks := h.books.echoes
  refine ⟨rfl, .of_same ⟨h.books.connection, ?_, ?_, ?_⟩ ?_ trivial rfl rfl rfl (by simp)
    (by simp) id fun hu ha => ⟨hu, ha, rfl⟩⟩
  · rw [ackedIds_nil, List.append_nil]; exact h.books.tracks.echo
  · rw [ackedIds_nil, List.append_nil]; exact h.books.acks
  · dsimp only; omega
  · exact h.rests.mono Iff.rfl (fun _ => Iff.rfl) (by simp [Standing.history]) id

theorem ack (h : Keeps tok ⟨heard, [], d :: rest⟩ a c) (hd : d.session = a.session)
    (hrev : d.revision.number = heard.length + 1) :
    (c.onEcho d.revision d.op).Yields fun r => r.1 = .ok () ∧
      Answers tok ⟨heard, [], d :: rest⟩ ⟨heard ++ [d], [], rest⟩ a c none r.2 := by
  have hrev' : d.revision.number = c.queue.revision.number + 1 := by
    rw [hrev]; exact congrArg (· + 1) h.books.tracks.revision_of_heard.symm
  obtain ⟨unacked, hu, hleft, htr⟩ := h.books.tracks.ack hd hrev'
  have he : c.queue.expectedEchoes = 0 := h.books.tracks.echoes
  unfold Channel.onEcho
  rw [Queue.takeEcho_of_zero he]
  refine (Queue.ackOldest_of_timely ⟨he, hrev'⟩ hu).yields.bind fun r hr => ?_
  rw [hr]; dsimp only
  have hb : Books tok ⟨heard ++ [d], [], rest⟩ { a with acked := a.acked ++ [d.op.id] } { c with
      queue := { c.queue with revision := d.revision, unacked }
      stats := { c.stats with directAcks := c.stats.directAcks + 1 } } := by
    refine ⟨h.books.connection, ?_, ?_, h.books.echoes⟩
    · dsimp only; rw [he]; exact htr
    · have := h.books.acks
      simp only [List.length_append, List.length_singleton]; omega
  have hne : c.queue.unacked ≠ [] := by rw [hu]; simp
  by_cases hnil : unacked = []
  · rw [hnil] at hb ⊢
    refine (hb.allAcknowledged ⟨heard, [], d :: rest⟩ c none rfl (h.rests.canMoveTo_allAcked hne)
      h.fresh (Nat.le_refl _) rfl).bind
      fun r hr => ⟨rfl, hr.2 (fun e he => ⟨d.op, _, List.mem_singleton.1 he⟩) rfl⟩
  · rw [if_neg (by simpa using hnil)]
    have hnot : ¬ Absent a.session rest := hleft.resolve_left hnil
    refine ⟨rfl, .of_same hb ?_ (.inl ⟨trivial, trivial⟩) rfl rfl rfl (by simp)
      (by simp [Effect.ticket?]) (fun _ => hnot) fun _ ha => absurd ha hnot⟩
    exact h.rests.mono (iff_of_false hnil hne) (fun h => absurd h hne) (by simp [Standing.history])
      fun _ => hnot

theorem other (h : Keeps tok ⟨heard, [], d :: rest⟩ a c) (hd : d.session ≠ a.session)
    (hsite : d.op.site ≠ a.site) (hrev : d.revision.number = heard.length + 1)
    (hbase : ∃ base, replay (heard ++ [d]) = .ok base) :
    (c.onRemote CharOp.transform d.revision d.op).Yields fun r => r.1 = .ok () ∧
      Answers tok ⟨heard, [], d :: rest⟩ ⟨heard ++ [d], [], rest⟩ a c none r.2 := by
  have hrev' : d.revision.number = c.queue.revision.number + 1 := by
    rw [hrev]; exact congrArg (· + 1) h.books.tracks.revision_of_heard.symm
  have he : c.queue.expectedEchoes = 0 := h.books.tracks.echoes
  have htheirs : ∀ op ∈ [d.op], op.site ≠ a.site := by simpa using hsite
  obtain ⟨base, hbase⟩ := hbase
  unfold Channel.onRemote
  refine Queue.serverOp_counts.yields.bind fun r hr => ?_
  rcases hr with ⟨flight, queued, -, hf, hqd, rfl⟩ | ⟨e, hu, -⟩ | ⟨e, q, -, ⟨-, hrej⟩ | ⟨flight, hf, -, hrej⟩, -⟩
  · replace hf := hf.moves
    replace hqd := hqd.moves
    have hl := (CharOp.transform_labels (CharOp.transform_of_moves hf)).1
    have hl' := (CharOp.transform_labels (CharOp.transform_of_moves hqd)).1
    have habs : Absent a.session rest → Absent a.session (d :: rest) := fun ha e he => by
      rcases List.mem_cons.1 he with rfl | he
      · exact hd
      · exact ha e he
    have hlen := CharOp.length_of_labels hl
    have hlen' := CharOp.length_of_labels hl'
    refine ⟨rfl, .of_same ⟨h.books.connection, ?_, ?_, h.books.echoes⟩ ?_ (.inl ⟨trivial, trivial⟩) rfl
      rfl rfl (by simp) (by simp [Effect.ticket?]) (mt habs) fun hu ha => ⟨?_, habs ha, hl⟩⟩
    · show Tracks _ { a with acked := a.acked ++ [], queue := _ }
      rw [List.append_nil]
      exact h.books.tracks.other hd hsite hrev' hbase hf hqd
    · show _ = (a.acked ++ []).length
      rw [List.append_nil]; exact h.books.acks
    · refine h.rests.mono ?_ (fun _ => ?_) (by simp [Standing.history]) (mt habs)
      · rw [← List.length_eq_zero_iff, ← List.length_eq_zero_iff, hlen]
      · rw [← List.length_eq_zero_iff, ← List.length_eq_zero_iff, hlen']
    · intro hnil
      rw [hnil] at hlen
      exact hu (List.length_eq_zero_iff.1 hlen)
  · exact absurd hu (Queue.Timely.not_untimely ⟨he, hrev'⟩)
  · exact absurd hrej (h.books.tracks.transform_ne_rejected (fun _ => List.mem_append_left _) htheirs)
  · have hs := CharOp.forall_site_of_labels (P := (· ≠ a.site))
      (CharOp.transform_labels (CharOp.transform_of_moves hf.moves)).2 htheirs
    exact absurd hrej (h.books.tracks.transform_ne_rejected (fun _ => List.mem_append_right _) hs)

theorem delivery (h : Keeps tok p a c) (hp : p.ahead = d :: ds)
    (hrev : d.revision.number = p.heard.length + 1) (hsite : d.session ≠ a.session → d.op.site ≠ a.site)
    (hbase : ∃ base, replay (p.heard ++ [d]) = .ok base) :
    (if d.session = a.session then c.onEcho d.revision d.op
      else c.onRemote CharOp.transform d.revision d.op).Yields fun r => r.1 = .ok () ∧ ∃ p',
        p'.history = p.history ∧ p'.heard = p.heard ++ [d] ∧ p'.ahead = ds ∧
          Answers tok p p' a c none r.2 := by
  obtain ⟨heard, awaited, rest⟩ := p
  cases awaited with
  | cons d' awaited =>
    obtain ⟨rfl, rfl⟩ := List.cons.inj hp
    rw [if_pos (h.books.tracks.own d' (by simp))]
    exact (h.echo hrev).mono fun r hr => ⟨hr.1, _, by simp [Standing.history], rfl, rfl, hr.2⟩
  | nil =>
    obtain rfl : rest = d :: ds := hp
    by_cases hd : d.session = a.session
    · rw [if_pos hd]
      exact (h.ack hd hrev).mono fun r hr => ⟨hr.1, _, by simp [Standing.history], rfl, rfl, hr.2⟩
    · rw [if_neg hd]
      exact (h.other hd (hsite hd) hrev hbase).mono fun r hr =>
        ⟨hr.1, _, by simp [Standing.history], rfl, rfl, hr.2⟩

theorem incoming (h : Keeps tok p a c) (hp : p.ahead = d :: ds)
    (hrev : d.revision.number = p.heard.length + 1) (hsite : d.session ≠ a.session → d.op.site ≠ a.site)
    (hbase : ∃ base, replay (p.heard ++ [d]) = .ok base) :
    (c.handle CharOp.transform (.incoming tok (.ok d))).Yields fun r => ∃ p',
      p'.history = p.history ∧ p'.heard = p.heard ++ [d] ∧ p'.ahead = ds ∧
        Settles tok p p' a c none r := by
  have hanswer := h.delivery hp hrev hsite hbase
  show (c.onIncoming CharOp.transform tok (.ok d)).Yields _
  unfold onIncoming
  rw [h.books.connection]; dsimp only
  rw [if_neg (not_not_intro rfl)]
  by_cases hd : d.session = a.session
  all_goals
    simp only [hd, if_true, if_false] at hanswer ⊢
    refine hanswer.bind fun r hr => ?_
    obtain ⟨result, c₁, effects⟩ := r
    obtain ⟨rfl, p', hhist, hheard, hahead, ha⟩ := hr
    exact ha.synced.bind fun r hr => ⟨p', hhist, hheard, hahead, hr⟩

end

end Keeps

end Channel

end CoEdit
