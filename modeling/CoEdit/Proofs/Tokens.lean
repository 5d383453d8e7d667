import CoEdit.Proofs.Coherence

/-!
# Tokens are live once

A token is live while the channel waits for what it gave the token out for: for the ticket of its phase,
or for deliveries over its connection (`Live`). Whatever the channel comes to wait for has a token that
it never gave out before (`Turnover`), so a token that is not live any more never becomes live again
(`Spent`), in later sessions either. A token is spent at the latest when the event that it was given out
for was handled, or when it was given up.
-/

namespace CoEdit

variable {M : Type}

def Event.token : Event M → Token
  | .task t => t.id
  | .submitResponse token _ | .probeResponse token _ | .incoming token _ => token

/-- The token that an effect gives up: a task is cancelled, a request disregarded. -/
def Effect.dropped? : Effect M → Option Token
  | .cancel id => some id
  | .disregard token => some token
  | _ => none

namespace Channel

/-- The channel waits for what it gave the token out for. -/
def Live (c : Channel M) (token : Token) : Prop :=
  (∃ k, c.phase.ticket? = some k ∧ k.token = token) ∨ ∃ me, c.connection = some ⟨me, token⟩

/-- The token was given out and is not live any more. -/
def Spent (c : Channel M) (token : Token) : Prop :=
  token.number < c.tokens.next ∧ ¬ c.Live token

/-- The token was given out on the way from `c` to `c'`. -/
def Mints (c c' : Channel M) (token : Token) : Prop :=
  c.tokens.next ≤ token.number ∧ token.number < c'.tokens.next

/-- The channel goes on waiting for what it waited for, or comes to wait for something new. -/
inductive Waits (c : Channel M) (r : Reaction M) : Prop
  | on (hp : r.1.phase.ticket? = c.phase.ticket?) (hd : ∀ e ∈ r.2, e.dropped? = none)
  | anew (hp : ∀ k, r.1.phase.ticket? = some k → Mints c r.1 k.token)
    (hd : ∀ e ∈ r.2, ∀ t, e.dropped? = some t → ∃ k, c.phase.ticket? = some k ∧ k.token = t)

/-- How a reaction deals with tokens. -/
structure Turnover (c : Channel M) (r : Reaction M) : Prop where
  next_le : c.tokens.next ≤ r.1.tokens.next
  /-- Everything asked for is asked for under a new token. -/
  asks : ∀ e ∈ r.2, ∀ k, e.ticket? = some k → Mints c r.1 k.token
  waits : Waits c r
  connection : r.1.connection = c.connection ∨ r.1.connection = none ∨
    r.1.phase.ticket? = none ∧ ∃ me token, r.1.connection = some ⟨me, token⟩ ∧ Mints c r.1 token

section
variable {x : Transformer M} {c : Channel M} {r : Reaction M} {me : Session} {token : Token}
  {event : Event M}

theorem Awaits.live (h : c.Awaits event) : c.Live event.token := by
  cases event with
  | incoming token message => exact .inr h
  | _ => exact .inl ⟨_, h, rfl⟩

theorem Awaits.of_ticket {k : Ticket} (h : c.Awaits event) (hk : event.ticket? = some k) :
    c.phase.ticket? = some k ∧ k.token = event.token := by
  cases event with
  | incoming token message => cases hk
  | _ => cases hk; exact ⟨h, rfl⟩

theorem Phase.dropped_of_mem_release {phase : Phase} {e : Effect M} {t : Token}
    (he : e ∈ phase.release) (ht : e.dropped? = some t) :
    ∃ k, phase.ticket? = some k ∧ k.token = t := by
  unfold release at he; split at he
  · cases List.mem_singleton.1 he; cases ht; exact ⟨_, rfl, rfl⟩
  · cases List.mem_singleton.1 he; cases ht; exact ⟨_, rfl, rfl⟩
  · cases List.mem_singleton.1 he; cases ht; exact ⟨_, rfl, rfl⟩
  · cases List.mem_singleton.1 he; cases ht; exact ⟨_, rfl, rfl⟩
  · cases he

theorem Phase.ticket?_of_mem_release {phase : Phase} {e : Effect M} (he : e ∈ phase.release) :
    e.ticket? = none := by
  rcases Phase.mem_release he with ⟨id, kind, rfl, -⟩ | ⟨token, rfl⟩ <;> rfl

theorem Mints.of_eq {c' c'' : Channel M} (h : Mints c' c'' token) (hn : c'.tokens = c.tokens) :
    Mints c c'' token := by
  unfold Mints at *; rwa [hn] at h

theorem Turnover.refl : Turnover c (c, []) :=
  ⟨Nat.le_refl _, nofun, .on rfl nofun, .inl rfl⟩

theorem Turnover.close {es : List (Effect M)}
    (hes : ∀ e ∈ es, e.ticket? = none ∧
      ∀ t, e.dropped? = some t → ∃ k, c.phase.ticket? = some k ∧ k.token = t) :
    Turnover c (c.closed, es) :=
  ⟨Nat.le_refl _, fun e he _ hk => (nomatch (hes e he).1.symm.trans hk),
    .anew nofun fun e he => (hes e he).2, .inr (.inl rfl)⟩

theorem Schedules.turnover {task : Option Token} {tokens : TokenSource} {effects : List (Effect M)}
    (h : c.Schedules task tokens effects) : c.tokens.next ≤ tokens.next ∧
      (∀ e ∈ effects, e.dropped? = none ∧
        ∀ k, e.ticket? = some k → Mints c { c with tokens } k.token) ∧
      ∀ k, (Phase.allAcked task).ticket? = some k → Mints c { c with tokens } k.token := by
  rcases h with ⟨-, rfl, rfl, rfl⟩ | ⟨-, rfl, rfl, rfl⟩
  · exact ⟨Nat.le_refl _, nofun, nofun⟩
  · refine ⟨Nat.le_succ _, fun e he => ?_, fun k hk => ?_⟩
    · cases List.mem_singleton.1 he
      refine ⟨rfl, fun k hk => ?_⟩
      cases hk
      exact ⟨Nat.le_refl _, Nat.lt_succ_self _⟩
    · cases hk
      exact ⟨Nat.le_refl _, Nat.lt_succ_self _⟩

/-- The one new thing that a channel comes to wait for takes the next token. -/
theorem Turnover.next {c' : Channel M} {es : List (Effect M)}
    (hnext : c'.tokens.next = c.tokens.next + 1) (hconn : c'.connection = c.connection)
    (hp : ∀ k, c'.phase.ticket? = some k → k.token = ⟨c.tokens.next⟩)
    (hes : ∀ e ∈ es, e.dropped? = none ∧ ∀ k, e.ticket? = some k → k.token = ⟨c.tokens.next⟩) :
    Turnover c (c', es) := by
  have hmints {k : Ticket} (hk : k.token = ⟨c.tokens.next⟩) : Mints c c' k.token := by
    rw [hk]
    exact ⟨Nat.le_refl _, hnext ▸ Nat.lt_succ_self _⟩
  refine ⟨?_, fun e he k hk => hmints ((hes e he).2 k hk), .anew (fun k hk => hmints (hp k hk)) ?_,
    .inl hconn⟩
  · dsimp only; omega
  · intro e he t ht
    rw [(hes e he).1] at ht
    cases ht

theorem Turnover.confirmed {q : Queue M} {stats : Stats} {task : Option Token} {tokens : TokenSource}
    {effects news : List (Effect M)} (hs : c.Schedules task tokens effects)
    (hnews : ∀ e ∈ news, e.dropped? = none ∧ e.ticket? = none) :
    Turnover c ({ c with queue := q, tokens, stats, phase := .allAcked task },
      c.phase.release ++ .resetBackoff :: effects ++ news) := by
  obtain ⟨hnext, heffects, htask⟩ := hs.turnover
  have hcases {e : Effect M}
      (he : e ∈ c.phase.release ++ .resetBackoff :: effects ++ news) :
      e ∈ c.phase.release ∨ e = .resetBackoff ∨ e ∈ effects ∨ e ∈ news := by
    simpa [or_assoc] using he
  refine ⟨hnext, fun e he k hk => ?_, .anew htask fun e he t ht => ?_, .inl rfl⟩
  · rcases hcases he with he | rfl | he | he
    · rw [Phase.ticket?_of_mem_release he] at hk; cases hk
    · cases hk
    · exact (heffects e he).2 k hk
    · rw [(hnews e he).2] at hk; cases hk
  · rcases hcases he with he | rfl | he | he
    · exact Phase.dropped_of_mem_release he ht
    · cases ht
    · rw [(heffects e he).1] at ht; cases ht
    · rw [(hnews e he).1] at ht; cases ht

theorem Turnover.after {r' : Reaction M} (h : Turnover r.1 r') (hn : r.1.tokens = c.tokens)
    (hp : r.1.phase = c.phase) (hc : r.1.connection = c.connection)
    (hes : ∀ e ∈ r.2, e.dropped? = none ∧ e.ticket? = none) : Turnover c (r'.1, r.2 ++ r'.2) := by
  obtain ⟨hnext, hasks, hwaits, hconn⟩ := h
  refine ⟨hn ▸ hnext, fun e he k hk => ?_, ?_, ?_⟩
  · rcases List.mem_append.1 he with he | he
    · rw [(hes e he).2] at hk; cases hk
    · exact (hasks e he k hk).of_eq hn
  · cases hwaits with
    | on hp' hd =>
      refine .on (hp'.trans (by rw [hp])) fun e he => ?_
      exact (List.mem_append.1 he).elim (fun he => (hes e he).1) (hd e)
    | anew hp' hd =>
      refine .anew (fun k hk => (hp' k hk).of_eq hn) fun e he t ht => ?_
      rcases List.mem_append.1 he with he | he
      · rw [(hes e he).1] at ht; cases ht
      · rw [← hp]; exact hd e he t ht
  · rcases hconn with hconn | hconn | ⟨hk, me, token, hconn, hmints⟩
    · exact .inl (hconn.trans hc)
    · exact .inr (.inl hconn)
    · exact .inr (.inr ⟨hk, me, token, hconn, hmints.of_eq hn⟩)

theorem Syncs.turnover (h : c.Syncs r) : Turnover c r := by
  cases h with
  | lags h => exact .refl
  | resends hp hr hu =>
    refine .next rfl rfl (fun k hk => by cases hk; rfl) fun e he => ?_
    rcases List.mem_cons.1 he with rfl | he
    · exact ⟨rfl, nofun⟩
    · cases List.mem_singleton.1 he
      exact ⟨rfl, fun k hk => by cases hk; rfl⟩
  | @finishes _ _ _ task tokens effects hp hr hu hs =>
    have hconfirmed : Turnover c ({ c with phase := .allAcked task, tokens },
        c.phase.release ++ .resetBackoff :: effects ++ []) := .confirmed hs nofun
    rwa [List.append_nil] at hconfirmed

theorem Syncs.eq_of_ne (h : c.Syncs r)
    (hp : ∀ probe answered target, c.phase ≠ .waitingSync probe answered (some target)) :
    r = (c, []) := by
  cases h with
  | lags h => rfl
  | resends hp' => exact absurd hp' (hp _ _ _)
  | finishes hp' => exact absurd hp' (hp _ _ _)

theorem Accepts.turnover {d : Delivery M} {r' : Reaction M} (h : Accepts x c me d r)
    (hs : Syncs r.1 r') : Turnover c (r'.1, r.2 ++ r'.2) := by
  cases h with
  | recognises hd he hr => exact hs.turnover.after rfl rfl rfl nofun
  | confirms hd ht hu hne =>
    refine hs.turnover.after rfl rfl rfl fun e he => ?_
    cases List.mem_singleton.1 he
    exact ⟨rfl, rfl⟩
  | confirmsLast hd ht hu hs' =>
    rw [hs.eq_of_ne nofun, List.append_nil]
    refine .confirmed hs' fun e he => ?_
    cases List.mem_singleton.1 he
    exact ⟨rfl, rfl⟩
  | takesIn hd ht hf hr =>
    refine hs.turnover.after rfl rfl rfl fun e he => ?_
    cases List.mem_singleton.1 he
    exact ⟨rfl, rfl⟩

theorem Turnover.of_idle {c' : Channel M} (h : Turnover c' r) (hk : c'.phase.ticket? = none)
    (hn : c'.tokens = c.tokens) (hc : c'.connection = c.connection) :
    Turnover c r ∧ ∀ k, r.1.phase.ticket? = some k → Mints c r.1 k.token := by
  obtain ⟨hnext, hasks, hwaits, hconn⟩ := h
  have hanew : (∀ k, r.1.phase.ticket? = some k → Mints c r.1 k.token) ∧
      ∀ e ∈ r.2, e.dropped? = none := by
    cases hwaits with
    | on hp hd => exact ⟨fun k hk' => (nomatch (hp.trans hk).symm.trans hk'), hd⟩
    | anew hp hd =>
      refine ⟨fun k hk' => (hp k hk').of_eq hn, fun e he => ?_⟩
      cases ht : e.dropped? with
      | none => rfl
      | some t =>
        obtain ⟨k, hk', -⟩ := hd e he t ht
        exact nomatch hk.symm.trans hk'
  refine ⟨⟨hn ▸ hnext, fun e he k hk => (hasks e he k hk).of_eq hn, .anew hanew.1 ?_, ?_⟩, hanew.1⟩
  · exact fun e he t ht => nomatch (hanew.2 e he).symm.trans ht
  · rcases hconn with hconn | hconn | ⟨hk, me, token, hconn, hmints⟩
    · exact .inl (hconn.trans hc)
    · exact .inr (.inl hconn)
    · exact .inr (.inr ⟨hk, me, token, hconn, hmints.of_eq hn⟩)

theorem Reacts.turnover (h : Reacts x c event r) : Turnover c r := by
  cases h with
  | stale h => exact .refl
  | submits hp hu hq =>
    exact .next rfl rfl (by simp [Phase.ticket?, Ticket.token])
      (by simp [Effect.dropped?, Effect.ticket?, Ticket.token])
  | lapses hp hq => exact ⟨Nat.le_refl _, nofun, .anew nofun nofun, .inl rfl⟩
  | probes hp =>
    exact .next rfl rfl (by simp [Phase.ticket?, Ticket.token])
      (by simp [Effect.dropped?, Effect.ticket?, Ticket.token])
  | @confirms submit base batch applied task tokens effects hp hb hu hr hs =>
    have hnews : ∀ e ∈ ackedAll c.queue.queued.isEmpty c.queue.unacked,
        e.dropped? = none ∧ e.ticket? = none := by
      intro e he
      obtain ⟨op, clean, rfl⟩ := mem_ackedAll he
      exact ⟨rfl, rfl⟩
    -- The response is noted before anything is let go of.
    suffices h : Turnover { c with phase := .waitingAck submit base batch true } _ from
      (h.of_idle (c := c) rfl rfl rfl).1
    exact .confirmed hs hnews
  | defers hp hr => exact ⟨Nat.le_refl _, nofun, .anew nofun nofun, .inl rfl⟩
  | learns hp hs => exact (hs.turnover.of_idle (c := c) rfl rfl rfl).1
  | retries h he =>
    exact .next rfl rfl (by simp [Phase.ticket?, Ticket.token])
      (by simp [Effect.dropped?, Effect.ticket?, Ticket.token])
  | givesUp h he => exact .close (by simp [Effect.dropped?, Effect.ticket?])
  | breaks hc h =>
    refine .close fun e he => ?_
    rcases List.mem_append.1 he with he | he
    · exact ⟨Phase.ticket?_of_mem_release he, fun t ht => Phase.dropped_of_mem_release he ht⟩
    · rcases List.mem_cons.1 he with rfl | he
      · exact ⟨rfl, nofun⟩
      · cases List.mem_singleton.1 he
        exact ⟨rfl, nofun⟩
  | accepts hc h hs => exact h.turnover hs

theorem Does.turnover {call : Call M} {reply : Reply M} (h : Does x c call reply r) :
    Turnover c r := by
  cases h with
  | connects hconn =>
    exact ⟨Nat.le_succ _, by simp [Effect.ticket?], .anew nofun (by simp [Effect.dropped?]),
      .inr (.inr ⟨rfl, _, _, rfl, Nat.le_refl _, Nat.lt_succ_self _⟩)⟩
  | schedules hp ht hs =>
    obtain ⟨hnext, heffects, htask⟩ := hs.turnover
    refine ⟨hnext, fun e he => (heffects e he).2, .anew htask fun e he t ht => ?_, .inl rfl⟩
    rw [(heffects e he).1] at ht; cases ht
  | disconnects hconn =>
    refine .close fun e he => ?_
    rcases List.mem_append.1 he with he | he
    · exact ⟨Phase.ticket?_of_mem_release he, fun t ht => Phase.dropped_of_mem_release he ht⟩
    · cases List.mem_singleton.1 he
      exact ⟨rfl, nofun⟩
  | rejects hconn he =>
    refine .close fun e he => ?_
    rcases List.mem_append.1 he with he | he
    · exact ⟨Phase.ticket?_of_mem_release he, fun t ht => Phase.dropped_of_mem_release he ht⟩
    · cases List.mem_singleton.1 he
      exact ⟨rfl, nofun⟩
  | reacts h => exact h.turnover
  | _ => exact ⟨Nat.le_refl _, nofun, .on rfl nofun, .inl rfl⟩

/-- After an event that brought what the phase waited for, the phase waits for nothing or for something
new. -/
theorem Reacts.moves_on {k : Ticket} (h : Reacts x c event r) (hl : c.Awaits event)
    (hk : event.ticket? = some k) : ∀ k, r.1.phase.ticket? = some k → Mints c r.1 k.token := by
  cases h with
  | stale h => exact absurd hl h
  | submits hp hu hq => rintro k ⟨⟩; exact ⟨Nat.le_refl _, Nat.lt_succ_self _⟩
  | lapses hp hq => nofun
  | probes hp => rintro k ⟨⟩; exact ⟨Nat.le_refl _, Nat.lt_succ_self _⟩
  | confirms hp hb hu hr hs => exact hs.turnover.2.2
  | defers hp hr => nofun
  | learns hp hs => exact (hs.turnover.of_idle (c := c) rfl rfl rfl).2
  | retries h he => rintro k ⟨⟩; exact ⟨Nat.le_refl _, Nat.lt_succ_self _⟩
  | givesUp h he => nofun
  | breaks hc h => cases hk
  | accepts hc h hs => cases hk

/-- The live tokens were given out, each for one thing. -/
structure Tokened (c : Channel M) : Prop where
  lt : ∀ t, c.Live t → t.number < c.tokens.next
  ne : ∀ k me t, c.phase.ticket? = some k → c.connection = some ⟨me, t⟩ → k.token ≠ t

theorem Turnover.live (h : Turnover c r) {t : Token} (ht : r.1.Live t) : c.Live t ∨ Mints c r.1 t := by
  rcases ht with ⟨k, hk, rfl⟩ | ⟨me, hme⟩
  · cases h.waits with
    | on hp hd => exact .inl (.inl ⟨k, hp ▸ hk, rfl⟩)
    | anew hp hd => exact .inr (hp k hk)
  · rcases h.connection with hc | hc | ⟨-, me', token, hc, hmints⟩
    · exact .inl (.inr ⟨me, hc ▸ hme⟩)
    · rw [hc] at hme; cases hme
    · rw [hc] at hme; cases hme
      exact .inr hmints

theorem Turnover.tokened (h : Turnover c r) (hc : c.Tokened) : r.1.Tokened where
  lt t ht := by
    rcases h.live ht with ht | ht
    · exact Nat.lt_of_lt_of_le (hc.lt t ht) h.next_le
    · exact ht.2
  ne k me t hk hme := by
    rcases h.connection with hconn | hconn | ⟨hnone, -⟩
    · rw [hconn] at hme
      have hlt := hc.lt t (.inr ⟨me, hme⟩)
      cases h.waits with
      | on hp hd => exact hc.ne k me t (hp ▸ hk) hme
      | anew hp hd =>
        rintro rfl
        exact absurd (hp k hk).1 (Nat.not_le.2 hlt)
    · rw [hconn] at hme; cases hme
    · rw [hnone] at hk; cases hk

theorem Turnover.spent (h : Turnover c r) {t : Token} (ht : c.Spent t) : r.1.Spent t := by
  refine ⟨Nat.lt_of_lt_of_le ht.1 h.next_le, fun hlive => ?_⟩
  rcases h.live hlive with hlive | hlive
  · exact ht.2 hlive
  · exact absurd hlive.1 (Nat.not_le.2 ht.1)

/-- What the phase waited for is not live any more once the phase moved on. -/
theorem Turnover.spent_of_anew (h : Turnover c r) (hc : c.Tokened) {k : Ticket}
    (hk : c.phase.ticket? = some k) (hp : ∀ k, r.1.phase.ticket? = some k → Mints c r.1 k.token) :
    r.1.Spent k.token := by
  have hlt := hc.lt k.token (.inl ⟨k, hk, rfl⟩)
  refine ⟨Nat.lt_of_lt_of_le hlt h.next_le, ?_⟩
  rintro (⟨k', hk', heq⟩ | ⟨me, hme⟩)
  · exact absurd (heq ▸ (hp k' hk').1) (Nat.not_le.2 hlt)
  · rcases h.connection with hconn | hconn | ⟨-, me', token, hconn, hmints⟩
    · exact hc.ne k me k.token hk (hconn ▸ hme) rfl
    · rw [hconn] at hme; cases hme
    · rw [hconn] at hme; cases hme
      exact absurd hmints.1 (Nat.not_le.2 hlt)

theorem Turnover.spent_of_dropped (h : Turnover c r) (hc : c.Tokened) {e : Effect M} {t : Token}
    (he : e ∈ r.2) (ht : e.dropped? = some t) : r.1.Spent t := by
  have hwaits := h.waits
  cases hwaits with
  | on hp hd => rw [hd e he] at ht; cases ht
  | anew hp hd =>
    obtain ⟨k, hk, rfl⟩ := hd e he t ht
    exact h.spent_of_anew hc hk hp

theorem Run.tokened {log : List (Turn M)} (h : Run x log c) : c.Tokened := by
  induction h with
  | new => exact ⟨by rintro t (⟨k, hk, -⟩ | ⟨me, hme⟩) <;> contradiction, nofun⟩
  | turn call h hcall ih => exact ((call_within h.coherent call).of_ok hcall).turnover.tokened ih

end

end Channel

end CoEdit
