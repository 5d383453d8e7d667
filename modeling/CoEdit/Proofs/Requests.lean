import CoEdit.Proofs.EagerAck
import CoEdit.Proofs.Inertness

/-!
# Every request is settled once

A channel asks the server for something under a token: that it apply a batch, or that it tell its
revision. From then on it owes the request a settlement. Either it acts on the completion of the request,
which is that the completion makes a difference to it, or it disregards the request.

`Deals` is a run together with its dealings: what was asked, what was acted on and what was disregarded,
in order. Between the dealings at most one request is open, and a new one is opened under a token that is
greater than those before (`Clears`). Every call keeps this (`Does.clears`, `Reacts.clears`), on whatever
way it leaves the phase in which a request is open; the request that is open is at any time the one that
the phase waits for. Hence each request is open or was settled just once (`Run.settles_once`).
-/

namespace CoEdit

variable {M : Type}

/-- The token of a request to the server. -/
def Ticket.request? : Ticket → Option Token
  | .task _ => none
  | .submit token | .probe token => some token

/-- The request that an effect makes. -/
def Effect.request? (e : Effect M) : Option Token := e.ticket?.bind Ticket.request?

/-- The request that an effect disregards. -/
def Effect.disregarded? : Effect M → Option Token
  | .disregard token => some token
  | _ => none

/-- The request that an event completes. -/
def Event.request? (event : Event M) : Option Token := event.ticket?.bind Ticket.request?

theorem Event.request?_ne_none {event : Event M} {e : ServiceError} (he : event.failure? = some e) :
    event.request? ≠ none := by
  cases event with
  | task task => cases he
  | incoming connection message => cases he
  | _ => nofun

/-- The request that a phase waits for. -/
def Channel.Phase.request? (phase : Phase) : Option Token := phase.ticket?.bind Ticket.request?

theorem Channel.Phase.request?_eq_some_iff {phase : Phase} {token : Token} :
    phase.request? = some token ↔ (∃ base batch, phase = .waitingAck token base batch false) ∨
      ∃ target, phase = .waitingSync token false target := by
  unfold request? ticket?; split <;> simp_all [Ticket.request?]

/-! ### Dealings -/

/-- What a channel does about a request. -/
inductive Dealing where
  | asked (token : Token)
  /-- It acted on the completion. -/
  | answered (token : Token)
  /-- It disregarded the request. -/
  | dropped (token : Token)
deriving DecidableEq, Repr

def Dealing.asked? : Dealing → Option Token
  | .asked token => some token
  | _ => none

def Dealing.dropped? : Dealing → Option Token
  | .dropped token => some token
  | _ => none

def Effect.dealing? : Effect M → Option Dealing
  | .submit token .. | .probe token => some (.asked token)
  | .disregard token => some (.dropped token)
  | _ => none

def dealings (es : List (Effect M)) : List Dealing := es.filterMap Effect.dealing?

section
variable {es es' : List (Effect M)} {e : Effect M}

@[simp] theorem dealings_nil : dealings ([] : List (Effect M)) = [] := rfl

@[simp] theorem dealings_cons : dealings (e :: es) = e.dealing?.toList ++ dealings es := by
  unfold dealings
  cases h : e.dealing? <;> simp [h]

@[simp] theorem dealings_append : dealings (es ++ es') = dealings es ++ dealings es' :=
  List.filterMap_append

@[simp] theorem dealings_ackedAll {clean : Bool} {ops : List M} :
    dealings (ackedAll clean ops) = [] := by
  refine List.filterMap_eq_nil_iff.2 fun e he => ?_
  obtain ⟨op, clean', rfl⟩ := mem_ackedAll he
  rfl

theorem asked_dealings : (dealings es).filterMap Dealing.asked? = es.filterMap Effect.request? := by
  unfold dealings
  rw [List.filterMap_filterMap]
  congr 1
  funext e
  cases e <;> rfl

theorem dropped_dealings :
    (dealings es).filterMap Dealing.dropped? = es.filterMap Effect.disregarded? := by
  unfold dealings
  rw [List.filterMap_filterMap]
  congr 1
  funext e
  cases e <;> rfl

end

/-- With tokens from `n` on left and the request `k` open, the dealings `ds` go one after the other, after
which tokens from `n'` on are left and `k'` is open: a request is opened only under a token that is left
and while none is open, and only the open one is settled. -/
inductive Clears : Nat → Option Token → List Dealing → Nat → Option Token → Prop
  | nil {n n' k} (hn : n ≤ n') : Clears n k [] n' k
  | asks {n n' token ds k'} (hn : n ≤ token.number) (h : Clears (token.number + 1) (some token) ds n' k') :
      Clears n none (.asked token :: ds) n' k'
  | answers {n n' token ds k'} (h : Clears n none ds n' k') :
      Clears n (some token) (.answered token :: ds) n' k'
  | drops {n n' token ds k'} (h : Clears n none ds n' k') :
      Clears n (some token) (.dropped token :: ds) n' k'

namespace Clears

variable {n n₁ n' : Nat} {k k₁ k' : Option Token} {ds ds' : List Dealing}

theorem weaken (h : Clears n₁ k ds n' k') (hn : n ≤ n₁) : Clears n k ds n' k' := by
  induction h generalizing n with
  | nil hle => exact .nil (Nat.le_trans hn hle)
  | asks hle h ih => exact .asks (Nat.le_trans hn hle) h
  | answers h ih => exact .answers (ih hn)
  | drops h ih => exact .drops (ih hn)

theorem append (h : Clears n k ds n₁ k₁) (h' : Clears n₁ k₁ ds' n' k') :
    Clears n k (ds ++ ds') n' k' := by
  induction h with
  | nil hle => exact h'.weaken hle
  | asks hle h ih => exact .asks hle (ih h')
  | answers h ih => exact .answers (ih h')
  | drops h ih => exact .drops (ih h')

theorem split (h : Clears n k (ds ++ ds') n' k') :
    ∃ n₁ k₁, Clears n k ds n₁ k₁ ∧ Clears n₁ k₁ ds' n' k' := by
  induction ds generalizing n k with
  | nil => exact ⟨n, k, .nil (Nat.le_refl _), h⟩
  | cons d ds ih =>
    cases h with
    | asks hle h =>
      obtain ⟨n₁, k₁, h₁, h₂⟩ := ih h
      exact ⟨n₁, k₁, .asks hle h₁, h₂⟩
    | answers h =>
      obtain ⟨n₁, k₁, h₁, h₂⟩ := ih h
      exact ⟨n₁, k₁, .answers h₁, h₂⟩
    | drops h =>
      obtain ⟨n₁, k₁, h₁, h₂⟩ := ih h
      exact ⟨n₁, k₁, .drops h₁, h₂⟩

theorem dropping (hn : n ≤ n') : Clears n k (k.toList.map .dropped) n' none := by
  cases k with
  | none => exact .nil hn
  | some token => exact .drops (.nil hn)

theorem balance (h : Clears n k ds n' k') (token : Token) :
    ds.count (.answered token) + ds.count (.dropped token) + k'.toList.count token =
      ds.count (.asked token) + k.toList.count token := by
  induction h with
  | nil hn => simp
  | @asks n n' token' ds k' hn h ih => simp [List.count_cons] at ih ⊢; omega
  | @answers n n' token' ds k' h ih => simp [List.count_cons] at ih ⊢; omega
  | @drops n n' token' ds k' h ih => simp [List.count_cons] at ih ⊢; omega

theorem count_asked_le (h : Clears n k ds n' k') (token : Token) :
    ds.count (.asked token) ≤ if token.number < n then 0 else 1 := by
  induction h with
  | nil hn => simp
  | @asks n n' token' ds k' hn h ih =>
    by_cases heq : token' = token
    · subst heq
      rw [if_pos (Nat.lt_succ_self _)] at ih
      simp only [List.count_cons_self, Nat.not_lt.2 hn, if_false]
      omega
    · rw [List.count_cons_of_ne (by simpa using heq)]
      split at ih <;> split <;> omega
  | answers h ih => simpa using ih
  | drops h ih => simpa using ih

end Clears

/-- The request was made and not settled yet. -/
def Unsettled (ds : List Dealing) (token : Token) : Prop :=
  .asked token ∈ ds ∧ .answered token ∉ ds ∧ .dropped token ∉ ds

section
variable {n n' : Nat} {k' : Option Token} {ds : List Dealing} {token : Token}

/-- Beginning with nothing open, each request was made at most once; it is then open or was settled in one
way, and nothing else was settled. -/
theorem Clears.settled (h : Clears n none ds n' k') (token : Token) :
    ds.count (.asked token) ≤ 1 ∧
    ds.count (.answered token) + ds.count (.dropped token) + k'.toList.count token =
      ds.count (.asked token) := by
  refine ⟨Nat.le_trans (h.count_asked_le token) (by split <;> omega), ?_⟩
  simpa using h.balance token

theorem Clears.unsettled_iff (h : Clears n none ds n' k') : Unsettled ds token ↔ k' = some token := by
  obtain ⟨hasked, hsettled⟩ := h.settled token
  have hk : k' = some token ↔ k'.toList.count token ≠ 0 := by
    cases k' <;> simp [List.count_singleton]
  rw [hk, Unsettled, ← List.count_eq_zero, ← List.count_eq_zero, ← List.count_pos_iff]
  omega

end

namespace Channel

@[simp] theorem Phase.dealings_release (phase : Phase) :
    dealings (phase.release : List (Effect M)) = phase.request?.toList.map .dropped := by
  unfold release; split
  · rfl
  · rfl
  · rfl
  · rfl
  · unfold request? ticket?; split <;> simp_all

section
variable {x : Transformer M} {c : Channel M} {r r' : Reaction M} {call : Call M} {reply : Reply M}
  {event : Event M} {me : Session} {d : Delivery M} {token : Token}

/-- The effects of a reaction clear what was open in `c` and leave open what the phase then waits for. -/
abbrev ClearsTo (c : Channel M) (r : Reaction M) : Prop :=
  Clears c.tokens.next c.phase.request? (dealings r.2) r.1.tokens.next r.1.phase.request?

theorem Schedules.dealings_eq {task : Option Token} {tokens : TokenSource}
    {effects : List (Effect M)} (h : c.Schedules task tokens effects) : dealings effects = [] := by
  rcases h with ⟨-, -, -, rfl⟩ | ⟨-, -, -, rfl⟩ <;> rfl

theorem Phase.request?_allAcked (task : Option Token) : (Phase.allAcked task).request? = none := by
  cases task <;> rfl

theorem ClearsTo.confirmed {q : Queue M} {stats : Stats} {task : Option Token} {tokens : TokenSource}
    {effects news : List (Effect M)} (hs : c.Schedules task tokens effects)
    (hnews : dealings news = []) :
    ClearsTo c ({ c with queue := q, tokens, stats, phase := .allAcked task },
      c.phase.release ++ .resetBackoff :: effects ++ news) := by
  have hdealings : dealings (c.phase.release ++ .resetBackoff :: effects ++ news) =
      c.phase.request?.toList.map .dropped := by
    simp [hs.dealings_eq, hnews, Effect.dealing?]
  rw [ClearsTo, hdealings]
  dsimp only
  rw [Phase.request?_allAcked]
  exact .dropping hs.next_le

theorem Syncs.clears (h : c.Syncs r) (hc : c.Fitting) : ClearsTo c r := by
  cases h with
  | lags h => exact .nil (Nat.le_refl _)
  | @resends probe answered target hp hr hu =>
    have hfits := hc.fits
    rw [hp] at hfits
    have hnone : c.phase.request? = none := by rw [hp, hfits.2]; rfl
    rw [ClearsTo, hnone]
    exact .asks (Nat.le_refl _) (.nil (Nat.le_refl _))
  | @finishes _ _ _ task tokens effects hp hr hu hs =>
    have hconfirmed : ClearsTo c ({ c with phase := .allAcked task, tokens },
        c.phase.release ++ .resetBackoff :: effects ++ []) := .confirmed hs rfl
    rwa [List.append_nil] at hconfirmed

theorem Accepts.clears (h : Accepts x c me d r) : ClearsTo c r := by
  cases h with
  | recognises hd he hr => exact .nil (Nat.le_refl _)
  | confirms hd ht hu hne => exact .nil (Nat.le_refl _)
  | confirmsLast hd ht hu hs => exact .confirmed hs rfl
  | takesIn hd ht hf hr => exact .nil (Nat.le_refl _)

/-- The completion of a request, which is then no longer open, takes the channel to what is open next. -/
theorem Reacts.clears (h : Reacts x c event r) (hc : c.Coherent) (hl : c.Awaits event)
    (hk : event.request? = some token) :
    Clears c.tokens.next none (dealings r.2) r.1.tokens.next r.1.phase.request? := by
  have hfits := hc.fits
  cases h with
  | stale h => exact absurd hl h
  | submits hp hu hq => cases hk
  | lapses hp hq => cases hk
  | probes hp => cases hk
  | @confirms submit base batch applied task tokens effects hp hb hu hr hs =>
    -- The response is noted first, after which nothing is open.
    suffices h : ClearsTo { c with phase := .waitingAck submit base batch true } _ from h
    exact .confirmed hs dealings_ackedAll
  | defers hp hr => exact .nil (Nat.le_refl _)
  | @learns probe target revision r hp hs =>
    rw [hp] at hfits
    suffices h : ClearsTo { c with phase := .waitingSync probe true (some revision) } r from h
    exact hs.clears ⟨⟨hfits.1, rfl⟩, hc.echoes⟩
  | retries h he => exact .nil (Nat.le_succ _)
  | givesUp h he => exact .nil (Nat.le_refl _)
  | breaks hconn h => cases hk
  | accepts hconn h hs => cases hk

theorem Does.clears (h : Does x c call reply r) (hc : c.Coherent)
    (hcall : ∀ event, call = .handle event → event.request? = none) : ClearsTo c r := by
  have hclosed : ClearsTo c (c.closed, c.phase.release ++ [.unsubscribe]) := by
    simp [ClearsTo, Effect.dealing?]
    exact .dropping (Nat.le_refl _)
  cases h with
  | connects hconn =>
    have hnone : c.phase.request? = none := by rw [hc.eq_uninitialised hconn]; rfl
    rw [ClearsTo, hnone]
    exact .nil (Nat.le_succ _)
  | disconnects hconn => exact hclosed
  | schedules hp ht hs =>
    rw [ClearsTo, hp, hs.dealings_eq, Phase.request?_allAcked]
    dsimp only
    rw [Phase.request?_allAcked]
    exact .nil hs.next_le
  | rejects hconn he => exact hclosed
  | @reacts event r h =>
    have hk := hcall event rfl
    cases h with
    | submits hp hu hq =>
      rw [ClearsTo, hp]
      exact .asks (Nat.le_refl _) (.nil (Nat.le_refl _))
    | lapses hp hq =>
      rw [ClearsTo, hp]
      exact .nil (Nat.le_refl _)
    | probes hp =>
      rw [ClearsTo, hp]
      exact .asks (Nat.le_refl _) (.nil (Nat.le_refl _))
    | confirms hp hb hu hr hs => cases hk
    | defers hp hr => cases hk
    | learns hp hs => cases hk
    | retries h he => exact absurd hk (Event.request?_ne_none he)
    | givesUp h he => exact absurd hk (Event.request?_ne_none he)
    | breaks hconn h =>
      simp [ClearsTo, Effect.dealing?]
      exact .dropping (Nat.le_refl _)
    | accepts hconn h hs =>
      rw [ClearsTo, dealings_append]
      exact h.clears.append (hs.clears (h.fitting hc.toFitting (by rw [hconn]; rfl)))
    | stale h => exact .nil (Nat.le_refl _)
  | _ => exact .nil (Nat.le_refl _)

end

/-- A run with its dealings. The channel acts on a completion if this makes a difference to it. -/
inductive Deals (x : Transformer M) : List (Turn M) → Channel M → List Dealing → Prop
  | new : Deals x [] {} []
  | acts {log c ds event token c' effects} : Deals x log c ds → event.request? = some token →
      c.handle x event = .ok (c', effects) → (c', effects) ≠ (c, []) →
      Deals x (log ++ [⟨.handle event, .handled, effects⟩]) c' (ds ++ .answered token :: dealings effects)
  /-- The call brings no completion, or nothing comes of it. -/
  | passes {log c ds reply c' effects} (call : Call M) : Deals x log c ds →
      c.call x call = .ok (reply, c', effects) →
      (∀ event, call = .handle event → event.request? = none ∨ (c', effects) = (c, [])) →
      Deals x (log ++ [⟨call, reply, effects⟩]) c' (ds ++ dealings effects)

section
variable {x : Transformer M} {c : Channel M} {log : List (Turn M)} {ds : List Dealing} {token : Token}

theorem Deals.run (h : Deals x log c ds) : Run x log c := by
  induction h with
  | new => exact .new
  | @acts log c ds event token c' effects _ hk hcall hne ih =>
    refine ih.turn (.handle event) ?_
    show (Reply.handled, ·) <$> c.handle x event = _
    rw [hcall]; rfl
  | passes call _ hcall _ ih => exact ih.turn call hcall

theorem handle_eq_of_call {event : Event M} {reply : Reply M} {r : Reaction M}
    (h : c.call x (.handle event) = .ok (reply, r)) : c.handle x event = .ok r ∧ reply = .handled := by
  have h : (Reply.handled, ·) <$> c.handle x event = .ok (reply, r) := h
  cases hr : c.handle x event with
  | ok r' => rw [hr] at h; cases h; exact ⟨rfl, rfl⟩
  | error f => rw [hr] at h; cases h

theorem Run.deals (h : Run x log c) : ∃ ds, Deals x log c ds := by
  induction h with
  | new => exact ⟨[], .new⟩
  | @turn log c reply c' effects call h hcall ih =>
    obtain ⟨ds, ih⟩ := ih
    by_cases hacts : ∃ event token, call = .handle event ∧ event.request? = some token ∧
        (c', effects) ≠ (c, [])
    · obtain ⟨event, token, rfl, hk, hne⟩ := hacts
      obtain ⟨hhandle, rfl⟩ := handle_eq_of_call hcall
      exact ⟨_, ih.acts hk hhandle hne⟩
    · refine ⟨_, ih.passes call hcall fun event hevent => ?_⟩
      by_contra hnot
      rw [not_or] at hnot
      obtain ⟨token, hk⟩ := Option.ne_none_iff_exists'.1 hnot.1
      exact hacts ⟨event, token, hevent, hk, hnot.2⟩

/-- The request whose completion makes a difference is the one that the phase waits for. -/
theorem request_of_acts {event : Event M} {r : Reaction M} (hk : event.request? = some token)
    (hr : c.handle x event = .ok r) (hne : r ≠ (c, [])) :
    c.Awaits event ∧ c.phase.request? = some token := by
  have hl : c.Awaits event := by
    by_contra hl
    rw [handle_of_not_awaits hl] at hr
    cases hr
    exact hne rfl
  obtain ⟨ticket, hticket, hk⟩ := Option.bind_eq_some_iff.1 hk
  refine ⟨hl, ?_⟩
  rw [Phase.request?, (hl.of_ticket hticket).1, Option.bind_some, hk]

theorem Deals.clears (h : Deals x log c ds) : Clears 1 none ds c.tokens.next c.phase.request? := by
  induction h with
  | new => exact .nil (Nat.le_refl _)
  | @acts log c ds event token c' effects h hk hcall hne ih =>
    obtain ⟨hl, hopen⟩ := request_of_acts hk hcall hne
    have hr : Reacts x c event (c', effects) := (handle_within h.run.coherent).of_ok hcall
    rw [hopen] at ih
    exact ih.append (.answers (hr.clears h.run.coherent hl hk))
  | @passes log c ds reply c' effects call h hcall hpasses ih =>
    refine ih.append ?_
    by_cases hsame : (c', effects) = (c, [])
    · cases hsame
      exact .nil (Nat.le_refl _)
    · have hd : Does x c call reply (c', effects) := (call_within h.run.coherent call).of_ok hcall
      exact hd.clears h.run.coherent fun event hevent => (hpasses event hevent).resolve_right hsame

/-- The dealings show all the requests that were made and all that were disregarded. -/
theorem Deals.recorded (h : Deals x log c ds) :
    ds.filterMap Dealing.asked? = (effects log).filterMap Effect.request? ∧
      ds.filterMap Dealing.dropped? = (effects log).filterMap Effect.disregarded? := by
  induction h with
  | new => exact ⟨rfl, rfl⟩
  | acts _ hk hcall hne ih =>
    rw [List.filterMap_append, List.filterMap_append, List.filterMap_cons_none rfl,
      List.filterMap_cons_none rfl, asked_dealings, dropped_dealings, ih.1, ih.2]
    simp
  | passes call _ hcall _ ih => simp [ih.1, ih.2, asked_dealings, dropped_dealings]

/-- The dealings of a run are all its requests, what it disregarded, and the completions that made a
difference. No token is used for two requests. A request is what the phase waits for, or it was settled:
the channel acted on one completion of it or disregarded it once, and not both. Nothing is settled that
was not asked for before, and at no time, within a call or between calls, are two requests unsettled. -/
theorem Run.settles_once (h : Run x log c) : (∃ ds, Deals x log c ds) ∧ ∀ ds, Deals x log c ds →
    (ds.filterMap Dealing.asked? = (effects log).filterMap Effect.request? ∧
      ds.filterMap Dealing.dropped? = (effects log).filterMap Effect.disregarded?) ∧
    (∀ token, ds.count (.asked token) ≤ 1 ∧
      ds.count (.answered token) + ds.count (.dropped token) +
        (if c.phase.request? = some token then 1 else 0) = ds.count (.asked token)) ∧
    (∀ token, Unsettled ds token ↔ (∃ base batch, c.phase = .waitingAck token base batch false) ∨
      ∃ target, c.phase = .waitingSync token false target) ∧
    ∀ front back, ds = front ++ back →
      (∀ token, .answered token ∈ front ∨ .dropped token ∈ front → .asked token ∈ front) ∧
      ∀ token token', Unsettled front token → Unsettled front token' → token = token' := by
  refine ⟨h.deals, fun ds hds => ⟨hds.recorded, fun token => ?_, fun token => ?_, ?_⟩⟩
  · obtain ⟨hasked, hsettled⟩ := hds.clears.settled token
    refine ⟨hasked, ?_⟩
    rw [← hsettled]
    cases c.phase.request? <;> simp [List.count_singleton]
  · rw [hds.clears.unsettled_iff, Phase.request?_eq_some_iff]
  · rintro front back rfl
    obtain ⟨n, k, hfront, -⟩ := hds.clears.split
    refine ⟨fun token hsettled => ?_, fun token token' ht ht' => ?_⟩
    · have hbalance := (hfront.settled token).2
      rw [← List.count_pos_iff, ← List.count_pos_iff] at hsettled
      rw [← List.count_pos_iff]
      omega
    · rw [hfront.unsettled_iff] at ht ht'
      exact Option.some.inj (ht.symm.trans ht')

end

/-- A batch fails after which the first probe fails too and the second one is overtaken by the echo of the
batch; the third request in line is disregarded, and its response and a second one to the first request
come late. -/
theorem settles_once_overtaken : ∃ log c ds, Run CharOp.transform log c ∧
    Deals CharOp.transform log c ds ∧ c.phase.request? = some ⟨9⟩ ∧
    (effects log).filterMap Effect.request? = [⟨3⟩, ⟨5⟩, ⟨7⟩, ⟨9⟩] ∧
    (effects log).filterMap Effect.disregarded? = [⟨7⟩] ∧
    ds.count (.answered ⟨3⟩) + ds.count (.dropped ⟨3⟩) = 1 ∧
    ds.count (.answered ⟨7⟩) + ds.count (.dropped ⟨7⟩) = 1 ∧ Unsettled ds ⟨9⟩ := by
  have h₀ : Run CharOp.transform [] {} := .new
  have h₁ := h₀.turn (.connect ⟨5⟩ ⟨"a", by decide⟩) rfl
  have h₂ := h₁.turn (.send ⟨0, 1, .insert 0 'x'⟩) rfl
  have h₃ := h₂.turn (.handle (.task ⟨⟨2⟩, .maybeSend⟩)) rfl
  have h₄ := h₃.turn (.handle (.submitResponse ⟨3⟩ (.error (.retryable "timeout")))) rfl
  have h₅ := h₄.turn (.handle (.task ⟨⟨4⟩, .resync⟩)) rfl
  have h₆ := h₅.turn (.handle (.probeResponse ⟨5⟩ (.error (.retryable "timeout")))) rfl
  have h₇ := h₆.turn (.handle (.task ⟨⟨6⟩, .resync⟩)) rfl
  have h₈ := h₇.turn (.send ⟨1, 1, .insert 1 'y'⟩) rfl
  have h₉ := h₈.turn (.handle (.incoming ⟨1⟩ (.ok ⟨⟨6⟩, ⟨"a", by decide⟩, ⟨0, 1, .insert 0 'x'⟩⟩))) rfl
  have h₁₀ := h₉.turn (.handle (.probeResponse ⟨7⟩ (.ok ⟨6⟩))) rfl
  have h₁₁ := h₁₀.turn (.handle (.task ⟨⟨8⟩, .maybeSend⟩)) rfl
  have h₁₂ := h₁₁.turn (.handle (.submitResponse ⟨3⟩ (.ok ⟨6⟩))) rfl
  obtain ⟨⟨ds, hds⟩, hall⟩ := h₁₂.settles_once
  obtain ⟨⟨hasked, -⟩, hcounts, hunsettled, -⟩ := hall ds hds
  have hasked : ds.filterMap Dealing.asked? = [⟨3⟩, ⟨5⟩, ⟨7⟩, ⟨9⟩] := hasked
  have hcounts (token : Token) : ds.count (.asked token) ≤ 1 ∧
      ds.count (.answered token) + ds.count (.dropped token) +
        (if some (⟨9⟩ : Token) = some token then 1 else 0) = ds.count (.asked token) := hcounts token
  have hone (token : Token) (hmem : token ∈ ds.filterMap Dealing.asked?) (hne : ⟨9⟩ ≠ token) :
      ds.count (.answered token) + ds.count (.dropped token) = 1 := by
    obtain ⟨hle, hsettled⟩ := hcounts token
    obtain ⟨d, hd, htoken⟩ := List.mem_filterMap.1 hmem
    have hpos : 0 < ds.count (.asked token) := by
      cases d <;> cases htoken
      exact List.count_pos_iff.2 hd
    rw [if_neg (by simpa using hne)] at hsettled
    omega
  refine ⟨_, _, ds, h₁₂, hds, rfl, rfl, rfl, hone ⟨3⟩ ?_ (by decide), hone ⟨7⟩ ?_ (by decide),
    (hunsettled ⟨9⟩).2 (.inl ⟨_, _, rfl⟩)⟩
  · rw [hasked]
    exact .head _
  · rw [hasked]
    exact .tail _ (.tail _ (.head _))

end Channel

end CoEdit
