import CoEdit.Agenda
import CoEdit.Proofs.Renumbering

/-!
# Sessions are isolated from each other

The effects of a run have a grammar (`Sessions`): a session resets the backoff and subscribes, then does
anything but subscribe, unsubscribe or fail, and ends with unsubscribing, after which it may report why it
failed. Nothing happens outside of sessions (`Coherent.call_unconnected`), and what goes wrong in one ends
it (`Ends`).

When a session is over nothing is left of it but the number of the next token, the counts, and where the
source of random numbers stands: the channel is a new one with its tokens renumbered (`Run.eq_shift`). So
from the next session on it does what a new channel does (`StartsOver`).
-/

namespace CoEdit

variable {M : Type}

/-- Whether an effect begins the subscription, or ends it. -/
def Effect.bracket? : Effect M → Option Bool
  | .subscribe .. => some true
  | .unsubscribe => some false
  | _ => none

/-- The beginnings and ends of the subscription, in order. -/
def brackets (es : List (Effect M)) : List Bool := es.filterMap Effect.bracket?

@[simp] theorem brackets_nil : brackets ([] : List (Effect M)) = [] := rfl

@[simp] theorem brackets_cons {e : Effect M} {es : List (Effect M)} :
    brackets (e :: es) = e.bracket?.toList ++ brackets es := by
  cases e <;> rfl

/-- The effect begins or ends a session or reports that it failed. -/
def Effect.marks : Effect M → Bool
  | .subscribe .. | .unsubscribe | .failed _ => true
  | _ => false

/-- Beginning in a session or not, these effects end in one or not. -/
inductive Sessions : Bool → List (Effect M) → Bool → Prop
  | nil {b} : Sessions b [] b
  | opens {token revision es b} (h : Sessions true es b) :
      Sessions false (.resetBackoff :: .subscribe token revision :: es) b
  | goesOn {e es b} (he : e.marks = false) (h : Sessions true es b) : Sessions true (e :: es) b
  | closes {es b} (h : Sessions false es b) : Sessions true (.unsubscribe :: es) b
  | fails {error es b} (h : Sessions false es b) : Sessions true (.unsubscribe :: .failed error :: es) b

namespace Sessions

variable {es es' front back : List (Effect M)} {b b₁ b' : Bool} {error : Error}

theorem append (h : Sessions b es b₁) (h' : Sessions b₁ es' b') : Sessions b (es ++ es') b' := by
  induction h with
  | nil => exact h'
  | opens _ ih => exact .opens (ih h')
  | goesOn he _ ih => exact .goesOn he (ih h')
  | closes _ ih => exact .closes (ih h')
  | fails _ ih => exact .fails (ih h')

theorem of_unmarked (h : ∀ e ∈ es, e.marks = false) : Sessions true es true := by
  induction es with
  | nil => exact .nil
  | cons e es ih => exact .goesOn (h e (.head _)) (ih fun e he => h e (.tail _ he))

/-- Subscriptions begin and end in turns. -/
theorem alternate (h : Sessions b es b') : ∃ n, (if b then [true] else []) ++ brackets es =
    (List.replicate n [true, false]).flatten ++ if b' then [true] else [] := by
  induction h with
  | nil => exact ⟨0, by simp⟩
  | opens _ ih =>
    obtain ⟨n, ih⟩ := ih
    exact ⟨n, by simpa [Effect.bracket?] using ih⟩
  | @goesOn e es b he _ ih =>
    obtain ⟨n, ih⟩ := ih
    have hnone : e.bracket? = none := by cases e <;> first | rfl | cases he
    exact ⟨n, by simpa [hnone] using ih⟩
  | closes _ ih =>
    obtain ⟨n, ih⟩ := ih
    exact ⟨n + 1, by simpa [Effect.bracket?, List.replicate_succ] using ih⟩
  | fails _ ih =>
    obtain ⟨n, ih⟩ := ih
    exact ⟨n + 1, by simpa [Effect.bracket?, List.replicate_succ] using ih⟩

/-- A failure is reported right after the end of its session, and the next session is still to come. -/
theorem after_failed (h : Sessions b (front ++ .failed error :: back) b') :
    (∃ front', front = front' ++ [.unsubscribe]) ∧ Sessions false back b' := by
  generalize hes : front ++ .failed error :: back = es at h
  induction h generalizing front with
  | nil => simp at hes
  | opens h ih =>
    match front, hes with
    | _ :: _ :: front, hes =>
      injection hes with _ hes
      injection hes with _ hes
      obtain ⟨⟨front', rfl⟩, hback⟩ := ih hes
      exact ⟨⟨_ :: _ :: front', rfl⟩, hback⟩
  | goesOn he h ih =>
    match front, hes with
    | [], hes => cases hes; cases he
    | _ :: front, hes =>
      injection hes with _ hes
      obtain ⟨⟨front', rfl⟩, hback⟩ := ih hes
      exact ⟨⟨_ :: front', rfl⟩, hback⟩
  | closes h ih =>
    match front, hes with
    | _ :: front, hes =>
      injection hes with _ hes
      obtain ⟨⟨front', rfl⟩, hback⟩ := ih hes
      exact ⟨⟨_ :: front', rfl⟩, hback⟩
  | fails h ih =>
    match front, hes with
    | [_], hes => cases hes; exact ⟨⟨[], rfl⟩, h⟩
    | _ :: _ :: front, hes =>
      injection hes with _ hes
      injection hes with _ hes
      obtain ⟨⟨front', rfl⟩, hback⟩ := ih hes
      exact ⟨⟨_ :: _ :: front', rfl⟩, hback⟩

theorem subscribes_before_failed (h : Sessions false (front ++ .failed error :: back) b') :
    ∃ token revision, .subscribe token revision ∈ front := by
  generalize hes : front ++ .failed error :: back = es at h
  cases h with
  | nil => simp at hes
  | @opens token revision es b h =>
    match front, hes with
    | _ :: _ :: front, hes =>
      injection hes with _ hes
      injection hes with heq _
      subst heq
      exact ⟨token, revision, by simp⟩

end Sessions

namespace Channel

section
variable {x : Transformer M} {c : Channel M} {r : Reaction M} {event : Event M} {me : Session}
  {d : Delivery M}

theorem Phase.marks_of_mem_release {phase : Phase} {e : Effect M} (he : e ∈ phase.release) :
    e.marks = false := by
  rcases Phase.mem_release he with ⟨id, kind, rfl, -⟩ | ⟨token, rfl⟩ <;> rfl

theorem Schedules.marks_of_mem {task : Option Token} {tokens : TokenSource}
    {effects : List (Effect M)} {e : Effect M} (h : c.Schedules task tokens effects)
    (he : e ∈ effects) : e.marks = false := by
  rw [(h.of_mem he).1]; rfl

theorem marks_of_mem_ackedAll {clean : Bool} {ops : List M} {e : Effect M}
    (he : e ∈ ackedAll clean ops) : e.marks = false := by
  obtain ⟨op, clean', rfl⟩ := mem_ackedAll he
  rfl

theorem marks_of_confirmed {task : Option Token} {tokens : TokenSource} {effects : List (Effect M)}
    (hs : c.Schedules task tokens effects) (news : List (Effect M))
    (hnews : ∀ e ∈ news, e.marks = false) :
    ∀ e ∈ c.phase.release ++ .resetBackoff :: effects ++ news, e.marks = false :=
  hs.forall_mem_confirmed (fun _ => Phase.marks_of_mem_release) rfl rfl hnews

theorem Syncs.marks (h : c.Syncs r) : ∀ e ∈ r.2, e.marks = false := by
  cases h with
  | lags h => nofun
  | resends hp hr hu => simp [Effect.marks]
  | finishes hp hr hu hs =>
    have hall := marks_of_confirmed hs [] nofun
    rwa [List.append_nil] at hall

theorem Accepts.marks (h : Accepts x c me d r) : ∀ e ∈ r.2, e.marks = false := by
  cases h with
  | recognises hd he hr => nofun
  | confirms hd ht hu hne => simp [Effect.marks]
  | confirmsLast hd ht hu hs => exact marks_of_confirmed hs [_] (by simp [Effect.marks])
  | takesIn hd ht hf hr => simp [Effect.marks]

theorem sessions_closed : Sessions true (c.phase.release ++ [.unsubscribe] : List (Effect M)) false :=
  (Sessions.of_unmarked fun _ => Phase.marks_of_mem_release).append (.closes .nil)

theorem Reacts.sessions (h : Reacts x c event r) (hc : c.connection.isSome) :
    Sessions true r.2 r.1.isConnected := by
  have hlive (hr : r.1.connection = c.connection) (hes : ∀ e ∈ r.2, e.marks = false) :
      Sessions true r.2 r.1.isConnected := by
    rw [isConnected, hr, hc]
    exact .of_unmarked hes
  cases h with
  | stale h => exact hlive rfl (List.forall_mem_nil _)
  | submits hp hu hq => exact hlive rfl (by simp [Effect.marks])
  | lapses hp hq => exact hlive rfl (List.forall_mem_nil _)
  | probes hp => exact hlive rfl (by simp [Effect.marks])
  | confirms hp hb hu hr hs =>
    have hall := marks_of_confirmed hs (ackedAll c.queue.queued.isEmpty c.queue.unacked)
      fun e => marks_of_mem_ackedAll
    refine hlive rfl fun e he => hall e ?_
    simp only [List.mem_append] at he ⊢
    exact he.imp_left .inr
  | defers hp hr => exact hlive rfl (List.forall_mem_nil _)
  | learns hp hs => exact hlive hs.connection_eq hs.marks
  | retries h he => exact hlive rfl (by simp [Effect.marks])
  | givesUp h he => exact .fails .nil
  | breaks hconn h =>
    exact (Sessions.of_unmarked fun _ => Phase.marks_of_mem_release).append (.fails .nil)
  | accepts hconn h hs =>
    refine hlive (hs.connection_eq.trans h.connection_eq) fun e he => ?_
    exact (List.mem_append.1 he).elim (h.marks e) (hs.marks e)

theorem Does.sessions {call : Call M} {reply : Reply M} (h : Does x c call reply r)
    (hc : c.connection.isSome) : Sessions true r.2 r.1.isConnected := by
  have hsame : Sessions true ([] : List (Effect M)) c.isConnected := by
    rw [isConnected, hc]
    exact .nil
  cases h with
  | connects hconn => rw [hconn] at hc; cases hc
  | disconnects hconn => exact sessions_closed
  | schedules hp ht hs =>
    rw [isConnected, hc]
    exact .of_unmarked fun e => hs.marks_of_mem
  | rejects hconn he => exact sessions_closed
  | reacts h => exact h.sessions hc
  | _ => exact hsame

/-! ### Outside of sessions -/

/-- Between sessions only `connect` makes a difference. -/
theorem Coherent.call_unconnected (h : c.Coherent) (hc : c.connection = none) {call : Call M}
    (hcall : ∀ revision session, call ≠ .connect revision session) :
    ∃ reply, c.call x call = .ok (reply, c, []) := by
  have hno : ¬ c.isConnected = true := by simp [isConnected, hc]
  cases call with
  | connect revision session => exact absurd rfl (hcall revision session)
  | disconnect =>
    refine ⟨.done (.error .notConnected), ?_⟩
    show Prod.map Reply.done id <$> c.disconnect = _
    rw [disconnect, if_neg hno]
    rfl
  | send op =>
    refine ⟨.done (.error .notConnected), ?_⟩
    show Prod.map Reply.done id <$> c.send x op = _
    rw [send, if_neg hno]
    rfl
  | peek => exact ⟨_, rfl⟩
  | receive =>
    refine ⟨.got (.error .notConnected), ?_⟩
    show Except.ok (Reply.got c.receive.1, c.receive.2, _) = _
    rw [receive, if_neg hno]
  | handle event => exact ⟨.handled, call_of_not_awaits (mt Awaits.live (h.not_live hc))⟩

theorem Run.sessions {log : List (Turn M)} (h : Run x log c) :
    Sessions false (effects log) c.isConnected := by
  induction h with
  | new => exact .nil
  | @turn log c reply c' es call h hcall ih =>
    have hd : Does x c call reply (c', es) := (call_within h.coherent call).of_ok hcall
    rw [effects_append, effects_singleton]
    refine ih.append ?_
    cases hconn : c.connection with
    | some link =>
      have hc : c.connection.isSome := by rw [hconn]; rfl
      rw [isConnected, hc]
      exact hd.sessions hc
    | none =>
      have hc : c.isConnected = false := by simp [isConnected, hconn]
      rw [hc]
      by_cases hcall' : ∃ revision session, call = .connect revision session
      · obtain ⟨revision, session, rfl⟩ := hcall'
        cases hd with
        | connects _ => exact .opens .nil
        | connected hsome => rw [hconn] at hsome; cases hsome
        | unconnected _ hr => cases hr
      · obtain ⟨reply', heq⟩ := h.coherent.call_unconnected (x := x) hconn
          fun revision session heq => hcall' ⟨revision, session, heq⟩
        rw [hcall] at heq
        cases heq
        rw [hc]
        exact .nil

theorem Breaks.unique {q : Queue M} {message : Except ServiceError (Delivery M)} {error error' : Error}
    (h : Breaks x q me message error) (h' : Breaks x q me message error') : error' = error := by
  cases h with
  | lost e => cases h'; rfl
  | @strayEcho d expected hd he hexp hr =>
    cases h' with
    | @strayEcho _ expected' hd' he' hexp' hr' =>
      have heq : expected' = expected := Revision.ext (by omega)
      rw [heq]
    | untimely hd' ht' => exact absurd (hd' hd) he
    | unmatched hd' ht' hu' => exact absurd ht'.1 he
    | rejected hd' ht' hr' => exact absurd hd hd'
  | untimely hd ht =>
    cases h' with
    | strayEcho hd' he' hexp' hr' => exact absurd (hd hd') he'
    | untimely hd' ht' => rw [ht.unique ht']
    | unmatched hd' ht' hu' => exact absurd ht ht'.not_untimely
    | rejected hd' ht' hr' => exact absurd ht ht'.not_untimely
  | unmatched hd ht hu =>
    cases h' with
    | strayEcho hd' he' hexp' hr' => exact absurd ht.1 he'
    | untimely hd' ht' => exact absurd ht' ht.not_untimely
    | unmatched hd' ht' hu' => rfl
    | rejected hd' ht' hr' => exact absurd hd hd'
  | rejected hd ht hr =>
    cases h' with
    | strayEcho hd' he' hexp' hr' => exact absurd hd' hd
    | untimely hd' ht' => exact absurd ht' ht.not_untimely
    | unmatched hd' ht' hu' => exact absurd hd' hd
    | rejected hd' ht' hr' => rw [hr.unique hr']

theorem Breaks.not_accepts {error : Error} (h : Breaks x c.queue me (.ok d) error) :
    ¬ Accepts x c me d r := by
  intro ha
  have hplace := ha.place
  cases h with
  | strayEcho hd he hexp hr => exact hr (Revision.ext (by omega))
  | untimely hd ht =>
    cases ha with
    | recognises hd' he hr => rw [hd hd'] at he; cases he
    | confirms hd' ht' hu hne => exact ht'.not_untimely ht
    | confirmsLast hd' ht' hu hs => exact ht'.not_untimely ht
    | takesIn hd' ht' hf hr => exact ht'.not_untimely ht
  | unmatched hd ht hu =>
    cases ha with
    | recognises hd' he hr => rw [ht.1] at he; cases he
    | confirms hd' ht' hu' hne => rw [hu] at hu'; cases hu'
    | confirmsLast hd' ht' hu' hs => rw [hu] at hu'; cases hu'
    | takesIn hd' ht' hf hr => exact hd' hd
  | rejected hd ht hr =>
    cases ha with
    | takesIn hd' ht' hf hr' => exact hr.not_passes hf hr'
    | recognises hd' => exact hd hd'
    | confirms hd' => exact hd hd'
    | confirmsLast hd' => exact hd hd'

/-- What goes wrong in the session of `link` ends it. It is reported, except for an operation that `send`
turns down. -/
structure Ends (x : Transformer M) (c : Channel M) (link : Connection) : Prop where
  breaks : ∀ message error, Breaks x c.queue link.session message error →
    (c.call x (.handle (.incoming link.token message))).Counts fun r =>
      r.2 = (c.closed, c.phase.release ++ [.unsubscribe, .failed error])
  givesUp : ∀ event message, c.Awaits event → event.failure? = some (.fatal message) →
    c.call x (.handle event) = .ok (.handled, c.closed, [.unsubscribe, .failed (.server message)])
  rejects : ∀ op e, c.queue.pending ≠ [] → x [op] c.queue.pending = .error (.rejected e) →
    c.call x (.send op) = .ok (.done (.error (.queue (.transform e))),
      c.closed, c.phase.release ++ [.unsubscribe])
  turnsDown : ∀ op error r, c.call x (.send op) = .ok (.done (.error error), r) →
    r = (c.closed, c.phase.release ++ [.unsubscribe])

theorem handle_fatal {message : String} (hl : c.Awaits event)
    (he : event.failure? = some (.fatal message)) :
    c.handle x event = .ok (c.closed, [.unsubscribe, .failed (.server message)]) := by
  cases event with
  | task task => cases he
  | incoming connection message => cases he
  | submitResponse token result =>
    obtain ⟨base, batch, hp⟩ := Phase.ticket?_eq_submit_iff.1 hl
    cases result with
    | ok applied => cases he
    | error e =>
      cases he
      show c.onSubmitResponse token (.error (.fatal message)) = _
      unfold onSubmitResponse
      rw [hp]; dsimp only
      rw [if_neg (not_not_intro rfl)]
      exact fail_eq _
  | probeResponse token result =>
    obtain ⟨target, hp⟩ := Phase.ticket?_eq_probe_iff.1 hl
    cases result with
    | ok revision => cases he
    | error e =>
      cases he
      show c.onProbeResponse token (.error (.fatal message)) = _
      unfold onProbeResponse
      rw [hp]; dsimp only
      rw [if_neg (not_not_intro rfl)]
      exact fail_eq _

theorem Coherent.ends {link : Connection} (h : c.Coherent) (hc : c.connection = some link) :
    Ends x c link where
  breaks message error hb := by
    obtain ⟨me, token⟩ := link
    have hin : (c.onIncoming x token message).Counts _ := onIncoming_counts h hc
    refine Checked.within_map.2 (hin.mono fun r hr => ?_)
    cases hr with
    | stale hl => exact absurd ⟨me, hc⟩ hl
    | retries hl he => simp [Event.failure?] at he
    | givesUp hl he => simp [Event.failure?] at he
    | breaks hconn hb' =>
      rw [hc] at hconn
      cases hconn
      rw [hb.unique hb']
    | accepts hconn ha hs =>
      rw [hc] at hconn
      cases hconn
      exact absurd ha hb.not_accepts
  givesUp event message hl he := by
    show (Reply.handled, ·) <$> c.handle x event = _
    rw [handle_fatal hl he]
    rfl
  rejects op e hne he := by
    have hyes : c.isConnected = true := by simp [isConnected, hc]
    have hout : c.queue.clientOp x op = .ok (.error (.transform e), { c.queue with pending := [] }) := by
      unfold Queue.clientOp Transformer.run
      rw [if_neg (by simpa using hne), he]
      rfl
    show Prod.map Reply.done id <$> c.send x op = _
    rw [send, if_pos hyes, hout]
    rfl
  turnsDown op error r hcall := by
    have hd : Does x c (.send op) (.done (.error error)) r := (call_within h _).of_ok hcall
    cases hd with
    | unconnected hconn hr => rw [hc] at hconn; cases hconn
    | rejects hconn he => rfl

end

end Channel

/-! ### The next session -/

namespace Agenda

variable {R : Type} [RandomSource R] {a a' : Agenda M R} {f : Token → Token}

theorem perform_renumber {e : Effect M} {p p' : Deed M × Agenda M R} (hb : a.backoff = a'.backoff)
    (h : a.perform (e.renumber f) = .ok p) (h' : a'.perform e = .ok p') :
    p.1.delay = p'.1.delay ∧ p.2.backoff = p'.2.backoff := by
  cases e with
  | scheduleAfterDelay task =>
    obtain ⟨⟨delay, backoff⟩, hnext, h⟩ := Checked.bind_eq_ok_iff.1 h
    obtain ⟨⟨delay', backoff'⟩, hnext', h'⟩ := Checked.bind_eq_ok_iff.1 h'
    obtain ⟨timeline, -, h⟩ := Checked.bind_eq_ok_iff.1 h
    obtain ⟨timeline', -, h'⟩ := Checked.bind_eq_ok_iff.1 h'
    rw [hb, hnext'] at hnext
    cases hnext; cases h; cases h'
    exact ⟨rfl, rfl⟩
  | resetBackoff => cases h; cases h'; exact ⟨rfl, congrArg Backoff.reset hb⟩
  | _ => cases h; cases h'; exact ⟨rfl, hb⟩

theorem performAll_renumber {es : List (Effect M)} {p p' : List (Deed M) × Agenda M R}
    (hb : a.backoff = a'.backoff) (h : a.performAll (es.map (·.renumber f)) = .ok p)
    (h' : a'.performAll es = .ok p') :
    p.1.map (·.delay) = p'.1.map (·.delay) ∧ p.2.backoff = p'.2.backoff := by
  induction es generalizing a a' p p' with
  | nil => cases h; cases h'; exact ⟨rfl, hb⟩
  | cons e es ih =>
    obtain ⟨⟨deed, a₁⟩, hdeed, h⟩ := Checked.bind_eq_ok_iff.1 h
    obtain ⟨⟨deed', a₁'⟩, hdeed', h'⟩ := Checked.bind_eq_ok_iff.1 h'
    obtain ⟨⟨deeds, a₂⟩, hdeeds, h⟩ := Checked.bind_eq_ok_iff.1 h
    obtain ⟨⟨deeds', a₂'⟩, hdeeds', h'⟩ := Checked.bind_eq_ok_iff.1 h'
    cases h; cases h'
    obtain ⟨hdelay, hb⟩ := perform_renumber hb hdeed hdeed'
    obtain ⟨hdelays, hb⟩ := ih hb hdeeds hdeeds'
    exact ⟨by rw [List.map_cons, List.map_cons, hdelay, hdelays], hb⟩

theorem performAll_reset {es es' : List (Effect M)} {p p' : List (Deed M) × Agenda M R}
    (hpolicy : a.backoff.policy = a'.backoff.policy) (hrandom : a.backoff.random = a'.backoff.random)
    (hes : es = es'.map (·.renumber f)) (hreset : es'.head? = some .resetBackoff)
    (h : a.performAll es = .ok p) (h' : a'.performAll es' = .ok p') :
    p.1.map (·.delay) = p'.1.map (·.delay) ∧ p.2.backoff = p'.2.backoff := by
  cases es' with
  | nil => cases hreset
  | cons e es' =>
    cases hreset
    subst hes
    obtain ⟨⟨deed, a₁⟩, hdeed, h⟩ := Checked.bind_eq_ok_iff.1 h
    obtain ⟨⟨deed', a₁'⟩, hdeed', h'⟩ := Checked.bind_eq_ok_iff.1 h'
    obtain ⟨⟨deeds, a₂⟩, hdeeds, h⟩ := Checked.bind_eq_ok_iff.1 h
    obtain ⟨⟨deeds', a₂'⟩, hdeeds', h'⟩ := Checked.bind_eq_ok_iff.1 h'
    cases h; cases h'; cases hdeed; cases hdeed'
    have hb : a.backoff.reset = a'.backoff.reset := by
      rw [Backoff.reset, Backoff.reset, hpolicy, hrandom]
    obtain ⟨hdelays, hb⟩ := performAll_renumber hb hdeeds hdeeds'
    exact ⟨by rw [List.map_cons, List.map_cons, hdelays], hb⟩

end Agenda

namespace Channel

/-- A channel that is at `c` after `log` does from now on what a new channel does under tokens that are
smaller by `k`, with counts that start from zero, and with the same delays from the same random numbers. -/
structure StartsOver (x : Transformer M) (log : List (Turn M)) (c : Channel M) (k : Nat) : Prop where
  likeNew : c = shift k c.stats {}
  asNew : ∀ later c', Run x (log ++ later) c' → ∃ fresh d, Run x fresh d ∧ c' = d.shift k c.stats ∧
    List.Forall₂ (Turn.Matches k) later fresh ∧
    ((∃ t, later.head? = some t ∧ t.Opens) → ∀ (R : Type) [RandomSource R] (a a' : Agenda M R) p p',
      a.backoff.policy = a'.backoff.policy → a.backoff.random = a'.backoff.random →
      a.performAll (effects later) = .ok p → a'.performAll (effects fresh) = .ok p' →
      p.1.map (·.delay) = p'.1.map (·.delay) ∧ p.2.backoff = p'.2.backoff)
  /-- The tokens last for two more at the end. -/
  asShifted : ∀ fresh d, Run x fresh d → d.Room k 2 →
    Run x (log ++ fresh.map (·.shift k)) (d.shift k c.stats)

section
variable {x : Transformer M} {c : Channel M} {k : Nat} {log later fresh : List (Turn M)}

/-- All that is left of the sessions before are the number of the next token and the counts. -/
theorem Run.eq_shift (h : Run x log c) (hc : c.connection = none) :
    c = shift (c.tokens.next - 1) c.stats {} := by
  have hfits := h.coherent.fits
  have hp := h.coherent.eq_uninitialised hc
  have hnext := h.live_pos.1
  rw [hp] at hfits
  obtain ⟨queue, connection, phase, tokens, stats⟩ := c
  obtain ⟨next⟩ := tokens
  obtain rfl : connection = none := hc
  obtain rfl : phase = .uninitialised := hp
  obtain rfl : queue = {} := hfits.2
  have htokens : next - 1 + 1 = next := Nat.sub_add_cancel hnext
  simp [shift, Stats.after, TokenSource.shift, Phase.renumber, htokens]

theorem effects_of_matches (h : List.Forall₂ (Turn.Matches k) later fresh) :
    effects later = (effects fresh).map (·.renumber (Token.shift k)) := by
  induction h with
  | nil => rfl
  | cons ht _ ih =>
    rw [effects, List.flatMap_cons, ← effects, ih, ht.effects, ← List.map_append]
    rfl

theorem Turn.Matches.opens {t t' : Turn M} (h : Turn.Matches k t t') (ht : t.Opens) : t'.Opens := by
  obtain ⟨⟨revision, session, hcall⟩, hreply⟩ := ht
  refine ⟨⟨revision, session, ?_⟩, h.reply.trans hreply⟩
  rw [h.call, hcall]
  rfl

theorem Run.resets {t : Turn M} (h : Run x (t :: log) c) (ht : t.Opens) :
    (effects (t :: log)).head? = some .resetBackoff := by
  obtain ⟨c₁, h₁⟩ : ∃ c, Run x ([] ++ [t]) c := Run.before h
  obtain ⟨c₀, -, hd⟩ := h₁.does
  obtain ⟨call, reply, es⟩ := t
  obtain ⟨⟨revision, session, hcall⟩, hreply⟩ := ht
  dsimp only at hd hcall hreply
  subst hcall hreply
  cases hd with
  | connects hconn => rfl
  | unconnected hconn hr => cases hr

/-- Between two sessions a channel is like a new one. -/
theorem Run.starts_over (h : Run x log c) (hc : c.connection = none) :
    StartsOver x log c (c.tokens.next - 1) := by
  have hnew := h.eq_shift hc
  refine ⟨hnew, fun later c' h' => ?_, fun fresh d hd hroom => (hnew ▸ h).as_shifted hd hroom⟩
  obtain ⟨fresh, d, hd, hmatches, hc'⟩ := (hnew ▸ h).as_new h'
  refine ⟨fresh, d, hd, hc', hmatches, ?_⟩
  rintro ⟨t, hhead, hopens⟩ R _ a a' p p' hpolicy hrandom hall hall'
  -- A session begins with resetting the backoff, which leaves of it only its random numbers.
  have hreset : (effects fresh).head? = some .resetBackoff := by
    cases hmatches with
    | nil => cases hhead
    | cons ht hrest =>
      cases hhead
      exact hd.resets (ht.opens hopens)
  exact Agenda.performAll_reset hpolicy hrandom (effects_of_matches hmatches) hreset hall hall'

/-- The subscription begins and ends in turns, and the channel is connected exactly while it lasts. A
failure is reported only right after the end of a session, and the next one not before another session
began. Outside of sessions the channel is as new, and nothing but `connect` makes a difference to it or has
an effect. Within a session, what goes wrong ends it. The session after that is as the first one of a new
channel. -/
theorem Run.sessions_isolated (h : Run x log c) :
    (∃ n, brackets (effects log) =
      (List.replicate n [true, false]).flatten ++ if c.isConnected then [true] else []) ∧
    (∀ front error back, effects log = front ++ .failed error :: back →
      (∃ front', front = front' ++ [.unsubscribe]) ∧
      ∀ mid error' back', back = mid ++ .failed error' :: back' →
        ∃ token revision, .subscribe token revision ∈ mid) ∧
    (c.connection = none → c.state = .uninitialised ∧ c.queue = {} ∧ c.receiveAll = ([], c) ∧
      (∀ call, (∀ revision session, call ≠ .connect revision session) →
        ∃ reply, c.call x call = .ok (reply, c, [])) ∧
      StartsOver x log c (c.tokens.next - 1)) ∧
    ∀ link, c.connection = some link → Ends x c link := by
  refine ⟨h.sessions.alternate, fun front error back heq => ?_, fun hc => ?_, fun link hc => ?_⟩
  · have hsessions := h.sessions
    rw [heq] at hsessions
    obtain ⟨hclosed, hback⟩ := hsessions.after_failed
    refine ⟨hclosed, ?_⟩
    rintro mid error' back' rfl
    exact hback.subscribes_before_failed
  · have hfits := h.coherent.fits
    have hp := h.coherent.eq_uninitialised hc
    rw [hp] at hfits
    refine ⟨by rw [state, hp]; rfl, hfits.2, ?_, fun call hcall => ?_, h.starts_over hc⟩
    · rw [receiveAll, if_neg (by simp [isConnected, hc])]
    · exact h.coherent.call_unconnected hc hcall
  · exact h.coherent.ends hc

end

/-- A batch is in flight when a delivery leaves a gap: this ends the session and is reported, and an
operation after that is turned down without effect. What then comes in sessions of their own is what comes
of a new channel under tokens that are smaller by 3. -/
theorem sessions_isolated_gap : ∃ log c, Run CharOp.transform log c ∧ c.connection = none ∧
    (∃ n, brackets (effects log) = (List.replicate n [true, false]).flatten) ∧
    (∃ front error, effects log = front ++ [.failed error] ∧ ∃ front', front = front' ++ [.unsubscribe]) ∧
    c.queue = {} ∧ c.stats.submits = 1 ∧
    ∃ later c', Run CharOp.transform (log ++ later) c' ∧ c'.isConnected = true ∧
      ∃ fresh d, Run CharOp.transform fresh d ∧ c' = d.shift 3 c.stats := by
  have h₀ : Run CharOp.transform [] {} := .new
  have h₁ := h₀.turn (.connect ⟨5⟩ ⟨"a", by decide⟩) rfl
  have h₂ := h₁.turn (.send ⟨0, 1, .insert 0 'x'⟩) rfl
  have h₃ := h₂.turn (.handle (.task ⟨⟨2⟩, .maybeSend⟩)) rfl
  have h₄ := h₃.turn (.handle (.incoming ⟨1⟩ (.ok ⟨⟨9⟩, ⟨"b", by decide⟩, ⟨0, 2, .insert 0 'y'⟩⟩))) rfl
  have h₅ := h₄.turn (.send ⟨1, 1, .insert 0 'z'⟩) rfl
  have h₆ := h₅.turn (.connect ⟨9⟩ ⟨"c", by decide⟩) rfl
  obtain ⟨hbrackets, hfailed, hidle, -⟩ := h₅.sessions_isolated
  obtain ⟨-, hqueue, -, -, hover⟩ := hidle rfl
  obtain ⟨fresh, d, hd, hshift, -⟩ := hover.asNew _ _ h₆
  obtain ⟨n, hn⟩ := hbrackets
  have hlast := (hfailed [.resetBackoff, .subscribe ⟨1⟩ ⟨5⟩, .schedule ⟨⟨2⟩, .maybeSend⟩,
    .submit ⟨3⟩ ⟨5⟩ [⟨0, 1, .insert 0 'x'⟩], .disregard ⟨3⟩, .unsubscribe]
    (.queue (.revisionGap ⟨6⟩ ⟨9⟩)) [] rfl).1
  exact ⟨_, _, h₅, rfl, ⟨n, hn.trans (List.append_nil _)⟩, ⟨_, _, rfl, hlast⟩, hqueue, rfl, _, _, h₆, rfl, fresh, d,
    hd, hshift⟩

end Channel

end CoEdit
