import CoEdit.Proofs.Coherence

/-!
# The ledger of a session

A channel counts what it takes in. `Brings` says how many operations a reaction brings: of other
sessions, confirmed by their echoes, confirmed by a response, and echoes of what a response had
confirmed before. Its counts, its revision, the echoes it expects and the news for its listener move
together, whatever the transformer.

Hence the accounts of a session balance (`Run.balanced`): since the channel was connected at `r₀`, its
revision moved by the operations that its counts show, and the deliveries that it accepted carried the
revisions `r₀ + 1`, `r₀ + 2`, … without exception. Responses may run ahead of the deliveries, but the
place of the next delivery is always the revision less the echoes still expected, and a delivery with
another revision ends the session.
-/

namespace CoEdit

variable {M : Type}

namespace Effect

/-- The own operation that is reported confirmed, and whether that leaves the channel clean. -/
@[simp] def acked? : Effect M → Option (M × Bool)
  | .acked op clean => some (op, clean)
  | _ => none

/-- The operation of another session that is reported. -/
@[simp] def remote? : Effect M → Option M
  | .remote op => some op
  | _ => none

/-- The confirmations that the listener hears of, in order. -/
def acks (es : List (Effect M)) : List (M × Bool) := es.filterMap acked?

/-- The operations of other sessions that the listener hears of, in order. -/
def remotes (es : List (Effect M)) : List M := es.filterMap remote?

section
variable {es es' : List (Effect M)} {e : Effect M} {clean : Bool} {ops : List M}

@[simp] theorem acks_nil : acks ([] : List (Effect M)) = [] := rfl

@[simp] theorem acks_cons : acks (e :: es) = e.acked?.toList ++ acks es := by
  cases e <;> rfl

@[simp] theorem acks_append : acks (es ++ es') = acks es ++ acks es' := List.filterMap_append

@[simp] theorem remotes_nil : remotes ([] : List (Effect M)) = [] := rfl

@[simp] theorem remotes_cons : remotes (e :: es) = e.remote?.toList ++ remotes es := by
  cases e <;> rfl

@[simp] theorem remotes_append : remotes (es ++ es') = remotes es ++ remotes es' :=
  List.filterMap_append

theorem map_fst_acks_ackedAll : ∀ {ops : List M}, (acks (ackedAll clean ops)).map Prod.fst = ops
  | [] => rfl
  | [_] => rfl
  | op :: op' :: rest => by
    rw [ackedAll_cons_cons, acks_cons, List.map_append, map_fst_acks_ackedAll]
    rfl

@[simp] theorem length_acks_ackedAll : (acks (ackedAll clean ops)).length = ops.length := by
  rw [← List.length_map (f := Prod.fst), map_fst_acks_ackedAll]

@[simp] theorem remotes_ackedAll : remotes (ackedAll clean ops) = [] := by
  refine List.filterMap_eq_nil_iff.2 fun e he => ?_
  obtain ⟨op, clean', rfl⟩ := mem_ackedAll he
  rfl

end

end Effect

namespace Channel

@[simp] theorem Phase.acks_release (phase : Phase) :
    Effect.acks (phase.release : List (Effect M)) = [] := by
  unfold release; split <;> rfl

@[simp] theorem Phase.remotes_release (phase : Phase) :
    Effect.remotes (phase.release : List (Effect M)) = [] := by
  unfold release; split <;> rfl

/-- How many operations something brings. -/
structure Tally where
  /-- Of other sessions. -/
  remote : Nat := 0
  /-- Confirmed by their echoes. -/
  direct : Nat := 0
  /-- Confirmed by a response. -/
  eager : Nat := 0
  /-- Echoes of what was confirmed by a response. -/
  duplicate : Nat := 0

/-- How many of them were delivered. -/
def Tally.deliveries (n : Tally) : Nat := n.remote + n.direct + n.duplicate

structure Brings (c : Channel M) (n : Tally) (r : Reaction M) : Prop where
  remoteOps : r.1.stats.remoteOps = c.stats.remoteOps + n.remote
  directAcks : r.1.stats.directAcks = c.stats.directAcks + n.direct
  eagerAcks : r.1.stats.eagerAcks = c.stats.eagerAcks + n.eager
  duplicateAcks : r.1.stats.duplicateAcks = c.stats.duplicateAcks + n.duplicate
  revision : r.1.queue.revision.number =
    c.queue.revision.number + n.remote + n.direct + n.eager
  echoes : r.1.queue.expectedEchoes + n.duplicate = c.queue.expectedEchoes + n.eager
  acks : (Effect.acks r.2).length = n.direct + n.eager
  remotes : (Effect.remotes r.2).length = n.remote

/-- What the counts of a channel show so far. -/
def Stats.tally (s : Stats) : Tally where
  remote := s.remoteOps
  direct := s.directAcks
  eager := s.eagerAcks
  duplicate := s.duplicateAcks

/-- The delivery that a call brings over the connection `token`. -/
def Call.delivery? (token : Token) : Call M → Option (Delivery M)
  | .handle (.incoming k (.ok d)) => if k = token then some d else none
  | _ => none

section
variable {x : Transformer M} {c : Channel M} {r r' : Reaction M} {n n' : Tally} {me : Session}
  {token : Token} {d : Delivery M}

theorem Schedules.acks {task : Option Token} {tokens : TokenSource} {effects : List (Effect M)}
    (h : c.Schedules task tokens effects) : Effect.acks effects = [] := by
  rcases h with ⟨-, -, -, rfl⟩ | ⟨-, -, -, rfl⟩ <;> rfl

theorem Schedules.remotes {task : Option Token} {tokens : TokenSource} {effects : List (Effect M)}
    (h : c.Schedules task tokens effects) : Effect.remotes effects = [] := by
  rcases h with ⟨-, -, -, rfl⟩ | ⟨-, -, -, rfl⟩ <;> rfl

/-- Other counts, the batch that waits and the phase do not enter the books. -/
theorem Brings.nothing (hs : r.1.stats.tally = c.stats.tally)
    (hr : r.1.queue.revision = c.queue.revision)
    (he : r.1.queue.expectedEchoes = c.queue.expectedEchoes)
    (hacks : Effect.acks r.2 = []) (hremotes : Effect.remotes r.2 = []) : Brings c {} r where
  remoteOps := congrArg Tally.remote hs
  directAcks := congrArg Tally.direct hs
  eagerAcks := congrArg Tally.eager hs
  duplicateAcks := congrArg Tally.duplicate hs
  revision := congrArg Revision.number hr
  echoes := he
  acks := congrArg List.length hacks
  remotes := congrArg List.length hremotes

theorem Brings.followed (h : Brings c n r) (h' : Brings r.1 {} r') :
    Brings c n (r'.1, r.2 ++ r'.2) where
  remoteOps := h'.remoteOps.trans h.remoteOps
  directAcks := h'.directAcks.trans h.directAcks
  eagerAcks := h'.eagerAcks.trans h.eagerAcks
  duplicateAcks := h'.duplicateAcks.trans h.duplicateAcks
  revision := h'.revision.trans h.revision
  echoes := by
    have := h.echoes
    have := h'.echoes
    dsimp only at *; omega
  acks := by rw [Effect.acks_append, List.length_append, h.acks, h'.acks]; rfl
  remotes := by rw [Effect.remotes_append, List.length_append, h.remotes, h'.remotes]; rfl

theorem Syncs.brings (h : c.Syncs r) : Brings c {} r := by
  cases h with
  | lags h => exact .nothing rfl rfl rfl rfl rfl
  | resends hp hr hu => exact .nothing rfl rfl rfl rfl rfl
  | finishes hp hr hu hs =>
    exact .nothing rfl rfl rfl (by simp [hs.acks]) (by simp [hs.remotes])

/-- An accepted delivery is the one whose place comes next. -/
theorem Accepts.place (h : Accepts x c me d r) :
    d.revision.number + c.queue.expectedEchoes = c.queue.revision.number + 1 := by
  cases h with
  | recognises hd he hr => omega
  | confirms hd ht hu hne => rw [ht.1, ht.2]
  | confirmsLast hd ht hu hs => rw [ht.1, ht.2]
  | takesIn hd ht hf hr => rw [ht.1, ht.2]

theorem Accepts.brings (h : Accepts x c me d r) : ∃ n, Brings c n r ∧ n.deliveries = 1 := by
  cases h with
  | recognises hd he hr =>
    exact ⟨{ duplicate := 1 }, ⟨rfl, rfl, rfl, rfl, rfl, he.symm, rfl, rfl⟩, rfl⟩
  | confirms hd ht hu hne =>
    exact ⟨{ direct := 1 }, ⟨rfl, rfl, rfl, rfl, ht.2, rfl, rfl, rfl⟩, rfl⟩
  | confirmsLast hd ht hu hs =>
    exact ⟨{ direct := 1 }, ⟨rfl, rfl, rfl, rfl, ht.2, rfl, by simp [hs.acks],
      by simp [hs.remotes]⟩, rfl⟩
  | takesIn hd ht hf hr =>
    exact ⟨{ remote := 1 }, ⟨rfl, rfl, rfl, rfl, ht.2, rfl, rfl, rfl⟩, rfl⟩

/-- What a call that does not end the session brings is what it brings over the connection, in its
place. -/
structure Enters (c : Channel M) (token : Token) (call : Call M) (n : Tally) (r : Reaction M) : Prop
    extends Brings c n r where
  deliveries : n.deliveries = (call.delivery? token).toList.length
  place : ∀ d ∈ call.delivery? token,
    d.revision.number + c.queue.expectedEchoes = c.queue.revision.number + 1

theorem Brings.enters {call : Call M} (h : Brings c {} r) (hd : call.delivery? token = none) :
    ∃ n, Enters c token call n r :=
  ⟨{}, h, by rw [hd]; rfl, by rw [hd]; nofun⟩

theorem Reacts.enters {event : Event M} (h : Reacts x c event r)
    (hc : c.connection = some ⟨me, token⟩) (hlive : r.1.connection.isSome) :
    ∃ n, Enters c token (.handle event) n r := by
  cases h with
  | stale hl =>
    refine Brings.enters (.nothing rfl rfl rfl rfl rfl) ?_
    unfold Call.delivery?; split
    · rename_i k d heq
      cases heq
      exact if_neg (by rintro rfl; exact hl ⟨me, hc⟩)
    · rfl
  | submits hp hu hq => exact Brings.enters (.nothing rfl rfl rfl rfl rfl) rfl
  | lapses hp hq => exact Brings.enters (.nothing rfl rfl rfl rfl rfl) rfl
  | probes hp => exact Brings.enters (.nothing rfl rfl rfl rfl rfl) rfl
  | confirms hp hb hu hr hs =>
    refine ⟨{ eager := c.queue.unacked.length }, ⟨rfl, rfl, rfl, rfl, hr, rfl, ?_, ?_⟩, rfl, nofun⟩
    · simp [hs.acks]
    · simp [hs.remotes]
  | defers hp hr => exact Brings.enters (.nothing rfl rfl rfl rfl rfl) rfl
  | learns hp hs =>
    have hn := hs.brings
    exact Brings.enters ⟨hn.1, hn.2, hn.3, hn.4, hn.5, hn.6, hn.7, hn.8⟩ rfl
  | retries h he =>
    refine Brings.enters (.nothing rfl rfl rfl rfl rfl) ?_
    unfold Call.delivery?; split
    · rename_i heq
      cases heq
      cases he
    · rfl
  | givesUp h he => cases hlive
  | breaks hconn h => cases hlive
  | accepts hconn h hs =>
    rw [hc] at hconn
    cases hconn
    obtain ⟨n, hn, hone⟩ := h.brings
    refine ⟨n, hn.followed hs.brings, ?_, fun d hd => ?_⟩
    · rw [hone, Call.delivery?, if_pos rfl]; rfl
    · rw [Call.delivery?, if_pos rfl] at hd
      cases hd
      exact h.place

theorem Does.enters {call : Call M} {reply : Reply M} (h : Does x c call reply r)
    (hc : c.connection = some ⟨me, token⟩) (hlive : r.1.connection.isSome) :
    ∃ n, Enters c token call n r := by
  cases h with
  | connects hconn => rw [hc] at hconn; cases hconn
  | connected hconn => exact Brings.enters (.nothing rfl rfl rfl rfl rfl) rfl
  | unconnected hconn hr => rw [hc] at hconn; cases hconn
  | disconnects hconn => cases hlive
  | schedules hp ht hs =>
    exact Brings.enters (.nothing rfl rfl rfl hs.acks hs.remotes) rfl
  | stages hconn hp ht => exact Brings.enters (.nothing rfl rfl rfl rfl rfl) rfl
  | rejects hconn he => cases hlive
  | peeks hconn => exact Brings.enters (.nothing rfl rfl rfl rfl rfl) rfl
  | receives hconn => exact Brings.enters (.nothing rfl rfl rfl rfl rfl) rfl
  | reacts h => exact h.enters hc hlive

theorem Syncs.connection_eq (h : c.Syncs r) : r.1.connection = c.connection := by
  cases h <;> rfl

theorem Reacts.connection_eq {event : Event M} (h : Reacts x c event r)
    (hlive : r.1.connection.isSome) : r.1.connection = c.connection := by
  cases h with
  | learns hp hs => exact hs.connection_eq
  | givesUp h he => cases hlive
  | breaks hconn h => cases hlive
  | accepts hconn h hs => exact hs.connection_eq.trans h.connection_eq
  | _ => rfl

theorem Does.connection_eq {call : Call M} {reply : Reply M} (h : Does x c call reply r)
    (hc : c.connection.isSome) (hlive : r.1.connection.isSome) : r.1.connection = c.connection := by
  cases h with
  | connects hconn => rw [hconn] at hc; cases hc
  | disconnects hconn => cases hlive
  | rejects hconn he => cases hlive
  | reacts h => exact h.connection_eq hlive
  | _ => rfl

end

/-! ### Sessions -/

/-- The effects of the calls, in order. -/
def effects (log : List (Turn M)) : List (Effect M) := log.flatMap (·.effects)

/-- The deliveries that came over the connection `token`, in order. -/
def deliveries (token : Token) (log : List (Turn M)) : List (Delivery M) :=
  log.filterMap (·.call.delivery? token)

/-- A session began. -/
def Turn.Opens (t : Turn M) : Prop :=
  (∃ revision session, t.call = .connect revision session) ∧ t.reply = .done (.ok ())

section
variable {log log' : List (Turn M)} {t : Turn M} {token : Token}

@[simp] theorem effects_nil : effects ([] : List (Turn M)) = [] := rfl

@[simp] theorem effects_append : effects (log ++ log') = effects log ++ effects log' :=
  List.flatMap_append

@[simp] theorem effects_singleton : effects [t] = t.effects := by simp [effects]

@[simp] theorem deliveries_append :
    deliveries token (log ++ log') = deliveries token log ++ deliveries token log' :=
  List.filterMap_append

@[simp] theorem deliveries_singleton : deliveries token [t] = (t.call.delivery? token).toList := by
  unfold deliveries
  cases h : t.call.delivery? token <;> simp [h]

end

/-- `c` is in the session of `link`, which began at revision `r₀` when the channel's counts were `s₀`,
and `since` is what happened in it. -/
inductive InSession (x : Transformer M) (link : Connection) (r₀ : Revision) (s₀ : Stats) :
    List (Turn M) → Channel M → Prop
  | opens {c r} : c.stats = s₀ → c.connection = none →
      Does x c (.connect r₀ link.session) (.done (.ok ())) r → r.1.connection = some link →
      InSession x link r₀ s₀ [] r.1
  | turn {since c call reply r} : InSession x link r₀ s₀ since c → Does x c call reply r →
      r.1.connection = some link → InSession x link r₀ s₀ (since ++ [⟨call, reply, r.2⟩]) r.1

section
variable {x : Transformer M} {c : Channel M} {link : Connection} {r₀ : Revision} {s₀ : Stats}
  {log since : List (Turn M)}

theorem InSession.connection_eq (h : InSession x link r₀ s₀ since c) : c.connection = some link := by
  cases h with
  | opens _ _ _ h => exact h
  | turn _ _ h => exact h

theorem Does.opens {call : Call M} {reply : Reply M} {r : Reaction M} (h : Does x c call reply r)
    (hc : c.connection = none) (hr : r.1.connection = some link) :
    ∃ r₀, call = .connect r₀ link.session ∧ reply = .done (.ok ()) := by
  cases h with
  | connects hconn => cases hr; exact ⟨_, rfl, rfl⟩
  | disconnects hconn => cases hr
  | rejects hconn he => cases hr
  | reacts h => rw [h.connection_eq (by rw [hr]; rfl), hc] at hr; cases hr
  | _ => exact nomatch hc.symm.trans hr

theorem Does.not_opens {call : Call M} {reply : Reply M} {r : Reaction M} (h : Does x c call reply r)
    (hc : c.connection.isSome) : ¬ Turn.Opens ⟨call, reply, r.2⟩ := by
  rintro ⟨⟨revision, session, rfl⟩, rfl⟩
  cases h with
  | connects hconn => rw [hconn] at hc; cases hc
  | unconnected hconn hr => cases hr

theorem Run.inSession (h : Run x log c) (hc : c.connection = some link) :
    ∃ before c₀ r₀ opening since, Run x before c₀ ∧
      log = before ++ ⟨.connect r₀ link.session, .done (.ok ()), opening⟩ :: since ∧
      (∀ t ∈ since, ¬ t.Opens) ∧ InSession x link r₀ c₀.stats since c := by
  induction h with
  | new => cases hc
  | @turn log c₀ reply c' effects call h hcall ih =>
    have hd := (call_within h.coherent call).of_ok hcall
    dsimp only at hd
    cases hc₀ : c₀.connection with
    | none =>
      obtain ⟨r₀, rfl, rfl⟩ := hd.opens hc₀ hc
      exact ⟨log, c₀, r₀, effects, [], h, rfl, by simp, .opens rfl hc₀ hd hc⟩
    | some link₀ =>
      have heq := hd.connection_eq (by rw [hc₀]; rfl) (by rw [hc]; rfl)
      obtain ⟨before, c₁, r₀, opening, since, hbefore, hlog, hsince, hin⟩ := ih (heq ▸ hc)
      refine ⟨before, c₁, r₀, opening, since ++ [⟨call, reply, effects⟩], hbefore, ?_, ?_, ?_⟩
      · rw [hlog]; simp
      · intro t ht
        rcases List.mem_append.1 ht with ht | ht
        · exact hsince t ht
        · rw [List.mem_singleton.1 ht]
          exact hd.not_opens (by rw [hc₀]; rfl)
      · exact .turn hin hd hc

/-- By how much a count grew since the counts were `s₀`. -/
def gain (s₀ s : Stats) (count : Stats → Nat) : Int := count s - count s₀

/-- The accounts of a session over the connection `token` that began at revision `r₀` with the counts
`s₀`. -/
structure Balanced (r₀ : Revision) (s₀ : Stats) (token : Token) (since : List (Turn M))
    (c : Channel M) : Prop where
  revision : (c.queue.revision.number : Int) =
    r₀.number + gain s₀ c.stats (·.remoteOps) + gain s₀ c.stats (·.directAcks) +
      gain s₀ c.stats (·.eagerAcks)
  echoes : (c.queue.expectedEchoes : Int) =
    gain s₀ c.stats (·.eagerAcks) - gain s₀ c.stats (·.duplicateAcks)
  acks : ((Effect.acks (effects since)).length : Int) =
    gain s₀ c.stats (·.directAcks) + gain s₀ c.stats (·.eagerAcks)
  remotes : ((Effect.remotes (effects since)).length : Int) = gain s₀ c.stats (·.remoteOps)
  /-- The deliveries that were accepted and the echoes still expected make up the way from `r₀`. -/
  place : r₀.number + (deliveries token since).length + c.queue.expectedEchoes =
    c.queue.revision.number
  /-- Every delivery was accepted, each with the revision after that of the one before. -/
  inOrder : (deliveries token since).map (·.revision.number) =
    List.range' (r₀.number + 1) (deliveries token since).length

theorem Balanced.opening {token : Token} (hr : c.queue = .start r₀) (hs : c.stats = s₀) :
    Balanced r₀ s₀ token [] c := by
  constructor <;> simp [gain, hr, hs, Queue.start, effects, deliveries]

theorem Balanced.enter {token : Token} {call : Call M} {reply : Reply M} {n : Tally} {r : Reaction M}
    (h : Balanced r₀ s₀ token since c) (hn : Enters c token call n r) :
    Balanced r₀ s₀ token (since ++ [⟨call, reply, r.2⟩]) r.1 := by
  obtain ⟨⟨hremote, hdirect, heager, hdup, hrev, hech, hacks, hremotes⟩, hdel, hplace⟩ := hn
  obtain ⟨h₁, h₂, h₃, h₄, h₅, h₆⟩ := h
  simp only [gain, Tally.deliveries] at *
  refine ⟨by dsimp only [gain]; omega, by dsimp only [gain]; omega, ?_, ?_, ?_, ?_⟩
  · simp [gain]; omega
  · simp [gain]; omega
  · simp; omega
  · rw [deliveries_append, deliveries_singleton, List.map_append, List.length_append, h₆]
    cases hd : call.delivery? token with
    | none => simp
    | some d =>
      have hnumber : d.revision.number = r₀.number + 1 + (deliveries token since).length := by
        have := hplace d hd
        omega
      show _ ++ [d.revision.number] = List.range' _ (_ + 1)
      rw [List.range'_concat, Nat.one_mul, hnumber]

theorem InSession.accounts (h : InSession x link r₀ s₀ since c) :
    Balanced r₀ s₀ link.token since c := by
  induction h with
  | opens hs hc₀ hd hc =>
    cases hd with
    | connects hconn => exact .opening rfl hs
    | unconnected hconn hr => cases hr
  | turn hin hd hc ih =>
    obtain ⟨n, hn⟩ := hd.enters hin.connection_eq (by rw [hc]; rfl)
    exact ih.enter hn

theorem Coherent.takeEcho_ne_subOverflow (h : c.Coherent) (revision : Revision) :
    c.queue.takeEcho revision ≠ .error .subOverflow := by
  intro hsub
  have hcounts : (c.queue.takeEcho revision).Counts _ :=
    Queue.takeEcho_counts (Nat.le_succ_of_le h.echoes)
  rw [hsub] at hcounts
  cases hcounts

theorem Coherent.disconnects (h : c.Coherent) (hc : c.connection = some link) {d : Delivery M}
    (hd : d.revision.number + c.queue.expectedEchoes ≠ c.queue.revision.number + 1) :
    (c.call x (.handle (.incoming link.token (.ok d)))).Counts fun r =>
      r.2.1 = c.closed ∧ ∃ error, r.2.2 = c.phase.release ++ [.unsubscribe, .failed error] := by
  have hin : (c.onIncoming x link.token (.ok d)).Counts _ := onIncoming_counts h hc
  refine Checked.within_map.2 (hin.mono fun r hr => ?_)
  cases hr with
  | stale hl => exact absurd ⟨link.session, hc⟩ hl
  | retries hl he => cases he
  | givesUp hl he => cases he
  | breaks hconn hb => exact ⟨rfl, _, rfl⟩
  | accepts hconn ha hs => exact absurd ha.place hd

/-- In every connected state the accounts of the session balance, whatever the transformer: `since` is
what happened since the channel was connected last, at `r₀` and with the counts of `c₀`. A delivery
with another revision than the next in line ends the session. -/
theorem Run.balanced (h : Run x log c) (hc : c.connection = some link) :
    ∃ before c₀ r₀ opening since, Run x before c₀ ∧
      log = before ++ ⟨.connect r₀ link.session, .done (.ok ()), opening⟩ :: since ∧
      (∀ t ∈ since, ¬ t.Opens) ∧ Balanced r₀ c₀.stats link.token since c ∧
      r₀.number + c.queue.expectedEchoes ≤ c.queue.revision.number ∧
      (∀ revision, c.queue.takeEcho revision ≠ .error .subOverflow) ∧
      ∀ d : Delivery M,
        d.revision.number ≠ r₀.number + (deliveries link.token since).length + 1 →
        (c.call x (.handle (.incoming link.token (.ok d)))).Counts fun r =>
          r.2.1.connection = none ∧ ∃ error, .failed error ∈ r.2.2 := by
  obtain ⟨before, c₀, r₀, opening, since, hbefore, hlog, hlast, hin⟩ := h.inSession hc
  have hb := hin.accounts
  have hplace := hb.place
  refine ⟨before, c₀, r₀, opening, since, hbefore, hlog, hlast, hb, by omega,
    h.coherent.takeEcho_ne_subOverflow, fun d hd => ?_⟩
  refine (h.coherent.disconnects hc (by omega)).mono fun r hr => ?_
  obtain ⟨hclosed, error, hfailed⟩ := hr
  exact ⟨by rw [hclosed]; rfl, error, by rw [hfailed]; simp⟩

end

/-- A response confirmed two operations and the echo of one of them came, so the next delivery has to
carry the revision that the channel is at already, and one with the revision after it ends the session. -/
theorem balanced_overtaken : ∃ log c, Run CharOp.transform log c ∧
    c.connection = some ⟨⟨"a", by decide⟩, ⟨1⟩⟩ ∧ c.queue.revision = ⟨7⟩ ∧ c.queue.expectedEchoes = 1 ∧
    ∃ r₀ s₀ since, Balanced r₀ s₀ ⟨1⟩ since c ∧ (deliveries ⟨1⟩ since).length + r₀.number = 6 ∧
      (c.call CharOp.transform (.handle (.incoming ⟨1⟩
        (.ok ⟨⟨8⟩, ⟨"b", by decide⟩, ⟨0, 2, .insert 0 'z'⟩⟩)))).Counts fun r => r.2.1.connection = none := by
  let c : Channel CharOp := {
    queue := { revision := ⟨7⟩, expectedEchoes := 1 }
    connection := some ⟨⟨"a", by decide⟩, ⟨1⟩⟩
    phase := .allAcked none
    tokens := ⟨4⟩
    stats := { submits := 1, eagerAcks := 2, duplicateAcks := 1 } }
  have h₀ : Run CharOp.transform [] {} := .new
  have h₁ := h₀.turn (.connect ⟨5⟩ ⟨"a", by decide⟩) rfl
  have h₂ := h₁.turn (.send ⟨0, 1, .insert 0 'x'⟩) rfl
  have h₃ := h₂.turn (.send ⟨1, 1, .insert 1 'y'⟩) rfl
  have h₄ := h₃.turn (.handle (.task ⟨⟨2⟩, .maybeSend⟩)) rfl
  have h₅ := h₄.turn (.handle (.submitResponse ⟨3⟩ (.ok ⟨7⟩))) rfl
  have h₆ : Run _ _ c :=
    h₅.turn (.handle (.incoming ⟨1⟩ (.ok ⟨⟨6⟩, ⟨"a", by decide⟩, ⟨0, 1, .insert 0 'x'⟩⟩))) rfl
  obtain ⟨before, c₀, r₀, opening, since, -, -, -, hb, -, -, hends⟩ := h₆.balanced rfl
  have hplace : r₀.number + (deliveries ⟨1⟩ since).length + 1 = 7 := hb.place
  have hnext : 8 ≠ r₀.number + (deliveries ⟨1⟩ since).length + 1 := by omega
  refine ⟨_, c, h₆, rfl, rfl, rfl, r₀, c₀.stats, since, hb, by omega, ?_⟩
  exact (hends ⟨⟨8⟩, ⟨"b", by decide⟩, ⟨0, 2, .insert 0 'z'⟩⟩ hnext).mono fun r hr => hr.1

end Channel

end CoEdit
