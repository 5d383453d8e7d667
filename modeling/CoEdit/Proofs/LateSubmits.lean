import CoEdit.Proofs.Exchange

/-!
# Submits that are applied late

A submit that failed may still be on its way: the failure is the channel's, and the server may apply the
batch long after. The channel asks for the server's revision then and decides on what it learns whether to
send the batch again. That is right only if the batch cannot be applied any more once the question was
answered. If the server answers no probe while a submit is on its way, then no operation is applied twice
and the channel accepts every delivery (`Run.applied_once`). Otherwise one may be, and the second echo of it
ends the session (`applied_twice`).
-/

namespace CoEdit.Exchange

open Channel

variable {M L : Type} {x : Transformer M} {p : Participant M L} {w : Exchange M} {r r' : Reaction M}
  {d : Delivery M} {tokens : TokenSource} {task : Option Token}

theorem Offers.of_send {op : M} (h : w.Offers p (.send op)) :
    p.own (p.label op) ∧ p.label op ∉ w.sent.map p.label := by
  cases h with
  | send hown hnew => exact ⟨hown, hnew⟩

theorem Offers.of_applied {token : Token} {n : Revision}
    (h : w.Offers p (.handle (.submitResponse token (.ok n)))) : (token, n) ∈ w.applied := by
  cases h with
  | applied h => exact h
  | fails he => cases he

theorem Offers.of_answered {token : Token} {n : Revision}
    (h : w.Offers p (.handle (.probeResponse token (.ok n)))) : (token, n) ∈ w.answered := by
  cases h with
  | answered h => exact h
  | fails he => cases he

theorem Offers.not_fatal {event : Event M} {message : String} (h : w.Offers p (.handle event)) :
    event.failure? ≠ some (.fatal message) := by
  intro he
  cases h with
  | fails he' => rw [he'] at he; cases he
  | _ => cases he

theorem requests_of_quiet {es : List (Effect M)} (h : ∀ e ∈ es, e.request? = none) :
    es.filterMap Effect.submit? = [] ∧ es.filterMap Effect.probe? = [] := by
  refine ⟨List.filterMap_eq_nil_iff.2 fun e he => ?_, List.filterMap_eq_nil_iff.2 fun e he => ?_⟩
  all_goals
    have hnone := h e he
    cases e <;> first | rfl | cases hnone

theorem goOn_of_quiet {c : Channel M} {es : List (Effect M)} (h : ∀ e ∈ es, e.request? = none) :
    w.goOn (c, es) = { w with channel := c } := by
  obtain ⟨hsubmit, hprobe⟩ := requests_of_quiet h
  rw [goOn, hsubmit, hprobe, List.append_nil, List.append_nil]

theorem goOn_nil {c : Channel M} : w.goOn (c, []) = { w with channel := c } :=
  goOn_of_quiet (List.forall_mem_nil _)

theorem goOn_resetBackoff {c : Channel M} {es : List (Effect M)} :
    w.goOn (c, .resetBackoff :: es) = w.goOn (c, es) := rfl

theorem goOn_submit {c : Channel M} {token : Token} {base : Revision} {ops : List M} :
    w.goOn (c, [.submit token base ops]) =
      { w with channel := c, travelling := w.travelling ++ [(token, ops)] } := by
  simp [goOn, Effect.submit?, Effect.probe?]

theorem goOn_probe {c : Channel M} {token : Token} : w.goOn (c, [.probe token]) =
    { w with channel := c, probing := w.probing ++ [token] } := by
  simp [goOn, Effect.submit?, Effect.probe?]

theorem goOn_goOn : (w.goOn r).goOn r' = w.goOn (r'.1, r.2 ++ r'.2) := by
  simp [goOn]

theorem turn_of_quiet {t : Turn M} {c : Channel M} (h : ∀ e ∈ t.effects, e.request? = none)
    (ht : deliveries t.call = 0) : w.turn t c =
      { w with channel := c, sent := w.sent ++ t.accepted?.toList } := by
  rw [turn, goOn_of_quiet h, ht]
  rfl

theorem turn_handle {event : Event M} {reply : Channel.Reply M} {c : Channel M}
    {effects : List (Effect M)} : w.turn ⟨.handle event, reply, effects⟩ c =
      { w with heard := w.heard + deliveries (.handle event) }.goOn (c, effects) := by
  simp [turn, goOn, Turn.accepted?]

theorem quiet_confirmed {c : Channel M} {effects news : List (Effect M)} (phase : Phase)
    (hs : c.Schedules task tokens effects) (hnews : ∀ e ∈ news, e.request? = none) :
    ∀ e ∈ phase.release ++ .resetBackoff :: effects ++ news, e.request? = none := by
  refine hs.forall_mem_confirmed (fun e he => ?_) rfl rfl hnews
  rw [Effect.request?, Phase.ticket?_of_mem_release he]
  rfl

theorem Sound.syncs (h : w.Sound p) (hs : w.channel.Syncs r) : (w.goOn r).Sound p := by
  cases hs with
  | lags hlags =>
    rw [goOn_nil]
    exact h
  | @resends probe answered target hp hr hu =>
    have hsettled := h.rests.target _ _ _ hp
    rw [goOn_resetBackoff, goOn_submit]
    exact h.submit hsettled.nowhere (hsettled.ahead_eq_nil (Nat.not_lt.1 hr)) hu
  | finishes hp hr hu hs =>
    have hquiet := quiet_confirmed w.channel.phase hs (List.forall_mem_nil _)
    rw [List.append_nil] at hquiet
    rw [goOn_of_quiet hquiet]
    exact h.enter hs.next_le (fun _ => .inl) .allAcked

/-- What is not in order cannot come: every delivery is the next one, and no echo is unmatched. -/
theorem Sound.not_breaks {error : Error} (h : w.Sound p) (hx : x.Respects p.label p.own)
    (hd : w.history[w.heard]? = some d) : ¬ Breaks x w.channel.queue p.session (.ok d) error := by
  have hnum := h.numbered _ d hd
  have hrev := h.revision
  have hechoes := h.echoes
  rw [drop_heard hd] at hechoes
  intro hb
  cases hb with
  | strayEcho hme he hexp hr => exact hr (Revision.ext (by omega))
  | untimely hme hu =>
    rcases hu with ⟨he, -⟩ | ⟨he, expected, hexp, hne, -⟩
    · obtain ⟨k, hk⟩ := Nat.exists_eq_succ_of_ne_zero he
      rw [hk, List.take_succ_cons] at hechoes
      exact he (hme (hechoes d (.head _)))
    · exact hne (Revision.ext (by omega))
  | unmatched hme ht hu =>
    -- An own operation is ahead, but of a batch of which nothing is left none can be.
    obtain ⟨-, -, -, hdrop⟩ := h.next hd ht.1
    have hnil := (h.fate.of_nil (by rw [hu]; rfl)).2
    rw [ahead, hdrop, Participant.labels_cons_self hme] at hnil
    cases hnil
  | rejected hme ht he =>
    refine Queue.not_rejects hx (fun l hl => h.owns l ?_) ?_ he
    · rw [h.sent, List.append_assoc]
      exact List.mem_append_right _ hl
    · have hothers := h.others
      rw [drop_heard hd] at hothers
      exact hothers d (.head _) hme

theorem Sound.accepts (h : w.Sound p) (hx : x.Respects p.label p.own)
    (hd : w.history[w.heard]? = some d) (ha : Accepts x w.channel p.session d r) :
    ({ w with heard := w.heard + 1 }.goOn r).Sound p := by
  cases ha with
  | recognises hme he hr =>
    rw [goOn_nil]
    exact h.recognise hd he
  | confirms hme ht hu hne =>
    rw [goOn_of_quiet (by simp [Effect.request?, Effect.ticket?])]
    exact h.ack _ hd ht.1 hme hu
  | confirmsLast hme ht hu hs =>
    rw [goOn_of_quiet (quiet_confirmed _ hs (by simp [Effect.request?, Effect.ticket?]))]
    exact (h.ack w.channel.stats hd ht.1 hme hu).enter hs.next_le (fun _ => .inl) .allAcked
  | takesIn hme ht hf hr =>
    rw [goOn_of_quiet (by simp [Effect.request?, Effect.ticket?])]
    obtain ⟨hclient, hserver⟩ := hf.labels hx
    obtain ⟨hclient', hserver'⟩ := hr.labels hx
    refine h.takeIn hd ht.1 hme hclient hclient' ?_
    rw [List.map_append, hserver', hserver]
    rfl

theorem Sound.delivers (h : w.Sound p) (hx : x.Respects p.label p.own)
    (hd : w.history[w.heard]? = some d)
    (hr : Reacts x w.channel (.incoming p.connection.token (.ok d)) r) :
    ({ w with heard := w.heard + 1 }.goOn r).Sound p := by
  cases hr with
  | stale hl => exact absurd ⟨_, h.connection⟩ hl
  | retries hl he => cases he
  | givesUp hl he => cases he
  | breaks hconn hb =>
    obtain rfl := congrArg Connection.session (Option.some.inj (h.connection.symm.trans hconn))
    exact absurd hb (h.not_breaks hx hd)
  | accepts hconn ha hs =>
    obtain rfl := congrArg Connection.session (Option.some.inj (h.connection.symm.trans hconn))
    rw [← goOn_goOn]
    exact (h.accepts hx hd ha).syncs hs

theorem Sound.reacts {event : Event M} (h : w.Sound p) (hc : w.channel.Fitting)
    (ho : w.Offers p (.handle event)) (hk : event.ticket?.isSome) (hr : Reacts x w.channel event r) :
    (w.goOn r).Sound p := by
  have hfits := hc.fits
  cases hr with
  | stale hl =>
    rw [goOn_nil]
    exact h
  | submits hp hu hq =>
    obtain ⟨ht, ha⟩ := h.fate.of_nil (by rw [hu]; rfl)
    rw [goOn_submit]
    exact (h.launch hp hu).submit ht ha hq
  | lapses hp hq =>
    rw [goOn_nil]
    exact h.enter (Nat.le_refl _) (fun _ => .inl) .allAcked
  | probes hp =>
    rw [goOn_probe]
    refine h.enter (Nat.le_succ _) (fun token htoken => ?_) (.asking fun n hn => ?_)
    · rcases List.mem_append.1 htoken with htoken | htoken
      · exact .inl htoken
      · rw [List.mem_singleton.1 htoken]
        exact .inr (Nat.lt_succ_self _)
    · exact absurd (h.minted _ (mem_tokens.2 (.inr (.inr (.inr ⟨n, hn⟩))))) (Nat.lt_irrefl _)
  | @confirms submit base batch applied task tokens effects hp hb hu hr hs =>
    have hquiet : ∀ e ∈ .resetBackoff :: effects ++ ackedAll w.channel.queue.queued.isEmpty
        w.channel.queue.unacked, e.request? = none := by
      refine quiet_confirmed (.waitingAck submit base batch true) hs fun e he => ?_
      obtain ⟨op, clean, rfl⟩ := mem_ackedAll he
      rfl
    rw [goOn_of_quiet hquiet]
    exact h.confirm hp ho.of_applied hr hs.next_le
  | defers hp hr =>
    rw [goOn_nil]
    exact h.enter (Nat.le_refl _) (fun _ => .inl) .answered
  | @learns probe target revision r hp hs =>
    rw [hp] at hfits
    obtain rfl : target = none := by simpa using hfits.2
    have hlearned : Sound p { w with
        channel := { w.channel with phase := .waitingSync probe true (some revision) } } :=
      h.enter (Nat.le_refl _) (fun _ => .inl) (.learned (h.rests.probe _ _ hp ho.of_answered))
    exact hlearned.syncs hs
  | retries hl he =>
    rw [goOn_of_quiet (by simp [Effect.request?, Effect.ticket?, Ticket.request?])]
    exact h.enter (Nat.le_succ _) (fun _ => .inl) .delayResync
  | givesUp hl he => exact absurd he ho.not_fatal
  | breaks hconn hb => cases hk
  | accepts hconn ha hs => cases hk

theorem Sound.stage {op : M} {t : Transformed M} (h : w.Sound p) (hx : x.Respects p.label p.own)
    (hown : p.own (p.label op)) (hnew : p.label op ∉ w.sent.map p.label)
    (ht : w.channel.queue.Stages x op t) : Sound p { w with
      channel := { w.channel with queue := { w.channel.queue with
        queued := w.channel.queue.queued ++ t.client
        pending := t.server } }
      sent := w.sent ++ [op] } := by
  obtain ⟨hclient, hserver⟩ := ht.labels hx
  have hsent : (w.sent ++ [op]).map p.label = w.sent.map p.label ++ [p.label op] := by simp
  refine h.buffer ?_ (by rw [List.map_append, hclient]) hsent (by simpa using hown) ?_
  · rw [hserver]
    exact h.pending
  · rw [hsent, List.nodup_append]
    refine ⟨h.distinct, by simp, fun l hl l' hl' heq => ?_⟩
    rw [← List.mem_singleton.1 hl', ← heq] at hnew
    exact hnew hl

theorem Sound.calls {call : Call M} {reply : Channel.Reply M} (h : w.Sound p)
    (hx : x.Respects p.label p.own) (hc : w.channel.Fitting) (ho : w.Offers p call)
    (hd : Does x w.channel call reply r) : (w.turn ⟨call, reply, r.2⟩ r.1).Sound p := by
  cases hd with
  | connects hconn => cases ho
  | connected hconn => cases ho
  | unconnected hconn hr => rw [h.connection] at hconn; cases hconn
  | disconnects hconn => cases ho
  | schedules hp ht hs =>
    obtain ⟨hown, hnew⟩ := ho.of_send
    rw [turn_of_quiet (fun e he => by rw [(hs.of_mem he).1]; rfl) rfl]
    exact (h.stage hx hown hnew ht).enter hs.next_le (fun _ => .inl) .allAcked
  | stages hconn hp ht =>
    obtain ⟨hown, hnew⟩ := ho.of_send
    rw [turn_of_quiet (List.forall_mem_nil _) rfl]
    exact h.stage hx hown hnew ht
  | rejects hconn he => exact absurd he.2 (hx.accepts (by simpa using ho.of_send.1) h.pending)
  | peeks hconn =>
    rw [turn_of_quiet (List.forall_mem_nil _) rfl]
    simpa [Turn.accepted?] using h
  | receives hconn =>
    rw [turn_of_quiet (List.forall_mem_nil _) rfl]
    refine h.buffer (fun l hl => ?_) (List.append_nil _).symm ?_ (List.forall_mem_nil _) ?_
    · rw [List.map_tail] at hl
      exact h.pending l (List.mem_of_mem_tail hl)
    · simp [Turn.accepted?]
    · simpa [Turn.accepted?] using h.distinct
  | @reacts event r hr =>
    rw [turn_handle]
    by_cases hk : event.ticket?.isSome
    · have hnone : deliveries (.handle event) = 0 := by cases event <;> first | rfl | cases hk
      rw [hnone]
      exact h.reacts hc ho hk hr
    · cases ho with
      | delivery hd => exact h.delivers hx hd hr
      | fails he => cases event <;> first | cases he | exact absurd rfl hk
      | _ => exact absurd rfl hk

/-! ### What the server does -/

theorem Settled.append {history ds : List (Delivery M)} {travelling : List (Token × List M)}
    {n : Revision} (h : Settled p history travelling n) (hds : p.labels ds = []) :
    Settled p (history ++ ds) travelling n := by
  refine ⟨Nat.le_trans h.within (by simp), h.nowhere, ?_⟩
  rw [List.drop_append_of_le_length h.within, Participant.labels_append, h.absent, hds]
  rfl

theorem Sound.extend {ds : List (Delivery M)} {travelling : List (Token × List M)}
    {applied : List (Token × Revision)} (h : w.Sound p) (hnum : Numbered (w.history ++ ds))
    (hothers : ∀ d ∈ ds, d.session ≠ p.session → ¬ p.own (p.label d.op))
    (hfate : Fate p.label travelling (w.channel.queue.unacked.map p.label) (w.ahead p ++ p.labels ds))
    (hrests : Rests p { w with travelling, history := w.history ++ ds, applied } w.channel.phase)
    (hminted : ∀ token ∈ Exchange.tokens { w with travelling, history := w.history ++ ds, applied },
      token.number < w.channel.tokens.next) :
    Sound p { w with travelling, history := w.history ++ ds, applied } := by
  have hrev := h.revision
  have hle := h.confirmed
  have hdrop {n : Nat} (hn : n ≤ w.history.length) :
      (w.history ++ ds).drop n = w.history.drop n ++ ds := List.drop_append_of_le_length hn
  refine { h with
    numbered := hnum
    confirmed := ?_
    echoes := fun d hd => h.echoes d ?_
    others := fun d hd => ?_
    sent := ?_
    fate := ?_
    rests := hrests
    minted := hminted }
  · exact Nat.le_trans hle (by simp)
  · dsimp only at hd
    rwa [hdrop (by omega), List.take_append_of_le_length (by rw [List.length_drop]; omega)] at hd
  · dsimp only at hd
    rw [hdrop (by omega)] at hd
    exact (List.mem_append.1 hd).elim (h.others d) (hothers d)
  · dsimp only
    rw [List.take_append_of_le_length hle]
    exact h.sent
  · rw [ahead, hdrop hle, Participant.labels_append]
    exact hfate

theorem Sound.appends (h : w.Sound p) (hd : d.session ≠ p.session) (hown : ¬ p.own (p.label d.op))
    (hnum : Numbered (w.history ++ [d])) : Sound p { w with history := w.history ++ [d] } := by
  have hnil : p.labels [d] = [] := Participant.labels_cons_other hd
  refine h.extend hnum (fun d' hd' _ => ?_) (by rw [hnil, List.append_nil]; exact h.fate)
    ⟨fun token base batch n hp hn => ?_, fun token n hp hn => (h.rests.probe token n hp hn).append hnil,
      fun token answered n hp => (h.rests.target token answered n hp).append hnil⟩ h.minted
  · rw [List.mem_singleton.1 hd']
    exact hown
  · obtain ⟨hsettled, hahead⟩ := h.rests.submit token base batch n hp hn
    refine ⟨hsettled.append hnil, ?_⟩
    rw [← hahead, ahead, List.drop_append_of_le_length h.confirmed, Participant.labels_append, hnil,
      List.append_nil]
    rfl

theorem Sound.underway {before behind : List (Token × List M)} {request : Token × List M}
    (h : w.Sound p) (ht : w.travelling = before ++ request :: behind) : before ++ behind = [] ∧
      request.2.map p.label = w.channel.queue.unacked.map p.label ∧ w.ahead p = [] := by
  cases h.fate with
  | lost hnil => rw [ht] at hnil; simp at hnil
  | applied hnil => rw [ht] at hnil; simp at hnil
  | underway hone hops hne ha =>
    rw [ht, List.append_eq_singleton_iff] at hone
    rcases hone with ⟨rfl, hone⟩ | ⟨rfl, hnil⟩
    · cases hone
      exact ⟨rfl, hops, ha⟩
    · cases hnil

/-- While a batch is on its way, the channel knows nothing of the server. -/
theorem Sound.rests_of_travelling {history : List (Delivery M)} {travelling : List (Token × List M)}
    {applied : List (Token × Revision)} (h : w.Sound p) (ht : w.travelling ≠ [])
    (hsubmit : ∀ token n, (token, n) ∈ applied → (token, n) ∈ w.applied ∨
      Settled p history travelling n ∧
        ahead p { w with history } = w.channel.queue.unacked.map p.label) :
    Rests p { w with history, travelling, applied } w.channel.phase := by
  refine ⟨fun token base batch n hp hn => ?_, fun token n hp hn => ?_, fun token answered n hp => ?_⟩
  · rcases hsubmit token n hn with hn | hsettled
    · exact absurd (h.rests.submit token base batch n hp hn).1.nowhere ht
    · exact hsettled
  · exact absurd (h.rests.probe token n hp hn).nowhere ht
  · exact absurd (h.rests.target token answered n hp).nowhere ht

theorem Sound.applies {before behind : List (Token × List M)} {token : Token} {ops : List M}
    {ds : List (Delivery M)} (h : w.Sound p) (ht : w.travelling = before ++ (token, ops) :: behind)
    (hown : ∀ d ∈ ds, d.session = p.session)
    (hlabels : (ds.map fun d => p.label d.op) = ops.map p.label)
    (hnum : Numbered (w.history ++ ds)) : Sound p { w with
      travelling := before ++ behind
      history := w.history ++ ds
      applied := (token, ⟨w.history.length + ds.length⟩) :: w.applied } := by
  -- It was the only one on its way, so from here on all of the session's operations are settled.
  obtain ⟨hrest, hops, hahead⟩ := h.underway ht
  have hds : p.labels ds = w.channel.queue.unacked.map p.label := by
    rw [Participant.labels_of_own hown, hlabels, hops]
  refine h.extend hnum (fun d hd hne => absurd (hown d hd) hne)
    (.applied hrest (by rw [hahead, hds]; rfl)) ?_ fun token' htoken => ?_
  · refine h.rests_of_travelling (by rw [ht]; simp) fun token' n hn => ?_
    rcases List.mem_cons.1 hn with heq | hn
    · cases heq
      refine .inr ⟨⟨by simp, hrest, ?_⟩, ?_⟩
      · rw [List.drop_eq_nil_of_le (by simp)]
        rfl
      · rw [ahead, List.drop_append_of_le_length h.confirmed, Participant.labels_append, hds]
        exact congrArg (· ++ w.channel.queue.unacked.map p.label) hahead
    · exact .inl hn
  · refine h.minted token' (mem_tokens.2 ?_)
    rw [mem_tokens] at htoken
    dsimp only at htoken
    rw [hrest] at htoken
    rcases htoken with ⟨ops', hops'⟩ | htoken | ⟨n, hn⟩ | htoken
    · cases hops'
    · exact .inr (.inl htoken)
    · rcases List.mem_cons.1 hn with heq | hn
      · cases heq
        exact .inl ⟨ops, by rw [ht]; simp⟩
      · exact .inr (.inr (.inl ⟨n, hn⟩))
    · exact .inr (.inr (.inr htoken))

theorem Sound.loses {before behind : List (Token × List M)} {request : Token × List M}
    (h : w.Sound p) (ht : w.travelling = before ++ request :: behind) :
    Sound p { w with travelling := before ++ behind } := by
  obtain ⟨hrest, -, hahead⟩ := h.underway ht
  refine { h with
    fate := .lost hrest hahead
    rests := h.rests_of_travelling (by rw [ht]; simp) fun _ _ => .inl
    minted := fun token htoken => h.minted token ?_ }
  rw [mem_tokens] at htoken ⊢
  dsimp only at htoken
  rw [hrest] at htoken
  rcases htoken with ⟨ops, hops⟩ | htoken
  · cases hops
  · exact .inr htoken

/-- Nothing is on its way when the probe is answered, and nothing of the session's is applied later. -/
theorem Sound.answers {before behind : List Token} {token : Token} (h : w.Sound p)
    (hp : w.probing = before ++ token :: behind) (ht : w.travelling = []) : Sound p { w with
      probing := before ++ behind
      answered := (token, ⟨w.history.length⟩) :: w.answered } := by
  refine { h with
    rests := ⟨h.rests.submit, fun token' n hphase hn => ?_, h.rests.target⟩
    minted := fun token' htoken => h.minted token' ?_ }
  · rcases List.mem_cons.1 hn with heq | hn
    · cases heq
      exact ⟨Nat.le_refl _, ht, by rw [List.drop_length]; rfl⟩
    · exact h.rests.probe token' n hphase hn
  · rw [mem_tokens] at htoken ⊢
    dsimp only at htoken
    rw [hp]
    rcases htoken with htoken | htoken | htoken | ⟨n, hn⟩
    · exact .inl htoken
    · refine .inr (.inl ?_)
      rw [List.mem_append] at htoken ⊢
      exact htoken.imp_right (.tail _)
    · exact .inr (.inr (.inl htoken))
    · rcases List.mem_cons.1 hn with heq | hn
      · cases heq
        exact .inr (.inl (by simp))
      · exact .inr (.inr (.inr ⟨n, hn⟩))

theorem Sound.step {w' : Exchange M} (h : w.Sound p) (hx : x.Respects p.label p.own)
    (hc : w.channel.Coherent) (hs : Step x p True w w') : w'.Sound p := by
  cases hs with
  | calls call ho hcall => exact h.calls hx hc.toFitting ho ((call_within hc _).of_ok hcall)
  | appends hd hown hnum => exact h.appends hd hown hnum
  | applies ds ht hown hlabels hnum => exact h.applies ht hown hlabels hnum
  | loses ht => exact h.loses ht
  | answers hp hpatient => exact h.answers hp (hpatient trivial)

theorem Run.channel {patient : Prop} (h : Run x p patient w) : ∃ log, Channel.Run x log w.channel := by
  induction h with
  | start revision history hrun hcall hconn hnum hrev hnew hothers => exact ⟨_, hrun.turn _ hcall⟩
  | step _ hs ih =>
    obtain ⟨log, ih⟩ := ih
    cases hs with
    | calls call ho hcall => exact ⟨_, ih.turn _ hcall⟩
    | _ => exact ⟨log, ih⟩

theorem Run.sound (h : Run x p True w) (hx : x.Respects p.label p.own) : w.Sound p := by
  induction h with
  | @start log c₀ c effects revision history hrun hcall hconn hnum hrev hnew hothers =>
    have hd : Does x c₀ (.connect revision p.session) (.done (.ok ())) (c, effects) :=
      (call_within hrun.coherent _).of_ok hcall
    cases hd with
    | unconnected hnone hr => cases hr
    | connects hnone =>
      have hnil (n : Nat) : p.labels (history.drop n) = [] :=
        Participant.labels_eq_nil_iff.2 fun d hd => hnew d (List.mem_of_mem_drop hd)
      have htake : p.labels (history.take revision.number) = [] :=
        Participant.labels_eq_nil_iff.2 fun d hd => hnew d (List.mem_of_mem_take hd)
      exact {
        connection := hconn
        numbered := hnum
        revision := rfl
        confirmed := hrev
        echoes := by simp [Queue.start]
        others := fun d hd _ => hothers d hd
        pending := List.forall_mem_nil _
        sent := by simpa [Queue.start] using htake
        owns := List.forall_mem_nil _
        distinct := List.nodup_nil
        fate := .lost rfl (hnil _)
        rests := .allAcked
        minted := List.forall_mem_nil _ }
  | step hrun hs ih =>
    obtain ⟨log, hlog⟩ := hrun.channel
    exact ih.step hx hlog.coherent hs

/-- If the server answers no probe while a submit is on its way, then it applies the operations of the
session in the order in which they were sent and none of them twice, and the session goes on: the channel
accepts the next delivery. -/
theorem Run.applied_once (h : Run x p True w) (hx : x.Respects p.label p.own) :
    p.labels w.history <+: w.sent.map p.label ∧ (p.labels w.history).Nodup ∧
      w.channel.connection = some p.connection ∧
      ∀ d, w.history[w.heard]? = some d →
        (w.channel.handle x (.incoming p.connection.token (.ok d))).Counts fun r =>
          r.1.connection = some p.connection := by
  have hsound := h.sound hx
  have hfront := hsound.labels_prefix
  obtain ⟨log, hlog⟩ := h.channel
  refine ⟨hfront, hsound.distinct.sublist hfront.sublist, hsound.connection, fun d hd => ?_⟩
  exact (hlog.coherent.handle_counts (hlog.fed hx.keepsClients)).mono fun r hr =>
    (hsound.delivers hx hd hr).connection

theorem Numbered.of_map {history : List (Delivery M)}
    (h : history.map (·.revision.number) = List.range' 1 history.length) : Numbered history := by
  intro i d hd
  have hi : (history.map (·.revision.number))[i]? = some d.revision.number := by
    rw [List.getElem?_map, hd]; rfl
  rw [h, List.getElem?_range' (List.getElem?_eq_some_iff.1 hd).1] at hi
  have := Option.some.inj hi
  omega

/-- The batch is applied after its failure was reported and before the probe is answered. -/
theorem applied_once_late : ∃ p w, Run CharOp.transform p True w ∧
    CharOp.transform.Respects p.label p.own ∧ w.heard = 2 ∧ w.channel.stats.retryableFailures = 1 ∧
    w.sent.map p.label = [(0, 1)] ∧ p.labels w.history = [(0, 1)] ∧
    p.labels w.history <+: w.sent.map p.label ∧ (p.labels w.history).Nodup := by
  have h₀ : Run CharOp.transform (.ofSite ⟨⟨"a", by decide⟩, ⟨1⟩⟩ 1) True _ :=
    .start ⟨0⟩ [⟨⟨1⟩, ⟨"b", by decide⟩, ⟨0, 2, .insert 0 'y'⟩⟩] .new rfl rfl (.of_map rfl) (by decide)
      (by decide) (by simp [Participant.ofSite, CharOp.label])
  have h₁ := h₀.step (.calls (.send ⟨0, 1, .insert 0 'x'⟩) (.send (by rfl) List.not_mem_nil) rfl)
  have h₂ := h₁.step (.calls (.handle (.task ⟨⟨2⟩, .maybeSend⟩)) .task rfl)
  have h₃ := h₂.step (.calls (.handle (.submitResponse ⟨3⟩ (.error (.retryable "timeout"))))
    (.fails rfl) rfl)
  have h₄ := h₃.step (.calls (.handle (.task ⟨⟨4⟩, .resync⟩)) .task rfl)
  have h₅ := h₄.step (.applies [⟨⟨2⟩, ⟨"a", by decide⟩, ⟨0, 1, .insert 0 'x'⟩⟩]
    (show _ = [] ++ (_, _) :: [] from rfl) (by decide) rfl (.of_map rfl))
  have h₆ := h₅.step (.answers (show _ = [] ++ _ :: [] from rfl) fun _ => rfl)
  have h₇ := h₆.step (.calls (.handle (.incoming ⟨1⟩ (.ok _))) (.delivery rfl) rfl)
  have h₈ := h₇.step (.calls (.handle (.probeResponse ⟨5⟩ (.ok ⟨2⟩))) (.answered (.head _)) rfl)
  have h₉ := h₈.step (.calls (.handle (.incoming ⟨1⟩ (.ok _))) (.delivery rfl) rfl)
  have hx := CharOp.transform_respects 1
  obtain ⟨hfront, hdistinct, -⟩ := h₉.applied_once hx
  exact ⟨_, _, h₉, hx, rfl, rfl, rfl, rfl, hfront, hdistinct⟩

/-- The probe is answered while the batch is on its way. The channel submits the batch again, the server
applies both, and the second echo of the one operation ends the session. -/
theorem applied_twice : ∃ p w d c effects, Run CharOp.transform p False w ∧
    CharOp.transform.Respects p.label p.own ∧ w.sent.map p.label = [(0, 1)] ∧
    p.labels w.history = [(0, 1), (0, 1)] ∧ ¬ (p.labels w.history).Nodup ∧
    w.channel.connection = some p.connection ∧ w.history[w.heard]? = some d ∧
    w.channel.handle CharOp.transform (.incoming p.connection.token (.ok d)) = .ok (c, effects) ∧
    c.connection = none := by
  have h₀ : Run CharOp.transform (.ofSite ⟨⟨"a", by decide⟩, ⟨1⟩⟩ 1) False _ :=
    .start ⟨0⟩ [] .new rfl rfl (.of_map rfl) (by decide) (by decide) (List.forall_mem_nil _)
  have h₁ := h₀.step (.calls (.send ⟨0, 1, .insert 0 'x'⟩) (.send (by rfl) List.not_mem_nil) rfl)
  have h₂ := h₁.step (.calls (.handle (.task ⟨⟨2⟩, .maybeSend⟩)) .task rfl)
  have h₃ := h₂.step (.calls (.handle (.submitResponse ⟨3⟩ (.error (.retryable "timeout"))))
    (.fails rfl) rfl)
  have h₄ := h₃.step (.calls (.handle (.task ⟨⟨4⟩, .resync⟩)) .task rfl)
  have h₅ := h₄.step (.answers (show _ = [] ++ _ :: [] from rfl) False.elim)
  have h₆ := h₅.step (.calls (.handle (.probeResponse ⟨5⟩ (.ok ⟨0⟩))) (.answered (.head _)) rfl)
  have h₇ := h₆.step (.applies [⟨⟨1⟩, ⟨"a", by decide⟩, ⟨0, 1, .insert 0 'x'⟩⟩]
    (show _ = [] ++ (⟨3⟩, _) :: [_] from rfl) (by decide) rfl (.of_map rfl))
  have h₈ := h₇.step (.applies [⟨⟨2⟩, ⟨"a", by decide⟩, ⟨0, 1, .insert 0 'x'⟩⟩]
    (show _ = [] ++ (⟨6⟩, _) :: [] from rfl) (by decide) rfl (.of_map rfl))
  have h₉ := h₈.step (.calls (.handle (.incoming ⟨1⟩ (.ok _))) (.delivery rfl) rfl)
  exact ⟨_, _, _, _, _, h₉, CharOp.transform_respects 1, rfl, rfl, by decide, rfl, rfl, rfl, rfl⟩

end CoEdit.Exchange
