import CoEdit.Proofs.Reactions
import CoEdit.Proofs.Serving
import CoEdit.Proofs.Tasks
import CoEdit.Simulation.Editor

/-!
# A client and what is on its way to it

`Attends tok p last t e owed`: the editor `e` is at standing `p` in the server's history, its channel
still has the effects `owed` to carry out, and the timeline `t` holds what is on its way to it: over the
connection `tok` every operation of the history that it was not delivered yet, in order, and the tasks
and responses that its channel waits for. Whatever else waits there carries an older token and will be
ignored, and a response that the channel waits for says the truth.

There is one lemma for each thing that can happen to a client: it reacts, it carries out an effect, its
request is served, and others' operations are relayed to it.
-/

namespace CoEdit

theorem Event.delivery?_of_ticket {ev : Event CharOp} {k : Ticket} (h : ev.ticket? = some k) :
    ev.delivery? = none := by
  cases ev <;> first | rfl | cases h

section
variable {me : Session} {p p' : Standing} {ds : List (Delivery CharOp)} {ev : Event CharOp}

theorem Event.Honest.extend (h : ev.Honest me p) (hds : Absent me ds) : ev.Honest me (p.extend ds) := by
  have happ : ∀ n, n ≤ p.history.length → Absent me (p.history.drop n) →
      n ≤ (p.extend ds).history.length ∧ Absent me ((p.extend ds).history.drop n) := by
    intro n hn ha
    rw [p.extend_history, List.length_append, List.drop_append_of_le_length hn]
    exact ⟨by omega, ha.append hds⟩
  cases ev with
  | task task => trivial
  | incoming connection message => trivial
  | submitResponse token result =>
    cases result with
    | error e => exact h
    | ok applied =>
      obtain ⟨h₁, h₂⟩ := happ _ h.1 h.2.1
      exact ⟨h₁, h₂, fun ha => h.2.2 fun d hd => ha d (List.mem_append_left _ hd)⟩
  | probeResponse token result =>
    cases result with
    | error e => exact h
    | ok target => exact happ _ h.1 h.2

theorem Event.Honest.of_history (h : ev.Honest me p) (hh : p'.history = p.history)
    (hr : ¬ Absent me p.rest → ¬ Absent me p'.rest) : ev.Honest me p' := by
  cases ev with
  | task task => trivial
  | incoming connection message => trivial
  | submitResponse token result =>
    cases result with
    | error e => exact h
    | ok applied => exact ⟨hh ▸ h.1, hh ▸ h.2.1, hr h.2.2⟩
  | probeResponse token result =>
    cases result with
    | error e => exact h
    | ok target => exact ⟨hh ▸ h.1, hh ▸ h.2⟩

end

namespace Simulation

variable {R : Type}

/-- The editor's copy of the document and its account of its operations. -/
def Editor.replica (e : Editor R) : Replica :=
  ⟨e.session, e.site, e.doc, e.made, e.acked, e.channel.queue⟩

theorem Editor.hear_eq (e : Editor R) {effect : Effect CharOp} (h : ∀ error, effect ≠ .failed error) :
    ∃ remoteOps, e.hear effect = { e with acked := e.acked ++ ackedIds [effect], remoteOps } := by
  cases effect with
  | failed error => exact absurd rfl (h error)
  | remote op => exact ⟨_, by simp only [hear, ackedIds, List.filterMap, List.append_nil]; rfl⟩
  | acked op clean => exact ⟨_, rfl⟩
  | _ => exact ⟨e.remoteOps, by simp only [hear, ackedIds, List.filterMap, List.append_nil]⟩

open Channel

/-- What a client keeps, with the acknowledgments that `owed` reports, and what is on its way to it. -/
structure Attends (tok : Token) (p : Standing) (last : Nat) (t : Timeline CharOp) (e : Editor R)
    (owed : List (Effect CharOp)) : Prop where
  keeps : Keeps tok p { e.replica with acked := e.acked ++ ackedIds owed } e.channel
  owes : Owes e.session p e.channel owed
  errors : e.errors = []
  carries : t.Carries last (p.ahead.map fun d => (tok, .ok d))
  /-- What waits was asked for some time. -/
  known : ∀ ev ∈ t.mail, ∀ k, ev.ticket? = some k → k.token.number < e.channel.tokens.next
  honest : ∀ ev ∈ t.mail, ∀ k, ev.ticket? = some k → e.channel.phase.ticket? = some k →
    ev.Honest e.session p
  /-- What the channel waits for will come. -/
  waits : ∀ k, e.channel.phase.ticket? = some k →
    (∃ ev ∈ t.mail, ev.ticket? = some k) ∨ ∃ effect ∈ owed, effect.ticket? = some k
  unasked : ∀ token base ops, .submit token base ops ∈ owed →
    ∀ ev ∈ t.mail, ev.ticket? ≠ some (.submit token)

namespace Attends

variable {tok : Token} {p p' : Standing} {last last' : Nat} {t t' : Timeline CharOp} {e e' : Editor R}
  {owed : List (Effect CharOp)} {effect : Effect CharOp} {posts : List (Nat × Event CharOp)}
  {ds : List (Delivery CharOp)}

theorem keeps_nil (h : Attends tok p last t e []) : Keeps tok p e.replica e.channel := by
  have := h.keeps
  rwa [ackedIds_nil, List.append_nil] at this

theorem keeps_request (h : Attends tok p last t e [effect]) (hids : ackedIds [effect] = []) :
    Keeps tok p e.replica e.channel := by
  have := h.keeps
  rwa [hids, List.append_nil] at this

theorem of_keeps (h : Keeps tok p e.replica e.channel) :
    Keeps tok p { e.replica with acked := e.acked ++ ackedIds [] } e.channel := by
  rwa [ackedIds_nil, List.append_nil]

theorem aside (h : Attends tok p last t e owed) (backoff : Backoff R) (nextEdit : Option Nat) :
    Attends tok p last t { e with backoff, nextEdit } owed :=
  ⟨h.keeps, h.owes, h.errors, h.carries, h.known, h.honest, h.waits, h.unasked⟩

theorem react (h : Attends tok p last t e []) {a : Replica} {event : Option Ticket}
    {r : Reaction CharOp} (hs : Settles tok p p' a e.channel event r) (hc : e'.channel = r.1)
    (ha : e'.replica = { a with queue := r.1.queue }) (hme : e'.session = e.session)
    (he : e'.errors = []) (hh : p'.history = p.history)
    (hcar : t'.Carries last (p'.ahead.map fun d => (tok, .ok d)))
    (hsub : ∀ ev ∈ t'.mail, ev ∈ t.mail)
    (hkeep : ∀ ev ∈ t.mail, ev.ticket? ≠ event → ev ∈ t'.mail) :
    Attends tok p' last t' e' r.2 := by
  obtain ⟨c, effects⟩ := r
  obtain rfl : e'.channel = c := hc
  have hmine : a.session = e'.session := (congrArg Replica.session ha).symm
  have hold : ∀ ev ∈ t'.mail, ∀ k, ev.ticket? = some k →
      k.token.number < e.channel.tokens.next := fun ev hev => h.known ev (hsub ev hev)
  refine ⟨?_, hmine ▸ hs.1.owes, he, hcar, fun ev hev k hk => ?_, fun ev hev k hk hp => ?_,
    fun k hp => ?_, fun token base ops hsubmit ev hev hk => ?_⟩
  · rw [show e'.acked = a.acked from congrArg Replica.acked ha, ha]
    exact (hs.keeps h.keeps.fresh).of_queue
  · exact Nat.lt_of_lt_of_le (hold ev hev k hk) hs.1.tokens
  · rcases hs.1.ticket k hp with ⟨hp, -, -, hr⟩ | ⟨hle, -⟩
    · rw [hmine] at hr
      rw [hme] at hr ⊢
      exact (h.honest ev (hsub ev hev) k hk hp).of_history hh hr
    · exact absurd (hold ev hev k hk) (Nat.not_lt.2 hle)
  · rcases hs.1.ticket k hp with ⟨hp, hne, -, -⟩ | ⟨-, -, hask⟩
    · rcases h.waits k hp with ⟨ev, hev, hk⟩ | ⟨_, hnil, _⟩
      · exact .inl ⟨ev, hkeep ev hev (by rw [hk]; exact hne.symm), hk⟩
      · cases hnil
    · exact .inr hask
  · -- what is submitted now carries a new token
    have hp : e'.channel.phase.ticket? = some (.submit token) := by
      rcases hs.1.owes.mem hsubmit with hm | hreq
      · exact hm.elim
      · rw [show e'.channel.phase = _ from hreq.1]; rfl
    rcases hs.1.ticket _ hp with ⟨-, -, hnot, -⟩ | ⟨hle, -⟩
    · exact hnot _ hsubmit rfl
    · exact absurd (hold ev hev _ hk) (Nat.not_lt.2 hle)

theorem minor (h : Attends tok p last t e (effect :: owed)) (hm : e.channel.Minor effect)
    (ho : Owes e.session p e.channel owed) (hl : Agenda.Leads t effect t') (backoff : Backoff R) :
    Attends tok p last t' { e.hear effect with backoff } owed := by
  obtain ⟨n, hear⟩ := e.hear_eq hm.ne_failed
  rw [hear]
  have hacked : e.acked ++ ackedIds [effect] ++ ackedIds owed =
      e.acked ++ ackedIds (effect :: owed) := by
    rw [List.append_assoc, ← ackedIds_append]; rfl
  refine ⟨?_, ho, h.errors, hl.carries h.carries, fun ev hev k hk => ?_, fun ev hev k hk hp => ?_,
    fun k hp => ?_, fun token base ops hsubmit ev hev hk => ?_⟩
  · dsimp only
    rw [hacked]; exact h.keeps
  · rcases hl.of_mem_mail h.carries.sound hev with hev | ⟨task, rfl, ht⟩
    · exact h.known ev hev k hk
    · cases hk
      cases effect with
      | schedule task => cases ht; exact hm
      | scheduleAfterDelay task => cases ht; exact hm
      | _ => cases ht
  · rcases hl.of_mem_mail h.carries.sound hev with hev | ⟨task, rfl, -⟩
    · exact h.honest ev hev k hk hp
    · trivial
  · rcases h.waits k hp with ⟨ev, hev, hk⟩ | ⟨eff, heff, hk⟩
    · refine .inl ⟨ev, hl.mem_mail h.carries.sound hev ?_, hk⟩
      rintro id kind rfl rfl
      cases hk; exact hm.2 kind hp
    · rcases List.mem_cons.1 heff with rfl | heff
      · -- what is carried out now may be what is waited for: then it is a task
        cases k with
        | task task => exact .inl ⟨_, hl.task_mem_mail h.carries.sound hk, rfl⟩
        | submit token =>
          cases eff with
          | submit => exact hm.elim
          | _ => cases hk
        | probe token =>
          cases eff with
          | probe => exact hm.elim
          | _ => cases hk
      · exact .inr ⟨eff, heff, hk⟩
  · rcases hl.of_mem_mail h.carries.sound hev with hev | ⟨task, rfl, -⟩
    · exact h.unasked token base ops (List.mem_cons_of_mem _ hsubmit) ev hev hk
    · cases hk

theorem fed (h : Attends tok p last t e []) (hds : Absent e.session ds)
    (hc : Climbs tok last posts ds last') :
    Attends tok (p.extend ds) last' (t.deliverAll posts) e [] := by
  obtain ⟨hcar, hmail⟩ := hc.carries h.carries
  rw [← List.map_append, ← p.extend_ahead] at hcar
  have hold : ∀ ev ∈ (t.deliverAll posts).mail, ∀ k, ev.ticket? = some k → ev ∈ t.mail :=
    fun ev hev k hk => (hmail ev (Event.delivery?_of_ticket hk)).1 hev
  refine ⟨of_keeps (h.keeps_nil.extend (h.keeps_nil.books.tracks.extend hds) fun _ => hds), trivial,
    h.errors, hcar, fun ev hev k hk => h.known ev (hold ev hev k hk) k hk,
    fun ev hev k hk hp => (h.honest ev (hold ev hev k hk) k hk hp).extend hds, fun k hp => ?_,
    fun _ _ _ h => nomatch h⟩
  rcases h.waits k hp with ⟨ev, hev, hk⟩ | ⟨_, hnil, _⟩
  · exact .inl ⟨ev, (hmail ev (Event.delivery?_of_ticket hk)).2 hev, hk⟩
  · cases hnil

theorem arrive (h : Attends tok p last t e [effect]) {ev : Event CharOp} {k : Ticket} {due : Nat}
    (hev : ev.ticket? = some k) (hp : e.channel.phase.ticket? = some k)
    (hkeeps : Keeps tok p' e.replica e.channel)
    (hahead : p'.ahead = p.ahead ++ ds) (hc : Climbs tok last posts ds last')
    (hh : ev.Honest e.session p')
    (hold : ∀ ev ∈ t.mail, ev.ticket? = some k → ev.Honest e.session p') :
    Attends tok p' last' ((t.deliverAll posts).deliverAt due ev) e [] := by
  obtain ⟨hcar, hmail⟩ := hc.carries h.carries
  rw [← List.map_append, ← hahead] at hcar
  have hmem : ∀ {ev'}, ev' ∈ ((t.deliverAll posts).deliverAt due ev).mail ↔
      ev' = ev ∨ ev' ∈ (t.deliverAll posts).mail := Timeline.mem_mail_deliverAt hcar.sound
  refine ⟨of_keeps hkeeps, trivial, h.errors, hcar.deliverAt (Event.delivery?_of_ticket hev),
    fun ev' hev' k' hk' => ?_, fun ev' hev' k' hk' hp' => ?_, fun k' hp' => ?_,
    fun _ _ _ h => nomatch h⟩
  · rcases hmem.1 hev' with rfl | hev'
    · rw [hev] at hk'; cases hk'
      exact h.keeps.fresh k hp
    · exact h.known ev' ((hmail ev' (Event.delivery?_of_ticket hk')).1 hev') k' hk'
  · rw [hp] at hp'; cases hp'
    rcases hmem.1 hev' with rfl | hev'
    · exact hh
    · exact hold ev' ((hmail ev' (Event.delivery?_of_ticket hk')).1 hev') hk'
  · rw [hp] at hp'; cases hp'
    exact .inl ⟨ev, hmem.2 (.inl rfl), hev⟩

/-- A batch that is to be submitted acts on the document it was made at, with none of the client's
operations behind that. -/
theorem batch {token : Token} {base : Revision} {ops : List CharOp}
    (h : Attends tok p last t e [.submit token base ops]) : base.number ≤ p.history.length ∧
      p.history.drop base.number = p.rest ∧ Absent e.session p.rest ∧ (∀ op ∈ ops, op.site = e.site) ∧
      ∃ d₀ d₁, replay (p.history.take base.number) = .ok d₀ ∧ acts Doc.act d₀ ops = .ok d₁ := by
  have hreq : Requests e.session p e.channel (.submit token base ops) := by
    rcases h.owes with ⟨hm, -⟩ | ⟨hr, -⟩
    · exact hm.elim
    · exact hr
  obtain ⟨-, rfl, rfl, habs⟩ := hreq
  have htr := (h.keeps_request rfl).books.tracks
  have hrev : e.channel.queue.revision.number = p.confirmed.length := htr.revision
  obtain ⟨d₀, h₀, hmeet⟩ := htr.meets
  obtain ⟨d₁, h₁⟩ := hmeet.unacked
  rw [hrev]
  refine ⟨?_, p.rest_eq_drop.symm, habs, fun op hop => htr.site_eq (List.mem_append_left _ hop), d₀, d₁,
    ?_, h₁⟩
  · rw [Standing.history, List.length_append]; exact Nat.le_add_right _ _
  · rw [Standing.history, show (p.heard ++ p.awaited ++ p.rest).take p.confirmed.length = p.confirmed
      from List.take_left' rfl]
    exact h₀

theorem submitted {token : Token} {base : Revision} {ops : List CharOp}
    {result : Except ServiceError Revision} {due : Nat}
    (h : Attends tok p last t e [.submit token base ops]) (hown : Own e.session ds)
    (hresult : result = .ok ⟨(p.history ++ ds).length⟩ ∨ ∃ message, result = .error (.retryable message))
    (hland : ds = [] ∧ (∃ message, result = .error (.retryable message)) ∨
      ∃ t, CharOp.transform ops (delivered (p.history.drop base.number)) = .ok t ∧
        delivered ds = t.client)
    (hc : Climbs tok last posts ds last') :
    Attends tok (p.extend ds) last' ((t.deliverAll posts).deliverAt due (.submitResponse token result))
      e [] := by
  have hreq : Requests e.session p e.channel (.submit token base ops) := by
    rcases h.owes with ⟨hm, -⟩ | ⟨hr, -⟩
    · exact hm.elim
    · exact hr
  obtain ⟨-, hrest, habs, -⟩ := h.batch
  obtain ⟨hp, rfl, rfl, -⟩ := hreq
  have hk : e.channel.phase.ticket? = some (.submit token) := by rw [hp]; rfl
  have hkeeps := h.keeps_request rfl
  have hne : e.channel.queue.unacked ≠ [] := by
    have hr := hkeeps.rests
    rw [hp] at hr; exact hr.1
  rw [hrest] at hland
  have htracks : Tracks (p.extend ds) e.replica := by
    rcases hland with ⟨rfl, -⟩ | ⟨t, ht, hd⟩
    · exact hkeeps.books.tracks.extend absent_nil
    · exact hkeeps.books.tracks.land habs hne ht hd hown
  refine h.arrive rfl hk (hkeeps.extend htracks fun hnone => by rw [hk] at hnone; cases hnone)
    (p.extend_ahead ds) hc ?_ fun ev hev hev' => absurd hev' (h.unasked _ _ _ (.head _) ev hev)
  rcases hresult with rfl | ⟨message, rfl⟩
  · rw [← p.extend_history]
    refine ⟨Nat.le_refl _, by rw [List.drop_length]; exact absent_nil, ?_⟩
    rcases hland with ⟨-, message, hm⟩ | ⟨t, ht, hd⟩
    · cases hm
    · exact (Landed.of_absent habs hne ht hd hown).not_absent
  · rfl

theorem probed {token : Token} {result : Except ServiceError Revision} {due : Nat}
    (h : Attends tok p last t e [.probe token])
    (hresult : result = .ok ⟨p.history.length⟩ ∨ ∃ message, result = .error (.retryable message)) :
    Attends tok p last (t.deliverAt due (.probeResponse token result)) e [] := by
  have hp : e.channel.phase = .waitingSync token false none := by
    rcases h.owes with ⟨hm, -⟩ | ⟨hr, -⟩
    · exact hm.elim
    · exact hr
  have hk : e.channel.phase.ticket? = some (.probe token) := by rw [hp]; rfl
  refine h.arrive rfl hk (h.keeps_request rfl) (List.append_nil _).symm .nil ?_ fun ev hev hev' =>
    h.honest ev hev _ hev' hk
  rcases hresult with rfl | ⟨message, rfl⟩
  · exact ⟨Nat.le_refl _, by rw [List.drop_length]; exact absent_nil⟩
  · rfl

theorem next {connection : Token} {message : Except ServiceError (Delivery CharOp)} {n : Nat}
    (h : Attends tok p last t e owed) (hr : t.Ready n)
    (hev : t.pick n = some (.incoming connection message, t')) : ∃ d ds, connection = tok ∧
      message = .ok d ∧ p.ahead = d :: ds ∧ t'.Carries last (ds.map fun d => (tok, .ok d)) := by
  obtain ⟨ds', hds, hcar⟩ := h.carries.pick_delivery hr hev rfl
  cases hp : p.ahead with
  | nil => rw [hp] at hds; cases hds
  | cons d ds =>
    rw [hp, List.map_cons] at hds
    obtain ⟨hy, rfl⟩ := List.cons.inj hds
    cases hy
    exact ⟨d, ds, rfl, rfl, rfl, hcar⟩

/-- What is taken off the timeline is all that is missing then. -/
theorem mail_pick {ev : Event CharOp} {n : Nat} (hev : t.pick n = some (ev, t')) :
    ev ∈ t.mail ∧ (∀ ev' ∈ t'.mail, ev' ∈ t.mail) ∧
      ∀ ev' ∈ t.mail, ev'.ticket? ≠ ev.ticket? → ev' ∈ t'.mail := by
  obtain ⟨hget, behind, hmail, hmail'⟩ := Timeline.mail_pick hev
  rw [hmail']
  refine ⟨List.mem_of_getElem? hget, fun ev' h' => ?_, fun ev' h' hne => ?_⟩
  · rw [hmail]
    exact (List.mem_append.1 h').elim (List.mem_append_left _)
      fun h' => List.mem_append_right _ (List.mem_cons_of_mem _ h')
  · rw [hmail] at h'
    rcases List.mem_append.1 h' with h' | h'
    · exact List.mem_append_left _ h'
    · rcases List.mem_cons.1 h' with rfl | h'
      · exact absurd rfl hne
      · exact List.mem_append_right _ h'

/-- An event is taken off the timeline and handed to the channel: a delivery only if no other one waits
before it. -/
theorem handle {ev : Event CharOp} {n : Nat} (h : Attends tok p last t e []) (hr : t.Ready n)
    (hev : t.pick n = some (ev, t')) {doc : Doc} (hreplay : replay p.history = .ok doc)
    (hnum : ∀ (i : Nat) (d : Delivery CharOp), p.history[i]? = some d → d.revision.number = i + 1)
    (hsite : ∀ d ∈ p.history, d.session ≠ e.session → d.op.site ≠ e.site) :
    (e.channel.handle CharOp.transform ev).Yields fun r => ∃ p' k, p'.history = p.history ∧
      Settles tok p p' e.replica e.channel k r ∧
      Attends tok p' last t' { e with channel := r.1 } r.2 := by
  obtain ⟨hmem, hsub, hkeep⟩ := mail_pick hev
  cases hk : ev.ticket? with
  | some k =>
    have hcar := h.carries.pick hev (Event.delivery?_of_ticket hk)
    rw [hk] at hkeep
    refine (h.keeps_nil.handle hk fun hp => h.honest ev hmem k hk hp).mono fun r hr => ?_
    obtain ⟨p', hh, ha, hs⟩ := hr
    exact ⟨p', some k, hh, hs, h.react hs rfl rfl rfl h.errors hh (ha ▸ hcar) hsub hkeep⟩
  | none =>
    obtain ⟨connection, message, rfl⟩ : ∃ connection message, ev = .incoming connection message := by
      cases ev <;> first | exact ⟨_, _, rfl⟩ | cases hk
    obtain ⟨d, ds, rfl, rfl, hp, hcar⟩ := h.next hr hev
    obtain ⟨hmem, hrev, hbase⟩ := p.upcoming hp hreplay hnum
    refine (h.keeps_nil.incoming hp hrev (hsite d hmem) hbase).mono fun r hr => ?_
    obtain ⟨p', hh, -, ha, hs⟩ := hr
    rw [hk] at hkeep
    exact ⟨p', none, hh, hs, h.react hs rfl rfl rfl h.errors hh (ha ▸ hcar) hsub hkeep⟩

theorem send (h : Attends tok p last t e []) {edit : Edit} {doc : Doc}
    (hd : e.doc.apply edit = .ok doc) :
    (e.channel.send CharOp.transform ⟨e.made, e.site, edit⟩).Yields fun r => r.1 = .ok () ∧
      Settles tok p p { e.replica with doc, made := e.made + 1 } e.channel none r.2 ∧
      Attends tok p last t { e with doc, made := e.made + 1, channel := r.2.1 } r.2.2 := by
  refine (h.keeps_nil.send hd).mono fun r hr => ⟨hr.1, hr.2, ?_⟩
  exact h.react hr.2 rfl rfl rfl h.errors rfl h.carries (fun _ h => h) fun _ h _ => h

/-- The first delivery that waits, if it confirms an operation: it is the oldest one in flight. -/
theorem oldest {connection : Token} {d : Delivery CharOp} {n : Nat} (h : Attends tok p last t e [])
    (hr : t.Ready n) (hev : t.pick n = some (.incoming connection (.ok d), t'))
    (hd : d.session = e.session) (he : e.channel.queue.expectedEchoes = 0) :
    ∃ rest, e.channel.queue.unacked = d.op :: rest := by
  obtain ⟨d', ds, -, hm, hp, -⟩ := h.next hr hev
  cases hm
  have htr := h.keeps_nil.books.tracks
  have hnil : p.awaited = [] := List.length_eq_zero_iff.1 (htr.echoes.symm.trans he)
  rw [Standing.ahead, hnil, List.nil_append] at hp
  have hl := htr.landed_of_not_absent fun ha => ha d (hp ▸ List.mem_cons_self ..) hd
  rw [hp] at hl
  exact (hl.cons_own hd).imp fun _ h => h.1

theorem advanceTo (h : Attends tok p last t e owed) {time : Nat} :
    Attends tok p last (t.advanceTo time) e owed :=
  ⟨h.keeps, h.owes, h.errors, h.carries.advanceTo, h.known, h.honest, h.waits, h.unasked⟩

end Attends

theorem Editor.foldl_change {e : Editor R} {es : List Edit} {doc : Doc}
    (h : e.doc.applyAll es = .ok doc) : es.foldl Editor.change e = { e with doc } := by
  induction es generalizing e with
  | nil => cases h; rfl
  | cons edit es ih =>
    rw [Doc.applyAll_cons] at h
    obtain ⟨doc₁, h₁, h₂⟩ := Except.bind_eq_ok_iff.1 h
    have hc : e.change edit = { e with doc := doc₁ } := by
      unfold change; rw [h₁]
    rw [List.foldl_cons, hc]
    exact ih h₂

theorem Attends.drain {tok : Token} {p : Standing} {last : Nat} {t : Timeline CharOp} {e : Editor R}
    (h : Attends tok p last t e []) : Attends tok p last t e.drain [] ∧ ∃ doc,
      e.doc.applyAll (edits e.channel.queue.pending) = .ok doc ∧
        e.drain = { e with doc, channel := { e.channel with
          queue := { e.channel.queue with pending := [] } } } := by
  obtain ⟨doc, hdoc, htr⟩ := h.keeps_nil.books.tracks.drain
  have hrec : e.channel.receiveAll = (e.channel.queue.pending,
      { e.channel with queue := { e.channel.queue with pending := [] } }) :=
    if_pos h.keeps.books.isSome
  have hdrain : e.drain = { e with doc, channel := { e.channel with
      queue := { e.channel.queue with pending := [] } } } := by
    unfold Editor.drain
    rw [hrec]
    exact Editor.foldl_change (e := { e with channel := _ }) hdoc
  refine ⟨?_, doc, hdoc, hdrain⟩
  rw [hdrain]
  have hk := h.keeps_nil
  refine ⟨Attends.of_keeps ⟨⟨hk.books.connection, htr, hk.books.acks, hk.books.echoes⟩, ?_, hk.fresh,
    hk.lags⟩, trivial, h.errors, h.carries, h.known, h.honest, h.waits, h.unasked⟩
  exact hk.rests.mono Iff.rfl (fun _ => Iff.rfl) rfl id

theorem Editor.exists_apply_choose (e : Editor R) (insert : Bool) (place : Nat) (ch : Char) :
    ∃ doc, e.doc.apply (e.choose insert place ch) = .ok doc := by
  unfold choose; dsimp only
  split
  · exact ⟨_, if_pos (Nat.le_of_lt_succ (Nat.mod_lt _ (Nat.succ_pos _)))⟩
  · rename_i h
    refine ⟨_, if_pos (Nat.mod_lt _ (Nat.pos_of_ne_zero fun h₀ => h ?_))⟩
    simp [h₀]

/-- A client that never connected. -/
structure Idle (t : Timeline CharOp) (e : Editor R) : Prop where
  channel : e.channel = {}
  doc : e.doc = {}
  made : e.made = 0
  acked : e.acked = []
  errors : e.errors = []
  sound : t.Sound
  mail : t.mail = []

/-- A channel that was never used, after it connected. -/
def joined (session : Session) : Channel CharOp where
  queue := .start .zero
  connection := some ⟨session, ⟨1⟩⟩
  phase := .allAcked none
  tokens := ⟨2⟩

theorem Idle.pick_eq_none {t : Timeline CharOp} {e : Editor R} (h : Idle t e) (n : Nat) :
    t.pick n = none := by
  cases hev : t.pick n with
  | none => rfl
  | some r =>
    have := (Timeline.mail_pick hev).1
    rw [h.mail] at this; cases this

theorem Idle.keeps {t : Timeline CharOp} {e : Editor R} {ds : List (Delivery CharOp)} (h : Idle t e)
    (hds : Absent e.session ds) : Keeps ⟨1⟩ ⟨[], [], ds⟩
      ⟨e.session, e.site, e.doc, e.made, e.acked, .start .zero⟩ (joined e.session) := by
  have htr : Tracks ⟨[], [], ds⟩ ⟨e.session, e.site, e.doc, e.made, e.acked, .start .zero⟩ := by
    rw [h.doc, h.made, h.acked]
    exact ⟨rfl, rfl, List.forall_mem_nil _, ⟨{}, rfl, {}, rfl, rfl⟩, List.forall_mem_nil _, rfl, rfl,
      rfl, rfl, .inl hds⟩
  have hacked : e.acked.length = 0 := by rw [h.acked]; rfl
  refine ⟨⟨rfl, htr, hacked.symm, rfl⟩, ⟨rfl, iff_of_true rfl rfl⟩, fun k hk => ?_,
    fun _ _ _ hp => ?_⟩
  · cases hk
  · cases hp

theorem Idle.connected {t : Timeline CharOp} {e : Editor R} {ds : List (Delivery CharOp)}
    {posts : List (Nat × Event CharOp)} {last' : Nat} (h : Idle t e) (hds : Absent e.session ds)
    (hc : Climbs ⟨1⟩ t.now posts ds last') (backoff : Backoff R) :
    Attends ⟨1⟩ ⟨[], [], ds⟩ last' (t.deliverAll posts)
      { e with channel := joined e.session, backoff } [] := by
  have hcar : t.Carries t.now ([] : List (Token × Except ServiceError (Delivery CharOp))) := by
    have hnil : t.entries = [] := List.map_eq_nil_iff.1 h.mail
    refine ⟨h.sound, by rw [Timeline.deliveries, h.mail]; rfl, ?_⟩
    rw [hnil]; exact List.forall_mem_nil _
  obtain ⟨hcar, hmail⟩ := hc.carries hcar
  have hnone : ∀ ev ∈ (t.deliverAll posts).mail, ∀ k, ev.ticket? ≠ some k := by
    intro ev hev k hk
    have := (hmail ev (Event.delivery?_of_ticket hk)).1 hev
    rw [h.mail] at this; cases this
  refine ⟨Attends.of_keeps (h.keeps hds), trivial, h.errors, hcar,
    fun ev hev k hk => absurd hk (hnone ev hev k), fun ev hev k hk => absurd hk (hnone ev hev k),
    fun k hk => ?_, fun _ _ _ hs => absurd hs List.not_mem_nil⟩
  cases hk

end Simulation

end CoEdit
