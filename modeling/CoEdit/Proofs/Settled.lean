import CoEdit.Proofs.Reachable

/-!
# Runs that come to rest

A run does what is due first until nothing is left to do. It keeps the invariant, every client stays
connected, and an editor plans another edit exactly as long as it has made fewer than it is to make
(`Running`). When nothing is due any more, no client waits for anything: what a channel waits for is on
its timeline, and a channel that waits for nothing has everything acknowledged. Hence every client was
delivered the whole history and has the server's document.
-/

namespace CoEdit.Simulation

variable {R : Type}

theorem earliest_mem {items : List Item} {i : Item} (h : earliest items = some i) : i ∈ items := by
  induction items with
  | nil => cases h
  | cons j items ih =>
    unfold earliest at h
    split at h
    · rename_i k hk
      split at h
      · cases h; exact List.mem_cons_of_mem _ (ih hk)
      · cases h; exact List.mem_cons_self ..
    · cases h; exact List.mem_cons_self ..

theorem earliest_eq_none {items : List Item} (h : earliest items = none) : items = [] := by
  cases items with
  | nil => rfl
  | cons j items =>
    unfold earliest at h
    split at h
    · split at h <;> cases h
    · cases h

section
variable {s : Simulation R} {x : Item} {i : Nat} {e : Editor R} {t : Timeline CharOp}

theorem mem_items : x ∈ s.items ↔ ∃ t e, s.network.timelines[x.client]? = some t ∧
    s.editors[x.client]? = some e ∧ (x.isEdit = false ∧ t.nextDue = some x.due ∨
      x.isEdit = true ∧ e.nextEdit = some x.due) := by
  obtain ⟨due, client, isEdit⟩ := x
  simp only [items, List.mem_flatMap, Prod.exists, List.mk_mem_zipIdx_iff_getElem?,
    List.getElem?_zip_eq_some, List.mem_append, Option.mem_toList, Option.map_eq_some_iff, Item.mk.injEq]
  constructor
  · rintro ⟨t, e, client, ⟨ht, he⟩, ⟨due, hd, rfl, rfl, rfl⟩ | ⟨due, hd, rfl, rfl, rfl⟩⟩
    · exact ⟨t, e, ht, he, .inl ⟨rfl, hd⟩⟩
    · exact ⟨t, e, ht, he, .inr ⟨rfl, hd⟩⟩
  · rintro ⟨t, e, ht, he, ⟨rfl, hd⟩ | ⟨rfl, hd⟩⟩
    · exact ⟨t, e, client, ⟨ht, he⟩, .inl ⟨due, hd, rfl, rfl, rfl⟩⟩
    · exact ⟨t, e, client, ⟨ht, he⟩, .inr ⟨due, hd, rfl, rfl, rfl⟩⟩

theorem idle_of_next_eq_none (h : s.next = none) (ht : s.network.timelines[i]? = some t)
    (he : s.editors[i]? = some e) : t.mail = [] ∧ e.nextEdit = none := by
  have hnone : ∀ x, x ∉ s.items := by
    rw [earliest_eq_none h]; exact fun _ h => nomatch h
  constructor
  · rw [Timeline.mail, List.map_eq_nil_iff]
    cases hes : t.entries with
    | nil => rfl
    | cons x es =>
      refine absurd (mem_items.2 ⟨t, e, ht, he, .inl ⟨rfl, ?_⟩⟩) (hnone ⟨x.slot.due, i, false⟩)
      rw [Timeline.nextDue, hes]; rfl
  · cases hn : e.nextEdit with
    | none => rfl
    | some due => exact absurd (mem_items.2 ⟨t, e, ht, he, .inr ⟨rfl, hn⟩⟩) (hnone ⟨due, i, true⟩)

/-- A client for which nothing waits has nothing in flight and nothing queued, and was delivered the
whole history. -/
theorem Attends.rest {tok : Token} {p : Standing} {last : Nat} (h : Attends tok p last t e [])
    (hm : t.mail = []) : p.ahead = [] ∧ e.channel.phase = .allAcked none ∧
      e.channel.queue.unacked = [] ∧ e.channel.queue.queued = [] := by
  have hahead : p.ahead = [] := by
    have := h.carries.deliveries
    rw [Timeline.deliveries, hm] at this
    exact List.map_eq_nil_iff.1 this.symm
  have hrest : p.rest = [] := (List.append_eq_nil_iff.1 hahead).2
  have hticket : ∀ k, e.channel.phase.ticket? ≠ some k := fun k hk => by
    rcases h.waits k hk with ⟨ev, hev, -⟩ | ⟨effect, heffect, -⟩
    · rw [hm] at hev; cases hev
    · cases heffect
  have hkeeps := h.keeps_nil
  have hrests := hkeeps.rests
  refine ⟨hahead, ?_⟩
  cases hp : e.channel.phase with
  | uninitialised => rw [hp] at hrests; exact hrests.elim
  | allAcked task =>
    rw [hp] at hrests
    cases task with
    | none => exact ⟨rfl, hrests.1, hrests.2.1 rfl⟩
    | some id => exact absurd (by rw [hp]; rfl) (hticket (.task ⟨id, .maybeSend⟩))
  | waitingAck submit base batch answered =>
    rw [hp] at hrests
    cases answered with
    | false => exact absurd (by rw [hp]; rfl) (hticket (.submit submit))
    | true => exact absurd (hrest ▸ absent_nil) (hrests.2 rfl)
  | delayResync timer => exact absurd (by rw [hp]; rfl) (hticket (.task ⟨timer, .resync⟩))
  | waitingSync probe answered target =>
    rw [hp] at hrests
    cases target with
    | none =>
      have hans : answered = false := hrests.2.1
      exact absurd (by rw [hp, hans]; rfl) (hticket (.probe probe))
    | some target =>
      -- the channel has reached the revision that it waits for
      have hlt := hkeeps.lags probe answered target hp
      have hle := (hrests.2.2 target rfl).1
      rw [Revision.lt_iff, show e.channel.queue.revision.number = _ from hkeeps.books.tracks.revision] at hlt
      rw [Standing.history, hrest, List.append_nil] at hle
      exact absurd hlt (Nat.not_lt.2 hle)

end

/-- An editor that is to make `edits` edits plans one as long as it made fewer. -/
def Editor.OnPlan (edits : Nat) (e : Editor R) : Prop :=
  e.made ≤ edits ∧ (e.nextEdit.isSome ↔ e.made < edits)

/-- What holds all through a run. -/
structure Running (w : Workload) (faces : List (Nat × Session)) (s : Simulation R) : Prop where
  inv : Inv faces s quiet
  workload : s.workload = w
  connected : ∀ e ∈ s.editors, e.channel.isConnected
  plan : ∀ e ∈ s.editors, e.OnPlan w.editsPerClient

variable {w : Workload} {faces : List (Nat × Session)} {s s' : Simulation R} {i : Nat} {e : Editor R}

theorem Running.set (h : Running w faces s) {e' : Editor R} (hinv : Inv faces s' quiet)
    (hwork : s'.workload = w) (hed : s'.editors = s.editors.set i e') (hc : e'.channel.isConnected)
    (hplan : e'.OnPlan w.editsPerClient) : Running w faces s' := by
  refine ⟨hinv, hwork, fun x hx => ?_, fun x hx => ?_⟩
  all_goals
    rw [hed] at hx
    rcases List.mem_or_eq_of_mem_set hx with hx | rfl
  · exact h.connected x hx
  · exact hc
  · exact h.plan x hx
  · exact hplan

theorem Stepped.onPlan {edits : Nat} (hs : Stepped faces s i SamePlan s')
    (h : ∀ e ∈ s.editors, e.OnPlan edits) : ∀ e ∈ s'.editors, e.OnPlan edits := by
  rcases hs.turn with hst | ⟨e, e', ht, hmade, hnext⟩
  · rw [hst.editors]; exact h
  · intro x hx
    rw [ht.after] at hx
    rcases List.mem_or_eq_of_mem_set hx with hx | rfl
    · exact h x hx
    · unfold Editor.OnPlan
      rw [hmade, hnext]; exact h e (List.mem_of_getElem? ht.before)

theorem Running.of_stepped (h : Running w faces s) (hs : Stepped faces s i SamePlan s') :
    Running w faces s' := by
  refine ⟨hs.inv, hs.workload.trans h.workload, fun x hx => ?_, hs.onPlan h.plan⟩
  rcases hs.turn with hst | ⟨e, e', ht, -⟩
  · rw [hst.editors] at hx; exact h.connected x hx
  · rw [ht.after] at hx
    rcases List.mem_or_eq_of_mem_set hx with hx | rfl
    · exact h.connected x hx
    · have hc := h.connected e (List.mem_of_getElem? ht.before)
      unfold Channel.isConnected
      rw [ht.connection hc]; exact hc

variable [RandomSource R]

theorem event_eq_take (s : Simulation R) (client : Nat) : s.event client = s.take client 0 := by
  unfold event take Network.advance
  cases s.editors[client]? with
  | none => cases s.network.timelines[client]? <;> rfl
  | some e =>
    cases s.network.timelines[client]? with
    | none => rfl
    | some t =>
      dsimp only [Option.bind_eq_bind, Option.bind_some]
      rw [t.advance_eq_pick]
      unfold Timeline.nextDue Timeline.pick
      cases t.entries <;> rfl

theorem Running.event (h : Running w faces s) (client : Nat) :
    (s.event client).Yields (Running w faces) := by
  rw [event_eq_take]
  exact (h.inv.take fun t _ => t.ready_zero).mono fun s' hs => h.of_stepped hs

theorem choose_yields : s.choose.Yields fun r => ∃ random, r.2 = { s with random } := by
  unfold choose
  refine Checked.yields_add.bind fun longest _ => ?_
  rcases Choice.draw s.workload.drainProbability _ longest s.random with _ | ⟨choice, random⟩
  · trivial
  · exact ⟨random, rfl⟩

omit [RandomSource R] in
theorem Attends.drainIf {tok : Token} {p : Standing} {last : Nat} {t : Timeline CharOp}
    (h : Attends tok p last t e []) (drain : Bool) :
    ∃ e₁, (if drain then e.drain else e) = e₁ ∧ Attends tok p last t e₁ [] ∧ e₁.face = e.face ∧
      e₁.made = e.made ∧ e₁.channel.connection = e.channel.connection := by
  cases drain with
  | false => exact ⟨e, rfl, h, rfl, rfl, rfl⟩
  | true =>
    obtain ⟨h', doc, -, hdrain⟩ := h.drain
    exact ⟨e.drain, rfl, h', by rw [hdrain]; rfl, by rw [hdrain], by rw [hdrain]⟩

theorem Running.edit (h : Running w faces s) {client due : Nat} (he : s.editors[client]? = some e)
    (hdue : e.nextEdit = some due) (time : Nat) : (s.edit client time).Yields (Running w faces) := by
  have hmem := List.mem_of_getElem? he
  have hc := h.connected e hmem
  have hlt : e.made < w.editsPerClient := (h.plan e hmem).2.1 (by rw [hdue]; rfl)
  obtain ⟨t, l, tok, p, ht, hl, hses, htok, hp, hatt⟩ := h.inv.attends_of_connected he hc
  unfold Simulation.edit
  refine choose_yields.bind fun r hr => ?_
  obtain ⟨choice, s₁⟩ := r
  obtain ⟨random, rfl⟩ := hr
  dsimp only
  rw [he]
  dsimp only
  -- the edit is chosen for the document after what was received is taken in
  obtain ⟨e₁, hdrain, hatt₁, hface, hmade, hconn⟩ := hatt.drainIf choice.drain
  rw [hdrain, h.workload]
  refine Checked.yields_addTime.bind fun following _ => ?_
  obtain ⟨doc, hdoc⟩ := e₁.exists_apply_choose choice.insert choice.place choice.letter
  have hti : (s.network.timelines.modify client (·.advanceTo time))[client]? =
      some (t.advanceTo time) := by rw [List.getElem?_modify_eq, ht]; rfl
  have hlate : Attends tok p l.lastDelivery (t.advanceTo time) e₁ [] := hatt₁.advanceTo
  have hatt₂ := hlate.aside e₁.backoff
    (if e₁.made + 1 < w.editsPerClient then some following else none)
  refine (h.inv.author he ?_ ?_ ?_ ?_ ?_ hl hses htok hp hatt₂ hdoc).mono fun s' hs' => ?_
  · rfl
  · rfl
  · exact fun j hj => List.getElem?_modify_ne _ _ (Ne.symm hj)
  · exact hface
  · exact hti
  obtain ⟨hinv, hwork, e', hed, -, hconn', hmade', hnext', -⟩ := hs'
  refine h.set hinv hwork hed ?_ ⟨?_, ?_⟩
  · unfold Channel.isConnected; rw [hconn', hconn]; exact hc
  · rw [hmade', hmade]; exact hlt
  · rw [hnext', hmade', hmade]
    split <;> simp_all

theorem Running.step (h : Running w faces s) {x : Item} (hx : s.next = some x) :
    (s.step x).Yields (Running w faces) := by
  unfold Simulation.step
  obtain ⟨t, e, -, he, ⟨hb, -⟩ | ⟨hb, hdue⟩⟩ := mem_items.1 (earliest_mem hx)
  · rw [hb]; exact h.event x.client
  · rw [hb]; exact h.edit he hdue x.due

theorem Running.runFor {p : Progress R} (h : Running w faces p.simulation) (limit : Nat) :
    (runFor limit p).Yields fun p' => Running w faces p'.simulation := by
  induction limit generalizing p with
  | zero => exact h
  | succ limit ih =>
    unfold Simulation.runFor
    cases hx : p.simulation.next with
    | none => exact h
    | some x => exact (h.step hx).bind fun s' hs' => ih hs'

theorem Inv.connectAll {clients : List Nat} (h : Inv faces s quiet) (hd : clients.Nodup)
    (hn : ∀ i e, s.editors[i]? = some e → (e.channel.isConnected = false ↔ i ∈ clients))
    (hplan : ∀ e ∈ s.editors, e.OnPlan s.workload.editsPerClient) :
    (clients.foldlM Simulation.connect s).Yields (Running s.workload faces) := by
  induction clients generalizing s with
  | nil =>
    refine ⟨h, rfl, fun e he => ?_, hplan⟩
    obtain ⟨i, hi⟩ := List.mem_iff_getElem?.1 he
    exact (Bool.eq_false_or_eq_true _).resolve_right fun hc => nomatch (hn i e hi).1 hc
  | cons i clients ih =>
    obtain ⟨hi, hd⟩ := List.nodup_cons.1 hd
    rw [List.foldlM_cons]
    refine (h.connect fun e he => (hn i e he).2 (List.mem_cons_self ..)).bind fun s' hs' => ?_
    obtain ⟨hs, hc⟩ := hs'
    rw [← hs.workload] at hplan ⊢
    refine ih hs.inv hd (fun j e he => ?_) (hs.onPlan hplan)
    by_cases hij : i = j
    · subst hij
      simp [hc e he, hi]
    · rw [hs.getElem?_ne hij] at he
      rw [hn j e he, List.mem_cons, or_iff_right (Ne.symm hij)]

theorem sessionOf_injective : Function.Injective sessionOf := by
  intro m n h
  have hid : "client-" ++ m.repr = "client-" ++ n.repr := by
    have := congrArg Session.id h
    simpa [sessionOf] using this
  have hlist := congrArg String.toList ((String.append_right_inj _).1 hid)
  rw [Nat.toList_repr, Nat.toList_repr] at hlist
  rw [← Nat.ofDigitChars_ten_toDigits (n := m), hlist, Nat.ofDigitChars_ten_toDigits]

theorem start_yields (seeded : Nat → R) (c : Scenario) :
    (start seeded c).Yields (Running c.workload ((c.editors seeded).map Editor.face)) := by
  have hsites : (c.editors seeded).map (·.site) = (List.range c.workload.clients).map (· + 1) := by
    rw [Scenario.editors, List.map_map]; rfl
  have hsessions : (c.editors seeded).map (·.session) =
      (List.range c.workload.clients).map fun i => sessionOf (i + 1) := by
    rw [Scenario.editors, List.map_map]; rfl
  have hfresh : Fresh { workload := c.workload
                        network := .start c.faults ((c.editors seeded).map (·.session))
                          (seeded c.workload.seed)
                        editors := c.editors seeded
                        random := seeded ((c.workload.seed + 1) % Checked.limit) } := by
    refine ⟨⟨_, _, rfl⟩, fun e he => ?_, ?_, ?_⟩
    · obtain ⟨i, -, rfl⟩ := List.mem_map.1 he
      exact ⟨rfl, rfl, rfl, rfl, rfl⟩
    · dsimp only
      rw [hsites]
      exact List.nodup_range.map fun _ _ h => Nat.succ.inj h
    · dsimp only
      rw [hsessions]
      exact List.nodup_range.map fun _ _ h => Nat.succ.inj (sessionOf_injective h)
  -- at first nobody is connected, so all are left to connect
  refine hfresh.inv.connectAll List.nodup_range (fun i e he => ?_) fun e he => ?_
  · rw [(hfresh.pristine e (List.mem_of_getElem? he)).1]
    exact iff_of_true rfl (List.mem_range.2 (List.getElem?_eq_some_iff.1 he).1)
  · obtain ⟨i, -, rfl⟩ := List.mem_map.1 he
    refine ⟨Nat.zero_le _, ?_⟩
    dsimp only
    split <;> simp_all

/-! ### The end -/

/-- What a client reports that came to rest. -/
structure ClientReport.Complete (edits : Nat) (document : String) (c : ClientReport) : Prop where
  document : c.document = document
  state : c.state = .allAcked
  made : c.edits = edits
  acked : c.acked = edits
  inOrder : c.acksInOrder
  errors : c.errors = []
  acks : c.stats.eagerAcks + c.stats.directAcks = edits
  echoes : c.stats.duplicateAcks = c.stats.eagerAcks

section
variable {tok : Token} {p : Standing} {last : Nat} {t : Timeline CharOp}

omit [RandomSource R]

theorem Attends.confirmed_of_rest (h : Attends tok p last t e []) (hm : t.mail = []) :
    p.awaited = [] ∧ p.confirmed = p.history := by
  obtain ⟨hawaited, hrest⟩ := List.append_eq_nil_iff.1 (h.rest hm).1
  exact ⟨hawaited, by rw [Standing.history, hrest, List.append_nil]; rfl⟩

theorem Attends.acked_of_rest (h : Attends tok p last t e []) (hm : t.mail = []) :
    e.acked = List.range e.made := by
  obtain ⟨-, -, hunacked, hqueued⟩ := h.rest hm
  have htr := h.keeps_nil.books.tracks
  have hmade : e.made = e.acked.length := by
    have := htr.made
    dsimp only at this
    rw [hunacked, hqueued] at this
    exact this
  rw [hmade]; exact htr.acked

/-- With nothing in flight or queued the diagram has one side, which the pending operations take. -/
theorem Attends.doc_of_rest (h : Attends tok p last t e []) (hm : t.mail = []) {doc : Doc}
    (hdoc : replay p.history = .ok doc) : e.drain.doc = doc := by
  obtain ⟨-, -, hunacked, hqueued⟩ := h.rest hm
  obtain ⟨base, hbase, d, hmine, hpending⟩ := h.keeps_nil.books.tracks.meets
  rw [(h.confirmed_of_rest hm).2, hdoc] at hbase
  cases hbase
  dsimp only at hmine hpending
  rw [hunacked, hqueued] at hmine
  cases hmine
  obtain ⟨-, d, hd, hdrain⟩ := h.drain
  rw [Doc.acts_act] at hpending
  rw [hdrain]
  exact Except.ok.inj (hd.symm.trans hpending)

/-- A client of a run that came to rest has the server's document, and all its edits are in the history
and acknowledged. -/
theorem Running.settled (h : Running w faces s) (hn : s.next = none) (he : s.editors[i]? = some e) :
    e.drain.report.Complete w.editsPerClient s.network.server.doc.text ∧
      (ownLabels e.session s.network.server.history).length = w.editsPerClient := by
  have hmem := List.mem_of_getElem? he
  obtain ⟨t, l, tok, p, ht, -, -, -, hp, hatt⟩ := h.inv.attends_of_connected he (h.connected e hmem)
  obtain ⟨hmail, hnext⟩ := idle_of_next_eq_none hn ht he
  have hbooks := hatt.keeps_nil.books
  obtain ⟨hawaited, hconf⟩ := hatt.confirmed_of_rest hmail
  have hacked := hatt.acked_of_rest hmail
  have hmade : e.made = w.editsPerClient := by
    obtain ⟨hle, hiff⟩ := h.plan e hmem
    rw [hnext] at hiff
    exact Nat.le_antisymm hle (Nat.le_of_not_lt fun hlt => nomatch hiff.2 hlt)
  have hlength : e.acked.length = w.editsPerClient := by rw [hacked, List.length_range, hmade]
  have hdoc : e.drain.doc = s.network.server.doc :=
    hatt.doc_of_rest hmail (hp ▸ h.inv.server.replay)
  obtain ⟨-, doc, -, hdrain⟩ := hatt.drain
  constructor
  · refine ⟨congrArg Doc.text hdoc, ?_, ?_, ?_, ?_, ?_, ?_, ?_⟩
    all_goals rw [hdrain]
    · show e.channel.phase.state = _
      rw [(hatt.rest hmail).2.1]; rfl
    · exact hmade
    · exact hlength
    · exact beq_iff_eq.2 hacked
    · exact hatt.errors
    · exact hbooks.acks.trans hlength
    · have := hbooks.echoes
      rw [hawaited] at this
      exact this
  · have hown : ownLabels e.session p.confirmed = numbered e.site 0 e.acked.length :=
      hbooks.tracks.confirmed
    rw [hconf, hp] at hown
    rw [hown, length_numbered, hlength]

end

omit [RandomSource R] in
theorem length_of_ownLabels {sessions : List Session} {n : Nat} (hd : sessions.Nodup)
    {ds : List (Delivery CharOp)} (hmem : ∀ d ∈ ds, d.session ∈ sessions)
    (hlen : ∀ me ∈ sessions, (ownLabels me ds).length = n) : ds.length = sessions.length * n := by
  induction sessions generalizing ds with
  | nil =>
    rw [List.eq_nil_iff_forall_not_mem.2 fun d hd => nomatch hmem d hd]; simp
  | cons me sessions ih =>
    obtain ⟨hme, hd⟩ := List.nodup_cons.1 hd
    have hrest : (ds.filter fun d => !decide (d.session = me)).length = sessions.length * n := by
      refine ih hd (fun d hd => ?_) fun me' hme' => ?_
      · obtain ⟨hd, hne⟩ := List.mem_filter.1 hd
        exact (List.mem_cons.1 (hmem d hd)).resolve_left (by simpa using hne)
      · have hne : me' ≠ me := fun h => hme (h ▸ hme')
        rw [← hlen me' (List.mem_cons_of_mem _ hme'), ownLabels, ownLabels, List.filter_filter]
        congr 2
        refine List.filter_congr fun d _ => ?_
        by_cases h : d.session = me' <;> simp [h, hne]
    have hown := hlen me (List.mem_cons_self ..)
    rw [ownLabels, List.length_map] at hown
    rw [List.length_eq_length_filter_add fun d => decide (d.session = me), hown, hrest, List.length_cons,
      Nat.succ_mul, Nat.add_comm]

omit [RandomSource R] in
theorem Running.length_history (h : Running w faces s) (hn : s.next = none) :
    s.network.server.history.length = s.editors.length * w.editsPerClient := by
  have hsessions : (s.editors.map (·.session)).Nodup := by
    have := h.inv.sessions
    rw [← h.inv.cast, List.map_map] at this; exact this
  rw [← List.length_map Editor.session]
  refine length_of_ownLabels hsessions (fun d hd => ?_) fun me hme => ?_
  · have := List.mem_map_of_mem (f := Prod.snd) (h.inv.authors d hd)
    rw [← h.inv.cast, List.map_map] at this; exact this
  · obtain ⟨e, he, rfl⟩ := List.mem_map.1 hme
    obtain ⟨i, hi⟩ := List.mem_iff_getElem?.1 he
    exact (h.settled hn hi).2

omit [RandomSource R] in
theorem isSuccess_of_complete {p : Progress R} {edits : Nat} (hs : p.report.settled)
    (h : ∀ client ∈ p.report.clients, client.Complete edits p.report.document) :
    p.report.isSuccess := by
  unfold Report.isSuccess
  rw [Bool.and_eq_true, Bool.and_eq_true, List.all_eq_true]
  refine ⟨⟨hs, List.all_eq_true.2 fun client hclient => ?_⟩, fun client hclient => ?_⟩
  · rw [Bool.and_eq_true, beq_iff_eq, beq_iff_eq]
    exact ⟨(h client hclient).document, (h client hclient).state⟩
  · rw [Bool.and_eq_true, List.isEmpty_iff]
    exact ⟨(h client hclient).inOrder, (h client hclient).errors⟩

/-- A run that came to rest succeeded: every client ended with the server's document, all of its edits
were acknowledged once and in order, and the server applied them all. -/
theorem run_settled {seeded : Nat → R} {c : Scenario} {report : Report}
    (hrun : Simulation.run seeded c = .ok report) (hs : report.settled) :
    report.isSuccess ∧ report.clients.length = c.workload.clients ∧
      (∀ client ∈ report.clients, client.Complete c.workload.editsPerClient report.document) ∧
      report.revision.number = c.workload.clients * c.workload.editsPerClient ∧
      report.server.appliedOps = c.workload.clients * c.workload.editsPerClient := by
  obtain ⟨s, hstart, hfor⟩ := Checked.bind_eq_ok_iff.1 hrun
  obtain ⟨p, hp, hreport⟩ := Checked.bind_eq_ok_iff.1 hfor
  cases hreport
  have hbegin := (start_yields seeded c).of_ok hstart
  have h := (Running.runFor (p := { simulation := s }) hbegin stepLimit).of_ok hp
  have hn : p.simulation.next = none := Option.isNone_iff_eq_none.1 hs
  have hlength : p.simulation.editors.length = c.workload.clients := by
    have := congrArg List.length h.inv.cast
    simpa [Scenario.editors] using this
  have hcomplete : ∀ client ∈ p.report.clients,
      client.Complete c.workload.editsPerClient p.report.document := by
    intro client hclient
    obtain ⟨e, he, rfl⟩ := List.mem_map.1 hclient
    obtain ⟨i, hi⟩ := List.mem_iff_getElem?.1 he
    exact (h.settled hn hi).1
  have hhistory : p.simulation.network.server.history.length =
      c.workload.clients * c.workload.editsPerClient := hlength ▸ h.length_history hn
  refine ⟨isSuccess_of_complete hs hcomplete, ?_, hcomplete, hhistory, ?_⟩
  · exact (List.length_map _).trans hlength
  · exact h.inv.server.applied.trans hhistory

/-- Two clients make two edits each. -/
theorem run_settled_pair : ∃ report,
    Simulation.run (fun _ => (⟨2147483648⟩ : Steady)) { workload := { clients := 2, editsPerClient := 2 } } =
      .ok report ∧ report.settled ∧ report.isSuccess ∧ report.server.appliedOps = 4 := by
  have hok : ∀ x : Checked Report, x.toOption.any (·.settled) = true →
      ∃ report, x = .ok report ∧ report.settled := by
    rintro (f | report) h
    · cases h
    · exact ⟨report, rfl, h⟩
  obtain ⟨report, hrun, hs⟩ := hok (Simulation.run (fun _ => (⟨2147483648⟩ : Steady))
    { workload := { clients := 2, editsPerClient := 2 } }) (by decide +kernel)
  obtain ⟨hsuccess, -, -, -, happlied⟩ := run_settled hrun hs
  exact ⟨report, hrun, hs, hsuccess, happlied⟩

end CoEdit.Simulation
