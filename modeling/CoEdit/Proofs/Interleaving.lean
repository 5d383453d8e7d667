import CoEdit.Proofs.Invariant

/-!
# All orders of steps

A simulation does what is due first. Here anything goes: `Act` lists what may happen next, whatever the
clocks say. A client that is not connected connects at revision zero; a connected one makes an edit that
has a place in its document; an editor takes in what its channel received; any event that waits on a
client's timeline is handed to its channel, a delivery only if it is the first one that waits; a clock
moves on; and the rates of faults and the draws of the server are replaced by any others, so that any
submit and any probe may be lost.
-/

namespace CoEdit.Simulation

variable {R : Type}

/-- Something that may happen next. -/
inductive Act (R : Type) where
  | connect (client : Nat)
  | edit (client : Nat) (edit : Edit)
  | drain (client : Nat)
  /-- The event at a place of the client's timeline is handed to its channel. -/
  | event (client place : Nat)
  | tick (client time : Nat)
  /-- What the server draws from now on, and how it judges its draws. -/
  | chance (faults : Server.Faults) (random : R)

section
variable [RandomSource R]

def take (s : Simulation R) (client place : Nat) : Checked (Simulation R) :=
  match s.editors[client]?, s.network.timelines[client]? with
  | some e, some t =>
    match t.pick place with
    | some (event, t) => do
      let reaction ← e.channel.handle CharOp.transform event
      let network := { s.network with timelines := s.network.timelines.set client t }
      settle { s with network } client e reaction
    | none => .ok s
  | _, _ => .ok s

def act (s : Simulation R) : Act R → Checked (Simulation R)
  | .connect client => s.connect client
  | .edit client edit =>
    match s.editors[client]? with
    | some e => s.author client e edit
    | none => .ok s
  | .drain client =>
    match s.editors[client]? with
    | some e => .ok (s.withEditor client e.drain)
    | none => .ok s
  | .event client place => s.take client place
  | .tick client time => .ok { s with network := s.network.modify client (·.advanceTo time) }
  | .chance faults random =>
    .ok { s with network := { s.network with server := { s.network.server with faults, random } } }

end

/-- What may happen next. -/
def Allowed (s : Simulation R) : Act R → Prop
  | .connect client => ∀ e ∈ s.editors[client]?, e.channel.isConnected = false
  | .edit client edit => ∀ e ∈ s.editors[client]?, e.channel.isConnected ∧ ∃ doc, e.doc.apply edit = .ok doc
  | .event client place => ∀ t ∈ s.network.timelines[client]?, t.Ready place
  | .drain _ | .tick .. | .chance .. => True

instance (d : Doc) (edit : Edit) : Decidable (∃ doc, d.apply edit = .ok doc) :=
  decidable_of_iff (d.apply edit).isOk (by cases d.apply edit <;> simp [Except.isOk, Except.toBool])

instance (s : Simulation R) : (a : Act R) → Decidable (s.Allowed a)
  | .connect client =>
    (inferInstance : Decidable (∀ e ∈ s.editors[client]?, e.channel.isConnected = false))
  | .edit client edit => (inferInstance : Decidable (∀ e ∈ s.editors[client]?,
      e.channel.isConnected ∧ ∃ doc, e.doc.apply edit = .ok doc))
  | .event client place =>
    (inferInstance : Decidable (∀ t ∈ s.network.timelines[client]?, t.Ready place))
  | .drain _ | .tick .. | .chance .. => .isTrue trivial

/-! ### Every act keeps the invariant -/

/-- No editor did anything, and nothing reached the server. -/
structure Stays (s s' : Simulation R) : Prop where
  editors : s'.editors = s.editors
  history : s'.network.server.history = s.network.server.history
  submits : s'.network.server.stats.submits = s.network.server.stats.submits
  dropped : s'.network.server.stats.droppedBeforeApply = s.network.server.stats.droppedBeforeApply

/-- The editor of client `i` went from `e` to `e'`, and the server's history went on with it. -/
structure Turn (s : Simulation R) (i : Nat) (e e' : Editor R) (s' : Simulation R) : Prop where
  before : s.editors[i]? = some e
  after : s'.editors = s.editors.set i e'
  face : e'.face = e.face
  connection : e.channel.isConnected → e'.channel.connection = e.channel.connection
  advances : Advances e e' s.network.server s'.network.server

/-- What an act of client `i` leaves behind. -/
structure Stepped (faces : List (Nat × Session)) (s : Simulation R) (i : Nat)
    (Q : Editor R → Editor R → Prop) (s' : Simulation R) : Prop where
  inv : Inv faces s' quiet
  workload : s'.workload = s.workload
  turn : Stays s s' ∨ ∃ e e', Turn s i e e' s' ∧ Q e e'

/-- The editor made no edit, and plans what it planned. -/
def SamePlan (e e' : Editor R) : Prop := e'.made = e.made ∧ e'.nextEdit = e.nextEdit

section
variable {s s' : Simulation R} {i : Nat} {e : Editor R} {faces : List (Nat × Session)}
  {Q : Editor R → Editor R → Prop}

theorem Stays.refl (s : Simulation R) : Stays s s := ⟨rfl, rfl, rfl, rfl⟩

theorem Stepped.getElem?_ne (h : Stepped faces s i Q s') {j : Nat} (hj : i ≠ j) :
    s'.editors[j]? = s.editors[j]? := by
  rcases h.turn with hs | ⟨e, e', ht, -⟩
  · rw [hs.editors]
  · rw [ht.after, List.getElem?_set_ne hj]

theorem Inv.stepped (h : Inv faces s quiet) : Stepped faces s i Q s := ⟨h, rfl, .inl (.refl s)⟩

theorem Inv.attends_of_connected (h : Inv faces s quiet) (he : s.editors[i]? = some e)
    (hc : e.channel.isConnected) :
    ∃ t l tok p, s.network.timelines[i]? = some t ∧ s.network.server.links[i]? = some l ∧
      l.session = e.session ∧ l.connection = some tok ∧ p.history = s.network.server.history ∧
      Attends tok p l.lastDelivery t e [] := by
  obtain ⟨t, l, ht, hl, hses, ⟨tok, p, htok, hp, hatt⟩ | ⟨-, -, hidle, -⟩⟩ := h.clients i e he
  · exact ⟨t, l, tok, p, ht, hl, hses, htok, hp, hatt⟩
  · rw [hidle.channel] at hc; cases hc

/-- The server's facts that the next delivery rests on. -/
theorem Inv.handle (h : Inv faces s quiet) (he : s.editors[i]? = some e) {tok : Token} {p : Standing}
    {last n : Nat} {t t' : Timeline CharOp} {ev : Event CharOp}
    (hatt : Attends tok p last t e []) (hp : p.history = s.network.server.history) (hr : t.Ready n)
    (hev : t.pick n = some (ev, t')) :
    (e.channel.handle CharOp.transform ev).Yields fun r => ∃ p' k, p'.history = p.history ∧
      Channel.Settles tok p p' e.replica e.channel k r ∧
      Attends tok p' last t' { e with channel := r.1 } r.2 :=
  hatt.handle hr hev (hp ▸ h.server.replay) (fun k d hk => h.server.numbered k d (hp ▸ hk))
    fun _ hd hne => h.foreign he (hp ▸ hd) hne

theorem Inv.drain (h : Inv faces s quiet) (he : s.editors[i]? = some e) :
    Stepped faces s i SamePlan (s.withEditor i e.drain) := by
  obtain ⟨t, l, ht, hl, hses, hcl⟩ := h.clients i e he
  rcases hcl with ⟨tok, p, htok, hp, hatt⟩ | ⟨hnone, howed, hidle, habs⟩
  · obtain ⟨hatt', doc, hdoc, hdrain⟩ := hatt.drain
    rw [hdrain] at hatt' ⊢
    refine ⟨only_nil (i := i) ▸ h.turn he rfl rfl (fun _ _ => rfl) rfl ht hl
      ⟨hses, .inl ⟨tok, p, htok, hp, hatt'⟩⟩, rfl, .inr ⟨e, _, ⟨he, rfl, rfl, fun _ => rfl, ?_⟩, rfl, rfl⟩⟩
    exact .inl ⟨rfl, rfl, rfl, rfl, fun hu hun => ⟨hu, hun, rfl⟩⟩
  · have hdrain : e.drain = e := by
      have hnot : e.channel.isConnected = false := by rw [hidle.channel]; rfl
      unfold Editor.drain
      rw [show e.channel.receiveAll = ([], e.channel) from if_neg (by simp [hnot])]
      rfl
    obtain ⟨hlt, hget⟩ := List.getElem?_eq_some_iff.1 he
    have hsame : s.withEditor i e.drain = s := by
      unfold withEditor
      rw [hdrain, ← hget, List.set_getElem_self]
    rw [hsame]
    exact h.stepped

theorem Inv.tick (h : Inv faces s quiet) (time : Nat) :
    Stepped faces s i Q { s with network := s.network.modify i (·.advanceTo time) } := by
  refine ⟨⟨h.cast, h.sites, h.sessions, h.server, h.authors, fun j e he => ?_⟩, rfl,
    .inl ⟨rfl, rfl, rfl, rfl⟩⟩
  obtain ⟨t, l, ht, hl, hses, hcl⟩ := h.clients j e he
  by_cases hij : i = j
  · refine ⟨t.advanceTo time, l, ?_, hl, hses, ?_⟩
    · show (s.network.timelines.modify i _)[j]? = _
      rw [hij, List.getElem?_modify_eq, ht]; rfl
    · rcases hcl with ⟨tok, p, htok, hp, hatt⟩ | ⟨hnone, howed, hidle, habs⟩
      · exact .inl ⟨tok, p, htok, hp, hatt.advanceTo⟩
      · exact .inr ⟨hnone, howed, ⟨hidle.channel, hidle.doc, hidle.made, hidle.acked, hidle.errors,
          hidle.sound.advanceTo, hidle.mail⟩, habs⟩
  · refine ⟨t, l, ?_, hl, hses, hcl⟩
    show (s.network.timelines.modify i _)[j]? = _
    rw [List.getElem?_modify_ne _ _ hij, ht]

theorem Inv.chance (h : Inv faces s quiet) (faults : Server.Faults) (random : R) :
    Stepped faces s i Q { s with network := { s.network with
      server := { s.network.server with faults, random } } } :=
  ⟨⟨h.cast, h.sites, h.sessions,
    ⟨h.server.replay, h.server.numbered, h.server.applied, h.server.rejected⟩, h.authors, h.clients⟩,
    rfl, .inl ⟨rfl, rfl, rfl, rfl⟩⟩

end

variable [RandomSource R] {s : Simulation R} {i : Nat} {e : Editor R} {faces : List (Nat × Session)}

/-- Any event that waits, but no delivery out of turn. -/
theorem Inv.take (h : Inv faces s quiet) {n : Nat}
    (hr : ∀ t, s.network.timelines[i]? = some t → t.Ready n) :
    (s.take i n).Yields (Stepped faces s i SamePlan) := by
  unfold Simulation.take
  cases he : s.editors[i]? with
  | none => exact h.stepped
  | some e =>
    obtain ⟨t, l, ht, hl, hses, hcl⟩ := h.clients i e he
    rw [ht]; dsimp only
    cases hev : t.pick n with
    | none => exact h.stepped
    | some r =>
      obtain ⟨ev, t'⟩ := r
      rcases hcl with ⟨tok, p, htok, hp, hatt⟩ | ⟨-, -, hidle, -⟩
      · refine (h.handle he hatt hp (hr t ht) hev).bind fun r hr => ?_
        obtain ⟨p', k, hh, hs, hatt'⟩ := hr
        have hti : (s.network.timelines.set i t')[i]? = some t' :=
          List.getElem?_set_self (List.getElem?_eq_some_iff.1 ht).1
        have hsettle : (Simulation.settle { s with network := { s.network with
            timelines := s.network.timelines.set i t' } } i e r).Yields _ :=
          h.settle he rfl rfl (fun j hj => List.getElem?_set_ne (Ne.symm hj)) rfl hti hl hses htok
            (hh.trans hp) hatt'
        refine hsettle.mono fun s' hs' => ?_
        obtain ⟨hinv, hrep, hwork, acked, remoteOps, backoff, hed⟩ := hs'
        have hbooks := hatt.keeps.books
        refine ⟨hinv, hwork, .inr ⟨e, _, ⟨he, hed, rfl, fun _ => ?_, ?_⟩, rfl, rfl⟩⟩
        · exact hs.1.books.connection.trans hbooks.connection.symm
        · exact advances_of_settles hs hp (hh.trans hp) hbooks.tracks.revision rfl rfl rfl hrep
      · -- nothing waits for a client that never connected
        rw [hidle.pick_eq_none] at hev; cases hev

theorem Inv.author (h : Inv faces s quiet) (he : s.editors[i]? = some e) {s₁ : Simulation R}
    {e₁ : Editor R} {t : Timeline CharOp} {l : Server.Link} {tok : Token} {p : Standing}
    (hed : s₁.editors = s.editors) (hsv : s₁.network.server = s.network.server)
    (htj : ∀ j, j ≠ i → s₁.network.timelines[j]? = s.network.timelines[j]?)
    (hface : e₁.face = e.face) (ht : s₁.network.timelines[i]? = some t)
    (hl : s.network.server.links[i]? = some l) (hses : l.session = e.session)
    (htok : l.connection = some tok) (hp : p.history = s.network.server.history)
    (hatt : Attends tok p l.lastDelivery t e₁ []) {edit : Edit} {doc : Doc}
    (hd : e₁.doc.apply edit = .ok doc) :
    (s₁.author i e₁ edit).Yields fun s' => Inv faces s' quiet ∧ s'.workload = s₁.workload ∧
      ∃ e', s'.editors = s.editors.set i e' ∧ e'.face = e.face ∧
        e'.channel.connection = e₁.channel.connection ∧ e'.made = e₁.made + 1 ∧
        e'.nextEdit = e₁.nextEdit ∧ Advances e₁ e' s.network.server s'.network.server := by
  unfold Simulation.author
  dsimp only
  rw [hd]
  refine (hatt.send hd).bind fun r hr => ?_
  obtain ⟨answer, r⟩ := r
  obtain ⟨rfl, hs, hatt'⟩ := hr
  have hsettle := h.settle he hed hsv htj
    (show Editor.face { e₁ with made := e₁.made + 1, doc } = e.face from hface) ht hl hses htok hp hatt'
  refine hsettle.bind fun s' hs' => ?_
  obtain ⟨hinv, hrep, hwork, acked, remoteOps, backoff, hed'⟩ := hs'
  have hsession : e.session = e₁.session := (congrArg Prod.snd hface).symm
  have hbooks := hatt.keeps.books
  refine ⟨hinv, hwork, _, hed', hface, hs.1.books.connection.trans hbooks.connection.symm, rfl, rfl, ?_⟩
  exact advances_of_settles hs hp hp hbooks.tracks.revision rfl rfl rfl (hsession ▸ hrep)

omit [RandomSource R] in
theorem connect_pristine (session : Session) : ({} : Channel CharOp).connect .zero session =
    .ok (.ok (), joined session, [.resetBackoff, .subscribe ⟨1⟩ .zero]) := rfl

theorem perform_resetBackoff {t : Timeline CharOp} {l : Server.Link} (he : s.editors[i]? = some e)
    (ht : s.network.timelines[i]? = some t) (hl : s.network.server.links[i]? = some l) :
    (s.perform i .resetBackoff).Yields fun s' => ∃ backoff,
      s'.editors = s.editors.set i { e with backoff } ∧ s'.workload = s.workload ∧
        s'.network.server = s.network.server ∧
        ∀ j : Nat, s'.network.timelines[j]? = s.network.timelines[j]? := by
  have hserve : ∀ now, (s.network.server.serve i now .resetBackoff).Yields fun o =>
      o = ([], s.network.server) := by
    intro now
    unfold Server.serve
    rw [hl]; rfl
  refine (perform_yields he ht hserve).mono fun s' hs' => ?_
  obtain ⟨t', backoff, o, hlead, rfl, hed, hsv, hwork, htl⟩ := hs'
  obtain rfl : t' = t := hlead
  refine ⟨backoff, hed, hwork, hsv, fun j => ?_⟩
  have hid : ∀ x : Option (Timeline CharOp), x.map (·.deliverAll (Server.route j [])) = x := by
    rintro (_ | x) <;> rfl
  rw [htl, hid]
  by_cases hj : i = j
  · subst hj; rw [if_pos rfl, ht]
  · rw [if_neg hj]

theorem perform_subscribe {t : Timeline CharOp} {l : Server.Link} (he : s.editors[i]? = some e)
    (ht : s.network.timelines[i]? = some t) (hl : s.network.server.links[i]? = some l) (token : Token) :
    (s.perform i (.subscribe token .zero)).Yields fun s' => ∃ backoff posts,
      s'.editors = s.editors.set i { e with backoff } ∧ s'.workload = s.workload ∧
        Server.SameRecord s.network.server s'.network.server ∧
        (∀ j : Nat, s'.network.timelines[j]? =
          s.network.timelines[j]?.map (·.deliverAll (Server.route j posts))) ∧
        ∀ j, Server.Feeds j (if j = i then s.network.server.history else []) { s.network.server with
          links := s.network.server.links.set i ⟨l.session, some token, t.now⟩ } posts
          s'.network.server := by
  have hserve : ∀ now, (s.network.server.serve i now (.subscribe token .zero)).Yields fun o =>
      Server.SameRecord s.network.server o.2 ∧ ∀ j, Server.Feeds j
        (if j = i then s.network.server.history else [])
        { s.network.server with
          links := s.network.server.links.set i ⟨l.session, some token, now⟩ } o.1 o.2 := by
    intro now
    unfold Server.serve
    rw [hl]
    exact Server.subscribe_yields
  refine (perform_yields he ht hserve).mono fun s' hs' => ?_
  obtain ⟨t', backoff, o, hlead, ⟨hsame, hfeeds⟩, hed, hsv, hwork, htl⟩ := hs'
  obtain rfl : t' = t := hlead
  refine ⟨backoff, o.1, hed, hwork, hsv ▸ hsame, fun j => ?_, hsv ▸ hfeeds⟩
  rw [htl]
  by_cases hj : i = j
  · subst hj; rw [if_pos rfl, ht]
  · rw [if_neg hj]

theorem settle_joined {t : Timeline CharOp} {l : Server.Link} (he : s.editors[i]? = some e)
    (ht : s.network.timelines[i]? = some t) (hl : s.network.server.links[i]? = some l) :
    (s.settle i e (joined e.session, [.resetBackoff, .subscribe ⟨1⟩ .zero])).Yields fun s' =>
      ∃ backoff posts, s'.editors = s.editors.set i { e with channel := joined e.session, backoff } ∧
        s'.workload = s.workload ∧ Server.SameRecord s.network.server s'.network.server ∧
        (∀ j : Nat, s'.network.timelines[j]? =
          s.network.timelines[j]?.map (·.deliverAll (Server.route j posts))) ∧
        ∀ j, Server.Feeds j (if j = i then s.network.server.history else []) { s.network.server with
          links := s.network.server.links.set i ⟨l.session, some ⟨1⟩, t.now⟩ } posts
          s'.network.server := by
  let s₀ := s.withEditor i { e with channel := joined e.session }
  have hlt := (List.getElem?_eq_some_iff.1 he).1
  have he₀ : s₀.editors[i]? = some { e with channel := joined e.session } := List.getElem?_set_self hlt
  show ((s₀.perform i .resetBackoff) >>= fun s₁ => s₁.perform i (.subscribe ⟨1⟩ .zero) >>= pure).Yields _
  refine (perform_resetBackoff he₀ ht hl).bind fun s₁ h₁ => ?_
  obtain ⟨backoff₁, hed₁, hwork₁, hsv₁, htl₁⟩ := h₁
  have he₁ : s₁.editors[i]? = some { e with channel := joined e.session, backoff := backoff₁ } := by
    rw [hed₁]; exact List.getElem?_set_self (List.getElem?_eq_some_iff.1 he₀).1
  refine (perform_subscribe he₁ ((htl₁ i).trans ht) (hsv₁ ▸ hl) ⟨1⟩).bind fun s₂ h₂ => ?_
  obtain ⟨backoff₂, posts, hed₂, hwork₂, hsame, htl₂, hfeeds⟩ := h₂
  rw [hsv₁] at hsame hfeeds
  refine ⟨backoff₂, posts, ?_, hwork₂.trans hwork₁, hsame, fun j => by rw [htl₂, htl₁]; rfl, hfeeds⟩
  rw [hed₂, hed₁, List.set_set]
  exact List.set_set _

theorem Inv.connect (h : Inv faces s quiet)
    (hn : ∀ e, s.editors[i]? = some e → e.channel.isConnected = false) :
    (s.connect i).Yields fun s' => Stepped faces s i SamePlan s' ∧
      ∀ e', s'.editors[i]? = some e' → e'.channel.isConnected := by
  unfold Simulation.connect
  cases he : s.editors[i]? with
  | none => exact ⟨h.stepped, fun e' he' => by rw [he] at he'; cases he'⟩
  | some e =>
    obtain ⟨t, l, ht, hl, hses, hcl⟩ := h.clients i e he
    have hdis := hn e he
    rcases hcl with ⟨tok, p, -, -, hatt⟩ | ⟨hnone, -, hidle, habs⟩
    · have := hatt.keeps.books.isSome
      rw [show e.channel.connection.isSome = false from hdis] at this
      cases this
    · -- the client was never connected, so all of the history is new to it
      dsimp only
      rw [hidle.channel, connect_pristine]
      refine (settle_joined he ht hl).mono fun s' hs' => ?_
      obtain ⟨backoff, posts, hed, hwork, ⟨hhist, hdoc, hstats, -⟩, htl, hfeeds⟩ := hs'
      have hlt : i < s.network.server.links.length := (List.getElem?_eq_some_iff.1 hl).1
      obtain ⟨last', hl', hclimb⟩ := hfeeds i _ (List.getElem?_set_self hlt)
      rw [if_pos rfl] at hclimb
      refine ⟨⟨?_, hwork, .inr ⟨e, _, ⟨he, hed, rfl, fun hc => ?_, ?_⟩, rfl, rfl⟩⟩, fun e' he' => ?_⟩
      · rw [← only_nil (i := i)] at h ⊢
        refine h.step [] posts he hed rfl ?_ ?_ (List.forall_mem_nil _) ?_ fun j hj => ⟨htl j, ?_⟩
        · exact ⟨by rw [hhist, hdoc]; exact h.server.replay, by rw [hhist]; exact h.server.numbered,
            by rw [hstats, hhist]; exact h.server.applied, by rw [hstats]; exact h.server.rejected⟩
        · rw [hhist, List.append_nil]
        · refine ⟨_, ⟨l.session, some ⟨1⟩, last'⟩, by rw [htl, ht]; rfl, hl', hses,
            .inl ⟨⟨1⟩, ⟨[], [], _⟩, rfl, ?_, hidle.connected habs hclimb backoff⟩⟩
          rw [hhist]; rfl
        · intro l' hl'
          have := hfeeds j l' (by rw [List.getElem?_set_ne (Ne.symm hj)]; exact hl')
          rwa [if_neg hj] at this
      · rw [hdis] at hc; cases hc
      · refine .inl ⟨hhist, by rw [hstats], by rw [hstats], ?_, fun hu => absurd rfl hu⟩
        rw [hidle.channel]; rfl
      · rw [hed, List.getElem?_set_self (List.getElem?_eq_some_iff.1 he).1] at he'
        cases he'; rfl

def Act.client : Act R → Nat
  | .connect client | .edit client _ | .drain client | .event client _ | .tick client _ => client
  | .chance .. => 0

/-- Whatever happens next, the invariant holds after it, unless a number leaves its range. -/
theorem Inv.act (h : Inv faces s quiet) {a : Act R} (ha : s.Allowed a) :
    (s.act a).Yields (Stepped faces s a.client fun _ _ => True) := by
  have weaken : ∀ {i} {Q : Editor R → Editor R → Prop} {s'}, Stepped faces s i Q s' →
      Stepped faces s i (fun _ _ => True) s' := fun hs =>
    ⟨hs.inv, hs.workload, hs.turn.imp_right fun ⟨e, e', ht, _⟩ => ⟨e, e', ht, trivial⟩⟩
  cases a with
  | connect client => exact (h.connect ha).mono fun s' hs' => weaken hs'.1
  | drain client =>
    unfold Simulation.act; dsimp only
    cases he : s.editors[client]? with
    | none => exact h.stepped
    | some e => exact weaken (h.drain he)
  | event client place => exact (h.take ha).mono fun s' hs' => weaken hs'
  | tick client time => exact h.tick time
  | chance faults random => exact h.chance faults random
  | edit client edit =>
    unfold Simulation.act; dsimp only
    cases he : s.editors[client]? with
    | none => exact h.stepped
    | some e =>
      obtain ⟨hcon, doc, hd⟩ := ha e he
      obtain ⟨t, l, tok, p, ht, hl, hses, htok, hp, hatt⟩ := h.attends_of_connected he hcon
      refine (h.author he rfl rfl (fun _ _ => rfl) rfl ht hl hses htok hp hatt hd).mono fun s' hs' => ?_
      obtain ⟨hinv, hwork, e', hed, hface, hconn, -, -, hadv⟩ := hs'
      exact ⟨hinv, hwork, .inr ⟨e, e', ⟨he, hed, hface, fun _ => hconn, hadv⟩, trivial⟩⟩

end CoEdit.Simulation
