import CoEdit.Proofs.AllOrNothing

/-!
# No gap and no repetition

What leaves a client's timeline over one connection are the operations that follow the revision at which
the connection was opened, in the order of the history, however long anything travels.

The order rests on two things. Within a connection no delivery is due earlier than the ones before it, or
the clock has passed it already (`Timeline.DueBy`), so a timeline puts it behind them. And whatever else
happens leaves the deliveries over the connection as they are (`Flows`): other clients' clocks, responses
and tasks, deliveries over other connections. So what was taken and what waits are, taken together, the
history from that revision on as long as the connection is open, and a part of it from the beginning on
for ever (`Streams`).
-/

namespace CoEdit

variable {M : Type}

/-- What a delivery over connection `tok` brings. -/
def Event.carried? (tok : Token) : Event M → Option (Except ServiceError (Delivery M))
  | incoming connection message => if connection = tok then some message else none
  | _ => none

theorem Event.carried?_of_delivery {tok : Token} {x : Event M} (h : x.delivery? = none) :
    x.carried? tok = none := by
  cases x with
  | incoming connection message => cases h
  | _ => rfl

namespace Timeline

/-- What waits over connection `tok`. -/
def carried (tok : Token) (t : Timeline M) : List (Except ServiceError (Delivery M)) :=
  t.mail.filterMap (Event.carried? tok)

/-- No delivery over connection `tok` is due later than `last` or the clock. -/
def DueBy (tok : Token) (last : Nat) (t : Timeline M) : Prop :=
  ∀ e ∈ t.entries, (e.event.carried? tok).isSome → e.slot.due ≤ max last t.now

variable {t t' : Timeline M} {tok id : Token} {last last' due : Nat} {x : Event M}
  {y : Except ServiceError (Delivery M)}

theorem carried_deliverAt (h : t.Sound) (hx : x.carried? tok = none) :
    (t.deliverAt due x).carried tok = t.carried tok := by
  obtain ⟨before, behind, h₁, h₂⟩ := mail_deliverAt due x h
  simp [carried, h₁, h₂, List.filterMap_append, hx]

theorem carried_deliver (h : t.Sound) (hd : t.DueBy tok last) (hdue : last ≤ due)
    (hx : x.carried? tok = some y) : (t.deliverAt due x).carried tok = t.carried tok ++ [y] := by
  obtain ⟨before, behind, hes, hp, -, hg⟩ :=
    place_split (e := ⟨⟨max due t.now, t.count⟩, x⟩) h.sorted
  have hbehind : behind.filterMap (·.event.carried? tok) = [] := by
    refine List.filterMap_eq_nil_iff.2 fun f hf => ?_
    cases ho : f.event.carried? tok with
    | none => rfl
    | some z =>
      have h₁ := hd f (by simp [hes, hf]) (by simp [ho])
      have h₂ : max due t.now < f.slot.due := hg f hf
      omega
  simp only [carried, mail, List.filterMap_map, Function.comp_def]
  show (place _ t.entries).filterMap _ = _
  rw [hp, hes, List.filterMap_append, List.filterMap_append, List.filterMap_cons, hbehind]
  simp [hx]

theorem DueBy.deliverAt (h : t.DueBy tok last) (hs : t.Sound) (hlast : last ≤ last')
    (hx : (x.carried? tok).isSome → due ≤ last') : (t.deliverAt due x).DueBy tok last' := by
  intro e he ho
  show e.slot.due ≤ max last' t.now
  rcases (mem_place hs.sorted).1 he with rfl | he
  · have := hx ho
    dsimp only
    omega
  · have := h e he ho
    omega

theorem carried_advance (h : t.advance = some (x, t')) :
    t.carried tok = (x.carried? tok).toList ++ t'.carried tok := by
  rw [advance_eq_pick] at h
  obtain ⟨-, behind, hm, hm'⟩ := mail_pick h
  rw [carried, hm, carried, hm', List.take_zero, List.nil_append, List.nil_append, List.filterMap_cons]
  cases x.carried? tok <;> rfl

theorem DueBy.advance (h : t.DueBy tok last) (ht : t.advance = some (x, t')) : t'.DueBy tok last := by
  rw [advance_eq_pick] at ht
  obtain ⟨e', -, -, rfl⟩ := pick_eq_some_iff.1 ht
  intro e he ho
  have := h e (List.mem_of_mem_eraseIdx he) ho
  dsimp only
  omega

theorem Sound.advance (h : t.Sound) (ht : t.advance = some (x, t')) : t'.Sound := by
  rw [advance_eq_pick] at ht
  exact h.pick ht

theorem carried_cancel (h : t.Sound) : (t.cancel id).carried tok = t.carried tok := by
  obtain ⟨keep, hes, hk⟩ := h.cancel_entries id
  simp only [carried, mail, hes, List.filterMap_map, List.filterMap_filter]
  refine List.filterMap_congr fun e he => ?_
  cases hkeep : keep e with
  | true => rfl
  | false =>
    obtain ⟨kind, hkind⟩ := hk e he hkeep
    simp [hkind, Event.carried?]

theorem DueBy.cancel (h : t.DueBy tok last) (hs : t.Sound) : (t.cancel id).DueBy tok last := by
  obtain ⟨keep, hes, -⟩ := hs.cancel_entries id
  have hnow : (t.cancel id).now = t.now := by unfold Timeline.cancel; split <;> rfl
  intro e he ho
  rw [hes] at he
  rw [hnow]
  exact h e (List.mem_filter.1 he).1 ho

theorem DueBy.advanceTo (h : t.DueBy tok last) {time : Nat} : (t.advanceTo time).DueBy tok last := by
  intro e he ho
  have := h e he ho
  show e.slot.due ≤ max last (max t.now time)
  omega

end Timeline

section
variable {tok tok' : Token} {last last' : Nat} {posts : List (Nat × Event CharOp)}
  {ds : List (Delivery CharOp)} {t : Timeline CharOp}

theorem Climbs.carried (h : Climbs tok last posts ds last') (hs : t.Sound) (hd : t.DueBy tok last) :
    (t.deliverAll posts).Sound ∧ (t.deliverAll posts).DueBy tok last' ∧
      (t.deliverAll posts).carried tok = t.carried tok ++ ds.map .ok := by
  induction h generalizing t with
  | nil => exact ⟨hs, hd, by simp [Timeline.deliverAll]⟩
  | @cons last due last' posts d ds hdue _ ih =>
    have hx : (Event.incoming tok (.ok d) : Event CharOp).carried? tok = some (.ok d) := if_pos rfl
    obtain ⟨h₁, h₂, h₃⟩ := ih hs.deliverAt (hd.deliverAt hs hdue fun _ => Nat.le_refl _)
    refine ⟨h₁, h₂, h₃.trans ?_⟩
    rw [Timeline.carried_deliver hs hd hdue hx, List.append_assoc]
    rfl

theorem Climbs.carried_of_ne (h : Climbs tok' last posts ds last') (hne : tok' ≠ tok) (hs : t.Sound) :
    (t.deliverAll posts).Sound ∧ (t.deliverAll posts).carried tok = t.carried tok := by
  induction h generalizing t with
  | nil => exact ⟨hs, rfl⟩
  | @cons last due last' posts d ds hdue _ ih =>
    have hx : (Event.incoming tok' (.ok d) : Event CharOp).carried? tok = none := if_neg hne
    obtain ⟨h₁, h₂⟩ := ih (t := t.deliverAt due (.incoming tok' (.ok d))) hs.deliverAt
    exact ⟨h₁, h₂.trans (Timeline.carried_deliverAt hs hx)⟩

end

theorem Server.Accounted.numbered_prefix {R : Type} {s : Server R} {k r : Nat}
    {ds : List (Delivery CharOp)} (h : s.Accounted k) (hds : ds <+: s.history.drop r) :
    ds.map (·.revision.number) = List.range' (r + 1) ds.length ∧
      ∀ d ∈ ds, s.history[d.revision.number - 1]? = some d := by
  have hplace : ∀ (k : Nat) (hk : k < ds.length), s.history[r + k]? = some ds[k] ∧
      ds[k].revision.number = r + k + 1 := by
    intro k hk
    have hget := List.prefix_iff_getElem?.1 hds k hk
    rw [List.getElem?_drop] at hget
    exact ⟨hget, h.numbered _ _ hget⟩
  constructor
  · refine List.ext_getElem (by simp) fun k hk hk' => ?_
    rw [List.length_map] at hk
    rw [List.getElem_map, (hplace k hk).2, List.getElem_range']
    omega
  · intro d hmem
    obtain ⟨k, hk, rfl⟩ := List.mem_iff_getElem.1 hmem
    obtain ⟨hget, hrev⟩ := hplace k hk
    rwa [hrev, Nat.add_sub_cancel]

namespace Network

variable {tok : Token} {l l' : Server.Link} {t t' : Timeline CharOp}
  {ds : List (Delivery CharOp)} {out got : List (Except ServiceError (Delivery CharOp))}

/-- The deliveries over connection `tok` stand in order as long as it is open. -/
structure InLine (tok : Token) (l : Server.Link) (t : Timeline CharOp) : Prop where
  sound : t.Sound
  due : l.connection = some tok → t.DueBy tok l.lastDelivery

/-- A client's link and timeline move on, the history by `ds`: of what waits over `tok`, `out` is taken,
and `ds` is put behind it if the connection was open. -/
structure Flows (tok : Token) (ds : List (Delivery CharOp)) (l : Server.Link) (t : Timeline CharOp)
    (out : List (Except ServiceError (Delivery CharOp))) (l' : Server.Link) (t' : Timeline CharOp) :
    Prop where
  inLine : InLine tok l' t'
  closed : l.connection ≠ some tok → l'.connection ≠ some tok ∧ t.carried tok = out ++ t'.carried tok
  opened : l.connection = some tok → t.carried tok ++ ds.map .ok = out ++ t'.carried tok

theorem InLine.stays (h : InLine tok l t) : Flows tok [] l t [] l t :=
  ⟨h, fun hc => ⟨hc, rfl⟩, fun _ => List.append_nil _⟩

theorem Flows.deliverAt (h : Flows tok ds l t out l' t') {due : Nat} {x : Event CharOp}
    (hx : x.carried? tok = none) : Flows tok ds l t out l' (t'.deliverAt due x) := by
  have hcarried : (t'.deliverAt due x).carried tok = t'.carried tok :=
    Timeline.carried_deliverAt h.inLine.sound hx
  refine ⟨⟨h.inLine.sound.deliverAt, fun hc => ?_⟩, by rw [hcarried]; exact h.closed,
    by rw [hcarried]; exact h.opened⟩
  exact (h.inLine.due hc).deliverAt h.inLine.sound (Nat.le_refl _) (by simp [hx])

theorem InLine.fed (h : InLine tok l t) {last' : Nat} {posts : List (Nat × Event CharOp)}
    (hc : match l.connection with
      | some tok' => Climbs tok' l.lastDelivery posts ds last'
      | none => posts = []) :
    Flows tok ds l t [] { l with lastDelivery := last' } (t.deliverAll posts) := by
  obtain ⟨session, _ | tok', last⟩ := l
  · obtain rfl : posts = [] := hc
    exact ⟨⟨h.sound, nofun⟩, fun hc => ⟨hc, rfl⟩, nofun⟩
  · by_cases htok : tok' = tok
    · subst htok
      obtain ⟨h₁, h₂, h₃⟩ := Climbs.carried hc h.sound (h.due rfl)
      exact ⟨⟨h₁, fun _ => h₂⟩, fun hc => absurd rfl hc, fun _ => h₃.symm⟩
    · obtain ⟨h₁, h₂⟩ := Climbs.carried_of_ne hc htok h.sound
      have hne : some tok' ≠ some tok := fun heq => htok (Option.some.inj heq)
      exact ⟨⟨h₁, fun hc => absurd hc hne⟩, fun _ => ⟨hne, h₂.symm⟩, fun hc => absurd hc hne⟩

theorem Flows.of_closed {l₀ : Server.Link} (h : Flows tok ds l₀ t out l' t')
    (hl : l₀.connection ≠ some tok) : Flows tok [] l t out l' t' :=
  have hc := h.closed hl
  ⟨h.inLine, fun _ => hc, fun _ => (List.append_nil _).trans hc.2⟩

/-! ### What an act does to a client -/

/-- The connection that an act of client `i` opens. -/
def Act.opened? (i : Nat) : Act → Option Token
  | subscribe client _ connection _ => if client = i then some connection else none
  | _ => none

/-- The act closes or replaces the connection of client `i`. -/
def Act.closes (i : Nat) (a : Act) : Prop := (a.opened? i).isSome ∨ a = .unsubscribe i

instance (i : Nat) (a : Act) : Decidable (a.closes i) :=
  inferInstanceAs (Decidable (_ ∨ _))

/-- What is taken off the timeline of client `i` over connection `tok`. -/
def Turn.received? (i : Nat) (tok : Token) (turn : Turn) :
    Option (Except ServiceError (Delivery CharOp)) :=
  if turn.act = .advance i then turn.taken.bind (Event.carried? tok) else none

variable {R : Type} [RandomSource R] {n n' n₀ n₁ : Network R} {a : Act} {turn : Turn} {log : List Turn}
  {i : Nat}

/-- `n'` comes after `n`, where client `i` has link `l` and timeline `t`: of what waits over `tok`, `out`
is taken, and what the history goes on by is put behind the rest. The client keeps its connection unless
it `closes` it. -/
def Continues (tok : Token) (i : Nat) (l : Server.Link) (t : Timeline CharOp)
    (out : List (Except ServiceError (Delivery CharOp))) (closes : Prop) (n n' : Network R) : Prop :=
  ∃ ds l' t', n'.timelines[i]? = some t' ∧ n'.server.links[i]? = some l' ∧
    n'.server.history = n.server.history ++ ds ∧ Flows tok ds l t out l' t' ∧
    (¬ closes → l'.connection = l.connection)

omit [RandomSource R] in
theorem InLine.relayed {s s' : Server R} {posts : List Server.Posting} (h : InLine tok l t)
    (hl : s.links[i]? = some l) (hf : Server.Feeds i ds s posts s') :
    ∃ l', s'.links[i]? = some l' ∧ l'.connection = l.connection ∧
      Flows tok ds l t [] l' (t.deliverAll (Server.route i posts)) := by
  obtain ⟨last', hl', hc⟩ := hf l hl
  exact ⟨_, hl', rfl, h.fed hc⟩

omit [RandomSource R] in
theorem Flows.answered {relays : List Server.Posting} {client due : Nat} {response : Event CharOp}
    (h : Flows tok ds l t [] l' (t.deliverAll (Server.route i relays)))
    (hr : response.delivery? = none) :
    Flows tok ds l t [] l' (t.deliverAll (Server.route i (relays ++ [⟨client, due, response⟩]))) := by
  rw [Server.deliverAll_route_answer]
  split
  · exact h.deliverAt (Event.carried?_of_delivery hr)
  · exact h

section
variable {closes : Prop} {client : Nat} (ht : n.timelines[i]? = some t)
  (hl : n.server.links[i]? = some l) (h : InLine tok l t)

omit [RandomSource R] in
include hl in
theorem continues_timelines {ts : List (Timeline CharOp)} (ht' : ts[i]? = some t')
    (hflow : Flows tok [] l t out l t') :
    Continues tok i l t out closes n { n with timelines := ts } :=
  ⟨[], l, t', ht', hl, (List.append_nil _).symm, hflow, fun _ => rfl⟩

include ht hl h

omit [RandomSource R] in
theorem continues_modify {f : Timeline CharOp → Timeline CharOp}
    (hf : ∀ t, InLine tok l t → Flows tok [] l t [] l (f t)) :
    Continues tok i l t [] closes n (n.modify client f) := by
  have hmodify := modify_timelines (n := n) (j := i) (f := f) client
  rw [ht] at hmodify
  split at hmodify
  · exact continues_timelines hl hmodify (hf t h)
  · exact continues_timelines hl hmodify h.stays

omit [RandomSource R] in
theorem continues_attach {session : Session} :
    Continues tok i l t [] closes n (n.attach session) := by
  refine ⟨[], l, t, ?_, ?_, (List.append_nil _).symm, h.stays, fun _ => rfl⟩
  · exact (List.getElem?_append_left (List.getElem?_eq_some_iff.1 ht).1).trans ht
  · exact (List.getElem?_append_left (List.getElem?_eq_some_iff.1 hl).1).trans hl

omit [RandomSource R] in
theorem continues_unsubscribe : Continues tok i l t [] ((Act.unsubscribe client).closes i) n
    { n with server := n.server.unsubscribe client } := by
  have hnil := (List.append_nil n.server.history).symm
  by_cases hi : client = i
  · subst hi
    refine ⟨[], { l with connection := none }, t, ht, ?_, hnil, ⟨⟨h.sound, nofun⟩,
      fun _ => ⟨nofun, rfl⟩, fun _ => List.append_nil _⟩, fun hc => absurd (.inr rfl) hc⟩
    show (n.server.links.modify client _)[client]? = _
    rw [List.getElem?_modify_eq, hl]; rfl
  · refine ⟨[], l, t, ht, ?_, hnil, h.stays, fun _ => rfl⟩
    show (n.server.links.modify client _)[i]? = _
    rw [List.getElem?_modify_ne _ _ hi]; exact hl

theorem continues_advance (ha : n.Attached (.advance client))
    (hact : n.act (.advance client) = .ok (turn, n')) :
    Continues tok i l t (turn.received? i tok).toList closes n n' := by
  obtain ⟨t₁, ht₁⟩ := ha.exists_timeline rfl
  obtain ⟨rfl, rfl⟩ | ⟨event, t₂, hadv, rfl, rfl⟩ := act_advance hact ht₁
  · have hnone : Turn.received? i tok { act := .advance client } = none := by
      unfold Turn.received?; split <;> rfl
    rw [hnone]
    exact continues_timelines hl ht h.stays
  · by_cases hi : client = i
    · subst hi
      rw [ht] at ht₁; cases ht₁
      have hreceived : Turn.received? client tok { act := .advance client, taken := some event } =
          event.carried? tok := if_pos rfl
      rw [hreceived]
      have hadvance : t.carried tok = (event.carried? tok).toList ++ t₂.carried tok :=
        Timeline.carried_advance hadv
      refine continues_timelines hl (List.getElem?_set_self (List.getElem?_eq_some_iff.1 ht).1) ?_
      exact ⟨⟨h.sound.advance hadv, fun hc => (h.due hc).advance hadv⟩, fun hc => ⟨hc, hadvance⟩,
        fun _ => (List.append_nil _).trans hadvance⟩
    · have hnone : Turn.received? i tok { act := .advance client, taken := some event } = none :=
        if_neg fun heq => hi (Act.advance.inj heq)
      rw [hnone]
      exact continues_timelines hl ((List.getElem?_set_ne hi).trans ht) h.stays

theorem continues_subscribe {session : Session} {connection : Token} {revision : Revision}
    (hopen : (Act.subscribe client session connection revision).opened? i ≠ some tok)
    (hact : n.act (.subscribe client session connection revision) = .ok (turn, n')) :
    Continues tok i l t [] ((Act.subscribe client session connection revision).closes i) n n' := by
  obtain ⟨o, ⟨hhist, -, -, -⟩, -, hfeeds, rfl, rfl⟩ := act_subscribe hact
  have hhist' : o.2.history = n.server.history ++ [] := hhist.trans (List.append_nil _).symm
  refine ⟨[], ?_⟩
  rw [foldl_post_timelines, foldl_post_server, ht]
  by_cases hi : client = i
  · subst hi
    let l₀ : Server.Link := ⟨session, some connection, n.now client⟩
    have hne : l₀.connection ≠ some tok := by
      simpa only [Act.opened?, if_true] using hopen
    have hl₀ : (n.server.links.set client l₀)[client]? = some l₀ :=
      List.getElem?_set_self (List.getElem?_eq_some_iff.1 hl).1
    have h₀ : InLine tok l₀ t := ⟨h.sound, fun hc => absurd hc hne⟩
    obtain ⟨l', hl', -, hflow⟩ := h₀.relayed hl₀ (hfeeds client)
    refine ⟨l', _, rfl, hl', hhist', hflow.of_closed hne, fun hc => ?_⟩
    exact absurd (.inl (by simp [Act.opened?])) hc
  · have hl₀ : (n.server.links.set client ⟨session, some connection, n.now client⟩)[i]? = some l := by
      rw [List.getElem?_set_ne hi]; exact hl
    have hfeed := hfeeds i
    rw [if_neg (Ne.symm hi)] at hfeed
    obtain ⟨l', hl', hc, hflow⟩ := h.relayed hl₀ hfeed
    exact ⟨l', _, rfl, hl', hhist', hflow, fun _ => hc⟩

omit [RandomSource R] in
theorem continues_answer {o : Server.Outcome R} {relays : List Server.Posting} {due : Nat}
    {response : Event CharOp} (hposts : o.1 = relays ++ [⟨client, due, response⟩])
    (hr : response.delivery? = none) (hhist : o.2.history = n.server.history ++ ds)
    (hfeeds : Server.Feeds i ds n.server relays o.2) :
    Continues tok i l t [] closes n (o.1.foldl post { n with server := o.2 }) := by
  obtain ⟨l', hl', hc, hflow⟩ := h.relayed hl hfeeds
  refine ⟨ds, l', ?_⟩
  rw [foldl_post_timelines, foldl_post_server, ht, hposts]
  exact ⟨_, rfl, hl', hhist, hflow.answered hr, fun _ => hc⟩

/-- Unless it opens `tok` for client `i`, an act takes at most the next delivery over `tok` from the
client's timeline, and puts what the history goes on by behind the others. -/
theorem act_continues (ha : n.Attached a) (hact : n.act a = .ok (turn, n'))
    (hopen : a.opened? i ≠ some tok) :
    Continues tok i l t (turn.received? i tok).toList (a.closes i) n n' := by
  cases a with
  | attach session => cases hact; exact continues_attach ht hl h
  | unsubscribe client => cases hact; exact continues_unsubscribe ht hl h
  | schedule client due task =>
    cases hact
    exact continues_modify ht hl h fun t h => h.stays.deliverAt rfl
  | cancel client id =>
    cases hact
    exact continues_modify ht hl h fun t h =>
      ⟨⟨h.sound.cancel, fun hc => (h.due hc).cancel h.sound⟩,
        fun hc => ⟨hc, (Timeline.carried_cancel h.sound).symm⟩,
        fun _ => (List.append_nil _).trans (Timeline.carried_cancel h.sound).symm⟩
  | advanceTo client time =>
    cases hact
    exact continues_modify ht hl h fun t h =>
      ⟨⟨h.sound.advanceTo, fun hc => (h.due hc).advanceTo⟩, fun hc => ⟨hc, rfl⟩,
        fun _ => List.append_nil _⟩
  | advance client => exact continues_advance ht hl h ha hact
  | subscribe client session connection revision =>
    have hnone : turn.received? i tok = none := by rw [Turn.received?, turn_act hact, if_neg nofun]
    rw [hnone]
    exact continues_subscribe ht hl h hopen hact
  | probe client token =>
    obtain ⟨o, ho, rfl, rfl⟩ := act_probe hact
    obtain ⟨ms, -, -, hposts⟩ := ho.answer
    have hfeeds : Server.Feeds i [] n.server [] o.2 := .of_links ho.links rfl
    have hhist : o.2.history = n.server.history ++ [] := ho.history.trans (List.append_nil _).symm
    have hposts : o.1 = [] ++ [_] := hposts
    exact continues_answer ht hl h hposts rfl hhist hfeeds
  | submit client session token base ops =>
    obtain ⟨fate, o, hs, rfl, rfl⟩ := act_submit hact
    obtain ⟨relays, ms, -, -, hposts, hfeeds, -⟩ := hs.answer
    exact continues_answer ht hl h hposts rfl hs.history (hfeeds i)

end

/-- The connections that client `i` opened, the first one first. -/
def opened (i : Nat) (log : List Turn) : List Token := log.filterMap (·.act.opened? i)

/-- What was taken off the timeline of client `i` over connection `tok`, in this order. -/
def received (i : Nat) (tok : Token) (log : List Turn) :
    List (Except ServiceError (Delivery CharOp)) :=
  log.filterMap (·.received? i tok)

omit [RandomSource R] in
theorem received_append {log more : List Turn} :
    received i tok (log ++ more) = received i tok log ++ received i tok more :=
  List.filterMap_append

omit [RandomSource R] in
theorem received_singleton : received i tok [turn] = (turn.received? i tok).toList := by
  unfold received
  cases h : turn.received? i tok <;> simp [h]

/-- Client `i` is attached, and its connection `tok` was never opened. -/
structure Unopened (tok : Token) (l : Server.Link) (t : Timeline CharOp) : Prop where
  inLine : InLine tok l t
  closed : l.connection ≠ some tok
  carried : t.carried tok = []

/-- What was taken over a connection that was opened at revision `r`, with what waits, is the history from
there on if the connection is open, and the beginning of that if it is not. -/
structure Streams (tok : Token) (r : Nat) (got : List (Except ServiceError (Delivery CharOp)))
    (history : List (Delivery CharOp)) (l : Server.Link) (t : Timeline CharOp) : Prop where
  inLine : InLine tok l t
  reached : r ≤ history.length
  part : ∃ ds, ds <+: history.drop r ∧ got ++ t.carried tok = ds.map .ok
  whole : l.connection = some tok → got ++ t.carried tok = (history.drop r).map .ok

omit [RandomSource R] in
theorem Streams.flow {r : Nat} {history : List (Delivery CharOp)} (h : Streams tok r got history l t)
    (hf : Flows tok ds l t out l' t') : Streams tok r (got ++ out) (history ++ ds) l' t' := by
  have hreached : r ≤ (history ++ ds).length := by
    rw [List.length_append]
    exact Nat.le_add_right_of_le h.reached
  by_cases hl : l.connection = some tok
  · have hall : got ++ out ++ t'.carried tok = ((history ++ ds).drop r).map .ok := by
      rw [List.append_assoc, ← hf.opened hl, ← List.append_assoc, h.whole hl,
        List.drop_append_of_le_length h.reached, List.map_append]
    exact ⟨hf.inLine, hreached, ⟨_, List.prefix_refl _, hall⟩, fun _ => hall⟩
  · obtain ⟨hl', hcarried⟩ := hf.closed hl
    obtain ⟨es, hes, hpart⟩ := h.part
    refine ⟨hf.inLine, hreached, ⟨es, hes.trans ?_, ?_⟩, fun hc => absurd hc hl'⟩
    · rw [List.drop_append_of_le_length h.reached]
      exact List.prefix_append ..
    · rw [List.append_assoc, ← hcarried, hpart]

omit [RandomSource R] in
theorem Unopened.flow (h : Unopened tok l t) (hf : Flows tok ds l t out l' t') :
    Unopened tok l' t' ∧ out = [] := by
  obtain ⟨hl', hcarried⟩ := hf.closed h.closed
  rw [h.carried] at hcarried
  obtain ⟨hout, hcarried'⟩ := List.append_eq_nil_iff.1 hcarried.symm
  exact ⟨⟨hf.inLine, hl', hcarried'⟩, hout⟩

variable {faults : Server.Faults} {random : R}

omit [RandomSource R] in
theorem not_mem_opened (hact : turn.act = a) (h : tok ∉ opened i (log ++ [turn])) :
    tok ∉ opened i log ∧ a.opened? i ≠ some tok := by
  rw [opened, List.filterMap_append, List.mem_append, not_or] at h
  refine ⟨h.1, fun ha => h.2 ?_⟩
  rw [← hact] at ha
  simp [ha]

/-- As long as a client did not open a connection, nothing comes over it. -/
theorem Run.unopened (h : Run faults random log n) (htok : tok ∉ opened i log) :
    received i tok log = [] ∧ ∀ l t, n.server.links[i]? = some l → n.timelines[i]? = some t →
      Unopened tok l t := by
  unfold Run at h
  induction h with
  | refl => exact ⟨rfl, fun l t hl => absurd hl.symm (Option.some_ne_none _)⟩
  | @act log n n' a turn hrun ha hact ih =>
    have hturn := turn_act hact
    obtain ⟨hlog, hopen⟩ := not_mem_opened hturn htok
    obtain ⟨hnone, hunopened⟩ := ih hlog
    have hp : n.Paired := (hrun.frame rfl).1
    rw [received_append, received_singleton, hnone, List.nil_append]
    by_cases hi : i < n.timelines.length
    · have ht := List.getElem?_eq_getElem hi
      have hl := List.getElem?_eq_getElem (l := n.server.links) (hp ▸ hi)
      obtain ⟨ds, l', t', ht', hl', -, hflow, -⟩ :=
        act_continues ht hl (hunopened _ _ hl ht).inLine ha hact hopen
      obtain ⟨hun, hout⟩ := (hunopened _ _ hl ht).flow hflow
      refine ⟨hout, fun l₁ t₁ hl₁ ht₁ => ?_⟩
      rw [hl'] at hl₁; cases hl₁
      rw [ht'] at ht₁; cases ht₁
      exact hun
    · -- the client is just being attached, if at all
      have hidle : turn.received? i tok = none :=
        if_neg fun hadv => hi (ha i (by rw [← hturn, hadv]; rfl))
      refine ⟨by rw [hidle]; rfl, fun l t hl ht => ?_⟩
      obtain ⟨-, ⟨session, rfl⟩ | ⟨hlen, -⟩⟩ := act_frame ha hact
      · have hge := Nat.not_lt.1 hi
        obtain rfl : l = { session } := by
          rw [attach, List.getElem?_append_right (hp ▸ hge)] at hl
          exact (List.mem_singleton.1 (List.mem_of_getElem? hl))
        obtain rfl : t = {} := by
          rw [attach, List.getElem?_append_right hge] at ht
          exact (List.mem_singleton.1 (List.mem_of_getElem? ht))
        have hclosed : ({ session } : Server.Link).connection ≠ some tok :=
          (Option.some_ne_none _).symm
        exact ⟨⟨Timeline.sound_empty, fun hc => absurd hc hclosed⟩, hclosed, rfl⟩
      · exact absurd (hlen ▸ (List.getElem?_eq_some_iff.1 ht).1) hi

/-- A connection that is opened is caught up with the history. -/
theorem act_opens {session : Session} {r : Revision}
    (hact : n.act (.subscribe i session tok r) = .ok (turn, n')) (hr : r.number ≤ n.server.history.length)
    (ht : n.timelines[i]? = some t) (hl : n.server.links[i]? = some l) (h : Unopened tok l t) :
    ∃ l' t', n'.timelines[i]? = some t' ∧ n'.server.links[i]? = some l' ∧
      n'.server.history = n.server.history ∧ l'.connection = some tok ∧
      Streams tok r.number [] n'.server.history l' t' := by
  obtain ⟨o, ⟨hhist, -, -, -⟩, -, hfeeds, rfl, rfl⟩ := act_subscribe hact
  let l₀ : Server.Link := ⟨session, some tok, n.now i⟩
  have h₀ : InLine tok l₀ t := by
    refine ⟨h.inLine.sound, fun _ e he ho => ?_⟩
    have hnone := List.filterMap_eq_nil_iff.1 h.carried e.event (List.mem_map_of_mem he)
    rw [hnone] at ho; cases ho
  have hl₀ : (n.server.links.set i l₀)[i]? = some l₀ :=
    List.getElem?_set_self (List.getElem?_eq_some_iff.1 hl).1
  have hfeed := hfeeds i
  rw [if_pos rfl] at hfeed
  obtain ⟨l', hl', hc, hflow⟩ := h₀.relayed hl₀ hfeed
  have hall := (hflow.opened rfl).symm
  rw [h.carried, List.nil_append, List.nil_append] at hall
  rw [foldl_post_timelines, foldl_post_server, ht]
  refine ⟨l', _, rfl, hl', hhist, hc, hflow.inLine, hhist ▸ hr, ⟨_, ?_, hall⟩, fun _ => ?_⟩
  · exact ⟨[], by rw [List.append_nil, hhist]⟩
  · rw [hhist]
    exact hall

theorem Streams.steps {r : Nat} (h : n₁.Steps log n)
    (ht : n₁.timelines[i]? = some t) (hl : n₁.server.links[i]? = some l)
    (h₁ : Streams tok r [] n₁.server.history l t) (htok : tok ∉ opened i log) :
    ∃ l' t', n.timelines[i]? = some t' ∧ n.server.links[i]? = some l' ∧
      Streams tok r (received i tok log) n.server.history l' t' ∧
      ((∀ turn ∈ log, ¬ turn.act.closes i) → l'.connection = l.connection) := by
  induction h with
  | refl => exact ⟨l, t, ht, hl, h₁, fun _ => rfl⟩
  | @act log n n' a turn hrun ha hact ih =>
    have hturn := turn_act hact
    obtain ⟨hlog, hopen⟩ := not_mem_opened hturn htok
    obtain ⟨l', t', ht', hl', hs, hconn⟩ := ih hlog
    obtain ⟨ds, l'', t'', ht'', hl'', hhist, hflow, hconn'⟩ :=
      act_continues ht' hl' hs.inLine ha hact hopen
    refine ⟨l'', t'', ht'', hl'', ?_, fun hno => ?_⟩
    · rw [received_append, received_singleton, hhist]
      exact hs.flow hflow
    · rw [hconn' (hturn ▸ hno turn (by simp)), hconn fun turn hmem => hno turn (by simp [hmem])]

/-- Over a connection that was opened at revision `r` a client is given the operations `r + 1`, `r + 2`,
and so on, each as it stands in the history, and all of them if the connection stays open and nothing waits
any more. -/
theorem Run.gapless {before after : List Turn} {session : Session} {r : Revision}
    (h₀ : Run faults random before n₀) (ha : n₀.Attached (.subscribe i session tok r))
    (hact : n₀.act (.subscribe i session tok r) = .ok (turn, n₁)) (h₁ : n₁.Steps after n)
    (hr : r.number ≤ n₀.server.history.length) (hd : (opened i (before ++ turn :: after)).Nodup) :
    ∃ ds : List (Delivery CharOp), received i tok (before ++ turn :: after) = ds.map .ok ∧
      ds.map (·.revision.number) = List.range' (r.number + 1) ds.length ∧
      (∀ d ∈ ds, n.server.history[d.revision.number - 1]? = some d) ∧
      ((∀ turn ∈ after, ¬ turn.act.closes i) → n.pending i = 0 →
        r.number + ds.length = n.server.history.length) := by
  have hturn := turn_act hact
  have hopened : opened i (before ++ turn :: after) = opened i before ++ tok :: opened i after := by
    simp [opened, hturn, Act.opened?]
  rw [hopened] at hd
  obtain ⟨-, hafter, hdisj⟩ := List.nodup_append.1 hd
  have htok : tok ∉ opened i before := fun hmem => hdisj tok hmem tok (List.mem_cons_self ..) rfl
  obtain ⟨hp, -⟩ := h₀.frame rfl
  obtain ⟨t, ht⟩ := ha.exists_timeline rfl
  have hl := List.getElem?_eq_getElem (l := n₀.server.links) (hp ▸ (List.getElem?_eq_some_iff.1 ht).1)
  obtain ⟨hnone, hunopened⟩ := h₀.unopened htok
  obtain ⟨l₁, t₁, ht₁, hl₁, hhist₁, hc₁, hs₁⟩ := act_opens hact hr ht hl (hunopened _ _ hl ht)
  obtain ⟨l', t', ht', hl', hs, hconn⟩ :=
    Streams.steps h₁ ht₁ hl₁ hs₁ (List.nodup_cons.1 hafter).1
  have hgot : received i tok (before ++ turn :: after) = received i tok after := by
    have hidle : turn.received? i tok = none := by
      rw [Turn.received?, hturn, if_neg nofun]
    rw [← List.singleton_append, received_append, received_append, received_singleton, hnone, hidle]
    rfl
  obtain ⟨es, hes, hpart⟩ := hs.part
  obtain ⟨ds, rest, rfl, hds, -⟩ := List.map_eq_append_iff.1 hpart.symm
  have hprefix : ds <+: n.server.history.drop r.number := (List.prefix_append ..).trans hes
  have haccounted := h₁.accounted (act_accounted ha hact (h₀.accounted accounted_start))
  obtain ⟨hnumbers, hplaces⟩ := haccounted.numbered_prefix hprefix
  refine ⟨ds, hgot.trans hds.symm, hnumbers, hplaces, fun hno hidle => ?_⟩
  -- nothing waits, so all that the open connection carried was taken
  have hcarried : t'.carried tok = [] := by
    unfold Network.pending at hidle
    rw [ht'] at hidle
    rw [Timeline.carried, Timeline.mail, List.eq_nil_of_length_eq_zero hidle]
    rfl
  have hall := hs.whole ((hconn hno).trans hc₁)
  rw [hcarried, List.append_nil, ← hds] at hall
  have hlen := congrArg List.length hall
  rw [List.length_map, List.length_map, List.length_drop] at hlen
  have := hs.reached
  omega

/-- The second of two clients connects after an edit of the first was applied, and before another one. -/
theorem gapless_pair : ∃ before n₀ turn n₁ after n, ∃ ds : List (Delivery CharOp),
    Run {} (⟨2147483648⟩ : Simulation.Steady) before n₀ ∧
      n₀.act (.subscribe 1 (Simulation.sessionOf 2) ⟨7⟩ .zero) = .ok (turn, n₁) ∧ n₁.Steps after n ∧
      n₀.server.history.length = 1 ∧ n.server.history.length = 2 ∧
      received 1 ⟨7⟩ (before ++ turn :: after) = ds.map .ok ∧ ds.map (·.revision.number) = [1, 2] := by
  let opens : Act := .subscribe 1 (Simulation.sessionOf 2) ⟨7⟩ .zero
  let acts : List Act := [.submit 0 (Simulation.sessionOf 1) ⟨3⟩ ⟨1⟩ [⟨1, 1, .insert 0 'b'⟩],
    .advance 1, .schedule 1 9 ⟨⟨8⟩, .resync⟩, .advance 1, .advance 1]
  let drained (before : List Turn) (turn : Turn) (after : List Turn)
      (n : Network Simulation.Steady) : Bool :=
    (opened 1 (before ++ turn :: after)).Nodup && (n.server.history.length = 2 &&
      (n.pending 1 = 0 && ∀ turn ∈ after, ¬ turn.act.closes 1))
  obtain ⟨before, n₀, h₀, hP⟩ := Steps.exists_of_follow
    (.start {} [] (⟨2147483648⟩ : Simulation.Steady))
    [.attach (Simulation.sessionOf 1), .attach (Simulation.sessionOf 2),
      .submit 0 (Simulation.sessionOf 1) ⟨2⟩ .zero [⟨0, 1, .insert 0 'a'⟩]]
    (fun before n₀ => n₀.Attached opens && (n₀.server.history.length = 1 &&
      (n₀.act opens).toOption.any fun r => (r.2.follow acts).any fun r' =>
        drained before r.1 r'.1 r'.2)) (by decide +kernel)
  simp only [Bool.and_eq_true, decide_eq_true_eq] at hP
  obtain ⟨ha, hlen, hP⟩ := hP
  cases hact : n₀.act opens with
  | error f => rw [hact] at hP; cases hP
  | ok r =>
    obtain ⟨turn, n₁⟩ := r
    rw [hact] at hP
    obtain ⟨after, n, h₁, hP⟩ := Steps.exists_of_follow n₁ acts (drained before turn) hP
    simp only [drained, Bool.and_eq_true, decide_eq_true_eq] at hP
    obtain ⟨hd, hlen', hidle, hno⟩ := hP
    obtain ⟨ds, hds, hrev, -, hall⟩ := Run.gapless h₀ ha hact h₁ (Nat.zero_le _) hd
    have htwo : ds.length = 2 := by
      have := hall hno hidle
      rwa [hlen', show Revision.zero.number = 0 from rfl, Nat.zero_add] at this
    exact ⟨before, n₀, turn, n₁, after, n, ds, h₀, hact, h₁, hlen, hlen', hds, by rw [hrev, htwo]; rfl⟩

end Network

end CoEdit
