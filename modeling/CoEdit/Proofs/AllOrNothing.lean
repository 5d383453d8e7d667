import CoEdit.Proofs.Reachable
import CoEdit.Proofs.Traffic

/-!
# All or nothing

However a network is used, the server's document is what its history leads to, every entry of the history
bears its place as its revision, and every submit is accounted for: it was lost on its way, refused or
applied (`Server.Accounted`).

Every request is answered once, at the client that made it (`Network.Sends`). A submit that is lost or
refused leaves no other trace than its response; one that is applied is relayed as a whole to every open
connection. All of this holds for any batch, made at any revision by any session, and for any draw.
-/

namespace CoEdit

/-- The fault is a sum that leaves its range. -/
def Fault.IsOverflow : Fault → Prop
  | addOverflow | timeOverflow => True
  | _ => False

theorem Climbs.isSome_delivery {tok : Token} {last last' : Nat} {posts : List (Nat × Event CharOp)}
    {ds : List (Delivery CharOp)} (h : Climbs tok last posts ds last') :
    ∀ p ∈ posts, p.2.delivery?.isSome := by
  induction h with
  | nil => exact List.forall_mem_nil _
  | cons _ _ ih => exact List.forall_mem_cons.2 ⟨rfl, ih⟩

namespace Server

variable {R : Type} {s s' : Server R} {j : Nat} {posts : List Posting} {l : Link}
  {ds : List (Delivery CharOp)}

theorem route_filter {p : Event CharOp → Bool} :
    route j (posts.filter (p ·.event)) = (route j posts).filter (p ·.2) := by
  simp only [route, List.filter_map, List.filter_filter, Function.comp_def, Bool.and_comm]

theorem Feeds.isSome_delivery (h : Feeds j ds s posts s') (hl : s.links[j]? = some l) :
    ∀ p ∈ route j posts, p.2.delivery?.isSome := by
  obtain ⟨last', -, hc⟩ := h l hl
  cases htok : l.connection with
  | none =>
    rw [htok] at hc
    rw [show route j posts = [] from hc]
    exact List.forall_mem_nil _
  | some tok =>
    rw [htok] at hc
    exact Climbs.isSome_delivery hc

theorem Feeds.of_route {more : List Posting} (h : Feeds j ds s posts s')
    (hr : ∀ l, s.links[j]? = some l → route j more = route j posts) : Feeds j ds s more s' := by
  intro l hl
  rw [hr l hl]
  exact h l hl

variable {k client now : Nat} {session : Session} {token : Token}
  {base : Revision} {ops : List CharOp} {fate : Fate} {o : Outcome R}

/-- The server's record of itself, with the number of submits that it applied. -/
structure Accounted (s : Server R) (accepted : Nat) : Prop where
  numbered : ∀ (k : Nat) (d : Delivery CharOp), s.history[k]? = some d → d.revision.number = k + 1
  replay : CoEdit.replay s.history = .ok s.doc
  applied : s.stats.appliedOps = s.history.length
  submits : s.stats.submits = s.stats.droppedBeforeApply + s.stats.rejected + accepted

theorem Accounted.of_eq (h : s.Accounted k) (hh : s'.history = s.history) (hd : s'.doc = s.doc)
    (ha : s'.stats.appliedOps = s.stats.appliedOps) (hs : s'.stats.submits = s.stats.submits)
    (hb : s'.stats.droppedBeforeApply = s.stats.droppedBeforeApply)
    (hr : s'.stats.rejected = s.stats.rejected) : s'.Accounted k :=
  ⟨by rw [hh]; exact h.numbered, by rw [hh, hd]; exact h.replay, by rw [ha, hh]; exact h.applied,
    by rw [hs, hb, hr]; exact h.submits⟩

theorem Accounted.settles [RandomSource R] (h : s.Accounted k)
    (hs : s.Settles client now session token base ops fate o) :
    o.2.Accounted (k + fate.accepted.toNat) := by
  have happlied := h.applied
  have hsubmits := h.submits
  refine ⟨fun i d hd => ?_, ?_, ?_, ?_⟩
  · rw [hs.history] at hd
    rcases Nat.lt_or_ge i s.history.length with hlt | hge
    · rw [List.getElem?_append_left hlt] at hd
      exact h.numbered i d hd
    · rw [List.getElem?_append_right hge] at hd
      have := hs.numbered _ d hd
      omega
  · rw [hs.history]
    exact replay_append_eq_ok_iff.2 ⟨s.doc, h.replay, by rw [Doc.acts_act]; exact hs.doc⟩
  · rw [hs.history, hs.stats, List.length_append]
    cases fate with
    | applied ds heard => cases heard <;> exact congrArg (· + ds.length) happlied
    | lost => exact happlied
    | refused cause => exact happlied
  · rw [hs.stats]
    cases fate with
    | applied ds heard =>
      cases heard <;> simp only [Fate.count, Fate.accepted, Bool.toNat_true] <;> omega
    | lost => simp only [Fate.count, Fate.accepted, Bool.toNat_false]; omega
    | refused cause => simp only [Fate.count, Fate.accepted, Bool.toNat_false]; omega

end Server

namespace Network

variable {R : Type} {n n' n₀ : Network R} {a : Act} {turn : Turn} {log : List Turn} {client ms j : Nat}
  {response : Event CharOp} {ds : List (Delivery CharOp)} {relays posts : List Server.Posting}
  {server : Server R}

/-- A submit that the server applied, as the response shows, which is posted last. -/
def Turn.accepted (turn : Turn) : Bool :=
  match turn.act, turn.posts.getLast?.map Server.Posting.event with
  | .submit .., some (.submitResponse _ (.ok _)) => true
  | .submit .., some (.submitResponse _ (.error e)) => e = Server.responseLost
  | _, _ => false

/-- A request of client `client` leads to the postings `posts`: `response` is put on the client's timeline
and on no other, the deliveries `ds` on the timeline of every client with an open connection, and there is
nothing else. -/
structure Sends (n : Network R) (client : Nat) (response : Event CharOp) (ds : List (Delivery CharOp))
    (posts : List Server.Posting) (n' : Network R) : Prop where
  timelines : ∀ j : Nat, n'.timelines[j]? = n.timelines[j]?.map (·.deliverAll (Server.route j posts))
  responds : ∃ ms, n.server.faults.minLatencyMs ≤ ms ∧ ms ≤ n.server.faults.maxLatencyMs ∧
    ∀ j < n.timelines.length, (Server.route j posts).filter (·.2.delivery?.isNone) =
      if client = j then [(n.now client + ms, response)] else []
  relays : ∀ j, Server.Feeds j ds n.server (posts.filter (·.event.delivery?.isSome)) n'.server

/-- Nothing is left of a request of client `client` but the response. -/
structure Spares (n : Network R) (client : Nat) (response : Event CharOp) (n' : Network R) : Prop where
  history : n'.server.history = n.server.history
  doc : n'.server.doc = n.server.doc
  links : n'.server.links = n.server.links
  timelines : ∃ due, n'.timelines = n.timelines.modify client (·.deliverAt due response)

theorem Sends.of_relays (hp : n.Paired) (hresponse : response.delivery? = none)
    (hmin : n.server.faults.minLatencyMs ≤ ms) (hmax : ms ≤ n.server.faults.maxLatencyMs)
    (hposts : posts = relays ++ [⟨client, n.now client + ms, response⟩])
    (hfeeds : ∀ j, Server.Feeds j ds n.server relays server) :
    n.Sends client response ds posts (posts.foldl post { n with server }) := by
  subst hposts
  have hsome : ∀ (j : Nat) l, n.server.links[j]? = some l →
      ∀ p ∈ Server.route j relays, p.2.delivery?.isSome := fun j l hl => (hfeeds j).isSome_delivery hl
  have hroute : ∀ j, Server.route j (relays ++ [⟨client, n.now client + ms, response⟩]) =
      Server.route j relays ++ if client = j then [(n.now client + ms, response)] else [] := by
    intro j
    rw [Server.route_append, Server.route_cons]
    rfl
  refine ⟨foldl_post_timelines _, ⟨ms, hmin, hmax, fun j hj => ?_⟩, fun j => ?_⟩
  · obtain ⟨l, hl⟩ : ∃ l, n.server.links[j]? = some l := ⟨_, List.getElem?_eq_getElem (hp ▸ hj)⟩
    have hnone : (Server.route j relays).filter (·.2.delivery?.isNone) = [] := by
      refine List.filter_eq_nil_iff.2 fun p hmem => ?_
      rw [Option.isNone_iff_eq_none, ← ne_eq, ← Option.isSome_iff_ne_none]
      exact hsome j l hl p hmem
    rw [hroute, List.filter_append, hnone, List.nil_append]
    split
    · simp [hresponse]
    · rfl
  · rw [foldl_post_server]
    refine (hfeeds j).of_route fun l hl => ?_
    rw [Server.route_filter (p := fun ev => ev.delivery?.isSome), hroute, List.filter_append,
      List.filter_eq_self.2 (hsome j l hl)]
    split
    · simp [hresponse]
    · simp

variable [RandomSource R] {session : Session} {token : Token} {base : Revision} {ops : List CharOp}
  {fate : Server.Fate} {o : Server.Outcome R} {now : Nat} {F : Fault → Prop}

theorem accepted_submit (h : n.server.Settles client now session token base ops fate o) :
    Turn.accepted { act := .submit client session token base ops, posts := o.1 } = fate.accepted := by
  obtain ⟨relays, ms, -, -, hposts, -⟩ := h.answer
  unfold Turn.accepted
  rw [hposts, List.getLast?_concat]
  cases fate with
  | lost => rfl
  | refused cause => rfl
  | applied ds heard => cases heard <;> rfl

/-- Any submit of an attached client comes to one fate, or a number leaves its range. -/
theorem submit_within (hp : n.Paired)
    (hlat : n.server.faults.minLatencyMs ≤ n.server.faults.maxLatencyMs) :
    (n.act (.submit client session token base ops)).Within Fault.IsOverflow fun r => ∃ fate,
      n.server.Settles client (n.now client) session token base ops fate (r.1.posts, r.2.server) ∧
      n.Sends client (.submitResponse token (fate.answer n.server)) fate.applies r.1.posts r.2 ∧
      (fate.accepted = false →
        n.Spares client (.submitResponse token (fate.answer n.server)) r.2) := by
  have hserver : (n.server.submit client (n.now client) session token base ops).Within
      Fault.IsOverflow _ :=
    Server.submit_within (.inl hlat) (.inr trivial) (.inr trivial) (.inr trivial)
  refine (reply_within hserver).mono fun r hr => ?_
  obtain ⟨turn, n'⟩ := r
  obtain ⟨o, ⟨fate, hs⟩, rfl, rfl⟩ := hr
  obtain ⟨relays, ms, hmin, hmax, hposts, hfeeds, hspares⟩ := hs.answer
  refine ⟨fate, ?_, .of_relays hp rfl hmin hmax hposts hfeeds, fun hfate => ?_⟩
  · rw [foldl_post_server]
    exact hs
  · obtain ⟨rfl, hlinks⟩ := hspares hfate
    have happlies : fate.applies = [] := by cases fate <;> first | rfl | cases hfate
    have hhist := hs.history
    have hdoc := hs.doc
    rw [happlies] at hhist hdoc
    refine ⟨?_, ?_, ?_, n.now client + ms, ?_⟩
    · rw [foldl_post_server, hhist, List.append_nil]
    · rw [foldl_post_server]
      exact (Except.ok.inj hdoc).symm
    · rw [foldl_post_server]
      exact hlinks
    · rw [hposts]; rfl

theorem probe_within (hp : n.Paired)
    (hlat : n.server.faults.minLatencyMs ≤ n.server.faults.maxLatencyMs) :
    (n.act (.probe client token)).Within Fault.IsOverflow fun r =>
      n.server.Informs client (n.now client) token (r.1.posts, r.2.server) ∧ ∃ result,
        n.Sends client (.probeResponse token result) [] r.1.posts r.2 ∧
        n.Spares client (.probeResponse token result) r.2 := by
  have hserver : (n.server.probe client (n.now client) token).Within Fault.IsOverflow _ :=
    Server.probe_within (.inl hlat) (.inr trivial)
  refine (reply_within hserver).mono fun r hr => ?_
  obtain ⟨turn, n'⟩ := r
  obtain ⟨o, hi, rfl, rfl⟩ := hr
  obtain ⟨ms, hmin, hmax, hposts⟩ := hi.answer
  have hfeeds (j : Nat) : Server.Feeds j [] n.server [] o.2 := .of_links hi.links rfl
  refine ⟨?_, _, .of_relays hp rfl hmin hmax hposts hfeeds, ?_, ?_, ?_, n.now client + ms, ?_⟩
  · rw [foldl_post_server]
    exact hi
  · rw [foldl_post_server]
    exact hi.history
  · rw [foldl_post_server]
    exact hi.doc
  · rw [foldl_post_server]
    exact hi.links
  · rw [hposts]; rfl

theorem act_accounted {k : Nat} (ha : n.Attached a) (hact : n.act a = .ok (turn, n'))
    (h : n.server.Accounted k) : n'.server.Accounted (k + turn.accepted.toNat) := by
  cases a with
  | attach session => cases hact; exact h.of_eq rfl rfl rfl rfl rfl rfl
  | unsubscribe client => cases hact; exact h.of_eq rfl rfl rfl rfl rfl rfl
  | schedule client due task => cases hact; exact h
  | cancel client id => cases hact; exact h
  | advanceTo client time => cases hact; exact h
  | advance client =>
    obtain ⟨t, ht⟩ := ha.exists_timeline rfl
    obtain ⟨rfl, rfl⟩ | ⟨event, t', -, rfl, rfl⟩ := act_advance hact ht
    · exact h
    · exact h
  | subscribe client session connection revision =>
    obtain ⟨o, ⟨hh, hd, hs, -⟩, -, -, rfl, rfl⟩ := act_subscribe hact
    rw [foldl_post_server]
    exact h.of_eq hh hd (by rw [hs]) (by rw [hs]) (by rw [hs]) (by rw [hs])
  | probe client token =>
    obtain ⟨o, ho, rfl, rfl⟩ := act_probe hact
    rw [foldl_post_server]
    exact h.of_eq ho.history ho.doc (by rw [ho.stats]) (by rw [ho.stats]) (by rw [ho.stats])
      (by rw [ho.stats])
  | submit client session token base ops =>
    obtain ⟨fate, o, hs, rfl, rfl⟩ := act_submit hact
    rw [foldl_post_server, accepted_submit hs]
    exact h.settles hs

theorem Steps.accounted {k : Nat} (h : n₀.Steps log n) (h₀ : n₀.server.Accounted k) :
    n.server.Accounted (k + log.countP Turn.accepted) := by
  induction h with
  | refl => exact h₀
  | @act log n n' a turn _ ha hact ih =>
    have hcount : (log ++ [turn]).countP Turn.accepted = log.countP Turn.accepted +
        turn.accepted.toNat := by
      rw [List.countP_append, List.countP_singleton]
      cases turn.accepted <;> rfl
    rw [hcount, ← Nat.add_assoc]
    exact act_accounted ha hact ih

variable {faults : Server.Faults} {random : R}

omit [RandomSource R] in
theorem accounted_start : (Network.start faults [] random).server.Accounted 0 :=
  ⟨(fun _ _ h => nomatch h), rfl, rfl, rfl⟩

/-- In every run the server's record is consistent. Every request is answered once, and a submit takes
effect as a whole or not at all. -/
theorem Run.all_or_nothing (h : Run faults random log n)
    (hlat : faults.minLatencyMs ≤ faults.maxLatencyMs) :
    n.server.Accounted (log.countP Turn.accepted) ∧
      ∀ client < n.timelines.length, ∀ token,
        (∀ session base ops,
          (n.act (.submit client session token base ops)).Within Fault.IsOverflow fun r => ∃ fate,
            n.server.Settles client (n.now client) session token base ops fate
              (r.1.posts, r.2.server) ∧
            n.Sends client (.submitResponse token (fate.answer n.server)) fate.applies r.1.posts r.2 ∧
            (fate.accepted = false →
              n.Spares client (.submitResponse token (fate.answer n.server)) r.2)) ∧
        (n.act (.probe client token)).Within Fault.IsOverflow fun r =>
          n.server.Informs client (n.now client) token (r.1.posts, r.2.server) ∧ ∃ result,
            n.Sends client (.probeResponse token result) [] r.1.posts r.2 ∧
            n.Spares client (.probeResponse token result) r.2 := by
  obtain ⟨hp, hf⟩ := h.frame rfl
  have hlat' : n.server.faults.minLatencyMs ≤ n.server.faults.maxLatencyMs := by
    rw [hf]
    exact hlat
  refine ⟨?_, fun client _ token => ⟨fun session base ops => submit_within hp hlat',
    probe_within hp hlat'⟩⟩
  rw [← Nat.zero_add (log.countP Turn.accepted)]
  exact h.accounted accounted_start

/-- Of two clients the first submits an edit, which is applied. The second submits two, of which the
second has no place in the document. -/
theorem all_or_nothing_pair : ∃ log n turn n' response,
    Run {} (⟨2147483648⟩ : Simulation.Steady) log n ∧ log.countP Turn.accepted = 1 ∧
      n.server.Accounted 1 ∧
      n.act (.submit 1 (Simulation.sessionOf 2) ⟨5⟩ .zero
        [⟨0, 2, .insert 0 'x'⟩, ⟨1, 2, .delete 9⟩]) = .ok (turn, n') ∧
      turn.accepted = false ∧ n.Spares 1 response n' := by
  let batch : Act := .submit 1 (Simulation.sessionOf 2) ⟨5⟩ .zero
    [⟨0, 2, .insert 0 'x'⟩, ⟨1, 2, .delete 9⟩]
  obtain ⟨log, n, h, hP⟩ := Steps.exists_of_follow
    (.start {} [] (⟨2147483648⟩ : Simulation.Steady))
    [.attach (Simulation.sessionOf 1), .attach (Simulation.sessionOf 2),
      .subscribe 0 (Simulation.sessionOf 1) ⟨1⟩ .zero,
      .submit 0 (Simulation.sessionOf 1) ⟨2⟩ .zero [⟨0, 1, .insert 0 'a'⟩]]
    (fun log n => log.countP Turn.accepted = 1 && (1 < n.timelines.length &&
      (n.act batch).toOption.any fun r => !r.1.accepted)) (by decide +kernel)
  simp only [Bool.and_eq_true, decide_eq_true_eq] at hP
  obtain ⟨hcount, hclient, hrefused⟩ := hP
  obtain ⟨hacc, hrequests⟩ := Run.all_or_nothing h (by decide)
  cases hact : n.act batch with
  | error f => rw [hact] at hrefused; cases hrefused
  | ok r =>
    obtain ⟨turn, n'⟩ := r
    rw [hact] at hrefused
    have hturn : turn.accepted = false := by
      simpa only [Except.toOption, Option.any_some, Bool.not_eq_true'] using hrefused
    obtain ⟨fate, hs, -, hspares⟩ := ((hrequests 1 hclient ⟨5⟩).1 _ _ _).of_ok hact
    obtain ⟨o, -, hposts, -⟩ := reply_eq_ok_iff.1 hact
    have hfate : fate.accepted = false := by
      rw [← accepted_submit hs, ← hturn, hposts]
    exact ⟨log, n, turn, n', _, h, hcount, hcount ▸ hacc, hact, hturn, hspares hfate⟩

end Network

end CoEdit
