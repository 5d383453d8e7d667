import CoEdit.Proofs.AllOrNothing
import CoEdit.Proofs.Capacity
import CoEdit.Proofs.Composition

/-!
# Where a batch is placed

Whatever a server was used for, it takes in every batch that acts on the document of a revision it has
reached, if the batch's authors have no part in what was applied since (`Network.Run.places`). The batch is
moved to the end of the history as a whole, and the document is the one that the batch leads to where it was
made and the rest of the history, moved past it, from there. So a client that made the batch and takes in
what was applied since has the server's document.

Only a number that leaves its range, or latencies that are not ordered, can prevent this
(`Server.Overruns`). The positions do not leave their range before the revisions do: a document has no more
characters than operations led to it.
-/

namespace CoEdit

namespace Server

variable {R : Type} {s : Server R} {now client : Nat} {session : Session} {token : Token}
  {base : Revision} {op : CharOp} {ops : List CharOp}

/-- Taking in `count` operations at time `now` ends in this fault: the latencies are not ordered, a relay is
due too late, or the revisions come to their limit. -/
def Overruns (s : Server R) (now count : Nat) : Fault → Prop
  | .emptyRange => s.faults.maxLatencyMs < s.faults.minLatencyMs
  | .timeOverflow => Checked.timeLimit ≤ now + s.faults.maxLatencyMs
  | .addOverflow => Checked.limit ≤ s.history.length + count
  | _ => False

/-- A batch is placed: it was made at revision `base`, where it led to the document `doc`, and takes the
server from `s` to `s'`. -/
structure Places (s : Server R) (session : Session) (base : Revision) (ops : List CharOp) (doc : Doc)
    (s' : Server R) : Prop where
  revision : s'.revision = ⟨s.revision.number + ops.length⟩
  replay : CoEdit.replay s'.history = .ok s'.doc
  /-- The batch and what was applied since are moved past each other, to one document. -/
  moved : ∃ t ds, CharOp.transform ops (delivered (s.history.drop base.number)) = .ok t ∧
    s'.history = s.history ++ ds ∧ Own session ds ∧ delivered ds = t.client ∧
    doc.applyAll (edits t.server) = .ok s'.doc
  /-- The client with the batch in flight takes in what was applied since. -/
  caughtUp : ∃ q : Queue CharOp,
    Queue.serverOps CharOp.transform { revision := base, unacked := ops } (s.history.drop base.number) =
      .ok (.ok (), q) ∧
    q.revision = s.revision ∧ q.unacked = delivered (s'.history.drop s.history.length) ∧
    doc.applyAll (edits q.pending) = .ok s'.doc

section
variable [RandomSource R] {o : Outcome R}

theorem length_lt_of_append (h : s.append now session op = .ok o) :
    o.2.history.length < Checked.limit := by
  obtain ⟨d, -, -, hgrows⟩ := append_yields.of_ok h
  unfold append at h
  obtain ⟨revision, hnext, -⟩ := Checked.bind_eq_ok_iff.1 h
  rw [hgrows.history, List.length_append]
  exact (Revision.next_eq_ok_iff.1 hnext).1

theorem length_lt_of_each_append (h : s.each (fun s op => s.append now session op) ops = .ok o)
    (hs : s.history.length < Checked.limit) : o.2.history.length < Checked.limit := by
  induction ops generalizing s o with
  | nil => cases h; exact hs
  | cons op ops ih =>
    obtain ⟨⟨posts, s₁⟩, happend, h⟩ := Checked.bind_eq_ok_iff.1 h
    obtain ⟨⟨more, s₂⟩, heach, h⟩ := Checked.bind_eq_ok_iff.1 h
    cases h
    exact ih (s := s₁) (o := (more, s₂)) heach (length_lt_of_append happend)

theorem length_lt_of_apply {r : Except Rejection Revision × Outcome R}
    (h : s.apply now session base ops = .ok r) (hs : s.history.length < Checked.limit) :
    r.2.2.history.length < Checked.limit := by
  obtain ⟨verdict, -, h⟩ := Checked.bind_eq_ok_iff.1 h
  cases verdict with
  | error e => cases h; exact hs
  | ok moved =>
    obtain ⟨⟨posts, s₁⟩, heach, h⟩ := Checked.bind_eq_ok_iff.1 h
    cases h
    exact length_lt_of_each_append heach hs

theorem history_of_respond {event : Event CharOp} (h : s.respond client now event = .ok o) :
    o.2.history = s.history := by
  obtain ⟨due, random, rfl⟩ := respond_yields.of_ok h
  rfl

theorem length_lt_of_submit (h : s.submit client now session token base ops = .ok o)
    (hs : s.history.length < Checked.limit) : o.2.history.length < Checked.limit := by
  unfold submit at h
  dsimp only at h
  split at h
  · rw [history_of_respond h]
    exact hs
  · obtain ⟨⟨result, posts, s₁⟩, happly, h⟩ := Checked.bind_eq_ok_iff.1 h
    have hs₁ : s₁.history.length < Checked.limit := length_lt_of_apply happly hs
    obtain ⟨⟨answers, s₂⟩, hrespond, h⟩ := Checked.bind_eq_ok_iff.1 h
    have hh : s₂.history = s₁.history := by
      rw [history_of_respond hrespond]
      cases result with
      | error e => rfl
      | ok revision => dsimp only; split <;> rfl
    cases h
    rw [hh]
    exact hs₁

end

theorem Accounted.inTurn {k : Nat} (h : s.Accounted k)
    (hs : s.history.length < Checked.limit) :
    Queue.InTurn { revision := base, unacked := ops } (s.history.drop base.number) := by
  intro i d hd
  rw [List.getElem?_drop] at hd
  have hnum := h.numbered _ d hd
  have hlt := (List.getElem?_eq_some_iff.1 hd).1
  exact ⟨rfl, by dsimp only; omega, by omega⟩

variable {d₀ d₁ doc : Doc} {cause : Rejection} {k : Nat}

theorem Accounted.tail (h : s.Accounted k)
    (h₀ : CoEdit.replay (s.history.take base.number) = .ok d₀) :
    acts Doc.act d₀ (delivered (s.history.drop base.number)) = .ok s.doc := by
  have hreplay := h.replay
  rw [← List.take_append_drop base.number s.history] at hreplay
  obtain ⟨d, hd, htail⟩ := replay_append_eq_ok_iff.1 hreplay
  rw [h₀] at hd
  cases hd
  exact htail

/-- The batch acts on the document at its base, and its authors have not taken part since. -/
structure Concurs (s : Server R) (base : Revision) (ops : List CharOp) (d₀ d₁ : Doc) : Prop where
  reached : base.number ≤ s.history.length
  replay : CoEdit.replay (s.history.take base.number) = .ok d₀
  acts : acts Doc.act d₀ ops = .ok d₁
  foreign : ∀ c ∈ ops, ∀ c' ∈ delivered (s.history.drop base.number), c.site ≠ c'.site

theorem Concurs.transform_ne_overflow (hc : s.Concurs base ops d₀ d₁) (h : s.Accounted k)
    (hroom : s.history.length + ops.length < Checked.limit) :
    CharOp.transform ops (delivered (s.history.drop base.number)) ≠ .error .overflow := by
  have hbase := hc.reached
  have hlen : d₀.length ≤ (s.history.take base.number).length := length_le_of_replay hc.replay
  rw [List.length_take] at hlen
  refine CharOp.transform_ne_overflow hc.acts (h.tail hc.replay) hc.foreign ?_
  rw [delivered, List.length_map, List.length_drop]
  omega

theorem Concurs.not_refuses (hc : s.Concurs base ops d₀ d₁) (h : s.Accounted k) :
    ¬ s.Refuses base ops cause := by
  intro hrefuses
  cases hrefuses with
  | ahead hlt => exact absurd hc.reached (Nat.not_le.2 hlt)
  | transform _ ht =>
    obtain ⟨c, hmem, c', hmem', heq⟩ := CharOp.exists_site_eq_of_rejected ht
    exact hc.foreign c hmem c' hmem' heq
  | edit _ ht he =>
    obtain ⟨d, -, hmoved⟩ := CharOp.transform_converges ht hc.acts (h.tail hc.replay)
    rw [Doc.acts_act, he] at hmoved
    cases hmoved

theorem Concurs.placed {ds : List (Delivery CharOp)} {posts : List Posting} {s' : Server R}
    (hc : s.Concurs base ops d₀ d₁) (h : s.Accounted k) (hs : s.history.length < Checked.limit)
    (hacc : s.Accepts base ops (delivered ds) doc) (hown : Own session ds)
    (hgrows : Grows ds { s with doc } posts s') : s.Places session base ops d₁ s' := by
  obtain ⟨t, ht, hds⟩ := hacc.transform
  obtain ⟨d, hpending, hmoved⟩ := CharOp.transform_converges ht hc.acts (h.tail hc.replay)
  have hdoc : s'.doc = d := by
    have happlies := hacc.applies
    rw [← hds, ← Doc.acts_act, hmoved] at happlies
    cases happlies
    exact hgrows.doc
  have hlen : ds.length = ops.length := by
    rw [← CharOp.length_of_labels (CharOp.transform_labels ht).1, hds, delivered, List.length_map]
  have hturn : Queue.InTurn { revision := base, unacked := ops } (s.history.drop base.number) := h.inTurn hs
  have htaken := (Queue.serverOps_eq_ok_iff CharOp.composes).2
    ⟨hturn, t, ⟨[], t.server⟩, ht, CharOp.transform_nil_left, rfl⟩
  rw [Doc.acts_act, ← hdoc] at hpending
  refine ⟨?_, ?_, ⟨t, ds, ht, hgrows.history, hown, hds.symm, hpending⟩, _, htaken, ?_, ?_, hpending⟩
  · rw [Server.revision, hgrows.history, List.length_append, hlen]
    rfl
  · rw [hgrows.history, hdoc]
    exact replay_append_eq_ok_iff.2 ⟨s.doc, h.replay, hds ▸ hmoved⟩
  · have hbase := hc.reached
    dsimp only
    rw [List.length_drop, Nat.add_sub_cancel' hbase]
    rfl
  · rw [hgrows.history, List.drop_left]
    exact hds

/-- A batch that acts on the document of its revision is taken in. -/
theorem Concurs.apply_within [RandomSource R] (hc : s.Concurs base ops d₀ d₁) (h : s.Accounted k)
    (hs : s.history.length < Checked.limit) :
    (s.apply now session base ops).Within (s.Overruns now ops.length) fun r => ∃ posts s',
      r = (.ok ⟨s.revision.number + ops.length⟩, posts, s') ∧ s.Places session base ops d₁ s' := by
  have hlat : s.faults.minLatencyMs ≤ s.faults.maxLatencyMs ∨
      s.Overruns now ops.length .emptyRange := (Nat.lt_or_ge ..).symm
  have htime : now + s.faults.maxLatencyMs < Checked.timeLimit ∨
      s.Overruns now ops.length .timeOverflow := Nat.lt_or_ge ..
  have hcount : s.history.length + ops.length < Checked.limit ∨
      s.Overruns now ops.length .addOverflow := Nat.lt_or_ge ..
  have hmoves := hcount.imp_left fun hroom => hc.transform_ne_overflow h hroom
  refine (Server.apply_within hlat htime hcount hmoves).mono fun r hr => ?_
  rcases hr with ⟨cause, hrefuses, -⟩ | ⟨ds, doc, posts, s', hacc, hown, hgrows, -, rfl⟩
  · exact absurd hrefuses (hc.not_refuses h)
  · have hplaces := hc.placed h hs hacc hown hgrows
    exact ⟨posts, s', by rw [hplaces.revision], hplaces⟩

end Server

namespace Network

variable {R : Type} [RandomSource R] {n n₀ : Network R} {log : List Turn} {faults : Server.Faults}
  {random : R}

theorem Steps.length_lt (h : n₀.Steps log n) (h₀ : n₀.server.history.length < Checked.limit) :
    n.server.history.length < Checked.limit := by
  induction h with
  | refl => exact h₀
  | @act log n n' a turn _ ha hact ih =>
    cases a with
    | submit client session token base ops =>
      obtain ⟨o, ho, -, rfl⟩ := reply_eq_ok_iff.1 hact
      rw [foldl_post_server]
      exact Server.length_lt_of_submit ho ih
    | subscribe client session connection revision =>
      obtain ⟨o, ⟨hh, -⟩, -, -, -, rfl⟩ := act_subscribe hact
      rw [foldl_post_server, hh]
      exact ih
    | probe client token =>
      obtain ⟨o, ho, -, rfl⟩ := act_probe hact
      rw [foldl_post_server, ho.history]
      exact ih
    | advance client =>
      obtain ⟨t, ht⟩ := ha.exists_timeline rfl
      obtain ⟨-, rfl⟩ | ⟨event, t', -, -, rfl⟩ := act_advance hact ht
      · exact ih
      · exact ih
    | attach | unsubscribe | schedule | cancel | advanceTo => cases hact; exact ih

/-- In every run, every revision that was reached has a document, and a batch that acts on it is taken in
and placed, if its authors have not taken part since. -/
theorem Run.places (h : Run faults random log n) {base : Revision}
    (hb : base.number ≤ n.server.revision.number) :
    ∃ d₀, replay (n.server.history.take base.number) = .ok d₀ ∧
      ∀ now session ops d₁, d₀.applyAll (edits ops) = .ok d₁ →
        (∀ op ∈ ops, ∀ d ∈ n.server.history.drop base.number, op.site ≠ d.op.site) →
        (n.server.apply now session base ops).Within (n.server.Overruns now ops.length) fun r =>
          ∃ posts s', r = (.ok ⟨n.server.revision.number + ops.length⟩, posts, s') ∧
            n.server.Places session base ops d₁ s' := by
  have hacc := h.accounted accounted_start
  have hreplay := hacc.replay
  rw [← List.take_append_drop base.number n.server.history] at hreplay
  obtain ⟨d₀, h₀, -⟩ := replay_append_eq_ok_iff.1 hreplay
  refine ⟨d₀, h₀, fun now session ops d₁ h₁ hsite => ?_⟩
  have hconcurs : n.server.Concurs base ops d₀ d₁ := by
    refine ⟨hb, h₀, by rwa [Doc.acts_act], fun c hc c' hc' => ?_⟩
    obtain ⟨d, hd, rfl⟩ := List.mem_map.1 hc'
    exact hsite c hc d hd
  exact hconcurs.apply_within hacc (h.length_lt (show 0 < Checked.limit by decide))

/-- Two clients insert a character at the beginning. A third that has heard of one of them only inserts
another one and deletes the one it has heard of. -/
theorem Run.places_behind_tie : ∃ log n posts s',
    Run {} (⟨2147483648⟩ : Simulation.Steady) log n ∧
    n.server.history.map (·.op) = [⟨0, 1, .insert 0 'a'⟩, ⟨0, 2, .insert 1 'b'⟩] ∧
    n.server.apply 0 (Simulation.sessionOf 3) ⟨1⟩ [⟨0, 3, .insert 1 'x'⟩, ⟨1, 3, .delete 0⟩] =
      .ok (.ok ⟨4⟩, posts, s') ∧
    s'.doc = ⟨['b', 'x']⟩ := by
  obtain ⟨log, n, h, hP⟩ := Steps.exists_of_follow
    (.start {} [] (⟨2147483648⟩ : Simulation.Steady))
    [.attach (Simulation.sessionOf 1), .attach (Simulation.sessionOf 2),
      .submit 0 (Simulation.sessionOf 1) ⟨1⟩ .zero [⟨0, 1, .insert 0 'a'⟩],
      .submit 1 (Simulation.sessionOf 2) ⟨1⟩ .zero [⟨0, 2, .insert 0 'b'⟩]]
    (fun _ n => n.server.history.map (·.op) = [⟨0, 1, .insert 0 'a'⟩, ⟨0, 2, .insert 1 'b'⟩])
    (by decide +kernel)
  have hops : n.server.history.map (·.op) = [⟨0, 1, .insert 0 'a'⟩, ⟨0, 2, .insert 1 'b'⟩] :=
    of_decide_eq_true hP
  have hlen : n.server.history.length = 2 := by
    rw [← List.length_map, hops]
    rfl
  have htail : delivered (n.server.history.drop 1) = [⟨0, 2, .insert 1 'b'⟩] := by
    rw [delivered, List.map_drop, hops]
    rfl
  have hbase : replay (n.server.history.take 1) = .ok ⟨['a']⟩ := by
    rw [replay, delivered, List.map_take, hops]
    rfl
  have hfaults : n.server.faults = {} := (h.frame rfl).2
  have hreached : (⟨1⟩ : Revision).number ≤ n.server.revision.number := by
    rw [Server.revision, hlen]
    decide
  obtain ⟨d₀, h₀, hplaces⟩ := Run.places h hreached
  rw [hbase] at h₀
  cases h₀
  have hwithin := hplaces 0 (Simulation.sessionOf 3) [⟨0, 3, .insert 1 'x'⟩, ⟨1, 3, .delete 0⟩]
    ⟨['x']⟩ rfl (fun op hop d hd => ?_)
  · cases happly : n.server.apply 0 (Simulation.sessionOf 3) ⟨1⟩
        [⟨0, 3, .insert 1 'x'⟩, ⟨1, 3, .delete 0⟩] with
    | error fault =>
      rw [happly] at hwithin
      have hno : ¬ n.server.Overruns 0 2 fault := by
        cases fault with
        | emptyRange | timeOverflow => simp only [Server.Overruns, hfaults]; decide
        | addOverflow => simp only [Server.Overruns, hlen]; decide
        | _ => exact id
      exact absurd hwithin hno
    | ok r =>
      obtain ⟨posts, s', rfl, -, -, ⟨t, ds, ht, -, -, -, hdoc⟩, -⟩ := hwithin.of_ok happly
      rw [htail] at ht
      cases ht
      have hrev : n.server.revision.number = 2 := hlen
      rw [hrev] at happly
      exact ⟨log, n, posts, s', h, hops, happly, (Except.ok.inj hdoc).symm⟩
  · have hsite : d.op ∈ delivered (n.server.history.drop 1) := List.mem_map_of_mem hd
    rw [htail, List.mem_singleton] at hsite
    rw [hsite]
    rcases List.mem_cons.1 hop with rfl | hop
    · decide
    · rw [List.mem_singleton.1 hop]
      decide

end Network

end CoEdit
