import CoEdit.Proofs.CharContract
import CoEdit.Proofs.Fates
import CoEdit.Proofs.Range

/-!
# In one go or one by one

A client moves its buffers past the operations of others as these arrive, one by one, first what is in
flight and then what is queued. The server moves a whole batch past a whole stretch of its history. That
both come to the same operations rests on two laws (`Transformer.Composes`): to move past a list is to move
past its parts in turn, and to move a list is to move its parts in turn, each past what the one before left
of the other side.

A queue that takes in any number of operations is described by one transform of what it had buffered
(`Queue.serverOps_eq_ok_iff`), whatever the transformer, as long as it composes. The transform of character
edits does (`CharOp.composes`). As long as no position leaves its range, it is rejected if and only if one
author has operations on both sides (`CharOp.clash_iff_of_ne_overflow`).
-/

namespace CoEdit

variable {M : Type}

namespace Transformer

/-- To move lists past each other is to move their parts past each other, in turn. -/
structure Composes (x : Transformer M) : Prop where
  nil_left : ∀ server, x [] server = .ok ⟨[], server⟩
  nil_right : ∀ client, x client [] = .ok ⟨client, []⟩
  /-- Past a part of the server's operations and then past the rest; a failure is the same, too. -/
  append_right : ∀ client server more, x client (server ++ more) = (do
    let t ← x client server
    let u ← x t.client more
    return ⟨u.client, t.server ++ u.server⟩)
  /-- A part of the client's operations, and then the rest past what that left of the server's. -/
  append_left : ∀ client more server t, x (client ++ more) server = .ok t ↔
    ∃ u v, x client server = .ok u ∧ x more u.server = .ok v ∧ t = ⟨u.client ++ v.client, v.server⟩

variable {x : Transformer M} {client server more : List M} {t : Transformed M}

theorem Composes.append_right_eq_ok_iff (hx : x.Composes) : x client (server ++ more) = .ok t ↔
    ∃ u v, x client server = .ok u ∧ x u.client more = .ok v ∧ t = ⟨v.client, u.server ++ v.server⟩ := by
  rw [hx.append_right]
  simp only [Except.bind_eq_ok_iff, pure, Except.pure, Except.ok.injEq, eq_comm (a := t)]
  constructor
  · rintro ⟨u, hu, v, hv, heq⟩
    exact ⟨u, v, hu, hv, heq⟩
  · rintro ⟨u, v, hu, hv, heq⟩
    exact ⟨u, hu, v, hv, heq⟩

/-- The shortcut of a queue for an empty list makes no difference. -/
theorem Composes.passes_iff (hx : x.Composes) : x.Passes client server t ↔ x client server = .ok t := by
  constructor
  · rintro (⟨rfl, rfl⟩ | ⟨-, ht⟩)
    · exact hx.nil_left server
    · exact ht
  · intro ht
    by_cases hc : client = []
    · subst hc
      rw [hx.nil_left] at ht
      cases ht
      exact .inl ⟨rfl, rfl⟩
    · exact .inr ⟨hc, ht⟩

theorem past_of_passes (h : x.Passes client server t) : x.past client server = .ok (.ok t) := by
  unfold past run
  rcases h with ⟨rfl, rfl⟩ | ⟨hc, ht⟩
  · rfl
  · rw [if_neg (by simpa using hc), ht]

end Transformer

namespace Queue

open Transformer

variable {x : Transformer M} {q q' : Queue M} {revision : Revision} {op : M} {d : Delivery M}
  {ds : List (Delivery M)}

/-- Accepts operations that other sessions applied, one after another, up to the first that fails. -/
def serverOps (x : Transformer M) (q : Queue M) : List (Delivery M) → Checked (Reply M Unit)
  | [] => .ok (.ok (), q)
  | d :: ds => do
    match ← q.serverOp x d.revision d.op with
    | (.error e, q) => return (.error e, q)
    | (.ok (), q) => q.serverOps x ds

/-- The deliveries bear the numbers that follow the confirmed revision, and no echo is due before them. -/
def InTurn (q : Queue M) (ds : List (Delivery M)) : Prop :=
  ∀ (k : Nat) (d : Delivery M), ds[k]? = some d →
    q.expectedEchoes = 0 ∧ d.revision.number = q.revision.number + k + 1 ∧
      d.revision.number < Checked.limit

theorem inTurn_cons : q.InTurn (d :: ds) ↔ q.Timely d.revision ∧ d.revision.number < Checked.limit ∧
    ∀ (k : Nat) (e : Delivery M), ds[k]? = some e → q.expectedEchoes = 0 ∧
      e.revision.number = d.revision.number + k + 1 ∧ e.revision.number < Checked.limit := by
  constructor
  · intro h
    obtain ⟨hechoes, hnext, hlimit⟩ := h 0 d rfl
    refine ⟨⟨hechoes, hnext⟩, hlimit, fun k e he => ?_⟩
    obtain ⟨-, hnum, hlt⟩ := h (k + 1) e he
    exact ⟨hechoes, by omega, hlt⟩
  · rintro ⟨⟨hechoes, hnext⟩, hlimit, h⟩ k e he
    cases k with
    | zero => cases he; exact ⟨hechoes, hnext, hlimit⟩
    | succ k =>
      obtain ⟨-, hnum, hlt⟩ := h k e he
      exact ⟨hechoes, by omega, hlt⟩

theorem serverOp_of_passes {flight rest : Transformed M} (ht : q.Timely revision)
    (hr : revision.number < Checked.limit) (hf : x.Passes q.unacked [op] flight)
    (hq : x.Passes q.queued flight.server rest) :
    q.serverOp x revision op = .ok (.ok (), { q with
      revision
      unacked := flight.client
      queued := rest.client
      pending := q.pending ++ rest.server }) := by
  have hnext : q.revision.next = .ok revision :=
    Revision.next_eq_ok_iff.2 ⟨by have := ht.2; omega, ht.2⟩
  unfold serverOp
  rw [withoutEchoes_of_timely ht hnext, past_of_passes hf]
  simp only [bind, Except.bind, past_of_passes hq]
  rfl

theorem serverOp_eq_ok_iff (hx : x.Composes) : q.serverOp x revision op = .ok (.ok (), q') ↔
    q.Timely revision ∧ revision.number < Checked.limit ∧ ∃ flight rest,
      x q.unacked [op] = .ok flight ∧ x q.queued flight.server = .ok rest ∧ q' = { q with
        revision
        unacked := flight.client
        queued := rest.client
        pending := q.pending ++ rest.server } := by
  constructor
  · intro h
    rcases serverOp_counts.of_ok h with ⟨flight, rest, ht, hf, hr, heq⟩ | ⟨e, -, heq⟩ | ⟨e, q'', -, -, heq⟩
    · have hlimit : revision.number < Checked.limit := by
        by_contra hge
        have hfault : q.serverOp x revision op = .error .addOverflow :=
          next_overflow ht.1 (by have := ht.2; omega)
        rw [hfault] at h
        cases h
      exact ⟨ht, hlimit, flight, rest, hx.passes_iff.1 hf, hx.passes_iff.1 hr, (Prod.mk.inj heq).2⟩
    · cases heq
    · cases heq
  · rintro ⟨ht, hlimit, flight, rest, hf, hr, rfl⟩
    exact serverOp_of_passes ht hlimit (hx.passes_iff.2 hf) (hx.passes_iff.2 hr)

theorem serverOps_cons_eq_ok_iff : q.serverOps x (d :: ds) = .ok (.ok (), q') ↔
    ∃ q₁, q.serverOp x d.revision d.op = .ok (.ok (), q₁) ∧ q₁.serverOps x ds = .ok (.ok (), q') := by
  rw [serverOps, Checked.bind_eq_ok_iff]
  constructor
  · rintro ⟨⟨reply, q₁⟩, h₁, h₂⟩
    cases reply with
    | error e => cases h₂
    | ok => exact ⟨q₁, h₁, h₂⟩
  · rintro ⟨q₁, h₁, h₂⟩
    exact ⟨(.ok (), q₁), h₁, h₂⟩

theorem serverOps_eq_ok_iff (hx : x.Composes) : q.serverOps x ds = .ok (.ok (), q') ↔
    q.InTurn ds ∧ ∃ flight rest, x q.unacked (ds.map (·.op)) = .ok flight ∧
      x q.queued flight.server = .ok rest ∧ q' = { q with
        revision := ⟨q.revision.number + ds.length⟩
        unacked := flight.client
        queued := rest.client
        pending := q.pending ++ rest.server } := by
  induction ds generalizing q with
  | nil =>
    rw [serverOps, List.map_nil, hx.nil_right]
    constructor
    · intro h
      obtain ⟨-, rfl⟩ := Prod.mk.inj (Except.ok.inj h)
      exact ⟨nofun, _, _, rfl, hx.nil_right _, by simp⟩
    · rintro ⟨-, flight, rest, hf, hr, rfl⟩
      cases hf
      rw [hx.nil_right] at hr
      cases hr
      simp
  | cons d ds ih =>
    have hnum (ht : q.Timely d.revision) :
        d.revision.number + ds.length = q.revision.number + (d :: ds).length := by
      have hnext : d.revision.number = q.revision.number + 1 := ht.2
      rw [List.length_cons, hnext]
      omega
    rw [serverOps_cons_eq_ok_iff, inTurn_cons, List.map_cons, ← List.singleton_append]
    constructor
    · rintro ⟨q₁, h₁, h₂⟩
      obtain ⟨ht, hlimit, flight, rest, hf, hr, rfl⟩ := (serverOp_eq_ok_iff hx).1 h₁
      obtain ⟨hturn, flight', rest', hf', hr', rfl⟩ := ih.1 h₂
      refine ⟨⟨ht, hlimit, hturn⟩, _, _, hx.append_right_eq_ok_iff.2 ⟨_, _, hf, hf', rfl⟩,
        hx.append_right_eq_ok_iff.2 ⟨_, _, hr, hr', rfl⟩, ?_⟩
      simp only [hnum ht, List.append_assoc]
    · rintro ⟨⟨ht, hlimit, hturn⟩, flight, rest, hf, hr, rfl⟩
      obtain ⟨flight₁, flight₂, hf₁, hf₂, rfl⟩ := hx.append_right_eq_ok_iff.1 hf
      obtain ⟨rest₁, rest₂, hr₁, hr₂, rfl⟩ := hx.append_right_eq_ok_iff.1 hr
      refine ⟨_, (serverOp_eq_ok_iff hx).2 ⟨ht, hlimit, flight₁, rest₁, hf₁, hr₁, rfl⟩,
        ih.2 ⟨hturn, flight₂, rest₂, hf₂, hr₂, ?_⟩⟩
      simp only [hnum ht, List.append_assoc]

/-- While nothing is in flight, an operation may arrive before or after the queue is put in flight. -/
theorem serverOp_launch (hu : q.unacked = []) :
    (do let (reply, q₁) ← q.serverOp x revision op
        return (reply, ← q₁.launch)) = (do (← q.launch).serverOp x revision op) := by
  have hlaunch : q.launch = .ok { q with queued := [], unacked := q.queued } := launch_of_nil hu
  rw [hlaunch]
  show _ = serverOp x { q with queued := [], unacked := q.queued } revision op
  unfold serverOp withoutEchoes atNext
  by_cases he : q.expectedEchoes = 0
  · simp only [if_pos he]
    cases hn : q.revision.next with
    | error f => rfl
    | ok expected =>
      by_cases hr : revision = expected
      · simp only [bind, Except.bind, if_pos hr]
        have hfirst : x.past q.unacked [op] = .ok (.ok ⟨[], [op]⟩) := by rw [hu]; rfl
        rw [hfirst]
        dsimp only
        cases hq : x.past q.queued [op] with
        | error f => rfl
        | ok r =>
          cases r with
          | error e => rfl
          | ok t => rfl
      · simp only [bind, Except.bind, if_neg hr, pure, Except.pure, hlaunch]
  · simp only [if_neg he, bind, Except.bind, hlaunch]
    rfl

end Queue

namespace CharOp

open Transformer

variable {c s s' : CharOp} {cs cs' more ss : List CharOp} {t : Transformed CharOp}

theorem pass_append_eq_ok_iff : pass (cs ++ more) s = .ok (cs', s') ↔
    ∃ cs₁ s₁ more₁, pass cs s = .ok (cs₁, s₁) ∧ pass more s₁ = .ok (more₁, s') ∧
      cs' = cs₁ ++ more₁ := by
  induction cs generalizing s cs' with
  | nil =>
    constructor
    · intro h
      exact ⟨[], s, cs', rfl, h, rfl⟩
    · rintro ⟨cs₁, s₁, more₁, h₁, h₂, rfl⟩
      cases h₁
      exact h₂
  | cons c cs ih =>
    rw [List.cons_append, pass_cons_eq_ok_iff]
    constructor
    · rintro ⟨hsite, a, b, _, hp, hcs, rfl⟩
      obtain ⟨cs₁, s₁, more₁, h₁, h₂, rfl⟩ := ih.1 hcs
      exact ⟨_, s₁, more₁, pass_cons_eq_ok_iff.2 ⟨hsite, a, b, cs₁, hp, h₁, rfl⟩, h₂, rfl⟩
    · rintro ⟨_, s₁, more₁, h, h₂, rfl⟩
      obtain ⟨hsite, a, b, cs₁, hp, h₁, rfl⟩ := pass_cons_eq_ok_iff.1 h
      exact ⟨hsite, a, b, _, hp, ih.2 ⟨cs₁, s₁, more₁, h₁, h₂, rfl⟩, rfl⟩

theorem transform_append_right : transform cs (ss ++ more) = (do
    let t ← transform cs ss
    let u ← transform t.client more
    return ⟨u.client, t.server ++ u.server⟩) := by
  induction ss generalizing cs with
  | nil =>
    show transform cs more = transform cs more >>= _
    cases transform cs more <;> rfl
  | cons s ss ih =>
    rw [List.cons_append, transform, transform]
    simp only [ih, bind_assoc, pure_bind, List.cons_append]

theorem transform_append_left : transform (cs ++ more) ss = .ok t ↔
    ∃ u v, transform cs ss = .ok u ∧ transform more u.server = .ok v ∧
      t = ⟨u.client ++ v.client, v.server⟩ := by
  induction ss generalizing cs more t with
  | nil =>
    constructor
    · intro h
      cases h
      exact ⟨_, _, rfl, rfl, rfl⟩
    · rintro ⟨u, v, hu, hv, rfl⟩
      cases hu
      cases hv
      rfl
  | cons s ss ih =>
    simp only [transform_cons_eq_ok_iff, pass_append_eq_ok_iff]
    constructor
    · rintro ⟨_, s₂, t', ⟨cs₁, s₁, more₁, h₁, h₂, rfl⟩, ht, rfl⟩
      obtain ⟨u, v, hu, hv, rfl⟩ := ih.1 ht
      exact ⟨_, _, ⟨cs₁, s₁, u, h₁, hu, rfl⟩, transform_cons_eq_ok_iff.2 ⟨more₁, s₂, v, h₂, hv, rfl⟩, rfl⟩
    · rintro ⟨_, v', ⟨cs₁, s₁, u, h₁, hu, rfl⟩, hv', rfl⟩
      obtain ⟨more₁, s₂, v, h₂, hv, rfl⟩ := transform_cons_eq_ok_iff.1 hv'
      exact ⟨_, s₂, _, ⟨cs₁, s₁, more₁, h₁, h₂, rfl⟩, ih.2 ⟨u, v, hu, hv, rfl⟩, rfl⟩

theorem composes : Composes transform where
  nil_left _ := transform_nil_left
  nil_right _ := transform_nil_right
  append_right _ _ _ := transform_append_right
  append_left _ _ _ _ := transform_append_left

/-- Operations of one author are on both sides. -/
def Clash (client server : List CharOp) : Prop := ∃ c ∈ client, ∃ s ∈ server, c.site = s.site

instance (client server : List CharOp) : Decidable (Clash client server) :=
  inferInstanceAs (Decidable (∃ c ∈ client, ∃ s ∈ server, c.site = s.site))

theorem site_ne_of_pass (h : pass cs s = .ok (cs', s')) : ∀ c ∈ cs, c.site ≠ s.site := by
  induction cs generalizing s cs' with
  | nil => exact List.forall_mem_nil _
  | cons c cs ih =>
    obtain ⟨hc, a, b, cs₁, -, hcs, rfl⟩ := pass_cons_eq_ok_iff.1 h
    intro c' hc'
    rcases List.mem_cons.1 hc' with rfl | hc'
    · exact hc
    · exact ih hcs c' hc'

theorem not_clash_of_ok (h : transform cs ss = .ok t) : ¬ Clash cs ss := by
  rintro ⟨c, hc, s, hs, heq⟩
  induction ss generalizing cs c t with
  | nil => cases hs
  | cons s₀ ss ih =>
    obtain ⟨cs₁, s₁, t₁, hp, ht, rfl⟩ := transform_cons_eq_ok_iff.1 h
    rcases List.mem_cons.1 hs with rfl | hs
    · exact site_ne_of_pass hp c hc heq
    · -- the operation is still there after the pass, with its author
      have hne : ∀ c ∈ cs, c.site ≠ s.site :=
        forall_site_of_labels (P := (· ≠ s.site)) (pass_labels hp).1.symm
          fun c₁ hc₁ h => ih ht c₁ hc₁ hs h
      exact hne c hc heq

theorem clash_iff_of_ne_overflow (h : transform cs ss ≠ .error .overflow) :
    ((∀ t, transform cs ss ≠ .ok t) ↔ Clash cs ss) ∧
      ((∃ e, transform cs ss = .error (.rejected e)) ↔ Clash cs ss) := by
  cases ht : transform cs ss with
  | ok t =>
    have hn := not_clash_of_ok ht
    exact ⟨iff_of_false (fun hne => hne t rfl) hn, iff_of_false nofun hn⟩
  | error f =>
    cases f with
    | overflow => exact absurd ht h
    | rejected e =>
      have hc : Clash cs ss := exists_site_eq_of_rejected ht
      exact ⟨iff_of_true nofun hc, iff_of_true ⟨e, rfl⟩ hc⟩

theorem exists_not_hasRoom (h : transform cs ss = .error .overflow) :
    (∃ c ∈ cs, ¬ c.edit.HasRoom ss.length) ∨ ∃ s ∈ ss, ¬ s.edit.HasRoom cs.length := by
  by_contra hn
  simp only [not_or, not_exists, not_and, not_not] at hn
  exact transform_ne_overflow_of_hasRoom hn.1 hn.2 h

end CharOp

/-! ### A server and the batch of a client -/

/-- The document after a batch that was moved to the end of the history, or the edit that has no place. -/
def Server.verdict (doc : Doc) (ops : List CharOp) : Except Server.Rejection (List CharOp × Doc) :=
  match doc.applyAll (edits ops) with
  | .error e => .error (.edit e)
  | .ok doc => .ok (ops, doc)

theorem Server.judge_of_transform {R : Type} {s : Server R} {base : Revision} {ops : List CharOp}
    {before ds : List (Delivery CharOp)} {t : Transformed CharOp} (hh : s.history = before ++ ds)
    (hb : before.length = base.number) (ht : CharOp.transform ops (delivered ds) = .ok t) :
    s.judge base ops = .ok (verdict s.doc t.client) := by
  have hreached : ¬ s.revision < base := by
    rw [Revision.lt_iff, revision, hh, List.length_append]
    dsimp only
    omega
  have hdrop : s.history.drop base.number = ds := by rw [hh, ← hb, List.drop_left]
  have hrun : Transformer.run CharOp.transform ops (delivered ds) = .ok (.ok t) := by
    unfold Transformer.run
    rw [ht]
  unfold judge verdict
  rw [if_neg hreached, hdrop]
  show Transformer.run CharOp.transform ops (delivered ds) >>= _ = _
  rw [hrun]
  cases hd : s.doc.applyAll (edits t.client) with
  | error e => simp only [bind, Except.bind, hd]; rfl
  | ok doc => simp only [bind, Except.bind, hd]; rfl

/-- Lists are moved past each other as their parts are, and the transform fails exactly between operations
of one author, unless a position that is too close to the limit leaves its range. Therefore a queue that
takes operations in one by one ends with the batch in flight that the server makes of it in one go, and an
operation may arrive before or after the queue is put in flight. -/
theorem CharOp.transform_piecewise :
    Transformer.Composes transform ∧
    (∀ client server, transform client server ≠ .error .overflow →
      ((∀ t, transform client server ≠ .ok t) ↔ Clash client server) ∧
        ((∃ e, transform client server = .error (.rejected e)) ↔ Clash client server)) ∧
    (∀ client server, transform client server = .error .overflow →
      (∃ c ∈ client, ¬ c.edit.HasRoom server.length) ∨
        ∃ s ∈ server, ¬ s.edit.HasRoom client.length) ∧
    (∀ (q q' : Queue CharOp) ds, q.serverOps transform ds = .ok (.ok (), q') ↔
      q.InTurn ds ∧ ∃ flight rest, transform q.unacked (delivered ds) = .ok flight ∧
        transform q.queued flight.server = .ok rest ∧ q' = { q with
          revision := ⟨q.revision.number + ds.length⟩
          unacked := flight.client
          queued := rest.client
          pending := q.pending ++ rest.server }) ∧
    (∀ (q q' : Queue CharOp) ds, q.serverOps transform ds = .ok (.ok (), q') →
      ∀ {R : Type} (s : Server R) before, s.history = before ++ ds →
        before.length = q.revision.number →
        s.judge q.revision q.unacked = .ok (Server.verdict s.doc q'.unacked)) ∧
    ∀ (q : Queue CharOp) revision op, q.unacked = [] →
      (do let (reply, q₁) ← q.serverOp transform revision op
          return (reply, ← q₁.launch)) = (do (← q.launch).serverOp transform revision op) := by
  refine ⟨composes, fun _ _ h => clash_iff_of_ne_overflow h, fun _ _ h => exists_not_hasRoom h,
    fun q q' ds => Queue.serverOps_eq_ok_iff composes, ?_, fun q revision op hu => Queue.serverOp_launch hu⟩
  intro q q' ds h R s before hh hb
  obtain ⟨-, flight, rest, hf, -, rfl⟩ := (Queue.serverOps_eq_ok_iff composes).1 h
  exact Server.judge_of_transform hh hb hf

/-- Two operations of another client arrive at a client with one operation in flight and one queued; the
server has them behind the revision at which the first was submitted. -/
theorem CharOp.transform_piecewise_pair : ∃ (q q' : Queue CharOp) (s : Server Unit),
    q.unacked = [⟨0, 1, .insert 1 'a'⟩] ∧ q.queued = [⟨1, 1, .delete 0⟩] ∧
    q.serverOps transform (s.history.drop q.revision.number) = .ok (.ok (), q') ∧
    q'.unacked = [⟨0, 1, .insert 2 'a'⟩] ∧ q'.queued = [⟨1, 1, .delete 1⟩] ∧
    s.judge q.revision q.unacked = .ok (Server.verdict s.doc q'.unacked) := by
  let other : Session := ⟨"B", by decide⟩
  let history : List (Delivery CharOp) := [⟨⟨1⟩, other, ⟨0, 2, .insert 0 'x'⟩⟩,
    ⟨⟨2⟩, other, ⟨1, 2, .insert 0 'y'⟩⟩, ⟨⟨3⟩, other, ⟨2, 2, .insert 2 'z'⟩⟩]
  let s : Server Unit := { history, doc := ⟨['y', 'x', 'z']⟩, faults := {}, random := () }
  let q : Queue CharOp := {
    revision := ⟨1⟩, unacked := [⟨0, 1, .insert 1 'a'⟩], queued := [⟨1, 1, .delete 0⟩] }
  let q' : Queue CharOp := {
    revision := ⟨3⟩, unacked := [⟨0, 1, .insert 2 'a'⟩], queued := [⟨1, 1, .delete 1⟩]
    pending := [⟨1, 2, .insert 0 'y'⟩, ⟨2, 2, .insert 2 'z'⟩] }
  have htaken : q.serverOps transform (history.drop 1) = .ok (.ok (), q') := rfl
  obtain ⟨-, -, -, -, hserver, -⟩ := transform_piecewise
  exact ⟨q, q', s, rfl, rfl, htaken, rfl, rfl, hserver q q' _ htaken s (history.take 1) rfl rfl⟩

/-- An insert at the last position is moved up by one edit before another one would move it down again, so
this transform fails between two authors. Behind such a pair, two operations of one author are not
rejected. -/
theorem CharOp.transform_overflow_not_clash :
    ¬ ((∀ t, transform [⟨0, 1, .insert 18446744073709551615 'x'⟩]
        [⟨0, 2, .insert 0 'y'⟩, ⟨1, 2, .delete 0⟩] ≠ .ok t) ↔
      Clash [⟨0, 1, .insert 18446744073709551615 'x'⟩] [⟨0, 2, .insert 0 'y'⟩, ⟨1, 2, .delete 0⟩]) ∧
    ¬ ((∃ e, transform [⟨0, 1, .insert 18446744073709551615 'x'⟩, ⟨0, 3, .noop⟩]
        [⟨0, 2, .insert 0 'y'⟩, ⟨1, 3, .noop⟩] = .error (.rejected e)) ↔
      Clash [⟨0, 1, .insert 18446744073709551615 'x'⟩, ⟨0, 3, .noop⟩]
        [⟨0, 2, .insert 0 'y'⟩, ⟨1, 3, .noop⟩]) := by
  have h₁ : transform [⟨0, 1, .insert 18446744073709551615 'x'⟩]
      [⟨0, 2, .insert 0 'y'⟩, ⟨1, 2, .delete 0⟩] = .error .overflow := rfl
  have h₂ : transform [⟨0, 1, .insert 18446744073709551615 'x'⟩, ⟨0, 3, .noop⟩]
      [⟨0, 2, .insert 0 'y'⟩, ⟨1, 3, .noop⟩] = .error .overflow := rfl
  rw [h₁, h₂]
  constructor
  · rw [iff_true_left nofun]
    decide
  · intro h
    obtain ⟨e, he⟩ := h.2 (by decide)
    cases he

end CoEdit
