import CoEdit.Proofs.Reachable

/-!
# Exactly once, in order

A client cannot tell a lost request from a lost response. What it does about that is right in every run:
the server's history has each client's operations exactly once and in the order in which they were made,
and the client hears of their confirmation exactly once and in that order. `Logged` follows the log of
submits: a batch that is in flight and not ahead was lost when it was submitted the last time, so that is
what the log says of every batch that is submitted again.
-/

namespace CoEdit.Simulation

variable {R : Type}

/-- The client's operations are in the history once and in order, and so are the confirmations that it
heard of. -/
structure Editor.InOrder (e : Editor R) (history : List (Delivery CharOp)) : Prop where
  session : ∀ d ∈ history, d.op.site = e.site → d.session = e.session
  acked : e.acked = List.range e.acked.length
  applied : ∃ m, (history.filter (·.op.site = e.site)).map (·.op.id) = List.range m ∧
    e.acked.length ≤ m ∧ m ≤ e.made

/-- The latest submit of a client. -/
def latest (log : List Submission) (client : Nat) : Option Submission :=
  (log.filter (·.client = client)).getLast?

/-- What holds of a submit after those before it. -/
structure Submission.Follows (before : List Submission) (x : Submission) : Prop where
  /-- A batch is applied as a whole unless it is lost. -/
  applied : x.applied = if x.lost then [] else x.batch
  /-- A batch that is submitted again was lost the last time. -/
  again : x.again → ∃ y, latest before x.client = some y ∧ y.lost ∧ y.batch = x.batch
  /-- Nothing that was applied is submitted again. -/
  unapplied : ∀ l ∈ x.batch, l ∉ before.flatMap (·.applied)

/-- The log accounts for what the server and the channels counted, and for the history. -/
structure Accounts (log : List Submission) (s : Simulation R) : Prop where
  submits : log.length = s.network.server.stats.submits
  dropped : log.countP (·.lost) = s.network.server.stats.droppedBeforeApply
  resends : ∀ i e, s.editors[i]? = some e →
    log.countP (fun x => x.client = i ∧ x.again) = e.channel.stats.resends
  history : log.flatMap (·.applied) = s.network.server.history.map (·.op.label)

/-- What the log of a run says. -/
structure Logged (log : List Submission) (s : Simulation R) : Prop where
  accounts : Accounts log s
  follows : ∀ before x behind, log = before ++ x :: behind → x.Follows before
  /-- A batch in flight that is not ahead was lost. -/
  flight : ∀ i e, s.editors[i]? = some e → e.channel.queue.unacked ≠ [] →
    e.Unapplied s.network.server.history → ∃ y, latest log i = some y ∧ y.lost ∧
      y.batch = e.channel.queue.unacked.map CharOp.label

section
variable {s s' : Simulation R} {log : List Submission} {i : Nat} {e e' : Editor R}
  {faces : List (Nat × Session)}

theorem Inv.session_eq (h : Inv faces s quiet) (he : s.editors[i]? = some e) {d : Delivery CharOp}
    (hd : d ∈ s.network.server.history) : d.op.site = e.site ↔ d.session = e.session := by
  refine ⟨fun hs => by_contra fun hne => h.foreign he hd hne hs, fun hs => ?_⟩
  exact congrArg Prod.fst (List.inj_on_of_nodup_map h.sessions (h.authors d hd) (h.face_mem he) hs)

theorem Inv.inOrder (h : Inv faces s quiet) (he : s.editors[i]? = some e) :
    e.InOrder s.network.server.history := by
  have hids : (s.network.server.history.filter (·.op.site = e.site)).map (·.op.id) =
      (ownLabels e.session s.network.server.history).map Prod.fst := by
    rw [List.filter_congr fun d hd => decide_eq_decide.2 (h.session_eq he hd), ownLabels, List.map_map]
    rfl
  refine ⟨fun d hd => (h.session_eq he hd).1, ?_, ?_⟩
  all_goals obtain ⟨t, l, ht, hl, hses, ⟨tok, p, htok, hp, hatt⟩ | ⟨-, -, hidle, habs⟩⟩ := h.clients i e he
  · exact hatt.keeps_nil.books.tracks.acked
  · rw [hidle.acked]; rfl
  · obtain ⟨m, hle, hmade, hlabels, -⟩ := hatt.keeps_nil.books.tracks.ownLabels_history
    have hlabels : ownLabels e.session s.network.server.history = numbered e.site 0 m := hp ▸ hlabels
    refine ⟨m, ?_, hle, hmade⟩
    rw [hids, hlabels, numbered, List.map_map, List.range_eq_range']
    exact List.map_id _
  · refine ⟨0, ?_, by rw [hidle.acked]; exact Nat.le_refl _, Nat.zero_le _⟩
    rw [hids, ownLabels_of_absent habs]; rfl

theorem Inv.session_of_flight (h : Inv faces s quiet) (he : s.editors[i]? = some e)
    {d : Delivery CharOp} (hd : d ∈ s.network.server.history)
    (hl : d.op.label ∈ e.channel.queue.unacked.map CharOp.label) : d.session = e.session := by
  obtain ⟨t, l, -, -, -, ⟨tok, p, -, hp, hatt⟩ | ⟨-, -, hidle, -⟩⟩ := h.clients i e he
  · obtain ⟨op, hop, hlabel⟩ := List.mem_map.1 hl
    have hsite : op.site = e.site :=
      hatt.keeps_nil.books.tracks.site_eq (List.mem_append_left _ hop)
    exact (h.session_eq he hd).1 ((congrArg Prod.snd hlabel).symm.trans hsite)
  · rw [hidle.channel] at hl; cases hl

theorem Inv.unconfirmed (h : Inv faces s quiet) (he : s.editors[i]? = some e) {d : Delivery CharOp}
    (hd : d ∈ s.network.server.history.take e.channel.queue.revision.number) :
    d.op.label ∉ e.channel.queue.unacked.map CharOp.label := by
  intro hl
  have hown := h.session_of_flight he (List.mem_of_mem_take hd) hl
  obtain ⟨t, l, -, -, -, ⟨tok, p, -, hp, hatt⟩ | ⟨-, -, hidle, -⟩⟩ := h.clients i e he
  · have htr := hatt.keeps_nil.books.tracks
    rw [show e.channel.queue.revision.number = _ from htr.revision, ← hp, Standing.history,
      show (p.heard ++ p.awaited ++ p.rest).take p.confirmed.length = p.confirmed
        from List.take_left' rfl] at hd
    refine htr.not_mem_confirmed hl (List.mem_map_of_mem (List.mem_filter.2 ⟨hd, ?_⟩))
    exact decide_eq_true hown
  · rw [hidle.channel] at hl; cases hl

theorem submitted_of_eq (h : s'.network.server.stats.submits = s.network.server.stats.submits) :
    s.submitted i s' = [] := by
  unfold submitted
  dsimp only
  split
  · exact if_pos h
  · rfl

theorem latest_concat_self {x : Submission} : latest (log ++ [x]) x.client = some x := by
  rw [latest, List.filter_append, List.filter_cons_of_pos (by simp), List.filter_nil,
    List.getLast?_concat]

theorem latest_concat_ne {x : Submission} (h : x.client ≠ i) : latest (log ++ [x]) i = latest log i := by
  rw [latest, List.filter_append, List.filter_cons_of_neg (by simpa using h), List.filter_nil,
    List.append_nil, latest]

theorem follows_concat {x : Submission}
    (h : ∀ before y behind, log = before ++ y :: behind → y.Follows before) (hx : x.Follows log) :
    ∀ before y behind, log ++ [x] = before ++ y :: behind → y.Follows before := by
  intro before y behind heq
  rcases List.eq_nil_or_concat behind with rfl | ⟨behind, z, rfl⟩
  · obtain ⟨rfl, hy⟩ := List.append_inj' heq rfl
    cases hy; exact hx
  · rw [List.concat_eq_append, ← List.cons_append, ← List.append_assoc] at heq
    exact h before y behind (List.append_inj' heq rfl).1

theorem Editor.Unapplied.of_append {history ds : List (Delivery CharOp)}
    (h : e.Unapplied (history ++ ds)) : e.Unapplied history := fun d hd => by
  refine h d ?_
  rw [List.drop_append]
  exact List.mem_append_left _ hd

theorem Logged.silent (h : Logged log s) (ht : Turn s i e e' s')
    (hhist : s'.network.server.history = s.network.server.history)
    (hsub : s'.network.server.stats.submits = s.network.server.stats.submits)
    (hdrop : s'.network.server.stats.droppedBeforeApply = s.network.server.stats.droppedBeforeApply)
    (hres : e'.channel.stats.resends = e.channel.stats.resends)
    (hkept : e'.channel.queue.unacked ≠ [] → e'.Unapplied s.network.server.history →
      e.Carries e' s.network.server.history) : Logged log s' := by
  have hlt := (List.getElem?_eq_some_iff.1 ht.before).1
  refine ⟨⟨h.accounts.submits.trans hsub.symm, h.accounts.dropped.trans hdrop.symm, fun j x hx => ?_,
    h.accounts.history.trans (by rw [hhist])⟩, h.follows, fun j x hx hu hun => ?_⟩
  all_goals
    rw [ht.after] at hx
    by_cases hij : i = j
  · subst hij
    rw [List.getElem?_set_self hlt] at hx; cases hx
    rw [hres]; exact h.accounts.resends i e ht.before
  · rw [List.getElem?_set_ne hij] at hx
    exact h.accounts.resends j x hx
  · subst hij
    rw [List.getElem?_set_self hlt] at hx; cases hx
    rw [hhist] at hun
    obtain ⟨hu', hun', hbatch⟩ := hkept hu hun
    obtain ⟨y, hy, hlost, hbatch'⟩ := h.flight i e ht.before hu' hun'
    exact ⟨y, hy, hlost, hbatch'.trans hbatch.symm⟩
  · rw [List.getElem?_set_ne hij] at hx
    rw [hhist] at hun
    exact h.flight j x hx hu hun

/-- The editor's turn in which it submits its batch in flight; `ds` is what is applied of it. -/
structure Sends (s : Simulation R) (i : Nat) (e e' : Editor R) (ds : List (Delivery CharOp))
    (s' : Simulation R) : Prop extends Turn s i e e' s' where
  history : s'.network.server.history = s.network.server.history ++ ds
  submits : s'.network.server.stats.submits = s.network.server.stats.submits + 1
  own : Own e.session ds
  unapplied : e'.Unapplied s.network.server.history
  revision : e'.channel.queue.revision.number ≤ s.network.server.history.length
  fate : ds = [] ∧ s'.network.server.stats.droppedBeforeApply =
      s.network.server.stats.droppedBeforeApply + 1 ∨
    s'.network.server.stats.droppedBeforeApply = s.network.server.stats.droppedBeforeApply ∧
      (delivered ds).map CharOp.label = e'.channel.queue.unacked.map CharOp.label
  resent : e'.channel.stats.resends = e.channel.stats.resends ∨
    e'.channel.stats.resends = e.channel.stats.resends + 1 ∧ e.Carries e' s.network.server.history

section
variable {ds : List (Delivery CharOp)} {x : Submission}

/-- What is logged of it. -/
structure Submission.Records (x : Submission) (s : Simulation R) (i : Nat) (e e' : Editor R)
    (ds : List (Delivery CharOp)) (s' : Simulation R) : Prop where
  client : x.client = i
  batch : x.batch = e'.channel.queue.unacked.map CharOp.label
  again : x.again = decide (e'.channel.stats.resends ≠ e.channel.stats.resends)
  lost : x.lost = decide (s'.network.server.stats.droppedBeforeApply ≠
    s.network.server.stats.droppedBeforeApply)
  applied : x.applied = (delivered ds).map CharOp.label

theorem Sends.after_self (h : Sends s i e e' ds s') : s'.editors[i]? = some e' := by
  rw [h.after]; exact List.getElem?_set_self (List.getElem?_eq_some_iff.1 h.before).1

theorem Sends.submitted (h : Sends s i e e' ds s') :
    ∃ x, s.submitted i s' = [x] ∧ x.Records s i e e' ds s' := by
  have hds : (s'.network.server.history.drop s.network.server.history.length).map (·.op.label) =
      (delivered ds).map CharOp.label := by
    rw [h.history, List.drop_left' rfl, delivered, List.map_map]; rfl
  unfold Simulation.submitted
  rw [h.before, h.after_self]
  dsimp only
  rw [if_neg (by rw [h.submits]; exact Nat.succ_ne_self _), hds]
  exact ⟨_, rfl, rfl, rfl, rfl, rfl, rfl⟩

/-- A batch is submitted when none of it is ahead, so nothing of it was applied before. -/
theorem Sends.not_mem_history (h : Sends s i e e' ds s') (hinv : Inv faces s' quiet)
    {d : Delivery CharOp} (hd : d ∈ s.network.server.history) :
    d.op.label ∉ e'.channel.queue.unacked.map CharOp.label := by
  intro hl
  have hd' : d ∈ s'.network.server.history := by rw [h.history]; exact List.mem_append_left _ hd
  have hmine : d.session = e'.session := hinv.session_of_flight h.after_self hd' hl
  refine hinv.unconfirmed h.after_self ?_ hl
  rw [h.history, List.take_append_of_le_length h.revision]
  rw [← List.take_append_drop e'.channel.queue.revision.number s.network.server.history] at hd
  exact (List.mem_append.1 hd).resolve_right fun hd => h.unapplied d hd hmine

theorem Logged.follows_sends (hlog : Logged log s) (h : Sends s i e e' ds s')
    (hinv : Inv faces s' quiet) (hx : x.Records s i e e' ds s') : x.Follows log := by
  refine ⟨?_, fun ha => ?_, fun l hl hmem => ?_⟩
  · rcases h.fate with ⟨rfl, hd⟩ | ⟨hd, hl⟩
    · rw [hx.applied, if_pos (by rw [hx.lost, hd]; simp)]; rfl
    · rw [hx.applied, if_neg (by rw [hx.lost, hd]; simp), hl, hx.batch]
  · rw [hx.again, decide_eq_true_eq] at ha
    obtain ⟨-, hu, hun, hlabels⟩ := h.resent.resolve_left ha
    rw [hx.batch, hlabels, hx.client]
    exact hlog.flight i e h.before hu hun
  · rw [hlog.accounts.history] at hmem
    obtain ⟨d, hd, rfl⟩ := List.mem_map.1 hmem
    rw [hx.batch] at hl
    exact h.not_mem_history hinv hd hl

theorem Accounts.sends (ha : Accounts log s) (h : Sends s i e e' ds s')
    (hx : x.Records s i e e' ds s') : Accounts (log ++ [x]) s' := by
  refine ⟨?_, ?_, fun j y hy => ?_, ?_⟩
  · rw [List.length_append, ha.submits, h.submits]; rfl
  · rw [List.countP_append, ha.dropped, List.countP_singleton, hx.lost]
    rcases h.fate with ⟨-, hd⟩ | ⟨hd, -⟩ <;> simp [hd]
  · rw [List.countP_append, List.countP_singleton, hx.client]
    by_cases hij : i = j
    · subst hij
      rw [h.after_self] at hy; cases hy
      rw [ha.resends i e h.before]
      rcases h.resent with hr | ⟨hr, -⟩ <;> simp [hx.again, hr]
    · rw [h.after, List.getElem?_set_ne hij] at hy
      rw [ha.resends j y hy]; simp [hij]
  · rw [List.flatMap_append, ha.history, h.history, List.map_append, List.flatMap_singleton,
      hx.applied, delivered, List.map_map]
    rfl

theorem Sends.fate_of_unapplied (h : Sends s i e e' ds s') (hu : e'.channel.queue.unacked ≠ [])
    (hun : e'.Unapplied s'.network.server.history) :
    s'.network.server.stats.droppedBeforeApply = s.network.server.stats.droppedBeforeApply + 1 := by
  rcases h.fate with ⟨-, hd⟩ | ⟨-, hl⟩
  · exact hd
  · exfalso
    have hsame : e'.session = e.session := congrArg Prod.snd h.face
    cases ds with
    | nil => exact hu (List.map_eq_nil_iff.1 hl.symm)
    | cons d ds =>
      refine hun d ?_ ((h.own d (by simp)).trans hsame.symm)
      rw [h.history, List.drop_append_of_le_length h.revision]; simp

theorem Logged.sends (hlog : Logged log s) (hinv : Inv faces s' quiet) (h : Sends s i e e' ds s') :
    Logged (log ++ s.submitted i s') s' := by
  obtain ⟨x, hsub, hx⟩ := h.submitted
  rw [hsub]
  refine ⟨hlog.accounts.sends h hx, follows_concat hlog.follows (hlog.follows_sends h hinv hx),
    fun j y hy hu hun => ?_⟩
  by_cases hij : i = j
  · subst hij
    rw [h.after_self] at hy; cases hy
    have hd := h.fate_of_unapplied hu hun
    exact ⟨x, hx.client ▸ latest_concat_self, by rw [hx.lost, hd]; simp, hx.batch⟩
  · rw [h.after, List.getElem?_set_ne hij] at hy
    rw [h.history] at hun
    rw [latest_concat_ne (hx.client ▸ hij)]
    exact hlog.flight j y hy hu hun.of_append

end

theorem Logged.step {Q : Editor R → Editor R → Prop} (h : Logged log s)
    (hs : Stepped faces s i Q s') : Logged (log ++ s.submitted i s') s' := by
  rcases hs.turn with hst | ⟨e, e', ht, -⟩
  · rw [submitted_of_eq hst.submits, List.append_nil]
    obtain ⟨hed, hhist, hsub, hdrop⟩ := hst
    refine ⟨⟨h.accounts.submits.trans hsub.symm, h.accounts.dropped.trans hdrop.symm, ?_, ?_⟩,
      h.follows, ?_⟩
    · rw [hed]; exact h.accounts.resends
    · rw [hhist]; exact h.accounts.history
    · rw [hed, hhist]; exact h.flight
  · rcases ht.advances with ⟨hhist, hsub, hdrop, hres, hkept⟩ |
      ⟨ds, hhist, hsub, hown, hun, hrev, hfate, hres⟩
    · rw [submitted_of_eq hsub, List.append_nil]
      exact h.silent ht hhist hsub hdrop hres hkept
    · exact h.sends hs.inv ⟨ht, hhist, hsub, hown, hun, hrev, hfate, hres⟩

theorem Fresh.logged (h : s.Fresh) : Logged [] s := by
  obtain ⟨faults, random, hn⟩ := h.network
  refine ⟨⟨by rw [hn]; rfl, by rw [hn]; rfl, fun i e he => ?_, by rw [hn]; rfl⟩, ?_, fun i e he hu => ?_⟩
  · rw [(h.pristine e (List.mem_of_getElem? he)).1]; rfl
  · intro before x behind heq
    exact absurd heq.symm (by simp)
  · rw [(h.pristine e (List.mem_of_getElem? he)).1] at hu
    exact absurd rfl hu

end

variable [RandomSource R] {s₀ s : Simulation R} {log : List Submission}

/-- In every run, whatever is lost and in whatever order events arrive: every client's operations are in
the history once and in order, as are the confirmations it heard of, and a batch is submitted again only
if it was lost the last time. -/
theorem Run.exactly_once (h : Run s₀ log s) (h₀ : s₀.Fresh) :
    (∀ (i : Nat) (e : Editor R), s.editors[i]? = some e → e.InOrder s.network.server.history) ∧
      Accounts log s ∧
      ∀ before x behind, log = before ++ x :: behind → x.Follows before := by
  have hlogged : Logged log s := by
    -- the log says more than the state, so it is followed beside the invariant
    induction h with
    | start => exact h₀.logged
    | act hrun ha hact ih => exact ih.step (((hrun.inv h₀).act ha).of_ok hact)
  exact ⟨fun i e he => (h.inv h₀).inOrder he, hlogged.accounts, hlogged.follows⟩

/-- The first of two clients submits an edit, which is lost; the second submits one, which is applied. -/
theorem exactly_once_pair : ∃ x y s e, Run (pair 0) [x, y] s ∧ s.editors[1]? = some e ∧ x.lost ∧
    y.applied = [(0, 2)] ∧ y.Follows [x] ∧ e.InOrder s.network.server.history := by
  obtain ⟨log, s, e, h, he, hlog⟩ := Run.exists_of_follow (pair 0)
    [.connect 0, .connect 1, .edit 0 (.insert 0 'a'), .event 0 0, .edit 1 (.insert 0 'b'),
      .chance { dropBeforeApply := 0 } ⟨0⟩, .event 1 0] 1
    (fun log _ _ => log.map (fun x => (x.lost, x.applied)) = [(true, []), (false, [(0, 2)])])
    (by decide +kernel)
  obtain ⟨horder, -, hfollows⟩ := h.exactly_once (fresh_pair _)
  have hflags := of_decide_eq_true hlog
  obtain ⟨x, y, rfl⟩ : ∃ x y, log = [x, y] :=
    List.length_eq_two.1 (by simpa using congrArg List.length hflags)
  simp only [List.map_cons, List.map_nil, List.cons.injEq, Prod.mk.injEq, and_true] at hflags
  exact ⟨x, y, s, e, h, he, hflags.1.1, hflags.2.2, hfollows [x] y [] rfl, horder 1 e he⟩

end CoEdit.Simulation
