import CoEdit.Proofs.Reachable

/-!
# No run ends a session

Every error of a channel is fatal to its session. Against a server that keeps its order none of them is
reached: no operation on a queue is refused, no reaction ends the session or reports a failure, every
edit has a place in the document that it is made to, and the server rejects no submit. All that can end
a run is a number that leaves its range.
-/

namespace CoEdit

/-- The queue takes a delivery of its own session, or of another, without an error. -/
def Queue.Takes (q : Queue CharOp) (own : Prop) [Decidable own] (d : Delivery CharOp) : Prop :=
  if own then
    (q.takeEcho d.revision).Yields fun r => r.1 = .ok true ∨
      r.1 = .ok false ∧ (r.2.ackOldest d.revision).Yields fun r => ∃ emptied, r.1 = .ok emptied
  else (q.serverOp CharOp.transform d.revision d.op).Yields fun r => r.1 = .ok ()

namespace Channel

variable {tok : Token} {p p' : Standing} {a : Replica} {c : Channel CharOp} {event : Option Ticket}
  {r : Reaction CharOp} {d : Delivery CharOp} {own : Prop} [Decidable own]

/-- The session goes on, and no failure is reported. -/
def Survives (c : Channel CharOp) (r : Reaction CharOp) : Prop :=
  r.1.connection = c.connection ∧ ∀ e ∈ r.2, e ≠ .unsubscribe ∧ ∀ error, e ≠ .failed error

theorem Settles.survives (h : Settles tok p p' a c event r)
    (hc : c.connection = some ⟨a.session, tok⟩) : c.Survives r := by
  refine ⟨h.1.books.connection.trans hc.symm, fun e he => ?_⟩
  rcases h.1.owes.mem he with hm | hr
  · cases e <;> first | exact hm.elim | exact ⟨nofun, nofun⟩
  · cases e <;> first | exact hr.elim | exact ⟨nofun, nofun⟩

theorem takes_of_answer (h : (if own then c.onEcho d.revision d.op
      else c.onRemote CharOp.transform d.revision d.op).Yields fun r => r.1 = .ok ()) :
    c.queue.Takes own d := by
  unfold Queue.Takes
  by_cases ho : own
  · rw [if_pos ho] at h ⊢
    unfold onEcho at h
    rw [Checked.yields_bind] at h
    refine h.mono fun r hr => ?_
    obtain ⟨_ | _ | _, q⟩ := r
    · cases hr
    · refine .inr ⟨rfl, ?_⟩
      dsimp only at hr ⊢
      rw [Checked.yields_bind] at hr
      refine hr.mono fun r hr => ?_
      obtain ⟨_ | emptied, q⟩ := r
      · cases hr
      · exact ⟨emptied, rfl⟩
    · exact .inl rfl
  · rw [if_neg ho] at h ⊢
    unfold onRemote at h
    rw [Checked.yields_bind] at h
    refine h.mono fun r hr => ?_
    obtain ⟨_ | _, q⟩ := r
    · cases hr
    · rfl

end Channel

namespace Simulation

variable {R : Type}

/-- Nothing failed for client `i` so far, and nothing can fail that comes next. -/
structure Sails (s : Simulation R) (i : Nat) (e : Editor R) : Prop where
  /-- No failure was ever reported, and no edit had no place. -/
  errors : e.errors = []
  /-- What was received has a place in the document. -/
  receives : ∃ doc, e.doc.applyAll (edits e.channel.queue.pending) = .ok doc
  /-- So has what the editor chooses. -/
  chooses : ∀ insert place ch, ∃ doc, e.doc.apply (e.choose insert place ch) = .ok doc
  sends : e.channel.isConnected → ∀ edit doc, e.doc.apply edit = .ok doc →
    (e.channel.queue.clientOp CharOp.transform ⟨e.made, e.site, edit⟩).Yields (fun r => r.1 = .ok ()) ∧
      (e.channel.send CharOp.transform ⟨e.made, e.site, edit⟩).Yields fun r =>
        r.1 = .ok () ∧ e.channel.Survives r.2
  handles : ∀ t t' n ev, s.network.timelines[i]? = some t → t.Ready n → t.pick n = some (ev, t') →
    (e.channel.handle CharOp.transform ev).Yields e.channel.Survives
  takes : ∀ t t' n connection message, s.network.timelines[i]? = some t → t.Ready n →
    t.pick n = some (.incoming connection message, t') → ∃ d, message = .ok d ∧
      e.channel.queue.Takes (d.session = e.session) d

section
variable {s : Simulation R} {i : Nat} {e : Editor R} {faces : List (Nat × Session)}

theorem Inv.sails (h : Inv faces s quiet) (he : s.editors[i]? = some e) : s.Sails i e := by
  obtain ⟨t, l, ht, hl, hses, hcl⟩ := h.clients i e he
  rcases hcl with ⟨tok, p, htok, hp, hatt⟩ | ⟨-, -, hidle, -⟩
  · have hkeeps := hatt.keeps_nil
    have hcon := hkeeps.books.connection
    refine ⟨hatt.errors, hatt.drain.2.imp fun _ h => h.1, e.exists_apply_choose,
      fun _ edit doc hd => ⟨?_, ?_⟩, fun t₁ t' n ev ht₁ hr hev => ?_,
      fun t₁ t' n connection message ht₁ hr hev => ?_⟩
    · exact (hkeeps.clientOp edit).mono fun r ⟨t, _, hr⟩ => hr ▸ rfl
    · exact (hatt.send hd).mono fun r hr => ⟨hr.1, hr.2.1.survives hcon⟩
    · rw [ht] at ht₁; cases ht₁
      exact (h.handle he hatt hp hr hev).mono fun r ⟨p', k, _, hs, _⟩ => hs.survives hcon
    · rw [ht] at ht₁; cases ht₁
      obtain ⟨d, ds, rfl, rfl, hahead, -⟩ := hatt.next hr hev
      obtain ⟨hmem, hrev, hbase⟩ := p.upcoming hahead (hp ▸ h.server.replay)
        fun k d hk => h.server.numbered k d (hp ▸ hk)
      refine ⟨d, rfl, Channel.takes_of_answer ?_⟩
      exact (hkeeps.delivery hahead hrev (h.foreign he (hp ▸ hmem)) hbase).mono fun r hr => hr.1
  · -- a client that never connected: nothing waits for it and it makes no edit
    refine ⟨hidle.errors, ⟨e.doc, by rw [hidle.channel]; rfl⟩, e.exists_apply_choose, fun hc => ?_,
      fun t₁ t' n ev ht₁ hr hev => ?_, fun t₁ t' n connection message ht₁ hr hev => ?_⟩
    · rw [hidle.channel] at hc; cases hc
    · rw [ht] at ht₁; cases ht₁
      rw [hidle.pick_eq_none] at hev; cases hev
    · rw [ht] at ht₁; cases ht₁
      rw [hidle.pick_eq_none] at hev; cases hev

end

variable [RandomSource R] {s₀ s s' : Simulation R} {log : List Submission} {i : Nat} {e : Editor R}
  {faces : List (Nat × Session)}

omit [RandomSource R] in
theorem Stepped.connection {Q : Editor R → Editor R → Prop} (h : Stepped faces s i Q s') {j : Nat}
    (he : s.editors[j]? = some e) (hc : e.channel.isConnected) :
    ∃ e', s'.editors[j]? = some e' ∧ e'.channel.connection = e.channel.connection := by
  by_cases hij : i = j
  · subst hij
    rcases h.turn with hs | ⟨e₁, e', ht, -⟩
    · exact ⟨e, by rw [hs.editors, he], rfl⟩
    · have := ht.before
      rw [he] at this; cases this
      exact ⟨e', by rw [ht.after, List.getElem?_set_self (List.getElem?_eq_some_iff.1 he).1],
        ht.connection hc⟩
  · exact ⟨e, by rw [h.getElem?_ne hij, he], rfl⟩

/-- Whatever the order of events and whatever is lost, nothing fails: the server rejects no submit, no
client met an error or can meet one next, and every act leaves the open sessions open, unless a number
leaves its range. -/
theorem Run.faultless (h : Run s₀ log s) (h₀ : s₀.Fresh) :
    s.network.server.stats.rejected = 0 ∧ (∀ i e, s.editors[i]? = some e → s.Sails i e) ∧
      ∀ a, s.Allowed a → (s.act a).Yields fun s' => s'.network.server.stats.rejected = 0 ∧
        ∀ (i : Nat) (e : Editor R), s.editors[i]? = some e → e.channel.isConnected →
          ∃ e' : Editor R, s'.editors[i]? = some e' ∧ e'.channel.connection = e.channel.connection := by
  have hinv := h.inv h₀
  refine ⟨hinv.server.rejected, fun i e he => hinv.sails he, fun a ha => ?_⟩
  exact (hinv.act ha).mono fun s' hs => ⟨hs.inv.server.rejected, fun i e he hc => hs.connection he hc⟩

/-- The second of two clients has an operation of the first to take in and an edit of its own in
flight, which was lost on its way. -/
theorem faultless_pair : ∃ log s e, Run (pair 0) log s ∧ s.editors[1]? = some e ∧
    e.channel.queue.unacked ≠ [] ∧ s.Sails 1 e := by
  obtain ⟨log, s, e, h, he, hu⟩ := Run.exists_of_follow (pair 0)
    [.connect 0, .connect 1, .edit 0 (.insert 0 'a'), .edit 1 (.insert 0 'b'), .event 1 0,
      .chance { dropBeforeApply := 0 } ⟨0⟩, .event 0 0, .event 1 1] 1
    (fun _ _ e => e.channel.queue.unacked ≠ [] && e.channel.queue.pending ≠ []) (by decide +kernel)
  rw [Bool.and_eq_true] at hu
  exact ⟨log, s, e, h, he, of_decide_eq_true hu.1, (h.faultless (fresh_pair _)).2.1 1 e he⟩

end Simulation

end CoEdit
