import CoEdit.Proofs.Reachable

/-!
# Convergence

In every state that is reached a client's document and the server's are two sides of one diagram: what
the client has in flight and queued acts on the document that it has confirmed, what it has pending acts
on its own, and both lead to one document. A client that has nothing to send and nothing to receive has
therefore the server's document, as soon as it was delivered the whole history.
-/

namespace CoEdit.Simulation

variable {R : Type}

/-- The client's operations after the document that it has confirmed, and the pending ones after its
own document, lead to one document. -/
def Editor.Meets (e : Editor R) (history : List (Delivery CharOp)) : Prop :=
  ∃ base sent doc, replay (history.take e.channel.queue.revision.number) = .ok base ∧
    base.applyAll (edits e.channel.queue.unacked) = .ok sent ∧
    sent.applyAll (edits e.channel.queue.queued) = .ok doc ∧
    e.doc.applyAll (edits e.channel.queue.pending) = .ok doc

variable {s₀ s : Simulation R} {log : List Submission} {i : Nat} {e : Editor R}

theorem Attends.meets {tok : Token} {p : Standing} {last : Nat} {t : Timeline CharOp}
    (h : Attends tok p last t e []) :
    e.channel.queue.revision.number ≤ p.history.length ∧ e.Meets p.history := by
  have htr := h.keeps_nil.books.tracks
  have hrev : e.channel.queue.revision.number = p.confirmed.length := htr.revision
  obtain ⟨base, hbase, doc, hmine, hpending⟩ := htr.meets
  obtain ⟨sent, hsent, hqueued⟩ := acts_append_eq_ok_iff.1 hmine
  have htake : p.history.take e.channel.queue.revision.number = p.confirmed := by
    rw [hrev, Standing.history]; exact List.take_left' rfl
  refine ⟨?_, base, sent, doc, by rw [htake]; exact hbase, ?_, ?_, ?_⟩
  · rw [hrev, Standing.history, List.length_append]; exact Nat.le_add_right _ _
  · rw [← Doc.acts_act]; exact hsent
  · rw [← Doc.acts_act]; exact hqueued
  · rw [← Doc.acts_act]; exact hpending

theorem Idle.meets {t : Timeline CharOp} (h : Idle t e) (history : List (Delivery CharOp)) :
    e.channel.queue.revision.number ≤ history.length ∧ e.Meets history := by
  unfold Editor.Meets
  rw [h.channel, h.doc]
  exact ⟨Nat.zero_le _, {}, {}, {}, rfl, rfl, rfl, rfl⟩

variable [RandomSource R]

/-- In every state that is reached every client's diagram commutes, and an echo that confirms an
operation is the oldest one in flight as it stands. -/
theorem Run.converges (h : Run s₀ log s) (h₀ : s₀.Fresh) (he : s.editors[i]? = some e) :
    e.channel.queue.revision.number ≤ s.network.server.history.length ∧
      e.Meets s.network.server.history ∧
      ∀ t t' n connection d, s.network.timelines[i]? = some t → t.Ready n →
        t.pick n = some (.incoming connection (.ok d), t') → d.session = e.session →
        e.channel.queue.expectedEchoes = 0 → ∃ rest, e.channel.queue.unacked = d.op :: rest := by
  obtain ⟨t, l, ht, hl, hses, hcl⟩ := (h.inv h₀).clients i e he
  rcases hcl with ⟨tok, p, htok, hp, hatt⟩ | ⟨-, -, hidle, -⟩
  · obtain ⟨hle, hmeets⟩ := hatt.meets
    rw [hp] at hle hmeets
    refine ⟨hle, hmeets, fun t' t'' n connection d ht' hr hev hd hechoes => ?_⟩
    rw [ht] at ht'; cases ht'
    exact hatt.oldest hr hev hd hechoes
  · obtain ⟨hle, hmeets⟩ := hidle.meets s.network.server.history
    refine ⟨hle, hmeets, fun t' t'' n connection d ht' hr hev hd hechoes => ?_⟩
    rw [ht] at ht'; cases ht'
    -- nothing waits for a client that never connected
    rw [hidle.pick_eq_none] at hev; cases hev

/-- The first of two clients connects and submits an edit, which is applied; the echo is on its way. -/
theorem converges_pair : ∃ log s e, Run (pair 2147483648) log s ∧ s.editors[0]? = some e ∧
    e.channel.queue.unacked = [⟨0, 1, .insert 0 'a'⟩] ∧ e.Meets s.network.server.history := by
  obtain ⟨log, s, e, h, he, hu⟩ := Run.exists_of_follow (pair 2147483648)
    [.connect 0, .connect 1, .edit 0 (.insert 0 'a'), .event 0 0] 0
    (fun _ _ e => e.channel.queue.unacked = [⟨0, 1, .insert 0 'a'⟩]) (by decide +kernel)
  exact ⟨log, s, e, h, he, of_decide_eq_true hu, (h.converges (fresh_pair _) he).2.1⟩

end CoEdit.Simulation
