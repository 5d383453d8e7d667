import CoEdit.Proofs.Flight

/-!
# A replica and the server's history

`Tracks p r`: the replica `r` of one client (its document, its queue and its account of its own
operations) is what a client at the standing `p` in the server's history has to be. The standing cuts
the history in three: what was delivered (`heard`), what was confirmed by a response and is yet to be
delivered (`awaited`), and what is neither (`rest`).

There is one lemma for each thing that happens to a replica: a local edit, taking in what is pending,
putting the queue in flight, an echo of an operation confirmed before, an operation of another client,
the echo that confirms an operation, a response that confirms a batch; and one for each thing that
happens to the history: others append to it, or the batch in flight is applied.
-/

namespace CoEdit

/-- The document that a list of applied operations leads to. -/
def replay (ds : List (Delivery CharOp)) : Except DocError Doc :=
  Doc.applyAll {} (edits (delivered ds))

theorem replay_append_eq_ok_iff {ds es : List (Delivery CharOp)} {d : Doc} :
    replay (ds ++ es) = .ok d ↔
      ∃ d₁, replay ds = .ok d₁ ∧ acts Doc.act d₁ (delivered es) = .ok d := by
  simp only [replay, ← Doc.acts_act, delivered_append, acts_append_eq_ok_iff]

/-- Where a client is in the server's history. -/
structure Standing where
  /-- What was delivered. -/
  heard : List (Delivery CharOp)
  /-- What a response confirmed and is yet to be delivered. -/
  awaited : List (Delivery CharOp)
  /-- What was neither confirmed nor delivered. -/
  rest : List (Delivery CharOp)

namespace Standing

def history (p : Standing) : List (Delivery CharOp) := p.heard ++ p.awaited ++ p.rest

def confirmed (p : Standing) : List (Delivery CharOp) := p.heard ++ p.awaited

/-- What is yet to be delivered. -/
def ahead (p : Standing) : List (Delivery CharOp) := p.awaited ++ p.rest

/-- The history goes on. -/
def extend (p : Standing) (ds : List (Delivery CharOp)) : Standing := { p with rest := p.rest ++ ds }

theorem extend_history (p : Standing) (ds : List (Delivery CharOp)) :
    (p.extend ds).history = p.history ++ ds := by simp [extend, history]

theorem extend_ahead (p : Standing) (ds : List (Delivery CharOp)) :
    (p.extend ds).ahead = p.ahead ++ ds := by simp [extend, ahead]

theorem upcoming (p : Standing) {d : Delivery CharOp} {ds : List (Delivery CharOp)} {doc : Doc}
    (hp : p.ahead = d :: ds) (hreplay : replay p.history = .ok doc)
    (hnum : ∀ (i : Nat) (d : Delivery CharOp), p.history[i]? = some d → d.revision.number = i + 1) :
    d ∈ p.history ∧ d.revision.number = p.heard.length + 1 ∧
      ∃ base, replay (p.heard ++ [d]) = .ok base := by
  have hhist : p.history = p.heard ++ d :: ds := by
    rw [← hp, ahead, ← List.append_assoc]; rfl
  refine ⟨by simp [hhist], hnum _ _ (by simp [hhist]), ?_⟩
  rw [hhist, ← List.singleton_append, ← List.append_assoc] at hreplay
  exact (replay_append_eq_ok_iff.1 hreplay).imp fun _ h => h.1

end Standing

/-- One client's copy of the document with its account of its own operations. -/
structure Replica where
  session : Session
  site : Nat
  doc : Doc
  made : Nat
  acked : List Nat
  queue : Queue CharOp

/-- The labels of `n` operations of one author, from number `start` on. -/
def numbered (site start n : Nat) : List (Nat × Nat) := (List.range' start n).map (·, site)

@[simp] theorem length_numbered {site start n : Nat} : (numbered site start n).length = n := by
  simp [numbered]

theorem numbered_append {site start m n : Nat} :
    numbered site start m ++ numbered site (start + m) n = numbered site start (m + n) := by
  simp [numbered, ← List.map_append, List.range'_append_1]

theorem eq_of_numbered_append {site start n : Nat} {as bs : List (Nat × Nat)}
    (h : as ++ bs = numbered site start n) :
    as = numbered site start as.length ∧ bs = numbered site (start + as.length) bs.length := by
  have hl : n = as.length + bs.length := by simpa using (congrArg List.length h).symm
  rw [hl, ← numbered_append] at h
  exact List.append_inj h (by simp)

/-- The labels of the deliveries of session `me`. -/
def ownLabels (me : Session) (ds : List (Delivery CharOp)) : List (Nat × Nat) :=
  (ds.filter (·.session = me)).map (·.op.label)

section
variable {me : Session} {ds es : List (Delivery CharOp)}

@[simp] theorem ownLabels_append : ownLabels me (ds ++ es) = ownLabels me ds ++ ownLabels me es := by
  simp [ownLabels]

theorem ownLabels_of_absent (h : Absent me ds) : ownLabels me ds = [] := by
  have : ds.filter (·.session = me) = [] :=
    List.filter_eq_nil_iff.2 fun d hd => by simpa using h d hd
  rw [ownLabels, this]; rfl

theorem ownLabels_of_own (h : Own me ds) : ownLabels me ds = (delivered ds).map CharOp.label := by
  have : ds.filter (·.session = me) = ds := List.filter_eq_self.2 fun d hd => by simpa using h d hd
  rw [ownLabels, this, delivered, List.map_map]; rfl

theorem Landed.ownLabels {rest : List (Delivery CharOp)} {batch : List CharOp}
    (h : Landed me rest batch) : CoEdit.ownLabels me rest = batch.map CharOp.label := by
  obtain ⟨before, mine, behind, rfl, hb, hm, hg, -, t, ht, hc⟩ := h
  rw [ownLabels_append, ownLabels_append, ownLabels_of_absent hb, ownLabels_of_absent hg,
    ownLabels_of_own hm, ← hc, (CharOp.transform_labels ht).1]
  simp

end

/-- The replica is what a client at standing `p` has to be. -/
structure Tracks (p : Standing) (r : Replica) : Prop where
  revision : r.queue.revision.number = p.confirmed.length
  echoes : r.queue.expectedEchoes = p.awaited.length
  own : Own r.session p.awaited
  meets : ∃ base, replay p.confirmed = .ok base ∧ r.queue.Meets Doc.act base r.doc
  others : ∀ op ∈ r.queue.pending, op.site ≠ r.site
  acked : r.acked = List.range r.acked.length
  /-- They are the client's own among the confirmed ones. -/
  confirmed : ownLabels r.session p.confirmed = numbered r.site 0 r.acked.length
  /-- Those in flight and queued are all the later ones, in order. -/
  later : (r.queue.unacked ++ r.queue.queued).map CharOp.label =
    numbered r.site r.acked.length (r.queue.unacked.length + r.queue.queued.length)
  made : r.made = r.acked.length + (r.queue.unacked.length + r.queue.queued.length)
  flight : Absent r.session p.rest ∨ Landed r.session p.rest r.queue.unacked

namespace Tracks

variable {p : Standing} {r : Replica} {heard awaited rest ds : List (Delivery CharOp)}
  {d : Delivery CharOp}

theorem site_eq (h : Tracks p r) {op : CharOp} (hop : op ∈ r.queue.unacked ++ r.queue.queued) :
    op.site = r.site := by
  have := List.mem_map_of_mem (f := CharOp.label) hop
  rw [h.later] at this
  obtain ⟨i, -, hi⟩ := List.mem_map.1 this
  exact (congrArg Prod.snd hi).symm

theorem transform_ne_rejected (h : Tracks p r) {ops theirs : List CharOp} {e : TransformError}
    (hops : ∀ op ∈ ops, op ∈ r.queue.unacked ++ r.queue.queued) (hs : ∀ op ∈ theirs, op.site ≠ r.site) :
    CharOp.transform ops theirs ≠ .error (.rejected e) := by
  intro he
  obtain ⟨op, hop, op', hop', heq⟩ := CharOp.exists_site_eq_of_rejected he
  exact hs op' hop' (heq.symm.trans (h.site_eq (hops op hop)))

theorem revision_of_heard (h : Tracks ⟨heard, [], rest⟩ r) :
    r.queue.revision.number = heard.length := by
  have := h.revision
  rwa [Standing.confirmed, List.append_nil] at this

theorem absent_of_nil (h : Tracks p r) (hu : r.queue.unacked = []) : Absent r.session p.rest :=
  h.flight.resolve_right fun hl => hl.batch_ne_nil hu

theorem landed_of_not_absent (h : Tracks p r) (ha : ¬ Absent r.session p.rest) :
    Landed r.session p.rest r.queue.unacked :=
  h.flight.resolve_left ha

/-! ### What happens to the replica -/

theorem edit (h : Tracks p r) {edit : Edit} {doc : Doc} {t : Transformed CharOp}
    (hd : r.doc.apply edit = .ok doc)
    (ht : Transformer.Moves CharOp.transform [⟨r.made, r.site, edit⟩] r.queue.pending t) :
    Tracks p { r with
      doc
      made := r.made + 1
      queue := { r.queue with
        queued := r.queue.queued ++ t.client
        pending := t.server } } := by
  obtain ⟨hc, hs⟩ := CharOp.transform_labels (CharOp.transform_of_moves ht)
  have hl : t.client.length = 1 := CharOp.length_of_labels hc
  have hop : r.doc.act ⟨r.made, r.site, edit⟩ = .ok doc := hd
  obtain ⟨base, hb, hm⟩ := h.meets
  refine ⟨h.revision, h.echoes, h.own, ⟨base, hb, hm.clientOp CharOp.transform_converges hop ht⟩,
    CharOp.forall_site_of_labels (P := (· ≠ r.site)) hs h.others, h.acked, h.confirmed, ?_, ?_,
    h.flight⟩
  · have hn : [(r.made, r.site)] = numbered r.site (r.acked.length +
        (r.queue.unacked.length + r.queue.queued.length)) 1 := by rw [← h.made]; rfl
    dsimp only
    rw [← List.append_assoc, List.map_append, h.later, hc]
    show _ ++ [(r.made, r.site)] = _
    rw [hn, numbered_append, List.length_append, hl, Nat.add_assoc]
  · dsimp only
    rw [h.made, List.length_append, hl]; omega

theorem drain (h : Tracks p r) : ∃ doc, r.doc.applyAll (edits r.queue.pending) = .ok doc ∧
    Tracks p { r with doc, queue := { r.queue with pending := [] } } := by
  obtain ⟨base, hb, hm⟩ := h.meets
  obtain ⟨doc, hd, hm⟩ := hm.drain
  rw [Doc.acts_act] at hd
  exact ⟨doc, hd, ⟨h.revision, h.echoes, h.own, ⟨base, hb, hm⟩,
    (fun _ hop => nomatch hop), h.acked, h.confirmed, h.later, h.made, h.flight⟩⟩

theorem launch (h : Tracks p r) (hu : r.queue.unacked = []) :
    Tracks p { r with queue := { r.queue with queued := [], unacked := r.queue.queued } } := by
  obtain ⟨base, hb, hm⟩ := h.meets
  have hl : r.queue.unacked ++ r.queue.queued = r.queue.queued := by rw [hu, List.nil_append]
  have hn : r.queue.unacked.length + r.queue.queued.length = r.queue.queued.length := by simp [hu]
  refine ⟨h.revision, h.echoes, h.own, ⟨base, hb, hm.of_eq ?_ rfl⟩, h.others, h.acked, h.confirmed,
    ?_, ?_, .inl (h.absent_of_nil hu)⟩
  · simp [hl]
  · have := h.later; rw [hl, hn] at this; simpa using this
  · have := h.made; rw [hn] at this; simpa using this

theorem echo (h : Tracks ⟨heard, d :: awaited, rest⟩ r) :
    Tracks ⟨heard ++ [d], awaited, rest⟩
      { r with queue := { r.queue with expectedEchoes := awaited.length } } := by
  have hc : (heard ++ [d]) ++ awaited = heard ++ d :: awaited := by simp
  obtain ⟨base, hb, hm⟩ := h.meets
  refine ⟨?_, rfl, fun e he => h.own e (List.mem_cons_of_mem _ he), ⟨base, ?_, hm.of_eq rfl rfl⟩,
    h.others, h.acked, ?_, h.later, h.made, h.flight⟩
  · simpa only [Standing.confirmed, hc] using h.revision
  · simpa only [Standing.confirmed, hc] using hb
  · simpa only [Standing.confirmed, hc] using h.confirmed

theorem other (h : Tracks ⟨heard, [], d :: rest⟩ r) (hd : d.session ≠ r.session)
    (hsite : d.op.site ≠ r.site) (hrev : d.revision.number = r.queue.revision.number + 1)
    {base' : Doc} (hbase : replay (heard ++ [d]) = .ok base') {flight queued : Transformed CharOp}
    (hf : Transformer.Moves CharOp.transform r.queue.unacked [d.op] flight)
    (hq : Transformer.Moves CharOp.transform r.queue.queued flight.server queued) :
    Tracks ⟨heard ++ [d], [], rest⟩ { r with queue := { r.queue with
      revision := d.revision
      unacked := flight.client
      queued := queued.client
      pending := r.queue.pending ++ queued.server } } := by
  have htf := CharOp.transform_of_moves hf
  obtain ⟨hfc, hfs⟩ := CharOp.transform_labels htf
  obtain ⟨hqc, hqs⟩ := CharOp.transform_labels (CharOp.transform_of_moves hq)
  obtain ⟨base, hb, hm⟩ := h.meets
  have hop : Doc.act base d.op = .ok base' := by
    obtain ⟨base₁, hb₁, hop⟩ := replay_append_eq_ok_iff.1 hbase
    simp only [Standing.confirmed, List.append_nil] at hb
    rw [hb] at hb₁; cases hb₁
    exact acts_singleton_eq_ok_iff.1 hop
  have hconf : ownLabels r.session (heard ++ [d]) = ownLabels r.session heard := by
    have ha : Absent r.session [d] := fun e he => by rw [List.mem_singleton.1 he]; exact hd
    rw [ownLabels_append, ownLabels_of_absent ha, List.append_nil]
  refine ⟨?_, h.echoes, h.own, ⟨base', by simpa [Standing.confirmed] using hbase, ?_⟩, ?_, h.acked,
    ?_, ?_, ?_, ?_⟩
  · have := h.revision
    simp only [Standing.confirmed, List.append_nil, List.length_append, List.length_singleton] at this ⊢
    omega
  · exact hm.serverOp CharOp.transform_converges hop hf hq
  · intro op hop
    rcases List.mem_append.1 hop with hop | hop
    · exact h.others op hop
    · exact CharOp.forall_site_of_labels (P := (· ≠ r.site)) (hqs.trans hfs) (by simpa using hsite) op hop
  · have := h.confirmed
    simp only [Standing.confirmed, List.append_nil] at this ⊢
    rw [hconf]; exact this
  · dsimp only
    rw [List.map_append, hfc, hqc, ← List.map_append, CharOp.length_of_labels hfc,
      CharOp.length_of_labels hqc]
    exact h.later
  · dsimp only
    rw [CharOp.length_of_labels hfc, CharOp.length_of_labels hqc]; exact h.made
  · refine h.flight.imp Absent.tail fun hl => ?_
    obtain ⟨cs, s, t, hp, ht, rfl⟩ := CharOp.transform_cons_eq_ok_iff.1 htf
    cases ht
    exact hl.cons_other hd hp

/-- The first operations in flight are confirmed as they stand in the history. -/
theorem confirm (h : Tracks p r) (p' : Standing) (mine : List (Delivery CharOp))
    (left : List CharOp) (revision : Revision) (hc : p'.confirmed = p.confirmed ++ mine)
    (hu : r.queue.unacked = delivered mine ++ left) (hm : Own r.session mine)
    (ho : Own r.session p'.awaited) (hrev : revision.number = p'.confirmed.length)
    (hf : Absent r.session p'.rest ∨ Landed r.session p'.rest left) :
    Tracks p' { r with
      acked := r.acked ++ (delivered mine).map (·.id)
      queue := { r.queue with revision, unacked := left, expectedEchoes := p'.awaited.length } } := by
  obtain ⟨base, hb, hmeet⟩ := h.meets
  obtain ⟨d, hd⟩ := hmeet.unacked
  obtain ⟨base', hbase, -⟩ := acts_append_eq_ok_iff.1 (hu ▸ hd)
  have hlater := h.later
  rw [hu, List.append_assoc, List.map_append] at hlater
  obtain ⟨hmine, hleft⟩ := eq_of_numbered_append hlater
  simp only [List.length_map, List.length_append] at hmine hleft
  have hlen : (r.acked ++ (delivered mine).map (·.id)).length =
      r.acked.length + (delivered mine).length := by simp
  refine ⟨hrev, rfl, ho, ⟨base', ?_, hmeet.ack hu hbase⟩, h.others, ?_, ?_, ?_, ?_, hf⟩
  · rw [hc]; exact replay_append_eq_ok_iff.2 ⟨base, hb, hbase⟩
  · have hids : (delivered mine).map (·.id) =
        List.range' r.acked.length (delivered mine).length := by
      have := congrArg (List.map Prod.fst) hmine
      simpa [numbered, List.map_map, Function.comp_def, CharOp.label] using this
    dsimp only
    rw [hlen, List.range_eq_range', ← List.range'_append_1, ← List.range_eq_range', ← h.acked, hids,
      Nat.zero_add]
  · dsimp only
    rw [hc, ownLabels_append, h.confirmed, ownLabels_of_own hm, hmine, hlen, ← numbered_append,
      Nat.zero_add]
  · dsimp only
    rw [hlen]; exact hleft
  · have := h.made
    dsimp only
    rw [hlen]; rw [hu, List.length_append] at this; omega

theorem ack (h : Tracks ⟨heard, [], d :: rest⟩ r) (hd : d.session = r.session)
    (hrev : d.revision.number = r.queue.revision.number + 1) :
    ∃ unacked, r.queue.unacked = d.op :: unacked ∧
      (unacked = [] ∨ ¬ Absent r.session rest) ∧
      Tracks ⟨heard ++ [d], [], rest⟩ { r with
        acked := r.acked ++ [d.op.id]
        queue := { r.queue with revision := d.revision, unacked, expectedEchoes := 0 } } := by
  have hown : Own r.session [d] := fun e he => by rw [List.mem_singleton.1 he]; exact hd
  obtain ⟨unacked, hu, hfl⟩ := (h.landed_of_not_absent fun ha => ha d (by simp) hd).cons_own hd
  refine ⟨unacked, hu, hfl.imp And.left Landed.not_absent,
    h.confirm ⟨heard ++ [d], [], rest⟩ [d] unacked d.revision (by simp [Standing.confirmed]) hu hown
      h.own ?_ (hfl.imp_left And.right)⟩
  have := h.revision
  simp only [Standing.confirmed, List.append_nil, List.length_append, List.length_singleton] at this ⊢
  omega

/-- A response confirms the batch in flight, which reaches up to the response's revision. -/
theorem ackBatch (h : Tracks ⟨heard, awaited, rest⟩ r) {applied : Revision}
    (hl : Landed r.session rest r.queue.unacked)
    (ha : applied.number = r.queue.revision.number + r.queue.unacked.length)
    (hb : Absent r.session (rest.drop r.queue.unacked.length)) :
    ∃ mine behind, rest = mine ++ behind ∧
      Tracks ⟨heard, awaited ++ mine, behind⟩ { r with
        acked := r.acked ++ r.queue.unacked.map (·.id)
        queue := { r.queue with
          revision := applied
          unacked := []
          expectedEchoes := r.queue.expectedEchoes + r.queue.unacked.length } } := by
  obtain ⟨mine, behind, hr, hm, hbe, hd⟩ := hl.take_batch hb
  have hlen : r.queue.unacked.length = mine.length := by rw [← hd]; exact List.length_map _
  have hrev := h.revision
  have := h.confirm ⟨heard, awaited ++ mine, behind⟩ mine [] applied (by simp [Standing.confirmed])
    (by rw [List.append_nil, hd]) hm (h.own.append hm)
    (by simp only [Standing.confirmed, List.length_append] at hrev ⊢; omega) (.inl hbe)
  rw [hd, List.length_append, ← hlen, ← show _ = awaited.length from h.echoes] at this
  exact ⟨mine, behind, hr, this⟩

theorem extend (h : Tracks p r) (hds : Absent r.session ds) : Tracks (p.extend ds) r :=
  ⟨h.revision, h.echoes, h.own, h.meets, h.others, h.acked, h.confirmed, h.later, h.made,
    h.flight.imp (fun h => h.append hds) (fun h => h.append hds)⟩

theorem land (h : Tracks p r) (ha : Absent r.session p.rest) (hu : r.queue.unacked ≠ [])
    {t : Transformed CharOp} (ht : CharOp.transform r.queue.unacked (delivered p.rest) = .ok t)
    (hd : delivered ds = t.client) (hm : Own r.session ds) : Tracks (p.extend ds) r :=
  ⟨h.revision, h.echoes, h.own, h.meets, h.others, h.acked, h.confirmed, h.later, h.made,
    .inr (.of_absent ha hu ht hd hm)⟩

theorem not_mem_confirmed (h : Tracks p r) {l : Nat × Nat} (hl : l ∈ r.queue.unacked.map CharOp.label) :
    l ∉ ownLabels r.session p.confirmed := by
  have hlater := h.later
  rw [List.map_append] at hlater
  rw [(eq_of_numbered_append hlater).1] at hl
  rw [h.confirmed]
  intro hc
  obtain ⟨m, hm, rfl⟩ := List.mem_map.1 hl
  obtain ⟨k, hk, heq⟩ := List.mem_map.1 hc
  obtain rfl : k = m := congrArg Prod.fst heq
  rw [List.mem_range'_1] at hm hk
  omega

/-- The client's own operations in the history are the first ones that it made. -/
theorem ownLabels_history (h : Tracks p r) : ∃ m, r.acked.length ≤ m ∧ m ≤ r.made ∧
    ownLabels r.session p.history = numbered r.site 0 m ∧
    (Absent r.session p.rest → m = r.acked.length) := by
  have hm := h.made
  have hc := h.confirmed
  unfold Standing.confirmed at hc
  unfold Standing.history
  rw [ownLabels_append, hc]
  rcases h.flight with ha | hl
  · exact ⟨_, Nat.le_refl _, by omega, by rw [ownLabels_of_absent ha, List.append_nil], fun _ => rfl⟩
  · refine ⟨_, Nat.le_add_right _ r.queue.unacked.length, by omega, ?_,
      fun ha => absurd ha hl.not_absent⟩
    rw [hl.ownLabels, ← numbered_append, Nat.zero_add,
      (eq_of_numbered_append (List.map_append.symm.trans h.later)).1, List.length_map]

end Tracks

end CoEdit
