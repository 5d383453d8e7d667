import CoEdit.Proofs.Diagram

/-!
# A queue between two documents

A transformer keeps its contract (`Transformer.Honours`) if it moves any two lists past each other that
apply to one document, so that both ways around end in one document. Under such a transformer a queue
keeps the client's document and the server's reconcilable, whatever operations are made on either side
and in whatever order they are received, put in flight and confirmed (`Bridge.Run.reconciles`): no
operation on the queue is refused by the transformer, and what the client has in flight and queued, made
on the server's document, leads to the document to which what it has pending leads from its own.

The two documents are followed as they are given by what happens, without assuming that the operations
have a place in them: that they do is part of what is shown.
-/

namespace CoEdit

variable {D M ε : Type} {act : D → M → Except ε D}

namespace Transformer

variable {x : Transformer M} {client server : List M} {d dc ds : D}

/-- Lists that apply to one document are moved past each other, and both ways around end in one
document. -/
def Honours (act : D → M → Except ε D) (x : Transformer M) : Prop :=
  ∀ ⦃d dc ds : D⦄ ⦃client server : List M⦄, acts act d client = .ok dc → acts act d server = .ok ds →
    ∃ t d', x client server = .ok t ∧ acts act dc t.server = .ok d' ∧ acts act ds t.client = .ok d'

theorem Honours.toConverges (hx : x.Honours act) : x.Converges act := by
  intro d dc ds client server t ht hc hs
  obtain ⟨t', d', ht', h⟩ := hx hc hs
  rw [ht] at ht'; cases ht'
  exact ⟨d', h⟩

theorem Honours.past (hx : x.Honours act) (hc : acts act d client = .ok dc)
    (hs : acts act d server = .ok ds) :
    ∃ t, x.Passes client server t ∧ x.past client server = .ok (.ok t) := by
  unfold Transformer.past run
  by_cases hnil : client = []
  · exact ⟨_, .inl ⟨hnil, rfl⟩, by simp [hnil]⟩
  · obtain ⟨t, -, ht, -⟩ := hx hc hs
    exact ⟨t, .inr ⟨hnil, ht⟩, by simp [hnil, ht]⟩

end Transformer

namespace Queue

variable {x : Transformer M} {q : Queue M} {s s' c c' : D} {op : M} {revision : Revision}

theorem clientOp_of_meets (hx : x.Honours act) (h : q.Meets act s c) (hop : act c op = .ok c') :
    ∃ t, q.Stages x op t ∧
      q.clientOp x op = .ok (.ok (), { q with queued := q.queued ++ t.client, pending := t.server }) := by
  obtain ⟨d, -, hpending⟩ := h
  unfold clientOp Transformer.run
  by_cases hnil : q.pending = []
  · exact ⟨⟨[op], []⟩, .inl ⟨hnil, rfl⟩, by simp [hnil]⟩
  · obtain ⟨t, -, ht, -⟩ := hx (acts_singleton_eq_ok_iff.2 hop) hpending
    refine ⟨t, .inr ⟨hnil, ht⟩, ?_⟩
    rw [if_neg (by simpa using hnil), ht]; rfl

theorem withoutEchoes_of_due {α : Type} {k : Checked (Reply M α)} (he : q.expectedEchoes ≠ 0) :
    q.withoutEchoes k = .ok (.error (.echoesOutstanding q.expectedEchoes q.revision), q) :=
  if_neg he

theorem withoutEchoes_of_timely {α : Type} {k : Checked (Reply M α)} (ht : q.Timely revision)
    (hr : q.revision.next = .ok revision) : q.withoutEchoes (q.atNext revision k) = k := by
  unfold withoutEchoes atNext
  rw [if_pos ht.1, hr]
  exact if_pos rfl

theorem serverOp_of_meets (hx : x.Honours act) (h : q.Meets act s c) (hop : act s op = .ok s')
    (ht : q.Timely revision) (hr : q.revision.next = .ok revision) :
    ∃ flight rest, x.Passes q.unacked [op] flight ∧ x.Passes q.queued flight.server rest ∧
      q.serverOp x revision op = .ok (.ok (), { q with
        revision
        unacked := flight.client
        queued := rest.client
        pending := q.pending ++ rest.server }) := by
  obtain ⟨d, hmine, -⟩ := h
  obtain ⟨sent, hsent, hqueued⟩ := acts_append_eq_ok_iff.1 hmine
  have hop := acts_singleton_eq_ok_iff.2 hop
  obtain ⟨flight, hflight, hpast⟩ := hx.past hsent hop
  -- behind the batch in flight stand both what is queued and the operation as the batch left it
  obtain ⟨d', hserver, -⟩ := Transformer.Converges.moves hx.toConverges hflight.moves hsent hop
  obtain ⟨rest, hrest, hpast'⟩ := hx.past hqueued hserver
  refine ⟨flight, rest, hflight, hrest, ?_⟩
  unfold serverOp
  rw [withoutEchoes_of_timely ht hr, hpast]
  simp only [bind, Except.bind, hpast']; rfl

theorem exists_takeEcho (revision : Revision) (he : q.expectedEchoes ≤ q.revision.number)
    (hr : q.revision.number + 1 < Checked.limit) : ∃ r, q.takeEcho revision = .ok r := by
  unfold takeEcho
  split
  · exact ⟨_, rfl⟩
  · have hadd := Checked.add_eq_ok_iff.2 ⟨hr, rfl⟩
    have hsub := Checked.sub_eq_ok_iff.2 ⟨Nat.le_succ_of_le he, rfl⟩
    rw [hadd]
    simp only [bind, Except.bind, hsub]
    split <;> exact ⟨_, rfl⟩

theorem exists_ackOldest (hr : q.revision.next = .ok revision) : ∃ r, q.ackOldest revision = .ok r := by
  unfold ackOldest
  by_cases he : q.expectedEchoes = 0
  · have ht : q.Timely revision := ⟨he, (Revision.next_eq_ok_iff.1 hr).2⟩
    rw [withoutEchoes_of_timely ht hr]
    cases q.unacked with
    | nil => exact ⟨_, rfl⟩
    | cons op rest => exact ⟨_, rfl⟩
  · exact ⟨_, withoutEchoes_of_due he⟩

/-- The echoes that are due count among the operations up to the confirmed revision, so that with a
batch that is confirmed up to `revision` there are no more of them than revisions. -/
theorem exists_ackBatch (he : q.expectedEchoes ≤ q.revision.number)
    (hr : revision.number < Checked.limit) : ∃ r, q.ackBatch revision = .ok r := by
  unfold ackBatch
  split
  · exact ⟨_, rfl⟩
  · rename_i h
    simp only [Bool.or_eq_true, List.isEmpty_iff, bne_iff_ne, not_or, Decidable.not_not,
      Revision.since_eq_some_iff] at h
    have hsum : q.expectedEchoes + q.unacked.length < Checked.limit := by omega
    rw [Checked.add_eq_ok_iff.2 ⟨hsum, rfl⟩]
    exact ⟨_, rfl⟩

/-- What can happen to a queue. -/
inductive Input (M : Type) where
  /-- The client makes an operation. -/
  | edit (op : M)
  /-- The server applies an operation of another client, at the next revision. -/
  | remote (op : M)
  /-- The client takes in what is pending first. -/
  | receive
  /-- What is queued is put in flight. -/
  | launch
  /-- The oldest operation in flight is confirmed, at the next revision. -/
  | confirm
  /-- A response says that the batch in flight was applied up to a revision. -/
  | response (applied : Revision)
  /-- The echo of an operation that a response confirmed may have come. -/
  | echo (revision : Revision)

/-- What comes of an input. -/
structure Outcome (M : Type) where
  queue : Queue M
  refused : Option QueueError := none
  /-- The operations by which the server's document moves on. -/
  applied : List M := []
  /-- The operations by which the client's document moves on. -/
  made : List M := []

def refusal {α : Type} : Except QueueError α → Option QueueError
  | .ok _ => none
  | .error e => some e

def take (x : Transformer M) (q : Queue M) : Input M → Checked (Outcome M)
  | .edit op => do
    let (answer, queue) ← q.clientOp x op
    return { queue, refused := refusal answer, made := [op] }
  | .remote op => do
    let (answer, queue) ← q.serverOp x (← q.revision.next) op
    return { queue, refused := refusal answer, applied := if answer.isOk then [op] else [] }
  | .receive =>
    let (op, queue) := q.receive
    .ok { queue, made := op.toList }
  | .launch => do
    return { queue := ← q.launch }
  | .confirm => do
    let (answer, queue) ← q.ackOldest (← q.revision.next)
    return { queue, refused := refusal answer, applied := if answer.isOk then q.unacked.take 1 else [] }
  | .response applied => do
    let (batch, queue) ← q.ackBatch applied
    return { queue, applied := batch.getD [] }
  | .echo revision => do
    let (answer, queue) ← q.takeEcho revision
    return { queue, refused := refusal answer }

/-- The documents meet, and no more echoes are due than there are revisions. -/
structure Stands (act : D → M → Except ε D) (q : Queue M) (s c : D) : Prop where
  meets : q.Meets act s c
  echoes : q.expectedEchoes ≤ q.revision.number

/-- The input is answered, not with an error of the transformer, and the documents that it leads to
meet. -/
def Carries (act : D → M → Except ε D) (x : Transformer M) (q : Queue M) (s c : D)
    (input : Input M) : Prop :=
  ∃ o s' c', q.take x input = .ok o ∧ (∀ e, o.refused ≠ some (.transform e)) ∧
    acts act s o.applied = .ok s' ∧ acts act c o.made = .ok c' ∧ o.queue.Stands act s' c'

namespace Stands

theorem edit (h : q.Stands act s c) (hx : x.Honours act) (hop : act c op = .ok c') :
    q.Carries act x s c (.edit op) := by
  obtain ⟨t, ht, hclient⟩ := clientOp_of_meets hx h.meets hop
  have htake : q.take x (.edit op) =
      .ok { queue := { q with queued := q.queued ++ t.client, pending := t.server }, made := [op] } := by
    rw [take, hclient]; rfl
  refine ⟨_, s, c', htake, nofun, rfl, acts_singleton_eq_ok_iff.2 hop, ?_, h.echoes⟩
  exact h.meets.clientOp hx.toConverges hop ht.moves

theorem remote (h : q.Stands act s c) (hx : x.Honours act) (hop : act s op = .ok s')
    (hr : q.revision.next = .ok revision) : q.Carries act x s c (.remote op) := by
  have hnum := (Revision.next_eq_ok_iff.1 hr).2
  by_cases he : q.expectedEchoes = 0
  · obtain ⟨flight, rest, hflight, hrest, hserver⟩ := serverOp_of_meets hx h.meets hop ⟨he, hnum⟩ hr
    have htake : q.take x (.remote op) = .ok { queue := { q with
        revision
        unacked := flight.client
        queued := rest.client
        pending := q.pending ++ rest.server }, applied := [op] } := by
      rw [take, hr]
      simp only [bind, Except.bind, hserver]; rfl
    refine ⟨_, s', c, htake, nofun, acts_singleton_eq_ok_iff.2 hop, rfl, ?_, ?_⟩
    · exact h.meets.serverOp hx.toConverges hop hflight.moves hrest.moves
    · dsimp only; omega
  · have hserver : q.serverOp x revision op =
        .ok (.error (.echoesOutstanding q.expectedEchoes q.revision), q) := withoutEchoes_of_due he
    have htake : q.take x (.remote op) =
        .ok { queue := q, refused := some (.echoesOutstanding q.expectedEchoes q.revision) } := by
      rw [take, hr]
      simp only [bind, Except.bind, hserver]; rfl
    exact ⟨_, s, c, htake, nofun, rfl, rfl, h⟩

theorem receive (h : q.Stands act s c) : q.Carries act x s c .receive := by
  obtain ⟨⟨d, hmine, hpending⟩, hechoes⟩ := h
  cases hp : q.pending with
  | nil =>
    have htake : q.take x .receive = .ok { queue := { q with pending := [] } } := by
      simp only [take, Queue.receive, hp]; rfl
    rw [hp] at hpending
    exact ⟨_, s, c, htake, nofun, rfl, rfl, ⟨d, hmine, hpending⟩, hechoes⟩
  | cons op rest =>
    have htake : q.take x .receive = .ok { queue := { q with pending := rest }, made := [op] } := by
      simp only [take, Queue.receive, hp]; rfl
    rw [hp] at hpending
    obtain ⟨c', hop, hrest⟩ := acts_cons_eq_ok_iff.1 hpending
    exact ⟨_, s, c', htake, nofun, rfl, acts_singleton_eq_ok_iff.2 hop, ⟨d, hmine, hrest⟩, hechoes⟩

theorem launch (h : q.Stands act s c) (hu : q.unacked = []) : q.Carries act x s c .launch := by
  have htake : q.take x .launch = .ok { queue := { q with queued := [], unacked := q.queued } } := by
    rw [take, launch_of_nil hu]; rfl
  exact ⟨_, s, c, htake, nofun, rfl, rfl, h.meets.of_eq (by simp [hu]) rfl, h.echoes⟩

theorem confirm (h : q.Stands act s c) (hr : q.revision.next = .ok revision) :
    q.Carries act x s c .confirm := by
  have hnum := (Revision.next_eq_ok_iff.1 hr).2
  obtain ⟨r, hack⟩ := exists_ackOldest hr
  rcases ackOldest_counts.of_ok hack with ⟨op, rest, -, hu, rfl⟩ | ⟨e, he, rfl⟩ | ⟨-, -, rfl⟩
  · have htake : q.take x .confirm =
        .ok { queue := { q with revision, unacked := rest }, applied := [op] } := by
      rw [take, hr]
      simp only [bind, Except.bind, hack, hu]; rfl
    obtain ⟨d, hd⟩ := h.meets.unacked
    rw [hu] at hd
    obtain ⟨s', hop, -⟩ := acts_cons_eq_ok_iff.1 hd
    have hop := acts_singleton_eq_ok_iff.2 hop
    refine ⟨_, s', c, htake, nofun, hop, rfl, h.meets.ack (show q.unacked = [op] ++ rest from hu) hop, ?_⟩
    have := h.echoes
    dsimp only; omega
  · have htake : q.take x .confirm = .ok { queue := q, refused := some e } := by
      rw [take, hr]
      simp only [bind, Except.bind, hack]; rfl
    refine ⟨_, s, c, htake, fun cause hc => ?_, rfl, rfl, h⟩
    cases hc
    rcases he with ⟨-, he⟩ | ⟨-, _, -, -, he⟩ <;> cases he
  · have htake : q.take x .confirm = .ok { queue := q, refused := some (.nothingToAck revision) } := by
      rw [take, hr]
      simp only [bind, Except.bind, hack]; rfl
    exact ⟨_, s, c, htake, nofun, rfl, rfl, h⟩

theorem response (h : q.Stands act s c) (hr : revision.number < Checked.limit) :
    q.Carries act x s c (.response revision) := by
  obtain ⟨r, hack⟩ := exists_ackBatch h.echoes hr
  rcases ackBatch_counts.of_ok hack with ⟨rfl, -⟩ | ⟨hu, hrev, rfl⟩
  · have htake : q.take x (.response revision) = .ok { queue := q } := by rw [take, hack]; rfl
    exact ⟨_, s, c, htake, nofun, rfl, rfl, h⟩
  · have htake : q.take x (.response revision) = .ok { queue := { q with
        revision
        unacked := []
        expectedEchoes := q.expectedEchoes + q.unacked.length }, applied := q.unacked } := by
      rw [take, hack]; rfl
    obtain ⟨s', hs'⟩ := h.meets.unacked
    refine ⟨_, s', c, htake, nofun, hs', rfl, h.meets.ack (List.append_nil _).symm hs', ?_⟩
    have := h.echoes
    dsimp only; omega

theorem echo (h : q.Stands act s c) (hr : q.revision.number + 1 < Checked.limit) :
    q.Carries act x s c (.echo revision) := by
  obtain ⟨r, hecho⟩ := exists_takeEcho revision h.echoes hr
  rcases (takeEcho_counts (Nat.le_succ_of_le h.echoes)).of_ok hecho with
    ⟨-, rfl⟩ | ⟨k, hk, -, rfl⟩ | ⟨expected, -, -, -, rfl⟩
  · have htake : q.take x (.echo revision) = .ok { queue := q } := by rw [take, hecho]; rfl
    exact ⟨_, s, c, htake, nofun, rfl, rfl, h⟩
  · have htake : q.take x (.echo revision) = .ok { queue := { q with expectedEchoes := k } } := by
      rw [take, hecho]; rfl
    refine ⟨_, s, c, htake, nofun, rfl, rfl, h.meets.of_eq rfl rfl, ?_⟩
    have := h.echoes
    dsimp only; omega
  · have htake : q.take x (.echo revision) =
        .ok { queue := q, refused := some (.unexpectedEcho expected revision) } := by
      rw [take, hecho]; rfl
    exact ⟨_, s, c, htake, nofun, rfl, rfl, h⟩

end Stands

end Queue

/-- A queue and the two documents that it stands between. A document is lost with the first operation
that has no place in it. -/
structure Bridge (D M ε : Type) where
  queue : Queue M
  /-- The server's document at the confirmed revision. -/
  server : Except ε D
  /-- The client's document. -/
  client : Except ε D

namespace Bridge

open Queue (Input)

/-- An input to the queue, after which the documents move on as its outcome says. Answers with the error
that the queue refused it with, if any. -/
def step (act : D → M → Except ε D) (x : Transformer M) (b : Bridge D M ε) (input : Input M) :
    Checked (Option QueueError × Bridge D M ε) := do
  let o ← b.queue.take x input
  return (o.refused, ⟨o.queue, b.server >>= (acts act · o.applied), b.client >>= (acts act · o.made)⟩)

/-- The operations made have a place in the documents they are made on, no batch is put over another
one, and revisions stay below the largest number. -/
def Allowed (act : D → M → Except ε D) (b : Bridge D M ε) (input : Input M) : Prop :=
  b.queue.revision.number + 1 < Checked.limit ∧
    match input with
    | .edit op => ∃ c c', b.client = .ok c ∧ act c op = .ok c'
    | .remote op => ∃ s s', b.server = .ok s ∧ act s op = .ok s'
    | .launch => b.queue.unacked = []
    | .response applied => applied.number + 1 < Checked.limit
    | .receive | .confirm | .echo _ => True

inductive Run (act : D → M → Except ε D) (x : Transformer M) : Bridge D M ε → Prop
  | start (revision : Revision) (d : D) : Run act x ⟨.start revision, .ok d, .ok d⟩
  | step {b b' refused} (input : Input M) : Run act x b → b.Allowed act input →
    b.step act x input = .ok (refused, b') → Run act x b'

/-- Both documents are there, and what stands between them leads from both to one document. -/
def Meets (act : D → M → Except ε D) (b : Bridge D M ε) : Prop :=
  ∃ s c, b.server = .ok s ∧ b.client = .ok c ∧ b.queue.Meets act s c

variable {x : Transformer M} {b b' : Bridge D M ε} {s c : D} {input : Input M}

theorem Allowed.carries (ha : b.Allowed act input) (hx : x.Honours act) (hs : b.server = .ok s)
    (hc : b.client = .ok c) (h : b.queue.Stands act s c) : b.queue.Carries act x s c input := by
  obtain ⟨hr, ha⟩ := ha
  have hnext : b.queue.revision.next = .ok ⟨b.queue.revision.number + 1⟩ :=
    Revision.next_eq_ok_iff.2 ⟨hr, rfl⟩
  cases input with
  | edit op =>
    obtain ⟨c₁, c', hc₁, hop⟩ := ha
    rw [hc] at hc₁; cases hc₁
    exact h.edit hx hop
  | remote op =>
    obtain ⟨s₁, s', hs₁, hop⟩ := ha
    rw [hs] at hs₁; cases hs₁
    exact h.remote hx hop hnext
  | receive => exact h.receive
  | launch => exact h.launch ha
  | confirm => exact h.confirm hnext
  | response applied => exact h.response (Nat.lt_of_succ_lt ha)
  | echo revision => exact h.echo hr

/-- Both documents are there and the queue stands between them. -/
def Stands (act : D → M → Except ε D) (b : Bridge D M ε) : Prop :=
  ∃ s c, b.server = .ok s ∧ b.client = .ok c ∧ b.queue.Stands act s c

theorem Stands.meets (h : b.Stands act) : b.Meets act := by
  obtain ⟨s, c, hs, hc, h⟩ := h
  exact ⟨s, c, hs, hc, h.meets⟩

theorem Stands.step (h : b.Stands act) (hx : x.Honours act) (ha : b.Allowed act input) :
    ∃ refused b', b.step act x input = .ok (refused, b') ∧ (∀ e, refused ≠ some (.transform e)) ∧
      b'.Stands act := by
  obtain ⟨s, c, hs, hc, h⟩ := h
  obtain ⟨o, s', c', htake, hne, hs', hc', ho⟩ := ha.carries hx hs hc h
  refine ⟨o.refused, ⟨o.queue, .ok s', .ok c'⟩, ?_, hne, s', c', rfl, rfl, ho⟩
  unfold Bridge.step
  rw [htake, hs, hc]
  simp only [bind, Except.bind, hs', hc']; rfl

theorem Run.stands (h : Run act x b) (hx : x.Honours act) : b.Stands act := by
  induction h with
  | start revision d => exact ⟨d, d, rfl, rfl, ⟨d, rfl, rfl⟩, Nat.zero_le _⟩
  | step _ _ ha hstep ih =>
    obtain ⟨refused, b', hstep', -, hb⟩ := ih.step hx ha
    rw [hstep] at hstep'; cases hstep'
    exact hb

/-- Under a transformer that keeps its contract the documents on both sides of a queue always meet, and
whatever happens next is answered, is not refused by the transformer, and lets them meet again. -/
theorem Run.reconciles (h : Run act x b) (hx : x.Honours act) : b.Meets act ∧
    ∀ input, b.Allowed act input → ∃ refused b', b.step act x input = .ok (refused, b') ∧
      (∀ e, refused ≠ some (.transform e)) ∧ b'.Meets act := by
  refine ⟨(h.stands hx).meets, fun input ha => ?_⟩
  obtain ⟨refused, b', hstep, hne, hb⟩ := (h.stands hx).step hx ha
  exact ⟨refused, b', hstep, hne, hb.meets⟩

/-! ### A register -/

/-- Writes a digit. -/
def write (_ digit : Nat) : Except Unit Nat := if digit < 10 then .ok digit else .error ()

/-- What the client wrote gives way to what the server wrote at the same time. -/
def overwrite : Transformer Nat := fun client server =>
  .ok ⟨if server.isEmpty then client else [], server⟩

theorem overwrite_honours : overwrite.Honours write := by
  intro d dc ds client server hc hs
  cases server with
  | nil =>
    cases hs
    exact ⟨⟨client, []⟩, dc, rfl, rfl, hc⟩
  | cons digit server => exact ⟨⟨[], digit :: server⟩, ds, rfl, hs, rfl⟩

/-- The client has a digit in flight and writes another one, while the server writes a third. -/
theorem reconciles_register : ∃ b, Run write overwrite b ∧ b.queue.pending = [7] ∧
    b.client = .ok 4 ∧ b.server = .ok 7 ∧ b.Meets write := by
  have h₀ : Run write overwrite ⟨.start ⟨5⟩, .ok 0, .ok 0⟩ := .start ⟨5⟩ 0
  have h₁ := h₀.step (.edit 3) ⟨by decide, 0, 3, rfl, rfl⟩ rfl
  have h₂ := h₁.step .launch ⟨by decide, rfl⟩ rfl
  have h₃ := h₂.step (.edit 4) ⟨by decide, 3, 4, rfl, rfl⟩ rfl
  have h₄ := h₃.step (.remote 7) ⟨by decide, 0, 7, rfl, rfl⟩ rfl
  exact ⟨_, h₄, rfl, rfl, rfl, (h₄.reconciles overwrite_honours).1⟩

end Bridge

end CoEdit
