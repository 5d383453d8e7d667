import CoEdit.Proofs.Conservation
import CoEdit.Proofs.Requests

/-!
# A channel and a server that takes its time

`Exchange` is one session of a channel with a server, together with what is on its way between them. The
server applies the batches that reach it at any moment or never, and the channel may be told of the failure
of a request whatever becomes of it.

The server's history is followed from the revision that the channel confirmed. Of the session's operations
nothing is behind it, or just what is left of the batch in flight, or the batch is still on its way (`Fate`);
and what the phase of the channel takes for granted is so (`Rests`). Here is what each thing that the channel
does makes of this (`Sound`).
-/

namespace CoEdit

variable {M L : Type}

/-- A transform keeps the labels of all operations, and own operations are moved past others. -/
structure Transformer.Respects (x : Transformer M) (label : M → L) (own : L → Prop) : Prop where
  client : ∀ ⦃client server : List M⦄ ⦃t : Transformed M⦄, x client server = .ok t →
    t.client.map label = client.map label
  server : ∀ ⦃client server : List M⦄ ⦃t : Transformed M⦄, x client server = .ok t →
    t.server.map label = server.map label
  accepts : ∀ ⦃client server : List M⦄ ⦃e : TransformError⦄, (∀ l ∈ client.map label, own l) →
    (∀ l ∈ server.map label, ¬ own l) → x client server ≠ .error (.rejected e)

theorem CharOp.transform_respects (site : Nat) :
    Transformer.Respects CharOp.transform CharOp.label (·.2 = site) := by
  refine ⟨fun _ _ _ ht => (transform_labels ht).1, fun _ _ _ ht => (transform_labels ht).2, ?_⟩
  intro client server e hc hs he
  obtain ⟨op, hop, s, hmem, hsite⟩ := exists_site_eq_of_rejected he
  have hown : op.site = site := hc _ (List.mem_map_of_mem hop)
  exact hs _ (List.mem_map_of_mem hmem) (hsite.symm.trans hown)

section
variable {x : Transformer M} {label : M → L} {own : L → Prop} {client server : List M}
  {t : Transformed M} {q : Queue M} {op : M}

theorem Transformer.Respects.keepsClients (hx : x.Respects label own) : x.KeepsClients := by
  intro client server t ht hne hnil
  have hlabels := hx.client ht
  rw [hnil] at hlabels
  exact hne (List.map_eq_nil_iff.1 hlabels.symm)

theorem Transformer.Passes.labels (h : x.Passes client server t) (hx : x.Respects label own) :
    t.client.map label = client.map label ∧ t.server.map label = server.map label := by
  rcases h with ⟨rfl, rfl⟩ | ⟨-, ht⟩
  · exact ⟨rfl, rfl⟩
  · exact ⟨hx.client ht, hx.server ht⟩

theorem Queue.Stages.labels (h : q.Stages x op t) (hx : x.Respects label own) :
    t.client.map label = [label op] ∧ t.server.map label = q.pending.map label := by
  rcases h with ⟨hp, rfl⟩ | ⟨-, ht⟩
  · rw [hp]
    exact ⟨rfl, rfl⟩
  · exact ⟨hx.client ht, hx.server ht⟩

theorem Queue.not_rejects {e : TransformError} (hx : x.Respects label own)
    (hown : ∀ l ∈ q.unacked.map label ++ q.queued.map label, own l) (hop : ¬ own (label op)) :
    ¬ q.Rejects x op e := by
  have hsingle : ∀ l ∈ [op].map label, ¬ own l := by simpa using hop
  rintro (⟨-, he⟩ | ⟨flight, hf, -, he⟩)
  · exact hx.accepts (fun l hl => hown l (List.mem_append_left _ hl)) hsingle he
  · refine hx.accepts (fun l hl => hown l (List.mem_append_right _ hl)) ?_ he
    rw [(hf.labels hx).2]
    exact hsingle

end

/-- The client of a session. -/
structure Participant (M L : Type) where
  connection : Channel.Connection
  /-- What every transform keeps of an operation. -/
  label : M → L
  /-- The labels of the client's operations. -/
  own : L → Prop

namespace Participant

variable {p : Participant M L} {ds es : List (Delivery M)} {d : Delivery M}

def session (p : Participant M L) : Session := p.connection.session

/-- The labels of what was applied of the session. -/
def labels (p : Participant M L) (ds : List (Delivery M)) : List L :=
  (ds.filter (·.session = p.session)).map fun d => p.label d.op

@[simp] theorem labels_append : p.labels (ds ++ es) = p.labels ds ++ p.labels es := by
  simp [labels]

theorem labels_cons_self (hd : d.session = p.session) :
    p.labels (d :: ds) = p.label d.op :: p.labels ds := by
  simp [labels, hd]

theorem labels_cons_other (hd : d.session ≠ p.session) : p.labels (d :: ds) = p.labels ds := by
  simp [labels, hd]

theorem labels_eq_nil_iff : p.labels ds = [] ↔ ∀ d ∈ ds, d.session ≠ p.session := by
  simp [labels]

theorem labels_of_own (h : ∀ d ∈ ds, d.session = p.session) :
    p.labels ds = ds.map fun d => p.label d.op := by
  have hall : ds.filter (·.session = p.session) = ds :=
    List.filter_eq_self.2 fun d hd => by simpa using h d hd
  rw [labels, hall]

theorem own_of_length_labels (h : (p.labels ds).length = ds.length) :
    ∀ d ∈ ds, d.session = p.session := by
  rw [labels, List.length_map, List.length_filter_eq_length_iff] at h
  simpa using h

theorem labels_take_append_drop {n : Nat} :
    p.labels (ds.take n) ++ p.labels (ds.drop n) = p.labels ds := by
  rw [← labels_append, List.take_append_drop]

theorem labels_drop_eq_nil {m n : Nat} (h : p.labels (ds.drop m) = []) (hle : m ≤ n) :
    p.labels (ds.drop n) = [] := by
  rw [labels_eq_nil_iff] at h ⊢
  exact fun d hd => h d (List.drop_subset_drop_left _ hle hd)

/-- The client with a site of its own. -/
def ofSite (connection : Channel.Connection) (site : Nat) : Participant CharOp (Nat × Nat) where
  connection
  label := CharOp.label
  own l := l.2 = site

end Participant

/-- The batch that an effect submits, with its token. -/
def Effect.submit? : Effect M → Option (Token × List M)
  | .submit token _ ops => some (token, ops)
  | _ => none

def Effect.probe? : Effect M → Option Token
  | .probe token => some token
  | _ => none

/-- A session of a channel with a server, and what is on its way between them. -/
structure Exchange (M : Type) where
  channel : Channel M
  /-- Everything that the server applied. -/
  history : List (Delivery M)
  /-- How much of the history was delivered. -/
  heard : Nat
  /-- The submits that the server has not applied and that are not lost. -/
  travelling : List (Token × List M) := []
  /-- The probes that the server has not answered. -/
  probing : List Token := []
  /-- The submits that were applied, each with the revision of its last operation. -/
  applied : List (Token × Revision) := []
  /-- The probes that were answered, each with the revision that the server had then. -/
  answered : List (Token × Revision) := []
  /-- The operations that the channel accepted. -/
  sent : List M := []

namespace Exchange

open Channel

/-- The channel answers with its new state and its effects. -/
def goOn (w : Exchange M) (r : Reaction M) : Exchange M := { w with
  channel := r.1
  travelling := w.travelling ++ r.2.filterMap Effect.submit?
  probing := w.probing ++ r.2.filterMap Effect.probe? }

/-- The tokens of all requests. -/
def tokens (w : Exchange M) : List Token :=
  w.travelling.map (·.1) ++ w.probing ++ w.applied.map (·.1) ++ w.answered.map (·.1)

/-- How many deliveries a call hands over. -/
def deliveries : Call M → Nat
  | .handle (.incoming ..) => 1
  | _ => 0

def turn (w : Exchange M) (t : Turn M) (c : Channel M) : Exchange M := { w.goOn (c, t.effects) with
  heard := w.heard + deliveries t.call
  sent := w.sent ++ t.accepted?.toList }

/-- A call that may be made now: deliveries come in order, and a request that failed may have been
applied or answered, or may be yet. -/
inductive Offers (p : Participant M L) (w : Exchange M) : Call M → Prop
  | send {op} (hown : p.own (p.label op)) (hnew : p.label op ∉ w.sent.map p.label) :
      Offers p w (.send op)
  | peek : Offers p w .peek
  | receive : Offers p w .receive
  | task {task} : Offers p w (.handle (.task task))
  | applied {token n} (h : (token, n) ∈ w.applied) :
      Offers p w (.handle (.submitResponse token (.ok n)))
  | answered {token n} (h : (token, n) ∈ w.answered) :
      Offers p w (.handle (.probeResponse token (.ok n)))
  | fails {event message} (he : event.failure? = some (.retryable message)) :
      Offers p w (.handle event)
  | delivery {d} (hd : w.history[w.heard]? = some d) :
      Offers p w (.handle (.incoming p.connection.token (.ok d)))

/-- Every applied operation bears the next revision. -/
def Numbered (history : List (Delivery M)) : Prop :=
  ∀ i d, history[i]? = some d → d.revision.number = i + 1

/-- The channel is called, or the server does something: it applies an operation of another session, it
applies a batch that is on its way, a batch is lost, it answers a probe. A `patient` server does the last
only while no batch is on its way. -/
inductive Step (x : Transformer M) (p : Participant M L) (patient : Prop) :
    Exchange M → Exchange M → Prop
  | calls {w reply c effects} (call : Call M) (ho : w.Offers p call)
      (hcall : w.channel.call x call = .ok (reply, c, effects)) :
      Step x p patient w (w.turn ⟨call, reply, effects⟩ c)
  | appends {w d} (hd : d.session ≠ p.session) (hown : ¬ p.own (p.label d.op))
      (hnum : Numbered (w.history ++ [d])) :
      Step x p patient w { w with history := w.history ++ [d] }
  | applies {w before token ops behind} (ds : List (Delivery M))
      (ht : w.travelling = before ++ (token, ops) :: behind) (hown : ∀ d ∈ ds, d.session = p.session)
      (hlabels : (ds.map fun d => p.label d.op) = ops.map p.label)
      (hnum : Numbered (w.history ++ ds)) : Step x p patient w { w with
        travelling := before ++ behind
        history := w.history ++ ds
        applied := (token, ⟨w.history.length + ds.length⟩) :: w.applied }
  | loses {w before request behind} (ht : w.travelling = before ++ request :: behind) :
      Step x p patient w { w with travelling := before ++ behind }
  | answers {w before token behind} (hp : w.probing = before ++ token :: behind)
      (hpatient : patient → w.travelling = []) : Step x p patient w { w with
        probing := before ++ behind
        answered := (token, ⟨w.history.length⟩) :: w.answered }

/-- `w` is reached from the moment when a channel, after any calls, connects for a new session. -/
inductive Run (x : Transformer M) (p : Participant M L) (patient : Prop) : Exchange M → Prop
  | start {log c₀ c effects} (revision : Revision) (history : List (Delivery M))
      (hrun : Channel.Run x log c₀)
      (hcall : c₀.call x (.connect revision p.session) = .ok (.done (.ok ()), c, effects))
      (hconn : c.connection = some p.connection) (hnum : Numbered history)
      (hrev : revision.number ≤ history.length) (hnew : ∀ d ∈ history, d.session ≠ p.session)
      (hothers : ∀ d ∈ history.drop revision.number, ¬ p.own (p.label d.op)) :
      Run x p patient { channel := c, history, heard := revision.number }
  | step {w w'} : Run x p patient w → Step x p patient w w' → Run x p patient w'

/-- What became of the batch in flight, whose operations bear the labels `batch`; `ahead` are those of the
session's operations behind the confirmed revision. -/
inductive Fate (label : M → L) (travelling : List (Token × List M)) (batch ahead : List L) : Prop
  | lost (ht : travelling = []) (ha : ahead = [])
  /-- What is left of it is applied, and its echoes are to come. -/
  | applied (ht : travelling = []) (ha : ahead = batch)
  | underway {token ops} (ht : travelling = [(token, ops)]) (hops : ops.map label = batch)
      (hne : batch ≠ []) (ha : ahead = [])

/-- The labels of the session's operations behind the confirmed revision. -/
def ahead (p : Participant M L) (w : Exchange M) : List L :=
  p.labels (w.history.drop w.channel.queue.revision.number)

/-- None of the session's operations is behind `n`, and none comes that was submitted before. -/
structure Settled (p : Participant M L) (history : List (Delivery M))
    (travelling : List (Token × List M)) (n : Revision) : Prop where
  within : n.number ≤ history.length
  nowhere : travelling = []
  absent : p.labels (history.drop n.number) = []

/-- What a phase may rely on: the response to a submit tells that it is applied, and behind the revision
that a probe tells there is nothing of the session's. -/
structure Rests (p : Participant M L) (w : Exchange M) (phase : Phase) : Prop where
  submit : ∀ token base batch n, phase = .waitingAck token base batch false → (token, n) ∈ w.applied →
    Settled p w.history w.travelling n ∧ w.ahead p = w.channel.queue.unacked.map p.label
  probe : ∀ token n, phase = .waitingSync token false none → (token, n) ∈ w.answered →
    Settled p w.history w.travelling n
  target : ∀ token answered n, phase = .waitingSync token answered (some n) →
    Settled p w.history w.travelling n

/-- What holds after every step if the server is patient. -/
structure Sound (p : Participant M L) (w : Exchange M) : Prop where
  connection : w.channel.connection = some p.connection
  numbered : Numbered w.history
  revision : w.heard + w.channel.queue.expectedEchoes = w.channel.queue.revision.number
  confirmed : w.channel.queue.revision.number ≤ w.history.length
  echoes : ∀ d ∈ (w.history.drop w.heard).take w.channel.queue.expectedEchoes, d.session = p.session
  others : ∀ d ∈ w.history.drop w.heard, d.session ≠ p.session → ¬ p.own (p.label d.op)
  pending : ∀ l ∈ w.channel.queue.pending.map p.label, ¬ p.own l
  sent : w.sent.map p.label = p.labels (w.history.take w.channel.queue.revision.number) ++
    w.channel.queue.unacked.map p.label ++ w.channel.queue.queued.map p.label
  owns : ∀ l ∈ w.sent.map p.label, p.own l
  distinct : (w.sent.map p.label).Nodup
  fate : Fate p.label w.travelling (w.channel.queue.unacked.map p.label) (w.ahead p)
  rests : w.Rests p w.channel.phase
  minted : ∀ token ∈ w.tokens, token.number < w.channel.tokens.next

section
variable {x : Transformer M} {p : Participant M L} {w : Exchange M} {r r' : Reaction M}
  {d : Delivery M} {phase : Phase} {tokens : TokenSource} {stats : Stats} {task : Option Token}

theorem mem_tokens {token : Token} : token ∈ w.tokens ↔ (∃ ops, (token, ops) ∈ w.travelling) ∨
    token ∈ w.probing ∨ (∃ n, (token, n) ∈ w.applied) ∨ ∃ n, (token, n) ∈ w.answered := by
  simp [tokens]

theorem Fate.of_nil {label : M → L} {travelling : List (Token × List M)} {batch ahead : List L}
    (h : Fate label travelling batch ahead) (hb : batch = []) : travelling = [] ∧ ahead = [] := by
  cases h with
  | lost ht ha => exact ⟨ht, ha⟩
  | applied ht ha => exact ⟨ht, ha.trans hb⟩
  | underway ht hops hne ha => exact absurd hb hne

/-- With an own operation ahead the batch is applied. -/
theorem Fate.of_ne_nil {label : M → L} {travelling : List (Token × List M)} {batch ahead : List L}
    (h : Fate label travelling batch ahead) (ha : ahead ≠ []) : travelling = [] ∧ ahead = batch := by
  cases h with
  | lost ht hnil => exact absurd hnil ha
  | applied ht heq => exact ⟨ht, heq⟩
  | underway ht hops hne hnil => exact absurd hnil ha

theorem Settled.ahead_eq_nil {n : Revision} (h : Settled p w.history w.travelling n)
    (hle : n.number ≤ w.channel.queue.revision.number) : w.ahead p = [] :=
  Participant.labels_drop_eq_nil h.absent hle

theorem Rests.of_idle (hsubmit : ∀ token base batch, phase ≠ .waitingAck token base batch false)
    (hsync : phase.state ≠ .waitingSync) : w.Rests p phase where
  submit token base batch _ hp := absurd hp (hsubmit token base batch)
  probe _ _ hp := absurd (congrArg Phase.state hp) hsync
  target _ _ _ hp := absurd (congrArg Phase.state hp) hsync

theorem Rests.allAcked : w.Rests p (.allAcked task) :=
  .of_idle (fun _ _ _ h => by cases h) fun h => by cases h

theorem Rests.delayResync {timer : Token} : w.Rests p (.delayResync timer) :=
  .of_idle (fun _ _ _ h => by cases h) fun h => by cases h

theorem Rests.answered {token : Token} {base : Revision} {batch : Nat} :
    w.Rests p (.waitingAck token base batch true) :=
  .of_idle (fun _ _ _ h => by cases h) fun h => by cases h

theorem Rests.asking {token : Token} (h : ∀ n, (token, n) ∉ w.answered) :
    w.Rests p (.waitingSync token false none) where
  submit _ _ _ _ hp := by cases hp
  probe _ n hp hn := by
    cases hp
    exact absurd hn (h n)
  target _ _ _ hp := by cases hp

theorem Rests.learned {token : Token} {n : Revision} (h : Settled p w.history w.travelling n) :
    w.Rests p (.waitingSync token true (some n)) where
  submit _ _ _ _ hp := by cases hp
  probe _ _ hp := by cases hp
  target _ _ _ hp := by
    cases hp
    exact h

theorem drop_heard (hd : w.history[w.heard]? = some d) :
    w.history.drop w.heard = d :: w.history.drop (w.heard + 1) := by
  obtain ⟨hlt, rfl⟩ := List.getElem?_eq_some_iff.1 hd
  exact List.drop_eq_getElem_cons hlt

namespace Sound

theorem labels_history : p.labels w.history =
    p.labels (w.history.take w.channel.queue.revision.number) ++ w.ahead p :=
  Participant.labels_take_append_drop.symm

theorem labels_prefix (h : w.Sound p) : p.labels w.history <+: w.sent.map p.label := by
  rw [labels_history, h.sent, List.append_assoc, List.prefix_append_right_inj]
  cases h.fate with
  | lost ht ha => rw [ha]; exact List.nil_prefix
  | applied ht ha => rw [ha]; exact List.prefix_append _ _
  | underway ht hops hne ha => rw [ha]; exact List.nil_prefix

/-! ### What the channel does -/

theorem enter {probing : List Token} (h : w.Sound p)
    (ht : w.channel.tokens.next ≤ tokens.next)
    (hp : ∀ token ∈ probing, token ∈ w.probing ∨ token.number < tokens.next)
    (hr : w.Rests p phase) :
    Sound p { w with channel := { w.channel with phase, tokens, stats }, probing } := by
  refine { h with rests := ⟨hr.submit, hr.probe, hr.target⟩, minted := fun token htoken => ?_ }
  rw [mem_tokens] at htoken
  have hold (hw : token ∈ w.tokens) : token.number < tokens.next :=
    Nat.lt_of_lt_of_le (h.minted token hw) ht
  rcases htoken with htoken | htoken | htoken
  · exact hold (mem_tokens.2 (.inl htoken))
  · rcases hp token htoken with htoken | hlt
    · exact hold (mem_tokens.2 (.inr (.inl htoken)))
    · exact hlt
  · exact hold (mem_tokens.2 (.inr (.inr htoken)))

theorem buffer {queued pending sent : List M} {more : List L} (h : w.Sound p)
    (hpending : ∀ l ∈ pending.map p.label, ¬ p.own l)
    (hqueued : queued.map p.label = w.channel.queue.queued.map p.label ++ more)
    (hsent : sent.map p.label = w.sent.map p.label ++ more) (howns : ∀ l ∈ more, p.own l)
    (hdistinct : (sent.map p.label).Nodup) : Sound p { w with
      channel := { w.channel with queue := { w.channel.queue with queued, pending } }
      sent } := by
  refine { h with
    pending := hpending
    sent := ?_
    owns := fun l hl => ?_
    distinct := hdistinct
    rests := ⟨h.rests.submit, h.rests.probe, h.rests.target⟩ }
  · dsimp only
    rw [hsent, hqueued, h.sent, List.append_assoc]
  · rw [hsent] at hl
    exact (List.mem_append.1 hl).elim (h.owns l) (howns l)

theorem launch (h : w.Sound p) (hp : w.channel.phase = .allAcked task)
    (hu : w.channel.queue.unacked = []) : Sound p { w with
      channel := { w.channel with
        queue := { w.channel.queue with queued := [], unacked := w.channel.queue.queued } } } := by
  obtain ⟨ht, ha⟩ := h.fate.of_nil (by rw [hu]; rfl)
  refine { h with
    sent := ?_
    fate := .lost ht ha
    rests := by rw [hp]; exact Rests.allAcked }
  have hsent := h.sent
  rw [hu] at hsent
  simpa using hsent

theorem submit {base : Revision} {batch : Nat} (h : w.Sound p) (ht : w.travelling = [])
    (ha : w.ahead p = []) (hu : w.channel.queue.unacked ≠ []) : Sound p { w with
      channel := { w.channel with
        tokens := ⟨w.channel.tokens.next + 1⟩
        stats
        phase := .waitingAck ⟨w.channel.tokens.next⟩ base batch false }
      travelling := w.travelling ++ [(⟨w.channel.tokens.next⟩, w.channel.queue.unacked)] } := by
  refine { h with
    fate := .underway (by rw [ht]; rfl) rfl (by simpa using hu) ha
    rests := ⟨fun token base batch n htoken hn => ?_, nofun, nofun⟩
    minted := fun token htoken => ?_ }
  · -- The token is new, so nothing is known to be applied under it.
    cases htoken
    have hlt := h.minted _ (mem_tokens.2 (.inr (.inr (.inl ⟨n, hn⟩))))
    exact absurd hlt (Nat.lt_irrefl _)
  · rw [mem_tokens] at htoken
    rcases htoken with ⟨ops, hops⟩ | htoken
    · dsimp only at hops
      rw [ht] at hops
      cases List.mem_singleton.1 hops
      exact Nat.lt_succ_self _
    · exact Nat.lt_succ_of_lt (h.minted token (mem_tokens.2 (.inr htoken)))

/-- The response confirms the batch: all that was applied since the confirmed revision is the batch. -/
theorem confirm {token : Token} {base applied : Revision} {batch : Nat} (h : w.Sound p)
    (hp : w.channel.phase = .waitingAck token base batch false) (happlied : (token, applied) ∈ w.applied)
    (hr : applied.number = w.channel.queue.revision.number + w.channel.queue.unacked.length)
    (ht : w.channel.tokens.next ≤ tokens.next) : Sound p { w with
      channel := { w.channel with
        queue := { w.channel.queue with
          revision := applied
          unacked := []
          expectedEchoes := w.channel.queue.expectedEchoes + w.channel.queue.unacked.length }
        tokens
        stats
        phase := .allAcked task } } := by
  obtain ⟨hsettled, hahead⟩ := h.rests.submit _ _ _ _ hp happlied
  have hle := hsettled.within
  have habsent := hsettled.absent
  rw [hr] at hle habsent
  -- Since the confirmed revision the server applied all of the batch and just as many operations.
  obtain ⟨mine, hmine⟩ : ∃ ds, ds = (w.history.drop w.channel.queue.revision.number).take
    w.channel.queue.unacked.length := ⟨_, rfl⟩
  have hbatch : p.labels mine = w.channel.queue.unacked.map p.label := by
    have hsplit : p.labels mine ++ p.labels ((w.history.drop w.channel.queue.revision.number).drop
        w.channel.queue.unacked.length) = w.ahead p := by
      rw [hmine]
      exact Participant.labels_take_append_drop
    rwa [List.drop_drop, habsent, List.append_nil, hahead] at hsplit
  have hown : ∀ d ∈ mine, d.session = p.session := by
    refine Participant.own_of_length_labels ?_
    rw [hbatch, hmine, List.length_map, List.length_take, List.length_drop]
    omega
  have hrev := h.revision
  refine { h with
    revision := ?_
    confirmed := hsettled.within
    echoes := fun d hd => ?_
    sent := ?_
    fate := .lost hsettled.nowhere hsettled.absent
    rests := .allAcked
    minted := fun token htoken => Nat.lt_of_lt_of_le (h.minted token htoken) ht }
  · dsimp only
    omega
  · dsimp only at hd
    rw [List.take_add, List.drop_drop, hrev, ← hmine] at hd
    exact (List.mem_append.1 hd).elim (h.echoes d) (hown d)
  · dsimp only
    rw [hr, List.take_add, ← hmine, Participant.labels_append, hbatch, List.map_nil, List.append_nil]
    exact h.sent

theorem recognise {k : Nat} (h : w.Sound p) (hd : w.history[w.heard]? = some d)
    (he : w.channel.queue.expectedEchoes = k + 1) : Sound p { w with
      channel := { w.channel with queue := { w.channel.queue with expectedEchoes := k }, stats }
      heard := w.heard + 1 } := by
  have hdrop := drop_heard hd
  have hrev := h.revision
  have hechoes := h.echoes
  have hothers := h.others
  rw [he, hdrop, List.take_succ_cons] at hechoes
  rw [hdrop] at hothers
  refine { h with
    revision := ?_
    echoes := fun d hd => hechoes d (.tail _ hd)
    others := fun d hd => hothers d (.tail _ hd)
    rests := ⟨h.rests.submit, h.rests.probe, h.rests.target⟩ }
  dsimp only
  omega

/-- The next delivery is the first operation behind the confirmed revision. -/
theorem next (h : w.Sound p) (hd : w.history[w.heard]? = some d)
    (he : w.channel.queue.expectedEchoes = 0) :
    d.revision.number = w.channel.queue.revision.number + 1 ∧
      w.heard = w.channel.queue.revision.number ∧
      w.history.take d.revision.number =
        w.history.take w.channel.queue.revision.number ++ [d] ∧
      w.history.drop w.channel.queue.revision.number = d :: w.history.drop d.revision.number := by
  have hrev := h.revision
  rw [he, Nat.add_zero] at hrev
  have hnum := h.numbered _ d hd
  have hdrop := drop_heard hd
  rw [hrev] at hnum hdrop
  refine ⟨hnum, hrev, ?_, ?_⟩
  · rw [hnum, List.take_add, hdrop]
    rfl
  · rw [hnum, hdrop]

theorem ack {op : M} {rest : List M} (stats : Stats) (h : w.Sound p) (hd : w.history[w.heard]? = some d)
    (he : w.channel.queue.expectedEchoes = 0) (hme : d.session = p.session)
    (hu : w.channel.queue.unacked = op :: rest) : Sound p { w with
      channel := { w.channel with
        queue := { w.channel.queue with revision := d.revision, unacked := rest }, stats }
      heard := w.heard + 1 } := by
  obtain ⟨hnum, hheard, htake, hdrop⟩ := h.next hd he
  have hahead : w.ahead p = p.label d.op :: p.labels (w.history.drop d.revision.number) := by
    rw [ahead, hdrop, Participant.labels_cons_self hme]
  -- An own operation is ahead, so the batch is applied and this is the first that is left of it.
  obtain ⟨ht, hbatch⟩ := h.fate.of_ne_nil (by rw [hahead]; simp)
  rw [hahead, hu, List.map_cons] at hbatch
  obtain ⟨hlabel, hrest⟩ := List.cons.inj hbatch
  have hothers := h.others
  rw [drop_heard hd] at hothers
  refine { h with
    revision := ?_
    confirmed := ?_
    echoes := ?_
    others := fun d hd => hothers d (.tail _ hd)
    sent := ?_
    fate := .applied ht hrest
    rests := ⟨fun token base batch n hp hn => ⟨(h.rests.submit token base batch n hp hn).1, hrest⟩,
      h.rests.probe, h.rests.target⟩ }
  · dsimp only
    omega
  · have hlt := (List.getElem?_eq_some_iff.1 hd).1
    dsimp only
    omega
  · dsimp only
    rw [he]
    exact List.forall_mem_nil _
  · have hsent := h.sent
    rw [hu] at hsent
    dsimp only
    rw [hsent, htake, Participant.labels_append, Participant.labels_cons_self hme, hlabel]
    simp [Participant.labels]

theorem takeIn {unacked queued pending : List M} (h : w.Sound p)
    (hd : w.history[w.heard]? = some d) (he : w.channel.queue.expectedEchoes = 0)
    (hme : d.session ≠ p.session)
    (hunacked : unacked.map p.label = w.channel.queue.unacked.map p.label)
    (hqueued : queued.map p.label = w.channel.queue.queued.map p.label)
    (hpending : pending.map p.label = w.channel.queue.pending.map p.label ++ [p.label d.op]) :
    Sound p { w with
      channel := { w.channel with
        queue := { w.channel.queue with revision := d.revision, unacked, queued, pending }, stats }
      heard := w.heard + 1 } := by
  obtain ⟨hnum, hheard, htake, hdrop⟩ := h.next hd he
  have hahead : w.ahead p = p.labels (w.history.drop d.revision.number) := by
    rw [ahead, hdrop, Participant.labels_cons_other hme]
  have hothers := h.others
  rw [drop_heard hd] at hothers
  have hfate := h.fate
  rw [← hunacked, hahead] at hfate
  refine { h with
    revision := ?_
    confirmed := ?_
    echoes := ?_
    others := fun d hd => hothers d (.tail _ hd)
    pending := fun l hl => ?_
    sent := ?_
    fate := hfate
    rests := ⟨fun token base batch n hp hn => ?_, h.rests.probe, h.rests.target⟩ }
  · dsimp only
    omega
  · have hlt := (List.getElem?_eq_some_iff.1 hd).1
    dsimp only
    omega
  · dsimp only
    rw [he]
    exact List.forall_mem_nil _
  · dsimp only at hl
    rw [hpending] at hl
    rcases List.mem_append.1 hl with hl | hl
    · exact h.pending l hl
    · rw [List.mem_singleton.1 hl]
      exact hothers d (.head _) hme
  · dsimp only
    rw [htake, Participant.labels_append, Participant.labels_cons_other hme, hunacked, hqueued, h.sent]
    simp [Participant.labels]
  · obtain ⟨hsettled, hbatch⟩ := h.rests.submit token base batch n hp hn
    refine ⟨hsettled, ?_⟩
    rw [hahead, ← hunacked] at hbatch
    exact hbatch

end Sound

end

end Exchange

end CoEdit
