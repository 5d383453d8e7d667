import CoEdit.Proofs.Latency

/-!
# What becomes of a submit

A submit is lost on its way, refused, or applied (`Server.Fate`), whatever batch it is, whatever revision
it claims to be made at and whoever sends it. One random fraction decides whether it is lost, and the
server's state whether it is refused: if the server has not reached the revision, if the transformer
rejects the batch, or if any edit of the transformed batch has no place in the document (`Refuses`).

`Settles` says what the server is left with and what it posts. It is one statement for all fates: the
history goes on by what the fate applies, which is nothing unless the batch is applied, and then the whole
batch; every client is relayed just that; and the response to the requester comes last.
-/

namespace CoEdit

theorem Transformer.run_within {M : Type} {x : Transformer M} {client server : List M}
    {F : Fault → Prop} (hx : x client server ≠ .error .overflow ∨ F .addOverflow) :
    (x.run client server).Within F fun r => (∃ t, x client server = .ok t ∧ r = .ok t) ∨
      ∃ e, x client server = .error (.rejected e) ∧ r = .error e := by
  unfold run
  cases h : x client server with
  | ok t => exact .inl ⟨t, rfl, rfl⟩
  | error failure =>
    cases failure with
    | rejected e => exact .inr ⟨e, rfl, rfl⟩
    | overflow => exact hx.resolve_left (not_not_intro h)

namespace Server

variable {R : Type}

/-- Why the server refuses a batch. -/
inductive Refuses (s : Server R) (base : Revision) (ops : List CharOp) : Rejection → Prop
  | ahead (h : s.history.length < base.number) : Refuses s base ops (.ahead base s.revision)
  | transform {e : TransformError} (h : base.number ≤ s.history.length)
      (ht : CharOp.transform ops (delivered (s.history.drop base.number)) = .error (.rejected e)) :
      Refuses s base ops (.transform e)
  | edit {t : Transformed CharOp} {e : DocError} (h : base.number ≤ s.history.length)
      (ht : CharOp.transform ops (delivered (s.history.drop base.number)) = .ok t)
      (he : s.doc.applyAll (edits t.client) = .error e) : Refuses s base ops (.edit e)

theorem Refuses.of_eq {s s₁ : Server R} {base : Revision} {ops : List CharOp} {cause : Rejection}
    (h : s₁.Refuses base ops cause) (hh : s₁.history = s.history) (hd : s₁.doc = s.doc) :
    s.Refuses base ops cause := by
  cases h with
  | ahead h =>
    rw [revision, hh]
    exact .ahead (hh ▸ h)
  | transform h ht => exact .transform (hh ▸ h) (hh ▸ ht)
  | edit h ht he => exact .edit (hh ▸ h) (hh ▸ ht) (hd ▸ he)

/-- The batch, moved past what was applied since `base`, has a place in the document. -/
structure Accepts (s : Server R) (base : Revision) (ops moved : List CharOp) (doc : Doc) : Prop where
  reached : base.number ≤ s.history.length
  transform : ∃ t, CharOp.transform ops (delivered (s.history.drop base.number)) = .ok t ∧
    t.client = moved
  applies : s.doc.applyAll (edits moved) = .ok doc

/-- What becomes of a submit. -/
inductive Fate where
  | lost
  | refused (cause : Rejection)
  /-- The history goes on by `ds`; `heard` unless the response is lost. -/
  | applied (ds : List (Delivery CharOp)) (heard : Bool)

namespace Fate

def applies : Fate → List (Delivery CharOp)
  | applied ds _ => ds
  | _ => []

def answer (s : Server R) : Fate → Except ServiceError Revision
  | lost => .error requestLost
  | refused cause => .error (.fatal cause.message)
  | applied ds true => .ok ⟨s.history.length + ds.length⟩
  | applied _ false => .error responseLost

def count (stats : Stats) : Fate → Stats
  | lost => { stats with droppedBeforeApply := stats.droppedBeforeApply + 1 }
  | refused _ => { stats with rejected := stats.rejected + 1 }
  | applied ds true => { stats with appliedOps := stats.appliedOps + ds.length }
  | applied ds false => { stats with
      appliedOps := stats.appliedOps + ds.length
      droppedAfterApply := stats.droppedAfterApply + 1 }

def accepted : Fate → Bool
  | applied .. => true
  | _ => false

/-- The fate follows from the fraction that was drawn and from the state of the server. -/
def Fits (s : Server R) (roll : Float) (session : Session) (base : Revision) (ops : List CharOp) :
    Fate → Prop
  | lost => roll < s.faults.dropBeforeApply
  | refused cause => ¬ roll < s.faults.dropBeforeApply ∧ s.Refuses base ops cause
  | applied ds heard => ¬ roll < s.faults.dropBeforeApply ∧
      (heard = false ↔ roll < s.faults.dropBeforeApply + s.faults.dropAfterApply) ∧ Own session ds ∧
      (delivered ds).map CharOp.label = ops.map CharOp.label ∧
      ∃ doc, s.Accepts base ops (delivered ds) doc

end Fate

variable [RandomSource R] {s : Server R} {F : Fault → Prop} {client now : Nat} {session : Session}
  {token : Token} {base : Revision} {ops : List CharOp}

/-- What a submit of client `client` at time `now` leads to if `fate` becomes of it. -/
structure Settles (s : Server R) (client now : Nat) (session : Session) (token : Token)
    (base : Revision) (ops : List CharOp) (fate : Fate) (o : Outcome R) : Prop where
  fits : fate.Fits s (Random.fraction s.random).1 session base ops
  history : o.2.history = s.history ++ fate.applies
  numbered : ∀ (k : Nat) (d : Delivery CharOp), fate.applies[k]? = some d →
    d.revision.number = s.history.length + k + 1
  doc : s.doc.applyAll (edits (delivered fate.applies)) = .ok o.2.doc
  stats : o.2.stats = fate.count { s.stats with submits := s.stats.submits + 1 }
  links : o.2.links.length = s.links.length
  adds : s.Adds now fate.applies.length o
  answer : ∃ relays ms, s.faults.minLatencyMs ≤ ms ∧ ms ≤ s.faults.maxLatencyMs ∧
    o.1 = relays ++ [⟨client, now + ms, .submitResponse token (fate.answer s)⟩] ∧
    (∀ j, Feeds j fate.applies s relays o.2) ∧
    (fate.accepted = false → relays = [] ∧ o.2.links = s.links)

omit [RandomSource R] in
theorem judge_within (hx : CharOp.transform ops (delivered (s.history.drop base.number)) ≠
      .error .overflow ∨ F .addOverflow) :
    (s.judge base ops).Within F fun r => (∃ cause, s.Refuses base ops cause ∧ r = .error cause) ∨
      ∃ moved doc, s.Accepts base ops moved doc ∧ r = .ok (moved, doc) := by
  unfold judge
  split
  · exact .inl ⟨_, .ahead ‹_›, rfl⟩
  · have hle : base.number ≤ s.history.length := Nat.not_lt.1 ‹_›
    refine (Transformer.run_within hx).bind fun r hr => ?_
    rcases hr with ⟨t, ht, rfl⟩ | ⟨e, he, rfl⟩
    · dsimp only
      cases hd : s.doc.applyAll (edits t.client) with
      | error e => exact .inl ⟨_, .edit hle ht hd, rfl⟩
      | ok doc => exact .inr ⟨_, _, ⟨hle, ⟨t, ht, rfl⟩, hd⟩, rfl⟩
    · exact .inl ⟨_, .transform hle he, rfl⟩

/-- A batch is refused and nothing but a counter changes, or all of it is applied. -/
theorem apply_within (hlat : s.faults.minLatencyMs ≤ s.faults.maxLatencyMs ∨ F .emptyRange)
    (ht : now + s.faults.maxLatencyMs < Checked.timeLimit ∨ F .timeOverflow)
    (hc : s.history.length + ops.length < Checked.limit ∨ F .addOverflow)
    (hx : CharOp.transform ops (delivered (s.history.drop base.number)) ≠ .error .overflow ∨
      F .addOverflow) :
    (s.apply now session base ops).Within F fun r =>
      (∃ cause, s.Refuses base ops cause ∧
        r = (.error cause, [], { s with stats := { s.stats with rejected := s.stats.rejected + 1 } })) ∨
      ∃ ds doc posts s', s.Accepts base ops (delivered ds) doc ∧ Own session ds ∧
        Grows ds { s with doc } posts s' ∧ s.Adds now ds.length (posts, s') ∧
        r = (.ok s'.revision, posts, s') := by
  unfold apply
  refine (judge_within hx).bind fun r hr => ?_
  rcases hr with ⟨cause, hcause, rfl⟩ | ⟨moved, doc, hacc, rfl⟩
  · exact .inl ⟨cause, hcause, rfl⟩
  · have hlen : moved.length = ops.length := by
      obtain ⟨t, ht, rfl⟩ := hacc.transform
      exact CharOp.length_of_labels (CharOp.transform_labels ht).1
    let s₀ : Server R := { s with doc }
    have happend : (s₀.each (fun s op => s.append now session op) moved).Within F
        (s₀.Adds now moved.length) := each_append_within hlat ht (hlen ▸ hc)
    refine (happend.and_yields each_append_yields).bind fun o ho => ?_
    obtain ⟨posts, s'⟩ := o
    obtain ⟨hadds, ds, hown, rfl, hgrows⟩ := ho
    rw [delivered, List.length_map] at hadds
    exact .inr ⟨ds, doc, posts, s', hacc, hown, hgrows, hadds.of_eq rfl rfl rfl, rfl⟩

/-- The fate of a submit is decided: the server is at `s₁` and has posted `relays`, and only the
response is left. -/
structure Decides (s : Server R) (now : Nat) (session : Session) (base : Revision)
    (ops : List CharOp) (fate : Fate) (relays : List Posting) (s₁ : Server R) : Prop where
  fits : fate.Fits s (Random.fraction s.random).1 session base ops
  history : s₁.history = s.history ++ fate.applies
  numbered : ∀ (k : Nat) (d : Delivery CharOp), fate.applies[k]? = some d →
    d.revision.number = s.history.length + k + 1
  doc : s.doc.applyAll (edits (delivered fate.applies)) = .ok s₁.doc
  stats : s₁.stats = fate.count { s.stats with submits := s.stats.submits + 1 }
  links : s₁.links.length = s.links.length
  adds : s.Adds now fate.applies.length (relays, s₁)
  feeds : ∀ j, Feeds j fate.applies s relays s₁
  spares : fate.accepted = false → relays = [] ∧ s₁.links = s.links

theorem Decides.of_unapplied {fate : Fate} {s₁ : Server R} (happlies : fate.applies = [])
    (hfits : fate.Fits s (Random.fraction s.random).1 session base ops)
    (hstats : s₁.stats = fate.count { s.stats with submits := s.stats.submits + 1 })
    (hf : s₁.faults = s.faults) (hh : s₁.history = s.history) (hd : s₁.doc = s.doc)
    (hl : s₁.links = s.links) : s.Decides now session base ops fate [] s₁ where
  fits := hfits
  history := by rw [happlies, hh, List.append_nil]
  numbered := by rw [happlies]; exact fun _ _ h => nomatch h
  doc := by rw [happlies, hd]; rfl
  stats := hstats
  links := congrArg List.length hl
  adds := by rw [happlies]; exact .of_links hf hh hl
  feeds := by rw [happlies]; exact fun _ => .of_links hl rfl
  spares := fun _ => ⟨rfl, hl⟩

theorem Decides.of_applied {ds : List (Delivery CharOp)} {heard : Bool} {doc : Doc} {random : R}
    {stats₀ stats : Stats} {posts : List Posting} {s' : Server R}
    (hroll : ¬ (Random.fraction s.random).1 < s.faults.dropBeforeApply)
    (hheard : heard = false ↔
      (Random.fraction s.random).1 < s.faults.dropBeforeApply + s.faults.dropAfterApply)
    (hacc : s.Accepts base ops (delivered ds) doc) (hown : Own session ds)
    (hgrows : Grows ds { s with doc, random, stats := stats₀ } posts s')
    (hadds : s.Adds now ds.length (posts, s'))
    (hstats : stats = (Fate.applied ds heard).count { s.stats with submits := s.stats.submits + 1 }) :
    s.Decides now session base ops (.applied ds heard) posts { s' with stats } where
  fits := by
    have hlabels : (delivered ds).map CharOp.label = ops.map CharOp.label := by
      obtain ⟨t, ht, heq⟩ := hacc.transform
      rw [← heq]; exact (CharOp.transform_labels ht).1
    exact ⟨hroll, hheard, hown, hlabels, doc, hacc⟩
  history := hgrows.history
  numbered := hgrows.numbered
  doc := by
    show _ = Except.ok s'.doc
    rw [hgrows.doc]; exact hacc.applies
  stats := hstats
  links := hgrows.links
  adds := ⟨hadds.faults, hadds.history, hadds.due⟩
  feeds := hgrows.feeds
  spares := nofun

theorem Decides.answer_within {fate : Fate} {s₁ : Server R} {relays : List Posting}
    (h : s.Decides now session base ops fate relays s₁)
    (hlat : s.faults.minLatencyMs ≤ s.faults.maxLatencyMs ∨ F .emptyRange)
    (ht : now + s.faults.maxLatencyMs < Checked.timeLimit ∨ F .timeOverflow) :
    (s₁.respond client now (.submitResponse token (fate.answer s))).Within F fun o =>
      s.Settles client now session token base ops fate (relays ++ o.1, o.2) := by
  have hf : s₁.faults = s.faults := h.adds.faults
  refine (respond_within (by rwa [hf]) (by rwa [hf])).mono fun o ho => ?_
  obtain ⟨ms, random, hmin, hmax, rfl⟩ := ho
  exact ⟨h.fits, h.history, h.numbered, h.doc, h.stats, h.links,
    h.adds.append (.of_response hmax), relays, ms, hf ▸ hmin, hf ▸ hmax, rfl, h.feeds, h.spares⟩

/-- Whatever is submitted comes to one fate, unless a number leaves its range. -/
theorem submit_within (hlat : s.faults.minLatencyMs ≤ s.faults.maxLatencyMs ∨ F .emptyRange)
    (ht : now + s.faults.maxLatencyMs < Checked.timeLimit ∨ F .timeOverflow)
    (hc : s.history.length + ops.length < Checked.limit ∨ F .addOverflow)
    (hx : CharOp.transform ops (delivered (s.history.drop base.number)) ≠ .error .overflow ∨
      F .addOverflow) :
    (s.submit client now session token base ops).Within F fun o =>
      ∃ fate, s.Settles client now session token base ops fate o := by
  unfold submit; dsimp only
  split
  · rename_i hlost
    let s₁ : Server R := { s with
      random := (Random.fraction s.random).2
      stats := { s.stats with
        submits := s.stats.submits + 1
        droppedBeforeApply := s.stats.droppedBeforeApply + 1 } }
    have hdecides : s.Decides now session base ops .lost [] s₁ :=
      .of_unapplied rfl hlost rfl rfl rfl rfl rfl
    exact (hdecides.answer_within hlat ht).mono fun o ho => ⟨_, ho⟩
  · rename_i hroll
    let s₀ : Server R := { s with
      random := (Random.fraction s.random).2
      stats := { s.stats with submits := s.stats.submits + 1 } }
    refine (apply_within (s := s₀) hlat ht hc hx).bind fun r hr => ?_
    rcases hr with ⟨cause, hcause, rfl⟩ | ⟨ds, doc, posts, s', hacc, hown, hgrows, hadds, rfl⟩
    · let s₁ : Server R := { s with
        random := (Random.fraction s.random).2
        stats := { s.stats with
          submits := s.stats.submits + 1
          rejected := s.stats.rejected + 1 } }
      have hdecides : s.Decides now session base ops (.refused cause) [] s₁ :=
        .of_unapplied rfl ⟨hroll, hcause.of_eq rfl rfl⟩ rfl rfl rfl rfl rfl
      exact (hdecides.answer_within hlat ht).bind fun o ho => ⟨_, ho⟩
    · have hrev : s'.revision = ⟨s.history.length + ds.length⟩ := by
        rw [revision, hgrows.history, List.length_append]
      have hadds : s.Adds now ds.length (posts, s') := hadds.of_eq rfl rfl rfl
      have hacc : s.Accepts base ops (delivered ds) doc := ⟨hacc.1, hacc.2, hacc.3⟩
      have hfaults : s'.faults = s.faults := hadds.faults
      dsimp only
      split
      · rename_i hunheard
        let s₁ : Server R := { s' with
          stats := { s'.stats with droppedAfterApply := s'.stats.droppedAfterApply + 1 } }
        have hstats : s₁.stats = (Fate.applied ds false).count s₀.stats := by
          dsimp only [s₁]; rw [hgrows.stats]; rfl
        have hdecides : s.Decides now session base ops (.applied ds false) posts s₁ :=
          .of_applied hroll (iff_of_true rfl (hfaults ▸ hunheard)) hacc hown hgrows hadds hstats
        exact (hdecides.answer_within hlat ht).bind fun o ho => ⟨_, ho⟩
      · rename_i hheard
        have hdecides : s.Decides now session base ops (.applied ds true) posts s' :=
          .of_applied hroll (iff_of_false nofun (hfaults ▸ hheard)) hacc hown hgrows hadds hgrows.stats
        rw [hrev]
        exact (hdecides.answer_within hlat ht).bind fun o ho => ⟨_, ho⟩

/-- A probe changes nothing that matters to others, and its response comes alone. -/
structure Informs (s : Server R) (client now : Nat) (token : Token) (o : Outcome R) : Prop where
  history : o.2.history = s.history
  doc : o.2.doc = s.doc
  links : o.2.links = s.links
  stats : o.2.stats = { s.stats with
    probes := s.stats.probes + 1
    failedProbes := s.stats.failedProbes +
      if (Random.fraction s.random).1 < s.faults.probeFailure then 1 else 0 }
  adds : s.Adds now 0 o
  answer : ∃ ms, s.faults.minLatencyMs ≤ ms ∧ ms ≤ s.faults.maxLatencyMs ∧
    o.1 = [⟨client, now + ms, .probeResponse token
      (if (Random.fraction s.random).1 < s.faults.probeFailure then .error probeTimedOut
        else .ok s.revision)⟩]

theorem probe_within (hlat : s.faults.minLatencyMs ≤ s.faults.maxLatencyMs ∨ F .emptyRange)
    (ht : now + s.faults.maxLatencyMs < Checked.timeLimit ∨ F .timeOverflow) :
    (s.probe client now token).Within F (s.Informs client now token) := by
  unfold probe; dsimp only
  split
  · rename_i hfails
    let s₁ : Server R := { s with
      random := (Random.fraction s.random).2
      stats := { s.stats with
        probes := s.stats.probes + 1
        failedProbes := s.stats.failedProbes + 1 } }
    refine (respond_within (s := s₁) hlat ht).mono fun o ho => ?_
    obtain ⟨ms, random, hmin, hmax, rfl⟩ := ho
    exact ⟨rfl, rfl, rfl, by rw [if_pos hfails],
      (Adds.of_response (s := s₁) hmax).of_eq rfl rfl rfl, ms, hmin, hmax, by rw [if_pos hfails]⟩
  · rename_i hanswers
    let s₁ : Server R := { s with
      random := (Random.fraction s.random).2
      stats := { s.stats with probes := s.stats.probes + 1 } }
    refine (respond_within (s := s₁) hlat ht).mono fun o ho => ?_
    obtain ⟨ms, random, hmin, hmax, rfl⟩ := ho
    exact ⟨rfl, rfl, rfl, by rw [if_neg hanswers]; rfl,
      (Adds.of_response (s := s₁) hmax).of_eq rfl rfl rfl, ms, hmin, hmax, by rw [if_neg hanswers]⟩

end Server

end CoEdit
