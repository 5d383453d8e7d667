import CoEdit.Proofs.CharContract
import CoEdit.Proofs.EagerAck
import CoEdit.Proofs.Interleaving
import CoEdit.Proofs.Lateness
import CoEdit.Proofs.Range

/-!
# How much a client counts up

No position is beyond the characters that were ever put in (`Doc.length_le_of_acts`), so a client's
channel has an answer to what is due, and to an edit, while the history and the edits that the client made
leave room for another number (`Attends.exists_handle`, `Attends.exists_send`). An answer takes one
token at most, and at most one operation more is pending after it (`Reacts.growth`).

`e.Counted k` is what an editor counts in at most `k` steps. A reaction of its channel is carried out if
the history has room for the batch in flight (`Inv.performAll_within`), and the history goes on by no more
than that (`Reports.length_le`).
-/

namespace CoEdit

theorem Doc.length_le_of_acts {d d' : Doc} {ops : List CharOp} (h : acts Doc.act d ops = .ok d') :
    d'.length ≤ d.length + ops.length := by
  induction ops generalizing d with
  | nil => cases h; exact Nat.le_refl _
  | cons op ops ih =>
    obtain ⟨d₁, hd, h⟩ := acts_cons_eq_ok_iff.1 h
    have hone : d₁.length ≤ d.length + 1 := Doc.length_le_of_apply hd
    have hrest := ih h
    rw [List.length_cons]; omega

theorem length_le_of_replay {ds : List (Delivery CharOp)} {d : Doc} (h : replay ds = .ok d) :
    d.length ≤ ds.length := by
  have hacts : acts Doc.act {} (delivered ds) = .ok d := by rw [Doc.acts_act]; exact h
  have hlen := Doc.length_le_of_acts hacts
  rw [delivered, List.length_map, show Doc.length {} = 0 from rfl] at hlen
  omega

theorem CharOp.transform_ne_overflow {d dc ds : Doc} {cs ss : List CharOp}
    (hc : acts Doc.act d cs = .ok dc) (hs : acts Doc.act d ss = .ok ds)
    (hsite : ∀ c ∈ cs, ∀ s ∈ ss, c.site ≠ s.site)
    (hlen : d.length + cs.length + ss.length ≤ Checked.limit) : transform cs ss ≠ .error .overflow := by
  obtain ⟨t, ht⟩ := exists_transform hc hs hsite hlen
  rw [ht]; nofun

namespace Tracks

variable {p : Standing} {r : Replica} {d : Delivery CharOp} {ds : List (Delivery CharOp)}

theorem length_buffered_le (h : Tracks p r) :
    r.queue.unacked.length + r.queue.queued.length ≤ r.made := by
  have := h.made
  omega

theorem stagesInRange (h : Tracks p r) {edit : Edit} {doc : Doc} (hd : r.doc.apply edit = .ok doc)
    (hlen : r.doc.length + 1 + r.queue.pending.length ≤ Checked.limit) :
    r.queue.StagesInRange CharOp.transform ⟨r.made, r.site, edit⟩ := by
  intro _
  obtain ⟨base, -, d', -, hpending⟩ := h.meets
  refine CharOp.transform_ne_overflow (acts_singleton_eq_ok_iff.2 hd) hpending (fun c hc s hs => ?_) hlen
  rw [List.mem_singleton.1 hc]
  exact (h.others s hs).symm

theorem passesInRange (h : Tracks p r) (hp : p.ahead = d :: ds) (hd : d.session ≠ r.session)
    (hsite : d.op.site ≠ r.site) (hbase : ∃ base, replay (p.heard ++ [d]) = .ok base)
    (hlen : p.history.length + r.made + 1 ≤ Checked.limit) :
    r.queue.PassesInRange CharOp.transform d.op := by
  obtain ⟨heard, awaited, rest⟩ := p
  obtain rfl : awaited = [] := by
    cases awaited with
    | nil => rfl
    | cons d' awaited =>
      obtain ⟨rfl, -⟩ := List.cons.inj hp
      exact absurd (h.own d' (List.mem_cons_self ..)) hd
  obtain ⟨base', hbase'⟩ := hbase
  obtain ⟨base, hb, d₀, hmine, -⟩ := h.meets
  rw [Standing.confirmed, List.append_nil] at hb
  have hop : acts Doc.act base [d.op] = .ok base' := by
    obtain ⟨base₁, hb₁, hop⟩ := replay_append_eq_ok_iff.1 hbase'
    rw [hb] at hb₁; cases hb₁
    exact hop
  obtain ⟨d₁, hunacked, hqueued⟩ := acts_append_eq_ok_iff.1 hmine
  have hbuffered := h.length_buffered_le
  have hheard : heard.length ≤ (Standing.mk heard [] rest).history.length := by
    simp only [Standing.history, List.length_append]; omega
  have hbefore := Nat.le_trans (length_le_of_replay hb) hheard
  have hafter := Doc.length_le_of_acts hunacked
  refine ⟨fun _ => CharOp.transform_ne_overflow hunacked hop (fun c hc s hs => ?_) ?_,
    fun flight hf _ => ?_⟩
  · rw [List.mem_singleton.1 hs, h.site_eq (List.mem_append_left _ hc)]
    exact hsite.symm
  · rw [List.length_singleton]; omega
  · have hlabels := (CharOp.transform_labels (CharOp.transform_of_moves hf.moves)).2
    have hsites := CharOp.forall_site_of_labels (P := (· ≠ r.site)) hlabels (by simpa using hsite)
    obtain ⟨d₂, hserver, -⟩ :=
      Transformer.Converges.moves CharOp.transform_converges hf.moves hunacked hop
    refine CharOp.transform_ne_overflow hqueued hserver (fun c hc s hs => ?_) ?_
    · rw [h.site_eq (List.mem_append_right _ hc)]
      exact (hsites s hs).symm
    · rw [CharOp.length_of_labels hlabels, List.length_singleton]; omega

end Tracks

namespace Transformer

variable {M : Type} {x : Transformer M} {client server : List M} {t : Transformed M}

theorem Passes.length_server (h : x.Passes client server t) (hx : x.KeepsLengths) :
    t.server.length = server.length := by
  rcases h with ⟨-, rfl⟩ | ⟨-, ht⟩
  · rfl
  · exact (hx ht).2

end Transformer

namespace Channel

variable {M : Type} {x : Transformer M} {c : Channel M} {r : Reaction M} {event : Event M}

theorem Schedules.next_le_succ {task : Option Token} {tokens : TokenSource} {effects : List (Effect M)}
    (h : c.Schedules task tokens effects) : tokens.next ≤ c.tokens.next + 1 := by
  rcases h with ⟨-, -, rfl, -⟩ | ⟨-, -, rfl, -⟩
  · exact Nat.le_succ _
  · exact Nat.le_refl _

theorem Syncs.growth (h : c.Syncs r) :
    r.1.tokens.next ≤ c.tokens.next + 1 ∧ r.1.queue.pending = c.queue.pending := by
  cases h with
  | lags => exact ⟨Nat.le_succ _, rfl⟩
  | resends => exact ⟨Nat.le_refl _, rfl⟩
  | finishes hp hr hu hs => exact ⟨hs.next_le_succ, rfl⟩

/-- A delivery that takes a token leaves no revision to wait for. -/
theorem Accepts.growth {me : Session} {d : Delivery M} (h : Accepts x c me d r) (hx : x.KeepsLengths) :
    (r.1.tokens = c.tokens ∨ r.1.tokens.next ≤ c.tokens.next + 1 ∧ r.1.state = .allAcked) ∧
      r.1.queue.pending.length ≤ c.queue.pending.length + 1 := by
  cases h with
  | recognises => exact ⟨.inl rfl, Nat.le_succ _⟩
  | confirms => exact ⟨.inl rfl, Nat.le_succ _⟩
  | confirmsLast hd ht hu hs => exact ⟨.inr ⟨hs.next_le_succ, rfl⟩, Nat.le_succ _⟩
  | takesIn hd ht hf hr =>
    refine ⟨.inl rfl, ?_⟩
    dsimp only
    rw [List.length_append, hr.length_server hx, hf.length_server hx]
    exact Nat.le_refl _

theorem Syncs.eq_of_state (h : c.Syncs r) (hs : c.state = .allAcked) : r = (c, []) := by
  unfold state at hs
  cases h with
  | lags => rfl
  | resends hp => rw [hp] at hs; cases hs
  | finishes hp => rw [hp] at hs; cases hs

/-- A reaction takes one token at most, and at most one operation more is pending after it. -/
theorem Reacts.growth (h : Reacts x c event r) (hx : x.KeepsLengths) :
    r.1.tokens.next ≤ c.tokens.next + 1 ∧ r.1.queue.pending.length ≤ c.queue.pending.length + 1 := by
  cases h with
  | stale => exact ⟨Nat.le_succ _, Nat.le_succ _⟩
  | submits => exact ⟨Nat.le_refl _, Nat.le_succ _⟩
  | lapses => exact ⟨Nat.le_succ _, Nat.le_succ _⟩
  | probes => exact ⟨Nat.le_refl _, Nat.le_succ _⟩
  | confirms hp hb hu hr hs => exact ⟨hs.next_le_succ, Nat.le_succ _⟩
  | defers => exact ⟨Nat.le_succ _, Nat.le_succ _⟩
  | learns hp hs => exact ⟨hs.growth.1, Nat.le_succ_of_le (Nat.le_of_eq (congrArg _ hs.growth.2))⟩
  | retries => exact ⟨Nat.le_refl _, Nat.le_succ _⟩
  | givesUp => exact ⟨Nat.le_succ _, Nat.zero_le _⟩
  | breaks => exact ⟨Nat.le_succ _, Nat.zero_le _⟩
  | accepts hconn h hs =>
    obtain ⟨htokens, hpending⟩ := h.growth hx
    obtain ⟨hnext, hsame⟩ := hs.growth
    refine ⟨?_, by dsimp only; rw [hsame]; exact hpending⟩
    rcases htokens with htokens | ⟨htokens, hstate⟩
    · rw [htokens] at hnext; exact hnext
    · rw [hs.eq_of_state hstate]; exact htokens

theorem Does.send_growth {op : M} {reply : Reply M} (h : Does x c (.send op) reply r)
    (hx : x.KeepsLengths) :
    r.1.tokens.next ≤ c.tokens.next + 1 ∧ r.1.queue.pending.length ≤ c.queue.pending.length := by
  have hstage {t : Transformed M} (ht : c.queue.Stages x op t) :
      t.server.length ≤ c.queue.pending.length := by
    rcases ht with ⟨-, rfl⟩ | ⟨-, ht⟩
    · exact Nat.zero_le _
    · exact Nat.le_of_eq (hx ht).2
  cases h with
  | unconnected => exact ⟨Nat.le_succ _, Nat.le_refl _⟩
  | schedules hp ht hs => exact ⟨hs.next_le_succ, hstage ht⟩
  | stages hconn hp ht => exact ⟨Nat.le_succ _, hstage ht⟩
  | rejects => exact ⟨Nat.le_succ _, Nat.zero_le _⟩

end Channel

namespace Simulation

variable {R : Type} {e : Editor R} {k : Nat}

/-- What an editor counts in `k` steps. -/
structure Editor.Counted (k : Nat) (e : Editor R) : Prop where
  tokens : e.channel.tokens.next ≤ k + 2
  made : e.made ≤ k
  /-- What is pending is yet to be put into the document. -/
  chars : e.doc.length + e.channel.queue.pending.length ≤ k
  coherent : e.channel.Coherent
  fed : e.channel.Fed

theorem Editor.Counted.mono {n : Nat} (h : e.Counted k) (hle : k ≤ n) : e.Counted n :=
  ⟨Nat.le_trans h.tokens (Nat.add_le_add_right hle 2), Nat.le_trans h.made hle,
    Nat.le_trans h.chars hle, h.coherent, h.fed⟩

section
variable {tok : Token} {p : Standing} {last n : Nat} {t t' : Timeline CharOp} {ev : Event CharOp}

theorem Editor.Counted.drain (h : e.Counted k) (hatt : Attends tok p last t e []) :
    e.drain.Counted k := by
  obtain ⟨-, doc, hdoc, hdrain⟩ := hatt.drain
  have hlen : doc.length ≤ e.doc.length + e.channel.queue.pending.length :=
    Doc.length_le_of_acts (by rw [Doc.acts_act]; exact hdoc)
  have hfits := h.coherent.fits
  rw [hdrain]
  exact ⟨h.tokens, h.made, Nat.le_trans hlen h.chars,
    ⟨⟨hfits.mono hatt.keeps.books.isSome id fun _ => id, h.coherent.echoes⟩, h.coherent.lags⟩,
    ⟨h.fed.flight, h.fed.scheduled⟩⟩

theorem Editor.Counted.react (h : e.Counted k) {r : Channel.Reaction CharOp}
    (hr : Channel.Reacts CharOp.transform e.channel ev r) :
    Editor.Counted (k + 1) { e with channel := r.1 } := by
  obtain ⟨htokens, hpending⟩ := hr.growth CharOp.transform_keepsLengths
  have hold := h.tokens
  have hchars := h.chars
  exact ⟨by dsimp only; omega, Nat.le_succ_of_le h.made, by dsimp only; omega, hr.coherent h.coherent,
    hr.fed CharOp.transform_keepsClients h.fed⟩

theorem Editor.Counted.author (h : e.Counted k) {edit : Edit} {doc : Doc} {op : CharOp}
    {reply : Channel.Reply CharOp} {r : Channel.Reaction CharOp} (hd : e.doc.apply edit = .ok doc)
    (hr : Channel.Does CharOp.transform e.channel (.send op) reply r) :
    Editor.Counted (k + 1) { e with doc, made := e.made + 1, channel := r.1 } := by
  obtain ⟨htokens, hpending⟩ := hr.send_growth CharOp.transform_keepsLengths
  have hold := h.tokens
  have hchars := h.chars
  have hdoc := Doc.length_le_of_apply hd
  exact ⟨by dsimp only; omega, Nat.succ_le_succ h.made, by dsimp only; omega, hr.coherent h.coherent,
    hr.fed CharOp.transform_keepsClients h.fed⟩

theorem Attends.exists_handle (h : Attends tok p last t e []) (hc : e.Counted k) (hr : t.Ready n)
    (hev : t.pick n = some (ev, t')) {doc : Doc} (hreplay : replay p.history = .ok doc)
    (hnum : ∀ (i : Nat) (d : Delivery CharOp), p.history[i]? = some d → d.revision.number = i + 1)
    (hsite : ∀ d ∈ p.history, d.session ≠ e.session → d.op.site ≠ e.site)
    (hroom : p.history.length + k + 3 < Checked.limit) :
    ∃ r, e.channel.handle CharOp.transform ev = .ok r ∧
      Channel.Reacts CharOp.transform e.channel ev r := by
  have htr := h.keeps_nil.books.tracks
  have hmade : e.made ≤ k := hc.made
  have htokens := hc.tokens
  have hrevision : e.channel.queue.revision.number ≤ p.history.length := by
    rw [show e.channel.queue.revision.number = _ from htr.revision, Standing.history, List.length_append]
    exact Nat.le_add_right _ _
  by_cases hl : e.channel.Awaits ev
  · refine hc.coherent.exists_handle ev hc.fed.flight (fun connection d heq hd => ?_)
      (Channel.not_outOfRevisions (by omega)) (by omega) fun token applied heq => ?_
    · subst heq
      obtain ⟨d', ds, -, hm, hp, -⟩ := h.next hr hev
      cases hm
      obtain ⟨hmem, -, hbase⟩ := p.upcoming hp hreplay hnum
      have hne : d.session ≠ e.session := by
        rintro hsame
        rw [Channel.session?, h.keeps_nil.books.connection, hsame] at hd
        exact hd rfl
      exact htr.passesInRange hp hne (hsite d hmem hne) hbase (by
        show p.history.length + e.made + 1 ≤ _
        omega)
    · subst heq
      have hhonest := h.honest _ (Attends.mail_pick hev).1 (.submit token) rfl hl
      exact Nat.lt_of_le_of_lt hhonest.1 (by omega)
  · exact ⟨_, Channel.handle_of_not_awaits hl, .stale hl⟩

theorem Attends.exists_send (h : Attends tok p last t e []) (hc : e.Counted k) {edit : Edit} {doc : Doc}
    (hd : e.doc.apply edit = .ok doc) (hroom : k + 3 < Checked.limit) :
    ∃ r, e.channel.send CharOp.transform ⟨e.made, e.site, edit⟩ = .ok r ∧
      Channel.Does CharOp.transform e.channel (.send ⟨e.made, e.site, edit⟩) (.done r.1) r.2 := by
  have hchars := hc.chars
  have htokens := hc.tokens
  have hstages := h.keeps_nil.books.tracks.stagesInRange hd
    (show e.doc.length + 1 + e.channel.queue.pending.length ≤ _ by omega)
  exact (Channel.send_inRange hstages (by omega)).exists_ok
    (Checked.within_map.1 (hc.coherent.call_counts hc.fed (.send _)))

end

/-! ### Carrying out effects -/

variable {now latest i : Nat} {s : Simulation R} {c : Scenario} {faces : List (Nat × Session)}
  {effect : Effect CharOp} {effects : List (Effect CharOp)} {sv sv' : Server R} {me : Session}

theorem Reports.length_le (h : Reports me effects sv sv') {p : Standing} {ch : Channel CharOp}
    (ho : Channel.Owes me p ch effects) :
    sv'.history.length ≤ sv.history.length + ch.queue.unacked.length := by
  rcases h with ⟨-, hh, -⟩ | ⟨token, base, ops, ds, hs, hh, -, -, hfate⟩
  · rw [hh]; exact Nat.le_add_right _ _
  · rcases ho.mem hs with hm | ⟨-, -, rfl, -⟩
    · exact hm.elim
    · rw [hh, List.length_append]
      rcases hfate with ⟨rfl, -⟩ | ⟨-, hlabels⟩
      · exact Nat.le_add_right _ _
      · have hlen := CharOp.length_of_labels hlabels
        rw [delivered, List.length_map] at hlen
        exact Nat.le_of_eq (by rw [hlen])

theorem Inv.hasRoom (h : Inv faces s (only i (effect :: effects))) (he : s.editors[i]? = some e)
    (hroom : s.network.server.history.length + e.channel.queue.unacked.length < Checked.limit) :
    s.network.server.HasRoom effect := by
  obtain ⟨t, l, tok, p, -, -, -, -, hp, hatt⟩ := h.attends he
  rcases hatt.owes with ⟨hm, -⟩ | ⟨hreq, rfl⟩
  · cases effect <;> first | exact hm.elim | trivial
  · cases effect with
    | submit token base ops =>
      obtain ⟨-, -, hops, -⟩ := hreq
      obtain ⟨hle, hdrop, habs, hsites, d₀, d₁, h₀, h₁⟩ := hatt.batch
      rw [hp] at hle hdrop h₀
      refine ⟨hops ▸ hroom, ?_⟩
      have hhist : replay (s.network.server.history.take base.number ++
          s.network.server.history.drop base.number) = .ok s.network.server.doc := by
        rw [List.take_append_drop]; exact h.server.replay
      obtain ⟨d, hd, hserver⟩ := replay_append_eq_ok_iff.1 hhist
      rw [h₀] at hd; cases hd
      have hlen := length_le_of_replay h₀
      rw [List.length_take] at hlen
      refine CharOp.transform_ne_overflow h₁ hserver (fun op hop s' hs' => ?_) ?_
      · obtain ⟨d, hd, rfl⟩ := List.mem_map.1 hs'
        rw [hsites op hop]
        exact (h.foreign he (List.mem_of_mem_drop hd) (habs d (hdrop ▸ hd))).symm
      · rw [delivered, List.length_map, List.length_drop, hops]; omega
    | probe token => trivial
    | _ => exact hreq.elim

variable [RandomSource R]

/-- A client carries out what it owes, on time. -/
theorem Inv.performAll_within (h : Inv faces s (only i effects)) (he : s.editors[i]? = some e)
    (ht : s.OnTime c now latest) (hc : c.problem = none) (hle : now + c.longest ≤ latest)
    (hroom : s.network.server.history.length + e.channel.queue.unacked.length < Checked.limit) :
    (effects.foldlM (fun (s : Simulation R) effect => s.perform i effect) s).Within (Fault.Late latest)
      (OnTime c now latest) := by
  induction effects generalizing s e with
  | nil => exact ht
  | cons effect effects ih =>
    rw [List.foldlM_cons]
    obtain ⟨t, l, tok, p, htl, -, -, -, -, hatt⟩ := h.attends he
    refine ((perform_within ht hc hle he htl (h.hasRoom he hroom)).and_yields
      (h.perform he)).bind fun s₁ h₁ => ?_
    obtain ⟨ht₁, hinv, hrep, -, acked, remoteOps, backoff, hed⟩ := h₁
    rcases hatt.owes with ⟨hm, -⟩ | ⟨-, rfl⟩
    · -- what is no request leaves the history as it is
      have hhist : s₁.network.server.history = s.network.server.history := by
        rcases hrep with ⟨-, hh, -⟩ | ⟨token, base, ops, ds, hs, -⟩
        · exact hh
        · rw [← List.mem_singleton.1 hs] at hm
          exact hm.elim
      have he₁ : s₁.editors[i]? = some { e with acked, remoteOps, backoff } := by
        rw [hed, List.getElem?_set_self (List.getElem?_eq_some_iff.1 he).1]
      exact ih hinv he₁ ht₁ (by rw [hhist]; exact hroom)
    · exact ht₁

end Simulation

end CoEdit
