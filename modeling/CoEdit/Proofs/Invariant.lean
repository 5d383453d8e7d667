import CoEdit.Proofs.Attendance
import CoEdit.Simulation.Run
import Mathlib.Data.List.Nodup

/-!
# The invariant of a simulation

`Inv` puts together what holds of the server and of every client. It follows the effects of a channel
one by one: `owed i` is what client `i` has still to carry out, and between the steps of a simulation
nobody owes anything (`quiet`). Carrying out an effect keeps `Inv` (`Inv.perform`), hence so does taking
over a reaction (`Inv.settle`), whatever the server draws and however many clients its relays reach.
-/

namespace CoEdit.Simulation

variable {R : Type}

def Editor.face (e : Editor R) : Nat × Session := (e.site, e.session)

/-- What the server knows of a client agrees with the client. -/
def Client (history : List (Delivery CharOp)) (l : Server.Link) (t : Timeline CharOp) (e : Editor R)
    (owed : List (Effect CharOp)) : Prop :=
  l.session = e.session ∧
    ((∃ tok p, l.connection = some tok ∧ p.history = history ∧ Attends tok p l.lastDelivery t e owed) ∨
      l.connection = none ∧ owed = [] ∧ Idle t e ∧ Absent e.session history)

/-- Only client `i` has effects to carry out. -/
def only (i : Nat) (effects : List (Effect CharOp)) (j : Nat) : List (Effect CharOp) :=
  if j = i then effects else []

/-- What holds in every state: `faces` are the sites and sessions of the clients. -/
structure Inv (faces : List (Nat × Session)) (s : Simulation R)
    (owed : Nat → List (Effect CharOp)) : Prop where
  cast : s.editors.map Editor.face = faces
  sites : (faces.map Prod.fst).Nodup
  sessions : (faces.map Prod.snd).Nodup
  server : s.network.server.Sound
  authors : ∀ d ∈ s.network.server.history, (d.op.site, d.session) ∈ faces
  clients : ∀ i e, s.editors[i]? = some e → ∃ t l, s.network.timelines[i]? = some t ∧
    s.network.server.links[i]? = some l ∧ Client s.network.server.history l t e (owed i)

theorem foldl_post (posts : List Server.Posting) (n : Network R) :
    (posts.foldl Network.post n).server = n.server ∧ ∀ j : Nat,
      (posts.foldl Network.post n).timelines[j]? =
        n.timelines[j]?.map (·.deliverAll (Server.route j posts)) := by
  induction posts generalizing n with
  | nil =>
    refine ⟨rfl, fun j => ?_⟩
    show n.timelines[j]? = n.timelines[j]?.map fun t => t
    simp
  | cons post posts ih =>
    obtain ⟨h₁, h₂⟩ := ih (n.post post)
    refine ⟨h₁, fun j => (h₂ j).trans ?_⟩
    show Option.map _ (n.timelines.modify post.client _)[j]? = _
    rw [List.getElem?_modify, Option.map_eq_map, Option.map_map]
    congr 1; funext t
    rw [Server.route_cons]
    by_cases hj : post.client = j
    · rw [if_pos hj]; simp [hj, Timeline.deliverAll]
    · rw [if_neg hj]; simp [hj]

variable [RandomSource R] {s : Simulation R} {i : Nat} {e : Editor R} {t : Timeline CharOp}
  {effect : Effect CharOp} {effects : List (Effect CharOp)} {faces : List (Nat × Session)}

/-- A client carries out an effect: on its own timeline, and at the server, which answers with
postings. -/
theorem perform_yields (he : s.editors[i]? = some e) (ht : s.network.timelines[i]? = some t)
    {Q : Nat → Server.Outcome R → Prop}
    (hs : ∀ now, (s.network.server.serve i now effect).Yields (Q now)) :
    (s.perform i effect).Yields fun s' => ∃ t₁ backoff o, Agenda.Leads t effect t₁ ∧ Q t₁.now o ∧
      s'.editors = s.editors.set i { e.hear effect with backoff } ∧ s'.network.server = o.2 ∧
      s'.workload = s.workload ∧ ∀ j : Nat, s'.network.timelines[j]? =
        (if i = j then some t₁ else s.network.timelines[j]?).map
          (·.deliverAll (Server.route j o.1)) := by
  unfold perform
  rw [he, ht]
  refine Agenda.perform_yields.bind fun r hr => ?_
  obtain ⟨deed, agenda⟩ := r
  dsimp only at hr ⊢
  unfold Network.serve
  rw [Checked.yields_bind, Checked.yields_bind]
  have hnow : (s.network.modify i fun _ => agenda.timeline).now i = agenda.timeline.now := by
    show ((s.network.timelines.modify i _)[i]?).elim 0 _ = _
    rw [List.getElem?_modify_eq, ht]; rfl
  refine (hs _).mono fun o ho => ?_
  rw [hnow] at ho
  obtain ⟨h₁, h₂⟩ := foldl_post o.1
    { (s.network.modify i fun _ => agenda.timeline) with server := o.2 }
  refine ⟨agenda.timeline, agenda.backoff, o, hr, ho, rfl, h₁, rfl, fun j => (h₂ j).trans ?_⟩
  show Option.map _ (s.network.timelines.modify i _)[j]? = _
  rw [List.getElem?_modify]
  by_cases hj : i = j
  · subst hj; rw [if_pos rfl, ht]; simp
  · rw [if_neg hj]; simp [hj]

omit [RandomSource R] in
theorem Inv.face_mem {owed : Nat → List (Effect CharOp)} (h : Inv faces s owed)
    (he : s.editors[i]? = some e) : (e.site, e.session) ∈ faces := by
  rw [← h.cast]
  exact List.mem_map_of_mem (List.mem_of_getElem? he)

omit [RandomSource R] in
theorem Inv.foreign {owed : Nat → List (Effect CharOp)} (h : Inv faces s owed)
    (he : s.editors[i]? = some e) {d : Delivery CharOp} (hd : d ∈ s.network.server.history)
    (hne : d.session ≠ e.session) : d.op.site ≠ e.site := by
  intro hsite
  have := List.inj_on_of_nodup_map h.sites (h.authors d hd) (h.face_mem he) hsite
  exact hne (congrArg Prod.snd this)

omit [RandomSource R] in
theorem Inv.session_ne {owed : Nat → List (Effect CharOp)} (h : Inv faces s owed)
    (he : s.editors[i]? = some e) {j : Nat} {e' : Editor R} (he' : s.editors[j]? = some e')
    (hij : j ≠ i) : e.session ≠ e'.session := by
  have hget : ∀ {k : Nat} {x : Editor R}, s.editors[k]? = some x →
      (faces.map Prod.snd)[k]? = some x.session := by
    intro k x hx
    rw [← h.cast, List.map_map, List.getElem?_map, hx]; rfl
  intro heq
  have hi := hget he
  have hlt := (List.getElem?_eq_some_iff.1 hi).1
  exact hij ((List.getElem?_inj hlt h.sessions).1 (by rw [hi, hget he', heq])).symm

omit [RandomSource R] in
/-- One client moves on, and the history by `ds`, of which the others are posted what they lack. -/
theorem Inv.step {s' : Simulation R} {e' : Editor R} {owed : List (Effect CharOp)}
    (h : Inv faces s (only i owed)) (ds : List (Delivery CharOp)) (posts : List Server.Posting)
    (he : s.editors[i]? = some e) (hed : s'.editors = s.editors.set i e') (hface : e'.face = e.face)
    (hsound : s'.network.server.Sound)
    (hhist : s'.network.server.history = s.network.server.history ++ ds)
    (hown : ∀ d ∈ ds, (d.op.site, d.session) = e.face)
    (hi : ∃ t l, s'.network.timelines[i]? = some t ∧ s'.network.server.links[i]? = some l ∧
      Client s'.network.server.history l t e' effects)
    (hj : ∀ j, j ≠ i → s'.network.timelines[j]? =
        s.network.timelines[j]?.map (·.deliverAll (Server.route j posts)) ∧
      Server.Feeds j ds s.network.server posts s'.network.server) :
    Inv faces s' (only i effects) := by
  refine ⟨?_, h.sites, h.sessions, hsound, fun d hd => ?_, fun j e₁ he₁ => ?_⟩
  · obtain ⟨hlt, rfl⟩ := List.getElem?_eq_some_iff.1 he
    rw [hed, List.map_set, hface, ← List.getElem_map Editor.face, List.set_getElem_self, h.cast]
    exact (List.length_map _).symm ▸ hlt
  · rw [hhist] at hd
    rcases List.mem_append.1 hd with hd | hd
    · exact h.authors d hd
    · rw [hown d hd]; exact h.face_mem he
  · by_cases hji : j = i
    · subst hji
      rw [hed, List.getElem?_set_self (List.getElem?_eq_some_iff.1 he).1] at he₁
      cases he₁
      simpa only [only, if_true] using hi
    · -- another client is posted the deliveries, none of which is its own
      rw [hed, List.getElem?_set_ne (Ne.symm hji)] at he₁
      obtain ⟨t, l, ht, hl, hses, hcl⟩ := h.clients j e₁ he₁
      obtain ⟨htl, hfeed⟩ := hj j hji
      obtain ⟨last', hl', hcon⟩ := hfeed l hl
      have habs : Absent e₁.session ds := fun d hd heq =>
        h.session_ne he he₁ hji ((congrArg Prod.snd (hown d hd)).symm.trans heq)
      refine ⟨_, _, by rw [htl, ht]; rfl, hl', hses, ?_⟩
      simp only [only, if_neg hji] at hcl ⊢
      rcases hcl with ⟨tok, p, htok, hp, hatt⟩ | ⟨hnone, -, hidle, ha⟩
      · rw [htok] at hcon
        exact .inl ⟨tok, p.extend ds, htok, by rw [p.extend_history, hp, hhist], hatt.fed habs hcon⟩
      · rw [hnone] at hcon
        rw [hhist]
        have hsame : t.deliverAll (Server.route j posts) = t := by
          rw [show Server.route j posts = [] from hcon]; rfl
        rw [hsame]
        exact .inr ⟨hnone, trivial, hidle, ha.append habs⟩

/-- What the server's counters and its history show of the effects of a client of session `me`. -/
def Reports (me : Session) (effects : List (Effect CharOp)) (sv sv' : Server R) : Prop :=
  (∀ token base ops, .submit token base ops ∉ effects) ∧ sv'.history = sv.history ∧
    sv'.stats.submits = sv.stats.submits ∧
    sv'.stats.droppedBeforeApply = sv.stats.droppedBeforeApply ∨
  ∃ token base ops ds, .submit token base ops ∈ effects ∧ sv'.history = sv.history ++ ds ∧ Own me ds ∧
    sv'.stats.submits = sv.stats.submits + 1 ∧
    (ds = [] ∧ sv'.stats.droppedBeforeApply = sv.stats.droppedBeforeApply + 1 ∨
      sv'.stats.droppedBeforeApply = sv.stats.droppedBeforeApply ∧
        (delivered ds).map CharOp.label = ops.map CharOp.label)

omit [RandomSource R] in
theorem Reports.append {me : Session} {es es' : List (Effect CharOp)} {sv sv₁ sv₂ : Server R}
    (h : Reports me es sv sv₁) (h' : Reports me es' sv₁ sv₂)
    (hone : (∀ token base ops, .submit token base ops ∉ es) ∨
      ∀ token base ops, .submit token base ops ∉ es') : Reports me (es ++ es') sv sv₂ := by
  rcases h with ⟨hn, h₁, h₂, h₃⟩ | ⟨token, base, ops, ds, hs, h₁, hown, h₂, h₃⟩
  · rcases h' with ⟨hn', h₄, h₅, h₆⟩ | ⟨token, base, ops, ds, hs, h₄, hown, h₅, h₆⟩
    · refine .inl ⟨fun token base ops hs => ?_, h₄.trans h₁, h₅.trans h₂, h₆.trans h₃⟩
      exact (List.mem_append.1 hs).elim (hn token base ops) (hn' token base ops)
    · rw [h₁] at h₄; rw [h₂] at h₅; rw [h₃] at h₆
      exact .inr ⟨token, base, ops, ds, List.mem_append_right _ hs, h₄, hown, h₅, h₆⟩
  · rcases h' with ⟨hn', h₄, h₅, h₆⟩ | ⟨token', base', ops', ds', hs', -⟩
    · refine .inr ⟨token, base, ops, ds, List.mem_append_left _ hs, h₄.trans h₁, hown, h₅.trans h₂, ?_⟩
      rw [h₆]; exact h₃
    · rcases hone with hone | hone
      · exact absurd hs (hone token base ops)
      · exact absurd hs' (hone token' base' ops')

theorem serve_minor {sv : Server R} {c : Channel CharOp} {now : Nat} (h : c.Minor effect) :
    (sv.serve i now effect).Yields fun o =>
      ∃ n, o = ([], { sv with stats := { sv.stats with abandoned := n } }) := by
  unfold Server.serve
  split
  · exact h.elim
  · exact h.elim
  · exact ⟨_, rfl⟩
  · exact h.elim
  · exact h.elim
  · exact ⟨_, rfl⟩

/-- What `Inv.perform` says of the state after an effect. -/
def Performed (faces : List (Nat × Session)) (s : Simulation R) (i : Nat) (e : Editor R)
    (done owed : List (Effect CharOp)) (s' : Simulation R) : Prop :=
  Inv faces s' (only i owed) ∧ Reports e.session done s.network.server s'.network.server ∧
    s'.workload = s.workload ∧ ∃ acked remoteOps backoff,
      s'.editors = s.editors.set i { e with acked, remoteOps, backoff }

omit [RandomSource R] in
theorem Inv.attends (h : Inv faces s (only i (effect :: effects))) (he : s.editors[i]? = some e) :
    ∃ t l tok p, s.network.timelines[i]? = some t ∧ s.network.server.links[i]? = some l ∧
      l.session = e.session ∧ l.connection = some tok ∧ p.history = s.network.server.history ∧
      Attends tok p l.lastDelivery t e (effect :: effects) := by
  obtain ⟨t, l, ht, hl, hses, hcl⟩ := h.clients i e he
  simp only [only, if_true] at hcl
  rcases hcl with ⟨tok, p, htok, hp, hatt⟩ | ⟨-, hnil, -, -⟩
  · exact ⟨t, l, tok, p, ht, hl, hses, htok, hp, hatt⟩
  · cases hnil

theorem Inv.perform_minor (h : Inv faces s (only i (effect :: effects)))
    (he : s.editors[i]? = some e) (hm : e.channel.Minor effect) :
    (s.perform i effect).Yields (Performed faces s i e [effect] effects) := by
  obtain ⟨t, l, tok, p, ht, hl, hses, htok, hp, hatt⟩ := h.attends he
  have ho : Channel.Owes e.session p e.channel effects := by
    rcases hatt.owes with ⟨-, ho⟩ | ⟨-, rfl⟩
    · exact ho
    · trivial
  obtain ⟨n, hear⟩ := e.hear_eq hm.ne_failed
  refine (perform_yields he ht fun now => serve_minor hm).mono fun s' hs' => ?_
  obtain ⟨t₁, backoff, o, hlead, ⟨n, rfl⟩, hed, hsv, hwork, htl⟩ := hs'
  have hti : s'.network.timelines[i]? = some t₁ := by rw [htl, if_pos rfl]; rfl
  rw [hear] at hed
  refine ⟨h.step [] [] he hed rfl ?_ ?_ (List.forall_mem_nil _) ?_ fun j hj => ?_,
    .inl ⟨fun token base ops hs => ?_, by rw [hsv], by rw [hsv], by rw [hsv]⟩, hwork, _, _, _, hed⟩
  · rw [hsv]
    exact ⟨h.server.replay, h.server.numbered, h.server.applied, h.server.rejected⟩
  · rw [hsv, List.append_nil]
  · refine ⟨t₁, l, hti, by rw [hsv]; exact hl, hses, .inl ⟨tok, p, htok, by rw [hsv]; exact hp, ?_⟩⟩
    have := hatt.minor hm ho hlead backoff
    rwa [hear] at this
  · refine ⟨by rw [htl, if_neg (Ne.symm hj)], ?_⟩
    rw [hsv]; exact .of_links rfl rfl
  · rw [← List.mem_singleton.1 hs] at hm
    exact hm

theorem Inv.serve_submit {token : Token} {base : Revision} {ops : List CharOp}
    (h : Inv faces s (only i [.submit token base ops])) (he : s.editors[i]? = some e) (now : Nat) :
    (s.network.server.serve i now (.submit token base ops)).Yields fun o =>
      ∃ ds, s.network.server.Submits i e.session token base ops ds o := by
  obtain ⟨t, l, tok, p, -, hl, hses, -, hp, hatt⟩ := h.attends he
  obtain ⟨hle, hdrop, habs, hops, d₀, d₁, h₀, h₁⟩ := hatt.batch
  rw [hp] at hle hdrop h₀
  have hsite : ∀ op ∈ ops, ∀ d ∈ s.network.server.history.drop base.number, op.site ≠ d.op.site := by
    intro op hop d hd
    rw [hops op hop]
    exact (h.foreign he (List.mem_of_mem_drop hd) (habs d (hdrop ▸ hd))).symm
  unfold Server.serve
  rw [hl, ← hses]
  exact Server.submit_yields h.server hle h₀ h₁ hsite

theorem Inv.perform_submit {token : Token} {base : Revision} {ops : List CharOp}
    (h : Inv faces s (only i [.submit token base ops])) (he : s.editors[i]? = some e) :
    (s.perform i (.submit token base ops)).Yields
      (Performed faces s i e [.submit token base ops] []) := by
  obtain ⟨t, l, tok, p, ht, hl, hses, htok, hp, hatt⟩ := h.attends he
  refine (perform_yields he ht (h.serve_submit he)).mono fun s' hs' => ?_
  obtain ⟨t₁, backoff, o, hlead, ⟨ds, hsub⟩, hed, hsv, hwork, htl⟩ := hs'
  obtain rfl : t₁ = t := hlead
  obtain ⟨posts, due, result, ho, hfeeds, hfate⟩ := hsub.answer
  obtain ⟨last', hl', hclimb⟩ := hfeeds i l hl
  rw [htok] at hclimb
  have hhist : s'.network.server.history = s.network.server.history ++ ds := by rw [hsv, hsub.history]
  refine ⟨h.step ds posts he hed rfl (hsv ▸ hsub.sound) hhist (fun d hd => ?_) ?_ fun j hj => ?_,
    .inr ⟨token, base, ops, ds, .head _, hhist, hsub.own, by rw [hsv, hsub.submits], ?_⟩, hwork,
    e.acked, e.remoteOps, backoff, hed⟩
  · -- what is applied is the batch, moved past operations of others
    obtain ⟨-, -, -, hops, -⟩ := hatt.batch
    refine Prod.ext ?_ (hsub.own d hd)
    rcases hfate with ⟨rfl, -⟩ | ⟨-, -, t, htr, hds⟩
    · cases hd
    · have hlabels := (CharOp.transform_labels htr).1
      rw [← hds] at hlabels
      exact CharOp.forall_site_of_labels (P := (· = e.site)) hlabels hops d.op (List.mem_map_of_mem hd)
  · refine ⟨(t₁.deliverAll (Server.route i posts)).deliverAt due (.submitResponse token result),
      { l with lastDelivery := last' }, ?_, hsv ▸ hl', hses, .inl ⟨tok, p.extend ds, htok, ?_,
      (hatt.submitted hsub.own ?_ ?_ hclimb).aside backoff e.nextEdit⟩⟩
    · rw [htl, if_pos rfl, ho, Option.map_some, Server.deliverAll_route_answer, if_pos rfl]
    · rw [p.extend_history, hp, hhist]
    · rcases hfate with ⟨-, -, rfl⟩ | ⟨-, rfl | rfl, -⟩
      · exact .inr ⟨_, rfl⟩
      · rw [hp, ← hsub.history]; exact .inl rfl
      · exact .inr ⟨_, rfl⟩
    · rw [hp]
      rcases hfate with ⟨hds, -, rfl⟩ | ⟨-, -, htr⟩
      · exact .inl ⟨hds, _, rfl⟩
      · exact .inr htr
  · refine ⟨?_, by rw [hsv]; exact hfeeds j⟩
    rw [htl, if_neg (Ne.symm hj), ho]
    simp only [Server.deliverAll_route_answer, if_neg (Ne.symm hj)]
  · rw [hsv]
    rcases hfate with ⟨hds, hdrop, -⟩ | ⟨hdrop, -, t, ht, hds⟩
    · exact .inl ⟨hds, hdrop⟩
    · exact .inr ⟨hdrop, by rw [hds]; exact (CharOp.transform_labels ht).1⟩

theorem Inv.perform_probe {token : Token} (h : Inv faces s (only i [.probe token]))
    (he : s.editors[i]? = some e) :
    (s.perform i (.probe token)).Yields (Performed faces s i e [.probe token] []) := by
  obtain ⟨t, l, tok, p, ht, hl, hses, htok, hp, hatt⟩ := h.attends he
  have hserve : ∀ now, (s.network.server.serve i now (.probe token)).Yields fun o =>
      ∃ due result random, ∃ stats : Nat × Nat, o = ([⟨i, due, .probeResponse token result⟩],
        { s.network.server with
          random
          stats := { s.network.server.stats with probes := stats.1, failedProbes := stats.2 } }) ∧
      (result = .ok s.network.server.revision ∨ result = .error Server.probeTimedOut) := by
    intro now
    unfold Server.serve
    rw [hl]
    exact Server.probe_yields
  refine (perform_yields he ht hserve).mono fun s' hs' => ?_
  obtain ⟨t₁, backoff, o, hlead, ⟨due, result, random, stats, rfl, hresult⟩, hed, hsv, hwork, htl⟩ := hs'
  obtain rfl : t₁ = t := hlead
  have hti : s'.network.timelines[i]? = some (t₁.deliverAt due (.probeResponse token result)) := by
    rw [htl, if_pos rfl, Server.route_cons, if_pos rfl]; rfl
  refine ⟨h.step [] [] he hed rfl ?_ ?_ (List.forall_mem_nil _) ?_ fun j hj => ?_,
    .inl ⟨fun token' base ops hs => ?_, by rw [hsv], by rw [hsv], by rw [hsv]⟩, hwork,
    e.acked, e.remoteOps, backoff, hed⟩
  · rw [hsv]
    exact ⟨h.server.replay, h.server.numbered, h.server.applied, h.server.rejected⟩
  · rw [hsv, List.append_nil]
  · refine ⟨_, l, hti, by rw [hsv]; exact hl, hses, .inl ⟨tok, p, htok, by rw [hsv]; exact hp,
      (hatt.probed ?_).aside backoff e.nextEdit⟩⟩
    rcases hresult with rfl | rfl
    · rw [hp]; exact .inl rfl
    · exact .inr ⟨_, rfl⟩
  · refine ⟨?_, by rw [hsv]; exact .of_links rfl rfl⟩
    rw [htl, if_neg (Ne.symm hj), Server.route_cons, if_neg (Ne.symm hj)]
  · cases List.mem_singleton.1 hs

theorem Inv.perform (h : Inv faces s (only i (effect :: effects))) (he : s.editors[i]? = some e) :
    (s.perform i effect).Yields (Performed faces s i e [effect] effects) := by
  obtain ⟨t, l, tok, p, -, -, -, -, -, hatt⟩ := h.attends he
  rcases hatt.owes with ⟨hm, -⟩ | ⟨hreq, rfl⟩
  · exact h.perform_minor he hm
  · cases effect with
    | submit token base ops => exact h.perform_submit he
    | probe token => exact h.perform_probe he
    | _ => exact hreq.elim

theorem Inv.performAll (h : Inv faces s (only i effects)) (he : s.editors[i]? = some e) :
    (effects.foldlM (fun (s : Simulation R) effect => s.perform i effect) s).Yields
      (Performed faces s i e effects []) := by
  induction effects generalizing s e with
  | nil =>
    obtain ⟨hlt, rfl⟩ := List.getElem?_eq_some_iff.1 he
    exact ⟨h, .inl ⟨(fun _ _ _ h => nomatch h), rfl, rfl, rfl⟩, rfl, _, _, _,
      (List.set_getElem_self hlt).symm⟩
  | cons effect effects ih =>
    rw [List.foldlM_cons]
    refine (h.perform he).bind fun s₁ h₁ => ?_
    obtain ⟨hinv, hrep, hwork, acked, remoteOps, backoff, hed⟩ := h₁
    have he₁ : s₁.editors[i]? = some { e with acked, remoteOps, backoff } := by
      rw [hed, List.getElem?_set_self (List.getElem?_eq_some_iff.1 he).1]
    refine (ih hinv he₁).mono fun s₂ h₂ => ?_
    obtain ⟨hinv₂, hrep₂, hwork₂, acked₂, remoteOps₂, backoff₂, hed₂⟩ := h₂
    refine ⟨hinv₂, ?_, hwork₂.trans hwork, acked₂, remoteOps₂, backoff₂, ?_⟩
    · refine hrep.append hrep₂ ?_
      obtain ⟨t, l, tok, p, -, -, -, -, -, hatt⟩ := h.attends he
      rcases hatt.owes with ⟨hm, -⟩ | ⟨-, rfl⟩
      · refine .inl fun token base ops hs => ?_
        rw [← List.mem_singleton.1 hs] at hm
        exact hm
      · exact .inr fun _ _ _ hs => nomatch hs
    · rw [hed₂, hed, List.set_set]

/-! ### Reactions -/

/-- No client has anything to carry out. -/
def quiet (_ : Nat) : List (Effect CharOp) := []

theorem only_nil : only i [] = quiet := by
  funext j; simp [only, quiet]

/-- None of the editor's operations is ahead of what its channel has confirmed. -/
def Editor.Unapplied (e : Editor R) (history : List (Delivery CharOp)) : Prop :=
  Absent e.session (history.drop e.channel.queue.revision.number)

/-- The batch in flight is the one that was in flight, and none of it is ahead. -/
def Editor.Carries (e e' : Editor R) (history : List (Delivery CharOp)) : Prop :=
  e.channel.queue.unacked ≠ [] ∧ e.Unapplied history ∧
    e'.channel.queue.unacked.map CharOp.label = e.channel.queue.unacked.map CharOp.label

/-- How the editor's batch in flight and the server's history go on together: nothing is submitted, or
the batch in flight is, when none of it is ahead, and is then lost or appended. -/
def Advances (e e' : Editor R) (sv sv' : Server R) : Prop :=
  sv'.history = sv.history ∧ sv'.stats.submits = sv.stats.submits ∧
    sv'.stats.droppedBeforeApply = sv.stats.droppedBeforeApply ∧
    e'.channel.stats.resends = e.channel.stats.resends ∧
    (e'.channel.queue.unacked ≠ [] → e'.Unapplied sv.history → e.Carries e' sv.history) ∨
  ∃ ds, sv'.history = sv.history ++ ds ∧ sv'.stats.submits = sv.stats.submits + 1 ∧
    Own e.session ds ∧ e'.Unapplied sv.history ∧
    e'.channel.queue.revision.number ≤ sv.history.length ∧
    (ds = [] ∧ sv'.stats.droppedBeforeApply = sv.stats.droppedBeforeApply + 1 ∨
      sv'.stats.droppedBeforeApply = sv.stats.droppedBeforeApply ∧
        (delivered ds).map CharOp.label = e'.channel.queue.unacked.map CharOp.label) ∧
    (e'.channel.stats.resends = e.channel.stats.resends ∨
      e'.channel.stats.resends = e.channel.stats.resends + 1 ∧ e.Carries e' sv.history)

omit [RandomSource R] in
theorem advances_of_settles {tok : Token} {p p' : Standing} {a : Replica} {k : Option Ticket}
    {r : Channel.Reaction CharOp} {e' : Editor R} {sv sv' : Server R}
    (hs : Channel.Settles tok p p' a e.channel k r) (hp : p.history = sv.history)
    (hp' : p'.history = sv.history) (hrev : e.channel.queue.revision.number = p.confirmed.length)
    (ha : a.session = e.session) (hme : e'.session = e.session) (hc : e'.channel = r.1)
    (hr : Reports e.session r.2 sv sv') : Advances e e' sv sv' := by
  obtain ⟨c, effects⟩ := r
  obtain rfl : e'.channel = c := hc
  have hrest : e.Unapplied sv.history ↔ Absent a.session p.rest := by
    rw [Editor.Unapplied, hrev, ← hp, ← p.rest_eq_drop, ha]
  have hrest' : e'.Unapplied sv.history ↔ Absent a.session p'.rest := by
    rw [Editor.Unapplied, show e'.channel.queue.revision.number = _ from hs.1.books.tracks.revision,
      ← hp', ← p'.rest_eq_drop, ha, hme]
  have hcar : Channel.Carried a.session p e.channel.queue e'.channel.queue → e.Carries e' sv.history :=
    fun h => ⟨h.1, hrest.2 h.2.1, h.2.2⟩
  rcases hr with ⟨hn, hh, hsub, hdrop⟩ | ⟨token, base, ops, ds, hmem, hh, hown, hsub, hfate⟩
  · refine .inl ⟨hh, hsub, hdrop, ?_, fun hu hun => hcar (hs.1.kept hn hu (hrest'.1 hun))⟩
    exact hs.1.resent.resolve_right fun ⟨_, ⟨token, base, ops, hmem⟩, _⟩ => hn token base ops hmem
  · rcases hs.1.owes.mem hmem with hm | ⟨-, -, rfl, habs⟩
    · exact hm.elim
    · refine .inr ⟨ds, hh, hsub, hown, hrest'.2 habs, ?_, hfate,
        hs.1.resent.imp_right fun h => ⟨h.1, hcar h.2.2⟩⟩
      rw [show e'.channel.queue.revision.number = _ from hs.1.books.tracks.revision, ← hp',
        Standing.history, List.length_append]
      exact Nat.le_add_right _ _

omit [RandomSource R] in
/-- One client moves on by itself, and may have effects to carry out then. -/
theorem Inv.turn (h : Inv faces s quiet) (he : s.editors[i]? = some e) {s' : Simulation R}
    {e' : Editor R} {l : Server.Link} (hed : s'.editors = s.editors.set i e')
    (hsv : s'.network.server = s.network.server)
    (htj : ∀ j, j ≠ i → s'.network.timelines[j]? = s.network.timelines[j]?) (hface : e'.face = e.face)
    (ht : s'.network.timelines[i]? = some t) (hl : s.network.server.links[i]? = some l)
    (hcl : Client s.network.server.history l t e' effects) : Inv faces s' (only i effects) := by
  rw [← only_nil (i := i)] at h
  refine h.step [] [] he hed hface ?_ ?_ (List.forall_mem_nil _) ⟨t, l, ht, hsv ▸ hl, hsv ▸ hcl⟩
    fun j hj => ⟨(htj j hj).trans ?_, .of_links (congrArg Server.links hsv) rfl⟩
  · exact hsv ▸ h.server
  · rw [List.append_nil]; exact congrArg Server.history hsv
  · show _ = s.network.timelines[j]?.map fun t => t
    simp

/-- A client takes over a reaction of its channel. Before, its editor or its timeline may have changed. -/
theorem Inv.settle (h : Inv faces s quiet) (he : s.editors[i]? = some e) {s₁ : Simulation R}
    {e₁ : Editor R} {r : Channel.Reaction CharOp} {l : Server.Link} {tok : Token} {p : Standing}
    (hed : s₁.editors = s.editors) (hsv : s₁.network.server = s.network.server)
    (htj : ∀ j, j ≠ i → s₁.network.timelines[j]? = s.network.timelines[j]?)
    (hface : e₁.face = e.face) (ht : s₁.network.timelines[i]? = some t)
    (hl : s.network.server.links[i]? = some l) (hses : l.session = e.session)
    (htok : l.connection = some tok) (hp : p.history = s.network.server.history)
    (hatt : Attends tok p l.lastDelivery t { e₁ with channel := r.1 } r.2) :
    (s₁.settle i e₁ r).Yields fun s' => Inv faces s' quiet ∧
      Reports e.session r.2 s.network.server s'.network.server ∧ s'.workload = s₁.workload ∧
      ∃ acked remoteOps backoff, s'.editors = s.editors.set i
        { e₁ with channel := r.1, acked, remoteOps, backoff } := by
  have hsession : e₁.session = e.session := congrArg Prod.snd hface
  have hed₁ : (s₁.withEditor i { e₁ with channel := r.1 }).editors =
      s.editors.set i { e₁ with channel := r.1 } := by rw [← hed]; rfl
  have hinv : Inv faces (s₁.withEditor i { e₁ with channel := r.1 }) (only i r.2) :=
    h.turn he hed₁ hsv htj hface ht hl ⟨hses.trans hsession.symm, .inl ⟨tok, p, htok, hp, hatt⟩⟩
  have he₁ : (s₁.withEditor i { e₁ with channel := r.1 }).editors[i]? =
      some { e₁ with channel := r.1 } := by
    rw [hed₁, List.getElem?_set_self (List.getElem?_eq_some_iff.1 he).1]
  refine (hinv.performAll he₁).mono fun s' hs' => ?_
  obtain ⟨hinv', hrep, hwork, acked, remoteOps, backoff, hed'⟩ := hs'
  rw [only_nil] at hinv'
  refine ⟨hinv', ?_, hwork, acked, remoteOps, backoff, by rw [hed', hed₁, List.set_set]⟩
  rw [← hsession, ← hsv]; exact hrep

end CoEdit.Simulation
