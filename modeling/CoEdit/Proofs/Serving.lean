import CoEdit.Proofs.Mail
import CoEdit.Proofs.Tracking
import CoEdit.Server.Basic

/-!
# What the server does

The server's history leads to its document, and the revision of every entry is its place
(`Server.Sound`). A batch that acts on the document it was made at, by an author who has nothing behind
it, is never refused (`judge_yields`); a submit is lost before anything happens, or it is applied as a
whole and relayed to every open connection in the order of the history (`submit_yields`).

`Feeds j ds s posts s'` follows one client: on the way from `s` to `s'` the deliveries `ds` are posted
to it, one behind the other, and nothing else.
-/

namespace CoEdit

/-- Postings of deliveries `ds` over one connection, each due no earlier than the one before. -/
inductive Climbs (tok : Token) :
    Nat → List (Nat × Event CharOp) → List (Delivery CharOp) → Nat → Prop where
  | nil {last : Nat} : Climbs tok last [] [] last
  | cons {last due last' : Nat} {posts : List (Nat × Event CharOp)} {d : Delivery CharOp}
      {ds : List (Delivery CharOp)} (hdue : last ≤ due) (h : Climbs tok due posts ds last') :
      Climbs tok last ((due, .incoming tok (.ok d)) :: posts) (d :: ds) last'

theorem Climbs.append {tok : Token} {last last' last'' : Nat} {posts more : List (Nat × Event CharOp)}
    {ds es : List (Delivery CharOp)} (h : Climbs tok last posts ds last')
    (h' : Climbs tok last' more es last'') : Climbs tok last (posts ++ more) (ds ++ es) last'' := by
  induction h with
  | nil => exact h'
  | cons hdue _ ih => exact .cons hdue (ih h')

/-- Puts events on a timeline, one after another. -/
def Timeline.deliverAll (t : Timeline CharOp) (posts : List (Nat × Event CharOp)) : Timeline CharOp :=
  posts.foldl (fun t post => t.deliverAt post.1 post.2) t

theorem Climbs.carries {tok : Token} {last last' : Nat} {posts : List (Nat × Event CharOp)}
    {ds : List (Delivery CharOp)} (h : Climbs tok last posts ds last') {t : Timeline CharOp}
    {es : List (Token × Except ServiceError (Delivery CharOp))} (ht : t.Carries last es) :
    (t.deliverAll posts).Carries last' (es ++ ds.map fun d => (tok, .ok d)) ∧
      ∀ ev, ev.delivery? = none → (ev ∈ (t.deliverAll posts).mail ↔ ev ∈ t.mail) := by
  induction h generalizing t es with
  | nil => exact ⟨by simpa [Timeline.deliverAll] using ht, fun _ _ => Iff.rfl⟩
  | @cons last due last' posts d ds hdue _ ih =>
    obtain ⟨hc, hm⟩ := ih (ht.deliver (x := .incoming tok (.ok d)) rfl hdue)
    rw [List.append_assoc] at hc
    refine ⟨hc, fun ev hev => (hm ev hev).trans ?_⟩
    rw [Timeline.mem_mail_deliverAt ht.sound, or_iff_right]
    rintro rfl; cases hev

namespace Server

variable {R : Type} {s s₁ s₂ : Server R} {j client now : Nat} {posts more : List Posting}
  {ds es : List (Delivery CharOp)} {d : Delivery CharOp}

/-- The postings to one client. -/
def route (j : Nat) (posts : List Posting) : List (Nat × Event CharOp) :=
  (posts.filter (·.client = j)).map fun p => (p.due, p.event)

theorem route_cons {p : Posting} : route j (p :: posts) =
    if p.client = j then (p.due, p.event) :: route j posts else route j posts := by
  by_cases h : p.client = j <;> simp [route, h]

@[simp] theorem route_append : route j (posts ++ more) = route j posts ++ route j more := by
  simp [route]

theorem deliverAll_route_answer {t : Timeline CharOp} {i due : Nat} {ev : Event CharOp} :
    t.deliverAll (route j (posts ++ [⟨i, due, ev⟩])) =
      if i = j then (t.deliverAll (route j posts)).deliverAt due ev else t.deliverAll (route j posts) := by
  rw [route_append, route_cons, Timeline.deliverAll, List.foldl_append]
  by_cases h : i = j
  · rw [if_pos h, if_pos h]; rfl
  · rw [if_neg h, if_neg h]; rfl

/-- On the way from `s` to `s'` client `j` is posted `ds` if it is connected, and nothing else. -/
def Feeds (j : Nat) (ds : List (Delivery CharOp)) (s : Server R) (posts : List Posting)
    (s' : Server R) : Prop :=
  ∀ l, s.links[j]? = some l → ∃ last', s'.links[j]? = some { l with lastDelivery := last' } ∧
    match l.connection with
    | some tok => Climbs tok l.lastDelivery (route j posts) ds last'
    | none => route j posts = []

theorem Feeds.append (h : Feeds j ds s posts s₁) (h' : Feeds j es s₁ more s₂) :
    Feeds j (ds ++ es) s (posts ++ more) s₂ := by
  intro l hl
  obtain ⟨last₁, hl₁, hc₁⟩ := h l hl
  obtain ⟨last₂, hl₂, hc₂⟩ := h' _ hl₁
  refine ⟨last₂, hl₂, ?_⟩
  rw [route_append]
  obtain ⟨session, _ | tok, last⟩ := l
  · dsimp only at hc₁ hc₂ ⊢
    rw [hc₁, hc₂]; rfl
  · exact hc₁.append hc₂

theorem Feeds.of_links (h : s₁.links = s.links) (hr : route j posts = []) :
    Feeds j [] s posts s₁ := by
  intro l hl
  refine ⟨l.lastDelivery, by rw [h]; exact hl, ?_⟩
  rw [hr]
  obtain ⟨session, _ | tok, last⟩ := l
  · rfl
  · exact .nil

/-- The server's record of itself. -/
structure Sound (s : Server R) : Prop where
  replay : replay s.history = .ok s.doc
  numbered : ∀ (k : Nat) (d : Delivery CharOp), s.history[k]? = some d → d.revision.number = k + 1
  applied : s.stats.appliedOps = s.history.length
  rejected : s.stats.rejected = 0

def SameRecord (s s' : Server R) : Prop :=
  s'.history = s.history ∧ s'.doc = s.doc ∧ s'.stats = s.stats ∧ s'.links.length = s.links.length

/-- Several relays, each of which gives client `j` the deliveries `give j a`. -/
theorem each_yields {α : Type} {step : Server R → α → Checked (Outcome R)}
    {give : Nat → α → List (Delivery CharOp)} {l : List α}
    (h : ∀ s a, (step s a).Yields fun o => SameRecord s o.2 ∧ ∀ j, Feeds j (give j a) s o.1 o.2) :
    (s.each step l).Yields fun o => SameRecord s o.2 ∧ ∀ j, Feeds j (l.flatMap (give j)) s o.1 o.2 := by
  induction l generalizing s with
  | nil => exact ⟨⟨rfl, rfl, rfl, rfl⟩, fun j => .of_links rfl rfl⟩
  | cons a l ih =>
    refine (h s a).bind fun o ho => ?_
    obtain ⟨posts, s₁⟩ := o
    obtain ⟨⟨h₁, h₂, h₃, h₄⟩, hf⟩ := ho
    refine ih.bind fun o ho => ?_
    obtain ⟨more, s₂⟩ := o
    obtain ⟨⟨h₅, h₆, h₇, h₈⟩, hf'⟩ := ho
    refine ⟨⟨h₅.trans h₁, h₆.trans h₂, h₇.trans h₃, h₈.trans h₄⟩, fun j => ?_⟩
    rw [List.flatMap_cons]
    exact (hf j).append (hf' j)

variable [RandomSource R]

theorem latency_yields : s.latency.Yields fun r => ∃ random, r.2 = { s with random } := by
  unfold latency; dsimp only
  split
  · trivial
  · exact ⟨_, rfl⟩

theorem respond_yields {event : Event CharOp} : (s.respond client now event).Yields fun o =>
    ∃ due random, o = ([⟨client, due, event⟩], { s with random }) := by
  unfold respond
  refine latency_yields.bind fun r hr => ?_
  obtain ⟨ms, s₁⟩ := r
  obtain ⟨random, rfl⟩ := hr
  exact Checked.yields_addTime.bind fun due _ => ⟨due, random, rfl⟩

theorem relay_yields : (s.relay client now d).Yields fun o => SameRecord s o.2 ∧
    ∀ j, Feeds j (if j = client then [d] else []) s o.1 o.2 := by
  unfold relay
  refine latency_yields.bind fun r hr => ?_
  obtain ⟨ms, s₁⟩ := r
  obtain ⟨random, rfl⟩ := hr
  dsimp only
  split
  · rename_i session connection last hl
    refine Checked.yields_addTime.bind fun due _ => ⟨⟨rfl, rfl, rfl, by simp⟩, fun j => ?_⟩
    have hdue : last ≤ max due last := Nat.le_max_right ..
    intro l hj
    by_cases hjc : j = client
    · subst hjc
      rw [hl] at hj; cases hj
      rw [if_pos rfl]
      refine ⟨max due last, ?_, ?_⟩
      · exact List.getElem?_set_self (List.getElem?_eq_some_iff.1 hl).1
      · simp only [route, List.filter_cons_of_pos, decide_true, List.filter_nil, List.map_cons,
          List.map_nil]
        exact .cons hdue .nil
    · rw [if_neg hjc]
      have hr : route j [⟨client, max due last, .incoming connection (.ok d)⟩] = [] := by
        simp [route, Ne.symm hjc]
      rw [hr]
      refine ⟨l.lastDelivery, ?_, ?_⟩
      · rw [List.getElem?_set_ne (Ne.symm hjc)]; exact hj
      · obtain ⟨session, _ | tok, last⟩ := l
        · rfl
        · exact .nil
  · rename_i hl
    refine ⟨⟨rfl, rfl, rfl, rfl⟩, fun j l hj => ⟨l.lastDelivery, hj, ?_⟩⟩
    obtain ⟨session, _ | tok, last⟩ := l
    · rfl
    · rw [if_neg]
      · exact .nil
      · rintro rfl; exact hl _ _ _ hj

/-- The server's history goes on by `ds`, and every client is posted them. -/
structure Grows (ds : List (Delivery CharOp)) (s : Server R) (posts : List Posting)
    (s' : Server R) : Prop where
  history : s'.history = s.history ++ ds
  doc : s'.doc = s.doc
  stats : s'.stats = { s.stats with appliedOps := s.stats.appliedOps + ds.length }
  links : s'.links.length = s.links.length
  feeds : ∀ j, Feeds j ds s posts s'
  numbered : ∀ (k : Nat) (d : Delivery CharOp), ds[k]? = some d →
    d.revision.number = s.history.length + k + 1

theorem flatMap_range_ite {n : Nat} :
    (List.range n).flatMap (fun client => if j = client then [d] else []) =
      if j < n then [d] else [] := by
  induction n with
  | zero => rfl
  | succ n ih =>
    rw [List.range_succ, List.flatMap_append, ih, List.flatMap_singleton]
    by_cases h₁ : j < n
    · rw [if_pos h₁, if_neg (by omega), if_pos (by omega)]; rfl
    · rw [if_neg h₁]
      by_cases h₂ : j = n
      · rw [if_pos h₂, if_pos (by omega)]; rfl
      · rw [if_neg h₂, if_neg (by omega)]; rfl

theorem append_yields {session : Session} {op : CharOp} : (s.append now session op).Yields fun o =>
    ∃ d : Delivery CharOp, d.session = session ∧ d.op = op ∧ Grows [d] s o.1 o.2 := by
  unfold append Revision.next
  rw [Checked.yields_bind, Checked.yields_map]
  refine Checked.yields_add.mono fun n hn => ?_
  dsimp only
  have hrelay : ∀ (s : Server R) client, (s.relay client now ⟨⟨n⟩, session, op⟩).Yields fun o =>
      SameRecord s o.2 ∧ ∀ j, Feeds j (if j = client then [⟨⟨n⟩, session, op⟩] else []) s o.1 o.2 :=
    fun s client => relay_yields
  refine (each_yields hrelay).mono fun o ho => ⟨⟨⟨n⟩, session, op⟩, rfl, rfl, ?_⟩
  obtain ⟨⟨h₁, h₂, h₃, h₄⟩, hf⟩ := ho
  refine ⟨h₁, h₂, h₃, h₄, fun j l hl => ?_, fun k d hk => ?_⟩
  · have := hf j l hl
    rwa [flatMap_range_ite, if_pos (List.getElem?_eq_some_iff.1 hl).1] at this
  · cases k with
    | zero => cases hk; exact hn.2
    | succ k => cases hk

theorem each_append_yields {session : Session} {ops : List CharOp} :
    (s.each (fun s op => s.append now session op) ops).Yields fun o =>
      ∃ ds, Own session ds ∧ delivered ds = ops ∧ Grows ds s o.1 o.2 := by
  induction ops generalizing s with
  | nil =>
    refine ⟨[], (fun _ h => nomatch h), rfl, (List.append_nil _).symm, rfl, rfl, rfl,
      fun j => .of_links rfl rfl, fun _ _ h => nomatch h⟩
  | cons op ops ih =>
    refine append_yields.bind fun o ho => ?_
    obtain ⟨posts, s₁⟩ := o
    obtain ⟨d, hd, rfl, hg⟩ := ho
    refine ih.bind fun o ho => ?_
    obtain ⟨more, s₂⟩ := o
    obtain ⟨ds, hown, rfl, hg'⟩ := ho
    refine ⟨d :: ds, fun e he => ?_, rfl, ?_, hg'.doc.trans hg.doc, ?_, hg'.links.trans hg.links,
      fun j => (hg.feeds j).append (hg'.feeds j), fun k e hk => ?_⟩
    · rcases List.mem_cons.1 he with rfl | he
      · exact hd
      · exact hown e he
    · rw [hg'.history, hg.history, List.append_assoc]; rfl
    · have hl : s.stats.appliedOps + (d :: ds).length = s.stats.appliedOps + 1 + ds.length := by
        rw [List.length_cons]; omega
      rw [hg'.stats, hg.stats, hl]; rfl
    · cases k with
      | zero => cases hk; exact hg.numbered 0 d rfl
      | succ k =>
        have := hg'.numbered k e hk
        rw [hg.history, List.length_append, List.length_singleton] at this
        omega

variable {session : Session} {token : Token} {base : Revision} {ops : List CharOp}

omit [RandomSource R] in
/-- A batch that acts on the document it was made at is not refused, unless its author has operations
behind that. -/
theorem judge_yields (hs : s.Sound) (hb : base.number ≤ s.history.length) {d₀ d₁ : Doc}
    (h₀ : CoEdit.replay (s.history.take base.number) = .ok d₀) (h₁ : acts Doc.act d₀ ops = .ok d₁)
    (hsite : ∀ op ∈ ops, ∀ d ∈ s.history.drop base.number, op.site ≠ d.op.site) :
    (s.judge base ops).Yields fun r => ∃ t doc, r = .ok (t.client, doc) ∧
      CharOp.transform ops (delivered (s.history.drop base.number)) = .ok t ∧
      acts Doc.act s.doc t.client = .ok doc := by
  unfold judge
  rw [if_neg (show ¬ s.revision < base from Nat.not_lt.2 hb)]
  refine Transformer.run_counts.yields.bind fun r hr => ?_
  rcases hr with ⟨t, ht, rfl⟩ | ⟨e, he, -⟩
  · have hdoc : CoEdit.replay (s.history.take base.number ++ s.history.drop base.number) =
        .ok s.doc := by rw [List.take_append_drop]; exact hs.replay
    obtain ⟨d, hd, hserver⟩ := replay_append_eq_ok_iff.1 hdoc
    rw [h₀] at hd; cases hd
    obtain ⟨doc, -, hclient⟩ := CharOp.transform_converges ht h₁ hserver
    dsimp only
    rw [← Doc.acts_act, hclient]
    exact ⟨t, doc, rfl, ht, hclient⟩
  · obtain ⟨op, hop, op', hop', heq⟩ := CharOp.exists_site_eq_of_rejected he
    obtain ⟨d, hd, rfl⟩ := List.mem_map.1 hop'
    exact absurd heq (hsite op hop d hd)

/-- What becomes of a submit: `ds` is what the server applied of it. -/
structure Submits (s : Server R) (client : Nat) (session : Session) (token : Token) (base : Revision)
    (ops : List CharOp) (ds : List (Delivery CharOp)) (o : Outcome R) : Prop where
  sound : o.2.Sound
  history : o.2.history = s.history ++ ds
  links : o.2.links.length = s.links.length
  own : Own session ds
  submits : o.2.stats.submits = s.stats.submits + 1
  answer : ∃ posts due result, o.1 = posts ++ [⟨client, due, .submitResponse token result⟩] ∧
    (∀ j, Feeds j ds s posts o.2) ∧
    (ds = [] ∧ o.2.stats.droppedBeforeApply = s.stats.droppedBeforeApply + 1 ∧
        result = .error requestLost ∨
      o.2.stats.droppedBeforeApply = s.stats.droppedBeforeApply ∧
        (result = .ok o.2.revision ∨ result = .error responseLost) ∧
        ∃ t, CharOp.transform ops (delivered (s.history.drop base.number)) = .ok t ∧
          delivered ds = t.client)

theorem apply_yields (hs : s.Sound) (hb : base.number ≤ s.history.length) {d₀ d₁ : Doc}
    (h₀ : CoEdit.replay (s.history.take base.number) = .ok d₀) (h₁ : acts Doc.act d₀ ops = .ok d₁)
    (hsite : ∀ op ∈ ops, ∀ d ∈ s.history.drop base.number, op.site ≠ d.op.site) :
    (s.apply now session base ops).Yields fun r => ∃ ds posts s' t, r = (.ok s'.revision, posts, s') ∧
      s'.Sound ∧ s'.history = s.history ++ ds ∧ s'.links.length = s.links.length ∧ Own session ds ∧
      (∀ j, Feeds j ds s posts s') ∧ s'.stats.submits = s.stats.submits ∧
      s'.stats.droppedBeforeApply = s.stats.droppedBeforeApply ∧
      CharOp.transform ops (delivered (s.history.drop base.number)) = .ok t ∧
      delivered ds = t.client := by
  unfold apply
  refine (judge_yields hs hb h₀ h₁ hsite).bind fun r hr => ?_
  obtain ⟨t, doc, rfl, ht, hdoc⟩ := hr
  refine each_append_yields.bind fun o ho => ?_
  obtain ⟨posts, s'⟩ := o
  obtain ⟨ds, hown, hds, hg⟩ := ho
  refine ⟨ds, posts, s', t, rfl, ⟨?_, fun k d hk => ?_, ?_, ?_⟩, hg.history, hg.links, hown, hg.feeds,
    ?_, ?_, ht, hds⟩
  · rw [hg.history, hg.doc]
    exact replay_append_eq_ok_iff.2 ⟨s.doc, hs.replay, hds ▸ hdoc⟩
  · rw [hg.history] at hk
    rcases Nat.lt_or_ge k s.history.length with hlt | hge
    · rw [List.getElem?_append_left hlt] at hk; exact hs.numbered k d hk
    · rw [List.getElem?_append_right hge] at hk
      have := hg.numbered _ d hk
      dsimp only at this; omega
  · rw [hg.stats, hg.history, List.length_append, ← hs.applied]
  · rw [hg.stats]; exact hs.rejected
  · rw [hg.stats]
  · rw [hg.stats]

theorem submit_yields (hs : s.Sound) (hb : base.number ≤ s.history.length) {d₀ d₁ : Doc}
    (h₀ : CoEdit.replay (s.history.take base.number) = .ok d₀) (h₁ : acts Doc.act d₀ ops = .ok d₁)
    (hsite : ∀ op ∈ ops, ∀ d ∈ s.history.drop base.number, op.site ≠ d.op.site) :
    (s.submit client now session token base ops).Yields fun o =>
      ∃ ds, s.Submits client session token base ops ds o := by
  unfold submit; dsimp only
  split
  · refine respond_yields.mono fun o ho => ?_
    obtain ⟨due, random, rfl⟩ := ho
    exact ⟨[], ⟨hs.replay, hs.numbered, hs.applied, hs.rejected⟩, (List.append_nil _).symm, rfl,
      (fun _ h => nomatch h), rfl, [], due, _, rfl, fun j => .of_links rfl rfl, .inl ⟨rfl, rfl, rfl⟩⟩
  · have hs' : Sound { s with
        random := (Random.fraction s.random).2
        stats := { s.stats with submits := s.stats.submits + 1 } } :=
      ⟨hs.replay, hs.numbered, hs.applied, hs.rejected⟩
    refine (apply_yields hs' hb h₀ h₁ hsite).bind fun r hr => ?_
    obtain ⟨ds, posts, s', t, rfl, hs', hhist, hlinks, hown, hfeeds, hsub, hdrop, ht, hds⟩ := hr
    dsimp only
    split
    · refine respond_yields.bind fun o ho => ?_
      obtain ⟨due, random, rfl⟩ := ho
      exact ⟨ds, ⟨hs'.replay, hs'.numbered, hs'.applied, hs'.rejected⟩, hhist, hlinks, hown, hsub, posts,
        due, _, rfl, hfeeds, .inr ⟨hdrop, .inr rfl, t, ht, hds⟩⟩
    · refine respond_yields.bind fun o ho => ?_
      obtain ⟨due, random, rfl⟩ := ho
      exact ⟨ds, ⟨hs'.replay, hs'.numbered, hs'.applied, hs'.rejected⟩, hhist, hlinks, hown, hsub, posts,
        due, _, rfl, hfeeds, .inr ⟨hdrop, .inl rfl, t, ht, hds⟩⟩

theorem probe_yields : (s.probe client now token).Yields fun o =>
    ∃ due result random, ∃ stats : Nat × Nat, o = ([⟨client, due, .probeResponse token result⟩],
        { s with random, stats := { s.stats with probes := stats.1, failedProbes := stats.2 } }) ∧
      (result = .ok s.revision ∨ result = .error probeTimedOut) := by
  unfold probe; dsimp only
  split
  · refine respond_yields.mono fun o ho => ?_
    obtain ⟨due, random, rfl⟩ := ho
    exact ⟨due, _, random, (_, _), rfl, .inr rfl⟩
  · refine respond_yields.mono fun o ho => ?_
    obtain ⟨due, random, rfl⟩ := ho
    exact ⟨due, _, random, (_, _), rfl, .inl rfl⟩

theorem subscribe_yields {connection : Token} {revision : Revision} :
    (s.subscribe client now session connection revision).Yields fun o => SameRecord s o.2 ∧
      ∀ j, Feeds j (if j = client then s.history.drop revision.number else [])
        { s with links := s.links.set client ⟨session, some connection, now⟩ } o.1 o.2 := by
  have hrelay : ∀ (s : Server R) d, (s.relay client now d).Yields fun o =>
      SameRecord s o.2 ∧ ∀ j, Feeds j (if j = client then [d] else []) s o.1 o.2 :=
    fun s d => relay_yields
  refine (each_yields hrelay).mono fun o ho => ?_
  obtain ⟨⟨h₁, h₂, h₃, h₄⟩, hf⟩ := ho
  refine ⟨⟨h₁, h₂, h₃, h₄.trans (List.length_set ..)⟩, fun j => ?_⟩
  have hds : (s.history.drop revision.number).flatMap (fun d => if j = client then [d] else []) =
      if j = client then s.history.drop revision.number else [] := by
    by_cases hj : j = client
    · simp only [if_pos hj]; exact List.flatMap_singleton' _
    · simp [if_neg hj]
  rw [← hds]; exact hf j

end Server

end CoEdit
