import CoEdit.Proofs.Settled
import CoEdit.Proofs.Traffic

/-!
# How an item is handled

`s.Handles x placed s'` says what handling the item `x` comes to, with all that the server puts on
timelines meanwhile: the item takes its client's clock along, the client's channel reacts, and its effects
are carried out one by one, each on the client's own timeline and then at the server (`Network.Carries`).
Every step of a simulation is one (`step_handles`), whatever state it starts from.
-/

namespace CoEdit

variable {R : Type} [RandomSource R]

/-- No effect moves a clock. -/
theorem Agenda.Leads.now_eq {M : Type} {t t' : Timeline M} {effect : Effect M} (h : Leads t effect t') :
    t'.now = t.now := by
  cases effect with
  | schedule | scheduleAfterDelay =>
    obtain ⟨due, rfl⟩ := h
    rfl
  | cancel id =>
    obtain rfl : t' = t.cancel id := h
    unfold Timeline.cancel; split <;> rfl
  | _ =>
    obtain rfl : t' = t := h
    rfl

namespace Network

/-- What the server put on a timeline, and the clock of that timeline then. -/
structure Placed where
  clock : Nat
  posting : Server.Posting

/-- Client `i` carries out effects: each on its own timeline and then at the server. `placed` is what the
server puts on timelines. -/
inductive Carries (i : Nat) : Network R → List (Effect CharOp) → List Placed → Network R → Prop
  | nil {n : Network R} : Carries i n [] [] n
  | cons {n n' : Network R} {t t' : Timeline CharOp} {effect : Effect CharOp}
      {effects : List (Effect CharOp)} {posts : List Server.Posting} {server : Server R}
      {placed : List Placed} (ht : n.timelines[i]? = some t) (hl : Agenda.Leads t effect t')
      (hs : n.server.serve i t.now effect = .ok (posts, server))
      (h : Carries i (posts.foldl post { (n.modify i fun _ => t') with server }) effects placed n') :
      Carries i n (effect :: effects) (posts.map (fun p => ⟨n.now p.client, p⟩) ++ placed) n'

end Network

namespace Simulation

/-- What is left of an editor as it is when its effects are carried out. -/
structure Core where
  channel : Channel CharOp
  made : Nat
  nextEdit : Option Nat

omit [RandomSource R] in
def Editor.core (e : Editor R) : Core := ⟨e.channel, e.made, e.nextEdit⟩

def cores (s : Simulation R) : List Core := s.editors.map Editor.core

/-- Every client has a timeline. -/
def Paired (s : Simulation R) : Prop := s.network.timelines.length = s.editors.length

/-- The item `x` is handled. -/
inductive Handles (s : Simulation R) (x : Item) (placed : List Network.Placed) (s' : Simulation R) : Prop
  /-- An event leaves the timeline and the channel reacts to it. -/
  | event {e : Editor R} {t t' : Timeline CharOp} {event : Event CharOp} {r : Channel.Reaction CharOp}
      (he : s.editors[x.client]? = some e) (ht : s.network.timelines[x.client]? = some t)
      (hdue : t.nextDue = some x.due) (ha : t.advance = some (event, t'))
      (hr : e.channel.handle CharOp.transform event = .ok r)
      (hc : Network.Carries x.client { s.network with timelines := s.network.timelines.set x.client t' }
        r.2 placed s'.network)
      (hcores : s'.cores = s.cores.set x.client ⟨r.1, e.made, e.nextEdit⟩)
  /-- The clock moves on and an edit is made. It is sent if the document has a place for it. -/
  | edit {e : Editor R} {t : Timeline CharOp} {c : Channel CharOp} {r : Channel.Reaction CharOp}
      {plan : Option Nat} (he : s.editors[x.client]? = some e)
      (ht : s.network.timelines[x.client]? = some t) (hdue : e.nextEdit = some x.due)
      (hdrain : c = e.channel ∨ c = e.channel.receiveAll.2)
      (hr : r = (c, []) ∨ ∃ op answer, c.send CharOp.transform op = .ok (answer, r))
      (hplan : ∀ due ∈ plan, x.due ≤ due ∧ e.made + 1 < s.workload.editsPerClient)
      (hc : Network.Carries x.client (s.network.modify x.client (·.advanceTo x.due)) r.2 placed s'.network)
      (hcores : s'.cores = s.cores.set x.client ⟨r.1, e.made + 1, plan⟩)

variable {s s' : Simulation R} {i : Nat} {e : Editor R} {effect : Effect CharOp}
  {effects : List (Effect CharOp)} {x : Item}

section
omit [RandomSource R]

theorem cores_withEditor : (s.withEditor i e).cores = s.cores.set i e.core := List.map_set

theorem cores_set_self (he : s.editors[i]? = some e) : s.cores.set i e.core = s.cores := by
  obtain ⟨hlt, rfl⟩ := List.getElem?_eq_some_iff.1 he
  unfold cores
  rw [← List.getElem_map Editor.core, List.set_getElem_self]
  exact (List.length_map _).symm ▸ hlt

theorem length_cores : s.cores.length = s.editors.length := List.length_map _

theorem Paired.of_cores (h : s.Paired) (ht : s'.network.timelines.length = s.network.timelines.length)
    (hc : s'.cores.length = s.cores.length) : s'.Paired := by
  rw [length_cores, length_cores] at hc
  exact ht.trans (h.trans hc.symm)

theorem Paired.exists_editor (h : s.Paired) (hi : i < s.network.timelines.length) :
    ∃ e, s.editors[i]? = some e := by
  unfold Paired at h
  exact ⟨_, List.getElem?_eq_getElem (h ▸ hi)⟩

theorem Editor.drain_core : e.drain.core = ⟨e.channel.receiveAll.2, e.made, e.nextEdit⟩ := by
  have hsame : ∀ (es : List Edit) (e : Editor R), (es.foldl Editor.change e).core = e.core := by
    intro es
    induction es with
    | nil => exact fun _ => rfl
    | cons edit es ih =>
      intro e
      refine (ih _).trans ?_
      unfold Editor.change
      split <;> rfl
  exact hsame _ _

end

theorem perform_carries (h : s.perform i effect = .ok s') (hp : s.Paired)
    (hi : i < s.network.timelines.length) : ∃ t t' posts server, s.network.timelines[i]? = some t ∧
      Agenda.Leads t effect t' ∧ s.network.server.serve i t.now effect = .ok (posts, server) ∧
      s'.network = posts.foldl Network.post { (s.network.modify i fun _ => t') with server } ∧
      s'.cores = s.cores ∧ s'.workload = s.workload := by
  obtain ⟨e, he⟩ := hp.exists_editor hi
  have ht : s.network.timelines[i]? = some s.network.timelines[i] := List.getElem?_eq_getElem hi
  unfold perform at h
  rw [he, ht] at h
  obtain ⟨⟨deed, agenda⟩, ha, h⟩ := Checked.bind_eq_ok_iff.1 h
  obtain ⟨network, hn, h⟩ := Checked.bind_eq_ok_iff.1 h
  cases h
  obtain ⟨⟨posts, server⟩, hs, hn⟩ := Checked.bind_eq_ok_iff.1 hn
  cases hn
  have hleads := Agenda.perform_yields.of_ok ha
  refine ⟨_, agenda.timeline, posts, server, ht, hleads, ?_, rfl, ?_, rfl⟩
  · have hnow : (s.network.modify i fun _ => agenda.timeline).now i = agenda.timeline.now := by
      show ((s.network.timelines.modify i _)[i]?).elim 0 _ = _
      rw [List.getElem?_modify_eq, ht]; rfl
    rw [hnow, hleads.now_eq] at hs
    exact hs
  · have hcore : Editor.core { e.hear effect with backoff := agenda.backoff } = e.core := by
      cases effect <;> rfl
    refine cores_withEditor.trans ?_
    rw [hcore]
    exact cores_set_self he

theorem performAll_carries (h : effects.foldlM (fun s effect => s.perform i effect) s = .ok s')
    (hp : s.Paired) (hi : i < s.network.timelines.length) :
    ∃ placed, Network.Carries i s.network effects placed s'.network ∧ s'.cores = s.cores ∧ s'.Paired ∧
      s'.workload = s.workload := by
  induction effects generalizing s with
  | nil => cases h; exact ⟨[], .nil, rfl, hp, rfl⟩
  | cons effect effects ih =>
    rw [List.foldlM_cons] at h
    obtain ⟨s₁, h₁, h⟩ := Checked.bind_eq_ok_iff.1 h
    obtain ⟨t, t', posts, server, ht, hl, hs, hnetwork, hcores, hwork⟩ := perform_carries h₁ hp hi
    have hlen : s₁.network.timelines.length = s.network.timelines.length := by
      rw [hnetwork, Network.foldl_post_length]
      exact List.length_modify ..
    obtain ⟨placed, hc, hcores', hp', hwork'⟩ :=
      ih h (hp.of_cores hlen (congrArg List.length hcores)) (hlen ▸ hi)
    exact ⟨_, .cons ht hl hs (hnetwork ▸ hc), hcores'.trans hcores, hp', hwork'.trans hwork⟩

theorem settle_carries {r : Channel.Reaction CharOp} (h : s.settle i e r = .ok s') (hp : s.Paired)
    (hi : i < s.network.timelines.length) : ∃ placed, Network.Carries i s.network r.2 placed s'.network ∧
      s'.cores = s.cores.set i ⟨r.1, e.made, e.nextEdit⟩ ∧ s'.Paired ∧ s'.workload = s.workload := by
  have hp₁ : (s.withEditor i { e with channel := r.1 }).Paired :=
    hp.of_cores rfl (by rw [cores_withEditor, List.length_set])
  obtain ⟨placed, hc, hcores, hp', hwork⟩ := performAll_carries h hp₁ hi
  exact ⟨placed, hc, hcores.trans cores_withEditor, hp', hwork⟩

theorem event_handles {t : Timeline CharOp} (h : s.event x.client = .ok s') (hp : s.Paired)
    (ht : s.network.timelines[x.client]? = some t) (he : s.editors[x.client]? = some e)
    (hdue : t.nextDue = some x.due) :
    ∃ placed, s.Handles x placed s' ∧ s'.Paired ∧ s'.workload = s.workload := by
  obtain ⟨hi, -⟩ := List.getElem?_eq_some_iff.1 ht
  unfold event Network.advance at h
  rw [he, ht] at h
  dsimp only [Option.bind_eq_bind, Option.bind_some] at h
  rw [hdue] at h
  cases ha : t.advance with
  | none =>
    unfold Timeline.advance at ha
    unfold Timeline.nextDue at hdue
    cases hes : t.entries with
    | nil => rw [hes] at hdue; cases hdue
    | cons f rest => rw [hes] at ha; cases ha
  | some r =>
    obtain ⟨event, t'⟩ := r
    rw [ha] at h
    obtain ⟨reaction, hr, h⟩ := Checked.bind_eq_ok_iff.1 h
    have hlen : (s.network.timelines.set x.client t').length = s.network.timelines.length :=
      List.length_set
    obtain ⟨placed, hc, hcores, hp', hwork⟩ := settle_carries h (hlen.trans hp) (hlen ▸ hi)
    exact ⟨placed, .event he ht hdue ha hr hc hcores, hp', hwork⟩

theorem author_carries {edit : Edit} (h : s.author i e edit = .ok s') (hp : s.Paired)
    (hi : i < s.network.timelines.length) : ∃ r placed,
      (r = (e.channel, []) ∨ ∃ op answer, e.channel.send CharOp.transform op = .ok (answer, r)) ∧
      Network.Carries i s.network r.2 placed s'.network ∧
      s'.cores = s.cores.set i ⟨r.1, e.made + 1, e.nextEdit⟩ ∧ s'.Paired ∧ s'.workload = s.workload := by
  unfold author at h
  dsimp only at h
  split at h
  · cases h
    exact ⟨(e.channel, []), [], .inl rfl, .nil, cores_withEditor,
      hp.of_cores rfl (by rw [cores_withEditor, List.length_set]), rfl⟩
  · obtain ⟨⟨answer, r⟩, hsend, h⟩ := Checked.bind_eq_ok_iff.1 h
    obtain ⟨s₁, hsettle, h⟩ := Checked.bind_eq_ok_iff.1 h
    obtain ⟨placed, hc, hcores, hp', hwork⟩ := settle_carries hsettle hp hi
    refine ⟨r, placed, .inr ⟨_, answer, hsend⟩, ?_⟩
    split at h
    · cases h
      have hsame := cores_set_self ‹s₁.editors[i]? = some _›
      refine ⟨hc, cores_withEditor.trans ?_, ?_, hwork⟩
      · exact hsame.trans hcores
      · exact hp'.of_cores rfl (by rw [cores_withEditor, List.length_set])
    · cases h
      exact ⟨hc, hcores, hp', hwork⟩

theorem edit_handles {t : Timeline CharOp} (h : s.edit x.client x.due = .ok s') (hp : s.Paired)
    (ht : s.network.timelines[x.client]? = some t) (he : s.editors[x.client]? = some e)
    (hdue : e.nextEdit = some x.due) :
    ∃ placed, s.Handles x placed s' ∧ s'.Paired ∧ s'.workload = s.workload := by
  obtain ⟨hi, -⟩ := List.getElem?_eq_some_iff.1 ht
  unfold edit at h
  obtain ⟨⟨choice, s₁⟩, hc, h⟩ := Checked.bind_eq_ok_iff.1 h
  obtain ⟨random, rfl⟩ := choose_yields.of_ok hc
  dsimp only at h
  rw [he] at h
  obtain ⟨following, hf, h⟩ := Checked.bind_eq_ok_iff.1 h
  have hle : x.due ≤ following := (Checked.addTime_eq_ok_iff.1 hf).2 ▸ Nat.le_add_right ..
  have hlen : (s.network.timelines.modify x.client (·.advanceTo x.due)).length =
      s.network.timelines.length := List.length_modify ..
  obtain ⟨r, placed, hr, hcarries, hcores, hp', hwork⟩ := author_carries h (hlen.trans hp) (hlen ▸ hi)
  obtain ⟨hdrain, hmade⟩ : ((if choice.drain then e.drain else e).channel = e.channel ∨
      (if choice.drain then e.drain else e).channel = e.channel.receiveAll.2) ∧
      (if choice.drain then e.drain else e).made = e.made := by
    have hcore := e.drain_core
    split
    · exact ⟨.inr (congrArg Core.channel hcore), congrArg Core.made hcore⟩
    · exact ⟨.inl rfl, rfl⟩
  dsimp only at hcores hr
  rw [hmade] at hcores
  refine ⟨placed, .edit he ht hdue hdrain hr (fun due hplan => ?_) hcarries hcores, hp', hwork⟩
  obtain ⟨hlt, heq⟩ := Option.mem_ite_none_right.1 hplan
  exact ⟨Option.some.inj heq ▸ hle, hlt⟩

theorem step_handles (h : s.step x = .ok s') (hp : s.Paired) (hx : s.next = some x) :
    ∃ placed, s.Handles x placed s' ∧ s'.Paired ∧ s'.workload = s.workload := by
  unfold step at h
  obtain ⟨t, e, ht, he, ⟨hb, hdue⟩ | ⟨hb, hdue⟩⟩ := mem_items.1 (earliest_mem hx)
  · rw [hb] at h
    exact event_handles h hp ht he hdue
  · rw [hb] at h
    exact edit_handles h hp ht he hdue

/-! ### The beginning -/

theorem connect_carries (h : s.connect i = .ok s') (hp : s.Paired) : s' = s ∨ ∃ r placed,
    Network.Carries i s.network r placed s'.network ∧ s'.Paired := by
  unfold Simulation.connect at h
  split at h
  · cases h
    exact .inl rfl
  · rename_i e he
    obtain ⟨⟨answer, r⟩, -, h⟩ := Checked.bind_eq_ok_iff.1 h
    have hi : i < s.network.timelines.length := hp.symm ▸ (List.getElem?_eq_some_iff.1 he).1
    obtain ⟨placed, hc, -, hp', -⟩ := settle_carries h hp hi
    exact .inr ⟨r.2, placed, hc, hp'⟩

/-- What effects keep of a network, the network that a run starts from has. -/
theorem start_keeps {P : Network R → Prop} {seeded : Nat → R} {c : Scenario}
    (h : start seeded c = .ok s)
    (h₀ : P (.start c.faults ((c.editors seeded).map (·.session)) (seeded c.workload.seed)))
    (hstep : ∀ {n n' : Network R} {i effects placed}, P n → Network.Carries i n effects placed n' → P n') :
    P s.network ∧ s.Paired := by
  have hall : ∀ (clients : List Nat) (s₁ : Simulation R), P s₁.network → s₁.Paired →
      clients.foldlM Simulation.connect s₁ = .ok s → P s.network ∧ s.Paired := by
    intro clients
    induction clients with
    | nil => rintro s₁ h₁ hp₁ hs; cases hs; exact ⟨h₁, hp₁⟩
    | cons i clients ih =>
      intro s₁ h₁ hp₁ hs
      rw [List.foldlM_cons] at hs
      obtain ⟨s₂, hconnect, hs⟩ := Checked.bind_eq_ok_iff.1 hs
      obtain hsame | ⟨r, placed, hc, hp₂⟩ := connect_carries hconnect hp₁
      · exact ih s₂ (hsame ▸ h₁) (hsame ▸ hp₁) hs
      · exact ih s₂ (hstep h₁ hc) hp₂ hs
  refine hall _ _ h₀ ?_ h
  unfold Paired
  simp [Network.start]

end Simulation

end CoEdit
