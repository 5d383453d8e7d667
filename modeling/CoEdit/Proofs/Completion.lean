import CoEdit.Proofs.Capacity
import CoEdit.Proofs.Settled

/-!
# Accepted scenarios run to their end

An accepted scenario starts, and then every step is answered: `Paced c k s` bounds the clocks, what is
due and all counters after `k` steps, every step keeps it (`Running.step_within`), and a run takes at most
`stepLimit` steps. So a run has a report, with two exceptions (`Scenario.run_outcome`). The first edit
ends it if the longest pause after an edit is no number in range, which no check of a scenario excludes.
And time runs out if what is put off, step after step, adds up to more than there is.
-/

namespace CoEdit.Simulation

variable {R : Type} [RandomSource R] {c : Scenario} {s s₁ : Simulation R} {i k : Nat} {e e' : Editor R}
  {faces : List (Nat × Session)} {effects : List (Effect CharOp)}

/-- Nothing waits, nothing was applied, and no client did more than connect. -/
structure Calm (c : Scenario) (s : Simulation R) : Prop where
  workload : s.workload = c.workload
  faults : s.network.server.faults = c.faults
  history : s.network.server.history = []
  links : ∀ l ∈ s.network.server.links, l.lastDelivery = 0
  timelines : ∀ t ∈ s.network.timelines, t = {}
  length : s.network.timelines.length = c.workload.clients ∧ s.editors.length = c.workload.clients
  editors : ∀ e ∈ s.editors, (e.channel = {} ∨ e.channel = joined e.session) ∧ e.doc = {} ∧ e.made = 0 ∧
    e.backoff.policy = c.backoff ∧
    e.nextEdit = if c.workload.editsPerClient > 0 then some 0 else none

theorem Calm.perform (h : Calm c s) {effect : Effect CharOp}
    (heffect : effect = .resetBackoff ∨ ∃ token, effect = .subscribe token .zero) (i : Nat) :
    (s.perform i effect).Within (fun _ => False) (Calm c) := by
  unfold Simulation.perform
  split
  · rename_i t e ht he
    obtain rfl := h.timelines t (List.mem_of_getElem? ht)
    obtain ⟨hchannel, hdoc, hmade, hpolicy, hnext⟩ := h.editors e (List.mem_of_getElem? he)
    refine Checked.Within.bind (P := fun r => r.2.timeline = {} ∧ r.2.backoff.policy = c.backoff) ?_
      fun r hr => ?_
    · rcases heffect with rfl | ⟨token, rfl⟩ <;> exact ⟨rfl, hpolicy⟩
    obtain ⟨deed, timeline, backoff⟩ := r
    obtain ⟨rfl, hpolicy⟩ := hr
    dsimp only at hpolicy ⊢
    have htimelines : ∀ t ∈ s.network.timelines.modify i fun _ => ({} : Timeline CharOp), t = {} :=
      forall_mem_modify h.timelines (fun _ _ => rfl) i
    have hnow : (s.network.modify i fun _ => ({} : Timeline CharOp)).now i = 0 := by
      show ((s.network.timelines.modify i _)[i]?).elim 0 _ = _
      rw [List.getElem?_modify_eq, ht]; rfl
    have hserve : (s.network.server.serve i 0 effect).Within (fun _ => False) fun o => o.1 = [] ∧
        o.2.faults = c.faults ∧ o.2.history = [] ∧ ∀ l ∈ o.2.links, l.lastDelivery = 0 := by
      unfold Server.serve
      cases s.network.server.links[i]? with
      | none => exact ⟨rfl, h.faults, h.history, h.links⟩
      | some l =>
        rcases heffect with rfl | ⟨token, rfl⟩
        · exact ⟨rfl, h.faults, h.history, h.links⟩
        · dsimp only
          unfold Server.subscribe
          rw [h.history]
          exact ⟨rfl, h.faults, rfl, forall_mem_set h.links rfl i⟩
    unfold Network.serve
    rw [hnow, Checked.within_bind, Checked.within_bind]
    refine hserve.mono fun o ho => ?_
    obtain ⟨posts, server⟩ := o
    obtain ⟨rfl, hfaults, hhistory, hlinks⟩ := ho
    refine ⟨h.workload, hfaults, hhistory, hlinks, htimelines, ?_, ?_⟩
    · exact ⟨(List.length_modify ..).trans h.length.1, (List.length_set ..).trans h.length.2⟩
    · refine forall_mem_set h.editors ?_ i
      rcases heffect with rfl | ⟨token, rfl⟩ <;> exact ⟨hchannel, hdoc, hmade, hpolicy, hnext⟩
  · exact h

theorem Calm.connect (h : Calm c s) (i : Nat) : (s.connect i).Within (fun _ => False) (Calm c) := by
  unfold Simulation.connect
  split
  · exact h
  · rename_i e he
    obtain ⟨hchannel, hrest⟩ := h.editors e (List.mem_of_getElem? he)
    have hjoined : Calm c (s.withEditor i { e with channel := joined e.session }) := by
      refine ⟨h.workload, h.faults, h.history, h.links, h.timelines,
        ⟨h.length.1, (List.length_set ..).trans h.length.2⟩, ?_⟩
      refine forall_mem_set h.editors ?_ i
      exact ⟨.inr rfl, hrest⟩
    rcases hchannel with hnew | hopen
    · rw [hnew, connect_pristine]
      exact (hjoined.perform (.inl rfl) i).bind fun s₁ h₁ =>
        (h₁.perform (.inr ⟨_, rfl⟩) i).bind fun s₂ h₂ => h₂
    · rw [hopen]
      exact hjoined

theorem Calm.connectAll (h : Calm c s) (clients : List Nat) :
    (clients.foldlM Simulation.connect s).Within (fun _ => False) (Calm c) := by
  induction clients generalizing s with
  | nil => exact h
  | cons i clients ih =>
    rw [List.foldlM_cons]
    exact (h.connect i).bind fun s' h' => ih h'

theorem start_within (seeded : Nat → R) (c : Scenario) :
    (start seeded c).Within (fun _ => False) (Calm c) := by
  have hlength : (c.editors seeded).length = c.workload.clients := by simp [Scenario.editors]
  refine Calm.connectAll ⟨rfl, rfl, rfl, fun l hl => ?_, fun t ht => ?_, ?_, fun e he => ?_⟩ _
  · obtain ⟨session, -, rfl⟩ := List.mem_map.1 hl
    rfl
  · obtain ⟨session, -, rfl⟩ := List.mem_map.1 ht
    rfl
  · refine ⟨?_, hlength⟩
    show (((c.editors seeded).map (·.session)).map fun _ => ({} : Timeline CharOp)).length = _
    rw [List.length_map, List.length_map, hlength]
  · obtain ⟨i, -, rfl⟩ := List.mem_map.1 he
    exact ⟨.inl rfl, rfl, rfl, rfl, rfl⟩

omit [RandomSource R] in
theorem Calm.next (h : Calm c s) (hclients : c.workload.clients ≠ 0)
    (hedits : 0 < c.workload.editsPerClient) : ∃ x, s.next = some x ∧ x.isEdit = true := by
  cases hx : s.next with
  | none =>
    have hlt : 0 < s.editors.length := by rw [h.length.2]; omega
    have hlt' : 0 < s.network.timelines.length := by rw [h.length.1]; omega
    have hnone := (idle_of_next_eq_none hx (List.getElem?_eq_getElem hlt')
      (List.getElem?_eq_getElem hlt)).2
    obtain ⟨-, -, -, -, hnext⟩ := h.editors _ (List.getElem_mem hlt)
    rw [hnone, if_pos hedits] at hnext
    cases hnext
  | some x =>
    obtain ⟨t, e, ht, -, ⟨-, hdue⟩ | ⟨hedit, -⟩⟩ := mem_items.1 (earliest_mem hx)
    · rw [h.timelines t (List.mem_of_getElem? ht)] at hdue
      cases hdue
    · exact ⟨x, rfl, hedit⟩

/-- The first edit of a run is chosen with the pause after it. -/
theorem run_overflow (seeded : Nat → R) (hclients : c.workload.clients ≠ 0)
    (hedits : 0 < c.workload.editsPerClient) (hgap : ¬ c.workload.longestGap < Checked.limit) :
    Simulation.run seeded c = .error .addOverflow := by
  have hcalm := start_within seeded c
  unfold Simulation.run
  cases hstart : start seeded c with
  | error f => rw [hstart] at hcalm; exact hcalm.elim
  | ok s =>
    rw [hstart] at hcalm
    obtain ⟨x, hx, hedit⟩ := Calm.next hcalm hclients hedits
    have hchoose : s.choose = .error .addOverflow :=
      choose_overflow (by rwa [show s.workload = _ from hcalm.workload])
    have hstep : s.step x = .error .addOverflow := by
      unfold Simulation.step
      rw [hedit, if_pos rfl]
      unfold Simulation.edit
      rw [hchoose]; rfl
    have hfor : runFor stepLimit { simulation := s } = .error .addOverflow := by
      show runFor (999999 + 1) _ = _
      unfold runFor
      rw [hx]; dsimp only
      rw [hstep]; rfl
    show (runFor stepLimit { simulation := s } >>= fun p => pure p.report) = _
    rw [hfor]; rfl

/-! ### Steps -/

/-- Nothing is due later that the beginning of a run and its first `k` steps lead to. -/
def Scenario.deadline (c : Scenario) (k : Nat) : Nat := (k + 1) * c.longest

theorem Scenario.deadline_succ : c.deadline k + c.longest = c.deadline (k + 1) := (Nat.succ_mul ..).symm

theorem Scenario.deadline_mono {n : Nat} (h : k ≤ n) : c.deadline k ≤ c.deadline n :=
  Nat.mul_le_mul_right _ (Nat.succ_le_succ h)

/-- What bounds a simulation after `k` steps. -/
structure Paced (c : Scenario) (k : Nat) (s : Simulation R) : Prop where
  time : s.OnTime c (c.deadline k) (c.deadline k)
  editors : ∀ e ∈ s.editors, e.Counted k
  history : s.network.server.history.length ≤ k * k

omit [RandomSource R] in
theorem Paced.mono {n : Nat} (h : Paced c k s) (hle : k ≤ n) : Paced c n s := by
  have htime : c.deadline k ≤ c.deadline n := Scenario.deadline_mono hle
  exact ⟨h.time.mono htime htime, fun e he => (h.editors e he).mono hle,
    Nat.le_trans h.history (Nat.mul_le_mul hle hle)⟩

omit [RandomSource R] in
theorem Calm.paced (h : Calm c s) : Paced c 0 s := by
  refine ⟨⟨h.faults, fun l hl => by rw [h.links l hl]; exact Nat.zero_le _, fun t ht => ?_,
    fun e he => ?_⟩, fun e he => ?_, by rw [h.history]; exact Nat.zero_le _⟩
  · rw [h.timelines t ht]; exact Timeline.onTime_empty
  · obtain ⟨-, -, -, hpolicy, hnext⟩ := h.editors e he
    refine ⟨hpolicy, fun due hdue => ?_⟩
    rw [hnext] at hdue
    split at hdue
    · cases hdue; exact Nat.zero_le _
    · cases hdue
  · obtain ⟨hchannel, hdoc, hmade, -⟩ := h.editors e he
    rcases hchannel with hc | hc
    · refine ⟨?_, Nat.le_of_eq hmade, ?_, ?_, ?_⟩ <;> rw [hc]
      · exact Nat.le_succ _
      · rw [hdoc]; exact Nat.le_refl _
      · exact ⟨⟨⟨rfl, rfl⟩, Nat.le_refl _⟩, nofun⟩
      · exact ⟨False.elim, nofun⟩
    · refine ⟨?_, Nat.le_of_eq hmade, ?_, ?_, ?_⟩ <;> rw [hc]
      · exact Nat.le_refl _
      · rw [hdoc]; exact Nat.le_refl _
      · exact ⟨⟨⟨rfl, rfl, fun _ => rfl⟩, Nat.le_refl _⟩, nofun⟩
      · exact ⟨False.elim, nofun⟩

/-- There are far more numbers than steps. -/
theorem room_of_lt {k n : Nat} (hk : k < stepLimit) (hn : n ≤ k * k) :
    n + (k + 1) + 3 < Checked.limit := by
  have hsquare := Nat.mul_le_mul (Nat.le_of_lt hk) (Nat.le_of_lt hk)
  unfold stepLimit at hk hsquare
  unfold Checked.limit
  omega

theorem Inv.performAll_paced (h : Inv faces s (only i effects)) (he : s.editors[i]? = some e)
    (hc : c.problem = none) (hk : k < stepLimit)
    (ht : s.OnTime c (c.deadline k) (c.deadline (k + 1)))
    (hcount : ∀ e ∈ s.editors, e.Counted (k + 1)) (hhist : s.network.server.history.length ≤ k * k) :
    (effects.foldlM (fun (s : Simulation R) effect => s.perform i effect) s).Within
      (Fault.Late (c.deadline (k + 1))) (Paced c (k + 1)) := by
  have hlonger : c.deadline k ≤ c.deadline (k + 1) := Scenario.deadline_mono (Nat.le_succ k)
  have hsquare : (k + 1) * (k + 1) = k * k + k + k + 1 := by
    rw [Nat.succ_mul, Nat.mul_succ]; omega
  obtain ⟨t, l, -, -, -, hclient⟩ := h.clients i e he
  simp only [only, if_true] at hclient
  rcases hclient with ⟨tok, p, -, -, hatt⟩ | ⟨-, rfl, -⟩
  · have hunacked : e.channel.queue.unacked.length ≤ k + 1 := by
      have hbuffered : e.channel.queue.unacked.length + e.channel.queue.queued.length ≤ e.made :=
        hatt.keeps.books.tracks.length_buffered_le
      have hmade := (hcount e (List.mem_of_getElem? he)).made
      omega
    have hroom := room_of_lt hk hhist
    refine ((h.performAll_within he ht hc (Nat.le_of_eq Scenario.deadline_succ) (by omega)).and_yields
      (h.performAll he)).mono fun s' hs' => ?_
    obtain ⟨ht', -, hrep, -, acked, remoteOps, backoff, hed⟩ := hs'
    have hgrows := hrep.length_le hatt.owes
    refine ⟨ht'.mono hlonger (Nat.le_refl _), ?_, by omega⟩
    rw [hed]
    have hold := hcount e (List.mem_of_getElem? he)
    refine forall_mem_set hcount ?_ i
    exact ⟨hold.tokens, hold.made, hold.chars, hold.coherent, hold.fed⟩
  · exact ⟨ht.mono hlonger (Nat.le_refl _), hcount, by omega⟩

theorem Inv.settle_paced (h : Inv faces s quiet) (he : s.editors[i]? = some e) {e₁ : Editor R}
    {r : Channel.Reaction CharOp} {t : Timeline CharOp} {l : Server.Link} {tok : Token} {p : Standing}
    (hc : c.problem = none) (hk : k < stepLimit) (hpaced : Paced c k s)
    (hed : s₁.editors = s.editors) (hsv : s₁.network.server = s.network.server)
    (htj : ∀ j, j ≠ i → s₁.network.timelines[j]? = s.network.timelines[j]?)
    (hface : e₁.face = e.face) (ht : s₁.network.timelines[i]? = some t)
    (hl : s.network.server.links[i]? = some l) (hses : l.session = e.session)
    (htok : l.connection = some tok) (hp : p.history = s.network.server.history)
    (hatt : Attends tok p l.lastDelivery t { e₁ with channel := r.1 } r.2)
    (htimelines : ∀ t ∈ s₁.network.timelines, t.OnTime (c.deadline k) (c.deadline (k + 1)))
    (hplan : e₁.OnTime c (c.deadline (k + 1)))
    (hcount : Editor.Counted (k + 1) { e₁ with channel := r.1 }) :
    (s₁.settle i e₁ r).Within (Fault.Late (c.deadline (k + 1))) (Paced c (k + 1)) := by
  have hlonger : c.deadline k ≤ c.deadline (k + 1) := Scenario.deadline_mono (Nat.le_succ k)
  have hlt := (List.getElem?_eq_some_iff.1 he).1
  have hed₁ : (s₁.withEditor i { e₁ with channel := r.1 }).editors =
      s.editors.set i { e₁ with channel := r.1 } := by rw [← hed]; rfl
  have hinv : Inv faces (s₁.withEditor i { e₁ with channel := r.1 }) (only i r.2) := by
    refine h.turn he hed₁ hsv htj hface ht hl ⟨?_, .inl ⟨tok, p, htok, hp, hatt⟩⟩
    exact hses.trans (congrArg Prod.snd hface).symm
  have he₁ : (s₁.withEditor i { e₁ with channel := r.1 }).editors[i]? =
      some { e₁ with channel := r.1 } := by rw [hed₁, List.getElem?_set_self hlt]
  refine hinv.performAll_paced he₁ hc hk ⟨?_, ?_, htimelines, ?_⟩ ?_ ?_
  · rw [← hpaced.time.faults, ← hsv]; rfl
  · intro l hl
    exact Nat.le_trans (hpaced.time.links l (hsv ▸ hl)) hlonger
  · rw [hed₁]
    refine forall_mem_set (hpaced.time.mono (Nat.le_refl _) hlonger).editors ?_ i
    exact ⟨hplan.policy, hplan.nextEdit⟩
  · rw [hed₁]
    exact forall_mem_set (fun e he => (hpaced.editors e he).mono (Nat.le_succ k)) hcount i
  · exact hsv ▸ hpaced.history

theorem Inv.author_paced (h : Inv faces s quiet) (he : s.editors[i]? = some e) {e₁ : Editor R}
    {edit : Edit} {doc : Doc} {t : Timeline CharOp} {l : Server.Link} {tok : Token} {p : Standing}
    (hc : c.problem = none) (hk : k < stepLimit) (hpaced : Paced c k s)
    (hed : s₁.editors = s.editors) (hsv : s₁.network.server = s.network.server)
    (htj : ∀ j, j ≠ i → s₁.network.timelines[j]? = s.network.timelines[j]?)
    (hface : e₁.face = e.face) (ht : s₁.network.timelines[i]? = some t)
    (hl : s.network.server.links[i]? = some l) (hses : l.session = e.session)
    (htok : l.connection = some tok) (hp : p.history = s.network.server.history)
    (hatt : Attends tok p l.lastDelivery t e₁ [])
    (htimelines : ∀ t ∈ s₁.network.timelines, t.OnTime (c.deadline k) (c.deadline (k + 1)))
    (hplan : e₁.OnTime c (c.deadline (k + 1))) (hcount : e₁.Counted k)
    (hdoc : e₁.doc.apply edit = .ok doc) :
    (s₁.author i e₁ edit).Within (Fault.Late (c.deadline (k + 1))) (Paced c (k + 1)) := by
  have hroom := room_of_lt hk hpaced.history
  obtain ⟨⟨answer, r⟩, hr, hdoes⟩ := hatt.exists_send hcount hdoc (by omega)
  obtain ⟨rfl, -, hatt'⟩ := (hatt.send hdoc).of_ok hr
  unfold Simulation.author
  dsimp only
  rw [hdoc]
  dsimp only
  rw [hr]
  have hsettle : (s₁.settle i { e₁ with made := e₁.made + 1, doc } r).Within
      (Fault.Late (c.deadline (k + 1))) (Paced c (k + 1)) :=
    h.settle_paced he hc hk hpaced hed hsv htj hface ht hl hses htok hp hatt' htimelines
      ⟨hplan.policy, hplan.nextEdit⟩ (hcount.author hdoc hdoes)
  exact hsettle.bind fun s' hs' => hs'

theorem Running.event_within (h : Running c.workload faces s) (hc : c.problem = none)
    (hk : k < stepLimit) (hpaced : Paced c k s) (client : Nat) :
    (s.event client).Within (Fault.Late (c.deadline (k + 1))) (Paced c (k + 1)) := by
  have hlonger : c.deadline k ≤ c.deadline (k + 1) := Scenario.deadline_mono (Nat.le_succ k)
  have hidle : Paced c (k + 1) s := hpaced.mono (Nat.le_succ k)
  rw [event_eq_take]
  unfold take
  cases he : s.editors[client]? with
  | none => exact hidle
  | some e =>
    have hmem := List.mem_of_getElem? he
    obtain ⟨t, l, tok, p, ht, hl, hses, htok, hp, hatt⟩ :=
      h.inv.attends_of_connected he (h.connected e hmem)
    rw [ht]; dsimp only
    cases hev : t.pick 0 with
    | none => exact hidle
    | some x =>
      obtain ⟨ev, t'⟩ := x
      have hroom := room_of_lt hk hpaced.history
      obtain ⟨r, hr, hreacts⟩ := hatt.exists_handle (hpaced.editors e hmem) t.ready_zero hev
        (hp ▸ h.inv.server.replay) (hp ▸ h.inv.server.numbered)
        (fun d hd hne => h.inv.foreign he (hp ▸ hd) hne) (by rw [hp]; omega)
      obtain ⟨p', -, hh, -, hatt'⟩ := (h.inv.handle he hatt hp t.ready_zero hev).of_ok hr
      have hplan := hpaced.time.editors e hmem
      let s₁ : Simulation R :=
        { s with network := { s.network with timelines := s.network.timelines.set client t' } }
      have hti : s₁.network.timelines[client]? = some t' :=
        List.getElem?_set_self (List.getElem?_eq_some_iff.1 ht).1
      have htimelines : ∀ t ∈ s₁.network.timelines,
          t.OnTime (c.deadline k) (c.deadline (k + 1)) := by
        have hpicked := (hpaced.time.timelines t (List.mem_of_getElem? ht)).pick hev
        exact fun t ht => (forall_mem_set hpaced.time.timelines hpicked client t ht).mono
          (Nat.le_refl _) hlonger
      have hsettle : (s₁.settle client e r).Within (Fault.Late (c.deadline (k + 1)))
          (Paced c (k + 1)) :=
        h.inv.settle_paced he hc hk hpaced rfl rfl (fun j hj => List.getElem?_set_ne (Ne.symm hj)) rfl
          hti hl hses htok (hh.trans hp) hatt' htimelines
          ⟨hplan.policy, fun due hdue => Nat.le_trans (hplan.nextEdit due hdue) hlonger⟩
          ((hpaced.editors e hmem).react hreacts)
      dsimp only
      rw [hr]
      exact hsettle

omit [RandomSource R] in
theorem Editor.Counted.drainIf {tok : Token} {p : Standing} {last : Nat} {t : Timeline CharOp}
    {drain : Bool} (h : e.Counted k) (hatt : Attends tok p last t e [])
    (he' : (if drain then e.drain else e) = e') : e'.Counted k ∧ e'.backoff = e.backoff := by
  subst he'
  cases drain with
  | false => exact ⟨h, rfl⟩
  | true =>
    obtain ⟨-, doc, -, hdrain⟩ := hatt.drain
    exact ⟨h.drain hatt, by rw [if_pos rfl, hdrain]⟩

theorem Running.edit_within (h : Running c.workload faces s) (hc : c.problem = none)
    (hk : k < stepLimit) (hpaced : Paced c k s) (hgap : c.workload.longestGap < Checked.limit)
    {client due : Nat} (he : s.editors[client]? = some e) (hdue : e.nextEdit = some due) :
    (s.edit client due).Within (Fault.Late (c.deadline (k + 1))) (Paced c (k + 1)) := by
  have hlonger : c.deadline k ≤ c.deadline (k + 1) := Scenario.deadline_mono (Nat.le_succ k)
  have hmem := List.mem_of_getElem? he
  obtain ⟨t, l, tok, p, ht, hl, hses, htok, hp, hatt⟩ :=
    h.inv.attends_of_connected he (h.connected e hmem)
  have hplan := hpaced.time.editors e hmem
  obtain ⟨choice, random, hchoose, hpause⟩ := exists_choose (s := s)
    (h.workload ▸ (Scenario.problem_eq_none_iff.1 hc).1) (h.workload ▸ hgap)
  rw [h.workload] at hpause
  have hdue := hplan.nextEdit due hdue
  have hfollowing : due + choice.gap ≤ c.deadline (k + 1) := by
    have hlongest : c.workload.longestGap ≤ c.longest :=
      Nat.le_trans (Nat.le_max_left ..) (Nat.le_max_left ..)
    rw [← Scenario.deadline_succ]; omega
  unfold Simulation.edit
  refine Checked.Within.bind (P := (· = (choice, { s with random }))) (by rw [hchoose]; rfl) ?_
  rintro _ rfl
  dsimp only
  rw [he]
  dsimp only
  obtain ⟨e₁, hdrain, hatt₁, hface, -⟩ := hatt.drainIf choice.drain
  obtain ⟨hcount, hbackoff⟩ := (hpaced.editors e hmem).drainIf hatt hdrain
  rw [hdrain, h.workload]
  refine (Checked.addTime_within (Fault.lt_or_late hfollowing)).bind fun following hadd => ?_
  obtain ⟨doc, hdoc⟩ := e₁.exists_apply_choose choice.insert choice.place choice.letter
  let nextEdit := if e₁.made + 1 < c.workload.editsPerClient then some following else none
  have hlate : Attends tok p l.lastDelivery (t.advanceTo due) e₁ [] := hatt₁.advanceTo
  have hatt₂ := hlate.aside e₁.backoff nextEdit
  have hcount₂ : Editor.Counted k { e₁ with nextEdit } :=
    ⟨hcount.tokens, hcount.made, hcount.chars, hcount.coherent, hcount.fed⟩
  let s₁ : Simulation R := { s with
    workload := c.workload, network := s.network.modify client (·.advanceTo due), random }
  have htimelines : ∀ t ∈ s₁.network.timelines,
      t.OnTime (c.deadline k) (c.deadline (k + 1)) :=
    forall_mem_modify (fun t ht => (hpaced.time.timelines t ht).mono (Nat.le_refl _) hlonger)
      (fun t ht => ht.advanceTo hdue) client
  have hplanned : Editor.OnTime c (c.deadline (k + 1)) { e₁ with nextEdit } := by
    refine ⟨(congrArg Backoff.policy hbackoff).trans hplan.policy, fun due' hdue' => ?_⟩
    dsimp only [nextEdit] at hdue'
    split at hdue'
    · cases hdue'; rw [hadd]; exact hfollowing
    · cases hdue'
  have hti : s₁.network.timelines[client]? = some (t.advanceTo due) := by
    show (s.network.timelines.modify client _)[client]? = _
    rw [List.getElem?_modify_eq, ht]; rfl
  have hother : ∀ j, j ≠ client → s₁.network.timelines[j]? = s.network.timelines[j]? :=
    fun j hj => List.getElem?_modify_ne _ _ (Ne.symm hj)
  exact h.inv.author_paced he hc hk hpaced (rfl : s₁.editors = s.editors) rfl hother hface hti hl hses
    htok hp hatt₂ htimelines hplanned hcount₂ hdoc

theorem Running.step_within (h : Running c.workload faces s) (hc : c.problem = none)
    (hk : k < stepLimit) (hpaced : Paced c k s)
    (hgap : 0 < c.workload.editsPerClient → c.workload.longestGap < Checked.limit) {x : Item}
    (hx : s.next = some x) :
    (s.step x).Within (Fault.Late (c.deadline (k + 1))) (Paced c (k + 1)) := by
  unfold Simulation.step
  obtain ⟨t, e, -, he, ⟨hb, -⟩ | ⟨hb, hdue⟩⟩ := mem_items.1 (earliest_mem hx)
  · rw [hb]; exact h.event_within hc hk hpaced x.client
  · have hlt : e.made < c.workload.editsPerClient :=
      (h.plan e (List.mem_of_getElem? he)).2.1 (by rw [hdue]; rfl)
    rw [hb]; exact h.edit_within hc hk hpaced (hgap (by omega)) he hdue

theorem Running.runFor_within {p : Progress R} (h : Running c.workload faces p.simulation)
    (hc : c.problem = none) (hpaced : Paced c k p.simulation)
    (hgap : 0 < c.workload.editsPerClient → c.workload.longestGap < Checked.limit) {n : Nat}
    (hn : k + n ≤ stepLimit) :
    (Simulation.runFor n p).Within (Fault.Late (c.deadline stepLimit)) fun _ => True := by
  induction n generalizing p k with
  | zero => trivial
  | succ n ih =>
    unfold Simulation.runFor
    cases hx : p.simulation.next with
    | none => trivial
    | some x =>
      have hlate : c.deadline (k + 1) ≤ c.deadline stepLimit := Scenario.deadline_mono (by omega)
      refine (((h.step_within hc (by omega) hpaced hgap hx).and_yields (h.step hx)).weaken
        fun f hf => hf.mono hlate).bind fun s' hs' => ?_
      exact ih hs'.2 hs'.1 (by omega)

theorem run_within (h : c.problem = none)
    (hgap : 0 < c.workload.editsPerClient → c.workload.longestGap < Checked.limit) (seeded : Nat → R) :
    (Simulation.run seeded c).Within (Fault.Late (c.deadline stepLimit)) fun _ => True := by
  have hstart := (start_within seeded c).weaken (G := Fault.Late (c.deadline stepLimit))
    fun _ hf => hf.elim
  unfold Simulation.run
  refine (hstart.and_yields (start_yields seeded c)).bind fun s hs => ?_
  exact (Running.runFor_within (p := { simulation := s }) hs.2 h hs.1.paced hgap (k := 0)
    (Nat.le_of_eq (Nat.zero_add _))).bind fun _ _ => trivial

omit [RandomSource R] in
theorem Scenario.run_eq_ok (h : c.problem = none) : c.run = .ok (Simulation.run ChaCha.ofSeed c) := by
  unfold Scenario.run
  rw [Settings.accept_eq_ok_iff.2 ⟨h, rfl⟩]; rfl

/-- An accepted scenario is run, whatever the seed and the source of random numbers. The run has a report,
unless the longest pause after an edit is no number in range although there are edits to make, or unless
what is put off adds up to more time than there is. -/
theorem Scenario.run_outcome (h : c.problem = none) (seeded : Nat → R) :
    c.run = .ok (Simulation.run ChaCha.ofSeed c) ∧
      (Simulation.run seeded c = .error .addOverflow ↔
        0 < c.workload.editsPerClient ∧ Checked.limit ≤ c.workload.longestGap) ∧
      ((∃ report, Simulation.run seeded c = .ok report) ∨
        Simulation.run seeded c = .error .addOverflow ∨
        Simulation.run seeded c = .error .timeOverflow ∧
          Checked.timeLimit ≤ c.deadline stepLimit) := by
  have hclients : c.workload.clients ≠ 0 := by
    intro hzero
    have hworkload := (Scenario.problem_eq_none_iff.1 h).1
    unfold Workload.problem at hworkload
    rw [if_pos hzero] at hworkload
    cases hworkload
  have haccept := Scenario.run_eq_ok h
  by_cases hbad : 0 < c.workload.editsPerClient ∧ Checked.limit ≤ c.workload.longestGap
  · have hrun := run_overflow seeded hclients hbad.1 (Nat.not_lt.2 hbad.2)
    exact ⟨haccept, iff_of_true hrun hbad, .inr (.inl hrun)⟩
  · have hgap : 0 < c.workload.editsPerClient → c.workload.longestGap < Checked.limit :=
      fun hedits => Nat.lt_of_not_le fun hlimit => hbad ⟨hedits, hlimit⟩
    have hrun := run_within h hgap seeded
    cases hreport : Simulation.run seeded c with
    | ok report => exact ⟨haccept, iff_of_false nofun hbad, .inl ⟨report, rfl⟩⟩
    | error f =>
      rw [hreport] at hrun
      obtain ⟨rfl, htime⟩ := hrun
      exact ⟨haccept, iff_of_false nofun hbad, .inr (.inr ⟨rfl, htime⟩)⟩

/-- Two clients make two edits each. -/
theorem run_outcome_pair : ∃ c : Scenario, c.workload.clients = 2 ∧ c.workload.editsPerClient = 2 ∧
    c.problem = none ∧ ∃ report, c.run = .ok (.ok report) := by
  let c : Scenario := { workload := { clients := 2, editsPerClient := 2 } }
  have h : c.problem = none := Option.isNone_iff_eq_none.1 (by decide +kernel)
  obtain ⟨haccept, hoverflow, hrun⟩ := Scenario.run_outcome h ChaCha.ofSeed
  refine ⟨c, rfl, rfl, h, ?_⟩
  rcases hrun with ⟨report, hreport⟩ | hrun | ⟨-, htime⟩
  · exact ⟨report, by rw [haccept, hreport]⟩
  · have hgap := (hoverflow.1 hrun).2
    exact absurd hgap (by decide +kernel)
  · exact absurd htime (by decide +kernel)

/-- One client is to make one edit, and the mean pause is the greatest number there is. -/
theorem run_overflow_longest_pause : ∃ c : Scenario, c.workload.clients = 1 ∧
    c.workload.editsPerClient = 1 ∧ c.workload.editIntervalMs = Checked.limit - 1 ∧ c.problem = none ∧
    c.run = .ok (.error .addOverflow) := by
  let c : Scenario :=
    { workload := { clients := 1, editsPerClient := 1, editIntervalMs := Checked.limit - 1 } }
  have h : c.problem = none := Option.isNone_iff_eq_none.1 (by decide +kernel)
  refine ⟨c, rfl, rfl, rfl, h, ?_⟩
  rw [Scenario.run_eq_ok h, run_overflow ChaCha.ofSeed (by decide) (by decide) (by decide)]

end CoEdit.Simulation
