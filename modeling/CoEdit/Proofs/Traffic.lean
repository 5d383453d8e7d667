import CoEdit.Proofs.Fates
import CoEdit.Proofs.Invariant

/-!
# Networks under any use

A network is used in any way: clients are attached, open and close connections, submit and probe, with
whatever sessions, revisions and batches they like; tasks are put on the clients' timelines and cancelled;
events are taken off; clocks are moved (`Network.Act`). `Steps n log n'`: such acts lead from `n` to `n'`,
and `log` records what the server posted in answer and what was taken off a timeline.

No act has an effect on a client but through the server's postings or on its own timeline, and the server
has one link for every timeline (`Paired`).
-/

namespace CoEdit.Network

inductive Act where
  | attach (session : Session)
  | subscribe (client : Nat) (session : Session) (connection : Token) (revision : Revision)
  | unsubscribe (client : Nat)
  | submit (client : Nat) (session : Session) (token : Token) (base : Revision) (ops : List CharOp)
  | probe (client : Nat) (token : Token)
  /-- The client puts a task on its timeline. -/
  | schedule (client due : Nat) (task : Task)
  | cancel (client : Nat) (id : Token)
  /-- The next event is taken off the client's timeline. -/
  | advance (client : Nat)
  | advanceTo (client time : Nat)
deriving DecidableEq, Repr

/-- The client that acts. -/
def Act.client? : Act → Option Nat
  | attach _ => none
  | subscribe client .. | unsubscribe client | submit client .. | probe client _ | schedule client ..
  | cancel client _ | advance client | advanceTo client _ => some client

/-- An act, what the server posted in answer, and what left the timeline. -/
structure Turn where
  act : Act
  posts : List Server.Posting := []
  taken : Option (Event CharOp) := none
deriving Repr

variable {R : Type}

/-- Whoever acts is attached. -/
def Attached (n : Network R) (a : Act) : Prop := ∀ client ∈ a.client?, client < n.timelines.length

instance (n : Network R) (a : Act) : Decidable (n.Attached a) :=
  inferInstanceAs (Decidable (∀ client ∈ a.client?, client < n.timelines.length))

def attach (n : Network R) (session : Session) : Network R where
  server := { n.server with links := n.server.links ++ [{ session }] }
  timelines := n.timelines ++ [{}]

/-- Puts on the timelines what the server posts in answer to an act. -/
def reply (n : Network R) (a : Act) (answer : Checked (Server.Outcome R)) :
    Checked (Turn × Network R) := do
  let (posts, server) ← answer
  return ({ act := a, posts }, posts.foldl post { n with server })

variable [RandomSource R]

def act (n : Network R) (a : Act) : Checked (Turn × Network R) :=
  match a with
  | .attach session => .ok ({ act := a }, n.attach session)
  | .subscribe client session connection revision =>
    n.reply a (n.server.subscribe client (n.now client) session connection revision)
  | .unsubscribe client => .ok ({ act := a }, { n with server := n.server.unsubscribe client })
  | .submit client session token base ops =>
    n.reply a (n.server.submit client (n.now client) session token base ops)
  | .probe client token => n.reply a (n.server.probe client (n.now client) token)
  | .schedule client due task => .ok ({ act := a }, n.modify client (·.deliverAt due (.task task)))
  | .cancel client id => .ok ({ act := a }, n.modify client (·.cancel id))
  | .advance client =>
    match n.advance client with
    | none => .ok ({ act := a }, n)
    | some ((_, event), n) => .ok ({ act := a, taken := some event }, n)
  | .advanceTo client time => .ok ({ act := a }, n.modify client (·.advanceTo time))

inductive Steps (n₀ : Network R) : List Turn → Network R → Prop
  | refl : Steps n₀ [] n₀
  | act {log : List Turn} {n n' : Network R} {a : Act} {turn : Turn} (h : Steps n₀ log n)
      (ha : n.Attached a) (hact : n.act a = .ok (turn, n')) : Steps n₀ (log ++ [turn]) n'

/-- From a server that nobody is attached to. -/
def Run (faults : Server.Faults) (random : R) (log : List Turn) (n : Network R) : Prop :=
  (Network.start faults [] random).Steps log n

variable {n n' n₀ : Network R} {a : Act} {turn : Turn} {log : List Turn} {i j : Nat}
  {x : Checked (Server.Outcome R)} {f : Timeline CharOp → Timeline CharOp}

omit [RandomSource R] in
theorem reply_eq_ok_iff : n.reply a x = .ok (turn, n') ↔ ∃ o, x = .ok o ∧
    turn = { act := a, posts := o.1 } ∧ n' = o.1.foldl post { n with server := o.2 } := by
  unfold reply
  rw [Checked.bind_eq_ok_iff]
  refine exists_congr fun o => and_congr_right fun _ => ?_
  show Except.ok _ = Except.ok _ ↔ _
  rw [Except.ok.injEq, Prod.mk.injEq]
  exact and_congr eq_comm eq_comm

omit [RandomSource R] in
theorem reply_within {F : Fault → Prop} {Q : Server.Outcome R → Prop} (h : x.Within F Q) :
    (n.reply a x).Within F fun r => ∃ o, Q o ∧ r.1 = { act := a, posts := o.1 } ∧
      r.2 = o.1.foldl post { n with server := o.2 } := by
  unfold reply
  exact h.bind fun o ho => ⟨o, ho, rfl, rfl⟩

omit [RandomSource R] in
theorem modify_timelines (client : Nat) :
    (n.modify client f).timelines[j]? =
      if client = j then n.timelines[j]?.map f else n.timelines[j]? := by
  show (n.timelines.modify client f)[j]? = _
  rw [List.getElem?_modify]
  split <;> simp

theorem act_advance (h : n.act (.advance i) = .ok (turn, n')) {t : Timeline CharOp}
    (ht : n.timelines[i]? = some t) :
    (turn = { act := .advance i } ∧ n' = n) ∨
      ∃ event t', t.advance = some (event, t') ∧ turn = { act := .advance i, taken := some event } ∧
        n' = { n with timelines := n.timelines.set i t' } := by
  unfold Network.act Network.advance at h
  dsimp only at h
  rw [ht] at h
  dsimp only [Option.bind_eq_bind, Option.bind_some] at h
  unfold Timeline.nextDue at h
  unfold Timeline.advance at h ⊢
  cases hes : t.entries with
  | nil =>
    rw [hes] at h
    cases h
    exact .inl ⟨rfl, rfl⟩
  | cons e es =>
    rw [hes] at h
    cases h
    exact .inr ⟨_, _, rfl, rfl, rfl⟩

theorem act_submit {client : Nat} {session : Session} {token : Token} {base : Revision}
    {ops : List CharOp} (h : n.act (.submit client session token base ops) = .ok (turn, n')) :
    ∃ fate o, n.server.Settles client (n.now client) session token base ops fate o ∧
      turn = { act := .submit client session token base ops, posts := o.1 } ∧
      n' = o.1.foldl post { n with server := o.2 } := by
  obtain ⟨o, ho, hturn, hn⟩ := reply_eq_ok_iff.1 h
  obtain ⟨fate, hfate⟩ := (Server.submit_within (F := fun _ => True) (.inr trivial) (.inr trivial)
    (.inr trivial) (.inr trivial)).of_ok ho
  exact ⟨fate, o, hfate, hturn, hn⟩

theorem act_probe {client : Nat} {token : Token}
    (h : n.act (.probe client token) = .ok (turn, n')) :
    ∃ o, n.server.Informs client (n.now client) token o ∧
      turn = { act := .probe client token, posts := o.1 } ∧
      n' = o.1.foldl post { n with server := o.2 } := by
  obtain ⟨o, ho, hturn, hn⟩ := reply_eq_ok_iff.1 h
  exact ⟨o, (Server.probe_within (F := fun _ => True) (.inr trivial) (.inr trivial)).of_ok ho, hturn, hn⟩

theorem act_subscribe {client : Nat} {session : Session} {connection : Token} {revision : Revision}
    (h : n.act (.subscribe client session connection revision) = .ok (turn, n')) :
    ∃ o, Server.SameRecord n.server o.2 ∧ n.server.Adds (n.now client) 0 o ∧
      (∀ j, Server.Feeds j (if j = client then n.server.history.drop revision.number else [])
        { n.server with links := n.server.links.set client ⟨session, some connection, n.now client⟩ }
        o.1 o.2) ∧
      turn = { act := .subscribe client session connection revision, posts := o.1 } ∧
      n' = o.1.foldl post { n with server := o.2 } := by
  obtain ⟨o, ho, hturn, hn⟩ := reply_eq_ok_iff.1 h
  have hadds := (Server.subscribe_within (F := fun _ => True) (.inr trivial) (.inr trivial)
    (.inr trivial)).of_ok ho
  obtain ⟨hsame, hfeeds⟩ := Server.subscribe_yields.of_ok ho
  exact ⟨o, hsame, hadds, hfeeds, hturn, hn⟩

omit [RandomSource R] in
theorem foldl_post_server (posts : List Server.Posting) : (posts.foldl post n).server = n.server :=
  (Simulation.foldl_post posts n).1

omit [RandomSource R] in
theorem foldl_post_timelines (posts : List Server.Posting) (j : Nat) :
    (posts.foldl post n).timelines[j]? =
      n.timelines[j]?.map (·.deliverAll (Server.route j posts)) :=
  (Simulation.foldl_post posts n).2 j

omit [RandomSource R] in
theorem foldl_post_length (posts : List Server.Posting) :
    (posts.foldl post n).timelines.length = n.timelines.length := by
  induction posts generalizing n with
  | nil => rfl
  | cons p posts ih => exact ih.trans (List.length_modify ..)

/-- There is one link for every timeline. -/
def Paired (n : Network R) : Prop := n.timelines.length = n.server.links.length

omit [RandomSource R] in
theorem Attached.exists_timeline (ha : n.Attached a) (hi : a.client? = some i) :
    ∃ t, n.timelines[i]? = some t :=
  ⟨_, List.getElem?_eq_getElem (ha i (by rw [hi]; rfl))⟩

theorem turn_act (hact : n.act a = .ok (turn, n')) : turn.act = a := by
  unfold Network.act at hact
  cases a with
  | subscribe | submit | probe =>
    obtain ⟨o, -, rfl, -⟩ := reply_eq_ok_iff.1 hact
    rfl
  | advance =>
    dsimp only at hact
    split at hact <;> cases hact <;> rfl
  | attach | unsubscribe | schedule | cancel | advanceTo => cases hact; rfl

theorem act_frame (ha : n.Attached a) (hact : n.act a = .ok (turn, n')) :
    n'.server.faults = n.server.faults ∧ ((∃ session, n' = n.attach session) ∨
      n'.timelines.length = n.timelines.length ∧
        n'.server.links.length = n.server.links.length) := by
  cases a with
  | attach session =>
    cases hact
    exact ⟨rfl, .inl ⟨session, rfl⟩⟩
  | subscribe client session connection revision =>
    obtain ⟨o, ⟨-, -, -, hlinks⟩, hadds, -, -, rfl⟩ := act_subscribe hact
    rw [foldl_post_length, foldl_post_server]
    exact ⟨hadds.faults, .inr ⟨rfl, hlinks⟩⟩
  | unsubscribe client =>
    cases hact
    exact ⟨rfl, .inr ⟨rfl, List.length_modify ..⟩⟩
  | submit client session token base ops =>
    obtain ⟨fate, o, hfate, -, rfl⟩ := act_submit hact
    rw [foldl_post_length, foldl_post_server]
    exact ⟨hfate.adds.faults, .inr ⟨rfl, hfate.links⟩⟩
  | probe client token =>
    obtain ⟨o, ho, -, rfl⟩ := act_probe hact
    rw [foldl_post_length, foldl_post_server]
    exact ⟨ho.adds.faults, .inr ⟨rfl, congrArg _ ho.links⟩⟩
  | advance client =>
    obtain ⟨t, ht⟩ := ha.exists_timeline rfl
    obtain ⟨-, rfl⟩ | ⟨event, t', -, -, rfl⟩ := act_advance hact ht
    · exact ⟨rfl, .inr ⟨rfl, rfl⟩⟩
    · exact ⟨rfl, .inr ⟨List.length_set, rfl⟩⟩
  | schedule | cancel | advanceTo =>
    cases hact
    exact ⟨rfl, .inr ⟨List.length_modify .., rfl⟩⟩

theorem Paired.act (hp : n.Paired) (ha : n.Attached a) (hact : n.act a = .ok (turn, n')) :
    n'.Paired := by
  unfold Paired at hp ⊢
  obtain ⟨-, ⟨session, rfl⟩ | ⟨ht, hl⟩⟩ := act_frame ha hact
  · simp [attach, hp]
  · rw [ht, hl, hp]

theorem Steps.frame (h : n₀.Steps log n) (hp : n₀.Paired) :
    n.Paired ∧ n.server.faults = n₀.server.faults := by
  induction h with
  | refl => exact ⟨hp, rfl⟩
  | act _ ha hact ih => exact ⟨ih.1.act ha hact, (act_frame ha hact).1.trans ih.2⟩

/-! ### Acts that are computed -/

/-- The log and the network that acts lead to, if whoever acts is attached and no act ends in a fault. -/
def follow (n : Network R) : List Act → Option (List Turn × Network R)
  | [] => some ([], n)
  | a :: as =>
    if n.Attached a then
      match n.act a with
      | .ok (turn, n') => (n'.follow as).map fun (log, n'') => (turn :: log, n'')
      | .error _ => none
    else none

theorem Steps.follow (h : n₀.Steps log n) {as : List Act} {more : List Turn}
    (hf : n.follow as = some (more, n')) : n₀.Steps (log ++ more) n' := by
  induction as generalizing n log more with
  | nil => cases hf; rwa [List.append_nil]
  | cons a as ih =>
    unfold Network.follow at hf
    split at hf
    · rename_i ha
      cases hact : n.act a with
      | error f => rw [hact] at hf; cases hf
      | ok r =>
        obtain ⟨turn, n₁⟩ := r
        rw [hact] at hf
        obtain ⟨⟨rest, n₂⟩, hrest, heq⟩ := Option.map_eq_some_iff.1 hf
        cases heq
        rw [← List.singleton_append, ← List.append_assoc]
        exact ih (h.act ha hact) hrest
    · cases hf

/-- What can be checked of a network that is computed. -/
theorem Steps.exists_of_follow (n₀ : Network R) (as : List Act) (P : List Turn → Network R → Bool)
    (h : (n₀.follow as).any (fun r => P r.1 r.2) = true) :
    ∃ log n, n₀.Steps log n ∧ P log n = true := by
  cases hf : n₀.follow as with
  | none => rw [hf] at h; cases h
  | some r =>
    rw [hf] at h
    exact ⟨r.1, r.2, Steps.refl.follow hf, h⟩

end CoEdit.Network
