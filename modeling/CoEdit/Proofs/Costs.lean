import CoEdit.Proofs.Completion
import CoEdit.Proofs.Conservation
import CoEdit.Proofs.Exhaustion
import Mathlib.Algebra.GroupWithZero.Nat

/-!
# What an edit leads to

An effect puts events on timelines (`Effect.cost`), some by itself and some by what the server answers to it
and relays of it (`Server.serve_posts`). What a channel with `n` clients beside it has queued leads to one
task, one response and one delivery of every operation to each of them when its turn comes
(`Channel.backlog`). An event that a channel handles leads to no more than that as long as none of the
channel's requests failed, and then no channel ever has reason to ask for anything again (`Channel.Smooth`).
-/

namespace CoEdit

variable {M : Type}

namespace Effect

def isSubscribe : Effect M → Bool
  | .subscribe .. => true
  | _ => false

/-- How many events an effect puts on timelines at most, if there are `n` clients. A subscription can be
sent any number of operations. -/
def cost (n : Nat) : Effect M → Nat
  | .schedule _ | .scheduleAfterDelay _ | .probe _ => 1
  | .submit _ _ ops => ops.length * n + 1
  | _ => 0

/-- The effect puts nothing on timelines. -/
def Free : Effect M → Prop
  | .schedule _ | .scheduleAfterDelay _ | .probe _ | .submit .. | .subscribe .. => False
  | _ => True

/-- Effects put `k` events on timelines at most, if there are `n` clients. -/
structure Spend (n : Nat) (effects : List (Effect M)) (k : Nat) : Prop where
  bounded : ∀ effect ∈ effects, effect.isSubscribe = false
  cost : (effects.map (Effect.cost n)).sum ≤ k

variable {n k l : Nat} {effects more : List (Effect M)} {effect : Effect M}

theorem Spend.one (h : effect.isSubscribe = false) : Spend n [effect] (effect.cost n) :=
  ⟨List.forall_mem_singleton.2 h, Nat.le_refl _⟩

theorem Spend.append (h : Spend n effects k) (h' : Spend n more l) : Spend n (effects ++ more) (k + l) := by
  refine ⟨List.forall_mem_append.2 ⟨h.bounded, h'.bounded⟩, ?_⟩
  rw [List.map_append, List.sum_append]
  exact Nat.add_le_add h.cost h'.cost

theorem Spend.of_free (h : ∀ effect ∈ effects, effect.Free) : Spend n effects 0 := by
  refine ⟨fun effect he => ?_, Nat.le_of_eq (List.sum_eq_zero_iff_forall_eq_nat.2 fun m hm => ?_)⟩
  · have hfree := h effect he
    cases effect with
    | subscribe => exact hfree.elim
    | _ => rfl
  · obtain ⟨effect, he, rfl⟩ := List.mem_map.1 hm
    have hfree := h effect he
    cases effect with
    | schedule | scheduleAfterDelay | probe | submit | subscribe => exact hfree.elim
    | _ => rfl

end Effect

/-- The response tells of a failure after which a request is made again. -/
def Event.Retries (event : Event M) : Prop := ∃ message, event.failure? = some (.retryable message)

namespace Channel

variable {x : Transformer M} {c : Channel M} {n k m : Nat} {phase : Phase} {r : Reaction M} {me : Session}
  {d : Delivery M} {task : Option Token} {tokens : TokenSource} {effects : List (Effect M)}

theorem Phase.free_release : ∀ effect ∈ phase.release (M := M), effect.Free := by
  intro effect he
  rcases mem_release he with ⟨id, kind, rfl, -⟩ | ⟨token, rfl⟩ <;> trivial

theorem free_ackedAll {clean : Bool} {ops : List M} : ∀ effect ∈ ackedAll clean ops, effect.Free := by
  intro effect he
  obtain ⟨op, clean, rfl⟩ := mem_ackedAll he
  trivial

/-- None of the channel's requests failed so far. -/
structure Smooth (c : Channel M) : Prop where
  coherent : c.Coherent
  fed : c.Fed
  state : c.state ≠ .delayResync ∧ c.state ≠ .waitingSync
  stats : c.stats.probes = 0 ∧ c.stats.resends = 0 ∧ c.stats.retryableFailures = 0

/-- Everything that is queued leads to, at most. If its transmission is scheduled then the task has come
about already. -/
def backlog (n : Nat) (c : Channel M) : Nat :=
  c.queue.queued.length * (n + 2) -
    match c.phase with
    | .allAcked (some _) => 1
    | _ => 0

theorem backlog_le : c.backlog n ≤ c.queue.queued.length * (n + 2) := Nat.sub_le ..

theorem backlog_of_not_scheduled (h : ∀ id, c.phase ≠ .allAcked (some id)) :
    c.backlog n = c.queue.queued.length * (n + 2) := by
  unfold backlog; split
  · exact absurd ‹_› (h _)
  · rfl

/-- A reaction leads to no more than `k` events, now and later. -/
def Affords (n k : Nat) (r : Reaction M) : Prop := ∃ l, Effect.Spend n r.2 l ∧ r.1.backlog n + l ≤ k

theorem Affords.mono (h : Affords n k r) (hle : k ≤ m) : Affords n m r := by
  obtain ⟨l, hspend, hl⟩ := h
  exact ⟨l, hspend, Nat.le_trans hl hle⟩

theorem Affords.closed (h : ∀ effect ∈ effects, effect.Free) : Affords n k (c.closed, effects) :=
  ⟨0, .of_free h, Nat.le_trans backlog_le ((Nat.zero_mul _).symm ▸ Nat.zero_le _)⟩

theorem Schedules.affords (h : c.Schedules task tokens effects) {c' : Channel M}
    (hq : c'.queue.queued = c.queue.queued) (hp : c'.phase = .allAcked task) :
    Affords n (c.queue.queued.length * (n + 2)) (c', effects) := by
  rcases h with ⟨-, rfl, -, rfl⟩ | ⟨hne, rfl, -, rfl⟩
  · exact ⟨0, .of_free (List.forall_mem_nil _), hq ▸ backlog_le⟩
  · refine ⟨1, .one rfl, ?_⟩
    have hpos := Nat.mul_le_mul_right (n + 2) (List.length_pos_iff.2 hne)
    unfold backlog
    rw [hp, hq]
    dsimp only
    omega

theorem Schedules.affords_confirmed {before news : List (Effect M)}
    (h : c.Schedules task tokens effects) (hb : ∀ effect ∈ before, effect.Free)
    (hn : ∀ effect ∈ news, effect.Free) {c' : Channel M} (hq : c'.queue.queued = c.queue.queued)
    (hp : c'.phase = .allAcked task) (hc : ∀ id, c.phase ≠ .allAcked (some id)) :
    Affords n (c.backlog n) (c', before ++ .resetBackoff :: effects ++ news) := by
  obtain ⟨l, hspend, hle⟩ := h.affords (n := n) hq hp
  have hfree : ∀ effect ∈ before ++ [.resetBackoff], effect.Free :=
    List.forall_mem_append.2 ⟨hb, List.forall_mem_singleton.2 trivial⟩
  have hall := ((Effect.Spend.of_free (n := n) hfree).append hspend).append (.of_free hn)
  rw [List.append_assoc before, List.singleton_append, Nat.zero_add, Nat.add_zero] at hall
  exact ⟨l, hall, (backlog_of_not_scheduled hc).symm ▸ hle⟩

theorem Affords.idle {c' : Channel M} (h : c'.backlog n ≤ k) (he : ∀ effect ∈ effects, effect.Free) :
    Affords n k (c', effects) := ⟨0, .of_free he, h⟩

theorem Accepts.affords (h : Accepts x c me d r) (hx : x.KeepsLengths) (hc : c.Fitting) :
    Affords n (c.backlog n) r := by
  cases h with
  | recognises | confirms => exact .idle (Nat.le_refl _) (by simp [Effect.Free])
  | confirmsLast hd ht hu hs =>
    refine hs.affords_confirmed Phase.free_release (by simp [Effect.Free]) rfl rfl fun id hp => ?_
    -- what is scheduled is scheduled only when nothing is in flight
    have hfits := hc.fits
    rw [hp] at hfits
    rw [hfits.2.1] at hu
    cases hu
  | takesIn hd ht hf hr =>
    refine .idle (Nat.le_of_eq ?_) (by simp [Effect.Free])
    unfold backlog
    dsimp only
    rw [hr.length_client hx]

theorem Accepts.smooth (h : Accepts x c me d r) (hc : c.Smooth) :
    (r.1.state ≠ .delayResync ∧ r.1.state ≠ .waitingSync) ∧
      r.1.stats.probes = 0 ∧ r.1.stats.resends = 0 ∧ r.1.stats.retryableFailures = 0 := by
  cases h with
  | confirmsLast hd ht hu hs => exact ⟨⟨nofun, nofun⟩, hc.stats⟩
  | recognises | confirms | takesIn => exact ⟨hc.state, hc.stats⟩

/-- A channel whose requests did not fail goes on like that, and spends what was put by for what it does. -/
theorem Reacts.smooth {event : Event M} (h : Reacts x c event r) (hx : x.KeepsLengths) (hc : c.Smooth)
    (hev : ¬ event.Retries) : r.1.Smooth ∧ Affords n (c.backlog n) r := by
  have hcoherent := h.coherent hc.coherent
  have hfed := h.fed hx.keepsClients hc.fed
  have hstate := hc.state
  unfold state at hstate
  cases h with
  | stale h => exact ⟨hc, .idle (Nat.le_refl _) (List.forall_mem_nil _)⟩
  | submits hp hu hq =>
    refine ⟨⟨hcoherent, hfed, ⟨nofun, nofun⟩, hc.stats⟩, _, .one rfl, ?_⟩
    have hpos := List.length_pos_iff.2 hq
    unfold backlog Effect.cost
    rw [hp]
    dsimp only [List.length_nil]
    rw [Nat.mul_add c.queue.queued.length]
    omega
  | lapses hp hq => exact absurd hq (hc.fed.scheduled _ hp)
  | probes hp => rw [hp] at hstate; exact absurd rfl hstate.1
  | confirms hp hb hu hr hs =>
    refine ⟨⟨hcoherent, hfed, ⟨nofun, nofun⟩, hc.stats⟩, ?_⟩
    refine hs.affords_confirmed (List.forall_mem_nil _) free_ackedAll rfl rfl fun id hp' => ?_
    rw [hp] at hp'; cases hp'
  | defers hp hr =>
    refine ⟨⟨hcoherent, hfed, ⟨nofun, nofun⟩, hc.stats⟩, .idle ?_ (List.forall_mem_nil _)⟩
    unfold backlog
    rw [hp]
  | learns hp hs => rw [hp] at hstate; exact absurd rfl hstate.2
  | retries h he => exact absurd ⟨_, he⟩ hev
  | givesUp h he => exact ⟨⟨hcoherent, hfed, ⟨nofun, nofun⟩, hc.stats⟩, .closed (by simp [Effect.Free])⟩
  | breaks hconn h =>
    refine ⟨⟨hcoherent, hfed, ⟨nofun, nofun⟩, hc.stats⟩, .closed ?_⟩
    exact List.forall_mem_append.2 ⟨Phase.free_release, by simp [Effect.Free]⟩
  | accepts hconn h hs =>
    obtain ⟨hstate, hstats⟩ := h.smooth hc
    obtain rfl := hs.eq_of_ne fun probe answered target hp => hstate.2 (by rw [state, hp]; rfl)
    rw [List.append_nil]
    exact ⟨⟨hcoherent, hfed, hstate, hstats⟩, h.affords hx hc.coherent.toFitting⟩

theorem Does.send_smooth {op : M} {reply : Reply M} (h : Does x c (.send op) reply r)
    (hx : x.KeepsLengths) (hc : c.Smooth) : r.1.Smooth ∧ Affords n (c.backlog n + (n + 2)) r := by
  have hcoherent := h.coherent hc.coherent
  have hfed := h.fed hx.keepsClients hc.fed
  cases h with
  | unconnected => exact ⟨hc, .idle (Nat.le_add_right ..) (List.forall_mem_nil _)⟩
  | schedules hp ht hs =>
    refine ⟨⟨hcoherent, hfed, ⟨nofun, nofun⟩, hc.stats⟩, .mono (by exact hs.affords rfl rfl) ?_⟩
    have hnone : ∀ id, c.phase ≠ .allAcked (some id) := by rw [hp]; exact nofun
    dsimp only
    rw [List.length_append, ht.length_client hx, Nat.succ_mul, backlog_of_not_scheduled hnone]
  | stages hconn hp ht =>
    refine ⟨⟨hcoherent, hfed, hc.state, hc.stats⟩, .idle ?_ (List.forall_mem_nil _)⟩
    unfold backlog
    dsimp only
    rw [List.length_append, ht.length_client hx, Nat.succ_mul]
    split <;> omega
  | rejects hconn he =>
    refine ⟨⟨hcoherent, hfed, ⟨nofun, nofun⟩, hc.stats⟩, .closed ?_⟩
    exact List.forall_mem_append.2 ⟨Phase.free_release, by simp [Effect.Free]⟩

theorem Smooth.receiveAll (h : c.Smooth) :
    c.receiveAll.2.Smooth ∧ c.receiveAll.2.backlog n = c.backlog n := by
  unfold Channel.receiveAll
  split
  · have hfits := h.coherent.fits
    refine ⟨⟨⟨⟨hfits.mono ‹_› id fun _ => id, h.coherent.echoes⟩, h.coherent.lags⟩,
      ⟨h.fed.flight, h.fed.scheduled⟩, h.state, h.stats⟩, rfl⟩
  · exact ⟨h, rfl⟩

end Channel

variable {R : Type} [RandomSource R]

/-! ### The server -/

namespace Server

variable {s s₁ s₂ : Server R} {o : Outcome R} {client now k m : Nat} {posts more : List Posting}

/-- How many requests and responses were lost. -/
def Stats.lost (stats : Stats) : Nat :=
  stats.droppedBeforeApply + stats.droppedAfterApply + stats.failedProbes

/-- How many events the server posts at most for an effect. -/
def most (s : Server R) : Effect CharOp → Nat
  | .submit _ _ ops => ops.length * s.links.length + 1
  | .probe _ => 1
  | .subscribe _ revision => (s.history.drop revision.number).length
  | _ => 0

omit [RandomSource R] in
theorem most_eq {effect : Effect CharOp} (h : effect.isSubscribe = false) :
    (if effect.schedules then 1 else 0) + s.most effect = effect.cost s.links.length := by
  cases effect with
  | subscribe => cases h
  | submit => exact Nat.zero_add _
  | _ => rfl

/-- The server posts `k` events at most, and none of them asks for another attempt unless something got
lost. -/
structure Posts (s : Server R) (k : Nat) (o : Outcome R) : Prop where
  length : o.1.length ≤ k
  links : o.2.links.length = s.links.length
  lost : s.stats.lost ≤ o.2.stats.lost
  spared : o.2.stats.lost = s.stats.lost → ∀ p ∈ o.1, ¬ p.event.Retries

omit [RandomSource R] in
theorem Posts.silent (hl : s₁.links.length = s.links.length) (hs : s.stats.lost ≤ s₁.stats.lost) :
    s.Posts k ([], s₁) := ⟨Nat.zero_le _, hl, hs, fun _ => List.forall_mem_nil _⟩

omit [RandomSource R] in
theorem Posts.append (h : s.Posts k (posts, s₁)) (h' : s₁.Posts m (more, s₂)) :
    s.Posts (k + m) (posts ++ more, s₂) := by
  have hle : s.stats.lost ≤ s₁.stats.lost := h.lost
  have hle' : s₁.stats.lost ≤ s₂.stats.lost := h'.lost
  refine ⟨?_, h'.links.trans h.links, Nat.le_trans hle hle', fun heq => ?_⟩
  · rw [List.length_append]
    exact Nat.add_le_add h.length h'.length
  · dsimp only at heq
    exact List.forall_mem_append.2 ⟨h.spared (by dsimp only; omega), h'.spared (by dsimp only; omega)⟩

/-- A response that asks for another attempt does so because something just got lost. -/
theorem respond_posts {event : Event CharOp} (hl : s₁.links.length = s.links.length)
    (hs : s.stats.lost ≤ s₁.stats.lost) (hev : event.Retries → s.stats.lost < s₁.stats.lost) :
    (s₁.respond client now event).Within (fun _ => True) (s.Posts 1) := by
  refine (respond_within (.inr trivial) (.inr trivial)).mono fun o ho => ?_
  obtain ⟨ms, random, -, -, rfl⟩ := ho
  refine ⟨Nat.le_refl _, hl, hs, fun heq => List.forall_mem_singleton.2 fun hev' => ?_⟩
  exact Nat.lt_irrefl _ (heq ▸ hev hev')

theorem relay_posts {d : Delivery CharOp} :
    (s.relay client now d).Within (fun _ => True) (s.Posts 1) := by
  unfold relay
  refine (latency_within (.inr trivial)).bind fun r hr => ?_
  obtain ⟨ms, s₁⟩ := r
  obtain ⟨-, -, random, rfl⟩ := hr
  dsimp only
  split
  · refine (Checked.within_any _).bind fun due _ => ?_
    refine ⟨Nat.le_refl _, List.length_set, Nat.le_refl _, fun _ => List.forall_mem_singleton.2 ?_⟩
    rintro ⟨message, hmessage⟩
    cases hmessage
  · exact .silent rfl (Nat.le_refl _)

omit [RandomSource R] in
theorem each_posts {α : Type} {step : Server R → α → Checked (Outcome R)} {l : List α} {n : Nat}
    (h : ∀ (s : Server R) a, s.links.length = n → (step s a).Within (fun _ => True) (s.Posts k))
    (hn : s.links.length = n) : (each step s l).Within (fun _ => True) (s.Posts (l.length * k)) := by
  induction l generalizing s with
  | nil => exact .silent rfl (Nat.le_refl _)
  | cons a l ih =>
    unfold each
    refine (h s a hn).bind fun r hr => Checked.Within.bind (ih (hr.links.trans hn)) fun r' hr' => ?_
    rw [List.length_cons, Nat.succ_mul, Nat.add_comm]
    exact hr.append hr'

theorem append_posts {session : Session} {op : CharOp} :
    (s.append now session op).Within (fun _ => True) (s.Posts s.links.length) := by
  unfold append
  refine (Checked.within_any _).bind fun revision _ => ?_
  dsimp only
  refine (each_posts (fun s client _ => relay_posts) rfl).mono fun o ho => ?_
  rw [List.length_range, Nat.mul_one] at ho
  exact ⟨ho.length, ho.links, ho.lost, ho.spared⟩

omit [RandomSource R] in
theorem judge_length {base : Revision} {ops : List CharOp} : (s.judge base ops).Within (fun _ => True)
    fun r => ∀ moved doc, r = .ok (moved, doc) → moved.length = ops.length := by
  unfold judge
  split
  · exact fun _ _ h => nomatch h
  · refine (Transformer.run_counts.weaken fun _ _ => trivial).bind fun r hr => ?_
    rcases hr with ⟨t, ht, rfl⟩ | ⟨e, -, rfl⟩
    · dsimp only
      split
      · exact fun _ _ h => nomatch h
      · rintro moved doc ⟨⟩
        exact (CharOp.transform_keepsLengths ht).1
    · exact fun _ _ h => nomatch h

theorem apply_posts {session : Session} {base : Revision} {ops : List CharOp} :
    (s.apply now session base ops).Within (fun _ => True) fun r =>
      s.Posts (ops.length * s.links.length) r.2 := by
  unfold apply
  refine judge_length.bind fun r hr => ?_
  rcases r with e | ⟨moved, doc⟩
  · exact .silent rfl (Nat.le_refl _)
  · have hall : (each (fun s op => s.append now session op) { s with doc } moved).Within (fun _ => True)
        (Posts { s with doc } (moved.length * s.links.length)) :=
      each_posts (n := s.links.length) (fun s op hs => hs ▸ append_posts) rfl
    refine hall.bind fun o ho => ?_
    rw [hr moved doc rfl] at ho
    exact ⟨ho.length, ho.links, ho.lost, ho.spared⟩

theorem submit_posts {session : Session} {token : Token} {base : Revision} {ops : List CharOp} :
    (s.submit client now session token base ops).Within (fun _ => True)
      (s.Posts (ops.length * s.links.length + 1)) := by
  unfold submit
  dsimp only
  split
  · refine Checked.Within.mono (P := s.Posts 1) (respond_posts rfl ?_ fun _ => ?_) fun o ho => ?_
    · unfold Stats.lost; dsimp only; omega
    · unfold Stats.lost; dsimp only; omega
    · exact ⟨Nat.le_trans ho.length (Nat.le_add_left ..), ho.links, ho.lost, ho.spared⟩
  · refine apply_posts.bind fun r hr => ?_
    obtain ⟨result, posts, s₁⟩ := r
    have hposts : s.Posts (ops.length * s.links.length) (posts, s₁) :=
      ⟨hr.length, hr.links, hr.lost, hr.spared⟩
    cases result with
    | error e =>
      have hresponse : ¬ Event.Retries (M := CharOp) (.submitResponse token (.error (.fatal e.message))) :=
        fun ⟨message, hmessage⟩ => nomatch hmessage
      exact (respond_posts rfl (Nat.le_refl _) fun h => absurd h hresponse).bind fun o ho => hposts.append ho
    | ok revision =>
      dsimp only
      split
      · refine Checked.Within.bind (P := s₁.Posts 1) (respond_posts rfl ?_ fun _ => ?_) fun o ho =>
          hposts.append ho
        · unfold Stats.lost; dsimp only; omega
        · unfold Stats.lost; dsimp only; omega
      · exact (respond_posts rfl (Nat.le_refl _) fun ⟨message, hmessage⟩ => nomatch hmessage).bind
          fun o ho => hposts.append ho

theorem serve_posts {effect : Effect CharOp} :
    (s.serve client now effect).Within (fun _ => True) (s.Posts (s.most effect)) := by
  unfold serve
  split
  · exact submit_posts
  · unfold probe
    dsimp only
    split
    · refine respond_posts rfl ?_ fun _ => ?_
      · unfold Stats.lost; dsimp only; omega
      · unfold Stats.lost; dsimp only; omega
    · exact respond_posts rfl (Nat.le_refl _) fun ⟨message, hmessage⟩ => nomatch hmessage
  · exact .silent rfl (Nat.le_refl _)
  · unfold subscribe
    dsimp only
    refine Checked.Within.mono (each_posts (fun s d _ => relay_posts) rfl) fun o ho => ?_
    rw [Nat.mul_one] at ho
    exact ⟨ho.length, ho.links.trans List.length_set, ho.lost, ho.spared⟩
  · exact .silent (List.length_modify ..) (Nat.le_refl _)
  · exact .silent rfl (Nat.le_refl _)

end Server

end CoEdit
