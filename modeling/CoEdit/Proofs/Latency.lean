import CoEdit.Proofs.Serving

/-!
# How much a request adds

A number drawn from an interval lies in it, so a message travels for at least the least latency and at
most the greatest. What a request adds to the server's numbers follows (`Server.Adds`): the history grows
by so many operations, and everything is posted and noted as due by any time that the greatest latency and
the earlier deliveries stay within.

A request ends in a fault only if the latencies are not ordered or if a span of time or a counter leaves its
range. Each lemma asks just that: the latencies are ordered, or the fault that it would be is one of those
that are allowed for; the sum stays in range, or its fault is allowed for.
-/

namespace CoEdit

namespace Random

variable {R : Type} {r : R} {lo hi : Nat}

theorem scaled_mem {draw : R → Nat × R} {width : Nat} (hd : ∀ r, (draw r).1 < width) (h : lo ≤ hi) :
    lo ≤ (scaled draw width lo hi r).1 ∧ (scaled draw width lo hi r).1 ≤ hi := by
  have hx := hd r
  have hy := hd (draw r).2
  have hle : (hi + 1 - lo) % width ≤ hi + 1 - lo := Nat.mod_le ..
  have hsize : (hi + 1 - lo) % width < width := Nat.mod_lt _ (by omega)
  unfold scaled
  dsimp only
  generalize hs : (hi + 1 - lo) % width = size at hle hsize
  split
  · rename_i h₀
    rw [h₀] at hs
    have hw : width ≤ hi + 1 - lo := Nat.le_of_dvd (by omega) (Nat.dvd_of_mod_eq_zero hs)
    omega
  · rename_i h₀
    generalize (draw r).1 = x at hx
    generalize (draw (draw r).2).1 = y at hy
    have hhigh : x * size / width < size := by
      rw [Nat.div_lt_iff_lt_mul (by omega), Nat.mul_comm size]
      exact Nat.mul_lt_mul_of_pos_right hx (by omega)
    have hcarry : y * size / width < size := by
      rw [Nat.div_lt_iff_lt_mul (by omega), Nat.mul_comm size]
      exact Nat.mul_lt_mul_of_pos_right hy (by omega)
    have hlow : x * size % width < width := Nat.mod_lt _ (by omega)
    have hsplit := Nat.div_add_mod (x * size) width
    have hmul : x * size + size ≤ width * size := by
      have := Nat.mul_le_mul_right size (Nat.succ_le_of_lt hx)
      rwa [Nat.succ_mul] at this
    generalize x * size / width = high at hhigh hsplit ⊢
    generalize x * size % width = low at hlow hsplit ⊢
    generalize y * size / width = carry at hcarry ⊢
    split
    · rename_i hc
      -- with the greatest high part the low part is at most the rest of the width
      have hnext : high + 1 < size := by
        refine Nat.lt_of_le_of_ne hhigh fun heq => ?_
        have hwidth : width * high + width = width * size := by
          rw [← Nat.mul_succ]; exact congrArg _ heq
        omega
      have hone : (low + carry) / width < 2 := Nat.div_lt_of_lt_mul (by omega)
      generalize (low + carry) / width = one at hone ⊢
      exact ⟨by dsimp only; omega, by dsimp only; omega⟩
    · exact ⟨by dsimp only; omega, by dsimp only; omega⟩

variable [RandomSource R]

theorem word32_lt : (word32 r).1 < 4294967296 := UInt32.toNat_lt _

theorem word64_lt : (word64 r).1 < 18446744073709551616 := by
  have hlow := word32_lt (r := r)
  have hhigh := word32_lt (r := (word32 r).2)
  show (word32 (word32 r).2).1 * 4294967296 + (word32 r).1 < _
  omega

theorem between_mem (h : lo ≤ hi) : lo ≤ (between lo hi r).1 ∧ (between lo hi r).1 ≤ hi :=
  scaled_mem (fun _ => word64_lt) h

end Random

namespace Checked

variable {α : Type} {x : Checked α} {P Q : α → Prop} {F : Fault → Prop} {a b : Nat}

theorem Within.and_yields (h : x.Within F P) (hx : x.Yields Q) : x.Within F fun a => P a ∧ Q a := by
  cases x with
  | ok a => exact ⟨h, hx⟩
  | error f => exact h

theorem add_within (h : a + b < limit ∨ F .addOverflow) : (add a b).Within F fun c => c = a + b := by
  unfold add; split
  · exact rfl
  · exact h.resolve_left ‹_›

theorem addTime_within (h : a + b < timeLimit ∨ F .timeOverflow) :
    (addTime a b).Within F fun c => c = a + b := by
  unfold addTime; split
  · exact rfl
  · exact h.resolve_left ‹_›

end Checked

namespace Server

variable {R : Type} {s s₁ s₂ : Server R} {F : Fault → Prop} {client now m n : Nat}
  {o o₁ o₂ : Outcome R} {posts more : List Posting}

/-- A request at time `now` adds `n` operations to the history, and nothing that it posts or notes is
due later than it has to be. -/
structure Adds (s : Server R) (now n : Nat) (o : Outcome R) : Prop where
  faults : o.2.faults = s.faults
  history : o.2.history.length = s.history.length + n
  due : ∀ latest, now + s.faults.maxLatencyMs ≤ latest → (∀ l ∈ s.links, l.lastDelivery ≤ latest) →
    (∀ p ∈ o.1, p.due ≤ latest) ∧ ∀ l ∈ o.2.links, l.lastDelivery ≤ latest

theorem Adds.of_links (hf : s₁.faults = s.faults) (hh : s₁.history = s.history)
    (hl : s₁.links = s.links) : s.Adds now 0 ([], s₁) :=
  ⟨hf, congrArg List.length hh, fun _ _ h => ⟨List.forall_mem_nil _, hl ▸ h⟩⟩

/-- What a request adds is measured by the faults, the links and the length of the history. -/
theorem Adds.of_eq (h : s₁.Adds now n o) (hf : s₁.faults = s.faults) (hh : s₁.history = s.history)
    (hl : s₁.links = s.links) : s.Adds now n o :=
  ⟨hf ▸ h.faults, hh ▸ h.history, hf ▸ hl ▸ h.due⟩

theorem Adds.append (h : s.Adds now m (posts, s₁)) (h' : s₁.Adds now n (more, s₂)) :
    s.Adds now (m + n) (posts ++ more, s₂) := by
  refine ⟨h'.faults.trans h.faults, ?_, fun latest hnow hlinks => ?_⟩
  · have h₁ := h.history
    have h₂ := h'.history
    dsimp only at h₁ h₂ ⊢
    omega
  · obtain ⟨hp, hl⟩ := h.due latest hnow hlinks
    obtain ⟨hp', hl'⟩ := h'.due latest (by rwa [show s₁.faults = s.faults from h.faults]) hl
    refine ⟨fun p hmem => ?_, hl'⟩
    exact (List.mem_append.1 hmem).elim (hp p) (hp' p)

variable [RandomSource R]

theorem latency_within (hlat : s.faults.minLatencyMs ≤ s.faults.maxLatencyMs ∨ F .emptyRange) :
    s.latency.Within F fun r => s.faults.minLatencyMs ≤ r.1 ∧ r.1 ≤ s.faults.maxLatencyMs ∧
      ∃ random, r.2 = { s with random } := by
  unfold latency; dsimp only
  split
  · exact hlat.resolve_left (Nat.not_le.2 ‹_›)
  · obtain ⟨h₁, h₂⟩ := Random.between_mem (r := s.random) (Nat.not_lt.1 ‹_›)
    exact ⟨h₁, h₂, _, rfl⟩

theorem respond_within {event : Event CharOp}
    (hlat : s.faults.minLatencyMs ≤ s.faults.maxLatencyMs ∨ F .emptyRange)
    (ht : now + s.faults.maxLatencyMs < Checked.timeLimit ∨ F .timeOverflow) :
    (s.respond client now event).Within F fun o => ∃ ms random, s.faults.minLatencyMs ≤ ms ∧
      ms ≤ s.faults.maxLatencyMs ∧ o = ([⟨client, now + ms, event⟩], { s with random }) := by
  unfold respond
  refine (latency_within hlat).bind fun r hr => ?_
  obtain ⟨ms, s₁⟩ := r
  obtain ⟨hmin, hmax, random, rfl⟩ := hr
  dsimp only at hmin hmax ⊢
  refine (Checked.addTime_within (ht.imp_left fun h => by omega)).bind fun due hdue => ?_
  exact ⟨ms, random, hmin, hmax, by rw [hdue]⟩

omit [RandomSource R] in
theorem Adds.of_response {event : Event CharOp} {ms : Nat} {random : R}
    (h : ms ≤ s.faults.maxLatencyMs) :
    s.Adds now 0 ([⟨client, now + ms, event⟩], { s with random }) := by
  refine ⟨rfl, rfl, fun latest hnow hlinks => ⟨fun p hp => ?_, hlinks⟩⟩
  rw [List.mem_singleton.1 hp]
  show now + ms ≤ latest
  omega

theorem relay_within {d : Delivery CharOp}
    (hlat : s.faults.minLatencyMs ≤ s.faults.maxLatencyMs ∨ F .emptyRange)
    (ht : now + s.faults.maxLatencyMs < Checked.timeLimit ∨ F .timeOverflow) :
    (s.relay client now d).Within F (s.Adds now 0) := by
  unfold relay
  refine (latency_within hlat).bind fun r hr => ?_
  obtain ⟨ms, s₁⟩ := r
  obtain ⟨hmin, hmax, random, rfl⟩ := hr
  dsimp only at hmin hmax ⊢
  split
  · rename_i session connection last hl
    refine (Checked.addTime_within (ht.imp_left fun h => by omega)).bind fun due hdue => ?_
    refine ⟨rfl, rfl, fun latest hnow hlinks => ?_⟩
    have hlast : last ≤ latest := hlinks _ (List.mem_of_getElem? hl)
    have hmax : max due last ≤ latest := by omega
    refine ⟨fun p hp => ?_, fun l hmem => ?_⟩
    · rw [List.mem_singleton.1 hp]; exact hmax
    · rcases List.mem_or_eq_of_mem_set hmem with hmem | rfl
      · exact hlinks l hmem
      · exact hmax
  · exact .of_links rfl rfl rfl

omit [RandomSource R] in
/-- Steps that add one after another, `c` each. -/
theorem each_within {α : Type} {step : Server R → α → Checked (Outcome R)} {l : List α} {c : Nat}
    (hlat : s.faults.minLatencyMs ≤ s.faults.maxLatencyMs ∨ F .emptyRange)
    (hc : s.history.length + c * l.length < Checked.limit ∨ F .addOverflow)
    (h : ∀ (s₁ : Server R), s₁.faults = s.faults →
      (s₁.history.length + c < Checked.limit ∨ F .addOverflow) →
      ∀ a, (step s₁ a).Within F (s₁.Adds now c)) :
    (s.each step l).Within F (s.Adds now (c * l.length)) := by
  induction l generalizing s with
  | nil => exact .of_links rfl rfl rfl
  | cons a l ih =>
    rw [List.length_cons, Nat.mul_succ] at hc
    refine (h s rfl (hc.imp_left fun h => by omega) a).bind fun o ho => ?_
    obtain ⟨posts, s₁⟩ := o
    have hf : s₁.faults = s.faults := ho.faults
    have hlen : s₁.history.length = s.history.length + c := ho.history
    refine (ih (s := s₁) (by rwa [hf]) (hc.imp_left fun h => by omega) fun s₂ hs₂ =>
      h s₂ (hs₂.trans hf)).bind fun o ho' => ?_
    obtain ⟨more, s₂⟩ := o
    rw [List.length_cons, Nat.mul_succ, Nat.add_comm]
    exact ho.append ho'

theorem append_within {session : Session} {op : CharOp}
    (hlat : s.faults.minLatencyMs ≤ s.faults.maxLatencyMs ∨ F .emptyRange)
    (ht : now + s.faults.maxLatencyMs < Checked.timeLimit ∨ F .timeOverflow)
    (hc : s.history.length + 1 < Checked.limit ∨ F .addOverflow) :
    (s.append now session op).Within F (s.Adds now 1) := by
  unfold append Revision.next
  rw [Checked.within_bind, Checked.within_map]
  refine (Checked.add_within hc).mono fun k _ => ?_
  dsimp only
  let s' : Server R := { s with
    history := s.history ++ [⟨⟨k⟩, session, op⟩]
    stats := { s.stats with appliedOps := s.stats.appliedOps + 1 } }
  have hrelays : (s'.each (fun s client => s.relay client now ⟨⟨k⟩, session, op⟩)
      (List.range s.links.length)).Within F (s'.Adds now (0 * (List.range s.links.length).length)) :=
    each_within hlat (hc.imp_left fun h => by simpa [s'] using h) fun s₁ hs₁ _ client =>
      relay_within (by rwa [hs₁]) (by rwa [hs₁])
  refine hrelays.mono fun o ho => ⟨ho.faults, ?_, ho.due⟩
  rw [ho.history, List.length_append, List.length_singleton, Nat.zero_mul]

theorem each_append_within {session : Session} {ops : List CharOp}
    (hlat : s.faults.minLatencyMs ≤ s.faults.maxLatencyMs ∨ F .emptyRange)
    (ht : now + s.faults.maxLatencyMs < Checked.timeLimit ∨ F .timeOverflow)
    (hc : s.history.length + ops.length < Checked.limit ∨ F .addOverflow) :
    (s.each (fun s op => s.append now session op) ops).Within F (s.Adds now ops.length) := by
  rw [← Nat.one_mul ops.length] at hc ⊢
  exact each_within hlat hc fun s₁ hs₁ hc₁ op =>
    append_within (by rwa [hs₁]) (by rwa [hs₁]) hc₁

theorem subscribe_within {session : Session} {connection : Token} {revision : Revision}
    (hlat : s.faults.minLatencyMs ≤ s.faults.maxLatencyMs ∨ F .emptyRange)
    (ht : now + s.faults.maxLatencyMs < Checked.timeLimit ∨ F .timeOverflow)
    (hc : s.history.length < Checked.limit ∨ F .addOverflow) :
    (s.subscribe client now session connection revision).Within F (s.Adds now 0) := by
  unfold subscribe
  let missed := s.history.drop revision.number
  let s' : Server R := { s with
    links := s.links.set client { session, connection := some connection, lastDelivery := now } }
  have hrelays : (s'.each (fun s d => s.relay client now d) missed).Within F
      (s'.Adds now (0 * missed.length)) :=
    each_within hlat (hc.imp_left fun h => by rwa [Nat.zero_mul, Nat.add_zero])
      fun s₁ hs₁ _ d => relay_within (by rwa [hs₁]) (by rwa [hs₁])
  rw [Nat.zero_mul] at hrelays
  refine hrelays.mono fun o ho => ⟨ho.faults, ho.history, fun latest hnow hlinks => ?_⟩
  refine ho.due latest hnow fun l hmem => ?_
  rcases List.mem_or_eq_of_mem_set hmem with hmem | rfl
  · exact hlinks l hmem
  · show now ≤ latest
    omega

end Server

end CoEdit
