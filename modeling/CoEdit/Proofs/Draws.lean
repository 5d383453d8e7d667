import CoEdit.Proofs.Doubles
import CoEdit.Proofs.Latency
import CoEdit.Simulation.Run

/-!
# What accepted settings draw

Under an accepted policy there is a delay whenever one is asked for, and none is longer than the ceiling
of the policy, give or take its rounding (`Backoff.exists_next`). Under an accepted workload every edit
finds its choice, and the pause after it is at most half as long again as the mean one, unless that is no
number in range (`Simulation.exists_choose`, `Simulation.choose_overflow`).
-/

namespace CoEdit

variable {R : Type}

namespace Random

variable [RandomSource R]

theorem exists_chance {p : Float} (h₀ : 0 ≤ p) (h₁ : p ≤ 1) (r : R) : ∃ o, chance p r = some o := by
  unfold chance
  split
  · exact ⟨_, rfl⟩
  · rename_i hne
    have hlt : p < 1 := Doubles.lt_of_le_of_not_beq h₁ hne
    rw [if_neg (by simp [h₀, hlt])]
    exact ⟨_, rfl⟩

theorem exists_within {lo hi : Float} (h : (hi - lo).isFinite = true) (r : R) :
    ∃ o, within lo hi r = some o := by
  unfold within
  rw [h, if_neg (by decide)]
  exact ⟨_, rfl⟩

end Random

namespace Backoff

/-- No delay is longer, in milliseconds. -/
def Policy.longestMs (p : Policy) : Nat := whole (Decimal.ofNat p.maxMs) + 1

theorem Policy.jitter_of_problem {p : Policy} (h : p.problem = none) : 0 ≤ p.jitter ∧ p.jitter ≤ 1 := by
  unfold problem at h
  split at h
  · cases h
  · split at h
    · cases h
    · split at h
      · cases h
      · split at h
        · cases h
        · rename_i hj
          simpa using hj

/-- Under an accepted policy there is a next delay, which is not too long, and the policy stays. -/
theorem exists_next [RandomSource R] {b : Backoff R} (h : b.policy.problem = none) :
    ∃ delay b', b.next = .ok (delay, b') ∧ delay ≤ b.policy.longestMs ∧ b'.policy = b.policy := by
  obtain ⟨h₀, h₁⟩ := Policy.jitter_of_problem h
  have hceiling (x : Float) : whole (least x b.ceiling) ≤ b.policy.longestMs :=
    whole_least_le (Doubles.isNaN_ofNat _)
  unfold next; dsimp only
  split
  · obtain ⟨⟨factor, random⟩, hdraw⟩ := Random.exists_within (Doubles.isFinite_spread h₀ h₁) b.random
    rw [hdraw]
    exact ⟨_, _, rfl, hceiling _, rfl⟩
  · exact ⟨_, _, rfl, hceiling _, rfl⟩

end Backoff

namespace Simulation

/-- The longest pause after an edit, in milliseconds. -/
def Workload.longestGap (w : Workload) : Nat := w.editIntervalMs + w.editIntervalMs / 2

variable {s : Simulation R}

theorem Workload.drainProbability_of_problem {w : Workload} (h : w.problem = none) :
    0 ≤ w.drainProbability ∧ w.drainProbability ≤ 1 := by
  unfold problem at h
  split at h
  · cases h
  · split at h
    · cases h
    · split at h
      · cases h
      · rename_i hd
        simpa using hd

variable [RandomSource R]

omit [RandomSource R] in
theorem Choice.exists_drawBy {drain insert : R → Option (Bool × R)} {place gap : R → Nat × R}
    {letter : R → Char × R} {longest : Nat} (hdrain : ∀ r, ∃ o, drain r = some o)
    (hinsert : ∀ r, ∃ o, insert r = some o) (hgap : ∀ r, (gap r).1 ≤ longest) (r : R) :
    ∃ choice random, Choice.drawBy drain insert place letter gap r = some (choice, random) ∧
      choice.gap ≤ longest := by
  obtain ⟨⟨d, r₁⟩, hd⟩ := hdrain r
  obtain ⟨⟨i, r₂⟩, hi⟩ := hinsert r₁
  refine ⟨⟨d, i, (place r₂).1, (letter (place r₂).2).1, (gap (letter (place r₂).2).2).1⟩,
    (gap (letter (place r₂).2).2).2, ?_, hgap _⟩
  unfold Choice.drawBy
  rw [hd]
  dsimp only [Option.bind_eq_bind, Option.bind_some]
  rw [hi]; rfl

theorem Choice.exists_draw {p : Float} {shortest longest : Nat} (h₀ : 0 ≤ p) (h₁ : p ≤ 1)
    (h : shortest ≤ longest) (r : R) :
    ∃ choice random, Choice.draw p shortest longest r = some (choice, random) ∧ choice.gap ≤ longest :=
  Choice.exists_drawBy (Random.exists_chance h₀ h₁)
    (Random.exists_chance (p := insertChance) (by decide +kernel) (by decide +kernel))
    (fun _ => (Random.between_mem h).2) r

theorem exists_choose (h : s.workload.problem = none)
    (hgap : s.workload.longestGap < Checked.limit) :
    ∃ choice random, s.choose = .ok (choice, { s with random }) ∧ choice.gap ≤ s.workload.longestGap := by
  obtain ⟨h₀, h₁⟩ := Workload.drainProbability_of_problem h
  have hle : s.workload.editIntervalMs / 2 ≤ s.workload.longestGap := by
    unfold Workload.longestGap; omega
  obtain ⟨choice, random, hdraw, hle⟩ := Choice.exists_draw h₀ h₁ hle s.random
  have hadd : Checked.add s.workload.editIntervalMs (s.workload.editIntervalMs / 2) =
      .ok s.workload.longestGap := if_pos hgap
  refine ⟨choice, random, ?_, hle⟩
  unfold choose
  dsimp only
  rw [hadd, Checked.bind_eq_ok_iff]
  exact ⟨_, rfl, by rw [hdraw]; rfl⟩

theorem choose_overflow (hgap : ¬ s.workload.longestGap < Checked.limit) :
    s.choose = .error .addOverflow := by
  have hadd : Checked.add s.workload.editIntervalMs (s.workload.editIntervalMs / 2) =
      .error .addOverflow := if_neg hgap
  unfold choose
  dsimp only
  rw [hadd]; rfl

end Simulation

end CoEdit
