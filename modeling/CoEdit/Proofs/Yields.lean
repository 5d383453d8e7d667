import CoEdit.Fault

/-!
# What a checked computation yields

`x.Yields Q`: the computation `x` gives an answer with `Q`, or a number or a span of time leaves its
range, or there is no range to draw a number from. The faults that report inconsistent data of a channel
(`forbiddenMove`, `violated`, `batchInFlight`) are excluded, and so are differences below zero: `Yields`
also says that no check of a channel on its own data fails.

`x.Within F Q`: the computation gives an answer with `Q`, or ends in a fault with `F`. `x.Counts Q` is
the case in which the only fault is a sum that leaves the range of a counter; it implies `Yields`.
-/

namespace CoEdit

/-- The fault is about the range of a number, not about the data of a channel. -/
def Fault.IsRange : Fault → Prop
  | addOverflow | timeOverflow | emptyRange | infiniteRange | notProbability => True
  | subOverflow | batchInFlight | forbiddenMove .. | violated .. => False

namespace Checked

variable {α β : Type} {x : Checked α} {P Q : α → Prop} {F G : Fault → Prop}

def Within (F : Fault → Prop) (x : Checked α) (Q : α → Prop) : Prop :=
  match x with
  | .ok a => Q a
  | .error f => F f

theorem within_bind {f : α → Checked β} {Q : β → Prop} :
    (x >>= f).Within F Q ↔ x.Within F fun a => (f a).Within F Q := by
  cases x <;> rfl

theorem within_map {f : α → β} {Q : β → Prop} :
    (f <$> x).Within F Q ↔ x.Within F fun a => Q (f a) := by
  cases x <;> rfl

theorem Within.mono (h : x.Within F P) (hPQ : ∀ a, P a → Q a) : x.Within F Q := by
  cases x with
  | ok a => exact hPQ a h
  | error f => exact h

theorem Within.weaken (h : x.Within F Q) (hFG : ∀ f, F f → G f) : x.Within G Q := by
  cases x with
  | ok a => exact h
  | error f => exact hFG f h

theorem Within.bind {f : α → Checked β} {Q : β → Prop} (h : x.Within F P)
    (hf : ∀ a, P a → (f a).Within F Q) : (x >>= f).Within F Q :=
  within_bind.2 (h.mono hf)

theorem Within.of_ok {a : α} (h : x.Within F Q) (hx : x = .ok a) : Q a := by
  rw [hx] at h; exact h

theorem within_any (x : Checked α) : x.Within (fun _ => True) fun _ => True := by
  cases x <;> trivial

/-- What can be checked of an answer that is computed. -/
theorem exists_of_any {p : α → Bool} (h : x.toOption.any p = true) : ∃ a, x = .ok a ∧ p a = true := by
  cases x with
  | ok a => exact ⟨a, rfl, h⟩
  | error f => cases h

abbrev Counts (x : Checked α) (Q : α → Prop) : Prop := x.Within (· = .addOverflow) Q

theorem counts_add {a b : Nat} : (add a b).Counts fun c => a + b < limit ∧ c = a + b := by
  unfold add; split
  · exact ⟨‹_›, rfl⟩
  · exact rfl

theorem counts_sub {a b : Nat} (h : b ≤ a) : (sub a b).Counts fun c => c = a - b := by
  unfold sub; rw [if_pos h]; exact rfl

def Yields (x : Checked α) (Q : α → Prop) : Prop :=
  match x with
  | .ok a => Q a
  | .error f => f.IsRange

theorem yields_bind {f : α → Checked β} {Q : β → Prop} :
    (x >>= f).Yields Q ↔ x.Yields fun a => (f a).Yields Q := by
  cases x <;> rfl

theorem yields_map {f : α → β} {Q : β → Prop} : (f <$> x).Yields Q ↔ x.Yields fun a => Q (f a) := by
  cases x <;> rfl

theorem Yields.mono (h : x.Yields P) (hPQ : ∀ a, P a → Q a) : x.Yields Q := by
  cases x with
  | ok a => exact hPQ a h
  | error f => exact h

theorem Yields.bind {f : α → Checked β} {Q : β → Prop} (h : x.Yields P)
    (hf : ∀ a, P a → (f a).Yields Q) : (x >>= f).Yields Q :=
  yields_bind.2 (h.mono hf)

theorem Yields.of_ok {a : α} (h : x.Yields Q) (hx : x = .ok a) : Q a := by
  rw [hx] at h; exact h

theorem Counts.yields (h : x.Counts Q) : x.Yields Q := by
  cases x with
  | ok a => exact h
  | error f => cases h; trivial

theorem yields_add {a b : Nat} : (add a b).Yields fun c => a + b < limit ∧ c = a + b :=
  counts_add.yields

theorem yields_addTime {a b : Nat} : (addTime a b).Yields fun c => c = a + b := by
  unfold addTime; split
  · rfl
  · trivial

end Checked

end CoEdit
