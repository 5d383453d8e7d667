import CoEdit.Delivery
import CoEdit.Proofs.CharConvergence

/-!
# A batch in flight and the history ahead

`rest` is what the server has applied and a client has not confirmed yet. A batch in flight is either
absent from it (`Absent`: none of the client's operations is ahead), because it was dropped or was not
submitted yet, or it has landed (`Landed`): after operations of others stand the batch's operations,
as the transform past those others leaves them, and after them again operations of others.

The client rewrites its batch with every operation it receives and the server rewrote it in one go, so
`Landed` is stated for what is left of either; `cons_other` and `cons_own` move both on by one
delivery. When the client reaches its own first operation nothing is left to transform, hence the echo
is the oldest operation in flight as it stands (`cons_own`).
-/

namespace CoEdit

variable {me : Session} {d : Delivery CharOp} {ds rest : List (Delivery CharOp)}
  {batch batch' : List CharOp}

def delivered (ds : List (Delivery CharOp)) : List CharOp := ds.map (·.op)

@[simp] theorem delivered_nil : delivered [] = [] := rfl

@[simp] theorem delivered_append : delivered (ds ++ rest) = delivered ds ++ delivered rest :=
  List.map_append

/-- Every delivery is of session `me`. -/
def Own (me : Session) (ds : List (Delivery CharOp)) : Prop := ∀ d ∈ ds, d.session = me

/-- No delivery is of session `me`. -/
def Absent (me : Session) (ds : List (Delivery CharOp)) : Prop := ∀ d ∈ ds, d.session ≠ me

/-- The batch is ahead: behind operations of others, past which it was transformed, and before
operations of others. -/
def Landed (me : Session) (rest : List (Delivery CharOp)) (batch : List CharOp) : Prop :=
  ∃ before mine behind : List (Delivery CharOp), rest = before ++ mine ++ behind ∧
    Absent me before ∧ Own me mine ∧ Absent me behind ∧ mine ≠ [] ∧
    ∃ t, CharOp.transform batch (delivered before) = .ok t ∧ t.client = delivered mine

theorem absent_nil : Absent me [] := fun _ h => nomatch h

theorem Absent.tail (h : Absent me (d :: ds)) : Absent me ds :=
  fun e he => h e (List.mem_cons_of_mem _ he)

theorem Absent.append (h : Absent me ds) (h' : Absent me rest) : Absent me (ds ++ rest) :=
  fun e he => (List.mem_append.1 he).elim (h e) (h' e)

theorem Own.append (h : Own me ds) (h' : Own me rest) : Own me (ds ++ rest) :=
  fun e he => (List.mem_append.1 he).elim (h e) (h' e)

namespace Landed

theorem not_absent (h : Landed me rest batch) : ¬ Absent me rest := by
  obtain ⟨before, mine, behind, rfl, -, hm, -, hne, -⟩ := h
  obtain ⟨d, mine, rfl⟩ := List.exists_cons_of_ne_nil hne
  exact fun ha => ha d (by simp) (hm d (by simp))

theorem batch_ne_nil (h : Landed me rest batch) : batch ≠ [] := by
  obtain ⟨before, mine, behind, -, -, -, -, hne, t, ht, hm⟩ := h
  rintro rfl
  rw [CharOp.transform_nil_left] at ht; cases ht
  exact hne (List.map_eq_nil_iff.1 hm.symm)

theorem append (h : Landed me rest batch) (hds : Absent me ds) : Landed me (rest ++ ds) batch := by
  obtain ⟨before, mine, behind, rfl, hb, hm, hg, hne, ht⟩ := h
  exact ⟨before, mine, behind ++ ds, by simp, hb, hm, hg.append hds, hne, ht⟩

theorem of_absent {t : Transformed CharOp} (h : Absent me rest) (hb : batch ≠ [])
    (ht : CharOp.transform batch (delivered rest) = .ok t) (hd : delivered ds = t.client)
    (hm : Own me ds) : Landed me (rest ++ ds) batch := by
  refine ⟨rest, ds, [], by simp, h, hm, absent_nil, ?_, t, ht, hd.symm⟩
  rintro rfl
  have hl := (CharOp.transform_labels ht).1
  rw [← hd, delivered_nil] at hl
  exact hb (List.map_eq_nil_iff.1 hl.symm)

theorem cons_other {s : CharOp} (h : Landed me (d :: rest) batch) (hd : d.session ≠ me)
    (hp : CharOp.pass batch d.op = .ok (batch', s)) : Landed me rest batch' := by
  obtain ⟨before, mine, behind, hr, hb, hm, hg, hne, t, ht, hc⟩ := h
  cases before with
  | nil =>
    obtain ⟨e, mine, rfl⟩ := List.exists_cons_of_ne_nil hne
    simp only [List.nil_append, List.cons_append, List.cons.injEq] at hr
    exact absurd (hm e (by simp)) (hr.1 ▸ hd)
  | cons e before =>
    simp only [List.cons_append, List.cons.injEq] at hr
    obtain ⟨rfl, rfl⟩ := hr
    obtain ⟨cs₁, s₁, t₁, hp', ht', rfl⟩ := CharOp.transform_cons_eq_ok_iff.1 ht
    rw [hp] at hp'; cases hp'
    exact ⟨before, mine, behind, rfl, hb.tail, hm, hg, hne, t₁, ht', hc⟩

theorem cons_own (h : Landed me (d :: rest) batch) (hd : d.session = me) :
    ∃ batch', batch = d.op :: batch' ∧
      (batch' = [] ∧ Absent me rest ∨ Landed me rest batch') := by
  obtain ⟨before, mine, behind, hr, hb, hm, hg, hne, t, ht, hc⟩ := h
  cases before with
  | cons e before =>
    simp only [List.cons_append, List.cons.injEq] at hr
    exact absurd hd (hr.1 ▸ hb e (by simp))
  | nil =>
    cases ht
    obtain ⟨e, mine, rfl⟩ := List.exists_cons_of_ne_nil hne
    simp only [List.nil_append, List.cons_append, List.cons.injEq] at hr
    obtain ⟨rfl, rfl⟩ := hr
    refine ⟨delivered mine, hc, ?_⟩
    cases mine with
    | nil => exact .inl ⟨rfl, hg⟩
    | cons e mine =>
      refine .inr ⟨[], e :: mine, behind, rfl, absent_nil, fun x hx => ?_, hg, by simp, _,
        CharOp.transform_nil_right, rfl⟩
      exact hm x (List.mem_cons_of_mem _ hx)

/-- If none of the client's operations is behind the first `batch.length` ones ahead, then those are
the batch as it stands. -/
theorem take_batch (h : Landed me rest batch) (ha : Absent me (rest.drop batch.length)) :
    ∃ mine behind, rest = mine ++ behind ∧ Own me mine ∧ Absent me behind ∧
      delivered mine = batch := by
  obtain ⟨before, mine, behind, rfl, hb, hm, hg, hne, t, ht, hc⟩ := h
  have hl : batch.length = mine.length := by
    have := congrArg List.length (CharOp.transform_labels ht).1
    rw [hc] at this; simpa [delivered] using this.symm
  cases before with
  | nil => cases ht; exact ⟨mine, behind, rfl, hm, hg, hc.symm⟩
  | cons e before =>
    -- the last of the client's operations would stand behind the first `batch.length`
    exfalso
    obtain ⟨mine, x, rfl⟩ := List.eq_nil_or_concat mine |>.resolve_left hne
    refine ha x ?_ (hm x (by simp))
    rw [hl, List.mem_iff_getElem]
    refine ⟨before.length, ?_, ?_⟩
    · simp; omega
    · rw [List.getElem_drop]
      simp [List.getElem_cons]

end Landed

end CoEdit
