import CoEdit.Proofs.CharConvergence

/-!
# Character edits always pass each other

`CharOp.transform_joins`: two lists of character edits that apply to one document, made by different
authors, are moved past each other, and both ways around lead to one text. `CharConvergence` shows the
second half for whatever a transform answers; here it is shown that there is an answer.

Nothing but a position that leaves its range could stop a transform between different authors. Each edit is
moved past every edit of the other side once, which takes its position up by at most one. So a transform
stays in range if every position is as far from the limit as there are edits on the other side
(`transform_ne_overflow_of_hasRoom`), wherever the edits come from. Edits that apply to a document one after
another have their positions inside of it and of what they insert themselves (`hasRoom_of_acts`).
-/

namespace CoEdit

/-- Where an edit takes place. -/
def Edit.position? : Edit → Option Nat
  | insert pos _ | delete pos => some pos
  | noop => none

/-- The edit may be moved past `n` others and stays in the range of positions. -/
def Edit.HasRoom (n : Nat) (e : Edit) : Prop := ∀ p ∈ e.position?, p + n < Checked.limit

namespace Edit

variable {p n : Nat} {x : Char}

@[simp] theorem hasRoom_insert : (insert p x).HasRoom n ↔ p + n < Checked.limit := by
  simp [HasRoom, position?]

@[simp] theorem hasRoom_delete : (delete p).HasRoom n ↔ p + n < Checked.limit := by
  simp [HasRoom, position?]

@[simp] theorem hasRoom_noop : noop.HasRoom n := nofun

theorem HasRoom.mono {m : Nat} {e : Edit} (h : e.HasRoom n) (hm : m ≤ n) : e.HasRoom m := by
  intro p hp
  have := h p hp
  omega

end Edit

namespace Doc

variable {d d' : Doc} {e : Edit}

theorem position_le_of_apply (h : d.apply e = .ok d') : ∀ p ∈ e.position?, p ≤ d.length := by
  intro p hp
  cases e with
  | insert q x => cases hp; exact (apply_insert_eq_ok_iff.1 h).1
  | delete q => cases hp; exact Nat.le_of_lt (apply_delete_eq_ok_iff.1 h).1
  | noop => cases hp

theorem length_le_of_apply (h : d.apply e = .ok d') : d'.length ≤ d.length + 1 := by
  cases e with
  | insert p x =>
    obtain ⟨hp, rfl⟩ := apply_insert_eq_ok_iff.1 h
    simp only [length, List.length_insertIdx]
    split <;> omega
  | delete p =>
    obtain ⟨hp, rfl⟩ := apply_delete_eq_ok_iff.1 h
    simp only [length, List.length_eraseIdx]
    split <;> omega
  | noop =>
    obtain rfl := apply_noop_eq_ok_iff.1 h
    omega

end Doc

namespace CharOp

variable {a b c s : CharOp} {d dc ds : Doc} {cs ss : List CharOp} {p m n : Nat}

theorem after_of_lt (h : p + 1 < Checked.limit) : after p = .ok (p + 1) := if_pos h

/-- Two edits with room before the limit pass each other, and each uses up one place of it. -/
theorem transformPair_hasRoom (ha : a.edit.HasRoom (m + 1)) (hb : b.edit.HasRoom (n + 1)) :
    ∃ a' b', transformPair a b = .ok (a', b') ∧ a'.HasRoom m ∧ b'.HasRoom n := by
  have ha' : a.edit.HasRoom m := ha.mono (Nat.le_succ m)
  have hb' : b.edit.HasRoom n := hb.mono (Nat.le_succ n)
  unfold transformPair
  cases hea : a.edit with
  | noop => exact ⟨_, _, rfl, Edit.hasRoom_noop, hb'⟩
  | insert p x =>
    rw [hea, Edit.hasRoom_insert] at ha ha'
    cases heb : b.edit with
    | noop => exact ⟨_, _, rfl, Edit.hasRoom_insert.2 ha', Edit.hasRoom_noop⟩
    | insert q y =>
      rw [heb, Edit.hasRoom_insert] at hb hb'
      dsimp only
      split
      · rw [after_of_lt (by omega)]
        exact ⟨_, _, rfl, by simpa using ha', by simp; omega⟩
      · rw [after_of_lt (by omega)]
        exact ⟨_, _, rfl, by simp; omega, by simpa using hb'⟩
    | delete q =>
      rw [heb, Edit.hasRoom_delete] at hb hb'
      dsimp only
      split
      · rw [after_of_lt (by omega)]
        exact ⟨_, _, rfl, by simpa using ha', by simp; omega⟩
      · exact ⟨_, _, rfl, by simp; omega, by simpa using hb'⟩
  | delete p =>
    rw [hea, Edit.hasRoom_delete] at ha ha'
    cases heb : b.edit with
    | noop => exact ⟨_, _, rfl, Edit.hasRoom_delete.2 ha', Edit.hasRoom_noop⟩
    | insert q y =>
      rw [heb, Edit.hasRoom_insert] at hb hb'
      dsimp only
      split
      · rw [after_of_lt (by omega)]
        exact ⟨_, _, rfl, by simp; omega, by simpa using hb'⟩
      · exact ⟨_, _, rfl, by simpa using ha', by simp; omega⟩
    | delete q =>
      rw [heb, Edit.hasRoom_delete] at hb hb'
      dsimp only
      split
      · exact ⟨_, _, rfl, by simpa using ha', by simp; omega⟩
      · split
        · exact ⟨_, _, rfl, by simp; omega, by simpa using hb'⟩
        · exact ⟨_, _, rfl, Edit.hasRoom_noop, Edit.hasRoom_noop⟩

theorem pass_hasRoom (hc : ∀ c ∈ cs, c.edit.HasRoom (m + 1)) (hs : s.edit.HasRoom (n + cs.length)) :
    (∃ cs' s', pass cs s = .ok (cs', s') ∧ (∀ c ∈ cs', c.edit.HasRoom m) ∧ s'.edit.HasRoom n) ∨
      ∃ e, pass cs s = .error (.rejected e) := by
  induction cs generalizing s with
  | nil => exact .inl ⟨[], s, rfl, List.forall_mem_nil _, hs⟩
  | cons c cs ih =>
    obtain ⟨hc, hcs⟩ := List.forall_mem_cons.1 hc
    by_cases hsite : c.site = s.site
    · exact .inr ⟨_, if_pos hsite⟩
    · obtain ⟨a, b, hp, ha, hb⟩ := transformPair_hasRoom hc hs
      rcases ih (s := { s with edit := b }) hcs hb with ⟨cs', s', hp', hcs', hs'⟩ | ⟨e, he⟩
      · exact .inl ⟨_, s', pass_cons_eq_ok_iff.2 ⟨hsite, a, b, cs', hp, hp', rfl⟩,
          List.forall_mem_cons.2 ⟨ha, hcs'⟩, hs'⟩
      · refine .inr ⟨e, ?_⟩
        rw [pass, if_neg hsite, hp]
        show pass cs { s with edit := b } >>= _ = _
        rw [he]
        rfl

theorem transform_ne_overflow_of_hasRoom (hc : ∀ c ∈ cs, c.edit.HasRoom ss.length)
    (hs : ∀ s ∈ ss, s.edit.HasRoom cs.length) : transform cs ss ≠ .error .overflow := by
  intro hover
  induction ss generalizing cs with
  | nil => cases hover
  | cons s ss ih =>
    obtain ⟨hs, hss⟩ := List.forall_mem_cons.1 hs
    rw [transform] at hover
    rcases pass_hasRoom (n := 0) hc (by rwa [Nat.zero_add]) with ⟨cs₁, s₁, hp, hcs₁, -⟩ | ⟨e, he⟩
    · have hlen : cs₁.length = cs.length := length_of_labels (pass_labels hp).1
      have hrest := ih hcs₁ (hlen.symm ▸ hss)
      rw [hp] at hover
      cases ht : transform cs₁ ss with
      | ok t => simp only [bind, Except.bind, ht, pure, Except.pure, reduceCtorEq] at hover
      | error f =>
        simp only [bind, Except.bind, ht] at hover
        cases hover
        exact hrest ht
    · rw [he] at hover
      cases hover

/-- Edits that apply one after another stay inside of the document and of what they insert. -/
theorem hasRoom_of_acts (h : acts Doc.act d cs = .ok dc)
    (hlen : d.length + cs.length + n ≤ Checked.limit) : ∀ c ∈ cs, c.edit.HasRoom n := by
  induction cs generalizing d with
  | nil => exact List.forall_mem_nil _
  | cons c cs ih =>
    obtain ⟨d₁, hd, h⟩ := acts_cons_eq_ok_iff.1 h
    have hd₁ : d₁.length ≤ d.length + 1 := Doc.length_le_of_apply hd
    rw [List.length_cons] at hlen
    refine List.forall_mem_cons.2 ⟨fun p hp => ?_, ih h (by omega)⟩
    have hle : p ≤ d.length := Doc.position_le_of_apply hd p hp
    omega

theorem exists_ok_or_overflow (hsite : ∀ c ∈ cs, ∀ s ∈ ss, c.site ≠ s.site) :
    (∃ t, transform cs ss = .ok t) ∨ transform cs ss = .error .overflow := by
  cases h : transform cs ss with
  | ok t => exact .inl ⟨t, rfl⟩
  | error f =>
    cases f with
    | rejected e =>
      obtain ⟨c, hc, s, hs, heq⟩ := exists_site_eq_of_rejected h
      exact absurd heq (hsite c hc s hs)
    | overflow => exact .inr rfl

theorem exists_transform (hc : acts Doc.act d cs = .ok dc) (hs : acts Doc.act d ss = .ok ds)
    (hsite : ∀ c ∈ cs, ∀ s ∈ ss, c.site ≠ s.site)
    (hlen : d.length + cs.length + ss.length ≤ Checked.limit) : ∃ t, transform cs ss = .ok t :=
  (exists_ok_or_overflow hsite).resolve_right
    (transform_ne_overflow_of_hasRoom (hasRoom_of_acts hc hlen) (hasRoom_of_acts hs (by omega)))

/-- Lists of edits by different authors that apply to one document are moved past each other. Numbers
and authors stay as they are, and both ways around lead to one text. -/
theorem transform_joins (hc : d.applyAll (edits cs) = .ok dc) (hs : d.applyAll (edits ss) = .ok ds)
    (hsite : ∀ c ∈ cs, ∀ s ∈ ss, c.site ≠ s.site)
    (hlen : d.length + cs.length + ss.length < Checked.limit) :
    ∃ t, transform cs ss = .ok t ∧
      t.client.length = cs.length ∧ t.server.length = ss.length ∧
      t.client.map label = cs.map label ∧ t.server.map label = ss.map label ∧
      ∃ clientFirst serverFirst, dc.applyAll (edits t.server) = .ok clientFirst ∧
        ds.applyAll (edits t.client) = .ok serverFirst ∧ clientFirst.text = serverFirst.text := by
  rw [← Doc.acts_act] at hc hs
  obtain ⟨t, ht⟩ := exists_transform hc hs hsite (Nat.le_of_lt hlen)
  obtain ⟨hclient, hserver⟩ := transform_labels ht
  obtain ⟨d', h₁, h₂⟩ := transform_converges ht hc hs
  rw [Doc.acts_act] at h₁ h₂
  exact ⟨t, ht, length_of_labels hclient, length_of_labels hserver, hclient, hserver,
    d', d', h₁, h₂, rfl⟩

/-- Both sides insert at one place and delete one character. -/
theorem transform_joins_tie :
    ∃ t, transform [⟨0, 1, .insert 1 'x'⟩, ⟨1, 1, .delete 2⟩] [⟨0, 2, .delete 1⟩, ⟨1, 2, .insert 1 'y'⟩] =
        .ok t ∧
      ∃ clientFirst serverFirst, Doc.applyAll ⟨['a', 'x', 'c']⟩ (edits t.server) = .ok clientFirst ∧
        Doc.applyAll ⟨['a', 'y', 'c']⟩ (edits t.client) = .ok serverFirst ∧
        clientFirst.text = serverFirst.text := by
  have hc : Doc.applyAll ⟨['a', 'b', 'c']⟩ (edits [⟨0, 1, .insert 1 'x'⟩, ⟨1, 1, .delete 2⟩]) =
      .ok ⟨['a', 'x', 'c']⟩ := rfl
  have hs : Doc.applyAll ⟨['a', 'b', 'c']⟩ (edits [⟨0, 2, .delete 1⟩, ⟨1, 2, .insert 1 'y'⟩]) =
      .ok ⟨['a', 'y', 'c']⟩ := rfl
  obtain ⟨t, ht, -, -, -, -, h⟩ := transform_joins hc hs (by decide) (by decide)
  exact ⟨t, ht, h⟩

end CharOp

end CoEdit
