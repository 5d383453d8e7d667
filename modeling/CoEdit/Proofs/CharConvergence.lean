import CoEdit.Doc.CharOp
import CoEdit.Proofs.Diagram

/-!
# Character edits converge

`CharOp.transform_converges`: two lists of character edits made on one document, moved past each
other, lead to one document both ways. The pair lemma is a case split over the two edits; a pass of
one server edit along the client's edits and the whole transform are inductions that thread the
documents in between.

A transform keeps the number and the author of every operation (`transform_labels`) and is rejected
only if both lists have operations of one author (`exists_site_eq_of_rejected`).
-/

namespace CoEdit

theorem eraseIdx_eraseIdx_of_lt {α : Type} {l : List α} {i j : Nat} (h : i < j) :
    (l.eraseIdx i).eraseIdx (j - 1) = (l.eraseIdx j).eraseIdx i := by
  apply List.ext_getElem?
  intro k
  grind

namespace Doc

/-- What an operation does to a document. -/
def act (d : Doc) (op : CharOp) : Except DocError Doc := d.apply op.edit

theorem acts_act (d : Doc) (ops : List CharOp) : acts act d ops = d.applyAll (edits ops) := by
  unfold acts applyAll edits; rw [List.foldlM_map]; rfl

variable {d d' : Doc} {l : List Char} {p q : Nat} {x y : Char}

theorem apply_insert_eq_ok_iff :
    d.apply (.insert p x) = .ok d' ↔ p ≤ d.chars.length ∧ d' = ⟨d.chars.insertIdx p x⟩ := by
  unfold apply length; dsimp only; split <;> simp [*, eq_comm]

theorem apply_delete_eq_ok_iff :
    d.apply (.delete p) = .ok d' ↔ p < d.chars.length ∧ d' = ⟨d.chars.eraseIdx p⟩ := by
  unfold apply length; dsimp only; split <;> simp [*, eq_comm]

theorem apply_noop_eq_ok_iff : d.apply .noop = .ok d' ↔ d' = d := by
  simp [apply, eq_comm]

theorem insert_insert (h : p ≤ q) (hq : q ≤ l.length) :
    ∃ d', apply ⟨l.insertIdx p x⟩ (.insert (q + 1) y) = .ok d' ∧
      apply ⟨l.insertIdx q y⟩ (.insert p x) = .ok d' := by
  refine ⟨_, apply_insert_eq_ok_iff.2 ⟨?_, rfl⟩, apply_insert_eq_ok_iff.2 ⟨?_, ?_⟩⟩
  · simp only [List.length_insertIdx]; split <;> omega
  · simp only [List.length_insertIdx]; split <;> omega
  · exact congrArg Doc.mk (List.insertIdx_comm x y h hq)

theorem insert_delete (h : p ≤ q) (hq : q < l.length) :
    ∃ d', apply ⟨l.insertIdx p x⟩ (.delete (q + 1)) = .ok d' ∧
      apply ⟨l.eraseIdx q⟩ (.insert p x) = .ok d' := by
  refine ⟨_, apply_delete_eq_ok_iff.2 ⟨?_, rfl⟩, apply_insert_eq_ok_iff.2 ⟨?_, ?_⟩⟩
  · simp only [List.length_insertIdx]; split <;> omega
  · simp only [List.length_eraseIdx]; split <;> omega
  · exact congrArg Doc.mk (List.insertIdx_eraseIdx_of_le hq h).symm

theorem delete_insert (h : q < p) (hp : p ≤ l.length) :
    ∃ d', apply ⟨l.insertIdx p x⟩ (.delete q) = .ok d' ∧
      apply ⟨l.eraseIdx q⟩ (.insert (p - 1) x) = .ok d' := by
  refine ⟨_, apply_delete_eq_ok_iff.2 ⟨?_, rfl⟩, apply_insert_eq_ok_iff.2 ⟨?_, ?_⟩⟩
  · simp only [List.length_insertIdx]; split <;> omega
  · simp only [List.length_eraseIdx]; split <;> omega
  · obtain ⟨n, rfl⟩ : ∃ n, p = n + 1 := ⟨p - 1, by omega⟩
    exact congrArg Doc.mk (List.insertIdx_eraseIdx_of_ge (by omega) (by omega)).symm

theorem delete_delete (h : p < q) (hq : q < l.length) :
    ∃ d', apply ⟨l.eraseIdx p⟩ (.delete (q - 1)) = .ok d' ∧
      apply ⟨l.eraseIdx q⟩ (.delete p) = .ok d' := by
  refine ⟨_, apply_delete_eq_ok_iff.2 ⟨?_, rfl⟩, apply_delete_eq_ok_iff.2 ⟨?_, ?_⟩⟩
  · simp only [List.length_eraseIdx]; split <;> omega
  · simp only [List.length_eraseIdx]; split <;> omega
  · exact congrArg Doc.mk (eraseIdx_eraseIdx_of_lt h)

end Doc

namespace CharOp

open Transformer

variable {a b c s s' : CharOp} {a' b' : Edit} {d da db dc ds : Doc} {cs cs' ss : List CharOp}
  {t : Transformed CharOp}

theorem after_bind_eq_ok_iff {α : Type} {p : Nat} {f : Nat → α} {r : α} :
    (after p >>= fun n => pure (f n)) = .ok r ↔ p + 1 < Checked.limit ∧ r = f (p + 1) := by
  unfold after; split <;> simp [*, bind, Except.bind, pure, Except.pure, eq_comm]

theorem transformPair_converges (h : transformPair a b = .ok (a', b'))
    (ha : d.apply a.edit = .ok da) (hb : d.apply b.edit = .ok db) :
    ∃ d', da.apply b' = .ok d' ∧ db.apply a' = .ok d' := by
  unfold transformPair at h
  cases hea : a.edit with
  | noop =>
    rw [hea, Doc.apply_noop_eq_ok_iff] at ha
    rw [hea] at h; cases h
    exact ⟨db, by rw [ha]; exact hb, rfl⟩
  | insert p x =>
    rw [hea, Doc.apply_insert_eq_ok_iff] at ha
    obtain ⟨hp, rfl⟩ := ha
    cases heb : b.edit with
    | noop =>
      rw [heb, Doc.apply_noop_eq_ok_iff] at hb
      rw [hea, heb] at h; cases h; subst hb
      exact ⟨_, rfl, Doc.apply_insert_eq_ok_iff.2 ⟨hp, rfl⟩⟩
    | insert q y =>
      rw [heb, Doc.apply_insert_eq_ok_iff] at hb
      obtain ⟨hq, rfl⟩ := hb
      simp only [hea, heb] at h
      split at h
      · obtain ⟨-, h⟩ := after_bind_eq_ok_iff.1 h; cases h
        exact Doc.insert_insert (by omega) hq
      · obtain ⟨-, h⟩ := after_bind_eq_ok_iff.1 h; cases h
        exact (Doc.insert_insert (by omega) hp).imp fun _ => And.symm
    | delete q =>
      rw [heb, Doc.apply_delete_eq_ok_iff] at hb
      obtain ⟨hq, rfl⟩ := hb
      simp only [hea, heb] at h
      split at h
      · obtain ⟨-, h⟩ := after_bind_eq_ok_iff.1 h; cases h
        exact Doc.insert_delete (by omega) hq
      · cases h
        exact Doc.delete_insert (by omega) hp
  | delete p =>
    rw [hea, Doc.apply_delete_eq_ok_iff] at ha
    obtain ⟨hp, rfl⟩ := ha
    cases heb : b.edit with
    | noop =>
      rw [heb, Doc.apply_noop_eq_ok_iff] at hb
      rw [hea, heb] at h; cases h; subst hb
      exact ⟨_, rfl, Doc.apply_delete_eq_ok_iff.2 ⟨hp, rfl⟩⟩
    | insert q y =>
      rw [heb, Doc.apply_insert_eq_ok_iff] at hb
      obtain ⟨hq, rfl⟩ := hb
      simp only [hea, heb] at h
      split at h
      · obtain ⟨-, h⟩ := after_bind_eq_ok_iff.1 h; cases h
        exact (Doc.insert_delete (by omega) hp).imp fun _ => And.symm
      · cases h
        exact (Doc.delete_insert (by omega) hq).imp fun _ => And.symm
    | delete q =>
      rw [heb, Doc.apply_delete_eq_ok_iff] at hb
      obtain ⟨hq, rfl⟩ := hb
      simp only [hea, heb] at h
      split at h
      · cases h; exact Doc.delete_delete (by omega) hq
      · split at h
        · cases h; exact (Doc.delete_delete (by omega) hp).imp fun _ => And.symm
        · obtain rfl : p = q := by omega
          cases h; exact ⟨_, rfl, rfl⟩

theorem pass_cons_eq_ok_iff : pass (c :: cs) s = .ok (cs', s') ↔
    c.site ≠ s.site ∧ ∃ a b cs₁, transformPair c s = .ok (a, b) ∧
      pass cs { s with edit := b } = .ok (cs₁, s') ∧ cs' = { c with edit := a } :: cs₁ := by
  rw [pass]; split
  · simp [*]
  · simp only [Except.bind_eq_ok_iff, pure, Except.pure]
    constructor
    · rintro ⟨⟨a, b⟩, h₁, ⟨cs₁, s₁⟩, h₂, h₃⟩
      cases h₃; exact ⟨‹_›, a, b, cs₁, h₁, h₂, rfl⟩
    · rintro ⟨-, a, b, cs₁, h₁, h₂, rfl⟩
      exact ⟨(a, b), h₁, (cs₁, s'), h₂, rfl⟩

theorem pass_converges (h : pass cs s = .ok (cs', s')) (hc : acts Doc.act d cs = .ok dc)
    (hs : d.act s = .ok ds) : ∃ d', dc.act s' = .ok d' ∧ acts Doc.act ds cs' = .ok d' := by
  induction cs generalizing s d ds cs' with
  | nil =>
    cases h; cases hc
    exact ⟨ds, hs, rfl⟩
  | cons c cs ih =>
    obtain ⟨-, a, b, cs₁, hp, hcs, rfl⟩ := pass_cons_eq_ok_iff.1 h
    obtain ⟨d₁, hd, hc⟩ := acts_cons_eq_ok_iff.1 hc
    obtain ⟨d₂, h₁, h₂⟩ := transformPair_converges hp hd hs
    obtain ⟨d', h₃, h₄⟩ := ih hcs hc h₁
    exact ⟨d', h₃, acts_cons_eq_ok_iff.2 ⟨d₂, h₂, h₄⟩⟩

theorem transform_nil_right : transform cs [] = .ok ⟨cs, []⟩ := rfl

theorem transform_cons_eq_ok_iff : transform cs (s :: ss) = .ok t ↔
    ∃ cs₁ s₁ t₁, pass cs s = .ok (cs₁, s₁) ∧ transform cs₁ ss = .ok t₁ ∧
      t = ⟨t₁.client, s₁ :: t₁.server⟩ := by
  rw [transform]
  simp only [Except.bind_eq_ok_iff, pure, Except.pure, Except.ok.injEq]
  constructor
  · rintro ⟨⟨cs₁, s₁⟩, h₁, t₁, h₂, rfl⟩
    exact ⟨cs₁, s₁, t₁, h₁, h₂, rfl⟩
  · rintro ⟨cs₁, s₁, t₁, h₁, h₂, rfl⟩
    exact ⟨(cs₁, s₁), h₁, t₁, h₂, rfl⟩

theorem transform_nil_left : transform [] ss = .ok ⟨[], ss⟩ := by
  induction ss with
  | nil => rfl
  | cons s ss ih => exact transform_cons_eq_ok_iff.2 ⟨[], s, _, rfl, ih, rfl⟩

theorem transform_of_moves (h : Moves transform cs ss t) : transform cs ss = .ok t := by
  rcases h with h | ⟨rfl | rfl, rfl⟩
  · exact h
  · exact transform_nil_left
  · exact transform_nil_right

theorem transform_converges : Converges Doc.act transform := by
  intro d dc ds cs ss t h hc hs
  induction ss generalizing cs d dc t with
  | nil =>
    cases h; cases hs
    exact ⟨dc, rfl, hc⟩
  | cons s ss ih =>
    obtain ⟨cs₁, s₁, t₁, hp, ht, rfl⟩ := transform_cons_eq_ok_iff.1 h
    obtain ⟨d₁, hd, hs⟩ := acts_cons_eq_ok_iff.1 hs
    obtain ⟨d₂, h₁, h₂⟩ := pass_converges hp hc hd
    obtain ⟨d', h₃, h₄⟩ := ih ht h₂ hs
    exact ⟨d', acts_cons_eq_ok_iff.2 ⟨d₂, h₁, h₃⟩, h₄⟩

/-! ### What a transform leaves as it is -/

/-- The number and the author of an operation. -/
def label (op : CharOp) : Nat × Nat := (op.id, op.site)

theorem forall_site_of_labels {P : Nat → Prop} (h : cs.map label = ss.map label)
    (hs : ∀ op ∈ ss, P op.site) : ∀ op ∈ cs, P op.site := by
  intro op hop
  have hl : op.label ∈ ss.map label := by rw [← h]; exact List.mem_map_of_mem hop
  obtain ⟨op', hop', hl⟩ := List.mem_map.1 hl
  have hl : op'.site = op.site := congrArg Prod.snd hl
  rw [← hl]; exact hs op' hop'

theorem length_of_labels (h : cs.map label = ss.map label) : cs.length = ss.length := by
  simpa using congrArg List.length h

theorem pass_labels (h : pass cs s = .ok (cs', s')) :
    cs'.map label = cs.map label ∧ label s' = label s := by
  induction cs generalizing s cs' with
  | nil => cases h; exact ⟨rfl, rfl⟩
  | cons c cs ih =>
    obtain ⟨-, a, b, cs₁, -, hcs, rfl⟩ := pass_cons_eq_ok_iff.1 h
    obtain ⟨h₁, h₂⟩ := ih hcs
    exact ⟨by rw [List.map_cons, h₁]; rfl, h₂⟩

theorem transform_labels (h : transform cs ss = .ok t) :
    t.client.map label = cs.map label ∧ t.server.map label = ss.map label := by
  induction ss generalizing cs t with
  | nil => cases h; exact ⟨rfl, rfl⟩
  | cons s ss ih =>
    obtain ⟨cs₁, s₁, t₁, hp, ht, rfl⟩ := transform_cons_eq_ok_iff.1 h
    obtain ⟨h₁, h₂⟩ := pass_labels hp
    obtain ⟨h₃, h₄⟩ := ih ht
    exact ⟨h₃.trans h₁, by rw [List.map_cons, List.map_cons, h₂, h₄]⟩

theorem transformPair_ne_rejected {e : TransformError} :
    transformPair a b ≠ .error (.rejected e) := by
  unfold transformPair after
  intro h
  split at h <;> repeat' split at h
  all_goals cases h

theorem exists_site_eq_of_pass_rejected {e : TransformError} (h : pass cs s = .error (.rejected e)) :
    ∃ c ∈ cs, c.site = s.site := by
  induction cs generalizing s with
  | nil => cases h
  | cons c cs ih =>
    by_cases hc : c.site = s.site
    · exact ⟨c, List.mem_cons_self .., hc⟩
    · rw [pass, if_neg hc] at h
      cases hp : transformPair c s with
      | error f =>
        rw [hp] at h; cases h
        exact absurd hp transformPair_ne_rejected
      | ok ab =>
        cases hcs : pass cs { s with edit := ab.2 } with
        | error f =>
          simp only [hp, hcs, bind, Except.bind] at h; cases h
          obtain ⟨c', hc', he⟩ := ih hcs
          exact ⟨c', List.mem_cons_of_mem _ hc', he⟩
        | ok r => simp only [hp, hcs, bind, Except.bind, pure, Except.pure] at h; cases h

/-- A transform is rejected only if both lists have operations of one author. -/
theorem exists_site_eq_of_rejected {e : TransformError} (h : transform cs ss = .error (.rejected e)) :
    ∃ c ∈ cs, ∃ s ∈ ss, c.site = s.site := by
  induction ss generalizing cs with
  | nil => cases h
  | cons s ss ih =>
    rw [transform] at h
    cases hp : pass cs s with
    | error f =>
      rw [hp] at h; cases h
      obtain ⟨c, hc, he⟩ := exists_site_eq_of_pass_rejected hp
      exact ⟨c, hc, s, List.mem_cons_self .., he⟩
    | ok r =>
      cases ht : transform r.1 ss with
      | error f =>
        simp only [hp, ht, bind, Except.bind] at h; cases h
        obtain ⟨c, hc, s', hs', he⟩ := ih ht
        have hl : c.label ∈ cs.map label := by
          rw [← (pass_labels hp).1]; exact List.mem_map_of_mem hc
        obtain ⟨c₀, hc₀, hl⟩ := List.mem_map.1 hl
        exact ⟨c₀, hc₀, s', List.mem_cons_of_mem _ hs', (congrArg Prod.snd hl).trans he⟩
      | ok t => simp only [hp, ht, bind, Except.bind, pure, Except.pure] at h; cases h

end CharOp

end CoEdit
