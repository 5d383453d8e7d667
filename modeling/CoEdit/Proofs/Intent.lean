import CoEdit.Proofs.CharContract
import Mathlib.Data.List.InsertIdx
import Mathlib.Data.List.Nodup

/-!
# An edit keeps its meaning

A transform that converges may still lose an edit or put it elsewhere. To say what an edit means, a document
is given as a `Sheet`, on which every character has an identity of its own, so that a character can be found
again after other edits. An edit that was moved past others means what it meant (`Sheet.Intends`): it
deletes the same character, unless that was deleted by one of the others, or it inserts the same character
between those that it was inserted between.

The proof is about positions. An edit takes what stands at a position to another one, or deletes it
(`Edit.shift`). Two edits that are moved past each other follow each other's shifts
(`transformPair_follows`), and what follows one shift and then another follows both (`Follows.trans`). This
needs no document; a sheet only says that the shifts of edits are where its letters go
(`Sheet.getElem?_applyAll`).
-/

namespace CoEdit

namespace Edit

/-- Where the character at a position is after an edit, unless the edit deletes it. -/
def shift : Edit → Nat → Option Nat
  | insert p _, i => some (if i < p then i else i + 1)
  | delete p, i => if i = p then none else some (if i < p then i else i - 1)
  | noop, i => some i

section
variable {i j p : Nat} {x : Char}

theorem shift_insert_eq_some_iff :
    (insert p x).shift i = some j ↔ i < p ∧ j = i ∨ p ≤ i ∧ j = i + 1 := by
  rw [shift, Option.some.injEq]
  split <;> omega

theorem shift_delete_eq_some_iff :
    (delete p).shift i = some j ↔ i < p ∧ j = i ∨ p < i ∧ j + 1 = i := by
  rw [shift]
  split
  · simp only [reduceCtorEq, false_iff]
    omega
  · rw [Option.some.injEq]
    split <;> omega

theorem shift_delete_eq_none_iff : (delete p).shift i = none ↔ i = p := by
  rw [shift]
  split <;> simp [*]

end

/-- Where the character at a position is after edits that are applied in order. -/
def shifts : List Edit → Nat → Option Nat
  | [], i => some i
  | e :: es, i => e.shift i >>= shifts es

/-- The edit `e'` is to the positions that `f` leads to what `e` is to those it starts from. -/
inductive Follows (f : Nat → Option Nat) : Edit → Edit → Prop
  | noop : Follows f noop noop
  | delete {p q : Nat} (h : f p = some q) : Follows f (delete p) (delete q)
  | deleted {p : Nat} (h : f p = none) : Follows f (delete p) noop
  | insert {p q : Nat} {x : Char} (h : ∀ i j, f i = some j → (i < p → j < q) ∧ (p ≤ i → q ≤ j)) :
    Follows f (insert p x) (insert q x)

variable {f g : Nat → Option Nat} {e e₁ e₂ : Edit}

theorem Follows.refl : Follows some e e := by
  cases e with
  | insert p x =>
    refine .insert fun i j hj => ?_
    cases hj
    exact ⟨id, id⟩
  | delete p => exact .delete rfl
  | noop => exact .noop

theorem Follows.trans (h : Follows f e e₁) (h' : Follows g e₁ e₂) :
    Follows (fun i => f i >>= g) e e₂ := by
  cases h with
  | noop =>
    cases h'
    exact .noop
  | deleted h =>
    cases h'
    refine .deleted ?_
    rw [h]
    rfl
  | delete h =>
    cases h' with
    | delete h' =>
      refine .delete ?_
      rw [h]
      exact h'
    | deleted h' =>
      refine .deleted ?_
      rw [h]
      exact h'
  | insert h =>
    cases h' with
    | insert h' =>
      refine .insert fun i j hj => ?_
      obtain ⟨k, hk, hj⟩ := Option.bind_eq_some_iff.1 hj
      obtain ⟨hlt, hle⟩ := h i k hk
      obtain ⟨hlt', hle'⟩ := h' k j hj
      exact ⟨hlt' ∘ hlt, hle' ∘ hle⟩

end Edit

namespace CharOp

open Edit Transformer

variable {a b c s s' : CharOp} {a' b' : Edit} {cs cs' ss : List CharOp} {t : Transformed CharOp}

theorem insert_follows_insert {p q : Nat} {x y : Char} (h : p ≤ q) :
    Follows (insert q y).shift (insert p x) (insert p x) ∧
      Follows (insert p x).shift (insert q y) (insert (q + 1) y) := by
  constructor
  · refine .insert fun i j hj => ?_
    rw [shift_insert_eq_some_iff] at hj
    omega
  · refine .insert fun i j hj => ?_
    rw [shift_insert_eq_some_iff] at hj
    omega

theorem insert_follows_delete {p q : Nat} {x : Char} (h : p ≤ q) :
    Follows (delete q).shift (insert p x) (insert p x) ∧
      Follows (insert p x).shift (delete q) (delete (q + 1)) := by
  constructor
  · refine .insert fun i j hj => ?_
    rw [shift_delete_eq_some_iff] at hj
    omega
  · exact .delete (shift_insert_eq_some_iff.2 (.inr ⟨h, rfl⟩))

theorem delete_follows_insert {p q : Nat} {x : Char} (h : q < p) :
    Follows (delete q).shift (insert p x) (insert (p - 1) x) ∧
      Follows (insert p x).shift (delete q) (delete q) := by
  constructor
  · refine .insert fun i j hj => ?_
    rw [shift_delete_eq_some_iff] at hj
    omega
  · exact .delete (shift_insert_eq_some_iff.2 (.inl ⟨h, rfl⟩))

theorem delete_follows_delete {p q : Nat} (h : p < q) :
    Follows (delete q).shift (delete p) (delete p) ∧
      Follows (delete p).shift (delete q) (delete (q - 1)) := by
  constructor
  · exact .delete (shift_delete_eq_some_iff.2 (.inl ⟨h, rfl⟩))
  · exact .delete (shift_delete_eq_some_iff.2 (.inr ⟨h, by omega⟩))

/-- Each of two edits that are moved past each other follows where the other one takes positions. -/
theorem transformPair_follows (h : transformPair a b = .ok (a', b')) :
    Follows b.edit.shift a.edit a' ∧ Follows a.edit.shift b.edit b' := by
  unfold transformPair at h
  cases hea : a.edit with
  | noop =>
    rw [hea] at h
    cases h
    exact ⟨.noop, .refl⟩
  | insert p x =>
    cases heb : b.edit with
    | noop =>
      rw [hea, heb] at h
      cases h
      exact ⟨.refl, .noop⟩
    | insert q y =>
      simp only [hea, heb] at h
      split at h
      · obtain ⟨-, h⟩ := after_bind_eq_ok_iff.1 h
        cases h
        exact insert_follows_insert (by omega)
      · obtain ⟨-, h⟩ := after_bind_eq_ok_iff.1 h
        cases h
        exact (insert_follows_insert (by omega)).symm
    | delete q =>
      simp only [hea, heb] at h
      split at h
      · obtain ⟨-, h⟩ := after_bind_eq_ok_iff.1 h
        cases h
        exact insert_follows_delete (by omega)
      · cases h
        exact delete_follows_insert (by omega)
  | delete p =>
    cases heb : b.edit with
    | noop =>
      rw [hea, heb] at h
      cases h
      exact ⟨.refl, .noop⟩
    | insert q y =>
      simp only [hea, heb] at h
      split at h
      · obtain ⟨-, h⟩ := after_bind_eq_ok_iff.1 h
        cases h
        exact (insert_follows_delete (by omega)).symm
      · cases h
        exact (delete_follows_insert (by omega)).symm
    | delete q =>
      simp only [hea, heb] at h
      split at h
      · cases h
        exact delete_follows_delete (by omega)
      · split at h
        · cases h
          exact (delete_follows_delete (by omega)).symm
        · cases h
          obtain rfl : p = q := by omega
          exact ⟨.deleted (shift_delete_eq_none_iff.2 rfl), .deleted (shift_delete_eq_none_iff.2 rfl)⟩

theorem pass_follows (h : pass cs s = .ok (cs', s')) : Follows (shifts (edits cs)) s.edit s'.edit := by
  induction cs generalizing s cs' with
  | nil =>
    cases h
    exact .refl
  | cons c cs ih =>
    obtain ⟨-, a, b, cs₁, hp, hcs, rfl⟩ := pass_cons_eq_ok_iff.1 h
    exact (transformPair_follows hp).2.trans (ih hcs)

theorem transform_follows (h : transform [c] ss = .ok t) :
    ∃ c', t.client = [c'] ∧ Follows (shifts (edits ss)) c.edit c'.edit := by
  induction ss generalizing c t with
  | nil =>
    cases h
    exact ⟨c, rfl, .refl⟩
  | cons s ss ih =>
    obtain ⟨cs₁, s₁, t₁, hp, ht, rfl⟩ := transform_cons_eq_ok_iff.1 h
    obtain ⟨-, a, b, cs₂, hpair, hnil, rfl⟩ := pass_cons_eq_ok_iff.1 hp
    cases hnil
    obtain ⟨c', hc', hfollows⟩ := ih ht
    exact ⟨c', hc', (transformPair_follows hpair).1.trans hfollows⟩

end CharOp

/-! ### Documents whose characters have identities -/

section
variable {α : Type} {l : List α} {c : α} {p : Nat}

theorem mem_take_iff_getElem? : c ∈ l.take p ↔ ∃ i < p, l[i]? = some c := by
  simp only [List.mem_iff_getElem?, List.getElem?_take, Option.ite_none_right_eq_some]

theorem mem_drop_iff_getElem? : c ∈ l.drop p ↔ ∃ i ≥ p, l[i]? = some c := by
  simp only [List.mem_iff_getElem?, List.getElem?_drop]
  constructor
  · rintro ⟨i, hi⟩
    exact ⟨p + i, Nat.le_add_right .., hi⟩
  · rintro ⟨i, hp, hi⟩
    exact ⟨i - p, by rwa [Nat.add_sub_cancel' hp]⟩

end

/-- A character with an identity. -/
structure Letter where
  id : Nat
  char : Char
deriving DecidableEq, Repr

/-- A document whose characters have identities, of which no two are the same. -/
structure Sheet where
  letters : List Letter
  /-- The identity of the next character that is inserted. -/
  next : Nat
  fresh : ∀ c ∈ letters, c.id < next
  distinct : (letters.map Letter.id).Nodup

namespace Sheet

variable {s s' s₁ : Sheet} {c : Letter} {e : Edit} {es : List Edit} {d' : Doc} {i j p q : Nat} {x : Char}

def doc (s : Sheet) : Doc := ⟨s.letters.map Letter.char⟩

/-- The characters of a document are numbered. -/
def ofDoc (d : Doc) : Sheet where
  letters := d.chars.zipIdx.map fun c => ⟨c.2, c.1⟩
  next := d.chars.length
  fresh := by
    intro c hc
    obtain ⟨⟨x, i⟩, hx, rfl⟩ := List.mem_map.1 hc
    simpa using (List.mem_zipIdx hx).2.1
  distinct := by
    rw [List.map_map]
    show (List.map Prod.snd d.chars.zipIdx).Nodup
    rw [List.zipIdx_map_snd]
    exact List.nodup_range'

@[simp] theorem doc_ofDoc (d : Doc) : (ofDoc d).doc = d := by
  rw [doc, ofDoc, List.map_map]
  show Doc.mk (List.map Prod.fst d.chars.zipIdx) = d
  rw [List.zipIdx_map_fst]

def insert (s : Sheet) (p : Nat) (x : Char) (h : p ≤ s.letters.length) : Sheet where
  letters := s.letters.insertIdx p ⟨s.next, x⟩
  next := s.next + 1
  fresh := by
    intro c hc
    rcases List.eq_or_mem_of_mem_insertIdx hc with rfl | hc
    · exact Nat.lt_succ_self _
    · exact Nat.lt_succ_of_lt (s.fresh c hc)
  distinct := by
    have hperm := (List.perm_insertIdx (⟨s.next, x⟩ : Letter) s.letters h).map Letter.id
    rw [hperm.nodup_iff, List.map_cons, List.nodup_cons]
    refine ⟨fun hmem => ?_, s.distinct⟩
    obtain ⟨c, hc, hid⟩ := List.mem_map.1 hmem
    have := s.fresh c hc
    dsimp only at hid
    omega

def delete (s : Sheet) (p : Nat) : Sheet where
  letters := s.letters.eraseIdx p
  next := s.next
  fresh := fun c hc => s.fresh c (List.mem_of_mem_eraseIdx hc)
  distinct := s.distinct.sublist ((List.eraseIdx_sublist ..).map _)

/-- An edit of a sheet is an edit of its document. What is inserted gets an identity of its own. -/
def apply (s : Sheet) : Edit → Except DocError Sheet
  | .insert p x =>
    if h : p ≤ s.letters.length then .ok (s.insert p x h)
    else .error (.insertOutOfBounds p s.letters.length)
  | .delete p =>
    if p < s.letters.length then .ok (s.delete p) else .error (.deleteOutOfBounds p s.letters.length)
  | .noop => .ok s

def applyAll (s : Sheet) (es : List Edit) : Except DocError Sheet := es.foldlM apply s

/-- One of the edits, which are applied in order, deletes the letter. -/
def Deletes (s : Sheet) (es : List Edit) (c : Letter) : Prop :=
  ∃ before p after s₁, es = before ++ .delete p :: after ∧ s.applyAll before = .ok s₁ ∧
    s₁.letters[p]? = some c

/-- After the edits `es` led from `s` to `s'`, the edit `e'` means what `e` meant on `s`. -/
def Intends (s : Sheet) (es : List Edit) (s' : Sheet) (e e' : Edit) : Prop :=
  match e with
  | .noop => e' = .noop
  | .delete p => ∀ c, s.letters[p]? = some c →
    (c ∈ s'.letters ↔ ∃ q, e' = .delete q ∧ s'.letters[q]? = some c) ∧ (e' = .noop ↔ s.Deletes es c)
  | .insert p x => ∃ q, e' = .insert q x ∧ q ≤ s'.letters.length ∧ ∀ c ∈ s'.letters,
    (c ∈ s.letters.take p → c ∈ s'.letters.take q) ∧ (c ∈ s.letters.drop p → c ∈ s'.letters.drop q)

theorem length_doc : s.doc.length = s.letters.length := List.length_map _

theorem apply_doc : Sheet.doc <$> s.apply e = s.doc.apply e := by
  cases e with
  | insert p x =>
    simp only [apply, Doc.apply, length_doc]
    split
    · show Except.ok (Doc.mk _) = _
      rw [insert, List.map_insertIdx]
      rfl
    · rfl
  | delete p =>
    simp only [apply, Doc.apply, length_doc]
    split
    · show Except.ok (Doc.mk _) = _
      rw [delete, ← List.eraseIdx_map]
      rfl
    · rfl
  | noop => rfl

theorem applyAll_cons : s.applyAll (e :: es) = s.apply e >>= (applyAll · es) := rfl

theorem applyAll_cons_eq_ok_iff :
    s.applyAll (e :: es) = .ok s' ↔ ∃ s₁, s.apply e = .ok s₁ ∧ s₁.applyAll es = .ok s' :=
  Except.bind_eq_ok_iff

theorem applyAll_doc : Sheet.doc <$> s.applyAll es = s.doc.applyAll es := by
  induction es generalizing s with
  | nil => rfl
  | cons e es ih =>
    rw [applyAll_cons, Doc.applyAll_cons, ← apply_doc]
    cases s.apply e with
    | error f => rfl
    | ok s₁ => exact ih

theorem doc_of_applyAll (h : s.applyAll es = .ok s') : s.doc.applyAll es = .ok s'.doc := by
  rw [← applyAll_doc, h]
  rfl

theorem exists_applyAll (h : s.doc.applyAll es = .ok d') :
    ∃ s', s.applyAll es = .ok s' ∧ s'.doc = d' := by
  rw [← applyAll_doc] at h
  cases hs : s.applyAll es with
  | error f =>
    rw [hs] at h
    cases h
  | ok s' =>
    rw [hs] at h
    cases h
    exact ⟨s', rfl, rfl⟩

theorem eq_of_getElem? (hi : s.letters[i]? = some c) (hj : s.letters[j]? = some c) : i = j :=
  (List.getElem?_inj (List.getElem?_eq_some_iff.1 hi).1 (s.distinct.of_map _)).1 (hi.trans hj.symm)

theorem apply_insert_eq_ok_iff :
    s.apply (.insert p x) = .ok s₁ ↔ ∃ h : p ≤ s.letters.length, s₁ = s.insert p x h := by
  rw [apply]
  split <;> simp [*, eq_comm]

theorem apply_delete_eq_ok_iff :
    s.apply (.delete p) = .ok s₁ ↔ p < s.letters.length ∧ s₁ = s.delete p := by
  rw [apply]
  split <;> simp [*, eq_comm]

theorem getElem?_of_shift (h : s.apply e = .ok s₁) (hi : s.letters[i]? = some c)
    (hj : e.shift i = some j) : s₁.letters[j]? = some c := by
  cases e with
  | insert p x =>
    obtain ⟨hp, rfl⟩ := apply_insert_eq_ok_iff.1 h
    rw [insert, List.getElem?_insertIdx, ← hi]
    rcases Edit.shift_insert_eq_some_iff.1 hj with ⟨hlt, rfl⟩ | ⟨hle, rfl⟩
    · rw [if_pos hlt]
    · rw [if_neg (by omega), if_neg (by omega), Nat.add_sub_cancel]
  | delete p =>
    obtain ⟨hp, rfl⟩ := apply_delete_eq_ok_iff.1 h
    rw [delete, List.getElem?_eraseIdx, ← hi]
    rcases Edit.shift_delete_eq_some_iff.1 hj with ⟨hlt, rfl⟩ | ⟨hlt, rfl⟩
    · rw [if_pos hlt]
    · rw [if_neg (by omega)]
  | noop =>
    cases h
    cases hj
    exact hi

theorem shift_eq_none_iff (hi : s.letters[i]? = some c) :
    e.shift i = none ↔ ∃ p, e = .delete p ∧ s.letters[p]? = some c := by
  cases e with
  | insert p x => simp [Edit.shift]
  | noop => simp [Edit.shift]
  | delete p =>
    rw [Edit.shift_delete_eq_none_iff]
    constructor
    · rintro rfl
      exact ⟨i, rfl, hi⟩
    · rintro ⟨_, heq, hp⟩
      cases heq
      exact eq_of_getElem? hi hp

theorem not_mem_of_shift (h : s.apply e = .ok s₁) (hi : s.letters[i]? = some c)
    (hj : e.shift i = none) : c ∉ s₁.letters := by
  obtain ⟨p, rfl, hp⟩ := (shift_eq_none_iff hi).1 hj
  obtain ⟨-, rfl⟩ := apply_delete_eq_ok_iff.1 h
  intro hc
  obtain ⟨k, hk⟩ := List.mem_iff_getElem?.1 hc
  rw [delete, List.getElem?_eraseIdx] at hk
  split at hk
  · have := eq_of_getElem? hp hk
    omega
  · have := eq_of_getElem? hp hk
    omega

theorem not_mem_of_apply (h : s.apply e = .ok s₁) (hid : c.id < s.next) (hc : c ∉ s.letters) :
    c.id < s₁.next ∧ c ∉ s₁.letters := by
  cases e with
  | insert p x =>
    obtain ⟨hp, rfl⟩ := apply_insert_eq_ok_iff.1 h
    refine ⟨Nat.lt_succ_of_lt hid, fun hmem => ?_⟩
    rcases List.eq_or_mem_of_mem_insertIdx hmem with rfl | hmem
    · exact Nat.lt_irrefl _ hid
    · exact hc hmem
  | delete p =>
    obtain ⟨-, rfl⟩ := apply_delete_eq_ok_iff.1 h
    exact ⟨hid, fun hmem => hc (List.mem_of_mem_eraseIdx hmem)⟩
  | noop =>
    cases h
    exact ⟨hid, hc⟩

theorem not_mem_of_applyAll (h : s.applyAll es = .ok s') (hid : c.id < s.next) (hc : c ∉ s.letters) :
    c ∉ s'.letters := by
  induction es generalizing s with
  | nil =>
    cases h
    exact hc
  | cons e es ih =>
    obtain ⟨s₁, h₁, h⟩ := applyAll_cons_eq_ok_iff.1 h
    obtain ⟨hid, hc⟩ := not_mem_of_apply h₁ hid hc
    exact ih h hid hc

theorem next_le_of_apply (h : s.apply e = .ok s₁) : s.next ≤ s₁.next := by
  cases e with
  | insert p x =>
    obtain ⟨hp, rfl⟩ := apply_insert_eq_ok_iff.1 h
    exact Nat.le_succ _
  | delete p =>
    obtain ⟨-, rfl⟩ := apply_delete_eq_ok_iff.1 h
    exact Nat.le_refl _
  | noop =>
    cases h
    exact Nat.le_refl _

theorem deletes_cons (h : s.apply e = .ok s₁) : s.Deletes (e :: es) c ↔
    (∃ p, e = .delete p ∧ s.letters[p]? = some c) ∨ s₁.Deletes es c := by
  constructor
  · rintro ⟨before, p, after, s₂, heq, hbefore, hp⟩
    cases before with
    | nil =>
      cases heq
      cases hbefore
      exact .inl ⟨p, rfl, hp⟩
    | cons e' before =>
      cases heq
      obtain ⟨s₃, h₃, hbefore⟩ := applyAll_cons_eq_ok_iff.1 hbefore
      rw [h] at h₃
      cases h₃
      exact .inr ⟨before, p, after, s₂, rfl, hbefore, hp⟩
  · rintro (⟨p, rfl, hp⟩ | ⟨before, p, after, s₂, rfl, hbefore, hp⟩)
    · exact ⟨[], p, es, s, rfl, rfl, hp⟩
    · exact ⟨e :: before, p, after, s₂, rfl, applyAll_cons_eq_ok_iff.2 ⟨s₁, h, hbefore⟩, hp⟩

/-- A letter stands where the edits take its position, or one of them deletes it. -/
theorem getElem?_applyAll (h : s.applyAll es = .ok s') (hi : s.letters[i]? = some c) :
    (∃ j, Edit.shifts es i = some j ∧ s'.letters[j]? = some c ∧ ¬ s.Deletes es c) ∨
      Edit.shifts es i = none ∧ c ∉ s'.letters ∧ s.Deletes es c := by
  induction es generalizing s i with
  | nil =>
    cases h
    refine .inl ⟨i, rfl, hi, ?_⟩
    rintro ⟨before, p, after, s₁, heq, -⟩
    cases before <;> cases heq
  | cons e es ih =>
    obtain ⟨s₁, h₁, h⟩ := applyAll_cons_eq_ok_iff.1 h
    rw [deletes_cons h₁, ← shift_eq_none_iff hi, Edit.shifts]
    cases hj : e.shift i with
    | none =>
      have hid := Nat.lt_of_lt_of_le (s.fresh c (List.mem_of_getElem? hi)) (next_le_of_apply h₁)
      exact .inr ⟨rfl, not_mem_of_applyAll h hid (not_mem_of_shift h₁ hi hj), .inl rfl⟩
    | some j => simpa using ih h (getElem?_of_shift h₁ hi hj)

/-- An edit that follows where the edits in between take positions means what it meant. -/
theorem intends_of_follows {e' : Edit} {d : Doc} (h : s.applyAll es = .ok s')
    (hf : Edit.Follows (Edit.shifts es) e e') (hd : s'.doc.apply e' = .ok d) :
    s.Intends es s' e e' := by
  cases hf with
  | noop => rfl
  | delete hq =>
    intro c hc
    obtain ⟨j, hj, hget, hkept⟩ | ⟨hnone, -⟩ := getElem?_applyAll h hc
    · rw [hq] at hj
      cases hj
      exact ⟨iff_of_true (List.mem_of_getElem? hget) ⟨_, rfl, hget⟩, iff_of_false nofun hkept⟩
    · rw [hq] at hnone
      cases hnone
  | deleted hq =>
    intro c hc
    obtain ⟨j, hj, -⟩ | ⟨-, hgone, hdeleted⟩ := getElem?_applyAll h hc
    · rw [hq] at hj
      cases hj
    · exact ⟨iff_of_false hgone nofun, iff_of_true rfl hdeleted⟩
  | @insert p q x hq =>
    have hle := (Doc.apply_insert_eq_ok_iff.1 hd).1
    rw [← Doc.length, length_doc] at hle
    refine ⟨q, rfl, hle, fun c hc => ?_⟩
    have hgoes {i : Nat} (hi : s.letters[i]? = some c) : ∃ j, s'.letters[j]? = some c ∧
        (i < p → j < q) ∧ (p ≤ i → q ≤ j) := by
      obtain ⟨j, hj, hget, -⟩ | ⟨-, hgone, -⟩ := getElem?_applyAll h hi
      · exact ⟨j, hget, hq i j hj⟩
      · exact absurd hc hgone
    constructor
    · rw [mem_take_iff_getElem?, mem_take_iff_getElem?]
      rintro ⟨i, hip, hi⟩
      obtain ⟨j, hj, hlt, -⟩ := hgoes hi
      exact ⟨j, hlt hip, hj⟩
    · rw [mem_drop_iff_getElem?, mem_drop_iff_getElem?]
      rintro ⟨i, hip, hi⟩
      obtain ⟨j, hj, -, hle⟩ := hgoes hi
      exact ⟨j, hle hip, hj⟩

end Sheet

namespace CharOp

open Transformer

variable {s s' : Sheet} {a : CharOp} {bs cs ss : List CharOp} {d da dc ds d' : Doc}
  {t : Transformed CharOp}

theorem client_intends (h : s.applyAll (edits bs) = .ok s') (ha : s.doc.apply a.edit = .ok da)
    (ht : transform [a] bs = .ok t) :
    ∃ a', t.client = [a'] ∧ a'.label = a.label ∧ s.Intends (edits bs) s' a.edit a'.edit := by
  obtain ⟨a', hclient, hfollows⟩ := transform_follows ht
  obtain ⟨hlabels, -⟩ := transform_labels ht
  obtain ⟨d, -, hd⟩ := transform_converges ht (acts_singleton_eq_ok_iff.2 ha)
    ((Doc.acts_act _ _).trans (Sheet.doc_of_applyAll h))
  rw [hclient] at hlabels hd
  have hd : s'.doc.apply a'.edit = .ok d := acts_singleton_eq_ok_iff.1 hd
  exact ⟨a', hclient, (List.cons.inj hlabels).1, Sheet.intends_of_follows h hfollows hd⟩

theorem server_intends (h : s.applyAll (edits bs) = .ok s') (ha : s.doc.apply a.edit = .ok da)
    (ht : transform bs [a] = .ok t) :
    ∃ a', t.server = [a'] ∧ a'.label = a.label ∧ s.Intends (edits bs) s' a.edit a'.edit := by
  obtain ⟨bs', a', t', hp, hnil, rfl⟩ := transform_cons_eq_ok_iff.1 ht
  cases hnil
  obtain ⟨d, hd, -⟩ := pass_converges hp ((Doc.acts_act _ _).trans (Sheet.doc_of_applyAll h)) ha
  exact ⟨a', rfl, (pass_labels hp).2, Sheet.intends_of_follows h (pass_follows hp) hd⟩

theorem transform_ok_or_overflow (hc : acts Doc.act d cs = .ok dc) (hs : acts Doc.act d ss = .ok ds)
    (hsite : ∀ c ∈ cs, ∀ s ∈ ss, c.site ≠ s.site) : (∃ t, transform cs ss = .ok t) ∨
      transform cs ss = .error .overflow ∧ Checked.limit < d.length + cs.length + ss.length := by
  rcases Nat.lt_or_ge Checked.limit (d.length + cs.length + ss.length) with hlt | hle
  · exact (exists_ok_or_overflow hsite).imp_right fun hover => ⟨hover, hlt⟩
  · exact .inl (exists_transform hc hs hsite hle)

/-- An edit that is moved past any edits of others means on the document behind these what it meant on the
document before them, whether it is the client's or the server's. Only a position that leaves its range
prevents this. -/
theorem transform_intends (ha : s.doc.apply a.edit = .ok da)
    (hbs : s.doc.applyAll (edits bs) = .ok d') (hsite : ∀ b ∈ bs, a.site ≠ b.site) :
    ∃ s', s.applyAll (edits bs) = .ok s' ∧ s'.doc = d' ∧
      ((∃ a' moved, transform [a] bs = .ok ⟨[a'], moved⟩ ∧ a'.label = a.label ∧
          s.Intends (edits bs) s' a.edit a'.edit) ∨
        transform [a] bs = .error .overflow ∧ Checked.limit ≤ s.doc.length + bs.length) ∧
      ((∃ moved a', transform bs [a] = .ok ⟨moved, [a']⟩ ∧ a'.label = a.label ∧
          s.Intends (edits bs) s' a.edit a'.edit) ∨
        transform bs [a] = .error .overflow ∧ Checked.limit ≤ s.doc.length + bs.length) := by
  obtain ⟨s', h, hdoc⟩ := Sheet.exists_applyAll hbs
  have hone : acts Doc.act s.doc [a] = .ok da := acts_singleton_eq_ok_iff.2 ha
  have hmany : acts Doc.act s.doc bs = .ok d' := (Doc.acts_act _ _).trans hbs
  refine ⟨s', h, hdoc, ?_, ?_⟩
  · rcases transform_ok_or_overflow hone hmany (by simpa using hsite) with ⟨t, ht⟩ | ⟨hover, hlimit⟩
    · obtain ⟨a', hclient, hlabel, hintends⟩ := client_intends h ha ht
      refine .inl ⟨a', t.server, ?_, hlabel, hintends⟩
      rw [ht, ← hclient]
    · rw [List.length_singleton] at hlimit
      exact .inr ⟨hover, by omega⟩
  · rcases transform_ok_or_overflow hmany hone (by simpa [eq_comm] using hsite) with
      ⟨t, ht⟩ | ⟨hover, hlimit⟩
    · obtain ⟨a', hserver, hlabel, hintends⟩ := server_intends h ha ht
      refine .inl ⟨t.client, a', ?_, hlabel, hintends⟩
      rw [ht, ← hserver]
    · rw [List.length_singleton] at hlimit
      exact .inr ⟨hover, by omega⟩

/-- Of `abcd` the server makes `xad` while a client inserts a character between those that it deletes. -/
theorem transform_intends_between : ∃ s' moved a',
    (Sheet.ofDoc ⟨['a', 'b', 'c', 'd']⟩).applyAll [.insert 0 'x', .delete 2, .delete 2] = .ok s' ∧
    s'.doc = ⟨['x', 'a', 'd']⟩ ∧
    transform [⟨0, 1, .insert 2 'n'⟩] [⟨0, 2, .insert 0 'x'⟩, ⟨1, 2, .delete 2⟩, ⟨2, 2, .delete 2⟩] =
      .ok ⟨[a'], moved⟩ ∧
    a' = ⟨0, 1, .insert 2 'n'⟩ ∧
    (Sheet.ofDoc ⟨['a', 'b', 'c', 'd']⟩).Intends [.insert 0 'x', .delete 2, .delete 2] s'
      (.insert 2 'n') a'.edit := by
  let d : Doc := ⟨['a', 'b', 'c', 'd']⟩
  let bs : List CharOp := [⟨0, 2, .insert 0 'x'⟩, ⟨1, 2, .delete 2⟩, ⟨2, 2, .delete 2⟩]
  have ha : (Sheet.ofDoc d).doc.apply (.insert 2 'n') = .ok ⟨['a', 'b', 'n', 'c', 'd']⟩ := by
    rw [Sheet.doc_ofDoc]
    rfl
  have hbs : (Sheet.ofDoc d).doc.applyAll (edits bs) = .ok ⟨['x', 'a', 'd']⟩ := by
    rw [Sheet.doc_ofDoc]
    rfl
  obtain ⟨s', h, hdoc, hclient | ⟨hover, -⟩, -⟩ :=
    transform_intends (a := ⟨0, 1, .insert 2 'n'⟩) ha hbs (by decide)
  · obtain ⟨a', moved, ht, -, hintends⟩ := hclient
    have ha' : a' = ⟨0, 1, .insert 2 'n'⟩ := by
      cases ht
      rfl
    exact ⟨s', moved, a', h, hdoc, ht, ha', hintends⟩
  · cases hover

end CharOp

end CoEdit
