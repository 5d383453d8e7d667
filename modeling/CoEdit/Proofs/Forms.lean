import CoEdit.Json.Form
import CoEdit.Proofs.CharContract
import CoEdit.Proofs.Reading

/-!
# Messages come back from their texts

A form is faithful if reading gives nothing but values whose numbers fit their fields, and gives each of
these back from what it is written as (`JsonForm.Faithful`). A structure is faithful if its fields are: what a
delivery and an operation are read from is said in terms of their fields (`Delivery.decode?_eq_some_iff`,
`CharOp.decode?_eq_some_iff`), wherever these stand and whatever else is there. An edit is taken in before
its kind is known, so its text must not nest too deeply.

Since every JSON value is read back from its compact text, a faithful form restores every value from its text
(`JsonForm.Faithful.read?_write`), and writing again what was read from any text changes nothing
(`Json.restores_messages`).
-/

namespace CoEdit

open Json

namespace Json

variable {j : Json} {bound n : Nat} {s : String}

theorem below?_eq_some_iff : j.below? bound = some n ↔ j = natural n ∧ n < bound := by
  cases j with
  | natural m =>
    simp only [below?, Option.ite_none_right_eq_some, natural.injEq, Option.some.injEq]
    constructor
    · rintro ⟨h, rfl⟩
      exact ⟨rfl, h⟩
    · rintro ⟨rfl, h⟩
      exact ⟨h, rfl⟩
  | _ => simp [below?]

theorem text?_eq_some_iff : j.text? = some s ↔ j = string s := by
  cases j <;> simp [text?]

end Json

/-- The numbers of the operation fit their fields: the id and the position 64 bits, the site 32. -/
def CharOp.Sized (op : CharOp) : Prop :=
  op.id < Checked.limit ∧ op.site < siteLimit ∧ op.edit.HasRoom 0

/-- Among so many containers, reading gives values with `P` only, and gives back each of these from its own
form. -/
structure JsonForm.Faithful (α : Type) [JsonForm α] (level : Nat) (P : α → Prop) : Prop where
  restores : ∀ a, P a → decode? level (encode a) = some a
  sound : ∀ j a, decode? level j = some a → P a

namespace JsonForm.Faithful

variable {α : Type} [JsonForm α] {P : α → Prop} {a : α} {s : String}

theorem read?_write (h : Faithful α 0 P) (ha : P a) : read? (write a) = some a := by
  unfold read? write
  rw [ofText?_compact]
  exact h.restores a ha

theorem of_read? (h : Faithful α 0 P) (hs : read? s = some a) : P a := by
  obtain ⟨j, -, hj⟩ := Option.bind_eq_some_iff.1 hs
  exact h.sound j a hj

end JsonForm.Faithful

variable {level : Nat} {j : Json}

theorem Revision.decode?_eq_some_iff {r : Revision} :
    JsonForm.decode? level j = some r ↔ j = natural r.number ∧ r.number < Checked.limit := by
  refine Option.map_eq_some_iff.trans ⟨?_, ?_⟩
  · rintro ⟨n, hn, rfl⟩
    exact below?_eq_some_iff.1 hn
  · intro h
    exact ⟨_, below?_eq_some_iff.2 h, rfl⟩

theorem Session.decode?_eq_some_iff {s : Session} :
    JsonForm.decode? level j = some s ↔ j = string s.id := by
  refine Option.bind_eq_some_iff.trans ⟨?_, ?_⟩
  · rintro ⟨id, hid, h⟩
    rw [text?_eq_some_iff.1 hid]
    unfold ofText? at h
    split at h
    · cases h
    · cases h
      rfl
  · intro h
    exact ⟨_, text?_eq_some_iff.2 h, ofText?_id s⟩

theorem ServiceError.faithful : JsonForm.Faithful ServiceError level fun _ => True where
  restores e _ := by
    simp [JsonForm.encode, JsonForm.decode?, fields?, unique?, name?, text?, ofKind?_kind]
  sound _ _ _ := trivial

namespace Edit

variable {kind : String} {e : Edit} {ms : List (String × Json)}

theorem hasRoom_of_ofKind? (h : ofKind? kind j = some e) : e.HasRoom 0 := by
  unfold ofKind? at h
  split at h
  · obtain ⟨xs, -, h⟩ := Option.bind_eq_some_iff.1 h
    split at h
    · simp only [pos?, Option.bind_eq_bind, Option.bind_eq_some_iff, below?_eq_some_iff] at h
      obtain ⟨p, ⟨-, hp⟩, c, -, h⟩ := h
      cases h
      exact hasRoom_insert.2 hp
    · cases h
  split at h
  · obtain ⟨xs, -, h⟩ := Option.bind_eq_some_iff.1 h
    split at h
    · simp only [pos?, Option.bind_eq_bind, Option.bind_eq_some_iff, below?_eq_some_iff] at h
      obtain ⟨p, ⟨-, hp⟩, h⟩ := h
      cases h
      exact hasRoom_delete.2 hp
    · cases h
  split at h
  · split at h
    · cases h
    · cases h
      exact hasRoom_noop
  · cases h

theorem decode?_object (hread : (object ms).isReadable)
    (hdepth : (object ms).depth + level ≤ nestingLimit) (hkind : unique? "kind" ms = some (string kind)) :
    JsonForm.decode? level (object ms) = ofKind? kind (object (ms.filter (·.1 != "kind"))) := by
  have hguard : (guard ((object ms).isReadable && (object ms).depth + level ≤ nestingLimit) : Option Unit) =
      some () := if_pos (by simp [hread, hdepth])
  show guard _ >>= (fun _ => unique? "kind" ms >>= fun x => x.text? >>= fun _ => _) = _
  rw [hguard, hkind]
  rfl

theorem faithful (h : level < nestingLimit) : JsonForm.Faithful Edit level (HasRoom 0) where
  restores e he := by
    have hdepth {ms : List (String × Json)} (hms : depthOfMembers ms = 0) :
        (object ms).depth + level ≤ nestingLimit := by
      simp only [depth, hms]
      omega
    cases e with
    | insert pos ch =>
      have hpos : pos < Checked.limit := hasRoom_insert.1 he
      refine (decode?_object ?_ (hdepth rfl) rfl).trans ?_
      · simpa [isReadable, haveReadable] using Decimal.scalesToFinite_of_lt hpos
      · simp [ofKind?, fields?, unique?, pos?, below?, hpos, char?, text?]
    | delete pos =>
      have hpos : pos < Checked.limit := hasRoom_delete.1 he
      refine (decode?_object ?_ (hdepth rfl) rfl).trans ?_
      · simpa [isReadable, haveReadable] using Decimal.scalesToFinite_of_lt hpos
      · simp [ofKind?, fields?, unique?, pos?, below?, hpos]
    | noop =>
      refine (decode?_object ?_ (hdepth rfl) rfl).trans ?_
      · rfl
      · rfl
  sound j e hj := by
    obtain ⟨-, -, hj⟩ := Option.bind_eq_some_iff.1 hj
    split at hj
    · obtain ⟨x, -, hj⟩ := Option.bind_eq_some_iff.1 hj
      obtain ⟨kind, -, hj⟩ := Option.bind_eq_some_iff.1 hj
      exact hasRoom_of_ofKind? hj
    · obtain ⟨kind, -, hj⟩ := Option.bind_eq_some_iff.1 hj
      exact hasRoom_of_ofKind? hj
    · cases hj

end Edit

namespace CharOp

theorem decode?_eq_some_iff {op : CharOp} : JsonForm.decode? level j = some op ↔
    ∃ x, j.fields? names = some [natural op.id, natural op.site, x] ∧ op.id < Checked.limit ∧
      op.site < siteLimit ∧ JsonForm.decode? (level + 1) x = some op.edit := by
  refine Option.bind_eq_some_iff.trans ⟨?_, ?_⟩
  · rintro ⟨xs, hj, h⟩
    split at h
    · simp only [Option.bind_eq_bind, Option.bind_eq_some_iff, below?_eq_some_iff] at h
      obtain ⟨_, ⟨rfl, hid⟩, _, ⟨rfl, hsite⟩, edit, hx, h⟩ := h
      cases h
      exact ⟨_, hj, hid, hsite, hx⟩
    · cases h
  · rintro ⟨x, hj, hid, hsite, hx⟩
    refine ⟨_, hj, ?_⟩
    simp only [below?, hid, hsite, ↓reduceIte, hx]
    rfl

theorem faithful (h : level + 1 < nestingLimit) : JsonForm.Faithful CharOp level Sized where
  restores op hop := by
    obtain ⟨hid, hsite, hedit⟩ := hop
    exact decode?_eq_some_iff.2 ⟨_, rfl, hid, hsite, (Edit.faithful h).restores _ hedit⟩
  sound j op hj := by
    obtain ⟨x, -, hid, hsite, hx⟩ := decode?_eq_some_iff.1 hj
    exact ⟨hid, hsite, (Edit.faithful h).sound _ _ hx⟩

end CharOp

namespace Delivery

variable {M : Type} [JsonForm M]

theorem decode?_eq_some_iff {d : Delivery M} : JsonForm.decode? level j = some d ↔
    ∃ x, j.fields? names = some [natural d.revision.number, string d.session.id, x] ∧
      d.revision.number < Checked.limit ∧ JsonForm.decode? (level + 1) x = some d.op := by
  refine Option.bind_eq_some_iff.trans ⟨?_, ?_⟩
  · rintro ⟨xs, hj, h⟩
    split at h
    · simp only [Option.bind_eq_bind, Option.bind_eq_some_iff, Revision.decode?_eq_some_iff,
        Session.decode?_eq_some_iff] at h
      obtain ⟨r, ⟨rfl, hr⟩, s, rfl, op, hx, h⟩ := h
      cases h
      exact ⟨_, hj, hr, hx⟩
    · cases h
  · rintro ⟨x, hj, hr, hx⟩
    refine ⟨_, hj, ?_⟩
    simp only [Revision.decode?_eq_some_iff.2 ⟨rfl, hr⟩, Session.decode?_eq_some_iff.2 rfl, hx]
    rfl

theorem faithful {P : M → Prop} (h : JsonForm.Faithful M (level + 1) P) :
    JsonForm.Faithful (Delivery M) level fun d => d.revision.number < Checked.limit ∧ P d.op where
  restores d hd := decode?_eq_some_iff.2 ⟨_, rfl, hd.1, h.restores _ hd.2⟩
  sound j d hj := by
    obtain ⟨x, -, hr, hx⟩ := decode?_eq_some_iff.1 hj
    exact ⟨hr, h.sound _ _ hx⟩

end Delivery

namespace Json

/-- Deliveries of character operations and service failures come back from their texts, whatever characters
they hold and up to the largest numbers of their fields. Any text at all that is read as a delivery
shows its revision and its session, which is not empty, and the delivery comes back from its own text. -/
theorem restores_messages :
    (∀ d : Delivery CharOp, d.revision.number < Checked.limit → d.op.Sized → read? (write d) = some d) ∧
    (∀ e : ServiceError, read? (write e) = some e) ∧
    ∀ (s : String) (d : Delivery CharOp), read? s = some d →
      (∃ j x, ofText? s = some j ∧
        j.fields? Delivery.names = some [natural d.revision.number, string d.session.id, x]) ∧
      d.session.id ≠ "" ∧ d.revision.number < Checked.limit ∧ d.op.Sized ∧ read? (write d) = some d := by
  have hdelivery : JsonForm.Faithful (Delivery CharOp) 0 _ := Delivery.faithful (CharOp.faithful (by decide))
  refine ⟨fun d hr hop => hdelivery.read?_write ⟨hr, hop⟩, fun e => ServiceError.faithful.read?_write trivial,
    fun s d hs => ?_⟩
  have hd := hdelivery.of_read? hs
  obtain ⟨j, hj, hread⟩ := Option.bind_eq_some_iff.1 hs
  obtain ⟨x, hx, -⟩ := Delivery.decode?_eq_some_iff.1 hread
  exact ⟨⟨j, x, hj, hx⟩, d.session.nonempty, hd.1, hd.2, hdelivery.read?_write hd⟩

/-- The largest numbers, and characters that are escaped or need four bytes. The same delivery is read from a
text with blanks, other escapes, the fields in another order, one field more, and an array for the operation. -/
theorem restores_messages_escaped : ∃ (d : Delivery CharOp) (s : String),
    d.revision = ⟨18446744073709551615⟩ ∧ d.session.id = "\"\\\x01😀" ∧
    d.op = ⟨18446744073709551615, 4294967295, .insert 18446744073709551615 '"'⟩ ∧
    d.revision.number < Checked.limit ∧ d.op.Sized ∧ read? (write d) = some d ∧
    read? s = some d ∧ d.session.id ≠ "" := by
  let d : Delivery CharOp := ⟨⟨18446744073709551615⟩, ⟨"\"\\\x01😀", by decide⟩,
    ⟨18446744073709551615, 4294967295, .insert 18446744073709551615 '"'⟩⟩
  let s := "\x7b\"sent\": 1.5e3, \"session\": \"\\u0022\\u005c\\u0001\\ud83d\\ude00\",\n" ++
    "\"op\": [18446744073709551615, 4294967295, \x7b\"ch\": \"\\u0022\"," ++
    "\"pos\": 18446744073709551615, \"kind\": \"insert\"\x7d],\n\"revision\": 18446744073709551615 \x7d"
  have hread : read? s = some d := by
    -- The characters come from the literals and need not be decoded from bytes.
    unfold read? ofText?
    rw [String.toList_append, String.toList_append, String.toList_ofList, String.toList_ofList,
      String.toList_ofList]
    decide +kernel
  have hsized : d.op.Sized := ⟨by decide, by decide, Edit.hasRoom_insert.2 (by decide)⟩
  obtain ⟨hdelivery, -, htext⟩ := restores_messages
  exact ⟨d, s, rfl, rfl, rfl, by decide, hsized, hdelivery d (by decide) hsized, hread,
    (htext s d hread).2.1⟩

end Json

end CoEdit
