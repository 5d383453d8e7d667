import CoEdit.Json.Reader
import CoEdit.Json.Writer

/-!
# Reading what was written

`Json.ofText?_compact`: every JSON value is read back from its compact text. Numbers and strings come
first, then a lemma for each step of the reader, and the induction over the value chains these steps.

Nothing marks the end of a number, so what is written is read back only in front of something that does not
go on with a number (`EndsNumber`), as every sign behind an element or a member is. The reader is granted a
number of steps. It needs no more of them than the text has characters: each step reads a character
that no other step does.
-/

namespace CoEdit.Json

open Text

variable {c : Char} {cs rest rest' : List Char} {n fuel : Nat}

theorem isDigit_of_mem_toDigits (h : c ∈ Nat.toDigits 10 n) : isDigit c :=
  Nat.isDigit_of_mem_toDigits (by decide) (by decide) h

theorem exists_toDigits (n : Nat) : ∃ d ds, Nat.toDigits 10 n = d :: ds ∧ isDigit d := by
  obtain ⟨d, ds, h⟩ := List.exists_cons_of_ne_nil (Nat.toDigits_ne_nil (n := n) (b := 10))
  exact ⟨d, ds, h, isDigit_of_mem_toDigits (n := n) (h ▸ List.mem_cons_self)⟩

theorem digitsValue_toDigits : digitsValue (Nat.toDigits 10 n) = n :=
  Nat.ofDigitChars_ten_toDigits

theorem eq_zero_of_head?_toDigits (h : (Nat.toDigits 10 n).head? = some '0') : n = 0 := by
  induction n using Nat.strongRecOn with
  | ind n ih =>
    rw [Nat.toDigits_eq_if (by decide)] at h
    split at h
    · simpa using h
    · obtain ⟨d, ds, hds, -⟩ := exists_toDigits (n / 10)
      have := ih (n / 10) (by omega) (by simpa [hds] using h)
      omega

theorem digits?_toDigits (h : ∀ c ∈ cs.head?, isDigit c = false) :
    digits? (Nat.toDigits 10 n ++ cs) = some (Nat.toDigits 10 n, cs) := by
  have hdigits : ∀ c ∈ Nat.toDigits 10 n, isDigit c := fun _ => isDigit_of_mem_toDigits
  have hcs : cs.takeWhile isDigit = [] ∧ cs.dropWhile isDigit = cs := by
    cases cs with
    | nil => simp
    | cons c cs => simp [h c rfl]
  unfold digits?
  rw [List.takeWhile_append_of_pos hdigits, List.dropWhile_append_of_pos hdigits, hcs.1, hcs.2]
  simp [Nat.toDigits_ne_nil]

/-- Whatever comes first does not go on with a number. -/
def EndsNumber (cs : List Char) : Prop :=
  ∀ c ∈ cs.head?, isDigit c = false ∧ c ≠ '.' ∧ c ≠ 'e' ∧ c ≠ 'E'

theorem fraction?_of_ne_dot (h : ∀ c ∈ cs.head?, c ≠ '.') : fraction? cs = some ([], cs) := by
  unfold fraction?
  split
  · exact absurd rfl (h '.' rfl)
  · rfl

theorem exponent?_of_ends (h : EndsNumber cs) : exponent? cs = some (none, cs) := by
  cases cs with
  | nil => rfl
  | cons c cs =>
    obtain ⟨-, -, he, hE⟩ := h c rfl
    simp [exponent?, he, hE]

theorem exponent?_toString (h : EndsNumber cs) (e : Int) :
    exponent? ('e' :: (toString e).toList ++ cs) = some (some e, cs) := by
  have hcs : ∀ c ∈ cs.head?, isDigit c = false := fun c hc => (h c hc).1
  cases e with
  | ofNat n =>
    obtain ⟨d, ds, hds, hd⟩ := exists_toDigits n
    have hn := digits?_toDigits (n := n) hcs
    simp only [Int.toString_eq_repr, Int.repr, Nat.toList_repr, exponent?, List.cons_append,
      beq_self_eq_true, Bool.true_or, ↓reduceIte]
    split
    -- A digit is no sign.
    · simp_all [isDigit]
    · simp_all [isDigit]
    · simp [hn, digitsValue_toDigits]
  | negSucc n =>
    simp [exponent?, Int.repr, Nat.toList_repr, digits?_toDigits hcs, digitsValue_toDigits]
    omega

/-- A number is its sign, its digits without superfluous zeros, and an exponent or none. -/
theorem number?_toDigits (negative : Bool) {e : Option Int}
    (h : ∀ c ∈ cs.head?, isDigit c = false ∧ c ≠ '.') (he : exponent? cs = some (e, rest)) :
    number? ((if negative then ['-'] else []) ++ Nat.toDigits 10 n ++ cs) =
      some (if !negative && e.isNone then natural n else decimal negative n (e.getD 0), rest) := by
  have hwhole := digits?_toDigits (n := n) fun c hc => (h c hc).1
  have hfraction := fraction?_of_ne_dot fun c hc => (h c hc).2
  have hzero : (Nat.toDigits 10 n).head? = some '0' → (Nat.toDigits 10 n).length ≤ 1 := by
    intro hz
    simp [eq_zero_of_head?_toDigits hz]
  unfold number?
  cases negative with
  | true => simpa [hwhole, hfraction, he, digitsValue_toDigits] using hzero
  | false =>
    obtain ⟨d, ds, hds, hd⟩ := exists_toDigits n
    simp only [Bool.false_eq_true, ↓reduceIte, List.nil_append]
    split
    · simp_all [isDigit]
    · cases e <;> simpa [hwhole, hfraction, he, digitsValue_toDigits] using hzero

theorem hexValue?_hexDigit : ∀ n < 16, hexValue? (hexDigit n) = some n := by decide

theorem codeUnit?_control (h : n < 0x20) :
    codeUnit? '0' '0' (hexDigit (n / 16)) (hexDigit (n % 16)) = some n := by
  have hzero : hexValue? '0' = some 0 := by decide
  have hhigh := hexValue?_hexDigit (n / 16) (by omega)
  have hlow := hexValue?_hexDigit (n % 16) (by omega)
  simp [codeUnit?, hzero, hhigh, hlow]
  omega

/-- The piece joins what follows as the character. -/
def Piece.StandsFor (p : Piece) (c : Char) : Prop := ∀ ps, join? (p :: ps) = (c :: ·) <$> join? ps

theorem Piece.StandsFor.char (c : Char) : (Piece.char c).StandsFor c := fun _ => rfl

theorem Piece.StandsFor.unit (h : c.toNat < 0xD800) : (Piece.unit c.toNat).StandsFor c := by
  intro ps
  have hhigh : isHigh c.toNat = false := by simp [isHigh]; omega
  have hlow : isLow c.toNat = false := by simp [isLow]; omega
  cases ps with
  | nil => simp [join?, hhigh, hlow]
  | cons p ps => cases p <;> simp [join?, hhigh, hlow]

theorem pieces?_plain {ps : List Piece} (hquote : c ≠ '"') (hback : c ≠ '\\') (hc : ¬ c.toNat < 0x20)
    (h : pieces? cs = some (ps, rest)) : pieces? (c :: cs) = some (.char c :: ps, rest) := by
  rw [pieces?.eq_def]
  split <;> simp_all

theorem exists_piece (c : Char) : ∃ p : Piece, p.StandsFor c ∧ ∀ cs ps rest,
    pieces? cs = some (ps, rest) → pieces? (escape c ++ cs) = some (p :: ps, rest) := by
  unfold escape
  split
  case h_8 hquote hback _ _ _ _ _ =>
    split
    · rename_i hc
      refine ⟨_, .unit (by omega), fun cs ps rest h => ?_⟩
      simp [pieces?, codeUnit?_control hc, h]
    · rename_i hc
      exact ⟨_, .char c, fun cs ps rest h => pieces?_plain hquote hback hc h⟩
  all_goals exact ⟨_, .char _, fun cs ps rest h => by simp [pieces?, unescape?, h]⟩

theorem quoted?_escape (s cs : List Char) :
    quoted? (s.flatMap escape ++ '"' :: cs) = some (some (String.ofList s), cs) := by
  have h : ∃ ps, pieces? (s.flatMap escape ++ '"' :: cs) = some (ps, cs) ∧ join? ps = some s := by
    induction s with
    | nil => exact ⟨[], by simp [pieces?], rfl⟩
    | cons c s ih =>
      obtain ⟨ps, hps, hs⟩ := ih
      obtain ⟨p, hp, hread⟩ := exists_piece c
      refine ⟨p :: ps, ?_, ?_⟩
      · rw [List.flatMap_cons, List.append_assoc]
        exact hread _ _ _ hps
      · rw [hp ps, hs]
        rfl
  obtain ⟨ps, hps, hs⟩ := h
  simp [quoted?, hps, hs]

theorem quote_append (s : String) :
    quote s ++ cs = '"' :: (s.toList.flatMap escape ++ '"' :: cs) := by
  simp [quote]

theorem quoted?_quote (s : String) :
    quoted? (s.toList.flatMap escape ++ '"' :: cs) = some (some s, cs) := by
  rw [quoted?_escape, String.ofList_toList]

theorem skip_cons (h : isBlank c = false) : skip (c :: cs) = c :: cs := by
  simp [skip, h]

/-- The first character of a written value, which is taken neither for a blank nor for the end of an
array. -/
def StartsValue (c : Char) : Prop := isBlank c = false ∧ c ≠ ']'

theorem startsValue_of_isDigit (h : isDigit c) : StartsValue c := by
  constructor
  · simp only [isBlank, Bool.or_eq_false_iff, beq_eq_false_iff_ne]
    refine ⟨⟨⟨?_, ?_⟩, ?_⟩, ?_⟩ <;> rintro rfl <;> simp [isDigit] at h
  · rintro rfl
    simp [isDigit] at h

theorem value?_number {x : Json} (hc : c = '-' ∨ isDigit c)
    (h : number? (c :: cs) = some (x, rest)) : value? (fuel + 1) (c :: cs) = some (x, rest) := by
  have hblank : isBlank c = false := by
    rcases hc with rfl | hc
    · rfl
    · exact (startsValue_of_isDigit hc).1
  unfold value?
  rw [skip_cons hblank]
  split <;> simp_all [isDigit]

theorem value?_string (s : String) : value? (fuel + 1) (quote s ++ cs) = some (string s, cs) := by
  rw [quote_append]
  simp [value?, skip_cons (c := '"') rfl, quoted?_quote]

theorem value?_array {xs : List Json} (hc : StartsValue c)
    (h : elements? fuel (c :: cs) = some (xs, rest)) :
    value? (fuel + 1) ('[' :: c :: cs) = some (array xs, rest) := by
  simp only [value?, skip_cons (c := '[') rfl, skip_cons hc.1]
  split <;> simp_all [StartsValue]

theorem ofMembers_some (ms : List (String × Json)) :
    ofMembers (ms.map fun (k, x) => (some k, x)) = object ms := by
  have hpure : (fun (k, x) => (·, x) <$> k) ∘ (fun (k, x) => (some k, x)) =
      fun m : String × Json => (pure m : Option _) := rfl
  unfold ofMembers
  rw [List.mapM_map, hpure, List.mapM_pure]
  simp

theorem value?_object {ms : List (String × Json)}
    (h : members? fuel ('"' :: cs) = some (ms.map fun (k, x) => (some k, x), rest)) :
    value? (fuel + 1) ('{' :: '"' :: cs) = some (object ms, rest) := by
  simp [value?, skip_cons (c := '{') rfl, skip_cons (c := '"') rfl, h, ofMembers_some]

theorem elements?_last {x : Json} (h : value? fuel cs = some (x, ']' :: rest)) :
    elements? (fuel + 1) cs = some ([x], rest) := by
  simp [elements?, h, skip_cons (c := ']') rfl]

theorem elements?_cons {x : Json} {xs : List Json} (h : value? fuel cs = some (x, ',' :: rest))
    (hxs : elements? fuel rest = some (xs, rest')) :
    elements? (fuel + 1) cs = some (x :: xs, rest') := by
  simp [elements?, h, skip_cons (c := ',') rfl, hxs]

theorem members?_last {k : String} {x : Json} (h : value? fuel cs = some (x, '}' :: rest)) :
    members? (fuel + 1) (quote k ++ ':' :: cs) = some ([(some k, x)], rest) := by
  rw [quote_append]
  simp [members?, skip_cons (c := '"') rfl, quoted?_quote, skip_cons (c := ':') rfl, h,
    skip_cons (c := '}') rfl]

theorem members?_cons {k : String} {x : Json} {ms : List (Option String × Json)}
    (h : value? fuel cs = some (x, ',' :: rest)) (hms : members? fuel rest = some (ms, rest')) :
    members? (fuel + 1) (quote k ++ ':' :: cs) = some ((some k, x) :: ms, rest') := by
  rw [quote_append]
  simp [members?, skip_cons (c := '"') rfl, quoted?_quote, skip_cons (c := ':') rfl, h,
    skip_cons (c := ',') rfl, hms]

/-! ### Values -/

theorem atom_natural : (natural n).atom = Nat.toDigits 10 n := by
  show (toString n).toList = _
  simp

theorem atom_decimal (negative : Bool) (e : Int) : (decimal negative n e).atom =
    (if negative then ['-'] else []) ++ Nat.toDigits 10 n ++ 'e' :: (toString e).toList := by
  have he : (toString "e").toList = ['e'] := rfl
  show ((if negative then "-" else "") ++ s!"{n}e{e}").toList = _
  cases negative <;> simp [he]

/-- No value is written as nothing, and none starts with what the reader would skip or take for the end. -/
theorem exists_chars (x : Json) : ∃ c cs, x.chars = c :: cs ∧ StartsValue c := by
  cases x with
  | null | string _ | unreadable => exact ⟨_, _, rfl, rfl, by decide⟩
  | bool b => cases b <;> exact ⟨_, _, rfl, rfl, by decide⟩
  | natural n =>
    obtain ⟨d, ds, hds, hd⟩ := exists_toDigits n
    exact ⟨d, ds, atom_natural.trans hds, startsValue_of_isDigit hd⟩
  | decimal negative n e =>
    obtain ⟨d, ds, hds, hd⟩ := exists_toDigits n
    cases negative with
    | true => exact ⟨_, _, atom_decimal true e, rfl, by decide⟩
    | false =>
      refine ⟨d, ds ++ 'e' :: (toString e).toList, ?_, startsValue_of_isDigit hd⟩
      exact (atom_decimal false e).trans (by rw [hds]; rfl)
  | array xs => cases xs <;> exact ⟨_, _, rfl, rfl, by decide⟩
  | object ms => cases ms <;> exact ⟨_, _, rfl, rfl, by decide⟩

theorem length_chars_pos (x : Json) : 0 < x.chars.length := by
  obtain ⟨c, cs, h, -⟩ := exists_chars x
  simp [h]

theorem value?_natural (h : EndsNumber cs) :
    value? (fuel + 1) ((natural n).atom ++ cs) = some (natural n, cs) := by
  have hread := number?_toDigits (n := n) false (fun c hc => ⟨(h c hc).1, (h c hc).2.1⟩)
    (exponent?_of_ends h)
  obtain ⟨d, ds, hds, hd⟩ := exists_toDigits n
  rw [atom_natural, hds]
  exact value?_number (.inr hd) (by simpa [hds] using hread)

theorem value?_decimal (negative : Bool) (e : Int) (h : EndsNumber cs) :
    value? (fuel + 1) ((decimal negative n e).atom ++ cs) = some (decimal negative n e, cs) := by
  have hread := number?_toDigits (n := n) negative (by simp; decide) (exponent?_toString h e)
  obtain ⟨d, ds, hds, hd⟩ := exists_toDigits n
  rw [atom_decimal, List.append_assoc]
  cases negative with
  | true => exact value?_number (.inl rfl) (by simpa using hread)
  | false =>
    rw [hds] at hread ⊢
    exact value?_number (.inr hd) (by simpa using hread)

theorem ends_elementChars (xs : List Json) (cs : List Char) : EndsNumber (elementChars xs ++ cs) := by
  cases xs <;> simp [elementChars, EndsNumber] <;> decide

theorem ends_memberChars (ms : List (String × Json)) (cs : List Char) :
    EndsNumber (memberChars ms ++ cs) := by
  cases ms <;> simp [memberChars, EndsNumber] <;> decide

/-- The value is read back, given enough steps, in front of anything that does not go on with it. -/
def ReadsBack (x : Json) : Prop :=
  ∀ cs fuel, x.chars.length ≤ fuel → EndsNumber cs → value? fuel (x.chars ++ cs) = some (x, cs)

namespace ReadsBack

variable {x : Json} {xs : List Json} {m : String × Json} {ms : List (String × Json)}

theorem of_succ (h : ∀ cs fuel, x.chars.length ≤ fuel + 1 → EndsNumber cs →
    value? (fuel + 1) (x.chars ++ cs) = some (x, cs)) : x.ReadsBack := by
  intro cs fuel hfuel hcs
  obtain ⟨fuel, rfl⟩ := Nat.exists_eq_add_one.2 (Nat.lt_of_lt_of_le (length_chars_pos x) hfuel)
  exact h cs fuel hfuel hcs

theorem elements?_eq (cs : List Char) (fuel : Nat) (h : ∀ y ∈ x :: xs, y.ReadsBack)
    (hfuel : x.chars.length + (elementChars xs).length ≤ fuel) :
    elements? fuel (x.chars ++ (elementChars xs ++ cs)) = some (x :: xs, cs) := by
  induction xs generalizing x fuel with
  | nil =>
    simp only [elementChars, List.length_cons, List.length_nil] at hfuel
    obtain ⟨fuel, rfl⟩ := Nat.exists_eq_add_one.2 (show 0 < fuel by omega)
    exact elements?_last (h x (.head _) _ fuel (by omega) (ends_elementChars [] cs))
  | cons y xs ih =>
    -- The comma makes up for the step that takes the element.
    simp only [elementChars, List.length_cons, List.length_append] at hfuel
    obtain ⟨fuel, rfl⟩ := Nat.exists_eq_add_one.2 (show 0 < fuel by omega)
    have hx := h x (.head _) _ fuel (by omega) (ends_elementChars (y :: xs) cs)
    have hxs := ih fuel (fun z hz => h z (.tail _ hz)) (by omega)
    simp only [elementChars, List.cons_append, List.append_assoc] at hx ⊢
    exact elements?_cons hx hxs

theorem members?_eq (cs : List Char) (fuel : Nat) (h : ∀ l ∈ m :: ms, l.2.ReadsBack)
    (hfuel : m.2.chars.length + (memberChars ms).length ≤ fuel) :
    members? fuel (quote m.1 ++ ':' :: (m.2.chars ++ (memberChars ms ++ cs))) =
      some ((m :: ms).map fun (k, x) => (some k, x), cs) := by
  induction ms generalizing m fuel with
  | nil =>
    simp only [memberChars, List.length_cons, List.length_nil] at hfuel
    obtain ⟨fuel, rfl⟩ := Nat.exists_eq_add_one.2 (show 0 < fuel by omega)
    exact members?_last (h m (.head _) _ fuel (by omega) (ends_memberChars [] cs))
  | cons l ms ih =>
    simp only [memberChars, List.length_cons, List.length_append] at hfuel
    obtain ⟨fuel, rfl⟩ := Nat.exists_eq_add_one.2 (show 0 < fuel by omega)
    have hx := h m (.head _) _ fuel (by omega) (ends_memberChars (l :: ms) cs)
    have hms := ih fuel (fun z hz => h z (.tail _ hz)) (by omega)
    simp only [memberChars, List.cons_append, List.append_assoc] at hx ⊢
    exact members?_cons hx hms

theorem array (h : ∀ x ∈ xs, x.ReadsBack) : (array xs).ReadsBack := by
  apply of_succ
  intro cs fuel hfuel hcs
  cases xs with
  | nil => rfl
  | cons x xs =>
    simp only [chars, List.length_append, List.length_cons] at hfuel
    have hread := elements?_eq cs fuel h (by omega)
    obtain ⟨c, rest, hrest, hc⟩ := exists_chars x
    simp only [chars, hrest, List.cons_append, List.append_assoc] at hread ⊢
    exact value?_array hc hread

theorem object (h : ∀ m ∈ ms, m.2.ReadsBack) : (object ms).ReadsBack := by
  apply of_succ
  intro cs fuel hfuel hcs
  cases ms with
  | nil => rfl
  | cons m ms =>
    simp only [chars, List.length_append, List.length_cons] at hfuel
    have hread := members?_eq cs fuel h (by omega)
    simp only [chars, quote_append, List.append_assoc, List.cons_append] at hread ⊢
    exact value?_object hread

end ReadsBack

/-- By induction on the value: what is in a container is read back already. -/
theorem readsBack (x : Json) : x.ReadsBack := by
  cases x with
  | null | unreadable => exact .of_succ fun _ _ _ _ => rfl
  | bool b => exact .of_succ fun _ _ _ _ => by cases b <;> rfl
  | natural n => exact .of_succ fun _ _ _ hcs => value?_natural hcs
  | decimal negative n e => exact .of_succ fun _ _ _ hcs => value?_decimal negative e hcs
  | string s => exact .of_succ fun _ _ _ _ => value?_string s
  | array xs => exact .array fun x hx => readsBack x
  | object ms => exact .object fun (k, x) hx => readsBack x
termination_by x
decreasing_by
  all_goals
    have := List.sizeOf_lt_of_mem hx
    simp_all
    omega

theorem ofText?_compact (x : Json) : ofText? x.compact = some x := by
  have hread := x.readsBack [] (2 * x.chars.length + 2) (by omega) nofun
  rw [List.append_nil] at hread
  unfold ofText? ofChars? compact
  rw [String.toList_ofList, hread]
  rfl

end CoEdit.Json
