/-!
# Plain-text documents

A document is a sequence of characters. An edit inserts or deletes one character at a position or
changes nothing; an edit past the end fails.
-/

namespace CoEdit

inductive Edit where
  | insert (pos : Nat) (ch : Char)
  | delete (pos : Nat)
  | noop
deriving DecidableEq, Repr

/-- An edit that a document of `len` characters has no place for. -/
inductive DocError where
  | insertOutOfBounds (pos len : Nat)
  | deleteOutOfBounds (pos len : Nat)
deriving DecidableEq, Repr

def DocError.message : DocError → String
  | insertOutOfBounds pos len => s!"insert at {pos} is past the end of a {len}-character document"
  | deleteOutOfBounds pos len => s!"delete at {pos} is past the end of a {len}-character document"

@[ext] structure Doc where
  chars : List Char := []
deriving DecidableEq, Repr

namespace Doc

def ofText (s : String) : Doc := ⟨s.toList⟩

def text (d : Doc) : String := String.ofList d.chars

def length (d : Doc) : Nat := d.chars.length

def apply (d : Doc) : Edit → Except DocError Doc
  | .insert pos ch =>
    if pos ≤ d.length then .ok ⟨d.chars.insertIdx pos ch⟩
    else .error (.insertOutOfBounds pos d.length)
  | .delete pos =>
    if pos < d.length then .ok ⟨d.chars.eraseIdx pos⟩
    else .error (.deleteOutOfBounds pos d.length)
  | .noop => .ok d

/-- Applies edits one after another, up to the first that fails. -/
def applyAll (d : Doc) (edits : List Edit) : Except DocError Doc := edits.foldlM apply d

@[simp] theorem applyAll_nil (d : Doc) : d.applyAll [] = .ok d := rfl

theorem applyAll_cons (d : Doc) (e : Edit) (es : List Edit) :
    d.applyAll (e :: es) = d.apply e >>= (applyAll · es) := rfl

end Doc

end CoEdit
