import CoEdit.Transform

/-!
# Marked texts

A transformer that shows what was transformed and how often: operations are texts, and each
transform adds a mark to each of them. A text may ask to be dropped, to be split in two, or to make
the whole transform fail.
-/

namespace CoEdit.Marked

def mark (op : String) : List String :=
  if op.startsWith "~drop" then []
  else if op.startsWith "~split" then [op ++ "1", op ++ "2"]
  else [op ++ "'"]

/-- Marks both lists; a text `!reject` in either makes it fail. -/
def transform : Transformer String := fun client server =>
  if (client ++ server).contains "!reject" then .error (.rejected ⟨"rejected"⟩)
  else .ok ⟨client.flatMap mark, server.flatMap mark⟩

end CoEdit.Marked
