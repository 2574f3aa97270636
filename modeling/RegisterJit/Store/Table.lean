import RegisterJit.Text.Bytes

/-!
# Ordered tables

A table maps byte strings to byte strings and is kept in the order of its keys, so that the keys in
a range are a contiguous part of it.

Keys are compared as byte strings. `Proofs.Storage` shows that insertion and deletion keep the order
and what is then found under each key.
-/

namespace RegisterJit

/-- Byte strings under byte strings, in increasing order of the keys. -/
abbrev Table := List (Text × Text)

namespace Table

/-- The value under a key. -/
def find? (t : Table) (key : Text) : Option Text := t.lookup key

/-- Put a value under a key, in place of the one that is there. -/
def insert (key value : Text) : Table → Table
  | [] => [(key, value)]
  | (k, v) :: rest =>
    if Text.bytesLt k key then (k, v) :: insert key value rest
    else if k = key then (key, value) :: rest
    else (key, value) :: (k, v) :: rest

/-- Remove a key. -/
def erase (key : Text) (t : Table) : Table := t.filter fun (k, _) => k ≠ key

/-- The keys from `lower` on and before `upper`, in order. -/
def keysBetween (lower upper : Text) (t : Table) : List Text :=
  (t.map (·.1)).filter fun k => !Text.bytesLt k lower && Text.bytesLt k upper

end Table

end RegisterJit
