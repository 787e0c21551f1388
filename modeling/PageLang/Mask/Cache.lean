import PageLang.Mask.Basic
import PageLang.MaskedText.Basic
import PageLang.Text.Digest

/-!
# Masks computed once

A cache keeps the mask of every text asked for, under the grammar, the digest and the length of
the text. An entry is never changed and never dropped, so its position in the cache identifies the
mask that later requests share.
-/

namespace PageLang.Mask

/-- What a mask is kept under. -/
structure CacheKey where
  mode : Mode
  digest : Text
  length : Nat
  deriving DecidableEq

/-- The key of a text. -/
def CacheKey.ofText (mode : Mode) (t : Text) : CacheKey := ⟨mode, t.digest, t.length⟩

/-- The masks kept so far, the oldest first. -/
structure Cache where
  entries : List (CacheKey × List Bool)

namespace Cache

/-- The cache that holds nothing. -/
def empty : Cache := ⟨[]⟩
/-- The number of masks kept. -/
def size (c : Cache) : Nat := c.entries.length
/-- The mask kept at a position. -/
def mask? (c : Cache) (slot : Nat) : Option (List Bool) := (c.entries[slot]?).map (·.2)

/-- The cache once the mask of `t` is kept, and the position of that mask. -/
def request (c : Cache) (mode : Mode) (t : Text) : Nat × Cache :=
  let key := CacheKey.ofText mode t
  match c.entries.findIdx? (fun e => e.1 = key) with
  | some slot => (slot, c)
  | none => (c.entries.length, ⟨c.entries ++ [(key, ofText mode t)]⟩)

end Cache

end PageLang.Mask
