import OpendalIndexeddb.Model.Meta
/-!
# Prefixes as key ranges

`backend/connection.rs`, the part that turns paths into ranges of keys:
the end of a prefix's range and the removal of everything under a
prefix.
-/

namespace OpendalIndexeddb

/-- `prefix_upper_bound` on the bytes in reverse: drop bytes from the end
until one can be incremented, and increment it. -/
def upperBoundOfReversed : List UInt8 → Option Str
  | [] => none
  | byte :: rest =>
    if byte ≠ 255 then fromUtf8 ((byte + 1) :: rest).reverse
    else upperBoundOfReversed rest

/-- The end of the range of the keys that begin with `path`, when the
incremented bytes are a string. -/
def prefixUpperBound (path : Str) : Option Str := upperBoundOfReversed (utf8 path).reverse

structure RecursiveDeleteTarget where
  exactKey : Option Str
  keyPrefix : Str
deriving DecidableEq

def recursiveDeleteTarget (path : Str) : RecursiveDeleteTarget :=
  if path = [] then ⟨none, []⟩
  else if path.getLast? = some '/' then ⟨none, path⟩
  else ⟨some path, path ++ ['/']⟩

/-- The half-open range `lower..upper` of string keys. -/
def textRange (lower upper : Str) : KeyRange Key :=
  ⟨.included (.text lower), .excluded (.text upper)⟩

/-- Removes a key from both stores. -/
def deleteKey (s : Stores) (key : Str) : Stores :=
  ⟨s.store.delete (.text key), s.metaStore.delete (.text key)⟩

/-- The cursor loop of `delete_prefix_by_cursor`, over the keys the
cursor visits. -/
def deleteVisited (keyPrefix : Str) : List Key → Stores → Stores
  | [], s => s
  | key :: rest, s =>
    match key.asString with
    | some k => if keyPrefix <+: k then deleteVisited keyPrefix rest (deleteKey s k) else s
    -- a key of another type is passed over
    | none => deleteVisited keyPrefix rest s

def deletePrefixByCursor (s : Stores) (keyPrefix : Str) : Stores :=
  deleteVisited keyPrefix
    (s.store.keys.filter (KeyRange.mk (.included (.text keyPrefix)) .unbounded).contains) s

/-- Removes every key that begins with `keyPrefix` from both stores. -/
def deletePrefix (s : Stores) (keyPrefix : Str) : Stores :=
  if keyPrefix = [] then ⟨.empty, .empty⟩
  else match prefixUpperBound keyPrefix with
    | some upper =>
      ⟨s.store.deleteRange (textRange keyPrefix upper),
        s.metaStore.deleteRange (textRange keyPrefix upper)⟩
    | none => deletePrefixByCursor s keyPrefix

end OpendalIndexeddb
