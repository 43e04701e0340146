import OpendalIndexeddb.Model.Access
/-!
# The other crates, concretely

One instance of each parameter of the model, to evaluate it at concrete
inputs: the path functions and the hierarchy lister of OpenDAL, the range
of its timestamps, and BLAKE3 as a table of the contents used.
-/

namespace OpendalIndexeddb

def referenceAbsPath (root path : Str) : Str :=
  if path = ['/'] then root.tail else root.tail ++ path

def referenceRelPath (root path : Str) : Str :=
  if path.head? = some '/' then path.drop root.length else path.drop (root.length - 1)

def referenceFold (m : Metadata) : Metadata := { m with mode := .dir }

def referenceHierarchy (path : Str) (recursive : Bool) (es : List Entry) : List Entry :=
  if recursive then es
  else firstsFrom Entry.path [] ((es.filter fun e => listBase path <+: e.path).map
    (foldEntry referenceFold (listBase path)))

def referenceOpendal : Opendal where
  buildAbsPath := referenceAbsPath
  buildRelPath := referenceRelPath
  hierarchy := referenceHierarchy
  foldMetadata := referenceFold
  abs_root _ := rfl
  abs_path root path h := by
    have hne : path ≠ ['/'] := by rintro rfl; exact h rfl
    rw [referenceAbsPath, if_neg hne]
  rel_path root path h := by
    have hhead : (root.text.tail ++ path).head? ≠ some '/' := by
      cases htail : root.text.tail with
      | nil => exact h
      | cons a tail =>
        rintro heq
        simp only [List.cons_append, List.head?_cons, Option.some_inj] at heq
        have htext : root.text = '/' :: '/' :: tail := by
          rw [List.eq_cons_of_mem_head? (Option.mem_def.2 root.starts), htail, heq]
        exact root.normal (htext ▸ List.IsPrefix.isInfix ⟨tail, rfl⟩)
    have hlen : root.text.length - 1 = root.text.tail.length := List.length_tail.symm
    rw [referenceRelPath, if_neg hhead, hlen, List.drop_left]
  hierarchy_recursive _ _ := rfl
  hierarchy_fold path es h := by
    have hall : es.filter (fun e => listBase path <+: e.path) = es :=
      List.filter_eq_self.2 fun e he => by simpa using h e he
    rw [referenceHierarchy, if_neg (by simp), hall]

/-- The digests of the contents used in examples. -/
def referenceBlake3Hex (bytes : Bytes) : Str :=
  if bytes = [] then "af1349b9f5f9a1a6a0404dea36dcc9499bcb25c9adc112b7cc9a93cae41f3262".toList
  else if bytes = [0] then
    "2d3adedff11b61f14c886e35afa036736dcd87a74d27b5c1510225d0f592e213".toList
  else if bytes = [0, 1] then
    "7b7015bb92cf0b318037702a6cdd81dee41224f734684c2c122cd6359cb1ee63".toList
  else []

def referencePlatform : Platform where
  blake3Hex := referenceBlake3Hex
  fromMillisecond ms :=
    if -377705023201000 ≤ ms ∧ ms ≤ 253402207200000 then some (ms * 1000000) else none
  fromPath path := if path.getLast? = some '/' then .dir else .file

end OpendalIndexeddb
