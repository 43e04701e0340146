import OpendalIndexeddb.Common.Drain
import OpendalIndexeddb.Common.Folding
import OpendalIndexeddb.Model.Scan
/-!
# Listers

`backend/io.rs`: the lister that pulls pages, the page size a limit asks
for, and the outer lister that counts entries. What OpenDAL puts between
the two is a parameter.
-/

namespace OpendalIndexeddb

/-- An `oio::Entry`. -/
structure Entry where
  path : Str
  metadata : Metadata
deriving DecidableEq

/-! ## What OpenDAL provides -/

/-- A root as `normalize_root` returns it: no segment of it is empty. -/
structure Root where
  text : Str
  starts : text.head? = some '/'
  ends : text.getLast? = some '/'
  normal : ¬ ['/', '/'] <:+: text

/-- The root of the whole store. -/
def Root.slash : Root := ⟨['/'], rfl, rfl, by decide⟩

/-- A path below `base` up to its first segment there, with the `/` that
ends the segment when there is one. -/
def childOf (base path : Str) : Str :=
  let rest := path.drop base.length
  if '/' ∈ rest then base ++ rest.takeWhile (· ≠ '/') ++ ['/'] else path

/-- What a listed path is a prefix of entry paths as: the root lists
everything. -/
def listBase (path : Str) : Str := if path = ['/'] then [] else path

/-- An entry as `HierarchyLister` returns it: its first segment below the
listed path. -/
def foldEntry (foldMetadata : Metadata → Metadata) (base : Str) (e : Entry) : Entry :=
  if childOf base e.path = e.path then e else ⟨childOf base e.path, foldMetadata e.metadata⟩

/-- **What the backend takes from OpenDAL**: how absolute and relative
paths are built, and how `HierarchyLister` folds a listing. The adaptor
is lazy; over stores that do not change, what it yields is a function of
what the inner lister yields. -/
structure Opendal where
  buildAbsPath : Str → Str → Str
  buildRelPath : Str → Str → Str
  /-- The sequence `HierarchyLister::new(inner, path, recursive)` yields
  where `inner` yields the given one. -/
  hierarchy : Str → Bool → List Entry → List Entry
  /-- The metadata of a folded directory, from those of its first key. -/
  foldMetadata : Metadata → Metadata
  /-- The root itself is the root without its leading `/`. -/
  abs_root : ∀ root : Root, buildAbsPath root.text ['/'] = root.text.tail
  /-- Any other path is put behind it. -/
  abs_path : ∀ (root : Root) (path : Str), path.head? ≠ some '/' →
    buildAbsPath root.text path = root.text.tail ++ path
  /-- The relative path of a key is the key without the root. -/
  rel_path : ∀ (root : Root) (path : Str), path.head? ≠ some '/' →
    buildRelPath root.text (root.text.tail ++ path) = path
  /-- A recursive listing is passed on. -/
  hierarchy_recursive : ∀ path es, hierarchy path true es = es
  /-- Otherwise each entry below the path becomes its first segment, and
  repeats are dropped. -/
  hierarchy_fold : ∀ path es, (∀ e ∈ es, listBase path <+: e.path) →
    hierarchy path false es =
      firstsFrom Entry.path [] (es.map (foldEntry foldMetadata (listBase path)))

/-! ## The page size -/

/-- How the crate was compiled, which decides what overflow does. -/
inductive Build where
  | debug
  | release
deriving DecidableEq

/-- `x * y` on the 32-bit `usize` of wasm32: a panic in debug builds, a
wrapped result in release builds. -/
def usizeMul (build : Build) (x y : ℕ) : Option ℕ :=
  if x * y < 2 ^ 32 then some (x * y)
  else match build with
    | .debug => none
    | .release => some (x * y % 2 ^ 32)

def defaultPageSize : ℕ := 1024

/-- `list_page_size`; `none` is a panic. -/
def listPageSize (build : Build) : Option UInt32 → Option ℕ
  | some limit => (usizeMul build (max limit.toNat 1) 4).map (min · defaultPageSize)
  | none => some defaultPageSize

/-! ## The listers -/

structure IndexeddbListRequest where
  root : Str
  keyPrefix : Str
  startAfter : Option Str
  skipPrefix : Option Str
  pageSize : ℕ
deriving DecidableEq

structure IndexeddbLister where
  root : Str
  keyPrefix : Str
  startAfter : Option Str
  skipPrefix : Option Str
  pageSize : ℕ
  buffer : List (Str × EntryInfo)
  done : Bool
deriving DecidableEq

variable (O : Opendal) (P : Platform)

/-- The entry a key is listed as. -/
def listedEntry (root : Str) (key : Str) (info : EntryInfo) : Entry :=
  let path := O.buildRelPath root key
  let path := if path = [] then ['/'] else path
  ⟨path, entryMetadata P path info⟩

namespace IndexeddbLister

def new (req : IndexeddbListRequest) : IndexeddbLister :=
  { req with buffer := [], done := false }

/-- The request for the next page. -/
def request (l : IndexeddbLister) : IndexeddbCore.ScanPageRequest :=
  { l with limit := l.pageSize }

/-- The lister with a page read into it. -/
def receive (l : IndexeddbLister) (page : IndexeddbCore.ScanPage) : IndexeddbLister :=
  { l with
    startAfter := page.nextStartAfter
    skipPrefix := page.skipPrefix
    buffer := page.entries
    done := page.done }

/-- The loop of `next`, for at most `fuel` iterations. -/
def nextLoop (s : Stores) : ℕ → IndexeddbLister → Option (Option Entry × IndexeddbLister)
  | 0, _ => none
  | fuel + 1, l =>
    match l.buffer with
    | (key, info) :: buffer => some (some (listedEntry O P l.root key info), { l with buffer })
    | [] =>
      if l.done then some (none, l)
      else match IndexeddbCore.scanPage P l.request s with
        | none => none
        | some page =>
          let l := l.receive page
          -- a page without an entry is the last
          if l.buffer = [] ∧ l.done then some (none, l) else nextLoop s fuel l

/-- `next`: a page that is not the last has an entry, so that the loop
scans at most once and two iterations are enough. -/
def next (s : Stores) (l : IndexeddbLister) : Option (Option Entry × IndexeddbLister) :=
  nextLoop O P s 2 l

end IndexeddbLister

/-- A lister over a sequence that is already there. -/
def yieldNext (es : List Entry) : Option (Option Entry × List Entry) :=
  match es with
  | [] => some (none, [])
  | e :: es => some (some e, es)

structure IndexeddbLimitLister (σ : Type) where
  inner : σ
  limit : Option UInt32
  emitted : ℕ

namespace IndexeddbLimitLister

variable {σ : Type}

def new (inner : σ) (limit : Option UInt32) : IndexeddbLimitLister σ := ⟨inner, limit, 0⟩

def next (innerNext : σ → Option (Option Entry × σ)) (l : IndexeddbLimitLister σ) :
    Option (Option Entry × IndexeddbLimitLister σ) :=
  if l.limit.any (fun limit => limit.toNat ≤ l.emitted) then some (none, l)
  else match innerNext l.inner with
    | some (some entry, inner) => some (some entry, { l with inner, emitted := l.emitted + 1 })
    | some (none, inner) => some (none, { l with inner })
    | none => none

end IndexeddbLimitLister

end OpendalIndexeddb
