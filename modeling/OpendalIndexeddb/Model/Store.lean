import Mathlib.Data.Rat.Floor
import OpendalIndexeddb.Common.Unicode
import OpendalIndexeddb.Common.OrderedStore
/-!
# The two object stores

What IndexedDB keeps for one operator: the data store and the meta
store, both with the key path `k`, ordered by IndexedDB's comparison of
keys. JavaScript values are modelled as far as the crate reads them.
-/

namespace OpendalIndexeddb

/-- A Rust `Vec<u8>` or `Buffer`. -/
abbrev Bytes := List UInt8

/-! ## Numbers -/

/-- A JavaScript number. The finite ones the crate stores are lengths
and times below 2^53, which `f64` represents exactly. -/
inductive Number where
  | nan
  | infinite (negative : Bool)
  | finite (q : ℚ)
deriving DecidableEq

/-- `n as f64`. -/
def Number.ofNat (n : ℕ) : Number := .finite n

/-- `x as u64`: truncated, and saturating at both ends. -/
def Number.asU64 : Number → ℕ
  | .nan => 0
  | .infinite negative => if negative then 0 else 2 ^ 64 - 1
  | .finite q => min ⌊q⌋.toNat (2 ^ 64 - 1)

/-- `x as i64`: truncated towards zero, and saturating at both ends. -/
def Number.asI64 : Number → ℤ
  | .nan => 0
  | .infinite negative => if negative then -2 ^ 63 else 2 ^ 63 - 1
  | .finite q => max (-2 ^ 63) (min (if 0 ≤ q then ⌊q⌋ else ⌈q⌉) (2 ^ 63 - 1))

theorem Number.asU64_ofNat {n : ℕ} (h : n < 2 ^ 64) : (Number.ofNat n).asU64 = n := by
  simp only [asU64, ofNat, Int.floor_natCast, Int.toNat_natCast]
  omega

/-! ## Keys -/

/-- An IndexedDB key. The crate writes strings only; the other types,
which external code can add, are known by where they sort: numbers and
dates below every string, binary and array keys above. -/
inductive Key where
  | below (rank : ℕ)
  | text (s : Str)
  | above (rank : ℕ)
deriving DecidableEq

namespace Key

/-- What IndexedDB compares: the type, then the value, strings by their
UTF-16 code units. -/
def code : Key → List ℕ
  | .below n => [0, n]
  | .text s => 1 :: utf16 s
  | .above n => [2, n]

theorem code_injective : Function.Injective code := by
  intro a b h
  cases a <;> cases b <;> simp [code] at h
  · rw [h]
  · rw [utf16_injective h]
  · rw [h]

instance : LinearOrder Key := LinearOrder.lift' code code_injective

/-- `JsValue::as_string`. -/
def asString : Key → Option Str
  | .text s => some s
  | _ => none

theorem lt_iff_code {a b : Key} : a < b ↔ code a < code b := Iff.rfl

@[simp] theorem text_lt_text {s t : Str} : text s < text t ↔ unitRank s < unitRank t := by
  simp [lt_iff_code, code, utf16_lt_iff]

@[simp] theorem text_le_text {s t : Str} : text s ≤ text t ↔ unitRank s ≤ unitRank t := by
  rw [← not_lt, text_lt_text, not_lt]

theorem text_lt_above (s : Str) (n : ℕ) : text s < above n := by
  simp [lt_iff_code, code, List.cons_lt_cons_iff]

theorem below_lt_text (n : ℕ) (s : Str) : below n < text s := by
  simp [lt_iff_code, code, List.cons_lt_cons_iff]

@[simp] theorem asString_text (s : Str) : (text s).asString = some s := rfl

theorem asString_eq_some_iff {k : Key} {s : Str} : k.asString = some s ↔ k = text s := by
  cases k <;> simp [asString]

end Key

/-! ## Records -/

/-- The `v` field of a data record, as far as `dyn_into::<Uint8Array>`
tells values apart. -/
inductive RecordValue where
  | uint8Array (bytes : Bytes)
  | other
deriving DecidableEq

/-- A value of the data store. -/
structure DataRecord where
  k : Key
  v : RecordValue
deriving DecidableEq

/-- What the crate writes to the data store. -/
structure KeyAndValue where
  k : Str
  v : Bytes

/-- `serde_wasm_bindgen::to_value`. -/
def KeyAndValue.toValue (kv : KeyAndValue) : DataRecord := ⟨.text kv.k, .uint8Array kv.v⟩

/-- A `HashMap<String, String>`, which the crate carries and never looks
into. -/
abbrev UserMetadata := List (Str × Str)

/-- The sidecar kept in the meta store. -/
structure MetaRecord where
  k : Str
  /-- Content length in bytes. -/
  l : Number
  /-- Last modified time in milliseconds since the Unix epoch. -/
  m : Option Number
  /-- ETag, including the surrounding quotes. -/
  e : Option Str
  /-- Content-Type. -/
  ct : Option Str
  um : Option UserMetadata
deriving DecidableEq

/-- A value of the meta store: one that deserializes as a `MetaRecord`,
or any other under its key. -/
inductive MetaValue where
  | sidecar (r : MetaRecord)
  | malformed (k : Key)
deriving DecidableEq

/-- The key path of the meta store. -/
def MetaValue.k : MetaValue → Key
  | .sidecar r => .text r.k
  | .malformed k => k

/-- `serde_wasm_bindgen::from_value::<MetaRecord>(value).ok()`. -/
def MetaValue.decode : MetaValue → Option MetaRecord
  | .sidecar r => some r
  | .malformed _ => none

/-- The data store and the meta store of one operator. -/
@[ext] structure Stores where
  store : OrderedStore Key DataRecord DataRecord.k
  metaStore : OrderedStore Key MetaValue MetaValue.k
deriving DecidableEq

/-- The stores as an upgrade creates them. -/
def Stores.empty : Stores := ⟨.empty, .empty⟩

end OpendalIndexeddb
