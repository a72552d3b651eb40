import Mathlib.Data.List.GetD
import Mathlib.Data.UInt

/-!
# Byte views and failing reads

`search.js` reads its index through JavaScript `DataView`s: one over the whole buffer in
`Search.init`, and two windows of that buffer, `Search.trie` and `Search.map`, for everything
else. A view is modelled by the list of the bytes it can read. A read past the end of a view
throws a `RangeError` in JavaScript and returns `.error .rangeError` here; every multi-byte read
of the source is little-endian.

Besides the failing readers `getUint8`, `getUint16` and `getUint32` of the source, the module
defines total readers `byte`, `u16` and `u32`, which specifications use, and shows that the two
agree inside the view (`getUint8_of_lt`, `getUint16_of_le`, `getUint32_of_le`). A view that
holds the bytes of another on a range reads what the other holds there (`getUint8_of_agree` and
its wider forms). That a function reads no byte outside a range is stated through it: the
function returns the same on every view that agrees with the given one on the range.
-/

set_option autoImplicit false

namespace DocSearch

/-- Why a run of the search code ends without a value: a `DataView` read or construction out of
range (a JavaScript `RangeError`), a `DataView` over no buffer (a `TypeError`), or the fuel of a
loop or of a recursion spent. -/
inductive Error where
  | rangeError
  | typeError
  | outOfFuel
  deriving DecidableEq, Repr

/-- A JavaScript `DataView`, as the bytes it can read. -/
structure DataView where
  bytes : List UInt8
  deriving DecidableEq, Repr

/-! ## Running `Except` code -/

section Except

variable {ε α β : Type} (a : α) (e : ε) (f : α → Except ε β) (g : α → β)

@[simp] theorem ok_bind : (Except.ok a >>= f) = f a := rfl

@[simp] theorem error_bind : (Except.error e >>= f) = Except.error e := rfl

@[simp] theorem map_ok : g <$> (Except.ok a : Except ε α) = Except.ok (g a) := rfl

@[simp] theorem map_error : g <$> (Except.error e : Except ε α) = Except.error e := rfl

@[simp] theorem pure_eq_ok : (pure a : Except ε α) = Except.ok a := rfl

/-- A bind that succeeds ran both of its parts successfully. -/
theorem bind_eq_ok {x : Except ε α} {k : α → Except ε β} {b : β} (h : (x >>= k) = .ok b) :
    ∃ a, x = .ok a ∧ k a = .ok b := by
  cases x with
  | error e => cases h
  | ok a => exact ⟨a, rfl, h⟩

end Except

namespace DataView

/-- `byteLength` of a view. -/
def byteLength (v : DataView) : Nat := v.bytes.length

/-- `new DataView(buffer, byteOffset, byteLength)`: a `RangeError` when the offset lies past the
buffer, when the length is negative, or when the window overruns the buffer. -/
def ofBuffer (buffer : List UInt8) (byteOffset : Nat) (byteLength : Int) : Except Error DataView :=
  if buffer.length < byteOffset ∨ byteLength < 0 ∨ buffer.length < byteOffset + byteLength.toNat
  then .error .rangeError
  else .ok ⟨(buffer.drop byteOffset).take byteLength.toNat⟩

/-- `new DataView(buffer, byteOffset)`: the buffer from `byteOffset` on. -/
def ofBufferFrom (buffer : List UInt8) (byteOffset : Nat) : Except Error DataView :=
  if buffer.length < byteOffset then .error .rangeError else .ok ⟨buffer.drop byteOffset⟩

/-- `getUint8(i)`: the byte at `i`, or a `RangeError` past the end. -/
def getUint8 (v : DataView) (i : Nat) : Except Error Nat :=
  match v.bytes[i]? with
  | some b => .ok b.toNat
  | none => .error .rangeError

/-- `getUint16(i, true)`. -/
def getUint16 (v : DataView) (i : Nat) : Except Error Nat := do
  let b0 ← v.getUint8 i
  let b1 ← v.getUint8 (i + 1)
  pure (b0 + 256 * b1)

/-- `getUint32(i, true)`. -/
def getUint32 (v : DataView) (i : Nat) : Except Error Nat := do
  let lo ← v.getUint16 i
  let hi ← v.getUint16 (i + 2)
  pure (lo + 65536 * hi)

/-- The byte at `i`, read as zero past the end of the view. -/
def byte (v : DataView) (i : Nat) : Nat := (v.bytes.getD i 0).toNat

/-- The little-endian 16-bit word at `i`, read with `byte`. -/
def u16 (v : DataView) (i : Nat) : Nat := v.byte i + 256 * v.byte (i + 1)

/-- The little-endian 32-bit word at `i`, read with `byte`. -/
def u32 (v : DataView) (i : Nat) : Nat := v.u16 i + 65536 * v.u16 (i + 2)

variable {v : DataView} {i : Nat}

theorem byte_lt (v : DataView) (i : Nat) : v.byte i < 256 := UInt8.toNat_lt_size _

theorem u16_lt (v : DataView) (i : Nat) : v.u16 i < 65536 := by
  have := v.byte_lt i
  have := v.byte_lt (i + 1)
  unfold u16
  omega

@[simp] theorem getUint8_of_lt (h : i < v.byteLength) : v.getUint8 i = .ok (v.byte i) := by
  have hb : v.bytes[i]? = some (v.bytes.getD i 0) := by
    rw [List.getD_eq_getElem _ _ h, List.getElem?_eq_getElem h]
  rw [getUint8, hb]
  rfl

@[simp] theorem getUint8_of_le (h : v.byteLength ≤ i) : v.getUint8 i = .error .rangeError := by
  simp [getUint8, List.getElem?_eq_none h]

@[simp] theorem getUint16_of_le (h : i + 2 ≤ v.byteLength) : v.getUint16 i = .ok (v.u16 i) := by
  simp only [getUint16, getUint8_of_lt (show i < v.byteLength by omega),
    getUint8_of_lt (show i + 1 < v.byteLength by omega)]
  rfl

@[simp] theorem getUint32_of_le (h : i + 4 ≤ v.byteLength) : v.getUint32 i = .ok (v.u32 i) := by
  simp only [getUint32, getUint16_of_le (show i + 2 ≤ v.byteLength by omega),
    getUint16_of_le (show i + 2 + 2 ≤ v.byteLength by omega)]
  rfl

theorem getUint16_of_lt (h : v.byteLength < i + 2) : v.getUint16 i = .error .rangeError := by
  unfold getUint16
  by_cases h0 : i < v.byteLength
  · rw [getUint8_of_lt h0, getUint8_of_le (by omega)]; rfl
  · rw [getUint8_of_le (by omega)]; rfl

theorem getUint32_of_lt (h : v.byteLength < i + 4) : v.getUint32 i = .error .rangeError := by
  unfold getUint32
  by_cases h0 : i + 2 ≤ v.byteLength
  · rw [getUint16_of_le h0, getUint16_of_lt (by omega)]; rfl
  · rw [getUint16_of_lt (by omega)]; rfl

/-- A read that succeeds read inside the view: it gives the byte there. -/
theorem byte_of_getUint8 {x : Nat} (h : v.getUint8 i = .ok x) : v.byte i = x := by
  by_cases hi : i < v.byteLength
  · rw [getUint8_of_lt hi] at h
    exact Except.ok.inj h
  · rw [getUint8_of_le (by omega)] at h
    cases h

theorem u16_of_getUint16 {x : Nat} (h : v.getUint16 i = .ok x) : v.u16 i = x := by
  by_cases hi : i + 2 ≤ v.byteLength
  · rw [getUint16_of_le hi] at h
    exact Except.ok.inj h
  · rw [getUint16_of_lt (by omega)] at h
    cases h

theorem u32_of_getUint32 {x : Nat} (h : v.getUint32 i = .ok x) : v.u32 i = x := by
  by_cases hi : i + 4 ≤ v.byteLength
  · rw [getUint32_of_le hi] at h
    exact Except.ok.inj h
  · rw [getUint32_of_lt (by omega)] at h
    cases h

/-! ## Reads of a view that agrees with another on a range -/

section Agree

variable {w : DataView}

/-- A view that holds the byte of `v` at `i`, inside `v`, reads that byte there. -/
theorem getUint8_of_agree (h : w.bytes[i]? = v.bytes[i]?) (hi : i < v.byteLength) :
    w.getUint8 i = .ok (v.byte i) := by
  rw [← getUint8_of_lt hi]
  simp [getUint8, h]

theorem getUint16_of_agree (h : ∀ k, i ≤ k → k < i + 2 → w.bytes[k]? = v.bytes[k]?)
    (hi : i + 2 ≤ v.byteLength) : w.getUint16 i = .ok (v.u16 i) := by
  simp only [getUint16, getUint8_of_agree (h i le_rfl (by omega)) (by omega),
    getUint8_of_agree (h (i + 1) (by omega) (by omega)) (by omega)]
  rfl

theorem getUint32_of_agree (h : ∀ k, i ≤ k → k < i + 4 → w.bytes[k]? = v.bytes[k]?)
    (hi : i + 4 ≤ v.byteLength) : w.getUint32 i = .ok (v.u32 i) := by
  simp only [getUint32, getUint16_of_agree (fun k h1 h2 => h k h1 (by omega)) (by omega),
    getUint16_of_agree (i := i + 2) (fun k h1 h2 => h k (by omega) (by omega)) (by omega)]
  rfl

end Agree

end DataView

end DocSearch
