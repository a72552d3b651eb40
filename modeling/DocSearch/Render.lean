import Mathlib.Data.List.Infix

/-!
# Cutting a result name for display

`Search.renderResults` shows each result name in three parts: the text before the typed value,
dimmed; the typed value, highlighted; and the suffix the trie added below it. Names and the typed
value are UTF-8 byte strings there, and the cuts are JavaScript `substr` calls at
`name.length - value.length - suffixLength`. `substr` clamps its length to what is left and reads
a negative start from the end of the string.

When the typed value and the suffix fit in the name, the cut loses and repeats nothing: the three
parts spell the name, the middle one is as long as the typed value and the last one as long as
the suffix (`nameParts_lossless`). When they do not fit, the negative cut wraps around to the end
of the name, and text is dropped.
-/

set_option autoImplicit false

namespace DocSearch

/-- JavaScript's `substr(start, length)` on a string of code units: a negative `start` counts from
the end, and the substring stops at the end of the string. `substr(start)` reads to the end, as
`substr(start, s.length)` does. -/
def substr (s : List UInt8) (start length : Int) : List UInt8 :=
  let size : Int := s.length
  let intStart := if start < 0 then max (size + start) 0 else min start size
  let intEnd := min (intStart + min (max length 0) size) size
  (s.drop intStart.toNat).take (intEnd - intStart).toNat

/-- The three parts `renderResults` cuts a result's `name` into, around the typed `value`: the
text before it, the text in its place, and the last `suffixLength` bytes. -/
def nameParts (name value : List UInt8) (suffixLength : Nat) :
    List UInt8 × List UInt8 × List UInt8 :=
  (substr name 0 ((name.length : Int) - value.length - suffixLength),
    substr name ((name.length : Int) - value.length - suffixLength) value.length,
    substr name ((name.length : Int) - suffixLength) name.length)

section Substr

variable (s : List UInt8) {a b : Nat}

/-- A start inside the string is read as it is. -/
theorem substr_start (h : a ≤ s.length) :
    (if (a : Int) < 0 then max ((s.length : Int) + a) 0 else min (a : Int) s.length) = a := by
  split <;> omega

/-- Inside the string, `substr(a, b)` is the `b` bytes from `a` on. -/
theorem substr_of_le (h : a + b ≤ s.length) : substr s a b = (s.drop a).take b := by
  have hend : min ((a : Int) + min (max (b : Int) 0) s.length) s.length = a + b := by omega
  simp only [substr, substr_start s (show a ≤ s.length by omega), hend]
  congr 1
  omega

theorem substr_zero (h : b ≤ s.length) : substr s 0 b = s.take b := by
  simpa using substr_of_le s (a := 0) (by omega)

/-- From a start inside the string, `substr(a)` is everything from `a` on. -/
theorem substr_to_end (h : a ≤ s.length) : substr s a s.length = s.drop a := by
  have hend : min ((a : Int) + min (max (s.length : Int) 0) s.length) s.length = s.length := by
    omega
  simp only [substr, substr_start s h, hend]
  rw [List.take_of_length_le (by rw [List.length_drop]; omega)]
  congr 1

end Substr

/-- **The display cut loses and repeats nothing.** When the typed value and the suffix fit in a
result's name, the three parts `renderResults` shows spell the name, the highlighted one is as
long as the typed value and the last one as long as the suffix. -/
theorem nameParts_lossless {name value : List UInt8} {suffixLength : Nat}
    (h : value.length + suffixLength ≤ name.length) :
    (nameParts name value suffixLength).1 ++ (nameParts name value suffixLength).2.1 ++
        (nameParts name value suffixLength).2.2 = name ∧
      (nameParts name value suffixLength).2.1.length = value.length ∧
      (nameParts name value suffixLength).2.2.length = suffixLength := by
  have hcut : (name.length : Int) - value.length - suffixLength =
      ((name.length - value.length - suffixLength : Nat) : Int) := by omega
  have hsuf : (name.length : Int) - suffixLength = ((name.length - suffixLength : Nat) : Int) := by
    omega
  have hlast : name.length - suffixLength = name.length - value.length - suffixLength + value.length :=
    by omega
  simp only [nameParts, hcut, hsuf, substr_to_end name (Nat.sub_le _ _)]
  rw [substr_zero name (by omega), substr_of_le name (by omega), hlast, ← List.drop_drop]
  refine ⟨by rw [List.append_assoc, List.take_append_drop, List.take_append_drop], ?_, ?_⟩
  · rw [List.length_take, List.length_drop]
    omega
  · simp only [List.length_drop]
    omega

/-- `Foo::Bar` with `bar` typed is dimmed as `Foo::` and highlighted as `Bar`. -/
theorem nameParts_lossless_fooBar :
    [98, 97, 114].length + 0 ≤ [70, 111, 111, 58, 58, 66, 97, 114].length ∧
      (nameParts [70, 111, 111, 58, 58, 66, 97, 114] [98, 97, 114] 0).1 ++
          (nameParts [70, 111, 111, 58, 58, 66, 97, 114] [98, 97, 114] 0).2.1 ++
          (nameParts [70, 111, 111, 58, 58, 66, 97, 114] [98, 97, 114] 0).2.2 =
        [70, 111, 111, 58, 58, 66, 97, 114] ∧
      (nameParts [70, 111, 111, 58, 58, 66, 97, 114] [98, 97, 114] 0).2.1.length = 3 ∧
      (nameParts [70, 111, 111, 58, 58, 66, 97, 114] [98, 97, 114] 0).2.2.length = 0 :=
  ⟨by decide, nameParts_lossless (by decide)⟩

example : nameParts [70, 111, 111, 58, 58, 66, 97, 114] [98, 97, 114] 0 =
    ([70, 111, 111, 58, 58], [66, 97, 114], []) := by decide

/-- A typed value longer than the name wraps the cut around: `ab` with `abc` typed shows only
`b`. -/
example : nameParts [97, 98] [97, 98, 99] 0 = ([], [98], []) := by decide

end DocSearch
