import DocSearch.Search
import DocSearch.Base85

/-!
# What `init` leaves behind

`Search.init` checks the length, the signature and the version of the header before it writes
anything, and returns `false` on a failed check with the state untouched. The map offset is not
checked: `new DataView` throws on an offset below 10 or past the buffer, still before any write,
but an offset in `[10, 14)` gives a trie view too short for the root offset. The read of the
root then throws after `trie`, `map`, `dataSize`, `symbolCount`, `maxResults` and `searchString`
have been replaced, while `searchStack` keeps the offsets into the old trie. The comment on
`searchStack` in the source says that it always holds the root offset and one node offset per
entered character; the state such an `init` leaves breaks that (`init_throw_overwrites`, in
`Session`).

`init_cases` lists everything `init` can do, each case with the checks that select it and the
state it leaves. The block of `init` that runs only in a page (search.js lines 72 to 84) is left
out: it shows the symbol count, enables the search input, and runs `search` on a value already
typed into the input, for example after going back in the browser. The model is `init` as it
runs where `document` is undefined.

`load` decodes a base85 string and runs `init` on the bytes. On the encoding of an index it is
`init` on the index (`load_enc85`); on a string whose length is no multiple of five, `init`
receives `undefined` and throws a `TypeError` before it writes anything (`load_of_length`).
-/

set_option autoImplicit false

namespace DocSearch

namespace Search

/-- The header's map offset, `getUint32(6, true)`. -/
def mapOffset (buffer : List UInt8) : Nat := (⟨buffer⟩ : DataView).u32 6

/-- The checks `init` makes before it writes anything: length, signature `MCS`, version 0. -/
def HeaderOk (buffer : List UInt8) : Prop :=
  20 ≤ buffer.length ∧ (⟨buffer⟩ : DataView).byte 0 = 77 ∧ (⟨buffer⟩ : DataView).byte 1 = 67 ∧
    (⟨buffer⟩ : DataView).byte 2 = 83 ∧ (⟨buffer⟩ : DataView).byte 3 = 0

/-- The state with the fields `init` writes before it reads the root offset replaced. -/
def loaded (s : Search) (buffer : List UInt8) (maxResults : Nat) : Search :=
  { s with
    trie := ⟨(buffer.drop 10).take (mapOffset buffer - 10)⟩
    map := ⟨buffer.drop (mapOffset buffer)⟩
    dataSize := buffer.length
    symbolCount := (⟨buffer⟩ : DataView).u16 4
    maxResults := if maxResults = 0 then 100 else maxResults
    searchString := [] }

/-- The fresh session over a loaded index: the empty query and the root offset alone. -/
def fresh (s : Search) : Search :=
  { s with searchString := [], searchStack := [s.trie.u32 0], searchStack_ne_nil := by simp }

variable (s : Search) (buffer : List UInt8) (k : Nat)

theorem init_of_not_headerOk (h : ¬ HeaderOk buffer) : init s buffer k = (.ok false, s) := by
  simp only [HeaderOk, not_and_or, not_le] at h
  unfold init
  by_cases h20 : buffer.length < 20
  · simp [DataView.byteLength, h20]
  · simp only [DataView.byteLength, if_neg h20]
    rcases h with h | h | h | h | h
    · exact absurd h h20
    all_goals simp [h]

section Header

variable {s buffer k} (hh : HeaderOk buffer)
include hh

/-- Past the header checks, `init` is its map-offset part. -/
theorem init_of_headerOk : init s buffer k =
    match DataView.ofBuffer buffer 10 ((mapOffset buffer : Int) - 10) with
    | .error e => (.error e, s)
    | .ok trie =>
      match DataView.ofBufferFrom buffer (mapOffset buffer) with
      | .error e => (.error e, { s with trie })
      | .ok map =>
        let s := { s with
          trie, map
          dataSize := buffer.length
          symbolCount := (⟨buffer⟩ : DataView).u16 4
          maxResults := if k = 0 then 100 else k
          searchString := [] }
        match trie.getUint32 0 with
        | .error e => (.error e, s)
        | .ok root =>
          (.ok true, { s with searchStack := [root], searchStack_ne_nil := by simp }) := by
  obtain ⟨h20, h0, h1, h2, h3⟩ := hh
  simp only [init, DataView.byteLength, if_neg (Nat.not_lt.mpr h20), h0, h1, h2, h3, ne_eq,
    not_true_eq_false, or_self, if_false]
  rfl

theorem init_of_mapOffset_outside (h : mapOffset buffer < 10 ∨ buffer.length < mapOffset buffer) :
    init s buffer k = (.error .rangeError, s) := by
  rw [init_of_headerOk hh, DataView.ofBuffer, if_pos (by omega)]

omit hh in
theorem byteLength_loaded_trie (hle : mapOffset buffer ≤ buffer.length) :
    (loaded s buffer k).trie.byteLength = mapOffset buffer - 10 := by
  simp only [loaded, DataView.byteLength, List.length_take, List.length_drop]
  omega

section Inside

variable (h10 : 10 ≤ mapOffset buffer) (hle : mapOffset buffer ≤ buffer.length)
include h10 hle

omit hh in
theorem ofBuffer_trie : DataView.ofBuffer buffer 10 ((mapOffset buffer : Int) - 10) =
    .ok ⟨(buffer.drop 10).take (mapOffset buffer - 10)⟩ := by
  rw [DataView.ofBuffer, if_neg (by omega)]
  congr 3
  omega

theorem init_of_mapOffset_inside : init s buffer k =
    match (loaded s buffer k).trie.getUint32 0 with
    | .error e => (.error e, loaded s buffer k)
    | .ok root => (.ok true, { loaded s buffer k with
        searchStack := [root], searchStack_ne_nil := by simp }) := by
  rw [init_of_headerOk hh, ofBuffer_trie h10 hle, DataView.ofBufferFrom, if_neg (by omega)]
  rfl

theorem init_of_short_trie (h14 : mapOffset buffer < 14) :
    init s buffer k = (.error .rangeError, loaded s buffer k) := by
  rw [init_of_mapOffset_inside hh h10 hle,
    DataView.getUint32_of_lt (by rw [byteLength_loaded_trie hle]; omega)]

theorem init_of_valid (h14 : 14 ≤ mapOffset buffer) :
    init s buffer k = (.ok true, fresh (loaded s buffer k)) := by
  rw [init_of_mapOffset_inside hh h10 hle,
    DataView.getUint32_of_le (by rw [byteLength_loaded_trie hle]; omega)]
  rfl

end Inside

end Header

/-- Everything `init` can do, with the checks that select it: return `false` on a failed header
check, throw on a map offset outside the buffer, throw after writing on a map offset in
`[10, 14)`, or return `true` with the fresh session over the new index. -/
theorem init_cases :
    (¬ HeaderOk buffer ∧ init s buffer k = (.ok false, s)) ∨
    (HeaderOk buffer ∧ (mapOffset buffer < 10 ∨ buffer.length < mapOffset buffer) ∧
      init s buffer k = (.error .rangeError, s)) ∨
    (HeaderOk buffer ∧ 10 ≤ mapOffset buffer ∧ mapOffset buffer < 14 ∧
      init s buffer k = (.error .rangeError, loaded s buffer k)) ∨
    (HeaderOk buffer ∧ 14 ≤ mapOffset buffer ∧ mapOffset buffer ≤ buffer.length ∧
      init s buffer k = (.ok true, fresh (loaded s buffer k))) := by
  by_cases hh : HeaderOk buffer
  · by_cases hout : mapOffset buffer < 10 ∨ buffer.length < mapOffset buffer
    · exact .inr (.inl ⟨hh, hout, init_of_mapOffset_outside hh hout⟩)
    · have h10 : 10 ≤ mapOffset buffer := by omega
      have hle : mapOffset buffer ≤ buffer.length := by omega
      by_cases h14 : mapOffset buffer < 14
      · exact .inr (.inr (.inl ⟨hh, h10, h14, init_of_short_trie hh h10 hle h14⟩))
      · exact .inr (.inr (.inr ⟨hh, by omega, hle, init_of_valid hh h10 hle (by omega)⟩))
  · exact .inl ⟨hh, init_of_not_headerOk s buffer k hh⟩

/-- A successful `init` leaves the fresh session over the loaded index. -/
theorem init_eq_fresh {s s₀ : Search} {buffer : List UInt8} {k : Nat}
    (h : init s buffer k = (.ok true, s₀)) :
    s₀ = fresh (loaded s buffer k) := by
  rcases init_cases s buffer k with ⟨-, h'⟩ | ⟨-, -, h'⟩ | ⟨-, -, -, h'⟩ | ⟨-, -, -, h'⟩ <;>
    rw [h'] at h <;> cases h
  rfl

/-- `init` stores a positive cap: `maxResults`, or 100 in its absence. -/
theorem maxResults_loaded (s : Search) (buffer : List UInt8) (k : Nat) :
    0 < (loaded s buffer k).maxResults := by
  show 0 < if k = 0 then 100 else k
  split <;> omega

/-! ## Loading from base85 -/

/-- `load(base85string)`: `init` on the decoded bytes, with `maxResults` absent. Where
`base85decode` returns `undefined`, the `new DataView(buffer)` of `init` throws. -/
def load (s : Search) (base85string : List UInt16) : Except Error Bool × Search :=
  match base85decode base85string with
  | none => (.error .typeError, s)
  | some buffer => init s buffer 0

/-- **Loading the encoding of an index is `init` on the index.** -/
theorem load_enc85 (h : buffer.length % 4 = 0) : load s (enc85 buffer) = init s buffer 0 := by
  rw [load, base85decode_enc85 buffer h]

/-- Everything `load` can do: throw a `TypeError` with the state untouched where `base85decode`
returns `undefined`, or run `init` on the decoded bytes. -/
theorem load_cases (base85string : List UInt16) :
    (base85decode base85string = none ∧ load s base85string = (.error .typeError, s)) ∨
    ∃ buffer, base85decode base85string = some buffer ∧ load s base85string = init s buffer 0 := by
  cases hd : base85decode base85string with
  | none => exact .inl ⟨rfl, by rw [load, hd]⟩
  | some buffer => exact .inr ⟨buffer, rfl, by rw [load, hd]⟩

theorem load_of_length {base85string : List UInt16} (h : base85string.length % 5 ≠ 0) :
    load s base85string = (.error .typeError, s) := by
  simp [load, base85decode, h]

/-- A state with nothing loaded; `init` replaces every field of it. -/
def blank : Search :=
  { trie := ⟨[]⟩, map := ⟨[]⟩, dataSize := 0, symbolCount := 0, maxResults := 0,
    searchString := [], searchStack := [0], searchStack_ne_nil := by simp }

/-- A 26-byte index: a root with one child under `a`, and an empty result map. -/
def oneChildIndex : List UInt8 :=
  [77, 67, 83, 0, 1, 0, 22, 0, 0, 0, 4, 0, 0, 0, 0, 1, 10, 0, 0, 97, 0, 0, 0, 0, 0, 0]

/-- A header that passes every check, with the map offset 10 and so an empty trie. -/
def emptyTrieBuffer : List UInt8 :=
  [77, 67, 83, 0, 0, 0, 10, 0, 0, 0, 0, 0, 0, 0, 0, 0, 0, 0, 0, 0]

/-- A 73-byte index whose root has the child `a`, a node that holds result 0 twice; the result
map is `ResultMap.prefixAliasMap`. -/
def pairIndex : List UInt8 :=
  [77, 67, 83, 0, 2, 0, 26, 0, 0, 0,
    4, 0, 0, 0, 0, 1, 10, 0, 0, 97, 2, 0, 0, 0, 0, 0] ++ ResultMap.prefixAliasMap.bytes

/-- The session `init` leaves on `pairIndex`, written out. -/
def pairSession : Search :=
  { trie := ⟨[4, 0, 0, 0, 0, 1, 10, 0, 0, 97, 2, 0, 0, 0, 0, 0]⟩, map := ResultMap.prefixAliasMap,
    dataSize := 73, symbolCount := 2, maxResults := 100, searchString := [], searchStack := [4],
    searchStack_ne_nil := by simp }

theorem init_pairIndex : init blank pairIndex 0 = (.ok true, pairSession) := rfl

end Search

end DocSearch
