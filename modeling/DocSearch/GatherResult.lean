import DocSearch.DataView

/-!
# `Search.gatherResult`: resolving one result record

The result map is an array of 4-byte entries followed by the records they point to. Entry `i`
holds a 24-bit record offset and a flags byte; entries `i` and `i + 1` bound record `i`. A record
is, in order: a 2-byte alias index when the kind nibble of the flags is zero; a 2-byte prefix
index and a 1-byte URL cap when bit 3 is set; a 1-byte suffix length when bit 0 is set; a
NUL-terminated name; the URL up to the end of the record.

`gatherResult` resolves a prefix recursively with the cap clamped to its own `maxUrlPrefix`, and
at top level (`maxUrlPrefix = 0xffffff`) it replaces the URL and flags of an alias by those of the
aliased record. The format does not rule out a cycle of prefix or alias links; the JavaScript
recursion then ends with a stack overflow. The model bounds the recursion depth by `fuel` and
returns `.error .outOfFuel` when it is spent. The three header blocks of the source, each under
its comment, are `parseAlias`, `parsePrefix` and `parseSuffix`; `parsePrefix` takes the
recursive call as its first argument. The two byte loops of the source read from a position `j`
on; they take the view from `j` on as their first argument and recurse on it.
-/

set_option autoImplicit false

namespace DocSearch

/-- The object `gatherResult` returns. `aliasOf` is its `alias` field, present only for an alias
resolved at top level. Names and URLs stay UTF-8 bytes, as in the source. -/
structure MatchRecord where
  name : List UInt8
  aliasOf : Option (List UInt8)
  url : List UInt8
  flags : Nat
  suffixLength : Nat
  deriving DecidableEq, Repr

/-- The name loop `for(; j != nextResultOffset; ++j)`: the bytes from `j` up to the first NUL or
to `nextResultOffset`, and the position after them (past the NUL, when there is one). `rest` is
the map from `j` on. -/
def extractName : List UInt8 → Nat → Nat → Except Error (List UInt8 × Nat)
  | rest, j, nextResultOffset =>
    if j = nextResultOffset then .ok ([], j) else
    match rest with
    | [] => .error .rangeError
    | c :: rest =>
      if c = 0 then .ok ([], j + 1)
      else (fun r => (c :: r.1, r.2)) <$> extractName rest (j + 1) nextResultOffset

/-- The URL loop `for(; j != max; ++j)`. `max` is a JavaScript number and may lie below `j`; the
loop then runs to the end of the map and throws there. -/
def extractUrl : List UInt8 → Nat → Int → Except Error (List UInt8)
  | rest, j, max =>
    if (j : Int) = max then .ok [] else
    match rest with
    | [] => .error .rangeError
    | c :: rest => (c :: ·) <$> extractUrl rest (j + 1) max

section Loops

variable (rest : List UInt8) (c : UInt8) (j : Nat)

@[simp] theorem extractName_self : extractName rest j j = .ok ([], j) := by
  unfold extractName; simp

theorem extractName_cons {nextResultOffset : Nat} (h : j ≠ nextResultOffset) :
    extractName (c :: rest) j nextResultOffset = if c = 0 then .ok ([], j + 1)
      else (fun r => (c :: r.1, r.2)) <$> extractName rest (j + 1) nextResultOffset := by
  rw [extractName, if_neg h]

@[simp] theorem extractUrl_self : extractUrl rest j j = .ok [] := by
  unfold extractUrl; simp

theorem extractUrl_cons {max : Int} (h : (j : Int) ≠ max) :
    extractUrl (c :: rest) j max = (c :: ·) <$> extractUrl rest (j + 1) max := by
  rw [extractUrl, if_neg h]

end Loops

/-- The block "The result is an alias, parse the aliased prefix": the alias index, when the kind
nibble of the flags is zero, and the offset past it. -/
def parseAlias (map : DataView) (flags resultOffset : Nat) : Except Error (Option Nat × Nat) :=
  if flags &&& 0xf0 = 0x00 then do
    let aliasedIndex ← map.getUint16 resultOffset
    pure (some aliasedIndex, resultOffset + 2)
  else pure (none, resultOffset)

/-- The block "The result has a prefix, parse that first, recursively": the name and URL that
`gather` resolves the prefix to, under the cap clamped to `maxUrlPrefix`, and the offset past the
prefix fields. -/
def parsePrefix (gather : Nat → Nat → Nat → Except Error MatchRecord) (map : DataView)
    (flags resultOffset maxUrlPrefix : Nat) : Except Error (List UInt8 × List UInt8 × Nat) :=
  if flags &&& (1 <<< 3) ≠ 0 then do
    let prefixIndex ← map.getUint16 resultOffset
    let prefixUrlPrefixLength := min (← map.getUint8 (resultOffset + 2)) maxUrlPrefix
    let pre ← gather prefixIndex 0 prefixUrlPrefixLength
    pure (pre.name, pre.url, resultOffset + 3)
  else pure ([], [], resultOffset)

/-- The block "The result has a suffix, extract its length". -/
def parseSuffix (map : DataView) (flags resultOffset : Nat) : Except Error (Nat × Nat) :=
  if flags &&& (1 <<< 0) ≠ 0 then do
    let resultSuffixLength ← map.getUint8 resultOffset
    pure (resultSuffixLength, resultOffset + 1)
  else pure (0, resultOffset)

/-- `gatherResult(index, suffixLength, maxUrlPrefix)` over the result map `map`, with at most
`fuel` nested calls. -/
def gatherResult : Nat → DataView → Nat → Nat → Nat → Except Error MatchRecord
  | 0, _, _, _, _ => .error .outOfFuel
  | fuel + 1, map, index, suffixLength, maxUrlPrefix => do
    let flags ← map.getUint8 (index * 4 + 3)
    let resultOffset := (← map.getUint32 (index * 4)) &&& 0x00ffffff
    let (aliasedIndex, resultOffset) ← parseAlias map flags resultOffset
    let (name, url, resultOffset) ←
      parsePrefix (gatherResult fuel map) map flags resultOffset maxUrlPrefix
    let (resultSuffixLength, resultOffset) ← parseSuffix map flags resultOffset
    let nextResultOffset := (← map.getUint32 ((index + 1) * 4)) &&& 0x00ffffff
    let (ownName, j) ← extractName (map.bytes.drop resultOffset) resultOffset nextResultOffset
    let name := name ++ ownName
    -- The result is an alias and we're not deep inside resolving a prefix
    if aliasedIndex ≠ none ∧ maxUrlPrefix = 0xffffff then do
      let aliased ← gatherResult fuel map (aliasedIndex.getD 0) 0 0xffffff
      pure { name, aliasOf := some aliased.name, url := aliased.url, flags := aliased.flags,
             suffixLength := suffixLength + resultSuffixLength }
    else do
      -- Otherwise extract URL from here
      let max : Int := min ((j : Int) + maxUrlPrefix - url.length) nextResultOffset
      let ownUrl ← extractUrl (map.bytes.drop j) j max
      pure { name, aliasOf := none, url := url ++ ownUrl, flags,
             suffixLength := suffixLength + resultSuffixLength }

namespace ResultMap

/-- A result map of three records: `Foo` at `foo.html`; `::Bar` under the prefix `Foo` with
URL cap 8 and URL `#bar`; and `Baz`, an alias of `Foo::Bar` with suffix length 2. -/
def prefixAliasMap : DataView :=
  ⟨[16, 0, 0, 0x10, 28, 0, 0, 0x18, 41, 0, 0, 0x01, 47, 0, 0, 0,
    70, 111, 111, 0, 102, 111, 111, 46, 104, 116, 109, 108,
    0, 0, 8, 58, 58, 66, 97, 114, 0, 35, 98, 97, 114,
    1, 0, 2, 66, 97, 122]⟩

end ResultMap

end DocSearch
