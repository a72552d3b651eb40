import DocSearch.GatherResult
import DocSearch.Acyclic

/-!
# What `gatherResult` resolves a record to

The specification reconstructs a record's name and URL declaratively. `own i` is the name stored
in record `i` after its header, up to the first NUL, and `ownUrl i` the bytes after that NUL. A
record with a prefix `p` and URL cap `b` has the name of `p` followed by its own, and the first
`b` bytes of the URL of `p` followed by its own (`Text`). The code instead passes the cap down the
recursion, clamped to its own `maxUrlPrefix`, and bounds its URL loop by `j + maxUrlPrefix -
url.length`.

`gatherResult_resolves` shows that the two agree on every result map whose records reachable
through prefix and alias links are well formed (`RecordOk`) and whose links form no cycle: for
every suffix length and every cap, enough fuel gives the record `Resolves` describes, and the
result does not change when any byte outside the entries and records of the resolved records
changes (`Footprint`). `Resolves.unique` shows that the description fixes the record.

`RecordOk` asks, beside an ordered record whose header lies inside it, that the record and both
of its entries lie in the map. The condition is needed: `gatherResult_shortMap` is a record whose
end offset lies past the map, and the URL loop throws there instead of returning it.
-/

set_option autoImplicit false

namespace DocSearch

open Relation

namespace ResultMap

variable (map : DataView)

/-! ## The record layout -/

/-- The record offset of entry `i`: the low 24 bits of its word. -/
def offset (i : Nat) : Nat := map.u32 (i * 4) &&& 0x00ffffff

/-- The flags byte of entry `i`. -/
def flags (i : Nat) : Nat := map.byte (i * 4 + 3)

/-- Record `i` is an alias: the kind nibble of its flags is zero. -/
def isAlias (i : Nat) : Bool := flags map i &&& 0xf0 = 0x00

/-- Record `i` inherits a prefix: bit 3 of its flags. -/
def hasPrefix (i : Nat) : Bool := flags map i &&& (1 <<< 3) ≠ 0

/-- Record `i` stores a suffix length: bit 0 of its flags. -/
def hasSuffix (i : Nat) : Bool := flags map i &&& (1 <<< 0) ≠ 0

/-- Where the prefix fields of record `i` start: after its alias index, if it has one. -/
def prefixStart (i : Nat) : Nat := offset map i + if isAlias map i then 2 else 0

/-- Where the suffix length of record `i` is: after its prefix fields, if it has them. -/
def suffixStart (i : Nat) : Nat := prefixStart map i + if hasPrefix map i then 3 else 0

/-- Where the name of record `i` starts: after its header. -/
def nameStart (i : Nat) : Nat := suffixStart map i + if hasSuffix map i then 1 else 0

/-- The alias index of record `i`. -/
def aliasIndex (i : Nat) : Nat := map.u16 (offset map i)

/-- The prefix index of record `i`. -/
def prefixIndex (i : Nat) : Nat := map.u16 (prefixStart map i)

/-- The prefix URL cap of record `i`. -/
def prefixCap (i : Nat) : Nat := map.byte (prefixStart map i + 2)

/-- The suffix length record `i` stores, or zero. -/
def suffixLength (i : Nat) : Nat := if hasSuffix map i then map.byte (suffixStart map i) else 0

/-- The bytes of record `i` after its header, up to the record's end. -/
def body (i : Nat) : List UInt8 := (map.bytes.take (offset map (i + 1))).drop (nameStart map i)

/-- Where a name ends in a body: past its first NUL, or at the end when there is none. -/
def nameEnd : List UInt8 → Nat
  | [] => 0
  | c :: b => if c = 0 then 1 else nameEnd b + 1

/-- The name stored in record `i`. -/
def own (i : Nat) : List UInt8 := (body map i).takeWhile (· ≠ 0)

/-- The URL stored in record `i`: the bytes after the NUL of its name. -/
def ownUrl (i : Nat) : List UInt8 := (body map i).drop (nameEnd (body map i))

/-- The conditions on a record: both of its entries lie in the map, its header lies inside the
record, and the record lies in the map. -/
structure RecordOk (i : Nat) : Prop where
  entries : (i + 1) * 4 + 4 ≤ map.byteLength
  header : nameStart map i ≤ offset map (i + 1)
  inside : offset map (i + 1) ≤ map.byteLength

instance (i : Nat) : Decidable (RecordOk map i) :=
  decidable_of_iff ((i + 1) * 4 + 4 ≤ map.byteLength ∧ nameStart map i ≤ offset map (i + 1) ∧
      offset map (i + 1) ≤ map.byteLength)
    ⟨fun ⟨h1, h2, h3⟩ => ⟨h1, h2, h3⟩, fun ⟨h1, h2, h3⟩ => ⟨h1, h2, h3⟩⟩

/-- Record `i` links to record `j` through its prefix or its alias index. -/
def Link (i j : Nat) : Prop :=
  (hasPrefix map i = true ∧ prefixIndex map i = j) ∨ (isAlias map i = true ∧ aliasIndex map i = j)

/-- The records record `i` links to. -/
def links (i : Nat) : List Nat :=
  (if hasPrefix map i then [prefixIndex map i] else []) ++
    (if isAlias map i then [aliasIndex map i] else [])

/-! ## The specification -/

/-- `Text i name url`: the name and URL the specification gives record `i`, `nameR(i)` and
`urlR(i)`. -/
inductive Text : Nat → List UInt8 → List UInt8 → Prop
  | plain {i : Nat} : hasPrefix map i = false → Text i (own map i) (ownUrl map i)
  | prefixed {i : Nat} {name url : List UInt8} : hasPrefix map i = true →
      Text (prefixIndex map i) name url →
      Text i (name ++ own map i) (url.take (prefixCap map i) ++ ownUrl map i)

/-- `AliasTarget a t`: following alias indices from `a` reaches the first record `t` that is
not an alias. -/
inductive AliasTarget : Nat → Nat → Prop
  | self {i : Nat} : isAlias map i = false → AliasTarget i i
  | step {i t : Nat} : isAlias map i = true → AliasTarget (aliasIndex map i) t → AliasTarget i t

/-- `Resolves i s c r`: `r` is the record the specification gives `gatherResult(i, s, c)`. Below
top level (`c ≠ 0xffffff`), and for a record that is no alias, the record's own name, the first
`c` bytes of its URL and its flags. At top level an alias keeps its name and takes the URL and
flags of the record its alias chain ends at, beside the name of its alias index. -/
inductive Resolves : Nat → Nat → Nat → MatchRecord → Prop
  | direct {i s c : Nat} {name url : List UInt8} : (c ≠ 0xffffff ∨ isAlias map i = false) →
      Text map i name url →
      Resolves i s c ⟨name, none, url.take c, flags map i, s + suffixLength map i⟩
  | aliased {i s t : Nat} {name url aname aurl tname turl : List UInt8} :
      isAlias map i = true → Text map i name url → Text map (aliasIndex map i) aname aurl →
      AliasTarget map (aliasIndex map i) t → Text map t tname turl →
      Resolves i s 0xffffff ⟨name, some aname, turl.take 0xffffff, flags map t,
        s + suffixLength map i⟩

/-- `Resolved top i j`: resolving record `i` (at top level when `top`) resolves record `j`. A
prefix is resolved below top level; an alias index only at top level. -/
inductive Resolved : Bool → Nat → Nat → Prop
  | self (top : Bool) (i : Nat) : Resolved top i i
  | pre {top : Bool} {i j : Nat} : hasPrefix map i = true → Resolved false (prefixIndex map i) j →
      Resolved top i j
  | ali {i j : Nat} : isAlias map i = true → Resolved true (aliasIndex map i) j → Resolved true i j

/-- The bytes of record `j`: its two map entries and the record itself. -/
def RecordBytes (j p : Nat) : Prop :=
  (j * 4 ≤ p ∧ p < j * 4 + 8) ∨ (offset map j ≤ p ∧ p < offset map (j + 1))

/-- The bytes the resolution of `i` may read: those of every record it resolves. -/
def Footprint (top : Bool) (i p : Nat) : Prop := ∃ j, Resolved map top i j ∧ RecordBytes map j p

/-! ## The byte loops on a record -/

theorem nameEnd_le : ∀ b : List UInt8, nameEnd b ≤ b.length
  | [] => le_rfl
  | c :: b => by
    have := nameEnd_le b
    rw [nameEnd]
    split <;> simp [this]

/-- The name loop run to the end of `b` stops past the first NUL, with the bytes before it. -/
theorem extractName_append (rest : List UInt8) :
    ∀ (b : List UInt8) (j : Nat),
      extractName (b ++ rest) j (j + b.length) = .ok (b.takeWhile (· ≠ 0), j + nameEnd b)
  | [], j => by simp [extractName, nameEnd]
  | c :: b, j => by
    rw [List.cons_append, extractName_cons _ _ _ (by simp)]
    by_cases hc : c = 0
    · simp [hc, nameEnd]
    · have ih := extractName_append rest b (j + 1)
      rw [show j + 1 + b.length = j + (c :: b).length by simp; omega] at ih
      rw [if_neg hc, ih, List.takeWhile_cons, nameEnd, if_neg hc]
      simp [hc, Nat.add_assoc, Nat.add_comm 1]

/-- The URL loop bounded by `j + k` takes the first `k` bytes. -/
theorem extractUrl_append (rest : List UInt8) :
    ∀ (u : List UInt8) (j k : Nat), k ≤ u.length →
      extractUrl (u ++ rest) j ((j + k : Nat) : Int) = .ok (u.take k)
  | _, j, 0, _ => by simp [extractUrl]
  | [], _, _ + 1, h => absurd h (by simp)
  | c :: u, j, k + 1, h => by
    have ih := extractUrl_append rest u (j + 1) k (by simpa using h)
    rw [show j + 1 + k = j + (k + 1) by omega] at ih
    rw [List.cons_append, extractUrl_cons _ _ _ (by omega), ih]
    rfl

/-- A list that agrees with `l` on `[a, b)`, inside `l`, holds from `a` on the slice of `l`
followed by its own bytes from `b` on. -/
theorem drop_eq_slice_append {l l' : List UInt8} {a b : Nat} (hab : a ≤ b) (hb : b ≤ l.length)
    (hag : ∀ p, a ≤ p → p < b → l'[p]? = l[p]?) : l'.drop a = (l.take b).drop a ++ l'.drop b := by
  have hlen : ((l.take b).drop a).length = b - a := by simp; omega
  refine List.ext_getElem? fun n => ?_
  rw [List.getElem?_drop]
  by_cases hn : n < b - a
  · rw [List.getElem?_append_left (by omega), List.getElem?_drop,
      List.getElem?_take_of_lt (by omega), hag _ (by omega) (by omega)]
  · rw [List.getElem?_append_right (by omega), List.getElem?_drop, hlen]
    congr 1
    omega

/-! ## The header of a well-formed record -/

section Layout

variable {map} {i : Nat}

theorem offset_def : map.u32 (i * 4) &&& 0x00ffffff = offset map i := rfl

theorem prefixStart_of_isAlias (h : isAlias map i = true) :
    prefixStart map i = offset map i + 2 := by
  simp [prefixStart, h]

theorem prefixStart_of_not_isAlias (h : isAlias map i = false) :
    prefixStart map i = offset map i := by
  simp [prefixStart, h]

theorem suffixStart_of_hasPrefix (h : hasPrefix map i = true) :
    suffixStart map i = prefixStart map i + 3 := by
  simp [suffixStart, h]

theorem suffixStart_of_not_hasPrefix (h : hasPrefix map i = false) :
    suffixStart map i = prefixStart map i := by
  simp [suffixStart, h]

theorem nameStart_of_hasSuffix (h : hasSuffix map i = true) :
    nameStart map i = suffixStart map i + 1 := by
  simp [nameStart, h]

theorem nameStart_of_not_hasSuffix (h : hasSuffix map i = false) :
    nameStart map i = suffixStart map i := by
  simp [nameStart, h]

/-- The positions of a well-formed record, in order. -/
theorem RecordOk.bounds (hok : RecordOk map i) :
    offset map i ≤ prefixStart map i ∧ prefixStart map i ≤ suffixStart map i ∧
      suffixStart map i ≤ nameStart map i ∧ nameStart map i ≤ offset map (i + 1) ∧
      offset map (i + 1) ≤ map.byteLength :=
  ⟨Nat.le_add_right _ _, Nat.le_add_right _ _, Nat.le_add_right _ _, hok.header, hok.inside⟩

theorem length_body (hok : RecordOk map i) :
    (body map i).length = offset map (i + 1) - nameStart map i := by
  have := hok.bounds
  simp only [body, List.length_drop, List.length_take, DataView.byteLength] at *
  omega

end Layout

/-! ## One call on a view that agrees with the map on the record -/

section Reads

variable {map map' : DataView} {i : Nat} (hok : RecordOk map i)
  (hag : ∀ p, RecordBytes map i p → map'.bytes[p]? = map.bytes[p]?)
include hok hag

omit hok in
theorem agree_record :
    ∀ p, offset map i ≤ p → p < offset map (i + 1) → map'.bytes[p]? = map.bytes[p]? :=
  fun p h1 h2 => hag p (.inr ⟨h1, h2⟩)

theorem getUint8_flags : map'.getUint8 (i * 4 + 3) = .ok (flags map i) :=
  DataView.getUint8_of_agree (hag _ (.inl ⟨by omega, by omega⟩)) (by have := hok.entries; omega)

theorem getUint32_entry {k : Nat} (hk : k = i ∨ k = i + 1) :
    map'.getUint32 (k * 4) = .ok (map.u32 (k * 4)) :=
  DataView.getUint32_of_agree (fun p h1 h2 => hag p (.inl ⟨by omega, by omega⟩))
    (by have := hok.entries; omega)

theorem parseAlias_eq : parseAlias map' (flags map i) (offset map i) =
    .ok (if isAlias map i then some (aliasIndex map i) else none, prefixStart map i) := by
  obtain ⟨h1, h2, h3, h4, h5⟩ := hok.bounds
  unfold parseAlias
  cases h : isAlias map i
  · have hc : ¬ flags map i &&& 0xf0 = 0x00 := by simpa [isAlias] using h
    rw [if_neg hc, prefixStart_of_not_isAlias h]
    rfl
  · have hc : flags map i &&& 0xf0 = 0x00 := by simpa [isAlias] using h
    have hs := prefixStart_of_isAlias h
    rw [if_pos hc, DataView.getUint16_of_agree
      (fun k _ _ => agree_record hag k (by omega) (by omega)) (by omega)]
    simp [hs, aliasIndex]

theorem parsePrefix_eq (gather : Nat → Nat → Nat → Except Error MatchRecord) (c : Nat) :
    parsePrefix gather map' (flags map i) (prefixStart map i) c =
      if hasPrefix map i then
        gather (prefixIndex map i) 0 (min (prefixCap map i) c) >>= fun r =>
          .ok (r.name, r.url, suffixStart map i)
      else .ok ([], [], suffixStart map i) := by
  obtain ⟨h1, h2, h3, h4, h5⟩ := hok.bounds
  unfold parsePrefix
  cases h : hasPrefix map i
  · have hc : ¬ flags map i &&& (1 <<< 3) ≠ 0 := by simpa [hasPrefix] using h
    rw [if_neg hc, suffixStart_of_not_hasPrefix h, if_neg (by simp)]
    rfl
  · have hc : flags map i &&& (1 <<< 3) ≠ 0 := by simpa [hasPrefix] using h
    have hs := suffixStart_of_hasPrefix h
    rw [if_pos hc, DataView.getUint16_of_agree
      (fun k _ _ => agree_record hag k (by omega) (by omega)) (by omega),
      DataView.getUint8_of_agree (agree_record hag _ (by omega) (by omega)) (by omega)]
    simp [hs, prefixIndex, prefixCap]

theorem parseSuffix_eq : parseSuffix map' (flags map i) (suffixStart map i) =
    .ok (suffixLength map i, nameStart map i) := by
  obtain ⟨h1, h2, h3, h4, h5⟩ := hok.bounds
  unfold parseSuffix
  cases h : hasSuffix map i
  · have hc : ¬ flags map i &&& (1 <<< 0) ≠ 0 := by simpa [hasSuffix] using h
    rw [if_neg hc, nameStart_of_not_hasSuffix h]
    simp [suffixLength, h]
  · have hc : flags map i &&& (1 <<< 0) ≠ 0 := by simpa [hasSuffix] using h
    have hs := nameStart_of_hasSuffix h
    rw [if_pos hc, DataView.getUint8_of_agree (agree_record hag _ (by omega) (by omega)) (by omega)]
    simp [hs, suffixLength, h]

theorem drop_nameStart :
    map'.bytes.drop (nameStart map i) = body map i ++ map'.bytes.drop (offset map (i + 1)) := by
  obtain ⟨h1, h2, h3, h4, h5⟩ := hok.bounds
  exact drop_eq_slice_append h4 h5 fun p hp hp' => agree_record hag p (by omega) hp'

/-- The name loop reads the record's own name. -/
theorem extractName_record : extractName (map'.bytes.drop (nameStart map i)) (nameStart map i)
    (offset map (i + 1)) = .ok (own map i, nameStart map i + nameEnd (body map i)) := by
  have := hok.bounds
  rw [drop_nameStart hok hag,
    show offset map (i + 1) = nameStart map i + (body map i).length by rw [length_body hok]; omega]
  exact extractName_append _ _ _

/-- The URL loop from the end of the name, bounded by `n` more bytes and by the record's end,
reads the first `n` bytes of the record's own URL. -/
theorem extractUrl_record (n : Nat) :
    extractUrl (map'.bytes.drop (nameStart map i + nameEnd (body map i)))
      (nameStart map i + nameEnd (body map i))
      (min (((nameStart map i + nameEnd (body map i) : Nat) : Int) + n) (offset map (i + 1))) =
      .ok ((ownUrl map i).take n) := by
  have := hok.bounds
  have hb := length_body hok
  have he := nameEnd_le (body map i)
  have hdrop : map'.bytes.drop (nameStart map i + nameEnd (body map i)) =
      ownUrl map i ++ map'.bytes.drop (offset map (i + 1)) := by
    rw [← List.drop_drop, drop_nameStart hok hag, List.drop_append_of_le_length he, ownUrl]
  have hlen :
      (ownUrl map i).length = offset map (i + 1) - nameStart map i - nameEnd (body map i) := by
    simp [ownUrl, hb]
  rw [hdrop, show min (((nameStart map i + nameEnd (body map i) : Nat) : Int) + n)
      (offset map (i + 1)) = ((nameStart map i + nameEnd (body map i) +
        min n (ownUrl map i).length : Nat) : Int) by omega,
    extractUrl_append _ _ _ _ (min_le_right _ _)]
  simp [List.take_eq_take]

/-- **One call, given what the prefix part reads.** The code returns the record's own name after
the prefix's name, and either the alias's resolution at top level or the own URL after the
prefix's URL, cut to the cap. -/
theorem gatherResult_succ (f s c : Nat) {pn pu : List UInt8}
    (hpre : parsePrefix (gatherResult f map') map' (flags map i) (prefixStart map i) c =
      .ok (pn, pu, suffixStart map i)) (hpu : pu.length ≤ c) :
    gatherResult (f + 1) map' i s c =
      if isAlias map i = true ∧ c = 0xffffff then
        gatherResult f map' (aliasIndex map i) 0 0xffffff >>= fun r =>
          .ok ⟨pn ++ own map i, some r.name, r.url, r.flags, s + suffixLength map i⟩
      else .ok ⟨pn ++ own map i, none, pu ++ (ownUrl map i).take (c - pu.length), flags map i,
        s + suffixLength map i⟩ := by
  simp only [gatherResult, getUint8_flags hok hag, getUint32_entry hok hag (Or.inl rfl),
    getUint32_entry hok hag (Or.inr rfl), offset_def, parseAlias_eq hok hag, hpre,
    parseSuffix_eq hok hag, extractName_record hok hag, ok_bind]
  have hmax : ((nameStart map i + nameEnd (body map i) : Nat) : Int) + c - pu.length =
      ((nameStart map i + nameEnd (body map i) : Nat) : Int) + ((c - pu.length : Nat) : Int) := by
    omega
  rw [hmax, extractUrl_record hok hag]
  cases ha : isAlias map i
  · simp
  · by_cases hc : c = 0xffffff <;> simp [hc]

end Reads

/-! ## Resolution -/

section Resolution

variable {map}

theorem Resolves.of_ne_top {i s c : Nat} {r : MatchRecord} (h : Resolves map i s c r)
    (hc : c ≠ 0xffffff) : ∃ name url, Text map i name url ∧
      r = ⟨name, none, url.take c, flags map i, s + suffixLength map i⟩ := by
  cases h with
  | direct _ ht => exact ⟨_, _, ht, rfl⟩
  | aliased => exact absurd rfl hc

/-- A top-level resolution carries the name of its record and the URL and flags of the end of
its alias chain. -/
theorem Resolves.top_target {i s : Nat} {r : MatchRecord} (h : Resolves map i s 0xffffff r) :
    ∃ url t tname turl, Text map i r.name url ∧ AliasTarget map i t ∧ Text map t tname turl ∧
      r.url = turl.take 0xffffff ∧ r.flags = flags map t := by
  cases h with
  | direct hd ht => exact ⟨_, i, _, _, ht, .self (hd.resolve_left (by simp)), ht, rfl, rfl⟩
  | aliased ha ht _ hat htt => exact ⟨_, _, _, _, ht, .step ha hat, htt, rfl, rfl⟩

theorem link_lt {i j : Nat} (h : Link map i j) : j < 65536 := by
  rcases h with ⟨_, rfl⟩ | ⟨_, rfl⟩ <;> exact DataView.u16_lt _ _

/-- The conclusion about record `i`: the record the specification gives, returned by every run
with enough fuel on every view that agrees with the map on the footprint. -/
def Computes (map : DataView) (i s c : Nat) (r : MatchRecord) : Prop :=
  Resolves map i s c r ∧ ∃ N, ∀ fuel, N ≤ fuel → ∀ map' : DataView,
    (∀ p, Footprint map (c = 0xffffff) i p → map'.bytes[p]? = map.bytes[p]?) →
    gatherResult fuel map' i s c = .ok r

/-- The prefix part of record `i`, from what its prefix resolves to: the prefix's name, and its
URL under the stored cap, which the code reads cut to `c`. -/
theorem prefix_part {i : Nat} (hi : RecordOk map i) (top : Bool) (c : Nat)
    (ih : hasPrefix map i = true → ∀ c', ∃ r, Computes map (prefixIndex map i) 0 c' r) :
    ∃ pn pb, Text map i (pn ++ own map i) (pb ++ ownUrl map i) ∧ ∃ N, ∀ f, N ≤ f →
      ∀ map' : DataView, (∀ p, Footprint map top i p → map'.bytes[p]? = map.bytes[p]?) →
        parsePrefix (gatherResult f map') map' (flags map i) (prefixStart map i) c =
          .ok (pn, pb.take c, suffixStart map i) := by
  cases hp : hasPrefix map i
  · refine ⟨[], [], by simpa using Text.plain hp, 0, fun f _ map' hag => ?_⟩
    simp [parsePrefix_eq hi (fun p h => hag p ⟨i, .self _ _, h⟩), hp]
  · obtain ⟨r, hr, N, hN⟩ := ih hp (min (prefixCap map i) c)
    have hcap : min (prefixCap map i) c ≠ 0xffffff := by
      have := DataView.byte_lt map (prefixStart map i + 2)
      unfold prefixCap
      omega
    obtain ⟨name, url, ht, rfl⟩ := hr.of_ne_top hcap
    refine ⟨name, url.take (prefixCap map i), .prefixed hp ht, N, fun f hf map' hag => ?_⟩
    have hpag : ∀ p, Footprint map (min (prefixCap map i) c = 0xffffff) (prefixIndex map i) p →
        map'.bytes[p]? = map.bytes[p]? := by
      simpa [hcap] using fun p (h : Footprint map false _ p) => hag p (by
        obtain ⟨j, hj, hb⟩ := h
        exact ⟨j, .pre hp hj, hb⟩)
    rw [parsePrefix_eq hi (fun p h => hag p ⟨i, .self _ _, h⟩), if_pos hp, hN f hf map' hpag,
      ok_bind, List.take_take, min_comm]

/-! ## The specification fixes the record -/

theorem Text.unique {i : Nat} {name url name' url' : List UInt8} (h : Text map i name url)
    (h' : Text map i name' url') : name = name' ∧ url = url' := by
  induction h generalizing name' url' with
  | plain hp =>
    cases h' with
    | plain => exact ⟨rfl, rfl⟩
    | prefixed hp' => simp [hp] at hp'
  | prefixed hp _ ih =>
    cases h' with
    | plain hp' => simp [hp] at hp'
    | prefixed _ ht' =>
      obtain ⟨rfl, rfl⟩ := ih ht'
      exact ⟨rfl, rfl⟩

theorem AliasTarget.unique {i t t' : Nat} (h : AliasTarget map i t) (h' : AliasTarget map i t') :
    t = t' := by
  induction h with
  | self ha =>
    cases h' with
    | self => rfl
    | step ha' => simp [ha] at ha'
  | step ha _ ih =>
    cases h' with
    | self ha' => simp [ha] at ha'
    | step _ ht' => exact ih ht'

/-- At most one record answers a resolution. -/
theorem Resolves.unique {i s c : Nat} {r r' : MatchRecord} (h : Resolves map i s c r)
    (h' : Resolves map i s c r') : r = r' := by
  cases h with
  | direct hd ht =>
    cases h' with
    | direct _ ht' =>
      obtain ⟨rfl, rfl⟩ := ht.unique ht'
      rfl
    | aliased ha' => simp [ha'] at hd
  | aliased ha ht hta hat htt =>
    cases h' with
    | direct hd' => simp [ha] at hd'
    | aliased _ ht' hta' hat' htt' =>
      obtain rfl := hat.unique hat'
      obtain ⟨rfl, rfl⟩ := ht.unique ht'
      obtain ⟨rfl, -⟩ := hta.unique hta'
      obtain ⟨-, rfl⟩ := htt.unique htt'
      rfl

/-- The induction over the links from `i`, which end: no path of links from `i` is infinite. -/
theorem computes_of_acc {i : Nat} (hacc : Acc (fun j k => Link map k j) i)
    (hok : ∀ j, ReflTransGen (Link map) i j → RecordOk map j) (s c : Nat) :
    ∃ r, Computes map i s c r := by
  induction hacc generalizing s c with
  | intro i _ ih =>
  have hi := hok i .refl
  have ih' : ∀ j, Link map i j → ∀ s c, ∃ r, Computes map j s c r :=
    fun j hj => ih j hj fun k hk => hok k (.head hj hk)
  have hown : ∀ {top : Bool} {map' : DataView},
      (∀ p, Footprint map top i p → map'.bytes[p]? = map.bytes[p]?) →
        ∀ p, RecordBytes map i p → map'.bytes[p]? = map.bytes[p]? :=
    fun hag p h => hag p ⟨i, .self _ _, h⟩
  obtain ⟨pn, pb, ht, Np, hNp⟩ :=
    prefix_part hi (c = 0xffffff) c fun hp => ih' _ (.inl ⟨hp, rfl⟩) 0
  have hpu : (pb.take c).length ≤ c := List.length_take_le _ _
  by_cases htop : isAlias map i = true ∧ c = 0xffffff
  · case pos =>
    obtain ⟨ha, rfl⟩ := htop
    obtain ⟨ra, hra, Na, hNa⟩ := ih' _ (.inr ⟨ha, rfl⟩) 0 0xffffff
    obtain ⟨aurl, t, tname, turl, hta, hat, htt, hu, hf⟩ := hra.top_target
    refine ⟨⟨pn ++ own map i, some ra.name, ra.url, ra.flags, s + suffixLength map i⟩,
      hu ▸ hf ▸ .aliased ha ht hta hat htt, max Np Na + 1, fun fuel hfuel map' hag => ?_⟩
    obtain ⟨f, rfl⟩ : ∃ f, fuel = f + 1 := ⟨fuel - 1, by omega⟩
    have haag : ∀ p, Footprint map true (aliasIndex map i) p → map'.bytes[p]? = map.bytes[p]? :=
      fun p ⟨j, hj, hb⟩ => hag p ⟨j, .ali ha hj, hb⟩
    rw [gatherResult_succ hi (hown hag) f s _ (hNp f (by omega) map' hag) hpu, if_pos ⟨ha, rfl⟩,
      hNa f (by omega) map' haag, ok_bind]
  · case neg =>
    have hd : c ≠ 0xffffff ∨ isAlias map i = false := by
      cases h : isAlias map i
      exacts [.inr rfl, .inl fun hc => htop ⟨h, hc⟩]
    refine ⟨⟨pn ++ own map i, none, (pb ++ ownUrl map i).take c, flags map i,
      s + suffixLength map i⟩, .direct hd ht, Np + 1, fun fuel hfuel map' hag => ?_⟩
    obtain ⟨f, rfl⟩ : ∃ f, fuel = f + 1 := ⟨fuel - 1, by omega⟩
    have hcut : c - (pb.take c).length = c - pb.length := by simp; omega
    rw [gatherResult_succ hi (hown hag) f s c (hNp f (by omega) map' hag) hpu, if_neg htop,
      List.take_append_eq_append_take, hcut]

/-- **`gatherResult` computes the record the specification describes.** Over a result map in
which every record reachable from `i` through prefix and alias links is well formed, and no
such record lies on a cycle of links: for every suffix length `s` and cap `c`, exactly one
record `r` answers the specification, every run with enough fuel returns `r`, and it returns
`r` on every view that agrees with the map on the entries and records the resolution reads. -/
theorem gatherResult_resolves {i : Nat} (hok : ∀ j, ReflTransGen (Link map) i j → RecordOk map j)
    (hacyc : ∀ j, ReflTransGen (Link map) i j → ¬ TransGen (Link map) j j) (s c : Nat) :
    ∃ r, (∀ r', Resolves map i s c r' ↔ r' = r) ∧ ∃ N, ∀ fuel, N ≤ fuel → ∀ map' : DataView,
      (∀ p, Footprint map (c = 0xffffff) i p → map'.bytes[p]? = map.bytes[p]?) →
      gatherResult fuel map' i s c = .ok r := by
  obtain ⟨r, hr, hrun⟩ := computes_of_acc (acc_of_acyclic (fun _ _ => link_lt) hacyc) hok s c
  exact ⟨r, fun r' => ⟨fun h => h.unique hr, fun h => h ▸ hr⟩, hrun⟩

end Resolution

/-! ## Maps whose links point back -/

theorem link_iff {i j : Nat} : Link map i j ↔ j ∈ links map i := by
  unfold Link links
  cases hasPrefix map i <;> cases isAlias map i <;> simp [eq_comm]

theorem prefixAliasMap_downward :
    ∀ x ∈ [0, 1, 2], ∀ y, Link prefixAliasMap x y → y ∈ [0, 1, 2] ∧ y < x := fun x hx y h =>
  (by decide : ∀ x ∈ [0, 1, 2], ∀ y ∈ links prefixAliasMap x, y ∈ [0, 1, 2] ∧ y < x) x hx y
    ((link_iff prefixAliasMap).mp h)

theorem gatherResult_resolves_prefixAliasMap :
    (∀ j, ReflTransGen (Link prefixAliasMap) 2 j → RecordOk prefixAliasMap j) ∧
    (∀ j, ReflTransGen (Link prefixAliasMap) 2 j → ¬ TransGen (Link prefixAliasMap) j j) ∧
    ∃ r, (∀ r', Resolves prefixAliasMap 2 0 0xffffff r' ↔ r' = r) ∧ ∃ N, ∀ fuel, N ≤ fuel →
      ∀ map' : DataView, (∀ p, Footprint prefixAliasMap true 2 p →
        map'.bytes[p]? = prefixAliasMap.bytes[p]?) →
      gatherResult fuel map' 2 0 0xffffff = .ok r :=
  have hok : ∀ j, ReflTransGen (Link prefixAliasMap) 2 j → RecordOk prefixAliasMap j :=
    fun j hj => (by decide : ∀ x ∈ [0, 1, 2], RecordOk prefixAliasMap x) j
      (reflTransGen_mem_of_rank id prefixAliasMap_downward (by decide) hj)
  have hacyc : ∀ j, ReflTransGen (Link prefixAliasMap) 2 j → ¬ TransGen (Link prefixAliasMap) j j :=
    fun j hj => not_transGen_self_of_rank id prefixAliasMap_downward
      (reflTransGen_mem_of_rank id prefixAliasMap_downward (by decide) hj)
  ⟨hok, hacyc, gatherResult_resolves hok hacyc 0 0xffffff⟩

/-! ## A record past the end of the map -/

/-- An 11-byte result map with one record, `A` with URL `B`, whose end offset 12 lies one byte
past the map. The record's header, which is empty, lies inside the record, and it has no link:
only the condition that the record lies in the map fails. -/
def shortMap : DataView := ⟨[8, 0, 0, 0x10, 12, 0, 0, 0, 65, 0, 66]⟩

/-- The URL loop over `shortMap`'s record runs to the record's end offset and throws at the end
of the map, with any fuel: a record has to lie in the map, beside the conditions on its header
and links, for `gatherResult` to return it. -/
theorem gatherResult_shortMap :
    offset shortMap 0 ≤ offset shortMap 1 ∧ nameStart shortMap 0 ≤ offset shortMap 1 ∧
      links shortMap 0 = [] ∧ own shortMap 0 = [65] ∧ ownUrl shortMap 0 = [66] ∧
      ¬ RecordOk shortMap 0 ∧
      ∀ fuel s, gatherResult (fuel + 1) shortMap 0 s 0xffffff = .error .rangeError :=
  ⟨by decide, by decide, by decide, by decide, by decide, by decide, fun _ _ => rfl⟩

end ResultMap

end DocSearch
