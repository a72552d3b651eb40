import DocSearch.GatherResult

/-!
# The `Search` object: session state, `init` and `search`

`Search.init` checks the header of an index buffer and splits it into the trie and the result
map; `Search.search` descends the trie along the bytes of a query, reusing the node offsets kept
from the previous query over their longest common prefix, and gathers the results under the
matched node breadth-first. The state is the part of the `Search` object these two functions
read and write.

A trie node at offset `o` is `resultCount : u8, childCount : u8`, then `resultCount` 16-bit
result indices, then `childCount` 4-byte child entries: a 23-bit child offset, the lookahead
barrier bit `0x00800000`, and the character byte in the top byte.

The query is taken after `toUtf8(searchString.toLowerCase().trim())`, as UTF-8 bytes: every
comparison in `search` is bytewise, and case mapping and trimming are the JavaScript engine's.
Writes to the DOM (the symbol count, the external-search link) are left out, and so is the block
of `init` that runs only in a page (search.js lines 72 to 84), with its search for a value
already typed into the input. The gather loop
runs while its queue is non-empty and a cycle of non-barrier children keeps it running; `search`
takes a `fuel` that bounds both that loop and the recursion of `gatherResult`.
-/

set_option autoImplicit false

namespace DocSearch

/-- The fields of the `Search` object that `init` and `search` use. The stack holds the root
offset and one node offset per matched byte. The source starts with an empty stack, which
`search` cannot use before an `init` has pushed the root offset; the model's states are those
after an `init`, or the placeholder `blank`, so the type keeps the stack non-empty. -/
structure Search where
  trie : DataView
  map : DataView
  dataSize : Nat
  symbolCount : Nat
  maxResults : Nat
  searchString : List UInt8
  searchStack : List Nat
  searchStack_ne_nil : searchStack ≠ []
  deriving DecidableEq

namespace Search

/-- `this.searchStack[this.searchStack.length - 1]`. -/
def top (s : Search) : Nat := s.searchStack.getLast s.searchStack_ne_nil

/-! ## Descent -/

/-- The longest common prefix loop of `search`, over the new and the previous query. -/
def commonPrefixLength : List UInt8 → List UInt8 → Nat
  | a :: as, b :: bs => if a = b then commonPrefixLength as bs + 1 else 0
  | _, _ => 0

/-- The children loop of one descent step, from entry `j` on with `left` entries to go: the
offset of the first child whose character byte is `c`, barrier bit cleared. -/
def findChild (trie : DataView) (childOffset : Nat) (c : UInt8) :
    Nat → Nat → Except Error (Option Nat)
  | _, 0 => .ok none
  | j, left + 1 => do
    if (← trie.getUint8 (childOffset + j * 4 + 3)) ≠ c.toNat then
      findChild trie childOffset c (j + 1) left
    else
      let offsetBarrier ← trie.getUint32 (childOffset + j * 4)
      pure (some (offsetBarrier &&& 0x007fffff))

/-- One iteration of the descent loop at the node `offset`: the child matching `c`, if any. -/
def descendStep (trie : DataView) (offset : Nat) (c : UInt8) : Except Error (Option Nat) := do
  let relChildOffset := 2 + (← trie.getUint8 offset) * 2
  let childCount ← trie.getUint8 (offset + 1)
  findChild trie (offset + relChildOffset) c 0 childCount

/-- The descent loop from the node `offset` over the bytes still to match: the offsets it pushes,
in order, and the error of a read that failed, if one did. The loop stops at the first byte
without a matching child. -/
def descend (trie : DataView) : Nat → List UInt8 → List Nat × Option Error
  | _, [] => ([], none)
  | offset, c :: rest =>
    match descendStep trie offset c with
    | .error e => ([], some e)
    | .ok none => ([], none)
    | .ok (some child) =>
      let r := descend trie child rest
      (child :: r.1, r.2)

/-! ## Gathering -/

/-- The results loop of one popped node, from result `i` on with `left` results to go: resolve
each index at top level and stop with `.done` once `maxResults` results are collected. -/
def pushResults (fuel : Nat) (s : Search) (offset suffixLength : Nat) :
    Nat → Nat → List MatchRecord → Except Error (ForInStep (List MatchRecord))
  | _, 0, results => .ok (.yield results)
  | i, left + 1, results => do
    let index ← s.trie.getUint16 (offset + (i + 1) * 2)
    let results := results ++ [← gatherResult fuel s.map index suffixLength 0xffffff]
    if results.length ≥ s.maxResults then pure (.done results)
    else pushResults fuel s offset suffixLength (i + 1) left results

/-- The children loop of one popped node, from entry `j` on with `left` entries to go: append
every child without the lookahead barrier to the queue, one level deeper. -/
def pushChildren (trie : DataView) (childOffset suffixLength : Nat) :
    Nat → Nat → List (Nat × Nat) → Except Error (List (Nat × Nat))
  | _, 0, leaves => .ok leaves
  | j, left + 1, leaves => do
    let offsetBarrier ← trie.getUint32 (childOffset + j * 4)
    if offsetBarrier &&& 0x00800000 ≠ 0 then
      pushChildren trie childOffset suffixLength (j + 1) left leaves
    else
      pushChildren trie childOffset suffixLength (j + 1) left
        (leaves ++ [(offsetBarrier &&& 0x007fffff, suffixLength + 1)])

/-- The loop `while(leaves.length)` over the queue of `(offset, suffixLength)` pairs, with at
most `steps` iterations; `fuel` is passed on to `gatherResult`. -/
def gatherLeaves (fuel : Nat) (s : Search) :
    Nat → List (Nat × Nat) → List MatchRecord → Except Error (List MatchRecord)
  | _, [], results => .ok results
  | 0, _ :: _, _ => .error .outOfFuel
  | steps + 1, (offset, suffixLength) :: leaves, results => do
    let resultCount ← s.trie.getUint8 offset
    match ← pushResults fuel s offset suffixLength 0 resultCount results with
    | .done results => pure results
    | .yield results =>
      let relChildOffset := 2 + (← s.trie.getUint8 offset) * 2
      let childCount ← s.trie.getUint8 (offset + 1)
      let leaves ← pushChildren s.trie (offset + relChildOffset) suffixLength 0 childCount leaves
      gatherLeaves fuel s steps leaves results

/-! ## `search` and `init` -/

theorem take_succ_ne_nil {l : List Nat} (h : l ≠ []) (n : Nat) : l.take (n + 1) ≠ [] := by
  cases l with
  | nil => exact absurd rfl h
  | cons a l => simp

/-- `search(searchString)`: the results and the state after it. A read that fails during the
descent leaves the stack as far as it was pushed and the previous `searchString`. -/
def search (fuel : Nat) (s : Search) (searchString : List UInt8) :
    Except Error (List MatchRecord) × Search :=
  let commonPrefix := commonPrefixLength searchString s.searchString
  let stack := s.searchStack.take (commonPrefix + 1)
  have hstack : stack ≠ [] := take_succ_ne_nil s.searchStack_ne_nil commonPrefix
  let descent := descend s.trie (stack.getLast hstack) (searchString.drop commonPrefix)
  let s := { s with
    searchStack := stack ++ descent.1
    searchStack_ne_nil := List.append_ne_nil_of_left_ne_nil hstack _ }
  match descent.2 with
  | some e => (.error e, s)
  | none =>
    let foundPrefix := commonPrefix + descent.1.length
    let s := { s with searchString := searchString.take foundPrefix }
    if foundPrefix ≠ searchString.length then (.ok [], s)
    else (gatherLeaves fuel s fuel [(s.top, 0)] [], s)

/-- `init(buffer, maxResults)`: the return value and the state after it. `maxResults = 0` stands
for an absent argument as well, which JavaScript reads as falsy just like `0`. The header reads
lie inside the buffer once its length is checked. -/
def init (s : Search) (buffer : List UInt8) (maxResults : Nat) : Except Error Bool × Search :=
  let view : DataView := ⟨buffer⟩
  if view.byteLength < 20 then (.ok false, s)
  else if view.byte 0 ≠ 77 ∨ view.byte 1 ≠ 67 ∨ view.byte 2 ≠ 83 then (.ok false, s)
  else if view.byte 3 ≠ 0 then (.ok false, s)
  else
    let mapOffset := view.u32 6
    match DataView.ofBuffer buffer 10 ((mapOffset : Int) - 10) with
    | .error e => (.error e, s)
    | .ok trie =>
      match DataView.ofBufferFrom buffer mapOffset with
      | .error e => (.error e, { s with trie })
      | .ok map =>
        let s := { s with
          trie, map
          dataSize := buffer.length
          symbolCount := view.u16 4
          maxResults := if maxResults = 0 then 100 else maxResults
          searchString := [] }
        match trie.getUint32 0 with
        | .error e => (.error e, s)
        | .ok root => (.ok true, { s with searchStack := [root], searchStack_ne_nil := by simp })

end Search

end DocSearch
