import DocSearch.Results

/-!
# The stack stays a path from the root

`search` keeps a prefix of the stack and pushes a node only after reading the child entry that
names it, so even a search that throws leaves a path of child entries from the root
(`StackPath`); an `init` either leaves the state alone or leaves the root alone on the stack.
Every run of calls keeps the path, whatever the index holds, as long as no `init` throws on a map
offset in `[10, 14)`, which leaves the stack of the old trie behind (`session_stackPath`).

The path need not be the one the stored query spells: a descent that throws leaves the nodes it
pushed and the old query, and a later search for that query answers from the wrong node
(`search_after_throw`).
-/

set_option autoImplicit false

namespace DocSearch

namespace Search

/-! ## The stack stays a path from the root -/

section Descent

variable {trie : DataView}

/-- A child the children loop finds is named by one of the entries it scanned. -/
theorem findChild_some {childOffset : Nat} {c : UInt8} :
    ∀ left j {o' : Nat}, findChild trie childOffset c j left = .ok (some o') →
      ∃ j', j ≤ j' ∧ j' < j + left ∧ o' = trie.u32 (childOffset + j' * 4) &&& 0x007fffff
  | 0, _, _, h => by
    rw [findChild] at h
    cases h
  | left + 1, j, o', h => by
    rw [findChild] at h
    obtain ⟨_, -, h⟩ := bind_eq_ok h
    split at h
    · obtain ⟨j', h1, h2, h3⟩ := findChild_some left (j + 1) h
      exact ⟨j', by omega, by omega, h3⟩
    · obtain ⟨w, hw, h⟩ := bind_eq_ok h
      cases h
      exact ⟨j, le_rfl, by omega, by rw [DataView.u32_of_getUint32 hw]⟩

/-- A child one descent step moves to is a child of the node, whatever the index holds. -/
theorem childOf_of_descendStep {o o' : Nat} {c : UInt8}
    (h : descendStep trie o c = .ok (some o')) : Trie.ChildOf trie o o' := by
  obtain ⟨rc, hrc, h⟩ := bind_eq_ok h
  obtain ⟨cc, hcc, h⟩ := bind_eq_ok h
  have hrc := DataView.byte_of_getUint8 hrc
  have hcc := DataView.byte_of_getUint8 hcc
  obtain ⟨j, -, hj, rfl⟩ := findChild_some cc 0 h
  subst rc cc
  have hj' : j < Trie.childCount trie o := by unfold Trie.childCount; omega
  exact ⟨Trie.child trie o j, List.mem_map.mpr ⟨j, List.mem_range.mpr hj', rfl⟩, rfl⟩

/-- The nodes the descent pushes, up to a read that throws, form a path of child entries from
where it starts. -/
theorem descend_chain : ∀ (o : Nat) (w : List UInt8),
    List.Chain (Trie.ChildOf trie) o (descend trie o w).1
  | _, [] => .nil
  | o, c :: w => by
    rw [descend]
    split
    · exact .nil
    · exact .nil
    · next child h => exact .cons (childOf_of_descendStep h) (descend_chain child w)

end Descent

/-- The stack is a path of child entries from the root of the trie. -/
def StackPath (s : Search) : Prop :=
  s.searchStack.head? = some s.root ∧ s.searchStack.Chain' (Trie.ChildOf s.trie)

/-- A search keeps the stack a path, whatever it returns. -/
theorem search_stackPath {s : Search} (hs : StackPath s) (fuel : Nat) (q : List UInt8) :
    StackPath (search fuel s q).2 := by
  obtain ⟨htrie, -, hstack⟩ := search_snd fuel s q
  obtain ⟨hhead, hchain⟩ := hs
  have hne := take_succ_ne_nil s.searchStack_ne_nil (commonPrefixLength q s.searchString)
  have hc : List.Chain' (Trie.ChildOf s.trie)
      ((s.searchStack.take (commonPrefixLength q s.searchString + 1)).getLast hne ::
        (descend s.trie ((s.searchStack.take (commonPrefixLength q s.searchString + 1)).getLast hne)
          (q.drop (commonPrefixLength q s.searchString))).1) := descend_chain _ _
  unfold StackPath root
  rw [htrie, hstack, List.head?_append_of_ne_nil _ hne, List.head?_take]
  refine ⟨by simpa using hhead, (hchain.take _).append (List.chain'_cons'.mp hc).2 ?_⟩
  intro x hx
  rw [List.getLast?_eq_getLast _ hne, Option.mem_some_iff] at hx
  exact hx ▸ (List.chain'_cons'.mp hc).1

theorem stackPath_fresh (s : Search) : StackPath (fresh s) := ⟨rfl, List.chain'_singleton _⟩

theorem init_stackPath {s : Search} (hs : StackPath s) {buffer : List UInt8}
    (hfits : RootFits buffer) (k : Nat) : StackPath (init s buffer k).2 := by
  rcases init_cases s buffer k with ⟨-, h⟩ | ⟨-, -, h⟩ | ⟨hh, h10, h14, -⟩ | ⟨-, -, -, h⟩
  · rw [h]; exact hs
  · rw [h]; exact hs
  · exact absurd (hfits hh h10) (by omega)
  · rw [h]; exact stackPath_fresh _

/-- Every call whose buffers are `RootFits` keeps the stack a path. -/
theorem call_stackPath {s : Search} (hs : StackPath s) :
    ∀ op : Op, op.RootFits → StackPath (op.call s).2
  | .init _ k, hfits => init_stackPath hs hfits k
  | .load base85string, hfits => by
    show StackPath (load s base85string).2
    rcases load_cases s base85string with ⟨-, h⟩ | ⟨buffer, hd, h⟩
    · rw [h]; exact hs
    · rw [h]; exact init_stackPath hs (hfits buffer hd) 0
  | .search fuel q, _ => search_stackPath hs fuel q

/-- **The stack stays a path of child entries from the root, on every index.** Every run of
calls from a state whose stack is such a path keeps it one, searches that throw included, as
long as no `init` meets a map offset in `[10, 14)`. -/
theorem session_stackPath {s : Search} (hs : StackPath s) (ops : List Op)
    (hops : ∀ op ∈ ops, op.RootFits) : StackPath (session s ops).2 :=
  runCalls_preserves (I := StackPath) (fun _ op hs hop => call_stackPath hs op hop) ops s hs hops

/-- A run whose last search throws: after `init` on `overrunIndex`, the descent for `a` reads past
the trie. -/
def throwingCalls : List Op := [.search 2 [97, 98], .init overrunIndex 0, .search 2 [97]]

theorem session_stackPath_throwingCalls :
    StackPath (init blank oneChildIndex 0).2 ∧ (∀ op ∈ throwingCalls, op.RootFits) ∧
      (session (init blank oneChildIndex 0).2 throwingCalls).1 =
        [.results (.ok []), .loaded (.ok true), .results (.error .rangeError)] ∧
      StackPath (session (init blank oneChildIndex 0).2 throwingCalls).2 := by
  have hs : StackPath (init blank oneChildIndex 0).2 := ⟨rfl, List.chain'_singleton _⟩
  have hops : ∀ op ∈ throwingCalls, op.RootFits := by
    intro op hop
    simp only [throwingCalls, List.mem_cons, List.mem_singleton, List.not_mem_nil,
      or_false] at hop
    rcases hop with rfl | rfl | rfl
    exacts [trivial, fun _ _ => by decide, trivial]
  exact ⟨hs, hops, rfl, session_stackPath hs throwingCalls hops⟩

/-- A 30-byte trie cut short: the root's child `a` has the children `b` and `c`, each holding
result 0, and the one child entry of the node under `c` lies past the end of the trie. -/
def cutIndex : List UInt8 :=
  [77, 67, 83, 0, 3, 0, 40, 0, 0, 0,
    4, 0, 0, 0, 0, 1, 10, 0, 0, 97,
    1, 2, 0, 0, 22, 0, 0, 98, 26, 0, 0, 99,
    1, 0, 0, 0, 1, 1, 0, 0] ++ ResultMap.prefixAliasMap.bytes

/-- The session `init` leaves on `cutIndex`, written out. -/
def cutSession : Search :=
  { trie := ⟨[4, 0, 0, 0, 0, 1, 10, 0, 0, 97, 1, 2, 0, 0, 22, 0, 0, 98, 26, 0, 0, 99,
      1, 0, 0, 0, 1, 1, 0, 0]⟩, map := ResultMap.prefixAliasMap, dataSize := 87,
    symbolCount := 3, maxResults := 100, searchString := [], searchStack := [4],
    searchStack_ne_nil := by simp }

example : init blank cutIndex 0 = (.ok true, cutSession) := rfl

/-- The session after the searches for `ab` and for `acz` on `cutIndex`, written out: the stored
query is still `ab`, the stack ends at the node under `c`. -/
def afterThrow : Search :=
  { cutSession with
    searchString := [97, 98]
    searchStack := [4, 10, 26]
    searchStack_ne_nil := by simp }

/-- The stack stays a path, but after a descent that throws it no longer follows the stored
query. On `cutIndex`, the search for `ab` answers `Foo`. The search for `acz` pushes the node under
`c`, then throws on its child entry, and leaves the stored query `ab`. The same search for `ab`,
whose own path lies in the trie, then gathers from the node under `c` and throws. -/
theorem search_after_throw :
    session cutSession [.search 2 [97, 98], .search 2 [97, 99, 122]] =
        ([.results (.ok [fooRecord]), .results (.error .rangeError)], afterThrow) ∧
      (search 2 afterThrow [97, 98]).1 = .error .rangeError :=
  ⟨rfl, rfl⟩

end Search

end DocSearch
