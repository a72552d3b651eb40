import DocSearch.Navigator
import DocSearch.Loading

/-!
# Reusing the stack across queries

`search` keeps the node offsets of the previous query and descends only from the end of the
longest common prefix of the old and the new query. This module shows that the reuse never
changes anything. The descent the specification describes is `Trie.walk`: from the root, the
first child under each byte, up to the first byte without one. A state `Matches` when its stack
is the root followed by the walk of its stored query, one node per byte.

From a state that `Matches`, `search` leaves exactly `matched s q`, the state the walk of `q` from
the root gives, and its result depends only on that state (`search_of_matches`). A fresh session
`Matches` too, so every run of searches after a successful `init` keeps the invariant, stores the
longest prefix of its last query that has a path, and answers every next query as the fresh
session would (`search_incremental`). The trie only has to hold every node reachable from the
root inside its region.
-/

set_option autoImplicit false

namespace DocSearch

namespace Trie

variable (trie : DataView)

/-- The nodes the bytes of `w` lead to from `o`, one per byte, up to the first byte without a
child. -/
def walk : Nat → List UInt8 → List Nat
  | _, [] => []
  | o, c :: w =>
    match childFor trie o c with
    | none => []
    | some o' => o' :: walk o' w

/-- `w` has a descent path from `o`: every byte of it finds a child. -/
def HasPath (o : Nat) (w : List UInt8) : Prop := (walk trie o w).length = w.length

/-- The node the walk of `w` from `o` ends at. -/
def endpoint (o : Nat) (w : List UInt8) : Nat := (o :: walk trie o w).getLast (List.cons_ne_nil _ _)

variable {trie}

theorem walk_length_le : ∀ (o : Nat) (w : List UInt8), (walk trie o w).length ≤ w.length
  | _, [] => le_rfl
  | o, c :: w => by
    unfold walk
    split
    · simp
    · simpa using walk_length_le _ w

theorem walk_take : ∀ (o : Nat) (w : List UInt8) (k : Nat),
    walk trie o (w.take k) = (walk trie o w).take k
  | _, [], k => by simp [walk]
  | o, c :: w, 0 => by simp [walk]
  | o, c :: w, k + 1 => by
    simp only [List.take_succ_cons, walk]
    split <;> simp [walk_take]

section Cons

variable {o o' : Nat} {c : UInt8} (w : List UInt8)

@[simp] theorem walk_cons_none (h : childFor trie o c = none) : walk trie o (c :: w) = [] := by
  simp [walk, h]

@[simp] theorem walk_cons_some (h : childFor trie o c = some o') :
    walk trie o (c :: w) = o' :: walk trie o' w := by
  simp [walk, h]

theorem endpoint_cons_some (h : childFor trie o c = some o') :
    endpoint trie o (c :: w) = endpoint trie o' w := by
  simp [endpoint, h, List.getLast_cons]

end Cons

theorem walk_append : ∀ (o : Nat) (u v : List UInt8), HasPath trie o u →
    walk trie o (u ++ v) = walk trie o u ++ walk trie (endpoint trie o u) v
  | o, [], v, _ => by simp [walk, endpoint]
  | o, c :: u, v, h => by
    unfold HasPath at h
    cases hc : childFor trie o c with
    | none => simp [hc] at h
    | some o' =>
      simp only [walk_cons_some _ hc, List.length_cons, Nat.add_right_cancel_iff] at h
      rw [List.cons_append, walk_cons_some _ hc, walk_cons_some _ hc, endpoint_cons_some _ hc,
        walk_append o' u v h, List.cons_append]

/-- Every node of a walk is reachable from where it starts. -/
theorem reach_of_mem_walk : ∀ (o : Nat) (w : List UInt8) {o' : Nat},
    o' ∈ o :: walk trie o w → Reach trie o o'
  | o, [], o', h => by
    obtain rfl : o' = o := by simpa [walk] using h
    exact Relation.ReflTransGen.refl
  | o, c :: w, o', h => by
    cases hc : childFor trie o c with
    | none =>
      obtain rfl : o' = o := by simpa [hc] using h
      exact Relation.ReflTransGen.refl
    | some x =>
      rw [walk_cons_some _ hc] at h
      rcases List.mem_cons.mp h with rfl | h
      · exact Relation.ReflTransGen.refl
      · exact Relation.ReflTransGen.head (childOf_of_childFor trie hc) (reach_of_mem_walk x w h)

/-- **The descent loop computes the walk** when the nodes of the walk lie in the trie. -/
theorem descend_of_inside : ∀ (o : Nat) (w : List UInt8),
    (∀ o' ∈ o :: walk trie o w, NodeInside trie o') →
      Search.descend trie o w = (walk trie o w, none)
  | _, [], _ => rfl
  | o, c :: w, hin => by
    rw [Search.descend, descendStep_of_inside (hin o (List.mem_cons_self _ _)), walk]
    cases hc : childFor trie o c with
    | none => rfl
    | some o' =>
      have h' : ∀ x ∈ o' :: walk trie o' w, NodeInside trie x := fun x hx =>
        hin x (by rw [walk_cons_some _ hc]; exact List.mem_cons_of_mem _ hx)
      simp only [descend_of_inside o' w h']

/-- **A descent that reads nothing past the trie computes the walk**, wherever the nodes it does
not visit lie. -/
theorem descend_of_ok : ∀ (o : Nat) (w : List UInt8),
    (Search.descend trie o w).2 = none → Search.descend trie o w = (walk trie o w, none)
  | _, [], _ => rfl
  | o, c :: w, h => by
    rcases hs : Search.descendStep trie o c with _ | r
    · simp [Search.descend, hs] at h
    · obtain rfl := descendStep_of_ok hs
      cases hc : childFor trie o c with
      | none => simp only [Search.descend, hs, hc, walk]
      | some o' =>
        simp only [Search.descend, hs, hc] at h ⊢
        rw [walk_cons_some _ hc, descend_of_ok o' w h]

theorem hasPath_take_walk (o : Nat) (q : List UInt8) :
    HasPath trie o (q.take (walk trie o q).length) := by
  unfold HasPath
  rw [walk_take, List.take_length, List.length_take, Nat.min_eq_left (walk_length_le o q)]

/-- `str` is the longest prefix of `q` that has a descent path from `o`. -/
def LongestMatch (trie : DataView) (o : Nat) (q str : List UInt8) : Prop :=
  str <+: q ∧ HasPath trie o str ∧ ∀ w, w <+: q → HasPath trie o w → w.length ≤ str.length

/-- The walk of a query stops at its longest prefix with a path. -/
theorem longestMatch_walk (o : Nat) (q : List UInt8) :
    LongestMatch trie o q (q.take (walk trie o q).length) := by
  refine ⟨List.take_prefix _ _, hasPath_take_walk o q, fun w hw hpath => ?_⟩
  obtain ⟨t, rfl⟩ := hw
  unfold HasPath at hpath
  have h := @walk_length_le trie o (w ++ t)
  have hw : walk trie o w = (walk trie o (w ++ t)).take w.length := by
    rw [← walk_take, List.take_left]
  rw [List.length_take, Nat.min_eq_left h, ← hpath, hw, List.length_take]
  exact Nat.min_le_right _ _

/-- Along a walk with a path, each node is the first child of the one before under the byte
between them. -/
theorem walk_getElem? : ∀ (o : Nat) (w : List UInt8), HasPath trie o w →
    ∀ i o' c, (o :: walk trie o w)[i]? = some o' → w[i]? = some c →
      (o :: walk trie o w)[i + 1]? = childFor trie o' c
  | _, [], _, i, _, _, _, hc => by simp at hc
  | o, d :: w, h, i, o', c, ho, hc => by
    unfold HasPath at h
    cases hd : childFor trie o d with
    | none => simp [hd] at h
    | some x =>
      simp only [walk_cons_some _ hd, List.length_cons, Nat.add_right_cancel_iff] at h ho ⊢
      cases i with
      | zero =>
        simp only [List.getElem?_cons_zero, Option.some.injEq] at ho hc
        subst ho hc
        simpa using hd.symm
      | succ i => simpa using walk_getElem? x w h i o' c (by simpa using ho) (by simpa using hc)

end Trie

namespace Search

theorem commonPrefixLength_le : ∀ a b : List UInt8,
    commonPrefixLength a b ≤ a.length ∧ commonPrefixLength a b ≤ b.length
  | _ :: a, _ :: b => by
    simp only [commonPrefixLength]
    split
    · have := commonPrefixLength_le a b
      simp only [List.length_cons]
      omega
    · simp
  | [], _ | _ :: _, [] => by simp [commonPrefixLength]

theorem take_commonPrefixLength : ∀ a b : List UInt8,
    a.take (commonPrefixLength a b) = b.take (commonPrefixLength a b)
  | x :: a, y :: b => by
    simp only [commonPrefixLength]
    split
    · next h => simp [h, take_commonPrefixLength a b]
    · simp
  | [], _ | _ :: _, [] => by simp [commonPrefixLength]

/-- The root offset, `getUint32(0, true)` of the trie. -/
def root (s : Search) : Nat := s.trie.u32 0

/-- The stack is the root followed by the nodes the stored query leads to, one per byte. -/
def Matches (s : Search) : Prop :=
  s.searchStack = s.root :: Trie.walk s.trie s.root s.searchString ∧
    Trie.HasPath s.trie s.root s.searchString

/-- The session after the query `q` is matched from the root as far as the trie allows. -/
def matched (s : Search) (q : List UInt8) : Search :=
  { s with
    searchString := q.take (Trie.walk s.trie s.root q).length
    searchStack := s.root :: Trie.walk s.trie s.root q
    searchStack_ne_nil := List.cons_ne_nil _ _ }

/-- Every node reachable from the root lies inside the trie. -/
def TrieInside (s : Search) : Prop := ∀ o, Trie.Reach s.trie s.root o → Trie.NodeInside s.trie o

variable {s : Search}

/-- Cut at the common prefix with `q`, a matching stack is the walk of that prefix. -/
theorem take_searchStack (hm : Matches s) (q : List UInt8) :
    s.searchStack.take (commonPrefixLength q s.searchString + 1) =
        s.root :: Trie.walk s.trie s.root (q.take (commonPrefixLength q s.searchString)) ∧
      Trie.HasPath s.trie s.root (q.take (commonPrefixLength q s.searchString)) := by
  obtain ⟨hst, hpath⟩ := hm
  have htake := take_commonPrefixLength q s.searchString
  refine ⟨by rw [hst, List.take_succ_cons, htake, Trie.walk_take], ?_⟩
  unfold Trie.HasPath at hpath ⊢
  rw [htake, Trie.walk_take, List.length_take, List.length_take, hpath]

/-- Every node reachable from the root lies inside the trie, so every walk from it does. -/
theorem TrieInside.path (hin : TrieInside s) (q : List UInt8) :
    ∀ o ∈ s.root :: Trie.walk s.trie s.root q, Trie.NodeInside s.trie o :=
  fun o ho => hin o (Trie.reach_of_mem_walk _ _ ho)

/-- **From a matching state, `search` leaves `matched s q`**, and its result is the gather from
the walk's last node when the whole query matched, the empty list otherwise. Only the nodes of
the walk of `q` are read. -/
theorem search_of_matches (hm : Matches s) (fuel : Nat) (q : List UInt8)
    (hin : ∀ o ∈ s.root :: Trie.walk s.trie s.root q, Trie.NodeInside s.trie o) :
    search fuel s q =
      (if (Trie.walk s.trie s.root q).length ≠ q.length then .ok []
        else gatherLeaves fuel (matched s q) fuel [((matched s q).top, 0)] [], matched s q) := by
  obtain ⟨hstack, hpath⟩ := take_searchStack hm q
  have hcp := (commonPrefixLength_le q s.searchString).1
  unfold search
  set cp := commonPrefixLength q s.searchString with hcpdef
  have hwalk : Trie.walk s.trie s.root q = Trie.walk s.trie s.root (q.take cp) ++
      Trie.walk s.trie (Trie.endpoint s.trie s.root (q.take cp)) (q.drop cp) := by
    conv_lhs => rw [← List.take_append_drop cp q]
    exact Trie.walk_append _ _ _ hpath
  have hdesc : ∀ h, descend s.trie ((s.searchStack.take (cp + 1)).getLast h) (q.drop cp) =
      (Trie.walk s.trie (Trie.endpoint s.trie s.root (q.take cp)) (q.drop cp), none) := by
    intro h
    rw [List.getLast_congr _ (List.cons_ne_nil _ _) hstack]
    refine Trie.descend_of_inside _ _ fun o ho => hin o ?_
    rw [hwalk, ← List.cons_append]
    rcases List.mem_cons.mp ho with rfl | ho
    · exact List.mem_append_left _ (List.getLast_mem _)
    · exact List.mem_append_right _ ho
  have hlen : (Trie.walk s.trie s.root (q.take cp)).length = cp := by
    rw [hpath, List.length_take, Nat.min_eq_left hcp]
  have hfound :
      cp + (Trie.walk s.trie (Trie.endpoint s.trie s.root (q.take cp)) (q.drop cp)).length =
        (Trie.walk s.trie s.root q).length := by
    rw [hwalk, List.length_append, hlen]
  simp only [hdesc]
  simp only [← hcpdef, hfound, hstack, List.cons_append, ← hwalk]
  split <;> rfl

theorem matches_matched (q : List UInt8) : Matches (matched s q) := by
  refine ⟨?_, Trie.hasPath_take_walk _ q⟩
  show s.root :: Trie.walk s.trie s.root q =
    s.root :: Trie.walk s.trie s.root (q.take (Trie.walk s.trie s.root q).length)
  rw [Trie.walk_take, List.take_length]

theorem matches_fresh (s : Search) : Matches (fresh s) := ⟨rfl, rfl⟩

/-- From a fresh session, a search whose descent reads nothing past the trie leaves
`matched s q` and returns what `search_of_matches` says, whatever the nodes off its path hold. -/
theorem search_from_fresh (fuel : Nat) {q : List UInt8} (hd : (descend s.trie s.root q).2 = none) :
    search fuel (fresh s) q =
      (if (Trie.walk s.trie s.root q).length ≠ q.length then .ok []
        else gatherLeaves fuel (matched s q) fuel [((matched s q).top, 0)] [], matched s q) := by
  have hcp : commonPrefixLength q [] = 0 := by cases q <;> rfl
  unfold search
  simp only [fresh, root, hcp, List.take_succ_cons, List.take_zero, List.getLast_singleton,
    List.drop_zero, Nat.zero_add,
    show descend s.trie (s.trie.u32 0) q = _ from Trie.descend_of_ok _ _ hd]
  split_ifs <;> rfl

/-- A matching state answers every query as the fresh session over its index does. -/
theorem search_fresh (hm : Matches s) (hin : TrieInside s) (fuel : Nat) (q : List UInt8) :
    search fuel s q = search fuel (fresh s) q := by
  rw [search_of_matches hm fuel q (hin.path q),
    search_of_matches (matches_fresh s) fuel q (hin.path q)]
  rfl

/-- The state after the searches `qs`, each with its own fuel. -/
def runSearches (s : Search) (qs : List (Nat × List UInt8)) : Search :=
  qs.foldl (fun s q => (search q.1 s q.2).2) s

/-- The last query of a run, or the empty query before the first. -/
def lastQuery (qs : List (Nat × List UInt8)) : List UInt8 := (qs.map Prod.snd).getLastD []

theorem search_snd_matched (hin : TrieInside s) (fuel : Nat) (q q' : List UInt8) :
    (search fuel (matched s q) q').2 = matched s q' := by
  rw [search_of_matches (matches_matched q) fuel q' (hin.path q')]
  rfl

theorem runSearches_matched (hin : TrieInside s) :
    ∀ (qs : List (Nat × List UInt8)) (q : List UInt8),
      runSearches (matched s q) qs = matched s ((qs.map Prod.snd).getLastD q)
  | [], _ => rfl
  | (fuel, q') :: qs, q => by
    rw [runSearches, List.foldl_cons, ← runSearches, search_snd_matched hin,
      runSearches_matched hin qs q', List.map_cons, List.getLastD_cons]

/-- **A run of searches from a fresh session ends in the state its last query matches.** -/
theorem runSearches_fresh (hin : TrieInside s) (qs : List (Nat × List UInt8)) :
    runSearches (fresh s) qs = matched s (lastQuery qs) := by
  cases qs with
  | nil => rfl
  | cons fq qs =>
    rw [runSearches, List.foldl_cons, ← runSearches, show fresh s = matched s [] from rfl,
      search_snd_matched hin, runSearches_matched hin, lastQuery, List.map_cons,
      List.getLastD_cons]

/-- The session invariant, entry by entry: one stack entry more than query bytes, the root
first, and each next entry the first child of the one before under the byte between them. -/
def SessionInv (s : Search) : Prop :=
  s.searchStack.length = s.searchString.length + 1 ∧ s.searchStack.head? = some s.root ∧
    ∀ i o c, s.searchStack[i]? = some o → s.searchString[i]? = some c →
      s.searchStack[i + 1]? = Trie.childFor s.trie o c

theorem sessionInv_of_matches (hm : Matches s) : SessionInv s := by
  obtain ⟨hst, hpath⟩ := hm
  refine ⟨by rw [hst, List.length_cons, hpath], by rw [hst]; rfl, fun i o c ho hc => ?_⟩
  rw [hst] at ho ⊢
  exact Trie.walk_getElem? _ _ hpath i o c ho hc

/-- **Reusing the stack never changes a search.** After a successful `init` over a trie whose
nodes reachable from the root lie inside it, and after any run of searches, the session invariant
holds, the stored query is the longest prefix of the last query with a path, and every next
search returns and leaves what it would directly after `init`. -/
theorem search_incremental {s s₀ : Search} {buffer : List UInt8} {k : Nat}
    (hinit : init s buffer k = (.ok true, s₀)) (hin : TrieInside s₀)
    (qs : List (Nat × List UInt8)) :
    SessionInv (runSearches s₀ qs) ∧
      Trie.LongestMatch s₀.trie s₀.root (lastQuery qs) (runSearches s₀ qs).searchString ∧
      ∀ fuel q, search fuel (runSearches s₀ qs) q = search fuel s₀ q := by
  have h₀ : s₀ = fresh s₀ := by
    rw [init_eq_fresh hinit]
    rfl
  rw [h₀, runSearches_fresh hin]
  refine ⟨sessionInv_of_matches (matches_matched _), Trie.longestMatch_walk _ _,
    fun fuel q => ?_⟩
  rw [search_fresh (matches_matched _) hin]
  rfl

theorem trieInside_oneChildIndex : TrieInside (init blank oneChildIndex 0).2 := fun o ho => by
  have hmem : o ∈ [4, 10] := Trie.reach_mem _ (by decide) (by decide) ho
  simp only [List.mem_cons, List.mem_singleton, List.not_mem_nil, or_false] at hmem
  rcases hmem with rfl | rfl <;> decide

theorem trieInside_pairSession : TrieInside pairSession := fun o ho => by
  have hmem : o ∈ [4, 10] := Trie.reach_mem _ (by decide) (by decide) ho
  simp only [List.mem_cons, List.mem_singleton, List.not_mem_nil, or_false] at hmem
  rcases hmem with rfl | rfl <;> decide

/-- On `pairIndex`, after the searches for `ab` and for `a`, whose node holds two results, every
search answers as directly after `init`. -/
theorem search_incremental_pairIndex :
    init blank pairIndex 0 = (.ok true, pairSession) ∧ TrieInside pairSession ∧
      (SessionInv (runSearches pairSession [(2, [97, 98]), (2, [97])]) ∧
        Trie.LongestMatch pairSession.trie pairSession.root (lastQuery [(2, [97, 98]), (2, [97])])
          (runSearches pairSession [(2, [97, 98]), (2, [97])]).searchString ∧
        ∀ fuel q, search fuel (runSearches pairSession [(2, [97, 98]), (2, [97])]) q =
          search fuel pairSession q) :=
  ⟨init_pairIndex, trieInside_pairSession,
    search_incremental init_pairIndex trieInside_pairSession [(2, [97, 98]), (2, [97])]⟩

end Search

end DocSearch
