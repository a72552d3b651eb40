import DocSearch.StackPath

/-!
# Reusing the stack on any index

`Incremental` shows that reusing the stack never changes a search when every node reachable from
the root lies in the trie. This module drops that condition. The descent loop is a function of
the trie, the node it starts from and the bytes still to match, so a stack that the loop itself
pushed for the stored query from the root, with no read failing (`Replays`), is the stack it
would push again. Cut at the common prefix with a new query it is the descent of that prefix
(`descend_take`), and the descent of the new query from the root goes on from the prefix's last
node (`descend_append`).

From such a state a search returns what it returns from the fresh session, on every index and
whatever it returns, a thrown `RangeError` included, and when its own descent reads nothing past
the trie it leaves the state the fresh session's search leaves (`search_of_replays`). A session
therefore gives the replies of the stateless reading over every run whose searches descend
without a failed read and whose buffers leave room for the root offset (`session_replays`),
whatever the trie and the result map hold. The condition on the searches cannot be dropped: a
descent that throws leaves a stack that does not replay the stored query, and the code and the
stateless reading then part (`search_after_throw`).
-/

set_option autoImplicit false

namespace DocSearch

namespace Search

/-! ## The descent loop, cut and continued -/

/-- The descent of `w` from `o` matches every byte, with no read failing. -/
def Descends (trie : DataView) (o : Nat) (w : List UInt8) : Prop :=
  (descend trie o w).2 = none ∧ (descend trie o w).1.length = w.length

section Descent

variable {trie : DataView}

theorem descend_length_le : ∀ (o : Nat) (w : List UInt8), (descend trie o w).1.length ≤ w.length
  | _, [] => le_rfl
  | o, c :: w => by
    rcases hc : descendStep trie o c with _ | _ | child
    all_goals simp only [descend, hc, List.length_cons, List.length_nil, Nat.zero_le]
    exact Nat.succ_le_succ (descend_length_le child w)

/-- Cut inside the nodes it pushed, a query is descended as far as the cut with no read
failing. -/
theorem descend_take : ∀ (o : Nat) (w : List UInt8) (k : Nat), k ≤ (descend trie o w).1.length →
    descend trie o (w.take k) = ((descend trie o w).1.take k, none)
  | _, [], _, _ => by simp [descend]
  | _, _ :: _, 0, _ => by simp [descend]
  | o, c :: w, k + 1, hk => by
    rcases hc : descendStep trie o c with _ | _ | child
    all_goals simp only [List.take_succ_cons, descend, hc, List.length_nil,
      Nat.le_zero, Nat.add_one_ne_zero] at hk ⊢
    simp only [List.length_cons, Nat.add_le_add_iff_right] at hk
    simp only [descend_take child w k hk, List.take_succ_cons]

/-- A query that descends fully from `o`, followed by more bytes, is descended in two parts: the
second from the node the first ends at. -/
theorem descend_append : ∀ (o : Nat) (u v : List UInt8), Descends trie o u →
    descend trie o (u ++ v) = Prod.map ((descend trie o u).1 ++ ·) id
      (descend trie ((o :: (descend trie o u).1).getLast (List.cons_ne_nil _ _)) v)
  | _, [], _, _ => by simp [descend, Prod.map]
  | o, c :: u, v, ⟨he, hl⟩ => by
    rcases hc : descendStep trie o c with _ | _ | child
    all_goals simp only [descend, hc, List.length_nil, List.length_cons] at he hl
    iterate 2 exact absurd hl (Nat.succ_ne_zero _).symm
    rw [List.cons_append]
    simp only [descend, hc]
    rw [descend_append child u v ⟨he, Nat.succ.inj hl⟩]
    simp only [List.getLast_cons_cons, Prod.map, List.cons_append]

end Descent

/-! ## States whose stack the descent would push again -/

/-- The stack is the root followed by what the descent loop pushes for the stored query from the
root, one node per byte, with no read failing. -/
def Replays (s : Search) : Prop :=
  s.searchStack = s.root :: (descend s.trie s.root s.searchString).1 ∧
    Descends s.trie s.root s.searchString

/-- The session after the query `q` is descended from the root up to the first byte without a
child: the state a search leaves when its descent reads nothing past the trie. -/
def replayed (s : Search) (q : List UInt8) : Search :=
  { s with
    searchString := q.take (descend s.trie s.root q).1.length
    searchStack := s.root :: (descend s.trie s.root q).1
    searchStack_ne_nil := List.cons_ne_nil _ _ }

theorem replays_fresh (s : Search) : Replays (fresh s) := ⟨rfl, rfl, rfl⟩

theorem replays_replayed (s : Search) (q : List UInt8) : Replays (replayed s q) := by
  have htake := @descend_take s.trie s.root q _ le_rfl
  rw [List.take_length] at htake
  show _ = _ :: (descend s.trie s.root (q.take _)).1 ∧ Descends s.trie s.root (q.take _)
  rw [Descends, htake, List.length_take, Nat.min_eq_left (descend_length_le s.root q)]
  exact ⟨rfl, rfl, rfl⟩

/-- A search changes nothing but the stored query and the stack. -/
theorem fresh_search (fuel : Nat) (s : Search) (q : List UInt8) :
    fresh (search fuel s q).2 = fresh s := by
  unfold search
  dsimp only
  split
  · rfl
  · split <;> rfl

variable {s : Search}

/-- **From a state whose stack replays its query, `search` descends as from the root.** It throws
what the descent from the root throws, and otherwise leaves `replayed s q` and gathers from its
last node when the whole query matched. -/
theorem search_of_replays (h : Replays s) (fuel : Nat) (q : List UInt8) :
    search fuel s q =
      match (descend s.trie s.root q).2 with
      | some e => (.error e, { s with
          searchStack := s.root :: (descend s.trie s.root q).1
          searchStack_ne_nil := List.cons_ne_nil _ _ })
      | none => (if (descend s.trie s.root q).1.length ≠ q.length then .ok []
          else gatherLeaves fuel (replayed s q) fuel [((replayed s q).top, 0)] [],
          replayed s q) := by
  obtain ⟨hst, hd⟩ := h
  have hcp : commonPrefixLength q s.searchString ≤ (descend s.trie s.root s.searchString).1.length :=
    hd.2 ▸ (commonPrefixLength_le q s.searchString).2
  unfold search
  set cp := commonPrefixLength q s.searchString with hcpdef
  set p := (descend s.trie s.root s.searchString).1
  have htake : s.searchStack.take (cp + 1) = s.root :: p.take cp := by
    rw [hst, List.take_succ_cons]
  have hpre : descend s.trie s.root (q.take cp) = (p.take cp, none) := by
    rw [take_commonPrefixLength, descend_take _ _ _ hcp]
  have hlen : (p.take cp).length = cp := by rw [List.length_take, Nat.min_eq_left hcp]
  have hq : descend s.trie s.root q = Prod.map (p.take cp ++ ·) id
      (descend s.trie ((s.root :: p.take cp).getLast (List.cons_ne_nil _ _)) (q.drop cp)) := by
    conv_lhs => rw [← List.take_append_drop cp q]
    rw [descend_append _ _ _ ⟨by rw [hpre], by rw [hpre, hlen, List.length_take,
      Nat.min_eq_left (commonPrefixLength_le q s.searchString).1]⟩, hpre]
  have hdesc : ∀ h, descend s.trie ((s.searchStack.take (cp + 1)).getLast h) (q.drop cp) =
      descend s.trie ((s.root :: p.take cp).getLast (List.cons_ne_nil _ _)) (q.drop cp) :=
    fun h => by rw [List.getLast_congr _ (List.cons_ne_nil _ _) htake]
  simp only [hdesc, replayed, hq, Prod.map, id, List.length_append, hlen]
  simp only [htake, List.cons_append, ← hcpdef]
  generalize (descend s.trie ((s.root :: p.take cp).getLast (List.cons_ne_nil _ _)) (q.drop cp)).2 = e
  cases e
  · dsimp only
    split <;> rfl
  · rfl

/-- The reply of a search from such a state is the fresh session's, whatever it is. -/
theorem search_fst_of_replays (h : Replays s) (fuel : Nat) (q : List UInt8) :
    (search fuel s q).1 = (search fuel (fresh s) q).1 := by
  rw [search_of_replays h, search_of_replays (replays_fresh s)]
  dsimp only [fresh, root]
  cases (descend s.trie (s.trie.u32 0) q).2 <;> rfl

/-- A search whose descent reads nothing past the trie leaves `replayed s q`. -/
theorem search_snd_of_replays (h : Replays s) (fuel : Nat) {q : List UInt8}
    (hq : (descend s.trie s.root q).2 = none) : (search fuel s q).2 = replayed s q := by
  rw [search_of_replays h, hq]

/-! ## Sessions -/

/-- A call the simulation allows over the index `a`: a buffer that leaves room for the root
offset, or a search whose descent from the root of `a` reads nothing past the trie. -/
def Op.Replayable (a : Search) : Op → Prop
  | .search _ q => (descend a.trie a.root q).2 = none
  | op => op.RootFits

theorem init_reloads_of_rootFits {buffer : List UInt8} (h : RootFits buffer) (k : Nat) :
    Reloads (fun _ => True) fun s => init s buffer k :=
  init_reloads_of h k fun _ _ _ => trivial

section Step

variable {c : Search} (hc : Replays c)
include hc

/-- A call of `init` or `load` keeps the stack replaying, over the index the stateless reading
keeps, with the same reply. -/
theorem Replays.reloads {Q : Search → Prop} {f : Search → Except Error Bool × Search}
    (hf : Reloads Q f) :
    (f c).1 = (f (fresh c)).1 ∧ Replays (f c).2 ∧ fresh (f c).2 = reload (fresh c) (f (fresh c)) := by
  rcases hf with ⟨t, -, hf⟩ | ⟨r, hf⟩
  · rw [hf, hf]
    exact ⟨rfl, replays_fresh t, rfl⟩
  · rw [hf, hf, reload_self]
    exact ⟨rfl, hc, rfl⟩

/-- **One allowed call keeps the stack replaying**, with the reply of the stateless reading. -/
theorem Replays.call (op : Op) (hop : op.Replayable (fresh c)) :
    (op.call c).1 = (op.stateless (fresh c)).1 ∧ Replays (op.call c).2 ∧
      fresh (op.call c).2 = (op.stateless (fresh c)).2 := by
  cases op with
  | init buffer k =>
    obtain ⟨h1, h2⟩ := hc.reloads (init_reloads_of_rootFits hop k)
    exact ⟨congrArg Reply.loaded h1, h2⟩
  | load base85string =>
    obtain ⟨h1, h2⟩ :=
      hc.reloads (load_reloads fun buffer hd => init_reloads_of_rootFits (hop buffer hd) 0)
    exact ⟨congrArg Reply.loaded h1, h2⟩
  | search fuel q =>
    refine ⟨congrArg Reply.results (search_fst_of_replays hc fuel q), ?_, fresh_search fuel c q⟩
    show Replays (search fuel c q).2
    rw [search_snd_of_replays hc fuel hop]
    exact replays_replayed c q

end Step

/-- **Stack reuse is invisible on every index until a descent throws.** From a state whose stack
replays its query, over any run of calls whose buffers leave room for the root offset and whose
searches each descend from the root of the index then loaded with no read failing, the object
gives the replies of the stateless reading, searches that throw while gathering included, and
ends in a state whose stack replays its query, over the index that reading ends with. -/
theorem session_replays {c : Search} (hc : Replays c) (ops : List Op)
    (hops : Allowed Op.Replayable Op.stateless (fresh c) ops) :
    (session c ops).1 = (statelessSession (fresh c) ops).1 ∧
      Replays (session c ops).2 ∧ fresh (session c ops).2 = (statelessSession (fresh c) ops).2 :=
  runCalls_simulates (R := fun c a => Replays c ∧ fresh c = a)
    (fun _ _ op ⟨hc, ha⟩ hop => ha ▸ hc.call op (ha ▸ hop)) ops c (fresh c) ⟨hc, rfl⟩ hops

/-- On `cutIndex`, whose node under `ac` has its child entry past the trie, the searches for `ab`
and `ac` descend with no read failing; the second throws while gathering. -/
theorem session_replays_cutSession :
    Replays cutSession ∧
      Allowed Op.Replayable Op.stateless (fresh cutSession) [.search 2 [97, 98], .search 2 [97, 99]] ∧
      ((session cutSession [.search 2 [97, 98], .search 2 [97, 99]]).1 =
          (statelessSession (fresh cutSession) [.search 2 [97, 98], .search 2 [97, 99]]).1 ∧
        Replays (session cutSession [.search 2 [97, 98], .search 2 [97, 99]]).2 ∧
        fresh (session cutSession [.search 2 [97, 98], .search 2 [97, 99]]).2 =
          (statelessSession (fresh cutSession) [.search 2 [97, 98], .search 2 [97, 99]]).2) :=
  ⟨⟨rfl, rfl, rfl⟩, ⟨rfl, rfl, trivial⟩,
    session_replays (c := cutSession) ⟨rfl, rfl, rfl⟩ [.search 2 [97, 98], .search 2 [97, 99]]
      ⟨rfl, rfl, trivial⟩⟩

end Search

end DocSearch
