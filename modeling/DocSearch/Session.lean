import DocSearch.Incremental

/-!
# Sessions of `init`, `load` and `search`

A page drives the one `Search` object with three calls in any order: `init` on a downloaded
index, `load` on an embedded base85 one, and `search` on every input event. The specification
reads this statelessly: an index is opened, a session over it starts from the root, and a search
is answered as from that fresh session, so that keeping the stack between queries is an
optimisation no caller can observe. `Op.stateless` is that reading: its state is the index with
the empty query, a search leaves it as it is, and an `init` or a `load` replaces it only when it
returns `true`.

`session_simulates` shows that the code refines this reading over every run of calls whose
buffers `init` either rejects untouched or loads whole (`Loadable`): the object gives the same
replies, and it is always a matching session over the index of the stateless reading
(`Simulates`). The session invariant of the specification then holds in every state such a run
reaches (`sessionInv_session`). Both conditions are needed: a read past the trie during the
descent throws and leaves a partial stack, and an `init` that throws on a map offset in
`[10, 14)` leaves the stack of the old trie, after which a search throws where the stateless
reading answers (`session_stale_stack`).

Such an `init` also breaks the invariant the source states for the stack in a comment, the root
offset and one node offset per entered character: it clears the stored query and keeps the old
stack (`init_throw_overwrites`).

Every `init` and `load` is one of two kinds (`Reloads`): it returns `true` with the fresh session
over an index that does not depend on the state, or it replies the same and leaves the state as
it was. A buffer is of one of these kinds when its header leaves room for the root offset
(`init_reloads_of`).
-/

set_option autoImplicit false

namespace DocSearch

namespace Search

/-! ## Calls and runs -/

/-- A call on the `Search` object: `init(buffer, maxResults)`, `load(base85string)`, or
`search(searchString)` with the fuel of its loops. -/
inductive Op
  | init (buffer : List UInt8) (maxResults : Nat)
  | load (base85string : List UInt16)
  | search (fuel : Nat) (searchString : List UInt8)

/-- What a call returns: the result of `init` or `load`, or the results of a search. -/
inductive Reply
  | loaded (r : Except Error Bool)
  | results (r : Except Error (List MatchRecord))

/-- One call as the code makes it: its reply and the state after it. -/
def Op.call (s : Search) : Op → Reply × Search
  | .init buffer k => (.loaded (Search.init s buffer k).1, (Search.init s buffer k).2)
  | .load base85string =>
    (.loaded (Search.load s base85string).1, (Search.load s base85string).2)
  | .search fuel q => (.results (Search.search fuel s q).1, (Search.search fuel s q).2)

/-- The index a call of `init` or `load` leaves in the stateless reading: the new session when
the call returns `true`, the old index otherwise. -/
def reload (s : Search) : Except Error Bool × Search → Search
  | (.ok true, s') => s'
  | _ => s

/-- One call in the stateless reading: a search is answered as from the fresh session over the
index and changes nothing. -/
def Op.stateless (s : Search) : Op → Reply × Search
  | .init buffer k => (.loaded (Search.init s buffer k).1, reload s (Search.init s buffer k))
  | .load base85string =>
    (.loaded (Search.load s base85string).1, reload s (Search.load s base85string))
  | .search fuel q => (.results (Search.search fuel (fresh s) q).1, s)

/-- The replies to the calls `ops` in order, each made by `step` on the state the one before
left, and the state after the last. -/
def runCalls (step : Search → Op → Reply × Search) (s : Search) : List Op → List Reply × Search
  | [] => ([], s)
  | op :: ops =>
    let r := step s op
    let t := runCalls step r.2 ops
    (r.1 :: t.1, t.2)

/-- A session of the code. -/
def session : Search → List Op → List Reply × Search := runCalls Op.call

/-- A session in the stateless reading. -/
def statelessSession : Search → List Op → List Reply × Search := runCalls Op.stateless

/-- Each call of `ops` is allowed by `P` in the state `step` has reached when it is made. -/
def Allowed (P : Search → Op → Prop) (step : Search → Op → Reply × Search) :
    Search → List Op → Prop
  | _, [] => True
  | s, op :: ops => P s op ∧ Allowed P step (step s op).2 ops

/-- A condition on the calls alone allows a run when every call meets it. -/
theorem allowed_of_forall {P : Op → Prop} {step : Search → Op → Reply × Search} :
    ∀ {s : Search} {ops : List Op}, (∀ op ∈ ops, P op) → Allowed (fun _ => P) step s ops
  | _, [], _ => trivial
  | _, op :: _, h =>
    ⟨h op (List.mem_cons_self _ _), allowed_of_forall fun op' h' => h op' (List.mem_cons_of_mem _ h')⟩

/-- A step simulation lifts to runs: when `step` on a state related to one of `step'` gives the
same reply and related states after every call that `P` allows in the state of `step'`, the two
runs of any list of calls so allowed give the same replies and end in related states. -/
theorem runCalls_simulates {R : Search → Search → Prop} {P : Search → Op → Prop}
    {step step' : Search → Op → Reply × Search}
    (h : ∀ c a op, R c a → P a op → (step c op).1 = (step' a op).1 ∧ R (step c op).2 (step' a op).2) :
    ∀ (ops : List Op) (c a : Search), R c a → Allowed P step' a ops →
      (runCalls step c ops).1 = (runCalls step' a ops).1 ∧
        R (runCalls step c ops).2 (runCalls step' a ops).2
  | [], _, _, hr, _ => ⟨rfl, hr⟩
  | op :: ops, c, a, hr, ⟨hp, hps⟩ => by
    obtain ⟨hreply, hr'⟩ := h c a op hr hp
    obtain ⟨hreplies, hend⟩ := runCalls_simulates h ops _ _ hr' hps
    exact ⟨by simp only [runCalls, hreply, hreplies], hend⟩

/-- An invariant that every allowed call keeps holds after every run of allowed calls. -/
theorem runCalls_preserves {I : Search → Prop} {P : Op → Prop}
    {step : Search → Op → Reply × Search} (h : ∀ s op, I s → P op → I (step s op).2) :
    ∀ (ops : List Op) (s : Search), I s → (∀ op ∈ ops, P op) → I (runCalls step s ops).2
  | [], _, hs, _ => hs
  | op :: ops, s, hs, hp =>
    runCalls_preserves h ops _ (h s op hs (hp op (List.mem_cons_self _ _)))
      fun op' h' => hp op' (List.mem_cons_of_mem _ h')

/-! ## What `init` and `load` can do -/

/-- A buffer past whose header checks a map offset from 10 on leaves room for the root offset,
so that `init` never throws after writing. -/
def RootFits (buffer : List UInt8) : Prop :=
  HeaderOk buffer → 10 ≤ mapOffset buffer → 14 ≤ mapOffset buffer

/-- The calls whose buffers are `RootFits`. -/
def Op.RootFits : Op → Prop
  | .init buffer _ => Search.RootFits buffer
  | .load base85string => ∀ buffer, base85decode base85string = some buffer → Search.RootFits buffer
  | .search _ _ => True

/-- A buffer that `init` either rejects with the state untouched or loads whole: past the header
checks, a map offset inside the buffer leaves room for the root offset, and every node reachable
from the root lies in the trie. -/
def Loadable (buffer : List UInt8) : Prop :=
  HeaderOk buffer → 10 ≤ mapOffset buffer → mapOffset buffer ≤ buffer.length →
    14 ≤ mapOffset buffer ∧ TrieInside (loaded blank buffer 0)

/-- The calls whose buffers are `Loadable`; a string `base85decode` rejects is one. -/
def Op.Loadable : Op → Prop
  | .init buffer _ => Search.Loadable buffer
  | .load base85string => ∀ buffer, base85decode base85string = some buffer → Search.Loadable buffer
  | .search _ _ => True

/-- A loadable buffer leaves room for the root offset: a map offset past the buffer lies past the
20 bytes of the header. -/
theorem Loadable.rootFits {buffer : List UInt8} (h : Loadable buffer) : RootFits buffer :=
  fun hh h10 => by
    by_cases hle : mapOffset buffer ≤ buffer.length
    · exact (h hh h10 hle).1
    · have := hh.1
      omega

/-- A call of `init` or `load` that, whatever the state, either returns `true` and leaves the
fresh session over one index with the property `Q`, or replies the same and leaves the state as
it was. -/
def Reloads (Q : Search → Prop) (f : Search → Except Error Bool × Search) : Prop :=
  (∃ t, Q t ∧ ∀ s, f s = (.ok true, fresh t)) ∨ ∃ r, ∀ s, f s = (r, s)

/-- **On a buffer that leaves room for the root offset, `init` reloads**, over the index it loads
whenever it loads one. -/
theorem init_reloads_of {Q : Search → Prop} {buffer : List UInt8} (h : RootFits buffer) (k : Nat)
    (hq : HeaderOk buffer → 14 ≤ mapOffset buffer → mapOffset buffer ≤ buffer.length →
      Q (loaded blank buffer k)) :
    Reloads Q fun s => init s buffer k := by
  rcases init_cases blank buffer k with ⟨hh, -⟩ | ⟨hh, hout, -⟩ | ⟨hh, h10, h14, -⟩ |
    ⟨hh, h14, hle, -⟩
  · exact .inr ⟨_, fun s => init_of_not_headerOk s buffer k hh⟩
  · exact .inr ⟨_, fun s => init_of_mapOffset_outside hh hout⟩
  · exact absurd (h hh h10) (by omega)
  · exact .inl ⟨loaded blank buffer k, hq hh h14 hle, fun s => init_of_valid hh (by omega) hle h14⟩

theorem init_reloads {buffer : List UInt8} (h : Loadable buffer) (k : Nat) :
    Reloads TrieInside fun s => init s buffer k :=
  init_reloads_of h.rootFits k fun hh h14 hle => (h hh (by omega) hle).2

/-- `load` reloads as `init` does on every buffer it can decode. -/
theorem load_reloads {Q : Search → Prop} {base85string : List UInt16}
    (h : ∀ buffer, base85decode base85string = some buffer → Reloads Q fun s => init s buffer 0) :
    Reloads Q fun s => load s base85string := by
  cases hd : base85decode base85string with
  | none => exact .inr ⟨.error .typeError, fun s => by simp only [load, hd]⟩
  | some buffer =>
    have hload : (fun s => load s base85string) = fun s => init s buffer 0 :=
      funext fun s => by simp only [load, hd]
    rw [hload]
    exact h buffer hd

/-! ## The code refines the stateless reading -/

/-- The code's state `c` stands for the stateless state `a`: a matching session whose reachable
nodes lie in the trie, over the index of `a`. -/
structure Simulates (c a : Search) : Prop where
  matching : Matches c
  inside : TrieInside c
  index : fresh c = a

theorem reload_self (s : Search) (r : Except Error Bool) : reload s (r, s) = s := by
  rcases r with _ | _ | _ <;> rfl

section Step

variable {c a : Search} (hs : Simulates c a)
include hs

/-- A call of `init` or `load` keeps the simulation, with the same reply. -/
theorem Simulates.reloads {f : Search → Except Error Bool × Search} (hf : Reloads TrieInside f) :
    (f c).1 = (f a).1 ∧ Simulates (f c).2 (reload a (f a)) := by
  rcases hf with ⟨t, hin, hf⟩ | ⟨r, hf⟩
  · rw [hf, hf]
    exact ⟨rfl, matches_fresh t, hin, rfl⟩
  · rw [hf, hf, reload_self a r]
    exact ⟨rfl, hs⟩

/-- A search keeps the simulation, and its reply is the fresh session's. -/
theorem Simulates.search (fuel : Nat) (q : List UInt8) :
    (search fuel c q).1 = (search fuel (fresh a) q).1 ∧ Simulates (search fuel c q).2 a := by
  obtain ⟨hm, hin, rfl⟩ := hs
  refine ⟨congrArg Prod.fst (search_fresh hm hin fuel q), ?_⟩
  rw [search_of_matches hm fuel q (hin.path q)]
  exact ⟨matches_matched q, hin, rfl⟩

/-- **One call keeps the simulation**, with the reply of the stateless reading. -/
theorem Simulates.call (op : Op) (hop : op.Loadable) :
    (op.call c).1 = (op.stateless a).1 ∧ Simulates (op.call c).2 (op.stateless a).2 := by
  cases op with
  | init buffer k =>
    obtain ⟨h1, h2⟩ := hs.reloads (init_reloads hop k)
    exact ⟨congrArg Reply.loaded h1, h2⟩
  | load base85string =>
    obtain ⟨h1, h2⟩ := hs.reloads (load_reloads fun buffer hd => init_reloads (hop buffer hd) 0)
    exact ⟨congrArg Reply.loaded h1, h2⟩
  | search fuel q =>
    obtain ⟨h1, h2⟩ := hs.search fuel q
    exact ⟨congrArg Reply.results h1, h2⟩

end Step

/-- **Stack reuse is invisible over every session.** From a matching session whose reachable
nodes lie in the trie, over any calls of `init`, `load` and `search` whose buffers are loadable,
the object gives the replies of the stateless reading started from the same index, and ends in a
matching session, with its reachable nodes in the trie, over the index that reading ends with. -/
theorem session_simulates {c : Search} (hm : Matches c) (hin : TrieInside c) (ops : List Op)
    (hops : ∀ op ∈ ops, op.Loadable) :
    (session c ops).1 = (statelessSession (fresh c) ops).1 ∧
      Simulates (session c ops).2 (statelessSession (fresh c) ops).2 :=
  runCalls_simulates (P := fun _ => Op.Loadable) (fun _ _ op hs hop => hs.call op hop) ops c
    (fresh c) ⟨hm, hin, rfl⟩ (allowed_of_forall hops)

/-- A run that searches, sends `init` a buffer too short for a header, reloads `pairIndex` with a
cap of 1, and searches for `a`, whose node holds two results. -/
def reloadCalls : List Op :=
  [.search 2 [97, 98], .init [0] 0, .init pairIndex 1, .search 2 [97]]

theorem loadable_pairIndex : Loadable pairIndex :=
  fun _ _ _ => ⟨by decide, trieInside_pairSession⟩

theorem reloadCalls_loadable : ∀ op ∈ reloadCalls, op.Loadable := by
  intro op hop
  simp only [reloadCalls, List.mem_cons, List.mem_singleton, List.not_mem_nil, or_false] at hop
  rcases hop with rfl | rfl | rfl | rfl
  exacts [trivial, fun h => absurd h.1 (by decide), loadable_pairIndex, trivial]

theorem session_simulates_reloadCalls :
    init blank pairIndex 0 = (.ok true, pairSession) ∧ Matches pairSession ∧
      TrieInside pairSession ∧ (∀ op ∈ reloadCalls, op.Loadable) ∧
      (session pairSession reloadCalls).1 = (statelessSession (fresh pairSession) reloadCalls).1 ∧
      Simulates (session pairSession reloadCalls).2
        (statelessSession (fresh pairSession) reloadCalls).2 :=
  ⟨init_pairIndex, ⟨rfl, rfl⟩, trieInside_pairSession, reloadCalls_loadable,
    session_simulates (c := pairSession) ⟨rfl, rfl⟩ trieInside_pairSession reloadCalls
      reloadCalls_loadable⟩

/-- The session invariant of the specification holds in every state a run of loadable calls
reaches from a matching session whose reachable nodes lie in the trie. -/
theorem sessionInv_session {c : Search} (hm : Matches c) (hin : TrieInside c) (ops : List Op)
    (hops : ∀ op ∈ ops, op.Loadable) : SessionInv (session c ops).2 :=
  sessionInv_of_matches (runCalls_simulates (R := Simulates) (P := fun _ => Op.Loadable)
    (fun _ _ op hs hop => hs.call op hop) ops c (fresh c) ⟨hm, hin, rfl⟩
    (allowed_of_forall hops)).2.matching

theorem sessionInv_session_reloadCalls :
    init blank pairIndex 0 = (.ok true, pairSession) ∧ Matches pairSession ∧
      TrieInside pairSession ∧ (∀ op ∈ reloadCalls, op.Loadable) ∧
      SessionInv (session pairSession reloadCalls).2 :=
  ⟨init_pairIndex, ⟨rfl, rfl⟩, trieInside_pairSession, reloadCalls_loadable,
    sessionInv_session (c := pairSession) ⟨rfl, rfl⟩ trieInside_pairSession reloadCalls
      reloadCalls_loadable⟩

/-- An `init` that throws on a map offset in `[10, 14)` breaks the simulation. The session after
`init` on `oneChildIndex` is matching with its nodes in the trie, but `emptyTrieBuffer` is not
loadable: `init` on it throws and leaves the root offset of the old trie on the stack, and the
search for the empty query then reads past the new, empty trie, where the stateless reading
answers from `oneChildIndex`. -/
theorem session_stale_stack :
    Matches (init blank oneChildIndex 0).2 ∧ TrieInside (init blank oneChildIndex 0).2 ∧
      ¬ Loadable emptyTrieBuffer ∧
      (session (init blank oneChildIndex 0).2 [.init emptyTrieBuffer 0, .search 2 []]).1 =
        [.loaded (.error .rangeError), .results (.error .rangeError)] ∧
      (statelessSession (fresh (init blank oneChildIndex 0).2)
        [.init emptyTrieBuffer 0, .search 2 []]).1 =
        [.loaded (.error .rangeError), .results (.ok [])] :=
  ⟨⟨rfl, rfl⟩, trieInside_oneChildIndex,
    fun h => absurd (h (by unfold HeaderOk; decide) (by decide) (by decide)).1 (by decide),
    rfl, rfl⟩

/-- The session after `init` on `oneChildIndex` and a search for `a`. -/
def typedSession : Search := (search 0 (init blank oneChildIndex 0).2 [97]).2

/-- After `init` on `oneChildIndex` and a search for `a`, the session invariant holds. An `init`
on `emptyTrieBuffer` then throws after it has cleared the stored query, and the stack keeps two
offsets into the old trie: the state breaks the invariant, and the search for the empty query,
which the state before that `init` answers with no results, throws. -/
theorem init_throw_overwrites :
    SessionInv typedSession ∧ (init typedSession emptyTrieBuffer 0).1 = .error .rangeError ∧
      (init typedSession emptyTrieBuffer 0).2.searchString = [] ∧
      (init typedSession emptyTrieBuffer 0).2.searchStack = [4, 10] ∧
      ¬ SessionInv (init typedSession emptyTrieBuffer 0).2 ∧
      (search 2 typedSession []).1 = .ok [] ∧
      (search 2 (init typedSession emptyTrieBuffer 0).2 []).1 = .error .rangeError :=
  ⟨sessionInv_of_matches ⟨rfl, rfl⟩, rfl, rfl, rfl, fun h => absurd h.1 (by decide), rfl, rfl⟩

end Search

end DocSearch
