import DocSearch.Incremental
import DocSearch.Resolve

/-!
# Breadth-first gathering

After the descent, `search` gathers results from the matched node `N` with a FIFO queue of
`(offset, suffixLength)` pairs. It pops a node, resolves its result indices at top level until
`maxResults` results are collected, and appends its children without the lookahead barrier one
level deeper. The specification describes the output by levels instead: level 0 is `[N]`, level
`d + 1` lists the children without the barrier of each node of level `d` in order, and the
result pairs `pairsFrom` are each node's result indices, level by level, paired with the level.

The proof goes through the queue semantics `Emits`: a queue, run to the end, emits the result
pairs of its nodes in FIFO order. Processing a segment of the queue emits its own pairs first
and leaves its expansion behind the rest (`Emits.segment`). So the queue `[(N, 0)]` emits the
pairs of every level in order (`emits_pairsFrom`). The code's loop computes the capped
resolution of what its queue emits (`gatherLeaves_of_emits`). When the non-barrier children
below `N` form no cycle, the levels run out (`exists_level_eq_nil`) and the loop needs only
finite fuel. With a cycle it queues the same nodes forever (`search_loopSession`).

`search_breadthFirst` puts this together after a successful `init`. A query without a descent
path returns `[]`. Otherwise every search with enough fuel returns the resolutions of the first
`maxResults` result pairs. Both parts need the descent to read nothing past the trie. It scans a
node's child entries only up to the first one under the byte, so entries it does not reach may
lie anywhere (`search_breadthFirst_tailIndex`). `search_throws_overrunIndex` is an index that
`init` accepts whose root's only child entry overruns the trie, so `search` throws instead of
returning `[]`.

`search_records` joins this with the resolution of records (`ResultMap.Resolves`): when the
records the first `maxResults` result pairs name are well formed, every search with enough fuel
returns, pair by pair, the record the specification resolves the pair to.
-/

set_option autoImplicit false

namespace DocSearch

open Relation

namespace Trie

variable (trie : DataView)

/-! ## Level order -/

/-- Level `d` of the level-order enumeration from `N`. -/
def level (N : Nat) : Nat → List Nat
  | 0 => [N]
  | d + 1 => (level N d).flatMap (kids trie)

/-- The result pairs of level `d`: each node's result indices in stored order, with `d`. -/
def levelPairs (N d : Nat) : List (Nat × Nat) :=
  (level trie N d).flatMap fun o => (resultIndices trie o).map (·, d)

/-- The result pairs of the `k` levels from level `d` on. -/
def pairsFrom (N : Nat) : Nat → Nat → List (Nat × Nat)
  | _, 0 => []
  | d, k + 1 => levelPairs trie N d ++ pairsFrom N (d + 1) k

/-- Every node below `N` through children without the barrier lies inside the trie. -/
def Closed (N : Nat) : Prop := ∀ o, ReflTransGen (Below trie) N o → NodeInside trie o

/-! ## The queue semantics -/

/-- The result pairs a queue entry emits: its node's result indices at its depth. -/
def emit (x : Nat × Nat) : List (Nat × Nat) := (resultIndices trie x.1).map (·, x.2)

/-- The queue entries a popped entry appends: its children without the barrier, one deeper. -/
def expand (x : Nat × Nat) : List (Nat × Nat) := (kids trie x.1).map (·, x.2 + 1)

/-- `Emits q L n`: the queue `q`, run to the end, pops `n` entries and emits the pairs `L`. -/
inductive Emits : List (Nat × Nat) → List (Nat × Nat) → Nat → Prop
  | nil : Emits [] [] 0
  | cons {x : Nat × Nat} {q L : List (Nat × Nat)} {n : Nat} :
      Emits (q ++ expand trie x) L n → Emits (x :: q) (emit trie x ++ L) (n + 1)

variable {trie}

/-- **A segment of the queue emits its own pairs first** and leaves its expansion behind the
rest of the queue. -/
theorem Emits.segment : ∀ (q r L : List (Nat × Nat)) (n : Nat),
    Emits trie (r ++ q.flatMap (expand trie)) L n →
      Emits trie (q ++ r) (q.flatMap (emit trie) ++ L) (n + q.length)
  | [], r, L, n, h => by simpa using h
  | x :: q, r, L, n, h => by
    have ih := Emits.segment q (r ++ expand trie x) L n (by simpa using h)
    rw [← List.append_assoc] at ih
    simpa [Nat.add_assoc, Nat.add_comm 1] using Emits.cons ih

theorem flatMap_expand_level (N d : Nat) :
    ((level trie N d).map (·, d)).flatMap (expand trie) =
      (level trie N (d + 1)).map (·, d + 1) := by
  simp [level, expand, List.flatMap_map, List.map_flatMap]

/-- The queue of level `d` emits the pairs of the levels from `d` on, up to an empty one. -/
theorem emits_pairsFrom (N : Nat) : ∀ k d, level trie N (d + k) = [] →
    ∃ n, Emits trie ((level trie N d).map (·, d)) (pairsFrom trie N d k) n
  | 0, d, h => ⟨0, by rw [Nat.add_zero] at h; simpa [pairsFrom, h] using @Emits.nil trie⟩
  | k + 1, d, h => by
    obtain ⟨n, hn⟩ := emits_pairsFrom N k (d + 1) (by rwa [Nat.add_right_comm, Nat.add_assoc])
    refine ⟨n + ((level trie N d).map (·, d)).length, ?_⟩
    have := Emits.segment _ [] _ n (by rwa [List.nil_append, flatMap_expand_level])
    simpa [pairsFrom, levelPairs, emit, List.flatMap_map] using this

/-! ## The levels run out -/

theorem level_succ (N : Nat) : ∀ d, level trie N (d + 1) = (kids trie N).flatMap (level trie · d)
  | 0 => by simp [level]
  | d + 1 => by
    rw [level, level_succ N d, List.flatMap_assoc]
    rfl

theorem level_eq_nil_of_le {N d e : Nat} (h : level trie N d = []) (hle : d ≤ e) :
    level trie N e = [] := by
  induction hle with
  | refl => exact h
  | step _ ih => simp [level, ih]

theorem levelPairs_eq_nil {N d : Nat} (h : level trie N d = []) : levelPairs trie N d = [] := by
  simp [levelPairs, h]

theorem pairsFrom_eq_nil {N : Nat} : ∀ {d} k, level trie N d = [] → pairsFrom trie N d k = []
  | _, 0, _ => rfl
  | _, k + 1, h => by
    simp [pairsFrom, levelPairs_eq_nil h, pairsFrom_eq_nil k (level_eq_nil_of_le h (Nat.le_succ _))]

theorem pairsFrom_add {N : Nat} : ∀ d k j,
    pairsFrom trie N d (k + j) = pairsFrom trie N d k ++ pairsFrom trie N (d + k) j
  | _, 0, _ => by simp [pairsFrom]
  | d, k + 1, j => by
    rw [Nat.add_right_comm, pairsFrom, pairsFrom_add (d + 1) k j, pairsFrom]
    simp [Nat.add_right_comm, Nat.add_assoc]

/-- Once the levels run out, the result pairs no longer depend on how many levels are taken. -/
theorem pairsFrom_stable {N K K' : Nat} (hK : level trie N K = []) (hK' : level trie N K' = []) :
    pairsFrom trie N 0 K = pairsFrom trie N 0 K' := by
  wlog hle : K ≤ K' generalizing K K'
  · exact (this hK' hK (by omega)).symm
  obtain ⟨j, rfl⟩ := Nat.exists_eq_add_of_le hle
  rw [pairsFrom_add, Nat.zero_add, pairsFrom_eq_nil j hK, List.append_nil]

theorem kids_lt {o o' : Nat} (h : o' ∈ kids trie o) : o' < 2 ^ 23 := by
  obtain ⟨ch, hch, rfl⟩ := List.mem_map.mp h
  obtain ⟨j, -, rfl⟩ := List.mem_map.mp (List.mem_filter.mp hch).1
  exact Nat.and_lt_two_pow _ (by decide)

/-- Nodes whose levels each run out run out at one common level. -/
theorem exists_level_eq_nil_forall :
    ∀ {l : List Nat}, (∀ o ∈ l, ∃ K, level trie o K = []) → ∃ K, ∀ o ∈ l, level trie o K = []
  | [], _ => ⟨0, by simp⟩
  | o :: l, h => by
    obtain ⟨K, hK⟩ := h o (List.mem_cons_self _ _)
    obtain ⟨K', hK'⟩ := exists_level_eq_nil_forall fun x hx => h x (List.mem_cons_of_mem _ hx)
    refine ⟨max K K', fun x hx => ?_⟩
    rcases List.mem_cons.mp hx with rfl | hx
    · exact level_eq_nil_of_le hK (le_max_left _ _)
    · exact level_eq_nil_of_le (hK' x hx) (le_max_right _ _)

/-- Below a node from which no path of children without the barrier is infinite, the levels
run out. -/
theorem exists_level_eq_nil {N : Nat} (hacc : Acc (fun y x => Below trie x y) N) :
    ∃ K, level trie N K = [] := by
  induction hacc with
  | intro N _ ih =>
    obtain ⟨K, hK⟩ := exists_level_eq_nil_forall ih
    exact ⟨K + 1, by rw [level_succ, List.flatMap_eq_nil_iff]; exact hK⟩

end Trie

namespace Search

/-! ## The gather loop -/

section Gather

variable (fuel : Nat) (s : Search)

/-- The results loop run over a list of result pairs: resolve each at top level after
`results`, and stop once `maxResults` results are collected. -/
def pushPairs (results : List MatchRecord) :
    List (Nat × Nat) → Except Error (ForInStep (List MatchRecord))
  | [] => .ok (.yield results)
  | (index, suffixLength) :: pairs => do
    let results := results ++ [← gatherResult fuel s.map index suffixLength 0xffffff]
    if results.length ≥ s.maxResults then pure (.done results) else pushPairs results pairs

/-- The results loop of a node inside the trie runs over its result pairs. -/
theorem pushResults_of_inside {o : Nat} (hin : Trie.NodeInside s.trie o) (d : Nat) :
    ∀ left j results, j + left = Trie.resultCount s.trie o →
      pushResults fuel s o d j left results =
        pushPairs fuel s results (((Trie.resultIndices s.trie o).drop j).map (·, d))
  | 0, j, results, h => by
    rw [pushResults, List.drop_eq_nil_of_le (by simp [Trie.resultIndices]; omega)]
    rfl
  | left + 1, j, results, h => by
    have hj : j < Trie.resultCount s.trie o := by omega
    have hr : o + (j + 1) * 2 + 2 ≤ s.trie.byteLength := by
      have : (j + 1) * 2 ≤ Trie.resultCount s.trie o * 2 := Nat.mul_le_mul_right 2 hj
      unfold Trie.NodeInside Trie.childStart at hin
      omega
    rw [pushResults, DataView.getUint16_of_le hr, Trie.resultIndices_drop hj, List.map_cons,
      pushPairs, ok_bind]
    congr 1
    funext r
    dsimp only
    split
    · rfl
    · exact pushResults_of_inside hin d left (j + 1) _ (by omega)

theorem pushPairs_append (pairs rest : List (Nat × Nat)) : ∀ results,
    pushPairs fuel s results (pairs ++ rest) = pushPairs fuel s results pairs >>= fun st =>
      match st with
      | .done r => .ok (.done r)
      | .yield r => pushPairs fuel s r rest := by
  induction pairs with
  | nil => intro results; rfl
  | cons p pairs ih =>
    intro results
    obtain ⟨index, d⟩ := p
    simp only [List.cons_append, pushPairs]
    cases gatherResult fuel s.map index d 0xffffff with
    | error e => rfl
    | ok r =>
      simp only [ok_bind]
      split
      · rfl
      · exact ih _

/-- **The gather loop resolves what its queue emits**, capped at `maxResults`, when every node
below the queue lies inside the trie and the loop has a step for every node it pops. -/
theorem gatherLeaves_of_emits {queue pairs : List (Nat × Nat)} {n : Nat}
    (h : Trie.Emits s.trie queue pairs n) : ∀ steps, n ≤ steps →
      (∀ x ∈ queue, Trie.Closed s.trie x.1) → ∀ results,
        gatherLeaves fuel s steps queue results =
          ForInStep.value <$> pushPairs fuel s results pairs := by
  induction h with
  | nil => intro steps _ _ results; cases steps <;> rfl
  | @cons x q pairs n _ ih =>
    intro steps hn hclosed results
    obtain ⟨steps, rfl⟩ : ∃ k, steps = k + 1 := ⟨steps - 1, by omega⟩
    obtain ⟨o, d⟩ := x
    have hx := hclosed (o, d) (List.mem_cons_self _ _)
    have hin : Trie.NodeInside s.trie o := hx o .refl
    have hq : ∀ y ∈ q ++ Trie.expand s.trie (o, d), Trie.Closed s.trie y.1 := by
      intro y hy
      rcases List.mem_append.mp hy with hy | hy
      · exact hclosed y (List.mem_cons_of_mem _ hy)
      · obtain ⟨o', ho', rfl⟩ := List.mem_map.mp hy
        exact fun o'' h => hx o'' (.head ho' h)
    have hb := Trie.byte_inside hin
    rw [gatherLeaves, DataView.getUint8_of_lt (by omega), ok_bind,
      pushResults_of_inside fuel s hin d (s.trie.byte o) 0 results (Nat.zero_add _),
      List.drop_zero]
    simp only [Trie.emit, pushPairs_append]
    rcases pushPairs fuel s results ((Trie.resultIndices s.trie o).map (·, d)) with e | r | r
    · rfl
    · rfl
    · simp only [ok_bind, DataView.getUint8_of_lt (show o < s.trie.byteLength by omega),
        DataView.getUint8_of_lt hb]
      rw [show o + (2 + s.trie.byte o * 2) = Trie.childStart s.trie o from rfl,
        show s.trie.byte (o + 1) = Trie.childCount s.trie o from rfl, Trie.pushChildren_kids hin,
        ok_bind]
      exact ih steps (by omega) hq r

/-- The results loop over a list of pairs, from fewer than `maxResults` results, resolves the
pairs that fit under the cap. -/
theorem pushPairs_value : ∀ (pairs : List (Nat × Nat)) (results : List MatchRecord),
    results.length < s.maxResults →
      ForInStep.value <$> pushPairs fuel s results pairs = (results ++ ·) <$>
        (pairs.take (s.maxResults - results.length)).mapM
          fun p => gatherResult fuel s.map p.1 p.2 0xffffff
  | [], results, _ => by
    simp only [pushPairs, List.take_nil, List.mapM_nil, pure_eq_ok, map_ok, List.append_nil]
    rfl
  | (index, d) :: pairs, results, h => by
    obtain ⟨k, hk⟩ : ∃ k, s.maxResults - results.length = k + 1 :=
      ⟨s.maxResults - results.length - 1, by omega⟩
    rw [hk, List.take_succ_cons, List.mapM_cons, pushPairs]
    cases gatherResult fuel s.map index d 0xffffff with
    | error e => rfl
    | ok r =>
      simp only [ok_bind]
      by_cases hcap : (results ++ [r]).length ≥ s.maxResults
      · have hk0 : k = 0 := by simp at hcap; omega
        simp only [if_pos hcap, hk0, List.take_zero, List.mapM_nil]
        rfl
      · have hk' : s.maxResults - (results ++ [r]).length = k := by simp; omega
        rw [if_neg hcap, pushPairs_value pairs _ (by omega), hk']
        cases (pairs.take k).mapM fun p => gatherResult fuel s.map p.1 p.2 0xffffff <;> simp

/-- **The gather loop from `N` resolves the first `maxResults` result pairs of the level
order**, within a number of steps that does not depend on the fuel of `gatherResult`. -/
theorem gatherLeaves_levels {N K : Nat} (hclosed : Trie.Closed s.trie N)
    (hK : Trie.level s.trie N K = []) (hm : 0 < s.maxResults) :
    ∃ F, ∀ fuel steps, F ≤ steps → gatherLeaves fuel s steps [(N, 0)] [] =
      ((Trie.pairsFrom s.trie N 0 K).take s.maxResults).mapM
        fun p => gatherResult fuel s.map p.1 p.2 0xffffff := by
  obtain ⟨n, hn⟩ := Trie.emits_pairsFrom N K 0 (by rwa [Nat.zero_add])
  have hn' : Trie.Emits s.trie [(N, 0)] (Trie.pairsFrom s.trie N 0 K) n := hn
  refine ⟨n, fun fuel steps hsteps => ?_⟩
  rw [gatherLeaves_of_emits fuel s hn' steps hsteps (by simpa using hclosed) [],
    pushPairs_value fuel s _ [] hm]
  simp

end Gather

/-! ## `search` after `init` -/

/-- **After `init`, `search` gathers breadth-first.** Take a query whose descent from the root
reads nothing past the trie. If the query has no descent path, `search` returns `[]`. Otherwise
let `N` be the node it ends at. If the nodes below `N` through children without the barrier
lie inside the trie and none of them lies on a cycle of such children, then the levels below
`N` run out. Every search with enough fuel then returns the resolutions of the first
`maxResults` result pairs of the level order. -/
theorem search_breadthFirst {s s₀ : Search} {buffer : List UInt8} {k : Nat}
    (hinit : init s buffer k = (.ok true, s₀)) (Q : List UInt8)
    (hdesc : (descend s₀.trie s₀.root Q).2 = none) :
    ((Trie.walk s₀.trie s₀.root Q).length ≠ Q.length →
      ∀ fuel, (search fuel s₀ Q).1 = .ok []) ∧
    ((Trie.walk s₀.trie s₀.root Q).length = Q.length →
      Trie.Closed s₀.trie (Trie.endpoint s₀.trie s₀.root Q) →
      (∀ o, ReflTransGen (Trie.Below s₀.trie) (Trie.endpoint s₀.trie s₀.root Q) o →
        ¬ TransGen (Trie.Below s₀.trie) o o) →
      (∃ K, Trie.level s₀.trie (Trie.endpoint s₀.trie s₀.root Q) K = []) ∧
      ∃ F, ∀ fuel, F ≤ fuel →
        ∀ K, Trie.level s₀.trie (Trie.endpoint s₀.trie s₀.root Q) K = [] →
          (search fuel s₀ Q).1 =
            ((Trie.pairsFrom s₀.trie (Trie.endpoint s₀.trie s₀.root Q) 0 K).take
              s₀.maxResults).mapM fun p => gatherResult fuel s₀.map p.1 p.2 0xffffff) := by
  have h₀ : s₀ = fresh s₀ := by rw [init_eq_fresh hinit]; rfl
  have hsearch := fun fuel => (congrArg (search fuel · Q) h₀).trans (search_from_fresh fuel hdesc)
  have hmax : 0 < s₀.maxResults := by rw [init_eq_fresh hinit]; exact maxResults_loaded s buffer k
  refine ⟨fun hne fuel => by simp [hsearch, hne], fun heq hclosed hacyc => ?_⟩
  obtain ⟨K₀, hK₀⟩ :=
    Trie.exists_level_eq_nil (acc_of_acyclic (fun _ _ h => Trie.kids_lt h) hacyc)
  obtain ⟨F, hF⟩ := gatherLeaves_levels (matched s₀ Q) hclosed hK₀ hmax
  refine ⟨⟨K₀, hK₀⟩, F, fun fuel hfuel K hK => ?_⟩
  rw [hsearch, if_neg (not_not.mpr heq), Trie.pairsFrom_stable hK hK₀]
  exact hF fuel fuel hfuel

/-! ## A cycle keeps the gather loop going -/

/-- The session of `pairSession` with a 10-byte trie whose root is its own child under `a`,
without the lookahead barrier, and holds no result. -/
def loopSession : Search :=
  { pairSession with trie := ⟨[4, 0, 0, 0, 0, 1, 4, 0, 0, 97]⟩ }

/-- Each pass of the gather loop pops the root and queues it again, one level deeper. -/
theorem gatherLeaves_loopSession (fuel : Nat) :
    ∀ n d, gatherLeaves fuel loopSession n [(4, d)] [] = .error .outOfFuel
  | 0, _ => rfl
  | n + 1, d => gatherLeaves_loopSession fuel n (d + 1)

/-- **On a cyclic trie the gather loop never ends.** Whatever the fuel, the search for the empty
query on `loopSession` runs out of it: the loop `while(leaves.length)` of the source never
empties its queue. Acyclicity below the matched node is needed for `search_breadthFirst`. -/
theorem search_loopSession (fuel : Nat) : (search fuel loopSession []).1 = .error .outOfFuel :=
  gatherLeaves_loopSession fuel fuel 0

/-! ## What `search` returns -/

/-- A list of computations, each of which gives its value once its fuel is large enough, gives
all of them at once with enough fuel. -/
theorem mapM_eventually {α β : Type} {R : α → β → Prop}
    {f : Nat → α → Except Error β} :
    ∀ L : List α, (∀ a ∈ L, ∃ b, R a b ∧ ∃ N, ∀ n, N ≤ n → f n a = .ok b) →
      ∃ N, ∀ n, N ≤ n → ∃ bs, L.mapM (f n) = .ok bs ∧ List.Forall₂ R L bs
  | [], _ => ⟨0, fun _ _ => ⟨[], rfl, .nil⟩⟩
  | a :: L, h => by
    obtain ⟨b, hR, Na, hNa⟩ := h a (List.mem_cons_self _ _)
    obtain ⟨N, hN⟩ := mapM_eventually L fun x hx => h x (List.mem_cons_of_mem _ hx)
    refine ⟨max Na N, fun n hn => ?_⟩
    obtain ⟨bs, hbs, hR'⟩ := hN n (le_of_max_le_right hn)
    refine ⟨b :: bs, ?_, .cons hR hR'⟩
    rw [List.mapM_cons, hNa n (le_of_max_le_left hn), ok_bind, hbs]
    rfl

/-- **After `init`, `search` returns the records the specification resolves.** Take a query
whose descent path lies inside the trie and ends at a node whose nodes below, through children
without the barrier, lie inside the trie, and let `K` be a level where they run out. If every
result pair among the first `maxResults` names a record whose links reach only well-formed
records and no cycle, then every search with enough fuel returns, pair by pair, the record
`ResultMap.Resolves` gives the pair at top level. -/
theorem search_records {s s₀ : Search} {buffer : List UInt8} {k : Nat}
    (hinit : init s buffer k = (.ok true, s₀)) (Q : List UInt8)
    (hpath : ∀ o ∈ s₀.root :: Trie.walk s₀.trie s₀.root Q, Trie.NodeInside s₀.trie o)
    (hfound : (Trie.walk s₀.trie s₀.root Q).length = Q.length)
    (hclosed : Trie.Closed s₀.trie (Trie.endpoint s₀.trie s₀.root Q))
    {K : Nat} (hK : Trie.level s₀.trie (Trie.endpoint s₀.trie s₀.root Q) K = [])
    (hrec : ∀ p ∈ (Trie.pairsFrom s₀.trie (Trie.endpoint s₀.trie s₀.root Q) 0 K).take
        s₀.maxResults,
      (∀ j, ReflTransGen (ResultMap.Link s₀.map) p.1 j → ResultMap.RecordOk s₀.map j) ∧
      (∀ j, ReflTransGen (ResultMap.Link s₀.map) p.1 j →
        ¬ TransGen (ResultMap.Link s₀.map) j j)) :
    ∃ F, ∀ fuel, F ≤ fuel → ∃ rs, (search fuel s₀ Q).1 = .ok rs ∧
      List.Forall₂ (fun p r => ResultMap.Resolves s₀.map p.1 p.2 0xffffff r)
        ((Trie.pairsFrom s₀.trie (Trie.endpoint s₀.trie s₀.root Q) 0 K).take
          s₀.maxResults) rs := by
  have h₀ := init_eq_fresh hinit
  have hm : Matches s₀ := by rw [h₀]; exact matches_fresh _
  have hmax : 0 < s₀.maxResults := by rw [h₀]; exact maxResults_loaded s buffer k
  obtain ⟨F, hF⟩ := gatherLeaves_levels (matched s₀ Q) hclosed hK hmax
  obtain ⟨N, hN⟩ := mapM_eventually
    (f := fun fuel (p : Nat × Nat) => gatherResult fuel s₀.map p.1 p.2 0xffffff)
    (R := fun p r => ResultMap.Resolves s₀.map p.1 p.2 0xffffff r) _ fun p hp => by
      obtain ⟨r, hr, N, hN⟩ := ResultMap.computes_of_acc
        (acc_of_acyclic (fun _ _ => ResultMap.link_lt) (hrec p hp).2) (hrec p hp).1 p.2 0xffffff
      exact ⟨r, hr, N, fun n hn => hN n hn s₀.map fun _ _ => rfl⟩
  refine ⟨max F N, fun fuel hfuel => ?_⟩
  obtain ⟨rs, hrs, hR⟩ := hN fuel (le_of_max_le_right hfuel)
  refine ⟨rs, ?_, hR⟩
  rw [search_of_matches hm fuel Q hpath, if_neg (not_not.mpr hfound)]
  exact (hF fuel fuel (le_of_max_le_left hfuel)).trans hrs

/-- An 87-byte index. The root has the child `a`, a node with result 0 and two children: `b`,
with result 1, and `c`, with result 2 behind the lookahead barrier. The result map is
`ResultMap.prefixAliasMap`. -/
def twoLevelIndex : List UInt8 :=
  [77, 67, 83, 0, 3, 0, 40, 0, 0, 0,
    4, 0, 0, 0,
    0, 1, 10, 0, 0, 97,
    1, 2, 0, 0, 22, 0, 0, 98, 26, 0, 128, 99,
    1, 0, 1, 0,
    1, 0, 2, 0] ++ ResultMap.prefixAliasMap.bytes

/-- The session `init` leaves on `twoLevelIndex`. -/
def twoLevelSession : Search := (init blank twoLevelIndex 0).2

theorem init_twoLevelIndex : init blank twoLevelIndex 0 = (.ok true, twoLevelSession) := rfl

theorem twoLevelSession_path :
    ∀ o ∈ twoLevelSession.root :: Trie.walk twoLevelSession.trie twoLevelSession.root [97],
      Trie.NodeInside twoLevelSession.trie o := by
  decide

theorem twoLevelSession_below :
    ∀ x ∈ [10, 22], ∀ y, Trie.Below twoLevelSession.trie x y →
      y ∈ [10, 22] ∧ 100 - y < 100 - x :=
  fun x hx y h => (by decide : ∀ x ∈ [10, 22], ∀ y ∈ Trie.kids twoLevelSession.trie x,
    y ∈ [10, 22] ∧ 100 - y < 100 - x) x hx y h

theorem twoLevelSession_reach {o : Nat} (h : ReflTransGen (Trie.Below twoLevelSession.trie)
    (Trie.endpoint twoLevelSession.trie twoLevelSession.root [97]) o) : o ∈ [10, 22] :=
  reflTransGen_mem_of_rank _ twoLevelSession_below (by decide) h

theorem twoLevelSession_closed : Trie.Closed twoLevelSession.trie
    (Trie.endpoint twoLevelSession.trie twoLevelSession.root [97]) :=
  fun o ho => (by decide : ∀ o ∈ [10, 22], Trie.NodeInside twoLevelSession.trie o) o
    (twoLevelSession_reach ho)

/-- The query `a` on `twoLevelIndex` resolves result 0 at depth 0 and result 1 at depth 1, both
records of `ResultMap.prefixAliasMap`. -/
theorem search_records_twoLevelIndex :
    Trie.level twoLevelSession.trie
        (Trie.endpoint twoLevelSession.trie twoLevelSession.root [97]) 2 = [] ∧
    (Trie.pairsFrom twoLevelSession.trie
        (Trie.endpoint twoLevelSession.trie twoLevelSession.root [97]) 0 2).take
      twoLevelSession.maxResults = [(0, 0), (1, 1)] ∧
    ∃ F, ∀ fuel, F ≤ fuel → ∃ rs, (search fuel twoLevelSession [97]).1 = .ok rs ∧
      List.Forall₂ (fun p r => ResultMap.Resolves twoLevelSession.map p.1 p.2 0xffffff r)
        [(0, 0), (1, 1)] rs := by
  have hK : Trie.level twoLevelSession.trie
      (Trie.endpoint twoLevelSession.trie twoLevelSession.root [97]) 2 = [] := by decide
  have hE : (Trie.pairsFrom twoLevelSession.trie
      (Trie.endpoint twoLevelSession.trie twoLevelSession.root [97]) 0 2).take
        twoLevelSession.maxResults = [(0, 0), (1, 1)] := by decide
  have hmap : twoLevelSession.map = ResultMap.prefixAliasMap := rfl
  have hrec : ∀ p ∈ [((0 : Nat), (0 : Nat)), (1, 1)],
      (∀ j, ReflTransGen (ResultMap.Link twoLevelSession.map) p.1 j →
        ResultMap.RecordOk twoLevelSession.map j) ∧
      (∀ j, ReflTransGen (ResultMap.Link twoLevelSession.map) p.1 j →
        ¬ TransGen (ResultMap.Link twoLevelSession.map) j j) := by
    intro p hp
    have h1 : p.1 ∈ [0, 1, 2] := by simp at hp; rcases hp with rfl | rfl <;> decide
    rw [hmap]
    exact ⟨fun j hj =>
        (by decide : ∀ x ∈ [0, 1, 2], ResultMap.RecordOk ResultMap.prefixAliasMap x) j
          (reflTransGen_mem_of_rank id ResultMap.prefixAliasMap_downward h1 hj),
      fun j hj => not_transGen_self_of_rank id ResultMap.prefixAliasMap_downward
        (reflTransGen_mem_of_rank id ResultMap.prefixAliasMap_downward h1 hj)⟩
  refine ⟨hK, hE, ?_⟩
  rw [← hE]
  exact search_records init_twoLevelIndex [97] twoLevelSession_path rfl twoLevelSession_closed
    hK (hE ▸ hrec)

/-- A 71-byte index whose root has two child entries and room for one: the first, `a`, leads to
a node with result 0, and the second lies past the end of the trie. The result map is
`ResultMap.prefixAliasMap`. -/
def tailIndex : List UInt8 :=
  [77, 67, 83, 0, 1, 0, 24, 0, 0, 0,
    8, 0, 0, 0,
    1, 0, 0, 0,
    0, 2, 4, 0, 0, 97] ++ ResultMap.prefixAliasMap.bytes

/-- The session `init` leaves on `tailIndex`. -/
def tailSession : Search := (init blank tailIndex 0).2

theorem init_tailIndex : init blank tailIndex 0 = (.ok true, tailSession) := rfl

theorem tailSession_below :
    ∀ x ∈ [4], ∀ y, Trie.Below tailSession.trie x y → y ∈ [4] ∧ y < x :=
  fun x hx y h => (by decide : ∀ x ∈ [4], ∀ y ∈ Trie.kids tailSession.trie x, y ∈ [4] ∧ y < x)
    x hx y h

theorem tailSession_reach {o : Nat} (h : ReflTransGen (Trie.Below tailSession.trie)
    (Trie.endpoint tailSession.trie tailSession.root [97]) o) : o ∈ [4] :=
  reflTransGen_mem_of_rank id tailSession_below (by decide) h

/-- The query `a` on `tailIndex` descends without reading the root's second entry, though the
root does not lie inside the trie, and gathers result 0 from the node under `a`. -/
theorem search_breadthFirst_tailIndex :
    init blank tailIndex 0 = (.ok true, tailSession) ∧
    ¬ Trie.NodeInside tailSession.trie tailSession.root ∧
    (descend tailSession.trie tailSession.root [97]).2 = none ∧
    (Trie.walk tailSession.trie tailSession.root [97]).length = [97].length ∧
    Trie.Closed tailSession.trie (Trie.endpoint tailSession.trie tailSession.root [97]) ∧
    (∀ o, ReflTransGen (Trie.Below tailSession.trie)
        (Trie.endpoint tailSession.trie tailSession.root [97]) o →
      ¬ TransGen (Trie.Below tailSession.trie) o o) ∧
    (∃ K, Trie.level tailSession.trie
      (Trie.endpoint tailSession.trie tailSession.root [97]) K = []) ∧
    ∃ F, ∀ fuel, F ≤ fuel → ∀ K, Trie.level tailSession.trie
        (Trie.endpoint tailSession.trie tailSession.root [97]) K = [] →
      (search fuel tailSession [97]).1 =
        ((Trie.pairsFrom tailSession.trie
          (Trie.endpoint tailSession.trie tailSession.root [97]) 0 K).take
            tailSession.maxResults).mapM
          fun p => gatherResult fuel tailSession.map p.1 p.2 0xffffff := by
  have hclosed : Trie.Closed tailSession.trie
      (Trie.endpoint tailSession.trie tailSession.root [97]) := fun o ho => by
    obtain rfl : o = 4 := by simpa using tailSession_reach ho
    decide
  have hacyc : ∀ o, ReflTransGen (Trie.Below tailSession.trie)
      (Trie.endpoint tailSession.trie tailSession.root [97]) o →
        ¬ TransGen (Trie.Below tailSession.trie) o o :=
    fun _ ho => not_transGen_self_of_rank id tailSession_below (tailSession_reach ho)
  exact ⟨init_tailIndex, by decide, rfl, rfl, hclosed, hacyc,
    (search_breadthFirst init_tailIndex [97] rfl).2 rfl hclosed hacyc⟩

/-- A 20-byte index that `init` accepts: the root has one child entry, which lies past the end
of the six-byte trie. -/
def overrunIndex : List UInt8 :=
  [77, 67, 83, 0, 0, 0, 16, 0, 0, 0, 4, 0, 0, 0, 0, 1, 0, 0, 0, 0]

/-- The query `a` has no descent path in `overrunIndex`, yet `search` throws a `RangeError` on
it instead of returning `[]`: scanning the root's child entry reads past the trie. -/
theorem search_throws_overrunIndex :
    let s₀ := (init blank overrunIndex 0).2
    init blank overrunIndex 0 = (.ok true, s₀) ∧
      (Trie.walk s₀.trie s₀.root [97]).length ≠ [97].length ∧
      ∀ fuel, (search fuel s₀ [97]).1 = .error .rangeError :=
  ⟨rfl, by decide, fun _ => rfl⟩

end Search

end DocSearch
