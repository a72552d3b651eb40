import DocSearch.Session
import DocSearch.Breadth

/-!
# What a search returns, whatever the index holds

`Search.init` checks the header of an index and nothing more: the trie nodes and the result
records are read as they come, and a read past a view throws. The theorems of this module hold
on every index, well formed or not, over every run of calls on the `Search` object, throwing
calls included.

A URL never exceeds the cap it is resolved under (`gatherResult_url_le`): the cap passed to a
prefix is clamped to the caller's, and the URL loop stops where the cap runs out.

The number of results never exceeds `maxResults`: the results loop checks the cap after every
push (`gatherLeaves_capped`), and every call keeps the cap positive, so from any state with a
positive cap, such as any state after a call of `init` that wrote, every search of every session
returns at most `maxResults` results (`session_capped`). The cap only cuts: lowered to any
positive `m`, a search returns the first `m` results of the search under the higher cap
(`search_lowerCap`).

Every result resolves a result index stored under the node the search matched, at the depth the
gather loop reached it through children without the lookahead barrier (`search_found`). The
gather loop's invariants follow from one induction over what its two inner loops keep
(`gatherLeaves_invariant`).
-/

set_option autoImplicit false

namespace DocSearch

/-! ## URLs within their cap -/

/-- The URL loop returns only when it reaches `max`, one byte per step. -/
theorem extractUrl_length {max : Int} : ∀ (rest : List UInt8) (j : Nat) {url : List UInt8},
    extractUrl rest j max = .ok url → (j : Int) + url.length = max
  | rest, j, url, h => by
    by_cases hj : (j : Int) = max
    · subst hj
      rw [extractUrl_self] at h
      cases h
      simp
    · cases rest with
      | nil =>
        rw [extractUrl, if_neg hj] at h
        cases h
      | cons c rest =>
        rw [extractUrl_cons rest c j hj] at h
        rcases hu : extractUrl rest (j + 1) max with _ | u
        all_goals rw [hu] at h
        · cases h
        · cases h
          have := extractUrl_length rest (j + 1) hu
          simp only [List.length_cons, Nat.cast_add, Nat.cast_one] at this ⊢
          omega

/-- **A URL `gatherResult` returns is at most `maxUrlPrefix` bytes long**, on every result map,
cyclic links included: the prefix's URL is resolved under the cap clamped to it, and the URL loop
stops where the cap runs out. A record thus takes at most its stored cap of its prefix's URL. -/
theorem gatherResult_url_le : ∀ (fuel : Nat) (map : DataView) (index suffixLength maxUrlPrefix : Nat)
    {r : MatchRecord}, gatherResult fuel map index suffixLength maxUrlPrefix = .ok r →
      r.url.length ≤ maxUrlPrefix
  | 0, _, _, _, _, _, h => by cases h
  | fuel + 1, map, index, suffixLength, c, r, h => by
    rw [gatherResult] at h
    obtain ⟨flags, -, h⟩ := bind_eq_ok h
    obtain ⟨word, -, h⟩ := bind_eq_ok h
    obtain ⟨⟨aliasedIndex, o1⟩, -, h⟩ := bind_eq_ok h
    obtain ⟨⟨name, url, o2⟩, hpre, h⟩ := bind_eq_ok h
    obtain ⟨⟨sl, o3⟩, -, h⟩ := bind_eq_ok h
    obtain ⟨next, -, h⟩ := bind_eq_ok h
    obtain ⟨⟨own, j⟩, -, h⟩ := bind_eq_ok h
    dsimp only at h
    by_cases hc : aliasedIndex ≠ none ∧ c = 0xffffff
    · rw [if_pos hc] at h
      obtain ⟨aliased, ha, h⟩ := bind_eq_ok h
      cases h
      rw [hc.2]
      exact gatherResult_url_le (r := aliased) fuel map _ 0 0xffffff ha
    · rw [if_neg hc] at h
      obtain ⟨ownUrl, hown, h⟩ := bind_eq_ok h
      cases h
      have hurl : url.length ≤ c := by
        unfold parsePrefix at hpre
        split at hpre
        · obtain ⟨_, -, hpre⟩ := bind_eq_ok hpre
          obtain ⟨cap, -, hpre⟩ := bind_eq_ok hpre
          obtain ⟨pre, hg, hpre⟩ := bind_eq_ok hpre
          cases hpre
          exact (gatherResult_url_le fuel map _ 0 _ hg).trans (min_le_right cap c)
        · cases hpre
          exact Nat.zero_le c
      have hmax := extractUrl_length _ _ hown
      have hmin := min_le_left ((j : Int) + c - url.length) ((next &&& 0x00ffffff : Nat) : Int)
      simp only [List.length_append]
      omega

/-- `::Bar` under the prefix `Foo`, asked for five URL bytes, takes them from `foo.html`. -/
theorem gatherResult_url_le_prefixAliasMap :
    gatherResult 2 ResultMap.prefixAliasMap 1 0 5 =
        .ok ⟨[70, 111, 111, 58, 58, 66, 97, 114], none, [102, 111, 111, 46, 104], 24, 0⟩ ∧
      [102, 111, 111, 46, 104].length ≤ 5 :=
  ⟨rfl, gatherResult_url_le 2 ResultMap.prefixAliasMap 1 0 5 rfl⟩

namespace Search

/-! ## The result cap -/

/-- A step of the results loop within the cap `m`: stopped with at most `m` results, or going on
with fewer. -/
def WithinCap (m : Nat) : ForInStep (List MatchRecord) → Prop
  | .done r => r.length ≤ m
  | .yield r => r.length < m

section Cap

variable (fuel : Nat) (s : Search)

/-- The results loop checks the cap after every push. -/
theorem pushResults_capped (o d : Nat) :
    ∀ left i (results : List MatchRecord), results.length < s.maxResults →
      ∀ st, pushResults fuel s o d i left results = .ok st → WithinCap s.maxResults st
  | 0, _, _, h, st, hst => by
    rw [pushResults] at hst
    cases hst
    exact h
  | left + 1, i, results, h, st, hst => by
    rw [pushResults] at hst
    obtain ⟨_, -, hst⟩ := bind_eq_ok hst
    obtain ⟨r, -, hst⟩ := bind_eq_ok hst
    dsimp only at hst
    have hlen : (results ++ [r]).length = results.length + 1 := by simp
    split at hst
    · cases hst
      show (results ++ [r]).length ≤ s.maxResults
      omega
    · exact pushResults_capped o d left (i + 1) _ (by omega) st hst

/-- The gather loop, entered below the cap, ends with at most `maxResults` results. -/
theorem gatherLeaves_capped :
    ∀ steps (leaves : List (Nat × Nat)) (results : List MatchRecord),
      results.length < s.maxResults →
        ∀ rs, gatherLeaves fuel s steps leaves results = .ok rs → rs.length ≤ s.maxResults
  | _, [], _, h, rs, hrs => by
    rw [gatherLeaves] at hrs
    cases hrs
    exact h.le
  | 0, _ :: _, _, _, _, hrs => by
    rw [gatherLeaves] at hrs
    cases hrs
  | steps + 1, (o, d) :: leaves, results, h, rs, hrs => by
    rw [gatherLeaves] at hrs
    obtain ⟨_, -, hrs⟩ := bind_eq_ok hrs
    obtain ⟨st, hst, hrs⟩ := bind_eq_ok hrs
    have hcap := pushResults_capped fuel s o d _ 0 results h st hst
    cases st with
    | done r =>
      cases hrs
      exact hcap
    | yield r =>
      obtain ⟨_, -, hrs⟩ := bind_eq_ok hrs
      obtain ⟨_, -, hrs⟩ := bind_eq_ok hrs
      obtain ⟨_, -, hrs⟩ := bind_eq_ok hrs
      exact gatherLeaves_capped steps _ r hcap rs hrs

/-- The results loop only appends. -/
theorem pushResults_extends (o d : Nat) :
    ∀ left i (results : List MatchRecord) st,
      pushResults fuel s o d i left results = .ok st → results <+: st.value
  | 0, _, results, _, hst => by
    rw [pushResults] at hst
    cases hst
    exact List.prefix_refl results
  | left + 1, i, results, st, hst => by
    rw [pushResults] at hst
    obtain ⟨_, -, hst⟩ := bind_eq_ok hst
    obtain ⟨r, -, hst⟩ := bind_eq_ok hst
    dsimp only at hst
    split at hst
    · cases hst
      exact List.prefix_append results [r]
    · exact (List.prefix_append results [r]).trans
        (pushResults_extends o d left (i + 1) _ st hst)

/-- **The gather loop keeps what the results loop and the children loop keep.** A property `P`
of the results that every run of the results loop at a queued node keeps, and a property `L` of
the queue entries that the children loop of such a node gives every entry it appends, hold of
what the gather loop returns. -/
theorem gatherLeaves_invariant {P : List MatchRecord → Prop} {L : Nat × Nat → Prop}
    (hpush : ∀ o d rc results st, L (o, d) → s.trie.getUint8 o = .ok rc → P results →
      pushResults fuel s o d 0 rc results = .ok st → P st.value)
    (hkids : ∀ o d rc cc leaves leaves', L (o, d) → s.trie.getUint8 o = .ok rc →
      s.trie.getUint8 (o + 1) = .ok cc → (∀ x ∈ leaves, L x) →
      pushChildren s.trie (o + (2 + rc * 2)) d 0 cc leaves = .ok leaves' → ∀ x ∈ leaves', L x) :
    ∀ steps (leaves : List (Nat × Nat)) (results rs : List MatchRecord), (∀ x ∈ leaves, L x) →
      P results → gatherLeaves fuel s steps leaves results = .ok rs → P rs
  | _, [], _, _, _, hp, hrs => by
    rw [gatherLeaves] at hrs
    cases hrs
    exact hp
  | 0, _ :: _, _, _, _, _, hrs => by
    rw [gatherLeaves] at hrs
    cases hrs
  | steps + 1, (o, d) :: leaves, results, rs, hl, hp, hrs => by
    rw [gatherLeaves] at hrs
    obtain ⟨rc, hrc, hrs⟩ := bind_eq_ok hrs
    obtain ⟨st, hst, hrs⟩ := bind_eq_ok hrs
    have hL := hl (o, d) (List.mem_cons_self _ _)
    have hP := hpush o d rc results st hL hrc hp hst
    cases st with
    | done r =>
      cases hrs
      exact hP
    | yield r =>
      obtain ⟨rc', hrc', hrs⟩ := bind_eq_ok hrs
      obtain ⟨cc, hcc, hrs⟩ := bind_eq_ok hrs
      obtain ⟨leaves', hleaves, hrs⟩ := bind_eq_ok hrs
      rw [Except.ok.inj (hrc'.symm.trans hrc)] at hleaves
      exact gatherLeaves_invariant hpush hkids steps leaves' r rs
        (hkids o d rc cc leaves leaves' hL hrc hcc
          (fun x hx => hl x (List.mem_cons_of_mem _ hx)) hleaves) hP hrs

/-- The gather loop only appends. -/
theorem gatherLeaves_extends :
    ∀ steps (leaves : List (Nat × Nat)) (results : List MatchRecord) rs,
      gatherLeaves fuel s steps leaves results = .ok rs → results <+: rs :=
  fun steps leaves results rs =>
    gatherLeaves_invariant fuel s (P := (results <+: ·)) (L := fun _ => True)
      (fun o d _ _ st _ _ hp hst => hp.trans (pushResults_extends fuel s o d _ 0 _ st hst))
      (fun _ _ _ _ _ _ _ _ _ _ _ _ _ => trivial) steps leaves results rs (fun _ _ => trivial)
      (List.prefix_refl results)

end Cap

/-- What `search` leaves, whatever it returns: the trie and the cap as they were, and the stack
cut after the common prefix with the stored query, followed by the nodes the descent pushed. -/
theorem search_snd (fuel : Nat) (s : Search) (q : List UInt8) :
    (search fuel s q).2.trie = s.trie ∧ (search fuel s q).2.maxResults = s.maxResults ∧
    (search fuel s q).2.searchStack =
      s.searchStack.take (commonPrefixLength q s.searchString + 1) ++
        (descend s.trie ((s.searchStack.take (commonPrefixLength q s.searchString + 1)).getLast
          (take_succ_ne_nil s.searchStack_ne_nil _))
          (q.drop (commonPrefixLength q s.searchString))).1 := by
  unfold search
  dsimp only
  split
  · exact ⟨rfl, rfl, rfl⟩
  · split <;> exact ⟨rfl, rfl, rfl⟩

/-- **A search returns at most `maxResults` results**, on every index, when the cap is
positive. -/
theorem search_length_le {s : Search} (hm : 0 < s.maxResults) (fuel : Nat) (q : List UInt8)
    {rs : List MatchRecord} (h : (search fuel s q).1 = .ok rs) : rs.length ≤ s.maxResults := by
  unfold search at h
  dsimp only at h
  split at h
  · cases h
  · split at h
    · cases h
      exact Nat.zero_le _
    · apply gatherLeaves_capped fuel _ fuel _ [] _ rs h
      exact hm

theorem init_maxResults_pos {s : Search} (hm : 0 < s.maxResults) (buffer : List UInt8)
    (k : Nat) : 0 < (init s buffer k).2.maxResults := by
  rcases init_cases s buffer k with ⟨-, h⟩ | ⟨-, -, h⟩ | ⟨-, -, -, h⟩ | ⟨-, -, -, h⟩ <;> rw [h]
  exacts [hm, hm, maxResults_loaded s buffer k, maxResults_loaded s buffer k]

/-- Every call keeps the cap positive. -/
theorem call_maxResults_pos {s : Search} (hm : 0 < s.maxResults) :
    ∀ op : Op, 0 < (op.call s).2.maxResults
  | .init buffer k => init_maxResults_pos hm buffer k
  | .load base85string => by
    rcases load_cases s base85string with ⟨-, h⟩ | ⟨buffer, -, h⟩
    · show 0 < (load s base85string).2.maxResults
      rw [h]
      exact hm
    · show 0 < (load s base85string).2.maxResults
      rw [h]
      exact init_maxResults_pos hm buffer 0
  | .search fuel q => (search_snd fuel s q).2.1 ▸ hm

/-- **Every session respects the cap.** From a state with a positive cap, after any run of
calls, a search returns at most `maxResults` results, whatever the index holds. -/
theorem session_capped {s : Search} (hm : 0 < s.maxResults) (ops : List Op) (fuel : Nat)
    (q : List UInt8) {rs : List MatchRecord} (h : (search fuel (session s ops).2 q).1 = .ok rs) :
    rs.length ≤ (session s ops).2.maxResults :=
  search_length_le (runCalls_preserves (I := fun s => 0 < s.maxResults) (P := fun _ => True)
    (fun _ op hm _ => call_maxResults_pos hm op) ops s hm fun _ _ => trivial) fuel q h

/-- Record 0 of `ResultMap.prefixAliasMap`, `Foo`, found at the matched node. -/
def fooRecord : MatchRecord :=
  ⟨[70, 111, 111], none, [102, 111, 111, 46, 104, 116, 109, 108], 16, 0⟩

theorem search_pairSession : (search 2 pairSession [97]).1 = .ok [fooRecord, fooRecord] := rfl

theorem session_capped_pairSession :
    0 < pairSession.maxResults ∧
      (search 2 (session pairSession [.search 2 [98]]).2 [97]).1 = .ok [fooRecord, fooRecord] ∧
      [fooRecord, fooRecord].length ≤ (session pairSession [.search 2 [98]]).2.maxResults :=
  ⟨by decide, search_pairSession, session_capped (by decide) [.search 2 [98]] 2 [97]
    search_pairSession⟩

/-! ## Results come from under the matched node -/

/-- `r` is the top-level resolution, with suffix length `d`, of a result index stored at a node
`d` levels below `N` through children without the lookahead barrier. -/
def Found (fuel : Nat) (s : Search) (N : Nat) (r : MatchRecord) : Prop :=
  ∃ o d i, o ∈ Trie.level s.trie N d ∧ i ∈ Trie.resultIndices s.trie o ∧
    gatherResult fuel s.map i d 0xffffff = .ok r

section Found

variable (N : Nat)

/-- The results loop of a node `d` levels below `N` pushes only records found there. -/
theorem pushResults_found (fuel : Nat) (s : Search) {o d : Nat} (ho : o ∈ Trie.level s.trie N d) :
    ∀ left i (results : List MatchRecord) st, i + left = Trie.resultCount s.trie o →
      (∀ r ∈ results, Found fuel s N r) → pushResults fuel s o d i left results = .ok st →
        ∀ r ∈ st.value, Found fuel s N r
  | 0, _, _, _, _, hr, hst => by
    rw [pushResults] at hst
    cases hst
    exact hr
  | left + 1, i, results, st, hleft, hr, hst => by
    rw [pushResults] at hst
    obtain ⟨index, hindex, hst⟩ := bind_eq_ok hst
    obtain ⟨r, hg, hst⟩ := bind_eq_ok hst
    dsimp only at hst
    have hr' : ∀ x ∈ results ++ [r], Found fuel s N x := by
      intro x hx
      rcases List.mem_append.mp hx with hx | hx
      · exact hr x hx
      · obtain rfl := List.mem_singleton.mp hx
        refine ⟨o, d, index, ho, ?_, hg⟩
        rw [← DataView.u16_of_getUint16 hindex]
        exact List.mem_map.mpr ⟨i, List.mem_range.mpr (by omega), rfl⟩
    split at hst
    · cases hst
      exact hr'
    · exact pushResults_found fuel s ho left (i + 1) _ st (by omega) hr' hst

/-- The children loop of a node `d` levels below `N` queues only its children without the
barrier, one level deeper. -/
theorem pushChildren_level {trie : DataView} {o d : Nat} (ho : o ∈ Trie.level trie N d) :
    ∀ left j (leaves leaves' : List (Nat × Nat)), j + left = Trie.childCount trie o →
      (∀ x ∈ leaves, x.1 ∈ Trie.level trie N x.2) →
      pushChildren trie (Trie.childStart trie o) d j left leaves = .ok leaves' →
        ∀ x ∈ leaves', x.1 ∈ Trie.level trie N x.2
  | 0, _, _, _, _, hl, h => by
    rw [pushChildren] at h
    cases h
    exact hl
  | left + 1, j, leaves, leaves', hleft, hl, h => by
    rw [pushChildren] at h
    obtain ⟨w, hw, h⟩ := bind_eq_ok h
    have hw := DataView.u32_of_getUint32 hw
    split at h
    · exact pushChildren_level ho left (j + 1) leaves leaves' (by omega) hl h
    · next hb =>
      refine pushChildren_level ho left (j + 1) _ leaves' (by omega) ?_ h
      intro x hx
      rcases List.mem_append.mp hx with hx | hx
      · exact hl x hx
      · obtain rfl := List.mem_singleton.mp hx
        have hch : Trie.child trie o j ∈ Trie.children trie o :=
          List.mem_map.mpr ⟨j, List.mem_range.mpr (by omega), rfl⟩
        refine List.mem_flatMap.mpr ⟨o, ho, List.mem_map.mpr ⟨Trie.child trie o j,
          List.mem_filter.mpr ⟨hch, ?_⟩, ?_⟩⟩
        · simpa [Trie.child, hw] using hb
        · simp [Trie.child, hw]

/-- The gather loop from the queue `[(N, 0)]` returns only records found below `N`. -/
theorem gatherLeaves_found (fuel : Nat) (s : Search) :
    ∀ steps (leaves : List (Nat × Nat)) (results rs : List MatchRecord),
      (∀ x ∈ leaves, x.1 ∈ Trie.level s.trie N x.2) → (∀ r ∈ results, Found fuel s N r) →
        gatherLeaves fuel s steps leaves results = .ok rs → ∀ r ∈ rs, Found fuel s N r :=
  gatherLeaves_invariant fuel s
    (fun o d rc results st ho hrc hr hst => pushResults_found N fuel s ho rc 0 results st
      (by rw [Nat.zero_add, Trie.resultCount, DataView.byte_of_getUint8 hrc]) hr hst)
    (fun o d rc cc leaves leaves' ho hrc hcc hl h => pushChildren_level N ho cc 0 leaves leaves'
      (by rw [Nat.zero_add, Trie.childCount, DataView.byte_of_getUint8 hcc]) hl
      (by rwa [Trie.childStart, Trie.resultCount, DataView.byte_of_getUint8 hrc]))

end Found

/-- **A search returns only records stored under the node it matched**, on every index: each
result resolves, at top level with suffix length `d`, a result index stored at a node `d` levels
below the last node of the stack through children without the lookahead barrier. -/
theorem search_found (fuel : Nat) (s : Search) (q : List UInt8) {rs : List MatchRecord}
    (h : (search fuel s q).1 = .ok rs) :
    ∀ r ∈ rs, Found fuel (search fuel s q).2 (search fuel s q).2.top r := by
  revert h
  unfold search
  dsimp only
  split
  · intro h
    cases h
  · split
    · intro h r hr
      cases h
      cases hr
    · intro h
      exact gatherLeaves_found _ fuel _ fuel _ [] rs (by simp [Trie.level]) (by simp) h

theorem search_found_pairSession :
    (search 2 pairSession [97]).1 = .ok [fooRecord, fooRecord] ∧
      ∀ r ∈ [fooRecord, fooRecord],
        Found 2 (search 2 pairSession [97]).2 (search 2 pairSession [97]).2.top r :=
  ⟨search_pairSession, search_found 2 pairSession [97] search_pairSession⟩

/-! ## Lowering the cap -/

section LowerCap

variable (fuel : Nat) (s : Search) {m : Nat} (hm : m ≤ s.maxResults)
include hm

/-- Under a lower cap `m` the results loop makes the same pushes, and stops at `m` results if it
gets there. -/
theorem pushResults_lowerCap (o d : Nat) :
    ∀ left i (results : List MatchRecord), results.length < m →
      ∀ st, pushResults fuel s o d i left results = .ok st →
        ∃ st', pushResults fuel { s with maxResults := m } o d i left results = .ok st' ∧
          ((∃ r, st' = .yield r ∧ st = .yield r) ∨
            ∃ r, st' = .done r ∧ r.length = m ∧ r <+: st.value)
  | 0, _, results, _, st, hst => by
    rw [pushResults] at hst
    cases hst
    exact ⟨_, by rw [pushResults], .inl ⟨results, rfl, rfl⟩⟩
  | left + 1, i, results, h, st, hst => by
    rw [pushResults] at hst
    obtain ⟨index, hindex, hst⟩ := bind_eq_ok hst
    obtain ⟨r, hr, hst⟩ := bind_eq_ok hst
    dsimp only at hst
    have hpre : results ++ [r] <+: st.value := by
      split at hst
      · cases hst
        exact List.prefix_refl _
      · exact pushResults_extends fuel s o d left (i + 1) _ st hst
    have hlen : (results ++ [r]).length = results.length + 1 := by simp
    rw [pushResults]
    dsimp only
    rw [hindex, ok_bind, hr, ok_bind]
    by_cases hcap : (results ++ [r]).length ≥ m
    · rw [if_pos hcap]
      exact ⟨_, rfl, .inr ⟨_, rfl, by omega, hpre⟩⟩
    · rw [if_neg hcap]
      rw [if_neg (show ¬ (results ++ [r]).length ≥ s.maxResults by omega)] at hst
      exact pushResults_lowerCap o d left (i + 1) _ (by omega) st hst

/-- Under a lower cap `m` the gather loop returns the first `m` results of the run under the
cap of `s`, when that run returns. -/
theorem gatherLeaves_lowerCap :
    ∀ steps (leaves : List (Nat × Nat)) (results : List MatchRecord), results.length < m →
      ∀ rs, gatherLeaves fuel s steps leaves results = .ok rs →
        gatherLeaves fuel { s with maxResults := m } steps leaves results = .ok (rs.take m)
  | _, [], results, h, rs, hrs => by
    rw [gatherLeaves] at hrs
    cases hrs
    rw [gatherLeaves, List.take_of_length_le (by omega)]
  | 0, _ :: _, _, _, _, hrs => by
    rw [gatherLeaves] at hrs
    cases hrs
  | steps + 1, (o, d) :: leaves, results, h, rs, hrs => by
    rw [gatherLeaves] at hrs
    obtain ⟨rc, hrc, hrs⟩ := bind_eq_ok hrs
    obtain ⟨st, hst, hrs⟩ := bind_eq_ok hrs
    obtain ⟨st', hst', hrel⟩ := pushResults_lowerCap fuel s hm o d rc 0 results h st hst
    have hcap' := pushResults_capped fuel { s with maxResults := m } o d rc 0 results h st' hst'
    rw [gatherLeaves]
    dsimp only
    rw [hrc, ok_bind, hst', ok_bind]
    rcases hrel with ⟨r, rfl, rfl⟩ | ⟨r, rfl, hr, hpre⟩
    · obtain ⟨a, ha, hrs⟩ := bind_eq_ok hrs
      obtain rfl : rc = a := Except.ok.inj (hrc.symm.trans ha)
      obtain ⟨cc, hcc, hrs⟩ := bind_eq_ok hrs
      obtain ⟨ls, hls, hrs⟩ := bind_eq_ok hrs
      dsimp only
      rw [ok_bind, hcc, ok_bind, hls, ok_bind]
      exact gatherLeaves_lowerCap steps ls r hcap' rs hrs
    · have hpre' : r <+: rs := by
        cases st with
        | done v =>
          cases hrs
          exact hpre
        | yield v =>
          obtain ⟨_, -, hrs⟩ := bind_eq_ok hrs
          obtain ⟨_, -, hrs⟩ := bind_eq_ok hrs
          obtain ⟨_, -, hrs⟩ := bind_eq_ok hrs
          exact hpre.trans (gatherLeaves_extends fuel s steps _ v rs hrs)
      show Except.ok r = _
      rw [List.prefix_iff_eq_take.mp hpre', hr]

end LowerCap

/-- **A lower cap cuts the results.** On every index, a search that returns `rs` returns the first
`m` of them, for every positive `m` below `maxResults`, when `maxResults` is lowered to `m`. -/
theorem search_lowerCap {s : Search} {m : Nat} (hm0 : 0 < m) (hm : m ≤ s.maxResults)
    (fuel : Nat) (q : List UInt8) {rs : List MatchRecord} (h : (search fuel s q).1 = .ok rs) :
    (search fuel { s with maxResults := m } q).1 = .ok (rs.take m) := by
  unfold search at h ⊢
  dsimp only at h ⊢
  split at h
  · cases h
  · rename_i hd
    rw [hd]
    dsimp only at h ⊢
    split at h
    · rename_i hne
      cases h
      rw [if_pos hne, List.take_nil]
    · rename_i hne
      rw [if_neg hne]
      refine gatherLeaves_lowerCap fuel _ ?_ fuel _ [] hm0 rs h
      exact hm

theorem search_lowerCap_pairSession :
    0 < 1 ∧ 1 ≤ pairSession.maxResults ∧
      (search 2 pairSession [97]).1 = .ok [fooRecord, fooRecord] ∧
      (search 2 { pairSession with maxResults := 1 } [97]).1 =
        .ok ([fooRecord, fooRecord].take 1) :=
  ⟨by decide, by decide, search_pairSession,
    search_lowerCap (by decide) (by decide) 2 [97] search_pairSession⟩

end Search

end DocSearch
