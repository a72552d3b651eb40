import DocSearch.Search

/-!
# Trie nodes as the specification reads them

The search code reads a trie node in three places: the descent, the results loop and the children
loop of the gatherer. This module decodes a node once, with total readers: its result indices
(`resultIndices`) and its child entries (`children`, each a `Child`). A node lies inside the trie
(`NodeInside`) when its header, its result indices and its child entries do.

For a node inside the trie, each loop of the code computes the decoded value:
`descendStep_of_inside` (the first child under a byte) and `pushChildren_of_inside` (the children
without the lookahead barrier, appended to the queue). A descent step needs less: one that reads
nothing past the trie finds the first child under its byte, wherever the entries it does not
scan lie (`descendStep_of_ok`). `Reach` relates a node to every node below it through child
entries, and `Below` a node to its children without the barrier, the nodes the gather loop
queues.
-/

set_option autoImplicit false

namespace DocSearch

/-- A decoded child entry: the child's offset, the lookahead barrier bit, the character byte. -/
structure Child where
  offset : Nat
  barrier : Bool
  char : Nat
  deriving DecidableEq, Repr

namespace Trie

variable (trie : DataView)

/-- `resultCount` of the node at `o`. -/
def resultCount (o : Nat) : Nat := trie.byte o

/-- `childCount` of the node at `o`. -/
def childCount (o : Nat) : Nat := trie.byte (o + 1)

/-- `childOffset` of the node at `o`: `offset + relChildOffset`. -/
def childStart (o : Nat) : Nat := o + (2 + resultCount trie o * 2)

/-- Child entry `j` of the node at `o`, decoded. -/
def child (o j : Nat) : Child :=
  let word := trie.u32 (childStart trie o + j * 4)
  { offset := word &&& 0x007fffff, barrier := word &&& 0x00800000 ≠ 0,
    char := trie.byte (childStart trie o + j * 4 + 3) }

/-- The child entries of the node at `o`, in stored order. -/
def children (o : Nat) : List Child := (List.range (childCount trie o)).map (child trie o)

/-- The result indices of the node at `o`, in stored order. -/
def resultIndices (o : Nat) : List Nat :=
  (List.range (resultCount trie o)).map fun i => trie.u16 (o + (i + 1) * 2)

/-- The node at `o`, with its result indices and child entries, lies inside the trie. -/
def NodeInside (o : Nat) : Prop := childStart trie o + childCount trie o * 4 ≤ trie.byteLength

instance (o : Nat) : Decidable (NodeInside trie o) := inferInstanceAs (Decidable (_ ≤ _))

/-- The offset of the first child of `o` whose character is `c`. -/
def childFor (o : Nat) (c : UInt8) : Option Nat :=
  ((children trie o).find? fun ch => ch.char = c.toNat).map Child.offset

/-- The offsets of the children of `o` without the lookahead barrier, in stored order. -/
def kids (o : Nat) : List Nat := ((children trie o).filter fun ch => !ch.barrier).map Child.offset

/-- `o'` is the offset of a child entry of `o`. -/
def ChildOf (o o' : Nat) : Prop := ∃ ch ∈ children trie o, ch.offset = o'

/-- The nodes reachable from `o` through child entries. -/
def Reach (o : Nat) : Nat → Prop := Relation.ReflTransGen (ChildOf trie) o

/-- `o'` is a child of `o` without the lookahead barrier. -/
def Below (o o' : Nat) : Prop := o' ∈ kids trie o

theorem childOf_of_childFor {o o' : Nat} {c : UInt8} (h : childFor trie o c = some o') :
    ChildOf trie o o' := by
  obtain ⟨ch, hch, rfl⟩ := Option.map_eq_some'.mp h
  exact ⟨ch, List.mem_of_find?_eq_some hch, rfl⟩

/-- Every node reachable from `o` lies in a list of nodes that holds `o` and the children of
each of its nodes. -/
theorem reach_mem {nodes : List Nat} {o o' : Nat} (ho : o ∈ nodes)
    (hclosed : ∀ x ∈ nodes, ∀ ch ∈ children trie x, ch.offset ∈ nodes) (h : Reach trie o o') :
    o' ∈ nodes := by
  induction h with
  | refl => exact ho
  | tail _ hstep ih =>
    obtain ⟨ch, hch, rfl⟩ := hstep
    exact hclosed _ ih ch hch

/-! ## The code's loops on a node inside the trie -/

section Inside

variable {trie} {o : Nat} (hin : NodeInside trie o)
include hin

theorem byte_inside : o + 1 < trie.byteLength := by
  unfold NodeInside childStart at hin
  omega

theorem entry_inside {j : Nat} (hj : j < childCount trie o) :
    childStart trie o + j * 4 + 4 ≤ trie.byteLength := by
  unfold NodeInside at hin
  have : (j + 1) * 4 ≤ childCount trie o * 4 := Nat.mul_le_mul_right 4 hj
  omega

omit hin in
theorem children_drop {j : Nat} (hj : j < childCount trie o) :
    (children trie o).drop j = child trie o j :: (children trie o).drop (j + 1) := by
  rw [children, ← List.map_drop, List.drop_eq_getElem_cons (by simpa using hj)]
  simp [List.map_drop]

omit hin in
theorem resultIndices_drop {j : Nat} (hj : j < resultCount trie o) :
    (resultIndices trie o).drop j =
      trie.u16 (o + (j + 1) * 2) :: (resultIndices trie o).drop (j + 1) := by
  rw [resultIndices, ← List.map_drop, List.drop_eq_getElem_cons (by simpa using hj)]
  simp [List.map_drop]

theorem findChild_of_inside (c : UInt8) :
    ∀ left j, j + left = childCount trie o →
      Search.findChild trie (childStart trie o) c j left =
        .ok ((((children trie o).drop j).find? fun ch => ch.char = c.toNat).map Child.offset)
  | 0, j, h => by
    rw [Search.findChild, List.drop_eq_nil_of_le (by simp [children]; omega)]
    rfl
  | left + 1, j, h => by
    have hj : j < childCount trie o := by omega
    have he := entry_inside hin hj
    rw [Search.findChild, DataView.getUint8_of_lt (by omega), children_drop hj]
    by_cases hc : trie.byte (childStart trie o + j * 4 + 3) = c.toNat
    · simp only [child] at *
      simp [hc, DataView.getUint32_of_le he]
    · simp only [child] at *
      simp only [ne_eq, hc, not_false_eq_true, if_true]
      rw [findChild_of_inside c left (j + 1) (by omega)]
      simp [hc]

/-- **One descent step reads the first child under the byte.** -/
theorem descendStep_of_inside (c : UInt8) :
    Search.descendStep trie o c = .ok (childFor trie o c) := by
  have hb := byte_inside hin
  simp only [Search.descendStep, DataView.getUint8_of_lt (show o < trie.byteLength by omega),
    DataView.getUint8_of_lt hb]
  exact findChild_of_inside hin c _ 0 (Nat.zero_add _)

theorem pushChildren_of_inside (d : Nat) :
    ∀ left j leaves, j + left = childCount trie o →
      Search.pushChildren trie (childStart trie o) d j left leaves =
        .ok (leaves ++ (((children trie o).drop j).filter fun ch => !ch.barrier).map
          fun ch => (ch.offset, d + 1))
  | 0, j, leaves, h => by
    rw [Search.pushChildren, List.drop_eq_nil_of_le (by simp [children]; omega)]
    simp
  | left + 1, j, leaves, h => by
    have hj : j < childCount trie o := by omega
    rw [Search.pushChildren, DataView.getUint32_of_le (entry_inside hin hj), children_drop hj]
    by_cases hb : trie.u32 (childStart trie o + j * 4) &&& 0x00800000 ≠ 0
    · simp only [ok_bind, if_pos hb]
      rw [pushChildren_of_inside d left (j + 1) leaves (by omega)]
      simp [child, hb]
    · simp only [ok_bind, if_neg hb]
      rw [pushChildren_of_inside d left (j + 1) _ (by omega)]
      simp only [not_not] at hb
      simp [child, hb]

/-- **The children loop appends the children without the barrier, one level deeper.** -/
theorem pushChildren_kids (d : Nat) (leaves : List (Nat × Nat)) :
    Search.pushChildren trie (childStart trie o) d 0 (childCount trie o) leaves =
      .ok (leaves ++ (kids trie o).map fun o' => (o', d + 1)) := by
  rw [pushChildren_of_inside hin d _ 0 leaves (Nat.zero_add _), List.drop_zero, kids, List.map_map]
  rfl

end Inside

/-! ## A descent step with no failed read

The descent scans a node's child entries only up to the first one under the byte, so it can
succeed on a node whose later entries lie past the trie. Whatever it reads, a step that reads
nothing past the trie finds what `childFor` finds. -/

section Ok

variable {trie} {o : Nat} {c : UInt8}

theorem findChild_of_ok : ∀ left j {r : Option Nat}, j + left = childCount trie o →
    Search.findChild trie (childStart trie o) c j left = .ok r →
      r = (((children trie o).drop j).find? fun ch => ch.char = c.toNat).map Child.offset
  | 0, j, r, h, hr => by
    cases hr
    rw [List.drop_eq_nil_of_le (by simp [children]; omega)]
    rfl
  | left + 1, j, r, h, hr => by
    have hj : j < childCount trie o := by omega
    obtain ⟨b, hb, hr⟩ := bind_eq_ok hr
    have hchar : (child trie o j).char = b := DataView.byte_of_getUint8 hb
    rw [children_drop hj]
    by_cases hc : b = c.toNat
    · obtain ⟨w, hw, hr⟩ := bind_eq_ok ((if_neg (not_not.mpr hc)).symm.trans hr)
      cases hr
      simp [child, DataView.byte_of_getUint8 hb, hc, DataView.u32_of_getUint32 hw]
    · rw [findChild_of_ok left (j + 1) (by omega) ((if_pos hc).symm.trans hr)]
      simp [hchar, hc]

/-- **A descent step that reads nothing past the trie reads the first child under the byte.** -/
theorem descendStep_of_ok {r : Option Nat} (h : Search.descendStep trie o c = .ok r) :
    r = childFor trie o c := by
  obtain ⟨a, ha, h⟩ := bind_eq_ok h
  obtain ⟨b, hb, h⟩ := bind_eq_ok h
  rw [← DataView.byte_of_getUint8 ha, ← DataView.byte_of_getUint8 hb] at h
  exact findChild_of_ok _ 0 (Nat.zero_add _) h

end Ok

end Trie

end DocSearch
