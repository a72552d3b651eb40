import Mathlib.Data.Fintype.Card
import Mathlib.Logic.Relation

/-!
# Acyclic links over a bounded range

The index links nodes to nodes and records to records through fixed-width fields: a child offset
is masked to 23 bits and a prefix or alias index is 16 bits. A cycle of links is the only way
the search code can run without end, and the format does not rule one out. This module turns the
absence of a cycle into well-foundedness: when no node reachable from `a` lies on a cycle and
every link points below a bound, every path of links from `a` is finite (`acc_of_acyclic`).

For a concrete index the absence of a cycle is shown by a rank: a list of nodes closed under the
links, each of which lowers the rank, holds every path from its nodes, and none of them lies on a
cycle (`not_transGen_self_of_rank`).
-/

set_option autoImplicit false

namespace DocSearch

open Relation

/-- **Acyclic links below a bound admit no infinite path.** -/
theorem acc_of_acyclic {step : Nat → Nat → Prop} {B a : Nat} (hb : ∀ x y, step x y → y < B)
    (hacyc : ∀ y, ReflTransGen step a y → ¬ TransGen step y y) :
    Acc (fun y x => step x y) a := by
  let R : Fin B → Fin B → Prop := fun x y => ReflTransGen step a y ∧ TransGen step y x
  have : IsTrans (Fin B) R := ⟨fun _ _ _ ⟨_, hyx⟩ ⟨hz, hzy⟩ => ⟨hz, hzy.trans hyx⟩⟩
  have : IsIrrefl (Fin B) R := ⟨fun x ⟨hx, hxx⟩ => hacyc x hx hxx⟩
  have key : ∀ x : Fin B, ReflTransGen step a x → Acc (fun y x => step x y) x := by
    intro x
    induction (Finite.wellFounded_of_trans_of_irrefl R).apply x with
    | intro x _ ih =>
      intro hx
      exact Acc.intro _ fun y hy => ih ⟨y, hb _ _ hy⟩ ⟨hx, TransGen.single hy⟩ (hx.tail hy)
  exact Acc.intro _ fun y hy => key ⟨y, hb _ _ hy⟩ (ReflTransGen.single hy)

section Rank

variable {step : Nat → Nat → Prop} {S : List Nat} (rank : Nat → Nat)
  (hS : ∀ x ∈ S, ∀ y, step x y → y ∈ S ∧ rank y < rank x)
include hS

theorem transGen_rank_lt {a b : Nat} (ha : a ∈ S) (h : TransGen step a b) :
    b ∈ S ∧ rank b < rank a := by
  induction h with
  | single hab => exact hS _ ha _ hab
  | tail _ hbc ih =>
    obtain ⟨hc, hlt⟩ := hS _ ih.1 _ hbc
    exact ⟨hc, by omega⟩

theorem reflTransGen_mem_of_rank {a b : Nat} (ha : a ∈ S) (h : ReflTransGen step a b) : b ∈ S := by
  rcases reflTransGen_iff_eq_or_transGen.mp h with rfl | h
  · exact ha
  · exact (transGen_rank_lt rank hS ha h).1

theorem not_transGen_self_of_rank {a : Nat} (ha : a ∈ S) : ¬ TransGen step a a :=
  fun h => absurd (transGen_rank_lt rank hS ha h).2 (Nat.lt_irrefl _)

end Rank

end DocSearch
