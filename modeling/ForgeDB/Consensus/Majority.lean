import Mathlib.Data.Finset.Card
import Mathlib.Data.List.Nodup
import Mathlib.Logic.Relation
import Mathlib.Order.Basic

/-!
Majorities of a fixed membership, and invariants that carry a growing record. A quorum is a duplicate-free list
of members that is more than half of them, and a recorded invariant is one whose witness may only grow along a
run.
-/

namespace ForgeDB.Consensus

structure IsQuorum {ι : Type} (members quorum : List ι) : Prop where
  nodup : quorum.Nodup
  subset : ∀ member ∈ quorum, member ∈ members
  enough : members.length / 2 + 1 ≤ quorum.length

theorem IsQuorum.meet {ι : Type} [DecidableEq ι] {members first second : List ι}
    (left : IsQuorum members first) (right : IsQuorum members second) :
    ∃ member, member ∈ first ∧ member ∈ second := by
  by_contra none
  have disjoint : Disjoint first.toFinset second.toFinset := by
    rw [Finset.disjoint_left]
    intro member inFirst inSecond
    exact none ⟨member, List.mem_toFinset.mp inFirst, List.mem_toFinset.mp inSecond⟩
  have included : first.toFinset ∪ second.toFinset ⊆ members.toFinset := by
    intro member inside
    rcases Finset.mem_union.mp inside with inFirst | inSecond
    · exact List.mem_toFinset.mpr (left.subset member (List.mem_toFinset.mp inFirst))
    · exact List.mem_toFinset.mpr (right.subset member (List.mem_toFinset.mp inSecond))
  have bound := Finset.card_le_card included
  rw [Finset.card_union_of_disjoint disjoint, List.toFinset_card_of_nodup left.nodup,
    List.toFinset_card_of_nodup right.nodup] at bound
  have total := List.toFinset_card_le members
  have enoughFirst := left.enough
  have enoughSecond := right.enough
  omega

theorem IsQuorum.outside {ι : Type} [DecidableEq ι] {members quorum side : List ι} (isQuorum : IsQuorum members quorum)
    (few : side.length ≤ members.length / 2) : ∃ member ∈ quorum, member ∉ side := by
  by_contra none
  have included : quorum.toFinset ⊆ side.toFinset := by
    intro member inside
    by_contra missing
    exact none ⟨member, List.mem_toFinset.mp inside, fun inSide => missing (List.mem_toFinset.mpr inSide)⟩
  have bound := Finset.card_le_card included
  rw [List.toFinset_card_of_nodup isQuorum.nodup] at bound
  have total := List.toFinset_card_le side
  have enough := isQuorum.enough
  omega

theorem recorded_run {σ γ : Type} [Preorder γ] {step : σ → σ → Prop} {invariant : γ → σ → Prop}
    (preserved : ∀ record before after, invariant record before → step before after →
      ∃ larger, record ≤ larger ∧ invariant larger after)
    {first last : σ} (run : Relation.ReflTransGen step first last)
    (record : γ) (holds : invariant record first) :
    ∃ larger, record ≤ larger ∧ invariant larger last := by
  induction run with
  | refl => exact ⟨record, le_refl record, holds⟩
  | tail _ move ih =>
    obtain ⟨middle, grown, kept⟩ := ih
    obtain ⟨larger, further, final⟩ := preserved middle _ _ kept move
    exact ⟨larger, le_trans grown further, final⟩

end ForgeDB.Consensus
