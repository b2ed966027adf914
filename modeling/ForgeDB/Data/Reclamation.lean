import Mathlib.Data.List.Basic

/-!
Deferred removal, told by what happens: a thing is acquired under a handle and released, retired and removed. A
removal is due once the thing was retired and everyone who had acquired it before has released it. Until then a
mark remembers it, or work that is pending.
-/

namespace ForgeDB.Reclamation

variable {κ : Type}

inductive Event (κ : Type) where
  | acquired (handle : Nat) (key : κ)
  | released (handle : Nat)
  | retired (key : κ)
  | removed (key : κ)
  deriving DecidableEq, Repr

/-- The key was retired, and whoever had acquired it before that has released it. -/
def Due (trace : List (Event κ)) (key : κ) : Prop :=
  ∃ before after, trace = before ++ .retired key :: after ∧
    ∀ handle, .acquired handle key ∈ before → .released handle ∈ trace

theorem Due.append {trace : List (Event κ)} {key : κ} (due : Due trace key) (more : List (Event κ)) :
    Due (trace ++ more) key := by
  obtain ⟨before, after, rfl, released⟩ := due
  refine ⟨before, after ++ more, ?_, fun handle acquired => ?_⟩
  · rw [List.append_assoc, List.cons_append]
  · exact List.mem_append_left more (released handle acquired)

theorem Due.of_free {trace : List (Event κ)} {key : κ} (retired : .retired key ∈ trace)
    (free : ∀ handle, .acquired handle key ∈ trace → .released handle ∈ trace) : Due trace key := by
  obtain ⟨before, after, rfl⟩ := List.append_of_mem retired
  exact ⟨before, after, rfl, fun handle acquired => free handle (List.mem_append_left _ acquired)⟩

theorem split_snoc {trace before after : List (Event κ)} {event other : Event κ}
    (split : trace ++ [event] = before ++ other :: after) :
    (event = other ∧ trace = before ∧ after = []) ∨
      ∃ earlier, trace = before ++ other :: earlier ∧ after = earlier ++ [event] := by
  rcases List.eq_nil_or_concat after with rfl | ⟨earlier, last, rfl⟩
  · obtain ⟨same, equal⟩ := List.append_inj' split rfl
    cases equal
    exact Or.inl ⟨rfl, same, rfl⟩
  · rw [List.concat_eq_append, ← List.cons_append, ← List.append_assoc] at split
    obtain ⟨same, equal⟩ := List.append_inj' split rfl
    cases equal
    exact Or.inr ⟨earlier, same, List.concat_eq_append⟩

/-- Every removal was due, pending work is due, and every retirement is followed by a removal or remembered. -/
structure Owing (marked pending : κ → Prop) (trace : List (Event κ)) : Prop where
  due : ∀ key, pending key → Due trace key
  removals : ∀ before key after, trace = before ++ .removed key :: after → Due before key
  served : ∀ before key after, trace = before ++ .retired key :: after →
    .removed key ∈ after ∨ marked key ∨ pending key

namespace Owing

variable {marked pending markedAfter pendingAfter : κ → Prop} {trace : List (Event κ)}

theorem start : Owing marked (fun _ => False) ([] : List (Event κ)) where
  due _ impossible := impossible.elim
  removals _ _ _ split := nomatch (List.append_eq_nil_iff.mp split.symm).2
  served _ _ _ split := nomatch (List.append_eq_nil_iff.mp split.symm).2

theorem weaken (owing : Owing marked pending trace) (less : ∀ key, pendingAfter key → pending key)
    (kept : ∀ key, marked key ∨ pending key → markedAfter key ∨ pendingAfter key) :
    Owing markedAfter pendingAfter trace where
  due key waits := owing.due key (less key waits)
  removals := owing.removals
  served before key after split := (owing.served before key after split).imp_right (kept key)

/-- One more event. A removal has to be due, a retirement to be remembered, and what was remembered stays so
unless the event is its removal. -/
theorem append (owing : Owing marked pending trace) (event : Event κ)
    (due : ∀ key, pendingAfter key → pending key ∨ Due (trace ++ [event]) key)
    (removal : ∀ key, event = .removed key → Due trace key)
    (retirement : ∀ key, event = .retired key → markedAfter key ∨ pendingAfter key)
    (kept : ∀ key, marked key ∨ pending key → event = .removed key ∨ markedAfter key ∨ pendingAfter key) :
    Owing markedAfter pendingAfter (trace ++ [event]) where
  due key waits := by
    rcases due key waits with old | new
    · exact (owing.due key old).append [event]
    · exact new
  removals before key after split := by
    rcases split_snoc split with ⟨last, rfl, -⟩ | ⟨earlier, old, -⟩
    · exact removal key last
    · exact owing.removals before key earlier old
  served before key after split := by
    rcases split_snoc split with ⟨last, -, -⟩ | ⟨earlier, old, rfl⟩
    · exact Or.inr (retirement key last)
    · rcases owing.served before key earlier old with gone | remembered
      · exact Or.inl (List.mem_append_left _ gone)
      · rcases kept key remembered with rfl | still
        · exact Or.inl (List.mem_append_right _ List.mem_cons_self)
        · exact Or.inr still

end Owing

end ForgeDB.Reclamation
