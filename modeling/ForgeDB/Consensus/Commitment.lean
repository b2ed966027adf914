import ForgeDB.Consensus.Participant

/-!
What a member may call committed. A commit position is settled when the member's window holds, up to there, what
some term up to its own has committed. Settled positions survive every growth of the record, agree with every
later leader, and may become the base of a smaller window.
-/

namespace ForgeDB.Consensus

open Stamped

variable {ι ε : Type} [Stamped ε]

def Reached (members : List ι) (record : History ι ε) (position term : Nat) : Prop :=
  position = 0 ∨ ∃ bound chosen, History.Committed members record bound chosen ∧ chosen ≤ term ∧ position ≤ bound

def Settled (members : List ι) (record : History ι ε) (window : Window ε) (position term : Nat) : Prop :=
  position ≤ window.last ∧ (position = 0 ∨ ∃ bound chosen, History.Committed members record bound chosen ∧
    chosen ≤ term ∧ position ≤ bound ∧ ∀ place, window.base + place < position →
      (record.log chosen)[window.base + place]? = window.rest[place]?)

def Follows (record : History ι ε) (window : Window ε) (term position : Nat) : Prop :=
  ∀ place, window.base + place < position → (record.log term)[window.base + place]? = window.rest[place]?

section

variable {members : List ι} {record larger : History ι ε} {window : Window ε} {position term later : Nat}

theorem Reached.mono (grown : record ≤ larger) (reached : Reached members record position term) :
    Reached members larger position term := by
  rcases reached with zero | ⟨bound, chosen, commit, below, inside⟩
  · exact Or.inl zero
  · exact Or.inr ⟨bound, chosen, commit.mono grown, below, inside⟩

theorem Reached.lower {lower : Nat} (le : lower ≤ position) (reached : Reached members record position term) :
    Reached members record lower term := by
  rcases reached with zero | ⟨bound, chosen, commit, below, inside⟩
  · exact Or.inl (by omega)
  · exact Or.inr ⟨bound, chosen, commit, below, le.trans inside⟩

theorem Reached.anchored (positive : 0 < position) (reached : Reached members record position term) :
    ∃ value, Anchored members record position value term := by
  rcases reached with zero | ⟨bound, chosen, commit, le, inside⟩
  · omega
  · obtain ⟨slot, rfl⟩ := Nat.exists_eq_succ_of_ne_zero positive.ne'
    have present : entryAt (record.log chosen) (slot + 1) = _ :=
      List.getElem?_eq_getElem (Nat.lt_of_succ_le (inside.trans commit.length_le))
    exact ⟨_, Or.inr ⟨bound, chosen, commit, le, inside, termAt_of_entryAt present⟩⟩

theorem Anchored.reached {value : Nat} (anchored : Anchored members record position value term) :
    Reached members record position term := by
  rcases anchored with ⟨zero, _⟩ | ⟨bound, chosen, commit, below, inside, _⟩
  · exact Or.inl zero
  · exact Or.inr ⟨bound, chosen, commit, below, inside⟩

theorem Anchored.termAt_led [DecidableEq ι] (sound : History.Sound members record) {value : Nat}
    (anchored : Anchored members record position value term) (le : term ≤ later) (led : (record.leader later).isSome) :
    termAt (record.log later) position = some value := by
  rcases anchored with ⟨rfl, rfl⟩ | ⟨bound, chosen, commit, below, inside, found⟩
  · rfl
  · exact ((sound.committed_agree commit (below.trans le) led).termAt_eq inside).trans found

theorem Anchored.unique [DecidableEq ι] (sound : History.Sound members record) {first second : Nat}
    (left : Anchored members record position first term) (right : Anchored members record position second later) :
    first = second := by
  rcases Nat.eq_zero_or_pos position with rfl | positive
  · have atLeft := (left.origin sound).1
    have atRight := (right.origin sound).1
    simp only [termAt, Option.some.injEq] at atLeft atRight
    omega
  · rcases left with ⟨zero, _⟩ | ⟨boundLeft, chosenLeft, commitLeft, _, insideLeft, foundLeft⟩
    · omega
    rcases right with ⟨zero, _⟩ | ⟨boundRight, chosenRight, commitRight, _, insideRight, foundRight⟩
    · omega
    have same : termAt (record.log chosenLeft) position = termAt (record.log chosenRight) position := by
      rcases Nat.le_total chosenLeft chosenRight with le | le
      · exact ((sound.committed_agree commitLeft le (commitRight.led sound)).termAt_eq insideLeft).symm
      · exact (sound.committed_agree commitRight le (commitLeft.led sound)).termAt_eq insideRight
    rw [foundLeft, foundRight, Option.some.injEq] at same
    exact same

theorem Anchored.chosen {value : Nat} {entry : ε} (sound : History.Sound members record) (positive : 0 < position)
    (anchored : Anchored members record position value term)
    (found : entryAt (record.log value) position = some entry) :
    History.Chosen members record position entry := by
  rcases anchored with ⟨zero, _⟩ | ⟨bound, chosen, commit, _, inside, stamped⟩
  · omega
  · have agree := (sound.origin stamped positive).2.2.2
    exact ⟨bound, chosen, commit, inside, (agree.entryAt_eq (Nat.le_refl _)).symm.trans found⟩

theorem Promise.holds [DecidableEq ι] (sound : History.Sound members record) {member : ι}
    (segment : window.Segment record) (anchored : Anchored members record window.base window.baseTerm term)
    (promise : Promise record member window.last window.lastTerm term) {bound chosen : Nat}
    (commit : History.Committed members record bound chosen) (accepted : bound ≤ record.acked chosen member)
    (inside : position ≤ bound) :
    position ≤ window.base ∨
      ∃ slot, position = window.base + slot + 1 ∧ window.rest[slot]? = entryAt (record.log chosen) position := by
  have onLast := Window.last_onLog sound segment anchored
  have ends : chosen ≤ window.lastTerm ∧ bound ≤ window.last := by
    rcases promise chosen bound commit.positive accepted commit.own with (newer | ⟨same, long⟩) |
      ⟨between, above, _, led, lost⟩
    · refine ⟨newer.le, ?_⟩
      by_contra short
      rcases Nat.eq_zero_or_pos window.last with zero | positive
      · rw [zero] at onLast
        exact absurd newer (Option.some.inj onLast ▸ Nat.not_lt_zero chosen)
      · -- The leader of the last term agrees with the committed log where the window ends.
        obtain ⟨_, led, _⟩ := sound.origin onLast positive
        have agree := sound.committed_agree commit newer.le led
        rw [agree.termAt_eq (by omega)] at onLast
        have bounded := (sound.origin onLast positive).1
        omega
    · exact ⟨same.ge, long⟩
    · exact absurd (sound.carries_committed commit between above led) lost
  rcases Nat.lt_or_ge window.base position with above | below
  · right
    obtain ⟨slot, rfl⟩ := Nat.exists_eq_add_of_lt above
    have short : slot < window.rest.length := by
      have := ends.2
      simp only [Window.last] at this
      omega
    refine ⟨slot, rfl, ?_⟩
    have positive : 0 < window.last := by omega
    have agree := sound.committed_agree commit ends.1 (sound.origin onLast positive).2.1
    rw [← agree.entryAt_eq inside]
    exact (Window.rest_eq segment slot short).symm
  · exact Or.inl below

theorem Settled.reached (settled : Settled members record window position term) :
    Reached members record position term := by
  rcases settled.2 with zero | ⟨bound, chosen, commit, below, inside, _⟩
  · exact Or.inl zero
  · exact Or.inr ⟨bound, chosen, commit, below, inside⟩

omit [Stamped ε] in
theorem Follows.mono {lower : Nat} (le : lower ≤ position) (follows : Follows record window term position) :
    Follows record window term lower :=
  fun place within => follows place (within.trans_le le)

theorem settled_zero : Settled members record window 0 term :=
  ⟨Nat.zero_le _, Or.inl rfl⟩

theorem Settled.mono (grown : record ≤ larger) (settled : Settled members record window position term) :
    Settled members larger window position term := by
  obtain ⟨le, zero | ⟨bound, chosen, commit, below, inside, same⟩⟩ := settled
  · exact ⟨le, Or.inl zero⟩
  · refine ⟨le, Or.inr ⟨bound, chosen, commit.mono grown, below, inside, fun place within => ?_⟩⟩
    have long := commit.length_le
    rw [← same place within, ← Agree.of_grown (grown.log chosen) _ (by omega)]

theorem Settled.weaken (le : term ≤ later) (settled : Settled members record window position term) :
    Settled members record window position later := by
  obtain ⟨bound, zero | ⟨top, chosen, commit, below, inside, same⟩⟩ := settled
  · exact ⟨bound, Or.inl zero⟩
  · exact ⟨bound, Or.inr ⟨top, chosen, commit, below.trans le, inside, same⟩⟩

theorem Settled.chosen (settled : Settled members record window position term) {place : Nat} {entry : ε}
    (present : window.rest[place]? = some entry) (within : window.base + place < position) :
    History.Chosen members record (window.base + place + 1) entry := by
  rcases settled.2 with zero | ⟨bound, chosen, commit, _, inside, same⟩
  · omega
  · exact ⟨bound, chosen, commit, by omega, (same place within).trans present⟩

theorem Settled.of_follows [DecidableEq ι] (sound : History.Sound members record)
    (reached : Reached members record position term) (led : (record.leader term).isSome)
    (le : position ≤ window.last) (follows : Follows record window term position) :
    Settled members record window position term := by
  refine ⟨le, ?_⟩
  rcases reached with zero | ⟨bound, chosen, commit, below, inside⟩
  · exact Or.inl zero
  · refine Or.inr ⟨bound, chosen, commit, below, inside, fun place within => ?_⟩
    rw [← follows place within]
    exact (sound.committed_agree commit below led _ (by omega)).symm

theorem Anchored.settled (anchored : Anchored members record window.base window.baseTerm term) :
    Settled members record window window.base term := by
  refine ⟨Nat.le_add_right _ _, ?_⟩
  rcases anchored with ⟨zero, _⟩ | ⟨bound, chosen, commit, below, inside, _⟩
  · exact Or.inl zero
  · exact Or.inr ⟨bound, chosen, commit, below, inside, fun place within => by omega⟩

theorem Settled.follows [DecidableEq ι] (sound : History.Sound members record)
    (settled : Settled members record window position term) (le : term ≤ later)
    (led : (record.leader later).isSome) : Follows record window later position := by
  intro place within
  rcases settled.2 with zero | ⟨bound, chosen, commit, below, inside, same⟩
  · omega
  · rw [← same place within]
    exact sound.committed_agree commit (below.trans le) led _ (by omega)

theorem Settled.anchored (settled : Settled members record window position term) {slot : Nat} {entry : ε}
    (present : window.rest[slot]? = some entry) (within : window.base + slot < position) :
    Anchored members record (window.base + slot + 1) (stamp entry) term := by
  rcases settled.2 with zero | ⟨bound, chosen, commit, below, inside, same⟩
  · omega
  · refine Or.inr ⟨bound, chosen, commit, below, by omega, ?_⟩
    simp only [termAt, same slot within, present, Option.map_some]

/-- A follower of the leader of `term` up to `position` may acknowledge it: the position is already
committed in that term, or the window's end covers it. -/
theorem Follows.acknowledges [DecidableEq ι] (sound : History.Sound members record)
    (led : (record.leader term).isSome) (segment : window.Segment record)
    (anchored : Anchored members record window.base window.baseTerm term)
    (bounded : ∀ entry ∈ window.rest, stamp entry ≤ term) (follows : Follows record window term position) :
    position ≤ record.committed term ∨ (0 < position → termAt (record.log term) position = some term →
      window.lastTerm = term ∧ position ≤ window.last) := by
  rcases Nat.lt_or_ge window.base position with above | below
  · right
    intro _ own
    obtain ⟨slot, rfl⟩ : ∃ slot, position = window.base + slot + 1 := ⟨position - window.base - 1, by omega⟩
    simp only [termAt, follows slot (by omega), Option.map_eq_some_iff] at own
    obtain ⟨entry, present, stamped⟩ := own
    exact window.ends_in_term sound segment bounded present stamped
  · rcases anchored with ⟨zero, _⟩ | ⟨bound, chosen, commit, le, inside, _⟩
    · exact Or.inl (by omega)
    · rcases Nat.eq_or_lt_of_le le with same | older
      · subst same
        exact Or.inl ((below.trans inside).trans commit.reached)
      · right
        intro positive own
        have agree := sound.committed_agree commit le led
        rw [agree.termAt_eq (show position ≤ bound by omega)] at own
        have upper := (sound.origin own positive).1
        omega

end

namespace Window

def advance (window : Window ε) (count value : Nat) : Window ε :=
  ⟨window.base + count, value, window.rest.drop count⟩

variable {members : List ι} {record : History ι ε} {window : Window ε}

theorem Segment.advance (count value : Nat) (segment : window.Segment record) :
    (window.advance count value).Segment record := by
  intro slot entry present place le
  simp only [Window.advance, List.getElem?_drop, Nat.add_assoc] at present ⊢
  exact segment (count + slot) entry present (count + place) (by omega)

omit [Stamped ε] in
theorem advance_last {count value : Nat} (within : count ≤ window.rest.length) :
    (window.advance count value).last = window.last := by
  simp only [Window.advance, Window.last, List.length_drop]
  omega

theorem settled_advance {count value position term : Nat} (within : count ≤ window.rest.length)
    (settled : Settled members record window position term) :
    Settled members record (window.advance count value) position term := by
  refine ⟨by rw [advance_last within]; exact settled.1, ?_⟩
  rcases settled.2 with zero | ⟨bound, chosen, commit, below, inside, same⟩
  · exact Or.inl zero
  · refine Or.inr ⟨bound, chosen, commit, below, inside, fun place below' => ?_⟩
    simp only [Window.advance, List.getElem?_drop, Nat.add_assoc] at below' ⊢
    exact same (count + place) below'

end Window

end ForgeDB.Consensus
