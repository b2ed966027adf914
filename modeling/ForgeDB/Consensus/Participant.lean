import ForgeDB.Consensus.Updates

/-!
One member's share of the record. A member keeps a window of its log: the entries after a base position. The
window only holds what the leaders of the entries' terms wrote, its base is an agreed position, and its last
position outranks everything the member has accepted and can still be relied on for.
-/

namespace ForgeDB.Consensus

open Stamped

variable {ι ε : Type} [Stamped ε]

structure Window (ε : Type) where
  base : Nat
  baseTerm : Nat
  rest : List ε

namespace Window

def last (window : Window ε) : Nat := window.base + window.rest.length

def lastTerm (window : Window ε) : Nat := (window.rest.getLast?.map stamp).getD window.baseTerm

/-- Every retained entry stands where the leader of its term put it, and so do all before it. -/
def Segment (record : History ι ε) (window : Window ε) : Prop :=
  ∀ slot entry, window.rest[slot]? = some entry → ∀ place, place ≤ slot →
    (record.log (stamp entry))[window.base + place]? = window.rest[place]?

end Window

/-- `position` lies in a prefix committed by some term up to `term`, with the given stamp. -/
def Anchored (members : List ι) (record : History ι ε) (position value term : Nat) : Prop :=
  (position = 0 ∧ value = 0) ∨ ∃ bound chosen, History.Committed members record bound chosen ∧
    chosen ≤ term ∧ position ≤ bound ∧ termAt (record.log chosen) position = some value

/-- What `member` accepted in any term is outranked by its last position, or was lost by a
leader it has heard of. -/
def Promise (record : History ι ε) (member : ι) (last lastTerm term : Nat) : Prop :=
  ∀ earlier bound, 0 < bound → bound ≤ record.acked earlier member →
    termAt (record.log earlier) bound = some earlier →
    (earlier < lastTerm ∨ lastTerm = earlier ∧ bound ≤ last) ∨
      ∃ between, earlier < between ∧ between ≤ term ∧ (record.leader between).isSome ∧
        ¬record.Carries between earlier bound

section Stability

variable {members : List ι} {record larger : History ι ε}

theorem Window.Segment.mono {window : Window ε} (grown : record ≤ larger)
    (segment : window.Segment record) : window.Segment larger := by
  intro slot entry present place le
  have inside : place < window.rest.length :=
    lt_of_le_of_lt le (List.getElem?_eq_some_iff.mp present).1
  have original := segment slot entry present place le
  rw [List.getElem?_eq_getElem inside] at original ⊢
  exact entryAt_grown (grown.log _) (show entryAt (record.log (stamp entry)) (window.base + place + 1) =
    some window.rest[place] from original)

theorem Anchored.mono {position value term : Nat} (grown : record ≤ larger)
    (anchored : Anchored members record position value term) : Anchored members larger position value term := by
  rcases anchored with zero | ⟨bound, chosen, commit, le, inside, found⟩
  · exact Or.inl zero
  · exact Or.inr ⟨bound, chosen, commit.mono grown, le, inside, termAt_grown (grown.log chosen) found⟩

theorem Anchored.weaken {position value term later : Nat} (le : term ≤ later)
    (anchored : Anchored members record position value term) : Anchored members record position value later := by
  rcases anchored with zero | ⟨bound, chosen, commit, below, inside, found⟩
  · exact Or.inl zero
  · exact Or.inr ⟨bound, chosen, commit, below.trans le, inside, found⟩

theorem Promise.weaken {member : ι} {last lastTerm term later : Nat} (le : term ≤ later)
    (promise : Promise record member last lastTerm term) : Promise record member last lastTerm later := by
  intro earlier bound positive accepted own
  rcases promise earlier bound positive accepted own with held | ⟨between, above, below, led, lost⟩
  · exact Or.inl held
  · exact Or.inr ⟨between, above, below.trans le, led, lost⟩

theorem Promise.mono {member : ι} {last lastTerm term : Nat} (sound : History.Sound members record)
    (grown : record ≤ larger) (same : ∀ earlier bound, 0 < bound → bound ≤ larger.acked earlier member →
      termAt (larger.log earlier) bound = some earlier → bound ≤ record.acked earlier member)
    (promise : Promise record member last lastTerm term) : Promise larger member last lastTerm term := by
  intro earlier bound positive accepted own
  have before := same earlier bound positive accepted own
  have inside := before.trans (sound.ackedLe earlier member)
  rw [History.termAt_stable grown inside] at own
  rcases promise earlier bound positive before own with held | ⟨between, above, below, led, lost⟩
  · exact Or.inl held
  · refine Or.inr ⟨between, above, below, grown.elected led, ?_⟩
    rwa [History.carries_stable grown led inside]

theorem Promise.ballot {voter : ι} {term last lastTerm candidateLast candidateTerm : Nat}
    (promise : Promise record voter last lastTerm term) (vacant : record.leader term = none)
    (upToDate : lastTerm < candidateTerm ∨ candidateTerm = lastTerm ∧ last ≤ candidateLast) :
    record.Ballot voter term candidateLast candidateTerm := by
  intro earlier bound _ positive accepted own
  rcases promise earlier bound positive accepted own with held | ⟨between, above, below, led, lost⟩
  · left
    omega
  · have different : between ≠ term := by
      rintro rfl
      rw [vacant] at led
      cases led
    exact Or.inr ⟨between, above, by omega, led, lost⟩

end Stability

section Positions

variable {members : List ι} {record : History ι ε} {window : Window ε}

theorem Anchored.origin (sound : History.Sound members record) {position value term : Nat}
    (anchored : Anchored members record position value term) :
    termAt (record.log value) position = some value ∧ value ≤ term := by
  rcases anchored with ⟨rfl, rfl⟩ | ⟨bound, chosen, commit, below, inside, found⟩
  · exact ⟨rfl, Nat.zero_le _⟩
  · rcases Nat.eq_zero_or_pos position with rfl | positive
    · simp only [termAt, Option.some.injEq] at found
      subst found
      exact ⟨rfl, Nat.zero_le _⟩
    · obtain ⟨le, _, _, same⟩ := sound.origin found positive
      exact ⟨(same.termAt_eq (Nat.le_refl _)).trans found, le.trans below⟩

theorem Window.ends (window : Window ε) :
    window.rest = [] ∧ window.lastTerm = window.baseTerm ∨
      ∃ top final, window.rest[top]? = some final ∧ window.rest.length = top + 1 ∧ window.lastTerm = stamp final := by
  rcases List.eq_nil_or_concat window.rest with empty | ⟨front, final, shape⟩
  · exact Or.inl ⟨empty, by simp only [Window.lastTerm, empty, List.getLast?_nil, Option.map_none, Option.getD_none]⟩
  · rw [List.concat_eq_append] at shape
    refine Or.inr ⟨front.length, final, ?_, ?_, ?_⟩
    · rw [shape, List.getElem?_concat_length]
    · rw [shape, List.length_append, List.length_singleton]
    · simp only [Window.lastTerm, shape, List.getLast?_append, List.getLast?_singleton, Option.some_or,
        Option.map_some, Option.getD_some]

theorem Window.last_onLog (sound : History.Sound members record) {term : Nat}
    (segment : window.Segment record)
    (anchored : Anchored members record window.base window.baseTerm term) :
    termAt (record.log window.lastTerm) window.last = some window.lastTerm := by
  rcases window.ends with ⟨empty, own⟩ | ⟨top, final, present, length, stamped⟩
  · rw [own, Window.last, empty]
    exact (anchored.origin sound).1
  · have onLog := segment top final present top (Nat.le_refl _)
    rw [present] at onLog
    rw [stamped, Window.last, length, ← Nat.add_assoc]
    simp only [termAt, onLog, Option.map_some]

theorem Window.lastTerm_le (sound : History.Sound members record) {term : Nat}
    (anchored : Anchored members record window.base window.baseTerm term)
    (bounded : ∀ entry ∈ window.rest, stamp entry ≤ term) : window.lastTerm ≤ term := by
  rcases window.ends with ⟨_, own⟩ | ⟨top, final, present, _, stamped⟩
  · rw [own]
    exact (anchored.origin sound).2
  · rw [stamped]
    exact bounded final (List.mem_of_getElem? present)

theorem Window.rest_eq (segment : window.Segment record) :
    ∀ place, place < window.rest.length →
      (record.log window.lastTerm)[window.base + place]? = window.rest[place]? := by
  intro place inside
  rcases window.ends with ⟨empty, _⟩ | ⟨top, final, present, length, stamped⟩
  · rw [empty] at inside
    exact absurd inside (Nat.not_lt_zero place)
  · rw [stamped]
    exact segment top final present place (by omega)

theorem Window.segment_of_log (sound : History.Sound members record) {term : Nat}
    (same : ∀ place, place < window.rest.length →
      (record.log term)[window.base + place]? = window.rest[place]?) : window.Segment record := by
  intro slot entry present place le
  have inside : slot < window.rest.length := (List.getElem?_eq_some_iff.mp present).1
  have onLog : (record.log term)[window.base + slot]? = some entry := (same slot inside).trans present
  have agree := (sound.owner term (window.base + slot) entry onLog).2.2
  exact (agree (window.base + place) (by omega)).trans (same place (by omega))

theorem Window.agree_upTo (sound : History.Sound members record) (segment : window.Segment record)
    {term slot : Nat} {entry : ε} (present : window.rest[slot]? = some entry)
    (matched : termAt (record.log term) (window.base + slot + 1) = some (stamp entry)) :
    ∀ place, place ≤ slot → (record.log term)[window.base + place]? = window.rest[place]? := by
  intro place le
  obtain ⟨_, _, _, same⟩ := sound.origin matched (Nat.succ_pos _)
  exact (same (window.base + place) (by omega)).symm.trans (segment slot entry present place le)

end Positions

section Moves

variable {members : List ι} {record : History ι ε} {window : Window ε}

/-- The window gave way to one ending at `(last, lastTerm)` on the log of `guide`: either it was
too short to reach that position, or it disagreed with that log somewhere before it. -/
def GivesWay (record : History ι ε) (window : Window ε) (guide last lastTerm : Nat) : Prop :=
  termAt (record.log guide) last = some lastTerm ∧
    (window.last < last ∨ ∃ slot entry, window.rest[slot]? = some entry ∧
      window.base + slot + 1 ≤ last ∧ (record.log guide)[window.base + slot]? ≠ some entry)

/-- Following a leader that is no older than anything accepted keeps every promise: an accepted
prefix that is no longer outranked was lost by that leader, or by the one before it. -/
theorem Promise.follow (sound : History.Sound members record) {member : ι} {term later last lastTerm : Nat}
    (segment : window.Segment record) (anchored : Anchored members record window.base window.baseTerm term)
    (bounded : ∀ entry ∈ window.rest, stamp entry ≤ term) (le : term ≤ later)
    (promise : Promise record member window.last window.lastTerm term)
    (accounted : ∀ earlier, 0 < record.acked earlier member → earlier ≤ term)
    (moved : ∀ earlier, earlier ≤ term → (record.leader earlier).isSome →
      ∃ guide, earlier ≤ guide ∧ guide ≤ later ∧ (record.leader guide).isSome ∧
        GivesWay record window guide last lastTerm) :
    Promise record member last lastTerm later := by
  intro earlier bound positive accepted own
  have inside := accepted.trans (sound.ackedLe earlier member)
  obtain ⟨_, ledEarlier, _, _⟩ := sound.origin own positive
  obtain ⟨guide, above, below, ledGuide, onGuide, reason⟩ :=
    moved earlier (accounted earlier (lt_of_lt_of_le positive accepted)) ledEarlier
  have ended := window.last_onLog sound segment anchored
  have lastBound := (window.lastTerm_le sound anchored bounded).trans le
  -- Whichever log the old window followed, it either agrees with the accepted prefix or lost it.
  have oldGuide : (window.lastTerm = earlier ∧ bound ≤ window.last ∨
      earlier < window.lastTerm ∧ record.Carries window.lastTerm earlier bound ∧ bound < window.last) ∨
      ∃ between, earlier < between ∧ between ≤ later ∧ (record.leader between).isSome ∧
        ¬record.Carries between earlier bound := by
    rcases promise earlier bound positive accepted own with
      (outranked | ⟨sameTerm, reach⟩) | ⟨between, higher, lower, led, lost⟩
    · have lastPositive : 0 < window.last := by
        rcases Nat.eq_zero_or_pos window.last with zero | positive'
        · rw [zero] at ended
          simp only [termAt, Option.some.injEq] at ended
          omega
        · exact positive'
      have ledLast := (sound.origin ended lastPositive).2.1
      by_cases carries : record.Carries window.lastTerm earlier bound
      · have onLast := (sound.carried carries (Nat.le_refl bound) own inside).1
        have shorter : bound < window.last := by
          by_contra beyond
          have ordered := sound.monotone ended onLast (by omega)
          omega
        exact Or.inl (Or.inr ⟨outranked, carries, shorter⟩)
      · exact Or.inr ⟨window.lastTerm, outranked, lastBound, ledLast, carries⟩
    · exact Or.inl (Or.inl ⟨sameTerm, reach⟩)
    · exact Or.inr ⟨between, higher, lower.trans le, led, lost⟩
  rcases oldGuide with held | lost
  · -- The old window agreed with the accepted prefix everywhere inside it.
    have agreed : Agree (record.log window.lastTerm) (record.log earlier) bound ∧ bound ≤ window.last := by
      rcases held with ⟨sameTerm, reach⟩ | ⟨_, carries, shorter⟩
      · rw [sameTerm]
        exact ⟨fun _ _ => rfl, reach⟩
      · exact ⟨sound.carries_log carries inside, by omega⟩
    have reaches : Agree (record.log guide) (record.log earlier) bound → bound ≤ last := by
      intro same
      rcases reason with short | ⟨slot, entry, present, le', conflict⟩
      · omega
      · by_contra beyond
        apply conflict
        have slotInside : window.base + slot < bound := by omega
        have restInside : slot < window.rest.length := (List.getElem?_eq_some_iff.mp present).1
        rw [same _ slotInside, ← agreed.1 _ slotInside, window.rest_eq segment slot restInside]
        exact present
    have outranks : Agree (record.log guide) (record.log earlier) bound →
        earlier < lastTerm ∨ lastTerm = earlier ∧ bound ≤ last := by
      intro same
      have reach := reaches same
      have ownGuide : termAt (record.log guide) bound = some earlier :=
        (same.termAt_eq (Nat.le_refl _)).trans own
      have ordered := sound.monotone ownGuide onGuide reach
      omega
    rcases Nat.eq_or_lt_of_le above with same | newer
    · subst same
      exact Or.inl (outranks (fun _ _ => rfl))
    · by_cases carries : record.Carries guide earlier bound
      · exact Or.inl (outranks (sound.carries_log carries inside))
      · exact Or.inr ⟨guide, newer, below, ledGuide, carries⟩
  · exact Or.inr lost

theorem Anchored.givesWay [DecidableEq ι] (sound : History.Sound members record)
    {position value later : Nat}
    (anchored : Anchored members record position value later) (positive : 0 < position)
    (missing : window.last < position ∨ ∃ slot entry, window.rest[slot]? = some entry ∧
      window.base + slot + 1 = position ∧ stamp entry ≠ value) :
    ∀ earlier, earlier ≤ later → (record.leader earlier).isSome →
      ∃ guide, earlier ≤ guide ∧ guide ≤ later ∧ (record.leader guide).isSome ∧
        GivesWay record window guide position value := by
  intro earlier le ledEarlier
  rcases anchored with ⟨zero, _⟩ | ⟨bound, chosen, commit, below, inside, found⟩
  · omega
  · have onGuide : ∀ guide, chosen ≤ guide → (record.leader guide).isSome →
        termAt (record.log guide) position = some value := by
      intro guide above led
      exact ((sound.committed_agree commit above led).termAt_eq inside).trans found
    have gives : ∀ guide, chosen ≤ guide → (record.leader guide).isSome →
        GivesWay record window guide position value := by
      intro guide above led
      refine ⟨onGuide guide above led, ?_⟩
      rcases missing with short | ⟨slot, entry, present, at_, different⟩
      · exact Or.inl short
      · refine Or.inr ⟨slot, entry, present, by omega, fun same => different ?_⟩
        have stamped := onGuide guide above led
        rw [← at_] at stamped
        simp only [termAt, same, Option.map_some, Option.some.injEq] at stamped
        exact stamped
    rcases Nat.le_total earlier chosen with older | newer
    · exact ⟨chosen, older, below, commit.led sound, gives chosen (Nat.le_refl _) (commit.led sound)⟩
    · exact ⟨earlier, Nat.le_refl _, le, ledEarlier, gives earlier newer ledEarlier⟩

theorem Promise.accept [DecidableEq ι] (sound : History.Sound members record) {member : ι}
    {term position last lastTerm current : Nat} (inside : position ≤ (record.log term).length)
    (promise : Promise record member last lastTerm current)
    (covered : 0 < position → termAt (record.log term) position = some term →
      lastTerm = term ∧ position ≤ last) :
    Promise (record.accept term member position) member last lastTerm current := by
  intro earlier bound positive accepted own
  have own' : termAt (record.log earlier) bound = some earlier := own
  by_cases old : bound ≤ record.acked earlier member
  · exact promise earlier bound positive old own'
  · have same : earlier = term := by
      by_contra different
      apply old
      simpa only [History.accept, History.setAt_other _ _ _ _ (fun h : earlier = term ∧ member = member =>
        different h.1)] using accepted
    subst same
    simp only [History.accept, History.setAt_same] at accepted
    have reach : bound ≤ position := by omega
    have topPositive : 0 < position := by omega
    obtain ⟨value, atTop⟩ : ∃ value, termAt (record.log earlier) position = some value := by
      cases position with
      | zero => omega
      | succ slot => exact ⟨stamp (record.log earlier)[slot], by
          simp only [termAt, List.getElem?_eq_getElem (show slot < (record.log earlier).length by omega),
            Option.map_some]⟩
    have ordered := sound.monotone own' atTop reach
    have upper := (sound.origin atTop topPositive).1
    have top : value = earlier := by omega
    subst top
    obtain ⟨sameTerm, le⟩ := covered topPositive atTop
    exact Or.inl (Or.inr ⟨sameTerm, by omega⟩)

theorem Window.ends_in_term (sound : History.Sound members record) (segment : window.Segment record)
    {term slot : Nat} {entry : ε} (bounded : ∀ entry ∈ window.rest, stamp entry ≤ term)
    (present : window.rest[slot]? = some entry) (own : stamp entry = term) :
    window.lastTerm = term ∧ window.base + slot + 1 ≤ window.last := by
  have inside : slot < window.rest.length := (List.getElem?_eq_some_iff.mp present).1
  refine ⟨?_, by simp only [Window.last]; omega⟩
  rcases window.ends with ⟨empty, _⟩ | ⟨top, final, atEnd, length, stamped⟩
  · rw [empty] at inside
    exact absurd inside (Nat.not_lt_zero slot)
  · have upper := bounded final (List.mem_of_getElem? atEnd)
    have lowLog := segment top final atEnd slot (by omega)
    have highLog := segment top final atEnd top (Nat.le_refl _)
    rw [present] at lowLog
    rw [atEnd] at highLog
    have low : termAt (record.log (stamp final)) (window.base + slot + 1) = some (stamp entry) := by
      simp only [termAt, lowLog, Option.map_some]
    have high : termAt (record.log (stamp final)) (window.base + top + 1) = some (stamp final) := by
      simp only [termAt, highLog, Option.map_some]
    have ordered := sound.monotone low high (by omega)
    omega

end Moves

end ForgeDB.Consensus
