import ForgeDB.Consensus.History

/-!
The five ways a record grows: a vote, an acceptance, a commit, an appended entry and an
election. Each keeps the record sound, extends it, and leaves other members' parts alone.
-/

namespace ForgeDB.Consensus.History

open Stamped

variable {ι ε : Type} [DecidableEq ι]

def setAt {β : Type} (table : Nat → ι → β) (term : Nat) (member : ι) (value : β) : Nat → ι → β :=
  fun row column => if row = term ∧ column = member then value else table row column

theorem setAt_same {β : Type} (table : Nat → ι → β) (term : Nat) (member : ι) (value : β) :
    setAt table term member value term member = value := by
  simp [setAt]

theorem setAt_other {β : Type} (table : Nat → ι → β) (term : Nat) (member : ι) (value : β)
    {row : Nat} {column : ι} (different : ¬(row = term ∧ column = member)) :
    setAt table term member value row column = table row column := by
  simp only [setAt, if_neg different]

theorem le_setAt {table : Nat → ι → Nat} {term value : Nat} {member : ι} (raised : table term member ≤ value)
    (row : Nat) (column : ι) : table row column ≤ setAt table term member value row column := by
  by_cases same : row = term ∧ column = member
  · obtain ⟨rfl, rfl⟩ := same
    rwa [setAt_same]
  · exact (setAt_other _ _ _ _ same).ge

theorem setAt_current {β γ : Type} {votes : Nat → ι → Option γ} {table : Nat → ι → β} {term : Nat} {member : ι}
    {value : β} (current : ∀ later, term < later → votes later member = none) {row later : Nat} {column : ι}
    (lt : row < later) (known : (votes later column).isSome = true) :
    setAt table term member value row column = table row column := by
  refine setAt_other _ _ _ _ ?_
  rintro ⟨rfl, rfl⟩
  rw [current later lt] at known
  cases known

/-- `voter` durably votes for `choice`, noting the log position it stands with itself. -/
def castVote (record : History ι ε) (term : Nat) (voter choice : ι) (stand : Nat × Nat) : History ι ε :=
  { record with
    votes := setAt record.votes term voter (some choice)
    ticket := setAt record.ticket term voter stand }

def accept (record : History ι ε) (term : Nat) (voter : ι) (position : Nat) : History ι ε :=
  { record with acked := setAt record.acked term voter (max (record.acked term voter) position) }

def commit (record : History ι ε) (term position : Nat) : History ι ε :=
  { record with
    committed := fun row => if row = term then max (record.committed term) position else record.committed row }

/-- The leader `chief` of `term` appends an entry, which it thereby accepts itself. -/
def extend (record : History ι ε) (term : Nat) (chief : ι) (entry : ε) : History ι ε :=
  { record with
    log := fun row => if row = term then record.log term ++ [entry] else record.log row
    acked := setAt record.acked term chief ((record.log term).length + 1) }

/-- `chief` wins `term` with `initial` as its log and `position` as its commit position. -/
def elect (record : History ι ε) (term : Nat) (chief : ι) (initial : List ε) (position : Nat) : History ι ε :=
  { record with
    leader := fun row => if row = term then some chief else record.leader row
    start := fun row => if row = term then initial else record.start row
    log := fun row => if row = term then initial else record.log row
    committed := fun row => if row = term then position else record.committed row
    acked := setAt record.acked term chief initial.length }

section Extension

variable {record : History ι ε} {term position : Nat} {member voter choice chief : ι}
  {stand : Nat × Nat} {entry : ε} {initial : List ε}

theorem castVote_extends (unused : record.votes term voter = none) :
    record ≤ record.castVote term voter choice stand where
  leader _ _ known := known
  start _ _ := rfl
  log _ := List.prefix_rfl
  committed _ := Nat.le_refl _
  votes row column value known := by
    have different : ¬(row = term ∧ column = voter) := by
      rintro ⟨rfl, rfl⟩
      rw [unused] at known
      cases known
    simpa only [castVote, setAt_other _ _ _ _ different] using known
  ticket row column known := by
    have different : ¬(row = term ∧ column = voter) := by
      rintro ⟨rfl, rfl⟩
      rw [unused] at known
      cases known
    simp only [castVote, setAt_other _ _ _ _ different]
  acked _ _ := Nat.le_refl _
  frozen _ _ _ _ _ := rfl

theorem castVote_spares (other : member ≠ voter) :
    Spares record (record.castVote term voter choice stand) member where
  leader _ known := known
  log _ _ := rfl
  committed _ _ := rfl
  votes _ := setAt_other _ _ _ _ (fun same => other same.2)
  ticket _ := setAt_other _ _ _ _ (fun same => other same.2)
  acked _ := rfl

theorem accept_extends (current : ∀ later, term < later → record.votes later voter = none) :
    record ≤ record.accept term voter position where
  leader _ _ known := known
  start _ _ := rfl
  log _ := List.prefix_rfl
  committed _ := Nat.le_refl _
  votes _ _ _ known := known
  ticket _ _ _ := rfl
  acked := le_setAt (Nat.le_max_left _ _)
  frozen _ _ _ lt known := setAt_current current lt known

theorem accept_spares (other : member ≠ voter) : Spares record (record.accept term voter position) member where
  leader _ known := known
  log _ _ := rfl
  committed _ _ := rfl
  votes _ := rfl
  ticket _ := rfl
  acked _ := setAt_other _ _ _ _ (fun same => other same.2)

omit [DecidableEq ι] in
theorem commit_extends : record ≤ record.commit term position where
  leader _ _ known := known
  start _ _ := rfl
  log _ := List.prefix_rfl
  committed row := by
    by_cases same : row = term
    · subst same
      simp only [commit, if_true]
      exact Nat.le_max_left _ _
    · simp only [commit, if_neg same, Nat.le_refl]
  votes _ _ _ known := known
  ticket _ _ _ := rfl
  acked _ _ := Nat.le_refl _
  frozen _ _ _ _ _ := rfl

omit [DecidableEq ι] in
theorem commit_spares (led : record.leader term = some chief) (other : member ≠ chief) :
    Spares record (record.commit term position) member where
  leader _ known := known
  log _ _ := rfl
  committed row known := by
    have different : row ≠ term := by
      rintro rfl
      rw [led] at known
      exact other (Option.some.inj known).symm
    simp only [commit, if_neg different]
  votes _ := rfl
  ticket _ := rfl
  acked _ := rfl

theorem extend_extends (current : ∀ later, term < later → record.votes later chief = none)
    (bounded : record.acked term chief ≤ (record.log term).length) :
    record ≤ record.extend term chief entry where
  leader _ _ known := known
  start _ _ := rfl
  log row := by
    by_cases same : row = term
    · subst same
      simp only [extend, if_true]
      exact List.prefix_append _ _
    · simp only [extend, if_neg same]
      exact List.prefix_rfl
  committed _ := Nat.le_refl _
  votes _ _ _ known := known
  ticket _ _ _ := rfl
  acked := le_setAt (Nat.le_succ_of_le bounded)
  frozen _ _ _ lt known := setAt_current current lt known

theorem extend_spares (led : record.leader term = some chief) (other : member ≠ chief) :
    Spares record (record.extend term chief entry) member where
  leader _ known := known
  log row known := by
    have different : row ≠ term := by
      rintro rfl
      rw [led] at known
      exact other (Option.some.inj known).symm
    simp only [extend, if_neg different]
  committed _ _ := rfl
  votes _ := rfl
  ticket _ := rfl
  acked _ := setAt_other _ _ _ _ (fun same => other same.2)

theorem elect_extends [Stamped ε] {members : List ι} (sound : Sound members record)
    (vacant : record.leader term = none)
    (current : ∀ later, term < later → record.votes later chief = none) :
    record ≤ record.elect term chief initial position where
  leader row column known := by
    have different : row ≠ term := by
      rintro rfl
      rw [vacant] at known
      cases known
    simpa only [elect, if_neg different] using known
  start row known := by
    have different : row ≠ term := by
      rintro rfl
      rw [vacant] at known
      cases known
    simp only [elect, if_neg different]
  log row := by
    by_cases same : row = term
    · subst same
      rw [(sound.absent row vacant).1]
      exact List.nil_prefix
    · simp only [elect, if_neg same]
      exact List.prefix_rfl
  committed row := by
    by_cases same : row = term
    · subst same
      rw [(sound.absent row vacant).2.1]
      exact Nat.zero_le _
    · simp only [elect, if_neg same, Nat.le_refl]
  votes _ _ _ known := known
  ticket _ _ _ := rfl
  acked := le_setAt (by rw [(sound.absent term vacant).2.2 chief]; exact Nat.zero_le _)
  frozen _ _ _ lt known := setAt_current current lt known

theorem elect_spares (vacant : record.leader term = none) (other : member ≠ chief) :
    Spares record (record.elect term chief initial position) member where
  leader row known := by
    by_cases same : row = term
    · simp only [elect, if_pos same, Option.some.injEq] at known
      exact absurd known.symm other
    · simpa only [elect, if_neg same] using known
  log row known := by
    have different : row ≠ term := by
      rintro rfl
      rw [vacant] at known
      cases known
    simp only [elect, if_neg different]
  committed row known := by
    have different : row ≠ term := by
      rintro rfl
      rw [vacant] at known
      cases known
    simp only [elect, if_neg different]
  votes _ := rfl
  ticket _ := rfl
  acked _ := setAt_other _ _ _ _ (fun same => other same.2)

end Extension

section Soundness

variable [Stamped ε] {members : List ι} {record : History ι ε} {term position : Nat}
  {voter choice chief : ι} {stand : Nat × Nat} {entry : ε}

omit [DecidableEq ι] [Stamped ε] in
theorem ne_of_led {row : Nat} (led : (record.leader term).isSome) (vacant : record.leader row = none) : row ≠ term := by
  rintro rfl
  rw [vacant] at led
  cases led

omit [Stamped ε] in
theorem extend_getElem? {row slot : Nat} {found : ε}
    (present : ((record.extend term chief entry).log row)[slot]? = some found) :
    (record.log row)[slot]? = some found ∨ row = term ∧ slot = (record.log term).length ∧ found = entry := by
  by_cases same : row = term
  · subst same
    simp only [extend, if_true] at present
    rcases Nat.lt_trichotomy slot (record.log row).length with inside | rfl | outside
    · rw [List.getElem?_append_left inside] at present
      exact Or.inl present
    · rw [List.getElem?_concat_length] at present
      exact Or.inr ⟨rfl, rfl, (Option.some.inj present).symm⟩
    · rw [List.getElem?_eq_none (by simp only [List.length_append, List.length_singleton]; omega)] at present
      cases present
  · simp only [extend, if_neg same] at present
    exact Or.inl present

theorem castVote_sound (sound : Sound members record) (unused : record.votes term voter = none) :
    Sound members (record.castVote term voter choice stand) :=
  { sound with
    elected := fun _ _ known => sound.elected_mono (castVote_extends unused) known }

theorem accept_sound (sound : Sound members record) (led : (record.leader term).isSome)
    (current : ∀ later, term < later → record.votes later voter = none)
    (inside : position ≤ (record.log term).length) : Sound members (record.accept term voter position) :=
  { sound with
    absent := by
      intro row vacant
      obtain ⟨empty, uncommitted, unacked⟩ := sound.absent row vacant
      refine ⟨empty, uncommitted, fun column => ?_⟩
      simp only [accept, setAt_other _ _ _ _ fun same : row = term ∧ column = voter => ne_of_led led vacant same.1]
      exact unacked column
    ackedLe := by
      intro row column
      have bound := sound.ackedLe row column
      by_cases same : row = term ∧ column = voter
      · obtain ⟨rfl, rfl⟩ := same
        simp only [accept, setAt_same]
        omega
      · simpa only [accept, setAt_other _ _ _ _ same] using bound
    elected := fun _ _ known => sound.elected_mono (accept_extends current) known }

omit [DecidableEq ι] in
theorem commit_sound (sound : Sound members record) (led : (record.leader term).isSome) :
    Sound members (record.commit term position) :=
  { sound with
    absent := by
      intro row vacant
      obtain ⟨empty, uncommitted, unacked⟩ := sound.absent row vacant
      refine ⟨empty, ?_, unacked⟩
      simpa only [commit, if_neg (ne_of_led led vacant)] using uncommitted
    elected := fun _ _ known => sound.elected_mono commit_extends known }

theorem extend_sound (sound : Sound members record) (led : record.leader term = some chief)
    (current : ∀ later, term < later → record.votes later chief = none)
    (stamped : stamp entry = term) (positive : 0 < term) : Sound members (record.extend term chief entry) := by
  have grown : record ≤ record.extend term chief entry :=
    extend_extends current (sound.ackedLe term chief)
  have isLed : (record.leader term).isSome := by rw [led]; rfl
  have bounded : ∀ old ∈ record.log term, stamp old ≤ term := by
    intro old inside
    obtain ⟨slot, found⟩ := List.mem_iff_getElem?.mp inside
    exact (sound.owner term slot old found).1
  exact
  { sorted := by
      intro row
      by_cases same : row = term
      · subst same
        simp only [extend, if_true]
        rw [List.pairwise_append]
        refine ⟨sound.sorted row, List.pairwise_singleton _ _, ?_⟩
        intro old inside new isNew
        rw [List.mem_singleton.mp isNew, stamped]
        exact bounded old inside
      · simpa only [extend, if_neg same] using sound.sorted row
    positive := by
      intro row new inside
      obtain ⟨slot, found⟩ := List.mem_iff_getElem?.mp inside
      rcases extend_getElem? found with old | ⟨_, _, rfl⟩
      · exact sound.positive row new (List.mem_of_getElem? old)
      · omega
    owner := by
      intro row slot found present
      rcases extend_getElem? present with old | ⟨rfl, _, rfl⟩
      · exact sound.owner_mono grown old
      · rw [stamped]
        exact ⟨Nat.le_refl _, isLed, fun _ _ => rfl⟩
    started := fun row => (sound.started row).trans (grown.log row)
    inherited := sound.inherited
    own := by
      intro row slot found present beyond
      rcases extend_getElem? present with old | ⟨rfl, _, rfl⟩
      · exact sound.own row slot found old beyond
      · exact stamped
    absent := by
      intro row vacant
      have different : row ≠ term := ne_of_led isLed vacant
      obtain ⟨empty, uncommitted, unacked⟩ := sound.absent row vacant
      refine ⟨by simpa only [extend, if_neg different] using empty, uncommitted, fun column => ?_⟩
      simp only [extend, setAt_other _ _ _ _ (fun same : row = term ∧ column = chief => different same.1)]
      exact unacked column
    ackedLe := by
      intro row column
      have bound := sound.ackedLe row column
      have longer := (grown.log row).length_le
      by_cases same : row = term ∧ column = chief
      · obtain ⟨rfl, rfl⟩ := same
        simp only [extend, setAt_same, if_true, List.length_append, List.length_singleton, Nat.le_refl]
      · have kept : (record.extend term chief entry).acked row column = record.acked row column := by
          simp only [extend, setAt_other _ _ _ _ same]
        omega
    elected := fun _ _ known => sound.elected_mono grown known }

/-- A candidate whose last position outranks what a majority had accepted starts from a log
that carries everything any of them could still be relied on for. -/
theorem backed_of_ballot (sound : Sound members record) {last lastTerm : Nat}
    (onLog : termAt (record.log lastTerm) last = some lastTerm) (below : lastTerm < term)
    (vacant : record.leader term = none) (current : ∀ later, term < later → record.votes later chief = none)
    (voted : record.votes term voter = some chief) (ballot : record.Ballot voter term last lastTerm) :
    (record.elect term chief ((record.log lastTerm).take last) position).Backed voter term := by
  intro earlier bound before positive accepted own
  have grown : record ≤ record.elect term chief ((record.log lastTerm).take last) position :=
    elect_extends sound vacant current
  have isVoted : (record.votes term voter).isSome := by rw [voted]; rfl
  rw [grown.frozen earlier term voter before isVoted] at accepted
  have inside := accepted.trans (sound.ackedLe earlier voter)
  rw [termAt_stable grown inside] at own
  have keepLost : ∀ between, (record.leader between).isSome → ¬record.Carries between earlier bound →
      ¬(record.elect term chief ((record.log lastTerm).take last) position).Carries between earlier bound := by
    intro between led lost
    rwa [carries_stable grown led inside]
  -- The new leader's first log is exactly the candidate's log.
  have carriesOf : Agree (record.log lastTerm) (record.log earlier) bound → bound ≤ last →
      (record.elect term chief ((record.log lastTerm).take last) position).Carries term earlier bound := by
    intro same le slot slotInside
    have kept := Agree.of_grown (grown.log earlier) slot (lt_of_lt_of_le slotInside inside)
    simp only [elect, if_true]
    rw [List.getElem?_take_of_lt (by omega), same slot slotInside, kept]
    rfl
  rcases ballot earlier bound before positive accepted own with
    (outranked | ⟨sameTerm, le⟩) | ⟨between, above, lower, led, lost⟩
  · have lastPositive : 0 < last := by
      rcases Nat.eq_zero_or_pos last with zero | positive'
      · subst zero
        simp only [termAt, Option.some.injEq] at onLog
        omega
      · exact positive'
    have ledLast := (sound.origin onLog lastPositive).2.1
    by_cases carries : record.Carries lastTerm earlier bound
    · left
      have onNew := (sound.carried carries (Nat.le_refl bound) own inside).1
      have le : bound ≤ last := by
        by_contra beyond
        have ordered := sound.monotone onLog onNew (by omega)
        omega
      exact carriesOf (sound.carries_log carries inside) le
    · exact Or.inr ⟨lastTerm, outranked, below, grown.elected ledLast, keepLost lastTerm ledLast carries⟩
  · subst sameTerm
    exact Or.inl (carriesOf (fun _ _ => rfl) le)
  · exact Or.inr ⟨between, above, lower, grown.elected led, keepLost between led lost⟩

omit [Stamped ε] in
theorem mem_take_slot {entries : List ε} {last slot : Nat} {found : ε}
    (present : (entries.take last)[slot]? = some found) :
    entries[slot]? = some found ∧ slot < last := by
  have inside : slot < last := by
    by_contra outside
    rw [List.getElem?_take_eq_none (by omega)] at present
    cases present
  rw [List.getElem?_take_of_lt inside] at present
  exact ⟨present, inside⟩

theorem elect_owner (sound : Sound members record) {last lastTerm : Nat} (below : lastTerm < term)
    (grown : record ≤ record.elect term chief ((record.log lastTerm).take last) position) (row slot : Nat) (found : ε)
    (present : ((record.elect term chief ((record.log lastTerm).take last) position).log row)[slot]? = some found) :
    stamp found ≤ row ∧
      ((record.elect term chief ((record.log lastTerm).take last) position).leader (stamp found)).isSome ∧
      Agree ((record.elect term chief ((record.log lastTerm).take last) position).log (stamp found))
        ((record.elect term chief ((record.log lastTerm).take last) position).log row) (slot + 1) := by
  by_cases same : row = term
  · simp only [elect, if_pos same] at present
    obtain ⟨original, inside⟩ := mem_take_slot present
    obtain ⟨bound, led, agree⟩ := sound.owner_mono grown original
    refine ⟨by omega, led, agree.trans ?_⟩
    intro place before
    simp only [elect, if_pos same, if_neg below.ne]
    rw [List.getElem?_take_of_lt (by omega)]
  · simp only [elect, if_neg same] at present
    exact sound.owner_mono grown present

theorem elect_sound (sound : Sound members record) {last lastTerm : Nat} {quorum : List ι}
    (onLog : termAt (record.log lastTerm) last = some lastTerm) (below : lastTerm < term)
    (vacant : record.leader term = none) (current : ∀ later, term < later → record.votes later chief = none)
    (isQuorum : IsQuorum members quorum)
    (ballots : ∀ voter ∈ quorum, record.votes term voter = some chief ∧ record.Ballot voter term last lastTerm) :
    Sound members (record.elect term chief ((record.log lastTerm).take last) position) := by
  have grown : record ≤ record.elect term chief ((record.log lastTerm).take last) position :=
    elect_extends sound vacant current
  exact
  { sorted := by
      intro row
      by_cases same : row = term
      · simp only [elect, if_pos same]
        exact (sound.sorted lastTerm).sublist (List.take_sublist _ _)
      · simpa only [elect, if_neg same] using sound.sorted row
    positive := by
      intro row found inside
      by_cases same : row = term
      · simp only [elect, if_pos same] at inside
        exact sound.positive lastTerm found (List.mem_of_mem_take inside)
      · simp only [elect, if_neg same] at inside
        exact sound.positive row found inside
    owner := elect_owner sound below grown
    started := by
      intro row
      by_cases same : row = term
      · simp only [elect, if_pos same]
        exact List.prefix_rfl
      · simpa only [elect, if_neg same] using sound.started row
    inherited := by
      intro row found inside
      by_cases same : row = term
      · simp only [elect, if_pos same] at inside
        obtain ⟨slot, present⟩ := List.mem_iff_getElem?.mp inside
        have bound := (sound.owner lastTerm slot found (mem_take_slot present).1).1
        omega
      · simp only [elect, if_neg same] at inside
        exact sound.inherited row found inside
    own := by
      intro row slot found present beyond
      by_cases same : row = term
      · simp only [elect, if_pos same] at present beyond
        rw [List.getElem?_eq_none beyond] at present
        cases present
      · simp only [elect, if_neg same] at present beyond
        exact sound.own row slot found present beyond
    absent := by
      intro row vacantRow
      have different : row ≠ term := by
        rintro rfl
        simp only [elect, if_true] at vacantRow
        cases vacantRow
      have vacantRow' : record.leader row = none := by
        simpa only [elect, if_neg different] using vacantRow
      obtain ⟨empty, uncommitted, unacked⟩ := sound.absent row vacantRow'
      refine ⟨by simpa only [elect, if_neg different] using empty,
        by simpa only [elect, if_neg different] using uncommitted, fun column => ?_⟩
      simp only [elect, setAt_other _ _ _ _ (fun same : row = term ∧ column = chief => different same.1)]
      exact unacked column
    ackedLe := by
      intro row column
      by_cases same : row = term ∧ column = chief
      · obtain ⟨rfl, rfl⟩ := same
        simp only [elect, setAt_same, if_true, Nat.le_refl]
      · have kept : (record.elect term chief ((record.log lastTerm).take last) position).acked row column =
            record.acked row column := by
          simp only [elect, setAt_other _ _ _ _ same]
        have bound := sound.ackedLe row column
        have longer := (grown.log row).length_le
        omega
    elected := by
      intro row winner known
      by_cases same : row = term
      · subst same
        simp only [elect, if_true, Option.some.injEq] at known
        subst known
        refine ⟨quorum, isQuorum, fun voter inside => ?_⟩
        obtain ⟨voted, ballot⟩ := ballots voter inside
        exact ⟨voted, backed_of_ballot sound onLog below vacant current voted ballot⟩
      · have known' : record.leader row = some winner := by
          simpa only [elect, if_neg same] using known
        exact sound.elected_mono grown known' }

end Soundness

end ForgeDB.Consensus.History
