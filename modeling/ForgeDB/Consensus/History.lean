import Mathlib.Data.List.Basic
import Mathlib.Data.List.Infix
import ForgeDB.Consensus.Majority

/-!
The record of a leader-based replicated log: for every term, who led it, which log it started from, how that log
grew, who voted, and which positions each member accepted in that term. No program reads it: it is the witness
behind the safety argument. Positions are one-based; position zero is the empty prefix, at term zero.
-/

namespace ForgeDB.Consensus

class Stamped (ε : Type) where
  stamp : ε → Nat

open Stamped

variable {ι ε : Type}

def entryAt (log : List ε) : Nat → Option ε
  | 0 => none
  | position + 1 => log[position]?

def termAt [Stamped ε] (log : List ε) : Nat → Option Nat
  | 0 => some 0
  | position + 1 => log[position]?.map stamp

/-- The first `bound` entries of two logs are the same, including how many there are. -/
def Agree (first second : List ε) (bound : Nat) : Prop :=
  ∀ slot, slot < bound → first[slot]? = second[slot]?

theorem Agree.symm {first second : List ε} {bound : Nat} (same : Agree first second bound) :
    Agree second first bound :=
  fun slot inside => (same slot inside).symm

theorem Agree.trans {first second third : List ε} {bound : Nat} (left : Agree first second bound)
    (right : Agree second third bound) : Agree first third bound :=
  fun slot inside => (left slot inside).trans (right slot inside)

theorem Agree.mono {first second : List ε} {small large : Nat} (same : Agree first second large)
    (le : small ≤ large) : Agree first second small :=
  fun slot inside => same slot (lt_of_lt_of_le inside le)

theorem Agree.of_grown {first second : List ε} (extension : first <+: second) :
    Agree first second first.length := by
  intro slot inside
  obtain ⟨tail, rfl⟩ := extension
  rw [List.getElem?_append_left inside]

theorem Agree.length_le {first second : List ε} {bound : Nat} (same : Agree first second bound)
    (long : bound ≤ second.length) : bound ≤ first.length := by
  by_contra short
  have inside : first.length < bound := by omega
  have missing := same first.length inside
  rw [List.getElem?_eq_none (Nat.le_refl _), List.getElem?_eq_getElem (by omega)] at missing
  cases missing

theorem Agree.entryAt_eq {first second : List ε} {bound position : Nat}
    (same : Agree first second bound) (le : position ≤ bound) :
    entryAt first position = entryAt second position := by
  cases position with
  | zero => rfl
  | succ slot => exact same slot le

theorem Agree.termAt_eq [Stamped ε] {first second : List ε} {bound position : Nat}
    (same : Agree first second bound) (le : position ≤ bound) :
    termAt first position = termAt second position := by
  cases position with
  | zero => rfl
  | succ slot => simp only [termAt, same slot le]

theorem entryAt_grown {first second : List ε} (extension : first <+: second) {position : Nat} {entry : ε}
    (found : entryAt first position = some entry) : entryAt second position = some entry := by
  cases position with
  | zero => cases found
  | succ slot =>
    have inside : slot < first.length := (List.getElem?_eq_some_iff.mp found).1
    exact (Agree.of_grown extension slot inside).symm.trans found

theorem termAt_grown [Stamped ε] {first second : List ε} (extension : first <+: second)
    {position value : Nat} (found : termAt first position = some value) :
    termAt second position = some value := by
  cases position with
  | zero => exact found
  | succ slot =>
    simp only [termAt, Option.map_eq_some_iff] at found ⊢
    obtain ⟨entry, present, stamped⟩ := found
    have kept : entryAt second (slot + 1) = some entry := entryAt_grown extension present
    exact ⟨entry, kept, stamped⟩

theorem termAt_le_length [Stamped ε] {log : List ε} {position value : Nat}
    (found : termAt log position = some value) : position ≤ log.length := by
  cases position with
  | zero => exact Nat.zero_le _
  | succ slot =>
    simp only [termAt, Option.map_eq_some_iff] at found
    obtain ⟨entry, present, _⟩ := found
    exact (List.getElem?_eq_some_iff.mp present).1

theorem termAt_of_entryAt [Stamped ε] {log : List ε} {position : Nat} {entry : ε}
    (found : entryAt log position = some entry) : termAt log position = some (stamp entry) := by
  cases position with
  | zero => cases found
  | succ slot =>
    have present : log[slot]? = some entry := found
    simp only [termAt, present, Option.map_some]

structure History (ι ε : Type) where
  leader : Nat → Option ι
  start : Nat → List ε
  log : Nat → List ε
  committed : Nat → Nat
  votes : Nat → ι → Option ι
  ticket : Nat → ι → Nat × Nat
  acked : Nat → ι → Nat

namespace History

/-- A later record keeps every earlier promise. A member that has voted in a term never
accepts anything more in an earlier one. -/
structure Extends (before after : History ι ε) : Prop where
  leader : ∀ term chief, before.leader term = some chief → after.leader term = some chief
  start : ∀ term, (before.leader term).isSome → after.start term = before.start term
  log : ∀ term, before.log term <+: after.log term
  committed : ∀ term, before.committed term ≤ after.committed term
  votes : ∀ term voter choice, before.votes term voter = some choice →
    after.votes term voter = some choice
  ticket : ∀ term voter, (before.votes term voter).isSome →
    after.ticket term voter = before.ticket term voter
  acked : ∀ term voter, before.acked term voter ≤ after.acked term voter
  frozen : ∀ term later voter, term < later → (before.votes later voter).isSome →
    after.acked term voter = before.acked term voter

theorem Extends.elected {before after : History ι ε} (grown : Extends before after) {term : Nat}
    (elected : (before.leader term).isSome) : (after.leader term).isSome := by
  obtain ⟨chief, known⟩ := Option.isSome_iff_exists.mp elected
  rw [grown.leader term chief known]
  rfl

theorem Extends.voted {before after : History ι ε} (grown : Extends before after) {term : Nat} {voter : ι}
    (voted : (before.votes term voter).isSome) : (after.votes term voter).isSome := by
  obtain ⟨choice, known⟩ := Option.isSome_iff_exists.mp voted
  rw [grown.votes term voter choice known]
  rfl

instance : Preorder (History ι ε) where
  le := Extends
  le_refl _ :=
    { leader := fun _ _ known => known
      start := fun _ _ => rfl
      log := fun _ => List.prefix_rfl
      committed := fun _ => Nat.le_refl _
      votes := fun _ _ _ known => known
      ticket := fun _ _ _ => rfl
      acked := fun _ _ => Nat.le_refl _
      frozen := fun _ _ _ _ _ => rfl }
  le_trans _ _ _ first second :=
    { leader := fun term chief known => second.leader term chief (first.leader term chief known)
      start := fun term known => (second.start term (Extends.elected first known)).trans (first.start term known)
      log := fun term => (first.log term).trans (second.log term)
      committed := fun term => (first.committed term).trans (second.committed term)
      votes := fun term voter choice known => second.votes term voter choice (first.votes term voter choice known)
      ticket := fun term voter known =>
        (second.ticket term voter (Extends.voted first known)).trans (first.ticket term voter known)
      acked := fun term voter => (first.acked term voter).trans (second.acked term voter)
      frozen := fun term later voter lt known =>
        (second.frozen term later voter lt (Extends.voted first known)).trans (first.frozen term later voter lt known) }

/-- The extension was the work of other members: everything `member` owns is untouched. -/
structure Spares (before after : History ι ε) (member : ι) : Prop where
  leader : ∀ term, after.leader term = some member → before.leader term = some member
  log : ∀ term, before.leader term = some member → after.log term = before.log term
  committed : ∀ term, before.leader term = some member → after.committed term = before.committed term
  votes : ∀ term, after.votes term member = before.votes term member
  ticket : ∀ term, after.ticket term member = before.ticket term member
  acked : ∀ term, after.acked term member = before.acked term member

theorem Spares.refl (record : History ι ε) (member : ι) : Spares record record member where
  leader _ known := known
  log _ _ := rfl
  committed _ _ := rfl
  votes _ := rfl
  ticket _ := rfl
  acked _ := rfl

theorem Spares.trans {first second third : History ι ε} {member : ι} (left : Spares first second member)
    (grown : first ≤ second) (right : Spares second third member) : Spares first third member where
  leader term known := left.leader term (right.leader term known)
  log term known := (right.log term (Extends.leader grown term member known)).trans (left.log term known)
  committed term known :=
    (right.committed term (Extends.leader grown term member known)).trans (left.committed term known)
  votes term := (right.votes term).trans (left.votes term)
  ticket term := (right.ticket term).trans (left.ticket term)
  acked term := (right.acked term).trans (left.acked term)

/-- The leader of `term` started from a log holding the first `bound` entries of an earlier term. -/
def Carries (record : History ι ε) (term earlier bound : Nat) : Prop :=
  Agree (record.start term) (record.log earlier) bound

/-- Whatever the voter had accepted before `term` is either outranked by the last position
`(last, lastTerm)` of the candidate's log, or was already lost by a leader in between. -/
def Ballot [Stamped ε] (record : History ι ε) (voter : ι) (term last lastTerm : Nat) : Prop :=
  ∀ earlier bound, earlier < term → 0 < bound → bound ≤ record.acked earlier voter →
    termAt (record.log earlier) bound = some earlier →
    (earlier < lastTerm ∨ lastTerm = earlier ∧ bound ≤ last) ∨
      ∃ between, earlier < between ∧ between < term ∧ (record.leader between).isSome ∧
        ¬record.Carries between earlier bound

def Backed [Stamped ε] (record : History ι ε) (voter : ι) (term : Nat) : Prop :=
  ∀ earlier bound, earlier < term → 0 < bound → bound ≤ record.acked earlier voter →
    termAt (record.log earlier) bound = some earlier →
    record.Carries term earlier bound ∨
      ∃ between, earlier < between ∧ between < term ∧ (record.leader between).isSome ∧
        ¬record.Carries between earlier bound

structure Sound [Stamped ε] (members : List ι) (record : History ι ε) : Prop where
  sorted : ∀ term, (record.log term).Pairwise (fun first second => stamp first ≤ stamp second)
  positive : ∀ term entry, entry ∈ record.log term → 0 < stamp entry
  owner : ∀ term slot entry, (record.log term)[slot]? = some entry →
    stamp entry ≤ term ∧ (record.leader (stamp entry)).isSome ∧
      Agree (record.log (stamp entry)) (record.log term) (slot + 1)
  started : ∀ term, record.start term <+: record.log term
  inherited : ∀ term entry, entry ∈ record.start term → stamp entry < term
  own : ∀ term slot entry, (record.log term)[slot]? = some entry →
    (record.start term).length ≤ slot → stamp entry = term
  absent : ∀ term, record.leader term = none →
    record.log term = [] ∧ record.committed term = 0 ∧ ∀ voter, record.acked term voter = 0
  ackedLe : ∀ term voter, record.acked term voter ≤ (record.log term).length
  elected : ∀ term chief, record.leader term = some chief →
    ∃ quorum, IsQuorum members quorum ∧
      ∀ voter ∈ quorum, record.votes term voter = some chief ∧ record.Backed voter term

structure Committed [Stamped ε] (members : List ι) (record : History ι ε) (position term : Nat) : Prop where
  positive : 0 < position
  own : termAt (record.log term) position = some term
  reached : position ≤ record.committed term
  accepted : ∃ quorum, IsQuorum members quorum ∧ ∀ voter ∈ quorum, position ≤ record.acked term voter

def Chosen [Stamped ε] (members : List ι) (record : History ι ε) (position : Nat) (entry : ε) : Prop :=
  ∃ bound term, Committed members record bound term ∧ position ≤ bound ∧
    entryAt (record.log term) position = some entry

section Theory

variable [Stamped ε] {members : List ι} {record : History ι ε}

section

variable (sound : Sound members record)

include sound

theorem Sound.led {term : Nat} (nonempty : record.log term ≠ []) : (record.leader term).isSome := by
  cases known : record.leader term with
  | none => exact absurd (sound.absent term known).1 nonempty
  | some chief => rfl

theorem Sound.origin {term position value : Nat} (found : termAt (record.log term) position = some value)
    (positive : 0 < position) : value ≤ term ∧ (record.leader value).isSome ∧ 0 < value ∧
      Agree (record.log value) (record.log term) position := by
  cases position with
  | zero => omega
  | succ slot =>
    simp only [termAt, Option.map_eq_some_iff] at found
    obtain ⟨entry, present, rfl⟩ := found
    obtain ⟨bound, led, same⟩ := sound.owner term slot entry present
    exact ⟨bound, led, sound.positive term entry (List.mem_of_getElem? present), same⟩

theorem Sound.monotone {term low high first second : Nat} (atLow : termAt (record.log term) low = some first)
    (atHigh : termAt (record.log term) high = some second) (le : low ≤ high) : first ≤ second := by
  cases low with
  | zero =>
    simp only [termAt, Option.some.injEq] at atLow
    omega
  | succ low =>
    cases high with
    | zero => omega
    | succ high =>
      simp only [termAt, Option.map_eq_some_iff] at atLow atHigh
      obtain ⟨entryLow, presentLow, rfl⟩ := atLow
      obtain ⟨entryHigh, presentHigh, rfl⟩ := atHigh
      rcases Nat.eq_or_lt_of_le le with same | lt
      · cases same
        rw [presentLow] at presentHigh
        cases presentHigh
        exact Nat.le_refl _
      · obtain ⟨insideLow, rfl⟩ := List.getElem?_eq_some_iff.mp presentLow
        obtain ⟨insideHigh, rfl⟩ := List.getElem?_eq_some_iff.mp presentHigh
        exact List.pairwise_iff_getElem.mp (sound.sorted term) low high insideLow insideHigh (by omega)

theorem Sound.carried {term earlier bound value position : Nat} (carries : record.Carries term earlier bound)
    (le : position ≤ bound) (found : termAt (record.log earlier) position = some value)
    (long : bound ≤ (record.log earlier).length) :
    termAt (record.log term) position = some value ∧ position ≤ (record.start term).length := by
  have reach : bound ≤ (record.start term).length := Agree.length_le carries long
  have inStart : termAt (record.start term) position = some value :=
    (Agree.termAt_eq carries le).trans found
  exact ⟨termAt_grown (sound.started term) inStart, le.trans reach⟩

theorem Sound.carries_log {term earlier bound : Nat} (carries : record.Carries term earlier bound)
    (long : bound ≤ (record.log earlier).length) : Agree (record.log term) (record.log earlier) bound := by
  have reach : bound ≤ (record.start term).length := Agree.length_le carries long
  exact ((Agree.of_grown (sound.started term)).symm.mono reach).trans carries

theorem Sound.carries_committed [DecidableEq ι] {position earlier : Nat}
    (commit : Committed members record position earlier) :
    ∀ term, earlier < term → (record.leader term).isSome → record.Carries term earlier position := by
  intro term
  induction term using Nat.strong_induction_on with
  | _ term ih =>
    intro later led
    obtain ⟨chief, known⟩ := Option.isSome_iff_exists.mp led
    obtain ⟨electors, electorQuorum, backed⟩ := sound.elected term chief known
    obtain ⟨accepters, accepterQuorum, accepted⟩ := commit.accepted
    obtain ⟨voter, inElectors, inAccepters⟩ := IsQuorum.meet electorQuorum accepterQuorum
    rcases (backed voter inElectors).2 earlier position later commit.positive
      (accepted voter inAccepters) commit.own with carries | ⟨between, above, below, ledBetween, lost⟩
    · exact carries
    · exact absurd (ih between below above ledBetween) lost

end

theorem Committed.length_le (commit : Committed members record position term) :
    position ≤ (record.log term).length :=
  termAt_le_length commit.own

theorem Committed.led (sound : Sound members record) {position term : Nat}
    (commit : Committed members record position term) : (record.leader term).isSome := by
  apply sound.led
  intro empty
  have short := commit.length_le
  have positive := commit.positive
  rw [empty] at short
  simp only [List.length_nil] at short
  omega

theorem Sound.committed_agree [DecidableEq ι] (sound : Sound members record) {position earlier term : Nat}
    (commit : Committed members record position earlier) (le : earlier ≤ term)
    (led : (record.leader term).isSome) :
    Agree (record.log term) (record.log earlier) position := by
  rcases Nat.eq_or_lt_of_le le with same | lt
  · cases same
    exact fun _ _ => rfl
  · exact sound.carries_log (sound.carries_committed commit term lt led) commit.length_le

theorem Sound.chosen_unique [DecidableEq ι] (sound : Sound members record) {position : Nat} {first second : ε}
    (left : Chosen members record position first) (right : Chosen members record position second) :
    first = second := by
  obtain ⟨boundLeft, termLeft, commitLeft, leLeft, atLeft⟩ := left
  obtain ⟨boundRight, termRight, commitRight, leRight, atRight⟩ := right
  have same : entryAt (record.log termLeft) position = entryAt (record.log termRight) position := by
    rcases Nat.le_total termLeft termRight with le | le
    · exact ((sound.committed_agree commitLeft le (commitRight.led sound)).entryAt_eq leLeft).symm
    · exact (sound.committed_agree commitRight le (commitLeft.led sound)).entryAt_eq leRight
  rw [atLeft, atRight] at same
  exact Option.some.inj same

theorem Committed.mono {record larger : History ι ε} {position term : Nat} (grown : record ≤ larger)
    (commit : Committed members record position term) : Committed members larger position term where
  positive := commit.positive
  own := termAt_grown (grown.log term) commit.own
  reached := commit.reached.trans (grown.committed term)
  accepted := by
    obtain ⟨quorum, isQuorum, accepted⟩ := commit.accepted
    exact ⟨quorum, isQuorum, fun voter inside => (accepted voter inside).trans (grown.acked term voter)⟩

theorem Chosen.mono {record larger : History ι ε} {position : Nat} {entry : ε} (grown : record ≤ larger)
    (chosen : Chosen members record position entry) : Chosen members larger position entry := by
  obtain ⟨bound, term, commit, le, found⟩ := chosen
  exact ⟨bound, term, commit.mono grown, le, entryAt_grown (grown.log term) found⟩

theorem termAt_stable {record larger : History ι ε} (grown : record ≤ larger) {term position : Nat}
    (inside : position ≤ (record.log term).length) :
    termAt (larger.log term) position = termAt (record.log term) position :=
  (Agree.termAt_eq (Agree.of_grown (grown.log term)) inside).symm

omit [Stamped ε] in
theorem carries_stable {record larger : History ι ε} (grown : record ≤ larger) {term earlier bound : Nat}
    (led : (record.leader term).isSome) (inside : bound ≤ (record.log earlier).length) :
    larger.Carries term earlier bound ↔ record.Carries term earlier bound := by
  have same : Agree (record.log earlier) (larger.log earlier) bound :=
    (Agree.of_grown (grown.log earlier)).mono inside
  simp only [Carries, grown.start term led]
  exact ⟨fun carries => carries.trans same.symm, fun carries => carries.trans same⟩

theorem Ballot.mono {record larger : History ι ε} (sound : Sound members record) (grown : record ≤ larger)
    {voter : ι} {term last lastTerm : Nat} (voted : (record.votes term voter).isSome)
    (ballot : record.Ballot voter term last lastTerm) : larger.Ballot voter term last lastTerm := by
  intro earlier bound before positive accepted own
  rw [grown.frozen earlier term voter before voted] at accepted
  have inside := accepted.trans (sound.ackedLe earlier voter)
  rw [termAt_stable grown inside] at own
  rcases ballot earlier bound before positive accepted own with outranked | ⟨between, above, below, led, lost⟩
  · exact Or.inl outranked
  · refine Or.inr ⟨between, above, below, grown.elected led, ?_⟩
    rwa [carries_stable grown led inside]

theorem Backed.mono {record larger : History ι ε} (sound : Sound members record) (grown : record ≤ larger)
    {voter : ι} {term : Nat} (voted : (record.votes term voter).isSome)
    (elected : (record.leader term).isSome) (backed : record.Backed voter term) : larger.Backed voter term := by
  intro earlier bound before positive accepted own
  rw [grown.frozen earlier term voter before voted] at accepted
  have inside := accepted.trans (sound.ackedLe earlier voter)
  rw [termAt_stable grown inside] at own
  rcases backed earlier bound before positive accepted own with carries | ⟨between, above, below, led, lost⟩
  · exact Or.inl ((carries_stable grown elected inside).mpr carries)
  · refine Or.inr ⟨between, above, below, grown.elected led, ?_⟩
    rwa [carries_stable grown led inside]

theorem Sound.owner_mono {larger : History ι ε} (sound : Sound members record) (grown : record ≤ larger)
    {term slot : Nat} {entry : ε} (present : (record.log term)[slot]? = some entry) :
    stamp entry ≤ term ∧ (larger.leader (stamp entry)).isSome ∧
      Agree (larger.log (stamp entry)) (larger.log term) (slot + 1) := by
  obtain ⟨bound, led, same⟩ := sound.owner term slot entry present
  have inside : slot + 1 ≤ (record.log term).length := (List.getElem?_eq_some_iff.mp present).1
  have insideOwner : slot + 1 ≤ (record.log (stamp entry)).length := Agree.length_le same inside
  have left := (Agree.of_grown (grown.log (stamp entry))).mono insideOwner
  have right := (Agree.of_grown (grown.log term)).mono inside
  exact ⟨bound, grown.elected led, (left.symm.trans same).trans right⟩

theorem Sound.elected_mono {larger : History ι ε} (sound : Sound members record) (grown : record ≤ larger)
    {term : Nat} {chief : ι} (known : record.leader term = some chief) :
    ∃ quorum, IsQuorum members quorum ∧
      ∀ voter ∈ quorum, larger.votes term voter = some chief ∧ larger.Backed voter term := by
  obtain ⟨quorum, isQuorum, justified⟩ := sound.elected term chief known
  refine ⟨quorum, isQuorum, fun voter inside => ?_⟩
  obtain ⟨vote, backed⟩ := justified voter inside
  have voted : (record.votes term voter).isSome := by rw [vote]; rfl
  have led : (record.leader term).isSome := by rw [known]; rfl
  exact ⟨grown.votes term voter chief vote, backed.mono sound grown voted led⟩

end Theory

end History

end ForgeDB.Consensus
