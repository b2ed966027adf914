import ForgeDB.Raft.Invariant

/-!
Elections keep the invariant: stepping down, granting a vote, standing for election and
winning it. Each is shown for the part of the node it touches, then for the methods.
-/

namespace ForgeDB.Raft

open Consensus

namespace Node

@[simp] theorem resetElectionTimer_core (n : Node) : n.resetElectionTimer.core = n.core := by
  simp only [resetElectionTimer]
  split <;> rfl

end Node

namespace Core

def stepDown (c : Core) (term : Nat) : Core :=
  { c with
    currentTerm := term
    votedFor := ""
    role := .follower
    votesReceived := []
    state := some ⟨term, "", c.log.rest⟩ }

def vote (c : Core) (choice : String) : Core :=
  { c with votedFor := choice, state := some ⟨c.currentTerm, choice, c.log.rest⟩ }

def stand (c : Core) : Core :=
  { c with
    currentTerm := c.currentTerm + 1
    votedFor := c.id
    role := .candidate
    votesReceived := [c.id]
    state := some ⟨c.currentTerm + 1, c.id, c.log.rest⟩ }

def win (c : Core) : Core :=
  { c with
    role := .leader
    votesReceived := []
    nextIndex := fun peer => if peer ∈ c.peers then c.log.lastIndex + 1 else 0
    matchIndex := fun _ => 0 }

end Core

section Cores

variable {members : List String} {record : Record} {c : Core}

section

variable (ok : CoreOk members record c)

include ok

theorem CoreOk.size : c.peers.length + 1 = members.length := by
  rw [ok.others.length_eq, List.length_erase_of_mem ok.member]
  have positive := List.length_pos_of_mem ok.member
  omega

theorem CoreOk.stepDown {term : Nat} (newer : c.currentTerm < term) : CoreOk members record (c.stepDown term) :=
  { ok with
    durable := Core.Durable.of_saved rfl
    saved := fun snap present => (ok.saved snap present).imp_right (And.imp_right (Anchored.weaken newer.le))
    anchored := ok.anchored.weaken newer.le
    bounded := fun entry present => (ok.bounded entry present).trans newer.le
    settled := ok.settled.weaken newer.le
    promise := ok.promise.weaken newer.le
    accounted := fun earlier accepted => (ok.accounted earlier accepted).trans newer.le
    unvoted := fun later above => ok.unvoted later (newer.trans above)
    voted := ok.unvoted term newer
    unled := fun earlier known => ⟨(ok.unled earlier known).1.trans newer.le, fun _ standing => by cases standing⟩
    stands := fun leading => absurd rfl leading
    candidate := fun standing => by cases standing
    leader := fun leading => by cases leading }

theorem CoreOk.yield : CoreOk members record { c with role := .follower } :=
  { ok with
    unled := fun term known => ⟨(ok.unled term known).1, fun _ standing => by cases standing⟩
    stands := fun leading => absurd rfl leading
    candidate := fun standing => by cases standing
    leader := fun leading => by cases leading }

theorem CoreOk.revote {choice : String} (same : c.votedFor = choice) : CoreOk members record (c.vote choice) := by
  subst same
  exact
  { ok with
    durable := Core.Durable.of_saved rfl
    candidate := fun standing => { ok.candidate standing with }
    leader := fun leading => { ok.leader leading with } }

theorem CoreOk.ballot {last lastTerm : Nat}
    (upToDate : logIsUpToDate last lastTerm c.log.lastIndex c.log.lastTerm = true) :
    (record.leader c.currentTerm).isSome ∨ record.Ballot c.id c.currentTerm last lastTerm := by
  cases known : record.leader c.currentTerm with
  | some chief => exact Or.inl rfl
  | none =>
    refine Or.inr (ok.promise.ballot known ?_)
    unfold logIsUpToDate at upToDate
    split at upToDate
    · simp only [gt_iff_lt, decide_eq_true_eq] at upToDate
      exact Or.inl upToDate
    · rename_i same
      simp only [ge_iff_le, decide_eq_true_eq] at upToDate
      exact Or.inr ⟨by omega, upToDate⟩

end

section

variable (sound : History.Sound members record)

include sound

theorem CoreOk.vote (numbered : Numbered record) (ok : CoreOk members record c) (unused : c.votedFor = "")
    {choice : String} (named : choice ≠ "") :
    Evolution members record (record.castVote c.currentTerm c.id choice (0, 0)) c.id ∧
      CoreOk members (record.castVote c.currentTerm c.id choice (0, 0)) (c.vote choice) := by
  have free : record.votes c.currentTerm c.id = none := by rw [ok.voted, if_pos unused]
  have grown : record ≤ record.castVote c.currentTerm c.id choice (0, 0) := History.castVote_extends free
  have follower : c.role = .follower := by
    by_contra leading
    exact ok.named ((ok.stands leading).symm.trans unused)
  refine ⟨⟨grown, History.castVote_sound sound free, numbered, fun _ other => History.castVote_spares other⟩, ?_⟩
  exact
  { ok with
    durable := Core.Durable.of_saved rfl
    saved := fun snap present => (ok.saved snap present).imp_right (And.imp_right (Anchored.mono grown))
    segment := ok.segment.mono grown
    anchored := ok.anchored.mono grown
    settled := ok.settled.mono grown
    promise := ok.promise.mono sound grown (fun _ _ _ accepted _ => accepted)
    unvoted := fun later above => by
      have older := ok.unvoted later above
      simp only [Core.vote] at above
      simp only [History.castVote, Core.vote]
      rwa [History.setAt_other _ _ _ _ (by rintro ⟨rfl, _⟩; omega)]
    voted := by
      simp only [History.castVote, Core.vote, History.setAt_same]
      exact (if_neg named).symm
    stands := fun leading => absurd follower leading
    candidate := fun standing => by rw [Core.vote, follower] at standing; cases standing
    leader := fun leading => by rw [Core.vote, follower] at leading; cases leading }

theorem CoreOk.stand (numbered : Numbered record) (ok : CoreOk members record c) : Evolution members record
        (record.castVote (c.currentTerm + 1) c.id c.id (c.log.lastIndex, c.log.lastTerm)) c.id ∧
      CoreOk members (record.castVote (c.currentTerm + 1) c.id c.id (c.log.lastIndex, c.log.lastTerm)) c.stand := by
  have newer : c.currentTerm < c.currentTerm + 1 := Nat.lt_succ_self _
  have free := ok.unvoted _ newer
  have grown : record ≤ record.castVote (c.currentTerm + 1) c.id c.id (c.log.lastIndex, c.log.lastTerm) :=
    History.castVote_extends free
  refine ⟨⟨grown, History.castVote_sound sound free, numbered, fun _ other => History.castVote_spares other⟩, ?_⟩
  have promise : Promise (record.castVote (c.currentTerm + 1) c.id c.id (c.log.lastIndex, c.log.lastTerm))
      c.id c.log.lastIndex c.log.lastTerm (c.currentTerm + 1) :=
    (ok.promise.mono sound grown (fun _ _ _ accepted _ => accepted)).weaken newer.le
  exact
  { ok with
    durable := Core.Durable.of_saved rfl
    saved := fun snap present => (ok.saved snap present).imp_right
      (And.imp_right (fun anchored => (anchored.mono grown).weaken newer.le))
    segment := ok.segment.mono grown
    anchored := (ok.anchored.mono grown).weaken newer.le
    bounded := fun entry present => (ok.bounded entry present).trans newer.le
    settled := (ok.settled.mono grown).weaken newer.le
    promise := promise
    accounted := fun earlier accepted => (ok.accounted earlier accepted).trans newer.le
    unvoted := fun later above => by
      have older := ok.unvoted later (newer.trans above)
      simp only [Core.stand] at above
      simp only [History.castVote, Core.stand]
      rwa [History.setAt_other _ _ _ _ (by rintro ⟨rfl, _⟩; omega)]
    voted := by
      simp only [History.castVote, Core.stand, History.setAt_same]
      exact (if_neg ok.named).symm
    unled := fun earlier known => by
      have le := (ok.unled earlier known).1
      refine ⟨le.trans newer.le, fun same => ?_⟩
      simp only [Core.stand] at same
      omega
    stands := fun _ => rfl
    candidate := fun _ =>
      { positive := Nat.succ_pos _
        ticket := by simp only [History.castVote, Core.stand, History.setAt_same]
        distinct := List.nodup_singleton _
        backed := by
          intro voter counted
          rw [Core.stand, List.mem_singleton] at counted
          subst counted
          refine ⟨ok.member, by simp only [History.castVote, Core.stand, History.setAt_same], ?_⟩
          simp only [Core.stand]
          cases known : record.leader (c.currentTerm + 1) with
          | some chief => exact Or.inl (by simp only [History.castVote, known, Option.isSome_some])
          | none => exact Or.inr (promise.ballot known (Or.inr ⟨rfl, Nat.le_refl _⟩)) }
    leader := fun leading => by cases leading }

theorem CoreOk.vacant (ok : CoreOk members record c) (standing : c.role = .candidate)
    (enough : members.length / 2 + 1 ≤ c.votesReceived.length) :
    record.leader c.currentTerm = none ∧ IsQuorum members c.votesReceived := by
  have candidate := ok.candidate standing
  have isQuorum : IsQuorum members c.votesReceived :=
    ⟨candidate.distinct, fun voter counted => (candidate.backed voter counted).1, enough⟩
  refine ⟨?_, isQuorum⟩
  cases known : record.leader c.currentTerm with
  | none => rfl
  | some chief =>
    obtain ⟨electors, electorQuorum, cast⟩ := sound.elected _ chief known
    obtain ⟨voter, left, right⟩ := IsQuorum.meet electorQuorum isQuorum
    have same := (cast voter left).1.symm.trans (candidate.backed voter right).2.1
    rw [Option.some.injEq] at same
    rw [same] at known
    exact absurd standing ((ok.unled _ known).2 rfl)

theorem CoreOk.last_onLog (ok : CoreOk members record c) :
    termAt (record.log c.log.lastTerm) c.log.lastIndex = some c.log.lastTerm ∧
      c.log.lastTerm ≤ c.currentTerm := by
  have ended := c.log.window.last_onLog sound ok.segment ok.anchored
  have le := c.log.window.lastTerm_le sound ok.anchored ok.bounded
  rw [Log.window_lastTerm] at ended le
  rw [Log.window_last] at ended
  exact ⟨ended, le⟩

theorem CoreOk.rest_eq (ok : CoreOk members record c) :
    c.log.rest = ((record.log c.log.lastTerm).take c.log.lastIndex).drop c.log.sentinel.index := by
  have long := termAt_le_length (ok.last_onLog sound).1
  have stretch := c.log.window.rest_eq ok.segment
  rw [Log.window_lastTerm] at stretch
  simp only [Log.window_rest, Log.window_base] at stretch
  rw [Log.lastIndex_eq] at long ⊢
  apply List.ext_getElem?
  intro place
  rw [List.getElem?_drop]
  by_cases inside : place < c.log.rest.length
  · rw [List.getElem?_take_of_lt (by omega), stretch place inside]
  · rw [List.getElem?_eq_none (by omega), List.getElem?_take_eq_none (by omega)]

end

theorem CoreOk.accounted_grown (ok : CoreOk members record c) {larger : Record}
    (others : ∀ row, row ≠ c.currentTerm → larger.acked row c.id = record.acked row c.id) (earlier : Nat)
    (accepted : 0 < larger.acked earlier c.id) : earlier ≤ c.currentTerm := by
  by_cases same : earlier = c.currentTerm
  · exact same.le
  · exact ok.accounted earlier (accepted.trans_eq (others earlier same))

theorem CoreOk.last_below (sound : History.Sound members record) (ok : CoreOk members record c)
    (standing : c.role = .candidate) (vacant : record.leader c.currentTerm = none) :
    c.log.lastTerm < c.currentTerm := by
  obtain ⟨onLog, lastLe⟩ := ok.last_onLog sound
  rcases Nat.eq_or_lt_of_le lastLe with same | lt
  · rcases Nat.eq_zero_or_pos c.log.lastIndex with zero | positive
    · rw [zero] at onLog
      simp only [termAt, Option.some.injEq] at onLog
      have positive := (ok.candidate standing).positive
      omega
    · have led := (sound.origin onLog positive).2.1
      rw [same, vacant] at led
      cases led
  · exact lt

theorem Numbered.elect {term lastTerm last position : Nat} {chief : String} (numbered : Numbered record) :
    Numbered (record.elect term chief ((record.log lastTerm).take last) position) := by
  intro row slot entry present
  by_cases same : row = term
  · simp only [History.elect, if_pos same] at present
    exact numbered _ slot entry (History.mem_take_slot present).1
  · simp only [History.elect, if_neg same] at present
    exact numbered row slot entry present

theorem CoreOk.win (sound : History.Sound members record) (numbered : Numbered record)
    (ok : CoreOk members record c) (standing : c.role = .candidate)
    (enough : members.length / 2 + 1 ≤ c.votesReceived.length) :
    ∃ larger, Evolution members record larger c.id ∧ CoreOk members larger c.win := by
  obtain ⟨vacant, isQuorum⟩ := ok.vacant sound standing enough
  have candidate := ok.candidate standing
  obtain ⟨onLog, _⟩ := ok.last_onLog sound
  have long := termAt_le_length onLog
  have below := ok.last_below sound standing vacant
  let initial := (record.log c.log.lastTerm).take c.log.lastIndex
  let larger := record.elect c.currentTerm c.id initial c.commitIndex
  have grown : record ≤ larger := History.elect_extends sound vacant ok.unvoted
  have soundLarger : History.Sound members larger := by
    refine History.elect_sound sound onLog below vacant ok.unvoted isQuorum (fun voter counted => ?_)
    obtain ⟨_, vote, led | ballot⟩ := candidate.backed voter counted
    · rw [vacant] at led
      cases led
    · exact ⟨vote, ballot⟩
  have atTerm : larger.log c.currentTerm = initial := if_pos rfl
  have sameAcked : ∀ row, row ≠ c.currentTerm → larger.acked row c.id = record.acked row c.id :=
    fun row other => History.setAt_other _ _ _ _ (fun same => other same.1)
  have length : initial.length = c.log.lastIndex := List.length_take_of_le long
  have led : (larger.leader c.currentTerm).isSome := by simp only [larger, History.elect, if_true]; rfl
  refine ⟨larger,
    ⟨grown, soundLarger, numbered.elect, fun other different => History.elect_spares vacant different⟩, ?_⟩
  exact
    { ok with
      saved := fun snap present => (ok.saved snap present).imp_right (And.imp_right (Anchored.mono grown))
      segment := ok.segment.mono grown
      anchored := ok.anchored.mono grown
      settled := ok.settled.mono grown
      promise := ok.promise.mono sound grown (by
        -- The inherited entries are all older than the term, so nothing new is accounted for.
        intro earlier bound positive accepted own
        by_cases same : earlier = c.currentTerm
        · subst same
          have inside := accepted.trans (soundLarger.ackedLe _ _)
          rw [atTerm, length] at inside
          have original : termAt (record.log c.log.lastTerm) bound = some c.currentTerm := by
            rw [← own, atTerm]
            exact (Agree.termAt_eq (fun slot within => List.getElem?_take_of_lt (by omega)) (Nat.le_refl _)).symm
          have le := (sound.origin original positive).1
          omega
        · exact accepted.trans (sameAcked earlier same).le)
      accounted := ok.accounted_grown sameAcked
      unled := fun earlier known => by
        refine ⟨?_, fun _ standing => by cases standing⟩
        by_cases same : earlier = c.currentTerm
        · exact same.le
        · simp only [larger, History.elect, if_neg same] at known
          exact (ok.unled earlier known).1
      stands := fun _ => ok.stands (by rw [standing]; decide)
      candidate := fun standing => by cases standing
      leader := fun _ =>
        { positive := candidate.positive
          elected := by simp only [larger, History.elect, Core.win, if_true]
          rest := by
            simp only [Core.win, atTerm]
            exact ok.rest_eq sound
          base := by
            simp only [Core.win]
            rcases ok.anchored.mono grown with ⟨zero, none⟩ | ⟨bound, chosen, commit, le, inside, found⟩
            · rw [zero, none]
              rfl
            · exact ((soundLarger.committed_agree commit le led).termAt_eq inside).trans found
          committed := by simp only [larger, History.elect, Core.win, if_true]
          accepted := by simp only [larger, History.elect, Core.win, History.setAt_same, if_true]
          matched := fun peer _ => Or.inl (Nat.zero_le _)
          next := fun peer known => by
            simp only [Core.win] at known ⊢
            rw [if_pos known, atTerm, length]
            omega } }

end Cores

end ForgeDB.Raft
