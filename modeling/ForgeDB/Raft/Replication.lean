import ForgeDB.Raft.Elections

/-!
Replication keeps the invariant: a leader appending and committing, a follower accepting a
stretch of its leader's log, and the two ways a log loses its front, by compacting what is
applied and by adopting a leader's snapshot boundary.
-/

namespace ForgeDB.Raft

open Consensus

section Leading

variable {members : List String} {record : Record} {c : Core}

theorem LeaderOk.termAt_eq (ok : LeaderOk record c) {index term : Nat}
    (found : c.log.termAt index = some term) : termAt (record.log c.currentTerm) index = some term := by
  rcases Log.termAt_cases found with ⟨rfl, rfl⟩ | ⟨slot, entry, rfl, present, rfl⟩
  · exact ok.base
  · rw [ok.rest, List.getElem?_drop] at present
    simp only [termAt, present, Option.map_some]
    rfl

theorem LeaderOk.length_eq (ok : LeaderOk record c) :
    (record.log c.currentTerm).length = c.log.lastIndex := by
  have reach := termAt_le_length ok.base
  rw [Log.lastIndex_eq, ok.rest, List.length_drop]
  omega

theorem LeaderOk.follows (ok : LeaderOk record c) (position : Nat) :
    Follows record c.log.window c.currentTerm position := by
  intro place _
  rw [Log.window_rest, Log.window_base, ok.rest, List.getElem?_drop]

theorem LeaderOk.quorum (ok : CoreOk members record c) (leading : LeaderOk record c) {index : Nat}
    (above : c.commitIndex < index) (inside : index ≤ c.log.lastIndex)
    (enough : members.length / 2 + 1 ≤ 1 + (c.peers.filter fun peer => index ≤ c.matchIndex peer).length) :
    ∃ quorum, IsQuorum members quorum ∧ ∀ voter ∈ quorum, index ≤ record.acked c.currentTerm voter := by
  have distinctPeers : c.peers.Nodup := ok.others.nodup_iff.mpr (ok.distinct.erase c.id)
  have notSelf : c.id ∉ c.peers := fun self => ok.distinct.not_mem_erase (ok.others.mem_iff.mp self)
  refine ⟨c.id :: c.peers.filter (fun peer => index ≤ c.matchIndex peer), ⟨?_, ?_, ?_⟩, ?_⟩
  · exact List.nodup_cons.mpr ⟨fun self => notSelf (List.mem_of_mem_filter self), distinctPeers.filter _⟩
  · intro voter counted
    rcases List.mem_cons.mp counted with rfl | counted
    · exact ok.member
    · exact List.mem_of_mem_erase (ok.others.mem_iff.mp (List.mem_of_mem_filter counted))
  · rw [List.length_cons]
    omega
  · intro voter counted
    rcases List.mem_cons.mp counted with rfl | counted
    · rw [leading.accepted, leading.length_eq]
      exact inside
    · obtain ⟨known, reach⟩ := List.mem_filter.mp counted
      have reach := of_decide_eq_true reach
      rcases leading.matched voter known with accepted | committed
      · exact reach.trans accepted
      · omega

theorem CoreOk.commit (sound : History.Sound members record) (numbered : Numbered record)
    (ok : CoreOk members record c) (leading : c.role = .leader) {index : Nat} (above : c.commitIndex < index)
    (own : c.log.termAt index = some c.currentTerm)
    (enough : members.length / 2 + 1 ≤ 1 + (c.peers.filter fun peer => index ≤ c.matchIndex peer).length) :
    ∃ larger, Evolution members record larger c.id ∧ CoreOk members larger { c with commitIndex := index } := by
  have leader := ok.leader leading
  have inside := (Log.termAt_bounds own).2
  have led : (record.leader c.currentTerm).isSome := by rw [leader.elected]; rfl
  let larger := record.commit c.currentTerm index
  have grown : record ≤ larger := History.commit_extends
  have soundLarger : History.Sound members larger := History.commit_sound sound led
  have moved : larger.committed c.currentTerm = index := by
    simp only [larger, History.commit, if_true, leader.committed]
    omega
  have commit : History.Committed members larger index c.currentTerm :=
    { positive := by omega
      own := leader.termAt_eq own
      reached := moved.ge
      accepted := leader.quorum ok above inside enough }
  refine ⟨larger, ⟨grown, soundLarger, numbered, fun _ other => History.commit_spares leader.elected other⟩, ?_⟩
  exact
  { ok with
    saved := fun snap present => (ok.saved snap present).imp_right (And.imp_right (Anchored.mono grown))
    segment := ok.segment.mono grown
    anchored := ok.anchored.mono grown
    settled := Settled.of_follows soundLarger (Or.inr ⟨index, _, commit, Nat.le_refl _, Nat.le_refl _⟩) led
      (by rw [Log.window_last]; exact inside) (leader.follows index)
    promise := ok.promise.mono sound grown (fun _ _ _ accepted _ => accepted)
    candidate := fun standing => by rw [leading] at standing; cases standing
    leader := fun _ =>
      { leader with
        committed := moved
        matched := fun peer known => (leader.matched peer known).imp_right (fun le => le.trans above.le) } }

theorem Numbered.extend (numbered : Numbered record) {term : Nat} {chief : String} {entry : LogEntry}
    (next : entry.index = (record.log term).length + 1) : Numbered (record.extend term chief entry) := by
  intro row slot found present
  rcases History.extend_getElem? present with old | ⟨rfl, rfl, rfl⟩
  · exact numbered row slot found old
  · exact next

theorem CoreOk.propose (sound : History.Sound members record) (numbered : Numbered record)
    (ok : CoreOk members record c) (leading : c.role = .leader) (command : Command) :
    let log := (c.log.append ⟨0, c.currentTerm, command⟩).1
    ∃ larger, Evolution members record larger c.id ∧
      CoreOk members larger { c with log := log, state := some ⟨c.currentTerm, c.votedFor, log.rest⟩ } := by
  intro log
  have leader := ok.leader leading
  have length := leader.length_eq
  have led : (record.leader c.currentTerm).isSome := by rw [leader.elected]; rfl
  have reach := termAt_le_length leader.base
  let entry : LogEntry := ⟨c.log.sentinel.index + c.log.entries.length, c.currentTerm, command⟩
  have rest : log.rest = c.log.rest ++ [entry] := rfl
  have last : log.lastIndex = c.log.lastIndex + 1 := by
    simp only [Log.lastIndex_eq, rest, List.length_append, List.length_singleton]
    rfl
  have lastTerm : log.lastTerm = c.currentTerm := by
    simp only [Log.lastTerm, rest, List.getLast?_append, List.getLast?_singleton, Option.some_or, Option.getD_some,
      entry]
  let larger := record.extend c.currentTerm c.id entry
  have grown : record ≤ larger := History.extend_extends ok.unvoted (sound.ackedLe _ _)
  have soundLarger : History.Sound members larger :=
    History.extend_sound sound leader.elected ok.unvoted rfl leader.positive
  have atTerm : larger.log c.currentTerm = record.log c.currentTerm ++ [entry] := if_pos rfl
  have sameAcked : ∀ row, row ≠ c.currentTerm → larger.acked row c.id = record.acked row c.id :=
    fun row other => History.setAt_other _ _ _ _ (fun same => other same.1)
  have leaderLarger : LeaderOk larger
      { c with log := log, state := some ⟨c.currentTerm, c.votedFor, log.rest⟩ } :=
    { positive := leader.positive
      elected := leader.elected
      rest := by
        simp only [atTerm, rest, leader.rest]
        exact (List.drop_append_of_le_length reach).symm
      base := termAt_grown (grown.log _) leader.base
      committed := leader.committed
      accepted := by
        simp only [larger, History.extend, History.setAt_same, if_true, List.length_append, List.length_singleton]
      matched := fun peer known =>
        (leader.matched peer known).imp_left (fun le => le.trans (grown.acked _ _))
      next := fun peer known => by
        have bounds := leader.next peer known
        simp only [atTerm, List.length_append, List.length_singleton]
        omega }
  refine ⟨larger, ⟨grown, soundLarger, ?_, fun _ other => History.extend_spares leader.elected other⟩, ?_⟩
  · apply numbered.extend
    rw [length, Log.lastIndex_eq]
    simp only [entry, Log.entries, List.length_cons]
    omega
  · exact
    { ok with
      durable := Core.Durable.of_saved rfl
      saved := fun snap present => (ok.saved snap present).imp_right (And.imp_right (Anchored.mono grown))
      segment := Window.segment_of_log soundLarger (fun place _ =>
        leaderLarger.follows (log.sentinel.index + place + 1) place (Nat.lt_succ_self _))
      anchored := ok.anchored.mono grown
      bounded := fun found present => by
        rcases List.mem_append.mp present with old | new
        · exact ok.bounded found old
        · rw [List.mem_singleton.mp new]
      settled := Settled.of_follows soundLarger (ok.settled.reached.mono grown) led
        (by
          have le := ok.settled.1
          rw [Log.window_last] at le ⊢
          simp only [last]
          omega)
        (leaderLarger.follows _)
      promise := by
        intro earlier bound _ accepted _
        simp only [last, lastTerm]
        by_cases same : earlier = c.currentTerm
        · subst same
          simp only [larger, History.extend, History.setAt_same] at accepted
          exact Or.inl (Or.inr ⟨rfl, by omega⟩)
        · rw [sameAcked earlier same] at accepted
          have le := ok.accounted earlier (by omega)
          exact Or.inl (Or.inl (by omega))
      accounted := ok.accounted_grown sameAcked
      candidate := fun standing => by rw [leading] at standing; cases standing
      leader := fun _ => leaderLarger }

end Leading

section Following

variable {members : List String} {record : Record} {l : Log} {term prev prevTerm : Nat} {entries : List LogEntry}

theorem follows_upTo (sound : History.Sound members record) (segment : l.window.Segment record)
    {index value : Nat} (found : l.termAt index = some value)
    (onLog : termAt (record.log term) index = some value) : Follows record l.window term index := by
  intro place within
  rcases Log.termAt_cases found with ⟨rfl, _⟩ | ⟨slot, entry, rfl, present, rfl⟩
  · rw [Log.window_base] at within
    omega
  · rw [Log.window_base] at within
    exact l.window.agree_upTo sound segment present onLog place (by omega)

theorem follows_matching (sound : History.Sound members record) (segment : l.window.Segment record)
    {start kept : Nat} (found : l.termAt (l.sentinel.index + start) = some prevTerm)
    (onLog : termAt (record.log term) (l.sentinel.index + start) = some prevTerm)
    (same : ∀ slot, slot < entries.length →
      (record.log term)[l.sentinel.index + start + slot]? = entries[slot]?)
    (matching : ∀ slot, slot < kept → l.Matches start entries slot) :
    Follows record l.window term (l.sentinel.index + start + kept) := by
  cases kept with
  | zero => exact follows_upTo sound segment found onLog
  | succ slot =>
    obtain ⟨own, e, atOwn, atNew, terms⟩ := matching slot (Nat.lt_succ_self slot)
    have inside := (List.getElem?_eq_some_iff.mp atNew).1
    have ownTerm : l.termAt (l.sentinel.index + start + (slot + 1)) = some own.term := by
      have place : l.sentinel.index + start + (slot + 1) = l.sentinel.index + (start + slot) + 1 := by omega
      rw [place, Log.termAt_rest, atOwn]
      rfl
    refine follows_upTo sound segment ownTerm ?_
    rw [← Nat.add_assoc]
    simp only [termAt, same slot inside, atNew, Option.map_some, terms]
    rfl

structure Accepted (record : Record) (term bound : Nat) (l after : Log) (changed : Bool) : Prop where
  sentinel : after.sentinel = l.sentinel
  follows : Follows record after.window term bound
  reach : bound ≤ after.lastIndex
  kept : changed = false → after = l
  cut : changed = true → after.lastIndex = bound ∧ l.sentinel.index < bound ∧
    (l.lastIndex < bound ∨ ∃ slot own, l.rest[slot]? = some own ∧ l.sentinel.index + slot + 1 ≤ bound ∧
      (record.log term)[l.sentinel.index + slot]? ≠ some own)

theorem appendAfter_accepted (sound : History.Sound members record) (numbered : Numbered record)
    (segment : l.window.Segment record) (found : l.termAt prev = some prevTerm)
    (onLog : termAt (record.log term) prev = some prevTerm)
    (same : ∀ slot, slot < entries.length → (record.log term)[prev + slot]? = entries[slot]?) :
    Accepted record term (prev + entries.length) l (l.appendAfter prev entries).1 (l.appendAfter prev entries).2 := by
  have bounds := Log.termAt_bounds found
  rw [Log.lastIndex_eq] at bounds
  obtain ⟨start, rfl⟩ : ∃ start, prev = l.sentinel.index + start := ⟨prev - l.sentinel.index, by omega⟩
  rcases l.appendAfterFrom_spec start entries (by omega) with
    ⟨unchanged, all⟩ | ⟨kept, e, atKept, before, conflict, reach, changed⟩
  · rw [Log.appendAfter, unchanged]
    refine ⟨rfl, follows_matching sound segment found onLog same all, ?_, fun _ => rfl, fun off => by cases off⟩
    simp only [Log.lastIndex_eq]
    rcases Nat.eq_zero_or_pos entries.length with zero | positive
    · omega
    · obtain ⟨own, _, atOwn, _, _⟩ := all (entries.length - 1) (by omega)
      have inside := (List.getElem?_eq_some_iff.mp atOwn).1
      omega
  · have inside := (List.getElem?_eq_some_iff.mp atKept).1
    have renumbered : Log.renumber (l.sentinel.index + start + kept + 1) (entries.drop kept) = entries.drop kept := by
      apply Log.renumber_eq_self
      intro slot found present
      rw [List.getElem?_drop] at present
      have within := (List.getElem?_eq_some_iff.mp present).1
      rw [← same (kept + slot) within] at present
      rw [numbered term _ found present]
      omega
    rw [Log.appendAfter, changed, renumbered]
    have matched := follows_matching sound segment found onLog same before
    have length : (l.rest.take (start + kept)).length = start + kept := List.length_take_of_le reach
    have last : (⟨l.sentinel, l.rest.take (start + kept) ++ entries.drop kept⟩ : Log).lastIndex =
        l.sentinel.index + start + entries.length := by
      rw [Log.lastIndex_eq, List.length_append, length, List.length_drop]
      simp only
      omega
    refine ⟨rfl, ?_, last.ge, (fun off => by cases off), fun _ => ⟨last, by omega, ?_⟩⟩
    · intro place within
      simp only [Log.window_base, Log.window_rest] at within ⊢
      rcases Nat.lt_or_ge place (start + kept) with old | new
      · rw [List.getElem?_append_left (by omega), List.getElem?_take_of_lt old]
        exact matched place (by rw [Log.window_base]; omega)
      · rw [List.getElem?_append_right (by omega), length, List.getElem?_drop]
        have position : l.sentinel.index + place = l.sentinel.index + start + (place - start) := by omega
        rw [position, same (place - start) (by omega)]
        congr 1
        omega
    · cases present : l.rest[start + kept]? with
      | none =>
        left
        have short := List.getElem?_eq_none_iff.mp present
        rw [Log.lastIndex_eq]
        omega
      | some own =>
        refine Or.inr ⟨start + kept, own, present, by omega, fun onLeader => conflict own present ?_⟩
        rw [← Nat.add_assoc, same kept inside, atKept, Option.some.injEq] at onLeader
        rw [onLeader]

theorem follows_termAt {bound index value : Nat} (follows : Follows record l.window term bound)
    (above : l.sentinel.index < index) (inside : index ≤ bound) (found : l.termAt index = some value) :
    termAt (record.log term) index = some value := by
  rcases Log.termAt_cases found with ⟨rfl, _⟩ | ⟨slot, entry, rfl, present, rfl⟩
  · omega
  · have same := follows slot (by rw [Log.window_base]; omega)
    rw [Log.window_base, Log.window_rest, present] at same
    simp only [termAt, same, Option.map_some]
    rfl

variable {c : Core}

def Core.accept (c : Core) (args : AppendEntriesArgs) : Core :=
  let taken := c.log.appendAfter args.prevLogIndex args.entries
  { c with
    role := .follower
    log := taken.1
    state := if taken.2 then some ⟨c.currentTerm, c.votedFor, taken.1.rest⟩ else c.state
    commitIndex := max c.commitIndex (min args.leaderCommit (args.prevLogIndex + args.entries.length)) }

theorem CoreOk.accept (sound : History.Sound members record) (ok : CoreOk members record c)
    (following : c.role = .follower) (led : (record.leader c.currentTerm).isSome) {bound : Nat} {after : Log}
    (accepted : Accepted record c.currentTerm bound c.log after true) :
    CoreOk members record { c with log := after, state := some ⟨c.currentTerm, c.votedFor, after.rest⟩ } := by
  obtain ⟨last, above, reason⟩ := accepted.cut rfl
  have whole : ∀ place, place < after.rest.length →
      (record.log c.currentTerm)[after.sentinel.index + place]? = after.rest[place]? := by
    intro place inside
    apply accepted.follows place
    rw [Log.lastIndex_eq] at last
    rw [Log.window_base]
    omega
  have committedLe : c.commitIndex ≤ bound := by
    have reach := ok.settled.1
    rw [Log.window_last] at reach
    rcases reason with short | ⟨slot, own, present, le, conflict⟩
    · omega
    · by_contra beyond
      have same := ok.settled.follows sound (Nat.le_refl _) led slot (by rw [Log.window_base]; omega)
      rw [Log.window_base, Log.window_rest, present] at same
      exact conflict same
  have sameBase := accepted.sentinel
  exact
  { ok with
    durable := Core.Durable.of_saved rfl
    unsaved := fun none => by rw [sameBase]; exact ok.unsaved none
    saved := fun snap present => by rw [sameBase]; exact ok.saved snap present
    segment := Window.segment_of_log sound whole
    anchored := by rw [sameBase]; exact ok.anchored
    bounded := fun entry present => by
      obtain ⟨place, inside, rfl⟩ := List.mem_iff_getElem.mp present
      have onLog := whole place inside
      rw [List.getElem?_eq_getElem inside] at onLog
      exact (sound.owner _ _ _ onLog).1
    settled := Settled.of_follows sound ok.settled.reached led
      (by rw [Log.window_last, last]; exact committedLe) (accepted.follows.mono committedLe)
    promise := by
      refine Promise.follow sound ok.segment ok.anchored ok.bounded (Nat.le_refl _) ?_ ok.accounted
        (fun earlier le _ => ⟨c.currentTerm, le, Nat.le_refl _, led, ?_, ?_⟩)
      · rw [Log.window_last, Log.window_lastTerm]
        exact ok.promise
      · refine follows_termAt accepted.follows (by rw [sameBase]; simp only [last]; exact above) last.le
          after.termAt_last
      · rw [Log.window_last]
        simp only [last]
        exact reason
    candidate := fun standing => by rw [following] at standing; cases standing
    leader := fun leading => by rw [following] at leading; cases leading }

theorem CoreOk.acknowledge (sound : History.Sound members record) (numbered : Numbered record)
    (ok : CoreOk members record c) (following : c.role = .follower)
    (led : (record.leader c.currentTerm).isSome) {position : Nat}
    (inside : position ≤ (record.log c.currentTerm).length)
    (follows : Follows record c.log.window c.currentTerm position) :
    ∃ larger, Evolution members record larger c.id ∧ CoreOk members larger c ∧
      Held larger c.currentTerm c.id position := by
  rcases follows.acknowledges sound led ok.segment ok.anchored ok.bounded with committed | covered
  · exact ⟨record, Evolution.refl sound numbered c.id, ok, Or.inr committed⟩
  · rw [Log.window_lastTerm, Log.window_last] at covered
    let larger := record.accept c.currentTerm c.id position
    have grown : record ≤ larger := History.accept_extends ok.unvoted
    refine ⟨larger, ⟨grown, History.accept_sound sound led ok.unvoted inside, numbered,
      fun _ other => History.accept_spares other⟩, ?_, Or.inl ?_⟩
    · exact
      { ok with
        saved := fun snap present => (ok.saved snap present).imp_right (And.imp_right (Anchored.mono grown))
        segment := ok.segment.mono grown
        anchored := ok.anchored.mono grown
        settled := ok.settled.mono grown
        promise := ok.promise.accept sound inside covered
        accounted := fun earlier accepted => by
          by_cases same : earlier = c.currentTerm
          · exact same.le
          · exact ok.accounted earlier (accepted.trans_eq
              (History.setAt_other _ _ _ _ (fun both => same both.1)))
        candidate := fun standing => by rw [following] at standing; cases standing
        leader := fun leading => by rw [following] at leading; cases leading }
    · simp only [larger, History.accept, History.setAt_same]
      omega

theorem CoreOk.raise (sound : History.Sound members record) (ok : CoreOk members record c)
    (following : c.role = .follower) (led : (record.leader c.currentTerm).isSome) {position : Nat}
    (reached : Reached members record position c.currentTerm) (le : position ≤ c.log.lastIndex)
    (follows : Follows record c.log.window c.currentTerm position) :
    CoreOk members record { c with commitIndex := position } :=
  { ok with
    settled := Settled.of_follows sound reached led (by rw [Log.window_last]; exact le) follows
    candidate := fun standing => by rw [following] at standing; cases standing
    leader := fun leading => by rw [following] at leading; cases leading }

theorem CoreOk.accept_call (sound : History.Sound members record) (numbered : Numbered record)
    (ok : CoreOk members record c) {src peer : String} {args : AppendEntriesArgs}
    (request : RequestOk members record src (.appendEntries peer args)) (current : c.currentTerm = args.term)
    (found : c.log.termAt args.prevLogIndex = some args.prevLogTerm) :
    ∃ larger, Evolution members record larger c.id ∧ CoreOk members larger (c.accept args) ∧
      Held larger args.term c.id (args.prevLogIndex + args.entries.length) := by
  obtain ⟨_, _, _, _, elected, onLog, inside, same, reached⟩ := request
  rw [← current] at elected onLog inside same reached ⊢
  have led : (record.leader c.currentTerm).isSome := by rw [elected]; rfl
  have accepted := appendAfter_accepted sound numbered ok.segment found onLog same
  generalize taken : c.log.appendAfter args.prevLogIndex args.entries = result at accepted
  obtain ⟨log, changed⟩ := result
  have yielded := ok.yield
  -- The log first, saved only if it changed.
  have logged : CoreOk members record
      { c with
        role := .follower
        log := log
        state := if changed then some ⟨c.currentTerm, c.votedFor, log.rest⟩ else c.state } := by
    cases changed with
    | false =>
      rw [show log = c.log from accepted.kept rfl]
      exact yielded
    | true => exact yielded.accept sound rfl led accepted
  have raised : CoreOk members record (c.accept args) := by
    simp only [Core.accept, taken]
    rcases Nat.le_total (min args.leaderCommit (args.prevLogIndex + args.entries.length)) c.commitIndex with
      lower | higher
    · rw [Nat.max_eq_left lower]
      exact logged
    · rw [Nat.max_eq_right higher]
      exact logged.raise sound rfl led (reached.lower (Nat.min_le_left _ _))
        ((Nat.min_le_right _ _).trans accepted.reach) (accepted.follows.mono (Nat.min_le_right _ _))
  have follows : Follows record (c.accept args).log.window c.currentTerm
      (args.prevLogIndex + args.entries.length) := by
    simp only [Core.accept, taken]
    exact accepted.follows
  exact raised.acknowledge sound numbered rfl led inside follows

end Following

section Boundaries

variable {members : List String} {record : Record} {c : Core}

theorem CoreOk.numbered_rest (numbered : Numbered record) (ok : CoreOk members record c) {slot : Nat}
    {entry : LogEntry} (present : c.log.rest[slot]? = some entry) :
    entry.index = c.log.sentinel.index + slot + 1 := by
  have onLog := ok.segment slot entry present slot (Nat.le_refl _)
  rw [Log.window_base, Log.window_rest, present] at onLog
  exact numbered _ _ entry onLog

theorem CoreOk.promise_reset (sound : History.Sound members record) (ok : CoreOk members record c)
    {index value : Nat} (anchored : Anchored members record index value c.currentTerm) (positive : 0 < index)
    (above : c.log.sentinel.index ≤ index) (missing : c.log.termAt index ≠ some value) :
    Promise record c.id index value c.currentTerm := by
  refine Promise.follow sound ok.segment ok.anchored ok.bounded (Nat.le_refl _) ?_ ok.accounted
    (anchored.givesWay sound positive ?_)
  · rw [Log.window_last, Log.window_lastTerm]
    exact ok.promise
  · rw [Log.window_last]
    by_cases beyond : c.log.lastIndex < index
    · exact Or.inl beyond
    · obtain ⟨term, found⟩ := Log.termAt_of_le above (by omega)
      rcases Log.termAt_cases found with ⟨rfl, rfl⟩ | ⟨slot, entry, place, present, rfl⟩
      · rw [ok.anchored.unique sound anchored] at found
        exact absurd found missing
      · refine Or.inr ⟨slot, entry, present, place.symm, fun same => missing ?_⟩
        rw [found]
        exact congrArg some same

theorem CoreOk.settled_term (sound : History.Sound members record) (ok : CoreOk members record c)
    {index value : Nat} (anchored : Anchored members record index value c.currentTerm)
    (above : c.log.sentinel.index < index) (le : index ≤ c.commitIndex) :
    c.log.termAt index = some value := by
  have reach := ok.settled.1
  rw [Log.window_last] at reach
  obtain ⟨term, found⟩ := Log.termAt_of_le above.le (le.trans reach)
  rcases Log.termAt_cases found with ⟨same, _⟩ | ⟨slot, entry, rfl, present, rfl⟩
  · omega
  · rw [found]
    exact congrArg some
      ((ok.settled.anchored present (by rw [Log.window_base]; omega)).unique sound anchored)

theorem CoreOk.save {snap : Snapshot} (ok : CoreOk members record c)
    (above : c.log.sentinel.index < snap.lastIncludedIndex)
    (anchored : Anchored members record snap.lastIncludedIndex snap.lastIncludedTerm c.currentTerm) :
    CoreOk members record { c with snapshot := some snap } :=
  { ok with
    durable := by
      obtain ⟨covered, same, below⟩ := ok.durable
      exact ⟨covered, same, fun entry present => ⟨(below entry present).1, rfl⟩⟩
    unsaved := fun absent => by cases absent
    saved := fun other present => by
      rw [Option.some.injEq] at present
      subst present
      exact ⟨above.le, by omega, anchored⟩
    candidate := fun standing => { ok.candidate standing with }
    leader := fun leading => { ok.leader leading with } }

theorem CoreOk.advance (ok : CoreOk members record c) {snap : Snapshot} (saved : c.snapshot = some snap)
    (above : c.log.sentinel.index < snap.lastIncludedIndex)
    (found : c.log.termAt snap.lastIncludedIndex = some snap.lastIncludedTerm) :
    let log : Log := ⟨⟨snap.lastIncludedIndex, snap.lastIncludedTerm, []⟩,
      c.log.rest.drop (snap.lastIncludedIndex - c.log.sentinel.index)⟩
    CoreOk members record { c with log := log, state := some ⟨c.currentTerm, c.votedFor, log.rest⟩ } := by
  intro log
  have bounds := Log.termAt_bounds found
  rw [Log.lastIndex_eq] at bounds
  obtain ⟨_, positive, anchored⟩ := ok.saved snap saved
  have ends := Log.drop_last found []
  have window : log.window =
      c.log.window.advance (snap.lastIncludedIndex - c.log.sentinel.index) snap.lastIncludedTerm := by
    simp only [log, Log.window, Window.advance, Window.mk.injEq, and_true]
    omega
  have within : snap.lastIncludedIndex - c.log.sentinel.index ≤ c.log.window.rest.length := by
    rw [Log.window_rest]
    omega
  exact
  { ok with
    durable := Core.Durable.of_saved rfl
    unsaved := fun absent => by rw [saved] at absent; cases absent
    saved := fun other present => by
      rw [saved, Option.some.injEq] at present
      subst present
      exact ⟨Nat.le_refl _, positive, anchored⟩
    segment := by
      rw [window]
      exact ok.segment.advance _ _
    anchored := anchored
    bounded := fun entry present => ok.bounded entry (List.mem_of_mem_drop present)
    settled := by
      rw [window]
      exact Window.settled_advance within ok.settled
    promise := by
      rw [ends.1, ends.2]
      exact ok.promise
    candidate := fun standing =>
      { ok.candidate standing with
        ticket := by
          rw [ends.1, ends.2]
          exact (ok.candidate standing).ticket
        backed := by
          rw [ends.1, ends.2]
          exact (ok.candidate standing).backed }
    leader := fun leading =>
      { ok.leader leading with
        rest := by
          have join : c.log.sentinel.index + (snap.lastIncludedIndex - c.log.sentinel.index) =
              snap.lastIncludedIndex := by omega
          simp only [log]
          rw [(ok.leader leading).rest, List.drop_drop, join]
        base := (ok.leader leading).termAt_eq found } }

theorem CoreOk.adopt (sound : History.Sound members record) (ok : CoreOk members record c)
    (following : c.role = .follower) {snap : Snapshot} (saved : c.snapshot = some snap)
    (above : c.log.sentinel.index < snap.lastIncludedIndex) :
    let log := c.log.installSnapshotBoundary snap.lastIncludedIndex snap.lastIncludedTerm
    CoreOk members record { c with log := log, state := some ⟨c.currentTerm, c.votedFor, log.rest⟩ } := by
  intro log
  obtain ⟨_, positive, anchored⟩ := ok.saved snap saved
  by_cases found : c.log.termAt snap.lastIncludedIndex = some snap.lastIncludedTerm
  · have shape : log = ⟨⟨snap.lastIncludedIndex, snap.lastIncludedTerm, []⟩,
        c.log.rest.drop (snap.lastIncludedIndex - c.log.sentinel.index)⟩ := by
      simp only [log, Log.installSnapshotBoundary, if_pos found, Log.drop_entries_eq]
    rw [shape]
    exact ok.advance saved above found
  · have shape : log = ⟨⟨snap.lastIncludedIndex, snap.lastIncludedTerm, []⟩, []⟩ := by
      simp only [log, Log.installSnapshotBoundary, if_neg found]
    have uncommitted : c.commitIndex < snap.lastIncludedIndex := by
      by_contra reached
      exact found (ok.settled_term sound anchored above (by omega))
    rw [shape]
    exact
    { ok with
      durable := Core.Durable.of_saved rfl
      unsaved := fun absent => by rw [saved] at absent; cases absent
      saved := fun other present => by
        rw [saved, Option.some.injEq] at present
        subst present
        exact ⟨Nat.le_refl _, positive, anchored⟩
      segment := fun slot entry present => by cases present
      anchored := anchored
      bounded := fun entry present => by cases present
      settled := by
        refine ⟨uncommitted.le, ?_⟩
        rcases ok.settled.reached with zero | ⟨bound, chosen, commit, le, inside⟩
        · exact Or.inl zero
        · refine Or.inr ⟨bound, chosen, commit, le, inside, fun place within => ?_⟩
          simp only [Log.window_base] at within
          omega
      promise := ok.promise_reset sound anchored positive above.le found
      candidate := fun standing => by rw [following] at standing; cases standing
      leader := fun leading => by rw [following] at leading; cases leading }

theorem CoreOk.raise_base (ok : CoreOk members record c) (following : c.role = .follower) :
    CoreOk members record { c with commitIndex := c.log.sentinel.index } :=
  { ok with
    settled := Anchored.settled ok.anchored
    candidate := fun standing => by rw [following] at standing; cases standing
    leader := fun leading => by rw [following] at leading; cases leading }

theorem filter_above (floor base : Nat) (le : base ≤ floor) (entries : List LogEntry)
    (consecutive : ∀ slot entry, entries[slot]? = some entry → entry.index = base + slot + 1) :
    entries.filter (fun e => floor < e.index) = entries.drop (floor - base) := by
  induction entries generalizing base with
  | nil => simp only [List.filter_nil, List.drop_nil]
  | cons first more ih =>
    have here := consecutive 0 first rfl
    have later : ∀ slot entry, more[slot]? = some entry → entry.index = base + 1 + slot + 1 := by
      intro slot entry present
      have numbered := consecutive (slot + 1) entry present
      omega
    rcases Nat.eq_or_lt_of_le le with same | below
    · have all : ∀ entry ∈ more, floor < entry.index := by
        intro entry present
        obtain ⟨slot, inside, rfl⟩ := List.mem_iff_getElem.mp present
        have numbered := later slot _ (List.getElem?_eq_getElem inside)
        omega
      rw [List.filter_cons_of_pos (by simp only [decide_eq_true_eq]; omega), same, Nat.sub_self, List.drop_zero,
        List.filter_eq_self.mpr (fun entry present => by simpa only [decide_eq_true_eq] using all entry present)]
    · rw [List.filter_cons_of_neg (by simp only [decide_eq_true_eq]; omega), ih (base + 1) below later]
      have count : floor - base = floor - (base + 1) + 1 := by omega
      rw [count, List.drop_succ_cons]

def Core.restart (c : Core) (log : Log) : Core :=
  { c with
    log := log
    commitIndex := 0
    role := .follower
    votesReceived := []
    nextIndex := fun _ => 0
    matchIndex := fun _ => 0 }

theorem CoreOk.base_le_saved (ok : CoreOk members record c) :
    c.log.sentinel.index ≤ c.snapshot.elim 0 Snapshot.lastIncludedIndex := by
  cases present : c.snapshot with
  | none => exact (ok.unsaved present).1.le
  | some snap => exact (ok.saved snap present).1

/-- The disk holds the term, the vote and the log of memory, after entries that memory has left behind
its boundary; a snapshot on disk reaches the boundary; the log is numbered from the boundary on. -/
structure Core.Saved (covered : List LogEntry) (c : Core) : Prop where
  state : c.state.getD ⟨0, "", []⟩ = ⟨c.currentTerm, c.votedFor, covered ++ c.log.rest⟩
  behind : ∀ entry ∈ covered, entry.index ≤ c.log.sentinel.index ∧ c.snapshot.isSome
  reached : c.log.sentinel.index ≤ c.snapshot.elim 0 Snapshot.lastIncludedIndex
  numbered : ∀ slot entry, c.log.rest[slot]? = some entry → entry.index = c.log.sentinel.index + slot + 1

theorem Core.Saved.loaded {covered : List LogEntry} (saved : c.Saved covered) :
    loadedSuffix c.snapshot (c.state.getD ⟨0, "", []⟩).log =
      .ok (c.log.rest.drop (c.snapshot.elim 0 Snapshot.lastIncludedIndex - c.log.sentinel.index)) := by
  have reached := saved.reached
  rw [saved.state]
  cases present : c.snapshot with
  | none =>
    have empty : covered = [] := by
      apply List.eq_nil_iff_forall_not_mem.mpr
      intro entry inside
      have known := (saved.behind entry inside).2
      rw [present] at known
      cases known
    simp only [loadedSuffix, empty, List.nil_append, Option.elim_none, Nat.zero_sub, List.drop_zero]
  | some snap =>
    rw [present, Option.elim_some] at reached
    have split : (covered ++ c.log.rest).filter (fun e => snap.lastIncludedIndex < e.index) =
        c.log.rest.drop (snap.lastIncludedIndex - c.log.sentinel.index) := by
      have gone : covered.filter (fun e => snap.lastIncludedIndex < e.index) = [] := by
        apply List.filter_eq_nil_iff.mpr
        intro entry inside
        have le := (saved.behind entry inside).1
        simp only [decide_eq_true_eq]
        omega
      rw [List.filter_append, gone, List.nil_append]
      exact filter_above _ _ reached _ saved.numbered
    simp only [loadedSuffix, split, Option.elim_some]
    split
    · rename_i empty
      rw [empty]
    · rename_i first more shape
      have place := saved.numbered (snap.lastIncludedIndex - c.log.sentinel.index) first
        (by rw [← Nat.add_zero (_ - _), ← List.getElem?_drop, shape]; rfl)
      rw [if_neg (by omega), shape]

theorem CoreOk.saved_disk (numbered : Numbered record) (ok : CoreOk members record c) :
    ∃ covered, c.Saved covered := by
  obtain ⟨covered, same, behind⟩ := ok.durable
  exact ⟨covered, same, behind, ok.base_le_saved, fun _ _ => ok.numbered_rest numbered⟩

theorem CoreOk.loaded_eq (numbered : Numbered record) (ok : CoreOk members record c) {suffix : List LogEntry}
    (loaded : loadedSuffix c.snapshot (c.state.getD ⟨0, "", []⟩).log = .ok suffix) :
    suffix = c.log.rest.drop (c.snapshot.elim 0 Snapshot.lastIncludedIndex - c.log.sentinel.index) := by
  obtain ⟨covered, saved⟩ := ok.saved_disk numbered
  rw [saved.loaded] at loaded
  exact (Except.ok.inj loaded).symm

theorem CoreOk.promise_restart (sound : History.Sound members record) (ok : CoreOk members record c)
    {index value : Nat} (anchored : Anchored members record index value c.currentTerm)
    (above : c.log.sentinel.index ≤ index) :
    let log := Log.newLogFromEntries index value (c.log.rest.drop (index - c.log.sentinel.index))
    Promise record c.id log.lastIndex log.lastTerm c.currentTerm := by
  intro log
  by_cases inside : index < c.log.lastIndex
  · -- Entries remain above the boundary, so the log still ends where it did.
    have ends := ok.promise
    rw [Log.lastIndex_eq] at inside
    have last : log.lastIndex = c.log.lastIndex := by
      simp only [log, Log.lastIndex_eq, Log.newLogFromEntries, List.length_drop]
      omega
    have lastTerm : log.lastTerm = c.log.lastTerm := by
      simp only [log, Log.lastTerm, Log.newLogFromEntries]
      rw [List.getLast?_drop, if_neg (by omega)]
      cases shape : c.log.rest.getLast? with
      | none =>
        rw [List.getLast?_eq_none_iff] at shape
        rw [shape, List.length_nil] at inside
        omega
      | some final => rfl
    rw [last, lastTerm]
    exact ends
  · have empty : c.log.rest.drop (index - c.log.sentinel.index) = [] := by
      rw [Log.lastIndex_eq] at inside
      exact List.drop_eq_nil_of_le (by omega)
    simp only [log, empty]
    by_cases found : c.log.termAt index = some value
    · have same : index = c.log.lastIndex := by
        have le := (Log.termAt_bounds found).2
        omega
      rw [same, Log.termAt_last, Option.some.injEq] at found
      have ends := ok.promise
      rw [← same, found] at ends
      exact ends
    · rcases Nat.eq_zero_or_pos index with zero | positive
      · exfalso
        apply found
        have base : c.log.sentinel.index = index := by omega
        rw [← base, Log.termAt_sentinel]
        rw [← base] at anchored
        exact congrArg some (ok.anchored.unique sound anchored)
      · exact ok.promise_reset sound anchored positive above found

theorem CoreOk.restart (sound : History.Sound members record) (numbered : Numbered record)
    (ok : CoreOk members record c) {suffix : List LogEntry}
    (loaded : loadedSuffix c.snapshot (c.state.getD ⟨0, "", []⟩).log = .ok suffix) :
    CoreOk members record (c.restart (Log.newLogFromEntries (c.snapshot.elim 0 Snapshot.lastIncludedIndex)
      (c.snapshot.elim 0 Snapshot.lastIncludedTerm) suffix)) := by
  have kept := ok.loaded_eq numbered loaded
  generalize floor : c.snapshot.elim 0 Snapshot.lastIncludedIndex = index at kept ⊢
  generalize floorTerm : c.snapshot.elim 0 Snapshot.lastIncludedTerm = value
  obtain ⟨anchored, above⟩ : Anchored members record index value c.currentTerm ∧ c.log.sentinel.index ≤ index := by
    cases present : c.snapshot with
    | none =>
      rw [present] at floor floorTerm
      subst floor
      subst floorTerm
      exact ⟨Or.inl ⟨rfl, rfl⟩, (ok.unsaved present).1.le⟩
    | some snap =>
      rw [present] at floor floorTerm
      subst floor
      subst floorTerm
      exact ⟨(ok.saved snap present).2.2, (ok.saved snap present).1⟩
  subst kept
  have window : (Log.newLogFromEntries index value (c.log.rest.drop (index - c.log.sentinel.index))).window =
      c.log.window.advance (index - c.log.sentinel.index) value := by
    simp only [Log.newLogFromEntries, Log.window, Window.advance, Window.mk.injEq, and_true]
    omega
  exact
  { ok with
    durable := by
      obtain ⟨covered, same, below⟩ := ok.durable
      refine ⟨covered ++ c.log.rest.take (index - c.log.sentinel.index), ?_, fun entry present => ?_⟩
      · simp only [Core.restart, Log.newLogFromEntries, List.append_assoc, List.take_append_drop]
        exact same
      · simp only [Core.restart, Log.newLogFromEntries]
        rcases List.mem_append.mp present with old | dropped
        · exact ⟨(below entry old).1.trans above, (below entry old).2⟩
        · obtain ⟨slot, inside, rfl⟩ := List.mem_iff_getElem.mp dropped
          rw [List.length_take] at inside
          have numberedHere := ok.numbered_rest numbered
            (List.getElem?_eq_getElem (show slot < c.log.rest.length by omega))
          rw [List.getElem_take]
          refine ⟨by omega, ?_⟩
          cases known : c.snapshot with
          | none =>
            rw [known] at floor
            simp only [Option.elim_none] at floor
            omega
          | some snap => rfl
    unsaved := fun absent => by
      simp only [Core.restart, Log.newLogFromEntries] at absent ⊢
      rw [absent] at floor floorTerm
      exact ⟨floor.symm, floorTerm.symm⟩
    saved := fun snap present => by
      simp only [Core.restart, Log.newLogFromEntries] at present ⊢
      rw [present] at floor
      exact ⟨floor.ge, (ok.saved snap present).2⟩
    segment := by
      simp only [Core.restart, window]
      exact ok.segment.advance _ _
    anchored := anchored
    bounded := fun entry present => ok.bounded entry (List.mem_of_mem_drop present)
    settled := settled_zero
    promise := ok.promise_restart sound anchored above
    unled := fun earlier known => ⟨(ok.unled earlier known).1, fun _ standing => by cases standing⟩
    stands := fun leading => absurd rfl leading
    candidate := fun standing => by cases standing
    leader := fun leading => by cases leading }

end Boundaries

end ForgeDB.Raft
