import ForgeDB.Raft.Agreement
import ForgeDB.Raft.Payload

/-!
Log matching across compaction. As long as every saved snapshot is followed by its compacted log, a node's whole
log lies on the log of one leader. Two logs that agree on a term at an index then agree on everything below it
that both still hold.
-/

namespace ForgeDB.Raft

open Consensus

def Joined (record : Record) (l : Log) : Prop :=
  termAt (record.log l.lastTerm) l.sentinel.index = some l.sentinel.term

section

variable {members : List String} {record larger : Record} {n : Node}

theorem Joined.mono {l : Log} (grown : record ≤ larger) (joined : Joined record l) : Joined larger l :=
  termAt_grown (grown.log _) joined

theorem Joined.termAt_eq {c : Core} (ok : CoreOk members record c) (joined : Joined record c.log)
    {index term : Nat} (found : c.log.termAt index = some term) :
    termAt (record.log c.log.lastTerm) index = some term := by
  rcases Log.termAt_cases found with ⟨rfl, rfl⟩ | ⟨slot, entry, rfl, present, rfl⟩
  · exact joined
  · have inside := (List.getElem?_eq_some_iff.mp present).1
    have stretch := c.log.window.rest_eq ok.segment slot inside
    rw [Log.window_lastTerm, Log.window_base, Log.window_rest, present] at stretch
    simp only [termAt, stretch, Option.map_some]
    rfl

theorem CoreOk.entryAt_eq {c : Core} (ok : CoreOk members record c) {index : Nat} {entry : LogEntry}
    (held : c.log.entryAt index = some entry) : entryAt (record.log c.log.lastTerm) index = some entry := by
  obtain ⟨slot, rfl, present⟩ := Log.entryAt_cases held
  have stretch := c.log.window.rest_eq ok.segment slot (List.getElem?_eq_some_iff.mp present).1
  rw [Log.window_lastTerm, Log.window_base, Log.window_rest, present] at stretch
  exact stretch

theorem Joined.drop {c : Core} (ok : CoreOk members record c) (joined : Joined record c.log) {index term : Nat}
    (found : c.log.termAt index = some term) :
    Joined record ⟨⟨index, term, []⟩, c.log.rest.drop (index - c.log.sentinel.index)⟩ := by
  have ends := (Log.drop_last found []).2
  simp only [Joined, ends]
  exact joined.termAt_eq ok found

section

variable (sound : History.Sound members record)

include sound

theorem Joined.accept {c : Core} (ok : CoreOk members record c) (joined : Joined record c.log)
    {term prev prevTerm bound : Nat} {after : Log} {changed : Bool} (found : c.log.termAt prev = some prevTerm)
    (onLog : termAt (record.log term) prev = some prevTerm)
    (accepted : Accepted record term bound c.log after changed) : Joined record after := by
  cases changed with
  | false =>
    rw [accepted.kept rfl]
    exact joined
  | true =>
    obtain ⟨last, above, _⟩ := accepted.cut rfl
    have bounds := Log.termAt_bounds found
    have base : termAt (record.log term) c.log.sentinel.index = some c.log.sentinel.term := by
      rw [← joined]
      rcases Nat.eq_zero_or_pos prev with zero | positive
      · have start : c.log.sentinel.index = 0 := by omega
        rw [start]
        rfl
      · have here := (sound.origin onLog positive).2.2.2
        have there := (sound.origin (joined.termAt_eq ok found) positive).2.2.2
        exact (here.symm.trans there).termAt_eq bounds.1
    have sentinel := accepted.sentinel
    have ended : termAt (record.log term) after.lastIndex = some after.lastTerm :=
      follows_termAt accepted.follows (by rw [sentinel, last]; exact above) last.le after.termAt_last
    have agree := (sound.origin ended (by omega)).2.2.2
    rw [Joined, sentinel, ← base]
    exact agree.termAt_eq (by omega)

theorem Joined.adopt {c : Core} (ok : CoreOk members record c) (joined : Joined record c.log) {index value term : Nat}
    (anchored : Anchored members record index value term) :
    Joined record (c.log.installSnapshotBoundary index value) := by
  unfold Log.installSnapshotBoundary
  split
  · rename_i found
    simp only [Log.drop_entries_eq]
    exact joined.drop ok found
  · exact (anchored.origin sound).1

theorem Node.serve_joined (numbered : Numbered record) (ok : CoreOk members record n.core)
    (joined : Joined record n.log) {src : String} {call : Call} (request : RequestOk members record src call) :
    Joined record (n.serve call).1.log := by
  cases call with
  | requestVote peer args =>
    rw [show (n.serve (.requestVote peer args)).1.log = n.log from
      congrArg Kept.log (n.handleRequestVote_kept args)]
    exact joined
  | appendEntries peer args =>
    have observed : (n.observeTerm args.term).1.log = n.log := congrArg Kept.log (n.observeTerm_kept args.term)
    rcases n.handleAppendEntries_core args with ⟨_, same | same⟩ | ⟨_, found, same⟩
    · rw [show (n.serve (.appendEntries peer args)).1.log = n.log from (congrArg Core.log same).trans observed]
      exact joined
    · rw [show (n.serve (.appendEntries peer args)).1.log = n.log from (congrArg Core.log same).trans observed]
      exact joined
    · have log : (n.serve (.appendEntries peer args)).1.log =
          (n.log.appendAfter args.prevLogIndex args.entries).1 := by
        rw [← observed]
        exact congrArg Core.log same
      rw [observed] at found
      obtain ⟨_, _, _, _, _, onLog, _, entries, _⟩ := request
      rw [log]
      exact joined.accept sound ok found onLog (appendAfter_accepted sound numbered ok.segment found onLog entries)
  | installSnapshot peer snap args =>
    obtain ⟨_, _, _, _, _, index, term, anchored, _⟩ := request
    rw [← index, ← term] at anchored
    rcases (n.handleInstallSnapshot_handled args).log with same | ⟨_, same⟩
    · rw [show (n.serve (.installSnapshot peer snap args)).1.log = n.log from same]
      exact joined
    · rw [show (n.serve (.installSnapshot peer snap args)).1.log = _ from same]
      exact joined.adopt sound ok anchored

theorem Node.Executes.joined (numbered : Numbered record) (ok : CoreOk members record n.core) {network : List Packet}
    {node : String} {action : Action} {after : Node} (packets : ∀ packet ∈ network, PacketOk members record packet)
    (joined : Joined record n.log) (moved : Node.Executes network node action n after) : Joined record after.log := by
  cases moved with
  | tick =>
    rw [show n.tick.1.log = n.log from congrArg Kept.log n.tick_kept]
    exact joined
  | propose _ command =>
    rcases n.propose_kept command with same | ⟨leading, same⟩
    · rw [show (n.propose command).1.log = n.log from congrArg Kept.log same]
      exact joined
    · have log : (n.propose command).1.log = (n.log.append ⟨0, n.currentTerm, command⟩).1 := congrArg Kept.log same
      have lastTerm : (n.propose command).1.log.lastTerm = n.currentTerm := by
        rw [log]
        simp only [Log.append, Log.lastTerm, List.getLast?_append, List.getLast?_singleton, Option.some_or,
          Option.getD_some]
      rw [Joined, lastTerm, log]
      exact (ok.leader leading).base
  | createSnapshot _ index data =>
    rcases n.createSnapshot_core index data with same | ⟨term, _, _, found, same | same⟩
    · rw [show (n.createSnapshot index data).1.log = n.log from congrArg Core.log same]
      exact joined
    · rw [show (n.createSnapshot index data).1.log = n.log from congrArg Core.log same]
      exact joined
    · rw [show (n.createSnapshot index data).1.log = _ from congrArg Core.log same]
      exact joined.drop ok found
  | confirmSnapshotRestored _ index =>
    rw [show (n.confirmSnapshotRestored index).1.log = n.log from
      congrArg Core.log (n.confirmSnapshotRestored_core index)]
    exact joined
  | markApplied _ index =>
    rw [show (n.markApplied index).1.log = n.log from congrArg Core.log (n.markApplied_core index)]
    exact joined
  | @serve _ _ _ src call sent callee =>
    exact Node.serve_joined sound numbered ok joined (packets _ sent)
  | @resume _ _ _ call reply sent =>
    rw [show (n.resume call reply).1.log = n.log from congrArg Kept.log (n.resume_kept call reply)]
    exact joined
  | fault _ outcomes => exact joined

theorem restart_joined (numbered : Numbered record) (ok : CoreOk members record n.core) (joined : Joined record n.log)
    (paired : ∀ snap, n.persister.snapshot = some snap → n.log.sentinel.index = snap.lastIncludedIndex)
    {opts : Options} {after : Node} (persister : opts.persister = n.persister) (started : newNode opts = .ok after) :
    Joined record after.log := by
  have log := restart_log numbered ok persister started
  have boundary : n.persister.snapshot.elim 0 Snapshot.lastIncludedIndex = n.log.sentinel.index ∧
      n.persister.snapshot.elim 0 Snapshot.lastIncludedTerm = n.log.sentinel.term := by
    cases present : n.persister.snapshot with
    | none =>
      have zero := ok.unsaved present
      exact ⟨zero.1.symm, zero.2.symm⟩
    | some snap =>
      have same := paired snap present
      have anchored := (ok.saved snap present).2.2
      rw [← same] at anchored
      exact ⟨same.symm, anchored.unique sound ok.anchored⟩
  rw [boundary.1, boundary.2, Nat.sub_self, List.drop_zero] at log
  have lastTerm : after.log.lastTerm = n.log.lastTerm := by
    rw [log]
    simp only [Log.newLogFromEntries, Log.lastTerm]
    cases n.log.rest.getLast? <;> rfl
  rw [Joined, lastTerm, log]
  exact joined

end

end

namespace Cluster

/-- Every saved snapshot is the boundary of its node's log: no snapshot operation has stopped
between its two saves. -/
def Paired (c : Cluster) : Prop :=
  ∀ node ∈ c.members, ∀ snap ∈ (c.nodes node).persister.snapshot,
    (c.nodes node).log.sentinel.index = snap.lastIncludedIndex

instance (c : Cluster) : Decidable (Paired c) := by
  unfold Paired
  infer_instance

def PairedRuns : Cluster → Cluster → Prop :=
  Relation.ReflTransGen fun before after => Steps before after ∧ Paired after

theorem PairedRuns.joined {first c : Cluster} (boot : first.Bootstrapped) (run : PairedRuns first c) :
    ∃ record, Described record c ∧ Paired c ∧ ∀ node ∈ c.members, Joined record (c.nodes node).log := by
  induction run with
  | refl =>
    have described := boot.described
    refine ⟨_, described, fun node known snap present => ?_, fun node known => ?_⟩
    · rw [(boot.log known).1] at present
      cases present
    · rw [(boot.log known).2]
      rfl
  | tail _ moved ih =>
    obtain ⟨⟨action, taken⟩, pairedAfter⟩ := moved
    obtain ⟨record, described, paired, joined⟩ := ih
    obtain ⟨larger, grown, describedAfter⟩ := step_described record _ _ described ⟨action, taken⟩
    obtain ⟨members, nodes⟩ := step_nodes taken
    refine ⟨larger, describedAfter, pairedAfter, fun node known => Joined.mono grown ?_⟩
    rw [members] at known
    have ok := (described.nodes node known).2
    rcases nodes node with still | executed | ⟨opts, _, started⟩
    · rw [still]
      exact joined node known
    · exact executed.joined described.sound described.numbered ok described.packets (joined node known)
    · exact restart_joined described.sound described.numbered ok (joined node known) (paired node known) rfl started

/-- Log matching: in every run whose snapshot operations complete, two logs with one term at an
index agree below it on every term and command both still hold; and each log is numbered from its
boundary, with terms that never decrease. -/
theorem logs_match {first c : Cluster} (boot : first.Bootstrapped) (run : PairedRuns first c) :
    (∀ node ∈ c.members, ∀ other ∈ c.members, ∀ index term,
      (c.nodes node).log.termAt index = some term → (c.nodes other).log.termAt index = some term →
      ∀ lower, lower ≤ index →
        (∀ left right, (c.nodes node).log.termAt lower = some left →
          (c.nodes other).log.termAt lower = some right → left = right) ∧
        (∀ left right, (c.nodes node).log.entryAt lower = some left →
          (c.nodes other).log.entryAt lower = some right → left.command = right.command)) ∧
    (∀ node ∈ c.members,
      (∀ slot entry, (c.nodes node).log.entries[slot]? = some entry →
        entry.index = (c.nodes node).log.sentinel.index + slot) ∧
      (c.nodes node).log.entries.Pairwise (fun earlier later => earlier.term ≤ later.term)) := by
  obtain ⟨record, described, _, joined⟩ := run.joined boot
  have sound := described.sound
  constructor
  · intro node known other knownOther index term found foundOther lower le
    have ok := (described.nodes node known).2
    have okOther := (described.nodes other knownOther).2
    have answer : ∀ at_ value, (c.nodes node).log.termAt at_ = some value →
        termAt (record.log (c.nodes node).log.lastTerm) at_ = some value :=
      fun _ _ => (joined node known).termAt_eq ok
    have answerOther : ∀ at_ value, (c.nodes other).log.termAt at_ = some value →
        termAt (record.log (c.nodes other).log.lastTerm) at_ = some value :=
      fun _ _ => (joined other knownOther).termAt_eq okOther
    -- Both logs agree up to the index with the log of the term they share there.
    have agree : Agree (record.log (c.nodes node).log.lastTerm) (record.log (c.nodes other).log.lastTerm) index := by
      rcases Nat.eq_zero_or_pos index with rfl | positive
      · intro slot inside
        omega
      · exact ((sound.origin (answer index term found) positive).2.2.2).symm.trans
          (sound.origin (answerOther index term foundOther) positive).2.2.2
    refine ⟨fun left right atLeft atRight => ?_, fun left right atLeft atRight => ?_⟩
    · have same := agree.termAt_eq le
      rw [answer lower left atLeft, answerOther lower right atRight, Option.some.injEq] at same
      exact same
    · have same := agree.entryAt_eq le
      have here : entryAt (record.log (c.nodes node).log.lastTerm) lower = some left := ok.entryAt_eq atLeft
      have there : entryAt (record.log (c.nodes other).log.lastTerm) lower = some right := okOther.entryAt_eq atRight
      rw [here, there, Option.some.injEq] at same
      rw [same]
  · intro node known
    have ok := (described.nodes node known).2
    refine ⟨fun slot entry present => ?_, ?_⟩
    · cases slot with
      | zero =>
        simp only [Log.entries, List.getElem?_cons_zero, Option.some.injEq] at present
        rw [← present, Nat.add_zero]
      | succ slot =>
        simp only [Log.entries, List.getElem?_cons_succ] at present
        exact ok.numbered_rest described.numbered present
    · rw [List.pairwise_iff_getElem]
      intro low high insideLow insideHigh lt
      have atLow := (c.nodes node).log.termAt_entries low
      have atHigh := (c.nodes node).log.termAt_entries high
      rw [List.getElem?_eq_getElem insideLow] at atLow
      rw [List.getElem?_eq_getElem insideHigh] at atHigh
      exact sound.monotone ((joined node known).termAt_eq ok atLow) ((joined node known).termAt_eq ok atHigh) (by omega)

/-- A compaction by the leader, taken over by a follower that missed everything. -/
def snapshotScript : List Action :=
  commitScript ++ [.markApplied "a" 1, .createSnapshot "a" 1 [5], .tick "a", .deliver 12]

theorem snapshotScript_paired :
    ((boot ["a", "b", "c"] 0).execWhile (fun c => Paired c) snapshotScript).map (fun c =>
      ((c.nodes "b").log.termAt 1, (c.nodes "b").log.sentinel.index, (c.nodes "c").log.termAt 1,
        (c.nodes "c").log.sentinel.index)) = some (some 1, 0, some 1, 1) := by
  decide +kernel

theorem logs_match_trio :
    ∃ c, (boot ["a", "b", "c"] 0).execWhile (fun c => Paired c) snapshotScript = some c ∧
      (c.nodes "b").log.sentinel.index = 0 ∧ (c.nodes "c").log.sentinel.index = 1 ∧
      ∀ left right, (c.nodes "b").log.termAt 1 = some left → (c.nodes "c").log.termAt 1 = some right →
        left = right := by
  obtain ⟨c, done, shape⟩ := Option.map_eq_some_iff.mp snapshotScript_paired
  simp only [Prod.mk.injEq] at shape
  obtain ⟨termB, baseB, termC, baseC⟩ := shape
  have run : PairedRuns (boot ["a", "b", "c"] 0) c := by
    refine (execWhile_runs done).lift id (fun before after moved => ?_)
    exact ⟨moved.1, of_decide_eq_true moved.2⟩
  have members : c.members = ["a", "b", "c"] :=
    Runs.members (run.lift id fun _ _ moved => moved.1)
  have all := (logs_match (boot_bootstrapped 0 (by decide) (by decide)) run).1
  exact ⟨c, done, baseB, baseC, (all "b" (by rw [members]; decide) "c" (by rw [members]; decide) 1 1 termB termC 1
    (Nat.le_refl 1)).1⟩

end Cluster

end ForgeDB.Raft
