import ForgeDB.Raft.Words.Invariant

/-!
A node never panics. What every method keeps is kept over whole runs, from an empty disk on: so every access
that the node makes is in range.
-/

namespace ForgeDB.Raft.Words.Machine

open Checked

namespace Node

variable {fresh : Prop} {limit : Nat} {n : Node}

theorem resetElectionTimer_timer {after : Node} (done : n.resetElectionTimer = .ok after) :
    n.electionTickMax - n.electionTickMin ≤ 0 ∨ 0 < n.electionTickMax - n.electionTickMin + 1 := by
  by_cases flat : n.electionTickMax - n.electionTickMin ≤ 0
  · exact Or.inl flat
  · refine Or.inr (Int64.not_le.mp fun negative => ?_)
    simp only [Node.resetElectionTimer, if_neg flat, intn, if_pos negative] at done
    cases done

theorem startNode_holds {opts : Options} {log : RawLog} {l : Log} (shown : log.Shows l) (contiguous : l.Contiguous)
    (low : fresh → l.sentinel.index ≤ 0) (covered : Covers fresh opts.persister.state opts.persister.snapshot l)
    (done : (startNode opts log).resetElectionTimer = .ok n) :
    Holds fresh (l.rest.length + 1) (startNode opts log) n true := by
  have chunk : 0 < (startNode opts log).snapshotChunkSize := by
    simp only [startNode]
    split
    · decide
    · rename_i positive
      exact Int64.not_le.mp positive
  have start : (startNode opts log).Sound fresh (l.rest.length + 1) :=
    ⟨⟨l, shown, contiguous, low, covered⟩, rfl, rfl, Nat.le_of_eq shown.length, nofun, nofun, chunk,
      resetElectionTimer_timer done⟩
  have reset : Safe True (fun after => Holds fresh (l.rest.length + 1) _ after true)
    (startNode opts log).resetElectionTimer := start.resetElectionTimer
  rwa [done] at reset

theorem newNode_sound {opts : Options} (unsaved : opts.persister.state = none)
    (unsnapped : opts.persister.snapshot = none) (made : newNode opts = .ok (.ok n)) : n.Sound fresh 1 := by
  have covered : Covers fresh opts.persister.state opts.persister.snapshot ⟨⟨0, 0, []⟩, []⟩ := by
    rw [unsaved, unsnapped]
    exact ⟨UInt64.le_refl 0, Or.inl rfl⟩
  simp only [newNode, unsaved, unsnapped, loadedSuffix, Option.elim_none] at made
  have log : newLogFromEntries 0 0 .empty = .ok newLog := rfl
  rw [log, ok_bind] at made
  rcases done : (startNode opts newLog).resetElectionTimer with fault | after
  · rw [done] at made
    cases made
  · rw [done, ok_bind] at made
    cases made
    have sentinel : Log.Contiguous ⟨⟨0, 0, []⟩, []⟩ := by
      intro slot e found
      cases slot with
      | zero =>
        cases found
        rfl
      | succ slot => cases found
    exact (startNode_holds (show newLog.Shows ⟨⟨0, 0, []⟩, []⟩ from rfl) sentinel (fun _ => UInt64.le_refl 0) covered
      done).sound

end Node

namespace System

variable {fresh : Prop} {limit : Nat} {s : System}

structure Kept (fresh : Prop) (limit : Nat) (s : System) : Prop where
  sound : s.node.Sound fresh limit
  within : ∀ call ∈ s.calls, call.Within

theorem answer_sends {room : Prop} {n : Node} (sound : n.Sound fresh limit) {call : Call} (within : call.Within)
    (term : UInt64) (granted : Bool) : Safe room (Node.Sends fresh limit n) (System.answer n term granted call) := by
  cases call with
  | requestVote peer args => exact sound.sendRequestVoteReply peer args.term _
  | appendEntries peer args =>
    exact (sound.sendAppendEntriesReply peer args _).bind fun result keeps => Safe.pure keeps.quiet
  | installSnapshot peer snap args stop => exact sound.sendInstallSnapshotReply peer args within _

/-- One step. Only a look at the committed entries relies on a disk that was empty at the start. -/
theorem Kept.step (kept : s.Kept fresh limit) (op : Operation) (looks : ∀ start, op = .committedEntries start → fresh) :
    Safe (limit + op.offered < 2 ^ 63)
      (fun next => next.Kept fresh (limit + op.offered) ∧ s.node.Careful next.node) (s.step op) := by
  obtain ⟨sound, within⟩ := kept
  have started : ∀ {calls : List Call}, (∀ call ∈ calls, call.Within) → ∀ call ∈ s.calls ++ calls, call.Within :=
    fun new => List.forall_mem_append.mpr ⟨within, new⟩
  have same : s.Kept fresh limit ∧ s.node.Careful s.node := ⟨⟨sound, within⟩, sound.kept.careful⟩
  cases op with
  | handleRequestVote args =>
    exact (sound.handleRequestVote args).bind fun result next => Safe.pure ⟨⟨next.sound, within⟩, next.careful⟩
  | handleAppendEntries args =>
    exact (sound.handleAppendEntries args).bind fun result next => Safe.pure ⟨⟨next.sound, within⟩, next.careful⟩
  | handleInstallSnapshot args =>
    exact (sound.handleInstallSnapshot args).bind fun result next => Safe.pure ⟨⟨next.sound, within⟩, next.careful⟩
  | tick =>
    exact sound.tick.bind fun result next => Safe.pure ⟨⟨next.keeps.sound, started next.within⟩, next.keeps.careful⟩
  | propose command =>
    exact (sound.propose command).bind fun result next =>
      Safe.pure ⟨⟨next.keeps.sound, started next.within⟩, next.keeps.careful⟩
  | reply call term granted =>
    simp only [System.step]
    cases found : s.calls[call]? with
    | none => exact Safe.pure same
    | some pending =>
      refine (answer_sends sound (within pending (List.mem_of_getElem? found)) term granted).bind fun result next => ?_
      refine Safe.pure ⟨⟨next.keeps.sound, List.forall_mem_append.mpr ⟨fun other present => ?_, next.within⟩⟩,
        next.keeps.careful⟩
      exact within other (List.mem_of_mem_eraseIdx present)
  | createSnapshot index data =>
    exact (sound.createSnapshot index data).bind fun result next => Safe.pure ⟨⟨next.sound, within⟩, next.careful⟩
  | markApplied index =>
    have next := sound.markApplied index
    exact Safe.pure ⟨⟨next.sound, within⟩, next.careful⟩
  | confirmSnapshotRestored lastIncludedIndex =>
    have next := sound.confirmSnapshotRestored lastIncludedIndex
    exact Safe.pure ⟨⟨next.sound, within⟩, next.careful⟩
  | committedEntries start => exact (sound.committedEntries (looks start rfl) start).bind fun _ _ => Safe.pure same
  | readIndex =>
    refine sound.readIndexStart.bind fun outcome calls => ?_
    cases outcome with
    | error error => exact Safe.pure same
    | ok round => exact Safe.pure ⟨⟨sound, started (calls round rfl)⟩, sound.kept.careful⟩

def offered (ops : List Operation) : Nat := (ops.map Operation.offered).sum

theorem Kept.run (kept : s.Kept True limit) (ops : List Operation) :
    Safe (limit + offered ops < 2 ^ 63) (Kept True (limit + offered ops)) (s.run ops) := by
  induction ops generalizing s limit with
  | nil => exact kept
  | cons op ops ih =>
    have total : limit + offered (op :: ops) = limit + op.offered + offered ops := by
      simp only [offered, List.map_cons, List.sum_cons, Nat.add_assoc]
    rw [total]
    refine Safe.bind ((kept.step op fun _ _ => trivial).mono (fun enough => ?_) fun _ next => next.1) fun next kept =>
      ih kept
    omega

theorem newNode_kept {opts : Options} {n : Node} (unsaved : opts.persister.state = none)
    (unsnapped : opts.persister.snapshot = none) (made : newNode opts = .ok (.ok n)) : System.Kept fresh 1 ⟨n, []⟩ :=
  ⟨Node.newNode_sound unsaved unsnapped made, fun _ present => absurd present List.not_mem_nil⟩

end System

/-- No network input, in whatever interleaving with the clock, the replies and the client, makes a new node panic: a
run stops at most for memory, and that only if a log of `2 ^ 63` entries is asked for; and wherever it leads, the log
has its sentinel and its indexes follow each other modulo `2 ^ 64`. -/
theorem handlers_never_panic (opts : Options) (n : Node) (unsaved : opts.persister.state = none)
    (unsnapped : opts.persister.snapshot = none) (made : newNode opts = .ok (.ok n)) (ops : List Operation) :
    (∀ fault, System.run ⟨n, []⟩ ops = .error fault → fault = .outOfMemory ∧ 2 ^ 63 ≤ 1 + System.offered ops) ∧
      ∀ s, System.run ⟨n, []⟩ ops = .ok s → ∃ sentinel, s.node.log.entries.items[0]? = some sentinel ∧
        ∀ i e, s.node.log.entries.items[i]? = some e → e.index = sentinel.index + UInt64.ofNat i := by
  have safe := (System.newNode_kept unsaved unsnapped made).run ops
  refine ⟨fun fault stopped => ?_, fun s done => ?_⟩
  · rw [stopped] at safe
    exact ⟨safe.1, Nat.not_lt.mp safe.2⟩
  · rw [done] at safe
    obtain ⟨l, shown, contiguous, -⟩ := safe.sound.log
    rw [shown]
    exact ⟨l.sentinel, rfl, contiguous⟩

def trioOptions : Options := ⟨"a", ["b", "c"], 0, 0, 0, fun _ => 0, ⟨none, none, []⟩, 0⟩

/-- A snapshot at the last index there is, entries whose indexes wrap around behind it, and a look at them. -/
def wrappingCalls : List Operation :=
  [.handleInstallSnapshot ⟨1, "b", 18446744073709551615, 7, .empty, false, 0, false, 0, 0⟩,
    .handleAppendEntries ⟨1, "b", 18446744073709551615, 7, ⟨[⟨0, 1, []⟩, ⟨0, 1, []⟩], by decide⟩, 5⟩,
    .committedEntries 0]

theorem handlers_never_panic_wrapping :
    ∃ n s, newNode trioOptions = .ok (.ok n) ∧ System.run ⟨n, []⟩ wrappingCalls = .ok s ∧
      s.node.log.entries.items.map LogEntry.index = [18446744073709551615, 0, 1] ∧
      ∃ sentinel, s.node.log.entries.items[0]? = some sentinel ∧
        ∀ i e, s.node.log.entries.items[i]? = some e → e.index = sentinel.index + UInt64.ofNat i := by
  refine ⟨_, _, rfl, rfl, rfl, ?_⟩
  exact (handlers_never_panic trioOptions _ rfl rfl rfl wrappingCalls).2 _ rfl

/-- A node that is restarted on that snapshot has its commit index below the boundary again, and leaves the slice. -/
example :
    ∃ n, newNode { trioOptions with persister := ⟨none, some ⟨18446744073709551615, 7, .empty⟩, []⟩ } = .ok (.ok n) ∧
      System.run ⟨n, []⟩ [.handleAppendEntries ⟨1, "b", 18446744073709551615, 7, .empty, 5⟩, .committedEntries 0] =
        .error .outOfRange := ⟨_, rfl, rfl⟩

end ForgeDB.Raft.Words.Machine
