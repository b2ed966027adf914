import ForgeDB.Raft.Words.NoPanic

/-!
Memory and disk. After any calls memory holds what the disk holds, and the disk can be started from. A restart
drops what the snapshot covers by the index alone, while the running node also compares the terms: so between
the save of a snapshot and the save of the log behind it, the two may disagree.
-/

namespace ForgeDB.Raft.Words

/-- Items that are chosen by their place, which lies between two bounds. -/
theorem filter_eq_window {α : Type} {chosen : α → Bool} {items : List α} {low high : Nat}
    (place : ∀ slot a, items[slot]? = some a → (chosen a = true ↔ low ≤ slot ∧ slot < high)) :
    items.filter chosen = (items.take high).drop low := by
  have parts : items = (items.take high).take low ++ (items.take high).drop low ++ items.drop high := by
    rw [List.take_append_drop, List.take_append_drop]
  have none_below : ((items.take high).take low).filter chosen = [] := by
    rw [List.filter_eq_nil_iff]
    intro a present
    obtain ⟨slot, found⟩ := List.mem_iff_getElem?.mp present
    rw [List.getElem?_take, List.getElem?_take] at found
    split at found
    · split at found
      · rw [place slot a found]
        omega
      · cases found
    · cases found
  have all_between : ((items.take high).drop low).filter chosen = (items.take high).drop low := by
    rw [List.filter_eq_self]
    intro a present
    obtain ⟨slot, found⟩ := List.mem_iff_getElem?.mp present
    rw [List.getElem?_drop, List.getElem?_take] at found
    split at found
    · rw [place _ a found]
      omega
    · cases found
  have none_beyond : (items.drop high).filter chosen = [] := by
    rw [List.filter_eq_nil_iff]
    intro a present
    obtain ⟨slot, found⟩ := List.mem_iff_getElem?.mp present
    rw [List.getElem?_drop] at found
    rw [place _ a found]
    omega
  conv_lhs => rw [parts]
  rw [List.filter_append, List.filter_append, none_below, all_between, none_beyond, List.nil_append, List.append_nil]

namespace Log

variable {l : Log}

theorem Contiguous.toNat_index (contiguous : l.Contiguous) (fits : l.rest.length < 2 ^ 63) {slot : Nat} {e : LogEntry}
    (found : l.rest[slot]? = some e) :
    e.index.toNat = l.sentinel.index.toNat + slot + 1 ∧ l.sentinel.index.toNat + slot + 1 < 2 ^ 64 ∨
      e.index.toNat + 2 ^ 64 = l.sentinel.index.toNat + slot + 1 ∧ e.index < l.sentinel.index := by
  have inside := (List.getElem?_eq_some_iff.mp found).1
  have place : e.index.toNat = (l.sentinel.index.toNat + (slot + 1)) % 2 ^ 64 := by
    rw [contiguous (slot + 1) e found, UInt64.toNat_add, UInt64.toNat_ofNat', Nat.add_mod_mod]
  have base := l.sentinel.index.toNat_lt
  rw [UInt64.lt_iff_toNat_lt]
  omega

theorem Contiguous.filter_above (contiguous : l.Contiguous) (fits : l.rest.length < 2 ^ 63) {index : UInt64}
    (above : l.sentinel.index ≤ index) :
    l.rest.filter (index < ·.index) =
      (l.rest.take (2 ^ 64 - 1 - l.sentinel.index.toNat)).drop (index.toNat - l.sentinel.index.toNat) := by
  refine filter_eq_window fun slot e found => ?_
  have low := UInt64.le_iff_toNat_le.mp above
  have base := index.toNat_lt
  rw [decide_eq_true_iff, UInt64.lt_iff_toNat_lt]
  rcases contiguous.toNat_index fits found with ⟨place, room⟩ | ⟨place, wrapped⟩
  · omega
  · have under := UInt64.lt_iff_toNat_lt.mp wrapped
    omega

theorem Contiguous.recovered (contiguous : l.Contiguous) (fits : l.rest.length < 2 ^ 63) {index : UInt64}
    (above : l.sentinel.index ≤ index) (term : UInt64) :
    Contiguous ⟨⟨index, term, []⟩, l.rest.filter (index < ·.index)⟩ := by
  rw [contiguous.filter_above fits above]
  intro slot e found
  cases slot with
  | zero =>
    cases found
    exact (UInt64.add_zero index).symm
  | succ slot =>
    have low := UInt64.le_iff_toNat_le.mp above
    change ((l.rest.take _).drop _)[slot]? = some e at found
    rw [List.getElem?_drop, List.getElem?_take] at found
    split at found
    · rename_i inside
      have place := contiguous.toNat_index fits found
      have top := l.sentinel.index.toNat_lt
      apply UInt64.toNat_inj.mp
      dsimp only
      rw [UInt64.toNat_add, UInt64.toNat_ofNat', Nat.add_mod_mod]
      omega
    · cases found
/-- What a restart makes of a log when its snapshot ends at the index. -/
def above (l : Log) (index term : UInt64) : Log := ⟨⟨index, term, []⟩, l.rest.filter (index < ·.index)⟩

end Log

namespace Machine

open Checked

theorem Covers.loaded {fresh : Prop} {state : Option PersistentState} {snapshot : Option Snapshot} {l : Log}
    (covered : Covers fresh state snapshot l) (contiguous : l.Contiguous) (fits : l.rest.length < 2 ^ 63) :
    ∃ suffix, loadedSuffix snapshot (state.elim .empty PersistentState.log) = .ok suffix ∧
      suffix.items = (l.above (snapshot.elim 0 Snapshot.lastIncludedIndex) 0).rest := by
  obtain ⟨reached, entries⟩ := covered
  cases snapshot with
  | none =>
    have saved := entries.resolve_right fun more => Bool.false_ne_true more.2.1
    have zero : l.sentinel.index.toNat = 0 := Nat.le_zero.mp (UInt64.le_iff_toNat_le.mp reached)
    refine ⟨_, rfl, saved.trans ?_⟩
    rw [Log.above, contiguous.filter_above fits reached, zero]
    exact (List.take_of_length_le (by omega)).symm
  | some snap =>
    have kept : (state.elim .empty PersistentState.log).items.filter (snap.lastIncludedIndex < ·.index) =
        l.rest.filter (snap.lastIncludedIndex < ·.index) := by
      rcases entries with same | ⟨-, -, same⟩
      · rw [same]
      · -- What lies above the snapshot lies above the boundary.
        have within : ∀ items : List LogEntry, items.filter (snap.lastIncludedIndex < ·.index) =
            (items.filter (l.sentinel.index < ·.index)).filter (snap.lastIncludedIndex < ·.index) := by
          intro items
          rw [List.filter_filter]
          refine List.filter_congr fun e _ => ?_
          by_cases ahead : snap.lastIncludedIndex < e.index
          · simp only [ahead, UInt64.lt_of_le_of_lt reached ahead, decide_true, Bool.and_self]
          · simp only [ahead, decide_false, Bool.false_and]
        rw [within, same, ← within]
    have numbered := contiguous.recovered fits (show l.sentinel.index ≤ snap.lastIncludedIndex from reached) 0
    simp only [loadedSuffix, kept]
    split
    · exact ⟨_, rfl, rfl⟩
    · rename_i first more shape
      have next : first.index = snap.lastIncludedIndex + 1 := numbered 1 first (congrArg (·[0]?) shape)
      rw [if_neg (not_not.mpr next)]
      exact ⟨_, rfl, rfl⟩

theorem Covers.restart {fresh : Prop} {state : Option PersistentState} {snapshot : Option Snapshot} {l : Log}
    (covered : Covers fresh state snapshot l) (contiguous : l.Contiguous) (fits : l.rest.length < 2 ^ 63)
    (term : UInt64) :
    Covers False state snapshot (l.above (snapshot.elim 0 Snapshot.lastIncludedIndex) term) := by
  refine ⟨UInt64.le_refl _, ?_⟩
  obtain ⟨suffix, loaded, items⟩ := covered.loaded contiguous fits
  cases snapshot with
  | none =>
    cases loaded
    exact Or.inl items
  | some snap =>
    refine Or.inr ⟨not_false, rfl, ?_⟩
    have kept : suffix.items =
        (state.elim .empty PersistentState.log).items.filter (snap.lastIncludedIndex < ·.index) := by
      simp only [loadedSuffix] at loaded
      split at loaded
      · cases loaded
        rfl
      · split at loaded
        · cases loaded
        · cases loaded
          rfl
    have chosen : suffix.items.filter (snap.lastIncludedIndex < ·.index) = suffix.items := by
      rw [kept, List.filter_filter]
      simp only [Bool.and_self]
    exact kept.symm.trans (chosen.symm.trans (congrArg _ items))

/-- The options let a node start on an empty disk: the range that its election timeouts are drawn from is no longer than
an integer can say. -/
def Options.Starts (opts : Options) : Prop := ∃ n, newNode { opts with persister := ⟨none, none, []⟩ } = .ok (.ok n)

theorem Options.Starts.resets {opts : Options} (starts : opts.Starts) (log : RawLog) :
    ∃ n, (startNode opts log).resetElectionTimer = .ok n := by
  obtain ⟨n, made⟩ := starts
  have timer : (startNode opts log).electionTickMax - (startNode opts log).electionTickMin ≤ 0 ∨
      0 < (startNode opts log).electionTickMax - (startNode opts log).electionTickMin + 1 := by
    have fresh : newLogFromEntries 0 0 .empty = .ok newLog := rfl
    simp only [newNode, loadedSuffix, Option.elim_none, fresh, ok_bind] at made
    rcases done : (startNode { opts with persister := ⟨none, none, []⟩ } newLog).resetElectionTimer with fault | after
    · rw [done] at made
      cases made
    · have timer := Node.resetElectionTimer_timer done
      exact timer
  unfold Node.resetElectionTimer
  dsimp only
  split
  · exact ⟨_, rfl⟩
  · rename_i positive
    have drawn : intn ((startNode opts log).rnd 0)
        ((startNode opts log).electionTickMax - (startNode opts log).electionTickMin + 1) = .ok _ :=
      if_neg (Int64.not_le.mpr (timer.resolve_left positive))
    rw [drawn]
    exact ⟨_, rfl⟩

theorem Covers.newNode {fresh : Prop} {opts : Options} {l : Log}
    (covered : Covers fresh opts.persister.state opts.persister.snapshot l) (contiguous : l.Contiguous)
    (fits : l.rest.length + 1 < 2 ^ 63) :
    ∃ log : RawLog, log.Shows (l.above (opts.persister.snapshot.elim 0 Snapshot.lastIncludedIndex)
        (opts.persister.snapshot.elim 0 Snapshot.lastIncludedTerm)) ∧
      Machine.newNode opts = (startNode opts log).resetElectionTimer.bind fun n => .ok (.ok n) := by
  obtain ⟨suffix, loaded, items⟩ := covered.loaded contiguous (by omega)
  have short := List.length_filter_le (opts.persister.snapshot.elim 0 Snapshot.lastIncludedIndex < ·.index) l.rest
  have few : suffix.items.length ≤ l.rest.length := by
    rw [items]
    exact short
  obtain ⟨entries, joined, all⟩ :=
    (Slice.append_safe
      (Slice.single
        ⟨opts.persister.snapshot.elim 0 Snapshot.lastIncludedIndex,
          opts.persister.snapshot.elim 0 Snapshot.lastIncludedTerm, []⟩) suffix).result (by
      simp only [Slice.single, List.length_singleton]
      omega)
  refine ⟨⟨entries⟩, ?_, ?_⟩
  · rw [RawLog.Shows, all, items]
    rfl
  · simp only [Machine.newNode, loaded, newLogFromEntries, joined, ok_bind]
    rfl

theorem Node.Sound.restarts {fresh : Prop} {limit : Nat} {n : Node} (sound : n.Sound fresh limit) {opts : Options}
    (state : opts.persister.state = n.persister.state) (snapshot : opts.persister.snapshot = n.persister.snapshot) :
    ∃ (l : Log) (log : RawLog), n.log.Shows l ∧ l.Contiguous ∧ l.rest.length < 2 ^ 63 ∧
      Covers fresh opts.persister.state opts.persister.snapshot l ∧
      log.Shows (l.above (opts.persister.snapshot.elim 0 Snapshot.lastIncludedIndex)
        (opts.persister.snapshot.elim 0 Snapshot.lastIncludedTerm)) ∧
      newNode opts = (startNode opts log).resetElectionTimer.bind fun n => .ok (.ok n) := by
  obtain ⟨l, shown, contiguous, -, covered⟩ := sound.log
  rw [← state, ← snapshot] at covered
  have fits := shown.fits
  obtain ⟨log, shows', made⟩ := covered.newNode contiguous fits
  exact ⟨l, log, shown, contiguous, by omega, covered, shows', made⟩

/-- From an empty disk on, after any calls and whichever saves failed, the disk holds the term, the vote and the
entries of memory, and a snapshot as far as the boundary; a call that meets a failed save leaves the log and what was
applied as they were; and the disk can be started from. Calls come to an end as long as the log fits into memory. -/
theorem memory_on_disk {opts : Options} {n : Node} (unsaved : opts.persister.state = none)
    (unsnapped : opts.persister.snapshot = none) (made : newNode opts = .ok (.ok n)) (ops : List Operation) :
    (1 + System.offered ops < 2 ^ 63 → ∃ s, System.run ⟨n, []⟩ ops = .ok s) ∧
      ∀ s, System.run ⟨n, []⟩ ops = .ok s →
        (∃ boundary rest, s.node.log.entries.items = boundary :: rest.items ∧
          s.node.persister.state.getD ⟨0, "", .empty⟩ = ⟨s.node.currentTerm, s.node.votedFor, rest⟩ ∧
          (0 < boundary.index → ∃ snap, s.node.persister.snapshot = some snap ∧
            boundary.index ≤ snap.lastIncludedIndex)) ∧
        (∀ op next, s.step op = .ok next → s.node.persister.Failed next.node.persister → s.node.Steady next.node) ∧
        ∀ again : Options, again.persister.state = s.node.persister.state →
          again.persister.snapshot = s.node.persister.snapshot →
          (∀ error, newNode again ≠ .ok (.error error)) ∧
            (again.Starts → ∃ restarted, newNode again = .ok (.ok restarted)) := by
  have safe := (System.newNode_kept unsaved unsnapped made).run ops
  refine ⟨fun room => (safe.result room).imp fun s done => done.1, fun s done => ?_⟩
  rw [done] at safe
  have kept : s.Kept True (1 + System.offered ops) := safe
  refine ⟨?_, fun op next stepped failed => ?_, fun again state snapshot => ?_⟩
  · obtain ⟨l, shown, -, -, reached, entries⟩ := kept.sound.log
    have saved := entries.resolve_right fun more => more.1 trivial
    refine ⟨l.sentinel, s.node.persister.state.elim .empty PersistentState.log, by rw [saved]; exact shown, ?_, ?_⟩
    · have term := kept.sound.term
      have vote := kept.sound.vote
      cases state : s.node.persister.state with
      | none | some disk =>
        rw [state] at term vote
        exact (PersistentState.mk.injEq ..).mpr ⟨term, vote, rfl⟩
    · intro positive
      cases present : s.node.persister.snapshot with
      | none =>
        rw [present] at reached
        exact absurd positive (UInt64.not_lt.mpr reached)
      | some snap =>
        rw [present] at reached
        exact ⟨snap, rfl, reached⟩
  · have careful := kept.step op fun _ _ => trivial
    rw [stepped] at careful
    exact careful.2.resolve_left fun clean => clean.not_failed failed
  · obtain ⟨l, log, -, -, -, -, -, made⟩ := kept.sound.restarts state snapshot
    refine ⟨fun error refused => ?_, fun starts => ?_⟩
    · rcases set : (startNode again log).resetElectionTimer with fault | n
      · rw [made, set] at refused
        cases refused
      · rw [made, set] at refused
        cases refused
    · obtain ⟨n, set⟩ := starts.resets log
      exact ⟨n, by rw [made, set]; rfl⟩

/-- A follower that saves an entry of term one, and then meets a failing disk. -/
def failingOptions : Options := { trioOptions with persister := ⟨none, none, [false, false, true]⟩ }

def firstEntry : Operation := .handleAppendEntries ⟨1, "b", 0, 0, .single ⟨0, 1, [1]⟩, 0⟩

def conflictingEntries : Operation :=
  .handleAppendEntries ⟨1, "b", 0, 0, ⟨[⟨0, 2, [2]⟩, ⟨0, 2, [3]⟩], by decide⟩, 2⟩

/-- The conflicting entries replace the first one in memory, cannot be saved and are taken back; a disk that takes them
would have kept both and committed them. -/
theorem memory_on_disk_failing :
    ∃ n s next, newNode failingOptions = .ok (.ok n) ∧ System.run ⟨n, []⟩ [firstEntry] = .ok s ∧
      s.node.log.entries.items = [⟨0, 0, []⟩, ⟨1, 1, [1]⟩] ∧ s.step conflictingEntries = .ok next ∧
      s.node.persister.Failed next.node.persister ∧ s.node.Steady next.node ∧
      (∃ restarted, newNode { failingOptions with persister := next.node.persister } = .ok (.ok restarted)) ∧
      ∃ saving, System.step { s with node := { s.node with persister := { s.node.persister with faults := [] } } }
          conflictingEntries = .ok saving ∧
        saving.node.log.entries.items = [⟨0, 0, []⟩, ⟨1, 2, [2]⟩, ⟨2, 2, [3]⟩] ∧ saving.node.commitIndex = 2 := by
  obtain ⟨n, made⟩ : ∃ n, newNode failingOptions = .ok (.ok n) := ⟨_, rfl⟩
  have held := (memory_on_disk rfl rfl made [firstEntry]).2
  cases made
  refine ⟨_, _, _, rfl, rfl, rfl, rfl, ⟨[true], rfl, List.mem_singleton_self true⟩, ?_, ⟨_, rfl⟩, _, rfl, rfl, rfl⟩
  exact (held _ rfl).2.1 conflictingEntries _ rfl ⟨[true], rfl, List.mem_singleton_self true⟩

/-! ### The window between the save of a snapshot and the save of the log -/

/-- The nodes that calls, failed saves and restarts can lead to from an empty disk. -/
inductive System.Reachable : System → Prop where
  | started {opts : Options} {n : Node} (unsaved : opts.persister.state = none)
    (unsnapped : opts.persister.snapshot = none) (made : newNode opts = .ok (.ok n)) : Reachable ⟨n, []⟩
  | stepped {s next : System} {op : Operation} (earlier : Reachable s) (done : s.step op = .ok next) : Reachable next
  | restarted {s : System} {n : Node} {opts : Options} (earlier : Reachable s)
    (state : opts.persister.state = s.node.persister.state)
    (snapshot : opts.persister.snapshot = s.node.persister.snapshot) (made : newNode opts = .ok (.ok n)) :
    Reachable ⟨n, []⟩

theorem System.Kept.stepped {s next : System} {limit : Nat} (kept : s.Kept False limit) {op : Operation}
    (done : s.step op = .ok next) : ∃ more, next.Kept False more := by
  by_cases looks : ∀ start, op = .committedEntries start → False
  · have safe := kept.step op looks
    rw [done] at safe
    exact ⟨_, safe.1⟩
  · -- A look at the committed entries may panic after a restart, but it moves nothing.
    obtain ⟨start, same⟩ : ∃ start, op = .committedEntries start := by
      by_contra never
      exact looks fun start same => never ⟨start, same⟩
    subst same
    simp only [System.step] at done
    rcases seen : s.node.committedEntries start with fault | part
    · rw [seen] at done
      cases done
    · rw [seen] at done
      cases done
      exact ⟨limit, kept⟩

theorem Node.Sound.restarted {fresh : Prop} {limit : Nat} {n after : Node} (sound : n.Sound fresh limit)
    {opts : Options}
    (state : opts.persister.state = n.persister.state) (snapshot : opts.persister.snapshot = n.persister.snapshot)
    (made : newNode opts = .ok (.ok after)) :
    ∃ l : Log, n.log.Shows l ∧ l.Contiguous ∧
      after.log.Shows (l.above (opts.persister.snapshot.elim 0 Snapshot.lastIncludedIndex)
        (opts.persister.snapshot.elim 0 Snapshot.lastIncludedTerm)) ∧ ∃ more, after.Sound False more := by
  obtain ⟨l, log, shown, contiguous, fits, covered, shows', built⟩ := sound.restarts state snapshot
  rcases set : (startNode opts log).resetElectionTimer with fault | m
  · rw [built, set] at made
    cases made
  · rw [built, set] at made
    cases made
    have held := @Node.startNode_holds False after opts log _ shows' (contiguous.recovered fits covered.reached _)
      False.elim
      (covered.restart contiguous fits _) set
    have same : after.log = log := held.steady.log
    exact ⟨l, shown, contiguous, same ▸ shows', _, held.sound⟩

theorem System.Reachable.kept {s : System} (reachable : s.Reachable) : ∃ limit, s.Kept False limit := by
  induction reachable with
  | started unsaved unsnapped made => exact ⟨1, newNode_kept unsaved unsnapped made⟩
  | stepped _ done ih =>
    obtain ⟨limit, kept⟩ := ih
    exact kept.stepped done
  | restarted _ state snapshot made ih =>
    obtain ⟨limit, kept⟩ := ih
    obtain ⟨_, _, _, _, more, sound⟩ := kept.sound.restarted state snapshot made
    exact ⟨more, sound, fun _ present => absurd present List.not_mem_nil⟩

/-- A call that ends with `snap` on disk, beyond the boundary, and with the log it began with: its save
of the snapshot went through and its save of the log did not. -/
structure SnapshotOnly (n after : Node) (snap : Snapshot) : Prop where
  saved : after.persister.snapshot = some snap
  ahead : ∀ boundary, n.log.entries.items[0]? = some boundary → boundary.index < snap.lastIncludedIndex
  log : after.log = n.log

end Machine

namespace Log

variable {l : Log}

/-- Dropping by index gives what `installSnapshotBoundary` gives just if the log agrees with the snapshot and does not
wrap around behind it, or does not agree and has nothing above it. -/
theorem above_eq_boundary (contiguous : l.Contiguous) (fits : l.rest.length < 2 ^ 63) {index term : UInt64}
    (ahead : l.sentinel.index < index) :
    l.above index term = l.installSnapshotBoundary index term ↔
      l.termAt index = some term ∧ index ≤ l.lastIndex ∨ l.termAt index ≠ some term ∧
      ∀ e ∈ l.rest, e.index ≤ index := by
  have low := UInt64.lt_iff_toNat_lt.mp ahead
  have top := index.toNat_lt
  unfold above installSnapshotBoundary
  by_cases agrees : l.termAt index = some term
  · have inside := (termAt_slot (Option.isSome_iff_exists.mpr ⟨term, agrees⟩)).2
    rw [UInt64.toNat_sub_of_le _ _ (UInt64.le_of_lt ahead), entries, List.length_cons] at inside
    have last : l.lastIndex.toNat = (l.sentinel.index.toNat + l.rest.length) % 2 ^ 64 := by
      have moved : l.lastIndex = l.sentinel.index + UInt64.ofNat l.rest.length := by
        rw [lastIndex, entries, List.length_cons, UInt64.ofNat_add, ← UInt64.add_assoc]
        exact UInt64.add_sub_cancel _ 1
      rw [moved, UInt64.toNat_add, UInt64.toNat_ofNat', Nat.add_mod_mod]
    have cut : l.rest.filter (index < ·.index) = l.rest.drop (index.toNat - l.sentinel.index.toNat) ↔
        l.sentinel.index.toNat + l.rest.length < 2 ^ 64 := by
      rw [contiguous.filter_above fits (UInt64.le_of_lt ahead)]
      constructor
      · intro same
        have lengths := congrArg List.length same
        rw [List.length_drop, List.length_drop, List.length_take] at lengths
        omega
      · intro room
        rw [List.take_of_length_le (by omega)]
    have offset := UInt64.toNat_sub_of_le _ _ (UInt64.le_of_lt ahead)
    rw [if_pos agrees, or_iff_left fun other => other.1 agrees, and_iff_right agrees, mk.injEq, and_iff_right rfl,
      entries, List.drop_succ_cons, offset, cut, UInt64.le_iff_toNat_le, last]
    omega
  · rw [if_neg agrees, or_iff_right fun other => agrees other.1, and_iff_right agrees, mk.injEq, and_iff_right rfl,
      List.filter_eq_nil_iff]
    simp only [decide_eq_true_iff, UInt64.not_lt]

end Log

namespace Machine

open Checked

/-- A restart in the crash window always succeeds, and it reconstructs the log that the running node would have
installed just when the old log agrees with the snapshot and does not wrap around behind it, or has nothing above it.
-/
theorem crash_window_log {s next : System} (reachable : s.Reachable) {op : Operation} (done : s.step op = .ok next)
    {snap : Snapshot} (window : SnapshotOnly s.node next.node snap) {opts : Options} (starts : opts.Starts)
    (state : opts.persister.state = next.node.persister.state)
    (snapshot : opts.persister.snapshot = next.node.persister.snapshot) :
    ∃ l restarted installed, s.node.log.Shows l ∧ newNode opts = .ok (.ok restarted) ∧
      s.node.log.installSnapshotBoundary snap.lastIncludedIndex snap.lastIncludedTerm = .ok installed ∧
      (restarted.log = installed ↔
        l.termAt snap.lastIncludedIndex = some snap.lastIncludedTerm ∧ snap.lastIncludedIndex ≤ l.lastIndex ∨
          l.termAt snap.lastIncludedIndex ≠ some snap.lastIncludedTerm ∧
          ∀ e ∈ l.rest, e.index ≤ snap.lastIncludedIndex) := by
  obtain ⟨limit, kept⟩ := (System.Reachable.stepped reachable done).kept
  obtain ⟨_, log, _, _, _, _, _, built⟩ := kept.sound.restarts state snapshot
  obtain ⟨restarted, set⟩ := starts.resets log
  have made : newNode opts = .ok (.ok restarted) := by
    rw [built, set]
    rfl
  obtain ⟨l, shown, contiguous, shows', -⟩ := kept.sound.restarted state snapshot made
  rw [window.log] at shown
  rw [snapshot, window.saved] at shows'
  obtain ⟨installed, moved, boundary, -⟩ := shown.installSnapshotBoundary snap.lastIncludedIndex snap.lastIncludedTerm
  refine ⟨l, restarted, installed, shown, made, moved, ?_⟩
  have ahead := window.ahead l.sentinel (by rw [shown]; rfl)
  have fits := shown.fits
  rw [← Log.above_eq_boundary contiguous (by omega) ahead]
  constructor
  · rintro rfl
    exact shows'.unique boundary
  · intro same
    have items : restarted.log.entries.items = installed.entries.items :=
      shows'.trans ((congrArg Log.entries same).trans boundary.symm)
    obtain ⟨entries⟩ := installed
    exact congrArg RawLog.mk (Slice.ext items)

/-- A follower with three entries of term one, whose disk fails at the fifth save. -/
def staleOptions : Options := { trioOptions with persister := ⟨none, none, [false, false, false, false, true]⟩ }

def staleEntries : Operation :=
  .handleAppendEntries ⟨1, "b", 0, 0, ⟨[⟨0, 1, [1]⟩, ⟨0, 1, [2]⟩, ⟨0, 1, [3]⟩], by decide⟩, 0⟩

def snapshotAtTwo (lastIncludedTerm : UInt64) : Operation :=
  .handleInstallSnapshot ⟨2, "c", 2, lastIncludedTerm, .single 9, false, 0, false, 0, 0⟩

/-- Where the terms agree, the third entry survives the crash as it would have survived the call. -/
theorem crash_window_log_agreeing :
    ∃ n s next restarted, newNode staleOptions = .ok (.ok n) ∧ System.step ⟨n, []⟩ staleEntries = .ok s ∧
      s.step (snapshotAtTwo 1) = .ok next ∧
      newNode { staleOptions with persister := next.node.persister } = .ok (.ok restarted) ∧
      s.node.log.installSnapshotBoundary 2 1 = .ok restarted.log := by
  obtain ⟨n, made⟩ : ∃ n, newNode staleOptions = .ok (.ok n) := ⟨_, rfl⟩
  obtain ⟨s, filled⟩ : ∃ s, System.step ⟨n, []⟩ staleEntries = .ok s := by
    cases made
    exact ⟨_, rfl⟩
  have shown : s.node.log.Shows ⟨⟨0, 0, []⟩, [⟨1, 1, [1]⟩, ⟨2, 1, [2]⟩, ⟨3, 1, [3]⟩]⟩ := by
    cases made
    cases filled
    rfl
  obtain ⟨next, done, window⟩ : ∃ next, s.step (snapshotAtTwo 1) = .ok next ∧
      SnapshotOnly s.node next.node ⟨2, 1, .single 9⟩ := by
    cases made
    cases filled
    refine ⟨_, rfl, rfl, fun boundary found => ?_, rfl⟩
    cases found
    decide
  have reachable := System.Reachable.stepped (.started rfl rfl made) filled
  have starts : Options.Starts { staleOptions with persister := next.node.persister } := by
    unfold Options.Starts
    dsimp only
    exact ⟨_, rfl⟩
  obtain ⟨l, restarted, installed, shown', begun, moved, same⟩ := crash_window_log reachable done window starts rfl rfl
  obtain rfl := shown'.unique shown
  exact ⟨n, s, next, restarted, made, filled, done, begun, by rw [same.mpr (Or.inl (by decide))]; exact moved⟩

/-- Where they do not, the call would have emptied the log, and the restart keeps the stale third entry. -/
theorem crash_window_keeps_stale :
    ∃ n s next restarted, newNode staleOptions = .ok (.ok n) ∧ System.step ⟨n, []⟩ staleEntries = .ok s ∧
      s.step (snapshotAtTwo 2) = .ok next ∧ SnapshotOnly s.node next.node ⟨2, 2, .single 9⟩ ∧
      s.node.log.installSnapshotBoundary 2 2 = .ok ⟨.single ⟨2, 2, []⟩⟩ ∧
      newNode { staleOptions with persister := next.node.persister } = .ok (.ok restarted) ∧
      restarted.log.entries.items = [⟨2, 2, []⟩, ⟨3, 1, [3]⟩] := by
  refine ⟨_, _, _, _, rfl, rfl, rfl, ⟨rfl, fun boundary found => ?_, rfl⟩, rfl, rfl, rfl⟩
  cases found
  decide

end Machine

end ForgeDB.Raft.Words
