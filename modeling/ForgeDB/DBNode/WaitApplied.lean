import ForgeDB.DBNode.Acknowledged

/-!
Waiting for the applier. All callers of `WaitApplied` on a node share the one slot of `AppliedCh`. A caller that
is behind blocks on the channel and checks again after a wake-up. The applier fills the slot when it moves
`LastApplied`, and whoever receives first empties it.
-/

namespace ForgeDB

namespace Raft.Node

/-- What the applier reports: how far it is, and whether a wake-up is in the slot. -/
def progress (n : Node) : Nat × Bool := (n.lastApplied, n.appliedCh)

theorem progress_of_kept {n after : Node} (same : after.kept = n.kept) : after.progress = n.progress :=
  congrArg (fun k => (k.lastApplied, k.appliedCh)) same

theorem Handled.progress {n after : Node} {args : InstallSnapshotArgs} {success : Bool}
    (handled : n.Handled args after success) : after.progress = n.progress := by
  rw [show after.progress = (after.kept.lastApplied, after.kept.appliedCh) from rfl]
  cases handled with
  | refused kept | covered _ _ kept => rcases kept with kept | kept <;> rw [kept] <;> rfl
  | extended _ _ _ _ _ kept | saved _ _ _ _ kept | adopted _ _ _ _ kept => rw [kept]; rfl

theorem perform_progress (n : Node) (op : Operation) :
    (n.perform op).progress = n.progress ∨ (n.perform op).appliedCh = true := by
  cases op with
  | tick => exact Or.inl (progress_of_kept n.tick_kept)
  | handleRequestVote args => exact Or.inl (progress_of_kept (n.handleRequestVote_kept args))
  | handleAppendEntries args =>
    obtain ⟨rest, same⟩ := n.handleAppendEntries_kept args
    exact Or.inl (congrArg (fun k => (k.lastApplied, k.appliedCh)) same)
  | handleInstallSnapshot args => exact Or.inl (n.handleInstallSnapshot_handled args).progress
  | resume call reply => exact Or.inl (progress_of_kept (n.resume_kept call reply))
  | propose command =>
    rcases n.propose_kept command with same | ⟨_, same⟩
    · exact Or.inl (progress_of_kept same)
    · exact Or.inl (congrArg (fun k => (k.lastApplied, k.appliedCh)) same)
  | createSnapshot index data =>
    rcases n.createSnapshot_kept index data with same | ⟨_, _, _, _, same | same⟩
    · exact Or.inl (progress_of_kept same)
    · exact Or.inl (congrArg (fun k => (k.lastApplied, k.appliedCh)) same)
    · exact Or.inl (congrArg (fun k => (k.lastApplied, k.appliedCh)) same)
  | markApplied index =>
    simp only [perform]
    rcases n.markApplied_cases index with ⟨_, _, marked⟩ | ⟨error, refused⟩
    · rw [marked]
      exact Or.inr rfl
    · rw [refused]
      exact Or.inl rfl
  | confirmSnapshotRestored index =>
    simp only [perform, confirmSnapshotRestored]
    split
    · exact Or.inl rfl
    split
    · exact Or.inl rfl
    split
    · exact Or.inr rfl
    · exact Or.inl rfl

end Raft.Node

namespace DBNode

open Raft (Node Options Operation newNode)

/-- Where a call of `WaitApplied` stands: before its check, in its select, or returned with whether it
succeeded. -/
inductive WaitPhase where
  | checking
  | blocked
  | returned (ok : Bool)
  deriving DecidableEq

structure Caller where
  target : Nat
  phase : WaitPhase
  deriving DecidableEq

structure Waiting where
  node : Node
  callers : List Caller

/-- `cancel` is the end of a caller's context, and `node` any call of the node's own methods, those of
the applier included. -/
inductive WaitAction where
  | call (target : Nat)
  | check (caller : Nat)
  | receive (caller : Nat)
  | cancel (caller : Nat)
  | node (op : Operation)

namespace Waiting

def advance (s : Waiting) (i : Nat) (phase : WaitPhase) (next : Caller → Option Waiting) : Option Waiting :=
  match s.callers[i]? with
  | none => none
  | some caller => if caller.phase = phase then next caller else none

def set (s : Waiting) (i : Nat) (caller : Caller) : Waiting := { s with callers := s.callers.set i caller }

def step (s : Waiting) : WaitAction → Option Waiting
  | .call target => some { s with callers := s.callers ++ [⟨target, .checking⟩] }
  | .check i => s.advance i .checking fun caller =>
    some (s.set i { caller with phase := if waitApplied s.node caller.target then .returned true else .blocked })
  | .receive i => s.advance i .blocked fun caller =>
    if s.node.appliedCh then
      some ({ s with node := { s.node with appliedCh := false } }.set i { caller with phase := .checking })
    else none
  | .cancel i => s.advance i .blocked fun caller => some (s.set i { caller with phase := .returned false })
  | .node op => some { s with node := s.node.perform op }

inductive Run (allowed : Waiting → WaitAction → Prop) : Waiting → Prop where
  | start {opts : Options} {n : Node} (started : newNode opts = .ok n) : Run allowed ⟨n, []⟩
  | step {s after : Waiting} {action : WaitAction} (before : Run allowed s) (admitted : allowed s action)
    (taken : s.step action = some after) : Run allowed after

def Reachable : Waiting → Prop := Run fun _ _ => True

/-- A wake-up is received only by a caller that is the last one whose target has been applied. -/
def Heeded (s : Waiting) : WaitAction → Prop
  | .receive i => ∀ caller ∈ s.callers.eraseIdx i, caller.phase = .blocked → s.node.lastApplied < caller.target
  | _ => True

instance (s : Waiting) (action : WaitAction) : Decidable (s.Heeded action) := by
  cases action <;> unfold Heeded <;> infer_instance

structure Quiet (s : Waiting) : Prop where
  check : ∀ i, s.step (.check i) = none
  receive : ∀ i, s.step (.receive i) = none
  marked : ∀ index, (s.node.markApplied index).2 ≠ .ok ()
  confirmed : ∀ index, (s.node.confirmSnapshotRestored index).2 ≠ .ok ()

/-- A caller that sleeps although its target has been applied has a wake-up waiting for it. -/
def Awake (s : Waiting) : Prop :=
  ∀ caller ∈ s.callers, caller.phase = .blocked → waitApplied s.node caller.target = true → s.node.appliedCh = true

theorem advance_eq_some {s after : Waiting} {i : Nat} {phase : WaitPhase} {next : Caller → Option Waiting}
    (moved : s.advance i phase next = some after) :
    ∃ caller, s.callers[i]? = some caller ∧ caller.phase = phase ∧ next caller = some after := by
  unfold advance at moved
  split at moved
  · cases moved
  rename_i caller found
  split at moved
  · rename_i inside
    exact ⟨caller, found, inside, moved⟩
  · cases moved

theorem mem_set {s : Waiting} {i : Nat} {moved caller : Caller} (present : caller ∈ (s.set i moved).callers) :
    caller = moved ∨ caller ∈ s.callers.eraseIdx i := by
  obtain ⟨j, found⟩ := List.mem_iff_getElem?.mp present
  simp only [set, List.getElem?_set] at found
  split at found
  · split at found
    · exact Or.inl (Option.some.inj found).symm
    · cases found
  · rename_i other
    exact Or.inr (List.mem_eraseIdx_iff_getElem?.mpr ⟨j, fun same => other same.symm, found⟩)

theorem Awake.set {s : Waiting} (awake : s.Awake) {i : Nat} {moved : Caller}
    (settled : moved.phase = .blocked → waitApplied s.node moved.target = false) : (s.set i moved).Awake := by
  intro caller present blocked reached
  rcases mem_set present with rfl | other
  · exact absurd reached (Bool.eq_false_iff.mp (settled blocked))
  · exact awake caller (List.mem_of_mem_eraseIdx other) blocked reached

theorem Awake.step {s after : Waiting} {action : WaitAction} (awake : s.Awake) (heeded : s.Heeded action)
    (taken : s.step action = some after) : after.Awake := by
  cases action with
  | call target =>
    cases taken
    intro caller present blocked reached
    rcases List.mem_append.mp present with old | new
    · exact awake caller old blocked reached
    · rw [List.mem_singleton.mp new] at blocked
      cases blocked
  | check i =>
    obtain ⟨caller, found, phase, moved⟩ := advance_eq_some taken
    cases moved
    refine awake.set fun blocked => ?_
    dsimp only at blocked
    split at blocked
    · cases blocked
    · rename_i behind
      exact Bool.eq_false_iff.mpr behind
  | receive i =>
    obtain ⟨caller, found, phase, moved⟩ := advance_eq_some taken
    split at moved
    · cases moved
      intro other present blocked reached
      rcases mem_set present with rfl | rest
      · cases blocked
      -- The slot is empty now, so it matters that nobody else was waiting for this wake-up.
      · exact absurd (of_decide_eq_true reached) (Nat.not_le_of_lt (heeded other rest blocked))
    · cases moved
  | cancel i =>
    obtain ⟨caller, found, phase, moved⟩ := advance_eq_some taken
    cases moved
    exact awake.set fun blocked => by cases blocked
  | node op =>
    cases taken
    intro caller present blocked reached
    rcases s.node.perform_progress op with same | full
    · have applied : (s.node.perform op).lastApplied = s.node.lastApplied := congrArg Prod.fst same
      have slot : (s.node.perform op).appliedCh = s.node.appliedCh := congrArg Prod.snd same
      rw [slot]
      refine awake caller present blocked ?_
      simp only [waitApplied, applied] at reached
      exact reached
    · exact full

theorem Run.awake {s : Waiting} (run : Run Heeded s) : s.Awake := by
  induction run with
  | start => exact fun _ present => absurd present List.not_mem_nil
  | step _ heeded taken ih => exact ih.step heeded taken

def exec (allowed : Waiting → WaitAction → Prop) [∀ s action, Decidable (allowed s action)] (s : Waiting) :
    List WaitAction → Option Waiting
  | [] => some s
  | action :: actions => if allowed s action then (s.step action).bind (exec allowed · actions) else none

theorem Run.exec {allowed : Waiting → WaitAction → Prop} [∀ s action, Decidable (allowed s action)]
    {actions : List WaitAction} {s after : Waiting} (run : Run allowed s)
    (done : s.exec allowed actions = some after) : Run allowed after := by
  induction actions generalizing s with
  | nil =>
    cases done
    exact run
  | cons action actions ih =>
    simp only [Waiting.exec] at done
    split at done
    · rename_i admitted
      obtain ⟨next, taken, rest⟩ := Option.bind_eq_some_iff.mp done
      exact ih (run.step admitted taken) rest
    · cases done

theorem quiet_of_applied {s : Waiting} (settled : ∀ caller ∈ s.callers, caller.phase ≠ .checking)
    (empty : s.node.appliedCh = false) (applied : s.node.commitIndex ≤ s.node.lastApplied)
    (restored : s.node.pendingSnapshot = none) : s.Quiet where
  check i := by
    refine Option.eq_none_iff_forall_ne_some.mpr fun after taken => ?_
    obtain ⟨caller, found, phase, _⟩ := advance_eq_some taken
    exact settled caller (List.mem_of_getElem? found) phase
  receive i := by
    refine Option.eq_none_iff_forall_ne_some.mpr fun after taken => ?_
    obtain ⟨caller, found, phase, moved⟩ := advance_eq_some taken
    rw [empty] at moved
    cases moved
  marked index := by
    rcases s.node.markApplied_cases index with ⟨above, below, _⟩ | ⟨error, refused⟩
    · omega
    · rw [refused]
      exact nofun
  confirmed index := by
    rcases s.node.confirmSnapshotRestored_cases index with ⟨snap, pending, _⟩ | ⟨error, refused⟩
    · rw [restored] at pending
      cases pending
    · rw [refused]
      exact nofun

/-- If every wake-up goes to the last caller it was for, a quiet node has left nobody asleep. -/
theorem nobody_left_asleep {s : Waiting} (run : Run Heeded s) (quiet : s.Quiet) :
    ∀ caller ∈ s.callers, caller.phase = .blocked → s.node.lastApplied < caller.target := by
  intro caller present blocked
  by_contra reached
  have full := run.awake caller present blocked (decide_eq_true (Nat.le_of_not_lt reached))
  obtain ⟨i, found⟩ := List.mem_iff_getElem?.mp present
  have stuck := quiet.receive i
  simp only [step, advance, found, blocked, full, if_true] at stuck
  cases stuck

/-- A node on its own, and two callers that wait for the first entry and for `target`. The entry is
committed and applied while both sleep, and the first caller takes the wake-up. -/
def oneWakeUp (target : Nat) : List WaitAction :=
  [.node .tick, .call 1, .call target, .check 0, .check 1, .node (.propose [7]), .node (.markApplied 1),
    .receive 0, .check 0]

def alone : Waiting := ⟨(newNode (Raft.Cluster.bootOptions ["a"] 1 "a")).toOption.getD default, []⟩

theorem alone_run (allowed : Waiting → WaitAction → Prop) : Run allowed alone :=
  .start (show newNode (Raft.Cluster.bootOptions ["a"] 1 "a") = .ok alone.node from rfl)

def slept (target : Nat) : Waiting := (alone.exec (fun _ _ => True) (oneWakeUp target)).getD alone

/-- The second caller waits for an entry that does not exist yet, as it should. -/
theorem nobody_left_asleep_second :
    Run Heeded (slept 2) ∧ (slept 2).Quiet ∧ (slept 2).callers = [⟨1, .returned true⟩, ⟨2, .blocked⟩] ∧
      (slept 2).node.lastApplied < 2 := by
  have run : Run Heeded (slept 2) :=
    (alone_run Heeded).exec (show alone.exec Heeded (oneWakeUp 2) = some (slept 2) from rfl)
  have quiet : (slept 2).Quiet :=
    quiet_of_applied (by decide) (by decide) (by decide) (by decide)
  exact ⟨run, quiet, by decide, nobody_left_asleep run quiet ⟨2, .blocked⟩ (by decide) rfl⟩

/-- The second caller waits for the same entry, and nothing will wake it. -/
theorem second_left_asleep :
    (slept 1).Reachable ∧ (slept 1).Quiet ∧ ⟨1, .blocked⟩ ∈ (slept 1).callers ∧ 1 ≤ (slept 1).node.lastApplied :=
  ⟨(alone_run _).exec (show alone.exec _ (oneWakeUp 1) = some (slept 1) from rfl),
    quiet_of_applied (by decide) (by decide) (by decide) (by decide),
    by decide, by decide⟩

end Waiting

end DBNode

end ForgeDB
