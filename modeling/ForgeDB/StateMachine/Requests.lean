import ForgeDB.StateMachine.Snapshot

/-!
Which requests a state machine carries out. Its table remembers each client's last request, and a request is
carried out only above the remembered one. So whatever is retried or reordered, and whichever store calls fail,
no request is carried out twice, and the pairs are what the carried out requests leave.
-/

namespace ForgeDB.StateMachine

structure Execution where
  cmd : Command
  result : Result
  deriving DecidableEq, Repr

def Execution.entry (e : Execution) : DedupEntry :=
  ⟨e.cmd.requestID, e.cmd.op, e.cmd.key, e.cmd.value, e.result⟩

def Contents.after (state : Contents) (e : Execution) : Contents :=
  ⟨e.cmd.effect state.table, state.dedup.insert e.cmd.clientID e.entry⟩

instance (sm : KVStateMachine) (cmd : Command) : Decidable (sm.Behind cmd) :=
  inferInstanceAs (Decidable (∀ prev ∈ sm.dedup.get? cmd.clientID, prev.requestID < cmd.requestID))

namespace KVStateMachine

theorem apply_contents (sm : KVStateMachine) (cmd : Command) :
    (sm.Behind cmd ∧ (sm.apply cmd).2 = .ok cmd.outcome ∧
        (sm.apply cmd).1.contents = sm.contents.after ⟨cmd, cmd.outcome⟩) ∨
      (sm.Behind cmd ∧ (∃ error, (sm.apply cmd).2 = .error error) ∧ (sm.apply cmd).1.contents = sm.contents) ∨
      ¬sm.Behind cmd ∧ ∃ result, sm.apply cmd = (sm, .ok result) := by
  rcases sm.apply_cases cmd with ⟨behind, same⟩ | ⟨prev, result, known, below, same, _⟩
  · rcases sm.record_cases cmd with ⟨later, error, recorded⟩ | ⟨later, recorded⟩
    · rw [same, recorded]
      exact Or.inr (Or.inl ⟨behind, ⟨error, rfl⟩, rfl⟩)
    · rw [same, recorded]
      exact Or.inl ⟨behind, rfl, rfl⟩
  · exact Or.inr (Or.inr ⟨fun behind => UInt64.not_lt.mpr below (behind prev known), result, same⟩)

end KVStateMachine

def ofClient (client : Bytes) (executed : List Execution) : List Execution :=
  executed.filter fun e => e.cmd.clientID == client

theorem foldl_after_dedup (executed : List Execution) (state : Contents) (client : Bytes) :
    (executed.foldl Contents.after state).dedup.get? client =
      ((ofClient client executed).getLast?.map Execution.entry).or (state.dedup.get? client) := by
  induction executed generalizing state with
  | nil => rfl
  | cons e more ih =>
    rw [List.foldl_cons, ih, ofClient, ofClient, Contents.after, SortedMap.get?_insert, List.filter_cons]
    by_cases here : e.cmd.clientID = client
    · simp only [here, beq_self_eq_true, if_true, List.getLast?_cons]
      cases (more.filter fun e => e.cmd.clientID == client).getLast? <;> rfl
    · have apart : ¬client = e.cmd.clientID := fun same => here same.symm
      simp only [beq_eq_false_iff_ne.mpr here, apart, if_false, Bool.false_eq_true]

theorem foldl_after_table (executed : List Execution) (state : Contents) :
    (executed.foldl Contents.after state).table =
      executed.foldl (fun table e => e.cmd.effect table) state.table := by
  induction executed generalizing state with
  | nil => rfl
  | cons e more ih =>
    rw [List.foldl_cons, ih]
    rfl

def Ascending (executed : List Execution) : Prop :=
  executed.Pairwise fun earlier later =>
    earlier.cmd.clientID = later.cmd.clientID → earlier.cmd.requestID < later.cmd.requestID

theorem Ascending.le_last {executed : List Execution} (ascending : Ascending executed) {client : Bytes}
    {e last : Execution} (present : e ∈ executed) (owner : e.cmd.clientID = client)
    (final : (ofClient client executed).getLast? = some last) : e.cmd.requestID ≤ last.cmd.requestID := by
  have member : e ∈ ofClient client executed := List.mem_filter.mpr ⟨present, beq_iff_eq.mpr owner⟩
  have sorted := List.Pairwise.filter (fun e : Execution => e.cmd.clientID == client) ascending
  obtain ⟨front, split⟩ := List.getLast?_eq_some_iff.mp final
  have lastOwner : last.cmd.clientID = client := by
    have there : last ∈ ofClient client executed := by
      rw [split]
      exact List.mem_append_right front (List.mem_singleton_self last)
    exact beq_iff_eq.mp (List.mem_filter.mp there).2
  rw [split] at member
  rw [show executed.filter _ = _ from split, List.pairwise_append] at sorted
  rcases List.mem_append.mp member with earlier | here
  · exact UInt64.le_of_lt (sorted.2.2 e earlier last (List.mem_singleton_self last) (owner.trans lastOwner.symm))
  · exact UInt64.le_of_eq (by rw [List.mem_singleton.mp here])

structure Accounts (executed : List Execution) (state : Contents) : Prop where
  contents : state = executed.foldl Contents.after Contents.empty
  ascending : Ascending executed
  known : state.Known

namespace Accounts

variable {executed : List Execution} {sm : KVStateMachine}

theorem start (faults : List Bool) : Accounts [] (newKVStateMachine ⟨SortedMap.empty, faults⟩).contents :=
  ⟨rfl, List.Pairwise.nil, fun _ present => absurd present List.not_mem_nil⟩

theorem get?_eq (accounts : Accounts executed sm.contents) (client : Bytes) :
    sm.dedup.get? client = (ofClient client executed).getLast?.map Execution.entry := by
  have table : sm.dedup = (executed.foldl Contents.after Contents.empty).dedup :=
    congrArg Contents.dedup accounts.contents
  rw [table, foldl_after_dedup]
  exact Option.or_none

theorem behind {cmd : Command} (accounts : Accounts executed sm.contents) (behind : sm.Behind cmd) :
    ∀ e ∈ executed, e.cmd.clientID = cmd.clientID → e.cmd.requestID < cmd.requestID := by
  intro e present owner
  have remembered := accounts.get?_eq cmd.clientID
  cases final : (ofClient cmd.clientID executed).getLast? with
  | none =>
    have member : e ∈ ofClient cmd.clientID executed := List.mem_filter.mpr ⟨present, beq_iff_eq.mpr owner⟩
    rw [List.getLast?_eq_none_iff.mp final] at member
    cases member
  | some last =>
    rw [final, Option.map_some] at remembered
    exact UInt64.lt_of_le_of_lt (accounts.ascending.le_last present owner final) (behind _ remembered)

theorem carriedOut {cmd : Command} (accounts : Accounts executed sm.contents) (behind : sm.Behind cmd)
    (moved : (sm.apply cmd).1.contents = sm.contents.after ⟨cmd, cmd.outcome⟩) :
    Accounts (executed ++ [⟨cmd, cmd.outcome⟩]) (sm.apply cmd).1.contents where
  contents := by
    rw [moved, List.foldl_append, ← accounts.contents]
    rfl
  ascending := by
    refine List.pairwise_append.mpr ⟨accounts.ascending, List.pairwise_singleton _ _, fun e present last here => ?_⟩
    rw [List.mem_singleton.mp here]
    exact accounts.behind behind e present
  known := KVStateMachine.apply_keeps_known accounts.known cmd

theorem replays (accounts : Accounts executed sm.contents) {before after : List Execution} {e : Execution}
    (split : executed = before ++ e :: after) (latest : ∀ later ∈ after, later.cmd.clientID ≠ e.cmd.clientID) :
    sm.apply e.cmd = (sm, .ok { e.result with replayed := true }) := by
  have final : (ofClient e.cmd.clientID executed).getLast? = some e := by
    have none : after.filter (fun other => other.cmd.clientID == e.cmd.clientID) = [] :=
      List.filter_eq_nil_iff.mpr (fun later present => by simpa only [beq_iff_eq] using latest later present)
    rw [split, ofClient, List.filter_append, List.filter_cons, beq_self_eq_true, if_pos rfl, none]
    exact List.getLast?_concat
  have remembered := accounts.get?_eq e.cmd.clientID
  rw [final, Option.map_some] at remembered
  have same : e.entry.matches e.cmd = true := by
    simp only [DedupEntry.matches, Execution.entry, beq_self_eq_true, Bool.and_self]
  simp only [KVStateMachine.apply, remembered, same]
  rw [if_pos (show e.cmd.requestID = e.entry.requestID from rfl)]
  rfl

end Accounts

structure Run where
  machine : KVStateMachine
  executed : List Execution

/-- A command is handed to `apply`, for the first time or again, or the machine is replaced by one that
was made anew over some store and restored from its snapshot. -/
inductive Event where
  | apply (cmd : Command)
  | restore (store : MemStore)

namespace Run

def start (faults : List Bool) : Run := ⟨newKVStateMachine ⟨SortedMap.empty, faults⟩, []⟩

/-- `apply` goes on to `execute` when the request is above the remembered one; a snapshot that cannot be
made or restored replaces nothing. -/
def step (r : Run) : Event → Run
  | .apply cmd =>
    match r.machine.apply cmd with
    | (machine, .error _) => ⟨machine, r.executed⟩
    | (machine, .ok result) =>
      ⟨machine, if r.machine.Behind cmd then r.executed ++ [⟨cmd, result⟩] else r.executed⟩
  | .restore store =>
    match r.machine.createSnapshot with
    | .error _ => r
    | .ok data =>
      match (newKVStateMachine store).restoreSnapshot data with
      | (_, .error _) => r
      | (machine, .ok _) => ⟨machine, r.executed⟩

def steps (r : Run) (events : List Event) : Run := events.foldl step r

theorem step_accounts {r : Run} (accounts : Accounts r.executed r.machine.contents) (event : Event) :
    Accounts (r.step event).executed (r.step event).machine.contents := by
  cases event with
  | apply cmd =>
    have carriedOut := @Accounts.carriedOut _ _ cmd accounts
    have shape := r.machine.apply_contents cmd
    rcases ran : r.machine.apply cmd with ⟨machine, outcome⟩
    rw [ran] at shape carriedOut
    rcases shape with ⟨behind, rfl, moved⟩ | ⟨_, ⟨error, rfl⟩, same⟩ | ⟨answered, result, same⟩
    · simp only [step, ran, if_pos behind]
      exact carriedOut behind moved
    · simp only [step, ran]
      exact same ▸ accounts
    · cases same
      simp only [step, ran, if_neg answered]
      exact accounts
  | restore store =>
    simp only [step]
    split
    · exact accounts
    · rename_i data created
      split
      · exact accounts
      · rename_i machine restored
        exact (KVStateMachine.restoreSnapshot_contents accounts.known created restored) ▸ accounts

theorem steps_accounts {r : Run} (accounts : Accounts r.executed r.machine.contents) (events : List Event) :
    Accounts (r.steps events).executed (r.steps events).machine.contents := by
  induction events generalizing r with
  | nil => exact accounts
  | cons event more ih => exact ih (step_accounts accounts event)

/-- In every run from the empty machine, each client's requests are carried out in ascending order, the
pairs are what these executions leave, and a client's latest request, handed in again, returns its first
result marked as replayed and changes nothing. -/
theorem executed_once (faults : List Bool) (events : List Event) :
    Ascending ((start faults).steps events).executed ∧
      ((start faults).steps events).machine.store.table =
        ((start faults).steps events).executed.foldl (fun table e => e.cmd.effect table) SortedMap.empty ∧
      ∀ before after e, ((start faults).steps events).executed = before ++ e :: after →
        (∀ later ∈ after, later.cmd.clientID ≠ e.cmd.clientID) →
        ((start faults).steps events).machine.apply e.cmd =
          (((start faults).steps events).machine, .ok { e.result with replayed := true }) := by
  have accounts := @steps_accounts (start faults) (Accounts.start faults) events
  refine ⟨accounts.ascending, ?_, fun before after e split latest => accounts.replays split latest⟩
  exact (congrArg Contents.table accounts.contents).trans (foldl_after_table _ Contents.empty)

/-- A write whose first attempt fails in the store and that is handed in again after a snapshot. -/
theorem executed_once_retried :
    ((start [true]).steps [.apply (newPutCommand [99] 7 [1] [2]), .apply (newPutCommand [99] 7 [1] [2]),
        .restore ⟨SortedMap.empty, []⟩]).machine.apply (newPutCommand [99] 7 [1] [2]) =
      (((start [true]).steps [.apply (newPutCommand [99] 7 [1] [2]), .apply (newPutCommand [99] 7 [1] [2]),
        .restore ⟨SortedMap.empty, []⟩]).machine, .ok ⟨true, true, [1], [2], none⟩) :=
  (executed_once [true] [.apply (newPutCommand [99] 7 [1] [2]), .apply (newPutCommand [99] 7 [1] [2]),
    .restore ⟨SortedMap.empty, []⟩]).2.2 [] [] ⟨newPutCommand [99] 7 [1] [2], ⟨true, false, [1], [2], none⟩⟩
    (by decide +kernel) (fun _ present => absurd present List.not_mem_nil)

end Run

end ForgeDB.StateMachine
