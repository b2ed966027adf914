import ForgeDB.Data.SortedMap
import ForgeDB.StateMachine.Command

/-!
The key/value state machine: a store that may fail before it changes anything, and a table of
each client's last request, which turns retries into replayed results and late requests into
errors.
-/

namespace ForgeDB.StateMachine

inductive StoreError where
  | emptyKey
  | keyNotFound
  | wal
  deriving DecidableEq, Repr

structure MemStore where
  table : SortedMap Bytes Bytes
  faults : List Bool
  deriving DecidableEq, Inhabited

namespace MemStore

/-- The write-ahead log comes first; the table changes only if it holds the record. -/
def logged (s : MemStore) (change : SortedMap Bytes Bytes → SortedMap Bytes Bytes) :
    MemStore × Except StoreError Unit :=
  match s.faults with
  | true :: later => ({ s with faults := later }, .error .wal)
  | later => (⟨change s.table, later.tail⟩, .ok ())

def put (s : MemStore) (key value : Bytes) : MemStore × Except StoreError Unit :=
  if key = [] then (s, .error .emptyKey) else s.logged fun table => table.insert key value

def delete (s : MemStore) (key : Bytes) : MemStore × Except StoreError Unit :=
  if key = [] then (s, .error .emptyKey) else s.logged fun table => table.erase key

def get (s : MemStore) (key : Bytes) : Except StoreError Bytes :=
  if key = [] then .error .emptyKey
  else
    match s.table.get? key with
    | none => .error .keyNotFound
    | some value => .ok value

def snapshot (s : MemStore) : List (Bytes × Bytes) := s.table.entries

theorem logged_cases (s : MemStore) (change : SortedMap Bytes Bytes → SortedMap Bytes Bytes) :
    (∃ later, s.logged change = (⟨s.table, later⟩, .error .wal)) ∨
      ∃ later, s.logged change = (⟨change s.table, later⟩, .ok ()) := by
  unfold logged
  split
  · exact Or.inl ⟨_, rfl⟩
  · exact Or.inr ⟨_, rfl⟩

theorem logged_faultless (table : SortedMap Bytes Bytes) (change : SortedMap Bytes Bytes → SortedMap Bytes Bytes) :
    (⟨table, []⟩ : MemStore).logged change = (⟨change table, []⟩, .ok ()) := rfl

end MemStore

inductive ResultError where
  | requestIDConflict
  | staleRequest
  | emptyKey
  deriving DecidableEq, Repr

structure Result where
  applied : Bool
  replayed : Bool
  key : Bytes
  value : Bytes
  err : Option ResultError
  deriving DecidableEq, Repr

def Result.failed (error : ResultError) : Result := ⟨false, false, [], [], some error⟩

structure DedupEntry where
  requestID : UInt64
  op : Op
  key : Bytes
  value : Bytes
  result : Result
  deriving DecidableEq, Repr

def DedupEntry.matches (e : DedupEntry) (cmd : Command) : Bool :=
  e.op == cmd.op && e.key == cmd.key && e.value == cmd.value

structure KVStateMachine where
  store : MemStore
  dedup : SortedMap Bytes DedupEntry
  deriving DecidableEq, Inhabited

def newKVStateMachine (store : MemStore) : KVStateMachine := ⟨store, SortedMap.empty⟩

inductive ApplyError where
  | put
  | delete
  | unknownOp (op : Op)
  deriving DecidableEq, Repr

namespace KVStateMachine

def execute (sm : KVStateMachine) (cmd : Command) : KVStateMachine × Except ApplyError Result :=
  match cmd.op with
  | .put =>
    match sm.store.put cmd.key cmd.value with
    | (store, .error .emptyKey) => ({ sm with store := store }, .ok (.failed .emptyKey))
    | (store, .error _) => ({ sm with store := store }, .error .put)
    | (store, .ok _) => ({ sm with store := store }, .ok ⟨true, false, cmd.key, cmd.value, none⟩)
  | .delete =>
    match sm.store.delete cmd.key with
    | (store, .error .emptyKey) => ({ sm with store := store }, .ok (.failed .emptyKey))
    | (store, .error _) => ({ sm with store := store }, .error .delete)
    | (store, .ok _) => ({ sm with store := store }, .ok ⟨true, false, cmd.key, [], none⟩)
  | op => (sm, .error (.unknownOp op))

def record (sm : KVStateMachine) (cmd : Command) : KVStateMachine × Except ApplyError Result :=
  match sm.execute cmd with
  | (sm, .error error) => (sm, .error error)
  | (sm, .ok result) =>
    ({ sm with dedup := sm.dedup.insert cmd.clientID ⟨cmd.requestID, cmd.op, cmd.key, cmd.value, result⟩ }, .ok result)

def apply (sm : KVStateMachine) (cmd : Command) : KVStateMachine × Except ApplyError Result :=
  match sm.dedup.get? cmd.clientID with
  | none => sm.record cmd
  | some prev =>
    if cmd.requestID = prev.requestID then
      if !prev.matches cmd then (sm, .ok (.failed .requestIDConflict))
      else (sm, .ok { prev.result with replayed := true })
    else if cmd.requestID < prev.requestID then (sm, .ok (.failed .staleRequest))
    else sm.record cmd

end KVStateMachine

namespace Command

def effect (cmd : Command) (table : SortedMap Bytes Bytes) : SortedMap Bytes Bytes :=
  if cmd.key = [] then table
  else
    match cmd.op with
    | .put => table.insert cmd.key cmd.value
    | .delete => table.erase cmd.key
    | .unknown _ _ => table

def outcome (cmd : Command) : Result :=
  if cmd.key = [] then .failed .emptyKey
  else ⟨true, false, cmd.key, if cmd.op = .put then cmd.value else [], none⟩

theorem outcome_executed {cmd : Command} (named : cmd.key ≠ []) :
    cmd.outcome.applied = true ∧ cmd.outcome.replayed = false := by
  rw [outcome, if_neg named]
  exact ⟨rfl, rfl⟩

end Command

theorem KVStateMachine.execute_cases (sm : KVStateMachine) (cmd : Command) :
    (∃ later error, sm.execute cmd = ({ sm with store := ⟨sm.store.table, later⟩ }, .error error)) ∨
      ∃ later, sm.execute cmd = ({ sm with store := ⟨cmd.effect sm.store.table, later⟩ }, .ok cmd.outcome) := by
  obtain ⟨clientID, requestID, op, key, value⟩ := cmd
  by_cases blank : key = []
  · subst blank
    cases op with
    | put | delete => exact Or.inr ⟨sm.store.faults, rfl⟩
    | unknown code => exact Or.inl ⟨sm.store.faults, _, rfl⟩
  simp only [execute, Command.effect, Command.outcome, MemStore.put, MemStore.delete, if_neg blank]
  cases op with
  | put =>
    rcases sm.store.logged_cases fun table => table.insert key value with ⟨later, same⟩ | ⟨later, same⟩
    · exact Or.inl ⟨later, .put, by simp only [same]⟩
    · exact Or.inr ⟨later, by simp only [same, if_true]⟩
  | delete =>
    rcases sm.store.logged_cases fun table => table.erase key with ⟨later, same⟩ | ⟨later, same⟩
    · exact Or.inl ⟨later, .delete, by simp only [same]⟩
    · exact Or.inr ⟨later, by simp only [same, reduceCtorEq, if_false]⟩
  | unknown code => exact Or.inl ⟨sm.store.faults, _, rfl⟩

structure Contents where
  table : SortedMap Bytes Bytes
  dedup : SortedMap Bytes DedupEntry
  deriving DecidableEq

def KVStateMachine.contents (sm : KVStateMachine) : Contents := ⟨sm.store.table, sm.dedup⟩

namespace Contents

def empty : Contents := ⟨SortedMap.empty, SortedMap.empty⟩

def machine (state : Contents) : KVStateMachine := ⟨⟨state.table, []⟩, state.dedup⟩

def apply (state : Contents) (raw : Bytes) : Option Contents :=
  match decodeCommand raw with
  | .error _ => none
  | .ok cmd =>
    match state.machine.apply cmd with
    | (_, .error _) => none
    | (sm, .ok _) => some sm.contents

/-- The contents after a list of committed commands, from the empty state machine. -/
def replay (commands : List Bytes) : Option Contents := commands.foldlM apply empty

theorem replay_snoc {commands : List Bytes} {state next : Contents} {raw : Bytes}
    (before : replay commands = some state)
    (applied : state.apply raw = some next) : replay (commands ++ [raw]) = some next := by
  rw [replay, List.foldlM_append, ← replay, before]
  simp only [List.foldlM_cons, List.foldlM_nil, Option.bind_eq_bind, Option.bind_some, applied]
  rfl

end Contents

namespace KVStateMachine

structure Resolves (sm : KVStateMachine) (ideal outcome : KVStateMachine × Except ApplyError Result) : Prop where
  resolved : ∀ result, outcome.2 = .ok result → ideal.2 = .ok result ∧ outcome.1.contents = ideal.1.contents
  unresolved : ∀ error, outcome.2 = .error error → outcome.1.contents = sm.contents

theorem execute_resolves (sm : KVStateMachine) (cmd : Command) :
    Resolves sm (sm.contents.machine.execute cmd) (sm.execute cmd) := by
  unfold execute
  split
  · simp only [MemStore.put, contents, Contents.machine]
    by_cases blank : cmd.key = []
    · simp only [blank, if_true]
      exact ⟨fun result same => ⟨same, rfl⟩, fun _ impossible => nomatch impossible⟩
    · simp only [blank, if_false]
      rcases sm.store.logged_cases fun table => table.insert cmd.key cmd.value with ⟨later, same⟩ | ⟨later, same⟩
      · simp only [same]
        exact ⟨(fun _ impossible => nomatch impossible), fun error _ => rfl⟩
      · simp only [same, MemStore.logged_faultless]
        exact ⟨fun result same => ⟨same, rfl⟩, fun _ impossible => nomatch impossible⟩
  · simp only [MemStore.delete, contents, Contents.machine]
    by_cases blank : cmd.key = []
    · simp only [blank, if_true]
      exact ⟨fun result same => ⟨same, rfl⟩, fun _ impossible => nomatch impossible⟩
    · simp only [blank, if_false]
      rcases sm.store.logged_cases fun table => table.erase cmd.key with ⟨later, same⟩ | ⟨later, same⟩
      · simp only [same]
        exact ⟨(fun _ impossible => nomatch impossible), fun error _ => rfl⟩
      · simp only [same, MemStore.logged_faultless]
        exact ⟨fun result same => ⟨same, rfl⟩, fun _ impossible => nomatch impossible⟩
  · exact ⟨(fun _ impossible => nomatch impossible), fun error _ => rfl⟩

theorem record_resolves (sm : KVStateMachine) (cmd : Command) :
    Resolves sm (sm.contents.machine.record cmd) (sm.record cmd) := by
  have executed := sm.execute_resolves cmd
  unfold record
  rcases ran : sm.execute cmd with ⟨after, error | result⟩
  · rw [ran] at executed
    exact ⟨(fun _ impossible => nomatch impossible), fun error same => executed.unresolved error same⟩
  · rw [ran] at executed
    obtain ⟨ideal, same⟩ := executed.resolved result rfl
    rcases ranIdeal : sm.contents.machine.execute cmd with ⟨afterIdeal, outcome⟩
    rw [ranIdeal] at ideal same
    cases ideal
    have dedup : after.dedup = afterIdeal.dedup := congrArg Contents.dedup same
    have table : after.store.table = afterIdeal.store.table := congrArg Contents.table same
    refine ⟨fun result same => ⟨same, ?_⟩, fun _ impossible => nomatch impossible⟩
    simp only [contents, dedup, table]

theorem apply_resolves (sm : KVStateMachine) (cmd : Command) :
    Resolves sm (sm.contents.machine.apply cmd) (sm.apply cmd) := by
  have recorded := sm.record_resolves cmd
  have dedup : sm.contents.machine.dedup = sm.dedup := rfl
  have untouched : ∀ result, Resolves sm (sm.contents.machine, .ok result) (sm, .ok result) := fun result =>
    ⟨fun result same => ⟨same, rfl⟩, fun _ impossible => nomatch impossible⟩
  unfold apply
  rw [dedup]
  split
  · exact recorded
  · split
    · split
      · exact untouched _
      · exact untouched _
    · split
      · exact untouched _
      · exact recorded

theorem contents_apply {sm after : KVStateMachine} {raw : Bytes} {cmd : Command} {result : Result}
    (decoded : decodeCommand raw = .ok cmd) (ran : sm.apply cmd = (after, .ok result)) :
    sm.contents.apply raw = some after.contents := by
  have resolves := sm.apply_resolves cmd
  rw [ran] at resolves
  obtain ⟨ideal, same⟩ := resolves.resolved result rfl
  rcases ranIdeal : sm.contents.machine.apply cmd with ⟨afterIdeal, outcome⟩
  rw [ranIdeal] at ideal same
  cases ideal
  simp only [Contents.apply, decoded, ranIdeal, same]

def Behind (sm : KVStateMachine) (cmd : Command) : Prop :=
  ∀ prev, sm.dedup.get? cmd.clientID = some prev → prev.requestID < cmd.requestID

theorem apply_cases (sm : KVStateMachine) (cmd : Command) :
    (sm.Behind cmd ∧ sm.apply cmd = sm.record cmd) ∨
      ∃ prev result, sm.dedup.get? cmd.clientID = some prev ∧ cmd.requestID ≤ prev.requestID ∧
        sm.apply cmd = (sm, .ok result) ∧ (result.applied = false ∨ result.replayed = true) := by
  unfold apply Behind
  cases known : sm.dedup.get? cmd.clientID with
  | none => exact Or.inl ⟨nofun, rfl⟩
  | some prev =>
    dsimp only
    split
    · rename_i same
      refine Or.inr ?_
      split
      · exact ⟨prev, _, rfl, UInt64.le_of_eq same, rfl, Or.inl rfl⟩
      · exact ⟨prev, _, rfl, UInt64.le_of_eq same, rfl, Or.inr rfl⟩
    rename_i differs
    split
    · rename_i below
      exact Or.inr ⟨prev, _, rfl, UInt64.le_of_lt below, rfl, Or.inl rfl⟩
    · rename_i above
      refine Or.inl ⟨fun found same => ?_, rfl⟩
      cases same
      exact UInt64.lt_of_le_of_ne (UInt64.not_lt.mp above) (Ne.symm differs)

theorem record_cases (sm : KVStateMachine) (cmd : Command) :
    (∃ later error, sm.record cmd = ({ sm with store := ⟨sm.store.table, later⟩ }, .error error)) ∨
      ∃ later, sm.record cmd =
        (⟨⟨cmd.effect sm.store.table, later⟩,
          sm.dedup.insert cmd.clientID ⟨cmd.requestID, cmd.op, cmd.key, cmd.value, cmd.outcome⟩⟩, .ok cmd.outcome) := by
  unfold record
  rcases sm.execute_cases cmd with ⟨later, error, same⟩ | ⟨later, same⟩
  · exact Or.inl ⟨later, error, by rw [same]⟩
  · exact Or.inr ⟨later, by rw [same]⟩

theorem apply_executed {sm after : KVStateMachine} {cmd : Command} {result : Result} (named : cmd.key ≠ [])
    (ran : sm.apply cmd = (after, .ok result)) :
    (result.applied = true ∧ result.replayed = false) ↔ sm.Behind cmd := by
  rcases sm.apply_cases cmd with ⟨behind, same⟩ | ⟨prev, answer, known, below, same, answered⟩
  · rw [same] at ran
    rcases sm.record_cases cmd with ⟨later, error, recorded⟩ | ⟨later, recorded⟩
    · rw [recorded] at ran
      cases ran
    · rw [recorded] at ran
      cases ran
      exact ⟨fun _ => behind, fun _ => Command.outcome_executed named⟩
  · rw [same] at ran
    cases ran
    refine ⟨fun ⟨applied, fresh⟩ => ?_, fun behind => absurd (behind prev known) (UInt64.not_lt.mpr below)⟩
    rw [applied, fresh] at answered
    exact absurd answered (by decide)

theorem behind_apply {sm after : KVStateMachine} {other : Command} {result : Result}
    (ran : sm.apply other = (after, .ok result)) (cmd : Command) :
    after.Behind cmd ↔ sm.Behind cmd ∧ (other.clientID = cmd.clientID → other.requestID < cmd.requestID) := by
  rcases sm.apply_cases other with ⟨behind, same⟩ | ⟨prev, answer, known, below, same, _⟩
  · rw [same] at ran
    rcases sm.record_cases other with ⟨later, error, recorded⟩ | ⟨later, recorded⟩
    · rw [recorded] at ran
      cases ran
    · rw [recorded] at ran
      cases ran
      simp only [Behind, SortedMap.get?_insert]
      by_cases shared : other.clientID = cmd.clientID
      · simp only [shared, if_true, Option.some.injEq, forall_eq', true_implies]
        refine ⟨fun above => ⟨fun prev known => ?_, above⟩, fun both => both.2⟩
        rw [← shared] at known
        exact UInt64.lt_trans (behind prev known) above
      · have apart : ¬cmd.clientID = other.clientID := fun same => shared same.symm
        simp only [shared, apart, if_false, false_implies, and_true]
  · rw [same] at ran
    cases ran
    refine ⟨fun above => ⟨above, fun shared => ?_⟩, fun both => both.1⟩
    rw [shared] at known
    exact UInt64.lt_of_le_of_lt below (above prev known)

end KVStateMachine

end ForgeDB.StateMachine
