import ForgeDB.StateMachine.Requests

/-!
Starting over. The pairs survive a crash, the table of requests does not, so a restarted machine takes every
command again, on top of pairs that some of them have left. It rewrites every key that was left, so it arrives
where the first run did.
-/

namespace ForgeDB.StateMachine

namespace Command

def Writes (cmd : Command) (key : Bytes) : Prop :=
  cmd.key = key ∧ key ≠ [] ∧ (cmd.op = .put ∨ cmd.op = .delete)

theorem effect_writes {cmd : Command} {key : Bytes} (writes : cmd.Writes key) (left right : SortedMap Bytes Bytes) :
    (cmd.effect left).get? key = (cmd.effect right).get? key := by
  obtain ⟨rfl, named, known⟩ := writes
  rcases known with op | op
  · simp only [effect, if_neg named, op, SortedMap.get?_insert, if_true]
  · simp only [effect, if_neg named, op, SortedMap.get?_erase, if_true]

theorem effect_spares {cmd : Command} {key : Bytes} (spares : ¬cmd.Writes key) (table : SortedMap Bytes Bytes) :
    (cmd.effect table).get? key = table.get? key := by
  unfold effect
  split
  · rfl
  rename_i named
  have other : cmd.op = .put ∨ cmd.op = .delete → ¬key = cmd.key := by
    rintro known rfl
    exact spares ⟨rfl, named, known⟩
  split
  · rename_i op
    rw [SortedMap.get?_insert, if_neg (other (Or.inl op))]
  · rename_i op
    rw [SortedMap.get?_erase, if_neg (other (Or.inr op))]
  · rfl

end Command

theorem foldl_effect_spares {executed : List Execution} {key : Bytes} (spares : ∀ e ∈ executed, ¬e.cmd.Writes key)
    (table : SortedMap Bytes Bytes) :
    (executed.foldl (fun table e => e.cmd.effect table) table).get? key = table.get? key := by
  induction executed generalizing table with
  | nil => rfl
  | cons e more ih =>
    rw [List.foldl_cons, ih (fun later present => spares later (List.mem_cons_of_mem e present)),
      Command.effect_spares (spares e List.mem_cons_self)]

theorem foldl_effect_agree {executed : List Execution} {left right : SortedMap Bytes Bytes}
    (agree : ∀ key, left.get? key = right.get? key ∨ ∃ e ∈ executed, e.cmd.Writes key) :
    executed.foldl (fun table e => e.cmd.effect table) left =
      executed.foldl (fun table e => e.cmd.effect table) right := by
  induction executed generalizing left right with
  | nil =>
    apply SortedMap.ext_get?
    intro key
    rcases agree key with same | ⟨e, present, _⟩
    · exact same
    · cases present
  | cons e more ih =>
    rw [List.foldl_cons, List.foldl_cons]
    apply ih
    intro key
    by_cases writes : e.cmd.Writes key
    · exact Or.inl (Command.effect_writes writes left right)
    · rw [Command.effect_spares writes, Command.effect_spares writes]
      refine (agree key).imp_right (fun ⟨later, present, there⟩ => ⟨later, ?_, there⟩)
      rcases List.mem_cons.mp present with rfl | inside
      · exact absurd there writes
      · exact inside

theorem foldl_after_dedup_eq (executed : List Execution) {left right : Contents} (same : left.dedup = right.dedup) :
    (executed.foldl Contents.after left).dedup = (executed.foldl Contents.after right).dedup := by
  apply SortedMap.ext_get?
  intro client
  rw [foldl_after_dedup, foldl_after_dedup, same]

theorem foldl_after_leftover (first more : List Execution) :
    (first ++ more).foldl Contents.after ⟨(first.foldl Contents.after Contents.empty).table, SortedMap.empty⟩ =
      (first ++ more).foldl Contents.after Contents.empty := by
  rw [Contents.mk.injEq]
  refine ⟨?_, foldl_after_dedup_eq _ rfl⟩
  rw [foldl_after_table (first ++ more), foldl_after_table (first ++ more) Contents.empty]
  apply foldl_effect_agree
  intro key
  by_cases written : ∃ e ∈ first, e.cmd.Writes key
  · obtain ⟨e, present, writes⟩ := written
    exact Or.inr ⟨e, List.mem_append_left more present, writes⟩
  · rw [foldl_after_table]
    exact Or.inl (foldl_effect_spares (fun e present writes => written ⟨e, present, writes⟩) SortedMap.empty)

namespace KVStateMachine

def applyAll (sm : KVStateMachine) (commands : List Command) : KVStateMachine :=
  commands.foldl (fun sm cmd => (sm.apply cmd).1) sm

theorem applyAll_append (sm : KVStateMachine) (first more : List Command) :
    sm.applyAll (first ++ more) = (sm.applyAll first).applyAll more := List.foldl_append

end KVStateMachine

theorem apply_machine (dedup : SortedMap Bytes DedupEntry) (cmd : Command) :
    (∀ table, ((⟨table, dedup⟩ : Contents).machine.apply cmd).1 = (⟨table, dedup⟩ : Contents).machine) ∨
      ∀ table, ((⟨table, dedup⟩ : Contents).machine.apply cmd).1 =
        ((⟨table, dedup⟩ : Contents).after ⟨cmd, cmd.outcome⟩).machine := by
  obtain ⟨clientID, requestID, op, key, value⟩ := cmd
  by_cases behind : (⟨SortedMap.empty, dedup⟩ : Contents).machine.Behind ⟨clientID, requestID, op, key, value⟩
  · have recorded : ∀ table, (⟨table, dedup⟩ : Contents).machine.apply ⟨clientID, requestID, op, key, value⟩ =
        (⟨table, dedup⟩ : Contents).machine.record ⟨clientID, requestID, op, key, value⟩ := by
      intro table
      rcases (⟨table, dedup⟩ : Contents).machine.apply_cases ⟨clientID, requestID, op, key, value⟩ with
        ⟨_, same⟩ | ⟨prev, _, known, below, _⟩
      · exact same
      · exact absurd (behind prev known) (UInt64.not_lt.mpr below)
    by_cases blank : key = []
    · subst blank
      cases op with
      | put | delete => exact Or.inr (fun table => by rw [recorded]; rfl)
      | unknown code => exact Or.inl (fun table => by rw [recorded]; rfl)
    · cases op with
      | put =>
        refine Or.inr (fun table => ?_)
        rw [recorded]
        simp only [KVStateMachine.record, KVStateMachine.execute, MemStore.put, if_neg blank, Contents.after,
          Command.effect, Command.outcome, Contents.machine, MemStore.logged_faultless, if_true, Execution.entry]
      | delete =>
        refine Or.inr (fun table => ?_)
        rw [recorded]
        simp only [KVStateMachine.record, KVStateMachine.execute, MemStore.delete, if_neg blank,
          Contents.after, Command.effect, Command.outcome, Contents.machine, MemStore.logged_faultless,
          reduceCtorEq, if_false, Execution.entry]
      | unknown code => exact Or.inl (fun table => by rw [recorded]; rfl)
  · refine Or.inl (fun table => ?_)
    rcases (⟨table, dedup⟩ : Contents).machine.apply_contents ⟨clientID, requestID, op, key, value⟩ with
      ⟨above, _⟩ | ⟨above, _⟩ | ⟨_, result, same⟩
    · exact absurd above behind
    · exact absurd above behind
    · rw [same]

theorem applyAll_machine (commands : List Command) (dedup : SortedMap Bytes DedupEntry) :
    ∃ executed : List Execution, ∀ table, (⟨table, dedup⟩ : Contents).machine.applyAll commands =
      (executed.foldl Contents.after ⟨table, dedup⟩).machine := by
  induction commands generalizing dedup with
  | nil => exact ⟨[], fun table => rfl⟩
  | cons cmd more ih =>
    rcases apply_machine dedup cmd with answered | carriedOut
    · obtain ⟨executed, same⟩ := ih dedup
      refine ⟨executed, fun table => ?_⟩
      rw [← same, KVStateMachine.applyAll, List.foldl_cons, answered]
      rfl
    · obtain ⟨executed, same⟩ := ih (dedup.insert cmd.clientID (Execution.entry ⟨cmd, cmd.outcome⟩))
      refine ⟨⟨cmd, cmd.outcome⟩ :: executed, fun table => ?_⟩
      rw [KVStateMachine.applyAll, List.foldl_cons, carriedOut]
      exact same (cmd.effect table)

/-- The pairs that a machine stopped in the middle of the commands has left: after the first `k` of them,
or after the next one has also reached the store. -/
inductive Leftover (commands : List Command) (k : Nat) : SortedMap Bytes Bytes → Prop where
  | applied : Leftover commands k
    ((newKVStateMachine ⟨SortedMap.empty, []⟩).applyAll (commands.take k)).store.table
  | reached {cmd : Command} (next : commands[k]? = some cmd) : Leftover commands k
    (((newKVStateMachine ⟨SortedMap.empty, []⟩).applyAll (commands.take k)).apply cmd).1.store.table

theorem Leftover.split {commands : List Command} {k : Nat} {table : SortedMap Bytes Bytes}
    (leftover : Leftover commands k table) : ∃ first more, commands = first ++ more ∧
      table = ((newKVStateMachine ⟨SortedMap.empty, []⟩).applyAll first).store.table := by
  cases leftover with
  | applied => exact ⟨commands.take k, commands.drop k, (List.take_append_drop k commands).symm, rfl⟩
  | @reached cmd next =>
    refine ⟨commands.take (k + 1), commands.drop (k + 1), (List.take_append_drop (k + 1) commands).symm, ?_⟩
    rw [List.take_add_one, next, KVStateMachine.applyAll_append]
    rfl

theorem Leftover.replayed {commands : List Command} {k : Nat} {table : SortedMap Bytes Bytes}
    (leftover : Leftover commands k table) :
    ((newKVStateMachine ⟨table, []⟩).applyAll commands) =
      (newKVStateMachine ⟨SortedMap.empty, []⟩).applyAll commands := by
  obtain ⟨first, more, rfl, rfl⟩ := leftover.split
  obtain ⟨early, begun⟩ := applyAll_machine first SortedMap.empty
  have fresh : ∀ table, (newKVStateMachine ⟨table, []⟩) = (⟨table, SortedMap.empty⟩ : Contents).machine := fun _ => rfl
  obtain ⟨late, finished⟩ := applyAll_machine more (early.foldl Contents.after Contents.empty).dedup
  have whole : ∀ table, (⟨table, SortedMap.empty⟩ : Contents).machine.applyAll (first ++ more) =
      ((early ++ late).foldl Contents.after ⟨table, SortedMap.empty⟩).machine := by
    intro table
    have dedup := @foldl_after_dedup_eq early ⟨table, SortedMap.empty⟩ Contents.empty rfl
    have shape := finished (early.foldl Contents.after ⟨table, SortedMap.empty⟩).table
    rw [← dedup] at shape
    rw [KVStateMachine.applyAll_append, begun, List.foldl_append]
    exact shape
  rw [fresh, fresh, whole, whole, begun]
  exact congrArg Contents.machine (foldl_after_leftover early late)

namespace MemStore

theorem deleteAll_faultless {s : MemStore} (faultless : s.faults = []) (keys : List Bytes) :
    (s.deleteAll keys).1.faults = [] ∧ ((∀ key ∈ keys, key ≠ []) → (s.deleteAll keys).2 = true) := by
  induction keys generalizing s with
  | nil => exact ⟨faultless, fun _ => rfl⟩
  | cons key more ih =>
    obtain ⟨table, faults⟩ := s
    cases faultless
    by_cases blank : key = []
    · simp only [deleteAll, delete, if_pos blank]
      exact ⟨trivial, fun named => absurd blank (named key List.mem_cons_self)⟩
    · simp only [deleteAll, delete, if_neg blank, logged_faultless]
      obtain ⟨kept, done⟩ := @ih ⟨table.erase key, []⟩ rfl
      exact ⟨kept, fun named => done (fun other present => named other (List.mem_cons_of_mem key present))⟩

theorem putAll_faultless {s : MemStore} (faultless : s.faults = []) (entries : List (Bytes × Bytes)) :
    (s.putAll entries).1.faults = [] ∧ ((∀ entry ∈ entries, entry.1 ≠ []) → (s.putAll entries).2 = true) := by
  induction entries generalizing s with
  | nil => exact ⟨faultless, fun _ => rfl⟩
  | cons entry more ih =>
    obtain ⟨table, faults⟩ := s
    cases faultless
    by_cases blank : entry.1 = []
    · simp only [putAll, put, if_pos blank]
      exact ⟨trivial, fun named => absurd blank (named entry List.mem_cons_self)⟩
    · simp only [putAll, put, if_neg blank, logged_faultless]
      obtain ⟨kept, done⟩ := @ih ⟨table.insert entry.1 entry.2, []⟩ rfl
      exact ⟨kept, fun named => done (fun other present => named other (List.mem_cons_of_mem entry present))⟩

theorem snapshot_named {s : MemStore} (nameless : s.table.get? [] = none) : ∀ entry ∈ s.snapshot, entry.1 ≠ [] := by
  intro entry present blank
  have found := SortedMap.lookup_of_mem s.table.sorted present
  rw [blank] at found
  exact absurd (nameless.symm.trans found) (by simp only [reduceCtorEq, not_false_iff])

end MemStore

namespace KVStateMachine

theorem restoreSnapshot_faultless {sm source : KVStateMachine} {data : Bytes} (faultless : sm.store.faults = [])
    (nameless : sm.store.table.get? [] = none) (nameless' : source.store.table.get? [] = none)
    (known : source.contents.Known) (created : source.createSnapshot = .ok data)
    (fits : data.length ≤ smMaxSnapshotBytes) : ∃ restored, sm.restoreSnapshot data = (restored, .ok ()) := by
  have decoded := decode_createSnapshot created known fits
  simp only [restoreSnapshot, decoded]
  obtain ⟨kept, done⟩ := MemStore.deleteAll_faultless faultless
    ((sm.store.snapshot.map Prod.fst).filter fun key => !source.store.snapshot.any fun entry => entry.1 == key)
  rcases deleted : sm.store.deleteAll _ with ⟨store, ok⟩
  rw [deleted] at kept done
  obtain rfl : ok = true := by
    refine done (fun key present => ?_)
    obtain ⟨entry, inside, rfl⟩ := List.mem_map.mp (List.mem_filter.mp present).1
    exact MemStore.snapshot_named nameless entry inside
  obtain ⟨_, filled⟩ := MemStore.putAll_faultless kept source.store.snapshot
  rcases put : store.putAll source.store.snapshot with ⟨final, ok⟩
  rw [put] at filled
  obtain rfl : ok = true := filled (MemStore.snapshot_named nameless')
  simp only [put]
  exact ⟨_, rfl⟩

theorem restoreSnapshot_keeps_faultless {sm restored : KVStateMachine} {data : Bytes}
    (faultless : sm.store.faults = []) (done : sm.restoreSnapshot data = (restored, .ok ())) :
    restored.store.faults = [] := by
  unfold restoreSnapshot at done
  split at done
  · cases done
  rename_i kv dedup _
  dsimp only at done
  have kept := (MemStore.deleteAll_faultless faultless
    ((sm.store.snapshot.map Prod.fst).filter fun key => !kv.any fun entry => entry.1 == key)).1
  split at done
  · cases done
  rename_i store deleted
  rw [deleted] at kept
  have filled := (MemStore.putAll_faultless kept kv).1
  split at done
  · cases done
  rename_i final put
  rw [put] at filled
  cases done
  exact filled

end KVStateMachine

theorem applyAll_sound (commands : List Command) :
    ((newKVStateMachine ⟨SortedMap.empty, []⟩).applyAll commands).store.faults = [] ∧
      ((newKVStateMachine ⟨SortedMap.empty, []⟩).applyAll commands).store.table.get? [] = none ∧
      ((newKVStateMachine ⟨SortedMap.empty, []⟩).applyAll commands).contents.Known := by
  obtain ⟨executed, same⟩ := applyAll_machine commands SortedMap.empty
  have shape : (newKVStateMachine ⟨SortedMap.empty, []⟩).applyAll commands = _ := same SortedMap.empty
  have known : ∀ (commands : List Command) (sm : KVStateMachine), sm.contents.Known →
      (sm.applyAll commands).contents.Known := by
    intro commands
    induction commands with
    | nil => exact fun sm known => known
    | cons cmd more ih => exact fun sm known => ih _ (KVStateMachine.apply_keeps_known known cmd)
  refine ⟨by rw [shape]; rfl, ?_, known commands _ (Accounts.start []).known⟩
  rw [shape]
  refine (congrArg (SortedMap.get? · []) (foldl_after_table executed _)).trans ?_
  exact foldl_effect_spares (fun e _ writes => writes.2.1 rfl) SortedMap.empty

/-- A machine restarted over the pairs that some of the commands have left, with an empty table, ends
with the contents of the first run: after taking all the commands again, and after restoring any
snapshot of that run and taking the commands after it. -/
theorem restart_converges {commands : List Command} {k : Nat} {left : SortedMap Bytes Bytes}
    (leftover : Leftover commands k left) :
    ((newKVStateMachine ⟨left, []⟩).applyAll commands).contents =
        ((newKVStateMachine ⟨SortedMap.empty, []⟩).applyAll commands).contents ∧
      ∀ j data, ((newKVStateMachine ⟨SortedMap.empty, []⟩).applyAll (commands.take j)).createSnapshot = .ok data →
        (data.length ≤ smMaxSnapshotBytes →
          ∃ restored, (newKVStateMachine ⟨left, []⟩).restoreSnapshot data = (restored, .ok ())) ∧
        ∀ restored, (newKVStateMachine ⟨left, []⟩).restoreSnapshot data = (restored, .ok ()) →
          (restored.applyAll (commands.drop j)).contents =
            ((newKVStateMachine ⟨SortedMap.empty, []⟩).applyAll commands).contents := by
  refine ⟨congrArg KVStateMachine.contents leftover.replayed, fun j data created => ⟨fun fits => ?_, ?_⟩⟩
  · obtain ⟨first, more, _, rfl⟩ := leftover.split
    obtain ⟨_, nameless, known⟩ := applyAll_sound (commands.take j)
    exact KVStateMachine.restoreSnapshot_faultless rfl (applyAll_sound first).2.1 nameless known created fits
  · intro restored done
    obtain ⟨faultless, _, known⟩ := applyAll_sound (commands.take j)
    have contents := KVStateMachine.restoreSnapshot_contents known created done
    have faults := KVStateMachine.restoreSnapshot_keeps_faultless rfl done
    have same : restored = (newKVStateMachine ⟨SortedMap.empty, []⟩).applyAll (commands.take j) := by
      rw [KVStateMachine.contents, KVStateMachine.contents, Contents.mk.injEq] at contents
      rw [KVStateMachine.mk.injEq, MemStore.mk.injEq, faults, faultless]
      exact ⟨⟨contents.1, rfl⟩, contents.2⟩
    rw [same, ← KVStateMachine.applyAll_append, List.take_append_drop]

/-- A crash after the first write has reached the store, which the second command takes back. -/
theorem restart_converges_reached :
    ∃ left, Leftover [newPutCommand [99] 1 [1] [2], newDeleteCommand [99] 2 [1]] 0 left ∧ left.get? [1] = some [2] ∧
      ((newKVStateMachine ⟨left, []⟩).applyAll [newPutCommand [99] 1 [1] [2], newDeleteCommand [99] 2 [1]]).contents =
        ((newKVStateMachine ⟨SortedMap.empty, []⟩).applyAll
          [newPutCommand [99] 1 [1] [2], newDeleteCommand [99] 2 [1]]).contents :=
  ⟨_, .reached rfl, by decide, (restart_converges (.reached rfl)).1⟩

end ForgeDB.StateMachine
