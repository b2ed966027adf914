import ForgeDB.Raft.Format
import ForgeDB.StateMachine.Snapshot

/-!
Moving a machine's state to another machine by a snapshot. A store never holds the empty key, so without faults
every delete and put of a restoration goes through; an interrupted one leaves a store from which the next
attempt starts over.
-/

namespace ForgeDB.StateMachine

namespace MemStore

def Named (s : MemStore) : Prop := s.table.get? [] = none

theorem put_named {s : MemStore} (named : s.Named) (key value : Bytes) : (s.put key value).1.Named := by
  unfold put
  by_cases blank : key = []
  · rwa [if_pos blank]
  rw [if_neg blank]
  rcases s.logged_cases fun table => table.insert key value with ⟨later, same⟩ | ⟨later, same⟩
  · rwa [same]
  · rw [same, Named, SortedMap.get?_insert, if_neg (Ne.symm blank)]
    exact named

theorem delete_named {s : MemStore} (named : s.Named) (key : Bytes) : (s.delete key).1.Named := by
  unfold delete
  by_cases blank : key = []
  · rwa [if_pos blank]
  rw [if_neg blank]
  rcases s.logged_cases fun table => table.erase key with ⟨later, same⟩ | ⟨later, same⟩
  · rwa [same]
  · rw [same, Named, SortedMap.get?_erase, if_neg (Ne.symm blank)]
    exact named

theorem deleteAll_named {s : MemStore} (named : s.Named) (keys : List Bytes) : (s.deleteAll keys).1.Named := by
  induction keys generalizing s with
  | nil => exact named
  | cons key keys ih =>
    have next := delete_named named key
    unfold deleteAll
    split
    · rename_i same
      rwa [same] at next
    · rename_i same
      rw [same] at next
      exact ih next

theorem putAll_named {s : MemStore} (named : s.Named) (entries : List (Bytes × Bytes)) :
    (s.putAll entries).1.Named := by
  induction entries generalizing s with
  | nil => exact named
  | cons entry entries ih =>
    have next := put_named named entry.1 entry.2
    unfold putAll
    split
    · rename_i same
      rwa [same] at next
    · rename_i same
      rw [same] at next
      exact ih next

def Faultless (before after : MemStore) : Prop := ∃ used, before.faults = used ++ after.faults ∧ true ∉ used

def Struck (before after : MemStore) : Prop := ∃ used, before.faults = used ++ true :: after.faults

theorem Faultless.trans {first second third : MemStore} (left : first.Faultless second)
    (right : second.Faultless third) :
    first.Faultless third := by
  obtain ⟨used, same, clean⟩ := left
  obtain ⟨more, next, still⟩ := right
  refine ⟨used ++ more, by rw [same, next, List.append_assoc], fun fails => ?_⟩
  exact (List.mem_append.mp fails).elim clean still

theorem Faultless.struck {first second third : MemStore} (left : first.Faultless second) (right : second.Struck third) :
    first.Struck third := by
  obtain ⟨used, same, -⟩ := left
  obtain ⟨more, next⟩ := right
  exact ⟨used ++ more, by rw [same, next, List.append_assoc]⟩

theorem Struck.not_faultless {before after : MemStore} (struck : before.Struck after) : ¬before.Faultless after := by
  rintro ⟨used, same, clean⟩
  obtain ⟨more, next⟩ := struck
  rw [same, List.append_cons, List.append_left_inj] at next
  exact clean (next ▸ List.mem_append_right more List.mem_cons_self)

theorem logged_faults (s : MemStore) (change : SortedMap Bytes Bytes → SortedMap Bytes Bytes) :
    (∃ after, s.logged change = (after, .error .wal) ∧ s.Struck after) ∨
      ∃ after, s.logged change = (after, .ok ()) ∧ s.Faultless after := by
  unfold logged
  cases faults : s.faults with
  | nil => exact Or.inr ⟨_, rfl, [], by rw [faults]; rfl, List.not_mem_nil⟩
  | cons fails later =>
    cases fails with
    | true => exact Or.inl ⟨_, rfl, [], by rw [faults]; rfl⟩
    | false => exact Or.inr ⟨_, rfl, [false], by rw [faults]; rfl, by decide⟩

theorem deleteAll_faults (s : MemStore) {keys : List Bytes} (named : [] ∉ keys) :
    (∃ after, s.deleteAll keys = (after, false) ∧ s.Struck after) ∨
      ∃ after, s.deleteAll keys = (after, true) ∧ s.Faultless after := by
  induction keys generalizing s with
  | nil => exact Or.inr ⟨s, rfl, [], rfl, List.not_mem_nil⟩
  | cons key keys ih =>
    have nonempty : key ≠ [] := fun blank => named (blank ▸ List.mem_cons_self)
    rw [deleteAll, delete, if_neg nonempty]
    rcases s.logged_faults fun table => table.erase key with ⟨next, same, struck⟩ | ⟨next, same, clean⟩
    · exact Or.inl ⟨next, by rw [same], struck⟩
    · rw [same]
      rcases ih next fun present =>
        named (List.mem_cons_of_mem key present) with ⟨after, done, struck⟩ | ⟨after, done, still⟩
      · exact Or.inl ⟨after, done, clean.struck struck⟩
      · exact Or.inr ⟨after, done, clean.trans still⟩

theorem putAll_faults (s : MemStore) {entries : List (Bytes × Bytes)} (named : ∀ entry ∈ entries, entry.1 ≠ []) :
    (∃ after, s.putAll entries = (after, false) ∧ s.Struck after) ∨
      ∃ after, s.putAll entries = (after, true) ∧ s.Faultless after := by
  induction entries generalizing s with
  | nil => exact Or.inr ⟨s, rfl, [], rfl, List.not_mem_nil⟩
  | cons entry entries ih =>
    rw [putAll, put, if_neg (named entry List.mem_cons_self)]
    rcases s.logged_faults fun table => table.insert entry.1 entry.2 with ⟨next, same, struck⟩ | ⟨next, same, clean⟩
    · exact Or.inl ⟨next, by rw [same], struck⟩
    · rw [same]
      rcases ih next fun entry present => named entry (List.mem_cons_of_mem _ present) with
        ⟨after, done, struck⟩ | ⟨after, done, still⟩
      · exact Or.inl ⟨after, done, clean.struck struck⟩
      · exact Or.inr ⟨after, done, clean.trans still⟩

theorem Named.ne_nil {s : MemStore} (named : s.Named) : ∀ entry ∈ s.snapshot, entry.1 ≠ [] := by
  intro entry present blank
  have found := SortedMap.lookup_of_mem s.table.sorted present
  rw [blank, show SortedMap.lookup [] s.table.entries = none from named] at found
  cases found

end MemStore

/-- The machines there are: new ones on any store, and what commands and restorations make of them, whatever
the store's faults. -/
inductive Lived : KVStateMachine → Prop where
  | fresh (store : MemStore) (named : store.Named) : Lived (newKVStateMachine store)
  | apply {sm : KVStateMachine} (lived : Lived sm) (cmd : Command) : Lived (sm.apply cmd).1
  | restore {sm : KVStateMachine} (lived : Lived sm) (data : Bytes) : Lived (sm.restoreSnapshot data).1

namespace KVStateMachine

theorem record_named {sm : KVStateMachine} (named : sm.store.Named) (cmd : Command) :
    (sm.record cmd).1.store.Named := by
  rcases sm.record_cases cmd with ⟨later, error, same⟩ | ⟨later, same⟩
  · rwa [same]
  · rw [same]
    change (cmd.effect sm.store.table).get? [] = none
    unfold Command.effect
    by_cases blank : cmd.key = []
    · rwa [if_pos blank]
    rw [if_neg blank]
    split
    · rw [SortedMap.get?_insert, if_neg (Ne.symm blank)]
      exact named
    · rw [SortedMap.get?_erase, if_neg (Ne.symm blank)]
      exact named
    · exact named

theorem restoreSnapshot_named {sm : KVStateMachine} (named : sm.store.Named) (data : Bytes) :
    (sm.restoreSnapshot data).1.store.Named := by
  unfold restoreSnapshot
  split
  · exact named
  · rename_i kv dedup decoded
    have deleted := MemStore.deleteAll_named named
      ((sm.store.snapshot.map Prod.fst).filter fun key => !kv.any fun entry => entry.1 == key)
    dsimp only
    split
    · rename_i same
      rwa [same] at deleted
    · rename_i same
      rw [same] at deleted
      have filled := MemStore.putAll_named deleted kv
      split
      · rename_i same
        rwa [same] at filled
      · rename_i same
        rwa [same] at filled

end KVStateMachine

theorem bind_eq_ok {ε α β : Type} {first : Except ε α} {next : α → Except ε β} {result : β}
    (ran : (first >>= next) = .ok result) : ∃ value, first = .ok value ∧ next value = .ok result := by
  cases first with
  | error error => cases ran
  | ok value => exact ⟨value, rfl, ran⟩

theorem guard_eq_ok {ε β : Type} {bad : Prop} [Decidable bad] {error : ε} {next : Unit → Except ε β} {result : β}
    (ran : (if bad then throw error >>= next else next ()) = .ok result) : ¬bad ∧ next () = .ok result := by
  by_cases holds : bad
  · rw [if_pos holds] at ran
    cases ran
  · rw [if_neg holds] at ran
    exact ⟨holds, ran⟩

theorem readDedupEntry_known {entry : Nat} {body rest : Bytes} {row : Bytes × DedupEntry}
    (read : readDedupEntry entry body = .ok (row, rest)) : row.2.op = .put ∨ row.2.op = .delete := by
  obtain ⟨⟨clientID, afterID⟩, -, read⟩ := bind_eq_ok read
  obtain ⟨-, read⟩ := guard_eq_ok read
  obtain ⟨known, read⟩ := guard_eq_ok read
  obtain ⟨⟨key, afterKey⟩, -, read⟩ := bind_eq_ok read
  obtain ⟨⟨value, afterValue⟩, -, read⟩ := bind_eq_ok read
  obtain ⟨-, read⟩ := guard_eq_ok read
  obtain ⟨⟨resultKey, afterResultKey⟩, -, read⟩ := bind_eq_ok read
  obtain ⟨⟨resultValue, afterResultValue⟩, -, read⟩ := bind_eq_ok read
  obtain ⟨-, read⟩ := guard_eq_ok read
  obtain ⟨resultErr, -, read⟩ := bind_eq_ok read
  cases read
  exact Decidable.or_iff_not_not_and_not.mpr known

theorem readDedup_known {count entry : Nat} {body rest : Bytes} {dedup after : SortedMap Bytes DedupEntry}
    (known : ∀ row ∈ dedup.entries, row.2.op = .put ∨ row.2.op = .delete)
    (read : readDedup entry dedup count body = .ok (after, rest)) :
    ∀ row ∈ after.entries, row.2.op = .put ∨ row.2.op = .delete := by
  induction count generalizing entry dedup body with
  | zero =>
    cases read
    exact known
  | succ count ih =>
    simp only [readDedup, bind, Except.bind] at read
    split at read
    · cases read
    rename_i row ran
    refine ih (fun other present => ?_) read
    rcases SortedMap.mem_insertEntry present with rfl | old
    · exact readDedupEntry_known ran
    · exact known other old

theorem decode_known {data : Bytes} {kv : List (Bytes × Bytes)} {dedup : SortedMap Bytes DedupEntry}
    (decoded : decodeKVStateMachineSnapshot data = .ok (kv, dedup)) :
    ∀ row ∈ dedup.entries, row.2.op = .put ∨ row.2.op = .delete := by
  unfold decodeKVStateMachineSnapshot at decoded
  -- The size, the header, the checksum and both counts are checked before the rows are read.
  obtain ⟨-, decoded⟩ := guard_eq_ok decoded
  obtain ⟨-, decoded⟩ := guard_eq_ok decoded
  obtain ⟨-, decoded⟩ := guard_eq_ok decoded
  obtain ⟨-, decoded⟩ := guard_eq_ok decoded
  obtain ⟨-, decoded⟩ := guard_eq_ok decoded
  obtain ⟨-, decoded⟩ := guard_eq_ok decoded
  obtain ⟨-, decoded⟩ := guard_eq_ok decoded
  obtain ⟨-, decoded⟩ := guard_eq_ok decoded
  obtain ⟨⟨pairs, afterPairs⟩, -, decoded⟩ := bind_eq_ok decoded
  obtain ⟨-, decoded⟩ := guard_eq_ok decoded
  obtain ⟨-, decoded⟩ := guard_eq_ok decoded
  obtain ⟨⟨rows, afterRows⟩, read, decoded⟩ := bind_eq_ok decoded
  obtain ⟨-, decoded⟩ := guard_eq_ok decoded
  cases decoded
  have nothing : ∀ row ∈ (SortedMap.empty : SortedMap Bytes DedupEntry).entries, row.2.op = .put ∨ row.2.op = .delete :=
    fun _ present => absurd present List.not_mem_nil
  exact readDedup_known nothing read

namespace KVStateMachine

theorem restoreSnapshot_known {sm : KVStateMachine} (known : sm.contents.Known) (data : Bytes) :
    (sm.restoreSnapshot data).1.contents.Known := by
  unfold restoreSnapshot
  split
  · exact known
  · rename_i kv dedup decoded
    dsimp only
    split
    · exact known
    · split
      · exact known
      · exact decode_known decoded

end KVStateMachine

namespace Lived

theorem named {sm : KVStateMachine} (lived : Lived sm) : sm.store.Named := by
  induction lived with
  | fresh store named => exact named
  | @apply sm _ cmd ih =>
    rcases sm.apply_cases cmd with ⟨-, same⟩ | ⟨prev, result, -, -, same, -⟩
    · rw [same]
      exact KVStateMachine.record_named ih cmd
    · rwa [same]
  | restore _ data ih => exact KVStateMachine.restoreSnapshot_named ih data

theorem known {sm : KVStateMachine} (lived : Lived sm) : sm.contents.Known := by
  induction lived with
  | fresh store named => exact fun row present => absurd present List.not_mem_nil
  | apply _ cmd ih => exact KVStateMachine.apply_keeps_known ih cmd
  | restore _ data ih => exact KVStateMachine.restoreSnapshot_known ih data

theorem restores {s t : KVStateMachine} (source : Lived s) (target : Lived t) {data : Bytes}
    (created : s.createSnapshot = .ok data) (fits : data.length ≤ smMaxSnapshotBytes)
    (clean : t.store.Faultless (t.restoreSnapshot data).1.store) :
    ∃ after, t.restoreSnapshot data = (after, .ok ()) ∧ after.contents = s.contents := by
  have decoded := decode_createSnapshot created source.known fits
  have nonempty :
      [] ∉ (t.store.snapshot.map Prod.fst).filter fun key => !s.store.snapshot.any fun entry => entry.1 == key := by
    intro present
    obtain ⟨entry, held, blank⟩ := List.mem_map.mp (List.mem_filter.mp present).1
    exact target.named.ne_nil entry held blank
  have restored : ∃ store, t.restoreSnapshot data = (⟨store, s.dedup⟩, .ok ()) := by
    rcases t.store.deleteAll_faults nonempty with ⟨middle, deleted, struck⟩ | ⟨middle, deleted, unhurt⟩
    · simp only [KVStateMachine.restoreSnapshot, decoded, deleted] at clean
      exact absurd clean struck.not_faultless
    rcases middle.putAll_faults source.named.ne_nil with ⟨store, filled, struck⟩ | ⟨store, filled, -⟩
    · simp only [KVStateMachine.restoreSnapshot, decoded, deleted, filled] at clean
      exact absurd clean (unhurt.struck struck).not_faultless
    · exact ⟨store, by simp only [KVStateMachine.restoreSnapshot, decoded, deleted, filled]⟩
  obtain ⟨store, restored⟩ := restored
  exact ⟨_, restored, KVStateMachine.restoreSnapshot_contents source.known created restored⟩

end Lived

/-- The round trip: a fault-free restoration gives the source's pairs and requests, also after restorations that
faults cut short; bytes that do not decode change nothing; equal contents make equal bytes. -/
theorem snapshot_round_trip :
    (∀ s t data, Lived s → Lived t → s.createSnapshot = .ok data → data.length ≤ Raft.Words.maxSnapshotDataSize →
      (t.store.Faultless (t.restoreSnapshot data).1.store →
        ∃ after, t.restoreSnapshot data = (after, .ok ()) ∧ after.contents = s.contents) ∧
      ∀ hurt, hurt = (t.restoreSnapshot data).1 → hurt.store.Faultless (hurt.restoreSnapshot data).1.store →
        ∃ after, hurt.restoreSnapshot data = (after, .ok ()) ∧ after.contents = s.contents) ∧
    (∀ (t : KVStateMachine) data error, decodeKVStateMachineSnapshot data = .error error →
      t.restoreSnapshot data = (t, .error error)) ∧
    ∀ s other : KVStateMachine, (∀ key, s.store.table.get? key = other.store.table.get? key) →
      (∀ clientID, s.dedup.get? clientID = other.dedup.get? clientID) → s.createSnapshot = other.createSnapshot := by
  refine ⟨fun s t data source target created short => ?_, fun t data error failed => ?_,
    fun s other pairs requests => ?_⟩
  · have fits : data.length ≤ smMaxSnapshotBytes := Nat.le_trans short (by decide)
    refine ⟨fun clean => source.restores target created fits clean, ?_⟩
    rintro hurt rfl clean
    exact source.restores (target.restore data) created fits clean
  · rw [KVStateMachine.restoreSnapshot, failed]
  · have table : s.store.table = other.store.table := SortedMap.ext_get? pairs
    have dedup : s.dedup = other.dedup := SortedMap.ext_get? requests
    rw [KVStateMachine.createSnapshot, KVStateMachine.createSnapshot, MemStore.snapshot, MemStore.snapshot, table,
      dedup]

def writtenOnce : KVStateMachine :=
  ((newKVStateMachine ⟨SortedMap.empty, []⟩).apply (newPutCommand [97] 1 [107] [118])).1

def aboutToFail : KVStateMachine := newKVStateMachine ⟨SortedMap.empty.insert [120] [121], [true]⟩

def writtenBytes : Bytes := writtenOnce.createSnapshot.toOption.getD []

theorem writtenBytes_created : writtenOnce.createSnapshot = .ok writtenBytes := by
  have some : writtenOnce.createSnapshot.toOption.isSome = true := by decide
  unfold writtenBytes
  cases created : writtenOnce.createSnapshot with
  | error error =>
    rw [created] at some
    cases some
  | ok data => rfl

/-- A restoration that fails at its first delete leaves a machine that the next one restores. -/
theorem snapshot_round_trip_interrupted :
    writtenOnce.createSnapshot = .ok writtenBytes ∧
      (aboutToFail.restoreSnapshot writtenBytes).1.contents = aboutToFail.contents ∧
      ∃ after, (aboutToFail.restoreSnapshot writtenBytes).1.restoreSnapshot writtenBytes = (after, .ok ()) ∧
        after.contents = writtenOnce.contents := by
  have source : Lived writtenOnce := (Lived.fresh ⟨SortedMap.empty, []⟩ rfl).apply _
  have target : Lived aboutToFail := Lived.fresh ⟨SortedMap.empty.insert [120] [121], [true]⟩ rfl
  have faults : (aboutToFail.restoreSnapshot writtenBytes).1.store.faults = [] := by decide +kernel
  have after : ((aboutToFail.restoreSnapshot writtenBytes).1.restoreSnapshot writtenBytes).1.store.faults = [] := by
    decide +kernel
  refine ⟨writtenBytes_created, by decide +kernel, ?_⟩
  refine (snapshot_round_trip.1 _ _ _ source target writtenBytes_created (by decide)).2 _ rfl ?_
  exact ⟨[], by rw [faults, after]; rfl, List.not_mem_nil⟩

end ForgeDB.StateMachine
