import ForgeDB.Storage.Compaction.View

/-!
What a successful compaction does to the contents of the database, with tables added while it is in progress.
Only its publication can be seen: that exchanges its inputs for a table newer than all others.
-/

namespace ForgeDB.Storage.Compaction

open SSTable (Entry Sorted)
open Manifest (VersionSet Directory VersionError)

/-! ### The steps of a call up to its publication -/

namespace Call

def Proceeding (c : Call) : Prop :=
  match c.phase with
  | .opening _ _ | .removing | .building _ | .validating _ | .publishing _ => True
  | _ => False

def Failing (c : Call) : Prop :=
  match c.phase with
  | .discarding _ | .returned (.error _) => True
  | _ => False

theorem cases_progress (c : Call) : c.Proceeding ∨ c.Published ∨ c.Failing := by
  unfold Proceeding Published Failing
  cases c.phase with
  | returned outcome => cases outcome <;> simp
  | _ => simp

theorem Proceeding.pending {c : Call} (proceeding : c.Proceeding) : c.Pending := by
  unfold Proceeding at proceeding
  unfold Pending
  cases phase : c.phase with
  | retiring rest result | returned outcome =>
    rw [phase] at proceeding
    exact proceeding
  | _ => trivial

theorem Proceeding.not_failing {c : Call} (proceeding : c.Proceeding) : ¬c.Failing := by
  unfold Proceeding at proceeding
  unfold Failing
  cases phase : c.phase with
  | discarding error | returned outcome =>
    rw [phase] at proceeding
    exact proceeding.elim
  | _ => exact id

theorem Failing.not_published {c : Call} (failing : c.Failing) : ¬c.Published := by
  unfold Failing at failing
  unfold Published
  cases phase : c.phase with
  | returned outcome =>
    cases outcome with
    | error error => exact id
    | ok result =>
      rw [phase] at failing
      exact failing.elim
  | discarding error => exact id
  | _ =>
    rw [phase] at failing
    exact failing.elim

inductive Moves (c : Call) (s after : Store) (d : Call) : Prop
  | goes (proceeding : d.Proceeding) (vs : after.vs = s.vs) (dir : after.dir = s.dir)
    (files : ∀ path, path ≠ c.output → after.files.get? path = s.files.get? path)
  | removes (published : d.Published) (phase : c.phase = .removing) (files : after.files = s.files)
    (tables : after.vs.tables = s.vs.tables.eraseAll c.inputs)
  | replaces (published : d.Published) (merged : List Entry) (phase : c.phase = .publishing merged)
    (files : after.files = s.files)
    (tables : after.vs.tables = (s.vs.tables.eraseAll c.inputs).insert s.vs.nextID c.output)
  | fails (failing : d.Failing)

theorem Proceeding.step {c : Call} (proceeding : c.Proceeding) (s : Store) (fails : Bool) :
    c.Moves s (c.step s fails).1 (c.step s fails).2 := by
  unfold Call.step
  unfold Proceeding at proceeding
  cases phase : c.phase with
  | opening rest opened =>
    cases rest with
    | nil =>
      dsimp only
      split
      · exact .fails trivial
      · split
        · exact .goes trivial rfl rfl fun _ _ => rfl
        · exact .goes trivial rfl rfl fun _ _ => rfl
    | cons first rest =>
      dsimp only
      split
      · exact .goes trivial rfl rfl fun _ _ => rfl
      · exact .fails trivial
  | removing =>
    dsimp only
    rcases s.vs.removeTables_cases s.dir c.inputs with ⟨later, done⟩ | ⟨dir, done⟩
    · rw [done]
      exact .fails trivial
    · rw [done]
      exact .removes (c.published_published _) phase rfl rfl
  | building merged =>
    dsimp only
    split
    · exact .fails trivial
    · split
      · exact .fails trivial
      · exact .goes trivial rfl rfl fun path elsewhere => (SortedMap.get?_insert _ _ _ _).trans (if_neg elsewhere)
  | validating merged =>
    dsimp only
    split
    · exact .goes trivial rfl rfl fun _ _ => rfl
    · exact .fails trivial
  | publishing merged =>
    dsimp only
    rcases s.vs.replaceTables_cases s.dir c.inputs c.output with ⟨later, done⟩ | ⟨dir, done⟩
    · rw [done]
      exact .fails trivial
    · rw [done]
      exact .replaces (c.published_published _) merged phase rfl rfl
  | discarding error | retiring rest result | returned outcome =>
    rw [phase] at proceeding
    exact proceeding.elim

theorem Published.step {c : Call} (published : c.Published) (s : Store) (fails : Bool) :
    (c.step s fails).2.Published ∧ (c.step s fails).1.vs = s.vs := by
  unfold Published at published
  unfold Call.step
  cases phase : c.phase with
  | retiring rest result =>
    cases rest with
    | nil => exact ⟨trivial, rfl⟩
    | cons path rest => exact ⟨trivial, s.retire_vs path fails⟩
  | returned outcome =>
    refine ⟨?_, rfl⟩
    unfold Published
    rw [phase] at published ⊢
    exact published
  | _ =>
    rw [phase] at published
    exact published.elim

theorem Failing.step {c : Call} (failing : c.Failing) (s : Store) (fails : Bool) : (c.step s fails).2.Failing := by
  unfold Failing at failing
  unfold Call.step
  cases phase : c.phase with
  | discarding error => trivial
  | returned outcome =>
    unfold Failing
    rw [phase] at failing ⊢
    exact failing
  | _ =>
    rw [phase] at failing
    exact failing.elim

end Call

namespace Accounted

variable {s after : Store} {born : List Birth} {c : Call}

theorem below_next (accounted : Accounted s born) : ∀ t ∈ s.contents, t.1 < s.vs.nextID := by
  rintro ⟨id, table⟩ present
  obtain ⟨name, active, _⟩ := mem_contents.mp present
  obtain ⟨b, inside, rfl, _⟩ := accounted.active active
  exact accounted.below b inside

theorem removes (accounted : Accounted s born) (files : after.files = s.files)
    (tables : after.vs.tables = s.vs.tables.eraseAll c.inputs) :
    Exchanged c.inputs [] s.contents after.contents := by
  refine ⟨contents_byID s, contents_byID after, s.vs.nextID, accounted.below_next, fun id e => ?_⟩
  rw [held_others]
  simp only [Held, mem_contents, files, tables, SortedMap.get?_eraseAll, List.not_mem_nil, false_and, exists_false,
    and_false, or_false]
  by_cases inside : id ∈ c.inputs <;> simp [inside]

theorem replaces (accounted : Accounted s born) {merged : List Entry} {table : Table}
    (there : s.files.get? c.output = some table) (holds : table.entries = merged.map Entry.kept)
    (files : after.files = s.files)
    (tables : after.vs.tables = (s.vs.tables.eraseAll c.inputs).insert s.vs.nextID c.output) :
    Exchanged c.inputs merged s.contents after.contents := by
  refine ⟨contents_byID s, contents_byID after, s.vs.nextID, accounted.below_next, fun id e => ?_⟩
  rw [held_others]
  simp only [Held, mem_contents, files, tables, SortedMap.get?_insert, SortedMap.get?_eraseAll]
  by_cases new : id = s.vs.nextID
  · subst new
    rw [accounted.next_free]
    simp [there, holds, eq_comm]
  · by_cases inside : id ∈ c.inputs <;> simp [inside, new]

end Accounted

/-! ### Whole runs -/

def Event.adds : Event → Bool
  | addTable _ _ => true
  | _ => false

def Event.stepsOf (n : Nat) : Event → Bool
  | step call _ => call = n
  | _ => false

theorem Event.step_of {n : Nat} {event : Event} (steps : event.stepsOf n = true) : ∃ fails, event = .step n fails := by
  cases event with
  | step call fails =>
    have same : call = n := of_decide_eq_true steps
    exact ⟨fails, same ▸ rfl⟩
  | _ => cases steps

def World.Clears (w : World) : List Event → Prop
  | [] => True
  | event :: events => event.Clear w ∧ (w.next event).Clears events

instance (w : World) : (event : Event) → Decidable (event.Clear w)
  | .addTable .. => by
    unfold Event.Clear Unused
    infer_instance
  | .compact .. => by
    unfold Event.Clear Unused
    infer_instance
  | .step .. => inferInstanceAs (Decidable (w.store.vs.nextID.toNat + 1 < 2 ^ 64))
  | .acquire _ | .release .. => inferInstanceAs (Decidable True)

instance World.decidableClears (w : World) : (events : List Event) → Decidable (w.Clears events)
  | [] => inferInstanceAs (Decidable True)
  | event :: events =>
    have := World.decidableClears (w.next event) events
    inferInstanceAs (Decidable (event.Clear w ∧ (w.next event).Clears events))

theorem World.run_append (w : World) (first second : List Event) : w.run (first ++ second) = (w.run first).run second :=
  List.foldl_append

theorem World.clears_append {w : World} {first second : List Event} :
    w.Clears (first ++ second) ↔ w.Clears first ∧ (w.run first).Clears second := by
  induction first generalizing w with
  | nil => exact (true_and _).symm.to_iff
  | cons event first ih => rw [List.cons_append, Clears, Clears, ih, and_assoc, run, run, List.foldl_cons]

def World.call? (w : World) (n : Nat) : Option Call := (w.calls[n]?).map Prod.fst

namespace World.Sound

variable {u : World} {n : Nat} {c : Call}

theorem stepped (sound : u.Sound) (there : u.call? n = some c) {fails : Bool}
    (clear : (Event.step n fails).Clear u) :
    ∃ d, (u.next (.step n fails)).call? n = some d ∧ d = (c.step u.store fails).2 ∧ d.inputs = c.inputs ∧
      d.dropTombstones = c.dropTombstones ∧ (u.next (.step n fails)).store = (c.step u.store fails).1 ∧
      Accounted (c.step u.store fails).1 (u.born ++ births u.store (c.step u.store fails).1) := by
  obtain ⟨⟨c, changed⟩, found, rfl⟩ := Option.map_eq_some_iff.mp there
  have stepped := (sound.calls found).step sound.store clear fails
  refine ⟨(c.step u.store fails).2, ?_, rfl, stepped.inputs, stepped.drops, ?_, stepped.accounted⟩
  · rw [next_step_some found, call?, List.getElem?_set_self (List.getElem?_eq_some_iff.mp found).1]
    rfl
  · rw [next_step_some found]

theorem call_sound (sound : u.Sound) (there : u.call? n = some c) : ∃ changed, c.Sound changed u.store u.born := by
  obtain ⟨⟨c, changed⟩, found, rfl⟩ := Option.map_eq_some_iff.mp there
  exact ⟨changed, sound.calls found⟩

theorem published_run (sound : u.Sound) (there : u.call? n = some c) (published : c.Published) {finish : List Event}
    (steps : ∀ e ∈ finish, e.stepsOf n = true) (clears : u.Clears finish) :
    (u.run finish).store.contents = u.store.contents := by
  induction finish generalizing u c with
  | nil => rfl
  | cons event finish ih =>
    obtain ⟨fails, rfl⟩ := Event.step_of (steps event List.mem_cons_self)
    obtain ⟨clear, later⟩ := clears
    obtain ⟨d, here, same, _, _, store, accounted⟩ := sound.stepped there clear
    obtain ⟨still, vs⟩ := published.step u.store fails
    have kept := sound.store.contents_eq accounted vs
    rw [← store] at kept
    exact (ih (sound.next clear) here (same ▸ still) (fun e present => steps e (List.mem_cons_of_mem _ present))
      later).trans
      kept

theorem failing_run (sound : u.Sound) (there : u.call? n = some c) (failing : c.Failing) {finish : List Event}
    (steps : ∀ e ∈ finish, e.stepsOf n = true) (clears : u.Clears finish) :
    ∃ d, (u.run finish).call? n = some d ∧ d.Failing := by
  induction finish generalizing u c with
  | nil => exact ⟨c, there, failing⟩
  | cons event finish ih =>
    obtain ⟨fails, rfl⟩ := Event.step_of (steps event List.mem_cons_self)
    obtain ⟨clear, later⟩ := clears
    obtain ⟨d, here, same, _⟩ := sound.stepped there clear
    exact ih (sound.next clear) here (same ▸ failing.step u.store fails)
      (fun e present => steps e (List.mem_cons_of_mem _ present)) later

theorem proceeding_run (sound : u.Sound) (there : u.call? n = some c) (proceeding : c.Proceeding) {finish : List Event}
    (steps : ∀ e ∈ finish, e.stepsOf n = true) (clears : u.Clears finish)
    (active : ∀ id ∈ c.inputs, ∃ name, u.store.vs.tables.get? id = some name) {last : Call}
    (final : (u.run finish).call? n = some last) (succeeded : last.Published) :
    ∃ merged, MergeOf c.inputs c.dropTombstones u.store.contents merged ∧
      Exchanged c.inputs merged u.store.contents (u.run finish).store.contents := by
  induction finish generalizing u c with
  | nil =>
    have same : some c = some last := there.symm.trans final
    cases same
    exact absurd proceeding.pending succeeded.not_pending
  | cons event finish ih =>
    obtain ⟨fails, rfl⟩ := Event.step_of (steps event List.mem_cons_self)
    obtain ⟨clear, later⟩ := clears
    obtain ⟨d, here, same, inputs, drops, store, accounted⟩ := sound.stepped there clear
    obtain ⟨changed, call⟩ := sound.call_sound there
    have reads := call.reads proceeding.pending
    have placed := call.placed
    have stepsLater := fun e present => steps e (List.mem_cons_of_mem _ present)
    unfold Call.Placed at placed
    have moves := proceeding.step u.store fails
    rw [← same, ← store] at moves
    cases moves with
    | goes proceeding vs dir files =>
      have kept := sound.store.contents_eq (store ▸ accounted) vs
      have rest := ih (sound.next clear) here proceeding stepsLater later (inputs.symm ▸ vs.symm ▸ active) final
      rw [kept, inputs, drops] at rest
      exact rest
    | removes published phase files tables =>
      rw [phase] at placed
      refine ⟨[], sound.store.mergeOf reads.sorted active placed, ?_⟩
      have rest := (sound.next clear).published_run here published stepsLater later
      have exchanged := sound.store.removes files tables
      rw [← rest] at exchanged
      exact exchanged
    | replaces published merged phase files tables =>
      rw [phase] at placed
      obtain ⟨from_, table, output, holds⟩ := placed
      refine ⟨merged, sound.store.mergeOf reads.sorted active from_, ?_⟩
      have rest := (sound.next clear).published_run here published stepsLater later
      have exchanged := sound.store.replaces output holds files tables
      rw [← rest] at exchanged
      exact exchanged
    | fails failing =>
      obtain ⟨e, end_, never⟩ := (sound.next clear).failing_run here failing stepsLater later
      have equal : some e = some last := end_.symm.trans final
      cases equal
      exact absurd succeeded never.not_published

end World.Sound

/-! ### Tables added in the meantime -/

/-- A world with a call in it beside one without: as long as the call is proceeding, only its output differs, and
its inputs are active. -/
structure Beside (n : Nat) (inputs : List UInt64) (dropTombstones : Bool) (v u : World) : Prop where
  sound : u.Sound
  call : ∃ c, u.call? n = some c ∧ c.inputs = inputs ∧ c.dropTombstones = dropTombstones ∧
    (c.Proceeding → v.store.vs = u.store.vs ∧ v.store.dir = u.store.dir ∧
      (∀ path, path ≠ outputFileName inputs → v.store.files.get? path = u.store.files.get? path) ∧
      ∀ id ∈ inputs, ∃ name, u.store.vs.tables.get? id = some name)

theorem Store.addTable_active (s : Store) (fileName : Bytes) (table : Table) {id : UInt64} {name : Bytes}
    (active : s.vs.tables.get? id = some name) : ∃ name, (s.addTable fileName table).vs.tables.get? id = some name := by
  unfold addTable
  rcases s.vs.addTable_cases s.dir fileName with ⟨later, done⟩ | ⟨dir, done⟩
  · rw [done]
    exact ⟨name, active⟩
  · rw [done]
    dsimp only
    rw [SortedMap.get?_insert]
    split
    · exact ⟨_, rfl⟩
    · exact ⟨name, active⟩

namespace Beside

variable {n : Nat} {inputs : List UInt64} {dropTombstones : Bool} {v u : World}

section

variable (beside : Beside n inputs dropTombstones v u)

include beside

theorem add {fileName : Bytes} {table : Table} (clear : (Event.addTable fileName table).Clear u) :
    Beside n inputs dropTombstones (v.next (.addTable fileName table)) (u.next (.addTable fileName table)) := by
  refine ⟨beside.sound.next clear, ?_⟩
  obtain ⟨c, there, listed, drops, related⟩ := beside.call
  refine ⟨c, there, listed, drops, fun proceeding => ?_⟩
  obtain ⟨vs, dir, files, active⟩ := related proceeding
  refine ⟨?_, ?_, fun path elsewhere => ?_, fun id inside => ?_⟩
  · simp only [World.next, Store.addTable, vs, dir]
  · simp only [World.next, Store.addTable, vs, dir]
  · change (v.store.files.insert fileName table).get? path = (u.store.files.insert fileName table).get? path
    rw [SortedMap.get?_insert, SortedMap.get?_insert, files path elsewhere]
  · obtain ⟨name, found⟩ := active id inside
    exact u.store.addTable_active fileName table found

theorem step {fails : Bool} (clear : (Event.step n fails).Clear u) :
    Beside n inputs dropTombstones v (u.next (.step n fails)) := by
  refine ⟨beside.sound.next clear, ?_⟩
  obtain ⟨c, there, listed, drops, related⟩ := beside.call
  obtain ⟨d, here, same, listedAfter, dropsAfter, store, _⟩ := beside.sound.stepped there clear
  refine ⟨d, here, listedAfter.trans listed, dropsAfter.trans drops, fun proceeding => ?_⟩
  rcases c.cases_progress with going | published | failing
  · obtain ⟨vs, dir, files, active⟩ := related going
    have moves := going.step u.store fails
    rw [← same, ← store] at moves
    cases moves with
    | goes _ vsAfter dirAfter filesAfter =>
      refine ⟨vs.trans vsAfter.symm, dir.trans dirAfter.symm, fun path elsewhere => ?_, ?_⟩
      · rw [files path elsewhere, filesAfter path (by rw [Call.output, listed]; exact elsewhere)]
      · rw [vsAfter]
        exact active
    | removes published _ _ _ | replaces published _ _ _ _ => exact absurd proceeding.pending published.not_pending
    | fails failing => exact absurd failing proceeding.not_failing
  · have still := (published.step u.store fails).1
    rw [← same] at still
    exact absurd proceeding.pending still.not_pending
  · have still := failing.step u.store fails
    rw [← same] at still
    exact absurd still proceeding.not_failing

theorem run {landing : List Event} (lands : ∀ e ∈ landing, e.adds = true ∨ e.stepsOf n = true)
    (clears : u.Clears landing) :
    Beside n inputs dropTombstones (v.run (landing.filter Event.adds)) (u.run landing) := by
  induction landing generalizing v u with
  | nil => exact beside
  | cons event landing ih =>
    obtain ⟨clear, later⟩ := clears
    have landsLater := fun e present => lands e (List.mem_cons_of_mem _ present)
    cases event with
    | addTable fileName table => exact ih (beside.add clear) landsLater later
    | step call fails =>
      have same : call = n := by
        rcases lands _ List.mem_cons_self with adds | steps
        · cases adds
        · exact of_decide_eq_true steps
      subst same
      exact ih (beside.step clear) landsLater later
    | _ => exact absurd (lands _ List.mem_cons_self) (by simp [Event.adds, Event.stepsOf])

theorem contents {c : Call} (there : u.call? n = some c) (proceeding : c.Proceeding) :
    v.store.contents = u.store.contents := by
  obtain ⟨d, here, listed, _, related⟩ := beside.call
  have same : some d = some c := here.symm.trans there
  cases same
  obtain ⟨vs, _, files, _⟩ := related proceeding
  obtain ⟨changed, call⟩ := beside.sound.call_sound there
  refine contents_congr vs fun {id name} active => files name fun output => ?_
  obtain ⟨b, born, _, named⟩ := beside.sound.store.active active
  refine (call.reads proceeding.pending).unused b born (named.trans ?_)
  rw [output, Call.output, listed]

end

end Beside

theorem World.Sound.beside {w : World} (sound : w.Sound) {inputIDs : List UInt64} {tracked : Bool}
    (clear : (Event.compact inputIDs tracked).Clear w) :
    Beside w.calls.length (sortInputs inputIDs) (Call.start w.store.vs inputIDs tracked).dropTombstones w
      (w.next (.compact inputIDs tracked)) := by
  refine ⟨sound.next clear, Call.start w.store.vs inputIDs tracked, ?_, Call.start_inputs _ _ _, rfl,
    fun proceeding => ?_⟩
  · simp only [World.call?, World.next, List.getElem?_append_right (Nat.le_refl _), Nat.sub_self,
      List.getElem?_cons_zero, Option.map_some]
  · refine ⟨rfl, rfl, fun _ _ => rfl, fun id inside => ?_⟩
    rcases Call.start_cases w.store.vs inputIDs tracked with ⟨error, same⟩ | ⟨_, _, paths, _, _, listed, active, _⟩
    · rw [same] at proceeding
      exact proceeding.elim
    · obtain ⟨p, present, rfl⟩ := List.mem_map.mp (listed.symm ▸ inside : id ∈ paths.map Prod.fst)
      exact ⟨p.2, active p present⟩

/-- A version whose tables have files of their own and IDs that were handed out, with no file left to remove. -/
structure Store.Consistent (s : Store) : Prop where
  below : ∀ t ∈ s.vs.current, t.1 < s.vs.nextID
  names : (s.vs.current.map Prod.snd).Nodup
  files : ∀ t ∈ s.vs.current, (s.files.get? t.2).isSome = true
  retired : s.tracker.retired = SortedMap.empty

def World.of (s : Store) : World := ⟨s, [], s.vs.current.map fun t => ⟨t.1, t.2, s.files.get? t.2⟩, []⟩

theorem Store.Consistent.sound {s : Store} (consistent : s.Consistent) : (World.of s).Sound := by
  refine ⟨⟨?_, ?_, ?_, ?_, ?_, ?_⟩, ?_, ?_⟩
  · change ((s.vs.current.map _).map _).Nodup
    rw [List.map_map, List.Nodup, List.pairwise_map]
    exact s.vs.tables.sorted.imp ne_of_lt
  · change ((s.vs.current.map _).map _).Nodup
    rw [List.map_map]
    exact consistent.names
  · intro b present
    obtain ⟨t, inside, rfl⟩ := List.mem_map.mp present
    exact consistent.below t inside
  · intro id name active
    exact ⟨_, List.mem_map.mpr ⟨(id, name), SortedMap.mem_of_lookup active, rfl⟩, rfl, rfl⟩
  · intro b present
    obtain ⟨t, inside, rfl⟩ := List.mem_map.mp present
    obtain ⟨table, found⟩ := Option.isSome_iff_exists.mp (consistent.files t inside)
    exact ⟨table, found, Or.inl found⟩
  · intro path marked
    change s.tracker.retired.get? path = some () at marked
    rw [consistent.retired] at marked
    cases marked
  · intro i c changed found
    cases found
  · intro i j c d x y found
    cases found

def tombstoneTable (key : UInt8) : Table := ⟨[⟨[key], [], true⟩], List.pairwise_singleton _ _⟩

def versionOf (tables : List Table) : World :=
  (World.fresh []).run (tables.mapIdx fun i table => .addTable [UInt8.ofNat (97 + i)] table)

/-- A call to `Compact` starts, tables are added while it takes its first steps, it publishes, and it returns
without an error. For every key the value afterwards is the one without the compaction exactly if the key is
undisturbed. -/
theorem compaction_keeps_value_iff {w : World} (sound : w.Sound) {inputIDs : List UInt64} {tracked : Bool}
    {landing finish : List Event} (lands : ∀ e ∈ landing, e.adds = true ∨ e.stepsOf w.calls.length = true)
    (steps : ∀ e ∈ finish, e.stepsOf w.calls.length = true)
    (clears : w.Clears (.compact inputIDs tracked :: (landing ++ finish)))
    (unpublished : ∃ c, (w.run (.compact inputIDs tracked :: landing)).call? w.calls.length = some c ∧ c.Pending)
    (succeeded : ∃ c result, (w.run (.compact inputIDs tracked :: (landing ++ finish))).call? w.calls.length = some c ∧
      c.phase = .returned (.ok result)) (key : Bytes) :
    (w.run (.compact inputIDs tracked :: (landing ++ finish))).store.view key =
        (w.run (landing.filter Event.adds)).store.view key ↔
      Undisturbed (sortInputs inputIDs) (Call.start w.store.vs inputIDs tracked).dropTombstones
        (w.run (landing.filter Event.adds)).store.contents key := by
  obtain ⟨clear, later⟩ := clears
  obtain ⟨clearsLanding, clearsFinish⟩ := World.clears_append.mp later
  have beside := (sound.beside clear).run lands clearsLanding
  obtain ⟨c, there, pending⟩ := unpublished
  obtain ⟨last, result, final, returned⟩ := succeeded
  have published : last.Published := by
    unfold Call.Published
    rw [returned]
    exact trivial
  have split : w.run (.compact inputIDs tracked :: (landing ++ finish)) =
      (w.run (.compact inputIDs tracked :: landing)).run finish := World.run_append w (_ :: landing) finish
  rw [split] at final ⊢
  change Beside _ _ _ _ (w.run (.compact inputIDs tracked :: landing)) at beside
  change World.Clears (w.run (.compact inputIDs tracked :: landing)) finish at clearsFinish
  generalize w.run (.compact inputIDs tracked :: landing) = u at *
  obtain ⟨d, here, listed, drops, related⟩ := beside.call
  have same : some d = some c := here.symm.trans there
  cases same
  have proceeding : c.Proceeding := by
    rcases c.cases_progress with going | done | failing
    · exact going
    · exact absurd pending done.not_pending
    · obtain ⟨e, end_, never⟩ := beside.sound.failing_run there failing steps clearsFinish
      have equal : some e = some last := end_.symm.trans final
      cases equal
      exact absurd published never.not_published
  obtain ⟨_, _, _, active⟩ := related proceeding
  obtain ⟨merged, merge, exchanged⟩ :=
    beside.sound.proceeding_run there proceeding steps clearsFinish (listed.symm ▸ active) final published
  rw [listed, drops, ← beside.contents there proceeding] at merge
  rw [listed, ← beside.contents there proceeding] at exchanged
  exact exchanged.view_iff merge key

/-- All tables there are when the call starts are compacted; another one comes in between. -/
theorem compaction_keeps_value_iff_all :
    let w := World.of (versionOf [singleTable 1 1, singleTable 1 2]).store
    (w.run (.compact [2, 1] true ::
      ([.addTable [100] (singleTable 2 3), .step 0 false] ++ stepAll 0 8))).store.view [1] =
      (w.run [.addTable [100] (singleTable 2 3)]).store.view [1] :=
  (compaction_keeps_value_iff (Store.Consistent.sound ⟨by decide, by decide, by decide,
    by decide⟩) (by decide) (by decide) (by decide)
    ⟨_, rfl, by decide⟩ ⟨_, ⟨4, outputFileName [1, 2], [1, 2]⟩, rfl, by decide⟩ [1]).mpr
      (by decide)

/-- What an old table, compacted alone, takes from a newer one; what it takes from one that was added in the
meantime; and a deleted value that comes back, as no table is older than the oldest input. -/
theorem compaction_changes_values :
    (let before := versionOf [singleTable 1 1, singleTable 1 2]
      let after := before.run (.compact [1] false :: stepAll 0 5)
      (after.call? 0).map Call.phase = some (.returned (.ok ⟨3, outputFileName [1], [1]⟩)) ∧
        before.store.view [1] = some [2] ∧ after.store.view [1] = some [1]) ∧
    (let before := versionOf [singleTable 1 1]
      let after := before.run (.compact [1] false :: .addTable [98] (singleTable 1 2) :: stepAll 0 5)
      (after.call? 0).map Call.phase = some (.returned (.ok ⟨3, outputFileName [1], [1]⟩)) ∧
        (before.run [.addTable [98] (singleTable 1 2)]).store.view [1] = some [2] ∧ after.store.view [1] = some [1]) ∧
    (let before := versionOf [singleTable 1 1, singleTable 1 2, tombstoneTable 1]
      let after := before.run (.compact [1, 3] false :: stepAll 0 4)
      (after.call? 0).map Call.phase = some (.returned (.ok ⟨0, [], [1, 3]⟩)) ∧
        before.store.view [1] = none ∧ after.store.view [1] = some [2]) := by
  refine ⟨⟨?_, ?_, ?_⟩, ⟨?_, ?_, ?_⟩, ?_, ?_, ?_⟩ <;> decide

end ForgeDB.Storage.Compaction
