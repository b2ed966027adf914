import ForgeDB.Storage.Compaction.Steps

/-!
Interleavings of calls to `Compact`, additions of tables and readers that come and go. As long as no
two calls with the same inputs are in progress at once, no call ever touches the file of an active
table.
-/

namespace ForgeDB.Storage.Compaction

open SSTable (Entry Sorted)
open Manifest (VersionSet Directory VersionError)

/-! ### The start of a call -/

theorem strict_of_duplicate {ids : List UInt64} (sorted : ids.Pairwise (· ≤ ·)) (none : duplicate? ids = none) :
    ids.Pairwise (· < ·) := by
  induction ids with
  | nil => exact List.Pairwise.nil
  | cons first rest ih =>
    obtain ⟨above, tail⟩ := List.pairwise_cons.mp sorted
    cases rest with
    | nil => exact List.pairwise_singleton _ _
    | cons second rest =>
      unfold duplicate? at none
      split at none
      · cases none
      · rename_i different
        have strict := ih tail none
        have below : first < second := lt_of_le_of_ne (above second List.mem_cons_self) (Ne.symm different)
        refine List.pairwise_cons.mpr ⟨fun id present => ?_, strict⟩
        rcases List.mem_cons.mp present with rfl | later
        · exact below
        · exact lt_trans below ((List.pairwise_cons.mp strict).1 id later)

theorem inputPaths_ok {vs : VersionSet} {ids : List UInt64} {paths : List (UInt64 × Bytes)}
    (found : inputPaths vs ids = .ok paths) :
    paths.map Prod.fst = ids ∧ ∀ p ∈ paths, vs.tables.get? p.1 = some p.2 := by
  induction ids generalizing paths with
  | nil =>
    cases found
    exact ⟨rfl, fun _ never => absurd never List.not_mem_nil⟩
  | cons id ids ih =>
    unfold inputPaths at found
    split at found
    · cases found
    · rename_i fileName rest there later
      cases found
      obtain ⟨listed, active⟩ := ih later
      exact ⟨by rw [List.map_cons, listed], List.forall_mem_cons.mpr ⟨there, active⟩⟩
    · cases found

theorem Call.start_cases (vs : VersionSet) (inputIDs : List UInt64) (tracked : Bool) :
    (∃ error, Call.start vs inputIDs tracked = ⟨sortInputs inputIDs, [], false, tracked, .returned (.error error)⟩) ∨
    ∃ minInputID rest paths, sortInputs inputIDs = minInputID :: rest ∧
      (sortInputs inputIDs).Pairwise (· < ·) ∧ paths.map Prod.fst = sortInputs inputIDs ∧
      (∀ p ∈ paths, vs.tables.get? p.1 = some p.2) ∧
      Call.start vs inputIDs tracked = ⟨sortInputs inputIDs, paths,
        canDropTombstones vs (sortInputs inputIDs) minInputID, tracked, .opening paths []⟩ := by
  have sorted : (sortInputs inputIDs).Pairwise (· ≤ ·) := List.pairwise_insertionSort _ _
  unfold start
  dsimp only
  split
  · exact Or.inl ⟨_, rfl⟩
  · rename_i minInputID rest shape
    split
    · exact Or.inl ⟨_, rfl⟩
    · exact Or.inl ⟨_, rfl⟩
    · rename_i none found
      obtain ⟨listed, active⟩ := inputPaths_ok found
      exact Or.inr ⟨minInputID, rest, _, shape, strict_of_duplicate sorted none, listed, active, rfl⟩

theorem Call.start_inputs (vs : VersionSet) (inputIDs : List UInt64) (tracked : Bool) :
    (Call.start vs inputIDs tracked).inputs = sortInputs inputIDs := by
  rcases Call.start_cases vs inputIDs tracked with ⟨error, same⟩ | ⟨_, _, _, _, _, _, _, same⟩
  · rw [same]
  · rw [same]

theorem Call.start_sound {s : Store} {born : List Birth} (accounted : Accounted s born) (inputIDs : List UInt64)
    (tracked : Bool)
    (unused : (Call.start s.vs inputIDs tracked).Pending → Unused born (Call.start s.vs inputIDs tracked).output) :
    (Call.start s.vs inputIDs tracked).Sound false s born := by
  rcases Call.start_cases s.vs inputIDs tracked with ⟨error, same⟩ | ⟨_, _, paths, shape, strict, listed, active, same⟩
  · rw [same]
    exact ⟨fun never => never.elim, trivial, fun never => absurd never Bool.false_ne_true⟩
  · rw [same] at unused ⊢
    refine ⟨fun pending => ⟨?_, strict, listed, fun p present => accounted.active (active p present), unused pending⟩,
      ⟨listed, fun _ present => present, fun _ never => absurd never List.not_mem_nil⟩,
      fun never => absurd never Bool.false_ne_true⟩
    dsimp only
    rw [shape]
    exact List.cons_ne_nil _ _

/-! ### What every state of a run satisfies -/

structure World.Sound (w : World) : Prop where
  store : Accounted w.store w.born
  calls : ∀ {i : Nat} {c : Call} {changed : Bool}, w.calls[i]? = some (c, changed) → c.Sound changed w.store w.born
  apart : ∀ {i j : Nat} {c d : Call} {x y : Bool}, w.calls[i]? = some (c, x) → w.calls[j]? = some (d, y) →
    c.Pending → d.Pending → c.output = d.output → i = j

def Event.Clear (w : World) : Event → Prop
  | addTable fileName _ =>
    Unused w.born fileName ∧ (∀ e ∈ w.calls, e.1.Pending → e.1.output ≠ fileName) ∧
      w.store.vs.nextID.toNat + 1 < 2 ^ 64
  | compact inputIDs tracked =>
    (Call.start w.store.vs inputIDs tracked).Pending →
      Unused w.born (Call.start w.store.vs inputIDs tracked).output ∧
      ∀ e ∈ w.calls, e.1.Pending → e.1.output ≠ (Call.start w.store.vs inputIDs tracked).output
  | step _ _ => w.store.vs.nextID.toNat + 1 < 2 ^ 64
  | acquire _ | release _ _ => True

structure Added (s : Store) (born : List Birth) (fileName : Bytes) (after : Store) : Prop where
  accounted : Accounted after (born ++ births s after)
  quiet : ∀ b ∈ born, s.vs.tables.get? b.id = none → after.vs.tables.get? b.id = none
  new : ∀ b ∈ births s after, b.name = fileName
  files : ∀ {path}, path ≠ fileName → after.files.get? path = s.files.get? path

theorem Accounted.addTable {s : Store} {born : List Birth} (accounted : Accounted s born) {fileName : Bytes}
    (unused : Unused born fileName) (room : s.vs.nextID.toNat + 1 < 2 ^ 64) (table : Table) :
    Added s born fileName (s.addTable fileName table) := by
  have placed : Accounted { s with files := s.files.insert fileName table } born :=
    accounted.insert_unused unused table
  have there : (s.files.insert fileName table).get? fileName = some table := by
    rw [SortedMap.get?_insert, if_pos rfl]
  have elsewhere : ∀ {path}, path ≠ fileName → (s.files.insert fileName table).get? path = s.files.get? path := by
    intro path different
    rw [SortedMap.get?_insert, if_neg different]
  unfold Store.addTable
  rcases s.vs.addTable_cases s.dir fileName with ⟨later, done⟩ | ⟨dir, done⟩
  · rw [done]
    dsimp only
    have none : births s ⟨s.vs, ⟨s.dir.manifest, later⟩, s.files.insert fileName table, s.tracker⟩ = [] :=
      accounted.births_none id
    refine ⟨?_, fun _ _ => id, ?_, elsewhere⟩
    · rw [none, List.append_nil]
      exact placed.frame rfl rfl placed.retired
    · rw [none]
      exact fun _ never => absurd never List.not_mem_nil
  · rw [done]
    dsimp only
    have one : births s ⟨⟨s.vs.nextID + 1, s.vs.tables.insert s.vs.nextID fileName⟩, dir,
        s.files.insert fileName table, s.tracker⟩ = [⟨s.vs.nextID, fileName, some table⟩] := by
      rw [births]
      dsimp only
      rw [SortedMap.get?_insert, if_pos rfl]
      dsimp only
      rw [there]
    refine ⟨?_, fun b present inactive => ?_, ?_, elsewhere⟩
    · rw [one]
      exact placed.activate unused there room dir
    · dsimp only
      rw [SortedMap.get?_insert, if_neg (accounted.below b present).ne, inactive]
    · rw [one]
      intro b present
      rw [List.mem_singleton.mp present]

theorem Store.release_vs (s : Store) (path : Bytes) (fails : Bool) : (s.release path fails).vs = s.vs := by
  unfold release remove
  split
  · rfl
  · split
    · dsimp only
      split
      · split <;> rfl
      · rfl
    · rfl

theorem Accounted.release_files {s : Store} {born : List Birth} (accounted : Accounted s born) {path other : Bytes}
    (fails : Bool) (unused : Unused born other) :
    (s.release path fails).files.get? other = s.files.get? other := by
  unfold Store.release
  split
  · rfl
  · split
    · dsimp only
      split
      · rename_i marked
        obtain ⟨b, inside, named, _⟩ := accounted.retired marked
        unfold Store.remove
        split
        · rfl
        · exact (SortedMap.get?_erase _ _ _).trans (if_neg fun same => unused b inside (named.trans same.symm))
      · rfl
    · rfl

theorem World.next_step_none {w : World} {call : Nat} (none : w.calls[call]? = none) (fails : Bool) :
    w.next (.step call fails) = w := by
  simp only [World.next, none]

theorem World.next_step_some {w : World} {call : Nat} {c : Call} {changed : Bool}
    (there : w.calls[call]? = some (c, changed)) (fails : Bool) :
    w.next (.step call fails) = ⟨(c.step w.store fails).1,
      w.calls.set call ((c.step w.store fails).2, changed || !World.same w.store (c.step w.store fails).1),
      w.born ++ births w.store (c.step w.store fails).1, w.added⟩ := by
  simp only [World.next, there]

namespace World.Sound

variable {w : World}

theorem addTable (sound : w.Sound) {fileName : Bytes} {table : Table}
    (clear : (Event.addTable fileName table).Clear w) :
    (w.next (.addTable fileName table)).Sound := by
  obtain ⟨unused, apart, room⟩ := clear
  have added := sound.store.addTable unused room table
  refine ⟨added.accounted, fun {i c changed} found => ?_, sound.apart⟩
  have other : c.Pending → c.output ≠ fileName := apart (c, changed) (List.mem_of_getElem? found)
  exact (sound.calls found).frame added.quiet
    (fun pending b present same => other pending (same.symm.trans (added.new b present)))
    fun pending => added.files (other pending)

theorem compact (sound : w.Sound) {inputIDs : List UInt64} {tracked : Bool}
    (clear : (Event.compact inputIDs tracked).Clear w) : (w.next (.compact inputIDs tracked)).Sound := by
  have started := Call.start_sound sound.store inputIDs tracked fun pending => (clear pending).1
  have last : ∀ {i : Nat} {c : Call} {changed : Bool},
      (w.calls ++ [(Call.start w.store.vs inputIDs tracked, false)])[i]? = some (c, changed) →
      w.calls[i]? = some (c, changed) ∨ i = w.calls.length ∧ c = Call.start w.store.vs inputIDs tracked ∧
        changed = false := by
    intro i c changed found
    rcases Nat.lt_or_ge i w.calls.length with inside | beyond
    · rw [List.getElem?_append_left inside] at found
      exact Or.inl found
    · rw [List.getElem?_append_right beyond, List.getElem?_singleton] at found
      split at found
      · cases found
        exact Or.inr ⟨by omega, rfl, rfl⟩
      · cases found
  have differs : ∀ {i : Nat} {c : Call} {changed : Bool}, w.calls[i]? = some (c, changed) → c.Pending →
      (Call.start w.store.vs inputIDs tracked).Pending → c.output ≠ (Call.start w.store.vs inputIDs tracked).output :=
    fun found pending now => (clear now).2 _ (List.mem_of_getElem? found) pending
  refine ⟨sound.store, fun found => ?_, fun {i j c d x y} found foundSecond pending pendingSecond same => ?_⟩
  · rcases last found with old | ⟨_, rfl, rfl⟩
    · exact sound.calls old
    · exact started
  · rcases last found with old | ⟨here, rfl, rfl⟩
    · rcases last foundSecond with oldSecond | ⟨_, rfl, rfl⟩
      · exact sound.apart old oldSecond pending pendingSecond same
      · exact absurd same (differs old pending pendingSecond)
    · rcases last foundSecond with oldSecond | ⟨there, rfl, rfl⟩
      · exact absurd same.symm (differs oldSecond pendingSecond pending)
      · exact here.trans there.symm

theorem step (sound : w.Sound) {call : Nat} {fails : Bool} (clear : (Event.step call fails).Clear w) :
    (w.next (.step call fails)).Sound := by
  cases there : w.calls[call]? with
  | none =>
    rw [next_step_none there]
    exact sound
  | some entry =>
    obtain ⟨c, changed⟩ := entry
    have stepped := (sound.calls there).step sound.store clear fails
    rw [next_step_some there]
    generalize c.step w.store fails = result at stepped
    obtain ⟨after, d⟩ := result
    dsimp only at stepped ⊢
    have which : ∀ {i : Nat} {e : Call} {x : Bool},
        (w.calls.set call (d, changed || !World.same w.store after))[i]? = some (e, x) →
        i = call ∧ e = d ∧ x = (changed || !World.same w.store after) ∨ i ≠ call ∧ w.calls[i]? = some (e, x) := by
      intro i e x found
      by_cases here : i = call
      · rw [here, List.getElem?_set_self (List.getElem?_eq_some_iff.mp there).1] at found
        cases found
        exact Or.inl ⟨here, rfl, rfl⟩
      · rw [List.getElem?_set_ne (Ne.symm here)] at found
        exact Or.inr ⟨here, found⟩
    have output : d.output = c.output := by rw [Call.output, stepped.inputs, Call.output]
    refine ⟨stepped.accounted, fun {i e x} found => ?_,
      fun {i j e f x y} found foundSecond pending pendingSecond same => ?_⟩
    · rcases which found with ⟨_, rfl, rfl⟩ | ⟨elsewhere, old⟩
      · exact stepped.sound
      · have apart : e.Pending → c.Pending → e.output ≠ c.output := fun pending now same =>
          elsewhere (sound.apart old there pending now same)
        have sound := sound.calls old
        refine sound.frame stepped.quiet (fun pending b present same => ?_) fun pending => ?_
        · obtain ⟨now, named, _⟩ := stepped.new b present
          exact apart pending now (same.symm.trans named)
        · exact stepped.files (fun now => apart pending now) (sound.reads pending).unused
    · rcases which found with ⟨here, rfl, rfl⟩ | ⟨elsewhere, old⟩
      · rcases which foundSecond with ⟨alsoHere, rfl, rfl⟩ | ⟨elsewhere, old⟩
        · exact here.trans alsoHere.symm
        · exact absurd (sound.apart old there pendingSecond (stepped.pending pending) (same.symm.trans output))
            elsewhere
      · rcases which foundSecond with ⟨here, rfl, rfl⟩ | ⟨_, oldSecond⟩
        · exact absurd (sound.apart old there pending (stepped.pending pendingSecond) (same.trans output)) elsewhere
        · exact sound.apart old oldSecond pending pendingSecond same

theorem readers (sound : w.Sound) {after : Store} (accounted : Accounted after w.born) (vs : after.vs = w.store.vs)
    (files : ∀ {path}, Unused w.born path → after.files.get? path = w.store.files.get? path) :
    World.Sound { w with store := after } := by
  refine ⟨accounted, fun {i c changed} found => ?_, sound.apart⟩
  have call := sound.calls found
  have kept : c.Sound changed after (w.born ++ []) := call.frame (fun _ _ inactive => by rw [vs]; exact inactive)
    (fun _ _ never => absurd never List.not_mem_nil) fun pending => files (call.reads pending).unused
  rwa [List.append_nil] at kept

theorem next (sound : w.Sound) {event : Event} (clear : event.Clear w) : (w.next event).Sound := by
  cases event with
  | addTable fileName table => exact sound.addTable clear
  | compact inputIDs tracked => exact sound.compact clear
  | step call fails => exact sound.step clear
  | acquire path => exact sound.readers (sound.store.acquire path) rfl fun _ => rfl
  | release path fails =>
    exact sound.readers (sound.store.release path fails) (w.store.release_vs path fails)
      (sound.store.release_files fails)

end World.Sound

/-! ### The names of the output files -/

theorem decimal_clean (n : Nat) : (45 : UInt8) ∉ decimal n := by
  intro present
  obtain ⟨digit, small, same⟩ := decimal_digit present
  have different : ∀ digit < 10, (45 : UInt8) ≠ UInt8.ofNat (48 + digit) := by decide
  exact different digit small same

theorem outputFileName_inj {first second : List UInt64} (some : first ≠ []) (someSecond : second ≠ [])
    (same : outputFileName first = outputFileName second) : first = second := by
  have clean : ∀ ids : List UInt64, ∀ part ∈ ids.map fun id => decimal id.toNat, (45 : UInt8) ∉ part := by
    intro ids part present
    obtain ⟨id, _, rfl⟩ := List.mem_map.mp present
    exact decimal_clean id.toNat
  have joined := List.append_cancel_right (List.append_cancel_left same)
  have parts := join_injective (clean first) (clean second) (List.map_eq_nil_iff.not.mpr some)
    (List.map_eq_nil_iff.not.mpr someSecond) joined
  exact List.map_injective_iff.mpr (fun _ _ equal => UInt64.toNat_inj.mp (decimal_injective equal)) parts

theorem outputStart_le (ids : List UInt64) : outputStart <+: outputFileName ids := ⟨_, rfl⟩

def manifestFileName : Bytes := [77, 65, 78, 73, 70, 69, 83, 84]

def temporaryEnd : Bytes := [46, 116, 109, 112]

/-- A file of its own in the directory: no path, neither the Manifest's file nor one that is being written. -/
def PlainName (fileName : Bytes) : Prop :=
  fileName ∉ [[], [46], [46, 46], manifestFileName] ∧ 47 ∉ fileName ∧ ¬temporaryEnd <:+ fileName

/-- New tables bring file names of their own, and no call starts while one with the same inputs is in progress. -/
def Event.Allowed (w : World) : Event → Prop
  | addTable fileName _ =>
    fileName ∉ w.added ∧ ¬outputStart <+: fileName ∧ PlainName fileName ∧ w.store.vs.nextID.toNat + 1 < 2 ^ 64
  | compact inputIDs _ => ∀ e ∈ w.calls, e.1.Pending → e.1.inputs ≠ sortInputs inputIDs
  | step _ _ => w.store.vs.nextID.toNat + 1 < 2 ^ 64
  | acquire _ | release _ _ => True

instance (c : Call) : Decidable c.Pending := by
  unfold Call.Pending
  cases c.phase <;> infer_instance

instance (fileName : Bytes) : Decidable (PlainName fileName) := by
  unfold PlainName
  infer_instance

instance (w : World) (event : Event) : Decidable (event.Allowed w) := by
  unfold Event.Allowed
  cases event <;> infer_instance

def World.Allows (w : World) : List Event → Prop
  | [] => True
  | event :: events => event.Allowed w ∧ (w.next event).Allows events

instance World.decidableAllows (w : World) : (events : List Event) → Decidable (w.Allows events)
  | [] => inferInstanceAs (Decidable True)
  | event :: events =>
    have := World.decidableAllows (w.next event) events
    inferInstanceAs (Decidable (event.Allowed w ∧ (w.next event).Allows events))

/-- Every table's file was given to `AddTable`, or is the output of inputs that are all gone. -/
structure World.Named (w : World) : Prop where
  born : ∀ b ∈ w.born, b.name ∈ w.added ∨ ∃ inputs, inputs ≠ [] ∧ b.name = outputFileName inputs ∧
    ∀ id ∈ inputs, ∃ old ∈ w.born, old.id = id ∧ w.store.vs.tables.get? old.id = none
  added : ∀ name ∈ w.added, ¬outputStart <+: name

namespace World.Named

variable {w : World}

theorem clear (named : w.Named) (sound : w.Sound) {event : Event} (allowed : event.Allowed w) : event.Clear w := by
  cases event with
  | addTable fileName table =>
    obtain ⟨fresh, apart, _, room⟩ := allowed
    refine ⟨fun b present same => ?_, fun e present _ same => apart (same ▸ outputStart_le _), room⟩
    rcases named.born b present with given | ⟨inputs, _, output, _⟩
    · exact fresh (same ▸ given)
    · exact apart (same ▸ output ▸ outputStart_le inputs)
  | compact inputIDs tracked =>
    intro pending
    rcases Call.start_cases w.store.vs inputIDs tracked with ⟨error, same⟩ | ⟨minInputID, rest, paths, shape, _, listed,
      active, same⟩
    · rw [same] at pending
      exact pending.elim
    · have some : sortInputs inputIDs ≠ [] := by
        rw [shape]
        exact List.cons_ne_nil _ _
      rw [same]
      refine ⟨fun b present equal => ?_, fun e present now equal => ?_⟩
      · rcases named.born b present with given | ⟨inputs, nonempty, output, gone⟩
        · exact named.added _ given (equal ▸ outputStart_le _)
        · -- Inputs that are gone would have to be active.
          have inputs := outputFileName_inj nonempty some (output.symm.trans equal)
          subst inputs
          obtain ⟨old, _, number, inactive⟩ := gone minInputID (shape ▸ List.mem_cons_self)
          obtain ⟨p, inside, first⟩ := List.mem_map.mp
            (show minInputID ∈ paths.map Prod.fst by rw [listed, shape]; exact List.mem_cons_self)
          have found := active p inside
          rw [first, ← number, inactive] at found
          cases found
      · obtain ⟨i, there⟩ := List.mem_iff_getElem?.mp present
        have reads := (sound.calls there).reads now
        exact allowed e present now (outputFileName_inj reads.some some equal)
  | step call fails => exact allowed
  | acquire path => trivial
  | release path fails => trivial

theorem frame (named : w.Named) {after : World} {new : List Birth}
    (quiet : ∀ b ∈ w.born, w.store.vs.tables.get? b.id = none → after.store.vs.tables.get? b.id = none)
    (births : after.born = w.born ++ new) (grown : ∀ name ∈ w.added, name ∈ after.added)
    (added : ∀ name ∈ after.added, ¬outputStart <+: name)
    (fresh : ∀ b ∈ new, b.name ∈ after.added ∨ ∃ inputs, inputs ≠ [] ∧ b.name = outputFileName inputs ∧
      ∀ id ∈ inputs, ∃ old ∈ w.born, old.id = id ∧ after.store.vs.tables.get? old.id = none) : after.Named := by
  refine ⟨fun b present => ?_, added⟩
  rw [births] at present ⊢
  rcases List.mem_append.mp present with old | recent
  · rcases named.born b old with given | ⟨inputs, some, output, gone⟩
    · exact Or.inl (grown _ given)
    · refine Or.inr ⟨inputs, some, output, fun id inside => ?_⟩
      obtain ⟨old, there, number, inactive⟩ := gone id inside
      exact ⟨old, List.mem_append_left _ there, number, quiet old there inactive⟩
  · rcases fresh b recent with given | ⟨inputs, some, output, gone⟩
    · exact Or.inl given
    · refine Or.inr ⟨inputs, some, output, fun id inside => ?_⟩
      obtain ⟨old, there, both⟩ := gone id inside
      exact ⟨old, List.mem_append_left _ there, both⟩

theorem next (named : w.Named) (sound : w.Sound) {event : Event} (allowed : event.Allowed w) :
    (w.next event).Named := by
  have clear := named.clear sound allowed
  cases event with
  | addTable fileName table =>
    obtain ⟨unused, _, room⟩ := clear
    have done := sound.store.addTable unused room table
    refine named.frame done.quiet rfl (fun name given => List.mem_cons_of_mem _ given) ?_ fun b present => ?_
    · exact List.forall_mem_cons.mpr ⟨allowed.2.1, named.added⟩
    · rw [done.new b present]
      exact Or.inl List.mem_cons_self
  | compact inputIDs tracked => exact ⟨named.born, named.added⟩
  | step call fails =>
    cases there : w.calls[call]? with
    | none =>
      rw [next_step_none there]
      exact named
    | some entry =>
      obtain ⟨c, changed⟩ := entry
      have call := sound.calls there
      have stepped := call.step sound.store clear fails
      rw [next_step_some there]
      refine named.frame stepped.quiet rfl (fun _ => id) named.added fun b present => Or.inr ?_
      obtain ⟨pending, output, left⟩ := stepped.new b present
      have reads := call.reads pending
      refine ⟨c.inputs, reads.some, output, fun id inside => ?_⟩
      obtain ⟨p, listed, rfl⟩ := List.mem_map.mp (show id ∈ c.paths.map Prod.fst by rw [reads.listed]; exact inside)
      obtain ⟨old, born, number, _⟩ := reads.named p listed
      exact ⟨old, born, number, left old born (number ▸ inside)⟩
  | acquire path => exact ⟨named.born, named.added⟩
  | release path fails =>
    have vs : (w.next (.release path fails)).store.vs = w.store.vs := w.store.release_vs path fails
    refine named.frame (fun _ _ inactive => ?_) (List.append_nil _).symm (fun _ => id) named.added
      fun _ never => absurd never List.not_mem_nil
    rw [vs]
    exact inactive

end World.Named

/-! ### Active tables are never damaged -/

/-- Every file named by the active version exists and holds what it held when its table became active, no two
active tables share a file, and a call that returned an error changed neither the version nor the Manifest. -/
structure World.Intact (w : World) : Prop where
  files : ∀ t ∈ w.store.vs.current, ∃ b ∈ w.born, b.id = t.1 ∧ b.name = t.2 ∧
    (∃ table, b.table = some table ∧ w.store.files.get? t.2 = some table) ∧ ∀ other ∈ w.born, other.id = t.1 → other = b
  names : (w.store.vs.current.map Prod.snd).Nodup
  errors : ∀ e ∈ w.calls, ∀ error, e.1.phase = .returned (.error error) → e.2 = false

theorem World.Sound.intact {w : World} (sound : w.Sound) : w.Intact := by
  have lookup : ∀ t ∈ w.store.vs.current, w.store.vs.tables.get? t.1 = some t.2 := fun t present =>
    SortedMap.lookup_of_mem w.store.vs.tables.sorted present
  refine ⟨fun t present => ?_, ?_, fun e present error returned => ?_⟩
  · obtain ⟨b, inside, number, name, holds⟩ := sound.store.holds (lookup t present)
    exact ⟨b, inside, number, name, holds, fun other there same =>
      sound.store.eq_of_id there inside (same.trans number.symm)⟩
  · rw [List.Nodup, List.pairwise_map]
    refine w.store.vs.tables.sorted.imp_of_mem fun {first second} inFirst inSecond below same => ?_
    exact below.ne (sound.store.names_apart (lookup first inFirst) (same ▸ lookup second inSecond))
  · obtain ⟨i, there⟩ := List.mem_iff_getElem?.mp present
    cases changed : e.2 with
    | false => rfl
    | true =>
      have published := (sound.calls there).changes changed
      unfold Call.Published at published
      rw [returned] at published
      exact published.elim

/-- A version set on an empty directory, with any of the coming Manifest writes to fail. -/
def World.fresh (faults : List Bool) : World :=
  ⟨⟨⟨1, SortedMap.empty⟩, ⟨some (Manifest.encodeManifest ⟨1, []⟩), faults⟩, SortedMap.empty,
    ⟨SortedMap.empty, SortedMap.empty⟩⟩, [], [], []⟩

theorem World.fresh_sound (faults : List Bool) : (World.fresh faults).Sound := by
  refine ⟨⟨List.nodup_nil, List.nodup_nil, ?_, ?_, ?_, ?_⟩, ?_, ?_⟩
  · exact fun _ never => absurd never List.not_mem_nil
  · intro id name found
    cases found
  · exact fun _ never => absurd never List.not_mem_nil
  · intro path marked
    cases marked
  · intro i c changed found
    cases found
  · intro i j c d x y found
    cases found

theorem World.fresh_named (faults : List Bool) : (World.fresh faults).Named :=
  ⟨fun _ never => absurd never List.not_mem_nil, fun _ never => absurd never List.not_mem_nil⟩

theorem World.run_sound {w : World} (sound : w.Sound) (named : w.Named) {events : List Event}
    (allows : w.Allows events) : (w.run events).Sound := by
  induction events generalizing w with
  | nil => exact sound
  | cons event events ih =>
    obtain ⟨allowed, later⟩ := allows
    exact ih (sound.next (named.clear sound allowed)) (named.next sound allowed) later

/-- In every run in which new tables bring plain file names of their own, IDs do not run out, and no call starts
while another with the same inputs is in progress, no active table is ever damaged, whatever the interleaving,
the failures of the file system and of Manifest writes, and the readers. -/
theorem active_tables_intact (faults : List Bool) {events : List Event} (allows : (World.fresh faults).Allows events) :
    ((World.fresh faults).run events).Intact :=
  (World.run_sound (World.fresh_sound faults) (World.fresh_named faults) allows).intact

def singleTable (key value : UInt8) : Table := ⟨[⟨[key], [value], false⟩], List.pairwise_singleton _ _⟩

def stepAll (call count : Nat) : List Event := List.replicate count (.step call false)

/-- Two calls with overlapping inputs in turns; the first retires its inputs, one of which is being read. -/
def overlapping : List Event :=
  [.addTable [97] (singleTable 1 1), .addTable [98] (singleTable 1 2), .compact [2, 1] true, .compact [2] false,
    .acquire [97]] ++ stepAll 0 3 ++ stepAll 1 4 ++ stepAll 0 6 ++ stepAll 1 1 ++ [.release [97] false]

theorem active_tables_intact_overlapping :
    ((World.fresh []).run overlapping).Intact ∧
      ((World.fresh []).run overlapping).store.vs.current =
        [(3, outputFileName [1, 2]), (4, outputFileName [2])] ∧
      ((World.fresh []).run overlapping).store.files.get? [97] = none :=
  ⟨active_tables_intact [] (by decide), by decide, by decide⟩

/-- Two calls with the same inputs, both past their checks before either publishes. -/
def coinciding : List Event :=
  [.addTable [97] (singleTable 1 1), .addTable [98] (singleTable 1 2), .compact [1, 2] false, .compact [1, 2] false] ++
    stepAll 0 6 ++ stepAll 1 6

/-- Both publish: two active tables share the one output file. If the Manifest write of the second fails instead,
it removes the file that the table of the first is in. -/
theorem coinciding_calls_damage :
    ¬((World.fresh []).run coinciding).Intact ∧
      ((World.fresh []).run coinciding).store.vs.current =
        [(3, outputFileName [1, 2]), (4, outputFileName [1, 2])] ∧
      ((World.fresh [false, false, false, true]).run (coinciding ++ stepAll 1 1)).store.vs.current =
        [(3, outputFileName [1, 2])] ∧
      ((World.fresh [false, false, false, true]).run (coinciding ++ stepAll 1 1)).store.files.get?
        (outputFileName [1, 2]) = none := by
  have shared : ((World.fresh []).run coinciding).store.vs.current =
      [(3, outputFileName [1, 2]), (4, outputFileName [1, 2])] := by decide
  refine ⟨fun intact => ?_, shared, by decide⟩
  have names := intact.names
  rw [shared] at names
  exact absurd names (by decide)

end ForgeDB.Storage.Compaction
