import ForgeDB.Storage.Compaction.Births

/-!
What one step of a call can do. Until it has published, a call reads files and writes and removes its own
output; publishing exchanges its inputs for the output; afterwards it removes files of tables that are no longer
active.
-/

namespace ForgeDB.Storage.Compaction

open SSTable (Entry Sorted)
open Manifest (VersionSet Directory VersionError)

def FromBirths (born : List Birth) (opened : List (UInt64 × Table)) : Prop :=
  ∀ o ∈ opened, ∃ b ∈ born, b.id = o.1 ∧ b.table = some o.2

namespace Call

def Pending (c : Call) : Prop :=
  match c.phase with
  | .retiring _ _ | .returned _ => False
  | _ => True

def Published (c : Call) : Prop :=
  match c.phase with
  | .retiring _ _ | .returned (.ok _) => True
  | _ => False

structure Reads (c : Call) (born : List Birth) : Prop where
  some : c.inputs ≠ []
  sorted : c.inputs.Pairwise (· < ·)
  listed : c.paths.map Prod.fst = c.inputs
  named : ∀ p ∈ c.paths, ∃ b ∈ born, b.id = p.1 ∧ b.name = p.2
  unused : Unused born c.output

def Merged (c : Call) (born : List Birth) (merged : List Entry) : Prop :=
  ∃ opened, opened.map Prod.fst = c.inputs ∧ FromBirths born opened ∧ merged = mergeTables opened c.dropTombstones

def Placed (c : Call) (s : Store) (born : List Birth) : Prop :=
  match c.phase with
  | .opening rest opened =>
    opened.map Prod.fst ++ rest.map Prod.fst = c.inputs ∧ (∀ p ∈ rest, p ∈ c.paths) ∧ FromBirths born opened
  | .removing => c.Merged born []
  | .building merged => c.Merged born merged
  | .validating merged | .publishing merged =>
    c.Merged born merged ∧ ∃ table, s.files.get? c.output = some table ∧ table.entries = merged.map Entry.kept
  | .discarding _ => True
  | .retiring rest _ => ∀ path ∈ rest, Gone born s path
  | .returned _ => True

structure Sound (c : Call) (changed : Bool) (s : Store) (born : List Birth) : Prop where
  reads : c.Pending → c.Reads born
  placed : c.Placed s born
  changes : changed = true → c.Published

theorem Published.not_pending {c : Call} (published : c.Published) : ¬c.Pending := by
  unfold Published at published
  unfold Pending
  cases phase : c.phase with
  | retiring rest result => exact id
  | returned outcome => exact id
  | _ =>
    rw [phase] at published
    exact published.elim

end Call

theorem FromBirths.mono {born later : List Birth} {opened : List (UInt64 × Table)} (from_ : FromBirths born opened)
    (more : ∀ b ∈ born, b ∈ later) : FromBirths later opened := by
  intro o present
  obtain ⟨b, inside, both⟩ := from_ o present
  exact ⟨b, more b inside, both⟩

theorem Call.Sound.frame {c : Call} {changed : Bool} {s after : Store} {born new : List Birth}
    (sound : c.Sound changed s born)
    (quiet : ∀ b ∈ born, s.vs.tables.get? b.id = none → after.vs.tables.get? b.id = none)
    (unused : c.Pending → Unused new c.output)
    (files : c.Pending → after.files.get? c.output = s.files.get? c.output) : c.Sound changed after (born ++ new) := by
  have more : ∀ b ∈ born, b ∈ born ++ new := fun b present => List.mem_append_left _ present
  have merged : ∀ {list}, c.Merged born list → c.Merged (born ++ new) list := fun ⟨opened, listed, from_, same⟩ =>
    ⟨opened, listed, from_.mono more, same⟩
  have gone : ∀ {path}, Gone born s path → Gone (born ++ new) after path := fun ⟨b, present, named, inactive⟩ =>
    ⟨b, more b present, named, quiet b present inactive⟩
  refine ⟨fun pending => ?_, ?_, sound.changes⟩
  · have reads := sound.reads pending
    refine ⟨reads.some, reads.sorted, reads.listed, fun p present => ?_, fun b present => ?_⟩
    · obtain ⟨b, inside, both⟩ := reads.named p present
      exact ⟨b, more b inside, both⟩
    · rcases List.mem_append.mp present with old | fresh
      · exact reads.unused b old
      · exact unused pending b fresh
  · have placed := sound.placed
    unfold Call.Placed at placed ⊢
    unfold Call.Pending at files
    cases phase : c.phase with
    | opening rest opened =>
      rw [phase] at placed
      exact ⟨placed.1, placed.2.1, placed.2.2.mono more⟩
    | removing | building list =>
      rw [phase] at placed
      exact merged placed
    | validating list | publishing list =>
      rw [phase] at placed files
      dsimp only at placed files ⊢
      rw [files trivial]
      exact ⟨merged placed.1, placed.2⟩
    | discarding error => exact trivial
    | retiring rest result =>
      rw [phase] at placed
      exact fun path present => gone (placed path present)
    | returned outcome => exact trivial

structure Stepped (c : Call) (changed : Bool) (s : Store) (born : List Birth) (after : Store) (d : Call) : Prop where
  accounted : Accounted after (born ++ births s after)
  sound : d.Sound (changed || !World.same s after) after (born ++ births s after)
  inputs : d.inputs = c.inputs
  drops : d.dropTombstones = c.dropTombstones
  pending : d.Pending → c.Pending
  waits : d.Pending → after.vs = s.vs
  quiet : ∀ b ∈ born, s.vs.tables.get? b.id = none → after.vs.tables.get? b.id = none
  new : ∀ b ∈ births s after, c.Pending ∧ b.name = c.output ∧
    ∀ old ∈ born, old.id ∈ c.inputs → after.vs.tables.get? old.id = none
  files : ∀ {path}, (c.Pending → path ≠ c.output) → Unused born path → after.files.get? path = s.files.get? path

theorem World.same_of_vs {s after : Store} (vs : after.vs = s.vs) (manifest : after.dir.manifest = s.dir.manifest) :
    World.same s after = true := by
  unfold World.same
  rw [vs, manifest]
  simp only [and_self, decide_true]

namespace Stepped

variable {c d : Call} {changed : Bool} {s after : Store} {born : List Birth}

theorem quietly (accounted : Accounted after born) (before : Accounted s born) (sound : c.Sound changed s born)
    (vs : after.vs = s.vs) (manifest : after.dir.manifest = s.dir.manifest) (reads : d.Pending → d.Reads born)
    (placed : d.Placed after born) (published : c.Published → d.Published) (inputs : d.inputs = c.inputs)
    (drops : d.dropTombstones = c.dropTombstones) (pending : d.Pending → c.Pending)
    (files : ∀ {path}, (c.Pending → path ≠ c.output) → Unused born path → after.files.get? path = s.files.get? path) :
    Stepped c changed s born after d := by
  have none : births s after = [] := before.births_none (by rw [vs]; exact id)
  refine ⟨?_, ?_, inputs, drops, pending, fun _ => vs, ?_, ?_, files⟩
  · rw [none, List.append_nil]
    exact accounted
  · rw [none, List.append_nil, World.same_of_vs vs manifest, Bool.not_true, Bool.or_false]
    exact ⟨reads, placed, fun yes => published (sound.changes yes)⟩
  · rw [vs]
    exact fun _ _ => id
  · rw [none]
    exact fun _ never => absurd never List.not_mem_nil

theorem still (accounted : Accounted s born) (sound : c.Sound changed s born) (reads : d.Pending → d.Reads born)
    (placed : d.Placed s born) (published : c.Published → d.Published) (inputs : d.inputs = c.inputs)
    (drops : d.dropTombstones = c.dropTombstones) (pending : d.Pending → c.Pending) : Stepped c changed s born s d :=
  quietly accounted accounted sound rfl rfl reads placed published inputs drops pending fun _ _ => rfl

theorem failed (accounted : Accounted s born) (sound : c.Sound changed s born) (pending : c.Pending)
    (error : CompactError) : Stepped c changed s born s (c.failed error) :=
  still accounted sound (fun never => never.elim) trivial (fun published => absurd pending published.not_pending)
    rfl rfl
    fun never => never.elim

end Stepped

namespace Store

theorem retire_vs (s : Store) (path : Bytes) (fails : Bool) : (s.retire path fails).vs = s.vs := by
  unfold retire remove
  split
  · rfl
  · split <;> rfl

theorem retire_dir (s : Store) (path : Bytes) (fails : Bool) : (s.retire path fails).dir = s.dir := by
  unfold retire remove
  split
  · rfl
  · split <;> rfl

theorem retire_files (s : Store) {path other : Bytes} (fails : Bool) (elsewhere : other ≠ path) :
    (s.retire path fails).files.get? other = s.files.get? other := by
  unfold retire remove
  split
  · rfl
  · split
    · rfl
    · exact (SortedMap.get?_erase _ _ _).trans (if_neg elsewhere)

end Store

theorem written_entries {merged : List Entry} {table : Table} (done : written merged = .ok table) :
    table.entries = merged.map Entry.kept := by
  unfold written at done
  split at done
  · cases done
  · rename_i w added
    cases done
    exact (SSTable.Writer.Sound.start.addAll added).2

namespace Call

variable {c : Call} {changed : Bool} {s : Store} {born : List Birth}

theorem pending_at {phase : Phase} (here : c.phase = phase) (pending : Pending { c with phase := phase }) :
    c.Pending := by
  subst here
  exact pending

theorem Reads.move (reads : c.Reads born) (phase : Phase) : Reads { c with phase := phase } born :=
  ⟨reads.some, reads.sorted, reads.listed, reads.named, reads.unused⟩

theorem published_published (c : Call) (result : Result) : (c.published result).Published := by
  unfold published Published
  cases c.tracked <;> exact trivial

theorem published_not_pending (c : Call) (result : Result) : ¬(c.published result).Pending :=
  (c.published_published result).not_pending

theorem published_placed (reads : c.Reads born) (result : Result) {after : Store} {later : List Birth}
    (more : ∀ b ∈ born, b ∈ later) (left : ∀ b ∈ born, b.id ∈ c.inputs → after.vs.tables.get? b.id = none) :
    (c.published result).Placed after later := by
  unfold published Placed
  cases c.tracked with
  | false => exact trivial
  | true =>
    intro path present
    obtain ⟨p, inside, rfl⟩ := List.mem_map.mp present
    obtain ⟨b, there, id, name⟩ := reads.named p inside
    exact ⟨b, more b there, name, left b there (id ▸ reads.listed ▸ List.mem_map.mpr ⟨p, inside, rfl⟩)⟩

theorem Sound.removing (accounted : Accounted s born) (sound : c.Sound changed s born) (phase : c.phase = .removing)
    (fails : Bool) : Stepped c changed s born (c.step s fails).1 (c.step s fails).2 := by
  have pending : c.Pending := pending_at phase trivial
  have reads := sound.reads pending
  unfold step
  rw [phase]
  dsimp only
  rcases s.vs.removeTables_cases s.dir c.inputs with ⟨later, done⟩ | ⟨dir, done⟩
  · rw [done]
    refine Stepped.quietly (accounted.frame rfl rfl accounted.retired) accounted sound rfl rfl
      (fun never => never.elim) trivial (fun published => absurd pending published.not_pending) rfl rfl
      (fun never => never.elim) fun _ _ => rfl
  · rw [done]
    have quiet : ∀ {id}, s.vs.tables.get? id = none → (s.vs.tables.eraseAll c.inputs).get? id = none := by
      intro id inactive
      rw [SortedMap.get?_eraseAll, inactive, ite_self]
    have none : births s ⟨⟨s.vs.nextID, s.vs.tables.eraseAll c.inputs⟩, dir, s.files, s.tracker⟩ = [] :=
      accounted.births_none quiet
    refine ⟨?_, ⟨fun never => absurd never (c.published_not_pending _), ?_, fun _ => c.published_published _⟩, rfl, rfl,
      fun never => absurd never (c.published_not_pending _), fun never => absurd never (c.published_not_pending _),
      fun b _ => quiet, ?_, fun _ _ => rfl⟩
    · rw [none, List.append_nil]
      exact accounted.deactivate c.inputs dir
    · refine c.published_placed reads _ (fun b present => List.mem_append_left _ present) fun b present inside => ?_
      dsimp only
      rw [SortedMap.get?_eraseAll, if_pos inside]
    · rw [none]
      exact fun _ never => absurd never List.not_mem_nil

theorem Sound.publishing (accounted : Accounted s born) (sound : c.Sound changed s born) {merged : List Entry}
    (phase : c.phase = .publishing merged) (room : s.vs.nextID.toNat + 1 < 2 ^ 64) (fails : Bool) :
    Stepped c changed s born (c.step s fails).1 (c.step s fails).2 := by
  have pending : c.Pending := pending_at phase trivial
  have reads := sound.reads pending
  have placed := sound.placed
  unfold Placed at placed
  rw [phase] at placed
  obtain ⟨_, table, there, _⟩ := placed
  unfold step
  rw [phase]
  dsimp only
  rcases s.vs.replaceTables_cases s.dir c.inputs c.output with ⟨later, done⟩ | ⟨dir, done⟩
  · rw [done]
    exact Stepped.quietly (accounted.frame rfl rfl accounted.retired) accounted sound rfl rfl
      (fun _ => reads.move _) trivial (fun published => absurd pending published.not_pending) rfl rfl
      (fun _ => pending) fun _ _ => rfl
  · rw [done]
    have inactive : ∀ b ∈ born, (b.id ∈ c.inputs ∨ s.vs.tables.get? b.id = none) →
        ((s.vs.tables.eraseAll c.inputs).insert s.vs.nextID c.output).get? b.id = none := by
      intro b present either
      rw [SortedMap.get?_insert, if_neg (accounted.below b present).ne, SortedMap.get?_eraseAll]
      rcases either with inside | none
      · rw [if_pos inside]
      · rw [none, ite_self]
    have one : births s ⟨⟨s.vs.nextID + 1, (s.vs.tables.eraseAll c.inputs).insert s.vs.nextID c.output⟩, dir, s.files,
        s.tracker⟩ = [⟨s.vs.nextID, c.output, some table⟩] := by
      rw [births]
      dsimp only
      rw [SortedMap.get?_insert, if_pos rfl]
      dsimp only
      rw [there]
    refine ⟨?_, ⟨fun never => absurd never (c.published_not_pending _), ?_, fun _ => c.published_published _⟩, rfl, rfl,
      fun never => absurd never (c.published_not_pending _), fun never => absurd never (c.published_not_pending _),
      fun b present none => inactive b present (Or.inr none), ?_, fun _ _ => rfl⟩
    · rw [one]
      exact (accounted.deactivate c.inputs dir).activate reads.unused there room dir
    · exact c.published_placed reads _ (fun b present => List.mem_append_left _ present)
        fun b present inside => inactive b present (Or.inl inside)
    · rw [one]
      intro b present
      rw [List.mem_singleton.mp present]
      exact ⟨pending, rfl, fun old there inside => inactive old there (Or.inl inside)⟩

theorem Sound.opening (accounted : Accounted s born) (sound : c.Sound changed s born)
    {rest : List (UInt64 × Bytes)} {opened : List (UInt64 × Table)} (phase : c.phase = .opening rest opened)
    (fails : Bool) : Stepped c changed s born (c.step s fails).1 (c.step s fails).2 := by
  have pending : c.Pending := pending_at phase trivial
  have reads := sound.reads pending
  have notYet : c.Published → False := fun published => published.not_pending pending
  have placed := sound.placed
  unfold Placed at placed
  rw [phase] at placed
  obtain ⟨listed, within, from_⟩ := placed
  unfold step
  rw [phase]
  cases rest with
  | nil =>
    dsimp only
    split
    · exact Stepped.failed accounted sound pending _
    · have whole : opened.map Prod.fst = c.inputs := by
        rw [List.map_nil, List.append_nil] at listed
        exact listed
      split
      · rename_i empty
        exact Stepped.still accounted sound (fun _ => reads.move _) ⟨opened, whole, from_, empty.symm⟩
          (fun published => (notYet published).elim) rfl rfl fun _ => pending
      · exact Stepped.still accounted sound (fun _ => reads.move _) ⟨opened, whole, from_, rfl⟩
          (fun published => (notYet published).elim) rfl rfl fun _ => pending
  | cons p rest =>
    obtain ⟨id, path⟩ := p
    dsimp only
    split
    · rename_i table there
      refine Stepped.still accounted sound (fun _ => reads.move _) ⟨?_, ?_, ?_⟩
        (fun published => (notYet published).elim) rfl rfl fun _ => pending
      · rw [List.map_append, List.append_assoc]
        exact listed
      · exact fun p present => within p (List.mem_cons_of_mem _ present)
      · intro o present
        rcases List.mem_append.mp present with old | new
        · exact from_ o old
        · obtain ⟨b, inside, number, name⟩ := reads.named _ (within _ List.mem_cons_self)
          obtain ⟨held, same, still | ⟨missing, _⟩⟩ := accounted.files b inside
          · rw [name, there] at still
            cases still
            rw [List.mem_singleton.mp new]
            exact ⟨b, inside, number, same⟩
          · rw [name, there] at missing
            cases missing
    · exact Stepped.failed accounted sound pending _

theorem Sound.retiring (accounted : Accounted s born) (sound : c.Sound changed s born) {rest : List Bytes}
    {result : Result} (phase : c.phase = .retiring rest result) (fails : Bool) :
    Stepped c changed s born (c.step s fails).1 (c.step s fails).2 := by
  have placed := sound.placed
  unfold Placed at placed
  rw [phase] at placed
  have done : c.Published := by unfold Published; rw [phase]; exact trivial
  unfold Call.step
  rw [phase]
  cases rest with
  | nil =>
    exact Stepped.still accounted sound (fun never => never.elim) trivial (fun _ => trivial) rfl rfl fun never =>
      never.elim
  | cons path rest =>
    have gone := placed path List.mem_cons_self
    refine Stepped.quietly (accounted.retire gone fails) accounted sound (s.retire_vs path fails)
      (congrArg Directory.manifest (s.retire_dir path fails)) (fun never => never.elim) (fun other present => ?_)
      (fun _ => trivial) rfl rfl (fun never => never.elim) fun _ unused => ?_
    · obtain ⟨b, inside, named, inactive⟩ := placed other (List.mem_cons_of_mem _ present)
      exact ⟨b, inside, named, by rw [s.retire_vs]; exact inactive⟩
    · obtain ⟨b, inside, named, _⟩ := gone
      exact s.retire_files fails fun same => unused b inside (named.trans same.symm)

theorem Sound.step (accounted : Accounted s born) (sound : c.Sound changed s born)
    (room : s.vs.nextID.toNat + 1 < 2 ^ 64) (fails : Bool) :
    Stepped c changed s born (c.step s fails).1 (c.step s fails).2 := by
  have placed := sound.placed
  unfold Placed at placed
  cases phase : c.phase with
  | opening rest opened => exact sound.opening accounted phase fails
  | removing => exact sound.removing accounted phase fails
  | publishing merged => exact sound.publishing accounted phase room fails
  | building merged =>
    have pending : c.Pending := pending_at phase trivial
    have reads := sound.reads pending
    rw [phase] at placed
    unfold Call.step
    rw [phase]
    dsimp only
    split
    · exact Stepped.failed accounted sound pending _
    · rename_i table done
      split
      · exact Stepped.failed accounted sound pending _
      · refine Stepped.quietly (accounted.insert_unused reads.unused table) accounted sound rfl rfl
          (fun _ => reads.move _) ⟨placed, table, ?_, written_entries done⟩
          (fun published => absurd pending published.not_pending) rfl rfl (fun _ => pending) fun elsewhere _ => ?_
        · exact (SortedMap.get?_insert _ _ _ _).trans (if_pos rfl)
        · exact (SortedMap.get?_insert _ _ _ _).trans (if_neg (elsewhere pending))
  | validating merged =>
    have pending : c.Pending := pending_at phase trivial
    have reads := sound.reads pending
    rw [phase] at placed
    unfold Call.step
    rw [phase]
    dsimp only
    split
    · exact Stepped.still accounted sound (fun _ => reads.move _) placed
        (fun published => absurd pending published.not_pending) rfl rfl fun _ => pending
    · exact Stepped.still accounted sound (fun _ => reads.move _) trivial
        (fun published => absurd pending published.not_pending) rfl rfl fun _ => pending
  | discarding error =>
    have pending : c.Pending := pending_at phase trivial
    have reads := sound.reads pending
    unfold Call.step
    rw [phase]
    refine Stepped.quietly (accounted.remove_unused reads.unused fails) accounted sound ?_ ?_
      (fun never => never.elim) trivial (fun published => absurd pending published.not_pending) rfl rfl
      (fun never => never.elim) fun elsewhere _ => ?_
    · cases fails <;> rfl
    · cases fails <;> rfl
    · cases fails with
      | true => rfl
      | false => exact (SortedMap.get?_erase _ _ _).trans (if_neg (elsewhere pending))
  | retiring rest result => exact sound.retiring accounted phase fails
  | returned outcome =>
    unfold Call.step
    rw [phase]
    exact Stepped.still accounted sound sound.reads sound.placed id rfl rfl id

end Call

end ForgeDB.Storage.Compaction
