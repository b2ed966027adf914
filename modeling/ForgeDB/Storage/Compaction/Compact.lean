import ForgeDB.Data.KWayMerge
import ForgeDB.Data.Text
import ForgeDB.Storage.Manifest
import ForgeDB.Storage.SSTable.Layout
import Mathlib.Data.List.Sort

/-!
Compaction of the active tables. A call to `Compact` is a sequence of steps between which other calls and
additions of tables can happen: it reads the current version, opens its inputs, merges them, builds and
validates the output file, publishes, and retires the files of its inputs.
-/

namespace ForgeDB.Storage.Compaction

open SSTable (Entry Sorted TableError Writer newWriter)
open Manifest (VersionSet Directory VersionError)

structure Table where
  entries : List Entry
  sorted : Sorted entries

instance : DecidableEq Table := fun first second =>
  decidable_of_iff (first.entries = second.entries)
    ⟨fun same => by cases first; cases second; cases same; rfl, congrArg Table.entries⟩

/-- The k-way merge by key; the table with the largest ID wins, and a winning tombstone is left out if allowed. -/
def mergeTables (tables : List (UInt64 × Table)) (dropTombstones : Bool) : List Entry :=
  KWayMerge.merge Entry.key (fun e => !(e.tombstone && dropTombstones)) (tables.map fun t => (t.1, t.2.entries))

/-! ### The output file -/

def outputStart : Bytes := [99, 111, 109, 112, 97, 99, 116, 101, 100, 45]

def outputEnd : Bytes := [46, 115, 115, 116]

def outputFileName (sortedInputIDs : List UInt64) : Bytes :=
  outputStart ++ (join 45 (sortedInputIDs.map fun id => decimal id.toNat) ++ outputEnd)

def written (merged : List Entry) : Except TableError Table :=
  match added : newWriter.addAll merged with
  | .error error => .error error
  | .ok w => .ok ⟨w.entries, (Writer.Sound.start.addAll added).1.sorted⟩

inductive ValidateError where
  | reopen
  | entryCount (got want : Nat)
  | key (entry : Nat)
  | tombstone (entry : Nat)
  | value (entry : Nat)
  | moreEntries (want : Nat)
  | fewerEntries (got want : Nat)
  deriving DecidableEq, Repr

def ValidateError.text : ValidateError → String
  | reopen => "reopen"
  | entryCount got want => s!"entry count: got {got}, want {want}"
  | key entry => s!"entry {entry} key"
  | tombstone entry => s!"entry {entry} tombstone"
  | value entry => s!"entry {entry} value"
  | moreEntries want => s!"more entries than expected (Count said {want})"
  | fewerEntries got want => s!"fewer entries than expected: got {got}, want {want}"

def compareEntries (total : Nat) : Nat → List Entry → List Entry → Option ValidateError
  | _, [], [] => none
  | _, _ :: _, [] => some (.moreEntries total)
  | i, [], _ :: _ => some (.fewerEntries i total)
  | i, got :: gots, want :: wants =>
    if got.key ≠ want.key then some (.key i)
    else if got.tombstone ≠ want.tombstone then some (.tombstone i)
    else if got.tombstone = false ∧ got.value ≠ want.value then some (.value i)
    else compareEntries total (i + 1) gots wants

def validateOutput (file : Option Table) (want : List Entry) : Option ValidateError :=
  match file with
  | none => some .reopen
  | some table =>
    if table.entries.length ≠ want.length then some (.entryCount table.entries.length want.length)
    else compareEntries want.length 0 table.entries want

/-! ### The tracker and the files -/

structure Tracker where
  refs : SortedMap Bytes Nat
  retired : SortedMap Bytes Unit
  deriving DecidableEq

structure Store where
  vs : VersionSet
  dir : Directory
  files : SortedMap Bytes Table
  tracker : Tracker
  deriving DecidableEq

namespace Store

def remove (s : Store) (path : Bytes) (fails : Bool) : Store :=
  if fails then s else { s with files := s.files.erase path }

def refs (s : Store) (path : Bytes) : Nat := (s.tracker.refs.get? path).getD 0

def acquire (s : Store) (path : Bytes) : Store :=
  { s with tracker := { s.tracker with refs := s.tracker.refs.insert path (s.refs path + 1) } }

/-- The release function of an outstanding `Acquire`. The removal of a retired file may fail. -/
def release (s : Store) (path : Bytes) (fails : Bool) : Store :=
  if s.refs path = 0 then s
  else if s.refs path - 1 = 0 then
    let refs := s.tracker.refs.erase path
    match s.tracker.retired.get? path with
    | some _ => Store.remove { s with tracker := ⟨refs, s.tracker.retired.erase path⟩ } path fails
    | none => { s with tracker := ⟨refs, s.tracker.retired⟩ }
  else { s with tracker := ⟨s.tracker.refs.insert path (s.refs path - 1), s.tracker.retired⟩ }

def retire (s : Store) (path : Bytes) (fails : Bool) : Store :=
  if 0 < s.refs path then
    { s with tracker := { s.tracker with retired := s.tracker.retired.insert path () } }
  else s.remove path fails

def addTable (s : Store) (fileName : Bytes) (table : Table) : Store :=
  let added := s.vs.addTable s.dir fileName
  { s with vs := added.1, dir := added.2.1, files := s.files.insert fileName table }

end Store

/-! ### A call to Compact -/

inductive CompactError where
  | noInputTables
  | duplicateInput (id : UInt64)
  | notActive (id : UInt64)
  | openInput (id : UInt64)
  | merge
  | publishRemoval (error : VersionError)
  | buildEntry (error : TableError)
  | buildTable
  | validateOutput (error : ValidateError)
  | publishOutput (error : VersionError)
  deriving DecidableEq, Repr

def CompactError.text : CompactError → String
  | noInputTables => "compaction: no input tables specified"
  | duplicateInput id => s!"compaction: duplicate input table id {id}"
  | notActive id => s!"compaction: table {id} is not part of the active version"
  | openInput id => s!"compaction: open input table {id}"
  | merge => "compaction: merge"
  | publishRemoval error => let why := error.text; s!"compaction: publish removal: {why}"
  | buildEntry error => let why := error.text; s!"compaction: build output entry: {why}"
  | buildTable => "compaction: build output table"
  | validateOutput error => let why := error.text; s!"compaction: validate output table: {why}"
  | publishOutput error => let why := error.text; s!"compaction: publish output table: {why}"

structure Result where
  outputID : UInt64
  outputFileName : Bytes
  tablesRemoved : List UInt64
  deriving DecidableEq, Repr

inductive Phase where
  | opening (rest : List (UInt64 × Bytes)) (opened : List (UInt64 × Table))
  | removing
  | building (merged : List Entry)
  | validating (merged : List Entry)
  | publishing (merged : List Entry)
  | discarding (error : CompactError)
  | retiring (rest : List Bytes) (result : Result)
  | returned (outcome : Except CompactError Result)
  deriving DecidableEq

structure Call where
  inputs : List UInt64
  paths : List (UInt64 × Bytes)
  dropTombstones : Bool
  tracked : Bool
  phase : Phase
  deriving DecidableEq

def duplicate? : List UInt64 → Option UInt64
  | first :: second :: rest => if second = first then some second else duplicate? (second :: rest)
  | _ => none

def inputPaths (vs : VersionSet) : List UInt64 → Except CompactError (List (UInt64 × Bytes))
  | [] => .ok []
  | id :: ids =>
    match vs.tables.get? id, inputPaths vs ids with
    | none, _ => .error (.notActive id)
    | some fileName, .ok paths => .ok ((id, fileName) :: paths)
    | some _, .error error => .error error

def canDropTombstones (vs : VersionSet) (inputs : List UInt64) (minInputID : UInt64) : Bool :=
  vs.current.all fun t => decide (t.1 ∈ inputs) || !decide (t.1 < minInputID)

def sortInputs (inputIDs : List UInt64) : List UInt64 := inputIDs.insertionSort fun first second => first ≤ second

def Call.start (vs : VersionSet) (inputIDs : List UInt64) (tracked : Bool) : Call :=
  let inputs := sortInputs inputIDs
  let fail := fun error => Call.mk inputs [] false tracked (.returned (.error error))
  match inputs with
  | [] => fail .noInputTables
  | minInputID :: _ =>
    match duplicate? inputs, inputPaths vs inputs with
    | some id, _ => fail (.duplicateInput id)
    | none, .error error => fail error
    | none, .ok paths => ⟨inputs, paths, canDropTombstones vs inputs minInputID, tracked, .opening paths []⟩

namespace Call

def output (c : Call) : Bytes := outputFileName c.inputs

def published (c : Call) (result : Result) : Call :=
  { c with phase := if c.tracked then .retiring (c.paths.map Prod.snd) result else .returned (.ok result) }

def failed (c : Call) (error : CompactError) : Call := { c with phase := .returned (.error error) }

/-- The next step. `fails` says whether the file system refuses it; the Manifest's own writes fail as its
directory says. -/
def step (c : Call) (s : Store) (fails : Bool) : Store × Call :=
  match c.phase with
  | .opening ((id, path) :: rest) opened =>
    match fails, s.files.get? path with
    | false, some table => (s, { c with phase := .opening rest (opened ++ [(id, table)]) })
    | _, _ => (s, c.failed (.openInput id))
  | .opening [] opened =>
    if fails then (s, c.failed .merge)
    else
      match mergeTables opened c.dropTombstones with
      | [] => (s, { c with phase := .removing })
      | merged => (s, { c with phase := .building merged })
  | .removing =>
    match s.vs.removeTables s.dir c.inputs with
    | (vs, dir, .ok _) => ({ s with vs := vs, dir := dir }, c.published ⟨0, [], c.inputs⟩)
    | (vs, dir, .error error) => ({ s with vs := vs, dir := dir }, c.failed (.publishRemoval error))
  | .building merged =>
    match written merged with
    | .error error => (s, c.failed (.buildEntry error))
    | .ok table =>
      if fails then (s, c.failed .buildTable)
      else ({ s with files := s.files.insert c.output table }, { c with phase := .validating merged })
  | .validating merged =>
    match validateOutput (if fails then none else s.files.get? c.output) merged with
    | none => (s, { c with phase := .publishing merged })
    | some error => (s, { c with phase := .discarding (.validateOutput error) })
  | .publishing _ =>
    match s.vs.replaceTables s.dir c.inputs c.output with
    | (vs, dir, .ok id) => ({ s with vs := vs, dir := dir }, c.published ⟨id, c.output, c.inputs⟩)
    | (vs, dir, .error error) =>
      ({ s with vs := vs, dir := dir }, { c with phase := .discarding (.publishOutput error) })
  | .discarding error => (s.remove c.output fails, c.failed error)
  | .retiring (path :: rest) result => (s.retire path fails, { c with phase := .retiring rest result })
  | .retiring [] result => (s, { c with phase := .returned (.ok result) })
  | .returned _ => (s, c)

end Call

/-! ### Runs of calls and additions -/

structure Birth where
  id : UInt64
  name : Bytes
  table : Option Table
  deriving DecidableEq

/-- The table that became active between two states of the store: IDs are handed out from `nextID` on. -/
def births (before after : Store) : List Birth :=
  match after.vs.tables.get? before.vs.nextID with
  | some name => [⟨before.vs.nextID, name, after.files.get? name⟩]
  | none => []

/-- The store and the calls. Beside each call stands whether one of its steps has changed the version or the
Manifest; `born` and `added` remember the tables that became active and the names given to `AddTable`. -/
structure World where
  store : Store
  calls : List (Call × Bool)
  born : List Birth
  added : List Bytes
  deriving DecidableEq

inductive Event where
  | addTable (fileName : Bytes) (table : Table)
  | compact (inputIDs : List UInt64) (tracked : Bool)
  | step (call : Nat) (fails : Bool)
  | acquire (path : Bytes)
  | release (path : Bytes) (fails : Bool)
  deriving DecidableEq

namespace World

def same (before after : Store) : Bool := before.vs = after.vs ∧ before.dir.manifest = after.dir.manifest

def next (w : World) : Event → World
  | .addTable fileName table =>
    let store := w.store.addTable fileName table
    ⟨store, w.calls, w.born ++ births w.store store, fileName :: w.added⟩
  | .compact inputIDs tracked => { w with calls := w.calls ++ [(Call.start w.store.vs inputIDs tracked, false)] }
  | .step i fails =>
    match w.calls[i]? with
    | none => w
    | some (c, changed) =>
      let (store, c) := c.step w.store fails
      ⟨store, w.calls.set i (c, changed || !same w.store store), w.born ++ births w.store store, w.added⟩
  | .acquire path => { w with store := w.store.acquire path }
  | .release path fails => { w with store := w.store.release path fails }

def run (w : World) (events : List Event) : World := events.foldl next w

end World

end ForgeDB.Storage.Compaction
