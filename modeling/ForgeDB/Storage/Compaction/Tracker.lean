import ForgeDB.Data.Reclamation
import ForgeDB.Storage.Compaction.Compact

/-!
The tracker in the hands of many callers. `Acquire`, the release functions it returns and `Retire` each have one
section under the tracker's lock; files are removed outside of it. A release function runs its section once, and
further calls of it wait until the first is through.
-/

namespace ForgeDB.Storage.Compaction

open Reclamation (Due Owing)

namespace Tracker

def newTracker : Tracker := ⟨SortedMap.empty, SortedMap.empty⟩

def count (t : Tracker) (path : Bytes) : Nat := (t.refs.get? path).getD 0

def acquire (t : Tracker) (path : Bytes) : Tracker := { t with refs := t.refs.insert path (t.count path + 1) }

/-- The section of `release`, and whether the file is to be deleted. The source's count may go below zero, and is then
treated as zero is. -/
def release (t : Tracker) (path : Bytes) : Tracker × Bool :=
  let left := t.count path - 1
  if left = 0 then
    match t.retired.get? path with
    | some _ => (⟨t.refs.erase path, t.retired.erase path⟩, true)
    | none => (⟨t.refs.erase path, t.retired⟩, false)
  else ({ t with refs := t.refs.insert path left }, false)

def retire (t : Tracker) (path : Bytes) : Tracker × Bool :=
  if 0 < t.count path then ({ t with retired := t.retired.insert path () }, true) else (t, false)

section

variable (t : Tracker) (path other : Bytes)

theorem release_refs : (t.release path).1.refs.get? other =
    if other = path then (if t.count path - 1 = 0 then none else some (t.count path - 1)) else t.refs.get? other := by
  unfold release
  dsimp only
  by_cases same : other = path
  · split
    · split <;> simp only [SortedMap.get?_erase, same, if_true]
    · simp only [SortedMap.get?_insert, same, if_true]
  · split
    · split <;> simp only [SortedMap.get?_erase, same, if_false]
    · simp only [SortedMap.get?_insert, same, if_false]

theorem release_retired : (t.release path).1.retired.get? other =
    if other = path ∧ t.count path - 1 = 0 then none else t.retired.get? other := by
  unfold release
  dsimp only
  by_cases last : t.count path - 1 = 0
  · simp only [last, if_true, and_true]
    by_cases same : other = path
    · split
      · simp only [SortedMap.get?_erase, same, if_true]
      · rename_i unmarked
        simp only [same, unmarked, ite_self]
    · split <;> simp only [SortedMap.get?_erase, same, if_false]
  · simp only [last, and_false, if_false]

theorem release_shouldDelete :
    (t.release path).2 = true ↔ t.count path - 1 = 0 ∧ t.retired.get? path = some () := by
  unfold release
  dsimp only
  split
  · rename_i last
    split
    · rename_i marked
      exact iff_of_true rfl ⟨last, marked⟩
    · rename_i unmarked
      exact iff_of_false (fun wrong => nomatch wrong) fun both => nomatch unmarked.symm.trans both.2
  · rename_i more
    exact iff_of_false (fun wrong => nomatch wrong) fun both => more both.1

theorem release_count : (t.release path).1.count other =
    if other = path then t.count path - 1 else t.count other := by
  rw [count, release_refs]
  by_cases same : other = path
  · simp only [same, if_true]
    split
    · rename_i none
      exact none.symm
    · rfl
  · simp only [same, if_false]
    rfl

theorem retire_refs : (t.retire path).1.refs = t.refs := by
  unfold retire
  split <;> rfl

theorem retire_held : (t.retire path).2 = decide (0 < t.count path) := by
  unfold retire
  split
  · rename_i held
    exact (decide_eq_true held).symm
  · rename_i free
    exact (decide_eq_false free).symm

theorem retire_retired : (t.retire path).1.retired.get? other =
    if other = path ∧ 0 < t.count path then some () else t.retired.get? other := by
  unfold retire
  split
  · rename_i held
    by_cases same : other = path
    · simp only [SortedMap.get?_insert, same, held, and_self, if_true]
    · simp only [SortedMap.get?_insert, same, false_and, if_false]
  · rename_i free
    simp only [free, and_false, if_false]

end

end Tracker

/-! ### The calls of the store are these sections, each with its removal at once -/

namespace Store

variable (s : Store) (path : Bytes)

theorem acquire_tracker : s.acquire path = { s with tracker := s.tracker.acquire path } := rfl

theorem release_tracker (fails : Bool) (held : 0 < s.refs path) :
    s.release path fails =
      if (s.tracker.release path).2 then Store.remove { s with tracker := (s.tracker.release path).1 } path fails
      else { s with tracker := (s.tracker.release path).1 } := by
  have count : s.tracker.count path = s.refs path := rfl
  simp only [release, Tracker.release, count, if_neg (Nat.ne_of_gt held)]
  by_cases last : s.refs path - 1 = 0
  · simp only [if_pos last]
    cases s.tracker.retired.get? path <;> rfl
  · simp only [if_neg last]
    rfl

theorem retire_tracker (fails : Bool) :
    s.retire path fails =
      if (s.tracker.retire path).2 then { s with tracker := (s.tracker.retire path).1 } else s.remove path fails := by
  have count : s.tracker.count path = s.refs path := rfl
  simp only [retire, Tracker.retire, count]
  by_cases held : 0 < s.refs path
  · simp only [if_pos held, if_true]
  · simp only [if_neg held, Bool.false_eq_true, if_false]

end Store

/-! ### Calls in any interleaving -/

/-- How far a release function has come: never called; called, and before its section; after its section, with the file
still to be removed; through. -/
inductive Stage where
  | unused
  | called
  | removing
  | through
  deriving DecidableEq, Repr

def Stage.holds : Stage → Bool
  | unused | called => true
  | removing | through => false

structure Handle where
  path : Bytes
  stage : Stage
  deriving DecidableEq, Repr

def Handle.holds (h : Handle) (path : Bytes) : Bool := h.path = path && h.stage.holds

/-- The tracker with everything that is going on: the release functions, the calls that wait for another call of the
same release function, and the calls of `Retire` that still have to remove their file. `trace` is kept for reasoning
only. -/
structure Usage where
  tracker : Tracker
  handles : List Handle
  waiting : List Nat
  retiring : List Bytes
  trace : List (Reclamation.Event Bytes)

inductive Step where
  | acquire (path : Bytes)
  | callRelease (handle : Nat)
  | release (handle : Nat)
  | removeReleased (handle : Nat)
  | wake (call : Nat)
  | retire (path : Bytes)
  | removeRetired (call : Nat)
  deriving DecidableEq, Repr

namespace Usage

def newUsage : Usage := ⟨.newTracker, [], [], [], []⟩

def setStage (u : Usage) (handle : Nat) (path : Bytes) (stage : Stage) : Usage :=
  { u with handles := u.handles.set handle ⟨path, stage⟩ }

def log (u : Usage) (event : Reclamation.Event Bytes) : Usage := { u with trace := u.trace ++ [event] }

def step (u : Usage) : Step → Option Usage
  | .acquire path =>
    let acquired : Usage := { u with tracker := u.tracker.acquire path, handles := u.handles ++ [⟨path, .unused⟩] }
    some (acquired.log (.acquired u.handles.length path))
  | .callRelease handle =>
    match u.handles[handle]? with
    | none => none
    | some ⟨path, .unused⟩ => some (u.setStage handle path .called)
    | some ⟨_, .through⟩ => some u
    | some _ => some { u with waiting := u.waiting ++ [handle] }
  | .release handle =>
    match u.handles[handle]? with
    | some ⟨path, .called⟩ =>
      let (tracker, shouldDelete) := u.tracker.release path
      let unlocked : Usage := { u with tracker := tracker }
      some ((unlocked.setStage handle path (if shouldDelete then .removing else .through)).log (.released handle))
    | _ => none
  | .removeReleased handle =>
    match u.handles[handle]? with
    | some ⟨path, .removing⟩ => some ((u.setStage handle path .through).log (.removed path))
    | _ => none
  | .wake call =>
    match u.waiting[call]? with
    | none => none
    | some handle =>
      match u.handles[handle]? with
      | some ⟨_, .through⟩ => some { u with waiting := u.waiting.eraseIdx call }
      | _ => none
  | .retire path =>
    let (tracker, held) := u.tracker.retire path
    let unlocked : Usage := { u with tracker := tracker, retiring := if held then u.retiring else u.retiring ++ [path] }
    some (unlocked.log (.retired path))
  | .removeRetired call =>
    match u.retiring[call]? with
    | none => none
    | some path =>
      let removed : Usage := { u with retiring := u.retiring.eraseIdx call }
      some (removed.log (.removed path))

def run (u : Usage) : List Step → Option Usage
  | [] => some u
  | first :: rest => (u.step first).bind fun next => next.run rest

structure Idle (u : Usage) : Prop where
  handles : ∀ h ∈ u.handles, h.stage = .unused ∨ h.stage = .through
  waiting : u.waiting = []
  retiring : u.retiring = []

/-! ### What is kept -/

def holding (u : Usage) (path : Bytes) : Nat := u.handles.countP fun h => h.holds path

def Pending (u : Usage) (path : Bytes) : Prop := path ∈ u.retiring ∨ ⟨path, .removing⟩ ∈ u.handles

def Marked (u : Usage) (path : Bytes) : Prop := u.tracker.retired.get? path = some ()

structure Counted (u : Usage) : Prop where
  refs : ∀ path, u.tracker.refs.get? path = if u.holding path = 0 then none else some (u.holding path)
  acquired : ∀ handle path, .acquired handle path ∈ u.trace ↔ ∃ h, u.handles[handle]? = some h ∧ h.path = path
  released : ∀ handle, .released handle ∈ u.trace ↔ ∃ h, u.handles[handle]? = some h ∧ h.stage.holds = false

structure Sound (u : Usage) : Prop where
  counted : u.Counted
  marked : ∀ path, u.Marked path → 0 < u.holding path ∧ .retired path ∈ u.trace
  owing : Owing u.Marked u.Pending u.trace

variable {u : Usage}

inductive Taken (u : Usage) : Usage → Prop
  | acquire (path : Bytes) :
    u.Taken (log { u with tracker := u.tracker.acquire path, handles := u.handles ++ [⟨path, .unused⟩] }
      (.acquired u.handles.length path))
  | called {handle : Nat} {path : Bytes} (found : u.handles[handle]? = some ⟨path, .unused⟩) :
    u.Taken (u.setStage handle path .called)
  | parked (waiting : List Nat) : u.Taken { u with waiting := waiting }
  | released {handle : Nat} {path : Bytes} (found : u.handles[handle]? = some ⟨path, .called⟩) :
    u.Taken (log (setStage { u with tracker := (u.tracker.release path).1 } handle path
      (if (u.tracker.release path).2 then .removing else .through)) (.released handle))
  | removedReleased {handle : Nat} {path : Bytes} (found : u.handles[handle]? = some ⟨path, .removing⟩) :
    u.Taken ((u.setStage handle path .through).log (.removed path))
  | retired (path : Bytes) :
    u.Taken (log { u with
      tracker := (u.tracker.retire path).1
      retiring := if (u.tracker.retire path).2 then u.retiring else u.retiring ++ [path] } (.retired path))
  | removedRetired {call : Nat} {path : Bytes} (found : u.retiring[call]? = some path) :
    u.Taken (log { u with retiring := u.retiring.eraseIdx call } (.removed path))

theorem step_taken {after : Usage} {next : Step} (taken : u.step next = some after) : u.Taken after := by
  cases next with
  | acquire path =>
    cases taken
    exact .acquire path
  | callRelease handle =>
    simp only [step] at taken
    split at taken
    · cases taken
    · rename_i path found
      cases taken
      exact .called found
    · cases taken
      exact .parked u.waiting
    · cases taken
      exact .parked _
  | release handle =>
    simp only [step] at taken
    split at taken
    · rename_i path found
      cases taken
      exact .released found
    · cases taken
  | removeReleased handle =>
    simp only [step] at taken
    split at taken
    · rename_i path found
      cases taken
      exact .removedReleased found
    · cases taken
  | wake call =>
    simp only [step] at taken
    split at taken
    · cases taken
    · split at taken
      · cases taken
        exact .parked _
      · cases taken
  | retire path =>
    cases taken
    exact .retired path
  | removeRetired call =>
    simp only [step] at taken
    split at taken
    · cases taken
    · rename_i path found
      cases taken
      exact .removedRetired found

/-! ### One release function changes its stage -/

theorem removing_of_setStage {handle : Nat} {path key : Bytes} {new : Stage} (other : new ≠ .removing)
    (present : ⟨key, .removing⟩ ∈ (u.setStage handle path new).handles) : ⟨key, .removing⟩ ∈ u.handles := by
  rcases List.mem_or_eq_of_mem_set present with old | same
  · exact old
  · exact absurd (congrArg Handle.stage same).symm other

theorem removing_iff {t : Tracker} {path key : Bytes} :
    Handle.mk key .removing = ⟨path, if (t.release path).2 then .removing else .through⟩ ↔
      key = path ∧ t.count path - 1 = 0 ∧ t.retired.get? path = some () := by
  rw [Handle.mk.injEq, ← Tracker.release_shouldDelete]
  refine and_congr_right fun _ => ?_
  cases (t.release path).2
  · exact iff_of_false (fun wrong => nomatch wrong) (fun wrong => nomatch wrong)
  · exact iff_of_true rfl rfl

section SetStage

variable {handle : Nat} {path : Bytes} {old new : Stage} (found : u.handles[handle]? = some ⟨path, old⟩)
include found

theorem getElem?_setStage (i : Nat) :
    (u.setStage handle path new).handles[i]? = if i = handle then some ⟨path, new⟩ else u.handles[i]? := by
  have inside := (List.getElem?_eq_some_iff.mp found).1
  simp only [setStage, List.getElem?_set, inside, if_true, eq_comm]

theorem mem_setStage {h : Handle} (present : h ∈ u.handles) (other : h ≠ ⟨path, old⟩) :
    h ∈ (u.setStage handle path new).handles := by
  obtain ⟨i, here⟩ := List.mem_iff_getElem?.mp present
  refine List.mem_iff_getElem?.mpr ⟨i, ?_⟩
  rw [getElem?_setStage found, if_neg]
  · exact here
  · rintro rfl
    exact other (Option.some.inj (here.symm.trans found))

theorem exists_setStage {p : Handle → Prop} (same : p ⟨path, new⟩ ↔ p ⟨path, old⟩) (i : Nat) :
    (∃ h, (u.setStage handle path new).handles[i]? = some h ∧ p h) ↔ ∃ h, u.handles[i]? = some h ∧ p h := by
  rw [getElem?_setStage found]
  by_cases here : i = handle
  · simp only [here, if_true, found, Option.some.injEq, exists_eq_left', same]
  · simp only [here, if_false]

theorem holding_setStage (other : Bytes) :
    (u.setStage handle path new).holding other =
      (u.holding other - if Handle.holds ⟨path, old⟩ other then 1 else 0) +
        if Handle.holds ⟨path, new⟩ other then 1 else 0 := by
  obtain ⟨inside, here⟩ := List.getElem?_eq_some_iff.mp found
  simp only [holding, setStage, List.countP_set inside, here]

theorem holding_pos (holds : old.holds = true) : 0 < u.holding path := by
  refine List.countP_pos_iff.mpr ⟨⟨path, old⟩, List.mem_of_getElem? found, ?_⟩
  simp only [Handle.holds, holds, decide_true, Bool.and_self]

end SetStage

namespace Counted

theorem count (counted : u.Counted) (path : Bytes) : u.tracker.count path = u.holding path := by
  rw [Tracker.count, counted.refs]
  split
  · rename_i none
    exact none.symm
  · rfl

theorem holding_eq {after : Usage} (counted : u.Counted) (countedAfter : after.Counted)
    (refs : after.tracker.refs = u.tracker.refs) (path : Bytes) : after.holding path = u.holding path := by
  rw [← counted.count, ← countedAfter.count, Tracker.count, refs]
  rfl

theorem free (counted : u.Counted) {path : Bytes} (none : u.holding path = 0) (handle : Nat)
    (acquired : .acquired handle path ∈ u.trace) : .released handle ∈ u.trace := by
  obtain ⟨h, found, rfl⟩ := (counted.acquired handle path).mp acquired
  refine (counted.released handle).mpr ⟨h, found, ?_⟩
  have idle := List.countP_eq_zero.mp none h (List.mem_of_getElem? found)
  simpa only [Handle.holds, decide_true, Bool.true_and, Bool.not_eq_true] using idle

theorem other {after : Usage} (counted : u.Counted) (refs : after.tracker.refs = u.tracker.refs)
    (handles : after.handles = u.handles) {event : Reclamation.Event Bytes} (trace : after.trace = u.trace ++ [event])
    (acquired : ∀ handle path, event ≠ .acquired handle path) (released : ∀ handle, event ≠ .released handle) :
    after.Counted where
  refs path := by
    rw [refs, holding, handles]
    exact counted.refs path
  acquired handle path := by
    rw [trace, handles, List.mem_append, List.mem_singleton, or_iff_left (Ne.symm (acquired handle path))]
    exact counted.acquired handle path
  released handle := by
    rw [trace, handles, List.mem_append, List.mem_singleton, or_iff_left (Ne.symm (released handle))]
    exact counted.released handle

theorem acquire (counted : u.Counted) (path : Bytes) :
    Counted (log { u with tracker := u.tracker.acquire path, handles := u.handles ++ [⟨path, .unused⟩] }
      (.acquired u.handles.length path)) := by
  have places : ∀ {p : Handle → Prop} (i : Nat), (∃ h, (u.handles ++ [⟨path, .unused⟩])[i]? = some h ∧ p h) ↔
      (∃ h, u.handles[i]? = some h ∧ p h) ∨ (i = u.handles.length ∧ p ⟨path, .unused⟩) := by
    intro p i
    rcases Nat.lt_trichotomy i u.handles.length with inside | rfl | outside
    · rw [List.getElem?_append_left inside]
      simp only [inside.ne, false_and, or_false]
    · rw [List.getElem?_concat_length, List.getElem?_eq_none (Nat.le_refl _)]
      simp only [Option.some.injEq, exists_eq_left', reduceCtorEq, false_and, exists_false, true_and, false_or]
    · rw [List.getElem?_eq_none (by rw [List.length_append, List.length_singleton]; exact outside),
        List.getElem?_eq_none outside.le]
      simp only [reduceCtorEq, false_and, exists_false, outside.ne', or_self]
  refine ⟨fun other => ?_, fun handle other => ?_, fun handle => ?_⟩
  · have more : holding (log { u with tracker := u.tracker.acquire path, handles := u.handles ++ [⟨path, .unused⟩] }
        (.acquired u.handles.length path)) other = u.holding other + if path = other then 1 else 0 := by
      simp only [holding, log, List.countP_append, List.countP_singleton, Handle.holds, Stage.holds, Bool.and_true,
        decide_eq_true_eq]
    rw [more]
    simp only [log, Tracker.acquire, SortedMap.get?_insert, counted.count, counted.refs]
    by_cases same : other = path
    · simp only [same, if_true, Nat.add_eq_zero_iff, one_ne_zero, and_false, if_false]
    · simp only [same, Ne.symm same, if_false, Nat.add_zero]
  · simp only [log, List.mem_append, List.mem_singleton, Reclamation.Event.acquired.injEq, places, counted.acquired,
      eq_comm (a := other)]
  · simp only [log, List.mem_append, List.mem_singleton, reduceCtorEq, or_false, places, Stage.holds,
      Bool.true_eq_false, and_false, counted.released]

theorem setStage {handle : Nat} {path : Bytes} {old new : Stage} (counted : u.Counted)
    (found : u.handles[handle]? = some ⟨path, old⟩) (same : new.holds = old.holds) :
    (u.setStage handle path new).Counted where
  refs other := by
    have unchanged : (u.setStage handle path new).holding other = u.holding other := by
      rw [holding_setStage found]
      simp only [Handle.holds, same]
      by_cases held : (decide (path = other) && old.holds) = true
      · simp only [held, if_true]
        simp only [Bool.and_eq_true, decide_eq_true_eq] at held
        have positive := holding_pos found held.2
        rw [held.1] at positive
        exact Nat.sub_add_cancel positive
      · simp only [held, Bool.false_eq_true, if_false, Nat.sub_zero, Nat.add_zero]
    rw [unchanged]
    exact counted.refs other
  acquired i other := by
    have places : (∃ h, (u.setStage handle path new).handles[i]? = some h ∧ h.path = other) ↔
        ∃ h, u.handles[i]? = some h ∧ h.path = other := exists_setStage found (by rfl) i
    exact (counted.acquired i other).trans places.symm
  released i := by
    have places : (∃ h, (u.setStage handle path new).handles[i]? = some h ∧ h.stage.holds = false) ↔
        ∃ h, u.handles[i]? = some h ∧ h.stage.holds = false := exists_setStage found (by rw [same]) i
    exact (counted.released i).trans places.symm

theorem release {handle : Nat} {path : Bytes} {new : Stage} (counted : u.Counted)
    (found : u.handles[handle]? = some ⟨path, .called⟩) (ended : new.holds = false) :
    Counted (log (Usage.setStage { u with tracker := (u.tracker.release path).1 } handle path new)
      (.released handle)) := by
  have positive : 0 < u.holding path := holding_pos found rfl
  refine ⟨fun other => ?_, fun i other => ?_, fun i => ?_⟩
  · have less : holding (log (Usage.setStage { u with tracker := (u.tracker.release path).1 } handle path new)
        (.released handle)) other = u.holding other - if path = other then 1 else 0 := by
      refine (holding_setStage found other).trans ?_
      simp only [Handle.holds, ended, show Stage.called.holds = true from rfl, Bool.and_false, Bool.false_eq_true,
        if_false, Nat.add_zero, Bool.and_true, decide_eq_true_eq]
    rw [less]
    simp only [log, Usage.setStage, Tracker.release_refs, counted.count, counted.refs]
    by_cases same : other = path
    · simp only [same, if_true]
    · simp only [same, Ne.symm same, if_false, Nat.sub_zero]
  · have places : (∃ h, (u.setStage handle path new).handles[i]? = some h ∧ h.path = other) ↔
        ∃ h, u.handles[i]? = some h ∧ h.path = other := exists_setStage found (by rfl) i
    simp only [log, List.mem_append, List.mem_singleton, reduceCtorEq, or_false]
    exact (counted.acquired i other).trans places.symm
  · have place : (u.handles.set handle ⟨path, new⟩)[i]? = if i = handle then some ⟨path, new⟩ else u.handles[i]? :=
      getElem?_setStage found i
    simp only [log, Usage.setStage, List.mem_append, List.mem_singleton, Reclamation.Event.released.injEq, place]
    by_cases here : i = handle
    · simp only [here, or_true, if_true, Option.some.injEq, exists_eq_left', ended]
    · simp only [here, or_false, if_false]
      exact counted.released i

end Counted

namespace Sound

theorem start : newUsage.Sound where
  counted := by
    have nobody : ∀ {p : Handle → Prop} (i : Nat), ¬∃ h, ([] : List Handle)[i]? = some h ∧ p h := by
      rintro p i ⟨h, found, -⟩
      cases found
    exact ⟨fun _ => rfl, fun i _ => iff_of_false List.not_mem_nil (nobody i), fun i =>
      iff_of_false List.not_mem_nil (nobody i)⟩
  marked _ wrong := nomatch wrong
  owing := Owing.start.weaken (fun _ pending => pending.elim List.not_mem_nil List.not_mem_nil)
    fun _ remembered => Or.inl (remembered.elim id False.elim)

theorem free_due (counted : u.Counted) {path : Bytes} (none : u.holding path = 0) (retired : .retired path ∈ u.trace) :
    Due u.trace path :=
  Due.of_free retired (counted.free none)

theorem acquire (sound : u.Sound) (path : Bytes) :
    Sound (log { u with tracker := u.tracker.acquire path, handles := u.handles ++ [⟨path, .unused⟩] }
      (.acquired u.handles.length path)) where
  counted := sound.counted.acquire path
  marked other mark := by
    obtain ⟨held, retired⟩ := sound.marked other mark
    refine ⟨?_, List.mem_append_left _ retired⟩
    simp only [holding, log, List.countP_append]
    exact Nat.add_pos_left held _
  owing := by
    refine sound.owing.append _ (fun key pending => ?_) (fun _ wrong => nomatch wrong) (fun _ wrong => nomatch wrong)
      fun key remembered => Or.inr (remembered.imp_right ?_)
    · refine Or.inl (pending.imp_right fun present => ?_)
      rcases List.mem_append.mp present with old | new
      · exact old
      · cases List.mem_singleton.mp new
    · exact Or.imp_right (List.mem_append_left _)

theorem called {handle : Nat} {path : Bytes} (sound : u.Sound) (found : u.handles[handle]? = some ⟨path, .unused⟩) :
    (u.setStage handle path .called).Sound where
  counted := sound.counted.setStage found rfl
  marked other mark := by
    have counted : (u.setStage handle path .called).Counted := sound.counted.setStage found rfl
    obtain ⟨held, retired⟩ := sound.marked other mark
    exact ⟨sound.counted.holding_eq counted rfl other ▸ held, retired⟩
  owing := by
    refine sound.owing.weaken (fun key pending => ?_) fun key remembered => remembered.imp_right ?_
    · exact pending.imp_right fun present => removing_of_setStage (by decide) present
    · exact Or.imp_right fun present => mem_setStage found present (by simp only [ne_eq, Handle.mk.injEq, reduceCtorEq,
        and_false, not_false_eq_true])

theorem release {handle : Nat} {path : Bytes} (sound : u.Sound) (found : u.handles[handle]? = some ⟨path, .called⟩) :
    Sound (log (setStage { u with tracker := (u.tracker.release path).1 } handle path
      (if (u.tracker.release path).2 then .removing else .through)) (.released handle)) := by
  have ended : (if (u.tracker.release path).2 then Stage.removing else Stage.through).holds = false := by
    split <;> rfl
  have counted := sound.counted.release found ended
  have inside := (List.getElem?_eq_some_iff.mp found).1
  refine ⟨counted, fun other mark => ?_, ?_⟩
  · change (u.tracker.release path).1.retired.get? other = some () at mark
    rw [Tracker.release_retired] at mark
    split at mark
    · cases mark
    · rename_i kept
      obtain ⟨held, retired⟩ := sound.marked other mark
      refine ⟨?_, List.mem_append_left _ retired⟩
      rw [← counted.count]
      change 0 < (u.tracker.release path).1.count other
      rw [Tracker.release_count]
      split
      · rename_i same
        exact Nat.pos_of_ne_zero fun last => kept ⟨same, last⟩
      · rw [sound.counted.count]
        exact held
  · refine sound.owing.append _ (fun key pending => ?_) (fun _ wrong => nomatch wrong) (fun _ wrong => nomatch wrong)
      fun key remembered => Or.inr ?_
    · rcases pending with old | present
      · exact Or.inl (Or.inl old)
      rcases List.mem_or_eq_of_mem_set present with old | new
      · exact Or.inl (Or.inr old)
      -- The section has decided to delete, so it was the last and the path was marked.
      obtain ⟨rfl, last, mark⟩ := removing_iff.mp new
      refine Or.inr (free_due counted ?_ (List.mem_append_left _ (sound.marked key mark).2))
      rw [← counted.count]
      exact (Tracker.release_count _ _ _).trans ((if_pos rfl).trans last)
    · rcases remembered with mark | old | present
      · by_cases last : key = path ∧ u.tracker.count path - 1 = 0
        · obtain ⟨rfl, last⟩ := last
          refine Or.inr (Or.inr ?_)
          rw [removing_iff.mpr ⟨rfl, last, mark⟩]
          exact List.mem_set inside _
        · refine Or.inl ?_
          change (u.tracker.release path).1.retired.get? key = some ()
          rw [Tracker.release_retired, if_neg last]
          exact mark
      · exact Or.inr (Or.inl old)
      · refine Or.inr (Or.inr (mem_setStage found present ?_))
        simp only [ne_eq, Handle.mk.injEq, reduceCtorEq, and_false, not_false_eq_true]

theorem removedReleased {handle : Nat} {path : Bytes} (sound : u.Sound)
    (found : u.handles[handle]? = some ⟨path, .removing⟩) :
    ((u.setStage handle path .through).log (.removed path)).Sound := by
  have moved : (u.setStage handle path .through).Counted := sound.counted.setStage found rfl
  have counted : ((u.setStage handle path .through).log (.removed path)).Counted :=
    moved.other rfl rfl rfl (fun _ _ wrong => nomatch wrong) (fun _ wrong => nomatch wrong)
  refine ⟨counted, fun other mark => ?_, ?_⟩
  · obtain ⟨held, retired⟩ := sound.marked other mark
    exact ⟨sound.counted.holding_eq counted rfl other ▸ held, List.mem_append_left _ retired⟩
  · refine sound.owing.append _ (fun key pending => Or.inl ?_) (fun key same => ?_) (fun _ wrong => nomatch wrong)
      fun key remembered => ?_
    · exact pending.imp_right fun present => removing_of_setStage (by decide) present
    · cases same
      exact sound.owing.due path (Or.inr (List.mem_of_getElem? found))
    · rcases remembered with mark | old | present
      · exact Or.inr (Or.inl mark)
      · exact Or.inr (Or.inr (Or.inl old))
      · by_cases same : key = path
        · exact Or.inl (congrArg _ same.symm)
        · refine Or.inr (Or.inr (Or.inr (mem_setStage found present ?_)))
          simp only [ne_eq, Handle.mk.injEq, same, false_and, not_false_eq_true]

theorem mem_retiring {path key : Bytes} :
    key ∈ (if (u.tracker.retire path).2 then u.retiring else u.retiring ++ [path]) ↔
      key ∈ u.retiring ∨ key = path ∧ u.tracker.count path = 0 := by
  rw [Tracker.retire_held]
  split
  · rename_i held
    rw [decide_eq_true_eq] at held
    exact ⟨Or.inl, fun either => either.resolve_right fun free => held.ne' free.2⟩
  · rename_i free
    rw [decide_eq_true_eq, Nat.pos_iff_ne_zero, not_not] at free
    rw [List.mem_append, List.mem_singleton]
    exact or_congr_right ⟨fun same => ⟨same, free⟩, And.left⟩

theorem retired (sound : u.Sound) (path : Bytes) :
    Sound (log { u with
      tracker := (u.tracker.retire path).1
      retiring := if (u.tracker.retire path).2 then u.retiring else u.retiring ++ [path] } (.retired path)) := by
  have counted : Counted (log { u with
      tracker := (u.tracker.retire path).1
      retiring := if (u.tracker.retire path).2 then u.retiring else u.retiring ++ [path] } (.retired path)) :=
    sound.counted.other (Tracker.retire_refs ..) rfl rfl (fun _ _ wrong => nomatch wrong) (fun _ wrong => nomatch wrong)
  have holding := sound.counted.holding_eq counted (Tracker.retire_refs ..)
  have here : .retired path ∈ u.trace ++ [.retired path] := List.mem_append_right _ List.mem_cons_self
  refine ⟨counted, fun other mark => ?_, ?_⟩
  · change (u.tracker.retire path).1.retired.get? other = some () at mark
    rw [Tracker.retire_retired] at mark
    rw [holding]
    split at mark
    · rename_i new
      obtain ⟨rfl, held⟩ := new
      exact ⟨sound.counted.count other ▸ held, here⟩
    · obtain ⟨held, earlier⟩ := sound.marked other mark
      exact ⟨held, List.mem_append_left _ earlier⟩
  · refine sound.owing.append _ (fun key pending => ?_) (fun _ wrong => nomatch wrong) (fun key same => ?_)
      fun key remembered => Or.inr ?_
    · rcases pending with waits | present
      · rcases mem_retiring.mp waits with old | ⟨rfl, free⟩
        · exact Or.inl (Or.inl old)
        · refine Or.inr (free_due counted ?_ here)
          rw [holding, ← sound.counted.count]
          exact free
      · exact Or.inl (Or.inr present)
    · cases same
      rcases Nat.eq_zero_or_pos (u.tracker.count path) with free | held
      · exact Or.inr (Or.inl (mem_retiring.mpr (Or.inr ⟨rfl, free⟩)))
      · refine Or.inl ((Tracker.retire_retired ..).trans ?_)
        rw [if_pos ⟨rfl, held⟩]
    · rcases remembered with mark | old | present
      · refine Or.inl ((Tracker.retire_retired ..).trans ?_)
        split
        · rfl
        · exact mark
      · exact Or.inr (Or.inl (mem_retiring.mpr (Or.inl old)))
      · exact Or.inr (Or.inr present)

theorem removedRetired {call : Nat} {path : Bytes} (sound : u.Sound) (found : u.retiring[call]? = some path) :
    Sound (log { u with retiring := u.retiring.eraseIdx call } (.removed path)) := by
  have counted : Counted (log { u with retiring := u.retiring.eraseIdx call } (.removed path)) :=
    sound.counted.other rfl rfl rfl (fun _ _ wrong => nomatch wrong) (fun _ wrong => nomatch wrong)
  refine ⟨counted, fun other mark => ?_, ?_⟩
  · obtain ⟨held, retired⟩ := sound.marked other mark
    exact ⟨held, List.mem_append_left _ retired⟩
  · refine sound.owing.append _ (fun key pending => Or.inl ?_) (fun key same => ?_) (fun _ wrong => nomatch wrong)
      fun key remembered => ?_
    · exact pending.imp_left fun waits => List.eraseIdx_subset waits
    · cases same
      exact sound.owing.due path (Or.inl (List.mem_of_getElem? found))
    · rcases remembered with mark | old | present
      · exact Or.inr (Or.inl mark)
      · by_cases same : key = path
        · exact Or.inl (congrArg _ same.symm)
        · obtain ⟨i, place⟩ := List.mem_iff_getElem?.mp old
          refine Or.inr (Or.inr (Or.inl (List.mem_eraseIdx_iff_getElem?.mpr ⟨i, ?_, place⟩)))
          rintro rfl
          exact same (Option.some.inj (place.symm.trans found))
      · exact Or.inr (Or.inr (Or.inr present))

theorem step {after : Usage} (sound : u.Sound) {next : Step} (taken : u.step next = some after) : after.Sound := by
  cases step_taken taken with
  | acquire path => exact sound.acquire path
  | called found => exact sound.called found
  | parked waiting =>
    obtain ⟨⟨refs, acquired, released⟩, marked, owing⟩ := sound
    exact ⟨⟨refs, acquired, released⟩, marked, owing⟩
  | released found => exact sound.release found
  | removedReleased found => exact sound.removedReleased found
  | retired path => exact sound.retired path
  | removedRetired found => exact sound.removedRetired found

theorem run {after : Usage} (sound : u.Sound) {steps : List Step} (ran : u.run steps = some after) : after.Sound := by
  induction steps generalizing u with
  | nil =>
    cases ran
    exact sound
  | cons first rest ih =>
    obtain ⟨next, taken, later⟩ := Option.bind_eq_some_iff.mp ran
    exact ih (sound.step taken) later

theorem settled (sound : u.Sound) (idle : u.Idle)
    (released : ∀ handle path, .acquired handle path ∈ u.trace → .released handle ∈ u.trace) :
    (∀ path, ¬u.Pending path) ∧ (∀ path, ¬u.Marked path) ∧ u.tracker = .newTracker := by
  have free : ∀ path, u.holding path = 0 := by
    intro path
    refine List.countP_eq_zero.mpr fun h present => ?_
    obtain ⟨handle, found⟩ := List.mem_iff_getElem?.mp present
    have ended := released handle h.path ((sound.counted.acquired handle h.path).mpr ⟨h, found, rfl⟩)
    obtain ⟨same, foundSame, done⟩ := (sound.counted.released handle).mp ended
    cases foundSame.symm.trans found
    simp only [Handle.holds, done, Bool.and_false, Bool.false_eq_true, not_false_eq_true]
  have unmarked : ∀ path, ¬u.Marked path := by
    intro path mark
    have held := (sound.marked path mark).1
    rw [free path] at held
    exact Nat.lt_irrefl 0 held
  refine ⟨fun path pending => ?_, unmarked, ?_⟩
  · rcases pending with waits | present
    · rw [idle.retiring] at waits
      cases waits
    · rcases idle.handles _ present with wrong | wrong <;> cases wrong
  · have refs : u.tracker.refs = SortedMap.empty := by
      ext path
      rw [sound.counted.refs, if_pos (free path)]
      rfl
    have retired : u.tracker.retired = SortedMap.empty := by
      ext path mark
      rw [SortedMap.get?_empty]
      exact ⟨fun found => absurd found (unmarked path), fun wrong => nomatch wrong⟩
    cases tracker : u.tracker with
    | mk first second =>
      rw [tracker] at refs retired
      cases refs
      cases retired
      rfl

end Sound

/-- Deletion is deferred exactly, in every interleaving: a file is removed only after a `Retire` of its path all of
whose earlier `Acquire` calls are released; and once no call is under way and everything is released, every `Retire`
has been followed by a removal and the tracker is empty. -/
theorem deletion_deferred (steps : List Step) (u : Usage) (ran : newUsage.run steps = some u) :
    (∀ before path after, u.trace = before ++ .removed path :: after → Due before path) ∧
      (u.Idle → (∀ handle path, .acquired handle path ∈ u.trace → .released handle ∈ u.trace) →
        (∀ before path after, u.trace = before ++ .retired path :: after → .removed path ∈ after) ∧
          u.tracker = .newTracker) := by
  have sound : u.Sound := Sound.start.run ran
  refine ⟨sound.owing.removals, fun idle released => ?_⟩
  obtain ⟨done, unmarked, empty⟩ := sound.settled idle released
  refine ⟨fun before path after split => ?_, empty⟩
  rcases sound.owing.served before path after split with gone | mark | pending
  · exact gone
  · exact absurd mark (unmarked path)
  · exact absurd pending (done path)

/-- A table is retired under a reader, acquired and retired again, and released by both readers; the second calls its
release function twice, the later call while the file is being removed. -/
def readers : List Step :=
  [.acquire [1], .retire [1], .acquire [1], .retire [1], .callRelease 0, .release 0, .callRelease 1, .release 1,
    .callRelease 1, .removeReleased 1, .wake 0]

def afterReaders : Usage :=
  ⟨.newTracker, [⟨[1], .through⟩, ⟨[1], .through⟩], [], [],
    [.acquired 0 [1], .retired [1], .acquired 1 [1], .retired [1], .released 0, .released 1, .removed [1]]⟩

theorem run_readers : newUsage.run readers = some afterReaders := by
  rfl

theorem deletion_deferred_readers :
    newUsage.run readers = some afterReaders ∧ afterReaders.Idle ∧
      Due [.acquired 0 [1], .retired [1], .acquired 1 [1], .retired [1], .released 0, .released 1] ([1] : Bytes) ∧
      .removed [1] ∈ afterReaders.trace ∧ afterReaders.tracker = .newTracker := by
  obtain ⟨due, settled⟩ := deletion_deferred readers afterReaders run_readers
  have idle : afterReaders.Idle := ⟨by decide, rfl, rfl⟩
  have released : ∀ handle path, .acquired handle path ∈ afterReaders.trace →
      .released handle ∈ afterReaders.trace := by
    intro handle path acquired
    simp only [afterReaders, List.mem_cons, Reclamation.Event.acquired.injEq, Reclamation.Event.released.injEq,
      reduceCtorEq, List.not_mem_nil, or_false, false_or] at acquired ⊢
    exact acquired.imp And.left And.left
  obtain ⟨served, empty⟩ := settled idle released
  refine ⟨run_readers, idle, due _ _ [] rfl, ?_, empty⟩
  exact List.mem_append_right [.acquired 0 [1], .retired [1]] (served [.acquired 0 [1]] [1] _ rfl)

end Usage

end ForgeDB.Storage.Compaction
