import ForgeDB.Correctness.Operation
import ForgeDB.Data.SortedMap
import Mathlib.Order.Defs.LinearOrder
import Mathlib.Algebra.Order.Ring.Int

/-!
The linearizability checker: a bounded backtracking search over the orderings that real time allows, once for
each set of incomplete writes it tries. The map `done` is shared by all branches, and an entry that is taken
back stays in it with the value false.
-/

namespace ForgeDB.Correctness

inductive Status where
  | valid
  | violation
  | inconclusive
  deriving DecidableEq, Repr

structure Violation where
  linearization : List Int
  failingOp : Operation
  expectedFound : Bool
  expectedValue : String
  deriving DecidableEq, Repr

instance : Inhabited Violation := ⟨⟨[], default, false, ""⟩⟩

structure CheckResult where
  status : Status
  linearization : List Int
  violation : Option Violation
  statesExplored : Int
  budget : Int
  deriving DecidableEq, Repr

def CheckResult.depth (result : CheckResult) : Nat := (result.violation.map fun v => v.linearization.length).getD 0

structure Searcher where
  ops : SortedMap Int Operation
  ids : List Int
  preds : SortedMap Int (List Int)
  maxStates : Int

structure SearchState where
  done : SortedMap Int Bool
  states : Int
  budgetExceeded : Bool
  result : List Int
  bestDepth : Nat
  bestPrefix : List Int
  bestFailedID : Int
  bestFoundAt : Bool
  bestValueAt : String

def addPreds (required : List Operation) (preds : SortedMap Int (List Int)) (b : Operation) :
    SortedMap Int (List Int) :=
  required.foldl (fun preds a =>
    if a.id ≠ b.id ∧ a.complete < b.invoke then preds.insert b.id ((preds.get? b.id).getD [] ++ [a.id])
    else preds) preds

def newSearcher (required included : List Operation) (maxStates : Int) : Searcher :=
  let all := required ++ included
  { ops := all.foldl (fun ops op => ops.insert op.id op) SortedMap.empty
    ids := all.map Operation.id
    preds := all.foldl (addPreds required) SortedMap.empty
    maxStates := maxStates }

def SearchState.start : SearchState := ⟨SortedMap.empty, 0, false, [], 0, [], 0, false, ""⟩

def SearchState.isDone (t : SearchState) (id : Int) : Bool := (t.done.get? id).getD false

def SearchState.recordFailure (t : SearchState) (depth : Nat) (before : List Int) (failedID : Int) (foundAt : Bool)
    (valueAt : String) : SearchState :=
  if depth < t.bestDepth then t
  else { t with
    bestDepth := depth
    bestPrefix := before
    bestFailedID := failedID
    bestFoundAt := foundAt
    bestValueAt := valueAt }

namespace SearchState

section Recording

variable (t : SearchState) (depth : Nat) (before : List Int) (failedID : Int) (foundAt : Bool) (valueAt : String)

@[simp] theorem recordFailure_done :
    (t.recordFailure depth before failedID foundAt valueAt).done = t.done := by
  unfold recordFailure
  split <;> rfl

@[simp] theorem recordFailure_budgetExceeded :
    (t.recordFailure depth before failedID foundAt valueAt).budgetExceeded = t.budgetExceeded := by
  unfold recordFailure
  split <;> rfl

@[simp] theorem recordFailure_states :
    (t.recordFailure depth before failedID foundAt valueAt).states = t.states := by
  unfold recordFailure
  split <;> rfl

end Recording

end SearchState

namespace Searcher

def ready (s : Searcher) (t : SearchState) (id : Int) : Bool :=
  !t.isDone id && ((s.preds.get? id).getD []).all t.isDone

def searchLoop (s : Searcher) (deeper : List Int → Model → SearchState → SearchState × Bool) (linearized : List Int)
    (m : Model) : List Int → SearchState → SearchState × Bool
  | [], t => (t, false)
  | id :: rest, t =>
    if t.isDone id then s.searchLoop deeper linearized m rest t
    else if !s.ready t id then s.searchLoop deeper linearized m rest t
    else
      let t := { t with states := t.states + 1 }
      if s.maxStates < t.states then ({ t with budgetExceeded := true }, false)
      else
        let op := (s.ops.get? id).getD default
        let (candidate, foundAt, valueAt) := m.apply op
        if op.kind = .get ∧ (foundAt ≠ op.found ∨ (foundAt = true ∧ valueAt ≠ op.result)) then
          s.searchLoop deeper linearized m rest (t.recordFailure linearized.length linearized id foundAt valueAt)
        else
          match deeper (linearized ++ [id]) candidate { t with done := t.done.insert id true } with
          | (t, true) => (t, true)
          | (t, false) =>
            let t := { t with done := t.done.insert id false }
            if t.budgetExceeded then (t, false) else s.searchLoop deeper linearized m rest t

/-- The recursion is never deeper than the operations are many, so the fuel is never missed. -/
def search (s : Searcher) : Nat → List Int → Model → SearchState → SearchState × Bool
  | 0, _, _, t => (t, false)
  | fuel + 1, linearized, m, t =>
    if t.done.entries.length = s.ops.entries.length then ({ t with result := linearized }, true)
    else s.searchLoop (s.search fuel) linearized m s.ids t

def bestFailure (s : Searcher) (t : SearchState) : Violation :=
  if t.bestPrefix = [] ∧ t.bestFailedID = 0 then default
  else ⟨t.bestPrefix, (s.ops.get? t.bestFailedID).getD default, t.bestFoundAt, t.bestValueAt⟩

def run (s : Searcher) : CheckResult :=
  let (t, ok) := s.search (s.ids.length + 1) [] newModel .start
  if t.budgetExceeded then ⟨.inconclusive, [], none, t.states, s.maxStates⟩
  else if ok then ⟨.valid, t.result, none, t.states, s.maxStates⟩
  else ⟨.violation, [], some (s.bestFailure t), t.states, s.maxStates⟩

end Searcher

def maxOptionalWrites : Nat := 12

/-- The masks to try, as 64-bit integers: a shift by 64 or more leaves nothing. -/
def optionalSubsets (k : Nat) : List (BitVec 64) :=
  if k = 0 then [0]
  else if maxOptionalWrites < k then [0, (1#64 <<< k) - 1]
  else (List.range (2 ^ k)).map (BitVec.ofNat 64)

def included (optional : List Operation) (mask : BitVec 64) : List Operation :=
  (optional.zipIdx.filter fun (_, i) => mask &&& (1#64 <<< i) ≠ 0).map Prod.fst

def defaultMaxStates : Int := 200000

/-- The loop of `Check` over the masks, with the best violation so far, whether a search ran out of its
budget, and the states explored. -/
def checkLoop (completed optional : List Operation) (maxStates : Int) :
    List (BitVec 64) → CheckResult → Bool → Int → CheckResult
  | [], best, sawInconclusive, budgetUsed =>
    { best with
      status := if sawInconclusive then .inconclusive else best.status
      statesExplored := budgetUsed
      budget := maxStates }
  | mask :: masks, best, sawInconclusive, budgetUsed =>
    let remainingBudget := maxStates - budgetUsed
    if remainingBudget ≤ 0 then
      { best with status := .inconclusive, statesExplored := budgetUsed, budget := maxStates }
    else
      let result := (newSearcher completed (included optional mask) remainingBudget).run
      let budgetUsed := budgetUsed + result.statesExplored
      match result.status with
      | .valid => { result with statesExplored := budgetUsed, budget := maxStates }
      | .inconclusive => checkLoop completed optional maxStates masks best true budgetUsed
      | .violation =>
        let best := if best.depth ≤ result.depth then result else best
        checkLoop completed optional maxStates masks best sawInconclusive budgetUsed

def check (h : History) (maxStates : Int) : CheckResult :=
  let maxStates := if maxStates ≤ 0 then defaultMaxStates else maxStates
  checkLoop h.completed h.optional maxStates (optionalSubsets h.optional.length)
    ⟨.violation, [], some default, 0, 0⟩ false 0

end ForgeDB.Correctness
