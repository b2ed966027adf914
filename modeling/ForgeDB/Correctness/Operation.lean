import Mathlib.Data.List.Nodup
import Mathlib.Logic.Function.Basic

/-!
Recorded histories of client calls, the sequential key/value model they are compared with, and what
it means to linearize a history.
-/

namespace ForgeDB.Correctness

inductive OpKind where
  | get
  | put
  | delete
  | unknown (code : Int) (other : code < 0 ∨ 2 < code)
  deriving DecidableEq, Repr

namespace OpKind

def string : OpKind → String
  | get => "Get"
  | put => "Put"
  | delete => "Delete"
  | unknown code _ => s!"OpKind({code})"

end OpKind

inductive Outcome where
  | incomplete
  | failed
  | ok
  | unknown (code : Int) (other : code < 0 ∨ 2 < code)
  deriving DecidableEq, Repr

namespace Outcome

def string : Outcome → String
  | incomplete => "Incomplete"
  | failed => "Failed"
  | ok => "OK"
  | unknown code _ => s!"Outcome({code})"

end Outcome

/-- One recorded call. `invoke` and `complete` are places in one global logical sequence. -/
structure Operation where
  id : Int
  kind : OpKind
  key : String
  value : String
  invoke : Int
  complete : Int
  outcome : Outcome
  found : Bool
  result : String
  err : Option String
  deriving DecidableEq, Repr

instance : Inhabited Operation := ⟨⟨0, .get, "", "", 0, 0, .incomplete, false, "", none⟩⟩

structure History where
  ops : List Operation
  deriving DecidableEq, Repr

inductive HistoryError where
  | duplicateID (id : Int)
  | unknownKind (id : Int) (kind : OpKind)
  | incompleteErr (id : Int)
  | completeNotAfter (id complete invoke : Int)
  | failedWithoutErr (id : Int)
  | okErr (id : Int)
  | notFoundResult (id : Int)
  | foundNotGet (id : Int)
  | unknownOutcome (id : Int) (outcome : Outcome)
  deriving DecidableEq, Repr

def HistoryError.text : HistoryError → String
  | duplicateID id => s!"correctness: duplicate operation id {id}"
  | unknownKind id kind => s!"correctness: operation {id}: unknown kind {kind.string}"
  | incompleteErr id => s!"correctness: operation {id}: Incomplete must not carry Err"
  | completeNotAfter id complete invoke =>
    s!"correctness: operation {id}: Complete ({complete}) must be greater than Invoke ({invoke})"
  | failedWithoutErr id => s!"correctness: operation {id}: Failed must carry a non-nil Err"
  | okErr id => s!"correctness: operation {id}: OK must not carry Err"
  | notFoundResult id => s!"correctness: operation {id}: Get reported not-found but carries a non-empty Result"
  | foundNotGet id => s!"correctness: operation {id}: Found is only meaningful for Get"
  | unknownOutcome id outcome => s!"correctness: operation {id}: unknown outcome {outcome.string}"

namespace Operation

def validate (op : Operation) : Except HistoryError Unit :=
  match op.kind with
  | .unknown _ _ => .error (.unknownKind op.id op.kind)
  | _ =>
    match op.outcome with
    | .incomplete => if op.err ≠ none then .error (.incompleteErr op.id) else .ok ()
    | .failed =>
      if op.complete ≤ op.invoke then .error (.completeNotAfter op.id op.complete op.invoke)
      else if op.err = none then .error (.failedWithoutErr op.id)
      else .ok ()
    | .ok =>
      if op.complete ≤ op.invoke then .error (.completeNotAfter op.id op.complete op.invoke)
      else if op.err ≠ none then .error (.okErr op.id)
      else if op.kind = .get ∧ op.found = false ∧ op.result ≠ "" then .error (.notFoundResult op.id)
      else if op.kind ≠ .get ∧ op.found = true then .error (.foundNotGet op.id)
      else .ok ()
    | .unknown _ _ => .error (.unknownOutcome op.id op.outcome)

def optional (op : Operation) : Bool :=
  op.outcome = .incomplete && (op.kind = .put || op.kind = .delete)

end Operation

namespace History

def validateFrom (seen : List Int) : List Operation → Except HistoryError Unit
  | [] => .ok ()
  | op :: rest =>
    if op.id ∈ seen then .error (.duplicateID op.id)
    else
      match op.validate with
      | .error error => .error error
      | .ok _ => validateFrom (op.id :: seen) rest

def validate (h : History) : Except HistoryError Unit := validateFrom [] h.ops

def completed (h : History) : List Operation := h.ops.filter fun op => op.outcome = .ok

def optional (h : History) : List Operation := h.ops.filter Operation.optional

theorem validateFrom_ok_iff {seen : List Int} {ops : List Operation} :
    validateFrom seen ops = .ok () ↔
      (∀ op ∈ ops, op.validate = .ok ()) ∧ (ops.map Operation.id).Nodup ∧ ∀ op ∈ ops, op.id ∉ seen := by
  induction ops generalizing seen with
  | nil =>
    exact iff_of_true rfl ⟨List.forall_mem_nil _, List.nodup_nil, List.forall_mem_nil _⟩
  | cons first rest ih =>
    unfold validateFrom
    simp only [List.forall_mem_cons, List.map_cons, List.nodup_cons, List.mem_map]
    split
    · rename_i again
      exact iff_of_false (fun passed => nomatch passed) fun all => all.2.2.1 again
    rename_i fresh
    split
    · rename_i error refused
      refine iff_of_false (fun passed => nomatch passed) fun all => ?_
      rw [refused] at all
      cases all.1.1
    · rename_i passed
      rw [ih]
      simp only [List.mem_cons, not_or, passed, fresh, not_exists, not_and]
      constructor
      · rintro ⟨each, distinct, unseen⟩
        exact ⟨⟨trivial, each⟩, ⟨fun op later => (unseen op later).1, distinct⟩, not_false, fun op later =>
          (unseen op later).2⟩
      · rintro ⟨⟨-, each⟩, ⟨other, distinct⟩, -, unseen⟩
        exact ⟨each, distinct, fun op later => ⟨other op later, unseen op later⟩⟩

theorem validate_distinct {h : History} (valid : h.validate = .ok ()) : (h.ops.map Operation.id).Nodup :=
  (validateFrom_ok_iff.mp valid).2.1

theorem validate_invoke {h : History} (valid : h.validate = .ok ()) {op : Operation} (present : op ∈ h.ops)
    (completed : op.outcome = .ok) : op.invoke < op.complete := by
  have passed := (validateFrom_ok_iff.mp valid).1 op present
  simp only [Operation.validate, completed] at passed
  split at passed
  · cases passed
  split at passed
  · cases passed
  · omega

theorem validate_sublist {h : History} (valid : h.validate = .ok ()) {ops : List Operation} (part : ops.Sublist h.ops) :
    (History.mk ops).validate = .ok () := by
  obtain ⟨each, distinct, unseen⟩ := validateFrom_ok_iff.mp valid
  refine validateFrom_ok_iff.mpr ⟨?_, distinct.sublist (part.map _), ?_⟩
  · exact fun op present => each op (part.subset present)
  · exact fun op present => unseen op (part.subset present)

end History

def Model := String → Option String

def newModel : Model := fun _ => none

def Model.apply (m : Model) (op : Operation) : Model × Bool × String :=
  match op.kind with
  | .put => (Function.update m op.key (some op.value), false, "")
  | .delete => (Function.update m op.key none, false, "")
  | .get => (m, (m op.key).isSome, (m op.key).getD "")
  | .unknown _ _ => (m, false, "")

def Model.matches (m : Model) (op : Operation) : Bool :=
  let (_, found, value) := m.apply op
  if op.kind ≠ .get then true
  else if found ≠ op.found then false
  else !found || value = op.result

def replay (ops : List Operation) : Model := ops.foldl (fun m op => (m.apply op).1) newModel

/-- A sequential ordering that explains the history: all operations that completed and some of the
incomplete writes, each once, in an order that respects real time and reproduces every read. -/
structure Linearizes (h : History) (ops : List Operation) : Prop where
  distinct : (ops.map Operation.id).Nodup
  every : ∀ op ∈ h.ops, op.outcome = .ok → op ∈ ops
  known : ∀ op ∈ ops, op ∈ h.ops ∧ (op.outcome = .ok ∨ op.optional = true)
  realTime : ops.Pairwise fun earlier later => ¬(later.outcome = .ok ∧ later.complete < earlier.invoke)
  reproduced : ∀ before op after, ops = before ++ op :: after → (replay before).matches op = true

def Linearizable (h : History) : Prop := ∃ ops, Linearizes h ops

theorem replay_snoc (ops : List Operation) (op : Operation) : replay (ops ++ [op]) = ((replay ops).apply op).1 := by
  rw [replay, List.foldl_append]
  rfl

end ForgeDB.Correctness
