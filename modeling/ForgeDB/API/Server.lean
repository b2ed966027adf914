import ForgeDB.DBNode.Acknowledged

/-!
The write path of one API server whose node stays the leader. Every request draws its number, proposes its
command and waits until the node has applied its index; the steps of requests interleave freely with each other,
with replication and with the applier.
-/

namespace ForgeDB.API

open Raft (Node LogEntry)
open StateMachine

def defaultMaxValueBytes : Nat := 2 ^ 20

def kvClientIDPrefix : String := "forgedb-http-api-"

/-- The bodies of the write path: a plain text, the hint at the leader, or the status of a write. -/
inductive Body where
  | text (message : String)
  | notLeader (error leaderID leaderHTTP : String)
  | status (status : String)
  deriving DecidableEq, Repr

structure Response where
  code : Nat
  body : Body
  deriving DecidableEq, Repr

inductive Method where
  | put
  | delete
  deriving DecidableEq, Repr

inductive Request where
  | numbered (cmd : Command)
  | waiting (cmd : Command) (index : Nat)
  | written (cmd : Command) (index : Nat) (response : Response)
  | refused (response : Response)
  deriving DecidableEq, Repr

/-- `results` is kept for reasoning only: what the state machine returned at each index. -/
structure Server where
  clientID : Bytes
  reqSeq : UInt64
  maxValueBytes : Nat
  peerHTTP : String → String
  node : Node
  sm : KVStateMachine
  results : List (Nat × Result)
  requests : Nat → Option Request

def newServer (node : Node) (sm : KVStateMachine) (clock : UInt64) (peerHTTP : String → String) : Server where
  clientID := (kvClientIDPrefix ++ node.id).toUTF8.data.toList
  reqSeq := clock
  maxValueBytes := defaultMaxValueBytes
  peerHTTP := peerHTTP
  node := node
  sm := sm
  results := []
  requests _ := none

/-- The node's own methods, one turn of the applier's loop, and the steps of the handlers: a request
arrives and draws its number, proposes, and is answered after its wait or when its context ends. -/
inductive Event where
  | arrive (request : Nat) (method : Method) (key value : Bytes)
  | propose (request : Nat)
  | respond (request : Nat)
  | expire (request : Nat) (cause : String)
  | tick
  | resume (call : Raft.Call) (reply : Raft.Reply)
  | handleRequestVote (args : Raft.RequestVoteArgs)
  | apply
  | snapshot
  | fault (outcomes : List Bool)
  | storeFault (outcomes : List Bool)

namespace Server

def set (s : Server) (request : Nat) (stage : Request) : Server :=
  { s with requests := Function.update s.requests request (some stage) }

def nextRequestID (s : Server) : Server × UInt64 :=
  ({ s with reqSeq := s.reqSeq + 1 }, s.reqSeq + 1)

def handleKVPut (s : Server) (request : Nat) (key value : Bytes) : Server :=
  if s.maxValueBytes < value.length then
    s.set request (.refused ⟨413, .text "request body too large or unreadable"⟩)
  else
    let (s, id) := s.nextRequestID
    s.set request (.numbered (newPutCommand s.clientID id key value))

def handleKVDelete (s : Server) (request : Nat) (key : Bytes) : Server :=
  let (s, id) := s.nextRequestID
  s.set request (.numbered (newDeleteCommand s.clientID id key))

def handleKV (s : Server) (request : Nat) (method : Method) (key value : Bytes) : Server :=
  if key = [] then s.set request (.refused ⟨400, .text "missing key: expected /kv/\x7bkey\x7d"⟩)
  else
    match method with
    | .put => s.handleKVPut request key value
    | .delete => s.handleKVDelete request key

def writeNotLeader (s : Server) : Response :=
  let leaderID := s.node.leaderID
  ⟨421, .notLeader "not_leader" leaderID (if leaderID = "" then "" else s.peerHTTP leaderID)⟩

def proposeAndWait (s : Server) (request : Nat) (cmd : Command) : Server :=
  match DBNode.propose s.node cmd with
  | (node, .error (.raft .notLeader)) => { s with node := node }.set request (.refused s.writeNotLeader)
  | (node, .error cause) =>
    { s with node := node }.set request (.refused ⟨500, .text ("propose failed: " ++ cause.text)⟩)
  | (node, .ok (index, _)) => { s with node := node }.set request (.waiting cmd index)

def respond (s : Server) (request : Nat) (cmd : Command) (index : Nat) : Server :=
  s.set request (.written cmd index ⟨200, .status (if cmd.op = .delete then "deleted" else "ok")⟩)

/-- One turn of `applyAvailable`: a snapshot to restore comes first, then the next committed entry meets
the state machine and is marked. -/
def applyNext (s : Server) : Server :=
  match restorePendingSnapshotLocked s.node s.sm with
  | (node, sm, some _) => { s with node := node, sm := sm }
  | (node, sm, none) =>
    match node.committedEntries (node.lastApplied + 1) with
    | [] => { s with node := node, sm := sm }
    | entry :: _ =>
      match decodeCommand entry.command with
      | .error _ => { s with node := node, sm := sm }
      | .ok cmd =>
        match sm.apply cmd with
        | (sm, .error _) => { s with node := node, sm := sm }
        | (sm, .ok result) =>
          { s with
            node := (node.markApplied entry.index).1
            sm := sm
            results := (entry.index, result) :: s.results }

/-- A method of the node, which the run outlasts only if the node leads afterwards. -/
def leading (s : Server) (node : Node) : Option Server :=
  if node.role = .leader then some { s with node := node } else none

def step (s : Server) : Event → Option Server
  | .arrive request method key value =>
    match s.requests request with
    | none => some (s.handleKV request method key value)
    | some _ => none
  | .propose request =>
    match s.requests request with
    | some (.numbered cmd) => some (s.proposeAndWait request cmd)
    | _ => none
  | .respond request =>
    match s.requests request with
    | some (.waiting cmd index) =>
      if DBNode.waitApplied s.node index then some (s.respond request cmd index) else none
    | _ => none
  | .expire request cause =>
    match s.requests request with
    | some (.waiting _ _) =>
      some (s.set request (.refused ⟨504, .text ("timed out waiting for write to apply: " ++ cause)⟩))
    | _ => none
  | .tick => s.leading s.node.tick.1
  | .resume call reply => s.leading (s.node.resume call reply).1
  | .handleRequestVote args => s.leading (s.node.handleRequestVote args).1
  | .apply => some s.applyNext
  | .snapshot => some { s with node := (createSnapshot s.node s.sm s.node.lastApplied).1 }
  | .fault outcomes => some { s with node := { s.node with persister := { s.node.persister with faults := outcomes } } }
  | .storeFault outcomes => some { s with sm := { s.sm with store := { s.sm.store with faults := outcomes } } }

def Runs : Server → Server → Prop := Relation.ReflTransGen fun before after => ∃ event, before.step event = some after

def exec (s : Server) (events : List Event) : Option Server := events.foldlM step s

theorem exec_runs {events : List Event} {s after : Server} (done : s.exec events = some after) : Runs s after := by
  induction events generalizing s with
  | nil =>
    cases done
    exact .refl
  | cons event events ih =>
    rw [exec, List.foldlM_cons, Option.bind_eq_bind, Option.bind_eq_some_iff] at done
    obtain ⟨next, taken, rest⟩ := done
    exact .head ⟨event, taken⟩ (ih rest)

end Server

end ForgeDB.API
