import Mathlib.Logic.Relation
import ForgeDB.Raft.Snapshot

/-!
The cluster: its nodes, every packet ever sent, and the read barriers that are still waiting. A packet may be
delivered late, again, out of order or never. Each step is one execution under one node's lock, or a fault of
the surroundings.
-/

namespace ForgeDB.Raft

inductive Reply where
  | requestVote (reply : RequestVoteReply)
  | appendEntries (reply : AppendEntriesReply)
  | installSnapshot (reply : InstallSnapshotReply)
  deriving DecidableEq, Repr

/-- `src` is the node that made the call; `id` tells the calls apart. -/
inductive Packet where
  | request (id : Nat) (src : String) (call : Call)
  | reply (id : Nat) (src : String) (call : Call) (reply : Reply)
  deriving DecidableEq, Repr

namespace Node

def serve (n : Node) : Call → Node × Reply
  | .requestVote _ args =>
    let (n, reply) := n.handleRequestVote args
    (n, .requestVote reply)
  | .appendEntries _ args =>
    let (n, reply) := n.handleAppendEntries args
    (n, .appendEntries reply)
  | .installSnapshot _ _ args =>
    let (n, reply) := n.handleInstallSnapshot args
    (n, .installSnapshot reply)

/-- The caller's side once the reply is there, with the calls it goes on to make and whether the
peer acknowledged its leadership. -/
def resume (n : Node) : Call → Reply → Node × List Call × Bool
  | .requestVote peer args, .requestVote reply =>
    let (n, calls) := n.sendRequestVoteReply peer args.term reply
    (n, calls, false)
  | .appendEntries peer args, .appendEntries reply =>
    let (n, acked) := n.sendAppendEntriesReply peer args reply
    (n, [], acked)
  | .installSnapshot peer snap args, .installSnapshot reply =>
    let (n, calls) := n.sendInstallSnapshotReply peer snap args reply
    (n, calls, false)
  | _, _ => (n, [], false)

end Node

inductive Operation where
  | tick
  | handleRequestVote (args : RequestVoteArgs)
  | handleAppendEntries (args : AppendEntriesArgs)
  | handleInstallSnapshot (args : InstallSnapshotArgs)
  | resume (call : Call) (reply : Reply)
  | propose (command : Command)
  | createSnapshot (index : Nat) (data : Bytes)
  | markApplied (index : Nat)
  | confirmSnapshotRestored (index : Nat)

namespace Node

def perform (n : Node) : Operation → Node
  | .tick => n.tick.1
  | .handleRequestVote args => (n.handleRequestVote args).1
  | .handleAppendEntries args => (n.handleAppendEntries args).1
  | .handleInstallSnapshot args => (n.handleInstallSnapshot args).1
  | .resume call reply => (n.resume call reply).1
  | .propose command => (n.propose command).1
  | .createSnapshot index data => (n.createSnapshot index data).1
  | .markApplied index => (n.markApplied index).1
  | .confirmSnapshotRestored index => (n.confirmSnapshotRestored index).1

def performAll (n : Node) (ops : List Operation) : Node := ops.foldl perform n

inductive Resumes (n : Node) : Node → Prop where
  | same : Resumes n n
  | steppedDown {term : Nat} (newer : n.currentTerm < term) : Resumes n (n.becomeFollower term).1
  | counted (votes : List String) : Resumes n { n with votesReceived := votes }
  | elected (votes : List String) (standing : n.role = .candidate) :
    Resumes n { n with votesReceived := votes }.becomeLeader.1
  | noted (peer : String) (position : Nat) : Resumes n (n.noteProgress peer position).maybeAdvanceCommitIndex
  | backedOff (nextIndex : String → Nat) : Resumes n { n with nextIndex := nextIndex }

theorem resume_resumes (n : Node) (call : Call) (reply : Reply) : n.Resumes (n.resume call reply).1 := by
  cases call <;> cases reply <;> first | exact .same | skip
  · simp only [resume, sendRequestVoteReply]
    split
    · rename_i newer
      exact .steppedDown newer
    split
    · exact .same
    rename_i standing
    split
    · exact .same
    split
    · exact .elected _ (not_not.mp fun other => standing (Or.inl other))
    · exact .counted _
  · simp only [resume, sendAppendEntriesReply]
    split
    · rename_i newer
      exact .steppedDown newer
    split
    · exact .same
    split
    · exact .noted _ _
    split
    · exact .backedOff _
    · exact .same
  · simp only [resume, sendInstallSnapshotReply]
    split
    · rename_i newer
      exact .steppedDown newer
    split
    · exact .same
    split
    · exact .same
    split
    · exact .noted _ _
    · exact .same

end Node

/-- A read barrier waiting for its calls, each with its identifier and its outcome once known. -/
structure PendingRead where
  id : Nat
  node : String
  round : Node.ReadRound
  answers : List (Nat × Option Bool)
  deriving DecidableEq, Repr

namespace PendingRead

def answer (read : PendingRead) (call : Nat) (acked : Bool) : PendingRead :=
  { read with
    answers := read.answers.map fun (id, known) => if id = call then (id, some (known.getD acked)) else (id, known) }

def settled (read : PendingRead) : Bool := read.answers.all fun (_, known) => known.isSome

def acks (read : PendingRead) : Nat := (read.answers.filter fun (_, known) => known = some true).length

end PendingRead

structure Cluster where
  members : List String
  nodes : String → Node
  network : List Packet
  nextCall : Nat
  reads : List PendingRead

/-- `deliver` names the packet by its place in the network. A restart may configure everything but
the identity, the membership and the disk anew. -/
inductive Action where
  | tick (node : String)
  | propose (node : String) (command : Command)
  | createSnapshot (node : String) (index : Nat) (data : List UInt8)
  | confirmSnapshotRestored (node : String) (index : Nat)
  | markApplied (node : String) (index : Nat)
  | deliver (slot : Nat)
  | readIndex (node : String)
  | dropCall (id : Nat)
  | returnRead (id : Nat)
  | fault (node : String) (outcomes : List Bool)
  | restart (node : String) (opts : Options)

namespace Cluster

def setNode (c : Cluster) (node : String) (n : Node) : Cluster :=
  { c with nodes := Function.update c.nodes node n }

def requests (src : String) (id : Nat) (calls : List Call) : List Packet :=
  calls.mapIdx fun i call => .request (id + i) src call

def post (c : Cluster) (src : String) (calls : List Call) : Cluster :=
  { c with network := c.network ++ requests src c.nextCall calls, nextCall := c.nextCall + calls.length }

def answerReads (c : Cluster) (call : Nat) (acked : Bool) : Cluster :=
  { c with reads := c.reads.map fun read => read.answer call acked }

def deliver (c : Cluster) : Packet → Cluster
  | .request id src call =>
    let (n, reply) := (c.nodes call.peer).serve call
    let c := c.setNode call.peer n
    { c with network := c.network ++ [.reply id src call reply] }
  | .reply id src call reply =>
    let (n, calls, acked) := (c.nodes src).resume call reply
    ((c.setNode src n).post src calls).answerReads id acked

/-- The barrier takes a number of its own, and its calls the numbers after it. -/
def startRead (c : Cluster) (node : String) (round : Node.ReadRound) : Cluster :=
  let id := c.nextCall
  let answers := round.calls.mapIdx fun i _ => (id + 1 + i, none)
  { { c with nextCall := id + 1 }.post node round.calls with reads := ⟨id, node, round, answers⟩ :: c.reads }

def readResult (c : Cluster) (read : PendingRead) : Option (Except RaftError Nat) :=
  if read.settled then some ((c.nodes read.node).readIndexFinish read.round read.acks) else none

def step (c : Cluster) : Action → Option Cluster
  | .tick node =>
    if node ∈ c.members then
      let (n, calls) := (c.nodes node).tick
      some ((c.setNode node n).post node calls)
    else none
  | .propose node command =>
    if node ∈ c.members then
      let (n, _, calls) := (c.nodes node).propose command
      some ((c.setNode node n).post node calls)
    else none
  | .createSnapshot node index data =>
    if node ∈ c.members then some (c.setNode node ((c.nodes node).createSnapshot index data).1) else none
  | .confirmSnapshotRestored node index =>
    if node ∈ c.members then some (c.setNode node ((c.nodes node).confirmSnapshotRestored index).1) else none
  | .markApplied node index =>
    if node ∈ c.members then some (c.setNode node ((c.nodes node).markApplied index).1) else none
  | .deliver slot => c.network[slot]?.map c.deliver
  | .readIndex node =>
    if node ∈ c.members then
      match (c.nodes node).readIndexStart with
      | .error _ => none
      | .ok round => some (c.startRead node round)
    else none
  | .dropCall id => some (c.answerReads id false)
  | .returnRead id =>
    if c.reads.any fun read => read.id = id ∧ read.settled then
      some { c with reads := c.reads.filter fun read => read.id ≠ id }
    else none
  | .fault node outcomes =>
    if node ∈ c.members then
      let n := c.nodes node
      some (c.setNode node { n with persister := { n.persister with faults := outcomes } })
    else none
  | .restart node opts =>
    if node ∈ c.members then
      let n := c.nodes node
      match newNode { opts with id := node, peers := n.peers, persister := n.persister } with
      | .error _ => none
      | .ok n => some { c.setNode node n with reads := c.reads.filter fun read => read.node ≠ node }
    else none

inductive Taken (c : Cluster) : Action → Cluster → Prop
  | tick {node : String} (known : node ∈ c.members) :
    c.Taken (.tick node) ((c.setNode node (c.nodes node).tick.1).post node (c.nodes node).tick.2)
  | propose {node : String} {command : Bytes} (known : node ∈ c.members) :
    c.Taken (.propose node command)
      ((c.setNode node ((c.nodes node).propose command).1).post node ((c.nodes node).propose command).2.2)
  | createSnapshot {node : String} {index : Nat} {data : Bytes} (known : node ∈ c.members) :
    c.Taken (.createSnapshot node index data) (c.setNode node ((c.nodes node).createSnapshot index data).1)
  | confirmSnapshotRestored {node : String} {index : Nat} (known : node ∈ c.members) :
    c.Taken (.confirmSnapshotRestored node index) (c.setNode node ((c.nodes node).confirmSnapshotRestored index).1)
  | markApplied {node : String} {index : Nat} (known : node ∈ c.members) :
    c.Taken (.markApplied node index) (c.setNode node ((c.nodes node).markApplied index).1)
  | request {slot id : Nat} {src : String} {call : Call} (found : c.network[slot]? = some (.request id src call)) :
    c.Taken (.deliver slot) (c.deliver (.request id src call))
  | reply {slot id : Nat} {src : String} {call : Call} {reply : Reply}
    (found : c.network[slot]? = some (.reply id src call reply)) :
    c.Taken (.deliver slot) (c.deliver (.reply id src call reply))
  | readIndex {node : String} {round : Node.ReadRound} (known : node ∈ c.members)
    (started : (c.nodes node).readIndexStart = .ok round) : c.Taken (.readIndex node) (c.startRead node round)
  | dropCall {id : Nat} : c.Taken (.dropCall id) (c.answerReads id false)
  | returnRead {id : Nat} (settled : (c.reads.any fun read => read.id = id ∧ read.settled) = true) :
    c.Taken (.returnRead id) { c with reads := c.reads.filter fun read => read.id ≠ id }
  | fault {node : String} {outcomes : List Bool} (known : node ∈ c.members) :
    c.Taken (.fault node outcomes) (c.setNode node
      { c.nodes node with persister := { (c.nodes node).persister with faults := outcomes } })
  | restart {node : String} {opts : Options} {n : Node} (known : node ∈ c.members)
    (started : newNode { opts with id := node, peers := (c.nodes node).peers, persister := (c.nodes node).persister } =
      .ok n) :
    c.Taken (.restart node opts) { c.setNode node n with reads := c.reads.filter fun read => read.node ≠ node }

theorem step_taken {c after : Cluster} {action : Action} (taken : c.step action = some after) :
    c.Taken action after := by
  cases action with
  | deliver slot =>
    obtain ⟨packet, found, rfl⟩ := Option.map_eq_some_iff.mp taken
    cases packet with
    | request id src call => exact .request found
    | reply id src call reply => exact .reply found
  | dropCall id =>
    cases taken
    exact .dropCall
  | returnRead id =>
    simp only [step] at taken
    split at taken <;> cases taken
    rename_i settled
    exact .returnRead settled
  | readIndex node =>
    simp only [step] at taken
    split at taken
    · rename_i known
      split at taken <;> cases taken
      rename_i round started
      exact .readIndex known started
    · cases taken
  | restart node opts =>
    simp only [step] at taken
    split at taken
    · rename_i known
      split at taken <;> cases taken
      rename_i n started
      exact .restart known started
    · cases taken
  | _ =>
    simp only [step] at taken
    split at taken <;> cases taken
    rename_i known
    constructor
    exact known

def exec (c : Cluster) : List Action → Option Cluster
  | [] => some c
  | action :: actions => (c.step action).bind fun next => next.exec actions

def execWhile (c : Cluster) (holds : Cluster → Bool) : List Action → Option Cluster
  | [] => some c
  | action :: actions =>
    (c.step action).bind fun next => if holds next then next.execWhile holds actions else none

/-- A first start: distinct non-empty identifiers, everyone else as a peer, empty disks, no packets. -/
structure Bootstrapped (c : Cluster) : Prop where
  distinct : c.members.Nodup
  named : "" ∉ c.members
  fresh : ∀ node ∈ c.members, ∃ opts : Options, opts.id = node ∧ opts.peers.Perm (c.members.erase node) ∧
    opts.persister.state = none ∧ opts.persister.snapshot = none ∧ newNode opts = .ok (c.nodes node)
  quiet : c.network = []
  idle : c.reads = []

def bootOptions (members : List String) (chunkSize : Int) (node : String) : Options where
  id := node
  peers := members.erase node
  electionTickMin := 1
  electionTickMax := 1
  heartbeatTick := 1
  rand _ := 0
  persister := ⟨none, none, []⟩
  snapshotChunkSize := chunkSize

def boot (members : List String) (chunkSize : Int) : Cluster where
  members := members
  nodes node := (newNode (bootOptions members chunkSize node)).toOption.getD default
  network := []
  nextCall := 0
  reads := []

theorem boot_bootstrapped {members : List String} (chunkSize : Int) (distinct : members.Nodup)
    (named : "" ∉ members) : (boot members chunkSize).Bootstrapped where
  distinct := distinct
  named := named
  fresh node _ := ⟨bootOptions members chunkSize node, rfl, List.Perm.refl _, rfl, rfl, rfl⟩
  quiet := rfl
  idle := rfl

def Steps (before after : Cluster) : Prop := ∃ action, before.step action = some after

def Runs : Cluster → Cluster → Prop := Relation.ReflTransGen Steps

theorem exec_runs {c after : Cluster} {actions : List Action} (done : c.exec actions = some after) :
    Runs c after := by
  induction actions generalizing c with
  | nil =>
    simp only [exec, Option.some.injEq] at done
    subst done
    exact Relation.ReflTransGen.refl
  | cons action actions ih =>
    simp only [exec, Option.bind_eq_some_iff] at done
    obtain ⟨next, taken, rest⟩ := done
    exact Relation.ReflTransGen.head ⟨action, taken⟩ (ih rest)

theorem execWhile_runs {c after : Cluster} {holds : Cluster → Bool} {actions : List Action}
    (done : c.execWhile holds actions = some after) :
    Relation.ReflTransGen (fun before next => Steps before next ∧ holds next = true) c after := by
  induction actions generalizing c with
  | nil =>
    simp only [execWhile, Option.some.injEq] at done
    subst done
    exact Relation.ReflTransGen.refl
  | cons action actions ih =>
    simp only [execWhile, Option.bind_eq_some_iff] at done
    obtain ⟨next, taken, rest⟩ := done
    split at rest
    · rename_i tested
      exact Relation.ReflTransGen.head ⟨⟨action, taken⟩, tested⟩ (ih rest)
    · cases rest

def Reachable (c : Cluster) : Prop := ∃ first, Bootstrapped first ∧ Runs first c

end Cluster

end ForgeDB.Raft
