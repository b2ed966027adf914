import Mathlib.Data.Nat.Size
import ForgeDB.Raft.Agreement
import ForgeDB.Raft.Format
import ForgeDB.Raft.Healthy

/-!
The size of what a leader sends. A replication call carries everything that its peer is missing, while the
transport refuses a message above a limit of its own. The log may hold a million commands of a mebibyte, and the
default limit has room for sixty-three.
-/

namespace ForgeDB.Transport

open Raft (Node Cluster Log LogEntry AppendEntriesArgs)
open Raft.Words (maxLogEntries maxCommandSize)

/-! ### The options of the transport and the server, with durations in nanoseconds -/

def defaultDialTimeout : Int := 5 * 10 ^ 9

def defaultRPCTimeout : Int := 2 * 10 ^ 9

def defaultMaxMessageBytes : Int := 64 * 2 ^ 20

structure Options where
  dialTimeout : Int
  rpcTimeout : Int
  maxMessageBytes : Int
  deriving DecidableEq, Repr

def Options.withDefaults (o : Options) : Options :=
  { dialTimeout := if o.dialTimeout ≤ 0 then defaultDialTimeout else o.dialTimeout
    rpcTimeout := if o.rpcTimeout ≤ 0 then defaultRPCTimeout else o.rpcTimeout
    maxMessageBytes := if o.maxMessageBytes ≤ 0 then defaultMaxMessageBytes else o.maxMessageBytes }

theorem withDefaults_maxMessageBytes (dialTimeout rpcTimeout : Int) :
    (Options.withDefaults ⟨dialTimeout, rpcTimeout, 0⟩).maxMessageBytes = 64 * 2 ^ 20 := rfl

/-! ### What is sent -/

/-- The bytes of a number in groups of seven bits, as `protowire.SizeVarint` computes them. -/
def sizeVarint (v : Nat) : Nat := (9 * v.size + 64) / 64

def uintField (v : Nat) : Nat := if v = 0 then 0 else 1 + sizeVarint v

def bytesField (length : Nat) : Nat := if length = 0 then 0 else 1 + sizeVarint length + length

def messageField (size : Nat) : Nat := 1 + sizeVarint size + size

def entryBytes (e : LogEntry) : Nat := uintField e.index + uintField e.term + bytesField e.command.length

/-- The length of the encoded `AppendEntriesRequest`. -/
def messageBytes (args : AppendEntriesArgs) : Nat :=
  uintField args.term + bytesField args.leaderID.utf8ByteSize + uintField args.prevLogIndex +
    uintField args.prevLogTerm + (args.entries.map fun e => messageField (entryBytes e)).sum +
    uintField args.leaderCommit

def commandBytes (args : AppendEntriesArgs) : Nat := (args.entries.map fun e => e.command.length).sum

/-- Both ends refuse a longer message. -/
def Options.Accepts (o : Options) (args : AppendEntriesArgs) : Prop :=
  (messageBytes args : Int) ≤ o.withDefaults.maxMessageBytes

/-- The call is one that `broadcastAppendEntries` or `readIndex` makes for the peer. -/
def Builds (n : Node) (peer : String) (args : AppendEntriesArgs) : Prop :=
  .appendEntries peer args ∈ n.broadcastAppendEntries.2 ∨ .appendEntries peer args ∈ n.readIndexCalls

def missing (n : Node) (peer : String) : List LogEntry :=
  n.log.rest.drop (n.nextIndex peer - (n.log.sentinel.index + 1))

/-- What the leader has to say to the peer: who and where it is, and the entries that the peer is missing. -/
def lagBytes (n : Node) (peer : String) : Nat :=
  uintField n.currentTerm + bytesField n.id.utf8ByteSize + uintField (n.nextIndex peer - 1) +
    uintField ((n.log.termAt (n.nextIndex peer - 1)).getD 0) + uintField n.commitIndex +
    ((missing n peer).map fun e => messageField (entryBytes e)).sum

structure Bounded (n : Node) (peer : String) : Prop where
  count : n.log.rest.length ≤ maxLogEntries
  short : ∀ e ∈ n.log.rest, e.command.length ≤ maxCommandSize
  words : ∀ e ∈ n.log.rest, e.index < 2 ^ 64 ∧ e.term < 2 ^ 64
  term : n.currentTerm < 2 ^ 64
  commit : n.commitIndex < 2 ^ 64
  previous : n.nextIndex peer ≤ 2 ^ 64 ∧ (n.log.termAt (n.nextIndex peer - 1)).getD 0 < 2 ^ 64
  id : n.id.utf8ByteSize ≤ 1000000

section

variable {n : Node} {peer : String} {args : AppendEntriesArgs}

theorem Builds.shape (builds : Builds n peer args) :
    n.log.sentinel.index < n.nextIndex peer ∧ args = n.appendEntriesArgs peer := by
  rcases builds with made | made
  · obtain ⟨other, _, call⟩ := List.mem_map.mp made
    simp only [Node.broadcastCall] at call
    split at call
    · cases call
    · rename_i ahead
      cases call
      exact ⟨Nat.lt_of_not_le ahead, rfl⟩
  · simp only [Node.readIndexCalls, List.mem_filterMap, Option.ite_none_left_eq_some, Option.some.injEq] at made
    obtain ⟨other, _, ahead, call⟩ := made
    cases call
    exact ⟨Nat.lt_of_not_le ahead, rfl⟩

theorem builds_of_peer (known : peer ∈ n.peers) (ahead : n.log.sentinel.index < n.nextIndex peer) :
    Builds n peer (n.appendEntriesArgs peer) := by
  refine Or.inl (List.mem_map.mpr ⟨peer, known, ?_⟩)
  rw [Node.broadcastCall, if_neg (Nat.not_le_of_gt ahead)]

theorem Builds.entries (builds : Builds n peer args) : args.entries = missing n peer := by
  obtain ⟨ahead, rfl⟩ := builds.shape
  obtain ⟨start, place⟩ := Nat.exists_eq_add_of_le (show n.log.sentinel.index + 1 ≤ n.nextIndex peer from ahead)
  have previous : n.nextIndex peer - 1 + 1 = n.log.sentinel.index + start + 1 := by omega
  have behind : n.nextIndex peer - (n.log.sentinel.index + 1) = start := by omega
  simp only [Node.appendEntriesArgs, previous, missing, behind]
  exact Log.slice_eq ..

theorem Builds.messageBytes_eq (builds : Builds n peer args) : messageBytes args = lagBytes n peer := by
  rw [messageBytes, builds.entries, lagBytes]
  obtain ⟨-, rfl⟩ := builds.shape
  simp only [Node.appendEntriesArgs]
  omega

theorem sum_le {sizes : LogEntry → Nat} {entries : List LogEntry} {size : Nat} (short : ∀ e ∈ entries, sizes e ≤ size) :
    (entries.map sizes).sum ≤ entries.length * size := by
  induction entries with
  | nil => exact Nat.zero_le _
  | cons e rest ih =>
    have first := short e List.mem_cons_self
    have others := ih fun other present => short other (List.mem_cons_of_mem e present)
    rw [List.map_cons, List.sum_cons, List.length_cons, Nat.succ_mul]
    omega

theorem command_lt (e : LogEntry) : e.command.length + 1 ≤ messageField (entryBytes e) := by
  have inside : e.command.length ≤ entryBytes e := by
    simp only [entryBytes, bytesField]
    split <;> omega
  unfold messageField
  omega

theorem commandBytes_le (args : AppendEntriesArgs) : commandBytes args + args.entries.length ≤ messageBytes args := by
  have entries : ∀ entries : List LogEntry, (entries.map fun e => e.command.length).sum + entries.length ≤
      (entries.map fun e => messageField (entryBytes e)).sum := by
    intro entries
    induction entries with
    | nil => exact Nat.le_refl 0
    | cons e rest ih =>
      have first := command_lt e
      simp only [List.map_cons, List.sum_cons, List.length_cons]
      omega
  have sent := entries args.entries
  unfold commandBytes messageBytes
  omega

theorem sizeVarint_le {v bits : Nat} (fits : v < 2 ^ bits) : sizeVarint v ≤ (9 * bits + 64) / 64 :=
  Nat.div_le_div_right (Nat.add_le_add_right (Nat.mul_le_mul_left 9 (Nat.size_le.mpr fits)) 64)

theorem uintField_le {v : Nat} (fits : v < 2 ^ 64) : uintField v ≤ 11 := by
  have size := sizeVarint_le fits
  unfold uintField
  split <;> omega

theorem bytesField_le {length : Nat} (fits : length < 2 ^ 21) : bytesField length ≤ length + 4 := by
  have size := sizeVarint_le fits
  unfold bytesField
  split <;> omega

theorem Bounded.entry_le (bounded : Bounded n peer) {e : LogEntry} (present : e ∈ n.log.rest) :
    messageField (entryBytes e) ≤ maxCommandSize + 30 := by
  have short := bounded.short e present
  simp only [maxCommandSize] at short ⊢
  have index := uintField_le (bounded.words e present).1
  have term := uintField_le (bounded.words e present).2
  have command := bytesField_le (show e.command.length < 2 ^ 21 by omega)
  have size := sizeVarint_le (show entryBytes e < 2 ^ 21 by unfold entryBytes; omega)
  unfold messageField entryBytes at *
  omega

theorem Bounded.lagBytes_le (bounded : Bounded n peer) (few : (missing n peer).length ≤ 63) :
    lagBytes n peer ≤ 64 * 2 ^ 20 := by
  have term := uintField_le bounded.term
  have commit := uintField_le bounded.commit
  have previous := uintField_le (show n.nextIndex peer - 1 < 2 ^ 64 by have := bounded.previous.1; omega)
  have prevTerm := uintField_le bounded.previous.2
  have id := bounded.id
  have name := bytesField_le (show n.id.utf8ByteSize < 2 ^ 21 by omega)
  have entries := sum_le fun e sent => bounded.entry_le (List.mem_of_mem_drop (show e ∈ missing n peer from sent))
  have total := Nat.mul_le_mul_right (maxCommandSize + 30) few
  simp only [maxCommandSize] at entries total
  unfold lagBytes
  omega

theorem Builds.commandBytes_eq (builds : Builds n peer args) {size : Nat}
    (equal : ∀ e ∈ n.log.rest, e.command.length = size) : commandBytes args = (missing n peer).length * size := by
  have all : ∀ e ∈ missing n peer, e.command.length = size := fun e sent => equal e (List.mem_of_mem_drop sent)
  rw [commandBytes, builds.entries, List.map_congr_left all, List.map_const', List.sum_replicate_nat]

end

/-! ### A leader whose peer does not answer -/

/-- Node `a` leads, and has taken proposals of one size that node `b` knows nothing of. -/
structure Piled (size entries : Nat) (c : Cluster) : Prop where
  reachable : Cluster.Reachable c
  member : "a" ∈ c.members
  leading : (c.nodes "a").role = .leader
  healthy : (c.nodes "a").persister.Healthy
  peer : "b" ∈ (c.nodes "a").peers
  next : (c.nodes "a").nextIndex "b" = 1
  start : (c.nodes "a").log.sentinel.index = 0
  length : (c.nodes "a").log.rest.length = entries
  equal : ∀ e ∈ (c.nodes "a").log.rest, e.command.length = size

namespace Piled

variable {size entries : Nat}

theorem elected (size : Nat) : ∃ c, Piled size 0 c := by
  have computed : ((Cluster.boot ["a", "b", "c"] 0).exec [.tick "a", .deliver 0, .deliver 2]).map (fun c =>
      ((c.nodes "a").role, (c.nodes "a").persister.faults, (c.nodes "a").peers, (c.nodes "a").nextIndex "b",
        (c.nodes "a").log)) = some (.leader, [], ["b", "c"], 1, .newLog) := by
    decide
  obtain ⟨c, ran, shape⟩ := Option.map_eq_some_iff.mp computed
  simp only [Prod.mk.injEq] at shape
  obtain ⟨leading, faults, peers, next, log⟩ := shape
  have runs : Cluster.Runs _ c := Cluster.exec_runs ran
  refine ⟨c, ⟨_, Cluster.boot_bootstrapped 0 (by decide) (by decide), runs⟩, ?_, leading, ?_, ?_, next, ?_, ?_, ?_⟩
  · rw [runs.members]
    decide
  · rw [Raft.Persister.Healthy, faults]
    exact List.not_mem_nil
  · rw [peers]
    decide
  · rw [log]
    rfl
  · rw [log]
    rfl
  · rw [log]
    exact fun e present => nomatch present

theorem propose {c : Cluster} (piled : Piled size entries c) : ∃ after, Piled size (entries + 1) after := by
  obtain ⟨first, boot, run⟩ := piled.reachable
  obtain ⟨leading, healthy, next, peers, log⟩ :=
    Node.propose_healthy (List.replicate size 0) piled.leading piled.healthy
  obtain ⟨after, taken, node⟩ : ∃ after, c.step (.propose "a" (List.replicate size 0)) = some after ∧
      after.nodes "a" = ((c.nodes "a").propose (List.replicate size 0)).1 := by
    refine ⟨(c.setNode "a" ((c.nodes "a").propose (List.replicate size 0)).1).post "a"
      ((c.nodes "a").propose (List.replicate size 0)).2.2, ?_, ?_⟩
    · exact if_pos piled.member
    · simp only [Cluster.post, Cluster.setNode, Function.update_self]
  have runs : Cluster.Runs first after := run.tail ⟨_, taken⟩
  refine ⟨after, ⟨first, boot, runs⟩, ?_, ?_, ?_, ?_, ?_, ?_, ?_, ?_⟩
  · rw [runs.members, ← Cluster.Runs.members run]
    exact piled.member
  · rw [node, leading]
  · rw [node]
    exact healthy
  · rw [node, peers]
    exact piled.peer
  · rw [node, next]
    exact piled.next
  · rw [node, log]
    exact piled.start
  · rw [node, log, Log.append, List.length_append, piled.length]
    rfl
  · rw [node, log, Log.append]
    intro e present
    rcases List.mem_append.mp present with old | new
    · exact piled.equal e old
    · cases List.mem_singleton.mp new
      exact List.length_replicate

theorem exists_any (size entries : Nat) : ∃ c, Piled size entries c := by
  induction entries with
  | zero => exact elected size
  | succ entries ih =>
    obtain ⟨c, piled⟩ := ih
    exact piled.propose

variable {c : Cluster}

theorem missing_length (piled : Piled size entries c) : (missing (c.nodes "a") "b").length = entries := by
  rw [missing, piled.start, piled.next, List.length_drop, piled.length]
  omega

theorem builds (piled : Piled size entries c) :
    Builds (c.nodes "a") "b" ((c.nodes "a").appendEntriesArgs "b") := by
  refine builds_of_peer piled.peer ?_
  rw [piled.start, piled.next]
  exact Nat.one_pos

theorem commandBytes_eq (piled : Piled size entries c) :
    commandBytes ((c.nodes "a").appendEntriesArgs "b") = entries * size := by
  rw [piled.builds.commandBytes_eq piled.equal, piled.missing_length]

theorem messageBytes_ge (piled : Piled size entries c) :
    entries * size + entries ≤ messageBytes ((c.nodes "a").appendEntriesArgs "b") := by
  have sent := commandBytes_le ((c.nodes "a").appendEntriesArgs "b")
  rwa [piled.commandBytes_eq, piled.builds.entries, piled.missing_length] at sent

end Piled

/-! ### The limit -/

/-- With the default limit, a message to a peer is accepted, and its commands stay below the limit, exactly if what the
leader has to say to the peer fits; and that always fits if the peer is missing at most sixty-three entries. -/
theorem replication_fits_iff {n : Node} {peer : String} {args : AppendEntriesArgs} (builds : Builds n peer args)
    (dialTimeout rpcTimeout : Int) :
    ((commandBytes args : Int) ≤ (Options.withDefaults ⟨dialTimeout, rpcTimeout, 0⟩).maxMessageBytes ∧
        Options.Accepts ⟨dialTimeout, rpcTimeout, 0⟩ args ↔ lagBytes n peer ≤ 64 * 2 ^ 20) ∧
      (Bounded n peer → (missing n peer).length ≤ 63 → lagBytes n peer ≤ 64 * 2 ^ 20) := by
  refine ⟨?_, Bounded.lagBytes_le⟩
  have commands := commandBytes_le args
  rw [Options.Accepts, withDefaults_maxMessageBytes, ← builds.messageBytes_eq]
  omega

/-- A leader with one proposal that its peer has not seen sends a message of fourteen bytes. -/
theorem replication_fits_iff_small :
    ∃ c, Cluster.Reachable c ∧ (c.nodes "a").role = .leader ∧ ∃ args, Builds (c.nodes "a") "b" args ∧
      args.entries.length = 1 ∧ Options.Accepts ⟨0, 0, 0⟩ args := by
  have computed :
      ((Cluster.boot ["a", "b", "c"] 0).exec [.tick "a", .deliver 0, .deliver 2, .propose "a" [7]]).map (fun c =>
      ((c.nodes "a").role, (c.nodes "a").peers, (c.nodes "a").log.sentinel.index, (c.nodes "a").nextIndex "b",
        (missing (c.nodes "a") "b").length, lagBytes (c.nodes "a") "b")) = some (.leader, ["b", "c"], 0, 1, 1, 14) := by
    decide
  obtain ⟨c, ran, shape⟩ := Option.map_eq_some_iff.mp computed
  simp only [Prod.mk.injEq] at shape
  obtain ⟨leading, peers, start, next, length, bytes⟩ := shape
  have builds : Builds (c.nodes "a") "b" _ := builds_of_peer (by rw [peers]; decide) (by rw [start, next]; decide)
  refine ⟨c, ⟨_, Cluster.boot_bootstrapped 0 (by decide) (by decide), Cluster.exec_runs ran⟩, leading, _, builds,
    ?_, ?_⟩
  · rw [builds.entries, length]
  · exact ((replication_fits_iff builds 0 0).1.mpr (by rw [bytes]; decide)).2

/-- Sixty-five entries of the largest size have more command bytes than the default limit, and with sixty-four the
message is longer. -/
theorem lagging_peer_over_limit :
    (∃ c, Cluster.Reachable c ∧ "a" ∈ c.members ∧ (c.nodes "a").role = .leader ∧
      (c.nodes "a").log.rest.length = 65 ∧ (∀ e ∈ (c.nodes "a").log.rest, e.command.length = maxCommandSize) ∧
      ∃ args, Builds (c.nodes "a") "b" args ∧
        (Options.withDefaults ⟨0, 0, 0⟩).maxMessageBytes < (commandBytes args : Int)) ∧
    ∃ c, Cluster.Reachable c ∧ "a" ∈ c.members ∧ (c.nodes "a").role = .leader ∧
      (c.nodes "a").log.rest.length = 64 ∧ (∀ e ∈ (c.nodes "a").log.rest, e.command.length = maxCommandSize) ∧
      ∃ args, Builds (c.nodes "a") "b" args ∧
        (commandBytes args : Int) = (Options.withDefaults ⟨0, 0, 0⟩).maxMessageBytes ∧
        ¬Options.Accepts ⟨0, 0, 0⟩ args := by
  constructor
  · obtain ⟨c, piled⟩ := Piled.exists_any maxCommandSize 65
    refine ⟨c, piled.reachable, piled.member, piled.leading, piled.length, piled.equal, _, piled.builds, ?_⟩
    rw [piled.commandBytes_eq, withDefaults_maxMessageBytes, maxCommandSize]
    omega
  · obtain ⟨c, piled⟩ := Piled.exists_any maxCommandSize 64
    refine ⟨c, piled.reachable, piled.member, piled.leading, piled.length, piled.equal, _, piled.builds, ?_, ?_⟩
    · rw [piled.commandBytes_eq, withDefaults_maxMessageBytes, maxCommandSize]
      omega
    · have long := piled.messageBytes_ge
      rw [maxCommandSize] at long
      rw [Options.Accepts, withDefaults_maxMessageBytes]
      omega

end ForgeDB.Transport
