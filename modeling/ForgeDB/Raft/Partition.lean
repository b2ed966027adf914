import ForgeDB.Raft.Ordering

/-!
The in-memory transport and what a minority cannot do. As long as the transport keeps a side of at most
half the members apart from the others, nothing that the side accepts is committed, there or elsewhere.
-/

namespace ForgeDB.Raft

open Consensus

def Call.sender : Call → String
  | .requestVote _ args => args.candidateID
  | .appendEntries _ args => args.leaderID
  | .installSnapshot _ _ args => args.leaderID

theorem RequestOk.sender {members : List String} {record : Record} {src : String} {call : Call}
    (ok : RequestOk members record src call) : call.sender = src := by
  cases call <;> exact ok.2.2.1

/-- The handler of an identifier is the node of that name. Nobody has a group in an empty `groupOf`, so that needs no
test of its own. -/
structure InMemoryTransport where
  handlers : String → Bool
  isolated : String → Bool
  groupOf : String → Option Nat

namespace InMemoryTransport

def new : InMemoryTransport := ⟨fun _ => false, fun _ => false, fun _ => none⟩

def register (t : InMemoryTransport) (id : String) : InMemoryTransport :=
  { t with handlers := Function.update t.handlers id true }

def partition (t : InMemoryTransport) (id : String) : InMemoryTransport :=
  { t with isolated := Function.update t.isolated id true }

def partitionGroups (t : InMemoryTransport) (groups : List (List String)) : InMemoryTransport :=
  { t with
    groupOf := groups.zipIdx.foldl (fun g (group, i) => group.foldl (fun g id => Function.update g id (some i)) g)
      fun _ => none }

def resolve (t : InMemoryTransport) (src dst : String) : Bool :=
  if t.isolated src || t.isolated dst then false
  else
    match t.groupOf src, t.groupOf dst with
    | some gf, some gt => if gf ≠ gt then false else t.handlers dst
    | _, _ => t.handlers dst

def Apart (t : InMemoryTransport) (side : List String) : Prop := ∀ src ∈ side, ∀ dst ∉ side, t.resolve src dst = false

variable {t : InMemoryTransport} {side others : List String}

theorem partition_apart (t : InMemoryTransport) (id : String) : (t.partition id).Apart [id] := by
  intro src inside dst _
  cases List.mem_singleton.mp inside
  simp only [resolve, partition, Function.update_self, Bool.true_or, if_true]

theorem resolve_unregistered {src dst : String} (unknown : t.handlers dst = false) : t.resolve src dst = false := by
  unfold resolve
  rw [unknown]
  repeat' split
  all_goals rfl

theorem foldl_assign (i : Nat) (x : String) (ids : List String) (g : String → Option Nat) :
    ids.foldl (fun g id => Function.update g id (some i)) g x = if x ∈ ids then some i else g x := by
  induction ids generalizing g with
  | nil => rfl
  | cons id ids ih =>
    rw [List.foldl_cons, ih, Function.update_apply]
    grind

theorem partitionGroups_apart (disjoint : ∀ id ∈ others, id ∉ side)
    (registered : ∀ id, t.handlers id = true → id ∈ side ∨ id ∈ others) :
    (t.partitionGroups [side, others]).Apart side := by
  intro src inside dst outside
  by_cases other : dst ∈ others
  · have here : (t.partitionGroups [side, others]).groupOf src = some 0 :=
      (foldl_assign 1 src others _).trans <| (if_neg fun both => disjoint src both inside).trans <|
        (foldl_assign 0 src side _).trans (if_pos inside)
    have there : (t.partitionGroups [side, others]).groupOf dst = some 1 :=
      (foldl_assign 1 dst others _).trans (if_pos other)
    simp only [resolve, here, there, ne_eq, zero_ne_one, not_false_eq_true, if_true, ite_self]
  · refine resolve_unregistered (Bool.eq_false_iff.mpr fun known => ?_)
    exact (registered dst known).elim outside other

end InMemoryTransport

namespace Cluster

/-- A request is delivered if the transport lets it through; its reply comes back in the same call. -/
def passes (c : Cluster) (t : InMemoryTransport) (action : Action) : Bool :=
  match c.heard action with
  | some (.request _ _ call) => t.resolve call.sender call.peer
  | _ => true

def StepsApart (side : List String) (c after : Cluster) : Prop :=
  ∃ t action, InMemoryTransport.Apart t side ∧ c.passes t action = true ∧ c.step action = some after

def execThrough (t : InMemoryTransport) (c : Cluster) : List Action → Option Cluster
  | [] => some c
  | action :: more => if c.passes t action then (c.step action).bind (execThrough t · more) else none

theorem execThrough_apart {t : InMemoryTransport} {side : List String} (apart : t.Apart side) {c after : Cluster}
    {actions : List Action} (done : c.execThrough t actions = some after) :
    Relation.ReflTransGen (StepsApart side) c after := by
  induction actions generalizing c with
  | nil =>
    cases done
    exact .refl
  | cons action more ih =>
    simp only [execThrough] at done
    split at done
    · obtain ⟨next, taken, rest⟩ := Option.bind_eq_some_iff.mp done
      exact .head ⟨t, action, apart, ‹_›, taken⟩ (ih rest)
    · cases done

structure Withheld (side : List String) (position term : Nat) (record : Record) (c : Cluster) : Prop where
  described : Described record c
  few : side.length ≤ c.members.length / 2
  led : ∃ chief ∈ side, record.leader term = some chief
  unheard : Sourced (· ∉ side) (fun index stamp _ => ¬(index = position ∧ stamp = term)) c
  undecided : ∀ later, ¬Anchored c.members record position term later

section

variable {side : List String} {position term : Nat} {c after : Cluster} {action : Action} {record : Record}

theorem Makes.led {node : String} {command : Command} (described : Described record c)
    (makes : c.Makes action node position term command) (taken : c.step action = some after) :
    record.leader term = some node := by
  obtain ⟨rfl, accepted⟩ := makes
  cases step_taken taken with
  | propose known =>
    obtain ⟨id, ok⟩ := described.nodes node known
    rcases (c.nodes node).propose_cases command with ⟨error, failed, _⟩ | ⟨leads, place, _⟩
    · rw [failed] at accepted
      cases accepted
    · rw [place, Except.ok.injEq, Prod.mk.injEq] at accepted
      have elected : record.leader (c.nodes node).currentTerm = some (c.nodes node).id := (ok.leader leads).elected
      rwa [accepted.2, id] at elected

theorem step_boundary (described : Described record c) (taken : c.step action = some after) {node : String}
    (known : node ∈ c.members) :
    ∃ later, Reached c.members record (after.nodes node).log.sentinel.index later := by
  have ok := (described.nodes node known).2
  have same : ∀ n : Node, n.log.sentinel = (c.nodes node).log.sentinel →
      ∃ later, Reached c.members record n.log.sentinel.index later := by
    intro n sentinel
    rw [sentinel]
    exact ⟨_, ok.anchored.reached⟩
  rcases (step_nodes taken).2 node with still | moved | ⟨opts, rfl, started⟩
  · exact same _ (congrArg (fun n : Node => n.log.sentinel) still)
  · cases moved.alters with
    | still kept | wrote _ kept | saved _ _ _ kept | applied _ _ _ _ kept =>
      exact same _ (congrArg (fun k => k.log.sentinel) kept)
    | compacted _ _ _ committed kept =>
      rw [show (after.nodes node).log.sentinel.index = _ from congrArg (fun k => k.log.sentinel.index) kept]
      exact ⟨_, ok.settled.reached.lower committed⟩
    | @installed _ _ src snap args _ sent handled =>
      have request : RequestOk c.members record src (.installSnapshot node snap args) := described.packets _ sent
      obtain ⟨_, _, _, _, _, index, _, anchored, _⟩ := request
      rcases handled.log with log | ⟨_, log⟩
      · exact same _ (congrArg Log.sentinel log)
      · rw [log, Log.installSnapshotBoundary_sentinel, index]
        exact ⟨_, anchored.reached⟩
  · rw [restart_log described.numbered ok rfl started]
    cases present : (c.nodes node).persister.snapshot with
    | none => exact ⟨0, Or.inl rfl⟩
    | some snap => exact ⟨_, (ok.saved snap present).2.2.reached⟩

theorem Withheld.step (withheld : Withheld side position term record c) (positive : 0 < position)
    (closed : ∀ id src call, c.heard action = some (.request id src call) → src ∈ side → call.peer ∈ side)
    (taken : c.step action = some after) : ∃ larger, record ≤ larger ∧ Withheld side position term larger after := by
  have members := (step_nodes taken).1
  obtain ⟨chief, inside, led⟩ := withheld.led
  obtain ⟨larger, grown, described⟩ := step_described record c after withheld.described ⟨action, taken⟩
  have unheard : Sourced (· ∉ side) (fun index stamp _ => ¬(index = position ∧ stamp = term)) after := by
    refine (withheld.unheard.step withheld.described taken fun id src call sent outside member => ?_).mono ?_
    · exact outside (closed id src call sent member)
    · rintro index stamp command (old | ⟨node, outside, makes⟩)
      · exact old
      · rintro ⟨rfl, rfl⟩
        cases led.symm.trans (makes.led withheld.described taken)
        exact outside inside
  refine ⟨larger, grown, described, members ▸ withheld.few, ⟨chief, inside, grown.leader _ _ led⟩, unheard, ?_⟩
  rintro later (⟨zero, _⟩ | ⟨bound, chosen, commit, _, within, found⟩)
  · omega
  -- A majority accepted the entry, so somebody outside the side did.
  obtain ⟨quorum, isQuorum, accepted⟩ := commit.accepted
  obtain ⟨voter, counted, outside⟩ := isQuorum.outside (members ▸ withheld.few)
  have known := isQuorum.subset voter counted
  obtain ⟨id, ok⟩ := described.nodes voter known
  have promise := ok.promise
  rw [← Log.window_last, ← Log.window_lastTerm] at promise
  have acked : bound ≤ larger.acked chosen (after.nodes voter).core.id := by
    rw [show (after.nodes voter).core.id = voter from id]
    exact accepted voter counted
  rcases promise.holds described.sound ok.segment ok.anchored commit acked within with below | ⟨slot, place, present⟩
  · obtain ⟨earlier, reached⟩ := step_boundary withheld.described taken (members ▸ known)
    obtain ⟨value, old⟩ := (reached.lower below).anchored positive
    have decided : Anchored after.members larger position value earlier := members ▸ old.mono grown
    have same : value = term :=
      decided.unique described.sound (Or.inr ⟨bound, chosen, commit, Nat.le_refl _, within, found⟩)
    exact withheld.undecided earlier (same ▸ old)
  · subst place
    obtain ⟨entry, held, stamped⟩ := Option.map_eq_some_iff.mp found
    refine unheard.held voter known outside _ entry ?_ ⟨rfl, stamped⟩
    exact (Log.entryAt_rest _ slot).trans (present.trans held)

theorem withheld_of_fresh (described : Described record c) (few : side.length ≤ c.members.length / 2)
    (led : ∃ chief ∈ side, record.leader term = some chief) (fresh : (record.log term).length < position) :
    Withheld side position term record c := by
  have unheard : ∀ slot entry, (record.log entry.term)[slot]? = some entry →
      ¬(slot + 1 = position ∧ entry.term = term) := by
    rintro slot entry present ⟨rfl, rfl⟩
    have inside := (List.getElem?_eq_some_iff.mp present).1
    omega
  refine ⟨described, few, led, ⟨fun node known _ index entry held => ?_,
    fun id src peer args sent _ slot entry present => ?_⟩, fun later anchored => ?_⟩
  · obtain ⟨slot, rfl, present⟩ := Log.entryAt_cases held
    have onLog := (described.nodes node known).2.segment slot entry present slot (Nat.le_refl _)
    exact unheard _ entry (onLog.trans present)
  · have ok : RequestOk c.members record src (.appendEntries peer args) := described.packets _ sent
    have onLog := (ok.2.2.2.2.2.2.2.1 slot (List.getElem?_eq_some_iff.mp present).1).trans present
    have agree := (described.sound.owner _ _ _ onLog).2.2
    exact unheard _ entry ((agree _ (Nat.lt_succ_self _)).trans onLog)
  · exact absurd (termAt_le_length (anchored.origin described.sound).1) (Nat.not_le_of_lt fresh)

theorem closed_of_apart (described : Described record c) {t : InMemoryTransport} (apart : t.Apart side)
    (passes : c.passes t action = true) (id : Nat) (src : String) (call : Call)
    (sent : c.heard action = some (.request id src call)) (member : src ∈ side) : call.peer ∈ side := by
  by_contra outside
  have request : RequestOk c.members record src call :=
    described.packets _ (mem_of_heard (Option.mem_toList.mpr sent))
  rw [Cluster.passes, sent] at passes
  have blocked := apart src member call.peer outside
  rw [← request.sender] at blocked
  cases blocked.symm.trans passes

end

/-- Nothing that a member of a side of at most half the cluster accepts is committed while the side is kept apart. -/
theorem minority_commits_nothing {first mid next later : Cluster} (boot : first.Bootstrapped) (start : Runs first mid)
    {side : List String} (few : side.length ≤ mid.members.length / 2) {chief : String} (member : chief ∈ side)
    {command : Command} {position term : Nat}
    (accepted : ((mid.nodes chief).propose command).2.1 = .ok (position, term))
    (taken : mid.step (.propose chief command) = some next)
    (split : Relation.ReflTransGen (StepsApart side) next later) {reader : String} (known : reader ∈ later.members) :
    ¬(position ≤ (later.nodes reader).commitIndex ∧ (later.nodes reader).log.termAt position = some term) := by
  rintro ⟨reached, held⟩
  obtain ⟨record, _, described⟩ := start.described boot.described
  obtain ⟨extended, _, describedNext⟩ := step_described record mid next described ⟨_, taken⟩
  have makes : mid.Makes (.propose chief command) chief position term command := ⟨rfl, accepted⟩
  have fresh := (makes.extends described taken describedNext).1
  have positive := Nat.zero_lt_of_lt fresh
  have before := withheld_of_fresh described few ⟨chief, member, makes.led described taken⟩ fresh
  obtain ⟨larger, _, withheld⟩ := before.step positive (fun _ _ _ sent => by cases sent) taken
  have preserved : ∀ record before after, Withheld side position term record before →
      StepsApart side before after → ∃ larger, record ≤ larger ∧ Withheld side position term larger after := by
    rintro record before after withheld ⟨t, action, apart, passes, taken⟩
    exact withheld.step positive (closed_of_apart withheld.described apart passes) taken
  obtain ⟨largest, _, final⟩ := recorded_run preserved split larger withheld
  exact final.undecided _ (final.described.committed_anchored known reached held)

def splitTransport : InMemoryTransport :=
  (((InMemoryTransport.new.register "a").register "b").register "c").partitionGroups [["a"], ["b", "c"]]

theorem splitTransport_apart : splitTransport.Apart ["a"] := by
  refine InMemoryTransport.partitionGroups_apart (by decide) fun id known => ?_
  simp only [InMemoryTransport.register, InMemoryTransport.new, Function.update_apply] at known
  grind

/-- The others elect a leader of their own and commit an entry of its, while the first leader goes on trying. -/
def apartScript : List Action :=
  [.tick "a", .tick "b", .deliver 10, .deliver 11, .propose "b" [8], .deliver 15, .deliver 16]

theorem minority_commits_nothing_trio :
    ∃ mid next later, (boot ["a", "b", "c"] 0).exec [.tick "a", .deliver 0, .deliver 2] = some mid ∧
      mid.step (.propose "a" [7]) = some next ∧ next.execThrough splitTransport apartScript = some later ∧
      (later.nodes "b").commitIndex = 1 ∧
      ¬(1 ≤ (later.nodes "a").commitIndex ∧ (later.nodes "a").log.termAt 1 = some 1) := by
  have seen : (((boot ["a", "b", "c"] 0).exec [.tick "a", .deliver 0, .deliver 2]).bind fun mid =>
      (mid.step (.propose "a" [7])).bind fun next => (next.execThrough splitTransport apartScript).map fun later =>
        decide (((mid.nodes "a").propose [7]).2.1 = .ok (1, 1) ∧ (later.nodes "b").commitIndex = 1 ∧
          later.members = ["a", "b", "c"])) = some true := by
    decide +kernel
  simp only [Option.bind_eq_some_iff, Option.map_eq_some_iff, decide_eq_true_eq] at seen
  obtain ⟨mid, start, next, taken, later, ran, accepted, commit, members⟩ := seen
  refine ⟨mid, next, later, start, taken, ran, commit, ?_⟩
  exact minority_commits_nothing (boot_bootstrapped 0 (by decide) (by decide)) (exec_runs start)
    (by rw [(exec_runs start).members]; decide) List.mem_cons_self accepted taken
    (execThrough_apart splitTransport_apart ran) (by rw [members]; decide)

end Cluster

end ForgeDB.Raft
