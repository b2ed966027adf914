import ForgeDB.API.Server

/-!
Request numbers. A number is drawn before the command enters the log, so the log may hold a client's requests in
another order. An acknowledged write has been carried out exactly if its number was the highest of its client
when it was proposed.
-/

namespace ForgeDB.DBNode

open Raft (Node)
open StateMachine

theorem propose_cases (n : Node) (cmd : Command) :
    (∃ error, (propose n cmd).2 = .error error ∧ (propose n cmd).1.kept = n.kept) ∨
      ∃ raw term, cmd.encode = .ok raw ∧ (propose n cmd).2 = .ok (n.log.lastIndex + 1, term) ∧
        (propose n cmd).1.kept = { n.kept with log := (n.log.append ⟨0, n.currentTerm, raw⟩).1 } := by
  unfold propose
  cases encoded : cmd.encode with
  | error cause => exact Or.inl ⟨_, rfl, rfl⟩
  | ok raw =>
    dsimp only
    have cases := n.propose_cases raw
    rcases taken : n.propose raw with ⟨after, outcome, calls⟩
    rw [taken] at cases
    rcases cases with ⟨error, rfl, kept⟩ | ⟨_, rfl, _, _, kept⟩
    · exact Or.inl ⟨.raft error, rfl, kept⟩
    · exact Or.inr ⟨raw, _, rfl, rfl, kept⟩

namespace Cluster

theorem Runs.restorable {first c : Cluster (Applier KVStateMachine)} (boot : first.Bootstrapped interleaved)
    (run : Runs interleaved first c) {node : String} (known : node ∈ c.raft.members) :
    (c.raft.nodes node).kept.Restorable := by
  induction run with
  | refl => exact boot.raft.restorable known
  | tail _ moved ih =>
    obtain ⟨action, _, taken⟩ := moved
    rw [step_members taken] at known
    exact (step_moves taken node).restorable (ih known)

end Cluster

end ForgeDB.DBNode

namespace ForgeDB.API.Server

open Raft (Node LogEntry)
open StateMachine

/-- The entry at the index was carried out against the store, and not answered from the table. -/
def Executed (s : Server) (index : Nat) : Prop :=
  ∃ result, (index, result) ∈ s.results ∧ result.applied = true ∧ result.replayed = false

/-- The number of the command is above everything its client has in front of the index: the request the
table remembers and the entries that are still to be applied. -/
structure Clear (s : Server) (cmd : Command) (index : Nat) : Prop where
  remembered : s.sm.Behind cmd
  earlier : ∀ place entry other, s.node.lastApplied < place → place < index →
    s.node.log.entryAt place = some entry → decodeCommand entry.command = .ok other →
      other.clientID = cmd.clientID → other.requestID < cmd.requestID

def InTurn (s : Server) (cmd : Command) : Prop := s.Clear cmd (s.node.log.lastIndex + 1)

structure Started (s : Server) : Prop where
  numbered : ∀ index entry, s.node.log.entryAt index = some entry → entry.index = index
  retained : s.node.log.sentinel.index ≤ s.node.lastApplied
  present : s.node.lastApplied ≤ s.node.log.lastIndex
  restored : s.node.pendingSnapshot = none
  unused : ∀ request, s.requests request = none
  unapplied : s.results = []

structure Sound (s : Server) : Prop where
  numbered : ∀ index entry, s.node.log.entryAt index = some entry → entry.index = index
  retained : s.node.log.sentinel.index ≤ s.node.lastApplied
  present : s.node.lastApplied ≤ s.node.log.lastIndex
  restored : s.node.pendingSnapshot = none
  logged : ∀ index result, (index, result) ∈ s.results → index ≤ s.node.lastApplied
  keyed : ∀ request cmd, s.requests request = some (.numbered cmd) → cmd.key ≠ []
  answered : ∀ request cmd index response, s.requests request = some (.written cmd index response) →
    index ≤ s.node.lastApplied

/-- The step applies nothing: the entries still to be applied stay where they are, and others only come
after them. -/
structure Calm (s after : Server) : Prop where
  applied : after.node.lastApplied = s.node.lastApplied
  log : ∀ index, s.node.lastApplied < index → index ≤ s.node.log.lastIndex →
    after.node.log.entryAt index = s.node.log.entryAt index
  last : s.node.log.lastIndex ≤ after.node.log.lastIndex
  numbered : ∀ index entry, after.node.log.entryAt index = some entry → entry.index = index
  retained : after.node.log.sentinel.index ≤ after.node.lastApplied
  restored : after.node.pendingSnapshot = none
  dedup : after.sm.dedup = s.sm.dedup
  results : after.results = s.results

structure Applies (s after : Server) (cmd : Command) (result : Result) : Prop where
  entry : ∃ entry, s.node.log.entryAt (s.node.lastApplied + 1) = some entry ∧ decodeCommand entry.command = .ok cmd
  ran : s.sm.apply cmd = (after.sm, .ok result)
  applied : after.node.lastApplied = s.node.lastApplied + 1
  log : after.node.log = s.node.log
  restored : after.node.pendingSnapshot = s.node.pendingSnapshot
  results : after.results = (s.node.lastApplied + 1, result) :: s.results
  requests : after.requests = s.requests

inductive Passes (s after : Server) (event : Event) (request : Nat) : Prop
  | same (same : after.requests request = s.requests request)
  | numbered (cmd : Command) (named : cmd.key ≠ []) (fresh : s.requests request = none)
      (there : after.requests request = some (.numbered cmd))
  | waiting (cmd : Command) (raw : Bytes) (term : Nat) (chosen : event = .propose request)
      (here : s.requests request = some (.numbered cmd)) (encoded : cmd.encode = .ok raw)
      (there : after.requests request = some (.waiting cmd (s.node.log.lastIndex + 1)))
      (held : after.node.log.entryAt (s.node.log.lastIndex + 1) = some ⟨s.node.log.lastIndex + 1, term, raw⟩)
  | written (cmd : Command) (index : Nat) (response : Response) (here : s.requests request = some (.waiting cmd index))
      (reached : index ≤ s.node.lastApplied) (there : after.requests request = some (.written cmd index response))
  | refused (response : Response) (there : after.requests request = some (.refused response))

section Stepping

variable {s after : Server} {event : Event}

section

variable (sound : s.Sound)

include sound

theorem Calm.of_log (log : after.node.log = s.node.log) (applied : after.node.lastApplied = s.node.lastApplied)
    (pending : after.node.pendingSnapshot = s.node.pendingSnapshot) (dedup : after.sm.dedup = s.sm.dedup)
    (results : after.results = s.results) : Calm s after := by
  refine ⟨applied, fun index _ _ => by rw [log], by rw [log], ?_, ?_, pending.trans sound.restored, dedup, results⟩
  · rw [log]
    exact sound.numbered
  · rw [log, applied]
    exact sound.retained

theorem Calm.of_kept (kept : after.node.kept = s.node.kept) (dedup : after.sm.dedup = s.sm.dedup)
    (results : after.results = s.results) : Calm s after :=
  .of_log sound (congrArg Raft.Kept.log kept) (congrArg Raft.Kept.lastApplied kept)
    (congrArg Raft.Kept.pendingSnapshot kept) dedup results

theorem Calm.of_append {e : LogEntry} (kept : after.node.kept = { s.node.kept with log := (s.node.log.append e).1 })
    (dedup : after.sm.dedup = s.sm.dedup) (results : after.results = s.results) : Calm s after := by
  have log : after.node.log = (s.node.log.append e).1 := congrArg Raft.Kept.log kept
  have applied : after.node.lastApplied = s.node.lastApplied := congrArg Raft.Kept.lastApplied kept
  have pending : after.node.pendingSnapshot = s.node.pendingSnapshot := congrArg Raft.Kept.pendingSnapshot kept
  refine ⟨applied, fun index _ inside => ?_, ?_, fun index entry held => ?_, ?_, pending.trans sound.restored, dedup,
    results⟩
  · rw [log, Raft.Log.entryAt_append, if_neg (by omega)]
  · rw [log, Raft.Log.lastIndex_eq, Raft.Log.lastIndex_eq]
    simp only [Raft.Log.append, List.length_append]
    omega
  · rw [log, Raft.Log.entryAt_append] at held
    split at held
    · rename_i final
      cases held
      exact final.symm
    · exact sound.numbered index entry held
  · rw [log, applied]
    exact sound.retained

theorem Calm.of_snapshot : Calm s { s with node := (createSnapshot s.node s.sm s.node.lastApplied).1 } := by
  rcases createSnapshot_cases s.node s.sm s.node.lastApplied with same | ⟨creator, data, _, _, _, same⟩
  · exact .of_kept sound (congrArg Node.kept same) rfl rfl
  rw [same]
  rcases s.node.createSnapshot_kept s.node.lastApplied data with same | ⟨term, above, _, _, same | same⟩
  · exact .of_kept sound same rfl rfl
  · exact .of_log sound (congrArg Raft.Kept.log same) (congrArg Raft.Kept.lastApplied same)
      (congrArg Raft.Kept.pendingSnapshot same) rfl rfl
  · have log := congrArg Raft.Kept.log same
    have applied : (s.node.createSnapshot s.node.lastApplied data).1.lastApplied = s.node.lastApplied :=
      congrArg Raft.Kept.lastApplied same
    have pending := congrArg Raft.Kept.pendingSnapshot same
    have kept : ∀ index, s.node.lastApplied < index →
        (s.node.createSnapshot s.node.lastApplied data).1.log.entryAt index = s.node.log.entryAt index := by
      intro index inside
      rw [show (s.node.createSnapshot s.node.lastApplied data).1.log = _ from log]
      exact Raft.Log.entryAt_drop above.le inside
    have boundary : (s.node.createSnapshot s.node.lastApplied data).1.log.sentinel.index = s.node.lastApplied :=
      congrArg (fun log => log.sentinel.index) log
    refine ⟨applied, fun index inside _ => kept index inside, ?_, fun index entry held => ?_, ?_,
      pending.trans sound.restored, rfl, rfl⟩
    · dsimp only
      rw [show (s.node.createSnapshot s.node.lastApplied data).1.log = _ from log, Raft.Log.lastIndex_eq,
        Raft.Log.lastIndex_eq]
      simp only [List.length_drop]
      omega
    · obtain ⟨slot, place, _⟩ := Raft.Log.entryAt_cases held
      dsimp only at place
      rw [kept index (by omega)] at held
      exact sound.numbered index entry held
    · rw [boundary, applied]

theorem applyNext_cases : Calm s s.applyNext ∨ ∃ cmd result, Applies s s.applyNext cmd result := by
  have ready : restorePendingSnapshotLocked s.node s.sm = (s.node, s.sm, none) := by
    simp only [restorePendingSnapshotLocked, sound.restored]
  have still : s.applyNext = s → Calm s s.applyNext :=
    fun same => .of_kept sound (by rw [same]) (by rw [same]) (by rw [same])
  cases todo : s.node.committedEntries (s.node.lastApplied + 1) with
  | nil => exact Or.inl (still (by simp only [applyNext, ready, todo]))
  | cons entry rest =>
    have first : (s.node.committedEntries (s.node.lastApplied + 1))[0]? = some entry := by
      rw [todo]
      rfl
    obtain ⟨committed, held⟩ := Node.committedEntries_getElem? (Or.inl (Nat.lt_succ_of_le sound.retained)) first
    have place : entry.index = s.node.lastApplied + 1 := sound.numbered _ entry held
    cases decoded : decodeCommand entry.command with
    | error cause => exact Or.inl (still (by simp only [applyNext, ready, todo, decoded]))
    | ok cmd =>
      rcases ran : s.sm.apply cmd with ⟨sm, error | result⟩
      · have untouched := (s.sm.apply_resolves cmd).unresolved error (congrArg Prod.snd ran)
        have shape : s.applyNext = { s with sm := sm } := by simp only [applyNext, ready, todo, decoded, ran]
        rw [ran] at untouched
        rw [shape]
        exact Or.inl (.of_kept sound rfl (congrArg Contents.dedup untouched) rfl)
      · have marked : s.node.markApplied entry.index =
            ({ s.node with lastApplied := s.node.lastApplied + 1 }.notifyApplied, .ok ()) := by
          rw [place, Node.markApplied, if_neg (by omega), if_neg (by omega)]
        have shape : s.applyNext =
            { s with
              node := { s.node with lastApplied := s.node.lastApplied + 1 }.notifyApplied
              sm := sm
              results := (s.node.lastApplied + 1, result) :: s.results } := by
          simp only [applyNext, ready, todo, decoded, ran, marked]
          rw [place]
        rw [shape]
        exact Or.inr ⟨cmd, result, ⟨entry, held, decoded⟩, ran, rfl, rfl, rfl, rfl, rfl⟩

theorem proposeAndWait_calm (request : Nat) (cmd : Command) : Calm s (s.proposeAndWait request cmd) := by
  have node : (s.proposeAndWait request cmd).node = (DBNode.propose s.node cmd).1 ∧
      (s.proposeAndWait request cmd).sm = s.sm ∧ (s.proposeAndWait request cmd).results = s.results := by
    unfold proposeAndWait
    split <;> simp only [*, set, and_self]
  rcases DBNode.propose_cases s.node cmd with ⟨_, _, kept⟩ | ⟨raw, term, _, _, kept⟩
  · rw [← node.1] at kept
    exact .of_kept sound kept (by rw [node.2.1]) node.2.2
  · rw [← node.1] at kept
    exact .of_append sound kept (by rw [node.2.1]) node.2.2

theorem handleKV_calm (request : Nat) (method : Method) (key value : Bytes) :
    Calm s (s.handleKV request method key value) := by
  unfold handleKV
  split
  · exact .of_kept sound rfl rfl rfl
  · cases method with
    | put =>
      simp only [handleKVPut]
      split <;> exact .of_kept sound rfl rfl rfl
    | delete => exact .of_kept sound rfl rfl rfl

theorem leading_calm {node : Node} (kept : node.kept = s.node.kept) (taken : s.leading node = some after) :
    Calm s after := by
  unfold leading at taken
  split at taken
  · cases taken
    exact .of_kept sound kept rfl rfl
  · cases taken

theorem step_cases (taken : s.step event = some after) : Calm s after ∨ ∃ cmd result, Applies s after cmd result := by
  cases event with
  | arrive request method key value =>
    simp only [step] at taken
    split at taken
    · cases taken
      exact Or.inl (handleKV_calm sound request method key value)
    · cases taken
  | propose request =>
    simp only [step] at taken
    split at taken
    · cases taken
      exact Or.inl (proposeAndWait_calm sound request _)
    · cases taken
  | respond request =>
    simp only [step] at taken
    split at taken
    · split at taken
      · cases taken
        exact Or.inl (.of_kept sound rfl rfl rfl)
      · cases taken
    · cases taken
  | expire request cause =>
    simp only [step] at taken
    split at taken
    · cases taken
      exact Or.inl (.of_kept sound rfl rfl rfl)
    · cases taken
  | tick => exact Or.inl (leading_calm sound s.node.tick_kept taken)
  | resume call reply => exact Or.inl (leading_calm sound (s.node.resume_kept call reply) taken)
  | handleRequestVote args => exact Or.inl (leading_calm sound (s.node.handleRequestVote_kept args) taken)
  | apply =>
    cases taken
    exact applyNext_cases sound
  | snapshot =>
    cases taken
    exact Or.inl (.of_snapshot sound)
  | fault outcomes | storeFault outcomes =>
    cases taken
    exact Or.inl (.of_kept sound rfl rfl rfl)

end

@[simp] theorem set_self (s : Server) (request : Nat) (stage : Request) :
    (s.set request stage).requests request = some stage := Function.update_self ..

theorem set_other {s : Server} {request other : Nat} {stage : Request} (apart : other ≠ request) :
    (s.set request stage).requests other = s.requests other := Function.update_of_ne apart ..

theorem handleKV_passes (request other : Nat) (method : Method) (key value : Bytes)
    (fresh : s.requests request = none) : Passes s (s.handleKV request method key value) event other := by
  by_cases apart : other = request
  · subst apart
    unfold handleKV
    split
    · exact .refused _ (set_self ..)
    rename_i named
    cases method with
    | put =>
      simp only [handleKVPut]
      split
      · exact .refused _ (set_self ..)
      · exact .numbered _ named fresh (set_self ..)
    | delete => exact .numbered _ named fresh (set_self ..)
  · refine .same ?_
    unfold handleKV
    split
    · exact set_other apart
    cases method with
    | put =>
      simp only [handleKVPut]
      split
      · exact set_other apart
      · exact set_other apart
    | delete => exact set_other apart

theorem proposeAndWait_stage (s : Server) (request : Nat) (cmd : Command) :
    ∃ stage, (∀ other, (s.proposeAndWait request cmd).requests other =
        Function.update s.requests request (some stage) other) ∧
      ((∃ response, stage = .refused response) ∨
        stage = .waiting cmd (s.node.log.lastIndex + 1) ∧ ∃ raw term, cmd.encode = .ok raw ∧
          (s.proposeAndWait request cmd).node.log.entryAt (s.node.log.lastIndex + 1) =
            some ⟨s.node.log.lastIndex + 1, term, raw⟩) := by
  rcases outcome : DBNode.propose s.node cmd with ⟨node, result⟩
  have cases := DBNode.propose_cases s.node cmd
  rw [outcome] at cases
  rcases cases with ⟨error, rfl, _⟩ | ⟨raw, term, encoded, rfl, kept⟩
  · have shape : ∃ response, s.proposeAndWait request cmd =
        { s with node := node }.set request (.refused response) := by
      unfold proposeAndWait
      rw [outcome]
      split
      · rename_i same
        cases same
        exact ⟨_, rfl⟩
      · rename_i same
        cases same
        exact ⟨_, rfl⟩
      · rename_i same
        cases same
    obtain ⟨response, shape⟩ := shape
    rw [shape]
    exact ⟨.refused response, fun other => rfl, Or.inl ⟨response, rfl⟩⟩
  · have shape : s.proposeAndWait request cmd =
        { s with node := node }.set request (.waiting cmd (s.node.log.lastIndex + 1)) := by
      unfold proposeAndWait
      rw [outcome]
    have log : node.log = _ := congrArg Raft.Kept.log kept
    rw [shape]
    refine ⟨_, fun other => rfl, Or.inr ⟨rfl, raw, s.node.currentTerm, encoded, ?_⟩⟩
    simp only [set]
    rw [log, Raft.Log.entryAt_append, if_pos rfl]

theorem proposeAndWait_passes {request : Nat} (other : Nat) {cmd : Command}
    (here : s.requests request = some (.numbered cmd)) :
    Passes s (s.proposeAndWait request cmd) (.propose request) other := by
  obtain ⟨stage, requests, cases⟩ := s.proposeAndWait_stage request cmd
  have there := requests other
  by_cases apart : other = request
  · subst apart
    rw [Function.update_self] at there
    rcases cases with ⟨response, rfl⟩ | ⟨rfl, raw, term, encoded, held⟩
    · exact .refused response there
    · exact .waiting cmd raw term rfl here encoded there held
  · rw [Function.update_of_ne apart] at there
    exact .same there

theorem leading_requests {node : Node} (taken : s.leading node = some after) : after.requests = s.requests := by
  unfold leading at taken
  split at taken
  · cases taken
    rfl
  · cases taken

theorem step_passes (taken : s.step event = some after) (request : Nat) : Passes s after event request := by
  cases event with
  | arrive arrived method key value =>
    simp only [step] at taken
    split at taken
    · rename_i fresh
      cases taken
      exact handleKV_passes arrived request method key value fresh
    · cases taken
  | propose proposed =>
    simp only [step] at taken
    split at taken
    · rename_i cmd here
      cases taken
      exact proposeAndWait_passes request here
    · cases taken
  | respond answered =>
    simp only [step] at taken
    split at taken
    · rename_i cmd index here
      split at taken
      · rename_i reached
        cases taken
        by_cases apart : request = answered
        · subst apart
          exact .written cmd index _ here (of_decide_eq_true reached) (set_self ..)
        · exact .same (set_other apart)
      · cases taken
    · cases taken
  | expire expired cause =>
    simp only [step] at taken
    split at taken
    · cases taken
      by_cases apart : request = expired
      · subst apart
        exact .refused _ (set_self ..)
      · exact .same (set_other apart)
    · cases taken
  | tick | resume call reply | handleRequestVote args => exact .same (by rw [leading_requests taken])
  | apply =>
    cases taken
    refine .same ?_
    unfold applyNext
    split
    · rfl
    split
    · rfl
    split
    · rfl
    split <;> rfl
  | snapshot | fault outcomes | storeFault outcomes =>
    cases taken
    exact .same rfl

theorem Sound.step (sound : s.Sound) (taken : s.step event = some after) : after.Sound := by
  have keyed : ∀ request cmd, after.requests request = some (.numbered cmd) → cmd.key ≠ [] := by
    intro request cmd there
    cases step_passes taken request with
    | same same =>
      rw [same] at there
      exact sound.keyed request cmd there
    | numbered other named _ found =>
      rw [found] at there
      cases there
      exact named
    | waiting _ _ _ _ _ _ found | written _ _ _ _ _ found | refused _ found =>
      rw [found] at there
      cases there
  have answered : ∀ request cmd index response, after.requests request = some (.written cmd index response) →
      index ≤ s.node.lastApplied := by
    intro request cmd index response there
    cases step_passes taken request with
    | same same =>
      rw [same] at there
      exact sound.answered request cmd index response there
    | written _ _ _ _ reached found =>
      rw [found] at there
      cases there
      exact reached
    | numbered _ _ _ found | waiting _ _ _ _ _ _ found | refused _ found =>
      rw [found] at there
      cases there
  rcases step_cases sound taken with calm | ⟨cmd, result, applies⟩
  · refine ⟨calm.numbered, calm.retained, ?_, calm.restored, ?_, keyed, by rw [calm.applied]; exact answered⟩
    · rw [calm.applied]
      exact sound.present.trans calm.last
    · rw [calm.applied, calm.results]
      exact sound.logged
  · obtain ⟨entry, held, _⟩ := applies.entry
    have inside := (Raft.Log.termAt_bounds (Raft.Log.termAt_of_entryAt held)).2
    refine ⟨by rw [applies.log]; exact sound.numbered, ?_, ?_, applies.restored.trans sound.restored, ?_, keyed,
      fun request found index response there => ?_⟩
    · rw [applies.log, applies.applied]
      exact sound.retained.trans (Nat.le_succ _)
    · rw [applies.log, applies.applied]
      exact inside
    · intro index found present
      rw [applies.results] at present
      rw [applies.applied]
      rcases List.mem_cons.mp present with first | old
      · cases first
        exact Nat.le_refl _
      · exact (sound.logged index found old).trans (Nat.le_succ _)
    · rw [applies.applied]
      exact (answered request found index response there).trans (Nat.le_succ _)

end Stepping

/-- What becomes of a proposed command: until it is applied it stays in the log, clear or not, and then it
has been executed or not. -/
inductive Follows (s : Server) (cmd : Command) (index : Nat) (turn : Prop) : Prop
  | pending (ahead : s.node.lastApplied < index)
      (held : ∃ entry, s.node.log.entryAt index = some entry ∧ decodeCommand entry.command = .ok cmd)
      (clear : s.Clear cmd index ↔ turn)
  | done (reached : index ≤ s.node.lastApplied) (executed : s.Executed index ↔ turn)

section Following

variable {s after : Server} {event : Event} {cmd other : Command} {result : Result} {index : Nat} {turn : Prop}

theorem Calm.clear (calm : Calm s after) (inside : index ≤ s.node.log.lastIndex + 1) :
    after.Clear cmd index ↔ s.Clear cmd index := by
  have behind : after.sm.Behind cmd ↔ s.sm.Behind cmd := by
    unfold KVStateMachine.Behind
    rw [calm.dedup]
  constructor
  · intro clear
    refine ⟨behind.mp clear.remembered, fun place entry found above below held => ?_⟩
    rw [← calm.log place above (by omega)] at held
    rw [← calm.applied] at above
    exact clear.earlier place entry found above below held
  · intro clear
    refine ⟨behind.mpr clear.remembered, fun place entry found above below held => ?_⟩
    rw [calm.applied] at above
    rw [calm.log place above (by omega)] at held
    exact clear.earlier place entry found above below held

theorem Calm.executed (calm : Calm s after) : after.Executed index ↔ s.Executed index := by
  unfold Executed
  rw [calm.results]

theorem Applies.clear (applies : Applies s after other result) (ahead : s.node.lastApplied + 1 < index) :
    after.Clear cmd index ↔ s.Clear cmd index := by
  obtain ⟨entry, held, decoded⟩ := applies.entry
  have behind := KVStateMachine.behind_apply applies.ran cmd
  constructor
  · intro clear
    obtain ⟨remembered, above⟩ := behind.mp clear.remembered
    refine ⟨remembered, fun place found command past below there same shared => ?_⟩
    by_cases next : place = s.node.lastApplied + 1
    · subst next
      rw [held, Option.some.injEq] at there
      subst there
      rw [decoded, Except.ok.injEq] at same
      subst same
      exact above shared
    · refine clear.earlier place found command ?_ below ?_ same shared
      · rw [applies.applied]
        omega
      · rw [applies.log]
        exact there
  · intro clear
    refine ⟨behind.mpr ⟨clear.remembered, fun shared => ?_⟩, fun place found command past below there same shared => ?_⟩
    · exact clear.earlier _ entry other (Nat.lt_succ_self _) ahead held decoded shared
    · rw [applies.applied] at past
      rw [applies.log] at there
      exact clear.earlier place found command (by omega) below there same shared

theorem Applies.executed (sound : s.Sound) (applies : Applies s after other result) :
    after.Executed index ↔
      if index = s.node.lastApplied + 1 then result.applied = true ∧ result.replayed = false else s.Executed index := by
  unfold Executed
  rw [applies.results]
  split
  · rename_i next
    constructor
    · rintro ⟨found, present, good⟩
      rcases List.mem_cons.mp present with first | old
      · cases first
        exact good
      · have bound := sound.logged index found old
        omega
    · intro good
      exact ⟨result, by rw [next]; exact List.mem_cons_self, good⟩
  · rename_i differs
    refine exists_congr fun found => and_congr_left fun _ => ?_
    rw [List.mem_cons, Prod.mk.injEq]
    exact or_iff_right fun same => differs same.1

theorem Follows.step (named : cmd.key ≠ []) (sound : s.Sound) (follows : Follows s cmd index turn)
    (taken : s.step event = some after) : Follows after cmd index turn := by
  rcases step_cases sound taken with calm | ⟨other, result, applies⟩
  · cases follows with
    | pending ahead held clear =>
      obtain ⟨entry, there, decoded⟩ := held
      have inside := (Raft.Log.termAt_bounds (Raft.Log.termAt_of_entryAt there)).2
      refine .pending (by rw [calm.applied]; exact ahead) ⟨entry, ?_, decoded⟩ ?_
      · rw [calm.log index ahead inside]
        exact there
      · exact (calm.clear (by omega)).trans clear
    | done reached executed =>
      refine .done (by rw [calm.applied]; exact reached) (calm.executed.trans executed)
  · cases follows with
    | pending ahead held clear =>
      by_cases next : index = s.node.lastApplied + 1
      · -- The command itself is applied: it is executed exactly if nothing in front of it was as high.
        subst next
        obtain ⟨entry, there, decoded⟩ := held
        obtain ⟨found, again, same⟩ := applies.entry
        rw [there, Option.some.injEq] at again
        subst again
        rw [decoded, Except.ok.injEq] at same
        subst same
        refine .done (by rw [applies.applied]) ?_
        rw [applies.executed sound, if_pos rfl, KVStateMachine.apply_executed named applies.ran, ← clear]
        exact ⟨fun behind => ⟨behind, fun place _ _ past below => by omega⟩, fun clear => clear.remembered⟩
      · refine .pending ?_ ?_ ((applies.clear (by omega)).trans clear)
        · rw [applies.applied]
          omega
        · rw [applies.log]
          exact held
    | done reached executed =>
      refine .done (by rw [applies.applied]; omega) ?_
      rw [applies.executed sound, if_neg (by omega)]
      exact executed

end Following

theorem newServer_started {first c : DBNode.Cluster (Applier KVStateMachine)}
    (boot : first.Bootstrapped DBNode.interleaved) (run : DBNode.Cluster.Runs DBNode.interleaved first c)
    {node : String} (known : node ∈ c.raft.members) (leads : (c.raft.nodes node).role = .leader)
    (restored : (c.raft.nodes node).pendingSnapshot = none) (sm : KVStateMachine) (clock : UInt64)
    (peerHTTP : String → String) : (newServer (c.raft.nodes node) sm clock peerHTTP).Started := by
  obtain ⟨record, _, agreed⟩ := boot.agreed.runs run
  refine ⟨fun index entry held => ?_, ?_, ?_, restored, fun _ => rfl, rfl⟩
  · have recorded := agreed.described.leader_entry known leads held
    cases index with
    | zero => cases recorded
    | succ slot => exact agreed.described.numbered _ slot entry recorded
  · rcases (run.restorable boot known).reached with reached | ⟨snap, pending, _⟩
    · exact reached
    · rw [show (c.raft.nodes node).kept.pendingSnapshot = none from restored] at pending
      cases pending
  · exact (agreed.settled node known).applied.trans (agreed.described.commit_le_last known)

section Running

variable {first before next later : Server} {request : Nat} {cmd : Command} {index : Nat}

theorem Started.sound (started : first.Started) : first.Sound where
  numbered := started.numbered
  retained := started.retained
  present := started.present
  restored := started.restored
  logged index result present := by
    rw [started.unapplied] at present
    cases present
  keyed request cmd there := by
    rw [started.unused] at there
    cases there
  answered request cmd index response there := by
    rw [started.unused] at there
    cases there

theorem Sound.runs (sound : first.Sound) (run : Runs first later) : later.Sound := by
  induction run with
  | refl => exact sound
  | tail _ moved ih =>
    obtain ⟨event, taken⟩ := moved
    exact ih.step taken

theorem Follows.runs {turn : Prop} (named : cmd.key ≠ []) (sound : first.Sound) (follows : Follows first cmd index turn)
    (run : Runs first later) : Follows later cmd index turn := by
  induction run with
  | refl => exact follows
  | tail past moved ih =>
    obtain ⟨event, taken⟩ := moved
    exact ih.step named (sound.runs past) taken

/-- The request was proposed with this command in this state, on the way from the first server to the
later one. -/
def ProposedIn (first later : Server) (request : Nat) (cmd : Command) (before : Server) : Prop :=
  Runs first before ∧ before.requests request = some (.numbered cmd) ∧
    ∃ next, before.step (.propose request) = some next ∧ Runs next later

theorem proposed_of_waiting (run : Runs first later) (fresh : first.requests request = none)
    (there : later.requests request = some (.waiting cmd index) ∨
      ∃ response, later.requests request = some (.written cmd index response)) :
    ∃ before, ProposedIn first later request cmd before := by
  induction run with
  | refl =>
    rw [fresh] at there
    rcases there with there | ⟨response, there⟩ <;> cases there
  | @tail middle final past moved ih =>
    obtain ⟨event, taken⟩ := moved
    have onward : (∃ before, ProposedIn first middle request cmd before) →
        ∃ before, ProposedIn first final request cmd before := by
      rintro ⟨before, reached, here, next, proposed, rest⟩
      exact ⟨before, reached, here, next, proposed, rest.tail ⟨event, taken⟩⟩
    cases step_passes taken request with
    | same same =>
      rw [same] at there
      exact onward (ih there)
    | numbered other _ _ found =>
      rw [found] at there
      rcases there with there | ⟨response, there⟩ <;> cases there
    | waiting other raw term chosen here _ found =>
      rw [found] at there
      rcases there with there | ⟨response, there⟩
      · cases there
        subst chosen
        exact ⟨middle, past, here, final, taken, .refl⟩
      · cases there
    | written other place answer here _ found =>
      rw [found] at there
      rcases there with there | ⟨response, there⟩
      · cases there
      · cases there
        exact onward (ih (Or.inl here))
    | refused answer found =>
      rw [found] at there
      rcases there with there | ⟨response, there⟩ <;> cases there

theorem stage_after_proposal {stage : Request} (here : first.requests request = some stage)
    (stages : (∃ response, stage = .refused response) ∨ stage = .waiting cmd index ∨
      ∃ response, stage = .written cmd index response)
    (run : Runs first later) {other : Command} {place : Nat} {response : Response}
    (there : later.requests request = some (.written other place response)) : other = cmd ∧ place = index := by
  induction run using Relation.ReflTransGen.head_induction_on generalizing stage with
  | refl =>
    rw [there, Option.some.injEq] at here
    subst here
    rcases stages with ⟨_, same⟩ | same | ⟨_, same⟩
    · cases same
    · cases same
    · cases same
      exact ⟨rfl, rfl⟩
  | head moved rest ih =>
    obtain ⟨event, taken⟩ := moved
    cases step_passes taken request with
    | same same =>
      rw [here] at same
      exact ih same stages
    | numbered _ _ fresh _ =>
      rw [fresh] at here
      cases here
    | waiting _ _ _ _ numbered _ _ =>
      rw [numbered, Option.some.injEq] at here
      subst here
      rcases stages with ⟨_, same⟩ | same | ⟨_, same⟩ <;> cases same
    | written found spot answer waiting _ final =>
      rw [waiting, Option.some.injEq] at here
      subst here
      rcases stages with ⟨_, same⟩ | same | ⟨_, same⟩
      · cases same
      · cases same
        exact ih final (Or.inr (Or.inr ⟨answer, rfl⟩))
      · cases same
    | refused answer final => exact ih final (Or.inl ⟨answer, rfl⟩)

/-- A write that is answered was executed exactly if it was proposed in turn: every answered request has
been proposed, and its command acted on the store if and only if, right before that, its number was
above the one its client is remembered for and above those its client still had in the log. -/
theorem answered_executed (started : first.Started) (run : Runs first later) {response : Response}
    (answered : later.requests request = some (.written cmd index response)) :
    (∃ before, ProposedIn first later request cmd before) ∧
      ∀ before, ProposedIn first later request cmd before → (later.Executed index ↔ before.InTurn cmd) := by
  refine ⟨proposed_of_waiting run (started.unused request) (Or.inr ⟨response, answered⟩), ?_⟩
  rintro before ⟨reached, here, next, proposed, rest⟩
  have sound := started.sound.runs reached
  have named := sound.keyed request cmd here
  have taken := proposed
  simp only [step, here, Option.some.injEq] at taken
  subst taken
  obtain ⟨stage, requests, cases⟩ := before.proposeAndWait_stage request cmd
  have there := requests request
  rw [Function.update_self] at there
  have calm := proposeAndWait_calm sound request cmd
  rcases cases with ⟨refusal, rfl⟩ | ⟨rfl, raw, term, encoded, held⟩
  · -- A refused request stays refused, so it keeps whatever index is put to it.
    have other : cmd = cmd ∧ index = index + 1 := stage_after_proposal there (Or.inl ⟨refusal, rfl⟩) rest answered
    omega
  · obtain ⟨-, rfl⟩ := stage_after_proposal there (Or.inr (Or.inl rfl)) rest answered
    have follows :
        Follows (before.proposeAndWait request cmd) cmd (before.node.log.lastIndex + 1) (before.InTurn cmd) := by
      refine .pending ?_ ⟨_, held, decodeCommand_encode encoded⟩ (calm.clear (Nat.le_refl _))
      rw [calm.applied]
      exact Nat.lt_succ_of_le sound.present
    cases follows.runs named (sound.step proposed) rest with
    | pending ahead => exact absurd (((started.sound).runs run).answered _ _ _ _ answered) (Nat.not_le.mpr ahead)
    | done _ executed => exact executed

end Running

def solo (c : DBNode.Cluster (Applier KVStateMachine)) : Server :=
  newServer (c.raft.nodes "a") (c.machines "a").sm 0 fun _ => ""

/-- Two requests at once, proposed in the order of their numbers. -/
theorem answered_executed_solo :
    ∃ c before next later,
      (DBNode.Cluster.boot DBNode.interleaved ["a"] 0).exec DBNode.interleaved [.raft (.tick "a")] = some c ∧
      (solo c).exec [.arrive 0 .put [107] [1], .arrive 1 .put [108] [2], .propose 0] = some before ∧
      before.step (.propose 1) = some next ∧ next.exec [.apply, .respond 0, .apply, .respond 1] = some later ∧
      later.requests 1 = some (.written (newPutCommand (solo c).clientID 2 [108] [2]) 2 ⟨200, .status "ok"⟩) ∧
      later.Executed 2 ∧ before.InTurn (newPutCommand (solo c).clientID 2 [108] [2]) := by
  have computed : (((DBNode.Cluster.boot DBNode.interleaved ["a"] 0).exec DBNode.interleaved [.raft (.tick "a")]).bind
      fun c => ((solo c).exec [.arrive 0 .put [107] [1], .arrive 1 .put [108] [2], .propose 0]).bind fun before =>
        (before.step (.propose 1)).bind fun next =>
          (next.exec [.apply, .respond 0, .apply, .respond 1]).map fun later =>
          decide ((c.raft.nodes "a").role = .leader ∧ (c.raft.nodes "a").pendingSnapshot = none ∧
            before.requests 1 = some (.numbered (newPutCommand (solo c).clientID 2 [108] [2])) ∧
            later.requests 1 = some (.written (newPutCommand (solo c).clientID 2 [108] [2]) 2 ⟨200, .status "ok"⟩) ∧
            (2, ⟨true, false, [108], [2], none⟩) ∈ later.results)) = some true := by
    decide
  simp only [Option.bind_eq_some_iff, Option.map_eq_some_iff, decide_eq_true_eq] at computed
  obtain ⟨c, elected, before, arrived, next, proposed, later, rest, leads, restored, numbered, answered, executed⟩ :=
    computed
  have past := DBNode.Cluster.exec_runs elected
  have started : (solo c).Started := newServer_started
    (DBNode.Cluster.boot_bootstrapped DBNode.interleaved 0 (by decide) (by decide)) past
    (by rw [past.members]; decide) leads restored _ _ _
  have whole : Runs (solo c) later := ((exec_runs arrived).tail ⟨_, proposed⟩).trans (exec_runs rest)
  have done : later.Executed 2 := ⟨_, executed, rfl, rfl⟩
  have turn := (answered_executed started whole answered).2 before
    ⟨exec_runs arrived, numbered, next, proposed, exec_runs rest⟩
  exact ⟨c, before, next, later, elected, arrived, proposed, rest, answered, done, turn.mp done⟩

/-- Two requests draw their numbers and enter the log the other way round: both are answered as written,
and the one with the lower number never reached the store. -/
theorem answered_stale :
    ∃ c later, (DBNode.Cluster.boot DBNode.interleaved ["a"] 0).exec DBNode.interleaved [.raft (.tick "a")] = some c ∧
      (solo c).exec [.arrive 0 .put [107] [1], .arrive 1 .put [108] [2], .propose 1, .propose 0, .apply, .apply,
        .respond 0, .respond 1] = some later ∧
      later.requests 0 = some (.written (newPutCommand (solo c).clientID 1 [107] [1]) 2 ⟨200, .status "ok"⟩) ∧
      (2, Result.failed .staleRequest) ∈ later.results ∧ ¬later.Executed 2 ∧
      later.sm.store.get [107] = .error .keyNotFound := by
  have computed : (((DBNode.Cluster.boot DBNode.interleaved ["a"] 0).exec DBNode.interleaved [.raft (.tick "a")]).bind
      fun c => ((solo c).exec [.arrive 0 .put [107] [1], .arrive 1 .put [108] [2], .propose 1, .propose 0, .apply,
          .apply, .respond 0, .respond 1]).map fun later =>
        decide (later.requests 0 = some (.written (newPutCommand (solo c).clientID 1 [107] [1]) 2 ⟨200, .status "ok"⟩) ∧
          later.results = [(2, .failed .staleRequest), (1, ⟨true, false, [108], [2], none⟩)] ∧
          later.sm.store.table.get? [107] = none)) = some true := by
    decide
  simp only [Option.bind_eq_some_iff, Option.map_eq_some_iff, decide_eq_true_eq] at computed
  obtain ⟨c, elected, later, done, answered, results, absent⟩ := computed
  refine ⟨c, later, elected, done, answered, ?_, ?_, ?_⟩
  · rw [results]
    exact List.mem_cons_self
  · rintro ⟨result, present, applied, _⟩
    simp only [results, List.mem_cons, Prod.mk.injEq, true_and, List.not_mem_nil, or_false,
      show ¬(2 = 1) by decide, false_and] at present
    rw [present] at applied
    cases applied
  · rw [MemStore.get, if_neg (by decide), absent]

end ForgeDB.API.Server
