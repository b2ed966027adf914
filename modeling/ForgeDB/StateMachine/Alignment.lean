import ForgeDB.Raft.Handover
import ForgeDB.StateMachine.Applier

/-!
The applier against its node, call by call. While others use the node between any two calls, the state machine's
position and the node's count of what is applied stay together, as long as the node has not moved away when a
snapshot is taken up and when the entries are fetched.
-/

namespace ForgeDB.StateMachine

open Raft (Node LogEntry)

structure Meaning (σ : Type) where
  good : Nat → Bytes → Prop
  agreed : LogEntry → Prop
  reflects : Nat → σ → Prop

structure Meaning.Sound {σ : Type} [StateMachine σ] (m : Meaning σ) : Prop where
  restored : ∀ restorer : Snapshotter σ, StateMachine.snapshotter = some restorer → ∀ index data sm after,
    m.good index data → restorer.restoreSnapshot sm data = (after, .ok ()) → m.reflects index after
  applied : ∀ position sm entry cmd after result, m.reflects position sm → m.agreed entry →
    entry.index = position + 1 → decodeCommand entry.command = .ok cmd →
    StateMachine.apply sm cmd = (after, .ok result) → m.reflects entry.index after
  refused : ∀ position sm cmd after error, m.reflects position sm →
    StateMachine.apply sm cmd = (after, .error error) → m.reflects position after

structure Meaning.Extends {σ : Type} (m larger : Meaning σ) : Prop where
  good : ∀ index data, m.good index data → larger.good index data
  agreed : ∀ entry, m.agreed entry → larger.agreed entry
  reflects : ∀ position sm, m.reflects position sm → larger.reflects position sm

def Meaning.payloads (σ : Type) (good : Nat → Bytes → Prop) : Meaning σ := ⟨good, fun _ => True, fun _ _ => True⟩

theorem Meaning.payloads_sound (σ : Type) [StateMachine σ] (good : Nat → Bytes → Prop) :
    (Meaning.payloads σ good).Sound :=
  ⟨by intros; trivial, by intros; trivial, by intros; trivial⟩

theorem Meaning.payloads_extends (σ : Type) {good better : Nat → Bytes → Prop}
    (weaker : ∀ index data, good index data → better index data) :
    (Meaning.payloads σ good).Extends (Meaning.payloads σ better) :=
  ⟨weaker, by intros; trivial, by intros; trivial⟩

def Meaning.positions (σ : Type) : Meaning σ := Meaning.payloads σ fun _ _ => True

theorem Meaning.positions_sound (σ : Type) [StateMachine σ] : (Meaning.positions σ).Sound := Meaning.payloads_sound σ _

def Queued {σ : Type} (m : Meaning σ) (n : Node) (position : Nat) (todo : List LogEntry) : Prop :=
  ∀ slot entry, todo[slot]? = some entry →
    entry.index = position + 1 + slot ∧ entry.index ≤ n.commitIndex ∧ m.agreed entry

theorem Queued.tail {σ : Type} {m : Meaning σ} {n : Node} {position : Nat} {entry : LogEntry} {todo : List LogEntry}
    (queued : Queued m n position (entry :: todo)) : Queued m n (position + 1) todo := by
  intro slot next found
  obtain ⟨index, rest⟩ := queued (slot + 1) next found
  exact ⟨by omega, rest⟩

namespace Applier

variable {σ : Type} {m : Meaning σ} {n : Node} {a : Applier σ}

/-- A snapshot that is taken up is not older than what is applied, and no entry that is fetched has
been compacted away. -/
def Orderly (n : Node) (a : Applier σ) : Prop :=
  match a.phase with
  | .idle => ∀ snap ∈ n.pendingSnapshot, n.lastApplied ≤ snap.lastIncludedIndex
  | .committed first => n.log.sentinel.index < first ∨ n.commitIndex ≤ n.log.sentinel.index
  | _ => True

instance (n : Node) (a : Applier σ) : Decidable (a.Orderly n) := by
  unfold Orderly
  split <;> infer_instance

/-- Where the contents stand in each phase. Outside a call they may be anywhere only while a
snapshot waits that will replace them. -/
def Aligned (m : Meaning σ) (n : Node) (a : Applier σ) : Prop :=
  match a.phase with
  | .idle => (a.position = n.lastApplied ∧ m.reflects a.position a.sm) ∨ n.Awaiting
  | .restore snap =>
    n.Awaiting ∧ n.lastApplied ≤ snap.lastIncludedIndex ∧ m.good snap.lastIncludedIndex snap.data
  | .confirm index => n.Awaiting ∧ n.lastApplied ≤ index ∧ a.position = index ∧ m.reflects a.position a.sm
  | .lastApplied => a.position = n.lastApplied ∧ m.reflects a.position a.sm
  | .committed first => a.position = n.lastApplied ∧ m.reflects a.position a.sm ∧ first = a.position + 1
  | .entries todo => a.position = n.lastApplied ∧ m.reflects a.position a.sm ∧ Queued m n a.position todo
  | .mark index todo => a.position = index ∧ index = n.lastApplied + 1 ∧ index ≤ n.commitIndex ∧
    m.reflects a.position a.sm ∧ Queued m n a.position todo

theorem Aligned.mono {larger : Meaning σ} (extends_ : m.Extends larger) (aligned : Aligned m n a) :
    Aligned larger n a := by
  have queued : ∀ todo, Queued m n a.position todo → Queued larger n a.position todo :=
    fun todo queued slot entry found => (queued slot entry found).imp_right (And.imp_right (extends_.agreed entry))
  unfold Aligned at aligned ⊢
  split at aligned
  · exact aligned.imp_left (And.imp_right (extends_.reflects _ _))
  · exact aligned.imp_right (And.imp_right (extends_.good _ _))
  · exact aligned.imp_right (And.imp_right (And.imp_right (extends_.reflects _ _)))
  · exact aligned.imp_right (extends_.reflects _ _)
  · exact aligned.imp_right (And.imp_left (extends_.reflects _ _))
  · exact aligned.imp_right (And.imp (extends_.reflects _ _) (queued _))
  · exact aligned.imp_right (And.imp_right (And.imp_right (And.imp (extends_.reflects _ _) (queued _))))

theorem Aligned.undisturbed {after : Node} (calm : Node.Undisturbed n after) (aligned : Aligned m n a) :
    Aligned m after a := by
  have applied := calm.applied
  have queued : ∀ todo, Queued m n a.position todo → Queued m after a.position todo :=
    fun todo queued slot entry found =>
      (queued slot entry found).imp_right (And.imp_left (fun le => le.trans calm.commit))
  unfold Aligned at aligned ⊢
  split at aligned
  · exact aligned.imp (fun same => ⟨same.1.trans applied.symm, same.2⟩) calm.awaiting
  · obtain ⟨awaiting, le, good⟩ := aligned
    exact ⟨calm.awaiting awaiting, applied ▸ le, good⟩
  · obtain ⟨awaiting, le, rest⟩ := aligned
    exact ⟨calm.awaiting awaiting, applied ▸ le, rest⟩
  · exact aligned.imp_left (fun same => same.trans applied.symm)
  · exact aligned.imp_left (fun same => same.trans applied.symm)
  · exact aligned.imp (fun same => same.trans applied.symm) (And.imp_right (queued _))
  · obtain ⟨same, next, le, reflects, rest⟩ := aligned
    exact ⟨same, applied ▸ next, le.trans calm.commit, reflects, queued _ rest⟩

theorem Aligned.replaced {sm : σ} (same : ∀ position, m.reflects position a.sm → m.reflects position sm)
    (aligned : Aligned m n a) : Aligned m n { a with sm := sm } := by
  obtain ⟨old, phase, applied, err, position, handed, restored⟩ := a
  have same := same position
  cases phase with
  | idle => exact Or.imp_left (And.imp_right same) aligned
  | restore snap => exact aligned
  | confirm index => exact And.imp_right (And.imp_right (And.imp_right same)) aligned
  | lastApplied => exact And.imp_right same aligned
  | committed first | entries todo => exact And.imp_right (And.imp_left same) aligned
  | mark index todo => exact And.imp_right (And.imp_right (And.imp_right (And.imp_left same))) aligned

def Current (n : Node) (a : Applier σ) : Prop :=
  match a.phase with
  | .lastApplied => n.pendingSnapshot = none
  | .committed first => n.pendingSnapshot = none ∧ first = n.lastApplied + 1
  | _ => True

theorem start_current (n : Node) (a : Applier σ) : (a.start n).Current n := by
  unfold start
  cases present : n.pendingSnapshot with
  | none => exact present
  | some snap => trivial

theorem Current.orderly (busy : a.phase ≠ .idle) (restorable : n.kept.Restorable) (current : a.Current n) :
    a.Orderly n := by
  unfold Orderly
  unfold Current at current
  split
  · rename_i idle
    exact absurd idle busy
  · rename_i first phase
    rw [phase] at current
    obtain ⟨pending, rfl⟩ := current
    left
    rcases restorable.reached with le | ⟨snap, present, _⟩
    · exact Nat.lt_succ_of_le le
    · rw [show n.kept.pendingSnapshot = none from pending] at present
      cases present
  · trivial

/-- The index was reached: its entry was handed over, or a snapshot that covers it was restored. -/
def Covers (a : Applier σ) (index : Nat) : Prop :=
  (∃ pair ∈ a.handed, pair.1.index = index) ∨ ∃ snap ∈ a.restored, index ≤ snap.lastIncludedIndex

theorem Covers.mono {b : Applier σ} {index : Nat} (handed : a.handed ⊆ b.handed) (restored : a.restored ⊆ b.restored)
    (covers : a.Covers index) : b.Covers index :=
  covers.imp (fun ⟨pair, present, same⟩ => ⟨pair, handed present, same⟩)
    fun ⟨snap, present, inside⟩ => ⟨snap, restored present, inside⟩

structure Covered (n : Node) (a : Applier σ) : Prop where
  position : ∀ index, 0 < index → index ≤ a.position → a.Covers index
  applied : ∀ index, 0 < index → index ≤ n.lastApplied → a.Covers index

theorem Covered.grow {b : Applier σ} (covered : Covered n a) (handed : a.handed ⊆ b.handed)
    (restored : a.restored ⊆ b.restored) (position : ∀ index, 0 < index → index ≤ b.position → b.Covers index) :
    Covered n b :=
  ⟨position, fun index positive inside => (covered.applied index positive inside).mono handed restored⟩

variable [StateMachine σ]

inductive Advances (n : Node) (a : Applier σ) : Node → Applier σ → Prop where
  | begun (idle : a.phase = .idle) (clear : n.pendingSnapshot = none) :
    Advances n a n { a with applied := 0, err := none, phase := .lastApplied }
  | waiting {snap : Raft.Snapshot} (idle : a.phase = .idle) (pending : n.pendingSnapshot = some snap) :
    Advances n a n { a with applied := 0, err := none, phase := .restore snap }
  | unrestored {snap : Raft.Snapshot} (phase : a.phase = .restore snap) (sm : σ) (err : Option ApplierError) :
    Advances n a n ({ a with sm := sm }.stop err)
  | restored {snap : Raft.Snapshot} {restorer : Snapshotter σ} {sm : σ} (phase : a.phase = .restore snap)
    (supports : StateMachine.snapshotter = some restorer)
    (ran : restorer.restoreSnapshot a.sm snap.data = (sm, .ok ())) :
    Advances n a n { a with
      sm := sm
      position := snap.lastIncludedIndex
      restored := snap :: a.restored
      phase := .confirm snap.lastIncludedIndex }
  | unconfirmed {index : Nat} (phase : a.phase = .confirm index) (err : Option ApplierError) :
    Advances n a n (a.stop err)
  | confirmed {index : Nat} {after : Node} (phase : a.phase = .confirm index)
    (ran : n.confirmSnapshotRestored index = (after, .ok ())) : Advances n a after { a with phase := .lastApplied }
  | counted (phase : a.phase = .lastApplied) : Advances n a n { a with phase := .committed (n.lastApplied + 1) }
  | fetched {first : Nat} (phase : a.phase = .committed first) :
    Advances n a n { a with phase := .entries (n.committedEntries first) }
  | finished (phase : a.phase = .entries []) : Advances n a n (a.stop none)
  | undecoded {entry : LogEntry} {todo : List LogEntry} (phase : a.phase = .entries (entry :: todo))
    (err : Option ApplierError) : Advances n a n (a.stop err)
  | refused {entry : LogEntry} {todo : List LogEntry} {cmd : Command} {sm : σ} {cause : ApplyError}
    (phase : a.phase = .entries (entry :: todo)) (ran : StateMachine.apply a.sm cmd = (sm, .error cause))
    (err : Option ApplierError) :
    Advances n a n ({ a with sm := sm, handed := (entry, a.position) :: a.handed }.stop err)
  | applied {entry : LogEntry} {todo : List LogEntry} {cmd : Command} {sm : σ} {result : Result}
    (phase : a.phase = .entries (entry :: todo)) (decoded : decodeCommand entry.command = .ok cmd)
    (ran : StateMachine.apply a.sm cmd = (sm, .ok result)) :
    Advances n a n { a with
      sm := sm
      position := entry.index
      handed := (entry, a.position) :: a.handed
      phase := .mark entry.index todo }
  | unmarked {index : Nat} {todo : List LogEntry} (phase : a.phase = .mark index todo)
    (failed : ¬(n.lastApplied < index ∧ index ≤ n.commitIndex)) (err : Option ApplierError) :
    Advances n a n (a.stop err)
  | marked {index : Nat} {todo : List LogEntry} (phase : a.phase = .mark index todo) (above : n.lastApplied < index)
    (committed : index ≤ n.commitIndex) :
    Advances n a { n with lastApplied := index }.notifyApplied
      { a with applied := a.applied + 1, phase := .entries todo }

theorem step_advances (n : Node) (a : Applier σ) : Advances n a (a.step n).1 (a.step n).2 := by
  unfold step
  split
  · rename_i idle
    unfold start
    cases pending : n.pendingSnapshot with
    | none => exact .begun idle pending
    | some snap => exact .waiting idle pending
  · rename_i snap phase
    unfold restore
    cases supports : (StateMachine.snapshotter : Option (Snapshotter σ)) with
    | none => exact .unrestored phase a.sm _
    | some restorer =>
      dsimp only
      rcases ran : restorer.restoreSnapshot a.sm snap.data with ⟨sm, cause | _⟩
      · exact .unrestored phase sm _
      · exact .restored phase supports ran
  · rename_i index phase
    unfold confirm
    rcases n.confirmSnapshotRestored_cases index with ⟨_, _, _, _, ok, _⟩ | ⟨error, same⟩
    · rcases ran : n.confirmSnapshotRestored index with ⟨after, outcome⟩
      rw [ran] at ok
      dsimp only at ok
      subst ok
      exact .confirmed phase ran
    · rw [same]
      exact .unconfirmed phase _
  · rename_i phase
    exact .counted phase
  · rename_i phase
    exact .fetched phase
  · rename_i phase
    exact .finished phase
  · rename_i entry todo phase
    unfold hand
    cases decoded : decodeCommand entry.command with
    | error cause => exact .undecoded phase _
    | ok cmd =>
      dsimp only
      rcases ran : StateMachine.apply a.sm cmd with ⟨sm, cause | result⟩
      · exact .refused phase ran _
      · exact .applied phase decoded ran
  · rename_i index todo phase
    unfold mark
    by_cases fits : n.lastApplied < index ∧ index ≤ n.commitIndex
    · rw [Node.markApplied, if_neg (by omega), if_neg (by omega)]
      exact .marked phase fits.1 fits.2
    · rcases n.markApplied_cases index with ⟨above, committed, _⟩ | ⟨error, same⟩
      · exact absurd ⟨above, committed⟩ fits
      · rw [same]
        exact .unmarked phase fits _

section Advancing

variable {after : Node} {next : Applier σ}

section

variable (advances : Advances n a after next)

include advances

theorem Advances.aligned (sound : m.Sound) (orderly : a.Orderly n) (restorable : n.kept.Restorable)
    (pending : ∀ snap, n.pendingSnapshot = some snap → m.good snap.lastIncludedIndex snap.data)
    (committed : ∀ index entry, index ≤ n.commitIndex → n.log.entryAt index = some entry → entry.index = index ∧
      m.agreed entry)
    (aligned : Aligned m n a) : Aligned m after next := by
  cases advances with
  | begun idle clear =>
    simp only [Aligned, idle] at aligned
    rcases aligned with same | awaiting
    · exact same
    · have waits := awaiting.pending
      rw [clear] at waits
      cases waits
  | @waiting snap idle present =>
    simp only [Orderly, idle] at orderly
    have le := orderly snap present
    exact ⟨⟨by rw [present]; rfl, le.trans (restorable.behind snap present)⟩, le, pending snap present⟩
  | unrestored phase =>
    simp only [Aligned, phase] at aligned
    exact Or.inr aligned.1
  | restored phase supports ran =>
    simp only [Aligned, phase] at aligned
    obtain ⟨awaiting, le, good⟩ := aligned
    exact ⟨awaiting, le, rfl, sound.restored _ supports _ _ _ _ good ran⟩
  | unconfirmed phase =>
    simp only [Aligned, phase] at aligned
    exact Or.inr aligned.1
  | confirmed phase ran =>
    simp only [Aligned, phase] at aligned
    obtain ⟨_, le, rfl, reflects⟩ := aligned
    rcases n.confirmSnapshotRestored_cases a.position with ⟨_, _, _, _, _, kept⟩ | ⟨error, same⟩
    · have applied : (n.confirmSnapshotRestored a.position).1.lastApplied = max n.lastApplied a.position :=
        congrArg Raft.Kept.lastApplied kept
      rw [ran, Nat.max_eq_right le] at applied
      exact ⟨applied.symm, reflects⟩
    · rw [same] at ran
      cases ran
  | counted phase =>
    simp only [Aligned, phase] at aligned
    exact ⟨aligned.1, aligned.2, by rw [aligned.1]⟩
  | fetched phase =>
    simp only [Aligned, phase] at aligned
    simp only [Orderly, phase] at orderly
    obtain ⟨same, reflects, rfl⟩ := aligned
    refine ⟨same, reflects, fun slot entry found => ?_⟩
    obtain ⟨below, held⟩ := Node.committedEntries_getElem? orderly found
    obtain ⟨index, agreed⟩ := committed _ entry below held
    exact ⟨index, index ▸ below, agreed⟩
  | finished phase | undecoded phase =>
    simp only [Aligned, phase] at aligned
    exact Or.inl ⟨aligned.1, aligned.2.1⟩
  | refused phase ran =>
    simp only [Aligned, phase] at aligned
    exact Or.inl ⟨aligned.1, sound.refused _ _ _ _ _ aligned.2.1 ran⟩
  | @applied entry todo cmd sm result phase decoded ran =>
    simp only [Aligned, phase] at aligned
    obtain ⟨same, reflects, queued⟩ := aligned
    obtain ⟨index, below, agreed⟩ := queued 0 entry rfl
    refine ⟨rfl, by omega, below, sound.applied _ _ _ _ _ _ reflects agreed index decoded ran, ?_⟩
    have rest := queued.tail
    rw [← show entry.index = a.position + 1 from index] at rest
    exact rest
  | unmarked phase failed =>
    simp only [Aligned, phase] at aligned
    obtain ⟨_, following, below, _⟩ := aligned
    exact absurd ⟨by omega, below⟩ failed
  | marked phase =>
    simp only [Aligned, phase] at aligned
    obtain ⟨same, _, _, reflects, queued⟩ := aligned
    exact ⟨same, reflects, queued⟩

theorem Advances.node :
    after = n ∨ (∃ index, after = (n.confirmSnapshotRestored index).1) ∨ ∃ index, after = (n.markApplied index).1 := by
  cases advances with
  | @confirmed index after phase ran => exact Or.inr (Or.inl ⟨index, by rw [ran]⟩)
  | @marked index todo phase above committed =>
    refine Or.inr (Or.inr ⟨index, ?_⟩)
    rw [Node.markApplied, if_neg (by omega), if_neg (by omega)]
  | _ => exact Or.inl rfl

theorem Advances.restorable (ok : n.kept.Restorable) : after.kept.Restorable := by
  rcases advances.node with rfl | ⟨index, rfl⟩ | ⟨index, rfl⟩
  · exact ok
  · exact Node.confirmSnapshotRestored_restorable ok
  · exact Node.markApplied_restorable ok

theorem Advances.handed : next.handed = a.handed ∨ ∃ entry todo, a.phase = .entries (entry :: todo) ∧
      next.handed = (entry, a.position) :: a.handed := by
  cases advances with
  | refused phase | applied phase => exact Or.inr ⟨_, _, phase, rfl⟩
  | _ => exact Or.inl rfl

theorem Advances.restored_cases :
    next.restored = a.restored ∨ ∃ snap, a.phase = .restore snap ∧ next.restored = snap :: a.restored := by
  cases advances with
  | restored phase => exact Or.inr ⟨_, phase, rfl⟩
  | _ => exact Or.inl rfl

theorem Advances.covered (aligned : Aligned m n a) (covered : Covered n a) : Covered after next := by
  cases advances with
  | restored phase =>
    refine covered.grow (List.Subset.refl _) (List.subset_cons_self ..) fun index _ inside => Or.inr ⟨_, ?_, inside⟩
    exact List.mem_cons_self
  | @confirmed index _ phase ran =>
    simp only [Aligned, phase] at aligned
    refine ⟨covered.position, fun place positive inside => ?_⟩
    rcases n.confirmSnapshotRestored_cases index with ⟨_, _, _, _, _, kept⟩ | ⟨error, same⟩
    · rw [ran] at kept
      rw [show after.lastApplied = max n.lastApplied index from congrArg Raft.Kept.lastApplied kept] at inside
      rcases le_max_iff.mp inside with old | new
      · exact covered.applied place positive old
      · exact covered.position place positive (aligned.2.2.1 ▸ new)
    · rw [same] at ran
      cases ran
  | refused phase =>
    refine covered.grow (List.subset_cons_self ..) (List.Subset.refl _) fun place positive inside => ?_
    exact Covers.mono (List.subset_cons_self ..) (List.Subset.refl _) (covered.position place positive inside)
  | @applied entry todo cmd sm result phase =>
    simp only [Aligned, phase] at aligned
    obtain ⟨following, _⟩ := aligned.2.2 0 entry rfl
    refine covered.grow (List.subset_cons_self ..) (List.Subset.refl _) fun place positive inside => ?_
    rcases Nat.lt_or_ge a.position place with above | old
    · have same : entry.index = place := by
        dsimp only at inside
        omega
      exact Or.inl ⟨_, List.mem_cons_self, same⟩
    · exact Covers.mono (List.subset_cons_self ..) (List.Subset.refl _) (covered.position place positive old)
  | @marked index todo phase =>
    simp only [Aligned, phase] at aligned
    exact ⟨covered.position, fun place positive inside => covered.position place positive (aligned.1 ▸ inside)⟩
  | _ => exact ⟨covered.position, covered.applied⟩

theorem Advances.current (busy : a.phase ≠ .idle) (current : a.Current n) : next.Current after := by
  cases advances with
  | begun idle => exact absurd idle busy
  | @confirmed index _ phase ran =>
    rcases n.confirmSnapshotRestored_cases index with ⟨_, _, _, _, _, kept⟩ | ⟨error, same⟩
    · rw [ran] at kept
      exact congrArg Raft.Kept.pendingSnapshot kept
    · rw [same] at ran
      cases ran
  | counted phase =>
    simp only [Current, phase] at current
    exact ⟨current, rfl⟩
  | _ => trivial

end

end Advancing

end Applier

end ForgeDB.StateMachine
