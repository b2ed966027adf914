import ForgeDB.Raft.Leadership
import ForgeDB.Raft.ReadBarrier

/-!
The integrity of chunked transfers. Leaders of different terms may hold different bytes for one boundary, and a
receiver keeps one transfer. The bytes are never mixed: a chunk that does not start a transfer is only sent
after the receiver took an earlier one of the same term.
-/

namespace ForgeDB.Raft

structure Snapshot.Cut (snap : Snapshot) (args : InstallSnapshotArgs) : Prop where
  index : args.lastIncludedIndex = snap.lastIncludedIndex
  term : args.lastIncludedTerm = snap.lastIncludedTerm
  chunked : args.chunked = true
  size : args.totalSize = snap.data.length
  piece : args.data <+: snap.data.drop args.offset

theorem Node.sendInstallSnapshotArgs_cut (n : Node) (term : Nat) (snap : Snapshot) (offset : Nat) :
    snap.Cut (n.sendInstallSnapshotArgs term snap offset) :=
  ⟨rfl, rfl, rfl, rfl, List.take_prefix _ _⟩

/-- The transfer holds the beginning of a snapshot that the leader of a term between the two held. -/
def InProgressSnapshotTransfer.Began (held : Nat → Snapshot → Prop) (low high : Nat)
    (transfer : InProgressSnapshotTransfer) : Prop :=
  ∃ term data, low ≤ term ∧ term ≤ high ∧
    held term ⟨transfer.lastIncludedIndex, transfer.lastIncludedTerm, data⟩ ∧
    transfer.totalSize = data.length ∧ transfer.buf <+: data

/-- A transfer of the snapshot in the term has got to the node: it is ahead of the snapshot, or whatever it has in
progress was started in that term or later. -/
structure Node.Engaged (held : Nat → Snapshot → Prop) (term : Nat) (snap : Snapshot) (n : Node) : Prop where
  current : term ≤ n.currentTerm
  progress : snap.lastIncludedIndex ≤ n.log.sentinel.index ∨
    ∀ transfer, n.chunkTransfer = some transfer → transfer.Began held term n.currentTerm

/-- The chunk is a piece of a snapshot that its term's leader held, and it starts the transfer unless the transfer
has got to the node. -/
structure Node.Expects (held : Nat → Snapshot → Prop) (snap : Snapshot) (args : InstallSnapshotArgs) (n : Node) :
    Prop where
  known : held args.term snap
  cut : snap.Cut args
  engaged : 0 < args.offset → n.Engaged held args.term snap

def Single (held : Nat → Snapshot → Prop) : Prop :=
  ∀ term left right, held term left → held term right → left.lastIncludedIndex = right.lastIncludedIndex → left = right

/-- The node has gone back neither in its term nor in its boundary, and a transfer that is new was started in its
term. -/
structure Node.Later (held : Nat → Snapshot → Prop) (n after : Node) : Prop where
  term : n.currentTerm ≤ after.currentTerm
  boundary : n.log.sentinel.index ≤ after.log.sentinel.index
  transfer : ∀ transfer, after.chunkTransfer = some transfer → n.chunkTransfer = some transfer ∨
    transfer.Began held after.currentTerm after.currentTerm

section Transfer

variable {held : Nat → Snapshot → Prop} {n after : Node} {snap : Snapshot} {args : InstallSnapshotArgs} {term : Nat}

theorem InProgressSnapshotTransfer.Began.widen {low high lower higher : Nat} {transfer : InProgressSnapshotTransfer}
    (below : lower ≤ low) (above : high ≤ higher) (began : transfer.Began held low high) :
    transfer.Began held lower higher := by
  obtain ⟨term, data, atLeast, atMost, rest⟩ := began
  exact ⟨term, data, below.trans atLeast, atMost.trans above, rest⟩

theorem Node.Engaged.later (engaged : n.Engaged held term snap) (later : n.Later held after) :
    after.Engaged held term snap := by
  refine ⟨engaged.current.trans later.term, engaged.progress.imp (fun ahead => ahead.trans later.boundary) ?_⟩
  intro known transfer present
  rcases later.transfer transfer present with old | new
  · exact (known transfer old).widen (Nat.le_refl _) later.term
  · exact new.widen (engaged.current.trans later.term) (Nat.le_refl _)

theorem Node.chunkTarget_cut
    (single : Single held) (expects : n.Expects held snap args) (current : n.currentTerm ≤ args.term)
    (fresh : n.log.sentinel.index < args.lastIncludedIndex)
    {target : InProgressSnapshotTransfer} (found : n.chunkTarget args = some target) :
    target.lastIncludedIndex = snap.lastIncludedIndex ∧ target.lastIncludedTerm = snap.lastIncludedTerm ∧
      target.totalSize = snap.data.length ∧ target.buf ++ args.data <+: snap.data := by
  have cut := expects.cut
  have piece := cut.piece
  unfold Node.chunkTarget at found
  split at found
  · rename_i first
    cases found
    rw [first, List.drop_zero] at piece
    exact ⟨cut.index, cut.term, cut.size, piece⟩
  rename_i later
  split at found
  · cases found
  rename_i transfer inProgress
  split at found
  · cases found
  rename_i fits
  simp only [ne_eq, not_or, not_not] at fits
  obtain ⟨sameIndex, sameTerm, sameSize, sameOffset⟩ := fits
  cases found
  have reached := expects.engaged (Nat.pos_of_ne_zero later)
  obtain ⟨since, data, atLeast, atMost, started, total, beginning⟩ :=
    reached.progress.resolve_left (by rw [← cut.index]; omega) target inProgress
  -- The transfer was started in a term that is neither earlier nor later than the chunk's.
  have sameSince : since = args.term := Nat.le_antisymm (atMost.trans current) atLeast
  subst sameSince
  have same := single _ _ _ started expects.known (sameIndex.trans cut.index)
  have payload : data = snap.data := congrArg Snapshot.data same
  subst payload
  refine ⟨sameIndex.trans cut.index, sameTerm.trans cut.term, total, ?_⟩
  obtain ⟨tail, split⟩ := beginning
  rw [← split, ← sameOffset, List.drop_left] at piece
  rw [← split]
  exact (List.prefix_append_right_inj _).mpr piece

theorem Node.Delivers.cut
    (single : Single held) (expects : n.Expects held snap args) (current : n.currentTerm ≤ args.term)
    (fresh : n.log.sentinel.index < args.lastIncludedIndex) {data : Bytes}
    (delivered : n.Delivers args data) : data = snap.data := by
  rw [Node.Delivers, if_pos expects.cut.chunked] at delivered
  obtain ⟨target, found, rfl, length⟩ := delivered
  obtain ⟨_, _, total, beginning⟩ := Node.chunkTarget_cut single expects current fresh found
  exact beginning.eq_of_length (length.trans total)

def Node.Installs (n after : Node) (found : Snapshot) : Prop :=
  after.persister.snapshot = some found ∧ n.persister.snapshot ≠ some found ∨
    after.boundary = found ∧ n.log.sentinel.index < found.lastIncludedIndex ∨
    after.pendingSnapshot = some found ∧ n.pendingSnapshot ≠ some found

theorem Node.Installs.eq {found : Snapshot}
    (saved : after.persister.snapshot = n.persister.snapshot ∨ after.persister.snapshot = some snap)
    (boundary : after.log.sentinel = n.log.sentinel ∨ after.boundary = snap)
    (pending : after.pendingSnapshot = n.pendingSnapshot ∨ after.pendingSnapshot = some snap)
    (installs : n.Installs after found) : found = snap := by
  rcases installs with ⟨now, before⟩ | ⟨rfl, above⟩ | ⟨now, before⟩
  · rcases saved with same | new
    · exact absurd (same.symm.trans now) before
    · exact Option.some.inj (now.symm.trans new)
  · rcases boundary with same | new
    · rw [Node.boundary, same] at above
      exact absurd above (Nat.lt_irrefl _)
    · exact new
  · rcases pending with same | new
    · exact absurd (same.symm.trans now) before
    · exact Option.some.inj (now.symm.trans new)

theorem Node.Later.of_kept (onward : n.currentTerm ≤ after.currentTerm)
    (boundary : n.log.sentinel.index ≤ after.log.sentinel.index)
    (transfer : after.chunkTransfer = n.chunkTransfer ∨ after.chunkTransfer = none) : n.Later held after := by
  refine ⟨onward, boundary, fun found present => Or.inl ?_⟩
  rcases transfer with same | dropped
  · exact same.symm.trans present
  · cases dropped.symm.trans present

theorem Node.Handled.intact
    (single : Single held) (expects : n.Expects held snap args) (onward : n.currentTerm ≤ after.currentTerm)
    {success : Bool} (handled : n.Handled args after success) :
    n.Later held after ∧
      (success = true → after.Engaged held args.term snap ∧
        (args.final = true → snap.lastIncludedIndex ≤ after.log.sentinel.index)) ∧
      ∀ found, n.Installs after found → found = snap := by
  have cut := expects.cut
  have index := cut.index
  have unchanged : after.kept = n.kept ∨ after.kept = { n.kept with chunkTransfer := none } →
      after.log.sentinel = n.log.sentinel ∧ n.Later held after ∧ ∀ found, n.Installs after found → found = snap := by
    intro kept
    have log : after.log = n.log := kept.elim (congrArg Kept.log) (congrArg Kept.log)
    have sentinel : after.log.sentinel = n.log.sentinel := congrArg Log.sentinel log
    refine ⟨sentinel, .of_kept onward (by rw [sentinel]) ?_, fun found => Node.Installs.eq ?_ (Or.inl sentinel) ?_⟩
    · exact kept.imp (congrArg Kept.chunkTransfer) (congrArg Kept.chunkTransfer)
    · exact Or.inl (kept.elim (congrArg Kept.snapshot) (congrArg Kept.snapshot))
    · exact Or.inl (kept.elim (congrArg Kept.pendingSnapshot) (congrArg Kept.pendingSnapshot))
  cases handled with
  | refused kept =>
    obtain ⟨_, later, installs⟩ := unchanged kept
    exact ⟨later, nofun, installs⟩
  | covered term behind kept =>
    obtain ⟨sentinel, later, installs⟩ := unchanged kept
    have reached : snap.lastIncludedIndex ≤ after.log.sentinel.index := by
      rw [sentinel, ← index]
      exact behind
    exact ⟨later, fun _ => ⟨⟨term.ge, Or.inl reached⟩, fun _ => reached⟩, installs⟩
  | extended target term fresh found more kept =>
    have sentinel : after.log.sentinel = n.log.sentinel := congrArg (fun k => k.log.sentinel) kept
    have began : ∀ transfer, after.chunkTransfer = some transfer →
        transfer.Began held after.currentTerm after.currentTerm := by
      intro transfer present
      cases (congrArg Kept.chunkTransfer kept).symm.trans present
      obtain ⟨sameIndex, sameTerm, size, beginning⟩ :=
        chunkTarget_cut single expects (onward.trans term.le) fresh found
      refine ⟨args.term, snap.data, term.le, term.ge, ?_, size, beginning⟩
      rw [sameIndex, sameTerm]
      exact expects.known
    refine ⟨⟨onward, by rw [sentinel], fun transfer present => Or.inr (began transfer present)⟩,
      fun _ => ⟨⟨term.ge, ?_⟩, ?_⟩, ?_⟩
    · exact Or.inr fun transfer present => (began transfer present).widen term.ge (Nat.le_refl _)
    · intro last
      rw [more] at last
      cases last
    · intro other
      exact Node.Installs.eq (Or.inl (congrArg Kept.snapshot kept)) (Or.inl sentinel)
        (Or.inl (congrArg Kept.pendingSnapshot kept))
  | saved data term fresh delivered kept =>
    have sentinel : after.log.sentinel = n.log.sentinel := congrArg (fun k => k.log.sentinel) kept
    have whole := Node.Delivers.cut single expects (onward.trans term.le) fresh delivered
    rw [whole, index, cut.term] at kept
    refine ⟨.of_kept onward (by rw [sentinel]) (Or.inr (congrArg Kept.chunkTransfer kept)), nofun, fun other => ?_⟩
    exact Node.Installs.eq (Or.inr (congrArg Kept.snapshot kept)) (Or.inl sentinel)
      (Or.inl (congrArg Kept.pendingSnapshot kept))
  | adopted data term fresh delivered kept =>
    have whole := Node.Delivers.cut single expects (onward.trans term.le) fresh delivered
    rw [whole, index, cut.term] at kept
    have sentinel : after.log.sentinel = ⟨snap.lastIncludedIndex, snap.lastIncludedTerm, []⟩ :=
      (congrArg (fun k => k.log.sentinel) kept).trans (Log.installSnapshotBoundary_sentinel _ _ _)
    have reached : snap.lastIncludedIndex ≤ after.log.sentinel.index := by rw [sentinel]
    refine ⟨.of_kept onward (by omega) (Or.inr (congrArg Kept.chunkTransfer kept)),
      fun _ => ⟨⟨term.ge, Or.inl reached⟩, fun _ => reached⟩, fun other => ?_⟩
    refine Node.Installs.eq (Or.inr (congrArg Kept.snapshot kept)) (Or.inr ?_)
      (Or.inr (congrArg Kept.pendingSnapshot kept))
    rw [Node.boundary, sentinel, show after.snapshotData = snap.data from congrArg Kept.snapshotData kept]

theorem Node.Executes.later {network : List Packet} {node : String} {action : Action}
    (single : Single held)
    (calls : ∀ id src snap args, Packet.request id src (.installSnapshot node snap args) ∈ network →
      n.Expects held snap args)
    (moved : Node.Executes network node action n after) : n.Later held after := by
  have onward := moved.onward.term
  cases moved.alters with
  | still kept | wrote _ kept | saved _ _ _ kept | applied _ _ _ _ kept =>
    exact .of_kept onward (congrArg (fun k => k.log.sentinel.index) kept).ge (Or.inl (congrArg Kept.chunkTransfer kept))
  | compacted _ above _ _ kept =>
    refine .of_kept onward ?_ (Or.inl (congrArg Kept.chunkTransfer kept))
    exact above.le.trans (congrArg (fun k => k.log.sentinel.index) kept).ge
  | installed sent handled => exact (handled.intact single (calls _ _ _ _ sent) onward).1

theorem newNode_later {members : List String} {record : Record} {opts : Options}
    (ok : CoreOk members record n.core) (disk : opts.persister = n.persister) (started : newNode opts = .ok after)
    (onward : n.currentTerm ≤ after.currentTerm) : n.Later held after := by
  obtain ⟨_, kept⟩ := newNode_kept started
  rw [disk] at kept
  refine .of_kept onward ?_ (Or.inr (congrArg Kept.chunkTransfer kept))
  have boundary : after.log.sentinel.index = n.persister.snapshot.elim 0 Snapshot.lastIncludedIndex :=
    congrArg (fun k => k.log.sentinel.index) kept
  rw [boundary]
  cases present : n.persister.snapshot with
  | none => exact (ok.unsaved present).1.le
  | some snap => exact (ok.saved snap present).1

theorem Node.Engaged.mono {wider : Nat → Snapshot → Prop} (more : ∀ term snap, held term snap → wider term snap)
    (engaged : n.Engaged held term snap) : n.Engaged wider term snap := by
  refine ⟨engaged.current, engaged.progress.imp_right fun known transfer present => ?_⟩
  obtain ⟨since, data, atLeast, atMost, started, rest⟩ := known transfer present
  exact ⟨since, data, atLeast, atMost, more _ _ started, rest⟩

end Transfer

namespace Cluster

def LedBy (c : Cluster) (term : Nat) (snap : Snapshot) : Prop :=
  ∃ node ∈ c.members, (c.nodes node).role = .leader ∧ (c.nodes node).currentTerm = term ∧
    (c.nodes node).boundary = snap

structure Ascending (held : Nat → Snapshot → Prop) (record : Record) (c : Cluster) : Prop where
  led : ∀ term snap, held term snap → (record.leader term).isSome
  single : Single held
  latest : ∀ term snap, c.LedBy term snap → ∀ earlier, held term earlier →
    earlier.lastIncludedIndex < snap.lastIncludedIndex ∨ earlier = snap

/-- Every chunk is a piece of a snapshot that the leader of its term held, and whoever has taken one is engaged in
the transfer, or done with it. -/
structure Intact (held : Nat → Snapshot → Prop) (c : Cluster) : Prop where
  chunks : ∀ packet ∈ c.network, ∀ peer snap args, packet.call = .installSnapshot peer snap args →
    (c.nodes peer).Expects held snap args
  replies : ∀ id src peer snap args reply,
    Packet.reply id src (.installSnapshot peer snap args) (.installSnapshot reply) ∈ c.network →
    reply.success = true → (c.nodes peer).Engaged held args.term snap ∧
      (args.final = true → snap.lastIncludedIndex ≤ (c.nodes peer).log.sentinel.index)

section Step

variable {held : Nat → Snapshot → Prop} {record larger : Record} {c after : Cluster} {action : Action}

theorem LedBy.unique (described : Described record c) {term : Nat} {left right : Snapshot} (first : c.LedBy term left)
    (second : c.LedBy term right) : left = right := by
  obtain ⟨node, known, leading, rfl, rfl⟩ := first
  obtain ⟨other, there, leads, term, rfl⟩ := second
  obtain ⟨nodeId, nodeOk⟩ := described.nodes node known
  obtain ⟨otherId, otherOk⟩ := described.nodes other there
  have elected : record.leader (c.nodes node).currentTerm = some (c.nodes node).id := (nodeOk.leader leading).elected
  have again : record.leader (c.nodes other).currentTerm = some (c.nodes other).id := (otherOk.leader leads).elected
  rw [term, elected, nodeId, otherId] at again
  cases again
  rfl

theorem Ascending.next (described : Described record c) (grown : record ≤ larger)
    (describedAfter : Described larger after) (taken : c.step action = some after)
    (ascending : Ascending held record c) {term : Nat} {snap earlier : Snapshot}
    (leads : after.LedBy term snap) (before : held term earlier) :
    earlier.lastIncludedIndex < snap.lastIncludedIndex ∨ earlier = snap := by
  obtain ⟨members, nodes⟩ := step_nodes taken
  obtain ⟨node, known, leading, rfl, rfl⟩ := leads
  obtain ⟨id, ok⟩ := describedAfter.nodes node known
  rw [members] at known
  obtain ⟨idBefore, okBefore⟩ := described.nodes node known
  have elected : larger.leader (after.nodes node).currentTerm = some (after.nodes node).id :=
    (ok.leader leading).elected
  -- Whoever led the term before is the node itself.
  obtain ⟨leader, led⟩ := Option.isSome_iff_exists.mp (ascending.led _ _ before)
  have self : leader = (c.nodes node).id := by
    have same := (grown.leader _ _ led).symm.trans elected
    rw [id, ← idBefore] at same
    exact Option.some.inj same
  rw [self] at led
  obtain ⟨bound, standing⟩ := okBefore.unled _ led
  rcases nodes node with still | moved | ⟨opts, rfl, started⟩
  · rw [still] at leading before ⊢
    exact ascending.latest _ _ ⟨node, known, leading, rfl, rfl⟩ _ before
  · rcases moved.leads leading with ⟨ledBefore, sameTerm⟩ | newer | candidate
    · have reached := ascending.latest _ _ ⟨node, known, ledBefore, sameTerm, rfl⟩ _ before
      rcases moved.boundary with same | up
      · rw [same]
        exact reached
      · rcases reached with below | rfl
        · exact Or.inl (below.trans up)
        · exact Or.inl up
    · exact absurd bound (Nat.not_le_of_lt newer)
    · exact absurd candidate (standing (Nat.le_antisymm bound moved.onward.term))
  · obtain ⟨_, _, core⟩ := newNode_core started
    cases leading.symm.trans (congrArg Core.role core)

theorem Ascending.step (described : Described record c) (grown : record ≤ larger)
    (describedAfter : Described larger after) (taken : c.step action = some after)
    (ascending : Ascending held record c) :
    Ascending (fun term snap => after.LedBy term snap ∨ held term snap) larger after where
  led term snap known := by
    rcases known with ⟨node, there, leading, rfl, rfl⟩ | before
    · have elected : larger.leader (after.nodes node).currentTerm = some (after.nodes node).id :=
        ((describedAfter.nodes node there).2.leader leading).elected
      rw [elected]
      rfl
    · exact grown.elected (ascending.led _ _ before)
  single term left right first second same := by
    rcases first with now | before <;> rcases second with also | earlier
    · exact now.unique describedAfter also
    · rcases ascending.next described grown describedAfter taken now earlier with below | rfl
      · omega
      · rfl
    · rcases ascending.next described grown describedAfter taken also before with below | rfl
      · omega
      · rfl
    · exact ascending.single _ _ _ before earlier same
  latest term snap leads earlier known := by
    rcases known with now | before
    · exact Or.inr (now.unique describedAfter leads)
    · exact ascending.next described grown describedAfter taken leads before

theorem Intact.mono {wider : Nat → Snapshot → Prop} (more : ∀ term snap, held term snap → wider term snap)
    (intact : Intact held c) : Intact wider c where
  chunks packet sent peer snap args call := by
    obtain ⟨known, cut, engaged⟩ := intact.chunks packet sent peer snap args call
    exact ⟨more _ _ known, cut, fun later => (engaged later).mono more⟩
  replies id src peer snap args reply sent success :=
    (intact.replies id src peer snap args reply sent success).imp_left fun engaged => engaged.mono more

theorem Intact.later (single : Single held) (described : Described record c) (taken : c.step action = some after)
    (intact : Intact held c) {node : String} (known : node ∈ c.members) :
    (c.nodes node).Later held (after.nodes node) := by
  have onward := step_term described taken known
  rcases (step_nodes taken).2 node with still | moved | ⟨opts, rfl, started⟩
  · rw [still]
    exact .of_kept (Nat.le_refl _) (Nat.le_refl _) (Or.inl rfl)
  · exact moved.later single fun _ _ snap args sent => intact.chunks _ sent node snap args rfl
  · exact newNode_later (described.nodes node known).2 rfl started onward

theorem Intact.step (single : Single held) (described : Described record c)
    (describedAfter : Described larger after) (taken : c.step action = some after)
    (leading : ∀ term snap, after.LedBy term snap → held term snap) (intact : Intact held c) : Intact held after := by
  have members := (step_nodes taken).1
  have peers : ∀ packet ∈ c.network, ∀ peer snap args, packet.call = .installSnapshot peer snap args →
      peer ∈ c.members := by
    intro packet sent peer snap args call
    have ok := described.packets packet sent
    cases packet with
    | request id src asked =>
      cases call
      exact ok.1
    | reply id src asked answer =>
      cases call
      exact ok.1.1
  have old : ∀ packet ∈ c.network, ∀ peer snap args, packet.call = .installSnapshot peer snap args →
      (after.nodes peer).Expects held snap args := by
    intro packet sent peer snap args call
    obtain ⟨known, cut, engaged⟩ := intact.chunks packet sent peer snap args call
    exact ⟨known, cut, fun further =>
      (engaged further).later (intact.later single described taken (peers packet sent peer snap args call))⟩
  refine ⟨fun packet sent peer snap args call => ?_, fun id src peer snap args reply sent success => ?_⟩
  · cases packet with
    | reply id src asked answer =>
      cases call
      rcases step_replies taken sent with before | ⟨asked, _⟩
      · exact old _ before peer snap args rfl
      · exact old _ asked peer snap args rfl
    | request id src asked =>
      cases call
      have ok : RequestOk after.members larger src (.installSnapshot peer snap args) := describedAfter.packets _ sent
      rcases step_chunks taken sent with before | ⟨leads, term, boundary, sender, cut⟩ |
        ⟨_, earlier, answer, taken', success, _, sender, rfl⟩
      · exact old _ before peer snap args rfl
      · refine ⟨leading _ _ ⟨src, ok.src_known, leads, term, boundary⟩, ?_, fun further => ?_⟩
        · rw [cut]
          exact sender.sendInstallSnapshotArgs_cut _ _ _
        · rw [cut] at further
          exact absurd further (Nat.lt_irrefl 0)
      · refine ⟨(old _ taken' peer snap earlier rfl).1, sender.sendInstallSnapshotArgs_cut _ _ _, fun _ => ?_⟩
        exact (intact.replies _ _ _ _ _ _ taken' success).1.later
          (intact.later single described taken (peers _ taken' peer snap earlier rfl))
  · rcases step_replies taken sent with before | ⟨asked, answer, moved⟩
    · have later := intact.later single described taken (peers _ before peer snap args rfl)
      obtain ⟨engaged, whole⟩ := intact.replies _ _ _ _ _ _ before success
      exact ⟨engaged.later later, fun last => (whole last).trans later.boundary⟩
    · cases answer
      have handled := ((c.nodes peer).handleInstallSnapshot_handled args).intact single
        (intact.chunks _ asked peer snap args rfl) ((c.nodes peer).serve_onward (.installSnapshot peer snap args)).term
      rw [show after.nodes peer = ((c.nodes peer).handleInstallSnapshot args).1 from moved]
      exact handled.2.1 success

end Step

inductive Course : List Cluster → Prop where
  | boot {first : Cluster} (boot : first.Bootstrapped) : Course [first]
  | step {c after : Cluster} {past : List Cluster} (course : Course (c :: past)) (moved : Steps c after) :
    Course (after :: c :: past)

/-- The leader of the term held the snapshot behind its log at some point of the course. -/
def HeldIn (course : List Cluster) (term : Nat) (snap : Snapshot) : Prop := ∃ c ∈ course, c.LedBy term snap

theorem Bootstrapped.heldIn {first : Cluster} (boot : first.Bootstrapped) (term : Nat) (snap : Snapshot) :
    ¬HeldIn [first] term snap := by
  rintro ⟨c, present, node, known, leading, _⟩
  cases List.mem_singleton.mp present
  obtain ⟨opts, _, _, _, _, started⟩ := boot.fresh node known
  obtain ⟨_, _, core⟩ := newNode_core started
  cases leading.symm.trans (congrArg Core.role core)

theorem Course.intact {c : Cluster} {past : List Cluster} (course : Course (c :: past)) :
    ∃ record, Described record c ∧ Ascending (HeldIn (c :: past)) record c ∧ Intact (HeldIn (c :: past)) c := by
  generalize shape : c :: past = run at course
  induction course generalizing c past with
  | boot boot =>
    cases shape
    refine ⟨_, Bootstrapped.described boot, ⟨?_, ?_, ?_⟩, ⟨?_, ?_⟩⟩
    · exact fun term snap held => absurd held (boot.heldIn term snap)
    · exact fun term left _ held => absurd held (boot.heldIn term left)
    · exact fun term _ _ earlier held => absurd held (boot.heldIn term earlier)
    · intro packet sent
      rw [boot.quiet] at sent
      cases sent
    · intro id src peer snap args reply sent
      rw [boot.quiet] at sent
      cases sent
  | @step before after earlier _ moved ih =>
    cases shape
    obtain ⟨record, described, ascending, intact⟩ := ih rfl
    obtain ⟨larger, grown, describedAfter⟩ := step_described record before after described moved
    obtain ⟨action, taken⟩ := moved
    have collected : HeldIn (after :: before :: earlier) =
        fun term snap => after.LedBy term snap ∨ HeldIn (before :: earlier) term snap := by
      funext term snap
      exact propext (List.exists_mem_cons_iff _ _ _)
    have risen := ascending.step described grown describedAfter taken
    rw [collected]
    exact ⟨larger, describedAfter, risen,
      (intact.mono fun _ _ => Or.inr).step risen.single described describedAfter taken fun _ _ => Or.inl⟩

theorem Course.unique {run : List Cluster} (course : Course run) {term : Nat} {left right : Snapshot}
    (first : HeldIn run term left) (second : HeldIn run term right)
    (same : left.lastIncludedIndex = right.lastIncludedIndex) : left = right := by
  cases run with
  | nil => cases course
  | cons c past =>
    obtain ⟨_, _, ascending, _⟩ := course.intact
    exact ascending.single _ _ _ first second same

theorem Runs.course {first c : Cluster} (boot : first.Bootstrapped) (run : Runs first c) :
    ∃ past, Course (c :: past) := by
  induction run with
  | refl => exact ⟨[], .boot boot⟩
  | tail _ moved ih =>
    obtain ⟨past, course⟩ := ih
    exact ⟨_, course.step moved⟩

end Cluster

theorem Node.sendInstallSnapshotReply_raises {n : Node} {peer : String} {snap : Snapshot} {args : InstallSnapshotArgs}
    {reply : InstallSnapshotReply}
    (raised : n.matchIndex peer < (n.sendInstallSnapshotReply peer snap args reply).1.matchIndex peer) :
    reply.success = true ∧ args.final = true ∧
      (n.sendInstallSnapshotReply peer snap args reply).1.matchIndex peer = snap.lastIncludedIndex := by
  unfold Node.sendInstallSnapshotReply at raised ⊢
  split at raised
  · have same : (n.becomeFollower reply.term).1.matchIndex = n.matchIndex := by
      rcases n.becomeFollower_core reply.term with ⟨_, core⟩ | ⟨_, core⟩ <;> exact congrArg Core.matchIndex core
    rw [same] at raised
    exact absurd raised (Nat.lt_irrefl _)
  rename_i known
  split at raised
  · exact absurd raised (Nat.lt_irrefl _)
  rename_i leading
  split at raised
  · exact absurd raised (Nat.lt_irrefl _)
  rename_i taken
  split at raised
  · rename_i last
    rw [if_neg known, if_neg leading, if_neg taken, if_pos last]
    obtain ⟨_, _, _, _, _, committed⟩ := (n.noteProgress peer snap.lastIncludedIndex).maybeAdvanceCommitIndex_frame
    have noted := (n.noteProgress_frame peer snap.lastIncludedIndex).2.2
    have position : (n.noteProgress peer snap.lastIncludedIndex).maybeAdvanceCommitIndex.matchIndex peer =
        max (n.matchIndex peer) snap.lastIncludedIndex := by
      rw [committed, noted, Function.update_self]
    rw [position] at raised ⊢
    exact ⟨by simpa using taken, last, by omega⟩
  · exact absurd raised (Nat.lt_irrefl _)

namespace Cluster

/-- Whatever the order of the chunks and their replies, the snapshot that a request installs is the one its term's
leader held at that boundary, at any time; and a leader learns from a transfer that its peer has reached a boundary
only once the peer's disk has. -/
theorem transfers_intact {c : Cluster} {past : List Cluster} (course : Course (c :: past)) :
    (∀ slot after id src peer snap args found,
      c.network[slot]? = some (.request id src (.installSnapshot peer snap args)) →
      c.step (.deliver slot) = some after → (c.nodes peer).Installs (after.nodes peer) found →
      found.lastIncludedIndex = args.lastIncludedIndex ∧ found.lastIncludedTerm = args.lastIncludedTerm ∧
        HeldIn (c :: past) args.term found ∧
        ∀ future, Course (future ++ c :: past) → ∀ held, HeldIn (future ++ c :: past) args.term held →
          held.lastIncludedIndex = args.lastIncludedIndex → held = found) ∧
    ∀ slot after id src peer snap args reply,
      c.network[slot]? = some (.reply id src (.installSnapshot peer snap args) reply) →
      c.step (.deliver slot) = some after → (c.nodes src).matchIndex peer < (after.nodes src).matchIndex peer →
      (after.nodes src).matchIndex peer = args.lastIncludedIndex ∧
        args.lastIncludedIndex ≤ (c.nodes peer).log.sentinel.index ∧
        ∃ saved, (c.nodes peer).persister.snapshot = some saved ∧
          args.lastIncludedIndex ≤ saved.lastIncludedIndex := by
  obtain ⟨record, described, ascending, intact⟩ := course.intact
  refine ⟨fun slot after id src peer snap args found sent taken installs => ?_,
    fun slot after id src peer snap args reply sent taken raised => ?_⟩
  · have inside := List.mem_of_getElem? sent
    obtain ⟨known, cut, engaged⟩ := intact.chunks _ inside peer snap args rfl
    have served : after.nodes peer = ((c.nodes peer).handleInstallSnapshot args).1 := by
      simp only [step, sent, Option.map_some, Option.some.injEq] at taken
      subst taken
      exact Function.update_self _ _ _
    rw [served] at installs
    obtain rfl := (((c.nodes peer).handleInstallSnapshot_handled args).intact ascending.single ⟨known, cut, engaged⟩
      ((c.nodes peer).serve_onward (.installSnapshot peer snap args)).term).2.2 found installs
    refine ⟨cut.index.symm, cut.term.symm, known, fun future longer held holds same => ?_⟩
    obtain ⟨earlier, there, leads⟩ := known
    exact longer.unique holds ⟨earlier, List.mem_append_right _ there, leads⟩ (same.trans cut.index)
  · have inside := List.mem_of_getElem? sent
    obtain ⟨_, cut, _⟩ := intact.chunks _ inside peer snap args rfl
    have moved : after.nodes src = ((c.nodes src).resume (.installSnapshot peer snap args) reply).1 := by
      simp only [step, sent, Option.map_some, Option.some.injEq] at taken
      subst taken
      exact Function.update_self _ _ _
    rw [moved] at raised ⊢
    cases reply with
    | requestVote reply | appendEntries reply => exact absurd raised (Nat.lt_irrefl _)
    | installSnapshot reply =>
      obtain ⟨success, last, position⟩ := Node.sendInstallSnapshotReply_raises raised
      have reached := (intact.replies _ _ _ _ _ _ inside success).2 last
      have known : peer ∈ c.members := (described.packets _ inside).1.1
      obtain ⟨_, ok⟩ := described.nodes peer known
      have positive : 0 < snap.lastIncludedIndex := position ▸ Nat.zero_lt_of_lt raised
      rw [cut.index]
      refine ⟨position, reached, ?_⟩
      cases present : (c.nodes peer).persister.snapshot with
      | none =>
        have start : (c.nodes peer).log.sentinel.index = 0 := (ok.unsaved present).1
        omega
      | some saved => exact ⟨saved, rfl, reached.trans (ok.saved saved present).1⟩

/-- A leader with a peer that never heard of it sends its snapshot, one byte at a time. -/
def chunkedScript (late : List Action) : List Action :=
  [.tick "a", .deliver 0, .deliver 2, .propose "a" [7], .deliver 5, .deliver 7, .markApplied "a" 1,
    .createSnapshot "a" 1 [4, 5], .tick "a", .deliver 9, .deliver 10] ++ late

def chunked (late : List Action) : Cluster :=
  ((boot ["a", "b", "c"] 1).exec (chunkedScript late)).getD (boot [] 1)

theorem chunked_course {late : List Action}
    (runs : ((boot ["a", "b", "c"] 1).exec (chunkedScript late)).isSome = true) :
    ∃ past, Course (chunked late :: past) := by
  obtain ⟨c, done⟩ := Option.isSome_iff_exists.mp runs
  rw [chunked, done]
  exact (exec_runs done).course (boot_bootstrapped 1 (by decide) (by decide))

def lastChunk : InstallSnapshotArgs := (boot ["a"] 1).nodes "a" |>.sendInstallSnapshotArgs 1 ⟨1, 1, [4, 5]⟩ 1

/-- The peer installs what the leader holds, and the leader learns of it once it is on the peer's disk. -/
theorem transfers_intact_chunked :
    (∃ past, Course (chunked [] :: past) ∧ HeldIn (chunked [] :: past) 1 ⟨1, 1, [4, 5]⟩) ∧
      ∃ saved, ((chunked [.deliver 11]).nodes "c").persister.snapshot = some saved ∧ 1 ≤ saved.lastIncludedIndex := by
  obtain ⟨past, course⟩ := @chunked_course [] (by decide)
  obtain ⟨before, longer⟩ := @chunked_course [.deliver 11] (by decide)
  obtain ⟨installed, taken⟩ := Option.isSome_iff_exists.mp
    (by decide : ((chunked []).step (.deliver 11)).isSome = true)
  obtain ⟨learnt, answered⟩ := Option.isSome_iff_exists.mp
    (by decide : ((chunked [.deliver 11]).step (.deliver 12)).isSome = true)
  have boundary : ((chunked []).step (.deliver 11)).map (fun after => (after.nodes "c").boundary) =
      some ⟨1, 1, [4, 5]⟩ := by decide
  have position : ((chunked [.deliver 11]).step (.deliver 12)).map (fun after => (after.nodes "a").matchIndex "c") =
      some 1 := by decide
  rw [taken, Option.map_some, Option.some.injEq] at boundary
  rw [answered, Option.map_some, Option.some.injEq] at position
  have behind : ((chunked []).nodes "c").log.sentinel.index < 1 := by decide
  have unknown : ((chunked [.deliver 11]).nodes "a").matchIndex "c" < 1 := by decide
  have whole := (transfers_intact course).1 11 installed 8 "a" "c" ⟨1, 1, [4, 5]⟩ lastChunk ⟨1, 1, [4, 5]⟩
    (by decide) taken (Or.inr (Or.inl ⟨boundary, behind⟩))
  have durable := (transfers_intact longer).2 12 learnt 8 "a" "c" ⟨1, 1, [4, 5]⟩ lastChunk
    (.installSnapshot ⟨1, true⟩) (by decide) answered (by rw [position]; exact unknown)
  exact ⟨⟨past, course, whole.2.2.1⟩, durable.2.2⟩

end Cluster

end ForgeDB.Raft
