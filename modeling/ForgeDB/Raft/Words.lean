import ForgeDB.Data.Encoding
import ForgeDB.Raft.Log

/-!
The log as the machine holds it, with indexes and terms in words of 64 bits that wrap around. Cutting a prefix
off such a log is invisible to whoever looks at the cut or above it.
-/

namespace ForgeDB.Raft.Words

structure LogEntry where
  index : UInt64
  term : UInt64
  command : Bytes
  deriving DecidableEq, Repr, Inhabited

structure Log where
  sentinel : LogEntry
  rest : List LogEntry
  deriving DecidableEq, Repr

namespace Log

def entries (l : Log) : List LogEntry := l.sentinel :: l.rest

def lastIndex (l : Log) : UInt64 := l.sentinel.index + UInt64.ofNat l.entries.length - 1

def lastTerm (l : Log) : UInt64 := (l.entries.getLastD l.sentinel).term

def termAt (l : Log) (index : UInt64) : Option UInt64 :=
  let base := l.sentinel.index
  if index < base then none
  else
    let offset := index - base
    l.entries[offset.toNat]?.map LogEntry.term

def entryAt (l : Log) (index : UInt64) : Option LogEntry :=
  let base := l.sentinel.index
  if index ≤ base then none
  else
    let offset := index - base
    l.entries[offset.toNat]?

def append (l : Log) (e : LogEntry) : Log × UInt64 :=
  let index := l.sentinel.index + UInt64.ofNat l.entries.length
  ({ l with rest := l.rest ++ [{ e with index := index }] }, index)

def slice (l : Log) (first : UInt64) : List LogEntry :=
  let base := l.sentinel.index
  let first := if first ≤ base then base + 1 else first
  let offset := first - base
  l.entries.drop offset.toNat

def range (l : Log) (first last : UInt64) : List LogEntry :=
  let base := l.sentinel.index
  let first := if first ≤ base then base + 1 else first
  let lastIdx := l.lastIndex
  let last := if lastIdx < last then lastIdx else last
  if last < first then []
  else
    let firstOff := first - base
    let lastOff := last - base
    (l.entries.drop firstOff.toNat).take (lastOff.toNat + 1 - firstOff.toNat)

def renumber (startIdx : UInt64) (entries : List LogEntry) : List LogEntry :=
  entries.mapIdx fun i e => { e with index := startIdx + UInt64.ofNat i }

def appendFrom (l : Log) (startIdx : UInt64) (entries : List LogEntry) : Log :=
  { l with rest := l.rest ++ renumber startIdx entries }

def truncate (l : Log) (offset : Nat) : Log :=
  { l with rest := l.rest.take (offset - 1) }

def appendAfterFrom (l : Log) (idx : UInt64) : List LogEntry → Log × Bool
  | [] => (l, false)
  | e :: more =>
    let offset := idx - l.sentinel.index
    match l.entries[offset.toNat]? with
    | some own =>
      if own.term = e.term then appendAfterFrom l (idx + 1) more
      else ((l.truncate offset.toNat).appendFrom idx (e :: more), true)
    | none => (l.appendFrom idx (e :: more), true)

def appendAfter (l : Log) (prevIndex : UInt64) (newEntries : List LogEntry) : Log × Bool :=
  l.appendAfterFrom (prevIndex + 1) newEntries

def compact (l : Log) (index : UInt64) : Option Log :=
  match l.termAt index with
  | none => none
  | some term =>
    let offset := index - l.sentinel.index
    some ⟨⟨index, term, []⟩, l.entries.drop (offset.toNat + 1)⟩

def installSnapshotBoundary (l : Log) (lastIncludedIndex lastIncludedTerm : UInt64) : Log :=
  if l.termAt lastIncludedIndex = some lastIncludedTerm then
    let offset := lastIncludedIndex - l.sentinel.index
    ⟨⟨lastIncludedIndex, lastIncludedTerm, []⟩, l.entries.drop (offset.toNat + 1)⟩
  else ⟨⟨lastIncludedIndex, lastIncludedTerm, []⟩, []⟩

end Log

inductive Change where
  | append (e : LogEntry)
  | appendAfter (prevIndex : UInt64) (newEntries : List LogEntry)
  | compact (index : UInt64)
  deriving DecidableEq, Repr

inductive Answer where
  | index (index : UInt64)
  | changed (changed : Bool)
  | compacted
  deriving DecidableEq, Repr

def Change.offered : Change → Nat
  | append _ => 1
  | appendAfter _ newEntries => newEntries.length
  | compact _ => 0

namespace Log

def change (l : Log) : Change → Log × Answer
  | .append e => ((l.append e).1, .index (l.append e).2)
  | .appendAfter prevIndex newEntries =>
    ((l.appendAfter prevIndex newEntries).1, .changed (l.appendAfter prevIndex newEntries).2)
  | .compact index => ((l.compact index).getD l, .compacted)

def run (l : Log) : List Change → Log × List Answer
  | [] => (l, [])
  | change :: more =>
    let next := l.change change
    let last := next.1.run more
    (last.1, next.2 :: last.2)

def Allowed (boundary : UInt64) (l : Log) : List Change → Prop
  | [] => True
  | change :: more =>
    (match change with
      | .appendAfter prevIndex _ => boundary ≤ prevIndex ∧ (l.termAt prevIndex).isSome = true
      | _ => True) ∧
    Allowed boundary (l.change change).1 more

def Fits (l : Log) : List Change → Prop
  | [] => l.entries.length < 2 ^ 63
  | change :: more => l.entries.length < 2 ^ 63 ∧ change.offered < 2 ^ 63 ∧ Fits (l.change change).1 more

structure Agrees (boundary : UInt64) (l other : Log) : Prop where
  lastIndex : l.lastIndex = other.lastIndex
  lastTerm : l.lastTerm = other.lastTerm
  termAt : ∀ index, boundary ≤ index → l.termAt index = other.termAt index
  entryAt : ∀ index, boundary < index → l.entryAt index = other.entryAt index
  slice : ∀ first, boundary < first → l.slice first = other.slice first
  range : ∀ first last, boundary < first → l.range first last = other.range first last

theorem appendAfterFrom_sentinel (l : Log) (idx : UInt64) (newEntries : List LogEntry) :
    (l.appendAfterFrom idx newEntries).1.sentinel = l.sentinel := by
  induction newEntries generalizing idx with
  | nil => rfl
  | cons e more ih =>
    simp only [appendAfterFrom]
    split
    · split
      · exact ih (idx + 1)
      · rfl
    · rfl

theorem appendAfterFrom_same {l : Log} {idx : UInt64} {newEntries : List LogEntry}
    (same : (l.appendAfterFrom idx newEntries).2 = false) : (l.appendAfterFrom idx newEntries).1 = l := by
  induction newEntries generalizing idx with
  | nil => rfl
  | cons e more ih =>
    simp only [appendAfterFrom] at same ⊢
    split at same
    · split at same
      · rename_i agrees
        rw [if_pos agrees]
        exact ih same
      · cases same
    · cases same

/-! ### A log and the same log with a shorter past -/

theorem toNat_succ_sub {index base : UInt64} {offset : Nat} (here : (index - base).toNat = offset)
    (fits : offset + 1 < 2 ^ 64) : (index + 1 - base).toNat = offset + 1 := by
  have moved : index + 1 - base = index - base + 1 := by
    rw [UInt64.sub_eq_add_neg, UInt64.add_assoc, UInt64.add_comm 1, ← UInt64.add_assoc, ← UInt64.sub_eq_add_neg]
  rw [moved, UInt64.toNat_add, here]
  exact Nat.mod_eq_of_lt fits

structure Retains (l small : Log) (cut : Nat) : Prop where
  base : small.sentinel.index.toNat = l.sentinel.index.toNat + cut
  rest : small.rest = l.rest.drop cut
  term : l.entries[cut]?.map LogEntry.term = some small.sentinel.term

namespace Retains

variable {l small : Log} {cut : Nat}

section

variable (retains : Retains l small cut)

include retains

theorem inside : cut ≤ l.rest.length := by
  obtain ⟨entry, present, -⟩ := Option.map_eq_some_iff.mp retains.term
  have bound := (List.getElem?_eq_some_iff.mp present).1
  simp only [entries, List.length_cons] at bound
  omega

theorem getElem?_succ (slot : Nat) : small.entries[slot + 1]? = l.entries[cut + slot + 1]? := by
  simp only [entries, List.getElem?_cons_succ, retains.rest, List.getElem?_drop]

theorem terms (slot : Nat) : small.entries[slot]?.map LogEntry.term = l.entries[cut + slot]?.map LogEntry.term := by
  cases slot with
  | zero => exact retains.term.symm
  | succ slot => rw [retains.getElem?_succ, Nat.add_assoc]

theorem length : small.entries.length + cut = l.entries.length := by
  have inside := retains.inside
  simp only [entries, List.length_cons, retains.rest, List.length_drop]
  omega

theorem index_eq : small.sentinel.index = l.sentinel.index + UInt64.ofNat cut := by
  have small64 := small.sentinel.index.toNat_lt
  have base := retains.base
  apply UInt64.toNat_inj.mp
  rw [UInt64.toNat_add, UInt64.toNat_ofNat', base, Nat.add_mod_mod, Nat.mod_eq_of_lt (by omega)]

end

theorem sentinel_eq (retains : Retains l small 0) : l.sentinel.index = small.sentinel.index :=
  UInt64.toNat_inj.mp (by rw [retains.base, Nat.add_zero])

section

variable (retains : Retains l small cut)

include retains

theorem offset {index : UInt64} (seen : cut = 0 ∨ small.sentinel.index ≤ index) :
    (index - l.sentinel.index).toNat = cut + (index - small.sentinel.index).toNat := by
  have base := retains.base
  rcases seen with rfl | above
  · rw [retains.sentinel_eq, Nat.zero_add]
  have high : small.sentinel.index.toNat ≤ index.toNat := UInt64.le_iff_toNat_le.mp above
  rw [UInt64.toNat_sub_of_le _ _ above,
    UInt64.toNat_sub_of_le _ _ (UInt64.le_iff_toNat_le.mpr (by omega))]
  omega

theorem next :
    l.sentinel.index + UInt64.ofNat l.entries.length = small.sentinel.index + UInt64.ofNat small.entries.length := by
  rw [retains.index_eq, ← retains.length, UInt64.add_assoc, ← UInt64.ofNat_add, Nat.add_comm cut]

theorem lastIndex : l.lastIndex = small.lastIndex := by
  rw [Log.lastIndex, Log.lastIndex, retains.next]

theorem lastTerm : l.lastTerm = small.lastTerm := by
  have final : ∀ log : Log, some log.lastTerm = log.entries[log.entries.length - 1]?.map LogEntry.term := by
    intro log
    have present : log.entries.getLast? = some (log.entries.getLastD log.sentinel) := by
      simp only [entries, List.getLastD_eq_getLast?, List.getLast?_cons, Option.getD_some]
    rw [← List.getLast?_eq_getElem?, present]
    rfl
  have nonempty : 0 < small.entries.length := by
    simp only [entries, List.length_cons]
    omega
  apply Option.some.inj
  rw [final, final, retains.terms, ← retains.length]
  congr 2
  omega

theorem termAt {index : UInt64} (seen : cut = 0 ∨ small.sentinel.index ≤ index) :
    l.termAt index = small.termAt index := by
  by_cases above : small.sentinel.index ≤ index
  · have lower : ¬index < l.sentinel.index := by
      have base := retains.base
      have high : small.sentinel.index.toNat ≤ index.toNat := UInt64.le_iff_toNat_le.mp above
      rw [UInt64.lt_iff_toNat_lt]
      omega
    simp only [Log.termAt, if_neg lower, if_neg (UInt64.not_lt.mpr above)]
    rw [retains.offset (Or.inr above), retains.terms]
  · obtain rfl := seen.resolve_right above
    have below := UInt64.not_le.mp above
    simp only [Log.termAt, retains.sentinel_eq, if_pos below]

theorem entryAt {index : UInt64} (seen : cut = 0 ∨ small.sentinel.index < index) :
    l.entryAt index = small.entryAt index := by
  by_cases above : small.sentinel.index < index
  · have high : small.sentinel.index.toNat < index.toNat := UInt64.lt_iff_toNat_lt.mp above
    have base := retains.base
    have lower : ¬index ≤ l.sentinel.index := by
      rw [UInt64.le_iff_toNat_le]
      omega
    simp only [Log.entryAt, if_neg lower, if_neg (UInt64.not_le.mpr above)]
    rw [retains.offset (Or.inr (UInt64.le_of_lt above))]
    obtain ⟨slot, place⟩ : ∃ slot, (index - small.sentinel.index).toNat = slot + 1 := by
      refine ⟨(index - small.sentinel.index).toNat - 1, ?_⟩
      rw [UInt64.toNat_sub_of_le _ _ (UInt64.le_of_lt above)]
      omega
    rw [place, retains.getElem?_succ, ← Nat.add_assoc]
  · obtain rfl := seen.resolve_right above
    have below := UInt64.not_lt.mp above
    simp only [Log.entryAt, retains.sentinel_eq, if_pos below]

theorem start {first : UInt64} (seen : cut = 0 ∨ small.sentinel.index < first) :
    ∃ start slot, (if first ≤ l.sentinel.index then l.sentinel.index + 1 else first) = start ∧
      (if first ≤ small.sentinel.index then small.sentinel.index + 1 else first) = start ∧
      (start - small.sentinel.index).toNat = slot + 1 ∧ (start - l.sentinel.index).toNat = cut + slot + 1 ∧
      (cut = 0 ∨ small.sentinel.index ≤ start) := by
  by_cases above : small.sentinel.index < first
  · have high : small.sentinel.index.toNat < first.toNat := UInt64.lt_iff_toNat_lt.mp above
    have base := retains.base
    have lower : ¬first ≤ l.sentinel.index := by
      rw [UInt64.le_iff_toNat_le]
      omega
    have place : (first - small.sentinel.index).toNat = first.toNat - small.sentinel.index.toNat - 1 + 1 := by
      rw [UInt64.toNat_sub_of_le _ _ (UInt64.le_of_lt above)]
      omega
    refine ⟨first, _, if_neg lower, if_neg (UInt64.not_le.mpr above), place, ?_, Or.inr (UInt64.le_of_lt above)⟩
    rw [retains.offset (Or.inr (UInt64.le_of_lt above)), place, Nat.add_assoc]
  · obtain rfl := seen.resolve_right above
    have below := UInt64.not_lt.mp above
    rw [retains.sentinel_eq]
    refine ⟨_, 0, if_pos below, if_pos below, ?_, ?_, Or.inl rfl⟩
    · rw [UInt64.add_comm, UInt64.add_sub_cancel]
      rfl
    · rw [UInt64.add_comm, UInt64.add_sub_cancel]
      rfl

theorem drop_succ (slot : Nat) : l.entries.drop (cut + slot + 1) = small.entries.drop (slot + 1) := by
  simp only [entries, List.drop_succ_cons, retains.rest, List.drop_drop]

theorem slice {first : UInt64} (seen : cut = 0 ∨ small.sentinel.index < first) :
    l.slice first = small.slice first := by
  obtain ⟨start, slot, fromLong, fromSmall, short, long, -⟩ := retains.start seen
  simp only [Log.slice, fromLong, fromSmall, short, long, retains.drop_succ]

theorem range {first : UInt64} (seen : cut = 0 ∨ small.sentinel.index < first) (last : UInt64) :
    l.range first last = small.range first last := by
  obtain ⟨start, slot, fromLong, fromSmall, short, long, reach⟩ := retains.start seen
  simp only [Log.range, fromLong, fromSmall, short, long, retains.lastIndex, retains.drop_succ]
  generalize (if small.lastIndex < last then small.lastIndex else last) = stop
  by_cases ordered : stop < start
  · rw [if_pos ordered, if_pos ordered]
  rw [if_neg ordered, if_neg ordered]
  have past : cut = 0 ∨ small.sentinel.index ≤ stop :=
    reach.imp_right fun reach => UInt64.le_trans reach (UInt64.not_lt.mp ordered)
  rw [retains.offset past]
  congr 1
  omega

theorem extend (more : List LogEntry) :
    Retains { l with rest := l.rest ++ more } { small with rest := small.rest ++ more } cut where
  base := retains.base
  rest := by rw [retains.rest, List.drop_append_of_le_length retains.inside]
  term := by
    have inside : cut < l.entries.length := by
      have bound := retains.length
      simp only [entries, List.length_cons] at bound ⊢
      omega
    rw [← retains.term, show Log.entries { l with rest := l.rest ++ more } = l.entries ++ more from rfl,
      List.getElem?_append_left inside]

theorem truncate (slot : Nat) : Retains (l.truncate (cut + slot + 1)) (small.truncate (slot + 1)) cut where
  base := retains.base
  rest := by
    simp only [Log.truncate, Nat.add_sub_cancel, retains.rest, List.drop_take, Nat.add_sub_cancel_left]
  term := by
    have same : (small.truncate (slot + 1)).sentinel.term = small.sentinel.term := rfl
    rw [same, ← retains.term]
    cases cut with
    | zero => rfl
    | succ cut =>
      simp only [Log.truncate, entries, Nat.add_sub_cancel, List.getElem?_cons_succ]
      rw [List.getElem?_take_of_lt (by omega)]

theorem append (e : LogEntry) :
    Retains (l.append e).1 (small.append e).1 cut ∧ (l.append e).2 = (small.append e).2 := by
  refine ⟨?_, retains.next⟩
  simp only [Log.append, retains.next]
  exact retains.extend _

theorem appendAfterFrom (newEntries : List LogEntry) {idx : UInt64} {slot : Nat}
    (short : (idx - small.sentinel.index).toNat = slot + 1) (long : (idx - l.sentinel.index).toNat = cut + slot + 1)
    (room : cut + slot + 1 + newEntries.length < 2 ^ 64) :
    Retains (l.appendAfterFrom idx newEntries).1 (small.appendAfterFrom idx newEntries).1 cut ∧
      (l.appendAfterFrom idx newEntries).2 = (small.appendAfterFrom idx newEntries).2 := by
  induction newEntries generalizing idx slot with
  | nil => exact ⟨retains, rfl⟩
  | cons e more ih =>
    simp only [Log.appendAfterFrom, short, long, retains.getElem?_succ]
    cases l.entries[cut + slot + 1]? with
    | none => exact ⟨retains.extend _, rfl⟩
    | some own =>
      by_cases same : own.term = e.term
      · simp only [if_pos same]
        rw [List.length_cons] at room
        exact ih (toNat_succ_sub short (by omega)) (toNat_succ_sub long (by omega)) (by omega)
      · simp only [if_neg same]
        exact ⟨(retains.truncate slot).extend _, trivial⟩

theorem compact_below {index term : UInt64} (below : index < small.sentinel.index)
    (found : l.termAt index = some term) :
    ∃ less, Retains ⟨⟨index, term, []⟩, l.entries.drop ((index - l.sentinel.index).toNat + 1)⟩ small less ∧
    0 < cut := by
  have low : index.toNat < small.sentinel.index.toNat := UInt64.lt_iff_toNat_lt.mp below
  have base := retains.base
  have above : l.sentinel.index ≤ index := by
    by_contra lower
    simp only [Log.termAt, if_pos (UInt64.not_le.mp lower)] at found
    cases found
  have high : l.sentinel.index.toNat ≤ index.toNat := UInt64.le_iff_toNat_le.mp above
  rw [UInt64.toNat_sub_of_le _ _ above]
  obtain ⟨less, place⟩ : ∃ less, cut = index.toNat - l.sentinel.index.toNat + (less + 1) :=
    ⟨cut - (index.toNat - l.sentinel.index.toNat) - 1, by omega⟩
  refine ⟨less + 1, ⟨by dsimp only; omega, ?_, ?_⟩, by omega⟩
  · simp only [entries, List.drop_succ_cons, List.drop_drop, retains.rest, place]
  · rw [← retains.term, place]
    simp only [entries, List.drop_succ_cons, List.getElem?_cons_succ, List.getElem?_drop, ← Nat.add_assoc]

end

end Retains

def Follows (boundary : UInt64) (l small : Log) : Prop :=
  ∃ cut, Retains l small cut ∧ boundary ≤ small.sentinel.index ∧ (cut = 0 ∨ small.sentinel.index = boundary)

namespace Follows

variable {boundary : UInt64} {l small : Log}

theorem agrees (follows : Follows boundary l small) : Agrees boundary l small := by
  obtain ⟨cut, retains, -, near⟩ := follows
  have reached : ∀ index, boundary ≤ index → cut = 0 ∨ small.sentinel.index ≤ index := by
    intro index seen
    exact near.imp_right fun same => by rwa [same]
  have passed : ∀ index, boundary < index → cut = 0 ∨ small.sentinel.index < index := by
    intro index seen
    exact near.imp_right fun same => by rwa [same]
  exact ⟨retains.lastIndex, retains.lastTerm, fun index seen => retains.termAt (reached index seen),
    fun index seen => retains.entryAt (passed index seen), fun first seen => retains.slice (passed first seen),
    fun first last seen => retains.range (passed first seen) last⟩

theorem compact (follows : Follows boundary l small) (index : UInt64) :
    Follows boundary ((l.compact index).getD l) ((small.compact index).getD small) := by
  obtain ⟨cut, retains, reach, near⟩ := follows
  by_cases above : small.sentinel.index ≤ index
  · -- At or above the shorter log's sentinel the logs agree, and both end at the same boundary.
    have same := retains.termAt (Or.inr above)
    simp only [Log.compact, same]
    cases found : small.termAt index with
    | none => exact ⟨cut, retains, reach, near⟩
    | some term =>
      refine ⟨0, ⟨rfl, ?_, rfl⟩, UInt64.le_trans reach above, Or.inl rfl⟩
      simp only [Option.getD_some, List.drop_zero]
      rw [retains.offset (Or.inr above), retains.drop_succ]
  · have below := UInt64.not_le.mp above
    have absent : small.compact index = none := by
      simp only [Log.compact, Log.termAt, if_pos below]
    rw [absent, Option.getD_none]
    cases found : l.termAt index with
    | none =>
      simp only [Log.compact, found, Option.getD_none]
      exact ⟨cut, retains, reach, near⟩
    | some term =>
      obtain ⟨less, closer, some⟩ := retains.compact_below below found
      simp only [Log.compact, found, Option.getD_some]
      exact ⟨less, closer, reach, Or.inr (near.resolve_left (by omega))⟩

theorem appendAfter (follows : Follows boundary l small) {prevIndex : UInt64} (reached : boundary ≤ prevIndex)
    (present : (l.termAt prevIndex).isSome = true) (newEntries : List LogEntry)
    (room : l.entries.length + newEntries.length < 2 ^ 64) :
    Follows boundary (l.appendAfter prevIndex newEntries).1 (small.appendAfter prevIndex newEntries).1 ∧
      (l.appendAfter prevIndex newEntries).2 = (small.appendAfter prevIndex newEntries).2 := by
  obtain ⟨cut, retains, reach, near⟩ := follows
  have seen : cut = 0 ∨ small.sentinel.index ≤ prevIndex := near.imp_right fun same => by rwa [same]
  have inside : (prevIndex - l.sentinel.index).toNat < l.entries.length := by
    unfold Log.termAt at present
    by_cases below : prevIndex < l.sentinel.index
    · rw [if_pos below] at present
      cases present
    · rw [if_neg below, Option.isSome_map] at present
      obtain ⟨entry, found⟩ := Option.isSome_iff_exists.mp present
      exact (List.getElem?_eq_some_iff.mp found).1
  have place := retains.offset seen
  have short : (prevIndex + 1 - small.sentinel.index).toNat = (prevIndex - small.sentinel.index).toNat + 1 :=
    toNat_succ_sub rfl (by omega)
  obtain ⟨after, same⟩ := retains.appendAfterFrom newEntries short (toNat_succ_sub place (by omega)) (by omega)
  have kept := small.appendAfterFrom_sentinel (prevIndex + 1) newEntries
  refine ⟨⟨cut, after, ?_, ?_⟩, same⟩
  · rwa [Log.appendAfter, kept]
  · rwa [Log.appendAfter, kept]

theorem run (follows : Follows boundary l small) {changes : List Change} (allowed : l.Allowed boundary changes)
    (fits : l.Fits changes) :
    Follows boundary (l.run changes).1 (small.run changes).1 ∧ (l.run changes).2 = (small.run changes).2 := by
  induction changes generalizing l small with
  | nil => exact ⟨follows, rfl⟩
  | cons change more ih =>
    obtain ⟨permitted, allowed⟩ := allowed
    obtain ⟨short, few, fits⟩ := fits
    -- One change keeps the two logs together and is answered alike.
    have step : Follows boundary (l.change change).1 (small.change change).1 ∧
        (l.change change).2 = (small.change change).2 := by
      cases change with
      | append e =>
        obtain ⟨cut, retains, reach, near⟩ := follows
        obtain ⟨after, same⟩ := retains.append e
        exact ⟨⟨cut, after, reach, near⟩, congrArg Answer.index same⟩
      | appendAfter prevIndex newEntries =>
        have room : l.entries.length + newEntries.length < 2 ^ 64 := by
          simp only [Change.offered] at few
          omega
        obtain ⟨after, same⟩ := follows.appendAfter permitted.1 permitted.2 newEntries room
        exact ⟨after, congrArg Answer.changed same⟩
      | compact index => exact ⟨follows.compact index, rfl⟩
    obtain ⟨next, answered⟩ := step
    obtain ⟨last, same⟩ := ih next allowed fits
    exact ⟨last, by rw [Log.run, Log.run, answered, same]⟩

end Follows

theorem follows_of_compact {l small : Log} {boundary : UInt64} (compacted : l.compact boundary = some small) :
    Follows boundary l small := by
  unfold compact at compacted
  cases found : l.termAt boundary with
  | none =>
    rw [found] at compacted
    cases compacted
  | some term =>
    rw [found] at compacted
    cases compacted
    unfold termAt at found
    by_cases below : boundary < l.sentinel.index
    · rw [if_pos below] at found
      cases found
    rw [if_neg below] at found
    have above := UInt64.not_lt.mp below
    have high : l.sentinel.index.toNat ≤ boundary.toNat := UInt64.le_iff_toNat_le.mp above
    refine ⟨_, ⟨?_, rfl, found⟩, UInt64.le_refl _, Or.inr rfl⟩
    rw [UInt64.toNat_sub_of_le _ _ above]
    dsimp only
    omega

/-- Compaction is invisible: whatever is done to a log and to the same log cut at a present index, as long
as replication goes on from present indexes at or above the cut, both answer alike and look alike there. -/
theorem compact_invisible {l : Log} {boundary : UInt64} (present : (l.termAt boundary).isSome = true) :
    ∃ small, l.compact boundary = some small ∧
      ∀ changes, l.Allowed boundary changes → l.Fits changes →
        Agrees boundary (l.run changes).1 (small.run changes).1 ∧ (l.run changes).2 = (small.run changes).2 := by
  obtain ⟨term, found⟩ := Option.isSome_iff_exists.mp present
  have compacted : ∃ small, l.compact boundary = some small := by
    rw [compact, found]
    exact ⟨_, rfl⟩
  obtain ⟨small, compacted⟩ := compacted
  refine ⟨small, compacted, fun changes allowed fits => ?_⟩
  obtain ⟨follows, answered⟩ := (follows_of_compact compacted).run allowed fits
  exact ⟨follows.agrees, answered⟩

/-- Three entries cut at the second, whose last is then replaced from the cut before both logs are cut again. -/
theorem compact_invisible_replaced :
    ∃ small, (⟨⟨0, 0, []⟩, [⟨1, 1, [1]⟩, ⟨2, 1, [2]⟩, ⟨3, 1, [3]⟩]⟩ : Log).compact 2 = some small ∧
      Agrees 2 ((⟨⟨0, 0, []⟩, [⟨1, 1, [1]⟩, ⟨2, 1, [2]⟩, ⟨3, 1, [3]⟩]⟩ : Log).run
        [.appendAfter 2 [⟨0, 2, [4]⟩], .append ⟨0, 2, [5]⟩, .compact 3]).1
        (small.run [.appendAfter 2 [⟨0, 2, [4]⟩], .append ⟨0, 2, [5]⟩, .compact 3]).1 := by
  obtain ⟨small, compacted, alike⟩ := @compact_invisible
    ⟨⟨0, 0, []⟩, [⟨1, 1, [1]⟩, ⟨2, 1, [2]⟩, ⟨3, 1, [3]⟩]⟩ 2 (by decide)
  refine ⟨small, compacted, (alike _ ?_ ?_).1⟩
  · exact ⟨⟨by decide, by decide⟩, trivial, trivial, trivial⟩
  · exact ⟨by decide, by decide, by decide, by decide, by decide, by decide, by unfold Fits; decide⟩

end Log

end ForgeDB.Raft.Words
