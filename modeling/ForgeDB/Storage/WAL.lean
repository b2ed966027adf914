import Mathlib.Data.List.Forall2
import Mathlib.Order.Bounds.Basic
import ForgeDB.Data.Encoding

/-!
The write-ahead log of the key/value store: one file of checked records, written at the file's
position and read back from its start. A record that the file ends in the middle of is cut off; a
whole record that does not check stops the reading.
-/

namespace ForgeDB.Storage

inductive OpType where
  | put
  | delete
  | unknown (code : UInt8) (other : code ∉ [1, 2])
  deriving DecidableEq, Repr

namespace OpType

def code : OpType → UInt8
  | put => 1
  | delete => 2
  | unknown code _ => code

def ofCode (code : UInt8) : OpType :=
  if h : code = 1 then put else if g : code = 2 then delete else unknown code (by simp [h, g])

theorem ofCode_code {type : OpType} (known : type = put ∨ type = delete) : ofCode type.code = type := by
  rcases known with rfl | rfl <;> rfl

end OpType

structure Record where
  type : OpType
  key : Bytes
  value : Bytes
  deriving DecidableEq, Repr

def headerSize : Nat := 4 + 1 + 4 + 4

def maxKeySize : Nat := 2 ^ 20

def maxValueSize : Nat := 2 ^ 26

inductive RecordError where
  | unknownType (code : UInt8)
  | emptyKey
  | keyTooLong (length : Nat)
  | valueTooLong (length : Nat)
  | headerSize (length : Nat)
  | zeroKeyLength
  | keyLength (length : Nat)
  | valueLength (length : Nat)
  deriving DecidableEq, Repr

def RecordError.text : RecordError → String
  | unknownType code => s!"wal: unknown record type {code}"
  | emptyKey => "wal: record key must not be empty"
  | keyTooLong length => s!"wal: key of {length} bytes exceeds maximum of {maxKeySize}"
  | valueTooLong length => s!"wal: value of {length} bytes exceeds maximum of {maxValueSize}"
  | headerSize length => s!"wal: invalid header size {length}"
  | zeroKeyLength => "wal: record key length must not be zero"
  | keyLength length => s!"wal: key length {length} exceeds maximum of {maxKeySize}"
  | valueLength length => s!"wal: value length {length} exceeds maximum of {maxValueSize}"

def recordBody (rec : Record) : Bytes :=
  rec.type.code :: (putUint32 rec.key.length ++ (putUint32 rec.value.length ++ (rec.key ++ rec.value)))

def encodeRecord (rec : Record) : Except RecordError Bytes :=
  if rec.type ≠ .put ∧ rec.type ≠ .delete then .error (.unknownType rec.type.code)
  else if rec.key.length = 0 then .error .emptyKey
  else if maxKeySize < rec.key.length then .error (.keyTooLong rec.key.length)
  else if maxValueSize < rec.value.length then .error (.valueTooLong rec.value.length)
  else .ok (putUint32 (checksum (recordBody rec)).toNat ++ recordBody rec)

structure Header where
  checksum : Nat
  opType : OpType
  keyLen : Nat
  valLen : Nat
  deriving DecidableEq, Repr

def decodeHeader (buf : Bytes) : Except RecordError Header :=
  if buf.length ≠ headerSize then .error (.headerSize buf.length)
  else
    let h : Header :=
      { checksum := uint32 buf
        opType := OpType.ofCode ((buf.drop 4).headD 0)
        keyLen := uint32 (buf.drop 5)
        valLen := uint32 (buf.drop 9) }
    if h.opType ≠ .put ∧ h.opType ≠ .delete then .error (.unknownType h.opType.code)
    else if h.keyLen = 0 then .error .zeroKeyLength
    else if maxKeySize < h.keyLen then .error (.keyLength h.keyLen)
    else if maxValueSize < h.valLen then .error (.valueLength h.valLen)
    else .ok h

structure File where
  content : Bytes
  pos : Nat
  deriving DecidableEq, Repr

namespace File

/-- Bytes are replaced or added at the position; a gap before it reads as zeros. -/
def write (f : File) (data : Bytes) : File :=
  { content := f.content.take f.pos ++ (List.replicate (f.pos - f.content.length) 0 ++
      (data ++ f.content.drop (f.pos + data.length)))
    pos := f.pos + data.length }

def truncate (f : File) (size : Nat) : File := { f with content := f.content.take size }

def seek (f : File) (offset : Nat) : File := { f with pos := offset }

theorem write_end {f : File} (atEnd : f.pos = f.content.length) (data : Bytes) :
    f.write data = ⟨f.content ++ data, f.content.length + data.length⟩ := by
  simp only [write, atEnd, List.take_length, Nat.sub_self, List.replicate_zero, List.nil_append]
  rw [List.drop_eq_nil_of_le (by omega), List.append_nil]

end File

/-- The log's file, how many bytes the coming writes get out before they fail (`none` if they do not
fail), and which of the coming syncs fail. -/
structure WAL where
  f : File
  writes : List (Option Nat)
  syncs : List Bool
  deriving DecidableEq, Repr

/-- `apply` holds the error of the function that takes the records. -/
inductive ReplayError (ε : Type) where
  | invalidHeader (offset : Nat) (error : RecordError)
  | checksumMismatch (offset : Nat)
  | apply (offset : Nat) (error : ε)
  deriving DecidableEq, Repr

def ReplayError.text {ε : Type} (errorText : ε → String) : ReplayError ε → String
  | invalidHeader offset error => s!"wal: invalid header at offset {offset}: {error.text}: wal: corrupt record"
  | checksumMismatch offset => s!"wal: checksum mismatch at offset {offset}: wal: corrupt record"
  | apply offset error => s!"wal: apply record at offset {offset}: " ++ errorText error

variable {σ ε : Type}

/-- The loop of `replay`: the offset of the last whole record, and whether the file goes on after it. -/
def replayFrom (fn : σ → Record → Except ε σ) (rest : Bytes) (offset : Nat) (state : σ) :
    Except (ReplayError ε) (Nat × Bool × σ) :=
  if rest = [] then .ok (offset, false, state)
  else if rest.length < headerSize then .ok (offset, true, state)
  else
    match decodeHeader (rest.take headerSize) with
    | .error error => .error (.invalidHeader offset error)
    | .ok hdr =>
      let payload := (rest.drop headerSize).take (hdr.keyLen + hdr.valLen)
      if payload.length < hdr.keyLen + hdr.valLen then .ok (offset, true, state)
      else if (checksum ((rest.take headerSize).drop 4 ++ payload)).toNat ≠ hdr.checksum then
        .error (.checksumMismatch offset)
      else
        match fn state ⟨hdr.opType, payload.take hdr.keyLen, payload.drop hdr.keyLen⟩ with
        | .error error => .error (.apply offset error)
        | .ok state =>
          replayFrom fn (rest.drop (headerSize + payload.length)) (offset + headerSize + payload.length) state
termination_by rest.length
decreasing_by
  have positive : 0 < rest.length := List.length_pos_iff.mpr ‹¬rest = []›
  simp only [List.length_drop, headerSize]
  omega

namespace WAL

def openFile (content : Bytes) : WAL := ⟨⟨content, 0⟩, [], []⟩

def seekTo (w : WAL) (offset : Nat) : WAL := { w with f := w.f.seek offset }

def truncateTornTail (w : WAL) (offset : Nat) : WAL := { w with f := w.f.truncate offset }.seekTo offset

/-- The records of the file are handed to `fn` in turn, and the file is left ready for the next append. -/
def replay (w : WAL) (fn : σ → Record → Except ε σ) (state : σ) : Except (ReplayError ε) (WAL × σ) :=
  match replayFrom fn w.f.content 0 state with
  | .error error => .error error
  | .ok (offset, torn, state) => .ok (if torn then w.truncateTornTail offset else w.seekTo offset, state)

inductive AppendError where
  | record (error : RecordError)
  | write
  deriving DecidableEq, Repr

/-- A failing write gets out less than the whole record and leaves the position behind what it wrote. -/
def append (w : WAL) (rec : Record) : WAL × Except AppendError Unit :=
  match encodeRecord rec with
  | .error error => (w, .error (.record error))
  | .ok data =>
    match w.writes with
    | some count :: later =>
      ({ w with f := w.f.write (data.take (min count (data.length - 1))), writes := later }, .error .write)
    | later => ({ w with f := w.f.write data, writes := later.tail }, .ok ())

def sync (w : WAL) : WAL × Bool :=
  match w.syncs with
  | true :: later => ({ w with syncs := later }, false)
  | later => ({ w with syncs := later.tail }, true)

end WAL

/-! ### Reading back what was written -/

def recordHeader (rec : Record) : Bytes :=
  putUint32 (checksum (recordBody rec)).toNat ++
    (rec.type.code :: (putUint32 rec.key.length ++ putUint32 rec.value.length))

@[simp] theorem recordHeader_length (rec : Record) : (recordHeader rec).length = headerSize := by
  simp only [recordHeader, List.length_append, putUint32_length, List.length_cons, headerSize]

theorem encodeRecord_ok {rec : Record} {data : Bytes} (encoded : encodeRecord rec = .ok data) :
    (rec.type = .put ∨ rec.type = .delete) ∧ rec.key.length ≠ 0 ∧ rec.key.length ≤ maxKeySize ∧
      rec.value.length ≤ maxValueSize ∧ data = recordHeader rec ++ (rec.key ++ rec.value) := by
  unfold encodeRecord at encoded
  split at encoded
  · cases encoded
  split at encoded
  · cases encoded
  split at encoded
  · cases encoded
  split at encoded
  · cases encoded
  rename_i known named shortKey shortValue
  cases encoded
  refine ⟨?_, named, Nat.le_of_not_lt shortKey, Nat.le_of_not_lt shortValue, ?_⟩
  · by_contra neither
    exact known (not_or.mp neither)
  · simp only [recordHeader, recordBody, List.append_assoc, List.cons_append]

theorem encodeRecord_of_bounds {rec : Record} (known : rec.type = .put ∨ rec.type = .delete)
    (named : rec.key.length ≠ 0) (shortKey : rec.key.length ≤ maxKeySize)
    (shortValue : rec.value.length ≤ maxValueSize) :
    encodeRecord rec = .ok (putUint32 (checksum (recordBody rec)).toNat ++ recordBody rec) := by
  rw [encodeRecord, if_neg (fun neither => known.elim neither.1 neither.2), if_neg named,
    if_neg (Nat.not_lt.mpr shortKey), if_neg (Nat.not_lt.mpr shortValue)]

theorem decodeHeader_recordHeader {rec : Record} (known : rec.type = .put ∨ rec.type = .delete)
    (named : rec.key.length ≠ 0) (shortKey : rec.key.length ≤ maxKeySize)
    (shortValue : rec.value.length ≤ maxValueSize) :
    decodeHeader (recordHeader rec) =
      .ok ⟨(checksum (recordBody rec)).toNat, rec.type, rec.key.length, rec.value.length⟩ := by
  have sum : uint32 (recordHeader rec) = (checksum (recordBody rec)).toNat := uint32_put (UInt32.toNat_lt _) _
  have code : (recordHeader rec).drop 4 = rec.type.code :: (putUint32 rec.key.length ++ putUint32 rec.value.length) :=
    drop_putUint32 _ _
  have lengths : (recordHeader rec).drop 5 = putUint32 rec.key.length ++ putUint32 rec.value.length := by
    rw [show 5 = 4 + 1 from rfl, ← List.drop_drop, code, List.drop_one, List.tail_cons]
  have keyLen : uint32 ((recordHeader rec).drop 5) = rec.key.length := by
    rw [lengths]
    exact uint32_put (lt_of_le_of_lt shortKey (by decide)) _
  have valLen : uint32 ((recordHeader rec).drop 9) = rec.value.length := by
    rw [show 9 = 5 + 4 from rfl, ← List.drop_drop, lengths, drop_putUint32, ← List.append_nil (putUint32 _)]
    exact uint32_put (lt_of_le_of_lt shortValue (by decide)) _
  have type : OpType.ofCode (((recordHeader rec).drop 4).headD 0) = rec.type := by
    rw [code, List.headD_cons, OpType.ofCode_code known]
  have neither : ¬(rec.type ≠ .put ∧ rec.type ≠ .delete) := fun both => known.elim both.1 both.2
  simp only [decodeHeader, recordHeader_length, sum, keyLen, valLen, type]
  rw [if_neg (not_not.mpr rfl), if_neg neither, if_neg named, if_neg (Nat.not_lt.mpr shortKey),
    if_neg (Nat.not_lt.mpr shortValue)]

theorem replayFrom_record {rec : Record} {data : Bytes} (encoded : encodeRecord rec = .ok data)
    (fn : σ → Record → Except ε σ) (more : Bytes) (offset : Nat) (state : σ) :
    replayFrom fn (data ++ more) offset state =
      match fn state rec with
      | .error error => .error (.apply offset error)
      | .ok state => replayFrom fn more (offset + data.length) state := by
  obtain ⟨known, named, shortKey, shortValue, rfl⟩ := encodeRecord_ok encoded
  have header : ((recordHeader rec ++ (rec.key ++ rec.value)) ++ more).take headerSize = recordHeader rec := by
    rw [List.append_assoc]
    exact List.take_left' (recordHeader_length rec)
  have payload : (((recordHeader rec ++ (rec.key ++ rec.value)) ++ more).drop headerSize).take
      (rec.key.length + rec.value.length) = rec.key ++ rec.value := by
    rw [List.append_assoc, List.drop_left' (recordHeader_length rec)]
    exact List.take_left' List.length_append
  have body : (recordHeader rec).drop 4 ++ (rec.key ++ rec.value) = recordBody rec := by
    rw [recordHeader, drop_putUint32]
    simp only [recordBody, List.cons_append, List.append_assoc]
  have length : (recordHeader rec ++ (rec.key ++ rec.value)).length =
      headerSize + (rec.key ++ rec.value).length := by
    rw [List.length_append, recordHeader_length]
  have after : ((recordHeader rec ++ (rec.key ++ rec.value)) ++ more).drop
      (headerSize + (rec.key ++ rec.value).length) = more := List.drop_left' length
  have whole : ((recordHeader rec ++ (rec.key ++ rec.value)) ++ more).length =
      headerSize + (rec.key ++ rec.value).length + more.length := by
    rw [List.length_append, length]
  rw [replayFrom, if_neg (List.ne_nil_of_length_pos (by rw [whole, headerSize]; omega)),
    if_neg (by rw [whole]; omega)]
  simp only [header, decodeHeader_recordHeader known named shortKey shortValue, payload, body, after]
  rw [if_neg (by rw [List.length_append]; omega), if_neg (not_not.mpr rfl), List.take_left, List.drop_left, length,
    Nat.add_assoc]

theorem replayFrom_torn {rec : Record} {data : Bytes} (encoded : encodeRecord rec = .ok data)
    (fn : σ → Record → Except ε σ) {count : Nat} (short : count < data.length) (offset : Nat) (state : σ) :
    replayFrom fn (data.take count) offset state = .ok (offset, decide (count ≠ 0), state) := by
  obtain ⟨known, named, shortKey, shortValue, rfl⟩ := encodeRecord_ok encoded
  have length : ((recordHeader rec ++ (rec.key ++ rec.value)).take count).length = count := by
    rw [List.length_take]
    omega
  rcases Nat.eq_zero_or_pos count with rfl | some
  · rw [replayFrom, List.take_zero, if_pos rfl]
    rfl
  rw [decide_eq_true (Nat.ne_of_gt some), replayFrom, if_neg (List.ne_nil_of_length_pos (by omega)), length]
  by_cases inHeader : count < headerSize
  · rw [if_pos inHeader]
  have header : ((recordHeader rec ++ (rec.key ++ rec.value)).take count).take headerSize = recordHeader rec := by
    rw [List.take_take, Nat.min_eq_left (Nat.le_of_not_lt inHeader)]
    exact List.take_left' (recordHeader_length rec)
  rw [if_neg inHeader]
  simp only [header, decodeHeader_recordHeader known named shortKey shortValue]
  rw [if_pos]
  simp only [List.length_append, recordHeader_length] at short
  rw [List.length_take, List.length_drop, length]
  omega

def Encodes (records : List Record) (encodings : List Bytes) : Prop :=
  List.Forall₂ (fun rec data => encodeRecord rec = .ok data) records encodings

def Fits (encodings : List Bytes) (size count : Nat) : Prop :=
  count ≤ encodings.length ∧ (encodings.take count).flatten.length ≤ size

theorem replayFrom_cut {records : List Record} {encodings : List Bytes} (valid : Encodes records encodings)
    {fn : σ → Record → Except ε σ} {visit : σ → Record → σ}
    (accepts : ∀ rec ∈ records, ∀ state, fn state rec = .ok (visit state rec)) {size : Nat}
    (within : size ≤ encodings.flatten.length) (offset : Nat) (state : σ) :
    ∃ j, IsGreatest (Fits encodings size) j ∧ replayFrom fn (encodings.flatten.take size) offset state =
      .ok (offset + (encodings.take j).flatten.length, decide (size ≠ (encodings.take j).flatten.length),
        (records.take j).foldl visit state) := by
  induction valid generalizing size offset state with
  | nil =>
    refine ⟨0, ⟨⟨Nat.le_refl 0, Nat.zero_le size⟩, fun count fits => fits.1⟩, ?_⟩
    obtain rfl : size = 0 := Nat.le_zero.mp within
    rw [replayFrom]
    rfl
  | @cons rec data records encodings encoded valid ih =>
    rw [List.flatten_cons, List.length_append] at within
    have later : ∀ rec ∈ records, ∀ state, fn state rec = .ok (visit state rec) :=
      fun rec present => accepts rec (List.mem_cons_of_mem _ present)
    by_cases whole : data.length ≤ size
    · obtain ⟨j, ⟨⟨inside, fits⟩, greatest⟩, read⟩ := ih later (show size - data.length ≤ _ by omega)
        (offset + data.length) (visit state rec)
      refine ⟨j + 1, ⟨⟨Nat.succ_le_succ inside, ?_⟩, ?_⟩, ?_⟩
      · rw [List.take_succ_cons, List.flatten_cons, List.length_append]
        omega
      · intro count fitting
        cases count with
        | zero => exact Nat.zero_le _
        | succ count =>
          obtain ⟨bound, short⟩ := fitting
          rw [List.take_succ_cons, List.flatten_cons, List.length_append] at short
          exact Nat.succ_le_succ (greatest ⟨Nat.le_of_succ_le_succ bound, by omega⟩)
      · have split : (data :: encodings).flatten.take size = data ++ encodings.flatten.take (size - data.length) := by
          rw [List.flatten_cons, List.take_append, List.take_of_length_le whole]
        have rest : decide (size - data.length ≠ (encodings.take j).flatten.length) =
            decide (size ≠ data.length + (encodings.take j).flatten.length) := by
          rw [decide_eq_decide]
          omega
        rw [split, replayFrom_record encoded, accepts rec List.mem_cons_self]
        simp only [read, rest, List.take_succ_cons, List.flatten_cons, List.length_append, List.foldl_cons,
          Nat.add_assoc]
    · refine ⟨0, ⟨⟨Nat.zero_le _, Nat.zero_le _⟩, ?_⟩, ?_⟩
      · intro count fitting
        cases count with
        | zero => exact Nat.le_refl 0
        | succ count =>
          have short := fitting.2
          rw [List.take_succ_cons, List.flatten_cons, List.length_append] at short
          omega
      · have cut : (data :: encodings).flatten.take size = data.take size := by
          rw [List.flatten_cons, List.take_append_of_le_length (by omega)]
        rw [cut, replayFrom_torn encoded _ (Nat.lt_of_not_le whole)]
        rfl

namespace WAL

/-- `replay` of a log that was cut anywhere keeps exactly the whole records and stands at their end. -/
theorem replay_cut {records : List Record} {encodings : List Bytes} (valid : Encodes records encodings) {size : Nat}
    (within : size ≤ encodings.flatten.length) {w : WAL} (content : w.f.content = encodings.flatten.take size) :
    ∃ j, IsGreatest (Fits encodings size) j ∧
      ∀ (σ ε : Type) (fn : σ → Record → Except ε σ) (visit : σ → Record → σ) (state : σ),
      (∀ rec ∈ records, ∀ state, fn state rec = .ok (visit state rec)) →
      w.replay fn state =
        .ok ({ w with f := ⟨(encodings.take j).flatten, (encodings.take j).flatten.length⟩ },
          (records.take j).foldl visit state) := by
  obtain ⟨j, greatest, _⟩ := @replayFrom_cut Unit Unit records encodings valid (fun _ _ => .ok ()) (fun _ _ => ())
    (fun _ _ _ => rfl) size within 0 ()
  refine ⟨j, greatest, fun σ ε fn visit state accepts => ?_⟩
  obtain ⟨j', greatest', read⟩ := replayFrom_cut valid accepts within 0 state
  obtain rfl : j = j' := greatest.unique greatest'
  have start : (encodings.take j).flatten <+: encodings.flatten := by
    conv_rhs => rw [← List.take_append_drop j encodings, List.flatten_append]
    exact List.prefix_append _ _
  have kept : w.f.content.take (encodings.take j).flatten.length = (encodings.take j).flatten := by
    rw [content, List.take_take, Nat.min_eq_left greatest.1.2]
    exact (List.prefix_iff_eq_take.mp start).symm
  simp only [replay, content, read, Nat.zero_add]
  split
  · simp only [truncateTornTail, seekTo, File.truncate, File.seek, kept]
  · rename_i clean
    have same : size = (encodings.take j).flatten.length := by
      simpa only [decide_eq_true_eq, not_not] using clean
    have shape : w.f.content = (encodings.take j).flatten := by
      rw [← kept, ← same, content, List.take_take, Nat.min_self]
    simp only [seekTo, File.seek, shape]

theorem replay_whole {records : List Record} {encodings : List Bytes} (valid : Encodes records encodings) {w : WAL}
    (content : w.f.content = encodings.flatten) {fn : σ → Record → Except ε σ} {visit : σ → Record → σ}
    (accepts : ∀ rec ∈ records, ∀ state, fn state rec = .ok (visit state rec)) (state : σ) :
    w.replay fn state =
      .ok ({ w with f := ⟨encodings.flatten, encodings.flatten.length⟩ }, records.foldl visit state) := by
  obtain ⟨j, ⟨⟨inside, _⟩, greatest⟩, read⟩ := @replay_cut records encodings valid encodings.flatten.length
    (Nat.le_refl _) w (by rw [content, List.take_length])
  have all : encodings.length ≤ j := greatest ⟨Nat.le_refl _, by rw [List.take_length]⟩
  have count : records.length = encodings.length := List.Forall₂.length_eq valid
  rw [read _ _ _ _ state accepts, List.take_of_length_le all, List.take_of_length_le (by omega)]

theorem append_ok {w : WAL} {rec : Record} (done : (w.append rec).2 = .ok ()) :
    ∃ data, encodeRecord rec = .ok data ∧ (w.append rec).1.f = w.f.write data := by
  cases encoded : encodeRecord rec with
  | error error =>
    simp only [append, encoded] at done
    cases done
  | ok data =>
    refine ⟨data, rfl, ?_⟩
    rcases planned : w.writes with _ | ⟨_ | count, later⟩ <;> simp only [append, encoded, planned] at done ⊢
    cases done

/-- A log of valid records, cut after any number of bytes: `replay` hands over exactly the records whose
encodings fit, in order, and succeeds; the file then holds exactly these; and a record appended next is
read back after them. -/
theorem replay_torn {records : List Record} {encodings : List Bytes} (valid : Encodes records encodings) {size : Nat}
    (within : size ≤ encodings.flatten.length) {w : WAL} (content : w.f.content = encodings.flatten.take size) :
    ∃ j after, IsGreatest (Fits encodings size) j ∧ after.f.content = (encodings.take j).flatten ∧
      (∀ (σ ε : Type) (visit : σ → Record → σ) (state : σ),
        w.replay (fun state rec => (.ok (visit state rec) : Except ε σ)) state =
          .ok (after, (records.take j).foldl visit state)) ∧
      (w.writes = [] → ∀ rec data, encodeRecord rec = .ok data → (after.append rec).2 = .ok ()) ∧
      ∀ rec, (after.append rec).2 = .ok () → ∀ (σ ε : Type) (visit : σ → Record → σ) (state : σ), ∃ last,
        (after.append rec).1.replay (fun state rec => (.ok (visit state rec) : Except ε σ)) state =
          .ok (last, (records.take j ++ [rec]).foldl visit state) := by
  obtain ⟨j, greatest, read⟩ := replay_cut valid within content
  refine ⟨j, _, greatest, rfl, fun σ ε visit state => read σ ε _ visit state (fun _ _ _ => rfl),
    fun unfailing rec data encoded => ?_, fun rec done σ ε visit state => ?_⟩
  · simp only [append, encoded, unfailing]
  · obtain ⟨data, encoded, written⟩ := append_ok done
    rw [File.write_end rfl] at written
    have longer : Encodes (records.take j ++ [rec]) (encodings.take j ++ [data]) :=
      List.rel_append (List.forall₂_take j valid) (.cons encoded .nil)
    have flat : (encodings.take j ++ [data]).flatten = (encodings.take j).flatten ++ data := by
      rw [List.flatten_append, List.flatten_singleton]
    exact ⟨_, replay_whole longer ((congrArg File.content written).trans flat.symm) (fun _ _ _ => rfl) state⟩

theorem replay_torn_header :
    ∃ first second, encodeRecord ⟨.put, [1], [2]⟩ = .ok first ∧ encodeRecord ⟨.delete, [1], []⟩ = .ok second ∧
      ∃ j after, IsGreatest (Fits [first, second] 20) j ∧ after.f.content = ([first, second].take j).flatten ∧
        (WAL.openFile ((first ++ second).take 20)).replay (fun seen rec => (.ok (seen ++ [rec]) : Except Unit _)) [] =
          .ok (after, ([⟨.put, [1], [2]⟩, ⟨.delete, [1], []⟩] : List Record).take j |>.foldl (· ++ [·]) []) := by
  refine ⟨_, _, rfl, rfl, ?_⟩
  obtain ⟨j, after, greatest, content, read, _⟩ := @replay_torn [⟨.put, [1], [2]⟩, ⟨.delete, [1], []⟩] _
    (.cons rfl (.cons rfl .nil)) 20 (by decide) (.openFile _) rfl
  exact ⟨j, after, greatest, content, read _ _ (fun seen rec => seen ++ [rec]) []⟩

end WAL

end ForgeDB.Storage
