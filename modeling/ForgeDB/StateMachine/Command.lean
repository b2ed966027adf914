import ForgeDB.Data.Cursor

/-!
Client commands and the bytes they travel as. A command is a write or a delete on behalf of one
numbered request of one client.
-/

namespace ForgeDB.StateMachine

inductive Op where
  | put
  | delete
  | unknown (code : UInt8) (other : code ≠ 1 ∧ code ≠ 2)
  deriving DecidableEq, Repr

namespace Op

def code : Op → UInt8
  | put => 1
  | delete => 2
  | unknown code _ => code

def ofCode (code : UInt8) : Op :=
  if h : code = 1 then put else if g : code = 2 then delete else unknown code ⟨h, g⟩

def string : Op → String
  | put => "Put"
  | delete => "Delete"
  | unknown code _ => s!"Op({code})"

end Op

structure Command where
  clientID : Bytes
  requestID : UInt64
  op : Op
  key : Bytes
  value : Bytes
  deriving DecidableEq, Repr

def newPutCommand (clientID : Bytes) (requestID : UInt64) (key value : Bytes) : Command :=
  ⟨clientID, requestID, .put, key, value⟩

def newDeleteCommand (clientID : Bytes) (requestID : UInt64) (key : Bytes) : Command :=
  ⟨clientID, requestID, .delete, key, []⟩

inductive CommandError where
  | unknownOp (op : Op)
  | clientIDTooLong (length : Nat)
  | keyTooLong (length : Nat)
  | valueTooLong (length : Nat)
  | truncatedHeader (length : Nat)
  | unknownOpCode (code : UInt8)
  | badClientID
  | badKey
  | badValue
  deriving DecidableEq, Repr

def maxClientIDLen : Nat := 4096

def maxKeyLen : Nat := 2 ^ 20

def maxValueLen : Nat := 2 ^ 20

def CommandError.text (error : CommandError) : String :=
  let reason := match error with
    | unknownOp op => let name := op.string; s!"unknown op {name}"
    | clientIDTooLong length => s!"client id of {length} bytes exceeds maximum of {maxClientIDLen}"
    | keyTooLong length => s!"key of {length} bytes exceeds maximum of {maxKeyLen}"
    | valueTooLong length => s!"value of {length} bytes exceeds maximum of {maxValueLen}"
    | truncatedHeader length => s!"truncated command header ({length} bytes)"
    | unknownOpCode code => s!"unknown op {code}"
    | badClientID => "truncated or oversized client id"
    | badKey => "truncated or oversized key"
    | badValue => "truncated, oversized, or trailing bytes after value"
  s!"statemachine: {reason}: statemachine: invalid command"

def commandHeaderLen : Nat := 1 + 4 + 8 + 4 + 4

namespace Command

def encode (c : Command) : Except CommandError Bytes :=
  if c.op ≠ .put ∧ c.op ≠ .delete then .error (.unknownOp c.op)
  else if maxClientIDLen < c.clientID.length then .error (.clientIDTooLong c.clientID.length)
  else if maxKeyLen < c.key.length then .error (.keyTooLong c.key.length)
  else if maxValueLen < c.value.length then .error (.valueTooLong c.value.length)
  else .ok (c.op.code :: (putBytes c.clientID ++ (putUint64 c.requestID ++ (putBytes c.key ++ putBytes c.value))))

end Command

def decodeCommand (raw : Bytes) : Except CommandError Command :=
  if raw.length < commandHeaderLen then .error (.truncatedHeader raw.length)
  else
    let op := Op.ofCode (raw.headD 0)
    if op ≠ .put ∧ op ≠ .delete then .error (.unknownOpCode (raw.headD 0))
    else
      let data := raw.drop 1
      let clientIDLen := uint32 data
      let data := data.drop 4
      if maxClientIDLen < clientIDLen ∨ data.length < clientIDLen + 8 + 4 then .error .badClientID
      else
        let clientID := data.take clientIDLen
        let data := data.drop clientIDLen
        let requestID := uint64 data
        let data := data.drop 8
        let keyLen := uint32 data
        let data := data.drop 4
        if maxKeyLen < keyLen ∨ data.length < keyLen + 4 then .error .badKey
        else
          let key := data.take keyLen
          let data := data.drop keyLen
          let valueLen := uint32 data
          let data := data.drop 4
          if maxValueLen < valueLen ∨ data.length ≠ valueLen then .error .badValue
          else .ok ⟨clientID, requestID, op, key, data.take valueLen⟩

theorem decodeCommand_encode {c : Command} {raw : Bytes} (encoded : c.encode = .ok raw) :
    decodeCommand raw = .ok c := by
  obtain ⟨clientID, requestID, op, key, value⟩ := c
  unfold Command.encode at encoded
  split at encoded
  · cases encoded
  split at encoded
  · cases encoded
  split at encoded
  · cases encoded
  split at encoded
  · cases encoded
  rename_i known shortID shortKey shortValue
  cases encoded
  simp only [not_lt] at shortID shortKey shortValue
  simp only [maxClientIDLen] at shortID
  simp only [maxKeyLen] at shortKey
  simp only [maxValueLen] at shortValue
  have sameOp : Op.ofCode op.code = op := by
    cases op with
    | put => rfl
    | delete => rfl
    | unknown code => exact absurd ⟨by simp, by simp⟩ known
  have long : ¬ (op.code :: (putBytes clientID ++ (putUint64 requestID ++ (putBytes key ++ putBytes value)))).length <
      commandHeaderLen := by
    simp only [commandHeaderLen, List.length_cons, List.length_append, putBytes_length, putUint64_length]
    omega
  rw [decodeCommand, if_neg long]
  simp only [List.headD_cons, sameOp, known, if_false, List.drop_succ_cons, List.drop_zero, putBytes,
    List.append_assoc, drop_putUint32, drop_putUint64, uint64_put, List.take_left, List.drop_left,
    uint32_put (show clientID.length < 2 ^ 32 by omega), uint32_put (show key.length < 2 ^ 32 by omega),
    uint32_put (show value.length < 2 ^ 32 by omega)]
  rw [if_neg (by simp only [maxClientIDLen, List.length_append, putUint64_length, putUint32_length]; omega),
    if_neg (by simp only [maxKeyLen, List.length_append, putUint32_length]; omega),
    if_neg (by simp only [maxValueLen, ne_eq, not_true_eq_false, or_false]; omega), List.take_length]

/-! ### The decoder access by access -/

open Cursor in
/-- `DecodeCommand` with every index into the bytes checked, in the order the accesses are made. -/
def readCommand : Cursor CommandError Command := do
  let size ← left
  refuse (size < commandHeaderLen) (.truncatedHeader size)
  let code ← byte
  let op := Op.ofCode code
  refuse (op ≠ .put ∧ op ≠ .delete) (.unknownOpCode code)
  let clientIDLen ← u32
  let size ← left
  refuse (maxClientIDLen < clientIDLen ∨ size < clientIDLen + 8 + 4) .badClientID
  let clientID ← bytes clientIDLen
  let requestID ← u64
  let keyLen ← u32
  let size ← left
  refuse (maxKeyLen < keyLen ∨ size < keyLen + 4) .badKey
  let key ← bytes keyLen
  let valueLen ← u32
  let size ← left
  refuse (maxValueLen < valueLen ∨ size ≠ valueLen) .badValue
  let value ← bytes valueLen
  pure ⟨clientID, requestID, op, key, value⟩

theorem Op.code_ofCode (code : UInt8) : (Op.ofCode code).code = code := by
  unfold Op.ofCode
  split
  · rename_i same
    exact same.symm
  · split
    · rename_i same
      exact same.symm
    · rfl

theorem readCommand_ends (raw : Bytes) :
    readCommand.Ends raw (fun c _ => c.encode = .ok raw) (fun _ => True) := by
  refine Cursor.Ends.bind (Cursor.Ends.left ?_)
  refine Cursor.Ends.bind (Cursor.Ends.refuse (fun _ => trivial) fun long => ?_)
  simp only [commandHeaderLen] at long
  refine Cursor.Ends.bind (Cursor.Ends.byte (by omega) ?_)
  rintro code afterOp rfl
  refine Cursor.Ends.bind (Cursor.Ends.refuse (fun _ => trivial) fun known => ?_)
  simp only [List.length_cons] at long
  refine Cursor.Ends.bind (Cursor.Ends.u32 (by omega) ?_)
  rintro clientIDLen afterLen rfl -
  refine Cursor.Ends.bind (Cursor.Ends.left (Cursor.Ends.bind (Cursor.Ends.refuse (fun _ => trivial) fun fits => ?_)))
  rw [not_or, Nat.not_lt, Nat.not_lt] at fits
  refine Cursor.Ends.bind (Cursor.Ends.bytes (by omega) ?_)
  rintro clientID afterID rfl rfl
  rw [List.length_append] at fits
  refine Cursor.Ends.bind (Cursor.Ends.u64 (by omega) ?_)
  rintro requestID afterRequest rfl
  rw [List.length_append, putUint64_length] at fits
  refine Cursor.Ends.bind (Cursor.Ends.u32 (by omega) ?_)
  rintro keyLen afterKeyLen rfl -
  refine Cursor.Ends.bind
    (Cursor.Ends.left (Cursor.Ends.bind (Cursor.Ends.refuse (fun _ => trivial) fun keyFits => ?_)))
  rw [not_or, Nat.not_lt, Nat.not_lt] at keyFits
  refine Cursor.Ends.bind (Cursor.Ends.bytes (by omega) ?_)
  rintro key afterKey rfl rfl
  rw [List.length_append] at keyFits
  refine Cursor.Ends.bind (Cursor.Ends.u32 (by omega) ?_)
  rintro valueLen afterValueLen rfl -
  refine Cursor.Ends.bind
    (Cursor.Ends.left (Cursor.Ends.bind (Cursor.Ends.refuse (fun _ => trivial) fun valueFits => ?_)))
  rw [not_or, Nat.not_lt, not_not] at valueFits
  obtain ⟨shortValue, rfl⟩ := valueFits
  refine Cursor.Ends.bind (Cursor.Ends.bytes (Nat.le_refl _) fun value rest same all => Cursor.Ends.pure ?_)
  have spent : rest = [] := by
    have lengths := congrArg List.length same
    rw [List.length_append, all] at lengths
    exact List.eq_nil_of_length_eq_zero (by omega)
  subst spent
  rw [List.append_nil] at same
  subst same
  rw [Command.encode, if_neg known, if_neg (Nat.not_lt.mpr fits.1), if_neg (Nat.not_lt.mpr keyFits.1),
    if_neg (Nat.not_lt.mpr shortValue)]
  simp only [Op.code_ofCode, putBytes, List.append_assoc]

theorem readCommand_run (raw : Bytes) : readCommand.run raw = some (decodeCommand raw) := by
  unfold decodeCommand
  by_cases short : raw.length < commandHeaderLen
  · simp only [Cursor.run, readCommand, Cursor.bind_apply, Cursor.left, Cursor.refuse, if_pos short, Reading.result]
  cases raw with
  | nil => exact absurd (by decide) short
  | cons code data =>
    simp only [Cursor.run, readCommand, Cursor.bind_apply, Cursor.left, Cursor.refuse, if_neg short, Cursor.byte,
      Cursor.u32, Cursor.u64, Cursor.bytes, Cursor.pure_apply, List.headD_cons, List.drop_succ_cons, List.drop_zero]
    simp only [commandHeaderLen, List.length_cons] at short
    by_cases unknown : Op.ofCode code ≠ .put ∧ Op.ofCode code ≠ .delete
    · simp only [if_pos unknown, Reading.result]
    simp only [if_neg unknown, if_neg (show ¬data.length < 4 by omega)]
    generalize data.drop 4 = afterLen, uint32 data = clientIDLen
    by_cases badID : maxClientIDLen < clientIDLen ∨ afterLen.length < clientIDLen + 8 + 4
    · simp only [if_pos badID, Reading.result]
    have fits := (not_or.mp badID).2
    have request : ¬(afterLen.drop clientIDLen).length < 8 := by
      rw [List.length_drop]
      omega
    have length : ¬((afterLen.drop clientIDLen).drop 8).length < 4 := by
      simp only [List.length_drop]
      omega
    simp only [if_neg badID, if_neg (show ¬afterLen.length < clientIDLen by omega), if_neg request, if_neg length]
    generalize ((afterLen.drop clientIDLen).drop 8).drop 4 = afterKeyLen,
      uint32 ((afterLen.drop clientIDLen).drop 8) = keyLen
    by_cases badKey : maxKeyLen < keyLen ∨ afterKeyLen.length < keyLen + 4
    · simp only [if_pos badKey, Reading.result]
    have keyFits := (not_or.mp badKey).2
    have length : ¬(afterKeyLen.drop keyLen).length < 4 := by
      rw [List.length_drop]
      omega
    simp only [if_neg badKey, if_neg (show ¬afterKeyLen.length < keyLen by omega), if_neg length]
    generalize (afterKeyLen.drop keyLen).drop 4 = last, uint32 (afterKeyLen.drop keyLen) = valueLen
    by_cases badValue : maxValueLen < valueLen ∨ last.length ≠ valueLen
    · simp only [if_pos badValue, Reading.result]
    have valueFits := (not_or.mp badValue).2
    simp only [if_neg badValue, if_neg (show ¬last.length < valueLen by omega), Reading.result]

/-- Encoding and decoding undo each other, and decoding never looks outside its bytes. -/
theorem decodeCommand_exact :
    (∀ c : Command, c.op = .put ∨ c.op = .delete → c.clientID.length ≤ maxClientIDLen → c.key.length ≤ maxKeyLen →
      c.value.length ≤ maxValueLen → ∃ raw, c.encode = .ok raw ∧ decodeCommand raw = .ok c) ∧
    (∀ (raw : Bytes) (c : Command), decodeCommand raw = .ok c → c.encode = .ok raw) ∧
    ∀ raw : Bytes, readCommand raw ≠ .outside ∧ readCommand.run raw = some (decodeCommand raw) := by
  refine ⟨fun c known shortID shortKey shortValue => ?_, fun raw c decoded => ?_, fun raw => ⟨?_, readCommand_run raw⟩⟩
  · have encoded : ∃ raw, c.encode = .ok raw := by
      rw [Command.encode, if_neg fun both => known.elim both.1 both.2, if_neg (Nat.not_lt.mpr shortID),
        if_neg (Nat.not_lt.mpr shortKey), if_neg (Nat.not_lt.mpr shortValue)]
      exact ⟨_, rfl⟩
    obtain ⟨raw, encoded⟩ := encoded
    exact ⟨raw, encoded, decodeCommand_encode encoded⟩
  · have same := readCommand_run raw
    rcases (readCommand_ends raw).run_cases with ⟨found, rest, ran, encoded⟩ | ⟨error, ran, -⟩
    · rw [ran, decoded] at same
      cases same
      exact encoded
    · rw [ran, decoded] at same
      cases same
  · intro outside
    have same := readCommand_run raw
    rw [Cursor.run, outside] at same
    cases same

theorem decodeCommand_exact_put :
    ∃ raw, (newPutCommand [97] 1 [107] [118]).encode = .ok raw ∧
      decodeCommand raw = .ok (newPutCommand [97] 1 [107] [118]) :=
  decodeCommand_exact.1 _ (Or.inl rfl) (by decide) (by decide) (by decide)

end ForgeDB.StateMachine
