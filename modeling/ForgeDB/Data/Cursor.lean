import ForgeDB.Data.Encoding

/-!
Reading bytes from the front, with every access checked. A reader takes what is left of the bytes
and gives back a value with the rest, an error of its own, or `outside`: the access lay beyond the
bytes, which a running program answers with a panic.
-/

namespace ForgeDB

inductive Reading (ε α : Type) where
  | ok (value : α) (rest : Bytes)
  | error (error : ε)
  | outside
  deriving DecidableEq, Repr

/-- What came of it, without the bytes left over; nothing if an access lay outside. -/
def Reading.result {ε α : Type} : Reading ε α → Option (Except ε α)
  | .ok value _ => some (.ok value)
  | .error reason => some (.error reason)
  | .outside => none

def Cursor (ε α : Type) := Bytes → Reading ε α

namespace Cursor

variable {ε α β σ : Type}

instance : Monad (Cursor ε) where
  pure value := fun data => .ok value data
  bind reader next := fun data =>
    match reader data with
    | .ok value rest => next value rest
    | .error error => .error error
    | .outside => .outside

def run (reader : Cursor ε α) (data : Bytes) : Option (Except ε α) := (reader data).result

def refuse (bad : Prop) [Decidable bad] (error : ε) : Cursor ε Unit := fun data =>
  if bad then .error error else .ok () data

def need (count : Nat) (error : ε) : Cursor ε Unit := fun data =>
  if data.length < count then .error error else .ok () data

def left : Cursor ε Nat := fun data => .ok data.length data

def seek (data : Bytes) : Cursor ε Unit := fun _ => .ok () data

def bytes (count : Nat) : Cursor ε Bytes := fun data =>
  if data.length < count then .outside else .ok (data.take count) (data.drop count)

def byte : Cursor ε UInt8
  | [] => .outside
  | byte :: rest => .ok byte rest

def u32 : Cursor ε Nat := fun data =>
  if data.length < 4 then .outside else .ok (uint32 data) (data.drop 4)

def u64 : Cursor ε UInt64 := fun data =>
  if data.length < 8 then .outside else .ok (uint64 data) (data.drop 8)

/-- The bytes of `data` from `first` to before `last`, wherever the reader stands. -/
def slice (data : Bytes) (first last : Nat) : Cursor ε Bytes := fun rest =>
  if first ≤ last ∧ last ≤ data.length then .ok ((data.take last).drop first) rest else .outside

/-- One value after another, each read with what the ones before it left behind. -/
def times (step : σ → Cursor ε (α × σ)) : Nat → σ → Cursor ε (List α × σ)
  | 0, state => pure ([], state)
  | count + 1, state => do
    let (value, state) ← step state
    let (values, state) ← times step count state
    pure (value :: values, state)

/-- One value after another to the end of the bytes. The fuel bounds how many there can be. -/
def untilEnd (step : σ → Cursor ε (α × σ)) : Nat → σ → Cursor ε (List α)
  | _, _, [] => .ok [] []
  | 0, _, _ :: _ => .outside
  | fuel + 1, state, first :: rest =>
    match step state (first :: rest) with
    | .ok (value, state) rest =>
      match untilEnd step fuel state rest with
      | .ok values rest => .ok (value :: values) rest
      | .error error => .error error
      | .outside => .outside
    | .error error => .error error
    | .outside => .outside

def item (list : List α) (i : Nat) : Cursor ε α := fun data =>
  match list[i]? with
  | some value => .ok value data
  | none => .outside

def access (found : Option α) : Cursor ε α := fun data =>
  match found with
  | some value => .ok value data
  | none => .outside

/-- `count` bytes of a file from `first` on, or the error if it is too short. -/
def readAt (file : Bytes) (first count : Nat) (error : ε) : Cursor ε Bytes := fun data =>
  if first + count ≤ file.length then .ok ((file.drop first).take count) data else .error error

def wrap {δ : Type} (around : ε → δ) (reader : Cursor ε α) : Cursor δ α := fun data =>
  match reader data with
  | .ok value rest => .ok value rest
  | .error error => .error (around error)
  | .outside => .outside

def header (data magic : Bytes) (version : Nat) (badMagic : ε) (badVersion : Nat → ε) : Cursor ε Unit := do
  let first ← slice data 0 8
  refuse (first ≠ magic) badMagic
  let second ← slice data 8 12
  refuse (uint32 second ≠ version) (badVersion (uint32 second))

def sealed (crc : Bytes → UInt32) (body : Bytes) : Bytes := body ++ putUint32 (crc body).toNat

def checkSealed (crc : Bytes → UInt32) (data : Bytes) (mismatch : ε) : Cursor ε Bytes := do
  let stored ← slice data (data.length - 4) data.length
  let body ← slice data 0 (data.length - 4)
  refuse ((crc body).toNat ≠ uint32 stored) mismatch
  pure body

@[simp] theorem sealed_length (crc : Bytes → UInt32) (body : Bytes) : (sealed crc body).length = body.length + 4 := by
  rw [sealed, List.length_append, putUint32_length]

/-! ### Reading back what was written -/

@[simp] theorem pure_apply (value : α) (data : Bytes) : (pure value : Cursor ε α) data = .ok value data := rfl

theorem bind_apply (reader : Cursor ε α) (next : α → Cursor ε β) (data : Bytes) :
    (reader >>= next) data =
      match reader data with
      | .ok value rest => next value rest
      | .error error => .error error
      | .outside => .outside := rfl

theorem bind_ok {reader : Cursor ε α} {data rest : Bytes} {value : α} (read : reader data = .ok value rest)
    (next : α → Cursor ε β) : (reader >>= next) data = next value rest := by
  rw [bind_apply, read]

theorem bind_error {reader : Cursor ε α} {data : Bytes} {error : ε} (failed : reader data = .error error)
    (next : α → Cursor ε β) : (reader >>= next) data = .error error := by
  rw [bind_apply, failed]

theorem refuse_not {bad : Prop} [Decidable bad] (fine : ¬bad) (error : ε) (data : Bytes) :
    refuse bad error data = .ok () data := if_neg fine

theorem need_long {count : Nat} {data : Bytes} (long : count ≤ data.length) (error : ε) :
    need count error data = .ok () data := if_neg (Nat.not_lt.mpr long)

theorem seek_apply (data other : Bytes) : (seek data : Cursor ε Unit) other = .ok () data := rfl

theorem left_apply (data : Bytes) : (left : Cursor ε Nat) data = .ok data.length data := rfl

theorem bytes_append (field rest : Bytes) : (bytes field.length : Cursor ε Bytes) (field ++ rest) = .ok field rest := by
  rw [bytes, if_neg (by rw [List.length_append]; omega), List.take_left, List.drop_left]

theorem byte_cons (first : UInt8) (rest : Bytes) : (byte : Cursor ε UInt8) (first :: rest) = .ok first rest := rfl

theorem u32_put {value : Nat} (bound : value < 2 ^ 32) (rest : Bytes) :
    (u32 : Cursor ε Nat) (putUint32 value ++ rest) = .ok value rest := by
  rw [u32, if_neg (by rw [List.length_append, putUint32_length]; omega), uint32_put bound, drop_putUint32]

theorem u64_put (value : UInt64) (rest : Bytes) :
    (u64 : Cursor ε UInt64) (putUint64 value ++ rest) = .ok value rest := by
  rw [u64, if_neg (by rw [List.length_append, putUint64_length]; omega), uint64_put, drop_putUint64]

def Along (accepts : σ → α → Prop) (next : σ → α → σ) : σ → List α → Prop
  | _, [] => True
  | state, value :: values => accepts state value ∧ Along accepts next (next state value) values

theorem Along.of_forall {accepts : σ → α → Prop} (next : σ → α → σ) {values : List α}
    (all : ∀ value ∈ values, ∀ state, accepts state value) (state : σ) : Along accepts next state values := by
  induction values generalizing state with
  | nil => trivial
  | cons value values ih =>
    exact ⟨all value List.mem_cons_self state, ih (fun value present => all value (List.mem_cons_of_mem _ present)) _⟩

theorem times_encode {step : σ → Cursor ε (α × σ)} {encode : α → Bytes} {accepts : σ → α → Prop} {next : σ → α → σ}
    (forward : ∀ state value rest, accepts state value →
      step state (encode value ++ rest) = .ok (value, next state value) rest)
    {values : List α} {state : σ} (along : Along accepts next state values) (rest : Bytes) :
    times step values.length state (values.flatMap encode ++ rest) = .ok (values, values.foldl next state) rest := by
  induction values generalizing state with
  | nil => rfl
  | cons value values ih =>
    rw [List.length_cons, times, List.flatMap_cons, List.append_assoc, bind_ok (forward _ _ _ along.1)]
    dsimp only
    rw [bind_ok (ih along.2)]
    rfl

theorem untilEnd_encode {step : σ → Cursor ε (α × σ)} {encode : α → Bytes} {next : σ → α → σ} {values : List α}
    (forward : ∀ value ∈ values, ∀ state rest, step state (encode value ++ rest) = .ok (value, next state value) rest)
    (filled : ∀ value ∈ values, encode value ≠ []) {fuel : Nat} (enough : (values.flatMap encode).length ≤ fuel)
    (state : σ) : untilEnd step fuel state (values.flatMap encode) = .ok values [] := by
  induction values generalizing fuel state with
  | nil => cases fuel <;> rfl
  | cons value values ih =>
    obtain ⟨first, rest, shape⟩ := List.exists_cons_of_ne_nil (filled value List.mem_cons_self)
    have read := forward value List.mem_cons_self state (values.flatMap encode)
    rw [List.flatMap_cons, List.length_append] at enough
    rw [List.flatMap_cons]
    rw [shape, List.length_cons] at enough
    rw [shape, List.cons_append] at read ⊢
    cases fuel with
    | zero => omega
    | succ fuel =>
      have later := ih (fun value present => forward value (List.mem_cons_of_mem _ present))
        (fun value present => filled value (List.mem_cons_of_mem _ present)) (show _ ≤ fuel by omega)
        (next state value)
      rw [untilEnd, read]
      dsimp only
      rw [later]

theorem access_bind (value : α) (next : α → Cursor ε β) : (access (some value) >>= next) = next value := rfl

theorem item_get {list : List α} {i : Nat} {value : α} (there : list[i]? = some value) (data : Bytes) :
    (item list i : Cursor ε α) data = .ok value data := by
  rw [item, there]

theorem readAt_append {front field tail : Bytes} {first count : Nat} (before : front.length = first)
    (size : field.length = count) (error : ε) (data : Bytes) :
    readAt (front ++ (field ++ tail)) first count error data = .ok field data := by
  rw [readAt, if_pos (by rw [List.length_append, List.length_append]; omega), ← before, List.drop_left, ← size,
    List.take_left]

theorem wrap_ok {δ : Type} {around : ε → δ} {reader : Cursor ε α} {data rest : Bytes} {value : α}
    (read : reader data = .ok value rest) : wrap around reader data = .ok value rest := by
  rw [wrap, read]

theorem slice_inside {data : Bytes} {first last : Nat} (ordered : first ≤ last) (inside : last ≤ data.length)
    (rest : Bytes) : (slice data first last : Cursor ε Bytes) rest = .ok ((data.take last).drop first) rest :=
  if_pos ⟨ordered, inside⟩

theorem slice_append {front field tail : Bytes} {first last : Nat} (before : front.length = first)
    (within : first + field.length = last) (rest : Bytes) :
    (slice (front ++ (field ++ tail)) first last : Cursor ε Bytes) rest = .ok field rest := by
  have inside : last ≤ (front ++ (field ++ tail)).length := by
    rw [List.length_append, List.length_append]
    omega
  have found : ((front ++ (field ++ tail)).take last).drop first = field := by
    rw [List.drop_take, ← before, List.drop_left, ← within, ← before, Nat.add_sub_cancel_left, List.take_left]
  rw [slice_inside (by omega) inside, found]

theorem header_put {magic : Bytes} {version : Nat} (eight : magic.length = 8) (bound : version < 2 ^ 32) (tail : Bytes)
    (badMagic : ε) (badVersion : Nat → ε) (rest : Bytes) :
    header (magic ++ (putUint32 version ++ tail)) magic version badMagic badVersion rest = .ok () rest := by
  have length : 12 ≤ (magic ++ (putUint32 version ++ tail)).length := by
    rw [List.length_append, List.length_append, putUint32_length, eight]
    omega
  have first : ((magic ++ (putUint32 version ++ tail)).take 8).drop 0 = magic := by
    rw [List.drop_zero, ← eight, List.take_left]
  have second : ((magic ++ (putUint32 version ++ tail)).take 12).drop 8 = putUint32 version := by
    rw [List.drop_take, ← eight, List.drop_left, List.take_left' (by rw [eight, putUint32_length])]
  have read : uint32 (putUint32 version) = version := uint32_putUint32 bound
  rw [header, bind_ok (slice_inside (by omega) (by omega) rest), first, bind_ok (refuse_not (not_not.mpr rfl) _ _),
    bind_ok (slice_inside (by omega) length rest), second, refuse_not (by rw [read]; exact not_not.mpr rfl)]

theorem checkSealed_sealed (crc : Bytes → UInt32) (body : Bytes) (mismatch : ε) (rest : Bytes) :
    checkSealed crc (sealed crc body) mismatch rest = .ok body rest := by
  have stored : ((sealed crc body).take (sealed crc body).length).drop ((sealed crc body).length - 4) =
      putUint32 (crc body).toNat := by
    rw [List.take_length, sealed_length, Nat.add_sub_cancel, sealed, List.drop_left]
  have kept : ((sealed crc body).take ((sealed crc body).length - 4)).drop 0 = body := by
    rw [List.drop_zero, sealed_length, Nat.add_sub_cancel, sealed, List.take_left]
  have sum : uint32 (putUint32 (crc body).toNat) = (crc body).toNat := uint32_putUint32 (crc body).toNat_lt
  rw [checkSealed, bind_ok (slice_inside (Nat.sub_le _ _) (Nat.le_refl _) rest), stored,
    bind_ok (slice_inside (Nat.zero_le _) (Nat.sub_le _ _) rest), kept, bind_ok (refuse_not (by rw [sum]; simp) _ _)]
  rfl

theorem drop_header {magic : Bytes} (eight : magic.length = 8) (version : Nat) (rest : Bytes) :
    (magic ++ (putUint32 version ++ rest)).drop 12 = rest := by
  rw [← List.append_assoc]
  exact List.drop_left' (by rw [List.length_append, putUint32_length, eight])

theorem header_of_sealed {crc : Bytes → UInt32} {magic body : Bytes} {version : Nat} (eight : magic.length = 8)
    (long : 12 ≤ body.length) (start : sealed crc body = magic ++ (putUint32 version ++ (sealed crc body).drop 12)) :
    body = magic ++ (putUint32 version ++ body.drop 12) := by
  have front : body.take 12 = magic ++ putUint32 version := by
    have cut := congrArg (List.take 12) start
    rw [sealed, List.take_append_of_le_length long, ← List.append_assoc magic] at cut
    rw [cut]
    exact List.take_left' (by rw [List.length_append, putUint32_length, eight])
  rw [← List.append_assoc, ← front, List.take_append_drop]

/-! ### What a reader can come to -/

/-- The reader stays inside the bytes; a value it reads satisfies `post` with the rest, and an error
satisfies `fails`. -/
def Ends (reader : Cursor ε α) (data : Bytes) (post : α → Bytes → Prop) (fails : ε → Prop) : Prop :=
  match reader data with
  | .ok value rest => post value rest
  | .error error => fails error
  | .outside => False

variable {data : Bytes} {post : α → Bytes → Prop} {fails : ε → Prop}

theorem Ends.cases {reader : Cursor ε α} (ends : reader.Ends data post fails) :
    (∃ value rest, reader data = .ok value rest ∧ post value rest) ∨ ∃ error, reader data = .error error ∧
    fails error := by
  unfold Ends at ends
  cases read : reader data with
  | ok value rest =>
    rw [read] at ends
    exact Or.inl ⟨value, rest, rfl, ends⟩
  | error error =>
    rw [read] at ends
    exact Or.inr ⟨error, rfl, ends⟩
  | outside =>
    rw [read] at ends
    exact ends.elim

theorem Ends.of_ok {reader : Cursor ε α} {value : α} {rest : Bytes} (read : reader data = .ok value rest)
    (holds : post value rest) : reader.Ends data post fails := by
  unfold Ends
  rw [read]
  exact holds

theorem Ends.of_error {reader : Cursor ε α} {error : ε} (read : reader data = .error error) (failed : fails error) :
    reader.Ends data post fails := by
  unfold Ends
  rw [read]
  exact failed

theorem Ends.run_cases {reader : Cursor ε α} (ends : reader.Ends data post fails) :
    (∃ value rest, reader.run data = some (.ok value) ∧ post value rest) ∨
      ∃ error, reader.run data = some (.error error) ∧ fails error := by
  unfold run
  rcases ends.cases with ⟨value, rest, read, holds⟩ | ⟨error, read, failed⟩
  · rw [read]
    exact Or.inl ⟨value, rest, rfl, holds⟩
  · rw [read]
    exact Or.inr ⟨error, rfl, failed⟩

theorem Ends.mono {reader : Cursor ε α} {later : α → Bytes → Prop} (ends : reader.Ends data post fails)
    (weaker : ∀ value rest, post value rest → later value rest) : reader.Ends data later fails := by
  rcases ends.cases with ⟨value, rest, read, holds⟩ | ⟨error, read, failed⟩
  · exact .of_ok read (weaker value rest holds)
  · exact .of_error read failed

theorem Ends.mono_fails {reader : Cursor ε α} {failsLater : ε → Prop} (ends : reader.Ends data post fails)
    (weaker : ∀ error, fails error → failsLater error) : reader.Ends data post failsLater := by
  rcases ends.cases with ⟨value, rest, read, holds⟩ | ⟨error, read, failed⟩
  · exact .of_ok read holds
  · exact .of_error read (weaker error failed)

theorem Ends.read {reader : Cursor ε α} (ends : reader.Ends data post fails) :
    reader.Ends data (fun value rest => reader data = .ok value rest ∧ post value rest) fails := by
  rcases ends.cases with ⟨value, rest, read, holds⟩ | ⟨error, read, failed⟩
  · exact .of_ok read ⟨read, holds⟩
  · exact .of_error read failed

theorem Ends.pure {value : α} (holds : post value data) : (Pure.pure value : Cursor ε α).Ends data post fails := holds

theorem Ends.bind {reader : Cursor ε α} {next : α → Cursor ε β} {post : β → Bytes → Prop}
    (ends : reader.Ends data (fun value rest => (next value).Ends rest post fails) fails) :
    (reader >>= next).Ends data post fails := by
  rcases ends.cases with ⟨value, rest, read, holds⟩ | ⟨error, read, failed⟩
  · rw [Ends, bind_apply, read]
    exact holds
  · exact .of_error (by rw [bind_apply, read]) failed

theorem Ends.refuse {bad : Prop} [Decidable bad] {error : ε} {post : Unit → Bytes → Prop} (refused : bad → fails error)
    (accepted : ¬bad → post () data) : (Cursor.refuse bad error).Ends data post fails := by
  unfold Ends Cursor.refuse
  by_cases holds : bad
  · rw [if_pos holds]
    exact refused holds
  · rw [if_neg holds]
    exact accepted holds

theorem Ends.need {count : Nat} {error : ε} {post : Unit → Bytes → Prop} (short : data.length < count → fails error)
    (long : count ≤ data.length → post () data) : (Cursor.need count error).Ends data post fails := by
  unfold Ends Cursor.need
  by_cases holds : data.length < count
  · rw [if_pos holds]
    exact short holds
  · rw [if_neg holds]
    exact long (Nat.not_lt.mp holds)

theorem Ends.left {post : Nat → Bytes → Prop} (holds : post data.length data) :
    (Cursor.left : Cursor ε Nat).Ends data post fails := holds

theorem Ends.seek {other : Bytes} {post : Unit → Bytes → Prop} (holds : post () other) :
    (Cursor.seek other : Cursor ε Unit).Ends data post fails := holds

theorem Ends.bytes {count : Nat} {post : Bytes → Bytes → Prop} (long : count ≤ data.length)
    (read : ∀ field rest, data = field ++ rest → field.length = count → post field rest) :
    (Cursor.bytes count : Cursor ε Bytes).Ends data post fails := by
  unfold Ends Cursor.bytes
  rw [if_neg (Nat.not_lt.mpr long)]
  exact read _ _ (List.take_append_drop count data).symm (List.length_take_of_le long)

theorem Ends.byte {post : UInt8 → Bytes → Prop} (long : 1 ≤ data.length)
    (read : ∀ first rest, data = first :: rest → post first rest) :
    (Cursor.byte : Cursor ε UInt8).Ends data post fails := by
  cases data with
  | nil => exact absurd long (by simp)
  | cons first rest => exact read first rest rfl

theorem Ends.u32 {post : Nat → Bytes → Prop} (long : 4 ≤ data.length)
    (read : ∀ value rest, data = putUint32 value ++ rest → value < 2 ^ 32 → post value rest) :
    (Cursor.u32 : Cursor ε Nat).Ends data post fails := by
  unfold Ends Cursor.u32
  rw [if_neg (Nat.not_lt.mpr long)]
  exact read _ _ (putUint32_uint32 long).symm (uint32_lt data)

theorem Ends.u64 {post : UInt64 → Bytes → Prop} (long : 8 ≤ data.length)
    (read : ∀ value rest, data = putUint64 value ++ rest → post value rest) :
    (Cursor.u64 : Cursor ε UInt64).Ends data post fails := by
  unfold Ends Cursor.u64
  rw [if_neg (Nat.not_lt.mpr long)]
  exact read _ _ (putUint64_uint64 long).symm

theorem Ends.times {step : σ → Cursor ε (α × σ)} {encode : α → Bytes} {accepts : σ → α → Prop} {next : σ → α → σ}
    (exact : ∀ state data, (step state).Ends data
      (fun read rest => data = encode read.1 ++ rest ∧ accepts state read.1 ∧ read.2 = next state read.1) fails)
    (count : Nat) (state : σ) (data : Bytes) :
    (Cursor.times step count state).Ends data
      (fun read rest => data = read.1.flatMap encode ++ rest ∧ read.1.length = count ∧
        Along accepts next state read.1 ∧ read.2 = read.1.foldl next state) fails := by
  induction count generalizing state data with
  | zero => exact ⟨rfl, rfl, trivial, rfl⟩
  | succ count ih =>
    refine Ends.bind ((exact state data).mono ?_)
    rintro ⟨value, after⟩ rest ⟨rfl, accepted, moved⟩
    dsimp only at accepted moved
    subst moved
    refine Ends.bind ((ih _ rest).mono ?_)
    rintro ⟨values, last⟩ left ⟨rfl, counted, along, moved⟩
    dsimp only at counted along moved
    subst moved
    refine Ends.pure ⟨?_, ?_, ⟨accepted, along⟩, rfl⟩
    · rw [List.flatMap_cons, List.append_assoc]
    · rw [List.length_cons, counted]

theorem Ends.slice {other : Bytes} {first last : Nat} {post : Bytes → Bytes → Prop}
    (ordered : first ≤ last) (inside : last ≤ other.length) (read : post ((other.take last).drop first) data) :
    (Cursor.slice other first last : Cursor ε Bytes).Ends data post fails := by
  unfold Ends
  rw [slice_inside ordered inside]
  exact read

theorem Ends.access {value : α} {found : Option α} (there : found = some value) (holds : post value data) :
    (Cursor.access found : Cursor ε α).Ends data post fails := by
  rw [there]
  exact holds

theorem Ends.item {list : List α} {i : Nat} {value : α} (there : list[i]? = some value) (holds : post value data) :
    (Cursor.item list i : Cursor ε α).Ends data post fails := Ends.access there holds

theorem Ends.readAt {file : Bytes} {first count : Nat} {error : ε} {post : Bytes → Bytes → Prop}
    (inside : first + count ≤ file.length)
    (read : ((file.drop first).take count).length = count → post ((file.drop first).take count) data) :
    (Cursor.readAt file first count error).Ends data post fails := by
  unfold Ends Cursor.readAt
  rw [if_pos inside]
  apply read
  rw [List.length_take_of_le]
  rw [List.length_drop]
  omega

theorem Ends.wrap {δ : Type} {around : ε → δ} {failsAround : δ → Prop} {reader : Cursor ε α}
    (ends : reader.Ends data post fun error => failsAround (around error)) :
    (Cursor.wrap around reader).Ends data post failsAround := by
  rcases ends.cases with ⟨value, rest, read, holds⟩ | ⟨error, read, failed⟩
  · exact .of_ok (by rw [Cursor.wrap, read]) holds
  · exact .of_error (by rw [Cursor.wrap, read]) failed

theorem Ends.untilEnd {step : σ → Cursor ε (α × σ)}
    (forward : ∀ state data, (step state).Ends data (fun _ rest => rest.length < data.length) fails) {fuel : Nat}
    (enough : data.length ≤ fuel) (state : σ) :
    (Cursor.untilEnd step fuel state).Ends data (fun _ _ => True) fails := by
  induction fuel generalizing data state with
  | zero =>
    rw [List.eq_nil_of_length_eq_zero (Nat.le_zero.mp enough)]
    trivial
  | succ fuel ih =>
    cases data with
    | nil => trivial
    | cons first rest =>
      rcases (forward state (first :: rest)).cases with ⟨value, after, read, shorter⟩ | ⟨error, read, failed⟩
      · have fits : after.length ≤ fuel := by
          rw [List.length_cons] at shorter enough
          omega
        rcases (ih fits value.2).cases with ⟨values, last, readLater, -⟩ | ⟨error, readLater, failed⟩
        · have done : Cursor.untilEnd step (fuel + 1) state (first :: rest) = .ok (value.1 :: values) last := by
            simp only [Cursor.untilEnd, read, readLater]
          exact .of_ok done trivial
        · exact .of_error (by simp only [Cursor.untilEnd, read, readLater]) failed
      · exact .of_error (by simp only [Cursor.untilEnd, read]) failed

theorem Ends.header {whole magic : Bytes} {version : Nat} {badMagic : ε} {badVersion : Nat → ε}
    {post : Unit → Bytes → Prop} (long : 12 ≤ whole.length) (refusedMagic : fails badMagic)
    (refusedVersion : ∀ found, fails (badVersion found))
    (read : whole = magic ++ (putUint32 version ++ whole.drop 12) → post () data) :
    (Cursor.header whole magic version badMagic badVersion).Ends data post fails := by
  refine Ends.bind (Ends.slice (by omega) (by omega) ?_)
  refine Ends.bind (Ends.refuse (fun _ => refusedMagic) fun first => ?_)
  refine Ends.bind (Ends.slice (by omega) long ?_)
  refine Ends.refuse (fun _ => refusedVersion _) fun second => read ?_
  rw [not_not, List.drop_zero] at first
  rw [not_not, List.drop_take] at second
  have eight : 4 ≤ (whole.drop 8).length := by
    rw [List.length_drop]
    omega
  have same : uint32 ((whole.drop 8).take (12 - 8)) = uint32 (whole.drop 8) := by
    rw [uint32, uint32, List.take_take]
    rfl
  have tail := putUint32_uint32 eight
  rw [← same, second, List.drop_drop] at tail
  rw [← first, tail, List.take_append_drop]

theorem Ends.checkSealed {crc : Bytes → UInt32} {whole : Bytes} {mismatch : ε} {post : Bytes → Bytes → Prop}
    (long : 4 ≤ whole.length) (refused : fails mismatch) (read : ∀ body, whole = sealed crc body → post body data) :
    (Cursor.checkSealed crc whole mismatch).Ends data post fails := by
  refine Ends.bind (Ends.slice (Nat.sub_le _ _) (Nat.le_refl _) ?_)
  refine Ends.bind (Ends.slice (Nat.zero_le _) (Nat.sub_le _ _) ?_)
  refine Ends.bind (Ends.refuse (fun _ => refused) fun same => ?_)
  apply Ends.pure
  apply read
  rw [List.take_length, List.drop_zero, not_not] at same
  have trailer : (whole.drop (whole.length - 4)).length = 4 := by
    rw [List.length_drop]
    omega
  have stored : putUint32 (uint32 (whole.drop (whole.length - 4))) = whole.drop (whole.length - 4) := by
    have put := putUint32_uint32 (Nat.le_of_eq trailer.symm)
    rwa [List.drop_eq_nil_of_le (Nat.le_of_eq trailer), List.append_nil] at put
  rw [List.drop_zero, sealed, same, stored, List.take_append_drop]

end Cursor

end ForgeDB
