import LearnSpace.KvStore.ByteArray

/-!
# The three implementations of `CMByteArray`

The class is in the repository three times: in `kv_store`, in `TCPServer` and
`KcpUdp`, and in `base`, `Network/Windows` and `TCPClient`. The copies have the
same fields and public methods. They differ in the constructor from a pointer
and a length, in the initializer of the buffer that `resetBuffer` allocates, and
in `insertElement`: when a buffer that is too small is replaced, and where the
bytes behind the insertion go. Here the methods take the copy as a parameter,
and the three run on the pool of variables of the key-value store's copy.
-/

namespace LearnSpace.ByteArrays

open Keel Function KvStore

/-- The directories the class is in. -/
inductive Copy
  | kvStore
  /-- `TCPServer` and `KcpUdp` -/
  | tcpServer
  /-- `base`, `Network/Windows` and `TCPClient` -/
  | base
  deriving DecidableEq, Repr

/-- What a call answers, or throws. -/
inductive Answer
  | done
  | byte (b : Byte)
  | outOfRange
  | badArrayNewLength
  deriving DecidableEq, Repr

/-- The pool behind a call and its answer; `none` is an access outside the
buffers. -/
abbrev Result (ι : Type) := Option (Pool ι × Answer)

/-- The next statement, behind one that may throw. -/
def Result.andThen {ι : Type} (r : Result ι) (f : Pool ι → Result ι) : Result ι :=
  match r with
  | some (σ, .done) => f σ
  | r => r

/-- A `const char*` with its length, a C string, or another array. -/
inductive Arg (ι : Type)
  | ptr (byte : List Byte)
  | cstr (str : List Byte)
  | array (other : ι)

/-- The pointer an overload passes on. -/
def Arg.source {ι : Type} (σ : Pool ι) : Arg ι → Source
  | .ptr byte => .bytes byte
  | .cstr str => .bytes str
  | .array other => .buffer (σ.data.holder other) 0

/-- The length an overload passes on. -/
def Arg.len {ι : Type} (σ : Pool ι) : Arg ι → Nat
  | .ptr byte => byte.length
  | .cstr str => strlen str
  | .array other => σ.size other

namespace Copy

variable {ι : Type} [Fintype ι] [DecidableEq ι]

/-! ## The private methods -/

/-- `resetBuffer`. The initializer `{0}` needs a place, and `new char[0] {0}`
throws; the key-value store's copy writes `()`. -/
def resetBuffer (k : Copy) (σ : Pool ι) (x : ι) : Result ι :=
  if k ≠ .kvStore ∧ σ.capacity x = 0 then some (σ, .badArrayNewLength)
  else (σ.resetBuffer x).map (·, .done)

/-- `detach`. -/
def detach (k : Copy) (σ : Pool ι) (x : ι) : Result ι :=
  if σ.data.unique x then some (σ, .done) else k.resetBuffer σ x

/-- The head of `insertElement`. The first copy replaces a buffer that is too
small, and then one that is shared; the second does both in one; the third
replaces it only if it is shared. -/
def makeRoom (k : Copy) (σ : Pool ι) (x : ι) (dataLen : Nat) : Result ι :=
  let capacity :=
    if σ.size x + dataLen > σ.capacity x then stepCapacity (σ.capacity x + dataLen)
    else σ.capacity x
  let grown := { σ with capacity := update σ.capacity x capacity }
  match k with
  | .kvStore =>
    Result.andThen
      (if σ.size x + dataLen > σ.capacity x then k.resetBuffer grown x else some (σ, .done))
      fun σ => k.detach σ x
  | .tcpServer =>
    if ¬ σ.data.unique x ∨ capacity > σ.capacity x then k.resetBuffer grown x
    else some (σ, .done)
  | .base => k.detach grown x

/-- Where the bytes from `pos` on are moved to. -/
def tailOffset (k : Copy) (size dataLen : Nat) : Nat :=
  match k with
  | .tcpServer => dataLen
  | _ => size

/-- The rest of `insertElement`: the two copies and the new size. -/
def moveIn (k : Copy) (σ : Pool ι) (x : ι) (pos : Nat) (dataP : Source) (dataLen : Nat) :
    Option (Pool ι) := do
  let p := σ.data.holder x
  let tail ← readAt σ.data.heap p pos (σ.size x - pos)
  let heap ← writeAt σ.data.heap p (k.tailOffset (σ.size x) dataLen) tail
  let bytes ← dataP.read heap dataLen
  let heap ← writeAt heap p pos bytes
  return { σ with
    data := { σ.data with heap := heap }
    size := update σ.size x (σ.size x + dataLen) }

/-- `insertElement`. -/
def insertElement (k : Copy) (σ : Pool ι) (x : ι) (pos : Nat) (dataP : Source)
    (dataLen : Nat) : Result ι :=
  if ¬ pos ≤ σ.size x then some (σ, .outOfRange)
  else
    (k.makeRoom σ x dataLen).andThen fun σ =>
      (k.moveIn σ x pos dataP dataLen).map (·, .done)

/-- The rest of `reomveElement`: the bytes behind the range move up, and what is
free then is zeroed. -/
def moveOut (σ : Pool ι) (x : ι) (pos len : Nat) : Option (Pool ι) := do
  let len := if σ.size x - pos < len then σ.size x - pos else len
  let moveSize := σ.size x - pos - len
  let p := σ.data.holder x
  let rest ← readAt σ.data.heap p (pos + len) moveSize
  let heap ← writeAt σ.data.heap p pos rest
  let size := σ.size x - len
  let heap ← writeAt heap p size (List.replicate (σ.capacity x - size) 0)
  return { σ with data := { σ.data with heap := heap }, size := update σ.size x size }

/-- `reomveElement`. -/
def reomveElement (k : Copy) (σ : Pool ι) (x : ι) (pos len : Nat) : Result ι :=
  if ¬ pos ≤ σ.size x then some (σ, .outOfRange)
  else (k.detach σ x).andThen fun σ => (moveOut σ x pos len).map (·, .done)

/-! ## The first copy is the one modelled before -/

/-- The answer of a method that throws nothing but `std::out_of_range`. -/
def ofOutcome : Outcome → Answer
  | .done => .done
  | .outOfRange => .outOfRange

variable (σ : Pool ι) (x : ι)

theorem kvStore_resetBuffer : kvStore.resetBuffer σ x = (σ.resetBuffer x).map (·, .done) := by
  rw [resetBuffer, if_neg (fun h => h.1 rfl)]

theorem kvStore_detach : kvStore.detach σ x = (σ.detach x).map (·, .done) := by
  rw [detach, Pool.detach, kvStore_resetBuffer]
  split <;> rfl

theorem kvStore_makeRoom (dataLen : Nat) :
    kvStore.makeRoom σ x dataLen = (σ.makeRoom x dataLen).map (·, .done) := by
  simp only [makeRoom, Pool.makeRoom, kvStore_resetBuffer, kvStore_detach]
  split
  · rename_i hgrow
    simp only [Option.bind_eq_bind]
    cases Pool.resetBuffer
      { σ with capacity := update σ.capacity x (stepCapacity (σ.capacity x + dataLen)) } x <;>
      rfl
  · rfl

/-- Making room changes no size. -/
theorem makeRoom_size {σ' : Pool ι} {dataLen : Nat} (h : σ.makeRoom x dataLen = some σ') :
    σ'.size = σ.size := by
  have hreset : ∀ {τ τ' : Pool ι}, τ.resetBuffer x = some τ' → τ'.size = τ.size := by
    intro τ τ' h
    simp only [Pool.resetBuffer, Option.bind_eq_bind, Option.bind_eq_some_iff] at h
    obtain ⟨_, -, _, -, h⟩ := h
    cases h
    rfl
  have hdetach : ∀ {τ τ' : Pool ι}, τ.detach x = some τ' → τ'.size = τ.size := by
    intro τ τ' h
    rw [Pool.detach] at h
    split at h
    · cases h
      rfl
    · exact hreset h
  rw [Pool.makeRoom] at h
  split at h
  · obtain ⟨τ, hgrow, h⟩ := Option.bind_eq_some_iff.mp h
    have hsize := hreset hgrow
    rw [hdetach h, hsize]
  · exact hdetach h

theorem kvStore_insertElement (pos : Nat) (dataP : Source) (dataLen : Nat) :
    kvStore.insertElement σ x pos dataP dataLen =
      (σ.insertElement x pos dataP dataLen).map (fun r => (r.1, ofOutcome r.2)) := by
  by_cases hpos : pos ≤ σ.size x
  · rw [insertElement, if_neg (not_not_intro hpos), Pool.insertElement,
      if_neg (not_not_intro hpos), kvStore_makeRoom]
    simp only [Option.bind_eq_bind]
    cases hroom : σ.makeRoom x dataLen with
    | none => rfl
    | some σ' =>
        simp only [Option.map_some, Result.andThen, moveIn, tailOffset, Option.bind_some,
          Option.bind_eq_bind, Option.map_bind, comp_def, Option.pure_def, ofOutcome,
          makeRoom_size σ x hroom]
  · rw [insertElement, if_pos hpos, Pool.insertElement, if_pos hpos]
    rfl

theorem kvStore_reomveElement (pos len : Nat) :
    kvStore.reomveElement σ x pos len =
      (σ.reomveElement x pos len).map (fun r => (r.1, ofOutcome r.2)) := by
  by_cases hpos : pos ≤ σ.size x
  · rw [reomveElement, if_neg (not_not_intro hpos), Pool.reomveElement,
      if_neg (not_not_intro hpos), kvStore_detach]
    simp only [Option.bind_eq_bind]
    cases σ.detach x with
    | none => rfl
    | some σ' =>
        simp only [Option.map_some, Result.andThen, moveOut, Option.bind_some,
          Option.bind_eq_bind, Option.map_bind, comp_def, Option.pure_def, ofOutcome]
  · rw [reomveElement, if_pos hpos, Pool.reomveElement, if_pos hpos]
    rfl

/-! ## Constructors -/

/-- `CMByteArray(size_t capacity)`. -/
def constructCapacity (k : Copy) (σ : Pool ι) (x : ι) (capacity : Nat) : Result ι :=
  k.resetBuffer
    { σ with
      size := update σ.size x 0
      capacity := update σ.capacity x capacity } x

/-- `CMByteArray(const char* str)`. -/
def constructStr (k : Copy) (σ : Pool ι) (x : ι) (str : List Byte) : Result ι :=
  (k.constructCapacity σ x (strlen str)).andThen fun σ =>
    k.insertElement σ x 0 (.bytes str) (strlen str)

/-- `_size` and `_capacity` as `CMByteArray(const char* str, size_t len)` sets
them before it calls `resetBuffer`. -/
def ptrLenFields (k : Copy) (len : Nat) : Nat × Nat :=
  match k with
  | .kvStore => (0, len + 1)
  | _ => (len, len)

/-- `CMByteArray(const char* str, size_t len)`, with `_data` still null when
`resetBuffer` is called. -/
def constructPtrLen (k : Copy) (σ : Pool ι) (x : ι) (str : List Byte) : Result ι :=
  let σ := σ.release x
  let fields := k.ptrLenFields str.length
  Result.andThen
    (k.resetBuffer
      { σ with
        size := update σ.size x fields.1
        capacity := update σ.capacity x fields.2 } x)
    fun σ => k.insertElement σ x 0 (.bytes str) str.length

/-! ## The public methods -/

/-- `insert`, in its overloads. -/
def insert (k : Copy) (σ : Pool ι) (x : ι) (pos : Nat) (str : Arg ι) : Result ι :=
  k.insertElement σ x pos (str.source σ) (str.len σ)

/-- `append`, in its overloads. -/
def append (k : Copy) (σ : Pool ι) (x : ι) (str : Arg ι) : Result ι :=
  k.insertElement σ x (σ.size x) (str.source σ) (str.len σ)

/-- `prepend`, in its overloads. -/
def prepend (k : Copy) (σ : Pool ι) (x : ι) (str : Arg ι) : Result ι :=
  k.insertElement σ x 0 (str.source σ) (str.len σ)

/-- `clear`. -/
def clear (k : Copy) (σ : Pool ι) (x : ι) : Result ι :=
  k.resetBuffer
    { σ with
      size := update σ.size x 0
      capacity := update σ.capacity x defInitCapacity } x

/-- `squeeze`. -/
def squeeze (k : Copy) (σ : Pool ι) (x : ι) : Result ι :=
  k.resetBuffer { σ with capacity := update σ.capacity x (σ.size x) } x

/-- `at`. -/
def at' (σ : Pool ι) (x : ι) (pos : Nat) : Result ι :=
  if ¬ pos < σ.size x then some (σ, .outOfRange)
  else (readAt σ.data.heap (σ.data.holder x) pos 1).map fun bytes => (σ, .byte (bytes.headD 0))

end Copy

/-! ## Calls -/

/-- Why there is no state behind a call: an access outside the buffers, or
`std::terminate`, which an exception in a `noexcept` constructor leads to. -/
inductive Stop
  | undefined
  | terminated
  deriving DecidableEq, Repr

/-- A function that may throw. -/
def Result.returned {ι : Type} : Result ι → Except Stop (Pool ι × Answer)
  | none => .error .undefined
  | some r => .ok r

/-- A `noexcept` function. -/
def Result.noexcept {ι : Type} : Result ι → Except Stop (Pool ι × Answer)
  | none => .error .undefined
  | some (σ, .done) => .ok (σ, .done)
  | some _ => .error .terminated

/-- The public operations. -/
inductive Call (ι : Type)
  | construct (x : ι)
  | constructCapacity (x : ι) (capacity : Nat)
  | constructPtrLen (x : ι) (str : List Byte)
  | constructStr (x : ι) (str : List Byte)
  | copyConstruct (x other : ι)
  | moveConstruct (x other : ι)
  | copyAssign (x other : ι)
  | moveAssign (x other : ι)
  | destroy (x : ι)
  | append (x : ι) (str : Arg ι)
  | insert (x : ι) (pos : Nat) (str : Arg ι)
  | prepend (x : ι) (str : Arg ι)
  | remove (x : ι) (pos len : Nat)
  | detach (x : ι)
  | clear (x : ι)
  | squeeze (x : ι)
  | at' (x : ι) (pos : Nat)

variable {ι : Type} [Fintype ι] [DecidableEq ι]

/-- A call on one of the copies. -/
def Copy.call (k : Copy) (σ : Pool ι) : Call ι → Except Stop (Pool ι × Answer)
  | .construct x => (k.constructCapacity σ x defInitCapacity).noexcept
  | .constructCapacity x capacity => (k.constructCapacity σ x capacity).noexcept
  | .constructPtrLen x str => (k.constructPtrLen σ x str).noexcept
  | .constructStr x str => (k.constructStr σ x str).noexcept
  | .copyConstruct x other => .ok (σ.copyFrom x other, .done)
  | .moveConstruct x other => .ok (σ.moveFrom x other, .done)
  | .copyAssign x other => .ok (σ.copyFrom x other, .done)
  | .moveAssign x other => .ok (σ.moveFrom x other, .done)
  | .destroy x => .ok (σ.destroy x, .done)
  | .append x str => (k.append σ x str).returned
  | .insert x pos str => (k.insert σ x pos str).returned
  | .prepend x str => (k.prepend σ x str).returned
  | .remove x pos len => (k.reomveElement σ x pos len).returned
  | .detach x => (k.detach σ x).returned
  | .clear x => (k.clear σ x).returned
  | .squeeze x => (k.squeeze σ x).returned
  | .at' x pos => (Copy.at' σ x pos).returned

/-- What can be seen behind a call: its answer, and the size and the content of
every variable. -/
structure Seen (ι : Type) where
  answer : Answer
  size : ι → Nat
  content : ι → List Byte

/-- One of the copies as a machine; there is no state behind a call that stops. -/
def copies (k : Copy) (ι : Type) [Fintype ι] [DecidableEq ι] :
    Machine (Pool ι) (Call ι) (Seen ι) where
  start := .empty
  exec σ c :=
    match k.call σ c with
    | .error _ => none
    | .ok (σ', answer) => some (σ', ⟨answer, σ'.size, σ'.content⟩)

end LearnSpace.ByteArrays
