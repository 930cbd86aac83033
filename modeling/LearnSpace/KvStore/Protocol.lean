import Mathlib.Algebra.Group.Int.Defs
import LearnSpace.KvStore.Bytes

/-!
# The command parser of the key-value store

`ProtocolHelper::analysis` reads length-prefixed commands from a receive
buffer. The buffer is a list of bytes `mem`, `data` is an offset into it, and
`size` is the variable of that name, which wraps when it is decreased below
zero; sizes of objects are so small that no sum of two of them does. What the
parser hands to `getCommand` is recorded in `commands`. It never adds to the
list of results, which stays empty.
-/

namespace LearnSpace.KvStore

open Keel

/-- The separator `"\r\n"`. -/
def crlf : List Byte := [13, 10]

/-- `CMByteArray("\r\n")`. -/
def crlfArray : Bytes := ⟨crlf, 2, Nat.le_refl 2⟩

/-- How `analysis` can fail to return: it reads outside the memory of the
message or past the buffer of a header, or `getCommand` does not return. -/
inductive ParseFault (ε : Type)
  | outside
  | header
  | command (e : ε)
  deriving DecidableEq, Repr

/-! ## Integers -/

/-- `int` to `size_t`. -/
def toSizeT (n : Int) : Nat := (n % 2 ^ 64).toNat

/-- `isspace` in the C locale. -/
def isSpace (b : Byte) : Bool := b == 32 || (9 ≤ b && b ≤ 13)

/-- `isdigit`. -/
def isDigit (b : Byte) : Bool := 48 ≤ b && b ≤ 57

/-- The number at the start of a memory, up to the first byte that is no
digit; `none` when the memory ends before. -/
def digits : List Byte → Nat → Option Nat
  | [], _ => none
  | b :: s, n => if isDigit b then digits s (10 * n + (b.toNat - 48)) else some n

/-- `strtol` in base 10, which saturates at the bounds of a `long`. -/
def strtol (s : List Byte) : Option Int :=
  match s.dropWhile isSpace with
  | [] => none
  | b :: s =>
    if b = 45 then (digits s 0).map (fun n : Nat => max (-(n : Int)) (-2 ^ 63))
    else if b = 43 then (digits s 0).map (fun n : Nat => min (n : Int) (2 ^ 63 - 1))
    else (digits (b :: s) 0).map (fun n : Nat => min (n : Int) (2 ^ 63 - 1))

/-- `atoi`: the `long` cut to an `int`. -/
def atoi (s : List Byte) : Option Int := (strtol s).map (fun n => n.bmod (2 ^ 32))

/-! ## Lines and commands -/

/-- The lambda `getLine`: the bytes before the first `"\r\n"` that begins at
one of the first `dataLen - 1` positions, in a fresh array. -/
def getLine {ε : Type} (mem : List Byte) (data dataLen : Nat) :
    Except (ParseFault ε) (Option Bytes) :=
  match scan crlf (mem.drop data) (sub64 dataLen 1) with
  | none => .error .outside
  | some none => .ok none
  | some (some i) => .ok (some (Bytes.new.append ((mem.drop data).take i)))

/-- `ProtocolHelper::Command`. -/
inductive Command
  | Get
  | Set
  | Del
  | Exist
  deriving DecidableEq, Repr

/-- `ProtocolHelper::_command`. -/
def Command.name : Command → List Byte
  | .Get => [71, 101, 116]
  | .Set => [83, 101, 116]
  | .Del => [68, 101, 108]
  | .Exist => [69, 120, 105, 115, 116]

/-- `strcmp(p, name) == 0`, where the bytes of `name` are followed by a zero;
`none` when the memory at `p` ends before the comparison does. -/
def sameStr : List Byte → List Byte → Option Bool
  | [], _ => none
  | b :: _, [] => some (b == 0)
  | b :: p, c :: name => if b = c then sameStr p name else some false

/-- The command with the name at `p`; `none` for `Command::Count`. -/
def commandOf (p : List Byte) : List Command → Except Fault (Option Command)
  | [] => .ok none
  | c :: cs =>
    match sameStr p c.name with
    | none => .error .overrun
    | some true => .ok (some c)
    | some false => commandOf p cs

/-- `arrays.at(pos)`. -/
def arraysAt (arrays : List Bytes) (pos : Nat) : Except Fault Bytes :=
  match arrays[pos]? with
  | none => .error .outOfRange
  | some a => .ok a

/-- The lambda `getCommand`, whose value nobody reads. A `break` leads to the
end of the lambda, which has no `return`. -/
def getCommand (commandStr : Bytes) : Except Fault Unit := do
  let arrays ← commandStr.split crlfArray (by decide)
  if arrays.isEmpty then
    return ()
  let array ← arraysAt arrays 0
  match ← commandOf array.memory [.Get, .Set, .Del, .Exist] with
  | some .Get =>
    let _key ← (← arraysAt arrays 1).chop 2
    let _value ← (← arraysAt arrays 1).chop 2
    .error .offTheEnd
  | some .Set => .error .offTheEnd
  | some .Del => .error .offTheEnd
  | some .Exist => .error .offTheEnd
  | none => return ()

/-! ## The loop -/

/-- What `analysis` returns: the bytes it handed to `getCommand`, one list per
call, and `dissipativeSize`. -/
structure Analysis where
  commands : List (List Byte)
  dissipativeSize : Nat
  deriving DecidableEq, Repr

/-- The variables of the loop. -/
structure Cursor where
  currentPos : Nat
  data : Nat
  size : Nat
  commands : List (List Byte)
  deriving DecidableEq, Repr

/-- `append(data, len)` to a fresh array; appending nothing reads nothing. -/
def readCommand {ε : Type} (mem : List Byte) (data len : Nat) :
    Except (ParseFault ε) Bytes :=
  if len = 0 then .ok (Bytes.new.append [])
  else
    match Buffer.slice mem data len with
    | none => .error .outside
    | some bytes => .ok (Bytes.new.append bytes)

variable {ε : Type}

/-- One iteration. -/
def iteration (mem : List Byte) (getCommand : Bytes → Except ε Unit) (k : Cursor) :
    Except (ParseFault ε) (Cursor ⊕ Analysis) :=
  if ¬ k.currentPos < k.size then .ok (.inr ⟨k.commands, k.currentPos⟩)
  else do
    match ← getLine mem k.data k.size with
    | none => return .inr ⟨k.commands, k.currentPos⟩
    | some commandHeader =>
      let currentPos := k.currentPos + (commandHeader.size + 2)
      -- both steps take the running total, not the bytes of this header
      let data := k.data + currentPos
      let size := sub64 k.size currentPos
      match atoi commandHeader.memory with
      | none => .error .header
      | some commandLen =>
        -- the comparison converts a negative length to a large one
        if size < toSizeT commandLen then
          return .inr ⟨k.commands, currentPos⟩
        else
          let command ← readCommand mem data (toSizeT commandLen)
          match getCommand command with
          | .error e => .error (.command e)
          | .ok () =>
            return .inl
              { currentPos := currentPos + toSizeT commandLen
                data := data
                size := size
                commands := k.commands ++ [command.content] }

/-- An iteration that goes on has found a line inside the memory, moved `data`
behind it, and handed on one more command. -/
theorem iteration_next {mem : List Byte} {g : Bytes → Except ε Unit} {k k' : Cursor}
    (h : iteration mem g k = .ok (.inl k')) :
    k.data < mem.length ∧ k.data < k'.data ∧ k.commands <+: k'.commands := by
  rw [iteration] at h
  split at h
  · cases h
  · cases hline : getLine (ε := ε) mem k.data k.size with
    | error e => simp [hline, bind, Except.bind] at h
    | ok r =>
        cases r with
        | none => simp [hline, bind, Except.bind, pure, Except.pure] at h
        | some commandHeader =>
            simp only [hline, bind, Except.bind, pure, Except.pure] at h
            repeat' split at h
            all_goals cases h
            refine ⟨?_, by dsimp only; omega, List.prefix_append _ _⟩
            rw [getLine] at hline
            split at hline
            · cases hline
            · cases hline
            · rename_i i hscan
              have hi := firstOcc_le (scan_found (by decide) hscan).2
              rw [List.length_drop] at hi
              have : crlf.length = 2 := rfl
              omega

/-- The loop is left with the commands handed on so far. -/
theorem iteration_done {mem : List Byte} {g : Bytes → Except ε Unit} {k : Cursor}
    {a : Analysis} (h : iteration mem g k = .ok (.inr a)) : a.commands = k.commands := by
  rw [iteration] at h
  split at h
  · cases h
    rfl
  · cases hline : getLine (ε := ε) mem k.data k.size with
    | error e => simp [hline, bind, Except.bind] at h
    | ok r =>
        simp only [hline, bind, Except.bind, pure, Except.pure] at h
        repeat' split at h
        all_goals cases h
        all_goals rfl

/-- The loop of `analysis`. -/
def analysisLoop (mem : List Byte) (getCommand : Bytes → Except ε Unit) :
    While Cursor (ParseFault ε) Analysis where
  body := iteration mem getCommand
  measure k := mem.length - k.data
  decreases k k' h := by
    have := iteration_next h
    omega

@[simp] theorem analysisLoop_body (mem : List Byte) (g : Bytes → Except ε Unit) (k : Cursor) :
    (analysisLoop mem g).body k = iteration mem g k := rfl

/-- The variables before the loop. -/
def Cursor.start (size : Nat) : Cursor := ⟨0, 0, size, []⟩

/-- `ProtocolHelper::analysis`, with any `getCommand`. -/
def analysis (getCommand : Bytes → Except ε Unit) (msgData : Bytes) :
    Except (ParseFault ε) Analysis :=
  (analysisLoop msgData.memory getCommand).run (.start msgData.size)

/-- `KVTcpClient::recvImp` on `_recvBuffer`, and the bytes of the commands. -/
def recvImp (getCommand : Bytes → Except ε Unit) (recvBuffer : Bytes) :
    Except (ParseFault ε) (Bytes × List (List Byte)) := do
  let r ← analysis getCommand recvBuffer
  return (recvBuffer.remove 0 r.dissipativeSize (Nat.zero_le _), r.commands)

end LearnSpace.KvStore
