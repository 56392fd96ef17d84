import Osnt.Lib.CString

/-! `urlencode` and `urldecode` of `or_utils.c`.

An access outside a buffer and a signed overflow, which C leaves undefined, give `none`. An `int`
has 32 bits, a `char` is signed, and `malloc` does not fail. -/
namespace Osnt.Scone.Url
open Lib Lib.Buffer Lib.CString

/-- The `int` that a `size_t` is assigned to. -/
def asInt (n : Nat) : Int := (BitVec.ofNat 32 n).toInt

/-- The sum of two numbers that are not negative, as an `int`. -/
def addInt (a b : Nat) : Option Nat := if a + b < 2 ^ 31 then some (a + b) else none

/-- A digit or a letter. -/
def isAlnum (c : BitVec 8) : Bool :=
  BitVec.sle 48 c && c.sle 57 || BitVec.sle 97 c && c.sle 122 || BitVec.sle 65 c && c.sle 90

/-- `sprintf(buf, "%X", v)` into a buffer of that size. -/
def sprintfX (size : Nat) (v : BitVec 32) : Option Bytes :=
  let text := (Nat.toDigits 16 v.toNat).map (fun d => BitVec.ofNat 8 d.toUpper.toNat) ++ [0]
  if text.length ≤ size then some text else none

/-- `sscanf(buf, "%X", &v)` of one character, which leaves `v` alone if it is not a digit. -/
def sscanfX (c : BitVec 8) (v : BitVec 32) : BitVec 32 :=
  if 48 ≤ c ∧ c ≤ 57 then (c - 48).setWidth 32
  else if 65 ≤ c ∧ c ≤ 70 then (c - 55).setWidth 32
  else if 97 ≤ c ∧ c ≤ 102 then (c - 87).setWidth 32
  else v

/-- The body of the loop of `urlencode`. -/
def encodeChar (ret : Bytes) (pos : Nat) (c : BitVec 8) : Option (Bytes × Nat) := do
  if isAlnum c then
    let ret ← store8 ret pos c
    return (ret, ← addInt pos 1)
  else
    let ret ← store8 ret pos 37
    let buf ← sprintfX 2 ((c.signExtend 32).sshiftRight 4 &&& 0x0F)
    let ret ← store8 ret (← addInt pos 1) (← load8 buf 0)
    let buf ← sprintfX 2 (c.signExtend 32 &&& 0x0F)
    let ret ← store8 ret (← addInt pos 2) (← load8 buf 0)
    return (ret, ← addInt pos 3)

/-- The loop of `urlencode`, from the `i`-th byte on, with so many turns left. -/
def encodeLoop (str : Bytes) : Nat → Nat → Bytes → Nat → Option (Bytes × Nat)
  | 0, _, ret, pos => some (ret, pos)
  | turns + 1, i, ret, pos => do
    let c ← load8 str i
    let (ret, pos) ← encodeChar ret pos c
    encodeLoop str turns (i + 1) ret pos

/-- `urlencode`: the block with the result. -/
def urlencode (malloc : Malloc) (str : Bytes) : Option Bytes := do
  let length ← strlen str
  let ret := (malloc (3 * length + 1)).toList
  let len := asInt length
  let (ret, pos) ← encodeLoop str len.toNat 0 ret 0
  store8 ret pos 0

/-- The loop of `urldecode`, which goes on behind an escape. -/
def decodeLoop (str : Bytes) (len i : Nat) (ret : Bytes) (pos : Nat) : Option (Bytes × Nat) :=
  if i < len then do
    let c ← load8 str i
    let escape ← if c = 37 then (addInt i 2).map fun j => decide (j < len) else some false
    if escape then
      let high := sscanfX (← load8 str (i + 1)) 0
      let low := sscanfX (← load8 str (i + 2)) 0
      let ret ← store8 ret pos ((high <<< 4 ||| low).setWidth 8)
      decodeLoop str len (i + 3) ret (← addInt pos 1)
    else
      let ret ← store8 ret pos (if c = 43 then 32 else c)
      decodeLoop str len (i + 1) ret (← addInt pos 1)
  else some (ret, pos)
termination_by len - i

/-- `urldecode`: the block with the result. -/
def urldecode (malloc : Malloc) (str : Bytes) : Option Bytes := do
  let length ← strlen str
  let ret := (malloc (length + 1)).toList
  let len := asInt length
  let (ret, pos) ← decodeLoop str len.toNat 0 ret 0
  store8 ret pos 0

end Osnt.Scone.Url
