/-
  `_views/fractional_index.py`: order keys between order keys.

  A key is an integer part, whose first letter fixes its length, and a fraction that does not end in
  zero; keys compare as strings. `generate_key_between` finds a key between two others; the keys that
  a view stores have a random tail besides. Strings are lists of characters. The random source is a
  stream of numbers, each choice being made with the next of them.
-/
import Mathlib.Data.Char
import Mathlib.Data.List.Lex
import Virtuals.Lib.Coupled

namespace Virtuals.FractionalIndex

open Virtuals.Lib

/-- An order key, or a part of one. -/
abbrev OrderKey := List Char

/-- The digits, ascending. -/
def BASE_62_DIGITS : List Char :=
  "0123456789ABCDEFGHIJKLMNOPQRSTUVWXYZabcdefghijklmnopqrstuvwxyz".toList

/-- `_SMALLEST_INTEGER`. -/
def SMALLEST_INTEGER : OrderKey := 'A' :: List.replicate 26 '0'

/-- `_INTEGER_ZERO`. -/
def INTEGER_ZERO : OrderKey := ['a', '0']

/-- What the module raises: a ValueError, but for the first two. -/
inductive OrderKeyError
  /-- `key[0]` of an empty string -/
  | emptyString
  /-- the rounds that the model allows a loop are used up -/
  | running
  | notBelow (a b : OrderKey)
  | trailingZero
  /-- `BASE_62_DIGITS.index` of another character -/
  | notDigit (c : Char)
  | invalidHead (head : Char)
  | invalidKey (key : OrderKey)
  | invalidInteger (integer : OrderKey)
  | cannotDecrement
  | cannotIncrement
  | suffixLength
  deriving DecidableEq, Repr

/-- `BASE_62_DIGITS.index(c)`. -/
def indexOf (c : Char) : Except OrderKeyError Nat :=
  match BASE_62_DIGITS.idxOf? c with
  | some i => .ok i
  | none => .error (.notDigit c)

/-- `BASE_62_DIGITS[i]`. -/
def digitAt (i : Nat) : Char := BASE_62_DIGITS.getD i '0'

/-- `s.endswith("0")`. -/
def endsWithZero (s : OrderKey) : Bool := s.getLast? == some '0'

/-! ## The midpoint -/

/-- `_midpoint(a, None)`. -/
def midpointAbove : OrderKey → Except OrderKeyError OrderKey
  | [] => .ok [digitAt ((0 + BASE_62_DIGITS.length + 1) / 2)]
  | c :: a =>
    if endsWithZero (c :: a) then .error .trailingZero
    else do
      let digit ← indexOf c
      if BASE_62_DIGITS.length - digit > 1 then
        return [digitAt ((digit + BASE_62_DIGITS.length + 1) / 2)]
      else return digitAt digit :: (← midpointAbove a)

/-- `BASE_62_DIGITS.index(a[0]) if a else 0`. -/
def firstIndex : OrderKey → Except OrderKeyError Nat
  | [] => .ok 0
  | c :: _ => indexOf c

/-- How many digits `a`, with zeros after it, and `b` begin with in common. -/
def commonLength (a : OrderKey) : OrderKey → Nat
  | [] => 0
  | c :: b => if a.headD '0' = c then commonLength a.tail b + 1 else 0

theorem commonLength_le (a b : OrderKey) : commonLength a b ≤ b.length := by
  induction b generalizing a with
  | nil => exact Nat.le_refl 0
  | cons c b ih =>
    rw [commonLength]
    split
    · exact Nat.succ_le_succ (ih a.tail)
    · exact Nat.zero_le _

/-- `_midpoint(a, b)` for a `b` that is given. -/
def midpointBelow (a b : OrderKey) : Except OrderKeyError OrderKey :=
  if ¬ a < b then .error (.notBelow a b)
  else if endsWithZero a || endsWithZero b then .error .trailingZero
  else if 0 < commonLength a b then
    (b.take (commonLength a b) ++ ·) <$>
      midpointBelow (a.drop (commonLength a b)) (b.drop (commonLength a b))
  else do
    let digitA ← firstIndex a
    let digitB ← firstIndex b
    if digitB - digitA > 1 then return [digitAt ((digitA + digitB + 1) / 2)]
    else if 1 < b.length then return b.take 1
    else return digitAt digitA :: (← midpointAbove a.tail)
termination_by b.length
decreasing_by
  have hle := commonLength_le a b
  rw [List.length_drop]
  omega

/-- `_midpoint`. -/
def midpoint (a : OrderKey) : Option OrderKey → Except OrderKeyError OrderKey
  | none => midpointAbove a
  | some b => midpointBelow a b

/-! ## Integers -/

/-- `_integer_length`. -/
def integerLength (head : Char) : Except OrderKeyError Nat :=
  if 'a' ≤ head ∧ head ≤ 'z' then .ok (head.toNat - 'a'.toNat + 2)
  else if 'A' ≤ head ∧ head ≤ 'Z' then .ok ('Z'.toNat - head.toNat + 2)
  else .error (.invalidHead head)

/-- `_integer_part`. -/
def integerPart : OrderKey → Except OrderKeyError OrderKey
  | [] => .error .emptyString
  | head :: rest => do
    let length ← integerLength head
    if (head :: rest).length < length then .error (.invalidKey (head :: rest))
    else return (head :: rest).take length

/-- `_validate_integer`. -/
def validateInteger : OrderKey → Except OrderKeyError Unit
  | [] => .error .emptyString
  | head :: digs => do
    let length ← integerLength head
    if (head :: digs).length ≠ length then .error (.invalidInteger (head :: digs))
    else return ()

/-- `validate_order_key`. -/
def validateOrderKey (key : OrderKey) : Except OrderKeyError Unit :=
  if key = [] then .error (.invalidKey key)
  else if key = SMALLEST_INTEGER then .error (.invalidKey key)
  else do
    let integer ← integerPart key
    if endsWithZero (key.drop integer.length) then .error (.invalidKey key)
    else if key.tail.all (· ∈ BASE_62_DIGITS) then return ()
    else .error (.invalidKey key)

/-- The loop of `_increment_integer`, from the last digit: the digits and the carry left. -/
def incrementDigits : List Char → Except OrderKeyError (List Char × Bool)
  | [] => .ok ([], true)
  | c :: digs => do
    let (digs, carry) ← incrementDigits digs
    if carry then do
      let d := (← indexOf c) + 1
      if d = BASE_62_DIGITS.length then return ('0' :: digs, true)
      else return (digitAt d :: digs, false)
    else return (c :: digs, false)

/-- `_increment_integer`: the next integer part, none at the largest. -/
def incrementInteger (integer : OrderKey) : Except OrderKeyError (Option OrderKey) := do
  validateInteger integer
  match integer with
  | [] => .error .emptyString
  | head :: digs => do
    let (digs, carry) ← incrementDigits digs
    if !carry then return some (head :: digs)
    else if head = 'Z' then return some ['a', '0']
    else if head = 'z' then return none
    else
      let h := Char.ofNat (head.toNat + 1)
      return some (h :: if 'a' < h then digs ++ ['0'] else digs.dropLast)

/-- The loop of `_decrement_integer`, from the last digit: the digits and the borrow left. -/
def decrementDigits : List Char → Except OrderKeyError (List Char × Bool)
  | [] => .ok ([], true)
  | c :: digs => do
    let (digs, borrow) ← decrementDigits digs
    if borrow then do
      let d ← indexOf c
      if d = 0 then return ('z' :: digs, true)
      else return (digitAt (d - 1) :: digs, false)
    else return (c :: digs, false)

/-- `_decrement_integer`: the previous integer part, none at the smallest. -/
def decrementInteger (integer : OrderKey) : Except OrderKeyError (Option OrderKey) := do
  validateInteger integer
  match integer with
  | [] => .error .emptyString
  | head :: digs => do
    let (digs, borrow) ← decrementDigits digs
    if !borrow then return some (head :: digs)
    else if head = 'a' then return some ['Z', 'z']
    else if head = 'A' then return none
    else
      let h := Char.ofNat (head.toNat - 1)
      return some (h :: if h < 'Z' then digs ++ ['z'] else digs.dropLast)

/-! ## Plain keys -/

/-- A bound that is given is checked. -/
def validateBound : Option OrderKey → Except OrderKeyError Unit
  | some key => validateOrderKey key
  | none => .ok ()

/-- The order of bounds that are both given. -/
def checkOrdered : Option OrderKey → Option OrderKey → Except OrderKeyError Unit
  | some a, some b => if ¬ a < b then .error (.notBelow a b) else .ok ()
  | _, _ => .ok ()

/-- `generate_key_between`, the bounds checked. -/
def keyBetween : Option OrderKey → Option OrderKey → Except OrderKeyError OrderKey
  | none, none => .ok INTEGER_ZERO
  | none, some b => do
    let ib ← integerPart b
    let fb := b.drop ib.length
    if ib = SMALLEST_INTEGER then (ib ++ ·) <$> midpoint [] (some fb)
    else if ib < b then return ib
    else match ← decrementInteger ib with
      | none => .error .cannotDecrement
      | some res => return res
  | some a, none => do
    let ia ← integerPart a
    let fa := a.drop ia.length
    match ← incrementInteger ia with
    | none => (ia ++ ·) <$> midpoint fa none
    | some i => return i
  | some a, some b => do
    let ia ← integerPart a
    let fa := a.drop ia.length
    let ib ← integerPart b
    let fb := b.drop ib.length
    if ia = ib then (ia ++ ·) <$> midpoint fa (some fb)
    else match ← incrementInteger ia with
      | none => .error .cannotIncrement
      | some i => if i < b then return i else (ia ++ ·) <$> midpoint fa none

/-- `generate_key_between`. -/
def generateKeyBetween (a b : Option OrderKey) : Except OrderKeyError OrderKey := do
  validateBound a
  validateBound b
  checkOrdered a b
  keyBetween a b

/-- The keys of `generate_n_keys_between` above the last of them, one after another. -/
def keysAbove (last : OrderKey) : Nat → Except OrderKeyError (List OrderKey)
  | 0 => .ok []
  | n + 1 => do
    let key ← generateKeyBetween (some last) none
    return key :: (← keysAbove key n)

/-- The keys of `generate_n_keys_between` below the last of them, in the order they are made. -/
def keysBelow (last : OrderKey) : Nat → Except OrderKeyError (List OrderKey)
  | 0 => .ok []
  | n + 1 => do
    let key ← generateKeyBetween none (some last)
    return key :: (← keysBelow key n)

/-- `generate_n_keys_between`. -/
def generateNKeysBetween (a b : Option OrderKey) (n : Nat) : Except OrderKeyError (List OrderKey) :=
  if n = 0 then .ok []
  else if n = 1 then (fun key => [key]) <$> generateKeyBetween a b
  else if b = none then do
    let key ← generateKeyBetween a none
    return key :: (← keysAbove key (n - 1))
  else if a = none then do
    let key ← generateKeyBetween none b
    return (key :: (← keysBelow key (n - 1))).reverse
  else do
    let c ← generateKeyBetween a b
    let left ← generateNKeysBetween a (some c) (n / 2)
    let right ← generateNKeysBetween (some c) b (n - n / 2 - 1)
    return left ++ c :: right
termination_by n
decreasing_by all_goals omega

/-! ## Suffixed keys -/

/-- The numbers that the random source will give. -/
abbrev Coins := Nat → Nat

/-- `secrets.choice`. -/
def choice (l : List Char) : EStateM OrderKeyError Coins Char := do
  let coins ← get
  set (fun n => coins (n + 1) : Coins)
  return l.getD (coins 0 % l.length) '0'

/-- `_random_suffix`. -/
def randomSuffix (length : Nat) : EStateM OrderKeyError Coins OrderKey :=
  if length < 1 then throw .suffixLength
  else do
    let body ← (List.range (length - 1)).mapM fun _ => choice BASE_62_DIGITS
    let last ← choice BASE_62_DIGITS.tail
    return body ++ [last]

/-- The loop of `generate_suffixed_key_between`: while the key begins the upper bound, it becomes
the bound itself. -/
def stepDown (a : Option OrderKey) (b : OrderKey) : Nat → OrderKey →
    Except OrderKeyError OrderKey
  | 0, _ => .error .running
  | rounds + 1, k =>
    if k.isPrefixOf b then do
      let k ← generateKeyBetween a (some k)
      stepDown a b rounds k
    else .ok k

/-- The key that the tail is appended to; each round of the loop shortens a beginning of `b`. -/
def baseKey (a : Option OrderKey) : Option OrderKey → Except OrderKeyError OrderKey
  | none => generateKeyBetween a none
  | some b => do
    let k ← generateKeyBetween a (some b)
    stepDown a b (b.length + 2) k

/-- `generate_suffixed_key_between`. -/
def generateSuffixedKeyBetween (a b : Option OrderKey) (suffixLength : Nat) :
    EStateM OrderKeyError Coins OrderKey := do
  let k ← liftResult (baseKey a b)
  let tail ← randomSuffix suffixLength
  return k ++ tail

/-- The keys of `generate_n_suffixed_keys_between` above the last of them. -/
def suffixedKeysAbove (suffixLength : Nat) (last : OrderKey) :
    Nat → EStateM OrderKeyError Coins (List OrderKey)
  | 0 => pure []
  | n + 1 => do
    let key ← generateSuffixedKeyBetween (some last) none suffixLength
    let keys ← suffixedKeysAbove suffixLength key n
    return key :: keys

/-- The keys of `generate_n_suffixed_keys_between` below the last of them, as they are made. -/
def suffixedKeysBelow (suffixLength : Nat) (last : OrderKey) :
    Nat → EStateM OrderKeyError Coins (List OrderKey)
  | 0 => pure []
  | n + 1 => do
    let key ← generateSuffixedKeyBetween none (some last) suffixLength
    let keys ← suffixedKeysBelow suffixLength key n
    return key :: keys

/-- `generate_n_suffixed_keys_between`. -/
def generateNSuffixedKeysBetween (a b : Option OrderKey) (n suffixLength : Nat) :
    EStateM OrderKeyError Coins (List OrderKey) :=
  if n = 0 then pure []
  else if n = 1 then (fun key => [key]) <$> generateSuffixedKeyBetween a b suffixLength
  else if b = none then do
    let key ← generateSuffixedKeyBetween a none suffixLength
    let keys ← suffixedKeysAbove suffixLength key (n - 1)
    return key :: keys
  else if a = none then do
    let key ← generateSuffixedKeyBetween none b suffixLength
    let keys ← suffixedKeysBelow suffixLength key (n - 1)
    return (key :: keys).reverse
  else do
    let c ← generateSuffixedKeyBetween a b suffixLength
    let left ← generateNSuffixedKeysBetween a (some c) (n / 2) suffixLength
    let right ← generateNSuffixedKeysBetween (some c) b (n - n / 2 - 1) suffixLength
    return left ++ c :: right
termination_by n
decreasing_by all_goals omega

end Virtuals.FractionalIndex
