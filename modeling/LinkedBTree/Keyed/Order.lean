import LinkedBTree.Comparator
import LinkedBTree.Keyed.Key

namespace LinkedBTree

/-! Orders on keyed values. Some look at part of a value, some are no orders at
all, and some refuse to answer. -/

inductive Order
  /-- By key, then by tag. -/
  | natural
  | reversed
  /-- By key alone. -/
  | byKey
  /-- Texts by the number of their bytes. -/
  | byLength
  /-- Numbers by their remainder. -/
  | byRemainder (modulus : Int)
  /-- Numbers, taking those at most this far apart for equal. -/
  | within (distance : Int)
  | constant (answer : Ordering)
  /-- Refuses this one call, counted from 1. -/
  | failingAt (call : Nat) (category : Category)
  /-- Refuses a key on the left. -/
  | refusingLeft (key : Key) (category : Category)
  /-- Refuses a key on the right. -/
  | refusingRight (key : Key) (category : Category)

namespace Order

def onNumbers (answer : Int → Int → Ordering) (left right : Keyed) :
    Except Error Ordering :=
  match left.key, right.key with
  | .number left, .number right => pure (answer left right)
  | _, _ => raise (.reported .comparison "not an integer")

def onTexts (answer : String → String → Ordering) (left right : Keyed) :
    Except Error Ordering :=
  match left.key, right.key with
  | .text left, .text right => pure (answer left right)
  | _, _ => raise (.reported .comparison "not a string")

def answer (order : Order) (calls : Nat) (left right : Keyed) :
    Except Error Ordering :=
  match order with
  | natural => pure (left.compare right)
  | reversed => pure (right.compare left)
  | byKey => pure (left.key.compare right.key)
  | byLength => onTexts (fun left right =>
      compare left.utf8ByteSize right.utf8ByteSize) left right
  | byRemainder modulus => onNumbers (fun left right =>
      compare (left % modulus) (right % modulus)) left right
  | within distance => onNumbers (fun left right =>
      if (left - right).natAbs ≤ distance then .eq else compare left right)
      left right
  | constant ordering => pure ordering
  | failingAt call category =>
      if calls = call then
        raise (.reported category s!"call {call}")
      else
        pure (left.compare right)
  | refusingLeft key category =>
      if left.key.compare key = .eq then
        raise (.reported category "refused a")
      else
        pure (left.compare right)
  | refusingRight key category =>
      if right.key.compare key = .eq then
        raise (.reported category "refused b")
      else
        pure (left.compare right)

def comparator (order : Order) : Comparator (CallLog Keyed) Keyed :=
  .logged order.answer

end Order

end LinkedBTree
