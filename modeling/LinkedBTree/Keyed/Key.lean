namespace LinkedBTree

/-! Values for trees whose order looks at a key first: a key is a number, a
text or a list of keys, and a tag tells values of one key apart. -/

inductive Key
  | number (value : Int)
  | text (value : String)
  | list (keys : List Key)
  deriving Repr

namespace Key

mutual

def compare : Key → Key → Ordering
  | number left, number right => Ord.compare left right
  | text left, text right => Ord.compare left right
  | list left, list right => compareAll left right
  | number _, _ => .lt
  | _, number _ => .gt
  | text _, list _ => .lt
  | list _, text _ => .gt

/-- The first difference decides; else the shorter list comes first. -/
def compareAll : List Key → List Key → Ordering
  | [], [] => .eq
  | [], _ :: _ => .lt
  | _ :: _, [] => .gt
  | left :: lefts, right :: rights =>
      (compare left right).then (compareAll lefts rights)

end

instance : Ord Key := ⟨compare⟩

end Key

structure Keyed where
  key : Key
  tag : Int64 := 0
  deriving Repr

namespace Keyed

def compare (left right : Keyed) : Ordering :=
  (left.key.compare right.key).then (Ord.compare left.tag right.tag)

instance : Ord Keyed := ⟨compare⟩

/-- Adds to the tag, which wraps around at its width. -/
def addTag (amount : Int64) (value : Keyed) : Keyed :=
  { value with tag := value.tag + amount }

end Keyed

end LinkedBTree
