import LinkedBTree.Proofs.Tree.Chunks

namespace LinkedBTree.Tree

/-! Places among the leaves of a tree, and the entries on both sides of them. -/

variable {α : Type}

open Subtree

/-- These are the leaves from left to right, each with its list. -/
structure Bears (tree : Tree α) (leaves : List (NodeId × EntryList α)) : Prop where
  ids : tree.arena.leaves tree.root = .ok (leaves.map Prod.fst)
  lists : tree.arena.leafPayloads tree.root = .ok (leaves.map Prod.snd)

/-- A place before this element of one of the leaves, or behind its last element. -/
structure Place (leaves : List (NodeId × EntryList α)) (leaf : NodeId)
    (element : Nat) where
  left : List (NodeId × EntryList α)
  list : EntryList α
  right : List (NodeId × EntryList α)
  parted : leaves = left ++ (leaf, list) :: right
  inRange : element ≤ list.length

namespace Place

variable {leaves : List (NodeId × EntryList α)} {leaf : NodeId} {element : Nat}
  (place : Place leaves leaf element)

def before : List (Entry α) :=
  place.left.flatMap (·.2.entries) ++ place.list.entries.take element

def after : List (Entry α) :=
  place.list.entries.drop element ++ place.right.flatMap (·.2.entries)

end Place

def leavesIn (shape : Shape α) : List (NodeId × EntryList α) :=
  shape.tips.map fun tip => (tip.id, ⟨tip.own⟩)

theorem Upright.bears {tree : Tree α} {shape : Shape α}
    (upright : tree.Upright shape) : tree.Bears (leavesIn shape) where
  ids := by
    rw [leaves_eq upright, leavesIn, List.map_map]
    rfl
  lists := by
    rw [leafPayloads_eq upright, leavesIn, List.map_map]
    rfl

section

variable {path : List (Frame α)} {leaf : NodeId} {front back : List (Entry α)}

private theorem flatMap_leaves (tips : List (Shape α)) :
    (tips.map fun tip => (tip.id, (⟨tip.own⟩ : EntryList α))).flatMap (·.2.entries) =
      (tips.map own).flatten := by
  rw [List.flatMap_map, List.flatMap_def]

def placeIn (path : List (Frame α)) (leaf : NodeId) (front back : List (Entry α)) :
    Place (leavesIn (plug path (.node leaf (some ⟨front ++ back⟩) []))) leaf
      front.length where
  left := (tipsLeft path).map fun tip => (tip.id, ⟨tip.own⟩)
  list := ⟨front ++ back⟩
  right := (tipsRight path).map fun tip => (tip.id, ⟨tip.own⟩)
  parted := by
    rw [leavesIn, tips_plug, tips_leaf]
    simp
  inRange := by simp [EntryList.length]

@[simp] theorem before_placeIn :
    (placeIn path leaf front back).before = leftOf path ++ front := by
  simp only [Place.before, placeIn, flatMap_leaves, List.take_left]
  rw [← flatten_chunksLeft, chunksLeft]

@[simp] theorem after_placeIn :
    (placeIn path leaf front back).after = back ++ rightOf path := by
  simp only [Place.after, placeIn, flatMap_leaves, List.drop_left]
  rw [← flatten_chunksRight, chunksRight]

end

end LinkedBTree.Tree
