namespace LinkedBTree

/-! Handles to arena nodes. A slot changes its generation whenever its node is
released, so a handle kept too long no longer matches its slot. -/

structure NodeId where
  index : Nat
  generation : UInt32
  deriving DecidableEq, Repr

instance : ToString NodeId :=
  ⟨fun id => s!"Node({id.index}@{id.generation})"⟩

end LinkedBTree
