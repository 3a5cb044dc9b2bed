import LinkedBTree.Proofs.Tree.Renaming

namespace LinkedBTree

/-! What a dump tells of a tree: its shape, with all handles. -/

variable {α : Type}

open Subtree

namespace Tree

def Row.rename (change : NodeId → NodeId) (row : Row α) : Row α where
  id := change row.id
  parent := row.parent.map change
  list := row.list
  children := row.children.map change

/-- The one dump is the other under other handles, no two of which are the
same. -/
def Renames (rows others : List (Row α)) : Prop :=
  ∃ change : NodeId → NodeId, rows.map (Row.rename change) = others ∧
    ∀ left ∈ rows, ∀ right ∈ rows,
      change left.id = change right.id → left.id = right.id

def Resembles (tree other : Tree α) : Prop :=
  ∃ rows others, tree.dump = .ok rows ∧ other.dump = .ok others ∧
    Renames rows others

end Tree

namespace Subtree

/-- The rows of a dump, where the shape is below `parent`. -/
def rows (parent : Option NodeId) : Shape α → List (Tree.Row α)
  | node id payload children =>
      ⟨id, parent, payload, children.map Subtree.id⟩ ::
        children.flatMap (rows (some id))

variable {shape other : Shape α} {parent above : Option NodeId}

theorem rows_node (id : NodeId) (payload : Option (EntryList α))
    (children : List (Shape α)) : (node id payload children).rows parent =
      ⟨id, parent, payload, children.map Subtree.id⟩ ::
        children.flatMap (rows (some id)) := by
  rw [rows]

theorem map_id_rows : (shape.rows parent).map Tree.Row.id = shape.ids := by
  induction shape using Subtree.induction generalizing parent with
  | node id payload children induction =>
      rw [rows_node, ids_node, List.map_cons, List.map_flatMap, List.flatMap_def,
        List.flatMap_def]
      exact congrArg (id :: List.flatten ·)
        (List.map_congr_left fun child member => induction child member)

theorem rows_rename (change : NodeId → NodeId) :
    (shape.rename change).rows (parent.map change) =
      (shape.rows parent).map (Tree.Row.rename change) := by
  induction shape using Subtree.induction generalizing parent with
  | node id payload children induction =>
      have ids : (children.map (rename change)).map Subtree.id =
          (children.map Subtree.id).map change := by
        rw [List.map_map, List.map_map]
        exact List.map_congr_left fun child _ => id_rename change child
      rw [rename_node, rows_node, rows_node, List.map_cons, List.map_flatMap,
        List.flatMap_map, List.flatMap_def, List.flatMap_def, ids]
      exact congrArg (_ :: List.flatten ·)
        (List.map_congr_left fun child member => @induction child member (some id))

theorem eq_of_rows {rest later : List (Tree.Row α)}
    (same : shape.rows parent ++ rest = other.rows above ++ later) :
    shape = other ∧ rest = later := by
  induction shape using Subtree.induction generalizing parent above other rest later with
  | node id payload children induction =>
      obtain ⟨otherId, otherPayload, others⟩ := other
      rw [rows_node, rows_node, List.cons_append, List.cons_append,
        List.cons.injEq] at same
      obtain ⟨isRow, same⟩ := same
      injection isRow with isId _ isPayload below
      subst isId isPayload
      -- The handles in a row tell how many blocks of the rows after it are its own.
      suffices children = others ∧ rest = later by
        rw [this.1]
        exact ⟨rfl, this.2⟩
      induction children generalizing others with
      | nil =>
          obtain rfl := List.map_eq_nil_iff.mp below.symm
          exact ⟨rfl, same⟩
      | cons child rest following =>
          obtain ⟨next, remaining, rfl, _, isBelow⟩ :=
            List.map_eq_cons_iff.mp below.symm
          rw [List.flatMap_cons, List.flatMap_cons, List.append_assoc,
            List.append_assoc] at same
          obtain ⟨rfl, beyond⟩ := induction child (by simp) same
          obtain ⟨rfl, ends⟩ := following (fun other member =>
            induction other (by simp [member])) remaining isBelow.symm beyond
          exact ⟨rfl, ends⟩

theorem renames_iff (nodup : shape.ids.Nodup) (alsoNodup : other.ids.Nodup) :
    Tree.Renames (shape.rows none) (other.rows none) ↔
      shape.anonymous = other.anonymous := by
  have isId : ∀ {id}, id ∈ shape.ids ↔
      ∃ row ∈ shape.rows none, row.id = id := by
    intro id
    rw [← @map_id_rows α shape none, List.mem_map]
  constructor
  · rintro ⟨change, same, _⟩
    have same : (shape.rename change).rows none ++ [] = other.rows none ++ [] := by
      rw [List.append_nil, List.append_nil, ← same]
      exact @rows_rename α shape none change
    rw [← (eq_of_rows same).1, anonymous_rename]
  · intro same
    obtain ⟨change, rfl, injective⟩ := exists_renaming same nodup alsoNodup
    refine ⟨change, (@rows_rename α shape none change).symm, ?_⟩
    intro left isLeft right isRight
    exact injective _ (isId.mpr ⟨left, isLeft, rfl⟩) _
      (isId.mpr ⟨right, isRight, rfl⟩)

end Subtree

namespace Tree

variable {tree other : Tree α} {shape : Shape α}

private def readRow (tree : Tree α) (id : NodeId) : Except Error (Row α) := do
  let node ← tree.arena.read id
  pure ⟨id, node.parent, node.payload, ← tree.arena.childList node⟩

private theorem mapM_rows {kids : NodeId → List NodeId} {parent : Option NodeId}
    (forest : tree.arena.Forest kids) (held : tree.arena.Holds kids shape)
    (below : ∀ node, tree.arena.node? shape.id = some node → node.parent = parent) :
    shape.ids.mapM tree.readRow = .ok (shape.rows parent) := by
  induction shape using Subtree.induction generalizing parent with
  | node id payload children induction =>
      obtain ⟨carried, isKids, heldBelow⟩ := Arena.holds_node.mp held
      obtain ⟨node, found, rfl⟩ := Arena.carried?_eq_some.mp carried
      have isParent : node.parent = parent := below node found
      have isRow : tree.readRow id =
          .ok ⟨id, parent, node.payload, children.map Subtree.id⟩ := by
        unfold readRow
        rw [bind_of_ok (Arena.read_eq found), bind_of_ok (forest.childList_eq found),
          isParent, isKids]
        rfl
      have through : ∀ items : List (Shape α), (∀ item ∈ items, item ∈ children) →
          (items.flatMap ids).mapM tree.readRow =
            .ok (items.flatMap (rows (some id))) := by
        intro items inside
        induction items with
        | nil => rfl
        | cons item rest following =>
            have isChild := inside item (by simp)
            have isBelow : ∀ node, tree.arena.node? item.id = some node →
                node.parent = some id := by
              intro node found
              have listed : item.id ∈ kids id :=
                isKids ▸ List.mem_map_of_mem isChild
              exact (forest.mem_iff found).mp listed
            rw [List.flatMap_cons, List.mapM_append,
              bind_of_ok (induction item isChild (heldBelow item isChild) isBelow),
              bind_of_ok (following fun other member =>
                inside other (by simp [member]))]
            rfl
      rw [ids_node, List.mapM_cons, bind_of_ok isRow,
        bind_of_ok (through children fun _ member => member), rows_node]
      rfl

theorem dump_eq (embodies : tree.Embodies shape) :
    tree.dump = .ok (shape.rows none) := by
  obtain ⟨isRoot, kids, whole⟩ := embodies
  unfold dump
  rw [← isRoot, bind_of_ok (whole.forest.preorder_eq whole.held)]
  exact mapM_rows whole.forest whole.held whole.top

theorem resembles_iff {final : Shape α} (embodies : tree.Embodies shape)
    (also : other.Embodies final) :
    tree.Resembles other ↔ shape.anonymous = final.anonymous := by
  obtain ⟨kids, whole⟩ := embodies.2
  obtain ⟨others, again⟩ := also.2
  rw [← renames_iff (whole.forest.nodup_ids whole.held)
    (again.forest.nodup_ids again.held)]
  constructor
  · rintro ⟨rows, _, isRows, areOthers, renames⟩
    obtain rfl := Except.ok.inj ((dump_eq embodies).symm.trans isRows)
    obtain rfl := Except.ok.inj ((dump_eq also).symm.trans areOthers)
    exact renames
  · exact fun renames => ⟨_, _, dump_eq embodies, dump_eq also, renames⟩

end Tree

end LinkedBTree
