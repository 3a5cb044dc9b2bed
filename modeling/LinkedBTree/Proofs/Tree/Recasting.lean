import LinkedBTree.Proofs.Tree.Copying
import LinkedBTree.Proofs.Tree.Dumping

namespace LinkedBTree

/-! The same nodes with other lists in them. A copy is that, under other
handles. -/

variable {P α : Type}

namespace Subtree

def recast (change : P → P) : Subtree P → Subtree P
  | node id payload children =>
      node id (payload.map change) (children.map (recast change))

variable {change : P → P}

@[simp] theorem recast_node (id : NodeId) (payload : Option P)
    (children : List (Subtree P)) :
    (node id payload children).recast change =
      node id (payload.map change) (children.map (recast change)) := by
  rw [recast]

@[simp] theorem recast_same (tree : Subtree P) :
    tree.recast (fun payload => payload) = tree := by
  induction tree with
  | node id payload children induction =>
      rw [recast_node, Option.map_id', List.map_congr_left induction, List.map_id']

@[simp] theorem id_recast (tree : Subtree P) : (tree.recast change).id = tree.id := by
  cases tree
  rw [recast_node]
  rfl

theorem twigs_recast (tree : Subtree P) : (tree.recast change).twigs =
    tree.twigs.map fun twig => { twig with payload := twig.payload.map change } := by
  induction tree with
  | node id payload children induction =>
      rw [recast_node, twigs_node, twigs_node, List.map_cons, List.map_map,
        List.flatMap_map, List.map_flatMap, List.flatMap_def, List.flatMap_def]
      have ids : Subtree.id ∘ recast change = Subtree.id (P := P) := by
        funext child
        exact id_recast child
      rw [ids]
      exact congrArg (_ :: List.flatten ·) (List.map_congr_left induction)

@[simp] theorem ids_recast (tree : Subtree P) :
    (tree.recast change).ids = tree.ids := by
  rw [ids, twigs_recast, List.map_map]
  rfl

theorem anonymous_of_likened {related : P → P → Prop}
    {templates images : List (Subtree P)}
    (likened : Likened related templates images)
    (single : ∀ template ∈ templates, ∀ twig ∈ template.twigs, ∀ payload image,
      twig.payload = some payload → related payload image → image = change payload) :
    (templates.map (recast change)).map anonymous = images.map anonymous := by
  induction likened with
  | nil => rfl
  | @cons id copy payload copied children others rest besides payloads _ _ below
      beside =>
      have same : copied = payload.map change := by
        cases payloads with
        | none => rfl
        | some isRelated =>
            exact congrArg some (single _ List.mem_cons_self ⟨id, _, _⟩
              (by rw [twigs_node]; exact List.mem_cons_self) _ _ rfl isRelated)
      have beneath := below fun child member twig isTwig =>
        single _ List.mem_cons_self twig (by
          rw [twigs_node]
          exact List.mem_cons_of_mem _ (List.mem_flatMap.mpr ⟨child, member, isTwig⟩))
      rw [List.map_cons, List.map_cons, List.map_cons, beside fun template member =>
        single template (List.mem_cons_of_mem _ member)]
      unfold anonymous at beneath ⊢
      rw [recast_node, rename_node, rename_node, beneath, same]
      rfl

end Subtree

theorem Arena.Whole.node?_recast {arena after : Arena (EntryList α)}
    {kids others : NodeId → List NodeId} {shape : Shape α}
    {change : EntryList α → EntryList α} (whole : arena.Whole kids shape)
    (again : after.Whole others (shape.recast change)) (id : NodeId) :
    after.node? id = (arena.node? id).map fun node =>
      { node with payload := node.payload.map change } := by
  refine @node?_map _ _ _ _ _ _ _ (fun _ payload => payload.map change) whole again ?_ ?_ id
  · intro twig isTwig
    rw [Subtree.twigs_recast]
    exact List.mem_map_of_mem isTwig
  · intro id member
    rwa [Subtree.ids_recast] at member

open Subtree

namespace Tree

def Row.recast (change : EntryList α → EntryList α) (row : Row α) : Row α :=
  { row with list := row.list.map change }

end Tree

theorem Subtree.rows_recast (change : EntryList α → EntryList α) (shape : Shape α)
    (parent : Option NodeId) :
    (shape.recast change).rows parent =
      (shape.rows parent).map (Tree.Row.recast change) := by
  induction shape using Subtree.induction generalizing parent with
  | node id payload children induction =>
      have ids : (children.map (recast change)).map Subtree.id =
          children.map Subtree.id := by
        rw [List.map_map]
        exact List.map_congr_left fun child _ => id_recast child
      rw [recast_node, rows_node, rows_node, List.map_cons, List.map_flatMap,
        List.flatMap_map, List.flatMap_def, List.flatMap_def, ids]
      exact congrArg (_ :: List.flatten ·)
        (List.map_congr_left fun child member => induction child member (some id))

def Entry.recall (table : ValueTable α) (entry : Entry α) : Entry α :=
  { entry with value := (table.value? entry.index).getD entry.value }

def EntryList.recall (table : ValueTable α) (list : EntryList α) : EntryList α :=
  ⟨list.entries.map (Entry.recall table)⟩

namespace Tree

theorem eq_recall {table : ValueTable α} {list image : EntryList α}
    (recalled : Recalled table.entries list image) : image = list.recall table := by
  have recalled : list.entries.map (imageOf table.entries) =
      image.entries.map some := recalled
  have isRecall : ∀ entry ∈ list.entries,
      imageOf table.entries entry = some (entry.recall table) := by
    intro entry member
    have isImage := recalled ▸ List.mem_map_of_mem member
    obtain ⟨other, _, same⟩ := List.mem_map.mp isImage
    obtain ⟨known, isIndex⟩ := imageOf_eq_some.mp same.symm
    rw [← same]
    unfold Entry.recall ValueTable.value?
    rw [known, Option.getD_some, ← isIndex]
  rw [List.map_congr_left isRecall] at recalled
  apply congrArg EntryList.mk
  rw [← List.map_inj_right fun _ _ => Option.some.inj, List.map_map]
  exact recalled.symm

theorem recall_eq_self {table : ValueTable α} {list : EntryList α}
    (stored : ∀ entry ∈ list.entries, table.value? entry.index = some entry.value) :
    list.recall table = list := by
  have same : ∀ entry ∈ list.entries, entry.recall table = entry := by
    intro entry member
    unfold Entry.recall
    rw [stored entry member]
    rfl
  unfold EntryList.recall
  rw [List.map_congr_left same, List.map_id']

end Tree

end LinkedBTree
