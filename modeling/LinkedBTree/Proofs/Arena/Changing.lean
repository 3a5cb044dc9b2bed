import LinkedBTree.Arena.Copy
import LinkedBTree.Proofs.Maintaining

namespace LinkedBTree.Arena

/-! All calls are made of changes to single nodes and slots. What those leave
alone no call affects, wherever it breaks off and whatever it finds. -/

variable {P σ : Type}

/-- No change of a single node or slot makes a difference to `fit`. -/
structure Stable (fit : Arena P → Prop) : Prop where
  modify : ∀ {arena}, fit arena → ∀ id change, fit (arena.modify id change)
  discard : ∀ {arena}, fit arena → ∀ id, fit (arena.discard id)
  allocate : ∀ payload, Maintains fit (Arena.allocate payload)
  collapses : ∀ {arena}, fit arena → fit (arena.count .collapses)

namespace Stable

variable {fit : Arena P → Prop} (stable : Stable fit)

include stable

theorem alter (id : NodeId) (change : Node P → Node P) : Maintains fit (alter id change) :=
  fun _ isFit => stable.modify isFit id change

theorem write (id : NodeId) (change : Node P → Node P) : Maintains fit (write id change) :=
  Maintains.get.bind fun _ => (Maintains.lift _).bind fun _ => stable.alter id change

theorem setPayload (id : NodeId) (payload : Option P) :
    Maintains fit (setPayload id payload) :=
  Maintains.get.bind fun _ => (Maintains.lift _).bind fun _ =>
    (stable.alter id _).bind fun _ => Maintains.pure _

theorem take (id : NodeId) : Maintains fit (take id) :=
  Maintains.get.bind fun _ => (Maintains.lift _).bind fun _ =>
    Maintains.bind (fun _ isFit => stable.discard isFit id) fun _ => Maintains.pure _

theorem linkForward (parent : NodeId) (previous next : Option NodeId) :
    Maintains fit (linkForward parent previous next) := by
  cases previous with
  | none => exact stable.alter _ _
  | some id => exact stable.write _ _

theorem linkBackward (parent : NodeId) (previous next : Option NodeId) :
    Maintains fit (linkBackward parent previous next) := by
  cases next with
  | none => exact stable.alter _ _
  | some id => exact stable.write _ _

theorem linkChild (parent child : NodeId) : Maintains fit (linkChild parent child) :=
  Maintains.get.bind fun _ => Maintains.get.bind fun _ => (Maintains.lift _).bind fun _ =>
    (stable.alter _ _).bind fun _ => (stable.linkForward _ _ _).bind fun _ =>
      (stable.alter _ _).bind fun _ => stable.alter _ _

theorem linkLast (parent child : NodeId) : Maintains fit (linkLast parent child) :=
  Maintains.get.bind fun _ => (Maintains.lift _).bind fun _ => stable.linkChild _ _

theorem append (parent child : NodeId) : Maintains fit (append parent child) :=
  Maintains.get.bind fun _ => (Maintains.lift _).bind fun _ => stable.linkLast _ _

theorem linkBefore (parent child sibling : NodeId) :
    Maintains fit (linkBefore parent child sibling) :=
  Maintains.get.bind fun _ => (Maintains.lift _).bind fun _ =>
    (stable.alter _ _).bind fun _ => (stable.write _ _).bind fun _ =>
      (stable.linkForward _ _ _).bind fun _ => stable.alter _ _

theorem insert (parent child : NodeId) (compare : Comparator σ P) (unique : Bool) :
    Maintains (fun held : Arena P × σ => fit held.1)
      (insert parent child compare unique) := by
  refine Maintains.get.bind fun _ => (Maintains.lift _).bind fun _ =>
    (Maintains.lift _).bind fun _ => (Maintains.lift _).bind fun node => ?_
  cases node.payload with
  | none => exact Maintains.throw _
  | some payload =>
      refine (Maintains.consult _).bind fun spot => ?_
      cases spot with
      | duplicate => exact Maintains.pure _
      | last => exact (stable.linkChild _ _).apply.bind fun _ => Maintains.pure _
      | before sibling => exact (stable.linkBefore _ _ _).apply.bind fun _ => Maintains.pure _

theorem replace (old new : NodeId) : Maintains fit (replace old new) := by
  unfold Arena.replace
  refine Maintains.guard ?_
  refine fun _ => Maintains.get.bind fun _ => (Maintains.lift _).bind fun node => ?_
  cases node.parent with
  | none => exact Maintains.throw _
  | some parent =>
      refine Maintains.get.bind fun _ => (Maintains.lift _).bind fun _ =>
        Maintains.get.bind fun _ => (Maintains.lift _).bind fun _ =>
        Maintains.get.bind fun _ => (Maintains.lift _).bind fun _ => Maintains.guard ?_
      exact fun _ => Maintains.get.bind fun _ => (Maintains.lift _).bind fun _ =>
        (stable.alter _ _).bind fun _ => (stable.alter _ _).bind fun _ =>
        (stable.linkForward _ _ _).bind fun _ => stable.linkBackward _ _ _

theorem remove (parent child : NodeId) : Maintains fit (remove parent child) := by
  unfold Arena.remove
  refine Maintains.guard ?_
  refine fun _ => Maintains.get.bind fun _ => (Maintains.lift _).bind fun _ =>
    Maintains.get.bind fun _ => (Maintains.lift _).bind fun _ => Maintains.guard ?_
  exact fun _ => (stable.alter _ _).bind fun _ => (stable.linkForward _ _ _).bind fun _ =>
    (stable.linkBackward _ _ _).bind fun _ => stable.alter _ _

theorem collapse (id : NodeId) : Maintains fit (collapse id) := by
  refine Maintains.get.bind fun _ => (Maintains.lift _).bind fun node =>
    Maintains.guard ?_
  intro _
  cases node.firstChild with
  | none => exact Maintains.throw _
  | some child =>
      exact Maintains.get.bind fun _ => (Maintains.lift _).bind fun _ =>
        Maintains.get.bind fun _ => (Maintains.lift _).bind fun _ =>
        (stable.alter _ _).bind fun _ => (Maintains.forM (stable.write · _) _).bind fun _ =>
        (stable.alter _ _).bind fun _ => (stable.take _).bind fun _ =>
        Maintains.bind (fun _ => stable.collapses) fun _ => Maintains.pure _

theorem surrender (id : NodeId) :
    Maintains (fun held : Arena P × List P => fit held.1) (surrender id) := by
  refine (stable.take _).apply.bind fun node => ?_
  cases node.payload with
  | none => exact Maintains.pure _
  | some payload => exact Maintains.consult _

theorem release (id : NodeId) :
    Maintains (fun held : Arena P × List P => fit held.1) (release id) := by
  refine Maintains.get.bind fun _ => (Maintains.lift _).bind fun _ => Maintains.guard ?_
  exact fun _ => (Maintains.lift _).bind fun _ => Maintains.forM stable.surrender _

theorem clear (id : NodeId) :
    Maintains (fun held : Arena P × List P => fit held.1) (clear id) :=
  Maintains.get.bind fun _ => (Maintains.lift _).bind fun _ =>
    (stable.alter _ _).apply.bind fun _ => Maintains.forM (fun _ =>
      (stable.write _ _).apply.bind fun _ => (stable.release _).within _) _

omit stable in
theorem dropping {β : Type} {act : Handover P β}
    (first : Maintains (fun held : Arena P × List P => fit held.1) act) :
    Maintains fit (dropping act) := by
  intro before isFit
  have stops := first (before, []) isFit
  unfold Arena.dropping
  cases done : act (before, []) with
  | ok result after => rwa [done] at stops
  | error error after => rwa [done] at stops

theorem giveBack (ids : List NodeId) : Maintains fit (giveBack ids) :=
  Maintains.forM (fun _ => (dropping (stable.release _)).tryCatch fun _ =>
    Maintains.pure _) ids

theorem allocateMany (number : Nat) (taken : List NodeId) :
    Maintains fit (allocateMany number taken) := by
  induction number generalizing taken with
  | zero => exact Maintains.pure _
  | succ number induction =>
      exact ((stable.allocate none).tryCatch fun _ => (stable.giveBack _).bind fun _ =>
        Maintains.throw _).bind fun _ => induction _

theorem fillAll (source : Arena P) (copy : Copier σ P) (node : Node P) (root : NodeId) :
    Maintains (fun held : Arena P × σ => fit held.1)
      (Copying.fillAll source copy node root) := by
  have fills (node : Node P) (into : NodeId) : Maintains
      (fun held : Arena P × σ => fit held.1) (Copying.fill source copy node into) := by
    unfold Copying.fill
    cases node.payload with
    | none => exact (Maintains.lift _).bind fun _ => Maintains.pure _
    | some payload =>
        exact (Maintains.consult _).bind fun _ => (stable.setPayload _ _).apply.bind fun _ =>
          (Maintains.lift _).bind fun _ => Maintains.pure _
  exact (fills node root).bind fun _ => Maintains.exhaust (fun _ _ =>
    (stable.allocate none).apply.bind fun _ => (stable.linkLast _ _).apply.bind fun _ =>
      (Maintains.lift _).bind fun _ => (fills _ _).bind fun _ => Maintains.pure _) _ _ _

end Stable

end LinkedBTree.Arena
