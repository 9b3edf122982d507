import XmlStore.Expr.Basic

/-!
# Queries

A query is what a client asks for: a tree of set operators over lookups and positions, not yet about
any snapshot.  `Query.bind` makes the expression that asks it of a snapshot; it fails if the query
lists a position outside of the snapshot.
-/

namespace XmlStore

/-- A query that is not bound to a snapshot. -/
inductive Query where
  | empty
  | lookup (lookup : Lookup)
  | nodes (pres : List Nat)
  | set (op : SetOp) (operands : List Query)
  deriving Repr, Inhabited

namespace Query

/-- Induction over queries. -/
@[elab_as_elim, induction_eliminator]
theorem induction {motive : Query → Prop} (empty : motive empty)
    (lookup : ∀ l, motive (lookup l)) (nodes : ∀ pres, motive (nodes pres))
    (set : ∀ op operands, (∀ q ∈ operands, motive q) → motive (set op operands)) (q : Query) :
    motive q :=
  @Query.rec motive (fun qs => ∀ q ∈ qs, motive q) empty lookup nodes
    (fun op operands ih => set op operands ih) (fun _ h => by cases h)
    (fun _ _ hfirst hrest => List.forall_mem_cons.2 ⟨hfirst, hrest⟩) q

mutual

/-- The expression that asks a snapshot a query. -/
def bind (s : Snapshot) : Query → Except Fault Expr
  | empty => .ok .empty
  | lookup l => .ok (.ofLookup s l)
  | nodes pres => Expr.ofPres s pres
  | set op operands => do .ok (.ofSet op (← bindAll s operands))

/-- The expressions for several queries. -/
def bindAll (s : Snapshot) : List Query → Except Fault (List Expr)
  | [] => .ok []
  | q :: rest => do
    let e ← bind s q
    .ok (e :: (← bindAll s rest))

end

end Query

end XmlStore
