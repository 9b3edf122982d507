import XmlStore.Table.Draft

/-!
# Fragments

A fragment is a document tree as a value.  `Fragment.build` writes it into a draft in document
order, and `Fragment.document` makes the one-document table of a list of fragments.
-/

namespace XmlStore

/-- A node with everything below it. -/
inductive Fragment where
  | element (name : Bytes) (attributes : List (Bytes × Bytes)) (children : List Fragment)
  | text (value : Bytes)
  | comment (value : Bytes)
  | instruction (target data : Bytes)
  deriving Repr, Inhabited

namespace Fragment

/-- Induction over fragments. -/
@[elab_as_elim, induction_eliminator]
theorem induction {motive : Fragment → Prop}
    (element : ∀ name attributes children, (∀ f ∈ children, motive f) →
      motive (element name attributes children))
    (text : ∀ value, motive (text value)) (comment : ∀ value, motive (comment value))
    (instruction : ∀ target data, motive (instruction target data)) (f : Fragment) : motive f :=
  @Fragment.rec motive (fun fs => ∀ f ∈ fs, motive f)
    (fun name attributes children ih => element name attributes children ih) text comment
    instruction (fun _ h => by cases h)
    (fun _ _ hfirst hrest => List.forall_mem_cons.2 ⟨hfirst, hrest⟩) f

/-- Adds attributes to the element opened last. -/
def buildAttributes (d : Draft) : List (Bytes × Bytes) → Except Draft.Refusal Draft
  | [] => .ok d
  | (name, value) :: rest => do buildAttributes (← d.call (.attribute name value)) rest

mutual

/-- Adds a fragment to a draft. -/
def build (d : Draft) : Fragment → Except Draft.Refusal Draft
  | element name attributes children => do
    let d ← d.call (.openElement name)
    let d ← buildAttributes d attributes
    let d ← buildAll d children
    d.call .closeElement
  | text value => d.call (.text value)
  | comment value => d.call (.comment value)
  | instruction target data => d.call (.instruction target data)

/-- Adds fragments to a draft, one after the other. -/
def buildAll (d : Draft) : List Fragment → Except Draft.Refusal Draft
  | [] => .ok d
  | f :: rest => do buildAll (← build d f) rest

end

/-- The table of one document that holds the given fragments. -/
def document (name : Bytes) (options : Options) (fragments : List Fragment) :
    Except Draft.Refusal Table := do
  (← buildAll (Draft.start name options) fragments).finish

end Fragment

end XmlStore
