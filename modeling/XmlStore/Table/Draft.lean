import XmlStore.Options
import XmlStore.Table.Basic

/-!
# Drafts

A draft is a document under construction.  Its rows are added in document order by calls that open
and close elements; the size of an element is known when it is closed, that of the document when the
draft is finished.

* `Draft.refusal?` says which calls are refused: an attribute that does not directly follow the
  start of an element, and a close when no element is open.  `Draft.finish` refuses while elements
  are open.
* `Draft.perform` is the effect of a call.  Texts that are empty and, with the option `chop`, blank
  ones leave no row.
* `Draft.call` performs a call unless it is refused, and `Draft.attempt` goes on after a refusal
  with the draft as it was.
-/

namespace XmlStore

/-- Why a call on a draft was refused. -/
inductive Draft.Refusal where
  /-- An attribute that does not directly follow the start of an element. -/
  | misplacedAttribute (name : Bytes)
  /-- No element is open. -/
  | unbalancedClose
  /-- So many elements are still open. -/
  | unclosed (count : Nat)
  deriving DecidableEq, Repr

/-- The wording of a refused call. -/
def Draft.Refusal.message : Draft.Refusal → String
  | misplacedAttribute name =>
    s!"attribute \"{Utf8.lossy name}\" must directly follow an element start"
  | unbalancedClose => "no open element to close"
  | unclosed count => s!"{count} element(s) left open"

/-- A document under construction. -/
structure Draft where
  table : Table
  /-- Rows of the open elements, the innermost first. -/
  openElements : List Nat
  /-- Whether the innermost element may still get attributes. -/
  attributesOpen : Bool
  /-- Whether blank texts are dropped. -/
  chop : Bool
  deriving DecidableEq, Repr

namespace Draft

/-- A document with the given name and nothing in it. -/
def start (name : Bytes) (options : Options) : Draft where
  table := Table.empty.push .document 0 [] name
  openElements := []
  attributesOpen := false
  chop := options.chop

/-- Number of rows so far. -/
def size (d : Draft) : Nat := d.table.size

/-- Row of the innermost open element, or of the document. -/
def innermost (d : Draft) : Nat := d.openElements.headD 0

/-- Adds a child of the innermost open element. -/
def addChild (d : Draft) (kind : NodeKind) (name value : Bytes) : Draft :=
  let parent := d.innermost
  { d with
    table := d.table.push kind (d.table.size - parent) name value
    attributesOpen := false }

/-- Opens an element. -/
def openElement (d : Draft) (name : Bytes) : Draft :=
  let d := d.addChild .element name []
  { d with openElements := (d.table.size - 1) :: d.openElements, attributesOpen := true }

/-- Adds an attribute to the innermost open element. -/
def addAttribute (d : Draft) (name value : Bytes) : Draft :=
  let element := d.innermost
  let table := d.table.push .attribute (d.table.size - element) name value
  let rows := table.rows.modify element fun row => { row with attributes := row.attributes + 1 }
  { d with table := { table with rows := rows } }

/-- Whether a text leaves no row: it is empty, or blank while blank texts are dropped. -/
def skips (chop : Bool) (value : Bytes) : Bool :=
  value.isEmpty || (chop && value.all Text.isBlankByte)

/-- Adds a text unless it leaves no row. -/
def addText (d : Draft) (value : Bytes) : Draft :=
  if skips d.chop value then d else d.addChild .text [] value

/-- Adds a comment. -/
def addComment (d : Draft) (value : Bytes) : Draft :=
  d.addChild .comment [] value

/-- Adds a processing instruction. -/
def addInstruction (d : Draft) (target data : Bytes) : Draft :=
  d.addChild .instruction target data

/-- The table with the subtree of the row at `pre` reaching to the end. -/
def sealRow (t : Table) (pre : Nat) : Table :=
  let size := t.size - pre
  { t with rows := t.rows.modify pre fun row => { row with size := size } }

/-- Closes the element opened last, if there is one. -/
def closeElement (d : Draft) : Draft :=
  match d.openElements with
  | [] => d
  | element :: rest =>
    { d with
      table := sealRow d.table element
      openElements := rest
      attributesOpen := false }

/-- A call on a draft. -/
inductive Call where
  | openElement (name : Bytes)
  | attribute (name value : Bytes)
  | text (value : Bytes)
  | comment (value : Bytes)
  | instruction (target data : Bytes)
  | closeElement
  deriving DecidableEq, Repr

/-- Why a call is refused, if it is. -/
def refusal? (d : Draft) : Call → Option Refusal
  | .attribute name _ => if d.attributesOpen then none else some (.misplacedAttribute name)
  | .closeElement => if d.openElements.isEmpty then some .unbalancedClose else none
  | _ => none

/-- The effect of a call. -/
def perform (d : Draft) : Call → Draft
  | .openElement name => d.openElement name
  | .attribute name value => d.addAttribute name value
  | .text value => d.addText value
  | .comment value => d.addComment value
  | .instruction target data => d.addInstruction target data
  | .closeElement => d.closeElement

/-- Performs a call unless it is refused. -/
def call (d : Draft) (c : Call) : Except Refusal Draft :=
  match d.refusal? c with
  | some e => .error e
  | none => .ok (d.perform c)

/-- Performs a call unless it is refused; a refused call changes nothing. -/
def attempt (d : Draft) (c : Call) : Draft × Option Refusal :=
  match d.refusal? c with
  | some e => (d, some e)
  | none => (d.perform c, none)

/-- Closes the document. -/
def finish (d : Draft) : Except Refusal Table :=
  match d.openElements with
  | [] => .ok (sealRow d.table 0)
  | elements => .error (.unclosed elements.length)

end Draft

end XmlStore
