import XmlStore.Text.Blank

/-!
# Database options

Four properties steer how fragments are built and which values are indexed.  They are named and
written as text:

* `Property.ofName?` reads a name in any case; `Property.all` lists the names in sorted order.
* `Options.get?` writes a property, `Options.set` reads one.  Reading ignores blanks around the
  value; a flag is one of `true on yes 1 false off no 0` in any case, a length is a numeral
  below 2^64 that may carry a plus sign.
* `Options.ofPairs` sets one pair after the other, starting from the defaults, and stops at the
  first pair that cannot be read.
-/

namespace XmlStore

/-- Runtime options of a database. -/
structure Options where
  /-- Index the values of attributes. -/
  attrIndex : Bool := true
  /-- Drop blank texts while a fragment is built. -/
  chop : Bool := true
  /-- Longest value, in bytes, that is reachable by an exact index lookup. -/
  maxLength : UInt64 := 96
  /-- Index the values of texts. -/
  textIndex : Bool := true
  deriving DecidableEq, Repr

/-- The properties of `Options`. -/
inductive Property where
  | attrIndex
  | chop
  | maxLength
  | textIndex
  deriving DecidableEq, Repr

namespace Property

/-- The name of a property in its listed form. -/
def name : Property → String
  | attrIndex => "ATTRINDEX"
  | chop => "CHOP"
  | maxLength => "MAXLEN"
  | textIndex => "TEXTINDEX"

/-- All properties, sorted by name. -/
def all : List Property := [attrIndex, chop, maxLength, textIndex]

theorem mem_all (p : Property) : p ∈ all := by cases p <;> simp [all]

/-- The property with the given name; ASCII letters match in either case. -/
def ofName? (text : String) : Option Property :=
  all.find? fun p => p.name.toList == text.toList.map Char.toUpper

end Property

/-- Why an option was refused. -/
inductive Options.Refusal where
  /-- No property has this name. -/
  | unknown (name : String)
  /-- The property cannot take this value. -/
  | invalidValue (property : Property) (value : String)
  deriving DecidableEq, Repr

/-- The wording of a refused option. -/
def Options.Refusal.message : Options.Refusal → String
  | unknown name => s!"unknown option \"{name}\""
  | invalidValue property value => s!"invalid value \"{value}\" for option {property.name}"

namespace Options

/-- Spellings of a set flag. -/
def yesWords : List String := ["true", "on", "yes", "1"]

/-- Spellings of a cleared flag. -/
def noWords : List String := ["false", "off", "no", "0"]

/-- Reads a flag. -/
def flag? (value : String) : Option Bool :=
  let word := (Text.trim value.toList).map Char.toLower
  if yesWords.any (·.toList == word) then some true
  else if noWords.any (·.toList == word) then some false
  else none

/-- The number written by decimal digits, at least one of them. -/
def numeral? (digits : List Char) : Option Nat :=
  if digits.isEmpty || !digits.all Char.isDigit then none
  else some (digits.foldl (fun n d => n * 10 + (d.toNat - '0'.toNat)) 0)

/-- Reads a length: a numeral below 2^64, with or without a plus sign. -/
def length? (value : String) : Option UInt64 :=
  let digits := match Text.trim value.toList with
    | '+' :: rest => rest
    | text => text
  match numeral? digits with
  | none => none
  | some n => if h : n < UInt64.size then some (UInt64.ofNatLT n h) else none

/-- The written form of a property. -/
def text (o : Options) : Property → String
  | .attrIndex => toString o.attrIndex
  | .chop => toString o.chop
  | .maxLength => toString o.maxLength.toNat
  | .textIndex => toString o.textIndex

/-- Reads `value` into a property; `none` if the property cannot take it. -/
def assign? (o : Options) (p : Property) (value : String) : Option Options :=
  match p with
  | .attrIndex => (flag? value).map fun b => { o with attrIndex := b }
  | .chop => (flag? value).map fun b => { o with chop := b }
  | .maxLength => (length? value).map fun n => { o with maxLength := n }
  | .textIndex => (flag? value).map fun b => { o with textIndex := b }

/-- The written form of the property with this name. -/
def get? (o : Options) (name : String) : Option String :=
  (Property.ofName? name).map o.text

/-- Sets the property with this name. -/
def set (o : Options) (name value : String) : Except Options.Refusal Options :=
  match Property.ofName? name with
  | none => .error (.unknown name)
  | some p =>
    match o.assign? p value with
    | none => .error (.invalidValue p value)
    | some o => .ok o

/-- The defaults with the given pairs set in turn. -/
def ofPairs (pairs : List (String × String)) : Except Options.Refusal Options :=
  pairs.foldlM (fun o pair => o.set pair.1 pair.2) {}

/-- All properties in their written form, sorted by name. -/
def toPairs (o : Options) : List (String × String) :=
  Property.all.map fun p => (p.name, o.text p)

end Options

end XmlStore
