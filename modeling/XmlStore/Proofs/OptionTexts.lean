import Mathlib
import XmlStore.Options

/-!
# Options as they are written

* `Text.SameWord`, `Text.Trims`, `Options.Flag`, `Options.Numeral` — how names and values are
  written, said without the functions that read them.
* `Property.Named`, `Property.Reads` — the names of a property, and what its values say.
* `Property.ofName?_eq_some_iff`, `Options.exists_assign?_iff` — names and values are read so.
* `Options.set_eq_error_iff`, `Options.setAll_eq_error_iff`, `Options.text_setAll` — which pair of a
  list is refused, and which value a property has in the end, by induction on the pairs.
* `Options.read_as_written` — all of it for every option, text and list of pairs.
-/

namespace XmlStore

namespace Text

/-! ## Words -/

/-- Two words that are the same but for the case of ASCII letters. -/
def SameWord (a b : List Char) : Prop := a.map Char.toLower = b.map Char.toLower

theorem sameWord_iff_toUpper {a b : List Char} (h : a.map Char.toUpper = a) :
    SameWord a b ↔ a = b.map Char.toUpper := by
  constructor
  · intro hsame
    have hupper := congrArg (List.map Char.toUpper) hsame
    simpa only [List.map_map, Function.comp_def, Char.toUpper_toLower_eq_toUpper, h] using hupper
  · rintro rfl
    simp only [SameWord, List.map_map, Function.comp_def, Char.toLower_toUpper_eq_toLower]

theorem sameWord_iff_toLower {a b : List Char} (h : a.map Char.toLower = a) :
    SameWord a b ↔ a = b.map Char.toLower := by
  rw [SameWord, h]

/-! ## Blanks around a text -/

/-- A text is its core with blanks on both sides. -/
structure Trims (text core : List Char) : Prop where
  around : ∃ before after, text = before ++ core ++ after ∧
    (∀ c ∈ before, isBlank c = true) ∧ ∀ c ∈ after, isBlank c = true
  head : ∀ c ∈ core.head?, isBlank c = false
  last : ∀ c ∈ core.getLast?, isBlank c = false

theorem head?_dropWhile {p : Char → Bool} (text : List Char) :
    ∀ c ∈ (text.dropWhile p).head?, p c = false := by
  intro c hc
  have hnot := List.head?_dropWhile_not p text
  rwa [Option.mem_def.1 hc] at hnot

theorem dropWhile_append_of_head? {p : Char → Bool} {core : List Char} (after : List Char)
    (hne : core ≠ []) (h : ∀ c ∈ core.head?, p c = false) :
    (core ++ after).dropWhile p = core ++ after := by
  obtain ⟨c, rest, rfl⟩ := List.exists_cons_of_ne_nil hne
  exact List.dropWhile_cons_of_neg (by simp [h c rfl])

theorem trims_trim (text : List Char) : Trims text (trim text) := by
  have hsplit : text.dropWhile isBlank =
      trim text ++ (text.dropWhile isBlank).rtakeWhile isBlank :=
    List.rdropWhile_append_rtakeWhile.symm
  refine ⟨⟨text.takeWhile isBlank, (text.dropWhile isBlank).rtakeWhile isBlank, ?_,
    fun _ => List.mem_takeWhile_imp, fun _ => List.mem_rtakeWhile_imp⟩, ?_, ?_⟩
  · rw [List.append_assoc, ← hsplit, List.takeWhile_append_dropWhile]
  · intro c hc
    refine head?_dropWhile text c ?_
    rw [hsplit, List.head?_append, Option.mem_def.1 hc]
    rfl
  · intro c hc
    rw [trim, List.getLast?_reverse] at hc
    exact head?_dropWhile _ c hc

theorem Trims.eq_trim {text core : List Char} (h : Trims text core) : core = trim text := by
  obtain ⟨⟨before, after, rfl, hbefore, hafter⟩, hhead, hlast⟩ := h
  rw [trim, List.append_assoc, List.dropWhile_append_of_pos hbefore]
  rcases eq_or_ne core [] with rfl | hne
  · rw [List.nil_append, List.dropWhile_eq_nil_iff.2 hafter]
    rfl
  · have hreverse : ∀ c ∈ after.reverse, isBlank c = true :=
      fun c hc => hafter c (List.mem_reverse.1 hc)
    have hback : core.reverse.dropWhile isBlank = core.reverse := by
      have hkept : (core.reverse ++ []).dropWhile isBlank = core.reverse ++ [] :=
        dropWhile_append_of_head? [] (by simpa using hne) (by simpa using hlast)
      simpa using hkept
    rw [dropWhile_append_of_head? after hne hhead, List.reverse_append,
      List.dropWhile_append_of_pos hreverse, hback, List.reverse_reverse]

end Text

/-! ## Values -/

namespace Options

/-- The spellings of flags. -/
inductive Flag : List Char → Bool → Prop where
  | yes {word : String} {core : List Char} (hword : word ∈ ["true", "on", "yes", "1"])
      (hsame : Text.SameWord word.toList core) : Flag core true
  | no {word : String} {core : List Char} (hword : word ∈ ["false", "off", "no", "0"])
      (hsame : Text.SameWord word.toList core) : Flag core false

/-- A number as it is written with decimal digits, at least one of them. -/
structure Digits (digits : List Char) (n : Nat) : Prop where
  ne_nil : digits ≠ []
  digit : ∀ d ∈ digits, d.isDigit = true
  value : Nat.ofDigitChars 10 digits 0 = n

/-- A number as it is written with decimal digits, with or without a plus sign. -/
inductive Numeral : List Char → Nat → Prop where
  | plain {digits : List Char} {n : Nat} (h : Digits digits n) : Numeral digits n
  | plus {digits : List Char} {n : Nat} (h : Digits digits n) : Numeral ('+' :: digits) n

theorem flag?_eq_some_iff {value : String} {b : Bool} :
    flag? value = some b ↔ Flag (Text.trim value.toList) b := by
  have hyes : ∀ word ∈ yesWords, word.toList.map Char.toLower = word.toList := by decide
  have hno : ∀ word ∈ noWords, word.toList.map Char.toLower = word.toList := by decide
  have hother : ∀ word ∈ yesWords, ∀ word' ∈ noWords, word.toList ≠ word'.toList := by decide
  simp only [flag?, List.any_eq_true, beq_iff_eq]
  constructor
  · intro h
    split at h
    · rename_i hsome
      obtain ⟨word, hword, heq⟩ := hsome
      cases h
      exact .yes hword ((Text.sameWord_iff_toLower (hyes word hword)).2 heq)
    · split at h
      · rename_i hsome
        obtain ⟨word, hword, heq⟩ := hsome
        cases h
        exact .no hword ((Text.sameWord_iff_toLower (hno word hword)).2 heq)
      · cases h
  · intro h
    cases h with
    | @yes word _ hword hsame =>
      rw [if_pos ⟨word, hword, (Text.sameWord_iff_toLower (hyes word hword)).1 hsame⟩]
    | @no word _ hword hsame =>
      have heq := (Text.sameWord_iff_toLower (hno word hword)).1 hsame
      rw [if_neg, if_pos ⟨word, hword, heq⟩]
      rintro ⟨word', hword', heq'⟩
      exact hother word' hword' word hword (heq'.trans heq.symm)

theorem numeral?_eq_some_iff {digits : List Char} {n : Nat} :
    numeral? digits = some n ↔ Digits digits n := by
  have hvalue : digits.foldl (fun n d => n * 10 + (d.toNat - '0'.toNat)) 0 =
      Nat.ofDigitChars 10 digits 0 := by
    simp only [Nat.ofDigitChars_eq_foldl, Nat.mul_comm]
  rw [numeral?, hvalue]
  constructor
  · intro h
    split at h
    · cases h
    · rename_i hdigits
      simp only [Bool.or_eq_true, List.isEmpty_iff, Bool.not_eq_true', not_or, Bool.not_eq_false,
        List.all_eq_true] at hdigits
      exact ⟨hdigits.1, hdigits.2, Option.some_inj.1 h⟩
  · rintro ⟨hne, hdigit, rfl⟩
    rw [if_neg]
    simpa [hne] using hdigit

/-- The digits of a numeral are what follows its sign. -/
theorem numeral_iff {core : List Char} {n : Nat} :
    Numeral core n ↔ Digits (match core with | '+' :: rest => rest | text => text) n := by
  constructor
  · rintro (⟨⟨hne, hdigit, hvalue⟩⟩ | h)
    · split
      · exact absurd (hdigit '+' List.mem_cons_self) (by decide)
      · exact ⟨hne, hdigit, hvalue⟩
    · exact h
  · intro h
    split at h
    · exact .plus h
    · exact .plain h

theorem length?_eq_some_iff {value : String} {n : UInt64} :
    length? value = some n ↔ Numeral (Text.trim value.toList) n.toNat := by
  rw [numeral_iff, ← numeral?_eq_some_iff, length?]
  cases hnumeral : numeral? (match Text.trim value.toList with
    | '+' :: rest => rest
    | text => text) with
  | none => simp
  | some m =>
    simp only [Option.some_inj]
    constructor
    · intro h
      split at h
      · obtain rfl := Option.some_inj.1 h
        rw [UInt64.toNat_ofNatLT]
      · cases h
    · rintro rfl
      rw [dif_pos n.toNat_lt, UInt64.ofNatLT_toNat]

theorem digits_toString (n : Nat) : Digits (toString n).toList n := by
  rw [Nat.toString_eq_repr, Nat.toList_repr]
  exact ⟨Nat.toDigits_ne_nil, fun _ => Nat.isDigit_of_mem_toDigits (by decide) (by decide),
    Nat.ofDigitChars_ten_toDigits⟩

end Options

namespace Property

open Options

/-- The spellings of the name of a property. -/
def Named (p : Property) (name : String) : Prop := Text.SameWord p.name.toList name.toList

/-- What a value says about a property, as the property is written then. -/
def Reads : Property → String → String → Prop
  | maxLength, value, written =>
    ∃ core n, Text.Trims value.toList core ∧ Numeral core n ∧ n < 2 ^ 64 ∧ written = toString n
  | _, value, written =>
    ∃ core b, Text.Trims value.toList core ∧ Flag core b ∧ written = toString b

theorem named_iff {p : Property} {name : String} :
    p.Named name ↔ p.name.toList = name.toList.map Char.toUpper :=
  Text.sameWord_iff_toUpper (by cases p <;> decide)

theorem name_injective {p q : Property} (h : p.name.toList = q.name.toList) : p = q := by
  revert h
  cases p <;> cases q <;> decide

theorem Named.unique {p q : Property} {name : String} (hp : p.Named name) (hq : q.Named name) :
    p = q :=
  name_injective ((named_iff.1 hp).trans (named_iff.1 hq).symm)

theorem named_name (p : Property) : p.Named p.name := rfl

/-- **Names are read as they are spelled.** -/
theorem ofName?_eq_some_iff {p : Property} {name : String} :
    ofName? name = some p ↔ p.Named name := by
  constructor
  · intro h
    exact named_iff.2 (by simpa using List.find?_some h)
  · intro h
    cases hfind : ofName? name with
    | none =>
      have hnot := List.find?_eq_none.1 hfind p p.mem_all
      exact absurd (named_iff.1 h) (by simpa using hnot)
    | some q =>
      have hq : q.Named name := named_iff.2 (by simpa using List.find?_some hfind)
      rw [hq.unique h]

theorem reads_maxLength_iff {value written : String} :
    maxLength.Reads value written ↔ ∃ n, length? value = some n ∧ written = toString n.toNat := by
  constructor
  · rintro ⟨core, n, hcore, hn, hlt, rfl⟩
    obtain rfl := hcore.eq_trim
    exact ⟨UInt64.ofNatLT n hlt, length?_eq_some_iff.2 hn, rfl⟩
  · rintro ⟨n, hn, rfl⟩
    exact ⟨_, n.toNat, Text.trims_trim _, length?_eq_some_iff.1 hn, n.toNat_lt, rfl⟩

theorem reads_flag_iff {p : Property} (hp : p ≠ maxLength) {value written : String} :
    p.Reads value written ↔ ∃ b, flag? value = some b ∧ written = toString b := by
  have hreads : p.Reads value written ↔
      ∃ core b, Text.Trims value.toList core ∧ Flag core b ∧ written = toString b := by
    cases p <;> first | exact Iff.rfl | exact absurd rfl hp
  rw [hreads]
  constructor
  · rintro ⟨core, b, hcore, hb, rfl⟩
    obtain rfl := hcore.eq_trim
    exact ⟨b, flag?_eq_some_iff.2 hb, rfl⟩
  · rintro ⟨b, hb, rfl⟩
    exact ⟨_, b, Text.trims_trim _, flag?_eq_some_iff.1 hb, rfl⟩

end Property

namespace Options

/-! ## One pair -/

theorem get?_of_named (o : Options) {p : Property} {name : String} (h : p.Named name) :
    o.get? name = some (o.text p) := by
  rw [get?, Property.ofName?_eq_some_iff.2 h]
  rfl

theorem get?_name (o : Options) (p : Property) : o.get? p.name = some (o.text p) :=
  o.get?_of_named p.named_name

/-- Options are known by what is written. -/
theorem ext_text {o o' : Options} (h : ∀ p, o.text p = o'.text p) : o = o' := by
  have hflag : ∀ a b : Bool, toString a = toString b → a = b := by decide
  obtain ⟨attrIndex, chop, maxLength, textIndex⟩ := o
  obtain ⟨attrIndex', chop', maxLength', textIndex'⟩ := o'
  obtain rfl := hflag _ _ (h .attrIndex)
  obtain rfl := hflag _ _ (h .chop)
  obtain rfl := UInt64.toNat_inj.1 (Nat.repr_inj.1 (h .maxLength))
  obtain rfl := hflag _ _ (h .textIndex)
  rfl

theorem exists_map_iff {α : Type} {read : Option α} {assign : α → Options} {p : Property}
    {write : α → String} (h : ∀ a, (assign a).text p = write a) {written : String} :
    (∃ o, read.map assign = some o ∧ o.text p = written) ↔
      ∃ a, read = some a ∧ written = write a := by
  simp only [Option.map_eq_some_iff]
  constructor
  · rintro ⟨_, ⟨a, ha, rfl⟩, rfl⟩
    exact ⟨a, ha, h a⟩
  · rintro ⟨a, ha, rfl⟩
    exact ⟨_, ⟨a, ha, rfl⟩, h a⟩

/-- **Values are read as they are written.** -/
theorem exists_assign?_iff {o : Options} {p : Property} {value written : String} :
    (∃ o', o.assign? p value = some o' ∧ o'.text p = written) ↔ p.Reads value written := by
  cases p
  case maxLength => exact (exists_map_iff fun _ => rfl).trans Property.reads_maxLength_iff.symm
  all_goals exact (exists_map_iff fun _ => rfl).trans (Property.reads_flag_iff (by decide)).symm

theorem text_assign?_of_ne {o o' : Options} {p q : Property} {value : String}
    (h : o.assign? p value = some o') (hne : q ≠ p) : o'.text q = o.text q := by
  cases p <;>
  · simp only [assign?, Option.map_eq_some_iff] at h
    obtain ⟨_, _, rfl⟩ := h
    cases q <;> first | rfl | exact absurd rfl hne

/-- A pair that names a property and has a value for it. -/
def Accepts (name value : String) : Prop :=
  ∃ (p : Property) (written : String), p.Named name ∧ p.Reads value written

/-- What is wrong with a pair. -/
inductive Refuses (name value : String) : Refusal → Prop where
  | unknown (h : ∀ p : Property, ¬ p.Named name) : Refuses name value (.unknown name)
  | invalidValue {p : Property} (hname : p.Named name) (h : ∀ written, ¬ p.Reads value written) :
    Refuses name value (.invalidValue p value)

variable {o o' : Options} {name value written : String} {refusal : Refusal}
  {pairs : List (String × String)}

theorem reads_unique {p : Property} {written' : String} (h : p.Reads value written)
    (h' : p.Reads value written') : written = written' := by
  obtain ⟨o, ho, rfl⟩ := exists_assign?_iff (o := {}).2 h
  obtain ⟨o', ho', rfl⟩ := exists_assign?_iff (o := {}).2 h'
  rw [Option.some_inj.1 (ho.symm.trans ho')]

theorem assign?_eq_none_iff {p : Property} :
    o.assign? p value = none ↔ ∀ written, ¬ p.Reads value written := by
  simp only [← exists_assign?_iff (o := o), Option.eq_none_iff_forall_ne_some]
  constructor
  · rintro h written ⟨o', ho', _⟩
    exact h o' ho'
  · exact fun h o' ho' => h _ ⟨o', ho', rfl⟩

theorem set_of_named {p : Property} (h : p.Named name) :
    o.set name value = (o.assign? p value).elim (.error (.invalidValue p value)) .ok := by
  rw [set, Property.ofName?_eq_some_iff.2 h]
  cases hassign : o.assign? p value <;> simp [hassign]

theorem set_of_unnamed (h : ∀ p : Property, ¬ p.Named name) :
    o.set name value = .error (.unknown name) := by
  have hfind : Property.ofName? name = none :=
    Option.eq_none_iff_forall_ne_some.2 fun p hfind => h p (Property.ofName?_eq_some_iff.1 hfind)
  rw [set, hfind]

theorem set_eq_ok_iff :
    o.set name value = .ok o' ↔ ∃ p : Property, p.Named name ∧ o.assign? p value = some o' := by
  constructor
  · intro h
    by_cases hname : ∃ p : Property, p.Named name
    · obtain ⟨p, hp⟩ := hname
      rw [set_of_named hp] at h
      cases hassign : o.assign? p value with
      | none => simp [hassign] at h
      | some next => exact ⟨p, hp, by simpa [hassign] using h⟩
    · rw [set_of_unnamed (not_exists.1 hname)] at h
      cases h
  · rintro ⟨p, hp, hassign⟩
    rw [set_of_named hp, hassign]
    rfl

theorem set_eq_error_iff : o.set name value = .error refusal ↔ Refuses name value refusal := by
  constructor
  · intro h
    by_cases hname : ∃ p : Property, p.Named name
    · obtain ⟨p, hp⟩ := hname
      rw [set_of_named hp] at h
      cases hassign : o.assign? p value with
      | none =>
        rw [hassign] at h
        cases h
        exact .invalidValue hp (assign?_eq_none_iff.1 hassign)
      | some next => simp [hassign] at h
    · rw [set_of_unnamed (not_exists.1 hname)] at h
      cases h
      exact .unknown (not_exists.1 hname)
  · rintro (hname | ⟨hname, hvalue⟩)
    · exact set_of_unnamed hname
    · rw [set_of_named hname, assign?_eq_none_iff.2 hvalue]
      rfl

theorem exists_set_iff : (∃ o', o.set name value = .ok o') ↔ Accepts name value := by
  simp only [set_eq_ok_iff]
  constructor
  · rintro ⟨o', p, hname, ho'⟩
    exact ⟨p, o'.text p, hname, exists_assign?_iff.1 ⟨o', ho', rfl⟩⟩
  · rintro ⟨p, written, hname, hvalue⟩
    obtain ⟨o', ho', _⟩ := exists_assign?_iff (o := o).2 hvalue
    exact ⟨o', p, hname, ho'⟩

/-- What options become when a property is set. -/
theorem text_of_set (h : o.set name value = .ok o') :
    ∃ p : Property, p.Named name ∧ p.Reads value (o'.text p) ∧ ∀ q ≠ p, o'.text q = o.text q := by
  obtain ⟨p, hname, ho'⟩ := set_eq_ok_iff.1 h
  exact ⟨p, hname, exists_assign?_iff.1 ⟨o', ho', rfl⟩, fun q hq => text_assign?_of_ne ho' hq⟩

/-! ## Lists of pairs -/

/-- Options with pairs set one after the other. -/
def setAll (o : Options) (pairs : List (String × String)) : Except Refusal Options :=
  pairs.foldlM (fun o pair => o.set pair.1 pair.2) o

theorem ofPairs_eq_setAll (pairs : List (String × String)) : ofPairs pairs = setAll {} pairs := rfl

theorem setAll_cons_of_ok (h : o.set name value = .ok o') (pairs : List (String × String)) :
    o.setAll ((name, value) :: pairs) = o'.setAll pairs := by
  rw [setAll, List.foldlM_cons, h]
  rfl

theorem setAll_cons_of_error (h : o.set name value = .error refusal)
    (pairs : List (String × String)) : o.setAll ((name, value) :: pairs) = .error refusal := by
  rw [setAll, List.foldlM_cons, h]
  rfl

/-- The first pair that is refused. -/
def FirstRefused (pairs : List (String × String)) (refusal : Refusal) : Prop :=
  ∃ before name value after, pairs = before ++ (name, value) :: after ∧
    (∀ pair ∈ before, Accepts pair.1 pair.2) ∧ Refuses name value refusal

theorem firstRefused_cons_iff :
    FirstRefused ((name, value) :: pairs) refusal ↔
      Refuses name value refusal ∨ Accepts name value ∧ FirstRefused pairs refusal := by
  constructor
  · rintro ⟨before, name', value', after, hpairs, hbefore, h⟩
    cases before with
    | nil =>
      cases hpairs
      exact .inl h
    | cons pair before =>
      cases hpairs
      rw [List.forall_mem_cons] at hbefore
      exact .inr ⟨hbefore.1, before, name', value', after, rfl, hbefore.2, h⟩
  · rintro (h | ⟨haccepts, before, name', value', after, rfl, hbefore, h⟩)
    · exact ⟨[], name, value, pairs, rfl, List.forall_mem_nil _, h⟩
    · exact ⟨(name, value) :: before, name', value', after, rfl,
        List.forall_mem_cons.2 ⟨haccepts, hbefore⟩, h⟩

/-- **The first pair that is refused stops the reading.**  The induction is on the pairs. -/
theorem setAll_eq_error_iff : o.setAll pairs = .error refusal ↔ FirstRefused pairs refusal := by
  induction pairs generalizing o with
  | nil =>
    refine ⟨nofun, ?_⟩
    rintro ⟨before, name, value, after, hnil, _⟩
    simp at hnil
  | cons pair rest ih =>
    obtain ⟨name, value⟩ := pair
    rw [firstRefused_cons_iff, ← set_eq_error_iff (o := o), ← exists_set_iff (o := o)]
    cases hset : o.set name value with
    | error first =>
      rw [setAll_cons_of_error hset]
      simp
    | ok o' =>
      rw [setAll_cons_of_ok hset, ih]
      simp

/-- What a property says once pairs were set: what the last pair with its name says, or what it said
before if there is none. -/
inductive Ends (o : Options) : List (String × String) → Property → String → Prop where
  | given (before : List (String × String)) {after : List (String × String)}
      {name value written : String} {p : Property} (hname : p.Named name)
      (hvalue : p.Reads value written) (hlast : ∀ pair ∈ after, ¬ p.Named pair.1) :
    Ends o (before ++ (name, value) :: after) p written
  | kept {pairs : List (String × String)} {p : Property} (h : ∀ pair ∈ pairs, ¬ p.Named pair.1) :
    Ends o pairs p (o.text p)

theorem Ends.cons {p : Property} (hset : o.set name value = .ok o')
    (h : Ends o' pairs p written) : Ends o ((name, value) :: pairs) p written := by
  cases h with
  | given before hname hvalue hlast => exact .given ((name, value) :: before) hname hvalue hlast
  | kept h =>
    obtain ⟨q, hname, hvalue, hothers⟩ := text_of_set hset
    rcases eq_or_ne p q with rfl | hne
    · exact .given [] hname hvalue h
    · rw [hothers p hne]
      refine .kept (List.forall_mem_cons.2 ⟨fun hp => ?_, h⟩)
      exact hne (hp.unique hname)

/-- **The last pair of a property counts.**  The induction is on the pairs. -/
theorem text_setAll (h : o.setAll pairs = .ok o') (p : Property) : Ends o pairs p (o'.text p) := by
  induction pairs generalizing o with
  | nil =>
    cases h
    exact .kept (List.forall_mem_nil _)
  | cons pair rest ih =>
    obtain ⟨name, value⟩ := pair
    cases hset : o.set name value with
    | error refusal =>
      rw [setAll_cons_of_error hset] at h
      cases h
    | ok next =>
      rw [setAll_cons_of_ok hset] at h
      exact .cons hset (ih h)

/-! ## What is written is read -/

theorem isBlank_of_isDigit {c : Char} (h : c.isDigit = true) : Text.isBlank c = false := by
  simp only [Char.isDigit, Bool.and_eq_true, decide_eq_true_eq, UInt32.le_iff_toNat_le] at h
  have hlow : 48 ≤ c.toNat := h.1
  have hhigh : c.toNat ≤ 57 := h.2
  simp [Text.isBlank]
  omega

theorem Digits.trims {digits : List Char} {n : Nat} (h : Digits digits n) :
    Text.Trims digits digits where
  around := ⟨[], [], (List.append_nil _).symm, List.forall_mem_nil _, List.forall_mem_nil _⟩
  head _ hc := isBlank_of_isDigit (h.digit _ (List.mem_of_mem_head? hc))
  last _ hc := isBlank_of_isDigit (h.digit _ (List.mem_of_mem_getLast? hc))

/-- Every property is read as it is written. -/
theorem reads_text (o : Options) (p : Property) : p.Reads (o.text p) (o.text p) := by
  have hflag : ∀ b : Bool, flag? (toString b) = some b := by decide
  cases p
  case maxLength =>
    have hdigits := digits_toString o.maxLength.toNat
    exact ⟨_, _, hdigits.trims, .plain hdigits, o.maxLength.toNat_lt, rfl⟩
  all_goals exact (Property.reads_flag_iff (by decide)).2 ⟨_, hflag _, rfl⟩

/-- The properties with some names, in their written form. -/
def pairsOf (o : Options) (names : List String) : List (String × String) :=
  names.filterMap fun name => (o.get? name).map (name, ·)

theorem mem_pairsOf {names : List String} :
    (name, value) ∈ o.pairsOf names ↔
      name ∈ names ∧ ∃ p : Property, p.Named name ∧ o.text p = value := by
  simp [pairsOf, get?, ← Property.ofName?_eq_some_iff]

/-- **What is written is read**, in whatever order, if no property is left out. -/
theorem ofPairs_pairsOf {names : List String} (h : ∀ p : Property, ∃ name ∈ names, p.Named name) :
    ofPairs (o.pairsOf names) = .ok o := by
  have hread : ∀ {name value : String}, (name, value) ∈ o.pairsOf names →
      ∃ p : Property, p.Named name ∧ value = o.text p ∧ p.Reads value value := by
    intro name value hmem
    obtain ⟨_, p, hp, rfl⟩ := mem_pairsOf.1 hmem
    exact ⟨p, hp, rfl, o.reads_text p⟩
  rw [ofPairs_eq_setAll]
  cases hset : setAll {} (o.pairsOf names) with
  | error refusal =>
    obtain ⟨before, name, value, after, hpairs, _, hrefuses⟩ := setAll_eq_error_iff.1 hset
    have hmem : (name, value) ∈ o.pairsOf names := hpairs ▸ by simp
    obtain ⟨p, hp, _, hreads⟩ := hread hmem
    obtain ⟨next, hnext⟩ := exists_set_iff (o := o).2 ⟨p, value, hp, hreads⟩
    rw [set_eq_error_iff.2 hrefuses] at hnext
    cases hnext
  | ok o' =>
    refine congrArg _ (ext_text fun p => ?_)
    have hends := text_setAll hset p
    generalize hpairs : o.pairsOf names = pairs at hends
    generalize o'.text p = written at hends
    cases hends with
    | @given before after name value _ _ hname hvalue _ =>
      have hmem : (name, value) ∈ o.pairsOf names := hpairs ▸ by simp
      obtain ⟨q, hq, rfl, hreads⟩ := hread hmem
      obtain rfl := hname.unique hq
      exact reads_unique hvalue hreads
    | kept hnone =>
      obtain ⟨name, hmem, hp⟩ := h p
      exact absurd hp (hnone (name, o.text p) (hpairs ▸ mem_pairsOf.2 ⟨hmem, p, hp, rfl⟩))

/-- The options that stand after a pair was tried. -/
def tried (o : Options) (name value : String) : Options :=
  match o.set name value with
  | .ok o' => o'
  | .error _ => o

/-- What one pair does to options. -/
structure SetsAsWritten (o : Options) (name value : String) : Prop where
  /-- Pairs that name a property and have a value for it are taken, and no others. -/
  accepts : (∃ o', o.set name value = .ok o') ↔ Accepts name value
  /-- The property says what the value said, and the others say what they said before. -/
  sets : ∀ o', o.set name value = .ok o' → ∃ (p : Property) (written : String), p.Named name ∧
    p.Reads value written ∧ o'.get? name = some written ∧
    ∀ q ≠ p, o'.get? q.name = o.get? q.name
  refuses : ∀ refusal, o.set name value = .error refusal ↔ Refuses name value refusal
  /-- A pair that is refused changes nothing. -/
  keeps : ¬ Accepts name value → o.tried name value = o

theorem setsAsWritten (o : Options) (name value : String) : SetsAsWritten o name value where
  accepts := exists_set_iff
  sets o' h := by
    obtain ⟨p, hname, hvalue, hothers⟩ := text_of_set h
    refine ⟨p, o'.text p, hname, hvalue, o'.get?_of_named hname, fun q hq => ?_⟩
    rw [get?_name, get?_name, hothers q hq]
  refuses _ := set_eq_error_iff
  keeps h := by
    cases hset : o.set name value with
    | error refusal => rw [tried, hset]
    | ok o' => exact absurd (exists_set_iff.1 ⟨o', hset⟩) h

/-- **Options are read as they are written.**  A pair is taken exactly if it names a property in
some case and has a value for it, and changes what this property says and nothing else.  What all
properties say is read back in any order.  A list of pairs fails for the first pair that is refused,
or leaves every property with what its last pair said. -/
theorem read_as_written :
    (∀ (o : Options) (name value : String), SetsAsWritten o name value) ∧
    (∀ (o : Options) (names : List String), names.Perm (Property.all.map Property.name) →
      ofPairs (o.pairsOf names) = .ok o) ∧
    ∀ pairs : List (String × String),
      (∀ refusal, ofPairs pairs = .error refusal ↔ FirstRefused pairs refusal) ∧
      ∀ o, ofPairs pairs = .ok o →
        ∀ p, ∃ written, Ends {} pairs p written ∧ o.get? p.name = some written := by
  refine ⟨setsAsWritten, fun o names hnames => ?_, fun pairs => ⟨fun _ => setAll_eq_error_iff, ?_⟩⟩
  · refine ofPairs_pairsOf fun p => ⟨p.name, hnames.mem_iff.2 ?_, p.named_name⟩
    exact List.mem_map_of_mem p.mem_all
  · exact fun o hpairs p => ⟨o.text p, text_setAll hpairs p, o.get?_name p⟩

/-- The greatest length, with a sign and blanks around it, and the properties in another order. -/
theorem read_as_written_greatest :
    let o : Options := { chop := false, maxLength := 18446744073709551615 }
    let names := ["TEXTINDEX", "ATTRINDEX", "MAXLEN", "CHOP"]
    names.Perm (Property.all.map Property.name) ∧ ofPairs (o.pairsOf names) = .ok o ∧
      (∃ o', o.set "MaxLen" " +0007\u2003" = .ok o') ∧
      ¬ Accepts "MAXLEN" "18446744073709551616" ∧
      o.tried "MAXLEN" "18446744073709551616" = o := by
  have htrims : Text.Trims " +0007\u2003".toList ['+', '0', '0', '0', '7'] :=
    ⟨⟨[' '], ['\u2003'], by decide, List.forall_mem_singleton.2 (by decide),
      List.forall_mem_singleton.2 (by decide)⟩, by simp; decide, by simp; decide⟩
  have haccepted : Accepts "MaxLen" " +0007\u2003" :=
    ⟨.maxLength, "7", Property.named_iff.2 (by decide), _, 7, htrims,
      .plus ⟨by decide, by simp, by decide⟩, by decide, by decide⟩
  intro o names
  have hnames : names.Perm (Property.all.map Property.name) := by decide
  obtain ⟨hset, hround, _⟩ := read_as_written
  have hrefused : ¬ Accepts "MAXLEN" "18446744073709551616" := by
    rw [← (hset o _ _).accepts]
    rintro ⟨o', ho'⟩
    have hvalue : o.set "MAXLEN" "18446744073709551616" =
        .error (.invalidValue .maxLength "18446744073709551616") := by cbv
    rw [hvalue] at ho'
    cases ho'
  exact ⟨hnames, hround o names hnames, (hset o _ _).accepts.2 haccepted, hrefused,
    (hset o _ _).keeps hrefused⟩

end Options

end XmlStore
