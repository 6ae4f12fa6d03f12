import BmakeZig.Text.Basic

/-! The neutral form in which values are exchanged: what a document of nested lists and labelled
fields can say. A record is accepted by its labels or by position; one of several alternatives by
its label alone, or under its label with what it carries. -/
namespace BmakeZig

inductive Form where
  | null
  | flag (holds : Bool)
  /-- A number written in digits alone. -/
  | natural (n : Nat)
  /-- Any other number, as it is written: with a sign, a fraction or an exponent. -/
  | numeral (spelling : Text)
  | text (content : Text)
  | list (items : List Form)
  | fields (entries : List (Text × Form))

namespace Form

def label (label : String) : Form :=
  .text label.toList

/-- Fields under their labels. -/
def record (entries : List (String × Form)) : Form :=
  .fields (entries.map fun entry => (entry.1.toList, entry.2))

/-- One alternative under its label. -/
def tagged (label : String) (content : Form) : Form :=
  record [(label, content)]

def ofTexts (texts : List Text) : Form :=
  .list (texts.map .text)

def flag? : Form → Option Bool
  | .flag value => some value
  | _ => none

/-- A number that fits in 64 bits. One with a sign, a fraction or an exponent does not count, even
when its value is whole. -/
def nat? : Form → Option Nat
  | .natural n => if n < 0x10000000000000000 then some n else none
  | _ => none

def text? : Form → Option Text
  | .text content => some content
  | _ => none

/-- A list all of whose items can be read. -/
def list? (read : Form → Option α) : Form → Option (List α)
  | .list items => items.mapM read
  | _ => none

def texts? : Form → Option (List Text) :=
  list? text?

/-- Fields all of which hold texts. -/
def table? : Form → Option (List (Text × Text))
  | .fields entries => entries.mapM fun entry => entry.2.text?.map (entry.1, ·)
  | _ => none

/-- What labelled fields hold under each of some labels. -/
def pick (labels : List String) (entries : List (Text × Form)) : List (Option Form) :=
  labels.map fun label => entries.lookup label.toList

/-- What a record holds under each of its labels. Fields under other labels do not count, and a
list gives the fields in order. -/
def record? (labels : List String) : Form → Option (List (Option Form))
  | .fields entries => some (pick labels entries)
  | .list items =>
    if items.length ≤ labels.length then
      some (items.map some ++ List.replicate (labels.length - items.length) none)
    else none
  | _ => none

/-- The label of an alternative and what stands under it. -/
def alternative? : Form → Option (Text × Option Form)
  | .text label => some (label, none)
  | .fields [(label, content)] => some (label, some content)
  | _ => none

/-- The label of an alternative that carries nothing. -/
def bare? (form : Form) : Option Text :=
  match form.alternative? with
  | some (label, none) | some (label, some .null) => some label
  | _ => none

/-- The labelled fields that an alternative carries. -/
def carried? (labels : List String) : Option Form → Option (List (Option Form))
  | some (.fields entries) => some (pick labels entries)
  | _ => none

end Form

end BmakeZig
