import BmakeZig.Source.Statement

/-! Rules: a target with a colon on a line of their own, then a body of indented lines. Blank lines
may stand between them, and the first line that is neither blank nor indented ends the body. -/
namespace BmakeZig.Source

def alwaysTarget : Text :=
  "always".toList

/-- The target: the word that stands for every build, or a declaration that starts with a dot and
has neither blanks nor an equals sign before the colon. -/
def target? (line : Nat) : Reader := fun here =>
  match Text.after? alwaysTarget here with
  | some left => some (Node.leaf .always line alwaysTarget, left)
  | none =>
    match here with
    | '.' :: _ =>
      match Text.cutAt? ':' here with
      | none => none
      | some (head, _) =>
        let declaration := Text.trimEnd head
        if declaration.any Text.isBlank || declaration.contains '=' then none
        else some (Node.leaf .targetDecl line declaration, here.drop declaration.length)
    | _ => none

/-- The target and the colon of a rule. -/
def ruleHeader (line : Nat) (here : Text) : Option (List Node) :=
  match target? line here with
  | none => none
  | some (target, left) =>
    match Text.skipSpaces left with
    | ':' :: after => if atLineEnd after then some [target, Node.token line [':']] else none
    | _ => none

def isModifier (c : Char) : Bool :=
  c == '-' || c == '|' || c == '@' || c == '!'

/-- The built-in command a command line names behind its modifiers. -/
def builtin? : Text → Option (Text × Text)
  | '~' :: text => (Text.name? text).map fun found => ('~' :: found.1, found.2)
  | _ => none

def command (line : Nat) (text : Text) : Node :=
  let modifiers := (text.takeWhile isModifier).map fun c => Node.leaf .commandMod line [c]
  let after := text.dropWhile isModifier
  let (builtin, left) :=
    match builtin? after with
    | some (name, left) => ([Node.leaf .builtinCommand line name], left)
    | none => ([], after)
  Node.branch .buildCommand line (Text.trimEnd text)
    (modifiers ++ builtin ++ [phrase .command line (Text.skipSpaces left)])

/-- The first line from here on that is not blank. -/
def filledLine (c : Cursor) : Option Cursor :=
  if !c.here.all Text.isBlank then some c
  else
    match found : c.below with
    | [] => none
    | _ :: rest =>
      have := Cursor.length_of_below found
      filledLine ⟨c.line + 1, rest⟩
termination_by c.rest.length

/-- The next line of a rule body, if the body goes on. -/
def bodyLine (c : Cursor) : Option Cursor :=
  (filledLine c).filter fun filled =>
    match filled.rest with
    | ' ' :: _ | '\t' :: _ => true
    | _ => false

/-- One line of a rule body, without its indentation. -/
def bodyEntry (line : Nat) (text : Text) : Node :=
  match text with
  | '#' :: _ => comment line text
  | _ => command line text

theorem length_of_filledLine {c filled : Cursor} (found : filledLine c = some filled) :
    filled.rest.length ≤ c.rest.length := by
  fun_induction filledLine c with
  | case1 => simp_all
  | case2 => simp at found
  | case3 c _ first rest below shorter ih =>
    have inner := ih found
    simp only at inner
    omega

theorem length_of_bodyLine {c filled : Cursor} (found : bodyLine c = some filled) :
    filled.nextLine.rest.length < c.rest.length := by
  simp only [bodyLine, Option.filter_eq_some_iff] at found
  have shorter := length_of_filledLine found.1
  have indented := found.2
  have nonempty : filled.rest ≠ [] := by
    intro empty
    simp [empty] at indented
  have next := Cursor.length_nextLine_lt nonempty
  omega

/-- The entries of a rule body, and the place behind the last of them. -/
def bodyEntries (c : Cursor) : List Node × Cursor :=
  match found : bodyLine c with
  | none => ([], c)
  | some filled =>
    have := length_of_bodyLine found
    let rest := bodyEntries filled.nextLine
    (bodyEntry filled.line (Text.skipSpaces filled.here) :: rest.1, rest.2)
termination_by c.rest.length

def ruleBody (c : Cursor) : Node × Cursor :=
  match bodyEntries c with
  | ([], stop) => (Node.leaf .ruleBody c.line [], stop)
  | (entries, stop) =>
    (Node.branch .ruleBody c.line (Text.trimEnd (c.upTo stop)) entries, stop)

def rule (c : Cursor) : Option (Node × Cursor) :=
  (ruleHeader c.line c.here).map fun header =>
    let (body, stop) := ruleBody c.nextLine
    (Node.branch .rule c.line (c.upTo stop) (header ++ [body]), stop)

end BmakeZig.Source
