import BmakeZig.Proofs.Zig.Evaluate
import BmakeZig.Proofs.Zig.Layout
import BmakeZig.Zig.Program

/-! A run of the emitted text, line by line: a declaration gives a variable its first value, an
assignment gives a declared variable another one, and any other line is passed over. Blanks around
a line do not count, so blocks may be indented; and a whole program runs its declarations and then
its statements. -/
namespace BmakeZig.Zig

/-- One line. An assignment that cannot be read, or to a variable nothing declares, fails. -/
def executeLine (store : Table) (line : Text) : Option Table :=
  match Text.after? "vars.".toList line with
  | some target => do
    let (name, rest) ← identifier? target
    let expression ← Text.after? " = ".toList rest
    let (value, rest) ← expression? store line.length expression
    let _ ← store.get? name
    if rest = [';'] then some (store.put name value) else none
  | none =>
    match Text.after? "pub var ".toList line with
    | some target => do
      let (name, rest) ← identifier? target
      let initial ← Text.after? ": []const u8 = ".toList rest
      let (value, rest) ← literal? initial
      if rest = [';'] then some (store.put name value) else none
    | none => some store

/-- The store after all lines of the text. -/
def execute (store : Table) (text : Text) : Option Table :=
  (Text.splitOn '\n' text).foldlM (fun store line => executeLine store (statement line)) store

variable {store : Table} {name value text line : Text}

/-! Texts put together from lines. -/

theorem execute_line (oneLine : '\n' ∉ line) :
    execute store line = executeLine store (statement line) := by
  rw [execute, Text.splitOn_of_not_mem oneLine, List.foldlM_cons]
  exact bind_pure _

theorem execute_append (store : Table) (left right : Text) :
    execute store (left ++ '\n' :: right) =
      (execute store left).bind fun store => execute store right := by
  rw [execute, Text.splitOn_append, List.foldlM_append]
  rfl

theorem byLine_execute : ByLine execute where
  nil _ := rfl
  append := execute_append
  line store _ _ oneLine otherLine same := by
    rw [execute_line oneLine, execute_line otherLine, same]

theorem execute_joinWith (store : Table) (texts : List Text) :
    execute store (Text.joinWith ['\n'] texts) = texts.foldlM execute store :=
  byLine_execute.joinWith store texts

/-! Blocks. -/

/-- The line changes no store. -/
def PassedOver (line : Text) : Prop :=
  ∀ store, executeLine store (statement line) = some store

theorem executeLine_other (assigns : Text.after? "vars.".toList line = none)
    (declares : Text.after? "pub var ".toList line = none) (store : Table) :
    executeLine store line = some store := by
  unfold executeLine
  rw [assigns]
  simp only [declares]

theorem execute_blank (blank : ∀ c ∈ text, Text.isBlank c = true) (store : Table) :
    execute store text = some store := by
  have each : ∀ line ∈ Text.splitOn '\n' text, statement line = [] := by
    intro line member
    rw [statement, Text.trimEnd_blank fun c inside => blank c (Text.mem_of_mem_splitOn member inside)]
    rfl
  rw [execute]
  generalize Text.splitOn '\n' text = lines at each
  induction lines with
  | nil => rfl
  | cons line lines ih =>
    rw [List.foldlM_cons, each line List.mem_cons_self]
    exact ih fun other member => each other (List.mem_cons_of_mem _ member)

/-- A block runs as its body, between whatever lines it is opened and closed in. -/
theorem execute_block {opening closing : Text} (opens : ∀ tail, PassedOver (opening ++ tail))
    (closes : PassedOver ('\x7d' :: closing)) (oneLine : '\n' ∉ opening ∧ '\n' ∉ closing)
    (store : Table) (body : Text) :
    execute store (opening ++ block body ++ closing) = execute store body := by
  unfold block
  split
  · next blank =>
    -- An empty block is written in one line with what opens it.
    have whole : '\n' ∉ opening ++ ['\x7b', '\x7d'] ++ closing := by simp [oneLine]
    rw [execute_blank (List.all_eq_true.1 blank), execute_line whole, List.append_assoc]
    exact opens _ store
  · have whole : opening ++ (['\x7b', '\n'] ++ indent body ++ ['\n', '\x7d']) ++ closing =
        (opening ++ ['\x7b']) ++ '\n' :: (indent body ++ '\n' :: ('\x7d' :: closing)) := by
      simp
    have first : execute store (opening ++ ['\x7b']) = some store := by
      rw [execute_line (by simp [oneLine])]
      exact opens _ store
    have last (store : Table) : execute store ('\x7d' :: closing) = some store := by
      rw [execute_line (by simp [oneLine])]
      exact closes store
    rw [whole, execute_append, first, Option.bind_some, execute_append, byLine_execute.indent]
    simp only [last]
    exact Option.bind_fun_some _

/-! Lines as they are written. -/

/-- What a line starts with stays in front when the blanks around the line go. -/
theorem statement_front {c : Char} {front : Text} (solid : Text.isBlank c = false)
    (firm : Text.Firm (c :: front)) (rest : Text) :
    statement (c :: front ++ rest) = c :: front ++ Text.trimEnd rest := by
  rw [statement, firm.trimEnd_append]
  simp [Text.trimStart, solid]

theorem passedOver_of_first {c : Char} (solid : Text.isBlank c = false) (assigns : c ≠ 'v')
    (declares : c ≠ 'p') (rest : Text) : PassedOver (c :: rest) := by
  intro store
  have front : statement (c :: rest) = c :: Text.trimEnd rest :=
    statement_front solid ⟨[], c, rfl, solid⟩ rest
  have noTarget : Text.after? "vars.".toList (c :: Text.trimEnd rest) = none :=
    if_neg (Ne.symm assigns)
  have noDeclared : Text.after? "pub var ".toList (c :: Text.trimEnd rest) = none :=
    if_neg (Ne.symm declares)
  rw [front]
  exact executeLine_other noTarget noDeclared store

theorem passedOver_function (rest : Text) : PassedOver ("pub fn".toList ++ rest) := by
  intro store
  have front : statement ("pub fn".toList ++ rest) = "pub fn".toList ++ Text.trimEnd rest :=
    statement_front (by decide) ⟨"pub f".toList, 'n', rfl, by decide⟩ rest
  rw [front]
  exact executeLine_other rfl rfl store

theorem statement_solid {c d : Char} (first : Text.isBlank c = false) (last : Text.isBlank d = false)
    (line : Text) : statement (c :: line ++ [d]) = c :: line ++ [d] := by
  rw [statement, Text.trimEnd_concat last, Text.trimStart, List.cons_append, List.dropWhile_cons,
    first]
  rfl

theorem executeLine_set {old : Text} (declared : store.get? name = some old)
    (yields : Yields store 4 text value) :
    executeLine store (set name text) = some (store.put name value) := by
  have whole : set name text =
      "vars.".toList ++ (identifier name ++ (" = ".toList ++ (text ++ ";".toList))) := by
    unfold set variableNamed
    simp only [List.append_assoc]
  -- The reader may nest as deep as the line is long.
  have long : 4 ≤ (set name text).length := by
    rw [whole, List.length_append]
    exact Nat.le_trans (by decide) (Nat.le_add_right _ _)
  have target : identifier? (identifier name ++ (" = ".toList ++ (text ++ ";".toList))) =
      some (name, " = ".toList ++ (text ++ ";".toList)) :=
    identifier?_identifier name (stops_cons (by decide) _)
  have computed := yields _ long ";".toList (stops_cons (by decide) _)
  unfold executeLine
  rw [whole] at computed ⊢
  simp only [Text.after?_append, target, Option.bind_eq_bind, Option.bind_some, computed, declared]
  rfl

theorem executeLine_declaration (store : Table) (name value : Text) :
    executeLine store (declaration name value) = some (store.put name value) := by
  have whole : declaration name value = "pub var ".toList ++ (identifier name ++
      (": []const u8 = ".toList ++ (literal value ++ ";".toList))) := by
    unfold declaration
    simp only [List.append_assoc]
  have target : identifier?
      (identifier name ++ (": []const u8 = ".toList ++ (literal value ++ ";".toList))) =
      some (name, ": []const u8 = ".toList ++ (literal value ++ ";".toList)) :=
    identifier?_identifier name (stops_cons (by decide) _)
  have other : ∀ more, Text.after? "vars.".toList ("pub var ".toList ++ more) = none := fun _ => rfl
  unfold executeLine
  rw [whole, other]
  simp only [Text.after?_append, target, Option.bind_eq_bind, Option.bind_some, literal?_literal]
  rfl

theorem execute_set {old : Text} (declared : store.get? name = some old)
    (yields : Yields store 4 text value) (oneLine : '\n' ∉ text) :
    execute store (set name text) = some (store.put name value) := by
  have plain : '\n' ∉ set name text := by
    unfold set variableNamed
    simp only [List.mem_append, newline_not_mem_identifier, oneLine]
    decide
  have solid : statement (set name text) = set name text :=
    statement_solid (by decide) (by decide) ("ars.".toList ++ identifier name ++ " = ".toList ++ text)
  rw [execute_line plain, solid, executeLine_set declared yields]

theorem execute_declaration (store : Table) (name value : Text) :
    execute store (declaration name value) = some (store.put name value) := by
  have plain : '\n' ∉ declaration name value := by
    unfold declaration
    simp only [List.mem_append, newline_not_mem_identifier, newline_not_mem_literal]
    decide
  have solid : statement (declaration name value) = declaration name value :=
    statement_solid (by decide) (by decide)
      ("ub var ".toList ++ identifier name ++ ": []const u8 = ".toList ++ literal value)
  rw [execute_line plain, solid, executeLine_declaration]

/-- Declaring variables with the values they have already changes nothing. -/
theorem execute_declarations {entries : List (Text × Text)}
    (held : ∀ entry ∈ entries, store.get? entry.1 = some entry.2) :
    ∃ store', (entries.map fun entry => declaration entry.1 entry.2).foldlM execute store =
        some store' ∧
      ∀ name, store'.get? name = store.get? name := by
  induction entries generalizing store with
  | nil => exact ⟨store, rfl, fun _ => rfl⟩
  | cons entry entries ih =>
    have first := held entry List.mem_cons_self
    have same (name : Text) : (store.put entry.1 entry.2).get? name = store.get? name := by
      rw [Table.get?_put]
      split
      · next found => rw [found, first]
      · rfl
    obtain ⟨store', run, kept⟩ := ih fun other member =>
      (same other.1).trans (held other (List.mem_cons_of_mem _ member))
    refine ⟨store', ?_, fun name => (kept name).trans (same name)⟩
    rw [List.map_cons, List.foldlM_cons, execute_declaration]
    exact run

/-! Whole programs. -/

/-- No line of the text is a declaration or an assignment. -/
def quiet (text : Text) : Bool :=
  (Text.splitOn '\n' text).all fun line =>
    (Text.after? "vars.".toList (statement line)).isNone &&
      (Text.after? "pub var ".toList (statement line)).isNone

theorem execute_quiet (none : quiet text = true) (store : Table) : execute store text = some store := by
  rw [quiet, List.all_eq_true] at none
  rw [execute]
  generalize Text.splitOn '\n' text = lines at none
  induction lines with
  | nil => rfl
  | cons line lines ih =>
    have first := none line List.mem_cons_self
    simp only [Bool.and_eq_true, Option.isNone_iff_eq_none] at first
    rw [List.foldlM_cons, executeLine_other first.1 first.2]
    exact ih fun other member => none other (List.mem_cons_of_mem _ member)

theorem execute_newline (store : Table) (text : Text) :
    execute store ('\n' :: text) = execute store text :=
  execute_append store [] text

theorem execute_quiet_append (none : quiet text = true) (store : Table) (rest : Text) :
    execute store (text ++ '\n' :: rest) = execute store rest := by
  rw [execute_append, execute_quiet none, Option.bind_some]

def structOpening : Text :=
  "const vars = struct ".toList

def buildOpening : Text :=
  "pub fn build(b: *std.Build) !void ".toList

theorem execute_struct (store : Table) (declarations : Text) :
    execute store (structOpening ++ block declarations ++ [';']) = execute store declarations := by
  apply execute_block
  · exact fun tail => passedOver_of_first (by decide) (by decide) (by decide) _
  · exact passedOver_of_first (by decide) (by decide) (by decide) _
  · decide

theorem execute_build (store : Table) (statements : Text) :
    execute store (buildOpening ++ block statements ++ []) = execute store statements := by
  apply execute_block
  · exact fun tail => passedOver_function (" build(b: *std.Build) !void ".toList ++ tail)
  · exact passedOver_of_first (by decide) (by decide) (by decide) _
  · decide

theorem execute_discard (store : Table) (body : Text) :
    execute store ("_ = b;\n".toList ++ body) = execute store body := by
  have line : quiet "_ = b;".toList = true := by decide +kernel
  exact execute_quiet_append line store body

/-- The script cut into its blocks and the lines between them. -/
theorem program_eq (body : Text) (initial : List (Text × Text)) (usesBuilder : Bool) :
    program body initial usesBuilder =
      header ++ '\n' :: '\n' :: ((structOpening ++ block (Text.joinWith ['\n']
        (initial.map fun entry => declaration entry.1 entry.2)) ++ [';']) ++ '\n' :: '\n' ::
      (runHelper ++ '\n' :: '\n' :: ((buildOpening ++
        block (if usesBuilder then body else "_ = b;\n".toList ++ body) ++ []) ++ '\n' :: []))) := by
  have first : "\n\nconst vars = struct ".toList = '\n' :: '\n' :: structOpening := rfl
  have second : "\n\npub fn build(b: *std.Build) !void ".toList = '\n' :: '\n' :: buildOpening := rfl
  unfold program
  rw [first, second]
  simp only [List.append_assoc, List.cons_append, List.append_nil]
  rfl

/-- A program runs its declarations, then its statements. -/
theorem execute_program (store : Table) (body : Text) (initial : List (Text × Text))
    (usesBuilder : Bool) :
    execute store (program body initial usesBuilder) =
      ((initial.map fun entry => declaration entry.1 entry.2).foldlM execute store).bind
        fun store => execute store body := by
  have top : quiet header = true := by decide +kernel
  have helper : quiet runHelper = true := by decide +kernel
  have statements (store : Table) :
      execute store (if usesBuilder then body else "_ = b;\n".toList ++ body) =
        execute store body := by
    split
    · rfl
    · exact execute_discard store body
  have build (store : Table) : execute store (buildOpening ++
      block (if usesBuilder then body else "_ = b;\n".toList ++ body) ++ [] ++ ['\n']) =
        execute store body := by
    have ending (store : Table) : execute store [] = some store := rfl
    rw [execute_append, execute_build, statements]
    simp only [ending]
    exact Option.bind_fun_some _
  rw [program_eq, execute_quiet_append top, execute_newline, execute_append, execute_struct,
    execute_joinWith]
  refine congrArg _ (funext fun store => ?_)
  rw [execute_newline, execute_quiet_append helper, execute_newline, build]

end BmakeZig.Zig
