import BmakeZig.Proofs.Compile.Nesting
import BmakeZig.Proofs.Compile.Stored
import BmakeZig.Proofs.Render.Splice
import BmakeZig.Proofs.Zig.Closed

/-! What is rendered as a comment. Behind two slashes a line is a plain comment of the program, unless
what follows makes it documentation; and a line feed in the text behind the slashes ends the comment.
Spans that could not be read and unsupported commands stay plain comments whatever they hold. A
comment of the unit may turn into documentation, and a folder or a place that a line feed was expanded
into breaks out of its line; nothing else goes wrong. -/
namespace BmakeZig

theorem Text.splitOn_append_left {mark : Char} {opening text first : Text} {rest : List Text}
    (absent : mark ∉ opening) (cut : splitOn mark text = first :: rest) :
    splitOn mark (opening ++ text) = (opening ++ first) :: rest := by
  induction opening with
  | nil => exact cut
  | cons c opening ih =>
    rw [List.mem_cons, not_or] at absent
    rw [List.cons_append, splitOn, if_neg (Ne.symm absent.1), ih absent.2]
    rfl

namespace Zig

variable {opening text left right : Text}

/-- What makes two slashes in front of it start a comment of the documentation. -/
def documents : Text → Bool
  | '!' :: _ => true
  | '/' :: '/' :: _ => false
  | '/' :: _ => true
  | _ => false

/-- A line that is a plain comment. -/
def isPlainRemark : Text → Bool
  | '/' :: '/' :: rest => !documents rest
  | _ => false

/-- Every line of the text is a plain comment. -/
def Remarks (text : Text) : Prop :=
  ∀ line ∈ Text.splitOn '\n' text, isPlainRemark line = true

instance (text : Text) : Decidable (Remarks text) :=
  inferInstanceAs (Decidable (∀ line ∈ Text.splitOn '\n' text, isPlainRemark line = true))

theorem remarks_append : Remarks (left ++ '\n' :: right) ↔ Remarks left ∧ Remarks right := by
  simp only [Remarks, Text.splitOn_append, List.forall_mem_append]

theorem remarks_line (oneLine : '\n' ∉ text) : Remarks text ↔ isPlainRemark text = true := by
  rw [Remarks, Text.splitOn_of_not_mem oneLine, List.forall_mem_singleton]

/-- Behind slashes and a blank only the further lines of a text count. -/
theorem remarks_behind (oneLine : '\n' ∉ opening) (text : Text) :
    Remarks ('/' :: '/' :: ' ' :: opening ++ text) ↔
      ∀ line ∈ (Text.splitOn '\n' text).tail, isPlainRemark line = true := by
  obtain ⟨first, rest, cut⟩ := List.exists_cons_of_ne_nil (Text.splitOn_ne_nil '\n' text)
  have absent : '\n' ∉ '/' :: '/' :: ' ' :: opening := by simp [oneLine]
  rw [Remarks, Text.splitOn_append_left absent cut, List.forall_mem_cons, cut, List.tail_cons]
  exact ⟨And.right, fun later => ⟨rfl, later⟩⟩

theorem remarks_margin {sources : List Text} (oneLine : ∀ source ∈ sources, '\n' ∉ source)
    (before : Remarks text) :
    Remarks (text ++ sources.flatMap fun source => "\n// | ".toList ++ source) := by
  induction sources generalizing text with
  | nil => rwa [List.flatMap_nil, List.append_nil]
  | cons source sources ih =>
    obtain ⟨single, others⟩ := List.forall_mem_cons.1 oneLine
    have margin : Remarks ("// | ".toList ++ source) := by
      refine (remarks_line ?_).2 rfl
      simp [single]
    rw [List.flatMap_cons, ← List.append_assoc]
    exact ih others (remarks_append.2 ⟨before, margin⟩)

theorem remarks_unreadSpan (text : Text) (line : Nat) : Remarks (unreadSpan text line) := by
  have banner : Remarks ("// ==== begin malformed bmake (line ".toList ++ Text.ofNat line ++
      ") ====".toList) := by
    refine (remarks_line ?_).2 rfl
    simp [newline_not_mem_ofNat]
  refine remarks_append.2 ⟨remarks_margin ?_ banner, (remarks_line (by decide)).2 rfl⟩
  exact fun source member => Text.newline_not_mem_lines member

end Zig

/-! Comments and commands of a unit keep to one line. -/

theorem Shape.newline_not_mem_of_kind {role : Role} {node : Node} (shape : Shape role node)
    (kind : node.kind = .comment ∨ node.kind = .buildCommand) : '\n' ∉ node.text := by
  induction shape with
  | phrase oneLine | remark oneLine | comment oneLine | command oneLine => exact oneLine
  | expanded _ ih | named _ ih | expansion _ ih => exact ih kind
  | joined kinds => rcases kinds with rfl | rfl | rfl <;> simp [Node.branch] at kind
  | located kinds => rcases kinds with rfl | rfl <;> simp [Node.branch] at kind
  | _ => simp [Node.branch, Node.leaf] at kind

theorem Fits.newline_not_mem_of_kind {node : Node} (fits : Fits node)
    (kind : node.kind = .comment ∨ node.kind = .buildCommand) : '\n' ∉ node.text := by
  cases fits with
  | bare bare => rcases kind with same | same <;> simp [same, Kind.isBare] at bare
  | entries => simp [Node.branch] at kind
  | shaped _ shape => exact shape.newline_not_mem_of_kind kind

namespace Render

/-- The text of a comment behind its hash sign. -/
def remark : Text → Text
  | '#' :: rest => rest
  | text => text

theorem comment_eq (text : Text) : comment text = '/' :: '/' :: remark text := by
  unfold comment remark
  split <;> simp_all

theorem newline_not_mem_remark {text : Text} (oneLine : '\n' ∉ text) : '\n' ∉ remark text := by
  unfold remark
  split
  · exact fun member => oneLine (List.mem_cons_of_mem _ member)
  · exact oneLine

end Render

namespace Moment

variable {moment : Moment} {text : Text} {after : Pass}

/-- The texts that a moment renders as comments: for a comment, a search or a span that could not be
read all of its text, and so for a command that has no rule; for an inclusion the line that names the
unit. -/
inductive Comments (moment : Moment) : Text → Prop where
  | own {text : Text} {after : Pass}
      (kind : moment.node.kind = .comment ∨ moment.node.kind = .search ∨ moment.node.kind = .error)
      (ran : moment.run = .ok text after) : Comments moment text
  | command {name : Node} {text : Text} {after : Pass} (kind : moment.node.kind = .buildCommand)
      (named : moment.node.find? .builtinCommand = some name)
      (unsupported : ∀ command, Render.builtin? name.text command = none)
      (ran : moment.run = .ok text after) : Comments moment text
  | header {place : Path} {source text : Text} {middle after : Pass}
      (kind : moment.node.kind = .inclusion)
      (located : Render.located moment.context moment.node moment.pass = .ok (place, source) middle)
      (ran : moment.run = .ok text after) : Comments moment (Render.included place [])

/-- What spoils a comment: a text that makes it documentation, or a folder or a place with a further
line that is no comment. -/
inductive Spoils (moment : Moment) : Prop where
  | comment (kind : moment.node.kind = .comment)
      (documents : Zig.documents (Render.remark moment.node.text) = true)
  | search {path : Node} {directory line : Text} {middle : Pass} (kind : moment.node.kind = .search)
      (found : moment.node.find? .path = some path)
      (expanded : Render.staticPath moment.context path moment.pass = .ok directory middle)
      (further : line ∈ (Text.splitOn '\n' directory).tail) (broken : Zig.isPlainRemark line = false)
  | header {place : Path} {source line : Text} {middle : Pass}
      (kind : moment.node.kind = .inclusion)
      (located : Render.located moment.context moment.node moment.pass = .ok (place, source) middle)
      (further : line ∈ (Text.splitOn '\n' place.toText).tail) (broken : Zig.isPlainRemark line = false)

theorem IsRead.newline_not_mem (isRead : moment.IsRead)
    (kind : moment.node.kind = .comment ∨ moment.node.kind = .buildCommand) :
    '\n' ∉ moment.node.text := by
  rcases isRead.2 with ⟨source, same⟩ | fits
  -- The root of a unit is neither.
  · rw [same] at kind
    rcases kind with kind | kind <;> cases kind
  · exact fits.newline_not_mem_of_kind kind

theorem remarks_comment (isRead : moment.IsRead) (kind : moment.node.kind = .comment)
    (ran : moment.run = .ok text after) : Zig.Remarks text ↔ ¬moment.Spoils := by
  have oneLine := Render.newline_not_mem_remark (isRead.newline_not_mem (.inl kind))
  have said : Render.comment moment.node.text = text := by
    rw [run_of_bare (by simp only [Node.rendered, kind]) (by simp [kind])] at ran
    simp only [Node.finish, Render.node, kind] at ran
    cases ran
    rfl
  have spoiled : moment.Spoils ↔ Zig.documents (Render.remark moment.node.text) = true := by
    constructor
    · rintro (⟨_, documents⟩ | ⟨same⟩ | ⟨same⟩)
      · exact documents
      all_goals simp [kind] at same
    · exact .comment kind
  rw [← said, Render.comment_eq, Zig.remarks_line (by simp [oneLine]), spoiled]
  simp [Zig.isPlainRemark]

theorem remarks_search (kind : moment.node.kind = .search) (ran : moment.run = .ok text after) :
    Zig.Remarks text ↔ ¬moment.Spoils := by
  rw [run_of_bare (by simp only [Node.rendered, kind]) (by simp [kind])] at ran
  simp only [Node.finish, Render.node, kind] at ran
  unfold Render.search at ran
  obtain ⟨path, _, required, rest⟩ := Render.of_bind_ok ran
  obtain ⟨found, rfl⟩ := Render.of_require required
  obtain ⟨directory, middle, expanded, rest⟩ := Render.of_bind_ok rest
  cases rest
  have spoiled : moment.Spoils ↔
      ∃ line ∈ (Text.splitOn '\n' directory).tail, Zig.isPlainRemark line = false := by
    constructor
    · rintro (⟨same⟩ | ⟨_, other, again, further, broken⟩ | ⟨same⟩)
      · simp [kind] at same
      · cases found.symm.trans other
        cases expanded.symm.trans again
        exact ⟨_, further, broken⟩
      · simp [kind] at same
    · rintro ⟨line, further, broken⟩
      exact .search kind found expanded further broken
  have behind := @Zig.remarks_behind "search path: ".toList (by decide) directory
  rw [spoiled]
  refine behind.trans ?_
  simp

theorem remarks_header {place : Path} {source : Text} {middle : Pass}
    (kind : moment.node.kind = .inclusion)
    (located : Render.located moment.context moment.node moment.pass = .ok (place, source) middle) :
    Zig.Remarks (Render.included place []) ↔ ¬moment.Spoils := by
  have spoiled : moment.Spoils ↔
      ∃ line ∈ (Text.splitOn '\n' place.toText).tail, Zig.isPlainRemark line = false := by
    constructor
    · rintro (⟨same⟩ | ⟨same⟩ | ⟨_, again, further, broken⟩)
      · simp [kind] at same
      · simp [kind] at same
      · cases located.symm.trans again
        exact ⟨_, further, broken⟩
    · rintro ⟨line, further, broken⟩
      exact .header kind located further broken
  have behind := @Zig.remarks_behind "included from ".toList (by decide) place.toText
  have named : Render.included place [] = "// included from ".toList ++ place.toText :=
    List.append_nil _
  rw [spoiled, named]
  refine behind.trans ?_
  simp

theorem remarks_error (kind : moment.node.kind = .error) (ran : moment.run = .ok text after) :
    Zig.Remarks text := by
  rw [run_of_bare (by simp only [Node.rendered, kind]) (by simp [kind])] at ran
  simp only [Node.finish, Render.node, kind] at ran
  cases ran
  exact Zig.remarks_unreadSpan _ _

theorem remarks_command (isRead : moment.IsRead) {name : Node}
    (kind : moment.node.kind = .buildCommand) (named : moment.node.find? .builtinCommand = some name)
    (unsupported : ∀ command, Render.builtin? name.text command = none)
    (ran : moment.run = .ok text after) : Zig.Remarks text := by
  rw [run_eq_finish (by simp [kind])] at ran
  obtain ⟨said, middle, _, closed⟩ := Render.of_bind_ok ran
  simp only [Node.finish, kind, Render.closeCommand, named, unsupported] at closed
  cases closed
  refine (Zig.remarks_line ?_).2 rfl
  simp [isRead.newline_not_mem (.inr kind)]

theorem not_spoils (other : moment.node.kind ≠ .comment ∧ moment.node.kind ≠ .search ∧
    moment.node.kind ≠ .inclusion) : ¬moment.Spoils := by
  rintro (⟨kind⟩ | ⟨kind⟩ | ⟨kind⟩)
  · exact other.1 kind
  · exact other.2.1 kind
  · exact other.2.2 kind

end Moment

namespace Compile

/-- What a pass over a unit renders as comments are plain comments, line by line, exactly where nothing
spoils them; and nothing spoils a span that could not be read or an unsupported command. -/
theorem remarks_iff_unspoiled (load : Loader) (settings : Settings) (process : ProcessEnvironment)
    (origin : Option Text) (unit : Text) (environment : Environment) {moment : Moment} {text : Text}
    (reached : (start (around Source.parse load settings process origin) (Source.parse unit)
      environment).Reaches moment) (comments : moment.Comments text) :
    (Zig.Remarks text ↔ ¬moment.Spoils) ∧
      (moment.node.kind = .error ∨ moment.node.kind = .buildCommand → Zig.Remarks text) := by
  have isRead : moment.IsRead := Moment.isRead_of_reaches reached ⟨rfl, .inl ⟨unit, rfl⟩⟩
  have sharp : Zig.Remarks text ↔ ¬moment.Spoils := by
    cases comments with
    | own kind ran =>
      rcases kind with kind | kind | kind
      · exact Moment.remarks_comment isRead kind ran
      · exact Moment.remarks_search kind ran
      · exact iff_of_true (Moment.remarks_error kind ran) (Moment.not_spoils (by simp [kind]))
    | command kind named unsupported ran =>
      exact iff_of_true (Moment.remarks_command isRead kind named unsupported ran)
        (Moment.not_spoils (by simp [kind]))
    | header kind located => exact Moment.remarks_header kind located
  refine ⟨sharp, fun kind => sharp.2 (Moment.not_spoils ?_)⟩
  rcases kind with kind | kind <;> simp [kind]

/-- A variable that holds a line feed. -/
def twoLines : Environment :=
  ({} : Environment).assign "D".toList "a\nb".toList

/-- A unit that searches the folder named by that variable. -/
def searchUnit : Text :=
  "%search $(D)".toList

def searching : Moment :=
  start (around Source.parse (fun _ => .error .notFound) {} [] none) (Source.parse searchUnit) twoLines

theorem searchUnit_spoiled :
    ∃ moment text, searching.Reaches moment ∧ moment.Comments text ∧ moment.Spoils ∧
      ¬Zig.Remarks text := by
  have kinds : (Source.parse searchUnit).children.map (·.kind) = [.search] := by decide +kernel
  obtain ⟨node, listed, kind⟩ := List.map_eq_singleton_iff.1 kinds
  have outcome : searching.outcome? = some ("// search path: a\nb".toList, []) := by decide +kernel
  have reached : searching.Reaches ⟨searching.context, node, searching.pass⟩ :=
    .single (@Moment.Calls.child searching [] [] node [] _ listed rfl)
  have whole : searching.run = (searching.context.texts [node] >>= fun said =>
      pure (Text.joinWith ['\n'] said)) searching.pass := by
    rw [← listed]
    exact Moment.run_of_list rfl
  obtain ⟨after, ran, _⟩ := Moment.run_of_outcome outcome
  rw [whole] at ran
  obtain ⟨said, _, first, second⟩ := Render.of_bind_ok ran
  obtain ⟨_, text, _, _, next, rfl, begin, own, rest⟩ := @Moment.texts_split _ [] [] _ _ _ _ first
  cases begin
  cases rest
  have broken : ¬Zig.Remarks text := by
    injection second with same
    rw [show text = _ from same]
    decide
  have comments : Moment.Comments _ text := .own (.inr (.inl kind)) own
  have sharp := (remarks_iff_unspoiled _ _ _ _ _ _ reached comments).1
  exact ⟨_, text, reached, comments, by_contra fun fine => broken (sharp.2 fine), broken⟩

/-- A comment may come out as documentation, and a folder may break out of its comment. -/
theorem comments_break :
    (source (standard (fun _ => .error .notFound) { prelude := false } []) "#!make\n".toList
      {}).result = .ok ⟨"//!make".toList, [], {}⟩ ∧
    ¬Zig.Remarks "//!make".toList ∧
    (source (standard (fun _ => .error .notFound) { prelude := false } []) searchUnit
      twoLines).result.toOption.map (·.output) = some "// search path: a\nb".toList ∧
    ¬Zig.Remarks "// search path: a\nb".toList :=
  ⟨rfl, by decide, by decide +kernel, by decide⟩

end Compile

end BmakeZig
