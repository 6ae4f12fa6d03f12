import BmakeZig.Proofs.Text.Trails
import BmakeZig.Proofs.Tree.Below

/-! Trees that are alike: the same nodes on lines further down, where the spans of whole statements may
also have their lines ended in another way. -/
namespace BmakeZig

namespace Text

/-- The text with `ending` in front of every line feed. -/
def endLines (ending : Text) : Text → Text
  | [] => []
  | c :: rest => (if c = '\n' then ending ++ ['\n'] else [c]) ++ endLines ending rest

/-- The text is one with its lines ended so; its last line, if it has begun, may be ended already. -/
def Rewritten (ending text other : Text) : Prop :=
  other = endLines ending text ∨
    (other = endLines ending text ++ ending ∧ ∃ front c, text = front ++ [c] ∧ c ≠ '\n')

variable {ending text left right : Text}

@[simp] theorem endLines_nil (ending : Text) : endLines ending [] = [] :=
  rfl

theorem endLines_newline (ending text : Text) :
    endLines ending ('\n' :: text) = ending ++ '\n' :: endLines ending text := by
  simp [endLines]

theorem endLines_cons {c : Char} (other : c ≠ '\n') (text : Text) :
    endLines ending (c :: text) = c :: endLines ending text := by
  simp [endLines, other]

theorem endLines_append (ending left right : Text) :
    endLines ending (left ++ right) = endLines ending left ++ endLines ending right := by
  induction left with
  | nil => rfl
  | cons c left ih => simp only [List.cons_append, endLines, ih, List.append_assoc]

theorem endLines_of_not_mem (single : '\n' ∉ text) : endLines ending text = text := by
  induction text with
  | nil => rfl
  | cons c text ih =>
    rw [List.mem_cons, not_or] at single
    rw [endLines_cons (Ne.symm single.1), ih single.2]

theorem endLines_none (text : Text) : endLines [] text = text := by
  induction text with
  | nil => rfl
  | cons c text ih =>
    by_cases newline : c = '\n'
    · rw [newline, endLines_newline, ih, List.nil_append]
    · rw [endLines_cons newline, ih]

theorem Rewritten.eq {other : Text} (rewritten : Rewritten [] text other) : other = text := by
  rcases rewritten with same | ⟨same, _⟩
  · rw [same, endLines_none]
  · rw [same, endLines_none, List.append_nil]

theorem length_le_endLines (ending text : Text) : text.length ≤ (endLines ending text).length := by
  induction text with
  | nil => exact Nat.le_refl _
  | cons c text ih =>
    by_cases newline : c = '\n'
    · simp only [newline, endLines_newline, List.length_append, List.length_cons]
      omega
    · simpa only [endLines_cons newline, List.length_cons] using Nat.succ_le_succ ih

theorem endLines_eq_nil : endLines ending text = [] ↔ text = [] := by
  refine ⟨fun empty => ?_, fun empty => by rw [empty, endLines_nil]⟩
  have shorter := length_le_endLines ending text
  rw [empty] at shorter
  exact List.eq_nil_of_length_eq_zero (Nat.le_zero.1 shorter)

section

variable (spaces : ∀ c ∈ ending, isSpace c = true)

include spaces

theorem isBlank_of_mem_endLines {c : Char} (blanks : ∀ c ∈ text, isBlank c = true)
    (member : c ∈ endLines ending text) : isBlank c = true := by
  induction text with
  | nil => cases member
  | cons d text ih =>
    obtain ⟨first, others⟩ := List.forall_mem_cons.1 blanks
    rw [endLines, List.mem_append] at member
    rcases member with own | later
    · split at own
      · rcases List.mem_append.1 own with inside | last
        · exact isBlank_of_isSpace (spaces c inside)
        · rw [List.mem_singleton.1 last]
          decide
      · rw [List.mem_singleton.1 own]
        exact first
    · exact ih others later

theorem count_endLines (text : Text) : (endLines ending text).count '\n' = text.count '\n' := by
  have plain : ending.count '\n' = 0 :=
    List.count_eq_zero.2 fun member => absurd (spaces '\n' member) (by decide)
  induction text with
  | nil => rfl
  | cons c text ih =>
    by_cases newline : c = '\n'
    · rw [newline, endLines_newline, List.count_append, plain, List.count_cons, List.count_cons, ih,
        Nat.zero_add]
    · rw [endLines_cons newline, List.count_cons, List.count_cons, ih]

/-- A run that stops at spaces and line ends stops at the same place. -/
theorem takeWhile_endLines {p : Char → Bool} (stops : ∀ c, isSpace c = true ∨ c = '\n' → p c = false)
    (text : Text) : (endLines ending text).takeWhile p = text.takeWhile p := by
  induction text with
  | nil => rfl
  | cons c text ih =>
    by_cases newline : c = '\n'
    · have fails : p '\n' = false := stops '\n' (.inr rfl)
      rw [newline, endLines_newline, List.takeWhile_cons_of_neg (by simp [fails])]
      cases ending with
      | nil => simp [fails]
      | cons d ending => simp [stops d (.inl (spaces d List.mem_cons_self))]
    · rw [endLines_cons newline, List.takeWhile_cons, List.takeWhile_cons, ih]

theorem trimEnd_endLines (text : Text) :
    trimEnd (endLines ending text) = endLines ending (trimEnd text) := by
  obtain ⟨blanks, whole, all, kept⟩ := trimEnd_split text
  have gone : ∀ c ∈ endLines ending blanks, isBlank c = true :=
    fun c member => isBlank_of_mem_endLines spaces all member
  have cut : trimEnd (endLines ending text) = trimEnd (endLines ending (trimEnd text)) := by
    conv_lhs => rw [whole, endLines_append]
    exact trimEnd_append_blanks gone _
  rw [cut]
  rcases kept with empty | ⟨front, c, same, solid⟩
  · rw [empty]
    rfl
  · have other : c ≠ '\n' := by
      rintro rfl
      exact absurd solid (by decide)
    rw [same, endLines_append, endLines_cons other]
    exact trimEnd_concat solid _

end

end Text

/-- The statements that are spans of whole lines, and the lists and blocks made of them. -/
def Kind.isLoose : Kind → Bool
  | .sourceFile | .body | .conditional | .elifClause | .elseClause | .rule | .ruleBody | .diagnostic
  | .inclusion | .search | .error => true
  | _ => false

namespace Node

mutual

/-- The tree as it is that many lines further down. -/
def shift (count : Nat) : Node → Node
  | ⟨kind, named, line, text, children⟩ =>
    ⟨kind, named, line + count, text, shiftAll count children⟩

def shiftAll (count : Nat) : List Node → List Node
  | [] => []
  | node :: rest => node.shift count :: shiftAll count rest

end

variable {count : Nat} {kind : Kind} {line : Nat} {text : Text} {children : List Node}

@[simp] theorem shiftAll_eq_map (count : Nat) (nodes : List Node) :
    shiftAll count nodes = nodes.map (shift count) := by
  induction nodes with
  | nil => rfl
  | cons node nodes ih => rw [shiftAll, ih, List.map_cons]

@[simp] theorem shift_branch : (branch kind line text children).shift count =
    branch kind (line + count) text (children.map (shift count)) := by
  simp [branch, shift]

@[simp] theorem shift_leaf : (leaf kind line text).shift count = leaf kind (line + count) text :=
  rfl

@[simp] theorem shift_token : (token line text).shift count = token (line + count) text :=
  rfl

@[simp] theorem shift_text (count : Nat) (node : Node) : (node.shift count).text = node.text := by
  cases node
  rfl

/-- The tree is the first one further down, with the spans of whole lines rewritten. -/
inductive Like (count : Nat) (ending : Text) : Node → Node → Prop where
  | same (node : Node) : Like count ending node (node.shift count)
  | span {kind : Kind} {line : Nat} {text other : Text} {children others : List Node}
      (loose : kind.isLoose = true) (rewritten : Text.Rewritten ending text other)
      (below : List.Forall₂ (Like count ending) children others) :
      Like count ending (.branch kind line text children) (.branch kind (line + count) other others)

theorem Like.kind_eq {ending : Text} {node other : Node} (like : Like count ending node other) :
    other.kind = node.kind := by
  cases like with
  | same => cases node; rfl
  | span => rfl

theorem Like.named_eq {ending : Text} {node other : Node} (like : Like count ending node other) :
    other.named = node.named := by
  cases like with
  | same => cases node; rfl
  | span => rfl

theorem likes_shift (ending : Text) (nodes : List Node) :
    List.Forall₂ (Like count ending) nodes (nodes.map (shift count)) := by
  induction nodes with
  | nil => exact .nil
  | cons node nodes ih => exact .cons (.same node) ih

/-- What holds of related elements, where the first is one of the list. -/
theorem forall₂_of_mem {α β : Type} {related wanted : α → β → Prop} {left : List α} {right : List β}
    (all : List.Forall₂ related left right)
    (each : ∀ value ∈ left, ∀ value', related value value' → wanted value value') :
    List.Forall₂ wanted left right := by
  induction all with
  | nil => exact .nil
  | cons first _ ih =>
    obtain ⟨own, rest⟩ := List.forall_mem_cons.1 each
    exact .cons (own _ first) (ih rest)

theorem eq_map_of_forall₂ {nodes others : List Node} {Related : Node → Node → Prop}
    {change : Node → Node} (related : List.Forall₂ Related nodes others)
    (each : ∀ node ∈ nodes, ∀ other, Related node other → other = change node) :
    others = nodes.map change := by
  have same : List.Forall₂ (fun node other => change node = other) nodes others :=
    forall₂_of_mem related fun node member other holds => (each node member other holds).symm
  rw [← List.forall₂_map_left_iff, List.forall₂_eq_eq_eq] at same
  exact same.symm

/-- Where line ends stay as they are, only the lines of the nodes differ. -/
theorem Like.eq_shift {node other : Node} (like : Like count [] node other) :
    other = node.shift count := by
  induction size : sizeOf node using Nat.strongRecOn generalizing node other with
  | _ _ ih =>
    cases like with
    | same => rfl
    | span loose rewritten below =>
      rw [shift_branch, rewritten.eq, eq_map_of_forall₂ below]
      intro child member other like
      exact ih (sizeOf child) (size ▸ sizeOf_lt_of_mem_children member) like rfl

end Node

end BmakeZig
