import BmakeZig.Proofs.Source.Echo.Unit

/-! The end of a block, seen from within it. A recovery counts the blocks that are open line by line, from
any line on. It reaches the same end from two places if what stands between them opens as many blocks as
it closes, and closes none before it is opened. -/
namespace BmakeZig

namespace Text

/-- The name at the start of a text, when none goes on in what follows. -/
theorem name?_append_word {tail : Text} (stops : ∀ c ∈ tail.head?, isNameChar c = false)
    (text : Text) : (name? (text ++ tail)).map (·.1) = (name? text).map (·.1) := by
  have none : tail.takeWhile isNameChar = [] := by
    cases tail with
    | nil => rfl
    | cons d tail => simp [stops d rfl]
  cases text with
  | nil =>
    cases tail with
    | nil => rfl
    | cons d tail =>
      simp [name?, isNameStart_eq_false (stops d rfl)]
  | cons c text =>
    rw [List.cons_append, name?, name?]
    split
    · simp only [Option.map_some, List.takeWhile_append, none, List.append_nil]
      split
      · next whole => rw [(List.takeWhile_sublist _).eq_of_length whole]
      · rfl
    · rfl

end Text

namespace Source

variable {c stop : Cursor} {depth : Nat} {first : Char} {body : BodyReader}

theorem Cursor.here_within {left : Text} (single : '\n' ∉ left) (c : Cursor) :
    (c.within left).here = left ∧ (c.within left).below = c.below := by
  rcases c.last_or_faces with ⟨last, _⟩ | ⟨rest, below, _⟩
  · have unread : (c.within left).rest = left := by rw [Cursor.within, last, List.append_nil]
    have ends := Cursor.here_of_single (unread.symm ▸ single)
    rw [unread] at ends
    rw [last]
    exact ends
  · have faces : (c.within left).Faces left rest := ⟨by rw [Cursor.within, below], single⟩
    exact ⟨faces.here, faces.below.trans below.symm⟩

theorem Cursor.at_lineEnd (c : Cursor) :
    c.lineEnd.here = [] ∧ c.lineEnd.nextLine = c.nextLine ∧ c.lineEnd.lineEnd = c.lineEnd := by
  obtain ⟨here, below⟩ := c.here_within List.not_mem_nil
  have below : c.lineEnd.below = c.below := below
  refine ⟨here, ?_, ?_⟩
  · rw [Cursor.nextLine, below, Cursor.nextLine]
    rfl
  · rw [Cursor.lineEnd, below]
    rfl

/-- No name goes on beyond the end of a line. -/
theorem Cursor.below_stops (c : Cursor) : ∀ d ∈ c.below.head?, Text.isNameChar d = false := by
  rcases c.last_or_faces with ⟨last, _⟩ | ⟨rest, below, _⟩
  · simp [last]
  · simp [below, Text.isNameChar]

theorem Directive.at?_append {text tail : Text}
    (stops : ∀ d ∈ tail.head?, Text.isNameChar d = false) (filled : text ≠ []) :
    at? (text ++ tail) = at? text := by
  obtain ⟨d, text, rfl⟩ := List.exists_cons_of_ne_nil filled
  by_cases percent : d = '%'
  · subst percent
    have same := Text.name?_append_word stops text
    simp only [List.cons_append, at?]
    cases found : Text.name? text <;> cases found' : Text.name? (text ++ tail) <;> simp_all
  · simp [at?, percent]

/-! One line. What counts of it is the directive on it and where it ends. -/

theorem skipBlock_next (stillOpen : depthAfter depth c.here ≠ 0) :
    skipBlock depth c = skipBlock (depthAfter depth c.here) c.nextLine := by
  by_cases last : c.below = []
  · rw [skipBlock_last last, Cursor.nextLine, last, skipBlock_last (by rfl), Cursor.lineEnd, last]
    rfl
  · exact skipBlock_open stillOpen last

theorem skipBlock_congr {other : Cursor} (line : c.line = other.line) (below : c.below = other.below)
    (same : depthAfter depth c.here = depthAfter depth other.here) :
    skipBlock depth c = skipBlock depth other := by
  by_cases closed : depthAfter depth c.here = 0
  · rw [skipBlock_closed closed, skipBlock_closed (same.symm.trans closed), Cursor.lineEnd,
      Cursor.lineEnd, line, below]
  · have next : c.nextLine = other.nextLine := by rw [Cursor.nextLine, Cursor.nextLine, line, below]
    have stillOpen : depthAfter depth other.here ≠ 0 := fun spent => closed (same.trans spent)
    calc skipBlock depth c = skipBlock (depthAfter depth c.here) c.nextLine := skipBlock_next closed
      _ = skipBlock (depthAfter depth other.here) other.nextLine := by rw [same, next]
      _ = skipBlock depth other := (skipBlock_next stillOpen).symm

/-- Only the blanks in front of a line may be passed over, and what is no directive. -/
theorem skipBlock_within {left : Text} (single : '\n' ∉ left)
    (same : depthAfter depth c.here = depthAfter depth left) :
    skipBlock depth c = skipBlock depth (c.within left) := by
  obtain ⟨here, below⟩ := c.here_within single
  exact skipBlock_congr rfl below.symm (by rw [here, same])

theorem skipBlock_lineEnd (plain : depthAfter depth c.here = depth) :
    skipBlock depth c = skipBlock depth c.lineEnd :=
  skipBlock_within List.not_mem_nil plain

/-- Between the end of a line and the next line nothing is opened or closed. -/
theorem skipBlock_behind (started : depth ≠ 0) :
    skipBlock depth c.nextLine = skipBlock depth c.lineEnd := by
  obtain ⟨here, next, -⟩ := c.at_lineEnd
  have idle : depthAfter depth c.lineEnd.here = depth := by rw [here, depthAfter_nil]
  calc skipBlock depth c.nextLine = skipBlock (depthAfter depth c.lineEnd.here) c.lineEnd.nextLine := by
        rw [idle, next]
    _ = skipBlock depth c.lineEnd := (skipBlock_next (by rwa [idle])).symm

theorem depthAfter_add {below : Nat} (started : depth ≠ 0) (here : Text) :
    depthAfter (depth + below) here = depthAfter depth here + below := by
  unfold depthAfter
  split
  · split
    · omega
    · split <;> omega
  · rfl

/-- A block around another one ends behind it. -/
theorem skipBlock_add {outer : Nat} (started : depth ≠ 0) (around : outer ≠ 0) (c : Cursor) :
    skipBlock (depth + outer) c = skipBlock outer (skipBlock depth c) := by
  fun_induction skipBlock depth c with
  | case1 depth c closed =>
    have deeper := @depthAfter_add depth outer started c.here
    rw [closed, Nat.zero_add] at deeper
    have next : skipBlock (depth + outer) c = skipBlock outer c.nextLine := by
      conv_rhs => rw [← deeper]
      exact skipBlock_next (by rwa [deeper])
    rw [next, skipBlock_behind around]
  | case2 depth c stillOpen last =>
    obtain ⟨-, -, still⟩ := c.at_lineEnd
    have spent : c.lineEnd.below = [] := (congrArg Cursor.rest still).trans last
    rw [skipBlock_last last, skipBlock_last spent, still]
  | case3 depth c stillOpen char rest below shorter ih =>
    have deeper := @depthAfter_add depth outer started c.here
    have next : c.nextLine = ⟨c.line + 1, rest⟩ := by rw [Cursor.nextLine, below]
    have further : skipBlock (depth + outer) c =
        skipBlock (depthAfter depth c.here + outer) c.nextLine := by
      rw [← deeper]
      exact skipBlock_next (by omega)
    rw [further, next]
    exact ih stillOpen

/-- A block that is open at both places ends at the same place. -/
def Balanced (c stop : Cursor) : Prop :=
  ∀ depth, depth ≠ 0 → skipBlock depth c = skipBlock depth stop

namespace Balanced

theorem refl (c : Cursor) : Balanced c c :=
  fun _ _ => rfl

theorem trans {middle : Cursor} (first : Balanced c middle) (second : Balanced middle stop) :
    Balanced c stop :=
  fun depth started => (first depth started).trans (second depth started)

end Balanced

/-- A line that is no directive for blocks, and whatever is left of it. -/
theorem balanced_within {left : Text} (single : '\n' ∉ left)
    (plain : ∀ depth, depthAfter depth c.here = depth) (rest : ∀ depth, depthAfter depth left = depth) :
    Balanced c (c.within left) :=
  fun depth _ => skipBlock_within single ((plain depth).trans (rest depth).symm)

theorem balanced_lineEnd (plain : ∀ depth, depthAfter depth c.here = depth) :
    Balanced c c.lineEnd :=
  fun depth _ => skipBlock_lineEnd (plain depth)

theorem balanced_nextLine (plain : ∀ depth, depthAfter depth c.here = depth) :
    Balanced c c.nextLine :=
  (balanced_lineEnd plain).trans fun _ started => (skipBlock_behind started).symm

/-! Blanks. -/

theorem depthAfter_blank {blank : Char} (isBlank : Text.isBlank blank = true) (here : Text) :
    depthAfter depth (blank :: here) = depthAfter depth here := by
  rw [depthAfter, depthAfter, Text.trimStart, List.dropWhile_cons_of_pos isBlank, Text.trimStart]

/-- Blanks, by induction on them: a line feed is a line with nothing on it, and any other blank stands in
front of what is on the line. -/
theorem balanced_skipBlank (c : Cursor) : Balanced c c.skipBlank := by
  obtain ⟨line, rest⟩ := c
  induction rest generalizing line with
  | nil => exact .refl _
  | cons d rest ih =>
    by_cases blank : Text.isBlank d = true
    · by_cases newline : d = '\n'
      · subst newline
        have faces : (⟨line, '\n' :: rest⟩ : Cursor).Faces [] rest := ⟨rfl, List.not_mem_nil⟩
        have next := @balanced_nextLine ⟨line, '\n' :: rest⟩ fun depth => by
          rw [faces.here, depthAfter_nil]
        rw [faces.nextLine] at next
        have same : (⟨line, '\n' :: rest⟩ : Cursor).skipBlank = Cursor.skipBlank ⟨line + 1, rest⟩ := by
          simp [Cursor.skipBlank, blank]
          omega
        rw [same]
        exact next.trans (ih (line + 1))
      · have first : Balanced ⟨line, d :: rest⟩ ⟨line, rest⟩ := fun depth _ => by
          have here : Cursor.here ⟨line, d :: rest⟩ = d :: Cursor.here ⟨line, rest⟩ := by
            simp [Cursor.here, newline]
          refine skipBlock_congr rfl (by simp [Cursor.below, newline]) ?_
          rw [here, depthAfter_blank blank]
        have same : (⟨line, d :: rest⟩ : Cursor).skipBlank = Cursor.skipBlank ⟨line, rest⟩ := by
          simp [Cursor.skipBlank, blank, newline]
        rw [same]
        exact first.trans (ih line)
    · have same : (⟨line, d :: rest⟩ : Cursor).skipBlank = ⟨line, d :: rest⟩ := by
        simp [Cursor.skipBlank, blank]
      rw [same]
      exact .refl _

theorem depthAfter_of_not_directive {here : Text}
    (other : (Text.trimStart here).head? ≠ some '%') (depth : Nat) : depthAfter depth here = depth := by
  have none : Directive.at? (Text.trimStart here) = none := by
    unfold Directive.at?
    split
    · next unread =>
      rw [unread] at other
      exact absurd rfl other
    · rfl
  rw [depthAfter, none]

theorem balanced_filledLine {filled : Cursor} (found : filledLine c = some filled) : Balanced c filled := by
  fun_induction filledLine c with
  | case1 c _ =>
    obtain rfl := Option.some.inj found
    exact .refl c
  | case2 => cases found
  | case3 c blank first rest below shorter ih =>
    have next : c.nextLine = ⟨c.line + 1, rest⟩ := by rw [Cursor.nextLine, below]
    have empty : Text.trimStart c.here = [] := by
      simp only [Bool.not_eq_true', Bool.not_eq_false, List.all_eq_true] at blank
      exact List.dropWhile_eq_nil_iff.2 blank
    have plain : (Text.trimStart c.here).head? ≠ some '%' := by simp [empty]
    have passed := balanced_nextLine (depthAfter_of_not_directive plain)
    rw [next] at passed
    exact passed.trans (ih found)

/-! Statements on one line, and blocks inside a block. -/

theorem Opens.at?_here (opens : Opens c first) :
    Directive.at? (Text.trimStart c.here) = Directive.at? c.rest := by
  obtain ⟨rest, here⟩ := opens.here
  have whole : Text.trimStart c.here = c.here := by
    rw [here, Text.trimStart, List.dropWhile_cons_of_neg (by simp [opens.solid])]
  rw [whole]
  conv_rhs => rw [← c.here_append_below]
  exact (Directive.at?_append c.below_stops (by simp [here])).symm

theorem Opens.depthAfter_opening (opens : Opens c first) {directive : Directive}
    (named : Directive.at? c.rest = some directive) (starts : directive.opensBlock = true)
    (depth : Nat) : depthAfter depth c.here = depth + 1 := by
  simp only [depthAfter, opens.at?_here, named, starts, if_true]

theorem Opens.depthAfter_endIf (opens : Opens c first)
    (named : Directive.at? c.rest = some .endIf) (depth : Nat) :
    depthAfter depth c.here = depth - 1 := by
  simp only [depthAfter, opens.at?_here, named]
  rfl

theorem Opens.depthAfter_plain (opens : Opens c first)
    (plain : ∀ directive, Directive.at? c.rest = some directive →
      directive.opensBlock = false ∧ directive ≠ .endIf) (depth : Nat) :
    depthAfter depth c.here = depth := by
  simp only [depthAfter, opens.at?_here]
  cases named : Directive.at? c.rest with
  | none => rfl
  | some directive =>
    obtain ⟨starts, ends⟩ := plain directive named
    simp [starts, ends]

theorem opens_of_at? {directive : Directive} (named : Directive.at? c.rest = some directive) :
    Opens c '%' := by
  refine ⟨by decide, _, here_directive named⟩

theorem statement_opening {directive : Directive} (named : Directive.at? c.rest = some directive)
    (starts : directive.opensBlock = true) :
    statement body c = (block body directive c).getD (errorBlock c) := by
  obtain ⟨rest, spelled⟩ := eq_append_of_at? named
  have start : c.rest = '%' :: (directive.word ++ rest) := spelled
  rw [statement_percent start, directiveStatement, named]
  simp only [starts, if_true]

theorem skipBlock_start {directive : Directive} (named : Directive.at? c.rest = some directive)
    (starts : directive.opensBlock = true) : skipBlock 0 c = skipBlock 1 c.nextLine := by
  have opening := (opens_of_at? named).depthAfter_opening named starts
  rw [skipBlock_next (by simp [opening]), opening]

/-- Around a block, another one that is open goes on behind it. -/
theorem balanced_skipBlock {directive : Directive} (named : Directive.at? c.rest = some directive)
    (starts : directive.opensBlock = true) : Balanced c (skipBlock 0 c) := by
  intro depth started
  have opening := (opens_of_at? named).depthAfter_opening named starts
  have outer : skipBlock depth c = skipBlock (1 + depth) c.nextLine := by
    rw [skipBlock_next (by simp [opening]), opening, Nat.add_comm]
  rw [outer, skipBlock_start named starts, skipBlock_add (by simp) started]

/-- At most a comment is left of the line. -/
theorem undef_left {node : Node} {left : Text} (read : undef c.line c.here = some (node, left)) :
    (Text.trimStart left).head? ≠ some '%' := by
  simp only [undef] at read
  split at read
  · cases read
  · next name rest found =>
    split at read
    · next ended =>
      obtain ⟨-, rfl⟩ := Prod.mk.inj (Option.some.inj read)
      unfold atLineEnd at ended
      split at ended
      · next nothing => simp [nothing, Text.trimStart]
      · next d behind next =>
        obtain rfl : d = '#' := by simpa using ended
        rw [next, Text.trimStart, List.dropWhile_cons_of_neg (by decide)]
        simp
    · cases read

theorem lineDirective_balanced {directive : Directive} {found : Node × Cursor}
    (plain : ∀ depth, depthAfter depth c.here = depth) (read : lineDirective directive c = some found) :
    Balanced c found.2 := by
  have line := balanced_lineEnd plain
  cases directive <;> simp only [lineDirective] at read
  case error | warn | warning | message =>
    obtain rfl := Option.some.inj read
    exact line
  case inclusion | search =>
    obtain ⟨node, -, rfl⟩ := Option.map_eq_some_iff.1 read
    exact line
  case undef =>
    obtain ⟨⟨node, left⟩, taken, rfl⟩ := Option.map_eq_some_iff.1 read
    exact balanced_within (undef_single taken).2 plain (depthAfter_of_not_directive (undef_left taken))
  all_goals cases read

end Source

end BmakeZig
