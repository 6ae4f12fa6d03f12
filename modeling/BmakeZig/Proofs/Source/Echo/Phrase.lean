import BmakeZig.Proofs.Source.Condition
import BmakeZig.Proofs.Source.Shape
import BmakeZig.Proofs.Tree.Like

/-! Phrases, read on a line further down and with spaces at the end of the line. All that changes is the
lines of the nodes and, where something is left of the line, the spaces behind it. -/
namespace BmakeZig.Source

/-- What one reader finds is what the other one does, moved, and what it leaves has the tail at its
end. Neither leaves more than there was to read. -/
inductive Echo {α : Type} (move : α → α) (tail : Text) (room : Nat) :
    Option (α × Text) → Option (α × Text) → Prop where
  | none : Echo move tail room none none
  | some {found : α} {left left' : Text} (trails : Text.Trails tail left left')
      (fits : left.length ≤ room) : Echo move tail room (some (found, left)) (some (move found, left'))

theorem Echo.found {α : Type} {move : α → α} {tail : Text} {room : Nat} {value value' : α}
    {left left' : Text} (moved : value' = move value) (trails : Text.Trails tail left left')
    (fits : left.length ≤ room) :
    Echo move tail room (Option.some (value, left)) (Option.some (value', left')) :=
  moved ▸ .some trails fits

theorem Echo.split {α : Type} {move : α → α} {tail : Text} {room : Nat}
    {found other : Option (α × Text)} (echo : Echo move tail room found other) :
    (found = Option.none ∧ other = Option.none) ∨
      ∃ value left left', found = Option.some (value, left) ∧
        other = Option.some (move value, left') ∧ Text.Trails tail left left' ∧
        left.length ≤ room := by
  cases echo with
  | none => exact .inl ⟨rfl, rfl⟩
  | some trails fits => exact .inr ⟨_, _, _, rfl, rfl, trails, fits⟩

theorem Echo.mono {α : Type} {move : α → α} {tail : Text} {room more : Nat}
    {found other : Option (α × Text)} (echo : Echo move tail room found other) (fits : room ≤ more) :
    Echo move tail more found other := by
  cases echo with
  | none => exact .none
  | some trails within => exact .some trails (Nat.le_trans within fits)

theorem Echo.values {α : Type} {move : α → α} {tail : Text} {room : Nat}
    {found other : Option (α × Text)} (echo : Echo move tail room found other) :
    other.map (·.1) = (found.map (·.1)).map move := by
  cases echo <;> rfl

/-- Only the lines differ where no tail is added. -/
theorem Echo.eq_map {α : Type} {move : α → α} {room : Nat} {found other : Option (α × Text)}
    (echo : Echo move [] room found other) : other = found.map fun read => (move read.1, read.2) := by
  cases echo with
  | none => rfl
  | some trails _ =>
    rcases trails with same | ⟨rfl, rfl⟩
    · rw [same, List.append_nil]
      rfl
    · rfl

theorem expansionContent_plain {line : Nat} {mode : Mode} {text : Text}
    (plain : mode = .immediate → text.head? ≠ some '@') :
    expansionContent line mode text = oneName line text := by
  unfold expansionContent
  split
  · exact absurd rfl (plain rfl)
  · rfl

variable {tail text other : Text}

section

variable (spaces : ∀ c ∈ tail, Text.isSpace c = true)

include spaces

/-- A mark is at the front of both texts or of neither. -/
theorem head?_trails {c : Char} (trails : Text.Trails tail text other)
    (solid : Text.isSpace c = false) : other.head? = some c ↔ text.head? = some c := by
  cases text with
  | cons d rest =>
    rw [trails.cons]
    rfl
  | nil =>
    refine iff_of_false (fun first => ?_) (by simp)
    rcases trails with rfl | ⟨_, rfl⟩
    · have space := spaces c (List.mem_of_mem_head? (by simpa using first))
      rw [space] at solid
      cases solid
    · cases first

/-- Either both texts start with the mark, or neither does. -/
theorem head_split (mark : Char) (solid : Text.isSpace mark = false)
    (trails : Text.Trails tail text other) :
    (∃ rest, text = mark :: rest ∧ other = mark :: (rest ++ tail)) ∨
      (∀ rest, text = mark :: rest → False) ∧ ∀ rest, other = mark :: rest → False := by
  have first := head?_trails spaces trails solid
  by_cases marked : text.head? = some mark
  · obtain ⟨rest, rfl⟩ := List.head?_eq_some_iff.1 marked
    exact .inl ⟨rest, rfl, trails.cons⟩
  · refine .inr ⟨fun rest same => marked (by rw [same]; rfl), fun rest same => marked (first.1 ?_)⟩
    rw [same]
    rfl

theorem atLineEnd_trails {left left' : Text} (trails : Text.Trails tail left left') :
    atLineEnd left' = atLineEnd left := by
  unfold atLineEnd
  cases next : Text.skipSpaces left with
  | nil => rw [trails.skip_nil spaces next]
  | cons c rest => rw [trails.skip_cons spaces next]

variable (trails : Text.Trails tail text other) (line count : Nat)

include trails

theorem names_echo :
    Echo (List.map (Node.shift count)) tail text.length (names line text)
      (names (line + count) other) := by
  have read := trails.name? spaces
  fun_induction names line text generalizing other with
  | case1 text nothing =>
    rw [nothing] at read
    unfold names
    split
    · exact .none
    · next again => cases read.symm.trans again
  | case2 text name after found rest next shorter ih =>
    rw [found] at read
    have behind := (Text.trails_append tail after).skip_cons spaces next
    rw [names_comma read behind]
    have further := (Text.trails_append tail rest).skipSpaces spaces
    rcases (ih further (further.name? spaces)).split with ⟨none, none'⟩ |
      ⟨more, left, left', some, some', trails, fits⟩
    · rw [none, none']
      exact .none
    · rw [some, some']
      exact .some trails (Nat.le_trans fits (Nat.le_of_lt shorter))
  | case3 text name after found stop =>
    rw [found] at read
    have behind := (Text.trails_append tail after).skipSpaces spaces
    have shorter := Text.length_of_name? found
    have skipped := Text.length_skipSpaces_le after
    rw [names_last read rfl]
    · exact .some behind (by omega)
    -- A comma that follows on the second line follows on the first one as well.
    · intro comma
      cases next : Text.skipSpaces after with
      | nil => simp [(Text.trails_append tail after).skip_nil spaces next] at comma
      | cons c rest =>
        rw [(Text.trails_append tail after).skip_cons spaces next] at comma
        obtain rfl : c = ',' := Option.some.inj comma
        exact stop rest next

theorem oneName_echo :
    Echo (List.map (Node.shift count)) tail text.length (oneName line text)
      (oneName (line + count) other) := by
  unfold oneName
  rw [trails.name? spaces]
  cases found : Text.name? text with
  | none => exact .none
  | some read =>
    have shorter := Text.length_of_name? found
    have skipped := Text.length_skipSpaces_le read.2
    exact .some ((Text.trails_append tail read.2).skipSpaces spaces) (by omega)

theorem expansionContent_echo (mode : Mode) :
    Echo (List.map (Node.shift count)) tail text.length (expansionContent line mode text)
      (expansionContent (line + count) mode other) := by
  by_cases modified : mode = .immediate ∧ ∃ after, text = '@' :: after
  · obtain ⟨rfl, after, rfl⟩ := modified
    obtain rfl := trails.cons
    simp only [expansionContent, (Text.trails_append tail after).name? spaces]
    cases found : Text.name? after with
    | none => exact .none
    | some read =>
      have shorter := Text.length_of_name? found
      have skipped := Text.length_skipSpaces_le read.2
      rcases (names_echo spaces ((Text.trails_append tail read.2).skipSpaces spaces) line count).split with
        ⟨none, none'⟩ | ⟨more, left, left', some, some', trails, fits⟩
      · simp only [Option.map_some, Option.bind_some, none, none']
        exact .none
      · simp only [Option.map_some, Option.bind_some, some, some']
        refine .some trails ?_
        simp only [List.length_cons]
        omega
  · have plain : mode = .immediate → text.head? ≠ some '@' := fun own first =>
      modified ⟨own, List.head?_eq_some_iff.1 first⟩
    have plain' : mode = .immediate → other.head? ≠ some '@' := fun own first =>
      plain own ((head?_trails spaces trails (by decide)).1 first)
    rw [expansionContent_plain plain, expansionContent_plain plain']
    exact oneName_echo spaces trails line count

theorem expansion_echo :
    Echo (Node.shift count) tail text.length (expansion line text)
      (expansion (line + count) other) := by
  by_cases opened : ∃ c inside, text = '$' :: c :: inside
  · obtain ⟨c, inside, rfl⟩ := opened
    obtain rfl := trails.cons
    simp only [expansion, List.cons_append]
    cases Mode.ofOpening? c with
    | none => exact .none
    | some mode =>
      have content := expansionContent_echo spaces
        ((Text.trails_append tail inside).skipSpaces spaces) line count mode
      have skipped := Text.length_skipSpaces_le inside
      rcases content.split with ⟨none, none'⟩ | ⟨nodes, left, left', some, some', trails, fits⟩
      · simp only [none, none']
        exact .none
      · simp only [some, some']
        cases left with
        | nil =>
          -- A space does not close the expansion either.
          cases left' with
          | nil => exact .none
          | cons d rest =>
            have unclosed : d ≠ mode.closing := by
              refine Text.ne_of_isSpace (trails.space spaces) ?_
              cases mode <;> decide
            simp only [if_neg unclosed]
            exact .none
        | cons closing rest =>
          rw [trails.cons]
          dsimp only
          have span : Text.consumed ('$' :: c :: (inside ++ tail)) (rest ++ tail) =
              Text.consumed ('$' :: c :: inside) rest :=
            Text.consumed_append_both ('$' :: c :: inside) rest tail
          split
          · rw [span]
            refine .found (by simp) (Text.trails_append tail rest) ?_
            simp only [List.length_cons] at fits ⊢
            omega
          · exact .none
  · have nothing (line : Nat) : expansion line text = none := by
      unfold expansion
      split
      · exact absurd ⟨_, _, rfl⟩ opened
      · rfl
    have nothing' (line : Nat) : expansion line other = none := by
      unfold expansion
      split
      · next c inside =>
        -- The dollar sign is the last character of the first text, and a space follows it.
        cases text with
        | nil =>
          have first := (head?_trails spaces trails (by decide)).1 rfl
          cases first
        | cons d rest =>
          obtain ⟨rfl, behind⟩ := List.cons.inj trails.cons
          cases rest with
          | cons d rest => exact absurd ⟨_, _, rfl⟩ opened
          | nil =>
            have space : Text.isSpace c = true := spaces c (behind ▸ List.mem_cons_self : c ∈ [] ++ tail)
            have unopened : Mode.ofOpening? c = none := by
              rcases Text.isSpace_cases space with rfl | rfl | rfl <;> decide
            rw [unopened]
      · rfl
    rw [nothing, nothing']
    exact .none

end

/-! Pieces and phrases. -/

theorem expansion_shift (line count : Nat) (text : Text) :
    expansion (line + count) text =
      (expansion line text).map fun read => (read.1.shift count, read.2) := by
  have echo := expansion_echo (by simp) (Text.trails_append [] text) line count
  rw [List.append_nil] at echo
  exact echo.eq_map

theorem consLiteral_shift (line count : Nat) (c : Char) (nodes : List Node) :
    consLiteral (line + count) c (nodes.map (Node.shift count)) =
      (consLiteral line c nodes).map (Node.shift count) := by
  cases nodes with
  | nil => rfl
  | cons node nodes =>
    obtain ⟨kind, named, own, text, children⟩ := node
    cases kind <;> rfl

theorem pieces_shift (line count : Nat) (text : Text) :
    pieces (line + count) text = (pieces line text).map (Node.shift count) := by
  fun_induction pieces line text with
  | case1 => simp [pieces]
  | case2 rest ih => simp only [pieces, ih, consLiteral_shift]
  | case3 after single node rest read shorter ih =>
    have moved := expansion_shift line count ('$' :: after)
    rw [read] at moved
    rw [pieces.eq_3 _ _ single]
    split
    · next node' rest' again =>
      obtain ⟨rfl, rfl⟩ := Prod.mk.inj (Option.some.inj (again.symm.trans moved))
      rw [ih, List.map_cons]
    · next again => cases again.symm.trans moved
  | case4 after single unread ih =>
    have moved := expansion_shift line count ('$' :: after)
    rw [unread] at moved
    rw [pieces.eq_3 _ _ single]
    split
    · next again => cases again.symm.trans moved
    · rw [ih, consLiteral_shift]
  | case5 c rest double single ih =>
    rw [pieces.eq_4 _ _ _ double single, ih, consLiteral_shift]

/-- A phrase does not depend on the spaces at the end of its line. -/
theorem phrase_trails (spaces : ∀ c ∈ tail, Text.isSpace c = true) (trails : Text.Trails tail text other)
    (kind : Kind) (line count : Nat) :
    phrase kind (line + count) other = (phrase kind line text).shift count := by
  simp only [phrase, trails.trimEnd spaces, pieces_shift, Node.shift_branch]

end BmakeZig.Source
