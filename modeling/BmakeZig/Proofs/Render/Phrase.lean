import BmakeZig.Proofs.Render.Safety
import BmakeZig.Proofs.Source.Placement.Phrase
import BmakeZig.Proofs.Tree.Below
import BmakeZig.Proofs.Value.Canonical

/-! The fragments of a phrase. The reader cuts a phrase into literals and expansions, and a literal is
cut once more when its fragments are taken; a phrase handed over as one text is cut only then. The
two cuts look for the end of a reference in different ways and pass over different blanks, but they
find the same fragments. -/
namespace BmakeZig

namespace Fragment

variable {name rest : Text} {mode : Mode} {fragments : List Fragment}

/-- A reference is spelled without a dollar sign behind the first, and reads the same whatever
follows it. -/
theorem reference?_spelling {text : Text} (found : reference? text = some ((name, mode), rest)) :
    ∃ spelling, text = spelling ++ rest ∧ '$' ∉ spelling ∧
      ∀ other, reference? (spelling ++ other) = some ((name, mode), other) := by
  cases text with
  | nil => simp [reference?] at found
  | cons c inside =>
    simp only [reference?, Option.bind_eq_bind, Option.bind_eq_some_iff] at found
    obtain ⟨opened, opens, ⟨content, left⟩, cut, chosen⟩ := found
    split at chosen
    · next named =>
      obtain ⟨⟨rfl, rfl⟩, rfl⟩ : (Text.trim content = name ∧ opened = mode) ∧ left = rest := by
        simpa using chosen
      obtain rfl := Mode.opening_of_ofOpening? opens
      have unclosed := Text.not_mem_of_cutAt? cut
      refine ⟨opened.opening :: content ++ [opened.closing], ?_, ?_, fun other => ?_⟩
      · simp [Text.eq_append_of_cutAt? cut]
      · -- The content is a name between blanks, and none of these is a dollar sign.
        obtain ⟨lead, trail, whole, before, behind⟩ := Text.trim_split content
        have plain : '$' ∉ content := by
          intro member
          rw [whole] at member
          rcases List.mem_append.1 member with first | member
          · exact absurd (before _ first) (by decide)
          · rcases List.mem_append.1 member with middle | last
            · exact absurd (Text.isNameChar_of_mem named middle) (by decide)
            · exact absurd (behind _ last) (by decide)
        cases opened <;> simp [Mode.opening, Mode.closing, plain]
      · have again : Text.cutAt? opened.closing (content ++ opened.closing :: other) =
            some (content, other) := Text.cutAt?_append unclosed other
        have shape : opened.opening :: content ++ [opened.closing] ++ other =
            opened.opening :: (content ++ opened.closing :: other) := by simp
        rw [shape, reference?, Mode.ofOpening?_opening]
        simp [again, named]
    · simp at chosen

/-- A name between spaces is what a reference may hold. -/
theorem reference?_spaced {lead trail : Text} (named : Text.isName name = true)
    (before : ∀ c ∈ lead, Text.isSpace c = true) (behind : ∀ c ∈ trail, Text.isSpace c = true)
    (mode : Mode) (rest : Text) :
    reference? (mode.opening :: (lead ++ (name ++ (trail ++ mode.closing :: rest)))) =
      some ((name, mode), rest) := by
  have unclosed : mode.closing ∉ lead ++ (name ++ trail) := by
    have solid : Text.isSpace mode.closing = false := by cases mode <;> rfl
    simp only [List.mem_append, closing_not_mem_name mode named, false_or, not_or]
    constructor
    · intro member
      simp [before _ member] at solid
    · intro member
      simp [behind _ member] at solid
  have trimmed : Text.trim (lead ++ (name ++ trail)) = name := by
    have front : Text.trimStart (lead ++ (name ++ trail)) = Text.trimStart (name ++ trail) :=
      List.dropWhile_append_of_pos fun c member => Text.isBlank_of_isSpace (before c member)
    have solid : Text.trimStart (name ++ trail) = name ++ trail := by
      cases name with
      | nil => simp [Text.isName] at named
      | cons c others =>
        have first := Text.isBlank_of_isNameChar (Text.isNameChar_of_mem named List.mem_cons_self)
        simp [Text.trimStart, first]
    rw [Text.trim, front, solid,
      Text.trimEnd_append_blanks fun c member => Text.isBlank_of_isSpace (behind c member)]
    exact (Source.firm_name named).trimEnd_eq
  have cut := Text.cutAt?_append unclosed rest
  rw [List.append_assoc, List.append_assoc] at cut
  rw [reference?, Mode.ofOpening?_opening]
  simp [cut, trimmed, named]

theorem reference?_append {text : Text} (other : Text)
    (unspelled : reference? (text ++ other) = none) : reference? text = none := by
  cases found : reference? text with
  | none => rfl
  | some read =>
    obtain ⟨⟨name, mode⟩, rest⟩ := read
    obtain ⟨spelling, rfl, -, reads⟩ := reference?_spelling found
    rw [List.append_assoc, reads] at unspelled
    cases unspelled

/-- A literal in front is not joined to what a reference stands before. -/
theorem consLiteral_append {more : List Fragment}
    (refers : ∀ first ∈ more.head?, first.isLiteral = false) (c : Char) :
    consLiteral c (fragments ++ more) = consLiteral c fragments ++ more := by
  cases fragments with
  | nil =>
    rcases more with _ | ⟨_ | _, more⟩
    · rfl
    · have literal := refers _ rfl
      simp [isLiteral] at literal
    · rfl
  | cons first fragments => cases first <;> rfl

end Fragment

namespace Source

open Fragment (split reference? isLiteral)

variable {line : Nat} {text after rest : Text} {node : Node} {nodes : List Node}

/-- The fragments of a piece that carries no modifier. -/
def pieceFragments (node : Node) : List Fragment :=
  match node.kind with
  | .literal => split node.text
  | .expansion mode => [.reference (((node.find? .identifier).map (·.text)).getD []) mode]
  | _ => []

/-- The literal that the nodes start with, or nothing, and the nodes behind it. -/
def front : List Node → Text × List Node
  | ⟨.literal, _, _, text, _⟩ :: rest => (text, rest)
  | nodes => ([], nodes)

theorem consLiteral_eq (line : Nat) (c : Char) (nodes : List Node) :
    consLiteral line c nodes = .leaf .literal line (c :: (front nodes).1) :: (front nodes).2 := by
  unfold consLiteral
  split
  · rfl
  · next other =>
    have nothing : front nodes = ([], nodes) := by
      unfold front
      split
      · exact absurd rfl (other _ _ _ _ _)
      · rfl
    rw [nothing]

theorem front_consLiteral (line : Nat) (c : Char) (nodes : List Node) :
    front (consLiteral line c nodes) = (c :: (front nodes).1, (front nodes).2) := by
  rw [consLiteral_eq]
  rfl

theorem flatMap_front (nodes : List Node) :
    nodes.flatMap pieceFragments = split (front nodes).1 ++ (front nodes).2.flatMap pieceFragments := by
  unfold front
  split
  · rfl
  · rw [split, List.nil_append]

theorem flatMap_consLiteral (line : Nat) (c : Char) (nodes : List Node) :
    (consLiteral line c nodes).flatMap pieceFragments =
      split (c :: (front nodes).1) ++ (front nodes).2.flatMap pieceFragments := by
  rw [flatMap_front, front_consLiteral]

/-! The reader, one mark at a time. -/

theorem pieces_char {c : Char} (plain : c ≠ '$') (line : Nat) (rest : Text) :
    pieces line (c :: rest) = consLiteral line c (pieces line rest) := by
  rw [pieces]
  · rintro after rfl
    simp at plain
  · rintro rfl
    simp at plain

theorem pieces_expansion (single : ∀ rest, after ≠ '$' :: rest)
    (read : expansion line ('$' :: after) = some (node, rest)) :
    pieces line ('$' :: after) = node :: pieces line rest := by
  rw [pieces]
  · split
    · next same =>
      rw [read] at same
      obtain ⟨rfl, rfl⟩ := Prod.mk.inj (Option.some.inj same)
      rfl
    · next same =>
      rw [read] at same
      cases same
  · exact single

theorem pieces_unread (single : ∀ rest, after ≠ '$' :: rest)
    (unread : expansion line ('$' :: after) = none) :
    pieces line ('$' :: after) = consLiteral line '$' (pieces line after) := by
  rw [pieces]
  · split
    · next same =>
      rw [unread] at same
      cases same
    · rfl
  · exact single

theorem front_pieces_append (plain : '$' ∉ text) (line : Nat) (rest : Text) :
    front (pieces line (text ++ rest)) =
      (text ++ (front (pieces line rest)).1, (front (pieces line rest)).2) := by
  induction text with
  | nil => rfl
  | cons c text ih =>
    rw [List.mem_cons, not_or] at plain
    rw [List.cons_append, pieces_char (Ne.symm plain.1), front_consLiteral, ih plain.2]
    rfl

theorem flatMap_refers (shaped : ∀ child ∈ nodes, Shape .piece child)
    (other : ∀ first ∈ nodes.head?, first.kind ≠ .literal) :
    ∀ first ∈ (nodes.flatMap pieceFragments).head?, first.isLiteral = false := by
  cases nodes with
  | nil => simp
  | cons node nodes =>
    have unlike := other node rfl
    cases shaped node List.mem_cons_self with
    | literal => exact absurd rfl unlike
    | expanded inner =>
      obtain ⟨mode, kind⟩ := inner.expansionMode
      simp [pieceFragments, kind, isLiteral]

/-- The literal that the pieces of a text start with is the start of the text, and what comes behind
it is a reference. -/
theorem front_pieces (line : Nat) (single : '\n' ∉ text) :
    (∃ behind, text = (front (pieces line text)).1 ++ behind) ∧
      ∀ first ∈ ((front (pieces line text)).2.flatMap pieceFragments).head?,
        first.isLiteral = false := by
  have placed : Pieces line text (pieces line text) := pieces_placed single
  have shaped := shape_of_pieces line text
  generalize pieces line text = nodes at placed shaped
  unfold front
  split
  · next named own literal children more =>
    obtain ⟨whole, -, apart⟩ := placed.tail
    refine ⟨⟨_, whole⟩, flatMap_refers ?_ ?_⟩
    · exact fun child member => shaped child (List.mem_cons_of_mem _ member)
    · exact fun first member same => apart first member ⟨rfl, same⟩
  · next other =>
    refine ⟨⟨text, rfl⟩, flatMap_refers shaped ?_⟩
    rintro ⟨kind, named, own, literal, children⟩ first same
    obtain ⟨rest, rfl⟩ := List.head?_eq_some_iff.1 first
    obtain rfl : kind = .literal := same
    exact other named own literal children rest rfl

/-- A character that is cut off from the literal behind it is cut off from all the fragments behind
it. -/
theorem flatMap_consLiteral_pieces {c : Char} (single : '\n' ∉ text)
    (cut : split (c :: (front (pieces line text)).1) =
      Fragment.consLiteral c (split (front (pieces line text)).1)) :
    (consLiteral line c (pieces line text)).flatMap pieceFragments =
      Fragment.consLiteral c ((pieces line text).flatMap pieceFragments) := by
  obtain ⟨-, refers⟩ := front_pieces line single
  rw [flatMap_consLiteral, cut, ← Fragment.consLiteral_append refers, ← flatMap_front]

/-- The literal is no longer than the text, so it spells no reference either. -/
theorem split_front_unspelled (single : '\n' ∉ after) (alone : ∀ rest, after ≠ '$' :: rest)
    (unspelled : reference? after = none) :
    split ('$' :: (front (pieces line after)).1) =
      Fragment.consLiteral '$' (split (front (pieces line after)).1) := by
  obtain ⟨⟨behind, start⟩, -⟩ := front_pieces line single
  apply Fragment.split_unspelled
  · intro rest same
    rw [same] at start
    exact alone _ start
  · rw [start] at unspelled
    exact Fragment.reference?_append behind unspelled

/-! Expansions and references. -/

theorem expansionContent_cases {mode : Mode}
    (read : expansionContent line mode text = some (nodes, rest)) :
    (∃ name trail, nodes = [.leaf .identifier line name] ∧ Text.isName name = true ∧
        (∀ c ∈ trail, Text.isSpace c = true) ∧ text = name ++ (trail ++ rest)) ∨
      ∃ modifier listed, nodes = .leaf .expansionMod line modifier :: listed := by
  unfold expansionContent at read
  split at read
  · obtain ⟨found, _, more⟩ := Option.bind_eq_some_iff.1 read
    obtain ⟨inner, _, same⟩ := Option.map_eq_some_iff.1 more
    obtain ⟨rfl, -⟩ := Prod.mk.inj same
    exact .inr ⟨_, _, rfl⟩
  · obtain ⟨⟨name, after⟩, found, same⟩ := Option.map_eq_some_iff.1 read
    obtain ⟨rfl, rfl⟩ := Prod.mk.inj same
    obtain ⟨trail, spaces, behind⟩ := Text.skipSpaces_lead after
    refine .inl ⟨name, trail, rfl, Text.isName_of_name? found, spaces, ?_⟩
    rw [← behind, Text.name?_eq_append found]

/-- An expansion without a modifier is the reference that its text spells. -/
theorem reference?_of_expansion (read : expansion line ('$' :: after) = some (node, rest))
    (plain : node.find? .expansionMod = none) :
    ∃ name mode, reference? after = some ((name, mode), rest) ∧
      pieceFragments node = [.reference name mode] := by
  unfold expansion at read
  split at read
  · next c inside same =>
    obtain rfl : after = c :: inside := (List.cons.inj same).2
    split at read
    · simp at read
    · next mode opened =>
      split at read
      · next content closing left inner =>
        split at read
        · next closes =>
          obtain ⟨rfl, rfl⟩ := Prod.mk.inj (Option.some.inj read)
          rcases expansionContent_cases inner with
            ⟨name, trail, rfl, named, behind, whole⟩ | ⟨modifier, listed, rfl⟩
          · obtain ⟨lead, before, start⟩ := Text.skipSpaces_lead inside
            refine ⟨name, mode, ?_, rfl⟩
            rw [start, whole, closes, Mode.opening_of_ofOpening? opened]
            exact Fragment.reference?_spaced named before behind mode left
          · cases plain
        · simp at read
      · simp at read
  · simp at read

theorem unmodified_consLiteral {c : Char} (shaped : ∀ child ∈ nodes, Shape .piece child)
    (plain : ∀ child ∈ consLiteral line c nodes, child.find? .expansionMod = none) :
    ∀ child ∈ nodes, child.find? .expansionMod = none := by
  intro child member
  cases shaped child member with
  | literal => rfl
  | expanded inner =>
    apply plain
    obtain ⟨mode, kind⟩ := inner.expansionMode
    unfold consLiteral
    split
    · rcases List.mem_cons.1 member with rfl | later
      · cases kind
      · exact List.mem_cons_of_mem _ later
    · exact List.mem_cons_of_mem _ member

theorem unmodified_pieces_append (undivided : '$' ∉ text)
    (plain : ∀ child ∈ pieces line (text ++ rest), child.find? .expansionMod = none) :
    ∀ child ∈ pieces line rest, child.find? .expansionMod = none := by
  induction text with
  | nil => exact plain
  | cons c text ih =>
    rw [List.mem_cons, not_or] at undivided
    rw [List.cons_append, pieces_char (Ne.symm undivided.1)] at plain
    exact ih undivided.2 (unmodified_consLiteral (shape_of_pieces line _) plain)

/-- The pieces of a text have the fragments of the text. Induction on how the text is cut as a whole:
where that finds a reference, the reader finds the expansion for it or goes on through its spelling
without a stop. -/
theorem flatMap_pieces (single : '\n' ∉ text)
    (plain : ∀ child ∈ pieces line text, child.find? .expansionMod = none) :
    (pieces line text).flatMap pieceFragments = split text := by
  fun_induction split text with
  | case1 => rw [pieces]; rfl
  | case2 rest ih =>
    have below : '\n' ∉ rest := by simpa using single
    obtain ⟨-, refers⟩ := front_pieces line below
    rw [pieces] at plain ⊢
    have inner := unmodified_consLiteral (shape_of_consLiteral (shape_of_pieces line rest)) plain
    have others := ih below (unmodified_consLiteral (shape_of_pieces line rest) inner)
    rw [flatMap_consLiteral, front_consLiteral, Fragment.split_dollars,
      ← Fragment.consLiteral_append refers, ← flatMap_front, others]
  | case3 after alone name mode rest spelled shorter ih =>
    obtain ⟨spelling, whole, undivided, reads⟩ := Fragment.reference?_spelling spelled
    have below : '\n' ∉ rest := fun member => single (by simp [whole, member])
    cases read : expansion line ('$' :: after) with
    | some found =>
      obtain ⟨node, left⟩ := found
      rw [pieces_expansion alone read] at plain ⊢
      obtain ⟨own, others⟩ := List.forall_mem_cons.1 plain
      obtain ⟨name', mode', again, gives⟩ := reference?_of_expansion read own
      rw [spelled] at again
      obtain ⟨⟨rfl, rfl⟩, rfl⟩ : (name = name' ∧ mode = mode') ∧ rest = left := by simpa using again
      rw [List.flatMap_cons, gives, ih below others]
      rfl
    | none =>
      rw [pieces_unread alone read] at plain ⊢
      have inner := unmodified_consLiteral (shape_of_pieces line after) plain
      have others := unmodified_pieces_append undivided (whole ▸ inner)
      rw [flatMap_consLiteral, whole, front_pieces_append undivided, Fragment.split_spelled (reads _),
        List.cons_append, ← flatMap_front, ih below others]
  | case4 after alone unspelled ih =>
    have below : '\n' ∉ after := by simpa using single
    cases read : expansion line ('$' :: after) with
    | some found =>
      rw [pieces_expansion alone read] at plain
      obtain ⟨name, mode, spelled, -⟩ := reference?_of_expansion read (plain _ List.mem_cons_self)
      rw [unspelled] at spelled
      cases spelled
    | none =>
      rw [pieces_unread alone read] at plain ⊢
      have others := ih below (unmodified_consLiteral (shape_of_pieces line after) plain)
      rw [flatMap_consLiteral_pieces below (split_front_unspelled below alone unspelled), others]
  | case5 c rest several lone ih =>
    have other : c ≠ '$' := by
      rintro rfl
      exact lone rfl
    have below : '\n' ∉ rest := fun member => single (List.mem_cons_of_mem _ member)
    rw [pieces_char other] at plain ⊢
    have others := ih below (unmodified_consLiteral (shape_of_pieces line rest) plain)
    rw [flatMap_consLiteral_pieces below (Fragment.split_char other _), others]

end Source

namespace Render

variable {node : Node} {nodes : List Node}

/-! What rendering takes from the pieces. -/

theorem childFragments_plain (shape : Shape .piece node) (plain : node.find? .expansionMod = none) :
    childFragments node = pure (Source.pieceFragments node) := by
  cases shape with
  | literal => rfl
  | expanded inner =>
    cases inner with
    | plain named =>
      cases named
      rfl
    | modified => cases plain

theorem childFragments_modified {modifier : Node} (shape : Shape .piece node)
    (found : node.find? .expansionMod = some modifier) :
    childFragments node = throw (unknown modifier) := by
  cases shape with
  | literal => cases found
  | expanded inner =>
    obtain ⟨mode, kind⟩ := inner.expansionMode
    simp only [childFragments, kind, reference, found]
    rfl

theorem collect_plain (shaped : ∀ child ∈ nodes, Shape .piece child)
    (plain : ∀ child ∈ nodes, child.find? .expansionMod = none) :
    collect nodes = pure (nodes.flatMap Source.pieceFragments) := by
  induction nodes with
  | nil => rfl
  | cons node nodes ih =>
    obtain ⟨first, others⟩ := List.forall_mem_cons.1 shaped
    obtain ⟨own, rest⟩ := List.forall_mem_cons.1 plain
    rw [collect, childFragments_plain first own, ih others rest]
    rfl

theorem collect_modified {modifier : Node} (shaped : ∀ child ∈ nodes, Shape .piece child)
    (found : nodes.findSome? (·.find? .expansionMod) = some modifier) :
    collect nodes = throw (unknown modifier) := by
  induction nodes with
  | nil => cases found
  | cons node nodes ih =>
    obtain ⟨first, others⟩ := List.forall_mem_cons.1 shaped
    rw [List.findSome?_cons] at found
    rw [collect]
    cases own : node.find? .expansionMod with
    | none =>
      rw [own] at found
      rw [childFragments_plain first own, ih others found]
      rfl
    | some other =>
      rw [own] at found
      obtain rfl := Option.some.inj found
      rw [childFragments_modified first own]
      rfl

/-- A phrase without modifiers has the fragments of its text. -/
theorem writtenFragments_plain {kind : Kind} (shape : Shape (.phrase kind) node)
    (other : ∀ mode, kind ≠ .expansion mode)
    (plain : ∀ child ∈ node.children, child.find? .expansionMod = none) :
    writtenFragments node = pure (Fragment.split node.text) := by
  cases shape with
  | phrase oneLine shaped cut =>
    rw [writtenFragments_of_kind other]
    split
    · rfl
    · subst cut
      change collect (Source.pieces _ _) = _
      rw [collect_plain shaped plain, Source.flatMap_pieces oneLine plain]
      rfl

theorem writtenFragments_modified {kind : Kind} {modifier : Node} (shape : Shape (.phrase kind) node)
    (other : ∀ mode, kind ≠ .expansion mode)
    (found : node.children.findSome? (·.find? .expansionMod) = some modifier) :
    writtenFragments node = throw (unknown modifier) := by
  cases shape with
  | phrase oneLine shaped cut =>
    rw [writtenFragments_of_kind other]
    split
    · next empty =>
      rw [List.isEmpty_iff.1 empty] at found
      cases found
    · exact collect_modified shaped found

end Render

/-! All phrases of a tree. -/

/-- The values, messages, commands and paths of a tree. -/
def Node.phrases (root : Node) : List Node :=
  root.all.filter (·.kind.isPhrase)

theorem Source.fits_parse (source : Text) : ∀ child ∈ (parse source).children, Fits child :=
  fun child member => .shaped rfl (shape_of_parse source child member)

theorem shape_of_mem_phrases {source : Text} {node : Node}
    (member : node ∈ (Source.parse source).phrases) : Shape (.phrase node.kind) node := by
  obtain ⟨inside, phrase⟩ := List.mem_filter.1 member
  rcases fits_of_mem_all (Source.fits_parse source) inside with rfl | fits
  · cases phrase
  · exact fits.phrase_of_kind phrase

/-- In every phrase of a unit the fragments are those of its text, as if the text were handed over
undivided; unless there is a modifier, and then the first one ends the pass. -/
theorem Source.phrase_fragments_agree (source : Text) {node : Node}
    (member : node ∈ (parse source).phrases) :
    Render.writtenFragments (.leaf node.kind node.line node.text) =
        pure (Fragment.split node.text) ∧
      ((∀ child ∈ node.children, child.find? .expansionMod = none) →
        Render.writtenFragments node = pure (Fragment.split node.text)) ∧
      ∀ modifier, node.children.findSome? (·.find? .expansionMod) = some modifier →
        Render.writtenFragments node =
          throw (.unknownKind "expansion_mod".toList modifier.line) := by
  have shape := shape_of_mem_phrases member
  have other : ∀ mode, node.kind ≠ .expansion mode := by
    intro mode same
    have phrase := (List.mem_filter.1 member).2
    simp [same, Kind.isPhrase] at phrase
  refine ⟨?_, Render.writtenFragments_plain shape other, fun modifier found => ?_⟩
  · exact Render.writtenFragments_of_kind other
  · obtain ⟨child, -, inside⟩ := List.exists_of_findSome?_eq_some found
    have kind : modifier.kind = .expansionMod := by simpa using List.find?_some inside
    rw [Render.writtenFragments_modified shape other found, Render.unknown, kind]
    rfl

/-- References with blanks that only one of the two cuts passes over, without an end, and one with a
modifier. -/
def spacedUnit : Text :=
  "A = $$(X) $(\u00a0X\u00a0)$( Y\t)$(Z\n%error $\x7bX\x7d$[@m Y, Z]$[@n Y]".toList

theorem spacedUnit_fragments_agree :
    (Source.parse spacedUnit).phrases.map (fun node =>
        (node.children.length, (node.children.findSome? (·.find? .expansionMod)).map (·.text))) =
        [(3, none), (3, some "@m".toList)] ∧
      ∀ node ∈ (Source.parse spacedUnit).phrases,
        ((∀ child ∈ node.children, child.find? .expansionMod = none) →
          Render.writtenFragments node = pure (Fragment.split node.text)) ∧
        ∀ modifier, node.children.findSome? (·.find? .expansionMod) = some modifier →
          Render.writtenFragments node =
            throw (.unknownKind "expansion_mod".toList modifier.line) :=
  ⟨by decide +kernel, fun _ member => (Source.phrase_fragments_agree spacedUnit member).2⟩

end BmakeZig
