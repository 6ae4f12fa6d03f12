import BmakeZig.Proofs.Source.Recovery.Reading

/-! A source read by a head that stands at an offset and counts lines. The readers of this library hand
on what is unread; a watched reader moves the head instead, forward and, where it gives up, back. Every
move, every cut out of the source, every distance and every round of a loop is checked when it is made,
and the first check that fails is a breach, which nothing recovers from. What a watched reader comes to
is said in terms of the cursors of the other readers: `Leads` and `Fails` leave no room for a breach. -/
namespace BmakeZig.Source

structure Head where
  source : Text
  offset : Nat
  line : Nat
deriving DecidableEq, Repr

inductive Breach where
  /-- The head leaves the source, or text is cut out that does not lie in it. -/
  | outside
  /-- A stretch of text that ends before it starts. -/
  | backwards
  /-- A line number other than one more than the line feeds before the head. -/
  | miscounted
  /-- A round of a loop that leaves the head where it was. -/
  | stalled
  /-- A round of a phrase that starts behind its end. -/
  | overrun
  /-- A loop with more rounds, or a nesting with more levels, than there are characters. -/
  | endless
deriving DecidableEq, Repr

inductive Halt where
  /-- What stands here is not what the reader reads. -/
  | unread
  | breach (breach : Breach)
deriving DecidableEq, Repr

abbrev Watched := EStateM Halt Head

namespace Watched

variable {α β σ : Type}

/-! The moves of the head. -/

/-- The source from one offset up to another. -/
def cut (start stop : Nat) : Watched Text := do
  let head ← get
  if stop < start then throw (.breach .backwards)
  else if head.source.length < stop then throw (.breach .outside)
  else return slice head.source start stop

def distance (start stop : Nat) : Watched Nat :=
  if stop < start then throw (.breach .backwards) else return stop - start

def moveTo (offset line : Nat) : Watched Unit := do
  let head ← get
  if head.source.length < offset then throw (.breach .outside)
  else if line ≠ 1 + (head.source.take offset).count '\n' then throw (.breach .miscounted)
  else set { head with offset, line }

def advance (count : Nat) : Watched Unit := do
  let head ← get
  let passed ← cut head.offset (head.offset + count)
  moveTo (head.offset + count) (head.line + passed.count '\n')

def unread : Watched Text := do
  let head ← get
  cut head.offset head.source.length

def peek (word : Text) : Watched Bool := do
  return word.isPrefixOf (← unread)

/-- Passes over the word, if it stands here. -/
def consume (word : Text) : Watched Bool := do
  if ← peek word then
    advance word.length
    return true
  else return false

def skipSpaces : Watched Unit := do
  advance ((← unread).takeWhile Text.isSpace).length

def skipBlank : Watched Unit := do
  advance ((← unread).takeWhile Text.isBlank).length

/-- The offset at which the current line ends. -/
def lineEnd : Watched Nat := do
  let here := (← unread).takeWhile (· != '\n')
  return (← get).offset + here.length

/-- Moves the head on to an offset, over as many characters as lie in between. -/
def advanceTo (offset : Nat) : Watched Unit := do
  advance (← distance (← get).offset offset)

def toLineEnd : Watched Unit := do
  advanceTo (← lineEnd)

/-- Passes over a line feed, if there is one. -/
def newline : Watched Unit := do
  let _ ← consume ['\n']

def toNextLine : Watched Unit := do
  toLineEnd
  newline

/-- Whether nothing but spaces and a comment is left of the line. -/
def atLineEnd : Watched Bool := do
  skipSpaces
  if (← unread).isEmpty then return true
  else if ← peek ['\n'] then return true
  else peek ['#']

/-! Nodes. -/

/-- A node for what lies between `start` and the head. -/
def covered (kind : Kind) (start : Head) (children : List Node) : Watched Node := do
  return .branch kind start.line (← cut start.offset (← get).offset) children

/-- The same without the blanks it ends in. -/
def trimmed (kind : Kind) (start : Head) (children : List Node) : Watched Node := do
  return .branch kind start.line (Text.trimEnd (← cut start.offset (← get).offset)) children

def token? (word : Text) : Watched (Option Node) := do
  let start ← get
  if ← consume word then
    return some (.token start.line (← cut start.offset (← get).offset))
  else return none

def token (word : Text) : Watched Node := do
  match ← token? word with
  | some found => return found
  | none => throw .unread

/-- A name, as a node of the kind. -/
def named (kind : Kind) : Watched Node := do
  let start ← get
  match Text.name? (← unread) with
  | none => throw .unread
  | some (name, _) =>
    advance name.length
    covered kind start []

/-! Giving up, and going round. -/

/-- What the reader reads, if it reads something. Wherever it gave up the head stays. -/
def attempt (reader : Watched α) : Watched (Option α) := fun head =>
  match reader head with
  | .ok value after => .ok (some value) after
  | .error .unread after => .ok none after
  | .error (.breach breach) after => .error (.breach breach) after

/-- Puts the head back where it was, and reads on from there, where the first reader gives up. -/
def orElse (first second : Watched α) : Watched α := do
  let start ← get
  match ← attempt first with
  | some value => return value
  | none =>
    moveTo start.offset start.line
    second

/-- The rounds of a loop. Each of them ends the loop or leaves the head further on. -/
def rounds (round : σ → Watched (σ ⊕ α)) : Nat → σ → Watched α
  | 0, _ => throw (.breach .endless)
  | limit + 1, state => do
    let before ← get
    match ← round state with
    | .inr value => return value
    | .inl next =>
      if (← get).offset ≤ before.offset then throw (.breach .stalled)
      else rounds round limit next

/-- A loop. A round for every character that is unread and one to stop must do. -/
def loop (round : σ → Watched (σ ⊕ α)) (state : σ) : Watched α := do
  rounds round ((← unread).length + 1) state

end Watched

/-! What watched readers come to. -/

namespace Cursor

/-- The place lies in the source, on the line it names. -/
def In (c : Cursor) (source : Text) : Prop :=
  ∃ passed, (Cursor.start source).Moves passed c

/-- The head at a place. -/
def head (source : Text) (c : Cursor) : Head :=
  ⟨source, source.length - c.rest.length, c.line⟩

variable {source text : Text} {c stop : Cursor}

theorem length_within (c : Cursor) (left : Text) :
    (c.within left).rest.length = left.length + c.below.length :=
  List.length_append

theorem length_lt_within (c : Cursor) (left : Text) : left.length < (c.within left).rest.length + 1 := by
  rw [length_within]
  omega

theorem In.moves (inside : c.In source) (moves : c.Moves text stop) : stop.In source := by
  obtain ⟨passed, before⟩ := inside
  exact ⟨passed ++ text, before.trans moves⟩

theorem in_start (source : Text) : (Cursor.start source).In source :=
  ⟨[], .none _⟩

theorem In.split (inside : c.In source) : ∃ passed, source = passed ++ c.rest ∧
    (c.head source).offset = passed.length ∧ c.line = 1 + passed.count '\n' := by
  obtain ⟨passed, moves⟩ := inside
  have whole : source = passed ++ c.rest := moves.rest
  refine ⟨passed, whole, ?_, moves.line⟩
  rw [head, whole, List.length_append, Nat.add_sub_cancel]

theorem In.offset_moves (inside : c.In source) (moves : c.Moves text stop) :
    (stop.head source).offset = (c.head source).offset + text.length := by
  obtain ⟨passed, whole, start, -⟩ := inside.split
  rw [start, head, whole, moves.rest]
  simp only [List.length_append]
  omega

/-- Of two places in one source the text between them leads from one to the other. -/
theorem In.reaches (inside : c.In source) (there : stop.In source)
    (later : stop.rest.length ≤ c.rest.length) : c.Moves (c.upTo stop) stop := by
  obtain ⟨passed, whole, -, line⟩ := inside.split
  obtain ⟨further, whole', -, line'⟩ := there.split
  have same : passed ++ c.rest = further ++ stop.rest := whole.symm.trans whole'
  obtain ⟨between, rfl, rest⟩ : ∃ between, further = passed ++ between ∧
      c.rest = between ++ stop.rest := by
    rcases List.append_eq_append_iff.1 same with ⟨between, longer, rest⟩ | ⟨between, longer, rest⟩
    · exact ⟨between, longer, rest⟩
    · -- The later place cannot lie in front of the other one.
      have none_between : between = [] := by
        rw [rest, List.length_append] at later
        exact List.eq_nil_of_length_eq_zero (by omega)
      subst none_between
      exact ⟨[], by simpa using longer.symm, by simpa using rest.symm⟩
  have moves : c.Moves between stop := ⟨rest, by rw [line', line, List.count_append, Nat.add_assoc]⟩
  rw [moves.upTo]
  exact moves

end Cursor

/-- From the place the reader reads a value and leaves the head at a later one, or it gives up. -/
inductive Comes {α : Type} (source : Text) (reader : Watched α) (c : Cursor) :
    Option (α × Cursor) → Prop where
  | read {value : α} {stop : Cursor} (run : reader (c.head source) = .ok value (stop.head source))
      (inside : stop.In source) (later : stop.rest.length ≤ c.rest.length) :
      Comes source reader c (some (value, stop))
  | unread {offset line : Nat}
      (run : reader (c.head source) = .error .unread ⟨source, offset, line⟩) :
      Comes source reader c none

abbrev Leads {α : Type} (source : Text) (reader : Watched α) (c : Cursor) (value : α)
    (stop : Cursor) : Prop :=
  Comes source reader c (some (value, stop))

abbrev Fails {α : Type} (source : Text) (reader : Watched α) (c : Cursor) : Prop :=
  Comes source reader c none

section

variable {α β : Type} {source : Text} {c middle stop : Cursor} {value : α} {reader : Watched α}
  {next : α → Watched β} {outcome : Option (β × Cursor)}

theorem Comes.bind (first : Leads source reader c value middle)
    (second : middle.In source → Comes source (next value) middle outcome) :
    Comes source (reader >>= next) c outcome := by
  cases first with
  | read run inside later =>
    have whole : (reader >>= next) (c.head source) = next value (middle.head source) := by
      simp only [Bind.bind, EStateM.bind, run]
    cases second inside with
    | read again held further => exact .read (whole.trans again) held (further.trans later)
    | unread again => exact .unread (whole.trans again)

theorem Comes.bindFails (fails : Fails source reader c) : Fails source (reader >>= next) c := by
  cases fails with
  | @unread offset line run =>
    have whole : (reader >>= next) (c.head source) = .error .unread ⟨source, offset, line⟩ := by
      simp only [Bind.bind, EStateM.bind, run]
    exact .unread whole

theorem Comes.inside (leads : Leads source reader c value stop) : stop.In source := by
  cases leads with
  | read _ inside _ => exact inside

theorem Comes.later (leads : Leads source reader c value stop) :
    stop.rest.length ≤ c.rest.length := by
  cases leads with
  | read _ _ later => exact later

end

namespace Watched

variable {α β σ : Type} {source text left after word : Text} {c middle stop : Cursor} {value : α}
  {outcome : Option (α × Cursor)}

theorem leads_pure (inside : c.In source) (value : α) : Leads source (pure value) c value c :=
  .read rfl inside (Nat.le_refl _)

theorem leads_get (inside : c.In source) : Leads source get c (c.head source) c :=
  .read rfl inside (Nat.le_refl _)

theorem fails_throw (source : Text) (c : Cursor) :
    Fails source (throw .unread : Watched α) c :=
  .unread rfl

/-! The moves of the head. -/

theorem offset_le (source : Text) (c : Cursor) : (c.head source).offset ≤ source.length :=
  Nat.sub_le _ _

theorem cut_ok_iff {start stop : Nat} {head head' : Head} :
    cut start stop head = .ok text head' ↔
      start ≤ stop ∧ stop ≤ head.source.length ∧ text = slice head.source start stop ∧ head' = head := by
  change (if stop < start then throw _ else if head.source.length < stop then throw _
    else pure _ : Watched Text) head = _ ↔ _
  by_cases forward : start ≤ stop
  · by_cases held : stop ≤ head.source.length
    · rw [if_neg (Nat.not_lt.2 forward), if_neg (Nat.not_lt.2 held)]
      change EStateM.Result.ok (slice head.source start stop) head = _ ↔ _
      simp only [forward, held, true_and, EStateM.Result.ok.injEq, eq_comm]
    · rw [if_neg (Nat.not_lt.2 forward), if_pos (Nat.not_le.1 held)]
      exact iff_of_false (fun run => by cases run) fun fine => absurd fine.2.1 held
  · rw [if_pos (Nat.not_le.1 forward)]
    exact iff_of_false (fun run => by cases run) fun fine => absurd fine.1 forward

theorem moveTo_ok_iff {offset line : Nat} {head head' : Head} :
    moveTo offset line head = .ok () head' ↔
      offset ≤ head.source.length ∧ line = 1 + (head.source.take offset).count '\n' ∧
        head' = ⟨head.source, offset, line⟩ := by
  change (if head.source.length < offset then throw _
    else if line ≠ 1 + (head.source.take offset).count '\n' then throw _
      else set _ : Watched Unit) head = _ ↔ _
  by_cases held : offset ≤ head.source.length
  · by_cases counted : line = 1 + (head.source.take offset).count '\n'
    · rw [if_neg (Nat.not_lt.2 held), if_neg (not_not.2 counted)]
      change EStateM.Result.ok () (Head.mk head.source offset line) = _ ↔ _
      simp only [held, counted, true_and, EStateM.Result.ok.injEq, eq_comm]
    · rw [if_neg (Nat.not_lt.2 held), if_pos counted]
      exact iff_of_false (fun run => by cases run) fun fine => absurd fine.2.1 counted
  · rw [if_pos (Nat.not_le.1 held)]
    exact iff_of_false (fun run => by cases run) fun fine => absurd fine.1 held

/-- What lies between two places is cut out wherever the head is. -/
theorem leads_cut (inside : c.In source) (moves : c.Moves text stop) (here : middle.In source) :
    Leads source (cut (c.head source).offset (stop.head source).offset) middle text middle := by
  obtain ⟨passed, whole, start, -⟩ := inside.split
  have ending := inside.offset_moves moves
  have stands : StandsAt source (c.head source).offset (1 + passed.count '\n') text :=
    ⟨passed, stop.rest, by rw [whole, moves.rest, List.append_assoc], start, rfl⟩
  have between : text = slice source (c.head source).offset (stop.head source).offset := by
    rw [ending, stands.slice_eq]
  exact .read (cut_ok_iff.2 ⟨by omega, offset_le source stop, between, rfl⟩) here (Nat.le_refl _)

theorem leads_distance (inside : c.In source) {start ending : Nat} (forward : start ≤ ending) :
    Leads source (distance start ending) c (ending - start) c := by
  rw [distance, if_neg (Nat.not_lt.2 forward)]
  exact leads_pure inside _

/-- A head that has come anywhere in the source is moved to the place. -/
theorem moveTo_run (inside : stop.In source) (offset line : Nat) :
    moveTo (stop.head source).offset stop.line ⟨source, offset, line⟩ = .ok () (stop.head source) := by
  obtain ⟨passed, whole, start, lines⟩ := inside.split
  have counted : stop.line = 1 + (source.take (stop.head source).offset).count '\n' := by
    rw [start, lines]
    conv_rhs => rw [whole]
    simp
  exact moveTo_ok_iff.2 ⟨offset_le source stop, counted, rfl⟩

theorem leads_advance (inside : c.In source) (moves : c.Moves text stop) :
    Leads source (advance text.length) c () stop := by
  have later := inside.moves moves
  have ending := inside.offset_moves moves
  refine (leads_get inside).bind fun inside => ?_
  have cut := leads_cut inside moves inside
  rw [ending] at cut
  refine cut.bind fun inside => .read ?_ later moves.later
  rw [← ending]
  have line : (c.head source).line + text.count '\n' = stop.line := moves.line.symm
  rw [line]
  exact moveTo_run later _ _

/-- What is unread at one place is cut out wherever the head is. -/
theorem leads_cut_rest (inside : c.In source) (here : middle.In source) :
    Leads source (cut (c.head source).offset source.length) middle c.rest middle := by
  have ahead : c.Moves c.rest ⟨c.line + c.rest.count '\n', []⟩ := ⟨by simp, rfl⟩
  exact leads_cut inside ahead here

theorem leads_unread (inside : c.In source) : Leads source unread c c.rest c :=
  (leads_get inside).bind fun inside => leads_cut_rest inside inside

theorem leads_peek (inside : c.In source) (word : Text) :
    Leads source (peek word) c (word.isPrefixOf c.rest) c :=
  (leads_unread inside).bind fun inside => leads_pure inside _

theorem leads_consume (inside : c.In source) (moves : c.Moves word stop) :
    Leads source (consume word) c true stop := by
  have stands : word.isPrefixOf c.rest = true := by
    rw [moves.rest]
    simp
  refine (leads_peek inside word).bind fun inside => ?_
  rw [stands]
  exact (leads_advance inside moves).bind fun inside => leads_pure inside _

theorem leads_consume_other (inside : c.In source) (other : ¬word <+: c.rest) :
    Leads source (consume word) c false c := by
  refine (leads_peek inside word).bind fun inside => ?_
  have absent : word.isPrefixOf c.rest = false := by
    rwa [← Bool.not_eq_true, List.isPrefixOf_iff_prefix]
  rw [absent]
  exact leads_pure inside _

theorem leads_skipBlank (inside : c.In source) : Leads source skipBlank c () c.skipBlank :=
  (leads_unread inside).bind fun inside => leads_advance inside c.moves_skipBlank

theorem leads_lineEnd (inside : c.In source) :
    Leads source lineEnd c (c.lineEnd.head source).offset c := by
  refine (leads_unread inside).bind fun inside => (leads_get inside).bind fun inside => ?_
  rw [inside.offset_moves c.moves_lineEnd]
  exact leads_pure inside _

theorem leads_advanceTo (inside : c.In source) (moves : c.Moves text stop) :
    Leads source (advanceTo (stop.head source).offset) c () stop := by
  have ending := inside.offset_moves moves
  refine (leads_get inside).bind fun inside => (leads_distance inside (by omega)).bind fun inside => ?_
  rw [ending, Nat.add_sub_cancel_left]
  exact leads_advance inside moves

theorem leads_toLineEnd (inside : c.In source) : Leads source toLineEnd c () c.lineEnd :=
  (leads_lineEnd inside).bind fun inside => leads_advanceTo inside c.moves_lineEnd

theorem moves_newline (more : c.below ≠ []) : c.lineEnd.Moves ['\n'] c.nextLine := by
  rcases c.last_or_faces with ⟨last, -⟩ | ⟨rest, below, -⟩
  · exact absurd last more
  · rw [Cursor.nextLine, below]
    exact ⟨below, rfl⟩

theorem leads_newline (inside : c.lineEnd.In source) : Leads source newline c.lineEnd () c.nextLine := by
  by_cases last : c.below = []
  · have ended : c.nextLine = c.lineEnd := by rw [Cursor.nextLine, Cursor.lineEnd, last]
    rw [ended]
    have none_left : ¬['\n'] <+: c.lineEnd.rest := by simp [Cursor.lineEnd, last]
    exact (leads_consume_other inside none_left).bind fun inside => leads_pure inside _
  · exact (leads_consume inside (moves_newline last)).bind fun inside => leads_pure inside _

/-! Nodes. -/

theorem leads_covered (inside : c.In source) (moves : c.Moves text stop) (kind : Kind)
    (children : List Node) :
    Leads source (covered kind (c.head source) children) stop
      (.branch kind c.line text children) stop :=
  (leads_get (inside.moves moves)).bind fun here =>
    (leads_cut inside moves here).bind fun here => leads_pure here _

theorem leads_trimmed (inside : c.In source) (moves : c.Moves text stop) (kind : Kind)
    (children : List Node) :
    Leads source (trimmed kind (c.head source) children) stop
      (.branch kind c.line (Text.trimEnd text) children) stop :=
  (leads_get (inside.moves moves)).bind fun here =>
    (leads_cut inside moves here).bind fun here => leads_pure here _

theorem leads_token? (inside : c.In source) (moves : c.Moves word stop) :
    Leads source (token? word) c (some (.token c.line word)) stop := by
  refine (leads_get inside).bind fun inside => (leads_consume inside moves).bind fun later => ?_
  exact (leads_get later).bind fun later =>
    (leads_cut inside moves later).bind fun later => leads_pure later _

theorem leads_token?_other (inside : c.In source) (other : ¬word <+: c.rest) :
    Leads source (token? word) c none c :=
  (leads_get inside).bind fun inside =>
    (leads_consume_other inside other).bind fun inside => leads_pure inside _

theorem leads_token (inside : c.In source) (moves : c.Moves word stop) :
    Leads source (token word) c (.token c.line word) stop :=
  (leads_token? inside moves).bind fun later => leads_pure later _

theorem fails_token (inside : c.In source) (other : ¬word <+: c.rest) :
    Fails source (token word) c :=
  (leads_token?_other inside other).bind fun _ => fails_throw source _

/-! Giving up, and going round. -/

theorem leads_orElse {first second : Watched α} (inside : c.In source)
    (read : Leads source first c value stop) : Leads source (orElse first second) c value stop := by
  refine (leads_get inside).bind fun inside => ?_
  cases read with
  | read run held later =>
    have taken : Leads source (attempt first) c (some value) stop :=
      .read (by rw [attempt, run]) held later
    exact taken.bind fun held => leads_pure held value

theorem comes_orElse {first second : Watched α} (inside : c.In source)
    (unread : Fails source first c) (other : Comes source second c outcome) :
    Comes source (orElse first second) c outcome := by
  cases unread with
  | @unread offset line run =>
    have whole : orElse first second (c.head source) = second (c.head source) := by
      have given : attempt first (c.head source) = .ok none ⟨source, offset, line⟩ := by
        rw [attempt, run]
      have back : moveTo (c.head source).offset (c.head source).line ⟨source, offset, line⟩ =
          .ok () (c.head source) := moveTo_run inside offset line
      change (attempt first >>= _) (c.head source) = _
      simp only [Bind.bind, EStateM.bind, given, back]
    cases other with
    | read run held later => exact .read (whole.trans run) held later
    | unread run => exact .unread (whole.trans run)

theorem comes_rounds_stop {round : σ → Watched (σ ⊕ α)} {state : σ} {limit : Nat} (enough : 0 < limit)
    (inside : c.In source)
    (last : Comes source (round state) c (outcome.map fun found => (.inr found.1, found.2))) :
    Comes source (rounds round limit state) c outcome := by
  obtain ⟨limit, rfl⟩ := Nat.exists_eq_succ_of_ne_zero (Nat.ne_zero_of_lt enough)
  refine (leads_get inside).bind fun inside => ?_
  cases outcome with
  | none => exact Comes.bindFails last
  | some found => exact Comes.bind last fun held => leads_pure held _

theorem comes_rounds_next {round : σ → Watched (σ ⊕ α)} {state next : σ} {limit : Nat}
    (enough : 0 < limit) (inside : c.In source) (turn : Leads source (round state) c (.inl next) middle)
    (further : middle.rest.length < c.rest.length)
    (rest : Comes source (rounds round (limit - 1) next) middle outcome) :
    Comes source (rounds round limit state) c outcome := by
  obtain ⟨limit, rfl⟩ := Nat.exists_eq_succ_of_ne_zero (Nat.ne_zero_of_lt enough)
  refine (leads_get inside).bind fun inside => turn.bind fun held => (leads_get held).bind fun held => ?_
  have moved : ¬(middle.head source).offset ≤ (c.head source).offset := by
    obtain ⟨passed, whole, -⟩ := inside.split
    have held : c.rest.length ≤ source.length := by simp [whole]
    simp only [Cursor.head]
    omega
  rw [if_neg moved]
  exact rest

-- A round that goes on without a move is not let pass.
example : loop (fun _ : Unit => (pure (.inl ()) : Watched (Unit ⊕ Unit))) () ⟨['a'], 0, 1⟩ =
    .error (.breach .stalled) ⟨['a'], 0, 1⟩ :=
  rfl

theorem comes_loop {round : σ → Watched (σ ⊕ α)} {state : σ} (inside : c.In source)
    (turns : Comes source (rounds round (c.rest.length + 1) state) c outcome) :
    Comes source (loop round state) c outcome :=
  (leads_unread inside).bind fun _ => turns

/-! On one line. What is unread of it is `left`, and below it there is nothing or a line feed. -/

/-- Of two places on one line the text between them leads from one to the other. -/
theorem within_split (inside : (c.within left).In source) (there : (c.within after).In source)
    (later : (c.within after).rest.length ≤ (c.within left).rest.length) :
    ∃ used, left = used ++ after ∧ '\n' ∉ used := by
  have moves := inside.reaches there later
  have split : left ++ c.below = (c.within left).upTo (c.within after) ++ after ++ c.below := by
    rw [List.append_assoc]
    exact moves.rest
  have same : c.line = c.line + ((c.within left).upTo (c.within after)).count '\n' := moves.line
  exact ⟨_, List.append_cancel_right split, List.count_eq_zero.1 (by omega)⟩

theorem head?_below (c : Cursor) : ∀ d ∈ c.below.head?, d = '\n' := by
  rcases c.last_or_faces with ⟨last, -⟩ | ⟨rest, below, -⟩
  · simp [last]
  · simp [below]

theorem newline_not_mem_used {used : Text} (inside : (c.within (used ++ left)).In source)
    (there : (c.within left).In source) : '\n' ∉ used := by
  obtain ⟨used', split, single⟩ := within_split inside there (by simp [Cursor.within])
  rwa [List.append_cancel_right split]

theorem newline_not_mem_left (inside : (c.within left).In source) (ending : c.lineEnd.In source) :
    '\n' ∉ left := by
  have unread : (c.within (left ++ [])).In source := by rwa [List.append_nil]
  exact newline_not_mem_used unread ending

theorem moves_within_append {used : Text} (single : '\n' ∉ used) (c : Cursor) (left : Text) :
    (c.within (used ++ left)).Moves used (c.within left) :=
  ⟨List.append_assoc _ _ _, by rw [List.count_eq_zero.2 single]; rfl⟩

theorem upTo_within (c : Cursor) (left after : Text) :
    (c.within left).upTo (c.within after) = Text.consumed left after :=
  Text.consumed_append_both left after c.below

/-- What was read of a line is covered. -/
theorem leads_covered_within (inside : (c.within left).In source) (there : (c.within after).In source)
    (later : after.length ≤ left.length) (kind : Kind) (children : List Node) :
    Leads source (covered kind ((c.within left).head source) children) (c.within after)
      (.branch kind c.line (Text.consumed left after) children) (c.within after) := by
  rw [← upTo_within c]
  exact leads_covered inside (inside.reaches there (by simpa [Cursor.within] using later)) kind children

theorem leads_trimmed_within (inside : (c.within left).In source) (there : (c.within after).In source)
    (later : after.length ≤ left.length) (kind : Kind) (children : List Node) :
    Leads source (trimmed kind ((c.within left).head source) children) (c.within after)
      (.branch kind c.line (Text.trimEnd (Text.consumed left after)) children) (c.within after) := by
  rw [← upTo_within c]
  exact leads_trimmed inside (inside.reaches there (by simpa [Cursor.within] using later)) kind children

theorem takeWhile_within {p : Char → Bool} (stops : p '\n' = false) (c : Cursor) (left : Text) :
    (c.within left).rest.takeWhile p = left.takeWhile p := by
  have ended : c.below.takeWhile p = [] := by
    cases found : c.below with
    | nil => rfl
    | cons d rest =>
      have newline : d = '\n' := head?_below c d (by rw [found]; rfl)
      rw [List.takeWhile_cons_of_neg (by simp [newline, stops])]
  rw [Cursor.within, List.takeWhile_append, ended]
  split
  · next whole => rw [List.append_nil, (List.takeWhile_sublist _).eq_of_length whole]
  · rfl

theorem leads_skipSpaces (inside : (c.within left).In source) :
    Leads source skipSpaces (c.within left) () (c.within (Text.skipSpaces left)) := by
  have split : left = left.takeWhile Text.isSpace ++ Text.skipSpaces left :=
    List.takeWhile_append_dropWhile.symm
  have single : '\n' ∉ left.takeWhile Text.isSpace := fun member =>
    absurd (List.mem_takeWhile_imp member) (by decide)
  refine (leads_unread inside).bind fun inside => ?_
  rw [takeWhile_within (by decide)]
  have moves := moves_within_append single c (Text.skipSpaces left)
  rw [← split] at moves
  exact leads_advance inside moves

theorem lineEnd_within (single : '\n' ∉ left) (c : Cursor) : (c.within left).lineEnd = c.lineEnd := by
  rw [Cursor.lineEnd, Cursor.lineEnd, (c.here_within single).2]
  rfl

theorem within_here (c : Cursor) : c.within c.here = c := by
  rw [Cursor.within, c.here_append_below]

theorem moves_within_lineEnd (single : '\n' ∉ left) (c : Cursor) : (c.within left).Moves left c.lineEnd := by
  have moves := moves_within_append single c []
  rwa [List.append_nil] at moves

theorem leads_lineEnd_within (inside : (c.within left).In source) (ending : c.lineEnd.In source) :
    Leads source lineEnd (c.within left) (c.lineEnd.head source).offset (c.within left) := by
  rw [← lineEnd_within (newline_not_mem_left inside ending)]
  exact leads_lineEnd inside

theorem leads_toLineEnd_within (inside : (c.within left).In source) (ending : c.lineEnd.In source) :
    Leads source toLineEnd (c.within left) () c.lineEnd := by
  rw [← lineEnd_within (newline_not_mem_left inside ending)]
  exact leads_toLineEnd inside

theorem leads_toNextLine_within (inside : (c.within left).In source) (ending : c.lineEnd.In source) :
    Leads source toNextLine (c.within left) () c.nextLine :=
  (leads_toLineEnd_within inside ending).bind fun inside => leads_newline inside

theorem prefix_within (single : '\n' ∉ word) (c : Cursor) (left : Text) :
    word <+: (c.within left).rest ↔ word <+: left := by
  refine ⟨fun stands => ?_, fun stands => stands.trans (List.prefix_append left c.below)⟩
  rcases List.prefix_or_prefix_of_prefix stands (List.prefix_append left c.below) with
    inside | ⟨more, rfl⟩
  · exact inside
  · -- A word that reaches beyond the line would hold the line feed there.
    have reach : more <+: c.below := (List.prefix_append_right_inj left).1 stands
    cases more with
    | nil => simp
    | cons d more =>
      obtain ⟨rest, below⟩ := reach
      have newline : d = '\n' := head?_below c d (by rw [← below]; rfl)
      exact absurd (by simp [newline]) single

theorem isPrefixOf_within (single : '\n' ∉ word) (c : Cursor) (left : Text) :
    word.isPrefixOf (c.within left).rest = word.isPrefixOf left := by
  rw [Bool.eq_iff_iff, List.isPrefixOf_iff_prefix, List.isPrefixOf_iff_prefix]
  exact prefix_within single c left

theorem leads_peek_within (single : '\n' ∉ word) (inside : (c.within left).In source) :
    Leads source (peek word) (c.within left) (word.isPrefixOf left) (c.within left) := by
  rw [← isPrefixOf_within single c left]
  exact leads_peek inside word

theorem after?_eq_none_iff : Text.after? word left = none ↔ ¬word <+: left := by
  constructor
  · rintro absent ⟨rest, rfl⟩
    rw [Text.after?_append] at absent
    cases absent
  · intro other
    by_contra present
    obtain ⟨rest, found⟩ := Option.ne_none_iff_exists'.1 present
    exact other ⟨rest, (Text.eq_append_of_after? found).symm⟩

/-- The word stands next on the line, or it does not. -/
theorem token?_split (single : '\n' ∉ word) (inside : (c.within left).In source) :
    (Text.after? word left = none ∧ Leads source (token? word) (c.within left) none (c.within left)) ∨
      ∃ behind, Text.after? word left = some behind ∧
        Leads source (token? word) (c.within left) (some (.token c.line word)) (c.within behind) := by
  cases found : Text.after? word left with
  | none =>
    refine .inl ⟨rfl, leads_token?_other inside ?_⟩
    rw [prefix_within single]
    exact after?_eq_none_iff.1 found
  | some behind =>
    refine .inr ⟨behind, rfl, ?_⟩
    rw [Text.eq_append_of_after? found] at inside ⊢
    exact leads_token? inside (moves_within_append single c behind)

theorem comes_named_within (kind : Kind) (inside : (c.within left).In source) :
    Comes source (named kind) (c.within left)
      ((Text.name? left).map fun found => (.leaf kind c.line found.1, c.within found.2)) := by
  refine (leads_get inside).bind fun inside => (leads_unread inside).bind fun inside => ?_
  have same := Text.name?_append_word c.below_stops left
  cases found : Text.name? left with
  | none =>
    have none_left : Text.name? (c.within left).rest = none := by
      rw [found] at same
      simpa [Cursor.within] using same
    rw [none_left]
    exact fails_throw source _
  | some word =>
    obtain ⟨name, behind⟩ := word
    obtain ⟨rest, read⟩ : ∃ rest, Text.name? (c.within left).rest = some (name, rest) := by
      rw [found] at same
      simpa [Cursor.within] using same
    have split := Text.name?_eq_append found
    have single := newline_not_mem_name (Text.isName_of_name? found)
    have moves := moves_within_append single c behind
    rw [← split] at moves
    rw [read]
    exact (leads_advance inside moves).bind fun held => leads_covered inside moves kind []

theorem leads_atLineEnd (single : '\n' ∉ left) (inside : (c.within left).In source) :
    Leads source atLineEnd (c.within left) (Source.atLineEnd left)
      (c.within (Text.skipSpaces left)) := by
  have later : '\n' ∉ Text.skipSpaces left := fun member => single (Text.mem_of_mem_skipSpaces member)
  refine (leads_skipSpaces inside).bind fun inside => (leads_unread inside).bind fun inside => ?_
  unfold Source.atLineEnd
  cases found : Text.skipSpaces left with
  | nil =>
    rw [found] at inside
    cases below : c.below with
    | nil =>
      rw [if_pos (by simp [Cursor.within, below])]
      exact leads_pure inside true
    | cons d rest =>
      have newline : d = '\n' := head?_below c d (by rw [below]; rfl)
      rw [if_neg (by simp [Cursor.within, below])]
      refine (leads_peek inside _).bind fun inside => ?_
      rw [if_pos (by simp [Cursor.within, below, newline])]
      exact leads_pure inside true
  | cons d rest =>
    rw [found] at inside later
    have solid : d ≠ '\n' := fun same => later (by simp [same])
    rw [if_neg (by simp [Cursor.within])]
    refine (leads_peek inside _).bind fun inside => ?_
    rw [if_neg (by simpa [Cursor.within] using solid.symm)]
    have marked : ['#'].isPrefixOf (d :: rest) = (d == '#') := by
      simp [List.isPrefixOf, Bool.beq_comm]
    have peeked := leads_peek_within (show '\n' ∉ ['#'] by decide) inside
    rw [marked] at peeked
    exact peeked

end Watched

end BmakeZig.Source
