import BmakeZig.Proofs.Path
import BmakeZig.Units.FileTree

/-! Where paths lead. A path is walked from a place in a tree of folders and files, and its normal form
leads to the place that the path leads to. A normal form may lead further: it leaves out the names
that are undone again, which the tree need not have. -/
namespace BmakeZig

/-- Folders and files without links. Each place lies in one folder, and the root in itself. -/
structure Terrain (Place : Type*) where
  root : Place
  /-- The folder that a place lies in. There is no way up from a file. -/
  above? : Place → Option Place
  below? : Place → Text → Option Place
  above_root : above? root = some root
  above_below {folder place : Place} {name : Text} :
    below? folder name = some place → ∀ up ∈ above? place, up = folder

namespace Terrain

variable {Place : Type*} (terrain : Terrain Place) {start here place found : Place} {path : Path}
  {steps taken : List Path.Step} {step : Path.Step}

/-- Where one step leads. -/
def next? (place : Place) : Path.Step → Option Place
  | .up => terrain.above? place
  | .name name => terrain.below? place name

/-- The place that a path leads to, from the root or from `start`. -/
def walk (start : Place) (path : Path) : Option Place :=
  path.steps.foldlM terrain.next? (if path.absolute then terrain.root else start)

/-- Every name leads on, and there is a way up from everywhere. -/
structure Full : Prop where
  above : ∀ place, (terrain.above? place).isSome
  below : ∀ place name, (terrain.below? place name).isSome

variable {terrain}

/-- One more step leads on, also where it undoes the one before it. -/
theorem walk_fold (led : taken.reverse.foldlM terrain.next? start = some here)
    (next : terrain.next? here step = some place) :
    (Path.fold taken step).reverse.foldlM terrain.next? start = some place := by
  have whole : (step :: taken).reverse.foldlM terrain.next? start = some place := by
    rw [List.reverse_cons, List.foldlM_append, led]
    simpa using next
  cases step with
  | name text =>
    cases taken with
    | nil => exact whole
    | cons last rest => cases last <;> exact whole
  | up =>
    cases taken with
    | nil => exact whole
    | cons last rest =>
      cases last with
      | up => exact whole
      | name text =>
        rw [List.reverse_cons, List.foldlM_append] at led
        obtain ⟨folder, before, entered⟩ := Option.bind_eq_some_iff.1 led
        have below : terrain.below? folder text = some here := by simpa [next?] using entered
        have back : place = folder := terrain.above_below below place next
        rw [back]
        exact before

theorem walk_foldl (led : taken.reverse.foldlM terrain.next? start = some here)
    (onward : steps.foldlM terrain.next? here = some found) :
    (steps.foldl Path.fold taken).reverse.foldlM terrain.next? start = some found := by
  induction steps generalizing taken here with
  | nil =>
    obtain rfl : here = found := by simpa using onward
    exact led
  | cons step steps ih =>
    rw [List.foldlM_cons] at onward
    obtain ⟨place, next, rest⟩ := Option.bind_eq_some_iff.1 onward
    exact ih (walk_fold led next) rest

theorem walk_normalize (led : terrain.walk start path = some found) :
    terrain.walk start path.normalize = some found := by
  have still (place : Place) :
      ([] : List Path.Step).reverse.foldlM terrain.next? place = some place := rfl
  exact walk_foldl (still _) led

theorem Full.next (full : terrain.Full) (place : Place) (step : Path.Step) :
    (terrain.next? place step).isSome := by
  cases step with
  | up => exact full.above place
  | name text => exact full.below place text

/-- Where nothing is missing every path leads somewhere. -/
theorem Full.walk (full : terrain.Full) (start : Place) (path : Path) :
    (terrain.walk start path).isSome := by
  unfold Terrain.walk
  generalize (if path.absolute then terrain.root else start) = place
  induction path.steps generalizing place with
  | nil => rfl
  | cons step steps ih =>
    obtain ⟨next, taken⟩ := Option.isSome_iff_exists.1 (full.next place step)
    rw [List.foldlM_cons, taken]
    exact ih next

/-- The tree of all names, in which a place is the names that lead to it, the last one first. -/
def everywhere : Terrain (List Text) where
  root := []
  above? place := some place.tail
  below? place name := some (name :: place)
  above_root := rfl
  above_below := by
    rintro folder place name entered up above
    cases entered
    exact (Option.some.inj above).symm

theorem full_everywhere : everywhere.Full :=
  ⟨fun _ => rfl, fun _ _ => rfl⟩

end Terrain

/-- The tree that a loader of files reads: its entries, each with the folders that lead to it. -/
def FileTree.terrain (tree : FileTree) : Terrain (Entry × List Entry) where
  root := (.folder tree.root, [])
  above? place := (step place .up).toOption
  below? place name := (step place (.name name)).toOption
  above_root := rfl
  above_below := by
    rintro ⟨folder, above⟩ ⟨entry, folders⟩ name entered ⟨up, higher⟩ left
    cases folder with
    | file text => cases entered
    | folder entries =>
      simp only [step] at entered
      split at entered
      · cases entered
      · split at entered
        · cases entered
        · cases entered
          cases entry with
          | file text => cases left
          | folder inner =>
            obtain ⟨rfl, rfl⟩ := Prod.mk.inj (Option.some.inj left)
            rfl

namespace Path

/-- Steps up first and names behind them. -/
theorem tidy_split {taken : List Step} (tidy : Tidy taken) :
    ∃ (ups : Nat) (names : List Text),
      taken.reverse = List.replicate ups .up ++ names.map .name := by
  induction taken with
  | nil => exact ⟨0, [], rfl⟩
  | cons step rest ih =>
    obtain ⟨ups, names, split⟩ := ih tidy.2
    rw [List.reverse_cons, split]
    cases step with
    | name text => exact ⟨ups, names ++ [text], by simp⟩
    | up =>
      -- No name stands below a step up, so there are none.
      have bare : names = [] := by
        cases names using List.reverseRecOn with
        | nil => rfl
        | append_singleton names last =>
          have below : rest.head? = some (.name last) := by
            rw [← List.reverse_reverse rest, split]
            simp
          cases tidy.1 rfl _ below
      exact ⟨ups + 1, [], by simp [bare, List.replicate_succ']⟩

theorem normalize_join (folder path : Path) :
    (folder.normalize.join path).normalize = (folder.join path).normalize := by
  have again := foldl_reverse_of_tidy (@tidy_foldl folder.steps [] trivial)
  unfold join
  split
  · rfl
  · simp only [normalize, List.foldl_append, again]

theorem normal_steps (text : Text) :
    ∃ (ups : Nat) (names : List Text),
      (ofText text).normalize.steps = List.replicate ups .up ++ names.map .name ∧
        ∀ name ∈ names, name ≠ [] ∧ name ≠ ['.'] ∧ name ≠ ['.', '.'] ∧ '/' ∉ name := by
  obtain ⟨ups, names, split⟩ := tidy_split (@tidy_foldl (ofText text).steps [] trivial)
  refine ⟨ups, names, split, fun name member => ?_⟩
  have inside : Step.name name ∈ (ofText text).normalize.steps := by
    rw [normalize, split]
    exact List.mem_append_right _ (List.mem_map_of_mem member)
  exact (proper_ofText text).normalize _ inside

/-- The normal form of a path is written as at most the root, then steps up, then names; it is its own
normal form, and that of the path as seen from any folder is found from the folder's normal form. It
leads from everywhere to the place that the path leads to, if the path leads to one; and where
nothing is missing it does. -/
theorem normalForm_leads {Place : Type*} (terrain : Terrain Place) (start : Place)
    (folder text : Text) :
    let path := ofText text
    let normal := path.normalize
    (normal.absolute = path.absolute ∧ ofText normal.toText = normal ∧
      ∃ (ups : Nat) (names : List Text),
        normal.steps = List.replicate ups .up ++ names.map .name ∧
          ∀ name ∈ names, name ≠ [] ∧ name ≠ ['.'] ∧ name ≠ ['.', '.'] ∧ '/' ∉ name) ∧
    normal.normalize = normal ∧
    (∀ found, terrain.walk start path = some found → terrain.walk start normal = some found) ∧
    (terrain.Full →
      ∃ found, terrain.walk start path = some found ∧ terrain.walk start normal = some found) ∧
    ((ofText folder).join path).normalize = ((ofText folder).normalize.join path).normalize := by
  intro path normal
  refine ⟨⟨rfl, ?_, normal_steps text⟩, normalize_normalize path, ?_, fun full => ?_, ?_⟩
  · exact ofText_toText (proper_ofText text).normalize
  · exact fun found => Terrain.walk_normalize
  · obtain ⟨found, led⟩ := Option.isSome_iff_exists.1 (full.walk start path)
    exact ⟨found, led, Terrain.walk_normalize led⟩
  · exact (normalize_join (ofText folder) path).symm

def toolTree : FileTree where
  root := [("proj".toList, .folder [("defs".toList, .folder []), ("main".toList, .file [])])]

def toolFolder : Entry × List Entry :=
  (.folder [("defs".toList, .folder []), ("main".toList, .file [])], [.folder toolTree.root])

theorem detour_leads :
    toolTree.terrain.walk toolFolder (ofText "defs/.././main".toList) =
        some (.file [], [toolFolder.1, .folder toolTree.root]) ∧
      toolTree.terrain.walk toolFolder (ofText "defs/.././main".toList).normalize =
        some (.file [], [toolFolder.1, .folder toolTree.root]) ∧
      Terrain.everywhere.Full ∧
      ∃ found, Terrain.everywhere.walk [] (ofText "/../a/./b//..".toList) = some found ∧
        Terrain.everywhere.walk [] (ofText "/../a/./b//..".toList).normalize = some found := by
  have led : toolTree.terrain.walk toolFolder (ofText "defs/.././main".toList) =
      some (.file [], [toolFolder.1, .folder toolTree.root]) := by rfl
  have near := normalForm_leads toolTree.terrain toolFolder [] "defs/.././main".toList
  have wide := normalForm_leads Terrain.everywhere [] [] "/../a/./b//..".toList
  exact ⟨led, near.2.2.1 _ led, Terrain.full_everywhere, wide.2.2.2.1 Terrain.full_everywhere⟩

/-- A name that the tree lacks may stand before a step up: the path leads nowhere then, and its normal
form leaves the name out. -/
example : toolTree.terrain.walk toolFolder (ofText "lib/../main".toList) = none ∧
    (toolTree.terrain.walk toolFolder (ofText "lib/../main".toList).normalize).isSome :=
  ⟨rfl, rfl⟩

end Path

end BmakeZig
