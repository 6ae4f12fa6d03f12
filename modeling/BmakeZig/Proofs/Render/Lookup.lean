import BmakeZig.Proofs.Path
import BmakeZig.Proofs.Render.Change
import BmakeZig.Units.Library

/-! Where a unit is found. The places that come up for a path may coincide, and each is looked at once
only; the unit found is nevertheless the first readable one among all of them, and a search in vain
names each of them once. -/
namespace BmakeZig

/-! Places looked at once. -/

namespace Path

variable {path : Path} {paths : List Path}

theorem mem_distinct : path ∈ distinct paths ↔ path ∈ paths := by
  refine ⟨mem_of_mem_distinct, fun member => ?_⟩
  induction paths with
  | nil => exact member
  | cons first rest ih =>
    by_cases same : path = first
    · exact same ▸ List.mem_cons_self
    · have later := ih ((List.mem_cons.1 member).resolve_left same)
      exact List.mem_cons_of_mem _ (List.mem_filter.2 ⟨later, by simpa using same⟩)

/-- Paths stay in the order in which they come up first. -/
theorem pairwise_distinct (paths : List Path) :
    (distinct paths).Pairwise fun left right => paths.idxOf left < paths.idxOf right := by
  induction paths with
  | nil => exact .nil
  | cons first rest ih =>
    refine List.pairwise_cons.2 ⟨fun path member => ?_, ?_⟩
    · have other : path ≠ first := by simpa using (List.mem_filter.1 member).2
      rw [List.idxOf_cons_self, List.idxOf_cons_ne _ other.symm]
      exact Nat.succ_pos _
    · refine (ih.filter _).imp_of_mem fun {left right} before behind order => ?_
      have left_other : left ≠ first := by simpa using (List.mem_filter.1 before).2
      have right_other : right ≠ first := by simpa using (List.mem_filter.1 behind).2
      rw [List.idxOf_cons_ne _ left_other.symm, List.idxOf_cons_ne _ right_other.symm]
      exact Nat.succ_lt_succ order

end Path

/-! Looking at one place after the other. -/

/-- There is no text of a unit at the place. -/
def Unreadable (load : Loader) (place : Path) : Prop :=
  ∃ fault, load place.toText = .error fault

/-- What there is at a place. -/
def unit? (load : Loader) (place : Path) : Option (Path × Text) :=
  (load place.toText).toOption.map (place, ·)

variable {load : Loader} {places : List Path} {place : Path} {source : Text}

theorem unit?_eq_some_iff {unit : Path × Text} :
    unit? load place = some unit ↔ place = unit.1 ∧ load unit.1.toText = .ok unit.2 := by
  obtain ⟨other, source⟩ := unit
  unfold unit?
  cases read : load place.toText with
  | error fault =>
    refine ⟨nofun, ?_⟩
    rintro ⟨rfl, found⟩
    cases read.symm.trans found
  | ok text =>
    simp only [Except.toOption, Option.map_some, Option.some.injEq, Prod.mk.injEq]
    refine and_congr_right ?_
    rintro rfl
    rw [read, Except.ok.injEq]

theorem unit?_eq_none_iff : unit? load place = none ↔ Unreadable load place := by
  unfold unit? Unreadable
  cases load place.toText <;> simp [Except.toOption]

theorem found_eq_findSome? (load : Loader) (places : List Path) :
    (locate load places).found = places.findSome? (unit? load) := by
  induction places with
  | nil => rfl
  | cons first rest ih =>
    rw [locate, List.findSome?_cons, unit?]
    cases load first.toText with
    | error fault => exact ih
    | ok source => rfl

/-- Each place is looked at once, and the place found is the first among all of them. -/
theorem found_distinct (load : Loader) (places : List Path) :
    (locate load (Path.distinct places)).found = (locate load places).found := by
  simp only [found_eq_findSome?]
  induction places with
  | nil => rfl
  | cons first rest ih =>
    rw [Path.distinct, List.findSome?_cons, List.findSome?_cons]
    cases read : unit? load first with
    | some unit => rfl
    | none =>
      -- What is left out later is the same place, which cannot be read.
      change (List.filter _ _).findSome? _ = _
      rw [← ih, ← List.head?_filterMap, ← List.head?_filterMap, List.filterMap_filter]
      refine congrArg List.head? (List.filterMap_congr fun place _ => ?_)
      by_cases same : place = first
      · simp [same, read]
      · simp [same]

/-- A search in vain has one failure for each place. -/
theorem failures_of_unreadable (unreadable : ∀ place ∈ places, Unreadable load place) :
    (locate load places).failures.map (·.1) = places ∧
      ∀ failure ∈ (locate load places).failures, load failure.1.toText = .error failure.2 := by
  induction places with
  | nil => simp [locate]
  | cons first rest ih =>
    obtain ⟨fault, failed⟩ := unreadable first List.mem_cons_self
    obtain ⟨named, reasons⟩ := ih fun place member => unreadable place (List.mem_cons_of_mem _ member)
    have run : locate load (first :: rest) =
        ⟨(first, fault) :: (locate load rest).failures, (locate load rest).found⟩ := by
      rw [locate, failed]
    rw [run]
    refine ⟨by simp [named], fun failure member => ?_⟩
    rcases List.mem_cons.1 member with rfl | later
    · exact failed
    · exact reasons failure later

namespace Context

variable (context : Context) (searchDirs : List Path)

/-- The unit that does the including: the innermost one, or else the one the pass started with. -/
def including : Option Path :=
  match context.stack with
  | inner :: _ => some inner
  | [] => context.root

/-- The folders that a relative path is looked for in, in order. -/
def folders : List Path :=
  (context.including.bind Path.parent?).toList ++ searchDirs ++
    context.settings.includeDirs.map Path.ofText

theorem folder?_eq : context.folder? = context.including.bind Path.parent? := by
  unfold folder? including
  cases context.stack <;> rfl

theorem places_absolute {requested : Path} (absolute : requested.absolute = true) :
    context.places searchDirs requested = [requested.normalize] := by
  rw [places, if_pos absolute]

theorem places_relative {requested : Path} (relative : requested.absolute = false) :
    context.places searchDirs requested =
      (context.folders searchDirs).map (fun folder => (folder.join requested).normalize) ++
        [requested.normalize] := by
  rw [places, if_neg (by simp [relative]), folder?_eq]
  rfl

end Context

namespace Render

variable {context : Context} {requested : Text} {pass : Pass}

/-- What becomes of the search depends on the place found among all of them, doubled ones included. -/
theorem findUnit_all (context : Context) (requested : Text) (pass : Pass) :
    ∃ notes, findUnit context requested pass =
      match (locate context.load
        (context.places pass.searchDirs (Path.ofText requested))).found with
      | some found => .ok found { pass with notes }
      | none =>
        .error (.unitNotFound requested
          (locate context.load (searched context pass.searchDirs requested)).reason)
          { pass with notes } := by
  obtain ⟨notes, run⟩ := findUnit_eq context requested pass
  rw [searched, found_distinct] at run
  exact ⟨notes, run⟩

theorem findUnit_ok_iff {unit : Path × Text} :
    (∃ notes, findUnit context requested pass = .ok unit { pass with notes }) ↔
      (locate context.load (context.places pass.searchDirs (Path.ofText requested))).found =
        some unit := by
  obtain ⟨notes, run⟩ := findUnit_all context requested pass
  rw [run]
  cases (locate context.load (context.places pass.searchDirs (Path.ofText requested))).found with
  | none => simp
  | some found => simp

theorem findUnit_error_iff :
    (∃ reason notes,
      findUnit context requested pass = .error (.unitNotFound requested reason) { pass with notes }) ↔
      (locate context.load (context.places pass.searchDirs (Path.ofText requested))).found = none := by
  obtain ⟨notes, run⟩ := findUnit_all context requested pass
  rw [run]
  cases (locate context.load (context.places pass.searchDirs (Path.ofText requested))).found with
  | none => simp
  | some found => simp

end Render

/-- Each of the places once, in the order in which they first come up, with the reason why it cannot be
read. -/
structure Tried (load : Loader) (places : List Path) (failures : List (Path × LoadFault)) : Prop where
  named : ∀ place, place ∈ failures.map (·.1) ↔ place ∈ places
  ordered : (failures.map (·.1)).Pairwise fun left right =>
    places.idxOf left < places.idxOf right
  reasons : ∀ failure ∈ failures, load failure.1.toText = .error failure.2

theorem tried_distinct (unreadable : ∀ place ∈ places, Unreadable load place) :
    Tried load places (locate load (Path.distinct places)).failures := by
  obtain ⟨named, reasons⟩ := failures_of_unreadable fun place member =>
    unreadable place (Path.mem_of_mem_distinct member)
  refine ⟨fun place => ?_, ?_, reasons⟩
  · rw [named, Path.mem_distinct]
  · rw [named]
    exact Path.pairwise_distinct places

/-- A path that starts at the root is looked for there only, and any other in the folder of the
including unit, in the searched folders, in those of the settings and as it stands. The unit found is
the first of these that can be read. There is none exactly when none can be read, and the fault then
names each place once. -/
theorem Render.unit_found_first (context : Context) (requested : Text) (pass : Pass) :
    let path := Path.ofText requested
    let all := context.places pass.searchDirs path
    (path.absolute = true → all = [path.normalize]) ∧
    (path.absolute = false →
      all = (context.folders pass.searchDirs).map (fun folder => (folder.join path).normalize) ++
        [path.normalize]) ∧
    (∀ place source,
      (∃ notes, findUnit context requested pass = .ok (place, source) { pass with notes }) ↔
        (∃ before after, all = before ++ place :: after ∧
          ∀ other ∈ before, Unreadable context.load other) ∧
        context.load place.toText = .ok source) ∧
    ((∃ reason notes, findUnit context requested pass =
        .error (.unitNotFound requested reason) { pass with notes }) ↔
      ∀ place ∈ all, Unreadable context.load place) ∧
    (∀ fault after, findUnit context requested pass = .error fault after →
      ∃ failures, Tried context.load all failures ∧
        fault = .unitNotFound requested (Text.joinWith "; ".toList
          (failures.map fun failure =>
            failure.1.toText ++ ": ".toList ++ failure.2.message))) := by
  intro path all
  refine ⟨context.places_absolute pass.searchDirs, context.places_relative pass.searchDirs,
    fun place source => ?_, ?_, fun fault after failed => ?_⟩
  · rw [findUnit_ok_iff, found_eq_findSome?, List.findSome?_eq_some_iff]
    simp only [unit?_eq_some_iff, unit?_eq_none_iff]
    constructor
    · rintro ⟨before, found, after, split, ⟨rfl, read⟩, passed⟩
      exact ⟨⟨before, after, split, passed⟩, read⟩
    · rintro ⟨⟨before, after, split, passed⟩, read⟩
      exact ⟨before, place, after, split, ⟨rfl, read⟩, passed⟩
  · rw [findUnit_error_iff, found_eq_findSome?, List.findSome?_eq_none_iff]
    simp only [unit?_eq_none_iff]
    rfl
  · obtain ⟨notes, run⟩ := findUnit_all context requested pass
    rw [failed] at run
    cases found : (locate context.load all).found with
    | some unit =>
      rw [found] at run
      cases run
    | none =>
      rw [found] at run
      cases run
      rw [found_eq_findSome?, List.findSome?_eq_none_iff] at found
      exact ⟨_, tried_distinct fun place member => unit?_eq_none_iff.1 (found place member), rfl⟩

/-! A unit that lies beside its folder, which three of the places looked at are. -/

namespace Context

def beside : Context :=
  { parse := fun text => .leaf .sourceFile 1 text
    load := Library.load (Library.ofFiles [("common".toList, "X = 1".toList)])
    root := some (Path.ofText "proj/main".toList)
    settings := { includeDirs := ["/opt".toList, "proj".toList] } }

def besidePass : Pass :=
  { searchDirs := [Path.ofText "shared".toList] }

end Context

theorem Render.upward_found_first :
    (Path.ofText "../common".toList).absolute = false ∧
    Context.beside.places Context.besidePass.searchDirs (Path.ofText "../common".toList) =
      ["common", "common", "/common", "common", "../common"].map (Path.ofText ·.toList) ∧
    (∃ notes, findUnit Context.beside "../common".toList Context.besidePass =
      .ok (Path.ofText "common".toList, "X = 1".toList) { Context.besidePass with notes }) ∧
    (Path.ofText "/lib/./x".toList).absolute = true ∧
    Context.beside.places Context.besidePass.searchDirs (Path.ofText "/lib/./x".toList) =
      [Path.ofText "/lib/x".toList] ∧
    ∃ fault after failures,
      findUnit Context.beside "x".toList Context.besidePass = .error fault after ∧
      Tried Context.beside.load
        (Context.beside.places Context.besidePass.searchDirs (Path.ofText "x".toList)) failures := by
  have relative : (Path.ofText "../common".toList).absolute = false := by decide
  have absolute : (Path.ofText "/lib/./x".toList).absolute = true := by decide
  obtain ⟨-, upward, found, -⟩ := unit_found_first Context.beside "../common".toList Context.besidePass
  obtain ⟨rooted, -⟩ := unit_found_first Context.beside "/lib/./x".toList Context.besidePass
  obtain ⟨-, -, -, vain, missed⟩ := unit_found_first Context.beside "x".toList Context.besidePass
  have all := upward relative
  refine ⟨relative, all.trans (by decide), ?_, absolute, (rooted absolute).trans (by decide), ?_⟩
  · exact (found (Path.ofText "common".toList) "X = 1".toList).2 ⟨⟨[], _, all, by simp⟩, rfl⟩
  · have missing : ∀ place ∈ Context.beside.places Context.besidePass.searchDirs
        (Path.ofText "x".toList), unit? Context.beside.load place = none := by decide
    obtain ⟨reason, notes, failed⟩ :=
      vain.2 fun place member => unit?_eq_none_iff.1 (missing place member)
    obtain ⟨failures, tried, -⟩ := missed _ _ failed
    exact ⟨_, _, failures, failed, tried⟩

end BmakeZig
