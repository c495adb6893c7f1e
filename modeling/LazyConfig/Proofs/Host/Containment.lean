-- Paths below a directory. Whether a path is refused can be told from the pieces between its
-- slashes, and one that is not refused never leads out of the directory, whichever of its pieces
-- have been followed.
-- Main statement: which paths are refused, and where the others lead.
import LazyConfig.Host.Storage
import Mathlib.Data.List.Infix

namespace LazyConfig.Storage

/-- The pieces of a path between its slashes. -/
def pieces (path : String) : List (List Char) := path.toList.splitOn '/'

/-! ## Places -/

/-- A directory or a file of a file system: the names that lead to it from the top. -/
abbrev Place := List (List Char)

/-- Where one piece of a path leads. No piece and a single dot stay in place, and two dots go up;
above the top there is nothing. -/
def Place.step (place : Place) (piece : List Char) : Place :=
  if piece = [] ∨ piece = ['.'] then place
  else if piece = ['.', '.'] then place.dropLast
  else place ++ [piece]

/-- Where the pieces of a path lead. -/
def Place.follow (place : Place) (pieces : List (List Char)) : Place :=
  pieces.foldl Place.step place

namespace Place

variable {place : Place} {piece : List Char} {front more : List (List Char)}

theorem follow_append : place.follow (front ++ more) = (place.follow front).follow more :=
  List.foldl_append

theorem follow_cons : place.follow (piece :: more) = (place.step piece).follow more := rfl

theorem prefix_step (h : piece ≠ ['.', '.']) : place <+: place.step piece := by
  unfold step
  split
  · exact List.prefix_refl place
  · exact List.prefix_append place [piece]

/-- Without two dots every place on the way is inside the first one. -/
theorem prefix_follow (h : ['.', '.'] ∉ front) : place <+: place.follow front := by
  induction front generalizing place with
  | nil => exact List.prefix_refl place
  | cons piece front ih =>
    rw [List.mem_cons, not_or] at h
    exact (prefix_step (Ne.symm h.1)).trans (ih h.2)

end Place

/-! ## Components and pieces -/

theorem staysInside_component? {piece : List Char} :
    (component? piece).toList.all Component.staysInside = true ↔ piece ≠ ['.', '.'] := by
  unfold component?
  split
  · next h => rcases h with rfl | rfl <;> decide
  · split
    · next h => simp [h, Component.staysInside]
    · next h => simp [h, Component.staysInside]

theorem modifyHead_nil_append (all : List (List Char)) : all.modifyHead ([] ++ ·) = all := by
  cases all <;> rfl

/-- All components behind the front stay inside exactly if no piece goes up. -/
theorem staysInside_componentsFrom (piece cs : List Char) :
    (componentsFrom piece cs).all Component.staysInside = true ↔
      ['.', '.'] ∉ (cs.splitOn '/').modifyHead (piece ++ ·) := by
  induction cs generalizing piece with
  | nil =>
    rw [componentsFrom, staysInside_component?]
    simp [eq_comm]
  | cons c cs ih =>
    rw [componentsFrom, List.splitOn_cons_eq_if_modifyHead]
    by_cases hc : c = '/'
    · rw [if_pos hc, if_pos (beq_iff_eq.mpr hc), List.all_append, Bool.and_eq_true, ih,
        staysInside_component?, modifyHead_nil_append]
      simp [eq_comm]
    · rw [if_neg hc, if_neg (by simpa using hc), ih, List.modifyHead_modifyHead]
      simp [Function.comp_def]

theorem staysInside_components {path : String} :
    (components path).all Component.staysInside = true ↔
      path.toList.head? ≠ some '/' ∧ ['.', '.'] ∉ pieces path := by
  have hbehind : ∀ cs, (componentsFrom [] cs).all Component.staysInside = true ↔
      ['.', '.'] ∉ cs.splitOn '/' := fun cs => by
    rw [staysInside_componentsFrom, modifyHead_nil_append]
  unfold components pieces
  split
  · next cs h => simp [h, Component.staysInside]
  · next h => simp [h, Component.staysInside, List.splitOn_cons_eq_if_modifyHead]
  · next cs h =>
    rw [List.all_cons, Bool.and_eq_true, hbehind, h]
    simp [Component.staysInside, List.splitOn_cons_eq_if_modifyHead]
  · next htop _ _ =>
    have hhead : path.toList.head? ≠ some '/' := fun h => by
      obtain ⟨cs, hcs⟩ := List.head?_eq_some_iff.mp h
      exact htop cs hcs
    rw [hbehind]
    exact ⟨fun h => ⟨hhead, h⟩, And.right⟩

/-! ## What is read -/

variable {root path : String} {files : String → Except ReadFault Bytes}

theorem readBytes_below_eq_invalidPath :
    (below root files).readBytes path = .error (.invalidPath path) ↔
      path = "" ∨ path.toList.head? = some '/' ∨ ['.', '.'] ∈ pieces path := by
  have hcomponents : (components path).all Component.staysInside = false ↔
      path.toList.head? = some '/' ∨ ['.', '.'] ∈ pieces path := by
    rw [← Bool.not_eq_true, staysInside_components]
    tauto
  rw [← hcomponents]
  simp only [below]
  cases hresolve : resolve root path with
  | error e =>
    obtain ⟨hrefused, rfl⟩ := resolve_eq_error.mp hresolve
    exact iff_of_true rfl hrefused
  | ok full =>
    refine iff_of_false ?_ fun hrefused => ?_
    · show (files full).mapError (·.toError path) ≠ .error (.invalidPath path)
      rcases files full with (_ | message) | bytes <;> exact nofun
    · rw [resolve_eq_error.mpr ⟨hrefused, rfl⟩] at hresolve
      cases hresolve

/-- What is not refused is looked up behind the path of the directory. -/
theorem readBytes_below_of_ne
    (h : (below root files).readBytes path ≠ .error (.invalidPath path)) :
    (below root files).readBytes path =
      match files (join root path) with
      | .ok bytes => .ok bytes
      | .error .missing => .error (.notFound path)
      | .error (.other message) => .error (.io path message) := by
  simp only [below] at h ⊢
  cases hresolve : resolve root path with
  | error e =>
    rw [hresolve, (resolve_eq_error.mp hresolve).2] at h
    exact absurd rfl h
  | ok full =>
    unfold resolve at hresolve
    split at hresolve
    · cases hresolve
    · cases hresolve
      show (files (join root path)).mapError (·.toError path) = _
      rcases files (join root path) with (_ | message) | bytes <;> rfl

/-- A path that is joined to another is followed from where the other leads. -/
theorem follow_join (place : Place) :
    place.follow (pieces (join root path)) = (place.follow (pieces root)).follow (pieces path) := by
  unfold join pieces
  split
  · next h =>
    rcases h with rfl | h
    · simp [Place.follow_cons]
      rfl
    · obtain ⟨front, hfront⟩ := List.getLast?_eq_some_iff.mp h
      rw [String.toList_append, hfront, List.append_assoc, List.singleton_append,
        List.splitOn_append_cons_self, List.splitOn_append_cons_self, Place.follow_append,
        Place.follow_append]
      rfl
  · rw [String.toList_append, String.toList_append, List.append_assoc]
    exact (congrArg place.follow (List.splitOn_append_cons_self _ _)).trans Place.follow_append

/-- Whatever the files are, a path below a directory is refused exactly if it is empty, starts with
a slash or has two dots for a piece. Any other path is looked up behind the path of the directory.
From wherever that one is followed, it leads to the directory first, and then each piece leads to
the directory or to a place inside it. -/
theorem paths_stay_inside (root path : String) (files : String → Except ReadFault Bytes) :
    ((below root files).readBytes path = .error (.invalidPath path) ↔
      path = "" ∨ path.toList.head? = some '/' ∨ ['.', '.'] ∈ pieces path) ∧
    ((below root files).readBytes path ≠ .error (.invalidPath path) →
      ((below root files).readBytes path =
        match files (join root path) with
        | .ok bytes => .ok bytes
        | .error .missing => .error (.notFound path)
        | .error (.other message) => .error (.io path message)) ∧
      ∀ start : Place,
        start.follow (pieces (join root path)) = (start.follow (pieces root)).follow (pieces path) ∧
        ∀ front, front <+: pieces path →
          start.follow (pieces root) <+: (start.follow (pieces root)).follow front) := by
  refine ⟨readBytes_below_eq_invalidPath, fun h => ⟨readBytes_below_of_ne h, fun start =>
    ⟨follow_join start, fun front hfront => Place.prefix_follow fun hup => h ?_⟩⟩⟩
  exact readBytes_below_eq_invalidPath.mpr (.inr (.inr (hfront.subset hup)))

/-- Dots and slashes of all kinds: only two dots between slashes go up. -/
example : (pieces "a//./..b/.../").map String.ofList = ["a", "", ".", "..b", "...", ""] ∧
    Place.follow [['r']] (pieces "a//./..b/.../") =
    [['r'], ['a'], ['.', '.', 'b'], ['.', '.', '.']] := by
  decide

end LazyConfig.Storage
