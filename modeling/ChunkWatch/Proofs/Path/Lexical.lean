import Mathlib.Data.Set.List
import ChunkWatch.Proofs.Path.Spelling

namespace ChunkWatch

namespace Component

/-- Where a component leads from a place, whose components are given the last one first. -/
def climb : List Component → Component → List Component
  | here, .current => here
  | .name _ :: here, .parent => here
  | [.root], .parent => [.root]
  | here, c => c :: here

theorem foldl_climb_names (names : List Bytes) (here : List Component) :
    (names.map .name).foldl climb here = (names.map .name).reverse ++ here := by
  induction names generalizing here with
  | nil => rfl
  | cons n ns ih =>
    have hclimb : climb here (.name n) = .name n :: here := by
      unfold climb
      split <;> simp_all
    rw [List.map_cons, List.foldl_cons, hclimb, ih, List.reverse_cons, List.append_assoc]
    rfl

end Component

namespace Path

open Component (climb)

variable {p base : Path}

/-- The components of a path after its dots are resolved; a `..` with nothing before it stays. -/
def lexical (p : Path) : List Component := (p.components.foldl climb []).reverse

def IsBelow (p base : Path) : Prop :=
  ∃ names, names ≠ [] ∧ p.lexical = base.lexical ++ names.map .name

/-- A path may lead to somewhere else than below where it is taken from. -/
def MayLeave (q : Path) : Prop := .parent ∈ q.components ∨ q.components = [.current]

theorem isBelow_of_components {names : List Bytes} (hne : names ≠ [])
    (h : p.components = base.components ++ names.map .name) : p.IsBelow base := by
  refine ⟨names, hne, ?_⟩
  rw [lexical, h, List.foldl_append, Component.foldl_climb_names, List.reverse_append,
    List.reverse_reverse]
  rfl

theorem exists_names_of_segments {s : Bytes} (h : .parent ∉ segmentComponents s) :
    ∃ names : List Bytes, segmentComponents s = names.map .name := by
  have hall : segmentComponents s ∈ Set.range (List.map Component.name) := by
    rw [Set.range_list_map]
    intro c hc
    rcases mem_segmentComponents hc with rfl | ⟨n, -, rfl⟩
    · exact absurd hc h
    · exact ⟨n, rfl⟩
  obtain ⟨names, hnames⟩ := hall
  exact ⟨names, hnames.symm⟩

end Path

end ChunkWatch
