import ChunkWatch.Proofs.FileSystem.Resolve
import ChunkWatch.Proofs.Language.Roles
import ChunkWatch.SourceFile

namespace ChunkWatch

open Bytes (join)
open Component (IsName)

namespace Language

structure Unindexed (l : Language) (p : Path) : Prop where
  role : l.classifyRole p = .ignore
  empty (trees : TreeSource) (fs : FileSystem) (root : Path) :
    SourceFile.read l trees fs root p = .ok ⟨p, .ignore, []⟩
  settled (trees : TreeSource) (fs fs' : FileSystem) (root : Path) :
    SourceFile.read l trees fs root p = SourceFile.read l trees fs' root p

/-- A file has a role with which it is read, and what it says decides what comes of it. -/
structure IndexedAs (l : Language) (p : Path) (r : Role) : Prop where
  role : l.classifyRole p = r
  chunks (trees : TreeSource) (fs : FileSystem) (root : Path) (text : Bytes)
    (h : fs.readText (root.join p) = .ok text) :
    SourceFile.read l trees fs root p = (SourceFile.chunksOf l trees text).map (⟨p, r, ·⟩)
  unsettled (trees : TreeSource) : ∃ fs fs' root,
    SourceFile.read l trees fs root p ≠ SourceFile.read l trees fs' root p

variable {n : Naming} {s : Spec} {l : Language} {p : Path} {r : Role} {dirs : List Bytes}
  {name : Bytes}

theorem unindexed_of_role (h : l.classifyRole p = .ignore) : l.Unindexed p := by
  have hread (trees : TreeSource) (fs : FileSystem) (root : Path) :
      SourceFile.read l trees fs root p = .ok ⟨p, .ignore, []⟩ := by
    rw [SourceFile.read, h]
    rfl
  exact ⟨h, hread, fun trees fs fs' root => (hread trees fs root).trans (hread trees fs' root).symm⟩

theorem read_of_role {trees : TreeSource} {fs : FileSystem} {root : Path}
    (h : l.classifyRole p = r) (hr : r ≠ .ignore) : SourceFile.read l trees fs root p =
      ((fs.readText (root.join p)).mapError .io).bind fun text =>
        (SourceFile.chunksOf l trees text).map (⟨p, r, ·⟩) := by
  rw [SourceFile.read, h]
  simp only [if_neg hr]
  rfl

theorem indexedAs_of_role {names : List Bytes} (hne : names ≠ []) (hnames : ∀ m ∈ names, IsName m)
    (h : l.classifyRole ⟨join slash names⟩ = r) (hr : r ≠ .ignore) :
    l.IndexedAs ⟨join slash names⟩ r where
  role := h
  chunks trees fs root text htext := by
    rw [read_of_role h hr, htext]
    rfl
  unsettled trees := by
    -- A file that is no text fails in its own way, even if no text has a tree.
    refine ⟨.holding [0xFF] names, .holding [] names, ⟨[slash]⟩, ?_⟩
    have hread (content : Bytes) :=
      FileSystem.readText_of_read (FileSystem.read_holding content hne hnames)
    have hbroken : Bytes.isText [0xFF] = false := by decide +kernel
    have hempty : Bytes.isText [] = true := by decide +kernel
    rw [read_of_role h hr, read_of_role h hr, hread, hread, hbroken, hempty, if_pos rfl,
      if_neg Bool.false_ne_true]
    simp only [Except.mapError, Except.bind, SourceFile.chunksOf]
    cases trees l.spec.grammar [] with
    | none => exact nofun
    | some t => exact nofun

/-- The built-in languages can be read, and of the files below vendored directories they index those
that are named as tests are, and no others. -/
theorem unindexed_iff (hs : (s, n) ∈ Naming.builtin) : ∃ l, Language.compile s = .ok l ∧
    ∀ dirs name, (∀ m ∈ dirs ++ [name], IsName m) → n.isVendored dirs →
      (l.Unindexed ⟨join slash (dirs ++ [name])⟩ ↔ n.isTest name = false) ∧
      (n.isTest name → l.IndexedAs ⟨join slash (dirs ++ [name])⟩ .tests) := by
  obtain ⟨l, hl, -⟩ := compile_builtin (Naming.mem_builtin hs)
  refine ⟨l, hl, fun dirs name hnames hvendored => ?_⟩
  have hne := List.append_ne_nil_of_right_ne_nil dirs (List.cons_ne_nil name [])
  have hrole := classifyRole_builtin hs hl hnames
  rw [Naming.role, if_pos hvendored] at hrole
  cases htest : n.isTest name with
  | true =>
    rw [htest] at hrole
    have hnot : ¬l.Unindexed ⟨join slash (dirs ++ [name])⟩ := fun h =>
      absurd (hrole.symm.trans h.role) (by decide)
    exact ⟨iff_of_false hnot Bool.false_ne_true.symm,
      fun _ => indexedAs_of_role hne hnames hrole (by decide)⟩
  | false =>
    rw [htest] at hrole
    exact ⟨iff_of_true (unindexed_of_role hrole) rfl, fun h => absurd h Bool.false_ne_true⟩

theorem indexed_below_vendor :
    (Spec.go, Naming.go) ∈ Naming.builtin ∧
    (∀ m ∈ ["vendor", "lib", "x_test.go"].map Bytes.ofString, IsName m) ∧
    Naming.go.isVendored (["vendor", "lib"].map .ofString) ∧
    Naming.go.isTest (.ofString "x_test.go") ∧
    ∃ l, Language.compile .go = .ok l ∧ l.IndexedAs (.ofString "vendor/lib/x_test.go") .tests := by
  have hs := Naming.go_mem_builtin
  have hnames : ∀ m ∈ ["vendor", "lib", "x_test.go"].map Bytes.ofString, IsName m := by
    decide +kernel
  have hvendored : Naming.go.isVendored (["vendor", "lib"].map .ofString) := by decide +kernel
  have htest : Naming.go.isTest (.ofString "x_test.go") := by decide +kernel
  obtain ⟨l, hl, hindexed⟩ := unindexed_iff hs
  exact ⟨hs, hnames, hvendored, htest, l, hl, (hindexed _ _ hnames hvendored).2 htest⟩

theorem not_always_unindexed :
    ¬ ∀ s n, (s, n) ∈ Naming.builtin → ∀ l, Language.compile s = .ok l →
      ∀ dirs name, (∀ m ∈ dirs ++ [name], IsName m) → n.isVendored dirs →
        l.Unindexed ⟨join slash (dirs ++ [name])⟩ := by
  intro hall
  have hs := Naming.go_mem_builtin
  have hnames : ∀ m ∈ ["vendor", "x_test.go"].map Bytes.ofString, IsName m := by decide +kernel
  obtain ⟨l, hl, -⟩ := compile_builtin (Naming.mem_builtin hs)
  have hunindexed := hall _ _ hs l hl (["vendor"].map .ofString) (.ofString "x_test.go") hnames
    (by decide +kernel)
  have hrole := @classifyRole_builtin _ _ l (["vendor"].map .ofString) (.ofString "x_test.go") hs hl
    hnames
  have htests : Naming.go.role (["vendor"].map .ofString) (.ofString "x_test.go") = .tests := by
    decide +kernel
  exact absurd ((htests.symm.trans hrole.symm).trans hunindexed.role) (by decide)

end Language

end ChunkWatch
