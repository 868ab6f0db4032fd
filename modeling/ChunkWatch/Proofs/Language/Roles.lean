import Mathlib.Data.List.Find
import ChunkWatch.Proofs.Extract.Builtin
import ChunkWatch.Proofs.Glob.Shape

namespace ChunkWatch

open Bytes (join)
open Component (IsName)
open Glob (Shape)

structure Naming where
  tests : List (String × String)
  vendored : List String
  onlyTop : Bool

namespace Naming

def isTest (n : Naming) (name : Bytes) : Bool :=
  n.tests.any fun t =>
    (Bytes.ofString t.1).isPrefixOf name && (Bytes.ofString t.2).isSuffixOf name

def isVendored (n : Naming) (dirs : List Bytes) : Bool :=
  n.vendored.any fun v => (if n.onlyTop then dirs.take 1 else dirs).contains (.ofString v)

def role (n : Naming) (dirs : List Bytes) (name : Bytes) : Role :=
  if n.isTest name then .tests else if n.isVendored dirs then .ignore else .source

def go : Naming where
  tests := [("", "_test.go")]
  vendored := ["vendor", "third_party"]
  onlyTop := true

def python : Naming where
  tests := [("test", ".py"), ("", "_test.py")]
  vendored := ["__pycache__", "venv", ".venv", "env", ".env", "site-packages"]
  onlyTop := false

def javascript : Naming where
  tests := [("", ".test.js"), ("", ".test.jsx"), ("", ".spec.js"), ("", ".spec.jsx")]
  vendored := ["node_modules", "dist", "build"]
  onlyTop := false

def builtin : List (Spec × Naming) := [(.go, go), (.python, python), (.javascript, javascript)]

def testRules (n : Naming) : List (Shape × Role) := n.tests.map fun t => (.named t.1 t.2, .tests)

def vendoredRules (n : Naming) : List (Shape × Role) :=
  n.vendored.map fun v => (if n.onlyTop then .belowTop v else .below v, .ignore)

def rules (n : Naming) : List (Shape × Role) := n.testRules ++ n.vendoredRules

/-- Rules that write the shapes of a naming, one each.  No name begins with the beginning of a test
and ends in its end in such a way that the two overlap. -/
structure IsWrittenAs (n : Naming) (rs : List RoleRule) : Prop where
  rules : rs.map (fun r => (r.pattern.toList, r.role)) = n.rules.map fun x => (x.1.text, x.2)
  plain : ∀ x ∈ n.rules, x.1.IsPlain
  apart : ∀ t ∈ n.tests, ∀ b ∈ (Bytes.ofString t.2).head?, b ∉ Bytes.ofString t.1

variable {n : Naming} {s : Spec} {l : Language} {rs : List RoleRule} {dirs : List Bytes}
  {name : Bytes}

theorem isWrittenAs_builtin (h : (s, n) ∈ builtin) : n.IsWrittenAs s.roles := by
  simp only [builtin, List.mem_cons, List.not_mem_nil, or_false, Prod.mk.injEq] at h
  rcases h with ⟨rfl, rfl⟩ | ⟨rfl, rfl⟩ | ⟨rfl, rfl⟩
  all_goals exact ⟨by decide +kernel, by decide +kernel, by decide +kernel⟩

theorem map_fst_builtin : builtin.map Prod.fst = Spec.builtin := rfl

theorem mem_builtin (h : (s, n) ∈ builtin) : s ∈ Spec.builtin :=
  map_fst_builtin ▸ List.mem_map_of_mem (f := Prod.fst) h

theorem go_mem_builtin : (Spec.go, go) ∈ builtin := List.mem_cons_self

theorem isSuffixOf_drop {front back : Bytes} (h : ∀ b ∈ back.head?, b ∉ front)
    (k : front.isPrefixOf name) :
    back.isSuffixOf (name.drop front.length) = back.isSuffixOf name := by
  obtain ⟨rest, rfl⟩ := List.isPrefixOf_iff_prefix.mp k
  rw [List.drop_left, Bool.eq_iff_iff, List.isSuffixOf_iff_suffix, List.isSuffixOf_iff_suffix]
  constructor
  · exact fun hrest => hrest.trans (List.suffix_append front rest)
  · rintro ⟨before, heq⟩
    rcases List.append_eq_append_iff.mp heq with ⟨mid, rfl, rfl⟩ | ⟨mid, rfl, rfl⟩
    · cases mid with
      | nil => exact List.suffix_rfl
      | cons b mid => exact absurd (List.mem_append_right before List.mem_cons_self) (h b rfl)
    · exact List.suffix_append ..

theorem any_testRules (h : n.IsWrittenAs rs) :
    n.testRules.any (·.1.fits dirs name) = n.isTest name := by
  rw [testRules, List.any_map, isTest, Bool.eq_iff_iff, List.any_eq_true, List.any_eq_true]
  refine exists_congr fun t => and_congr_right fun ht => ?_
  rw [Function.comp_apply, Shape.fits]
  cases hfirst : (Bytes.ofString t.1).isPrefixOf name with
  | false => rfl
  | true => rw [isSuffixOf_drop (h.apart t ht) hfirst]

theorem any_vendoredRules : n.vendoredRules.any (·.1.fits dirs name) = n.isVendored dirs := by
  rw [vendoredRules, List.any_map, isVendored]
  refine List.any_congr rfl fun v => ?_
  rw [Function.comp_apply]
  split
  · cases dirs <;> simp [Shape.fits, eq_comm, Bool.beq_eq_decide_eq]
  · rfl

theorem find?_of_forall {xs : List (Shape × Role)} {fits : Shape × Role → Bool} {r : Role}
    (h : ∀ x ∈ xs, x.2 = r) :
    (xs.find? fits).map Prod.snd = if xs.any fits then some r else none := by
  cases hfind : xs.find? fits with
  | none =>
    have hnone : xs.any fits = false := List.any_eq_false.mpr (List.find?_eq_none.mp hfind)
    rw [hnone]
    rfl
  | some x =>
    have hx := List.mem_of_find?_eq_some hfind
    rw [if_pos (List.any_eq_true.mpr ⟨x, hx, List.find?_some hfind⟩)]
    exact congrArg some (h x hx)

theorem IsWrittenAs.role_eq (h : n.IsWrittenAs rs) :
    ((n.rules.find? (·.1.fits dirs name)).map Prod.snd).getD .source = n.role dirs name := by
  have htests : ∀ x ∈ n.testRules, x.2 = .tests := List.forall_mem_map.mpr fun _ _ => rfl
  have hvendored : ∀ x ∈ n.vendoredRules, x.2 = .ignore := List.forall_mem_map.mpr fun _ _ => rfl
  rw [Naming.rules, List.find?_append, Option.map_or, find?_of_forall htests,
    find?_of_forall hvendored, any_testRules h, any_vendoredRules, role]
  cases n.isTest name <;> cases n.isVendored dirs <;> rfl

theorem compile_shapes {xs : List (Shape × Role)} (hplain : ∀ x ∈ xs, x.1.IsPlain)
    (h : rs.map (fun r => (r.pattern.toList, r.role)) = xs.map fun x => (x.1.text, x.2)) :
    RoleTable.compile rs = .ok (xs.map fun x => ⟨⟨x.1.tokens⟩, x.2⟩) := by
  induction xs generalizing rs with
  | nil =>
    rw [List.map_eq_nil_iff.mp h]
    rfl
  | cons x xs ih =>
    obtain ⟨r, rs, rfl, hr, hrs⟩ := List.map_eq_cons_iff.mp h
    obtain ⟨hx, hxs⟩ := List.forall_mem_cons.mp hplain
    obtain ⟨htext, hrole⟩ := Prod.mk.inj hr
    rw [RoleTable.compile, htext, Glob.parse_text hx, ih hxs hrs, hrole]
    rfl

theorem IsWrittenAs.classify {t : RoleTable} (h : n.IsWrittenAs rs)
    (ht : RoleTable.compile rs = .ok t) (hnames : ∀ m ∈ dirs ++ [name], slash ∉ m) :
    t.classify ⟨join slash (dirs ++ [name])⟩ = n.role dirs name := by
  rw [compile_shapes h.plain h.rules] at ht
  cases ht
  have hfits : n.rules.find? (fun x => Glob.matches ⟨x.1.tokens⟩ (join slash (dirs ++ [name]))) =
      n.rules.find? (·.1.fits dirs name) :=
    List.find?_congr fun x hx => Glob.matches_eq_fits (h.plain x hx) hnames
  rw [← h.role_eq, ← hfits, RoleTable.classify, List.find?_map, Option.map_map]
  rfl

end Naming

namespace Language

variable {n : Naming} {s : Spec} {l : Language} {dirs : List Bytes} {name : Bytes}

theorem compile_roles (h : Language.compile s = .ok l) :
    RoleTable.compile s.roles = .ok l.roles := by
  rw [Language.compile] at h
  cases hrules : compileRules s s.chunks with
  | error e =>
    rw [hrules] at h
    cases h
  | ok rules =>
    rw [hrules] at h
    cases hroles : RoleTable.compile s.roles with
    | error e =>
      simp only [compileRoles, hroles] at h
      cases h
    | ok roles =>
      simp only [compileRoles, hroles] at h
      cases h
      rfl

theorem classifyRole_builtin (hs : (s, n) ∈ Naming.builtin) (hl : Language.compile s = .ok l)
    (hnames : ∀ m ∈ dirs ++ [name], IsName m) :
    l.classifyRole ⟨join slash (dirs ++ [name])⟩ = n.role dirs name :=
  (Naming.isWrittenAs_builtin hs).classify (compile_roles hl) fun m hm => (hnames m hm).1

/-- The built-in languages can be read, and give each file the role that the name of the file and
those of its directories say. -/
theorem role_by_names (hs : (s, n) ∈ Naming.builtin) : ∃ l, Language.compile s = .ok l ∧
    ∀ dirs name, (∀ m ∈ dirs ++ [name], IsName m) →
      l.classifyRole ⟨join slash (dirs ++ [name])⟩ = n.role dirs name := by
  obtain ⟨l, hl, -⟩ := compile_builtin (Naming.mem_builtin hs)
  exact ⟨l, hl, fun dirs name => classifyRole_builtin hs hl⟩

theorem role_below_dist :
    (Spec.javascript, Naming.javascript) ∈ Naming.builtin ∧
    (∀ m ∈ ["web", "dist", "build.spec.js", "a.js"].map Bytes.ofString, IsName m) ∧
    ∃ l, Language.compile .javascript = .ok l ∧
      l.classifyRole (.ofString "web/dist/build.spec.js/a.js") = .ignore := by
  have hs : (Spec.javascript, Naming.javascript) ∈ Naming.builtin := by simp [Naming.builtin]
  have hnames : ∀ m ∈ ["web", "dist", "build.spec.js", "a.js"].map Bytes.ofString, IsName m := by
    decide +kernel
  obtain ⟨l, hl, hrole⟩ := role_by_names hs
  refine ⟨hs, hnames, l, hl, ?_⟩
  exact hrole (["web", "dist", "build.spec.js"].map Bytes.ofString) (.ofString "a.js") hnames

end Language

end ChunkWatch
