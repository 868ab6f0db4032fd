import ChunkWatch.CommandLine
import ChunkWatch.Proofs.FileSystem.Canonical

namespace ChunkWatch.CommandLine

open Bytes (join)
open Component (IsName)
open FileSystem (pathOf)

/-- The directory that a file is read from and its path from there, by the canonical paths of the
workspace and of the file. -/
inductive ReadFrom (root absolute : Path) : Path → Path → Prop
  | inside : absolute.components = root.components ++ names.map .name →
      ReadFrom root absolute root ⟨join slash names⟩
  | outside : ¬absolute.startsWith root →
      absolute.components = .root :: (dirs ++ [name]).map .name →
      ReadFrom root absolute (pathOf dirs) ⟨name⟩

def printed (f : SourceFile) : Except Error String :=
  match f.toJson with
  | .ok json => .ok (json.pretty ++ "\n")
  | .error e => .error (.internal s!"failed to encode chunks: {e.message}")

def output (w : World) (r : Registry) (base relative : Path) : Except Error String :=
  match r.forPath? relative with
  | none => .error (.language (.unknown relative.display))
  | some l => (SourceFile.read l w.trees w.fs base relative).bind printed

def conclude : Except Error Result → Result
  | .error e => .ended ⟨1, "", s!"Error: {e.dump}\n"⟩
  | .ok result => result

variable {w : World} {r : Registry} {c : Config} {ws place : Place}
  {root absolute file other base relative : Path}

theorem exists_readFrom (hws : ∀ n ∈ ws, IsName n) (hplace : ∀ n ∈ place, IsName n)
    (hne : place ≠ []) : ∃ base relative, ReadFrom (pathOf ws) (pathOf place) base relative := by
  by_cases hprefix : ws <+: place
  · obtain ⟨names, rfl⟩ := hprefix
    refine ⟨pathOf ws, ⟨join slash names⟩, .inside ?_⟩
    rw [FileSystem.components_pathOf hws, FileSystem.components_pathOf hplace, List.map_append]
    rfl
  · refine ⟨pathOf place.dropLast, ⟨place.getLast hne⟩, .outside ?_ ?_⟩
    · rwa [FileSystem.startsWith_pathOf hws hplace]
    · rw [List.dropLast_append_getLast, FileSystem.components_pathOf hplace]

theorem ReadFrom.locate_eq (h : ReadFrom (pathOf ws) (pathOf place) base relative)
    (hws : ∀ n ∈ ws, IsName n) (hplace : ∀ n ∈ place, IsName n) (file : Path) :
    locate (pathOf ws) (pathOf place) file = .ok (base, relative) := by
  cases h with
  | inside h =>
    obtain rfl := FileSystem.eq_append_of_components hws hplace h
    rw [locate, FileSystem.stripPrefix?_pathOf hws (List.forall_mem_append.mp hplace).2]
  | @outside dirs name hnot h =>
    obtain rfl := FileSystem.eq_of_components hplace h
    obtain ⟨hdirs, hname⟩ := List.forall_mem_append.mp hplace
    rw [List.forall_mem_singleton] at hname
    rw [locate, FileSystem.stripPrefix?_pathOf_eq_none hws hnot,
      FileSystem.parent?_pathOf hdirs hname, FileSystem.fileName?_pathOf hdirs hname]

theorem ReadFrom.join_eq (h : ReadFrom (pathOf ws) (pathOf place) base relative)
    (hws : ∀ n ∈ ws, IsName n) (hplace : ∀ n ∈ place, IsName n) (hne : relative.bytes ≠ []) :
    base.join relative = pathOf place := by
  cases h with
  | @inside names h =>
    obtain rfl := FileSystem.eq_append_of_components hws hplace h
    have hnames : names ≠ [] := by
      rintro rfl
      exact hne rfl
    exact FileSystem.join_pathOf hws (List.forall_mem_append.mp hplace).2 hnames
  | @outside dirs name _ h =>
    obtain rfl := FileSystem.eq_of_components hplace h
    obtain ⟨hdirs, hname⟩ := List.forall_mem_append.mp hplace
    exact FileSystem.join_pathOf hdirs hname (List.cons_ne_nil name [])

theorem chunks_eq (hroot : c.workspaceRoot w.fs = .ok root)
    (hfile : w.fs.canonicalize file = .ok absolute) :
    chunks w r c file = c.validate.bind fun _ =>
      (locate root absolute file).bind fun (base, relative) => output w r base relative := by
  rw [chunks, hroot, hfile]
  cases c.validate with
  | error e => rfl
  | ok u =>
    simp only [bind, Except.bind, Except.mapError]
    cases locate root absolute file with
    | error e => rfl
    | ok located =>
      obtain ⟨base, relative⟩ := located
      simp only [output]
      cases r.forPath? relative with
      | none => rfl
      | some l =>
        cases SourceFile.read l w.trees w.fs base relative with
        | error e => rfl
        | ok f => rfl

theorem handle_congr (h : ∀ r, chunks w r c other = chunks w r c file) :
    handle w (.chunks c other) = handle w (.chunks c file) := by
  simp only [handle, h]

theorem run_eq {words : List String} {request : Request}
    (h : Request.read w.env words = .ok request) : run w words = conclude (handle w request) := by
  rw [run, h]
  rfl

theorem canonicalize_of_workspaceRoot {fs : FileSystem} (h : c.workspaceRoot fs = .ok root) :
    fs.canonicalize c.workspace = .ok root := by
  rw [Config.workspaceRoot] at h
  cases hcanonical : fs.canonicalize c.workspace with
  | error e =>
    rw [hcanonical] at h
    cases h
  | ok q =>
    rw [hcanonical] at h
    cases h
    rfl

theorem ne_nil_of_forPath? {l : Language} (h : r.forPath? relative = some l) :
    relative.bytes ≠ [] := by
  intro hnil
  obtain ⟨bytes⟩ := relative
  cases hnil
  cases h

theorem chunks_of_top (hcwd : ∀ n ∈ w.fs.cwd, IsName n) (hroot : c.workspaceRoot w.fs = .ok root)
    (hne : root ≠ ⟨[slash]⟩) (hfile : w.fs.canonicalize file = .ok ⟨[slash]⟩) :
    chunks w r c file =
      c.validate.bind fun _ => .error (.config s!"'{file.display}' is not a file") := by
  obtain ⟨ws, hws, rfl⟩ := FileSystem.canonicalize_iff.mp (canonicalize_of_workspaceRoot hroot)
  have hnames := FileSystem.isName_of_resolve hcwd hws
  have hnot : ¬(pathOf []).startsWith (pathOf ws) := by
    rw [FileSystem.startsWith_pathOf hnames (by simp), List.prefix_nil]
    rintro rfl
    exact hne rfl
  have hlocate : locate (pathOf ws) (pathOf []) file =
      .error (.config s!"'{file.display}' is not a file") := by
    rw [locate, FileSystem.stripPrefix?_pathOf_eq_none hnames hnot]
    rfl
  change w.fs.canonicalize file = .ok (pathOf []) at hfile
  rw [chunks_eq hroot hfile, hlocate]
  rfl

/-- However a file is named, what is printed is the same.  It is that of the file at its path from
the workspace, or from its own directory if that is elsewhere, and the text that is read is that of
the file which was named. -/
theorem chunks_however_named (hcwd : ∀ n ∈ w.fs.cwd, IsName n)
    (hroot : c.workspaceRoot w.fs = .ok root) (hfile : w.fs.canonicalize file = .ok absolute)
    (hother : w.fs.canonicalize other = .ok absolute) (hne : absolute ≠ ⟨[slash]⟩) :
    (∀ r, chunks w r c other = chunks w r c file) ∧
    (∀ words words', Request.read w.env words = .ok (.chunks c file) →
      Request.read w.env words' = .ok (.chunks c other) → run w words' = run w words) ∧
    (∃ base relative, ReadFrom root absolute base relative) ∧
    ∀ base relative, ReadFrom root absolute base relative → ∀ r,
      chunks w r c file = (c.validate.bind fun _ => output w r base relative) ∧
      ∀ l, r.forPath? relative = some l →
        w.fs.readText (base.join relative) = w.fs.readText file := by
  obtain ⟨ws, hws, rfl⟩ := FileSystem.canonicalize_iff.mp (canonicalize_of_workspaceRoot hroot)
  obtain ⟨place, hplace, rfl⟩ := FileSystem.canonicalize_iff.mp hfile
  have hwsNames := FileSystem.isName_of_resolve hcwd hws
  have hnames := FileSystem.isName_of_resolve hcwd hplace
  have hprints {name : Path} (hname : w.fs.canonicalize name = .ok (pathOf place))
      {base relative : Path} (h : ReadFrom (pathOf ws) (pathOf place) base relative)
      (r : Registry) :
      chunks w r c name = c.validate.bind fun _ => output w r base relative := by
    rw [chunks_eq hroot hname, h.locate_eq hwsNames hnames name]
    rfl
  have hsome := exists_readFrom hwsNames hnames fun hnil => hne (by rw [hnil]; rfl)
  have hsame (r : Registry) : chunks w r c other = chunks w r c file := by
    obtain ⟨base, relative, h⟩ := hsome
    rw [hprints hother h, hprints hfile h]
  refine ⟨hsame, fun words words' hwords hwords' => ?_, hsome, fun base relative h r => ?_⟩
  · rw [run_eq hwords', run_eq hwords, handle_congr hsame]
  · refine ⟨hprints hfile h r, fun l hl => ?_⟩
    rw [h.join_eq hwsNames hnames (ne_nil_of_forPath? hl),
      FileSystem.readText_canonicalize hcwd hfile]

-- The workspace `/ws` and its sibling `/ws2`, with a link out of the one and a link into it.
def siblings : FileSystem where
  top := .cons (.ofString "in") (.link (.ofString "ws")) <|
    .cons (.ofString "ws") (.dir <| .cons (.ofString "out") (.link (.ofString "../ws2")) .nil) <|
    .cons (.ofString "ws2")
      (.dir <| .cons (.ofString "b.go") (.file (.ofString "package b\n")) .nil) .nil
  cwd := [.ofString "ws"]

def siblingWorld : World where
  fs := siblings
  env := []
  trees := fun _ text => some ⟨.node ⟨0, "source_file", true, none, 0, text.length⟩ [], text⟩
  run := fun _ => .missing

def bareGo : Registry := ⟨[⟨.empty "go" .go, [], []⟩], [(".go", 0)]⟩

theorem chunks_behind_links :
    (∀ n ∈ siblingWorld.fs.cwd, IsName n) ∧
    Config.default.workspaceRoot siblingWorld.fs = .ok (.ofString "/ws") ∧
    siblingWorld.fs.canonicalize (.ofString "out/b.go") = .ok (.ofString "/ws2/b.go") ∧
    siblingWorld.fs.canonicalize (.ofString "/in/../ws2/./b.go") = .ok (.ofString "/ws2/b.go") ∧
    Path.ofString "/ws2/b.go" ≠ ⟨[slash]⟩ ∧
    ReadFrom (.ofString "/ws") (.ofString "/ws2/b.go") (.ofString "/ws2") (.ofString "b.go") ∧
    chunks siblingWorld bareGo .default (.ofString "/in/../ws2/./b.go") =
      chunks siblingWorld bareGo .default (.ofString "out/b.go") ∧
    chunks siblingWorld bareGo .default (.ofString "out/b.go") =
      .ok "\x7b\n  \"path\": \"b.go\",\n  \"role\": \"source\",\n  \"chunks\": []\n\x7d\n" := by
  have hcwd : ∀ n ∈ siblingWorld.fs.cwd, IsName n := by decide +kernel
  have hroot : Config.default.workspaceRoot siblingWorld.fs = .ok (.ofString "/ws") := by
    decide +kernel
  have hfile : siblingWorld.fs.canonicalize (.ofString "out/b.go") =
      .ok (.ofString "/ws2/b.go") := by
    decide +kernel
  have hother : siblingWorld.fs.canonicalize (.ofString "/in/../ws2/./b.go") =
      .ok (.ofString "/ws2/b.go") := by
    decide +kernel
  have hne : Path.ofString "/ws2/b.go" ≠ ⟨[slash]⟩ := by decide +kernel
  have hfrom : ReadFrom (.ofString "/ws") (.ofString "/ws2/b.go") (.ofString "/ws2")
      (.ofString "b.go") :=
    @ReadFrom.outside _ _ [.ofString "ws2"] (.ofString "b.go") (by decide +kernel)
      (by decide +kernel)
  obtain ⟨hsame, -, -, hprints⟩ := chunks_however_named hcwd hroot hfile hother hne
  refine ⟨hcwd, hroot, hfile, hother, hne, hfrom, hsame bareGo, ?_⟩
  rw [(hprints _ _ hfrom bareGo).1]
  decide +kernel

end ChunkWatch.CommandLine
