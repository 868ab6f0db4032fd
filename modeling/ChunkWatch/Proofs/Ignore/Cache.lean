import Mathlib.Data.List.Infix
import ChunkWatch.Ignore.Layers
import ChunkWatch.Proofs.FileSystem.Resolve

namespace ChunkWatch.Ignore

open Component (IsName)

theorem isFile_eq_read (fs : FileSystem) (p : Path) :
    fs.isFile p = (fs.read p).toOption.isSome := by
  rw [FileSystem.isFile, FileSystem.read]
  cases h : fs.entry? true p with
  | error e => rfl
  | ok e => cases e <;> rfl

theorem loadNested_congr {fs fs' : FileSystem} {dir : Path}
    (h : (fs.read (dir.push ignoreFileName)).toOption
      = (fs'.read (dir.push ignoreFileName)).toOption) :
    loadNested fs dir = loadNested fs' dir := by
  simp only [loadNested, isFile_eq_read, h]
  cases hread : fs.read (dir.push ignoreFileName) with
  | error e =>
    rw [hread] at h
    rw [← h]
    rfl
  | ok content =>
    rw [hread] at h
    cases hread' : fs'.read (dir.push ignoreFileName) with
    | error e =>
      rw [hread'] at h
      cases h
    | ok content' =>
      rw [hread'] at h
      cases h
      rfl

namespace Layers

variable {l : Layers} {fs fs' : FileSystem} {c : Cache} {p q : Path} {names : List Bytes}

/-- The path below the root does not begin with a dot. -/
def IsPlain (l : Layers) (p : Path) : Prop :=
  ∀ q, l.relative? p = some q → q.components.head? ≠ some .current

theorem head?_ne_current_of_lead_none (h : q.lead = none) :
    q.components.head? ≠ some .current := by
  rw [Path.components_eq, h]
  intro hhead
  rcases Path.mem_segmentComponents (List.mem_of_head? hhead) with hc | ⟨s, -, hc⟩ <;> cases hc

theorem isPlain_of_isAbsolute (h : p.isAbsolute) : l.IsPlain p := by
  intro q hq
  rw [relative?] at hq
  split at hq
  next r hr =>
    cases hq
    by_cases hroot : l.root.components = []
    · rw [Path.stripPrefix?, if_pos hroot, Path.lead, if_pos h] at hr
      cases hr
      rw [Path.components_eq, Path.respell, Path.lead_slash]
      simp
    · exact head?_ne_current_of_lead_none (Path.lead_of_stripPrefix? hr hroot)
  · simp [h] at hq

theorem lead_of_relative? (h : l.relative? p = some q) (k : l.root.components ≠ []) :
    q.lead ≠ some .root := by
  rw [relative?] at h
  split at h
  next r hr =>
    cases h
    simp [Path.lead_of_stripPrefix? hr k]
  · split at h
    · cases h
    next habs =>
      cases h
      rw [Path.lead, if_neg habs]
      split <;> simp

def along (p : Path) (cs : List Component) : Path :=
  cs.foldl (fun here s => here.push (componentPath s)) p

theorem along_cons (p : Path) (s : Component) (cs : List Component) :
    along p (s :: cs) = along (p.push (componentPath s)) cs := rfl

theorem along_names (p : Path) (names : List Bytes) :
    along p (names.map .name) = p.pushAll names := by
  rw [along, List.foldl_map]
  rfl

theorem components_along {cs : List Component}
    (h : ∀ s ∈ cs, s = .parent ∨ ∃ t, IsName t ∧ s = .name t) (p : Path) :
    (along p cs).components = p.components ++ cs := by
  induction cs generalizing p with
  | nil => simp [along]
  | cons s cs ih =>
    have hs : (p.push (componentPath s)).components = p.components ++ [s] := by
      rcases h s (by simp) with rfl | ⟨t, ht, rfl⟩
      · exact Path.components_push_parent p
      · exact Path.components_push ht p
    rw [along_cons, ih fun t ht => h t (List.mem_cons_of_mem s ht), hs, List.append_assoc,
      List.singleton_append]

theorem components_along_relative? (h : l.relative? p = some q) (k : l.IsPlain p)
    {cs : List Component} (hcs : cs <+: q.components) :
    (along l.root cs).components = l.root.components ++ cs := by
  have hplain := k q h
  rw [Path.components_eq] at hcs hplain
  cases hlead : q.lead with
  | none =>
    rw [hlead] at hcs
    exact components_along (fun s hs => Path.mem_segmentComponents (hcs.subset hs)) l.root
  | some s =>
    rw [hlead] at hcs hplain
    rcases Path.lead_eq_some hlead with rfl | rfl
    · have hroot : l.root.components = [] := by
        by_contra hroot
        exact lead_of_relative? h hroot hlead
      cases cs with
      | nil => simp [along]
      | cons s cs =>
        obtain ⟨rfl, hbelow⟩ := List.cons_prefix_cons.mp hcs
        -- An absolute component takes the place of the root.
        rw [along_cons, hroot, components_along]
        · rfl
        · exact fun s hs => Path.mem_segmentComponents (hbelow.subset hs)
    · exact absurd rfl hplain

theorem ne_of_prefix_dropLast {α : Type} {as bs : List α} (hne : as ≠ [])
    (h : as <+: bs.dropLast) : as ≠ bs := by
  rintro rfl
  have hlength := h.length_le
  have hpos := List.length_pos_of_ne_nil hne
  rw [List.length_dropLast] at hlength
  omega

/-- The rules for what is in the directory at some names below the root, those of the deepest
directory first. -/
def filesAbove (l : Layers) (fs : FileSystem) (names : List Bytes) : List Matcher :=
  names.inits.tail.reverse.filterMap (fun dir => loadNested fs (l.root.pushAll dir)) ++ [l.top]

def verdictAt? (l : Layers) (fs : FileSystem) (names : List Bytes) (isDir : Bool) :
    Option Verdict :=
  layeredVerdict? (l.filesAbove fs names.dropLast) (l.root.pushAll names) isDir

def Ignores (l : Layers) (fs : FileSystem) (names : List Bytes) : Prop :=
  ∃ dir, dir ≠ [] ∧ dir <+: names ∧
    l.verdictAt? fs dir (dir ≠ names || fs.isDir (l.root.pushAll dir)) = some .ignored

@[simp] theorem filesAbove_nil (l : Layers) (fs : FileSystem) : l.filesAbove fs [] = [l.top] := rfl

theorem filesAbove_concat (l : Layers) (fs : FileSystem) (names : List Bytes) (s : Bytes) :
    l.filesAbove fs (names ++ [s])
      = (loadNested fs (l.root.pushAll (names ++ [s]))).toList ++ l.filesAbove fs names := by
  have htail : (names ++ [s]).inits.tail = names.inits.tail ++ [names ++ [s]] := by
    rw [List.inits_append, List.tail_append_of_ne_nil (by cases names <;> simp)]
    simp
  rw [filesAbove, filesAbove, htail, List.reverse_concat, List.filterMap_cons]
  cases loadNested fs (l.root.pushAll (names ++ [s])) with
  | none => rfl
  | some m => rfl

/-- The rules that are remembered for the directories below the root are those of their files now,
except where these are stale. -/
def Known (l : Layers) (fs : FileSystem) (stale : List Bytes → Prop) (c : Cache) : Prop :=
  ∀ e ∈ c, ∀ names, names ≠ [] → ¬stale names →
    e.1.components = l.root.components ++ names.map .name →
    e.2 = loadNested fs (l.root.pushAll names)

variable {stale : List Bytes → Prop}

theorem known_nil : l.Known fs stale [] := by
  intro e he
  cases he

theorem Known.nested {cs : List Component} (h : l.Known fs stale c)
    (k : (along l.root cs).components = l.root.components ++ cs) :
    l.Known fs stale (nested fs (along l.root cs) c).2 := by
  rw [Layers.nested]
  split
  · exact h
  · intro e he names hne hstale hnames
    rcases List.mem_cons.mp he with rfl | he
    · rw [k] at hnames
      rw [List.append_cancel_left hnames, along_names]
    · exact h e he names hne hstale hnames

theorem Known.nested_eq (h : l.Known fs (fun _ => False) c) (hne : names ≠ [])
    (hnames : ∀ s ∈ names, IsName s) :
    (Layers.nested fs (l.root.pushAll names) c).1 = loadNested fs (l.root.pushAll names) := by
  rw [Layers.nested]
  split
  next m hm =>
    obtain ⟨e, he, rfl⟩ := Option.map_eq_some_iff.mp hm
    apply h e (List.mem_of_find?_eq_some he) names hne not_false
    have hsame : e.1.same (l.root.pushAll names) := by simpa using List.find?_some he
    rw [Path.same, decide_eq_true_eq] at hsame
    rw [hsame, Path.components_pushAll hnames]
  · rfl

theorem Known.descend {cs pre : List Component} {matchers : List Matcher}
    (h : l.Known fs stale c)
    (k : ∀ ds, ds <+: pre ++ cs → (along l.root ds).components = l.root.components ++ ds) :
    l.Known fs stale (descend fs (along l.root pre) matchers cs c).2 := by
  induction cs generalizing pre matchers c with
  | nil => exact h
  | cons s cs ih =>
    have hhere : (along l.root pre).push (componentPath s) = along l.root (pre ++ [s]) := by
      simp [along]
    rw [Layers.descend, hhere]
    split
    · exact h
    · split
      · exact h
      · apply ih
        · exact h.nested (k _ ⟨cs, by simp⟩)
        · intro ds hds
          exact k ds (by simpa using hds)

theorem ignores_cons_iff (l : Layers) (fs : FileSystem) (names : List Bytes) (s : Bytes)
    (ss : List Bytes) :
    (∃ dir, dir ≠ [] ∧ dir <+: s :: ss ∧ l.verdictAt? fs (names ++ dir)
        (dir ≠ s :: ss || fs.isDir (l.root.pushAll (names ++ dir))) = some .ignored) ↔
      l.verdictAt? fs (names ++ [s])
        (!ss.isEmpty || fs.isDir (l.root.pushAll (names ++ [s]))) = some .ignored ∨
      ∃ dir, dir ≠ [] ∧ dir <+: ss ∧ l.verdictAt? fs (names ++ [s] ++ dir)
        (dir ≠ ss || fs.isDir (l.root.pushAll (names ++ [s] ++ dir))) = some .ignored := by
  have hmark : decide ([s] ≠ s :: ss) = !ss.isEmpty := by cases ss <;> simp
  constructor
  · rintro ⟨dir, hne, hprefix, hverdict⟩
    obtain ⟨t, rest, rfl⟩ := List.exists_cons_of_ne_nil hne
    obtain ⟨rfl, hrest⟩ := List.cons_prefix_cons.mp hprefix
    cases rest with
    | nil =>
      rw [hmark] at hverdict
      exact .inl hverdict
    | cons u us => exact .inr ⟨u :: us, List.cons_ne_nil u us, hrest, by simpa using hverdict⟩
  · rintro (hverdict | ⟨dir, hne, hprefix, hverdict⟩)
    · refine ⟨[s], List.cons_ne_nil s [], List.cons_prefix_cons.mpr ⟨rfl, List.nil_prefix⟩, ?_⟩
      rw [hmark]
      exact hverdict
    · refine ⟨s :: dir, List.cons_ne_nil s dir, List.cons_prefix_cons.mpr ⟨rfl, hprefix⟩, ?_⟩
      simpa using hverdict

theorem descend_iff {ss : List Bytes} (h : l.Known fs (fun _ => False) c)
    (k : ∀ s ∈ names ++ ss, IsName s) :
    (descend fs (l.root.pushAll names) (l.filesAbove fs names) (ss.map .name) c).1 ↔
      ∃ dir, dir ≠ [] ∧ dir <+: ss ∧ l.verdictAt? fs (names ++ dir)
        (dir ≠ ss || fs.isDir (l.root.pushAll (names ++ dir))) = some .ignored := by
  induction ss generalizing names c with
  | nil =>
    simp only [List.map_nil, Layers.descend, List.prefix_nil]
    constructor
    · intro hfalse
      cases hfalse
    · rintro ⟨dir, hne, hnil, -⟩
      exact absurd hnil hne
  | cons s ss ih =>
    rw [ignores_cons_iff]
    have hhere : (l.root.pushAll names).push s = l.root.pushAll (names ++ [s]) := by simp
    have hverdict : layeredVerdict? (l.filesAbove fs names) (l.root.pushAll (names ++ [s]))
          (!ss.isEmpty || fs.isDir (l.root.pushAll (names ++ [s])))
        = l.verdictAt? fs (names ++ [s])
          (!ss.isEmpty || fs.isDir (l.root.pushAll (names ++ [s]))) := by
      rw [verdictAt?, List.dropLast_concat]
    rw [List.map_cons, Layers.descend, componentPath, hhere, List.isEmpty_map, hverdict]
    split
    next hignored => exact ⟨fun _ => .inl hignored, fun _ => rfl⟩
    next hnot =>
      rw [or_iff_right hnot]
      split
      next hlast =>
        rw [List.isEmpty_iff] at hlast
        constructor
        · intro hfalse
          cases hfalse
        · rintro ⟨dir, hne, hprefix, -⟩
          rw [hlast, List.prefix_nil] at hprefix
          exact absurd hprefix hne
      · have hall : ∀ t ∈ names ++ [s] ++ ss, IsName t := by simpa using k
        have hdir : ∀ t ∈ names ++ [s], IsName t := fun t ht => hall t (List.mem_append_left ss ht)
        have hnested : l.Known fs (fun _ => False)
            (Layers.nested fs (l.root.pushAll (names ++ [s])) c).2 := by
          rw [← along_names]
          apply h.nested
          rw [along_names, Path.components_pushAll hdir]
        dsimp only
        rw [h.nested_eq (by simp) hdir, ← filesAbove_concat]
        exact ih hnested hall

theorem Known.forget (h : l.Known fs stale c) {dir : Path}
    (k : ∀ names, names ≠ [] → stale names →
      dir.components = l.root.components ++ names.map .name) :
    l.Known fs (fun _ => False) (c.forget dir) := by
  intro e he names hne _ hnames
  obtain ⟨he, hsame⟩ := List.mem_filter.mp he
  apply h e he names hne _ hnames
  intro hstale
  rw [Path.same, hnames, k names hne hstale] at hsame
  simp at hsame

def IsFileOf (q : Path) (names : List Bytes) : Prop :=
  q.components = (names ++ [ignoreFileName]).map .name

theorem refresh_subset (l : Layers) (q : Path) (c : Cache) : l.refresh q c ⊆ c := by
  rw [Layers.refresh]
  split
  · split
    · exact List.filter_subset_self c
    · exact List.Subset.refl c
  · exact List.Subset.refl c

instance : Decidable (IsFileOf q names) := inferInstanceAs (Decidable (_ = _))

theorem Known.refresh (h : l.Known fs stale c)
    (k : ∀ names, names ≠ [] → stale names → IsFileOf q names) :
    l.Known fs (fun _ => False) (l.refresh q c) := by
  by_cases hstale : ∃ names, names ≠ [] ∧ stale names
  · obtain ⟨names, hne, hnames⟩ := hstale
    have hfile : q.components = names.map .name ++ [.name ignoreFileName] := by
      rw [k names hne hnames, List.map_append]
      rfl
    obtain ⟨parent, hparent, hbare, hcomponents⟩ :=
      Path.parent?_of_lead_none (Path.lead_of_names (k names hne hnames)) (by simp [hfile])
    rw [hfile, List.dropLast_concat] at hcomponents
    have hname : q.fileName? = some ignoreFileName := by
      rw [Path.fileName?, hfile, List.getLast?_concat]
    rw [Layers.refresh, if_pos hname, hparent]
    apply h.forget
    intro other hother hstale
    have hsame := (k names hne hnames).symm.trans (k other hother hstale)
    rw [Path.components_join hbare, hcomponents,
      List.append_cancel_right (Component.names_injective hsame)]
  · intro e he names hne _ hnames
    exact h e (refresh_subset l q c he) names hne (fun hs => hstale ⟨names, hne, hs⟩) hnames

theorem isIgnored_eq (hq : l.relative? p = some q) : l.isIgnored fs p c
    = Layers.descend fs l.root [l.top] q.components (l.refresh q c) := by
  rw [Layers.isIgnored, hq]
  dsimp only
  split
  next hempty =>
    have hq' : q = ⟨[]⟩ := by
      obtain ⟨bytes⟩ := q
      exact congrArg Path.mk hempty
    rw [hq']
    rfl
  · rfl

def AsksAbout (l : Layers) (p : Path) (names : List Bytes) : Prop :=
  ∃ q, l.relative? p = some q ∧ IsFileOf q names

theorem AsksAbout.isFileOf (h : l.AsksAbout p names) (hq : l.relative? p = some q) :
    IsFileOf q names := by
  obtain ⟨r, hr, hfile⟩ := h
  rw [hq] at hr
  cases hr
  exact hfile

theorem Known.isIgnored (h : l.Known fs stale c) (hp : l.IsPlain p)
    (k : ∀ names, names ≠ [] → stale names → l.AsksAbout p names) :
    l.Known fs (fun _ => False) (l.isIgnored fs p c).2 := by
  cases hq : l.relative? p with
  | none =>
    rw [Layers.isIgnored, hq]
    intro e he names hne _ hnames
    apply h e he names hne _ hnames
    intro hstale
    obtain ⟨q, hq', -⟩ := k names hne hstale
    rw [hq] at hq'
    cases hq'
  | some q =>
    rw [isIgnored_eq hq]
    have hrefresh := h.refresh fun names hne hstale => (k names hne hstale).isFileOf hq
    have hway : ∀ ds, ds <+: [] ++ q.components →
        (along l.root ds).components = l.root.components ++ ds :=
      fun ds hds => components_along_relative? hq hp hds
    exact hrefresh.descend hway

theorem isIgnored_iff (h : l.Known fs stale c)
    (k : ∀ names, names ≠ [] → stale names → l.AsksAbout p names)
    (hq : l.relative? p = some q) (hnames : q.components = names.map .name) :
    (l.isIgnored fs p c).1 ↔ l.Ignores fs names := by
  have hrefresh := h.refresh fun names hne hstale => (k names hne hstale).isFileOf hq
  have hvalid : ∀ s ∈ [] ++ names, IsName s :=
    Path.isName_of_components (hnames.trans (List.nil_append _).symm)
  have hdescend := descend_iff hrefresh hvalid
  simp only [filesAbove_nil, Path.pushAll_nil, List.nil_append] at hdescend
  rw [isIgnored_eq hq, hnames, hdescend, Ignores]

inductive Access : Type
  | ask : Path → Access
  | become : FileSystem → Access

structure Answer where
  fs : FileSystem
  path : Path
  ignored : Bool

def answers (l : Layers) : FileSystem → Cache → List Access → List Answer
  | _, _, [] => []
  | fs, c, .ask p :: as =>
    let r := l.isIgnored fs p c
    ⟨fs, p, r.1⟩ :: answers l fs r.2 as
  | _, c, .become fs :: as => answers l fs c as

def Affects (l : Layers) (fs fs' : FileSystem) (names : List Bytes) : Prop :=
  names ≠ [] ∧ (∀ s ∈ names, IsName s) ∧
    (fs.read ((l.root.pushAll names).push ignoreFileName)).toOption
      ≠ (fs'.read ((l.root.pushAll names).push ignoreFileName)).toOption

def AskedNext (l : Layers) (names : List Bytes) : List Access → Prop
  | [] => True
  | .ask p :: _ => l.AsksAbout p names
  | .become _ :: _ => False

/-- Each change affects one ignore file below the root at most, and the question about that file
comes next. -/
def Tended (l : Layers) : FileSystem → List Access → Prop
  | _, [] => True
  | fs, .ask _ :: as => l.Tended fs as
  | fs, .become fs' :: as => (∀ names, l.Affects fs fs' names → l.AskedNext names as) ∧
      l.Tended fs' as

theorem Known.become (h : l.Known fs (fun _ => False) c) : l.Known fs' (l.Affects fs fs') c := by
  intro e he names hne hstale hnames
  have hvalid : ∀ s ∈ names, IsName s := Path.isName_of_components hnames
  rw [h e he names hne not_false hnames]
  apply loadNested_congr
  by_contra hread
  exact hstale ⟨hne, hvalid, hread⟩

theorem Known.answers {as : List Access} (h : l.Known fs stale c)
    (k : ∀ names, names ≠ [] → stale names → l.AskedNext names as) (htended : l.Tended fs as)
    (hplain : ∀ p, .ask p ∈ as → l.IsPlain p) {a : Answer} (ha : a ∈ l.answers fs c as)
    (hq : l.relative? a.path = some q) (hnames : q.components = names.map .name) :
    a.ignored ↔ l.Ignores a.fs names := by
  induction as generalizing fs stale c with
  | nil => cases ha
  | cons access as ih =>
    cases access with
    | ask p =>
      rcases List.mem_cons.mp ha with rfl | ha
      · exact isIgnored_iff h k hq hnames
      · apply ih (h.isIgnored (hplain p List.mem_cons_self) k) (fun _ _ => False.elim) htended
          (fun p hp => hplain p (List.mem_cons_of_mem _ hp)) ha
    | become fs' =>
      have hfresh : l.Known fs (fun _ => False) c :=
        fun e he names hne _ => h e he names hne (k names hne)
      apply ih hfresh.become (fun names _ => htended.1 names) htended.2
        (fun p hp => hplain p (List.mem_cons_of_mem _ hp)) ha

/-- However questions and changes follow each other, a path is ignored when the files as they are
say so, if changes of ignore files are followed up and no question begins with a dot. -/
theorem ignored_iff_of_tended (l : Layers) (fs : FileSystem) (as : List Access)
    (htended : l.Tended fs as) (hplain : ∀ p, .ask p ∈ as → l.IsPlain p) {a : Answer}
    (ha : a ∈ l.answers fs [] as) (hq : l.relative? a.path = some q)
    (hnames : q.components = names.map .name) : a.ignored ↔ l.Ignores a.fs names :=
  known_nil.answers (fun _ _ => False.elim) htended hplain ha hq hnames

-- A directory `/w/a` with a file `f`, before and after an ignore file in it names `f`.
def ofNone : Layers := ⟨.ofString "/w", .ofRules (.ofString "/w") []⟩

def withEntries (es : Entries) : FileSystem :=
  ⟨.cons (.ofString "w") (.dir (.cons (.ofString "a") (.dir es) .nil)) .nil, []⟩

def OnlyFiles (es : Entries) : Prop := ∀ n e, es.get? n = some e → ∃ s, e = .file s

theorem OnlyFiles.cons {es : Entries} (h : OnlyFiles es) (n s : Bytes) :
    OnlyFiles (.cons n (.file s) es) := by
  intro m e he
  rw [Entries.get?] at he
  split at he
  · exact ⟨s, (Option.some.inj he).symm⟩
  · exact h m e he

theorem isName_ignoreFileName : IsName ignoreFileName := ⟨by decide, by decide⟩

theorem leads_in_withEntries {es : Entries} (hfiles : OnlyFiles es) {links : Nat} {place : Place}
    (h : (withEntries es).Leads true links [] (.ofString "w" :: names ++ [ignoreFileName]) place)
    (hnames : ∀ n ∈ names, IsName n) (hne : names ≠ []) : names = [.ofString "a"] := by
  have hw : IsName (.ofString "w") := ⟨by decide, by decide⟩
  obtain ⟨n, rest, rfl⟩ := List.exists_cons_of_ne_nil hne
  obtain ⟨top, e, htop, he, ⟨target, rfl⟩ | h⟩ := h.of_name hw
  · cases htop
    cases he
  obtain ⟨mid, e, hmid, he, ⟨target, rfl⟩ | h⟩ := h.of_name (hnames n List.mem_cons_self)
  · cases hmid
    simp [Entries.get?] at he
  cases hmid
  have hn : n = .ofString "a" := by
    rw [Entries.get?] at he
    split at he
    next hn => exact hn.symm
    · cases he
  subst hn
  cases rest with
  | nil => rfl
  | cons m rest =>
    obtain ⟨low, e, hlow, he, ⟨target, rfl⟩ | h⟩ := h.of_name (hnames m (by simp))
    · cases hlow
      obtain ⟨s, hs⟩ := hfiles _ _ he
      cases hs
    cases hlow
    obtain ⟨s, rfl⟩ := hfiles _ _ he
    -- There is nothing below a file.
    obtain ⟨x, xs, hx, hname⟩ : ∃ x xs, rest ++ [ignoreFileName] = x :: xs ∧ IsName x := by
      cases rest with
      | nil => exact ⟨_, _, rfl, isName_ignoreFileName⟩
      | cons x xs => exact ⟨_, _, rfl, hnames x (by simp)⟩
    have hbelow : (withEntries es).Leads true links [.ofString "w", .ofString "a", m] (x :: xs)
        place := hx ▸ h
    obtain ⟨below, -, hbelow, -⟩ := hbelow.of_name hname
    have hdir : (withEntries es).at? [.ofString "w", .ofString "a"] = some (.dir es) := rfl
    have hfile : (withEntries es).at? [.ofString "w", .ofString "a", m] = some (.file s) :=
      (FileSystem.at?_concat hdir m).trans he
    cases hfile.symm.trans hbelow

theorem read_withEntries {es : Entries} (hfiles : OnlyFiles es) (hnames : ∀ n ∈ names, IsName n)
    (hne : names ≠ []) (hother : names ≠ [.ofString "a"]) :
    ((withEntries es).read ((ofNone.root.pushAll names).push ignoreFileName)).toOption = none := by
  rw [FileSystem.read]
  cases hentry : FileSystem.entry? (withEntries es) true
      ((ofNone.root.pushAll names).push ignoreFileName) with
  | error e => rfl
  | ok e =>
    obtain ⟨place, hplace, -⟩ := FileSystem.entry?_iff.mp hentry
    obtain ⟨-, hleads⟩ := FileSystem.resolve_iff.mp hplace
    have hsegments : FileSystem.names (ofNone.root.pushAll names).bytes = .ofString "w" :: names :=
      FileSystem.names_pushAll hnames
    have hbytes : (ofNone.root.pushAll names).bytes ≠ [] := by
      intro hempty
      rw [hempty] at hsegments
      cases hsegments
    have habs : (ofNone.root.pushAll names).isAbsolute = true := Path.isAbsolute_pushAll hnames
    rw [Path.isAbsolute_push isName_ignoreFileName.1, habs,
      FileSystem.segments_push hbytes isName_ignoreFileName, hsegments] at hleads
    exact absurd (leads_in_withEntries hfiles hleads hnames hne) hother

def file : Entries := .cons (.ofString "f") (.file []) .nil

theorem onlyFiles_file : OnlyFiles file := by
  apply OnlyFiles.cons
  intro n e he
  cases he

def fileAndRules : Entries := .cons ignoreFileName (.file (Bytes.ofString "/f\n")) file

def withoutRules : FileSystem := withEntries file

def withRules : FileSystem := withEntries fileAndRules

def filePath : Path := .ofString "/w/a/f"

def rulesPath : Path := .ofString "/w/a/.gitignore"

def newRules : List Access := [.ask filePath, .become withRules, .ask rulesPath, .ask filePath]

theorem tended_newRules : ofNone.Tended withoutRules newRules := by
  refine ⟨fun names h => ?_, trivial⟩
  obtain ⟨hne, hnames, hread⟩ := h
  have ha : names = [.ofString "a"] := by
    by_contra hother
    have hbefore := read_withEntries onlyFiles_file hnames hne hother
    have hrules : OnlyFiles fileAndRules := onlyFiles_file.cons _ _
    have hafter := read_withEntries hrules hnames hne hother
    exact hread (hbefore.trans hafter.symm)
  rw [ha]
  exact ⟨.ofString "a/.gitignore", by decide +kernel, by decide +kernel⟩

theorem relative?_filePath : ofNone.relative? filePath = some (.ofString "a/f") := by decide +kernel

theorem components_filePath :
    Path.components (.ofString "a/f") = [.ofString "a", .ofString "f"].map .name := by
  decide +kernel

theorem ignored_after_newRules :
    ofNone.Tended withoutRules newRules ∧ (∀ p, .ask p ∈ newRules → ofNone.IsPlain p) ∧
      ⟨withRules, filePath, true⟩ ∈ ofNone.answers withoutRules [] newRules ∧
      ofNone.Ignores withRules [.ofString "a", .ofString "f"] := by
  have hplain : ∀ p, .ask p ∈ newRules → ofNone.IsPlain p := by
    intro p hp
    apply isPlain_of_isAbsolute
    simp only [newRules, List.mem_cons, Access.ask.injEq, reduceCtorEq, false_or,
      List.not_mem_nil, or_false] at hp
    rcases hp with rfl | rfl | rfl <;> decide +kernel
  have hasked : (ofNone.isIgnored withRules filePath (ofNone.isIgnored withRules rulesPath
      (ofNone.isIgnored withoutRules filePath []).2).2).1 = true := by decide +kernel
  have hanswer : ⟨withRules, filePath, true⟩ ∈ ofNone.answers withoutRules [] newRules := by
    simp [newRules, answers, hasked]
  exact ⟨tended_newRules, hplain, hanswer,
    (ignored_iff_of_tended ofNone withoutRules newRules tended_newRules hplain hanswer
      relative?_filePath components_filePath).mp rfl⟩

/-- A question that begins with a dot leaves rules behind whose directory is spelled with that dot,
and they match no path that is spelled without. -/
theorem not_ignored_iff_of_dot : ¬∀ (l : Layers) (fs : FileSystem) (as : List Access),
    l.Tended fs as → ∀ a ∈ l.answers fs [] as, ∀ q names, l.relative? a.path = some q →
      q.components = names.map .name → (a.ignored ↔ l.Ignores a.fs names) := by
  intro h
  let dotted : List Access := [.ask (.ofString "./a/f"), .ask filePath]
  have hasked : (ofNone.isIgnored withRules filePath
      (ofNone.isIgnored withRules (.ofString "./a/f") []).2).1 = false := by decide +kernel
  have hanswer : ⟨withRules, filePath, false⟩ ∈ ofNone.answers withRules [] dotted := by
    simp [dotted, answers, hasked]
  have hignores : ofNone.Ignores withRules [.ofString "a", .ofString "f"] :=
    ⟨[.ofString "a", .ofString "f"], by simp, List.prefix_rfl, by decide +kernel⟩
  cases (h ofNone withRules dotted trivial _ hanswer _ _ relative?_filePath
    components_filePath).mpr hignores

end Layers

end ChunkWatch.Ignore
