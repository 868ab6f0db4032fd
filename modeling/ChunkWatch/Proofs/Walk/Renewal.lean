import ChunkWatch.Proofs.Classifier
import ChunkWatch.Proofs.Ignore.Current
import ChunkWatch.Proofs.Walk.Tracking

/-! Walks whose oracle remembers rules from before.  They find what a walk finds that remembers
nothing, if the rules of the directories on the way are those of their files, or are read anew
because the ignore file comes first in its directory. -/

namespace ChunkWatch

open Component (IsName)
open Classifier (repositoryDir)
open Ignore (Cache Layers ignoreFileName)
open Ignore.Layers (Below along)

variable {l : Layers} {fs : FileSystem} {memory : Cache} {cs ds : List Component}

namespace Ignore.Layers

def CurrentTo (l : Layers) (fs : FileSystem) (cs : List Component) (c : Cache) : Prop :=
  ∀ ds, ds ≠ [] → ds <+: cs → c.Current fs (along l.root ds)

def Opens (l : Layers) (fs : FileSystem) (cs : List Component) (es : Entries) (c : Cache) : Prop :=
  ∀ ds, ds ≠ [] → ds <+: cs →
    c.Current fs (along l.root ds) ∨ ds = cs ∧ ∃ e rest, es = .cons ignoreFileName e rest

def Renews (l : Layers) (fs : FileSystem) (c c' : Cache) : Prop :=
  ∀ ds, Below ds → c.Current fs (along l.root ds) → c'.Current fs (along l.root ds)

theorem map_name_concat (cs : List Component) (names : List Bytes) (n : Bytes) :
    cs ++ (names ++ [n]).map Component.name = cs ++ names.map .name ++ [.name n] := by simp

theorem Renews.trans {c c' c'' : Cache} (h : l.Renews fs c c') (k : l.Renews fs c' c'') :
    l.Renews fs c c'' := fun ds hds hcurrent => k ds hds (h ds hds hcurrent)

theorem CurrentTo.opens (h : l.CurrentTo fs cs memory) (es : Entries) : l.Opens fs cs es memory :=
  fun ds hne hds => .inl (h ds hne hds)

theorem CurrentTo.mono {memory' : Cache} (h : l.CurrentTo fs cs memory) (hcs : Below cs)
    (k : l.Renews fs memory memory') : l.CurrentTo fs cs memory' :=
  fun ds hne hds => k ds (hcs.toward hds) (h ds hne hds)

theorem sees_of_above
    (h : ∀ ds, ds ≠ [] → ds <+: cs → ds ≠ cs → memory.Current fs (along l.root ds)) :
    l.Sees fs cs memory := by
  intro ds hne hds
  exact .inl (h ds hne (hds.trans cs.dropLast_prefix) (ne_of_prefix_dropLast hne hds))

theorem Opens.sees {n : Bytes} {e : Entry} {es : Entries}
    (h : l.Opens fs cs (.cons n e es) memory) : l.Sees fs (cs ++ [.name n]) memory := by
  intro ds hne hds
  rw [List.dropLast_concat] at hds
  refine (h ds hne hds).imp_right ?_
  rintro ⟨rfl, e', rest, heq⟩
  cases heq
  rfl

end Ignore.Layers

namespace Classifier

variable {c : Classifier Cache} {p : Path} {isDir : Bool}

theorem IsLayered.components_ne_nil (h : c.IsLayered l) : l.root.components ≠ [] := by
  rw [h.root]
  exact Path.components_ne_nil h.bytes_ne_nil

theorem IsLayered.isAbsolute_join (h : c.IsLayered l) (q : Path) :
    (c.root.join q).isAbsolute = true := by
  by_cases hq : q.isAbsolute = true
  · rwa [Path.join, if_pos hq]
  · rw [Path.isAbsolute_join (Bool.eq_false_iff.mpr hq) h.bytes_ne_nil, h.isAbsolute]

theorem IsLayered.absolute_join (h : c.IsLayered l) (q : Path) :
    c.absolute (c.root.join q) = c.root.join q := by
  rw [absolute, if_pos (h.isAbsolute_join q)]

theorem IsLayered.below_of_components (h : c.IsLayered l)
    (hp : p.components = c.root.components ++ cs) : Below cs := by
  rw [← h.root] at hp
  obtain ⟨q, -, rfl, hlead⟩ := Layers.relative?_of_components h.components_ne_nil hp
  exact Layers.below_of_lead_none hlead

theorem IsLayered.renews (h : c.IsLayered l) (fs : FileSystem) (p : Path) (isDir : Bool)
    (memory : Cache) :
    l.Renews fs memory ((c.shouldIgnoreEntry fs p isDir).run memory).2 := by
  intro ds hds hcurrent
  rw [run_shouldIgnoreEntry]
  split
  · exact hcurrent
  · rw [h.oracle]
    exact Layers.current_isIgnored h.components_ne_nil (h.isAbsolute_absolute p) hcurrent hds

theorem IsLayered.inRepositoryDir_iff (h : c.IsLayered l)
    (hp : (c.absolute p).components = c.root.components ++ cs) :
    inRepositoryDir ((c.relativePath? (c.absolute p)).getD (c.absolute p)) ↔
      .name repositoryDir ∈ cs := by
  obtain ⟨q, hq, hcs⟩ := Path.stripPrefix?_of_components
    (Path.components_ne_nil h.bytes_ne_nil) hp
  rw [relativePath?, h.isAbsolute_absolute, if_pos rfl, hq, Option.getD_some, inRepositoryDir, hcs,
    List.contains_iff_mem]

theorem IsLayered.current_of_file (h : c.IsLayered l)
    (hp : (c.absolute p).components = c.root.components ++ (cs ++ [.name ignoreFileName]))
    (k : .name repositoryDir ∉ cs) :
    ((c.shouldIgnoreEntry fs p isDir).run memory).2.Current fs (along l.root cs) := by
  have houtside : .name repositoryDir ∉ cs ++ [.name ignoreFileName] := by
    rw [List.mem_append, not_or]
    exact ⟨k, by decide⟩
  rw [run_shouldIgnoreEntry, if_neg (mt (h.inRepositoryDir_iff hp).mp houtside), h.oracle]
  rw [← h.root] at hp
  exact Layers.current_isIgnored_of_file h.components_ne_nil hp

theorem IsLayered.verdict_eq (h : c.IsLayered l)
    (hp : (c.absolute p).components = c.root.components ++ cs) (k : l.Sees fs cs memory) :
    ((c.shouldIgnoreEntry fs p isDir).run memory).1
      = ((c.shouldIgnoreEntry fs p isDir).run []).1 := by
  rw [run_shouldIgnoreEntry, run_shouldIgnoreEntry]
  split
  · rfl
  · rw [h.oracle]
    rw [← h.root] at hp
    simp only [Oracle.ofLayers, StateT.run]
    rw [k.isIgnored_eq h.components_ne_nil hp]

structure IsLayeredAt (c : Classifier Cache) (l : Layers) (start : Path) (cs : List Component) :
    Prop extends c.IsLayered l where
  components : start.components = c.root.components ++ cs
  absolute : start.isAbsolute
  outside : .name repositoryDir ∉ cs

def verdictIn (c : Classifier Cache) (fs : FileSystem) (start : Path) (names : List Bytes)
    (isDir : Bool) : Bool :=
  ((c.shouldIgnoreEntry fs (start.pushAll names) isDir).run []).1

namespace IsLayeredAt

variable {start : Path} {names : List Bytes} {n : Bytes}

theorem below (h : c.IsLayeredAt l start cs) : Below cs :=
  h.below_of_components h.components

theorem below_names (h : c.IsLayeredAt l start cs) (hnames : ∀ m ∈ names, IsName m) :
    Below (cs ++ names.map .name) :=
  List.forall_mem_append.mpr ⟨h.below, Layers.below_names hnames⟩

theorem components_absolute (h : c.IsLayeredAt l start cs) (hnames : ∀ m ∈ names, IsName m) :
    (c.absolute (start.pushAll names)).components
      = c.root.components ++ (cs ++ names.map .name) := by
  rw [Classifier.absolute, Path.isAbsolute_pushAll hnames, if_pos h.absolute,
    Path.components_pushAll hnames, h.components, List.append_assoc]

theorem name_mem_iff (h : c.IsLayeredAt l start cs) :
    .name repositoryDir ∈ cs ++ names.map .name ↔ repositoryDir ∈ names := by
  rw [List.mem_append, or_iff_right h.outside, List.mem_map]
  simp

theorem verdictIn_of_mem (h : c.IsLayeredAt l start cs) (hnames : ∀ m ∈ names, IsName m)
    (k : repositoryDir ∈ names) : c.verdictIn fs start names isDir = true := by
  have hinside := (h.inRepositoryDir_iff (h.components_absolute hnames)).mpr (h.name_mem_iff.mpr k)
  rw [verdictIn, run_shouldIgnoreEntry, if_pos hinside]

theorem ask (h : c.IsLayeredAt l start cs) (hnames : ∀ m ∈ names ++ [n], IsName m)
    (houtside : repositoryDir ∉ names)
    (hsees : l.Sees fs (cs ++ (names ++ [n]).map .name) memory) (isDir : Bool) :
    ((c.shouldIgnoreEntry fs (start.pushAll (names ++ [n])) isDir).run memory).1
        = c.verdictIn fs start (names ++ [n]) isDir ∧
      l.CurrentTo fs (cs ++ names.map .name)
        ((c.shouldIgnoreEntry fs (start.pushAll (names ++ [n])) isDir).run memory).2 := by
  have hcomponents := h.components_absolute hnames
  refine ⟨h.verdict_eq hcomponents hsees, fun ds hne hds => ?_⟩
  have hbelow : Below ds :=
    (h.below_names (List.forall_mem_append.mp hnames).1).toward hds
  rw [Layers.map_name_concat] at hsees hcomponents
  rcases hsees ds hne (by rwa [List.dropLast_concat]) with hcurrent | hfile
  · exact h.renews fs _ isDir memory ds hbelow hcurrent
  · obtain ⟨rfl, -⟩ := List.append_inj' hfile rfl
    rw [hfile] at hcomponents
    exact h.current_of_file hcomponents (mt h.name_mem_iff.mp houtside)

end IsLayeredAt

end Classifier

mutual

def Entry.Enters (rejects : List Bytes → Bool → Bool) (holds : List Bytes → Entries → Prop)
    (names : List Bytes) : Entry → Prop
  | .dir es => rejects names true = false → holds names es ∧ es.Enters rejects holds names
  | _ => True

def Entries.Enters (rejects : List Bytes → Bool → Bool) (holds : List Bytes → Entries → Prop)
    (names : List Bytes) : Entries → Prop
  | .nil => True
  | .cons n e es => e.Enters rejects holds (names ++ [n]) ∧ es.Enters rejects holds names

end

theorem enters_of_at? {rejects : List Bytes → Bool → Bool} {holds : List Bytes → Entries → Prop} :
    (∀ e : Entry, ∀ {names : List Bytes}, e.Sound →
      (∀ ns ds, e.at? ns = some (.dir ds) →
        (∀ dir, dir <+: ns → rejects (names ++ dir) true = false) → holds (names ++ ns) ds) →
      e.Enters rejects holds names) ∧
    ∀ es : Entries, ∀ {names : List Bytes}, es.Sound →
      (∀ x ∈ es.toList, ∀ ns ds, x.2.at? ns = some (.dir ds) →
        (∀ dir, dir <+: ns → rejects (names ++ [x.1] ++ dir) true = false) →
        holds (names ++ [x.1] ++ ns) ds) →
      es.Enters rejects holds names := by
  apply Entry.induction_with_entries
  case file => exact fun _ _ _ _ => trivial
  case link => exact fun _ _ _ _ => trivial
  case dir =>
    intro es ih names hs hholds hkept
    rw [Entry.Sound] at hs
    refine ⟨?_, ih hs fun x hx ns ds hds habove => ?_⟩
    · have hhere := hholds [] es rfl
      rw [List.append_nil] at hhere
      exact hhere fun dir hdir => by rwa [List.prefix_nil.mp hdir, List.append_nil]
    · have hat : (Entry.dir es).at? (x.1 :: ns) = some (.dir ds) :=
        Option.bind_eq_some_iff.mpr ⟨x.2, hs.get? hx, hds⟩
      rw [List.append_assoc, List.singleton_append]
      refine hholds _ _ hat fun dir hdir => ?_
      cases dir with
      | nil => rwa [List.append_nil]
      | cons n dir =>
        obtain ⟨rfl, hrest⟩ := List.cons_prefix_cons.mp hdir
        simpa using habove dir hrest
  case nil => exact fun _ _ => trivial
  case cons =>
    intro n e es ihe ihes names hs hholds
    rw [Entries.Sound] at hs
    obtain ⟨-, -, he, hes⟩ := hs
    obtain ⟨hfirst, hrest⟩ := List.forall_mem_cons.mp hholds
    exact ⟨ihe he hfirst, ihes hes hrest⟩

namespace Walk

theorem Accounts.mono {σ τ ε : Type} {K L : σ → Prop} {rejects : List Bytes → Bool → Bool}
    {visit : Visitor ε τ} {xs : List (List Bytes × Bool)} {p : Progress σ τ}
    {r : Except ε (Progress σ τ)} (h : Accounts K rejects visit xs p r)
    (k : ∀ memory, K memory → L memory) : Accounts L rejects visit xs p r := by
  obtain ⟨memory, hmemory, hr⟩ := h
  exact ⟨memory, k memory hmemory, hr⟩

variable {τ ε : Type} {c : Classifier Cache} {start : Path} {visit : Visitor ε τ} {first : Cache}

/-- A directory of which nothing stale was remembered at first, or that begins with its ignore
file. -/
def InOrder (l : Layers) (fs : FileSystem) (cs : List Component) (first : Cache)
    (names : List Bytes) (es : Entries) : Prop :=
  first.Current fs (along l.root (cs ++ names.map .name)) ∨
    ∃ e rest, es = .cons ignoreFileName e rest

theorem opens_of_inOrder {names : List Bytes} {n : Bytes} {es : Entries}
    (hbelow : Below (cs ++ (names ++ [n]).map .name))
    (habove : l.CurrentTo fs (cs ++ names.map .name) memory) (hrenews : l.Renews fs first memory)
    (h : InOrder l fs cs first (names ++ [n]) es) :
    l.Opens fs (cs ++ (names ++ [n]).map .name) es memory := by
  intro ds hne hds
  rw [Layers.map_name_concat, List.prefix_concat_iff, ← Layers.map_name_concat] at hds
  rcases hds with rfl | hds
  · exact h.imp (hrenews _ hbelow) fun hes => ⟨rfl, hes⟩
  · exact .inl (habove ds hne hds)

/-- A walk finds what it would find if nothing were remembered: the directory an entry is in is in
order when the entry is asked about, and it is so from then on. -/
theorem accounts_inOrder (h : c.IsLayeredAt l start cs) :
    (∀ e : Entry, ∀ {names : List Bytes} {n : Bytes} {p : Progress Cache τ},
      (∀ m ∈ names ++ [n], IsName m) → repositoryDir ∉ names → e.Sound →
      l.Renews fs first p.memory → l.Sees fs (cs ++ (names ++ [n]).map .name) p.memory →
      e.Enters (c.verdictIn fs start) (InOrder l fs cs first) (names ++ [n]) →
      Accounts (fun m => l.Renews fs p.memory m ∧ l.CurrentTo fs (cs ++ names.map .name) m)
        (c.verdictIn fs start) visit (e.met (c.verdictIn fs start) (names ++ [n])) p
        (entry c fs visit (start.pushAll names) (.pushAll ⟨[]⟩ names) n e p)) ∧
    ∀ es : Entries, ∀ {names : List Bytes} {p : Progress Cache τ},
      (∀ m ∈ names, IsName m) → repositoryDir ∉ names → es.Sound →
      l.Renews fs first p.memory → l.Opens fs (cs ++ names.map .name) es p.memory →
      es.Enters (c.verdictIn fs start) (InOrder l fs cs first) names →
      Accounts (l.Renews fs p.memory) (c.verdictIn fs start) visit
        (es.met (c.verdictIn fs start) names) p
        (entries c fs visit (start.pushAll names) (.pushAll ⟨[]⟩ names) es p) := by
  apply Entry.induction_with_entries
  case file =>
    intro s names n p hnames houtside _ _ hsees _
    obtain ⟨hverdict, hcurrent⟩ := h.ask hnames houtside hsees false
    exact accounts_leaf rfl hverdict ⟨h.renews fs _ _ _, hcurrent⟩
  case link =>
    intro s names n p hnames houtside _ _ hsees _
    obtain ⟨hverdict, hcurrent⟩ := h.ask hnames houtside hsees false
    exact accounts_leaf rfl hverdict ⟨h.renews fs _ _ _, hcurrent⟩
  case dir =>
    intro es ih names n p hnames houtside hs hrenews hsees henters
    obtain ⟨hverdict, hcurrent⟩ := h.ask hnames houtside hsees true
    have hasked := h.renews fs (start.pushAll (names ++ [n])) true p.memory
    refine accounts_dir hverdict ⟨hasked, hcurrent⟩ fun hkept q hq => ?_
    rw [← hq] at hcurrent hasked
    obtain ⟨hinOrder, hinside⟩ := henters hkept
    have hkeptOutside : repositoryDir ∉ names ++ [n] := by
      intro hmem
      rw [h.verdictIn_of_mem hnames hmem] at hkept
      cases hkept
    have hbelow := h.below_names hnames
    have hopens := opens_of_inOrder hbelow hcurrent (hrenews.trans hasked) hinOrder
    refine (ih hnames hkeptOutside hs (hrenews.trans hasked) hopens hinside).mono fun m hm => ?_
    have hnames' := (List.forall_mem_append.mp hnames).1
    exact ⟨hasked.trans hm, hcurrent.mono (h.below_names hnames') hm⟩
  case nil => exact fun _ _ _ _ _ _ => ⟨_, fun _ _ => id, rfl⟩
  case cons =>
    intro n e es ihe ihes names p hnames houtside hs hrenews hopens henters
    rw [Entries.Sound] at hs
    obtain ⟨hn, -, he, hes⟩ := hs
    obtain ⟨hfirst, hrest⟩ := henters
    have hall : ∀ m ∈ names ++ [n], IsName m :=
      List.forall_mem_append.mpr ⟨hnames, List.forall_mem_singleton.mpr hn⟩
    have hsees : l.Sees fs (cs ++ (names ++ [n]).map .name) p.memory := by
      rw [Layers.map_name_concat]
      exact hopens.sees
    refine accounts_cons (ihe hall houtside he hrenews hsees hfirst) (fun _ hm => hm.1) ?_
    rintro q ⟨hlater, hcurrent⟩
    refine (ihes hnames houtside hes (hrenews.trans hlater) (hcurrent.opens es) hrest).mono ?_
    exact fun m hm => hlater.trans hm

theorem made_of_accounts {K : Cache → Prop} {rejects : List Bytes → Bool → Bool}
    {xs : List (List Bytes × Bool)} {r : Except Error (Progress Cache (List SourceEntry))}
    (h : Accounts K rejects collect xs ⟨memory, .zero, []⟩ r) :
    ∃ q, r = .ok q ∧ q.made = (kept rejects xs).reverse := by
  obtain ⟨last, -, hr⟩ := h
  obtain ⟨tally, hfold⟩ := foldlM_collect rejects xs (.zero, [])
  rw [hfold, List.append_nil] at hr
  exact ⟨_, hr, rfl⟩

theorem run_inOrder {es : Entries} (h : c.IsLayeredAt l start cs)
    (hdir : fs.entry? true start = .ok (.dir es)) (hs : es.Sound)
    (hkept : c.verdictIn fs start [] true = false)
    (habove : ∀ ds, ds ≠ [] → ds <+: cs → ds ≠ cs → memory.Current fs (along l.root ds))
    (hinside : ∀ ns ds, (Entry.dir es).at? ns = some (.dir ds) →
      (∀ dir, dir <+: ns → c.verdictIn fs start dir true = false) →
      InOrder l fs cs memory ns ds) :
    ∃ q, run c fs collect start [] memory = .ok q ∧
      q.made = (kept (c.verdictIn fs start) (es.met (c.verdictIn fs start) [])).reverse := by
  have hsound : (Entry.dir es).Sound := hs
  have hentered : (Entry.dir es).Enters (c.verdictIn fs start) (InOrder l fs cs memory) [] :=
    enters_of_at?.1 (.dir es) hsound hinside
  obtain ⟨hhere, henters⟩ := hentered hkept
  have hopens : l.Opens fs (cs ++ [].map .name) es memory := by
    intro ds hne hds
    by_cases heq : ds = cs ++ [].map .name
    · rw [heq]
      exact hhere.imp_right fun hes => ⟨rfl, hes⟩
    · rw [List.map_nil, List.append_nil] at hds heq
      exact .inl (habove ds hne hds heq)
  have hnames : ∀ m ∈ [], IsName m := List.forall_mem_nil IsName
  have haccounts : Accounts _ _ collect _ ⟨memory, .zero, []⟩ _ :=
    (accounts_inOrder h).2 es hnames List.not_mem_nil hs (fun _ _ => id) hopens henters
  rw [run, entriesAt_of_isDir hdir]
  exact made_of_accounts haccounts

theorem collects_as_fresh (memory : Cache) {es : Entries} (h : c.IsLayeredAt l start cs)
    (hdir : fs.entry? true start = .ok (.dir es)) (hs : es.Sound)
    (hkept : c.verdictIn fs start [] true = false) :
    ∃ found, run c fs collect start [] [] = .ok found ∧
      ((∀ ds, ds ≠ [] → ds <+: cs → ds ≠ cs → memory.Current fs (along l.root ds)) →
        (∀ ns ds, (Entry.dir es).at? ns = some (.dir ds) → repositoryDir ∉ ns →
          ns = [] ∨ ⟨.pushAll ⟨[]⟩ ns, true⟩ ∈ found.made → InOrder l fs cs memory ns ds) →
        ∃ q, run c fs collect start [] memory = .ok q ∧ q.made = found.made) := by
  obtain ⟨found, hfound, hmade⟩ := run_inOrder h hdir hs hkept
    (fun ds _ _ _ => Cache.current_nil fs _) (fun ns ds _ _ => .inl (Cache.current_nil fs _))
  refine ⟨found, hfound, fun haround hinside => ?_⟩
  rw [hmade]
  apply run_inOrder h hdir hs hkept haround
  intro ns ds hds habove
  have hsound : (Entry.dir es).Sound := hs
  have houtside : repositoryDir ∉ ns := by
    intro hmem
    have hrejected : c.verdictIn fs start ns true = true :=
      h.verdictIn_of_mem (FileSystem.isName_of_at? hsound hds) hmem
    rw [habove ns List.prefix_rfl] at hrejected
    cases hrejected
  apply hinside ns ds hds houtside
  by_cases hne : ns = []
  · exact .inl hne
  · right
    have hmet : (ns, true) ∈ es.met (c.verdictIn fs start) [] :=
      (Entries.mem_met hs).mpr ⟨ns, .dir ds, hne, hds, rfl, fun dir hdir _ _ => habove dir hdir⟩
    rw [hmade, List.mem_reverse, kept, List.mem_map]
    exact ⟨(ns, true), List.mem_filter.mpr ⟨hmet, by simp [habove ns List.prefix_rfl]⟩, rfl⟩

end Walk

namespace Classifier

variable {τ : Type} {c : Classifier Cache} {start : Path}

theorem IsLayered.renews_run (h : c.IsLayered l) (hs : fs.Sound) {visit : Walk.Visitor Error τ}
    {made : τ} {q : Walk.Progress Cache τ} (k : Walk.run c fs visit start made memory = .ok q) :
    l.Renews fs memory q.memory := by
  intro ds hds hcurrent
  have htracks : Walk.Tracks c fs start visit fun m _ => m.Current fs (along l.root ds) :=
    ⟨fun isDir _ hm => h.renews fs _ isDir _ ds hds hm,
      fun isDir _ _ hm _ _ => h.renews fs _ isDir _ ds hds hm⟩
  exact htracks.run hs k hcurrent

theorem IsLayered.renews_relevantDirs (h : c.IsLayered l) (hs : fs.Sound) {dirs : List Path}
    {memory' : Cache} (k : Walk.relevantDirs c fs start memory = .ok (dirs, memory')) :
    l.Renews fs memory memory' := by
  simp only [Walk.relevantDirs, Except.map] at k
  split at k
  · cases k
  next hrun =>
    cases k
    exact h.renews_run hs hrun

def CurrentOfFound (c : Classifier Cache) (l : Layers) (fs : FileSystem) (start : Path)
    (memory : Cache) (made : List SourceEntry) : Prop :=
  ∀ e ∈ made, ∀ ds,
    (start.join e.path).components = c.root.components ++ (ds ++ [.name ignoreFileName]) →
    memory.Current fs (along l.root ds)

theorem IsLayered.currentOfFound_run (h : c.IsLayered l) (hs : fs.Sound) (hstart : start.isAbsolute)
    {q : Walk.Progress Cache (List SourceEntry)}
    (k : Walk.run c fs Walk.collect start [] memory = .ok q) :
    c.CurrentOfFound l fs start q.memory q.made := by
  have hasked {names memory made} (isDir : Bool) (hP : c.CurrentOfFound l fs start memory made) :
      c.CurrentOfFound l fs start
        ((c.shouldIgnoreEntry fs (start.pushAll names) isDir).run memory).2 made := by
    intro e he ds hfile
    have hbelow := (h.below_of_components hfile).toward ⟨_, rfl⟩
    exact h.renews fs _ isDir memory ds hbelow (hP e he ds hfile)
  have htracks : Walk.Tracks c fs start Walk.collect (c.CurrentOfFound l fs start) := by
    refine ⟨fun isDir _ => hasked isDir, ?_⟩
    intro names memory made made' isDir hne hnames hP hkept hmade
    cases hmade
    refine List.forall_mem_cons.mpr ⟨fun ds hfile => ?_, hasked isDir hP⟩
    have habs : c.absolute (start.pushAll names) = start.pushAll names := by
      rw [absolute, Path.isAbsolute_pushAll hnames, if_pos hstart]
    rw [Path.join_pushAll_empty start hne hnames, ← habs] at hfile
    refine h.current_of_file hfile fun hmem => ?_
    have hinside := (h.inRepositoryDir_iff hfile).mpr (List.mem_append_left _ hmem)
    rw [run_shouldIgnoreEntry, if_pos hinside] at hkept
    cases hkept
  exact htracks.run hs k (List.forall_mem_nil _)

end Classifier

end ChunkWatch
