import ChunkWatch.Proofs.FileSystem.Above
import ChunkWatch.Proofs.Walk.Restriction

namespace ChunkWatch

open Component (IsName)

variable {σ : Type} {c : Classifier σ} {fs : FileSystem} {ignored : Path → Bool}

/-- A spelling of a path, which is its own one if the oracle tells spellings from each other. -/
def Path.Spells (ignored : Path → Bool) (q p : Path) : Prop :=
  q = p ∨ q.same p ∧ ∀ a b : Path, a.same b → ignored a = ignored b

theorem Path.Spells.same {p q : Path} (h : q.Spells ignored p) : q.same p := by
  rcases h with rfl | ⟨hsame, -⟩
  · exact same_refl q
  · exact hsame

namespace Classifier

def Answers (c : Classifier σ) (fs : FileSystem) (ignored : Path → Bool) : Prop :=
  ∀ p memory, ((c.oracle fs p).run memory).1 = ignored p

def verdict (c : Classifier σ) (ignored : Path → Bool) (p : Path) (isDir : Bool) : Bool :=
  inRepositoryDir ((c.relativePath? (c.absolute p)).getD (c.absolute p)) ||
    (ignored (c.absolute p) || !isDir && !c.isSupported (c.absolute p))

theorem Answers.verdict (h : c.Answers fs ignored) (p : Path) (isDir : Bool) (memory : σ) :
    ((c.shouldIgnoreEntry fs p isDir).run memory).1 = c.verdict ignored p isDir := by
  rw [run_shouldIgnoreEntry, Classifier.verdict]
  split
  next hinside => rw [hinside, Bool.true_or]
  next houtside =>
    rw [Bool.eq_false_iff.mpr houtside, Bool.false_or]
    exact congrArg (· || _) (h (c.absolute p) memory)

theorem same_absolute {p q : Path} (h : p.same q) : (c.absolute p).same (c.absolute q) := by
  have habs : p.isAbsolute = q.isAbsolute :=
    Path.isAbsolute_congr (Path.lead_eq_of_components (Path.same_iff.mp h)).1
  rw [absolute, absolute, habs]
  split
  · exact h
  · exact Path.same_iff.mpr (Path.components_join_congr (Path.same_iff.mp h))

theorem inRepositoryDir_congr {p q : Path} (h : p.same q) :
    inRepositoryDir p = inRepositoryDir q := by
  rw [inRepositoryDir, inRepositoryDir, Path.same_iff.mp h]

theorem same_relativePath {p q : Path} (hroot : c.root.components ≠ []) (h : p.same q) :
    ((c.relativePath? p).getD p).same ((c.relativePath? q).getD q) := by
  have habs : p.isAbsolute = q.isAbsolute :=
    Path.isAbsolute_congr (Path.lead_eq_of_components (Path.same_iff.mp h)).1
  rw [relativePath?, relativePath?, habs]
  split
  · cases hp : p.stripPrefix? c.root with
    | none =>
      have hq : q.stripPrefix? c.root = none := by
        rw [← Option.not_isSome_iff_eq_none, Path.stripPrefix?_isSome_iff hroot] at hp ⊢
        rwa [← Path.startsWith_congr h]
      rw [hq]
      exact h
    | some r =>
      have hcomponents := Path.components_of_stripPrefix? hp hroot
      rw [Path.same_iff.mp h] at hcomponents
      obtain ⟨r', hq, hr'⟩ := Path.stripPrefix?_of_components hroot hcomponents
      rw [hq]
      exact Path.same_iff.mpr hr'.symm
  · exact h

theorem verdict_congr {p q : Path} {isDir : Bool} (hroot : c.root.components ≠ [])
    (hignored : ∀ a b : Path, a.same b → ignored a = ignored b) (h : p.same q) :
    c.verdict ignored p isDir = c.verdict ignored q isDir := by
  have habs := c.same_absolute h
  rw [verdict, verdict, inRepositoryDir_congr (same_relativePath hroot habs),
    hignored _ _ habs, c.isSupported_congr habs]

end Classifier

namespace Walk

theorem judges_of_answers {start : Path} {rejects : List Bytes → Bool → Bool}
    (h : c.Answers fs ignored) (hrejects : ∀ ns isDir, (∀ n ∈ ns, IsName n) →
      c.verdict ignored (start.pushAll ns) isDir = rejects ns isDir) :
    Judges c fs start (fun _ => True) rejects where
  verdict isDir _ hns _ := (h.verdict _ isDir _).trans (hrejects _ isDir hns)
  keeps _ _ _ _ := trivial

theorem made_of_judges {start : Path} {rejects : List Bytes → Bool → Bool} {es : Entries}
    (hj : Judges c fs start (fun _ => True) rejects) (hdir : fs.entry? true start = .ok (.dir es))
    (hs : es.Sound) (memory : σ) : ∃ q, run c fs collect start [] memory = .ok q ∧
      q.made.reverse = kept rejects (es.met rejects []) := by
  have hmemory : (fun _ : σ => True) memory := trivial
  obtain ⟨last, -, hrun⟩ := accounts_run hj hdir hs hmemory collect []
  obtain ⟨tally, hfold⟩ := foldlM_collect rejects (es.met rejects []) (.zero, [])
  refine ⟨⟨last, tally, (kept rejects (es.met rejects [])).reverse⟩, ?_, List.reverse_reverse _⟩
  rw [hrun, hfold, List.append_nil]
  rfl

structure Listed (es : List SourceEntry) : Prop where
  bare : ∀ e ∈ es, e.path.lead = none
  proper : ∀ e ∈ es, e.path.components ≠ []
  once : es.Pairwise fun e f => ¬e.path.same f.path

theorem listed_kept {rejects : List Bytes → Bool → Bool} {es : Entries} (hs : es.Sound) :
    Listed (kept rejects (es.met rejects [])) := by
  have hnames {x : List Bytes × Bool} (hx : x ∈ es.met rejects []) :
      (Path.pushAll ⟨[]⟩ x.1).components = x.1.map .name :=
    Path.components_pushAll (hs.isName_of_mem_met hx).2 _
  constructor
  · intro e he
    obtain ⟨x, hx, rfl⟩ := List.mem_map.mp he
    exact Path.lead_of_names (hnames (List.mem_filter.mp hx).1)
  · intro e he
    obtain ⟨x, hx, rfl⟩ := List.mem_map.mp he
    have hx := (List.mem_filter.mp hx).1
    rw [hnames hx]
    exact mt List.map_eq_nil_iff.mp (hs.isName_of_mem_met hx).1
  · have hnodup : ((es.met rejects []).map Prod.fst).Nodup := hs.met_nodup
    rw [kept, List.pairwise_map]
    have hpairwise := List.Pairwise.filter (fun x => !rejects x.1 x.2) (List.pairwise_map.mp hnodup)
    refine hpairwise.imp_of_mem fun hx hy hne hsame => hne ?_
    have hcomponents := Path.same_iff.mp hsame
    rw [hnames (List.mem_filter.mp hx).1, hnames (List.mem_filter.mp hy).1] at hcomponents
    exact Component.names_injective hcomponents

namespace Listed

variable {es : List SourceEntry} {e : SourceEntry} {p : Path}

theorem components_join (h : Listed es) (he : e ∈ es) (p : Path) :
    (p.join e.path).components = p.components ++ e.path.components :=
  Path.components_join (h.bare e he)

theorem pairwise_join (h : Listed es) (p : Path) :
    (p :: es.map fun e => p.join e.path).Pairwise fun a b => ¬a.same b := by
  apply List.pairwise_cons.mpr
  constructor
  · intro a ha hsame
    obtain ⟨e, he, rfl⟩ := List.mem_map.mp ha
    rw [Path.same_iff, h.components_join he] at hsame
    exact h.proper e he (List.self_eq_append_right.mp hsame)
  · rw [List.pairwise_map]
    refine h.once.imp_of_mem fun he hf hne hsame => hne ?_
    rw [Path.same_iff, h.components_join he, h.components_join hf] at hsame
    exact Path.same_iff.mpr (List.append_cancel_left hsame)

theorem filter (h : Listed es) (f : SourceEntry → Bool) : Listed (es.filter f) where
  bare e he := h.bare e (List.mem_of_mem_filter he)
  proper e he := h.proper e (List.mem_of_mem_filter he)
  once := h.once.filter f

end Listed

structure Resumes (c : Classifier σ) (fs : FileSystem) (ignored : Path → Bool)
    (found : List SourceEntry) (d : SourceEntry) (q : Path) : Prop where
  isDir : fs.isDir (c.root.join q)
  kept : c.verdict ignored (c.root.join q) true = false
  walk : ∀ memory, ∃ part, run c fs collect (c.root.join q) [] memory = .ok part ∧
    Listed part.made.reverse ∧ found.filter (·.isBelow d) =
      part.made.reverse.map fun e => ⟨d.path.join e.path, e.isDir⟩

theorem verdict_spelt {q : Path} {ms ns : List Bytes} {isDir : Bool}
    (hroot : c.root.components ≠ []) (hne : ms ≠ []) (hms : ∀ m ∈ ms, IsName m)
    (hns : ∀ n ∈ ns, IsName n) (hq : q.Spells ignored (.pushAll ⟨[]⟩ ms)) :
    c.verdict ignored ((c.root.join q).pushAll ns) isDir =
      c.verdict ignored (c.root.pushAll (ms ++ ns)) isDir := by
  have hjoin := Path.join_pushAll_empty c.root hne hms
  rw [Path.pushAll_append, ← hjoin]
  rcases hq with rfl | ⟨hsame, hignored⟩
  · rfl
  · refine Classifier.verdict_congr hroot hignored (Path.same_iff.mpr ?_)
    rw [Path.components_pushAll hns, Path.components_pushAll hns,
      Path.components_join_congr (Path.same_iff.mp hsame)]

theorem run_resumes (hs : fs.Sound) (hroot : fs.isDir c.root) (hanswers : c.Answers fs ignored)
    (memory : σ) : ∃ full, run c fs collect c.root [] memory = .ok full ∧
      ∀ d ∈ full.made, d.isDir → ∀ q : Path, q.Spells ignored d.path →
        Resumes c fs ignored full.made.reverse d q := by
  obtain ⟨es, hes⟩ := FileSystem.isDir_iff.mp hroot
  obtain ⟨place, hplace, hdir⟩ := FileSystem.entry?_iff.mp hes
  have hsound := hs.entries hdir
  have hcomponents := Path.components_ne_nil (FileSystem.resolve_iff.mp hplace).1
  obtain ⟨rejects, hrejects⟩ : ∃ rejects : List Bytes → Bool → Bool,
      ∀ ns isDir, c.verdict ignored (c.root.pushAll ns) isDir = rejects ns isDir :=
    ⟨_, fun _ _ => rfl⟩
  obtain ⟨full, hrun, hmade⟩ := made_of_judges
    (judges_of_answers hanswers fun ns isDir _ => hrejects ns isDir) hes hsound memory
  refine ⟨full, hrun, fun d hd hisDir q hq => ?_⟩
  rw [← List.mem_reverse, hmade] at hd
  obtain ⟨x, hx, rfl⟩ := List.mem_map.mp hd
  obtain ⟨ms, isDir⟩ := x
  obtain ⟨hx, hkept⟩ := List.mem_filter.mp hx
  dsimp only at hisDir hkept hq ⊢
  rw [hisDir, Bool.not_eq_true'] at hkept
  obtain ⟨hne, hnames⟩ := hsound.isName_of_mem_met hx
  obtain ⟨ds, hms, hway⟩ := hsound.entered_of_mem_met hx hisDir hkept
  have hbelow (ns : List Bytes) (isDir : Bool) (hns : ∀ n ∈ ns, IsName n) :
      c.verdict ignored ((c.root.join q).pushAll ns) isDir = rejects (ms ++ ns) isDir :=
    (verdict_spelt hcomponents hne hnames hns hq).trans (hrejects _ isDir)
  have hsame : (c.root.pushAll ms).same (c.root.join q) := by
    rw [← Path.join_pushAll_empty c.root hne hnames, Path.same_iff]
    exact Path.components_join_congr (Path.same_iff.mp hq.same).symm
  have hentry : fs.entry? true (c.root.join q) = .ok (.dir ds) :=
    FileSystem.entry?_congr hsame (FileSystem.entry?_pushAll hs hes hms nofun)
  have hentries : (Entry.dir es).Sound := hsound
  have hds : ds.Sound := hentries.at? hms
  constructor
  · exact FileSystem.isDir_iff.mpr ⟨ds, hentry⟩
  · have htop := hbelow [] true (List.forall_mem_nil _)
    rwa [List.append_nil, hkept] at htop
  · intro memory'
    obtain ⟨part, hpart, hparts⟩ := made_of_judges (judges_of_answers hanswers hbelow) hentry hds
      memory'
    refine ⟨part, hpart, ?_, ?_⟩
    · rw [hparts]
      exact listed_kept hds
    · rw [hmade, hparts]
      exact kept_below hsound hms hne hway

end Walk

end ChunkWatch
