import ChunkWatch.Proofs.Classifier
import ChunkWatch.Proofs.Walk.Pruning

namespace ChunkWatch

open Component (IsName)
open Ignore (Cache Layers)

namespace Classifier

variable {c : Classifier Cache} {l : Layers} {fs : FileSystem} {es : Entries} {memory : Cache}

theorem IsLayered.absolute_pushAll (h : c.IsLayered l) {names : List Bytes}
    (hnames : ∀ n ∈ names, IsName n) :
    c.absolute (c.root.pushAll names) = c.root.pushAll names := by
  rw [absolute, Path.isAbsolute_pushAll hnames, if_pos h.isAbsolute]

theorem IsLayered.judges (h : c.IsLayered l) (hmemory : l.Known fs (fun _ => False) memory) :
    Walk.Judges c fs c.root (l.Known fs fun _ => False) fun names isDir =>
      ((c.shouldIgnoreEntry fs (c.root.pushAll names) isDir).run memory).1 := by
  constructor
  · intro names memory' isDir hne hnames hmemory'
    have hsame : (c.absolute (c.root.pushAll names)).same (c.root.pushAll names) := by
      rw [h.absolute_pushAll hnames]
      exact Path.same_refl _
    rw [Bool.eq_iff_iff, h.shouldIgnoreEntry_iff hmemory' hsame hnames,
      h.shouldIgnoreEntry_iff hmemory hsame hnames]
  · exact fun _ _ _ hmemory' => h.known_shouldIgnoreEntry hmemory'

structure IsLayeredOver (c : Classifier Cache) (l : Layers) (fs : FileSystem) (es : Entries) : Prop
    extends c.IsLayered l where
  sound : fs.Sound
  entry : fs.entry? true c.root = .ok (.dir es)
  linkless : es.Linkless

namespace IsLayeredOver

variable {ns dir : Place} {e : Entry} {p : Path}

theorem sound_entries (h : c.IsLayeredOver l fs es) : es.Sound := by
  obtain ⟨place, -, hdir⟩ := FileSystem.entry?_iff.mp h.entry
  exact h.sound.entries hdir

theorem isName (h : c.IsLayeredOver l fs es) (he : (Entry.dir es).at? ns = some e) :
    ∀ n ∈ ns, IsName n := by
  have hdir : (Entry.dir es).Sound := h.sound_entries
  exact FileSystem.isName_of_at? hdir he

theorem same_absolute (h : c.IsLayeredOver l fs es) (he : (Entry.dir es).at? ns = some e) :
    (c.absolute (c.root.pushAll ns)).same (c.root.pushAll ns) := by
  rw [h.absolute_pushAll (h.isName he)]
  exact Path.same_refl _

theorem isDir (h : c.IsLayeredOver l fs es) (he : (Entry.dir es).at? ns = some e) :
    fs.isDir (c.root.pushAll ns) = e.isDir := by
  have hlinkless : (Entry.dir es).Linkless := h.linkless
  refine FileSystem.isDir_pushAll h.sound h.entry he ?_
  rintro target rfl
  exact hlinkless.at? he

theorem shouldIgnore_iff (h : c.IsLayeredOver l fs es) (he : (Entry.dir es).at? ns = some e)
    (hp : (c.absolute p).same (c.root.pushAll ns))
    (hmemory : l.Known fs (fun _ => False) memory) :
    ((c.shouldIgnore fs p).run memory).1 = true ↔ c.Rejects l fs ns e.isDir := by
  have habs : c.absolute (c.absolute p) = c.absolute p := by
    rw [absolute, if_pos (h.isAbsolute_absolute p)]
  have hp' : (c.absolute (c.absolute p)).same (c.root.pushAll ns) := by
    rw [habs]
    exact hp
  rw [shouldIgnore, FileSystem.isDir_congr hp, h.isDir he]
  exact h.shouldIgnoreEntry_iff hmemory hp' (h.isName he)

theorem rejects_of_prefix (h : c.IsLayeredOver l fs es) {ds : Entries} {isDir : Bool}
    (hdir : (Entry.dir es).at? dir = some (.dir ds)) (k : dir <+: ns)
    (hrejects : c.Rejects l fs dir true) : c.Rejects l fs ns isDir := by
  apply hrejects.below k
  rw [h.root, h.isDir hdir]
  rfl

end IsLayeredOver

/-- Whatever was asked before, a walk from the root finds an entry if and only if it is not ignored
when it is asked about, and what is below an ignored directory is ignored. -/
theorem IsLayeredOver.walk_iff_not_ignored (h : c.IsLayeredOver l fs es) {asked asked' : List Path}
    (hasked : ∀ p ∈ asked, l.IsPlain p) (hasked' : ∀ p ∈ asked', l.IsPlain p) :
    ∃ q, Walk.run c fs Walk.collect c.root [] (l.afterAsking fs asked) = .ok q ∧
      (∀ x ∈ q.made, ∃ ns e, ns ≠ [] ∧ (Entry.dir es).at? ns = some e ∧
        x = ⟨.pushAll ⟨[]⟩ ns, e.isDir⟩) ∧
      ∀ ns e p, ns ≠ [] → (Entry.dir es).at? ns = some e →
        (c.absolute p).same (c.root.pushAll ns) →
        (⟨.pushAll ⟨[]⟩ ns, e.isDir⟩ ∈ q.made ↔
          ((c.shouldIgnore fs p).run (l.afterAsking fs asked')).1 = false) ∧
        ∀ dir, dir ≠ [] → dir <+: ns →
          ((c.shouldIgnore fs (c.root.pushAll dir)).run (l.afterAsking fs asked')).1 = true →
          ((c.shouldIgnore fs p).run (l.afterAsking fs asked')).1 = true := by
  have hknown := Layers.known_afterAsking hasked fs
  have hknown' := Layers.known_afterAsking hasked' fs
  obtain ⟨q, hrun, hmade⟩ := Walk.collects (h.judges hknown) h.entry h.sound_entries hknown
  have hjudges {ns : Place} {f : Entry} (hf : (Entry.dir es).at? ns = some f) :
      ((c.shouldIgnoreEntry fs (c.root.pushAll ns) f.isDir).run (l.afterAsking fs asked)).1 = true ↔
        c.Rejects l fs ns f.isDir :=
    h.shouldIgnoreEntry_iff hknown (h.same_absolute hf) (h.isName hf)
  refine ⟨q, hrun, fun x hx => ?_, fun ns e p hne he hp => ⟨?_, ?_⟩⟩
  · obtain ⟨ns, e, hne, he, rfl, -⟩ := (hmade x).mp hx
    exact ⟨ns, e, hne, he, rfl⟩
  · rw [hmade, ← Bool.not_eq_true, h.shouldIgnore_iff he hp hknown']
    constructor
    · rintro ⟨ms, f, -, hf, heq, hkept, -⟩ hrejects
      have hms : ns = ms := Path.pushAll_injective (h.isName he) (h.isName hf)
        (congrArg SourceEntry.path heq)
      subst hms
      cases he.symm.trans hf
      rw [(hjudges he).mpr hrejects] at hkept
      cases hkept
    · intro hkept
      refine ⟨ns, e, hne, he, rfl, ?_, fun dir hprefix hproper _ => ?_⟩
      · rw [← Bool.not_eq_true, hjudges he]
        exact hkept
      · obtain ⟨ds, hds⟩ := (Entry.at?_of_prefix he hprefix).resolve_left hproper
        rw [← Bool.not_eq_true]
        exact fun hrejected => hkept (h.rejects_of_prefix hds hprefix ((hjudges hds).mp hrejected))
  · intro dir _ hprefix hignored
    rw [h.shouldIgnore_iff he hp hknown']
    rcases Entry.at?_of_prefix he hprefix with rfl | ⟨ds, hds⟩
    · exact (h.shouldIgnore_iff he (h.same_absolute he) hknown').mp hignored
    · have hrejected := (h.shouldIgnore_iff hds (h.same_absolute hds) hknown').mp hignored
      exact h.rejects_of_prefix hds hprefix hrejected

-- A workspace `/w` to see it by: the rules in `/w/a` ignore the file `f` beside them.
def ofNone : Classifier Cache := ⟨.ofString "/w", [], .ofLayers .ofNone⟩

def entriesOfRules : Entries := .cons (.ofString "a") (.dir Layers.fileAndRules) .nil

theorem isLayeredOver_ofNone : ofNone.IsLayeredOver .ofNone Layers.withRules entriesOfRules where
  oracle := rfl
  root := rfl
  isAbsolute := by decide
  sound := by
    constructor
    · refine ⟨⟨by decide, by decide⟩, nofun, ⟨⟨by decide, by decide⟩, nofun, ?_, trivial⟩, trivial⟩
      refine ⟨⟨by decide, by decide⟩, ?_, trivial, ⟨by decide, by decide⟩, nofun, trivial, trivial⟩
      decide
    · exact nofun
  entry := rfl
  linkless := ⟨⟨trivial, trivial, trivial⟩, trivial⟩

theorem walk_misses_ignored :
    ofNone.IsLayeredOver .ofNone Layers.withRules entriesOfRules ∧
      (∀ p ∈ [Path.ofString "a/f"], Layers.ofNone.IsPlain p) ∧
      (∀ p ∈ [Layers.rulesPath], Layers.ofNone.IsPlain p) ∧
      ∃ q, Walk.run ofNone Layers.withRules Walk.collect ofNone.root []
          (Layers.ofNone.afterAsking Layers.withRules [.ofString "a/f"]) = .ok q ∧
        (⟨.ofString "a", true⟩ : SourceEntry) ∈ q.made ∧ ⟨.ofString "a/f", false⟩ ∉ q.made := by
  have hasked : ∀ p ∈ [Path.ofString "a/f"], Layers.ofNone.IsPlain p := by
    have hrelative : Layers.ofNone.relative? (.ofString "a/f") = some (.ofString "a/f") := by
      decide +kernel
    rw [List.forall_mem_singleton]
    intro q hq
    cases hrelative.symm.trans hq
    decide +kernel
  have hasked' : ∀ p ∈ [Layers.rulesPath], Layers.ofNone.IsPlain p :=
    List.forall_mem_singleton.mpr (Layers.isPlain_of_isAbsolute (by decide +kernel))
  obtain ⟨q, hrun, -, hmade⟩ :=
    isLayeredOver_ofNone.walk_iff_not_ignored hasked hasked'
  refine ⟨isLayeredOver_ofNone, hasked, hasked', q, hrun, ?_, ?_⟩
  · apply (hmade [.ofString "a"] _ (.ofString "/w/a") (List.cons_ne_nil _ _) rfl (by decide)).1.mpr
    decide +kernel
  · intro hmem
    have hkept := (hmade [.ofString "a", .ofString "f"] (.file []) Layers.filePath
      (List.cons_ne_nil _ _) rfl (by decide +kernel)).1.mp hmem
    revert hkept
    decide +kernel

theorem not_walk_iff_not_ignored_of_dot : ¬∀ (c : Classifier Cache) (l : Layers)
    (fs : FileSystem) (es : Entries) (asked : List Path), c.IsLayeredOver l fs es →
    ∃ q, Walk.run c fs Walk.collect c.root [] (l.afterAsking fs asked) = .ok q ∧
      ∀ ns e, ns ≠ [] → (Entry.dir es).at? ns = some e →
        (⟨.pushAll ⟨[]⟩ ns, e.isDir⟩ ∈ q.made ↔
          ((c.shouldIgnore fs (c.root.pushAll ns)).run (l.afterAsking fs asked)).1 = false) := by
  intro h
  obtain ⟨q, hrun, hmade⟩ := h ofNone .ofNone Layers.withRules entriesOfRules
    [.ofString "./a/f"] isLayeredOver_ofNone
  have hwalk : ((Walk.run ofNone Layers.withRules Walk.collect ofNone.root []
      (Layers.ofNone.afterAsking Layers.withRules [.ofString "./a/f"])).toOption.map
        Walk.Progress.made) = some [⟨.ofString "a/.gitignore", false⟩, ⟨.ofString "a", true⟩] := by
    decide +kernel
  -- The walk asks about the ignore file on its way, so it has the rules as they are.
  have hfound : (⟨.pushAll ⟨[]⟩ [.ofString "a", .ofString "f"], false⟩ : SourceEntry) ∈ q.made := by
    apply (hmade [.ofString "a", .ofString "f"] (.file []) (List.cons_ne_nil _ _) rfl).mpr
    decide +kernel
  rw [hrun] at hwalk
  rw [Option.some.inj hwalk] at hfound
  revert hfound
  decide +kernel

end Classifier

end ChunkWatch
