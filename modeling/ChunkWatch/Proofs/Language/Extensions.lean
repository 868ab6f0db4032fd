import ChunkWatch.Config
import ChunkWatch.Proofs.Language.Registry
import ChunkWatch.Proofs.Text.LowerCase

namespace ChunkWatch

namespace Extension

open Text (EndsSolid IsLower)

variable {cs : List Char}

structure IsNormal (cs : List Char) : Prop where
  dot : cs.head? = some '.'
  lower : ∀ c ∈ cs, IsLower c
  solid : EndsSolid cs

def dotted (cs : List Char) : List Char := if cs.head? = some '.' then cs else '.' :: cs

theorem normalize_eq (s : String) :
    normalize s = String.ofList (dotted (Text.lower (Text.trim s.toList))) := by
  rw [normalize, dotted]
  split
  next cs hcs => rw [hcs, List.head?_cons, if_pos rfl]
  next hcs =>
    rw [if_neg fun hdot => ?_]
    obtain ⟨cs, heq⟩ := List.head?_eq_some_iff.mp hdot
    exact hcs cs heq

theorem isNormal_dotted (hlower : ∀ c ∈ cs, IsLower c) (hsolid : EndsSolid cs) :
    IsNormal (dotted cs) := by
  rw [dotted]
  split
  next hdot => exact ⟨hdot, hlower, hsolid⟩
  next =>
    refine ⟨rfl, List.forall_mem_cons.mpr ⟨by decide +kernel, hlower⟩, ?_⟩
    cases cs with
    | nil =>
      intro c hc
      cases hc
      decide
    | cons c cs =>
      intro d hd
      exact hsolid d (by rwa [List.getLast?_cons_cons] at hd)

theorem exists_normalize (s : String) : ∃ cs, normalize s = String.ofList cs ∧ IsNormal cs := by
  refine ⟨_, normalize_eq s, isNormal_dotted (fun _ => Text.isLower_of_mem_lower) ?_⟩
  exact (Text.endsSolid_trim _).lower

theorem IsNormal.normalize (h : IsNormal cs) : normalize (String.ofList cs) = String.ofList cs := by
  have hstart : ∀ c ∈ cs.head?, Text.isBlank c = false := by
    intro c hc
    rw [h.dot] at hc
    cases hc
    decide
  rw [normalize_eq, String.toList_ofList, Text.trim_eq_self hstart h.solid,
    Text.lower_eq_self h.lower]
  obtain ⟨rest, rfl⟩ := List.head?_eq_some_iff.mp h.dot
  rfl

theorem normalize_normalize (s : String) : normalize (normalize s) = normalize s := by
  obtain ⟨cs, hcs, hnormal⟩ := exists_normalize s
  rw [hcs, hnormal.normalize]

end Extension

inductive Spec.Built : Spec → Prop
  | empty (name : String) (grammar : Syntax.Grammar) : Built (.empty name grammar)
  | extensions : Built s → Built (s.withExtensions es)
  | chunk : Built s → Built (s.withChunk kind r)
  | fold : Built s → Built (s.withFold kinds)
  | skip : Built s → Built (s.withSkip kinds)
  | role : Built s → Built (s.withRole pattern role)

variable {s : Spec} {e : Extension}

theorem Spec.Built.normalize_eq (h : s.Built) (he : e ∈ s.extensions) :
    Extension.normalize e = e := by
  induction h with
  | empty => cases he
  | extensions _ ih =>
    rcases List.mem_append.mp he with he | he
    · exact ih he
    · obtain ⟨x, -, rfl⟩ := List.mem_map.mp he
      exact Extension.normalize_normalize x
  | chunk _ ih => exact ih he
  | fold _ ih => exact ih he
  | skip _ ih => exact ih he
  | role _ ih => exact ih he

namespace Registry

variable {r : Registry} {ss ts : List Spec} {p : Path}

theorem accepted_subset : r.accepted ss ⊆ ss := by
  induction ss generalizing r with
  | nil => exact List.Subset.refl _
  | cons s ss ih =>
    rw [accepted]
    split
    · exact List.subset_cons_of_subset s ih
    · exact List.cons_subset_cons s ih

theorem Holds.normalize_eq (h : Holds r ts) (hts : ∀ t ∈ ts, t.Built) (he : e ∈ r.extensions) :
    Extension.normalize e = e := by
  obtain ⟨l, hl, he⟩ := h.indexed.mem_extensions.mp he
  have hspec : l.spec ∈ ts := h.specs ▸ List.mem_map_of_mem hl
  exact (hts l.spec hspec).normalize_eq he

theorem Indexed.isSome_forPath? (h : Indexed r) {x : String}
    (hx : p.extension?.bind Bytes.toString? = some x) :
    (r.forPath? p).isSome ↔ Extension.normalize x ∈ r.extensions := by
  obtain ⟨b, hb, hbx⟩ := Option.bind_eq_some_iff.mp hx
  rw [forPath?, hb, Option.bind_eq_bind, Option.bind_some, hbx, Option.bind_eq_bind,
    Option.bind_some, h.latest, isSome_latest?, h.mem_extensions]

end Registry

namespace Classifier

variable {σ : Type} {root p : Path} {es : List String} {oracle : Oracle σ} {x : String}

theorem isSupported_ofExtensions (hx : p.extension?.bind Bytes.toString? = some x) :
    (ofExtensions root es oracle).isSupported p ↔
      Extension.normalize x ∈ es.map Extension.normalize := by
  rw [isSupported, hx, ofExtensions, List.contains_iff_mem, Text.mem_sorted]

end Classifier

theorem Config.classifier_eq_ofExtensions {c : Config} {r : Registry} {fs : FileSystem}
    {run : Path → Outcome} {k : Classifier Ignore.Cache} (hc : c.extensions = [])
    (h : c.classifier r fs run = .ok k) :
    ∃ root oracle, k = .ofExtensions root r.extensions oracle := by
  simp only [classifier, hc, bind, Except.bind] at h
  split at h
  · cases h
  · split at h
    · split at h
      · cases h
        exact ⟨_, _, rfl⟩
      · cases h
    · cases h
      exact ⟨_, _, rfl⟩

namespace Registry

/-- A classifier that is made from the extensions of a registry, whatever its root and its oracle,
supports a path with an extension just when the registry has a language for it; so does the one
that follows from settings without extensions. -/
theorem isSupported_iff_isSome_forPath {σ : Type} {ss : List Spec} (hss : ∀ s ∈ ss, s.Built)
    (root : Path) (oracle : Oracle σ) {p : Path}
    (hp : (p.extension?.bind Bytes.toString?).isSome) :
    ((Classifier.ofExtensions root (empty.after ss).extensions oracle).isSupported p ↔
      ((empty.after ss).forPath? p).isSome) ∧
    ∀ (c : Config) (fs : FileSystem) (run : Path → Outcome) (k : Classifier Ignore.Cache),
      c.extensions = [] → c.classifier (empty.after ss) fs run = .ok k →
        (k.isSupported p ↔ ((empty.after ss).forPath? p).isSome) := by
  have hholds : Holds (empty.after ss) (empty.accepted ss) := holds_empty.after
  obtain ⟨x, hx⟩ := Option.isSome_iff_exists.mp hp
  -- The classifier's second pass finds every extension in normal form already.
  have hfixed : (empty.after ss).extensions.map Extension.normalize =
      (empty.after ss).extensions := by
    refine (List.map_congr_left fun e he => ?_).trans (List.map_id _)
    exact hholds.normalize_eq (fun t ht => hss t (accepted_subset ht)) he
  have hagree {τ : Type} (root : Path) (oracle : Oracle τ) :
      (Classifier.ofExtensions root (empty.after ss).extensions oracle).isSupported p ↔
        ((empty.after ss).forPath? p).isSome := by
    rw [Classifier.isSupported_ofExtensions hx, hfixed, hholds.indexed.isSome_forPath? hx]
  refine ⟨hagree root oracle, fun c fs run k hc hk => ?_⟩
  obtain ⟨root, oracle, rfl⟩ := Config.classifier_eq_ofExtensions hc hk
  exact hagree root oracle

def greek : Spec := (Spec.empty "greek" .go).withExtensions [" ΑΣ\t", ""]

def wholeDisk : Config := { Config.default with workspace := ⟨[slash]⟩, backend := .command }

theorem isSupported_finalSigma : (∀ s ∈ [greek], s.Built) ∧
    ((Path.ofString "f.ας").extension?.bind Bytes.toString?).isSome ∧
    (Classifier.ofExtensions ⟨[slash]⟩ (empty.after [greek]).extensions
      (fun _ _ => pure false : Oracle Unit)).isSupported (.ofString "f.ας") ∧
    ∃ k, wholeDisk.extensions = [] ∧
      wholeDisk.classifier (empty.after [greek]) ⟨.nil, []⟩ (fun _ => .missing) = .ok k ∧
      k.isSupported (.ofString "f.ας") := by
  have hbuilt : ∀ s ∈ [greek], s.Built := by
    intro s hs
    rw [List.mem_singleton.mp hs]
    exact .extensions (.empty "greek" .go)
  have hext : ((Path.ofString "f.ας").extension?.bind Bytes.toString?).isSome := by decide +kernel
  have hknown : ((empty.after [greek]).forPath? (.ofString "f.ας")).isSome := by decide +kernel
  obtain ⟨hany, hconfig⟩ := isSupported_iff_isSome_forPath hbuilt ⟨[slash]⟩
    (fun _ _ => pure false : Oracle Unit) hext
  refine ⟨hbuilt, hext, hany.mpr hknown, _, rfl, rfl, ?_⟩
  exact (hconfig wholeDisk ⟨.nil, []⟩ (fun _ => .missing) _ rfl rfl).mpr hknown

end Registry

end ChunkWatch
