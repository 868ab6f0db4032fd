import ChunkWatch.Proofs.Language.Extensions
import ChunkWatch.Proofs.Path.Spelling
import ChunkWatch.Proofs.Text.Utf8

namespace ChunkWatch

namespace Extension

open Text (EndsSolid StartsSolid)

variable {e x : String}

def stem (e : String) : List Char := (normalize e).toList.tail

/-- How the normal form of an extension is spelt if file names come to it: what they have is behind
their last dot, and loses the white space at its ends. -/
structure IsReachable (e : String) : Prop where
  dot : '.' ∉ stem e
  solid : StartsSolid (stem e)

theorem normalize_eq_stem (e : String) :
    normalize e = String.ofList ('.' :: stem e) ∧ IsNormal ('.' :: stem e) := by
  obtain ⟨cs, hcs, hnormal⟩ := exists_normalize e
  obtain ⟨rest, rfl⟩ := List.head?_eq_some_iff.mp hnormal.dot
  rw [stem, hcs, String.toList_ofList, List.tail_cons]
  exact ⟨rfl, hnormal⟩

theorem normalize_eq_normalize_iff : normalize x = normalize e ↔ stem x = stem e := by
  rw [(normalize_eq_stem x).1, (normalize_eq_stem e).1, String.ofList_inj, List.cons_inj_right]

theorem mem_of_mem_stem {c : Char} (h : c ∈ stem e) (hc : c.toNat < 97) : c ∈ e.toList := by
  rw [stem, normalize_eq, String.toList_ofList, dotted] at h
  refine Text.mem_of_mem_trim (Text.mem_of_mem_lower ?_ hc)
  split at h
  · exact List.mem_of_mem_tail h
  · exact h

theorem stem_eq (h : '.' ∉ x.toList) : stem x = Text.lower (Text.trim x.toList) := by
  have hdot : '.' ∉ Text.lower (Text.trim x.toList) := fun hmem =>
    h (Text.mem_of_mem_trim (Text.mem_of_mem_lower hmem (by decide)))
  rw [stem, normalize_eq, String.toList_ofList, dotted,
    if_neg fun hhead => hdot (List.mem_of_head? hhead), List.tail_cons]

theorem isReachable_of_not_mem (h : '.' ∉ x.toList) : IsReachable x := by
  constructor
  · exact fun hmem => h (mem_of_mem_stem hmem (by decide))
  · rw [stem_eq h]
    exact (Text.startsSolid_trim _).lower

theorem IsReachable.stem_stem (h : IsReachable e) : stem (String.ofList (stem e)) = stem e := by
  obtain ⟨-, hnormal⟩ := normalize_eq_stem e
  have hend : EndsSolid (stem e) := by
    intro c hc
    apply hnormal.solid
    rw [List.getLast?_cons, hc]
    rfl
  have hlower : ∀ c ∈ stem e, Text.IsLower c := fun c hc =>
    hnormal.lower c (List.mem_cons_of_mem '.' hc)
  have hdot : '.' ∉ (String.ofList (stem e)).toList := by
    rw [String.toList_ofList]
    exact h.dot
  rw [stem_eq hdot, String.toList_ofList, Text.trim_eq_self h.solid hend,
    Text.lower_eq_self hlower]

theorem IsReachable.exists_text (h : IsReachable e) (hslash : '/' ∉ e.toList) :
    ∃ x : String, x ≠ "" ∧ '.' ∉ x.toList ∧ '/' ∉ x.toList ∧ normalize x = normalize e := by
  by_cases hempty : stem e = []
  · refine ⟨" ", by decide, by decide, by decide, normalize_eq_normalize_iff.mpr ?_⟩
    rw [hempty]
    rfl
  · refine ⟨String.ofList (stem e), ?_, ?_, ?_, normalize_eq_normalize_iff.mpr h.stem_stem⟩
    · rwa [ne_eq, String.ofList_eq_empty_iff]
    · rw [String.toList_ofList]
      exact h.dot
    · rw [String.toList_ofList]
      exact fun hmem => hslash (mem_of_mem_stem hmem (by decide))

end Extension

namespace Classifier

variable {σ : Type} {root p : Path} {e x : String} {oracle : Oracle σ}

theorem isSupported_singleton (hx : p.extension? = some (.ofString x)) :
    (ofExtensions root [e] oracle).isSupported p ↔
      Extension.normalize x = Extension.normalize e := by
  have htext : p.extension?.bind Bytes.toString? = some x := by
    rw [hx, Option.bind_some, Bytes.toString?_ofString]
  rw [isSupported_ofExtensions htext, List.map_singleton, List.mem_singleton]

theorem exists_isSupported_text_iff (hslash : '/' ∉ e.toList) :
    (∃ p x, p.extension? = some (.ofString x) ∧ x ≠ "" ∧
      (ofExtensions root [e] oracle).isSupported p) ↔ Extension.IsReachable e := by
  constructor
  · rintro ⟨p, x, hx, -, hsupported⟩
    have hdot : '.' ∉ x.toList := fun hmem =>
      Path.dot_not_mem_extension hx ((Bytes.mem_ofString_iff (by decide)).mpr hmem)
    have hstem := Extension.normalize_eq_normalize_iff.mp ((isSupported_singleton hx).mp hsupported)
    obtain ⟨hdot, hsolid⟩ := Extension.isReachable_of_not_mem hdot
    exact ⟨hstem ▸ hdot, hstem ▸ hsolid⟩
  · intro h
    obtain ⟨x, hne, hdot, hslash, hnormalize⟩ := h.exists_text hslash
    have hx : (Path.withExtension (.ofString x)).extension? = some (.ofString x) := by
      apply Path.extension?_withExtension
      · rwa [Bytes.mem_ofString_iff (by decide)]
      · rwa [Bytes.mem_ofString_iff (by decide)]
    exact ⟨_, x, hx, hne, (isSupported_singleton hx).mpr hnormalize⟩

theorem rejects_empty_iff :
    (∀ p : Path, p.extension? = some [] → (ofExtensions root [e] oracle).isSupported p = false) ↔
      Extension.stem e ≠ [] := by
  have hempty (p : Path) (hp : p.extension? = some []) :
      (ofExtensions root [e] oracle).isSupported p ↔ Extension.stem e = [] := by
    rw [isSupported_singleton (x := "") hp, Extension.normalize_eq_normalize_iff, eq_comm]
    rfl
  constructor
  · intro h hstem
    have hp : (Path.withExtension []).extension? = some [] :=
      Path.extension?_withExtension List.not_mem_nil List.not_mem_nil
    exact Bool.false_ne_true ((h _ hp).symm.trans ((hempty _ hp).mpr hstem))
  · intro h p hp
    exact Bool.eq_false_iff.mpr fun hsupported => h ((hempty p hp).mp hsupported)

theorem isSupported_of_toString?_eq_none {k : Classifier σ} {s : Bytes}
    (hp : p.extension? = some s) (hs : s.toString? = none) : k.isSupported p := by
  rw [isSupported, hp, Option.bind_some, hs]

end Classifier

namespace Config

variable {c : Config} {e : String}

theorem not_isInvalidExtension (h : c.validate = .ok ()) (he : e ∈ c.extensions) :
    isInvalidExtension e = false := by
  unfold validate at h
  split at h
  · cases h
  · split at h
    · cases h
    · split at h
      · cases h
      · split at h
        · cases h
        next hnone => exact Bool.eq_false_iff.mpr (List.find?_eq_none.mp hnone e he)

/-- What an accepted extension supports by itself. -/
theorem supports_of_validate (hc : c.validate = .ok ()) (he : e ∈ c.extensions) {σ : Type}
    (root : Path) (oracle : Oracle σ) :
    (∃ p s, p.extension? = some s ∧ s ≠ [] ∧
      (Classifier.ofExtensions root [e] oracle).isSupported p) ∧
    ((∃ p x, p.extension? = some (.ofString x) ∧ x ≠ "" ∧
      (Classifier.ofExtensions root [e] oracle).isSupported p) ↔ Extension.IsReachable e) ∧
    ((∀ p : Path, p.extension? = some [] →
      (Classifier.ofExtensions root [e] oracle).isSupported p = false) ↔
        Extension.stem e ≠ []) := by
  have hslash : '/' ∉ e.toList := by
    have hinvalid := not_isInvalidExtension hc he
    rw [isInvalidExtension, Bool.or_eq_false_iff] at hinvalid
    simpa using hinvalid.2
  refine ⟨?_, Classifier.exists_isSupported_text_iff hslash, Classifier.rejects_empty_iff⟩
  have hp : (Path.withExtension [0xFF]).extension? = some [0xFF] :=
    Path.extension?_withExtension (by decide) (by decide)
  exact ⟨_, _, hp, by decide, Classifier.isSupported_of_toString?_eq_none hp (by decide +kernel)⟩

def openOracle : Oracle Unit := .ofPaths fun _ => false

def archives : Config := { default with extensions := [" ", "tar.gz"] }

theorem supports_archives : archives.validate = .ok () ∧
    ¬ Extension.IsReachable "tar.gz" ∧
    (¬ ∃ p x, p.extension? = some (.ofString x) ∧ x ≠ "" ∧
      (Classifier.ofExtensions ⟨[slash]⟩ ["tar.gz"] openOracle).isSupported p) ∧
    ¬ ∀ p : Path, p.extension? = some [] →
      (Classifier.ofExtensions ⟨[slash]⟩ [" "] openOracle).isSupported p = false := by
  have hvalid : archives.validate = .ok () := by decide +kernel
  have hdotted : ¬ Extension.IsReachable "tar.gz" := fun h =>
    absurd h.dot (by decide +kernel)
  have hblank : Extension.stem " " = [] := by decide +kernel
  obtain ⟨-, htext, -⟩ := supports_of_validate hvalid (e := "tar.gz") (by decide) ⟨[slash]⟩
    openOracle
  obtain ⟨-, -, hempty⟩ := supports_of_validate hvalid (e := " ") (by decide) ⟨[slash]⟩
    openOracle
  exact ⟨hvalid, hdotted, mt htext.mp hdotted, fun h => hempty.mp h hblank⟩

/-- A blank extension is accepted, and supports the files that end in a dot. -/
theorem not_always_effective : ¬ ∀ (c : Config) (e : String), c.validate = .ok () →
    e ∈ c.extensions → ∀ (σ : Type) (root : Path) (oracle : Oracle σ),
      (∃ p s, p.extension? = some s ∧ s ≠ [] ∧
        (Classifier.ofExtensions root [e] oracle).isSupported p) ∧
      ∀ p : Path, p.extension? = some [] →
        (Classifier.ofExtensions root [e] oracle).isSupported p = false := by
  intro h
  obtain ⟨-, hreject⟩ := h archives " " (by decide +kernel) (by decide) Unit ⟨[slash]⟩
    openOracle
  exact Classifier.rejects_empty_iff.mp hreject (by decide +kernel)

end Config

end ChunkWatch
