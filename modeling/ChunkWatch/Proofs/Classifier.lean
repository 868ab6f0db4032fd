import ChunkWatch.Classifier
import ChunkWatch.Proofs.FileSystem.Above
import ChunkWatch.Proofs.Ignore.Cache

namespace ChunkWatch

open Component (IsName)
open Ignore (Cache Layers)

namespace Ignore.Layers

variable {l : Layers} {fs : FileSystem} {names dir : List Bytes}

def afterAsking (l : Layers) (fs : FileSystem) (asked : List Path) : Cache :=
  asked.foldl (fun c p => (l.isIgnored fs p c).2) []

theorem known_afterAsking {asked : List Path} (h : ∀ p ∈ asked, l.IsPlain p) (fs : FileSystem) :
    l.Known fs (fun _ => False) (l.afterAsking fs asked) := by
  have hfold {c : Cache} (hc : l.Known fs (fun _ => False) c) :
      l.Known fs (fun _ => False) (asked.foldl (fun c p => (l.isIgnored fs p c).2) c) := by
    induction asked generalizing c with
    | nil => exact hc
    | cons p ps ih =>
      obtain ⟨hp, hps⟩ := List.forall_mem_cons.mp h
      exact ih hps (hc.isIgnored hp fun _ _ => False.elim)
  exact hfold known_nil

theorem Ignores.below (h : l.Ignores fs dir) (k : dir <+: names)
    (hdir : fs.isDir (l.root.pushAll dir)) : l.Ignores fs names := by
  obtain ⟨top, hne, htop, hverdict⟩ := h
  refine ⟨top, hne, htop.trans k, ?_⟩
  by_cases heq : top = dir
  · subst heq
    rw [hdir, Bool.or_true] at hverdict ⊢
    exact hverdict
  · have hlonger : top ≠ names := by
      rintro rfl
      exact heq (htop.eq_of_length (Nat.le_antisymm htop.length_le k.length_le))
    simpa [heq, hlonger] using hverdict

end Ignore.Layers

namespace Classifier

variable {σ : Type}

theorem isSupported_congr (c : Classifier σ) {p q : Path} (h : p.same q) :
    c.isSupported p = c.isSupported q := by
  rw [isSupported, isSupported, Path.extension?_congr h]

theorem run_shouldIgnoreEntry (c : Classifier σ) (fs : FileSystem) (p : Path) (isDir : Bool)
    (memory : σ) : (c.shouldIgnoreEntry fs p isDir).run memory =
      if inRepositoryDir ((c.relativePath? (c.absolute p)).getD (c.absolute p)) then (true, memory)
      else
        let r := (c.oracle fs (c.absolute p)).run memory
        (r.1 || !isDir && !c.isSupported (c.absolute p), r.2) := by
  simp only [shouldIgnoreEntry]
  split
  · rfl
  · cases hasked : (c.oracle fs (c.absolute p)).run memory with
    | mk ignored memory' =>
      rw [StateT.run_bind, hasked]
      cases ignored <;> rfl

structure IsLayered (c : Classifier Cache) (l : Layers) : Prop where
  oracle : c.oracle = .ofLayers l
  root : l.root = c.root
  isAbsolute : c.root.isAbsolute

/-- What is to be ignored at some names below the root, by the files as they are. -/
def Rejects (c : Classifier Cache) (l : Layers) (fs : FileSystem) (names : List Bytes)
    (isDir : Bool) : Prop :=
  repositoryDir ∈ names ∨ l.Ignores fs names ∨
    isDir = false ∧ c.isSupported (c.root.pushAll names) = false

variable {c : Classifier Cache} {l : Layers} {fs : FileSystem} {names dir : List Bytes}
  {isDir : Bool} {memory : Cache} {p : Path}

theorem IsLayered.bytes_ne_nil (h : c.IsLayered l) : c.root.bytes ≠ [] := by
  intro hnil
  have habs := h.isAbsolute
  rw [Path.isAbsolute, hnil] at habs
  cases habs

theorem IsLayered.isAbsolute_absolute (h : c.IsLayered l) (p : Path) :
    (c.absolute p).isAbsolute = true := by
  rw [absolute]
  split
  next hp => exact hp
  next hp => rw [Path.isAbsolute_join (Bool.eq_false_iff.mpr hp) h.bytes_ne_nil, h.isAbsolute]

theorem inRepositoryDir_iff {q : Path} (h : q.components = names.map .name) :
    inRepositoryDir q ↔ repositoryDir ∈ names := by
  rw [inRepositoryDir, h]
  simp

theorem IsLayered.shouldIgnoreEntry_iff (h : c.IsLayered l)
    (hmemory : l.Known fs (fun _ => False) memory)
    (hp : (c.absolute p).same (c.root.pushAll names)) (hnames : ∀ n ∈ names, IsName n) :
    ((c.shouldIgnoreEntry fs p isDir).run memory).1 = true ↔ c.Rejects l fs names isDir := by
  have hcomponents : (c.absolute p).components = c.root.components ++ names.map .name := by
    rw [Path.same_iff.mp hp, Path.components_pushAll hnames]
  obtain ⟨q, hq, hqnames⟩ := Path.stripPrefix?_of_components
    (Path.components_ne_nil h.bytes_ne_nil) hcomponents
  have hrelative : c.relativePath? (c.absolute p) = some q := by
    rw [relativePath?, h.isAbsolute_absolute, if_pos rfl, hq]
  have hlayers : l.relative? (c.absolute p) = some q := by rw [Layers.relative?, h.root, hq]
  have hignored : (l.isIgnored fs (c.absolute p) memory).1 = true ↔ l.Ignores fs names :=
    Layers.isIgnored_iff hmemory (fun _ _ => False.elim) hlayers hqnames
  rw [run_shouldIgnoreEntry, hrelative, Option.getD_some, Rejects]
  split
  next hrepository => simp [(inRepositoryDir_iff hqnames).mp hrepository]
  next hrepository =>
    rw [or_iff_right fun hmem => hrepository ((inRepositoryDir_iff hqnames).mpr hmem),
      h.oracle, c.isSupported_congr hp, ← hignored]
    simp [Oracle.ofLayers, StateT.run]

theorem IsLayered.known_shouldIgnoreEntry (h : c.IsLayered l)
    (hmemory : l.Known fs (fun _ => False) memory) :
    l.Known fs (fun _ => False) ((c.shouldIgnoreEntry fs p isDir).run memory).2 := by
  rw [run_shouldIgnoreEntry]
  split
  · exact hmemory
  · rw [h.oracle]
    exact hmemory.isIgnored (Layers.isPlain_of_isAbsolute (h.isAbsolute_absolute p))
      fun _ _ => False.elim

theorem Rejects.below (h : c.Rejects l fs dir true) (k : dir <+: names)
    (hdir : fs.isDir (l.root.pushAll dir)) : c.Rejects l fs names isDir := by
  rcases h with hrepository | hignored | ⟨hfile, -⟩
  · exact .inl (k.subset hrepository)
  · exact .inr (.inl (hignored.below k hdir))
  · cases hfile

end Classifier

end ChunkWatch
