import ChunkWatch.Proofs.FileSystem.Resolve
import ChunkWatch.Walk

namespace ChunkWatch

open Component (IsName)

variable {σ τ ε : Type}

structure SourceEntry.IsAt (fs : FileSystem) (start : Path) (e : SourceEntry) : Prop where
  entry : ∃ f, fs.entry? false (start.join e.path) = .ok f ∧ f.isDir = e.isDir
  dir : e.isDir → fs.isDir (start.join e.path)
  bare : e.path.isAbsolute = false

namespace Walk

variable {c : Classifier σ} {fs : FileSystem} {visit : Visitor ε τ} {start : Path}

section

variable {here relative : Path} {n : Bytes} {p : Progress σ τ}

theorem entry_dir (es : Entries) : entry c fs visit here relative n (.dir es) p = (do
    let r := (c.shouldIgnoreEntry fs (here.push n) true).run p.memory
    if r.1 then return ⟨r.2, p.tally.see.ignore true, p.made⟩
    let made ← visit ⟨relative.push n, true⟩ p.made
    entries c fs visit (here.push n) (relative.push n) es ⟨r.2, p.tally.see.yield, made⟩) := rfl

theorem entry_leaf {e : Entry} (h : e.isDir = false) : entry c fs visit here relative n e p = (do
    let r := (c.shouldIgnoreEntry fs (here.push n) false).run p.memory
    if r.1 then return ⟨r.2, p.tally.see.ignore false, p.made⟩
    let made ← visit ⟨relative.push n, false⟩ p.made
    return ⟨r.2, p.tally.see.yield, made⟩) := by
  cases e with
  | dir es => simp [Entry.isDir] at h
  | file s => rfl
  | link s => rfl

theorem entries_cons (e : Entry) (es : Entries) :
    entries c fs visit here relative (.cons n e es) p =
      entry c fs visit here relative n e p >>= entries c fs visit here relative es := rfl

end

structure Comes (fs : FileSystem) (start here relative : Path) (es : Entries) : Prop where
  place : ∃ place, fs.resolve true here = .ok place ∧ fs.at? place = some (.dir es)
  bare : relative.isAbsolute = false
  path : ∀ n, IsName n → start.join (relative.push n) = here.push n

theorem Comes.isAt {here relative : Path} {es : Entries} {n : Bytes} {e : Entry}
    (h : Comes fs start here relative es) (hn : IsName n) (he : es.get? n = some e) :
    (SourceEntry.mk (relative.push n) e.isDir).IsAt fs start := by
  obtain ⟨place, hplace, hdir⟩ := h.place
  have hat : fs.at? (place ++ [n]) = some e := (FileSystem.at?_concat hdir n).trans he
  constructor
  · rw [h.path n hn]
    have hlast : fs.resolve false (here.push n) = .ok (place ++ [n]) :=
      FileSystem.resolve_push hn hplace hdir he fun _ _ => rfl
    exact ⟨e, FileSystem.entry?_iff.mpr ⟨_, hlast, hat⟩, rfl⟩
  · rw [h.path n hn]
    intro hisDir
    cases e with
    | dir ds =>
      have hlast : fs.resolve true (here.push n) = .ok (place ++ [n]) :=
        FileSystem.resolve_push hn hplace hdir he nofun
      rw [FileSystem.isDir, FileSystem.entry?_iff.mpr ⟨_, hlast, hat⟩]
      rfl
    | file s => cases hisDir
    | link s => cases hisDir
  · exact (Path.isAbsolute_push hn.1).trans h.bare

theorem Comes.enter {here relative : Path} {es ds : Entries} {n : Bytes}
    (h : Comes fs start here relative es) (hn : IsName n) (he : es.get? n = some (.dir ds)) :
    Comes fs start (here.push n) (relative.push n) ds := by
  obtain ⟨place, hplace, hdir⟩ := h.place
  have hbare : (relative.push n).isAbsolute = false := (Path.isAbsolute_push hn.1).trans h.bare
  have hne : (relative.push n).bytes ≠ [] :=
    relative.push_ne_nil (Component.ofSegment?_eq_name_iff.mp hn.2).2.1
  constructor
  · exact ⟨place ++ [n], FileSystem.resolve_push hn hplace hdir he nofun,
      (FileSystem.at?_concat hdir n).trans he⟩
  · exact hbare
  · intro m hm
    rw [Path.push, Path.join_join start hne (Path.isAbsolute_of_not_mem hm.1), h.path n hn]
    rfl

theorem bind_eq_ok {α β : Type} {x : Except ε α} {f : α → Except ε β} {b : β}
    (h : x >>= f = .ok b) : ∃ a, x = .ok a ∧ f a = .ok b := by
  cases x with
  | error e => cases h
  | ok a => exact ⟨a, rfl, h⟩

variable {I : τ → Prop}

/-- A visitor keeps something true as long as it is called for what is there. -/
def Holds (visit : Visitor ε τ) (fs : FileSystem) (start : Path) (I : τ → Prop) : Prop :=
  ∀ e made made', e.IsAt fs start → visit e made = .ok made' → I made → I made'

theorem leaf_keeps (hvisit : Holds visit fs start I) {here relative : Path} {es : Entries}
    (hcomes : Comes fs start here relative es) {n : Bytes} {e : Entry} (hleaf : e.isDir = false)
    (he : es.get? n = some e) (hn : IsName n) {p q : Progress σ τ}
    (h : entry c fs visit here relative n e p = .ok q) (hI : I p.made) : I q.made := by
  have hat := hcomes.isAt hn he
  rw [hleaf] at hat
  rw [entry_leaf hleaf] at h
  dsimp only at h
  split at h
  · cases h
    exact hI
  · obtain ⟨made, hmade, h⟩ := bind_eq_ok h
    cases h
    exact hvisit _ _ _ hat hmade hI

theorem keeps (hs : fs.Sound) (hvisit : Holds visit fs start I) :
    (∀ e : Entry, ∀ {here relative : Path} {es : Entries} {n : Bytes} {p q : Progress σ τ},
      Comes fs start here relative es → es.get? n = some e → IsName n →
      entry c fs visit here relative n e p = .ok q → I p.made → I q.made) ∧
    ∀ es : Entries, ∀ {here relative : Path} {all : Entries} {p q : Progress σ τ},
      Comes fs start here relative all → (∀ x ∈ es.toList, x ∈ all.toList) →
      entries c fs visit here relative es p = .ok q → I p.made → I q.made := by
  apply Entry.induction_with_entries
  case file => exact fun s _ _ _ _ _ _ hcomes he hn h hI => leaf_keeps hvisit hcomes rfl he hn h hI
  case link => exact fun s _ _ _ _ _ _ hcomes he hn h hI => leaf_keeps hvisit hcomes rfl he hn h hI
  case dir =>
    intro ds ih here relative es n p q hcomes he hn h hI
    rw [entry_dir] at h
    dsimp only at h
    split at h
    · cases h
      exact hI
    · obtain ⟨made, hmade, h⟩ := bind_eq_ok h
      exact ih (hcomes.enter hn he) (fun _ => id) h (hvisit _ _ _ (hcomes.isAt hn he) hmade hI)
  case nil =>
    intro here relative all p q _ _ h hI
    cases h
    exact hI
  case cons =>
    intro n e es ihe ihes here relative all p q hcomes hsub h hI
    obtain ⟨place, hplace, hdir⟩ := hcomes.place
    have hall := hs.entries hdir
    have hmem := hsub (n, e) List.mem_cons_self
    rw [entries_cons] at h
    obtain ⟨r, hr, h⟩ := bind_eq_ok h
    exact ihes hcomes (fun x hx => hsub x (List.mem_cons_of_mem _ hx)) h
      (ihe hcomes (hall.get? hmem) (hall.isName hmem) hr hI)

theorem entriesAt_of_isDir {root : Path} {es : Entries} (h : fs.entry? true root = .ok (.dir es)) :
    entriesAt fs root = .ok es := by
  obtain ⟨f, hf⟩ := FileSystem.entry?_unfollow h
  rw [entriesAt, hf]
  cases f with
  | dir ds =>
    have hds := FileSystem.entry?_following hf nofun
    rw [h] at hds
    cases hds
    rfl
  | file s =>
    have hs := FileSystem.entry?_following hf nofun
    rw [h] at hs
    cases hs
  | link target =>
    rw [h]
    rfl

theorem run_keeps {visit : Visitor Error τ} (hs : fs.Sound) (hvisit : Holds visit fs start I)
    (hdir : fs.isDir start) {made : τ} {memory : σ} {q : Progress σ τ}
    (h : run c fs visit start made memory = .ok q) (hI : I made) : I q.made := by
  obtain ⟨es, hes⟩ := FileSystem.isDir_iff.mp hdir
  rw [run, entriesAt_of_isDir hes] at h
  have hcomes : Comes fs start start ⟨[]⟩ es := by
    refine ⟨FileSystem.entry?_iff.mp hes, rfl, fun n hn => ?_⟩
    rw [Path.push_empty hn.1]
    rfl
  exact (keeps hs hvisit).2 es hcomes (fun _ => id) h hI

theorem made_leaf (hvisit : ∀ e made made', visit e made = .ok made' → I made → I made')
    {here relative : Path} {n : Bytes} {e : Entry} (hleaf : e.isDir = false) {p q : Progress σ τ}
    (h : entry c fs visit here relative n e p = .ok q) (hI : I p.made) : I q.made := by
  rw [entry_leaf hleaf] at h
  dsimp only at h
  split at h
  · cases h
    exact hI
  · obtain ⟨made, hmade, h⟩ := bind_eq_ok h
    cases h
    exact hvisit _ _ _ hmade hI

theorem made_of_entry_and_entries
    (hvisit : ∀ e made made', visit e made = .ok made' → I made → I made') :
    (∀ e : Entry, ∀ {here relative : Path} {n : Bytes} {p q : Progress σ τ},
      entry c fs visit here relative n e p = .ok q → I p.made → I q.made) ∧
    ∀ es : Entries, ∀ {here relative : Path} {p q : Progress σ τ},
      entries c fs visit here relative es p = .ok q → I p.made → I q.made := by
  apply Entry.induction_with_entries
  case file => exact fun s _ _ _ _ _ => made_leaf hvisit rfl
  case link => exact fun s _ _ _ _ _ => made_leaf hvisit rfl
  case dir =>
    intro es ih here relative n p q h hI
    rw [entry_dir] at h
    dsimp only at h
    split at h
    · cases h
      exact hI
    · obtain ⟨made, hmade, h⟩ := bind_eq_ok h
      exact ih h (hvisit _ _ _ hmade hI)
  case nil =>
    intro here relative p q h hI
    cases h
    exact hI
  case cons =>
    intro n e es ihe ihes here relative p q h hI
    rw [entries_cons] at h
    obtain ⟨r, hr, h⟩ := bind_eq_ok h
    exact ihes h (ihe hr hI)

theorem run_made {visit : Visitor Error τ}
    (hvisit : ∀ e made made', visit e made = .ok made' → I made → I made') {root : Path} {start : τ}
    {memory : σ} {q : Progress σ τ} (h : run c fs visit root start memory = .ok q) (hI : I start) :
    I q.made := by
  rw [run] at h
  split at h
  · cases h
  · exact (made_of_entry_and_entries hvisit).2 _ h hI

end Walk

end ChunkWatch
