import ChunkWatch.Proofs.Walk.Pruning

namespace ChunkWatch

open Component (IsName)

namespace Walk

variable {σ τ ε : Type} {fs : FileSystem} {start : Path}

/-- Something stays true of what is remembered and made, whatever is asked about and visited. -/
structure Tracks (c : Classifier σ) (fs : FileSystem) (start : Path) (visit : Visitor ε τ)
    (P : σ → τ → Prop) : Prop where
  asked {names memory made} (isDir : Bool) : (∀ n ∈ names, IsName n) → P memory made →
    P ((c.shouldIgnoreEntry fs (start.pushAll names) isDir).run memory).2 made
  visited {names memory made made'} (isDir : Bool) : names ≠ [] → (∀ n ∈ names, IsName n) →
    P memory made →
    ((c.shouldIgnoreEntry fs (start.pushAll names) isDir).run memory).1 = false →
    visit ⟨.pushAll ⟨[]⟩ names, isDir⟩ made = .ok made' →
    P ((c.shouldIgnoreEntry fs (start.pushAll names) isDir).run memory).2 made'

variable {c : Classifier σ} {visit : Visitor ε τ} {P : σ → τ → Prop}

theorem Tracks.leaf (h : Tracks c fs start visit P) {names : List Bytes} {n : Bytes} {e : Entry}
    (hleaf : e.isDir = false) (hnames : ∀ m ∈ names ++ [n], IsName m) {p q : Progress σ τ}
    (k : entry c fs visit (start.pushAll names) (.pushAll ⟨[]⟩ names) n e p = .ok q)
    (hP : P p.memory p.made) : P q.memory q.made := by
  rw [entry_leaf hleaf, ← pushAll_concat, ← pushAll_concat] at k
  dsimp only at k
  split at k
  · cases k
    exact h.asked false hnames hP
  next hkept =>
    obtain ⟨made, hmade, k⟩ := bind_eq_ok k
    cases k
    exact h.visited false (by simp) hnames hP (by simpa using hkept) hmade

theorem Tracks.of_entry_and_entries (h : Tracks c fs start visit P) :
    (∀ e : Entry, ∀ {names : List Bytes} {n : Bytes} {p q : Progress σ τ},
      (∀ m ∈ names ++ [n], IsName m) → e.Sound →
      entry c fs visit (start.pushAll names) (.pushAll ⟨[]⟩ names) n e p = .ok q →
      P p.memory p.made → P q.memory q.made) ∧
    ∀ es : Entries, ∀ {names : List Bytes} {p q : Progress σ τ},
      (∀ m ∈ names, IsName m) → es.Sound →
      entries c fs visit (start.pushAll names) (.pushAll ⟨[]⟩ names) es p = .ok q →
      P p.memory p.made → P q.memory q.made := by
  apply Entry.induction_with_entries
  case file => exact fun s _ _ _ _ hnames _ k hP => h.leaf rfl hnames k hP
  case link => exact fun s _ _ _ _ hnames _ k hP => h.leaf rfl hnames k hP
  case dir =>
    intro es ih names n p q hnames hs k hP
    rw [entry_dir, ← pushAll_concat, ← pushAll_concat] at k
    dsimp only at k
    split at k
    · cases k
      exact h.asked true hnames hP
    next hkept =>
      obtain ⟨made, hmade, k⟩ := bind_eq_ok k
      have hvisited := h.visited true (by simp) hnames hP (by simpa using hkept) hmade
      exact ih hnames hs k hvisited
  case nil =>
    intro names p q _ _ k hP
    cases k
    exact hP
  case cons =>
    intro n e es ihe ihes names p q hnames hs k hP
    rw [Entries.Sound] at hs
    obtain ⟨hn, -, he, hes⟩ := hs
    have hall : ∀ m ∈ names ++ [n], IsName m :=
      List.forall_mem_append.mpr ⟨hnames, List.forall_mem_singleton.mpr hn⟩
    rw [entries_cons] at k
    obtain ⟨r, hr, k⟩ := bind_eq_ok k
    exact ihes hnames hes k (ihe hall he hr hP)

theorem sound_of_entriesAt {es : Entries} (hs : fs.Sound) (h : entriesAt fs start = .ok es) :
    es.Sound := by
  have hdir {follow : Bool} {es : Entries} (h : fs.entry? follow start = .ok (.dir es)) :
      es.Sound := by
    obtain ⟨place, -, hplace⟩ := FileSystem.entry?_iff.mp h
    exact hs.entries hplace
  rw [entriesAt] at h
  obtain ⟨e, he, h⟩ := bind_eq_ok h
  cases e with
  | dir ds =>
    cases h
    exact hdir he
  | file s =>
    cases h
    trivial
  | link s =>
    obtain ⟨f, hf, h⟩ := bind_eq_ok h
    cases f with
    | dir ds =>
      cases h
      exact hdir hf
    | file s =>
      cases h
      trivial
    | link s =>
      cases h
      trivial

theorem Tracks.run {visit : Visitor Error τ} (h : Tracks c fs start visit P) (hs : fs.Sound)
    {made : τ} {memory : σ} {q : Progress σ τ} (k : run c fs visit start made memory = .ok q)
    (hP : P memory made) : P q.memory q.made := by
  rw [Walk.run] at k
  split at k
  · cases k
  next es hes =>
    exact h.of_entry_and_entries.2 es (List.forall_mem_nil IsName) (sound_of_entriesAt hs hes) k hP

end Walk

end ChunkWatch
