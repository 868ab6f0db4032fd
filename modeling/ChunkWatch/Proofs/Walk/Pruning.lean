import ChunkWatch.Proofs.Walk

/-! What a walk goes through.  As long as the classifier's answers do not depend on what the oracle
remembers, these are the entries that have no rejected directory above them, a directory before
what is in it. -/

namespace ChunkWatch

open Component (IsName)

mutual

/-- The entries from one on that are met when nothing below a rejected directory is, each as the
names that lead to it and whether it is a directory. -/
def Entry.met (rejects : List Bytes → Bool → Bool) (names : List Bytes) :
    Entry → List (List Bytes × Bool)
  | .dir es => (names, true) :: if rejects names true then [] else es.met rejects names
  | _ => [(names, false)]

def Entries.met (rejects : List Bytes → Bool → Bool) (names : List Bytes) :
    Entries → List (List Bytes × Bool)
  | .nil => []
  | .cons n e es => e.met rejects (names ++ [n]) ++ es.met rejects names

end

section

variable {rejects : List Bytes → Bool → Bool} {names : List Bytes} {x : List Bytes × Bool}

theorem Entry.met_leaf {e : Entry} (h : e.isDir = false) :
    e.met rejects names = [(names, false)] := by
  cases e with
  | dir es => cases h
  | file s => rfl
  | link s => rfl

theorem Entries.mem_met_iff {es : Entries} :
    x ∈ es.met rejects names ↔ ∃ n e, (n, e) ∈ es.toList ∧ x ∈ e.met rejects (names ++ [n]) := by
  induction es with
  | nil => simp [met, toList]
  | cons n e es ih => simp [met, toList, ih, or_and_right, exists_or]

theorem forall_proper_prefix_cons {α : Type} {a : α} {as : List α} {p : List α → Prop} :
    (∀ bs, bs <+: a :: as → bs ≠ a :: as → p bs) ↔
      p [] ∧ ∀ bs, bs <+: as → bs ≠ as → p (a :: bs) := by
  constructor
  · intro h
    refine ⟨h [] List.nil_prefix (List.cons_ne_nil a as).symm, fun bs hbs hne => ?_⟩
    exact h (a :: bs) (List.cons_prefix_cons.mpr ⟨rfl, hbs⟩) fun heq => hne (List.cons.inj heq).2
  · rintro ⟨hnil, hcons⟩ bs hbs hne
    cases bs with
    | nil => exact hnil
    | cons b bs =>
      obtain ⟨rfl, hrest⟩ := List.cons_prefix_cons.mp hbs
      exact hcons bs hrest fun heq => hne (heq ▸ rfl)

def Entry.Meets (rejects : List Bytes → Bool → Bool) (names : List Bytes) (e : Entry)
    (x : List Bytes × Bool) : Prop :=
  ∃ rest f, e.at? rest = some f ∧ x = (names ++ rest, f.isDir) ∧
    ∀ dir, dir <+: rest → dir ≠ rest → rejects (names ++ dir) true = false

theorem Entry.meets_leaf_iff {e : Entry} (h : e.isDir = false) :
    e.Meets rejects names x ↔ x = (names, false) := by
  constructor
  · rintro ⟨rest, f, hf, rfl, -⟩
    cases rest with
    | nil =>
      cases hf
      simp [h]
    | cons n rest =>
      cases e with
      | dir es => cases h
      | file s => cases hf
      | link s => cases hf
  · rintro rfl
    refine ⟨[], e, rfl, by simp [h], fun dir hdir hne => ?_⟩
    exact absurd (List.prefix_nil.mp hdir) hne

theorem Entry.meets_dir_iff {es : Entries} : (Entry.dir es).Meets rejects names x ↔
    x = (names, true) ∨ rejects names true = false ∧
      ∃ n e, es.get? n = some e ∧ e.Meets rejects (names ++ [n]) x := by
  constructor
  · rintro ⟨rest, f, hf, rfl, hkept⟩
    cases rest with
    | nil =>
      cases hf
      simp [Entry.isDir]
    | cons n rest =>
      obtain ⟨e, he, hf⟩ := Option.bind_eq_some_iff.mp hf
      rw [forall_proper_prefix_cons, List.append_nil] at hkept
      refine .inr ⟨hkept.1, n, e, he, rest, f, hf, by simp, fun dir hdir hne => ?_⟩
      simpa using hkept.2 dir hdir hne
  · rintro (rfl | ⟨hkept, n, e, he, rest, f, hf, rfl, hrest⟩)
    · refine ⟨[], _, rfl, by simp [Entry.isDir], fun dir hdir hne => ?_⟩
      exact absurd (List.prefix_nil.mp hdir) hne
    · refine ⟨n :: rest, f, Option.bind_eq_some_iff.mpr ⟨e, he, hf⟩, by simp, ?_⟩
      rw [forall_proper_prefix_cons, List.append_nil]
      exact ⟨hkept, fun dir hdir hne => by simpa using hrest dir hdir hne⟩

theorem mem_met_iff_meets : (∀ e : Entry, ∀ {names : List Bytes}, e.Sound →
      (x ∈ e.met rejects names ↔ e.Meets rejects names x)) ∧
    ∀ es : Entries, ∀ n e, (n, e) ∈ es.toList → ∀ {names : List Bytes}, e.Sound →
      (x ∈ e.met rejects names ↔ e.Meets rejects names x) := by
  apply Entry.induction_with_entries
  case file =>
    intro s names _
    rw [Entry.met_leaf rfl, Entry.meets_leaf_iff rfl, List.mem_singleton]
  case link =>
    intro s names _
    rw [Entry.met_leaf rfl, Entry.meets_leaf_iff rfl, List.mem_singleton]
  case dir =>
    intro es ih names hs
    rw [Entry.Sound] at hs
    rw [Entry.met, Entry.meets_dir_iff, List.mem_cons]
    cases rejects names true with
    | true => simp
    | false =>
      simp only [Bool.false_eq_true, if_false, true_and, Entries.mem_met_iff]
      apply or_congr_right
      constructor
      · rintro ⟨n, e, hmem, hx⟩
        exact ⟨n, e, hs.get? hmem, (ih n e hmem (hs.entry hmem)).mp hx⟩
      · rintro ⟨n, e, he, hx⟩
        have hmem := Entries.mem_of_get? he
        exact ⟨n, e, hmem, (ih n e hmem (hs.entry hmem)).mpr hx⟩
  case nil => exact fun n e hmem => absurd hmem List.not_mem_nil
  case cons =>
    intro n e es ihe ihes m f hmem
    rcases List.mem_cons.mp hmem with heq | hmem
    · cases heq
      exact ihe
    · exact ihes m f hmem

theorem Entries.mem_met {es : Entries} (h : es.Sound) : x ∈ es.met rejects [] ↔
    ∃ ns e, ns ≠ [] ∧ (Entry.dir es).at? ns = some e ∧ x = (ns, e.isDir) ∧
      ∀ dir, dir <+: ns → dir ≠ ns → dir ≠ [] → rejects dir true = false := by
  rw [Entries.mem_met_iff]
  constructor
  · rintro ⟨n, e, hmem, hx⟩
    obtain ⟨rest, f, hf, rfl, hkept⟩ := (mem_met_iff_meets.1 e (h.entry hmem)).mp hx
    refine ⟨n :: rest, f, List.cons_ne_nil n rest, ?_, rfl, ?_⟩
    · exact Option.bind_eq_some_iff.mpr ⟨e, h.get? hmem, hf⟩
    · rw [forall_proper_prefix_cons]
      exact ⟨absurd rfl, fun dir hdir hne _ => hkept dir hdir hne⟩
  · rintro ⟨ns, f, hne, hf, rfl, hkept⟩
    obtain ⟨n, rest, rfl⟩ := List.exists_cons_of_ne_nil hne
    obtain ⟨e, he, hf⟩ := Option.bind_eq_some_iff.mp hf
    have hmem := Entries.mem_of_get? he
    rw [forall_proper_prefix_cons] at hkept
    refine ⟨n, e, hmem, (mem_met_iff_meets.1 e (h.entry hmem)).mpr ⟨rest, f, hf, rfl, ?_⟩⟩
    exact fun dir hdir hne => hkept.2 dir hdir hne (List.cons_ne_nil n dir)

end

namespace Walk

variable {σ τ ε : Type} {c : Classifier σ} {fs : FileSystem} {visit : Visitor ε τ} {start : Path}
  {K : σ → Prop} {rejects : List Bytes → Bool → Bool}

/-- As long as the oracle remembers nothing but what `K` allows, it does not matter to the
classifier's answers what that is. -/
structure Judges (c : Classifier σ) (fs : FileSystem) (start : Path) (K : σ → Prop)
    (rejects : List Bytes → Bool → Bool) : Prop where
  verdict {names memory} (isDir : Bool) : names ≠ [] → (∀ n ∈ names, IsName n) → K memory →
    ((c.shouldIgnoreEntry fs (start.pushAll names) isDir).run memory).1 = rejects names isDir
  keeps {names memory} (isDir : Bool) : names ≠ [] → (∀ n ∈ names, IsName n) → K memory →
    K ((c.shouldIgnoreEntry fs (start.pushAll names) isDir).run memory).2

def account (rejects : List Bytes → Bool → Bool) (visit : Visitor ε τ) (p : Tally × τ)
    (x : List Bytes × Bool) : Except ε (Tally × τ) :=
  if rejects x.1 x.2 then .ok (p.1.see.ignore x.2, p.2)
  else (visit ⟨.pushAll ⟨[]⟩ x.1, x.2⟩ p.2).map (p.1.see.yield, ·)

def Accounts (K : σ → Prop) (rejects : List Bytes → Bool → Bool) (visit : Visitor ε τ)
    (xs : List (List Bytes × Bool)) (p : Progress σ τ) (r : Except ε (Progress σ τ)) : Prop :=
  ∃ memory, K memory ∧ r = (xs.foldlM (account rejects visit) (p.tally, p.made)).map
    fun q => ⟨memory, q.1, q.2⟩

theorem pushAll_concat (p : Path) (names : List Bytes) (n : Bytes) :
    p.pushAll (names ++ [n]) = (p.pushAll names).push n := by simp

section

variable {names : List Bytes} {n : Bytes} {p : Progress σ τ} {L : σ → Prop}

theorem accounts_leaf {e : Entry} (hleaf : e.isDir = false)
    (hverdict : ((c.shouldIgnoreEntry fs (start.pushAll (names ++ [n])) false).run p.memory).1
      = rejects (names ++ [n]) false)
    (hmemory : K ((c.shouldIgnoreEntry fs (start.pushAll (names ++ [n])) false).run p.memory).2) :
    Accounts K rejects visit (e.met rejects (names ++ [n])) p
      (entry c fs visit (start.pushAll names) (.pushAll ⟨[]⟩ names) n e p) := by
  refine ⟨_, hmemory, ?_⟩
  rw [entry_leaf hleaf, Entry.met_leaf hleaf, ← pushAll_concat, ← pushAll_concat,
    List.foldlM_cons, account]
  dsimp only
  rw [hverdict]
  split
  · rfl
  · cases visit ⟨.pushAll ⟨[]⟩ (names ++ [n]), false⟩ p.made <;> rfl

theorem accounts_dir {es : Entries}
    (hverdict : ((c.shouldIgnoreEntry fs (start.pushAll (names ++ [n])) true).run p.memory).1
      = rejects (names ++ [n]) true)
    (hmemory : K ((c.shouldIgnoreEntry fs (start.pushAll (names ++ [n])) true).run p.memory).2)
    (hinside : rejects (names ++ [n]) true = false → ∀ q : Progress σ τ,
      q.memory = ((c.shouldIgnoreEntry fs (start.pushAll (names ++ [n])) true).run p.memory).2 →
      Accounts K rejects visit (es.met rejects (names ++ [n])) q
        (entries c fs visit (start.pushAll (names ++ [n])) (.pushAll ⟨[]⟩ (names ++ [n])) es q)) :
    Accounts K rejects visit ((Entry.dir es).met rejects (names ++ [n])) p
      (entry c fs visit (start.pushAll names) (.pushAll ⟨[]⟩ names) n (.dir es) p) := by
  rw [entry_dir, Entry.met, ← pushAll_concat, ← pushAll_concat]
  dsimp only
  rw [hverdict]
  split
  next hrejected =>
    refine ⟨_, hmemory, ?_⟩
    rw [List.foldlM_cons, account, if_pos hrejected]
    rfl
  next hkept =>
    cases hmade : visit ⟨.pushAll ⟨[]⟩ (names ++ [n]), true⟩ p.made with
    | error reason =>
      refine ⟨_, hmemory, ?_⟩
      rw [List.foldlM_cons, account, if_neg hkept, hmade]
      rfl
    | ok made =>
      obtain ⟨memory, hlast, hrest⟩ :=
        hinside (by simpa using hkept) ⟨_, p.tally.see.yield, made⟩ rfl
      refine ⟨memory, hlast, ?_⟩
      rw [List.foldlM_cons, account, if_neg hkept, hmade]
      exact hrest

theorem accounts_cons {e : Entry} {es : Entries}
    (hfirst : Accounts L rejects visit (e.met rejects (names ++ [n])) p
      (entry c fs visit (start.pushAll names) (.pushAll ⟨[]⟩ names) n e p))
    (hmemory : ∀ memory, L memory → K memory)
    (hrest : ∀ q : Progress σ τ, L q.memory → Accounts K rejects visit (es.met rejects names) q
      (entries c fs visit (start.pushAll names) (.pushAll ⟨[]⟩ names) es q)) :
    Accounts K rejects visit ((Entries.cons n e es).met rejects names) p
      (entries c fs visit (start.pushAll names) (.pushAll ⟨[]⟩ names) (.cons n e es) p) := by
  obtain ⟨memory, hL, hentry⟩ := hfirst
  rw [entries_cons, hentry, Entries.met]
  cases hfold : (e.met rejects (names ++ [n])).foldlM (account rejects visit)
      (p.tally, p.made) with
  | error reason => exact ⟨memory, hmemory memory hL, by rw [List.foldlM_append, hfold]; rfl⟩
  | ok q =>
    obtain ⟨memory', hlast, hentries⟩ := hrest ⟨memory, q.1, q.2⟩ hL
    refine ⟨memory', hlast, ?_⟩
    rw [List.foldlM_append, hfold]
    exact hentries

end

theorem accounts (hj : Judges c fs start K rejects) :
    (∀ e : Entry, ∀ {names : List Bytes} {n : Bytes} {p : Progress σ τ},
      (∀ m ∈ names ++ [n], IsName m) → e.Sound → K p.memory →
      Accounts K rejects visit (e.met rejects (names ++ [n])) p
        (entry c fs visit (start.pushAll names) (.pushAll ⟨[]⟩ names) n e p)) ∧
    ∀ es : Entries, ∀ {names : List Bytes} {p : Progress σ τ},
      (∀ m ∈ names, IsName m) → es.Sound → K p.memory →
      Accounts K rejects visit (es.met rejects names) p
        (entries c fs visit (start.pushAll names) (.pushAll ⟨[]⟩ names) es p) := by
  have hne (names : List Bytes) (n : Bytes) : names ++ [n] ≠ [] := by simp
  apply Entry.induction_with_entries
  case file =>
    intro s names n p hnames _ hp
    have hkeeps := hj.keeps false (hne _ _) hnames hp
    exact accounts_leaf rfl (hj.verdict false (hne _ _) hnames hp) hkeeps
  case link =>
    intro s names n p hnames _ hp
    have hkeeps := hj.keeps false (hne _ _) hnames hp
    exact accounts_leaf rfl (hj.verdict false (hne _ _) hnames hp) hkeeps
  case dir =>
    intro es ih names n p hnames hs hp
    have hkeeps := hj.keeps true (hne _ _) hnames hp
    refine accounts_dir (hj.verdict true (hne _ _) hnames hp) hkeeps fun _ q hq => ?_
    exact ih hnames hs (hq ▸ hkeeps)
  case nil => exact fun _ _ hp => ⟨_, hp, rfl⟩
  case cons =>
    intro n e es ihe ihes names p hnames hs hp
    rw [Entries.Sound] at hs
    obtain ⟨hn, -, he, hes⟩ := hs
    have hall : ∀ m ∈ names ++ [n], IsName m :=
      List.forall_mem_append.mpr ⟨hnames, List.forall_mem_singleton.mpr hn⟩
    exact accounts_cons (ihe hall he hp) (fun _ => id) fun q hq => ihes hnames hes hq

theorem accounts_run (hj : Judges c fs start K rejects) {es : Entries}
    (hdir : fs.entry? true start = .ok (.dir es)) (hs : es.Sound) {memory : σ} (hmemory : K memory)
    (visit : Visitor Error τ) (made : τ) : Accounts K rejects visit (es.met rejects [])
      ⟨memory, .zero, made⟩ (run c fs visit start made memory) := by
  rw [run, entriesAt_of_isDir hdir]
  have hnames : ∀ m ∈ [], IsName m := List.forall_mem_nil IsName
  exact (accounts hj).2 es hnames hs hmemory

def kept (rejects : List Bytes → Bool → Bool) (xs : List (List Bytes × Bool)) : List SourceEntry :=
  (xs.filter fun x => !rejects x.1 x.2).map fun x => ⟨.pushAll ⟨[]⟩ x.1, x.2⟩

def count (rejects : List Bytes → Bool → Bool) (t : Tally) (x : List Bytes × Bool) : Tally :=
  if rejects x.1 x.2 then t.see.ignore x.2 else t.see.yield

/-- The counts do not depend on the visitor, which is called for what is kept and nothing else. -/
theorem foldlM_account (rejects : List Bytes → Bool → Bool) (visit : Visitor ε τ)
    (xs : List (List Bytes × Bool)) (p : Tally × τ) : xs.foldlM (account rejects visit) p =
      ((kept rejects xs).foldlM (fun made e => visit e made) p.2).map
        (xs.foldl (count rejects) p.1, ·) := by
  induction xs generalizing p with
  | nil => rfl
  | cons x xs ih =>
    rw [List.foldlM_cons, List.foldl_cons, account, count, kept]
    split
    next hrejected =>
      rw [List.filter_cons_of_neg (by simp [hrejected])]
      exact ih (p.1.see.ignore x.2, p.2)
    next hkept =>
      rw [List.filter_cons_of_pos (by simp [hkept]), List.map_cons, List.foldlM_cons]
      cases visit ⟨.pushAll ⟨[]⟩ x.1, x.2⟩ p.2 with
      | error reason => rfl
      | ok made => exact ih (p.1.see.yield, made)

theorem foldlM_collect (rejects : List Bytes → Bool → Bool) (xs : List (List Bytes × Bool))
    (p : Tally × List SourceEntry) : ∃ tally, xs.foldlM (account rejects collect) p =
      .ok (tally, (kept rejects xs).reverse ++ p.2) := by
  have hcollect (es made : List SourceEntry) :
      es.foldlM (fun made e => collect e made) made = .ok (es.reverse ++ made) := by
    induction es generalizing made with
    | nil => rfl
    | cons e es ih =>
      rw [List.foldlM_cons, List.reverse_cons, List.append_assoc]
      exact ih (e :: made)
  refine ⟨xs.foldl (count rejects) p.1, ?_⟩
  rw [foldlM_account, hcollect]
  rfl

theorem collects (hj : Judges c fs start K rejects) {es : Entries}
    (hdir : fs.entry? true start = .ok (.dir es)) (hs : es.Sound) {memory : σ}
    (hmemory : K memory) : ∃ q, run c fs collect start [] memory = .ok q ∧ ∀ e, e ∈ q.made ↔
      ∃ ns f, ns ≠ [] ∧ (Entry.dir es).at? ns = some f ∧ e = ⟨.pushAll ⟨[]⟩ ns, f.isDir⟩ ∧
        rejects ns f.isDir = false ∧
        ∀ dir, dir <+: ns → dir ≠ ns → dir ≠ [] → rejects dir true = false := by
  obtain ⟨last, hlast, hrun⟩ := accounts_run hj hdir hs hmemory collect []
  obtain ⟨tally, hfold⟩ := foldlM_collect rejects (es.met rejects []) (.zero, [])
  refine ⟨⟨last, tally, (kept rejects (es.met rejects [])).reverse⟩, ?_, fun e => ?_⟩
  · rw [hrun, hfold, List.append_nil]
    rfl
  · simp only [kept, List.mem_reverse, List.mem_map, List.mem_filter, Entries.mem_met hs,
      Bool.not_eq_true']
    constructor
    · rintro ⟨x, ⟨⟨ns, f, hne, hf, rfl, habove⟩, hkept⟩, rfl⟩
      exact ⟨ns, f, hne, hf, rfl, hkept, habove⟩
    · rintro ⟨ns, f, hne, hf, rfl, hkept, habove⟩
      exact ⟨(ns, f.isDir), ⟨⟨ns, f, hne, hf, rfl, habove⟩, hkept⟩, rfl⟩

end Walk

end ChunkWatch
