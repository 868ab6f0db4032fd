import ChunkWatch.Proofs.Walk.Scanning

namespace ChunkWatch

open Component (IsName)

variable {σ τ υ ε δ : Type} {c : Classifier σ} {fs : FileSystem} {start : Path}

namespace Walk

def Progress.map (f : τ → υ) (p : Progress σ τ) : Progress σ υ := ⟨p.memory, p.tally, f p.made⟩

/-- A visitor that does what another one does, as seen through what it makes and why it fails. -/
def Mirrors (f : τ → υ) (g : ε → δ) (visit : Visitor ε τ) (visit' : Visitor δ υ) : Prop :=
  ∀ e made, visit' e (f made) = ((visit e made).map f).mapError g

section

variable {f : τ → υ} {g : ε → δ} {visit : Visitor ε τ} {visit' : Visitor δ υ}
  {here relative : Path} {n : Bytes}

theorem entry_leaf_map (h : Mirrors f g visit visit') {e : Entry} (hleaf : e.isDir = false)
    (p : Progress σ τ) : entry c fs visit' here relative n e (p.map f) =
      ((entry c fs visit here relative n e p).map (Progress.map f)).mapError g := by
  rw [entry_leaf hleaf, entry_leaf hleaf]
  dsimp only [Progress.map]
  split
  · rfl
  · rw [h]
    cases visit ⟨relative.push n, false⟩ p.made <;> rfl

theorem map_entry_and_entries (h : Mirrors f g visit visit') :
    (∀ e : Entry, ∀ here relative n (p : Progress σ τ),
      entry c fs visit' here relative n e (p.map f) =
        ((entry c fs visit here relative n e p).map (Progress.map f)).mapError g) ∧
    ∀ es : Entries, ∀ here relative (p : Progress σ τ),
      entries c fs visit' here relative es (p.map f) =
        ((entries c fs visit here relative es p).map (Progress.map f)).mapError g := by
  apply Entry.induction_with_entries
  case file => exact fun s here relative n => entry_leaf_map h rfl
  case link => exact fun s here relative n => entry_leaf_map h rfl
  case dir =>
    intro es ih here relative n p
    rw [entry_dir, entry_dir]
    dsimp only [Progress.map]
    split
    · rfl
    · rw [h]
      cases visit ⟨relative.push n, true⟩ p.made with
      | error reason => rfl
      | ok made => exact ih _ _ ⟨_, p.tally.see.yield, made⟩
  case nil => exact fun here relative p => rfl
  case cons =>
    intro n e es ihe ihes here relative p
    rw [entries_cons, entries_cons, ihe]
    cases entry c fs visit here relative n e p with
    | error reason => rfl
    | ok q => exact ihes here relative q

end

theorem run_map {f : τ → υ} {visit : Visitor Error τ} {visit' : Visitor Error υ}
    (h : ∀ e made, visit' e (f made) = (visit e made).map f) (made : τ) (memory : σ) :
    run c fs visit' start (f made) memory =
      (run c fs visit start made memory).map (Progress.map f) := by
  have hid {α : Type} (x : Except Error α) : x.mapError id = x := by cases x <;> rfl
  have hmirrors : Mirrors f id visit visit' := fun e made => (h e made).trans (hid _).symm
  rw [run, run]
  split
  · rfl
  next es _ =>
    exact ((map_entry_and_entries hmirrors).2 es start ⟨[]⟩ ⟨memory, .zero, made⟩).trans (hid _)

end Walk

def Walk.Visitor.recording (visit : Visitor ε τ) :
    Visitor (List SourceEntry × ε) (List SourceEntry × τ) := fun e made =>
  ((visit e made.2).map (made.1 ++ [e], ·)).mapError (made.1 ++ [e], ·)

namespace Walk

variable {visit : Visitor ε τ}

theorem mirrors_recording (visit : Visitor ε τ) :
    Mirrors Prod.snd Prod.snd visit.recording visit := by
  intro e made
  rw [Visitor.recording]
  cases visit e made.2 <;> rfl

def recorded (c : Classifier σ) (fs : FileSystem) (visit : Visitor Error τ) (root : Path) (made : τ)
    (memory : σ) : Except (List SourceEntry × Error) (Progress σ (List SourceEntry × τ)) :=
  match entriesAt fs root with
  | .error e => .error ([], .watch (.walkAt root e))
  | .ok es => entries c fs visit.recording root ⟨[]⟩ es ⟨memory, .zero, [], made⟩

def calls (c : Classifier σ) (fs : FileSystem) (visit : Visitor Error τ) (root : Path) (made : τ)
    (memory : σ) : List SourceEntry :=
  match recorded c fs visit root made memory with
  | .error failed => failed.1
  | .ok q => q.made.1

theorem run_eq_recorded (visit : Visitor Error τ) (made : τ) (memory : σ) :
    run c fs visit start made memory =
      ((recorded c fs visit start made memory).map (Progress.map Prod.snd)).mapError Prod.snd := by
  rw [run, recorded]
  cases entriesAt fs start with
  | error e => rfl
  | ok es =>
    exact (map_entry_and_entries (mirrors_recording visit)).2 es start ⟨[]⟩
      ⟨memory, .zero, [], made⟩

theorem foldlM_recording_ok {found log : List SourceEntry} {made last : τ}
    (h : found.foldlM (fun made e => visit e made) made = .ok last) :
    found.foldlM (fun made e => visit.recording e made) (log, made) = .ok (log ++ found, last) := by
  induction found generalizing log made with
  | nil =>
    cases h
    rw [List.append_nil]
    rfl
  | cons e found ih =>
    obtain ⟨next, hnext, h⟩ := bind_eq_ok h
    have hcall : visit.recording e (log, made) = .ok (log ++ [e], next) := by
      rw [Visitor.recording, show visit e made = .ok next from hnext]
      rfl
    have hrest : found.foldlM (fun made e => visit.recording e made) (log ++ [e], next) =
        .ok (log ++ [e] ++ found, last) := ih h
    rw [List.append_assoc] at hrest
    rw [List.foldlM_cons, hcall]
    exact hrest

theorem foldlM_recording_error {before after log : List SourceEntry} {e : SourceEntry}
    {made next : τ} {reason : ε}
    (h : before.foldlM (fun made e => visit e made) made = .ok next)
    (hfails : visit e next = .error reason) :
    (before ++ e :: after).foldlM (fun made e => visit.recording e made) (log, made) =
      .error (log ++ before ++ [e], reason) := by
  have hcall : visit.recording e (log ++ before, next) = .error (log ++ before ++ [e], reason) := by
    rw [Visitor.recording, hfails]
    rfl
  rw [List.foldlM_append, foldlM_recording_ok h]
  change (e :: after).foldlM (fun made e => visit.recording e made) (log ++ before, next) = _
  rw [List.foldlM_cons, hcall]
  rfl

def rejected (c : Classifier σ) (fs : FileSystem) (start : Path) (memory : σ) (names : List Bytes)
    (isDir : Bool) : Bool :=
  ((c.shouldIgnoreEntry fs (start.pushAll names) isDir).run memory).1

structure Surveys (rejects : List Bytes → Bool → Bool) (es : Entries)
    (met : List (List Bytes × Bool)) : Prop where
  reached : ∀ x, x ∈ met ↔ ∃ ns f, ns ≠ [] ∧ (Entry.dir es).at? ns = some f ∧ x = (ns, f.isDir) ∧
    ∀ dir, dir <+: ns → dir ≠ ns → dir ≠ [] → rejects dir true = false
  once : (met.map Prod.fst).Nodup
  ordered : met.Pairwise fun x y => ¬y.1 <+: x.1

structure Counts (rejects : List Bytes → Bool → Bool) (met : List (List Bytes × Bool))
    (t : Tally) : Prop where
  seen : t.seen = met.length
  yielded : t.yielded = (kept rejects met).length
  pruned : t.pruned = met.countP fun x => x.2 && rejects x.1 x.2
  skipped : t.skipped = met.countP fun x => !x.2 && rejects x.1 x.2
  total : t.seen = t.yielded + t.pruned + t.skipped

section

variable {rejects : List Bytes → Bool → Bool} {memory : σ}

theorem surveys_met {es : Entries} (hs : es.Sound) : Surveys rejects es (es.met rejects []) where
  reached _ := Entries.mem_met hs
  once := hs.met_nodup
  ordered := pairwise_met_entry_and_entries.2 es hs []

theorem foldl_count (met : List (List Bytes × Bool)) (t : Tally) :
    met.foldl (count rejects) t = ⟨t.seen + met.length, t.yielded + (kept rejects met).length,
      t.pruned + met.countP (fun x => x.2 && rejects x.1 x.2),
      t.skipped + met.countP (fun x => !x.2 && rejects x.1 x.2)⟩ := by
  induction met generalizing t with
  | nil => rfl
  | cons x met ih =>
    obtain ⟨ns, isDir⟩ := x
    rw [List.foldl_cons, ih, count, List.countP_cons, List.countP_cons, kept, kept]
    cases hrejects : rejects ns isDir <;> cases isDir <;>
      simp [hrejects, Tally.see, Tally.ignore, Tally.yield, Nat.add_right_comm, Nat.add_assoc]
    all_goals omega

theorem length_met (met : List (List Bytes × Bool)) : met.length =
    (kept rejects met).length + met.countP (fun x => x.2 && rejects x.1 x.2) +
      met.countP (fun x => !x.2 && rejects x.1 x.2) := by
  induction met with
  | nil => rfl
  | cons x met ih =>
    obtain ⟨ns, isDir⟩ := x
    rw [List.length_cons, ih, List.countP_cons, List.countP_cons, kept, kept]
    cases hrejects : rejects ns isDir <;> cases isDir <;> simp [hrejects]
    all_goals omega

theorem counts_met (met : List (List Bytes × Bool)) :
    Counts rejects met (met.foldl (count rejects) .zero) := by
  rw [foldl_count]
  simp only [Tally.zero, Nat.zero_add]
  exact ⟨rfl, rfl, rfl, rfl, length_met met⟩

theorem recorded_eq_foldlM {es : Entries} (hs : es.Sound)
    (hdir : fs.entry? true start = .ok (.dir es)) {ignored : Path → Bool}
    (hanswers : c.Answers fs ignored) (hrejects : rejected c fs start memory = rejects)
    (visit : Visitor Error τ) (made : τ) : ∃ last,
    recorded c fs visit start made memory = ((kept rejects (es.met rejects [])).foldlM
      (fun made e => visit.recording e made) ([], made)).map
        fun made => ⟨last, (es.met rejects []).foldl (count rejects) .zero, made⟩ := by
  have hjudges : Judges c fs start (fun _ => True) rejects :=
    judges_of_answers hanswers fun ns isDir _ =>
      (hanswers.verdict _ isDir memory).symm.trans (congrFun (congrFun hrejects ns) isDir)
  have hnames : ∀ n ∈ [], IsName n := List.forall_mem_nil IsName
  have haccounts : Accounts _ rejects visit.recording (es.met rejects []) ⟨memory, .zero, [], made⟩
      (entries c fs visit.recording start ⟨[]⟩ es ⟨memory, .zero, [], made⟩) :=
    (accounts hjudges).2 es hnames hs trivial
  obtain ⟨last, -, hrun⟩ := haccounts
  refine ⟨last, ?_⟩
  rw [recorded, entriesAt_of_isDir hdir]
  refine hrun.trans ?_
  rw [foldlM_account]
  cases (kept rejects (es.met rejects [])).foldlM (fun made e => visit.recording e made)
    ([], made) <;> rfl

end

/-- What a walk of a directory calls its visitor for does not depend on the visitor: all that is
kept, or what comes up to the first call that fails. -/
theorem run_visits {es : Entries} (hs : fs.Sound) (hdir : fs.entry? true start = .ok (.dir es))
    {ignored : Path → Bool} (hanswers : c.Answers fs ignored) (memory : σ) : ∃ met tally,
    Surveys (rejected c fs start memory) es met ∧
    Counts (rejected c fs start memory) met tally ∧
    ∀ {τ : Type} (visit : Visitor Error τ) (made : τ),
      (∀ last, (kept (rejected c fs start memory) met).foldlM (fun made e => visit e made) made =
          .ok last →
        ∃ q, run c fs visit start made memory = .ok q ∧ q.made = last ∧ q.tally = tally ∧
          calls c fs visit start made memory = kept (rejected c fs start memory) met) ∧
      ∀ before e after next reason,
        kept (rejected c fs start memory) met = before ++ e :: after →
        before.foldlM (fun made e => visit e made) made = .ok next →
        visit e next = .error reason →
        run c fs visit start made memory = .error reason ∧
          calls c fs visit start made memory = before ++ [e] := by
  obtain ⟨place, -, hplace⟩ := FileSystem.entry?_iff.mp hdir
  have hes := hs.entries hplace
  refine ⟨es.met (rejected c fs start memory) [], _, surveys_met hes, counts_met _,
    fun visit made => ?_⟩
  obtain ⟨memory', hrecorded⟩ := recorded_eq_foldlM hes hdir hanswers rfl visit made
  constructor
  · intro last hlast
    rw [foldlM_recording_ok hlast] at hrecorded
    refine ⟨⟨memory', _, last⟩, ?_, rfl, rfl, ?_⟩
    · rw [run_eq_recorded, hrecorded]
      rfl
    · rw [calls, hrecorded]
      rfl
  · intro before e after next reason hkept hbefore hfails
    rw [hkept, foldlM_recording_error hbefore hfails] at hrecorded
    constructor
    · rw [run_eq_recorded, hrecorded]
      rfl
    · rw [calls, hrecorded]
      rfl

-- Of `/w` the directory `a` and the file `c` are ignored, `d` with a file in it is not.
def twoIgnoredEntries : Entries :=
  .cons (.ofString "a") (.dir (.cons (.ofString "b") (.file []) .nil))
    (.cons (.ofString "c") (.file [])
      (.cons (.ofString "d") (.dir (.cons (.ofString "e") (.file []) .nil)) .nil))

def twoIgnored : FileSystem := ⟨.cons (.ofString "w") (.dir twoIgnoredEntries) .nil, []⟩

def ignoresTwo (p : Path) : Bool := p = .ofString "/w/a" || p = .ofString "/w/c"

def ignoringTwo : Classifier Unit := ⟨.ofString "/w", [], .ofPaths ignoresTwo⟩

def failingForFiles : Visitor Error Nat := fun e n =>
  if e.isDir then .ok (n + 1) else .error (.internal "file")

theorem sound_twoIgnored : twoIgnored.Sound := by
  constructor
  · refine ⟨by decide, nofun, ⟨by decide, by decide, ⟨by decide, nofun, trivial, trivial⟩,
      by decide, by decide, trivial, by decide, nofun, ?_, trivial⟩, trivial⟩
    exact ⟨by decide, nofun, trivial, trivial⟩
  · exact nofun

theorem stops_at_first_file :
    twoIgnored.Sound ∧ twoIgnored.entry? true (.ofString "/w") = .ok (.dir twoIgnoredEntries) ∧
      ignoringTwo.Answers twoIgnored ignoresTwo ∧
      (∃ q, run ignoringTwo twoIgnored collect (.ofString "/w") [] () = .ok q ∧
        q.tally = ⟨4, 2, 1, 1⟩) ∧
      run ignoringTwo twoIgnored failingForFiles (.ofString "/w") 0 () = .error (.internal "file") ∧
      calls ignoringTwo twoIgnored failingForFiles (.ofString "/w") 0 () =
        [⟨.ofString "d", true⟩, ⟨.ofString "d/e", false⟩] := by
  have hanswers : ignoringTwo.Answers twoIgnored ignoresTwo := fun _ _ => rfl
  have hdir : twoIgnored.entry? true (.ofString "/w") = .ok (.dir twoIgnoredEntries) := rfl
  obtain ⟨met, tally, -, -, hvisits⟩ := run_visits sound_twoIgnored hdir hanswers ()
  have hkept : kept (rejected ignoringTwo twoIgnored (.ofString "/w") ()) met =
      [⟨.ofString "d", true⟩] ++ ⟨.ofString "d/e", false⟩ :: [] := by
    have hcalls := (hvisits (fun _ n => .ok n) ()).1 () (List.foldlM_pure ..)
    obtain ⟨q, -, -, -, hcalls⟩ := hcalls
    rw [← hcalls]
    decide +kernel
  obtain ⟨hrun, hcalls⟩ := (hvisits failingForFiles 0).2 _ _ _ 1 _ hkept rfl rfl
  have htally : (run ignoringTwo twoIgnored collect (.ofString "/w") [] ()).toOption.map (·.tally) =
      some ⟨4, 2, 1, 1⟩ := by decide +kernel
  cases hcollect : run ignoringTwo twoIgnored collect (.ofString "/w") [] () with
  | error e =>
    rw [hcollect] at htally
    cases htally
  | ok q =>
    rw [hcollect] at htally
    exact ⟨sound_twoIgnored, hdir, hanswers, ⟨q, rfl, Option.some.inj htally⟩, hrun, hcalls⟩

end Walk

end ChunkWatch
