import Mathlib.Data.List.Nodup
import ChunkWatch.Proofs.Walk.Agreement

namespace ChunkWatch

open Component (IsName)

section

variable {rejects : List Bytes → Bool → Bool} {names ms ns : List Bytes} {n : Bytes}
  {x : List Bytes × Bool} {e : Entry} {es ds : Entries}

def isStrictlyBelow (ms : List Bytes) (x : List Bytes × Bool) : Bool :=
  decide (ms <+: x.1 ∧ x.1 ≠ ms)

theorem Entry.Sound.prefix_of_mem_met (hs : e.Sound) (hx : x ∈ e.met rejects names) :
    names <+: x.1 := by
  obtain ⟨rest, f, -, rfl, -⟩ := (mem_met_iff_meets.1 e hs).mp hx
  exact List.prefix_append names rest

theorem Entries.Sound.strictlyBelow_of_mem_met (hs : es.Sound) (hx : x ∈ es.met rejects names) :
    isStrictlyBelow names x := by
  obtain ⟨n, e, hmem, hx⟩ := Entries.mem_met_iff.mp hx
  have hbegin := (hs.entry hmem).prefix_of_mem_met hx
  refine decide_eq_true ⟨(List.prefix_append names [n]).trans hbegin, ?_⟩
  intro heq
  have hle := hbegin.length_le
  rw [heq, List.length_append, List.length_singleton] at hle
  omega

theorem eq_of_concat_isPrefix {m : Bytes} (hn : names ++ [n] <+: ns) (hm : names ++ [m] <+: ns) :
    n = m := by
  have hlength : (names ++ [n]).length = (names ++ [m]).length := by simp
  have heq := (List.prefix_of_prefix_length_le hn hm hlength.le).eq_of_length hlength
  exact List.singleton_inj.mp (List.append_cancel_left heq)

theorem Entries.Sound.filter_met (hs : es.Sound) (he : es.get? n = some e)
    {p : List Bytes × Bool → Bool} (hp : ∀ x, p x → names ++ [n] <+: x.1) :
    (es.met rejects names).filter p = (e.met rejects (names ++ [n])).filter p := by
  have hother {m : Bytes} {f : Entry} (hf : f.Sound) (hne : m ≠ n) :
      (f.met rejects (names ++ [m])).filter p = [] := by
    rw [List.filter_eq_nil_iff]
    exact fun x hx hpx => hne (eq_of_concat_isPrefix (hf.prefix_of_mem_met hx) (hp x hpx))
  induction es with
  | nil => cases he
  | cons m f es ih =>
    obtain ⟨-, hafter, hf, hes⟩ := hs
    rw [Entries.met, List.filter_append]
    rw [Entries.get?] at he
    split at he
    next hm =>
      cases he
      subst hm
      have hrest : (es.met rejects names).filter p = [] := by
        rw [List.filter_eq_nil_iff]
        intro x hx
        obtain ⟨k, g, hmem, hx⟩ := Entries.mem_met_iff.mp hx
        have hne : k ≠ m := by
          rintro rfl
          exact lt_irrefl _ (hafter _ hmem)
        exact List.filter_eq_nil_iff.mp (hother (hes.entry hmem) hne) x hx
      rw [hrest, List.append_nil]
    next hm => rw [hother hf hm, List.nil_append, ih hes he]

theorem Entry.Sound.filter_met (hs : e.Sound) (hms : e.at? ms = some (.dir ds))
    (hkept : ∀ dir, dir <+: ms → rejects (names ++ dir) true = false) :
    (e.met rejects names).filter (isStrictlyBelow (names ++ ms)) =
      ds.met rejects (names ++ ms) := by
  induction ms generalizing e names with
  | nil =>
    cases hms
    have htop := hkept [] List.nil_prefix
    rw [List.append_nil] at htop ⊢
    rw [Entry.met, htop, if_neg Bool.false_ne_true,
      List.filter_cons_of_neg (by simp [isStrictlyBelow])]
    exact List.filter_eq_self.mpr fun x hx => Entries.Sound.strictlyBelow_of_mem_met hs hx
  | cons n ms ih =>
    cases e with
    | file s => cases hms
    | link s => cases hms
    | dir es =>
      obtain ⟨f, hf, hms⟩ := Option.bind_eq_some_iff.mp hms
      have htop := hkept [] List.nil_prefix
      have happend : names ++ n :: ms = names ++ [n] ++ ms := by simp
      rw [List.append_nil] at htop
      rw [Entry.met, htop, if_neg Bool.false_ne_true, List.filter_cons_of_neg]
      · rw [happend]
        have hes : es.Sound := hs
        refine (hes.filter_met hf fun x hx => ?_).trans
          (ih (hes.entry (Entries.mem_of_get? hf)) hms fun dir hdir => ?_)
        · exact (List.prefix_append _ ms).trans (of_decide_eq_true hx).1
        · rw [List.append_assoc]
          exact hkept (n :: dir) (List.cons_prefix_cons.mpr ⟨rfl, hdir⟩)
      · intro h
        have hle : (names ++ n :: ms).length ≤ names.length := (of_decide_eq_true h).1.length_le
        rw [List.length_append, List.length_cons] at hle
        omega

theorem Entries.Sound.filter_met_below (hs : es.Sound)
    (hms : (Entry.dir es).at? ms = some (.dir ds)) (hne : ms ≠ [])
    (hkept : ∀ dir, dir <+: ms → dir ≠ [] → rejects dir true = false) :
    (es.met rejects []).filter (isStrictlyBelow ms) = ds.met rejects ms := by
  obtain ⟨n, ms, rfl⟩ := List.exists_cons_of_ne_nil hne
  obtain ⟨e, he, hms⟩ := Option.bind_eq_some_iff.mp hms
  have hinside : (e.met rejects [n]).filter (isStrictlyBelow ([n] ++ ms)) =
      ds.met rejects ([n] ++ ms) :=
    (hs.entry (Entries.mem_of_get? he)).filter_met hms fun dir hdir =>
      hkept (n :: dir) (List.cons_prefix_cons.mpr ⟨rfl, hdir⟩) (List.cons_ne_nil n dir)
  refine (hs.filter_met he fun x hx => ?_).trans hinside
  exact (List.prefix_append [n] ms).trans (of_decide_eq_true hx).1

theorem met_append_entry_and_entries :
    (∀ e : Entry, ∀ ns, e.met rejects (ms ++ ns) =
      (e.met (fun ns => rejects (ms ++ ns)) ns).map fun x => (ms ++ x.1, x.2)) ∧
    ∀ es : Entries, ∀ ns, es.met rejects (ms ++ ns) =
      (es.met (fun ns => rejects (ms ++ ns)) ns).map fun x => (ms ++ x.1, x.2) := by
  apply Entry.induction_with_entries
  case file => exact fun s ns => rfl
  case link => exact fun s ns => rfl
  case dir =>
    intro es ih ns
    rw [Entry.met, Entry.met, List.map_cons, ih]
    split <;> rfl
  case nil => exact fun ns => rfl
  case cons =>
    intro n e es ihe ihes ns
    rw [Entries.met, Entries.met, List.map_append, List.append_assoc, ihe, ihes]

theorem pairwise_met_entry_and_entries :
    (∀ e : Entry, e.Sound → ∀ names, (e.met rejects names).Pairwise fun x y => ¬y.1 <+: x.1) ∧
    ∀ es : Entries, es.Sound → ∀ names,
      (es.met rejects names).Pairwise fun x y => ¬y.1 <+: x.1 := by
  apply Entry.induction_with_entries
  case file => exact fun s _ names => List.pairwise_singleton _ _
  case link => exact fun s _ names => List.pairwise_singleton _ _
  case dir =>
    intro es ih hs names
    refine List.pairwise_cons.mpr ⟨fun y hy habove => ?_, ?_⟩
    · split at hy
      · cases hy
      · obtain ⟨hbelow, hne⟩ := of_decide_eq_true (Entries.Sound.strictlyBelow_of_mem_met hs hy)
        exact hne (habove.eq_of_length (Nat.le_antisymm habove.length_le hbelow.length_le))
    · split
      · exact List.Pairwise.nil
      · exact ih hs names
  case nil => exact fun _ names => List.Pairwise.nil
  case cons =>
    intro n e es ihe ihes hs names
    obtain ⟨-, hafter, he, hes⟩ := hs
    refine List.pairwise_append.mpr ⟨ihe he _, ihes hes names, fun x hx y hy habove => ?_⟩
    obtain ⟨k, f, hmem, hy⟩ := Entries.mem_met_iff.mp hy
    have hbegin := (hes.entry hmem).prefix_of_mem_met hy
    have hk : n = k := eq_of_concat_isPrefix (he.prefix_of_mem_met hx) (hbegin.trans habove)
    subst hk
    exact lt_irrefl _ (hafter _ hmem)

theorem Entries.Sound.met_nodup (hs : es.Sound) : ((es.met rejects names).map Prod.fst).Nodup := by
  rw [List.Nodup, List.pairwise_map]
  refine (pairwise_met_entry_and_entries.2 es hs names).imp fun hnot heq => hnot ?_
  rw [heq]

theorem Entries.Sound.isName_of_mem_met (hs : es.Sound) (hx : x ∈ es.met rejects []) :
    x.1 ≠ [] ∧ ∀ n ∈ x.1, IsName n := by
  obtain ⟨ns, e, hne, he, rfl, -⟩ := (Entries.mem_met hs).mp hx
  have hdir : (Entry.dir es).Sound := hs
  exact ⟨hne, FileSystem.isName_of_at? hdir he⟩

theorem Entries.Sound.entered_of_mem_met (hs : es.Sound) (hx : x ∈ es.met rejects [])
    (hdir : x.2) (hkept : rejects x.1 true = false) :
    ∃ ds, (Entry.dir es).at? x.1 = some (.dir ds) ∧
      ∀ dir, dir <+: x.1 → dir ≠ [] → rejects dir true = false := by
  obtain ⟨ns, e, hne, he, rfl, habove⟩ := (Entries.mem_met hs).mp hx
  cases e with
  | file content => cases hdir
  | link target => cases hdir
  | dir ds =>
    refine ⟨ds, he, fun dir hbegin hdir => ?_⟩
    by_cases heq : dir = ns
    · rw [heq, hkept]
    · exact habove dir hbegin heq hdir

end

def SourceEntry.isBelow (e d : SourceEntry) : Bool :=
  e.path.startsWith d.path && !e.path.same d.path

namespace Walk

variable {rejects : List Bytes → Bool → Bool} {ms : List Bytes} {es ds : Entries}

theorem isBelow_pushAll {ns : List Bytes} {isDir isDir' : Bool} (hms : ∀ m ∈ ms, IsName m)
    (hns : ∀ n ∈ ns, IsName n) :
    (SourceEntry.mk (.pushAll ⟨[]⟩ ns) isDir).isBelow ⟨.pushAll ⟨[]⟩ ms, isDir'⟩ =
      isStrictlyBelow ms (ns, isDir) := by
  have hcomponents {ks : List Bytes} (hks : ∀ k ∈ ks, IsName k) :
      (Path.pushAll ⟨[]⟩ ks).components = ks.map .name := Path.components_pushAll hks _
  have hbegin : (Path.pushAll ⟨[]⟩ ns).startsWith (.pushAll ⟨[]⟩ ms) ↔ ms <+: ns := by
    rw [Path.startsWith_iff, hcomponents hms, hcomponents hns,
      List.prefix_map_iff_of_injective fun _ _ => Component.name.inj]
  have hsame : (Path.pushAll ⟨[]⟩ ns).same (.pushAll ⟨[]⟩ ms) ↔ ns = ms := by
    rw [Path.same_iff, hcomponents hms, hcomponents hns, Component.names_injective.eq_iff]
  rw [Bool.eq_iff_iff, SourceEntry.isBelow, Bool.and_eq_true, hbegin, Bool.not_eq_true',
    ← Bool.not_eq_true, hsame, isStrictlyBelow, decide_eq_true_iff]

theorem kept_below (hs : es.Sound) (hms : (Entry.dir es).at? ms = some (.dir ds)) (hne : ms ≠ [])
    (hkept : ∀ dir, dir <+: ms → dir ≠ [] → rejects dir true = false) :
    (kept rejects (es.met rejects [])).filter (·.isBelow ⟨.pushAll ⟨[]⟩ ms, true⟩) =
      (kept (fun ns => rejects (ms ++ ns)) (ds.met (fun ns => rejects (ms ++ ns)) [])).map fun e =>
        ⟨(Path.pushAll ⟨[]⟩ ms).join e.path, e.isDir⟩ := by
  have hdir : (Entry.dir es).Sound := hs
  have hnames := FileSystem.isName_of_at? hdir hms
  have hds : ds.Sound := hdir.at? hms
  have hbelow : (es.met rejects []).filter
      ((·.isBelow ⟨.pushAll ⟨[]⟩ ms, true⟩) ∘ fun x => SourceEntry.mk (.pushAll ⟨[]⟩ x.1) x.2) =
      (ds.met (fun ns => rejects (ms ++ ns)) []).map fun x => (ms ++ x.1, x.2) := by
    refine (List.filter_congr (q := isStrictlyBelow ms) fun x hx => ?_).trans ?_
    · exact isBelow_pushAll hnames (hs.isName_of_mem_met hx).2
    · rw [hs.filter_met_below hms hne hkept, ← met_append_entry_and_entries.2, List.append_nil]
  rw [kept, List.filter_map, List.filter_comm, hbelow, List.filter_map, List.map_map, kept,
    List.map_map]
  refine List.map_congr_left fun x hx => ?_
  obtain ⟨hne', hnames'⟩ := hds.isName_of_mem_met (List.mem_filter.mp hx).1
  simp only [Function.comp_apply]
  rw [Path.pushAll_append, Path.join_pushAll_empty _ hne' hnames']

end Walk

end ChunkWatch
