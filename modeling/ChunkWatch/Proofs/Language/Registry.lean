import Mathlib.Data.List.Nodup
import ChunkWatch.Language.Registry
import ChunkWatch.Proofs.Language.Faults
import ChunkWatch.Proofs.Text.Order

/-! The history of a registry.  A call that fails leaves no trace, and the languages are those of
the calls that succeeded.  Claims refer to languages by their place, which is settled before the
language is there; even so an extension leads to the last language that lists it. -/

namespace ChunkWatch.Registry

variable {r r' : Registry} {l : Language} {e f : Extension} {i : Nat} {s : Spec}
  {ss ts : List Spec}

theorem lookup_claim {cs : List (Extension × Nat)} :
    (claim e i cs).lookup f = if f = e then some i else cs.lookup f := by
  have hcons (g : Extension) (j : Nat) (ds : List (Extension × Nat)) :
      ((g, j) :: ds).lookup f = if f = g then some j else ds.lookup f := by
    rw [List.lookup_cons]
    by_cases h : f = g
    · simp [h]
    · simp [h, beq_eq_false_iff_ne.mpr h]
  induction cs with
  | nil => exact hcons e i []
  | cons c cs ih =>
    obtain ⟨g, j⟩ := c
    rw [claim]
    split
    next hg =>
      subst hg
      rw [hcons, hcons]
      exact ite_congr rfl (fun _ => rfl) fun h => (if_neg h).symm
    next hg =>
      rw [hcons, hcons, ih]
      by_cases h : f = g
      · subst h
        rw [if_pos rfl, if_neg hg, if_pos rfl]
      · rw [if_neg h, if_neg h]

theorem lookup_claims {es : List Extension} {cs : List (Extension × Nat)} :
    (es.foldl (fun cs e => claim e i cs) cs).lookup f =
      if f ∈ es then some i else cs.lookup f := by
  induction es generalizing cs with
  | nil => simp
  | cons e es ih =>
    rw [List.foldl_cons, ih, lookup_claim]
    by_cases h : f ∈ es <;> simp [h]

def latest? (r : Registry) (e : Extension) : Option Language :=
  r.languages.findRev? fun l => decide (e ∈ l.spec.extensions)

theorem isSome_latest? :
    (r.latest? e).isSome ↔ ∃ l ∈ r.languages, e ∈ l.spec.extensions := by
  simp [latest?, List.findRev?_eq_find?_reverse]

/-- Every claim is a language's place, and the language is the last one that lists the extension. -/
structure Indexed (r : Registry) : Prop where
  inside : ∀ {e i}, r.claims.lookup e = some i → i < r.languages.length
  latest : ∀ {e}, r.forExtension? e = r.latest? e

theorem indexed_empty : Indexed empty where
  inside := nofun
  latest := rfl

theorem Indexed.add (h : Indexed r) : Indexed (r.add l) where
  inside {e i} hi := by
    rw [Registry.add, lookup_claims] at hi
    rw [Registry.add, List.length_append, List.length_singleton]
    split at hi
    next he =>
      cases hi
      exact Nat.lt_succ_self _
    next he => exact Nat.lt_succ_of_lt (h.inside hi)
  latest {e} := by
    have hlatest := h.latest (e := e)
    simp only [latest?, List.findRev?_eq_find?_reverse] at hlatest
    simp only [forExtension?, latest?, Registry.add, lookup_claims,
      List.findRev?_eq_find?_reverse, List.reverse_append, List.reverse_singleton,
      List.singleton_append, List.find?_cons]
    by_cases he : e ∈ l.spec.extensions
    · simp [he]
    · rw [if_neg he, decide_eq_false he, ← hlatest, forExtension?]
      -- A claim that stays is the place of a language that was there before.
      cases hi : r.claims.lookup e with
      | none => rfl
      | some i => exact List.getElem?_append_left (h.inside hi)

theorem Indexed.mem_extensions (h : Indexed r) :
    e ∈ r.extensions ↔ ∃ l ∈ r.languages, e ∈ l.spec.extensions := by
  have hclaimed : e ∈ r.claims.map Prod.fst ↔ (r.claims.lookup e).isSome := by
    simp [List.lookup_isSome_iff]
  have hfound : (r.claims.lookup e).isSome ↔ (r.forExtension? e).isSome := by
    rw [forExtension?]
    cases hi : r.claims.lookup e with
    | none => rfl
    | some i => simpa using h.inside hi
  rw [extensions, Text.mem_sorted, hclaimed, hfound, h.latest, isSome_latest?]

theorem run_bind {σ α β : Type} {x : ExceptT LanguageError (StateM σ) α}
    {f : α → ExceptT LanguageError (StateM σ) β} {a : α} {s s' : σ}
    (h : x.run.run s = (.ok a, s')) : (x >>= f).run.run s = (f a).run.run s' := by
  rw [ExceptT.run_bind, StateT.run_bind, h]
  rfl

theorem run_claims {es : List Extension} :
    (es.forM fun e => (modify fun r => { r with claims := claim e i r.claims } :
      ExceptT LanguageError (StateM Registry) PUnit)).run.run r =
    (.ok (), { r with claims := es.foldl (fun cs e => claim e i cs) r.claims }) := by
  induction es generalizing r with
  | nil => rfl
  | cons e es ih => exact ih

section

variable [Query.Analysis]

structure Holds (r : Registry) (ts : List Spec) : Prop where
  specs : r.languages.map Language.spec = ts
  compiled : ∀ l ∈ r.languages, Language.compile l.spec = .ok l
  names : (ts.map Spec.name).Nodup
  indexed : Indexed r

theorem holds_empty : Holds empty [] := ⟨rfl, nofun, .nil, indexed_empty⟩

theorem Holds.isSome_get? (h : Holds r ts) {name : String} :
    (r.get? name).isSome ↔ name ∈ ts.map Spec.name := by
  rw [← h.specs, List.map_map, List.mem_map, get?, List.find?_isSome]
  simp only [decide_eq_true_eq]
  rfl

theorem Holds.add (h : Holds r ts) (hname : l.name ∉ ts.map Spec.name)
    (hl : Language.compile l.spec = .ok l) : Holds (r.add l) (ts ++ [l.spec]) where
  specs := by rw [Registry.add, List.map_append, h.specs, List.map_singleton]
  compiled k hk := by
    rcases List.mem_append.mp hk with hk | hk
    · exact h.compiled k hk
    · rw [List.mem_singleton.mp hk, hl]
  names := by
    rw [List.map_append, List.map_singleton, ← List.concat_eq_append]
    exact h.names.concat hname
  indexed := h.indexed.add

theorem spec_of_compile (h : Language.compile s = .ok l) : l.spec = s := by
  rw [Language.compile] at h
  cases hrules : Language.compileRules s s.chunks with
  | error fault =>
    rw [hrules] at h
    cases h
  | ok rules =>
    cases hroles : Language.compileRoles s.name s.roles with
    | error fault =>
      rw [hrules, hroles] at h
      cases h
    | ok roles =>
      rw [hrules, hroles] at h
      cases h
      rfl

theorem Holds.register_cases (h : Holds r ts) :
    (∃ fault, r.register s = .error fault ∧ (s.name ∈ ts.map Spec.name ∨ s.Faulty)) ∨
    (∃ l, r.register s = .ok (r.add l) ∧ Holds (r.add l) (ts ++ [s]) ∧
      s.name ∉ ts.map Spec.name ∧ ¬s.Faulty) := by
  by_cases hname : s.name ∈ ts.map Spec.name
  · refine .inl ⟨.duplicate s.name, ?_, .inl hname⟩
    rw [register, if_pos (h.isSome_get?.mpr hname)]
  · rw [register, if_neg fun hget => hname (h.isSome_get?.mp hget)]
    cases hl : Language.compile s with
    | error fault =>
      refine .inl ⟨fault, rfl, .inr ?_⟩
      have hfailed : ¬(Language.compile s).isOk := by
        rw [hl]
        nofun
      exact not_not.mp fun hsound => hfailed (Language.isOk_compile_iff.mpr hsound)
    | ok l =>
      have hok : (Language.compile s).isOk := by rw [hl]; rfl
      obtain rfl := spec_of_compile hl
      exact .inr ⟨l, rfl, h.add hname hl, hname, Language.isOk_compile_iff.mp hok⟩

/-- The registration as its holder sees it: the registry is changed in place, extension by
extension, and is left as it is when the call fails. -/
def call (s : Spec) : ExceptT LanguageError (StateM Registry) Unit := do
  if ((← get).get? s.name).isSome then throw (.duplicate s.name)
  let l ← liftExcept (Language.compile s)
  let index := (← get).languages.length
  l.spec.extensions.forM fun e => modify fun r => { r with claims := claim e index r.claims }
  modify fun r => { r with languages := r.languages ++ [l] }

def tell (r : Registry) (s : Spec) : Except LanguageError Unit × Registry := (call s).run.run r

theorem tell_eq : r.tell s =
    match r.register s with
    | .error fault => (.error fault, r)
    | .ok r' => (.ok (), r') := by
  have hget : (get : ExceptT LanguageError (StateM Registry) Registry).run.run r = (.ok r, r) := rfl
  rw [tell, call, run_bind hget, register]
  by_cases hname : (r.get? s.name).isSome
  · rw [if_pos hname, if_pos hname]
    rfl
  · rw [if_neg hname, if_neg hname]
    cases Language.compile s with
    | error fault => rfl
    | ok l => exact run_bind run_claims

def after (r : Registry) : List Spec → Registry
  | [] => r
  | s :: ss => after (r.tell s).2 ss

def accepted (r : Registry) : List Spec → List Spec
  | [] => []
  | s :: ss =>
    match (r.tell s).1 with
    | .error _ => accepted (r.tell s).2 ss
    | .ok () => s :: accepted (r.tell s).2 ss

def Fails (r : Registry) (s : Spec) : Prop := ∃ fault, (r.tell s).1 = .error fault

theorem Holds.tell (h : Holds r ts) :
    (∃ fault, r.tell s = (.error fault, r)) ∨
    (∃ l, r.tell s = (.ok (), r.add l) ∧ Holds (r.add l) (ts ++ [s])) := by
  rw [tell_eq]
  rcases h.register_cases (s := s) with ⟨fault, hr, -⟩ | ⟨l, hr, hadd, -⟩
  · exact .inl ⟨fault, by rw [hr]⟩
  · exact .inr ⟨l, by rw [hr], hadd⟩

theorem Holds.fails_iff (h : Holds r ts) :
    Fails r s ↔ s.name ∈ ts.map Spec.name ∨ s.Faulty := by
  rw [Fails, tell_eq]
  rcases h.register_cases (s := s) with ⟨fault, hr, hwhy⟩ | ⟨l, hr, -, hname, hsound⟩
  · rw [hr]
    exact iff_of_true ⟨fault, rfl⟩ hwhy
  · rw [hr]
    exact iff_of_false nofun (not_or.mpr ⟨hname, hsound⟩)

theorem Holds.after (h : Holds r ts) : Holds (r.after ss) (ts ++ r.accepted ss) := by
  induction ss generalizing r ts with
  | nil => rwa [Registry.after, accepted, List.append_nil]
  | cons s ss ih =>
    rw [Registry.after, accepted]
    rcases h.tell (s := s) with ⟨fault, hs⟩ | ⟨l, hs, hadd⟩
    · rw [hs]
      exact ih h
    · rw [hs, List.append_cons]
      exact ih hadd

structure Answers (r : Registry) (ts : List Spec) : Prop where
  languages : r.languages.map Language.spec = ts
  compiled : ∀ l ∈ r.languages, Language.compile l.spec = .ok l
  names : (ts.map Spec.name).Nodup
  get : ∀ name l, r.get? name = some l ↔ l ∈ r.languages ∧ l.name = name
  ascending : Text.Ascending r.extensions
  nodup : r.extensions.Nodup
  extensions : ∀ e, e ∈ r.extensions ↔ ∃ t ∈ ts, e ∈ t.extensions
  path : ∀ p : Path, r.forPath? p =
    (p.extension?.bind Bytes.toString?).bind fun e => r.latest? (Extension.normalize e)

theorem Holds.get?_eq_some (h : Holds r ts) {name : String} :
    r.get? name = some l ↔ l ∈ r.languages ∧ l.name = name := by
  have hname {k : Language} (hk : r.get? name = some k) : k ∈ r.languages ∧ k.name = name :=
    ⟨List.mem_of_find?_eq_some hk, by simpa using List.find?_some hk⟩
  refine ⟨hname, fun ⟨hl, heq⟩ => ?_⟩
  have hmem : name ∈ ts.map Spec.name := by
    rw [← heq, ← h.specs]
    exact List.mem_map_of_mem (List.mem_map_of_mem hl)
  obtain ⟨k, hk⟩ := Option.isSome_iff_exists.mp (h.isSome_get?.mpr hmem)
  have hnodup : (r.languages.map Language.name).Nodup := by
    have hnames := h.names
    rwa [← h.specs, List.map_map] at hnames
  rw [hk, List.inj_on_of_nodup_map hnodup (hname hk).1 hl ((hname hk).2.trans heq.symm)]

theorem Holds.answers (h : Holds r ts) : Answers r ts where
  languages := h.specs
  compiled := h.compiled
  names := h.names
  get _ _ := h.get?_eq_some
  ascending := Text.ascending_sorted _
  nodup := (Text.ascending_sorted _).nodup
  extensions e := by simp [h.indexed.mem_extensions, ← h.specs]
  path p := by
    simp only [forPath?, Option.bind_eq_bind, Option.bind_assoc, h.indexed.latest]

theorem answers_after_calls (ss : List Spec) (s : Spec) :
    Answers (empty.after ss) (empty.accepted ss) ∧
    (Fails (empty.after ss) s ↔ s.name ∈ (empty.accepted ss).map Spec.name ∨ s.Faulty) ∧
    (Fails (empty.after ss) s → ((empty.after ss).tell s).2 = empty.after ss) := by
  have h : Holds (empty.after ss) (empty.accepted ss) := holds_empty.after
  refine ⟨h.answers, h.fails_iff, ?_⟩
  rintro ⟨fault, hfault⟩
  rcases h.tell (s := s) with ⟨fault', hs⟩ | ⟨l, hs, -⟩
  · rw [hs]
  · rw [hs] at hfault
    cases hfault

end

-- A call that fails does not win the extension back.
example :
    let a : Spec := { Spec.empty "a" .go with extensions := [".x"] }
    let b : Spec := { Spec.empty "b" .go with extensions := [".x"] }
    ((empty.after [a, b, a]).forExtension? ".x").map Language.name = some "b" := by decide

end ChunkWatch.Registry
