import ChunkWatch.Proofs.Language.Extensions

/-! Claims that displace others.  A registration settles the place of its language before the
language is there, so a claim that it displaces may be its own, and that place is still empty.  This
happens just when a spec lists an extension twice. -/

namespace ChunkWatch.Registry

structure TakeOver where
  extension : Extension
  previous : Nat
  languages : List Language

def TakeOver.IsInside (t : TakeOver) : Prop := t.previous < t.languages.length

structure Watched where
  registry : Registry
  takeOvers : List TakeOver

namespace Watched

def claim (w : Watched) (e : Extension) (i : Nat) : Watched where
  registry := { w.registry with claims := Registry.claim e i w.registry.claims }
  takeOvers := w.takeOvers ++
    ((w.registry.claims.lookup e).map fun j => ⟨e, j, w.registry.languages⟩).toList

def claimAll (w : Watched) (es : List Extension) (i : Nat) : Watched :=
  es.foldl (fun w e => w.claim e i) w

def call (s : Spec) : ExceptT LanguageError (StateM Watched) Unit := do
  if ((← get).registry.get? s.name).isSome then throw (.duplicate s.name)
  let l ← liftExcept (Language.compile s)
  let index := (← get).registry.languages.length
  l.spec.extensions.forM fun e => modify (·.claim e index)
  modify fun w =>
    { w with registry := { w.registry with languages := w.registry.languages ++ [l] } }

def tell (w : Watched) (s : Spec) : Except LanguageError Unit × Watched := (call s).run.run w

end Watched

def takeOvers (r : Registry) (s : Spec) : List TakeOver := (Watched.tell ⟨r, []⟩ s).2.takeOvers

variable {r : Registry} {w : Watched} {s : Spec} {ss ts : List Spec} {e : Extension}
  {es : List Extension} {i : Nat}

namespace Watched

theorem run_claims : (es.forM fun e => (modify (·.claim e i) :
    ExceptT LanguageError (StateM Watched) PUnit)).run.run w = (.ok (), w.claimAll es i) := by
  induction es generalizing w with
  | nil => rfl
  | cons e es ih => exact ih

theorem registry_claimAll : (w.claimAll es i).registry = { w.registry with
    claims := es.foldl (fun cs e => Registry.claim e i cs) w.registry.claims } := by
  induction es generalizing w with
  | nil => rfl
  | cons e es ih => exact ih

theorem tell_eq : w.tell s =
    match w.registry.register s with
    | .error fault => (.error fault, w)
    | .ok r => (.ok (), ⟨r, (w.claimAll s.extensions w.registry.languages.length).takeOvers⟩) := by
  have hget : (get : ExceptT LanguageError (StateM Watched) Watched).run.run w = (.ok w, w) := rfl
  rw [tell, call, run_bind hget, register]
  by_cases hname : (w.registry.get? s.name).isSome
  · rw [if_pos hname, if_pos hname]
    rfl
  · rw [if_neg hname, if_neg hname]
    cases hl : Language.compile s with
    | error fault => rfl
    | ok l =>
      obtain rfl := spec_of_compile hl
      refine (run_bind run_claims).trans ?_
      have hadd : { (w.claimAll l.spec.extensions w.registry.languages.length).registry with
          languages := (w.claimAll l.spec.extensions
            w.registry.languages.length).registry.languages ++ [l] } = w.registry.add l := by
        rw [registry_claimAll]
        rfl
      exact congrArg (fun r => (Except.ok (), Watched.mk r _)) hadd

theorem registry_tell : ((w.tell s).1, (w.tell s).2.registry) = w.registry.tell s := by
  rw [tell_eq, Registry.tell_eq]
  cases w.registry.register s <;> rfl

theorem forall_takeOvers_claim (h : i = w.registry.languages.length) :
    (∀ t ∈ (w.claim e i).takeOvers, t.IsInside) ↔
      (∀ t ∈ w.takeOvers, t.IsInside) ∧ ∀ j, w.registry.claims.lookup e = some j → j < i := by
  simp [claim, TakeOver.IsInside, or_imp, forall_and, h]

theorem forall_takeOvers_claimAll (h : i = w.registry.languages.length) :
    (∀ t ∈ (w.claimAll es i).takeOvers, t.IsInside) ↔
      (∀ t ∈ w.takeOvers, t.IsInside) ∧ es.Nodup ∧
        ∀ e ∈ es, ∀ j, w.registry.claims.lookup e = some j → j < i := by
  induction es generalizing w with
  | nil => simp [claimAll]
  | cons e es ih =>
    -- The claim that has just been made is for the empty place, so it may not be displaced again.
    have hlookup (f : Extension) : (w.claim e i).registry.claims.lookup f =
        if f = e then some i else w.registry.claims.lookup f := lookup_claim
    have hlater : (∀ f ∈ es, ∀ j, (w.claim e i).registry.claims.lookup f = some j → j < i) ↔
        e ∉ es ∧ ∀ f ∈ es, ∀ j, w.registry.claims.lookup f = some j → j < i := by
      refine ⟨fun hall => ?_, fun ⟨hfresh, hall⟩ f hf j hj => hall f hf j ?_⟩
      · have hfresh : e ∉ es := fun he => lt_irrefl i (hall e he i (by rw [hlookup, if_pos rfl]))
        refine ⟨hfresh, fun f hf j hj => hall f hf j ?_⟩
        rwa [hlookup, if_neg (ne_of_mem_of_not_mem hf hfresh)]
      · rwa [hlookup, if_neg (ne_of_mem_of_not_mem hf hfresh)] at hj
    have hstep := ih (w := w.claim e i) h
    rw [forall_takeOvers_claim h, hlater] at hstep
    rw [List.nodup_cons, List.forall_mem_cons]
    exact hstep.trans (by tauto)

end Watched

/-- A registration that displaces a claim finds the language that made it, unless the spec lists an
extension twice. -/
theorem takeOvers_inside_iff (ss : List Spec) (s : Spec) :
    (∀ t ∈ (empty.after ss).takeOvers s, t.previous < t.languages.length) ↔
      Fails (empty.after ss) s ∨ s.extensions.Nodup := by
  have hholds : Holds (empty.after ss) (empty.accepted ss) := holds_empty.after
  rw [takeOvers, Watched.tell_eq, Fails, tell_eq]
  cases (empty.after ss).register s with
  | error fault => exact iff_of_true (List.forall_mem_nil _) (.inl ⟨fault, rfl⟩)
  | ok r =>
    have hfound := @Watched.forall_takeOvers_claimAll ⟨empty.after ss, []⟩ s.extensions _ rfl
    refine hfound.trans ⟨fun h => .inr h.2.1, fun h => ?_⟩
    have hnodup : s.extensions.Nodup := by
      refine h.resolve_left ?_
      rintro ⟨fault, hfault⟩
      cases hfault
    exact ⟨List.forall_mem_nil _, hnodup, fun e _ j hj => hholds.indexed.inside hj⟩

def doubled : Spec := (Spec.empty "doubled" .go).withExtensions ["go", ".GO"]

theorem not_takeOvers_inside : ¬∀ (ss : List Spec) (s : Spec), (∀ t ∈ ss, t.Built) → s.Built →
    ¬Fails (empty.after ss) s →
      ∀ t ∈ (empty.after ss).takeOvers s, t.previous < t.languages.length := by
  intro h
  have hsucceeds : ¬Fails empty doubled := by
    rintro ⟨fault, hfault⟩
    have hok : (empty.tell doubled).1.isOk := by decide +kernel
    rw [hfault] at hok
    cases hok
  have hbuilt : doubled.Built := .extensions (.empty "doubled" .go)
  have hinside := h [] doubled (List.forall_mem_nil _) hbuilt hsucceeds
  have hbeyond : ∃ t ∈ empty.takeOvers doubled, t.languages.length ≤ t.previous := by decide +kernel
  obtain ⟨t, ht, hle⟩ := hbeyond
  exact absurd (hinside t ht) (Nat.not_lt.mpr hle)

end ChunkWatch.Registry
