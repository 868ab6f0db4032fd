import ChunkWatch.Language

namespace ChunkWatch

open Syntax (Grammar)

section

variable {ε ε' α β : Type} {x : Except ε α}

theorem isOk_map {f : α → β} : (x.map f).isOk = x.isOk := by cases x <;> rfl

theorem isOk_mapError {f : ε → ε'} : (x.mapError f).isOk = x.isOk := by cases x <;> rfl

theorem isOk_bind {f : α → Except ε β} {b : Bool} (h : ∀ a, (f a).isOk = b) :
    (x >>= f).isOk = (x.isOk && b) := by
  cases x with
  | error e => rfl
  | ok a => exact h a

theorem isOk_bind_pure {f : α → β} :
    (x >>= fun a => (pure (f a) : Except ε β)).isOk = x.isOk := by cases x <;> rfl

end

theorem Language.isOk_compileRoles {language : String} {rules : List RoleRule} :
    (Language.compileRoles language rules).isOk =
      rules.all fun r => (Glob.parse false r.pattern.toList).isOk := by
  rw [Language.compileRoles, isOk_mapError]
  induction rules with
  | nil => rfl
  | cons r rules ih =>
    rw [RoleTable.compile, List.all_cons]
    cases Glob.parse false r.pattern.toList with
    | error f => rfl
    | ok g => exact isOk_map.trans ih

variable [Query.Analysis]

namespace Query

/-- What a text captures when it is a query of the grammar: it can be read, it is not impossible and
its predicates are in order. -/
def captures? (g : Grammar) (source : String) : Option (List String) :=
  match parse g source, Analysis.impossible? g source with
  | .ok (clauses, captures), none =>
    if (compileClauses source clauses).isOk then some captures else none
  | _, _ => none

theorem isOk_compile {g : Grammar} {source wanted : String} :
    (compile g source wanted).isOk ↔ ∃ cs, captures? g source = some cs ∧ wanted ∈ cs := by
  cases hparse : parse g source with
  | error f => simp [compile, captures?, hparse, Except.isOk, Except.toBool]
  | ok r =>
    obtain ⟨clauses, captures⟩ := r
    cases hpossible : Analysis.impossible? g source with
    | some offset => simp [compile, captures?, hparse, hpossible, Except.isOk, Except.toBool]
    | none =>
      cases hclauses : compileClauses source clauses with
      | error e =>
        simp [compile, captures?, hparse, hpossible, hclauses, bind, Except.bind, Except.isOk,
          Except.toBool]
      | ok programs =>
        by_cases hwanted : wanted ∈ captures <;>
          simp [compile, captures?, hparse, hpossible, hclauses, bind, Except.bind, pure,
            Except.pure, Except.isOk, Except.toBool, hwanted]

end Query

def ChunkRule.queries (r : ChunkRule) : List (String × String) :=
  (r.name, "name") :: (r.parent.toList.map (·, "name") ++ r.summary.toList.map (·, "summary"))

inductive Spec.Faulty (s : Spec) : Prop
  | unreadable : (kind, r) ∈ s.chunks → (source, wanted) ∈ r.queries →
      Query.captures? s.grammar source = none → Faulty s
  | missing : (kind, r) ∈ s.chunks → (source, wanted) ∈ r.queries →
      Query.captures? s.grammar source = some captures → wanted ∉ captures → Faulty s
  | glob : r ∈ s.roles → Glob.parse false r.pattern.toList = .error fault → Faulty s

namespace Language

variable {s : Spec}

theorem isOk_compileQuery {kind source wanted : String} {part : QueryPart} :
    (compileQuery s kind part wanted source).isOk = (Query.compile s.grammar source wanted).isOk :=
  isOk_mapError

theorem isOk_compileOptional {kind wanted : String} {part : QueryPart} {q : Option String} :
    (compileOptional s kind part wanted q).isOk =
      q.toList.all fun source => (Query.compile s.grammar source wanted).isOk := by
  cases q with
  | none => rfl
  | some source =>
    rw [compileOptional, isOk_map, isOk_compileQuery]
    exact (Bool.and_true _).symm

theorem isOk_compileRule {kind : String} {r : ChunkRule} :
    (compileRule s kind r).isOk =
      r.queries.all fun q => (Query.compile s.grammar q.1 q.2).isOk := by
  have h : (compileRule s kind r).isOk = ((compileQuery s kind .name "name" r.name).isOk &&
      ((compileOptional s kind .parentName "name" r.parent).isOk &&
        (compileOptional s kind .summary "summary" r.summary).isOk)) :=
    isOk_bind fun _ => isOk_bind fun _ => isOk_bind_pure
  rw [h, isOk_compileQuery, isOk_compileOptional, isOk_compileOptional]
  simp only [ChunkRule.queries, List.all_cons, List.all_append, List.all_map]
  rfl

theorem isOk_compileRules {rules : List (String × ChunkRule)} :
    (compileRules s rules).isOk = rules.all fun r => (compileRule s r.1 r.2).isOk := by
  induction rules with
  | nil => rfl
  | cons r rules ih =>
    have h : (compileRules s (r :: rules)).isOk =
        ((compileRule s r.1 r.2).isOk && (compileRules s rules).isOk) :=
      isOk_bind fun _ => isOk_bind_pure
    rw [h, ih, List.all_cons]

theorem isOk_compile : (compile s).isOk =
    ((compileRules s s.chunks).isOk && (compileRoles s.name s.roles).isOk) :=
  isOk_bind fun _ => isOk_bind_pure

theorem isOk_compile_iff : (compile s).isOk ↔ ¬s.Faulty := by
  rw [isOk_compile, isOk_compileRules, isOk_compileRoles]
  simp only [Bool.and_eq_true, List.all_eq_true, isOk_compileRule]
  constructor
  · rintro ⟨hrules, hroles⟩ hfault
    cases hfault with
    | unreadable hr hq hnone =>
      obtain ⟨cs, hcs, -⟩ := Query.isOk_compile.mp (hrules _ hr _ hq)
      rw [hnone] at hcs
      cases hcs
    | missing hr hq hsome hwanted =>
      obtain ⟨cs, hcs, hmem⟩ := Query.isOk_compile.mp (hrules _ hr _ hq)
      rw [hsome] at hcs
      cases hcs
      exact hwanted hmem
    | glob hr herror =>
      have h := hroles _ hr
      rw [herror] at h
      cases h
  · intro hsound
    refine ⟨fun r hr q hq => ?_, fun r hr => ?_⟩
    · rw [Query.isOk_compile]
      cases hcs : Query.captures? s.grammar q.1 with
      | none => exact absurd (.unreadable hr hq hcs) hsound
      | some cs =>
        by_cases hwanted : q.2 ∈ cs
        · exact ⟨cs, rfl, hwanted⟩
        · exact absurd (.missing hr hq hcs hwanted) hsound
    · cases hglob : Glob.parse false r.pattern.toList with
      | error fault => exact absurd (.glob hr hglob) hsound
      | ok g => rfl

end Language

end ChunkWatch
