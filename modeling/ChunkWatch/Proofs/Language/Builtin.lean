import ChunkWatch.Proofs.Query.Captures
import ChunkWatch.Proofs.Query.Definitions
import ChunkWatch.Proofs.Query.Reading
import ChunkWatch.Language
import ChunkWatch.Language.Builtin

namespace ChunkWatch.Language

open Query (capturesOnly declaratorProgram decoratedProgram exportedProgram nameProgram readsAs
  summaryProgram)

variable {s : Spec} {P : String → ChunkRule.Compiled → Prop}

theorem compileRules_of_forall {rules : List (String × ChunkRule)}
    (h : ∀ r ∈ rules, ∃ c, compileRule s r.1 r.2 = .ok c ∧ P r.1 c) :
    ∃ cs, compileRules s rules = .ok cs ∧ cs.map Prod.fst = rules.map Prod.fst ∧
      ∀ c ∈ cs, P c.1 c.2 := by
  induction rules with
  | nil => exact ⟨[], rfl, rfl, List.forall_mem_nil _⟩
  | cons r rules ih =>
    obtain ⟨hr, hrules⟩ := List.forall_mem_cons.mp h
    obtain ⟨c, hc, hP⟩ := hr
    obtain ⟨cs, hcs, hkinds, hall⟩ := ih hrules
    refine ⟨(r.1, c) :: cs, ?_, ?_, List.forall_mem_cons.mpr ⟨hP, hall⟩⟩
    · rw [compileRules, hc, hcs]
      rfl
    · rw [List.map_cons, List.map_cons, hkinds]

structure Reads (s : Spec) (P : String → ChunkRule.Compiled → Prop) (l : Language) : Prop where
  compile : Language.compile s = .ok l
  spec : l.spec = s
  kinds : l.rules.map Prod.fst = s.chunks.map Prod.fst
  rules : ∀ r ∈ l.rules, P r.1 r.2

theorem reads_of_forall (hrules : ∀ r ∈ s.chunks, ∃ c, compileRule s r.1 r.2 = .ok c ∧ P r.1 c)
    (hroles : (compileRoles s.name s.roles).isOk) : ∃ l, Reads s P l := by
  obtain ⟨cs, hcs, hkinds, hall⟩ := compileRules_of_forall hrules
  cases hroles' : compileRoles s.name s.roles with
  | error e =>
    rw [hroles'] at hroles
    cases hroles
  | ok roles =>
    refine ⟨⟨s, cs, roles⟩, ?_, rfl, hkinds, hall⟩
    rw [Language.compile, hcs, hroles']
    rfl

namespace Reads

variable {l : Language} {kind : String} {c : ChunkRule.Compiled}

theorem of_rule? (h : Reads s P l) (hc : l.rule? kind = some c) : P kind c := by
  obtain ⟨front, back, hsplit, -⟩ := List.lookup_eq_some_iff.mp hc
  exact h.rules (kind, c) (by simp [hsplit])

theorem exists_rule? (h : Reads s P l) (hkind : kind ∈ s.chunks.map Prod.fst) :
    ∃ c, l.rule? kind = some c := by
  rw [← h.kinds] at hkind
  obtain ⟨r, hr, rfl⟩ := List.mem_map.mp hkind
  rw [rule?, ← Option.isSome_iff_exists, List.lookup_isSome_iff]
  exact ⟨r, hr, beq_self_eq_true r.1⟩

theorem rule?_eq_none (h : Reads s P l) (hkind : kind ∉ s.chunks.map Prod.fst) :
    l.rule? kind = none := by
  rw [← h.kinds] at hkind
  rw [rule?, List.lookup_eq_none_iff]
  intro r hr
  have hne : kind ≠ r.1 := by
    rintro rfl
    exact hkind (List.mem_map_of_mem hr)
  exact bne_iff_ne.mpr hne

end Reads

def nameKinds : List String := ["identifier", "field_identifier", "type_identifier"]

structure Plain (c : ChunkRule.Compiled) : Prop where
  name : capturesOnly nameKinds (c.name.clauses.map Prod.fst)
  summary : c.summary = none

theorem compileRule_plain {kind : String} {r : ChunkRule}
    (hname : ∃ qs, Query.compile s.grammar r.name "name" = .ok ⟨qs.map (·, []), "name"⟩ ∧
      capturesOnly nameKinds qs)
    (hparent : ∀ source ∈ r.parent, ∃ q, Query.compile s.grammar source "name" = .ok q)
    (hsummary : r.summary = none) : ∃ c, compileRule s kind r = .ok c ∧ Plain c := by
  obtain ⟨qs, hqs, hcaptures⟩ := hname
  have hplain (parent : Option Query) : Plain ⟨⟨qs.map (·, []), "name"⟩, parent, none⟩ := by
    refine ⟨?_, rfl⟩
    rw [List.map_map]
    exact (List.map_id qs).symm ▸ hcaptures
  cases hp : r.parent with
  | none =>
    refine ⟨_, ?_, hplain none⟩
    rw [compileRule, compileQuery, hqs, hp, hsummary]
    rfl
  | some source =>
    obtain ⟨q, hq⟩ := hparent source hp
    refine ⟨_, ?_, hplain (some q)⟩
    rw [compileRule, compileQuery, hqs, hp, compileOptional, compileQuery, hq, hsummary]
    rfl

set_option maxRecDepth 2000 in
theorem reads_go : ∃ l, Reads .go (fun _ => Plain) l := by
  refine reads_of_forall ?_ (by decide +kernel)
  have hchunks : Spec.go.chunks = [
    ("const_declaration", .named "(const_declaration (const_spec name: (identifier) @name))"),
    ("function_declaration", .named "(function_declaration name: (identifier) @name)"),
    ("method_declaration",
      ⟨"(method_declaration name: (field_identifier) @name)", some Spec.methodReceiver, none⟩),
    ("type_declaration", .named Spec.declaredType),
    ("var_declaration", .named "(var_declaration (var_spec name: (identifier) @name))")] := rfl
  simp only [hchunks, List.forall_mem_cons]
  have hreceiver : ∃ qs, Query.compile .go Spec.methodReceiver "name" =
      .ok ⟨qs.map (·, []), "name"⟩ ∧ capturesOnly nameKinds qs :=
    Query.compile_of_readsAs rfl (by decide +kernel)
  refine ⟨?_, ?_, ?_, ?_, ?_, List.forall_mem_nil _⟩
  · exact compileRule_plain (Query.compile_of_readsAs rfl (by decide +kernel)) nofun rfl
  · exact compileRule_plain (Query.compile_of_readsAs rfl (by decide +kernel)) nofun rfl
  · refine compileRule_plain (Query.compile_of_readsAs rfl (by decide +kernel)) ?_ rfl
    rintro source ⟨⟩
    obtain ⟨qs, hqs, -⟩ := hreceiver
    exact ⟨_, hqs⟩
  · exact compileRule_plain (Query.compile_of_readsAs rfl (by decide +kernel)) nofun rfl
  · exact compileRule_plain (Query.compile_of_readsAs rfl (by decide +kernel)) nofun rfl

theorem compile_of_readsAs {g : Syntax.Grammar} {source wanted : String} {p : Query.Program}
    {cs : List Char} (hsource : source = String.ofList cs)
    (h : readsAs (fun qs => decide (qs = [p])) g wanted cs) :
    Query.compile g source wanted = .ok (p.query wanted) := by
  obtain ⟨qs, hqs, heq⟩ := Query.compile_of_readsAs hsource h
  rw [of_decide_eq_true heq] at hqs
  exact hqs

theorem compileRule_named {kind source : String} {p : Query.Program} {cs : List Char}
    (hsource : source = String.ofList cs)
    (h : readsAs (fun qs => decide (qs = [p])) s.grammar "name" cs) :
    compileRule s kind (.named source) = .ok ⟨p.query "name", none, none⟩ := by
  rw [compileRule, compileQuery, ChunkRule.named, compile_of_readsAs hsource h]
  rfl

def definitionKinds : List String := ["class_definition", "function_definition"]

def functionKinds : List String :=
  ["class_declaration", "function_declaration", "generator_function_declaration"]

def variableKinds : List String := ["lexical_declaration", "variable_declaration"]

inductive Decorating : String → ChunkRule.Compiled → Prop
  | definition : kind ∈ definitionKinds →
      Decorating kind ⟨(nameProgram kind).query "name", none, none⟩
  | decorated : Decorating "decorated_definition"
      ⟨decoratedProgram.query "name", none, some (summaryProgram.query "summary")⟩

inductive Exporting : String → ChunkRule.Compiled → Prop
  | declaration : kind ∈ functionKinds →
      Exporting kind ⟨(nameProgram kind).query "name", none, none⟩
  | declarator : kind ∈ variableKinds →
      Exporting kind ⟨(declaratorProgram kind).query "name", none, none⟩
  | exported : Exporting "export_statement" ⟨exportedProgram.query "name", none, none⟩

set_option maxRecDepth 2000 in
theorem reads_python : ∃ l, Reads .python Decorating l := by
  refine reads_of_forall ?_ (by decide +kernel)
  have hchunks : Spec.python.chunks = [
    ("class_definition", .named "(class_definition name: (identifier) @name)"),
    ("decorated_definition", ⟨Spec.decoratedName, none, some Spec.decoratedSummary⟩),
    ("function_definition", .named "(function_definition name: (identifier) @name)")] := rfl
  simp only [hchunks, List.forall_mem_cons]
  refine ⟨⟨_, ?_, .definition (by decide)⟩, ⟨_, ?_, .decorated⟩, ⟨_, ?_, .definition (by decide)⟩,
    List.forall_mem_nil _⟩
  · exact compileRule_named rfl (by decide +kernel)
  · have hname : Query.compile Spec.python.grammar Spec.decoratedName "name" =
        .ok (decoratedProgram.query "name") := compile_of_readsAs rfl (by decide +kernel)
    have hsummary : Query.compile Spec.python.grammar Spec.decoratedSummary "summary" =
        .ok (summaryProgram.query "summary") := compile_of_readsAs rfl (by decide +kernel)
    rw [compileRule, compileQuery, hname]
    simp only [compileOptional, compileQuery, hsummary]
    rfl
  · exact compileRule_named rfl (by decide +kernel)

set_option maxRecDepth 4000 in
theorem reads_javascript : ∃ l, Reads .javascript Exporting l := by
  refine reads_of_forall ?_ (by decide +kernel)
  have hchunks : Spec.javascript.chunks = [
    ("class_declaration", .named "(class_declaration name: (identifier) @name)"),
    ("export_statement", .named Spec.exportedName),
    ("function_declaration", .named "(function_declaration name: (identifier) @name)"),
    ("generator_function_declaration",
      .named "(generator_function_declaration name: (identifier) @name)"),
    ("lexical_declaration",
      .named "(lexical_declaration (variable_declarator name: (identifier) @name))"),
    ("variable_declaration",
      .named "(variable_declaration (variable_declarator name: (identifier) @name))")] := rfl
  simp only [hchunks, List.forall_mem_cons]
  refine ⟨⟨_, ?_, .declaration (by decide)⟩, ⟨_, ?_, .exported⟩, ⟨_, ?_, .declaration (by decide)⟩,
    ⟨_, ?_, .declaration (by decide)⟩, ⟨_, ?_, .declarator (by decide)⟩,
    ⟨_, ?_, .declarator (by decide)⟩, List.forall_mem_nil _⟩
  all_goals exact compileRule_named rfl (by decide +kernel)

end ChunkWatch.Language
