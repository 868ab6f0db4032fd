import ChunkWatch.Proofs.Query.Ways

namespace ChunkWatch.Query

open Syntax (Node)

deriving instance DecidableEq for Step

def nameSlot : Slot := ⟨some "name", "identifier"⟩

def declaratorSlot : Slot := ⟨none, "variable_declarator"⟩

def Step.jump (target : Nat) : Step :=
  { selector := .any, depth := 1, alternative := some target, deadEnd := true }

def nameProgram (kind : String) : Program := [.start kind, .slot 1 nameSlot ["name"] none]

def declaratorProgram (kind : String) : Program :=
  [.start kind, .slot 1 declaratorSlot [] none, .slot 2 nameSlot ["name"] none]

def summaryProgram : Program :=
  [.start "decorated_definition",
    .slot 1 ⟨some "definition", "function_definition"⟩ ["summary"] (some 3),
    .jump 4,
    .slot 1 ⟨some "definition", "class_definition"⟩ ["summary"] none]

def decoratedProgram : Program :=
  [.start "decorated_definition",
    .slot 1 ⟨some "definition", "function_definition"⟩ [] (some 4),
    .slot 2 nameSlot ["name"] none,
    .jump 6,
    .slot 1 ⟨some "definition", "class_definition"⟩ [] none,
    .slot 2 nameSlot ["name"] none]

def exportedProgram : Program :=
  [.start "export_statement",
    .slot 1 ⟨some "declaration", "function_declaration"⟩ [] (some 4),
    .slot 2 nameSlot ["name"] none,
    .jump 17,
    .slot 1 ⟨some "declaration", "generator_function_declaration"⟩ [] (some 7),
    .slot 2 nameSlot ["name"] none,
    .jump 17,
    .slot 1 ⟨some "declaration", "class_declaration"⟩ [] (some 10),
    .slot 2 nameSlot ["name"] none,
    .jump 17,
    .slot 1 ⟨some "declaration", "lexical_declaration"⟩ [] (some 14),
    .slot 2 declaratorSlot [] none,
    .slot 3 nameSlot ["name"] none,
    .jump 17,
    .slot 1 ⟨some "declaration", "variable_declaration"⟩ [] none,
    .slot 2 declaratorSlot [] none,
    .slot 3 nameSlot ["name"] none]

def summaryWays : List (Nat × Way) :=
  [(1, ⟨⟨some "definition", "function_definition"⟩, []⟩),
    (3, ⟨⟨some "definition", "class_definition"⟩, []⟩)]

def decoratedWays : List (Nat × Way) :=
  [(1, ⟨⟨some "definition", "function_definition"⟩, [nameSlot]⟩),
    (4, ⟨⟨some "definition", "class_definition"⟩, [nameSlot]⟩)]

def exportedWays : List (Nat × Way) :=
  [(1, ⟨⟨some "declaration", "function_declaration"⟩, [nameSlot]⟩),
    (4, ⟨⟨some "declaration", "generator_function_declaration"⟩, [nameSlot]⟩),
    (7, ⟨⟨some "declaration", "class_declaration"⟩, [nameSlot]⟩),
    (10, ⟨⟨some "declaration", "lexical_declaration"⟩, [declaratorSlot, nameSlot]⟩),
    (14, ⟨⟨some "declaration", "variable_declaration"⟩, [declaratorSlot, nameSlot]⟩)]

variable {kind : String} {text : Bytes} {n m x : Node}

theorem name_startsWith (kind : String) :
    (nameProgram kind).StartsWith "name" kind (some "name") [(1, ⟨nameSlot, []⟩)] where
  leads := List.forall_mem_singleton.mpr (.last rfl rfl fun _ => rfl)
  field := List.forall_mem_singleton.mpr rfl
  kinds := List.pairwise_singleton ..
  nodup := List.nodup_singleton 1
  entries := rfl
  first := rfl
  split := rfl
  some := List.cons_ne_nil _ _

theorem declarator_startsWith (kind : String) : (declaratorProgram kind).StartsWith "name" kind none
    [(1, ⟨declaratorSlot, [nameSlot]⟩)] where
  leads := List.forall_mem_singleton.mpr (.more rfl rfl rfl (.last rfl rfl fun _ => rfl))
  field := List.forall_mem_singleton.mpr rfl
  kinds := List.pairwise_singleton ..
  nodup := List.nodup_singleton 1
  entries := rfl
  first := rfl
  split := rfl
  some := List.cons_ne_nil _ _

theorem summary_startsWith : summaryProgram.StartsWith "summary" "decorated_definition"
    (some "definition") summaryWays where
  leads := by
    simp only [summaryWays, List.forall_mem_cons]
    exact ⟨.last rfl rfl fun _ => rfl, .last rfl rfl fun _ => rfl, List.forall_mem_nil _⟩
  field := by decide
  kinds := by decide
  nodup := by decide
  entries := rfl
  first := rfl
  split := rfl
  some := List.cons_ne_nil _ _

theorem decorated_startsWith : decoratedProgram.StartsWith "name" "decorated_definition"
    (some "definition") decoratedWays where
  leads := by
    have hname (i : Nat) (hi : i = 2 ∨ i = 5) : decoratedProgram.Leads "name" i 2 [nameSlot] := by
      rcases hi with rfl | rfl <;> exact .last rfl rfl fun _ => rfl
    simp only [decoratedWays, List.forall_mem_cons]
    exact ⟨.more rfl rfl rfl (hname 2 (.inl rfl)), .more rfl rfl rfl (hname 5 (.inr rfl)),
      List.forall_mem_nil _⟩
  field := by decide
  kinds := by decide
  nodup := by decide
  entries := rfl
  first := rfl
  split := rfl
  some := List.cons_ne_nil _ _

theorem exported_startsWith : exportedProgram.StartsWith "name" "export_statement"
    (some "declaration") exportedWays where
  leads := by
    simp only [exportedWays, List.forall_mem_cons]
    exact ⟨.more rfl rfl rfl (.last rfl rfl fun _ => rfl),
      .more rfl rfl rfl (.last rfl rfl fun _ => rfl),
      .more rfl rfl rfl (.last rfl rfl fun _ => rfl),
      .more rfl rfl rfl (.more rfl rfl rfl (.last rfl rfl fun _ => rfl)),
      .more rfl rfl rfl (.more rfl rfl rfl (.last rfl rfl fun _ => rfl)), List.forall_mem_nil _⟩
  field := by decide
  kinds := by decide
  nodup := by decide
  entries := rfl
  first := rfl
  split := rfl
  some := List.cons_ne_nil _ _

theorem findAny_decoratedWays (n : Node) :
    findAny decoratedWays n = (findAny summaryWays n).bind (search [nameSlot]) := by
  by_cases hfunction : Slot.fits ⟨some "definition", "function_definition"⟩ n
  · cases hname : search [nameSlot] n with
    | none => simp [findAny, decoratedWays, summaryWays, Way.find, hfunction, hname]
    | some x => simp [findAny, decoratedWays, summaryWays, Way.find, hfunction, hname]
  · by_cases hclass : Slot.fits ⟨some "definition", "class_definition"⟩ n
    · simp [findAny, decoratedWays, summaryWays, Way.find, hfunction, hclass]
    · simp [findAny, decoratedWays, summaryWays, Way.find, hfunction, hclass]

theorem decorated_of_summary {ns : List Node} (hm : ns.findSome? (findAny summaryWays) = some m)
    (hx : search [nameSlot] m = some x) : ns.findSome? (findAny decoratedWays) = some x := by
  obtain ⟨front, c, back, rfl, hc, hfront⟩ := List.findSome?_eq_some_iff.mp hm
  have hnone : front.findSome? (findAny decoratedWays) = none := by
    rw [List.findSome?_eq_none_iff]
    intro v hv
    rw [findAny_decoratedWays, hfront v hv]
    rfl
  rw [List.findSome?_append, hnone, Option.none_or, List.findSome?_cons, findAny_decoratedWays, hc,
    Option.bind_some, hx]

end ChunkWatch.Query
